import Yazi.Base.Keyed
import Yazi.Base.Run
import Yazi.Sftp.Packet

/-!
A session: the table of callbacks that wait for a response, the channel to the task that
writes, and the task that reads.

A call of `send_sync` takes an id, registers its callback under it, and only then serializes
the request and hands it to the channel; other calls and both tasks may act between these.
Calls are told apart by tokens, which stand for the two ends of their oneshot channels.
-/
namespace Yazi.Sftp
open Base Shared

/-- `Id::next`, with the counter it leaves. Zero is no id. -/
def Id.next (counter : UInt32) : UInt32 × UInt32 :=
  if counter ≠ 0 then (counter, counter + 1) else (counter + 1, counter + 1 + 1)

/-- The task that writes has met a broken pipe, closed the channel, drained the table. -/
inductive Writer where
  | running
  | broken
  | closed
  | finished
  deriving DecidableEq

/-- What became of a write. -/
inductive Written where
  | ok
  | brokenPipe
  | other
  deriving DecidableEq

structure Receiver where
  id : UInt32
  received : Bool

structure Session where
  counter : UInt32
  callback : Assoc UInt32 Nat
  queue : List Bytes
  /-- The receiving half of the channel is not closed. -/
  accepting : Bool
  writer : Writer
  /-- The task that reads goes on. -/
  reading : Bool
  /-- Reading has failed. -/
  lost : Bool
  /-- The number of calls so far. -/
  calls : Nat
  /-- The calls that have an id, and those that have registered their callback. -/
  starting : Assoc Nat Packet
  sending : Assoc Nat Packet
  receivers : Assoc Nat Receiver
  /-- Which call registered its callback under which id. -/
  registered : Assoc Nat UInt32
  /-- The calls that returned a receiver, and those that returned an error. -/
  accepted : List Nat
  failed : List Nat
  /-- What was sent to whose callback. -/
  delivered : Assoc Nat Packet

namespace Session

/-- `Session::make` -/
def make : Session where
  counter := 1
  callback := []
  queue := []
  accepting := true
  writer := .running
  reading := true
  lost := false
  calls := 0
  starting := []
  sending := []
  receivers := []
  registered := []
  accepted := []
  failed := []
  delivered := []

/-- A request that has no id yet gets the next one. -/
def start (s : Session) (request : Packet) : Session :=
  if request.id = 0 then
    let (id, counter) := Id.next s.counter
    { s with counter, calls := s.calls + 1, starting := (s.calls, request.withId id) :: s.starting }
  else { s with calls := s.calls + 1, starting := (s.calls, request) :: s.starting }

def register (s : Session) (token : Nat) (request : Packet) : Session :=
  { s with
    callback := s.callback.insert request.id token
    starting := s.starting.erase token
    sending := (token, request) :: s.sending
    registered := (token, request.id) :: s.registered }

/-- The call returns an error. -/
def fail (s : Session) (token : Nat) : Session :=
  { s with sending := s.sending.erase token, failed := token :: s.failed }

/-- `Receiver::new` -/
def accept (s : Session) (token : Nat) (request : Packet) (bytes : Bytes) : Session :=
  { s with
    queue := s.queue ++ [bytes]
    sending := s.sending.erase token
    accepted := token :: s.accepted
    receivers := (token, ⟨request.id, false⟩) :: s.receivers }

/-- `self.tx.send(crate::to_bytes(request)?)?` -/
def push (s : Session) (token : Nat) (request : Packet) : Session :=
  match request.toBytes with
  | .error _ => s.fail token
  | .ok bytes => if s.accepting then s.accept token request bytes else s.fail token

/-- `write`: an empty message is a broken pipe. Other errors are ignored. -/
def write (s : Session) (data : Bytes) (queue : List Bytes) (result : Written) : Session :=
  if data = [] ∨ result = .brokenPipe then { s with queue, writer := .broken } else { s with queue }

/-- `rx.close()` -/
def close (s : Session) : Session := { s with accepting := false, writer := .closed }

def lostPacket (id : UInt32) : Packet := .status (Status.connectionLost id)

/-- Everyone who waits is told that the connection is lost. -/
def drain (s : Session) : Session :=
  { s with
    callback := []
    writer := .finished
    delivered := (s.callback.map fun entry => (entry.2, lostPacket entry.1)) ++ s.delivered }

/-- What was read and can be parsed goes to the callback with its id, which is taken out. -/
def receive (s : Session) (buf : Bytes) : Session :=
  match Packet.fromBytes buf with
  | .error _ => s
  | .ok packet =>
    match s.callback.get? packet.id with
    | none => s
    | some token =>
      { s with
        callback := s.callback.erase packet.id
        delivered := (token, packet) :: s.delivered }

/-- `me_.tx.send(vec![]).ok()` -/
def lose (s : Session) : Session :=
  { s with
    queue := if s.accepting then s.queue ++ [[]] else s.queue
    reading := false
    lost := true }

/-- A receiver that is ready has received. -/
def poll (s : Session) (token : Nat) (receiver : Receiver) : Session :=
  match s.delivered.get? token with
  | none => s
  | some _ => { s with receivers := s.receivers.insert token { receiver with received := true } }

/-- `Drop for Receiver` -/
def drop (s : Session) (token : Nat) (receiver : Receiver) : Session :=
  { s with
    callback := if receiver.received then s.callback else s.callback.erase receiver.id
    receivers := s.receivers.erase token }

inductive Action where
  | start (request : Packet)
  | register (token : Nat)
  | push (token : Nat)
  | write (result : Written)
  | close
  | drain
  | receive (buf : Bytes)
  | lose
  /-- Reading stops because the channel is closed. -/
  | stop
  | poll (token : Nat)
  | drop (token : Nat)

/-- The steps of the task that writes. -/
def Action.isWriter : Action → Bool
  | .write _ | .close | .drain => true
  | _ => false

def step (s : Session) : Action → Option Session
  | .start request => some (s.start request)
  | .register token => (s.starting.get? token).map (s.register token)
  | .push token => (s.sending.get? token).map (s.push token)
  | .write result =>
    match s.writer, s.queue with
    | .running, data :: queue => some (s.write data queue result)
    | _, _ => none
  | .close => if s.writer = .broken then some s.close else none
  | .drain => if s.writer = .closed then some s.drain else none
  | .receive buf => if s.reading then some (s.receive buf) else none
  | .lose => if s.reading then some s.lose else none
  | .stop => if s.reading ∧ ¬s.accepting then some { s with reading := false } else none
  | .poll token => (s.receivers.get? token).map (s.poll token)
  | .drop token => (s.receivers.get? token).map (s.drop token)

end Session

end Yazi.Sftp
