import Yazi.Base.PlainFile
import Yazi.Base.Poll
import Yazi.Shared.Path

/-!
A cursor over a file that is read and written at given positions.

A read fills a buffer, from which the caller is served until it is used up, so the position of
the next read of the file is ahead of what the caller has seen. A write is accepted at once and
carried out behind the caller's back. Both run as a task that takes the buffer with it.
-/
namespace Yazi.Fs
open Yazi.Base Yazi.Shared

inductive IoError where
  | os (code : Nat)
  | writeZero
  /-- The task did not run to its end. -/
  | join
  deriving DecidableEq

/-- How a task has ended. -/
inductive Joined where
  | cancelled
  | finished (result : Except IoError Nat)

/-- The task that reads or writes, with the state of its loop. -/
structure Transfer where
  writing : Bool
  buf : Bytes
  offset : Nat
  written : Nat
  joined : Option Joined

structure FileCursor where
  offset : Nat
  buf : Bytes
  position : Nat
  task : Option Transfer

namespace Transfer

/-- A task is not cancelled once it has begun to write. -/
def begun (t : Transfer) : Bool := 0 < t.written

/-- What has been read, or `0` where there was an error. -/
def received (t : Transfer) : Nat :=
  match t.joined with
  | some (.finished (.ok n)) => n
  | _ => 0

/-- The buffer that the task gives back. -/
def truncated (t : Transfer) : Bytes := if t.writing then [] else t.buf.take t.received

/-- `FileExt::read_at` returns fewer bytes than there are, as it likes, and none only at the end of
the file or for an empty buffer. -/
def readAt (content : Bytes) (n : Nat) (t : Transfer) : Option Transfer :=
  if n ≤ t.buf.length ∧ n ≤ content.length - t.offset ∧
      (n = 0 → t.buf = [] ∨ content.length ≤ t.offset) then
    some { t with
      buf := slice content t.offset n ++ t.buf.drop n
      offset := t.offset + n
      joined := some (.finished (.ok n)) }
  else none

/-- The file takes nothing of what there is to write. -/
def stuck (t : Transfer) (n : Nat) : Bool := n = 0 ∧ t.written < t.buf.length

/-- One round of `write_all_at`, in which the file takes `n` bytes. -/
def writeAt (n : Nat) (t : Transfer) : Option Transfer :=
  if n ≤ t.buf.length - t.written then
    if t.stuck n then
      some { t with joined := some (.finished (.error .writeZero)) }
    else
      some { t with
        offset := t.offset + n
        written := t.written + n
        joined := if t.written + n = t.buf.length then some (.finished (.ok t.buf.length)) else none }
  else none

end Transfer

namespace FileCursor

def make (offset : Nat) : FileCursor := ⟨offset, [], 0, none⟩

/-- The bytes that were read ahead. -/
def unread (c : FileCursor) : Nat := c.buf.length - c.position

/-- `Transfer::spawn` -/
def spawn (c : FileCursor) (writing : Bool) : FileCursor :=
  ⟨c.offset, [], 0, some ⟨writing, c.buf, c.offset, 0, none⟩⟩

/-- With the number of bytes comes whether they were written. -/
def pollTransfer (c : FileCursor) (arrived : Bool) :
    FileCursor × Poll (Except IoError (Option (Nat × Bool))) :=
  match c.task with
  | none => (c, .ready (.ok none))
  | some task =>
    match arrived, task.joined with
    | true, some .cancelled => ({ c with task := none }, .ready (.error .join))
    | true, some (.finished (.error e)) =>
      (⟨task.offset, task.truncated, 0, none⟩, .ready (.error e))
    | true, some (.finished (.ok n)) =>
      (⟨task.offset, task.truncated, 0, none⟩, .ready (.ok (some (n, task.writing))))
    | _, _ => (c, .pending)

/-- `Vec::resize` -/
def resize (capacity : Nat) (buf : Bytes) : Bytes :=
  buf.take capacity ++ List.replicate (capacity - buf.length) 0

/-- The caller, who has room for `remaining` bytes, is given what there is in the buffer. -/
def serve (c : FileCursor) (remaining : Nat) : FileCursor × Poll (Except IoError (Option Bytes)) :=
  let bytes := (c.buf.drop c.position).take remaining
  ({ c with position := c.position + bytes.length }, .ready (.ok (some bytes)))

/-- `poll_read`, which is not ready with any bytes, nor pending, where it has spawned a read and
goes on with `resumeRead`. -/
def pollRead (c : FileCursor) (capacity remaining : Nat) (arrived : Bool) :
    FileCursor × Poll (Except IoError (Option Bytes)) :=
  Poll.andThen (c.pollTransfer arrived) fun c completed =>
    if remaining = 0 then (c, .ready (.ok (some [])))
    else if completed = some (0, false) then (c, .ready (.ok (some [])))
    else if c.position = c.buf.length then
      (spawn { c with buf := resize capacity c.buf } false, .ready (.ok none))
    else c.serve remaining

/-- `poll_read` from where it has spawned a read. The file may have been read already. -/
def resumeRead (c : FileCursor) (remaining : Nat) (arrived : Bool) :
    FileCursor × Poll (Except IoError (Option Bytes)) :=
  Poll.andThen (c.pollTransfer arrived) fun c _ => c.serve remaining

/-- The bytes that were read ahead are taken back, and the write is reported before it is done. -/
def pollWrite (c : FileCursor) (data : Bytes) (arrived : Bool) :
    FileCursor × Poll (Except IoError Nat) :=
  Poll.andThen (c.pollTransfer arrived) fun c _ =>
    (spawn { c with offset := c.offset - c.unread, buf := data } true, .ready (.ok data.length))

def pollFlush (c : FileCursor) (arrived : Bool) : FileCursor × Poll (Except IoError Unit) :=
  Poll.andThen (c.pollTransfer arrived) fun c _ => (c, .ready (.ok ()))

end FileCursor

/-! ### The file -/

/-- A file that only its cursor changes. While a call to read is on that has spawned a read,
`polling` is the room its caller has. -/
structure OpenFile where
  cursor : FileCursor
  content : Bytes
  polling : Option Nat
  events : List (PlainFile.Event UInt8)

namespace OpenFile

def make (content : Bytes) (offset : Nat) : OpenFile := ⟨.make offset, content, none, []⟩

inductive Action where
  | pollRead (remaining : Nat) (arrived : Bool)
  | resumeRead (arrived : Bool)
  | pollWrite (data : Bytes) (arrived : Bool)
  | pollFlush (arrived : Bool)
  /-- The file gives or takes so many bytes. -/
  | readAt (n : Nat)
  | writeAt (n : Nat)
  | interrupted
  | failed (code : Nat)
  | cancelled

/-- What a caller with room for `remaining` bytes is told: no bytes are the end of the file, unless
none could be read. -/
def readEvents (capacity remaining : Nat) :
    Poll (Except IoError (Option Bytes)) → List (PlainFile.Event UInt8)
  | .ready (.ok (some [])) => if 0 < capacity ∧ 0 < remaining then [.eof] else [.read []]
  | .ready (.ok (some bytes)) => [.read bytes]
  | _ => []

def writeEvents (data : Bytes) : Poll (Except IoError Nat) → List (PlainFile.Event UInt8)
  | .ready (.ok n) => [.accept (data.take n)]
  | _ => []

/-- A caller whose flush succeeds is told that all is written. -/
def flushEvents : Poll (Except IoError Unit) → List (PlainFile.Event UInt8)
  | .ready (.ok _) => [.flush]
  | _ => []

/-- What is lost of a write with the error. -/
def failEvents (t : Transfer) : List (PlainFile.Event UInt8) := if t.writing then [.fail] else []

/-- Whether the call goes on. -/
def waiting (remaining : Nat) : Poll (Except IoError (Option Bytes)) → Option Nat
  | .ready (.ok none) => some remaining
  | _ => none

def afterRead (s : OpenFile) (capacity remaining : Nat)
    (polled : FileCursor × Poll (Except IoError (Option Bytes))) : OpenFile :=
  { s with
    cursor := polled.1
    polling := waiting remaining polled.2
    events := s.events ++ readEvents capacity remaining polled.2 }

def afterWrite (s : OpenFile) (data : Bytes) (polled : FileCursor × Poll (Except IoError Nat)) :
    OpenFile :=
  { s with cursor := polled.1, events := s.events ++ writeEvents data polled.2 }

def afterFlush (s : OpenFile) (polled : FileCursor × Poll (Except IoError Unit)) : OpenFile :=
  { s with cursor := polled.1, events := s.events ++ flushEvents polled.2 }

/-- The task that runs, if one does. -/
def running (s : OpenFile) : Option Transfer :=
  s.cursor.task.filter fun t => t.joined.isNone

/-- The task is over. -/
def joinWith (s : OpenFile) (t : Transfer) (joined : Joined) : OpenFile :=
  { s with
    cursor.task := some { t with joined := some joined }
    events := s.events ++ failEvents t }

def readAt (s : OpenFile) (n : Nat) (t : Transfer) : Option OpenFile :=
  if t.writing then none
  else (t.readAt s.content n).map fun t => { s with cursor.task := some t }

def writeAt (s : OpenFile) (n : Nat) (t : Transfer) : Option OpenFile :=
  if t.writing then
    (t.writeAt n).map fun next =>
      { s with
        cursor.task := some next
        content := overwrite s.content t.offset ((t.buf.drop t.written).take n)
        events := s.events ++ [if t.stuck n then .fail else .commit n] }
  else none

def step (capacity : Nat) (s : OpenFile) : Action → Option OpenFile
  | .pollRead remaining arrived =>
    if s.polling.isSome then none
    else some (s.afterRead capacity remaining (s.cursor.pollRead capacity remaining arrived))
  | .resumeRead arrived =>
    s.polling.map fun remaining =>
      s.afterRead capacity remaining (s.cursor.resumeRead remaining arrived)
  | .pollWrite data arrived =>
    if s.polling.isSome then none
    else some (s.afterWrite data (s.cursor.pollWrite data arrived))
  | .pollFlush arrived =>
    if s.polling.isSome then none
    else some (s.afterFlush (s.cursor.pollFlush arrived))
  | .readAt n => s.running.bind (s.readAt n)
  | .writeAt n => s.running.bind (s.writeAt n)
  | .interrupted => s.running.map fun _ => s
  | .failed code => s.running.map fun t => s.joinWith t (.finished (.error (.os code)))
  | .cancelled =>
    s.running.bind fun t => if t.begun then none else some (s.joinWith t .cancelled)

end OpenFile

end Yazi.Fs
