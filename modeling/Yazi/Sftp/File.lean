import Yazi.Base.Poll
import Yazi.Base.Run
import Yazi.Sftp.Packet

/-!
A remote file with a cursor.

Every operation sends its request when it is polled first, and is polled again until the
response has arrived. The request of a read or a write holds the cursor as it was when it was
sent; the cursor moves when the response is taken.
-/
namespace Yazi.Sftp
open Base Shared

/-- What a receiver is ready with. -/
abbrev Answer := Except Error Packet

inductive SeekFrom where
  | start (n : UInt64)
  | current (n : Int)
  | fromEnd (n : Int)
  deriving DecidableEq

/-- `u64::checked_add_signed` -/
def checkedAddSigned (n : UInt64) (d : Int) : Option UInt64 :=
  if 0 ≤ n.toNat + d ∧ n.toNat + d < 2 ^ 64 then some (UInt64.ofNat (n.toNat + d).toNat) else none

/-- `cursor += len as u64` -/
def advance (cursor : UInt64) (len : Nat) : UInt64 := cursor + UInt64.ofNat len

@[simp] theorem advance_zero (cursor : UInt64) : advance cursor 0 = cursor := UInt64.add_zero cursor

/-- A read in flight. With its response is kept the content that the server read from. -/
structure ReadRx where
  offset : UInt64
  max : Nat
  answer : Option (Answer × Bytes)

structure WriteRx where
  offset : UInt64
  data : Bytes
  answer : Option Answer

inductive SeekState where
  | nonBlocking (n : UInt64)
  /-- With the response is kept the content whose size it is. -/
  | blocking (n : Int) (answer : Option (Answer × Bytes))

structure File where
  cursor : UInt64
  readRx : Option ReadRx
  seekRx : Option SeekState
  writeRx : Option WriteRx
  /-- The receiver of a flush, with its response. -/
  flushRx : Option (Option Answer)

namespace File

/-- `File::cursor` -/
def make (offset : UInt64) : File := ⟨offset, none, none, none, none⟩

def chunkSize : Nat := 261120

def overflowed : Error := .custom "seeking to a negative or overflowed position"

/-- A receiver, polled: what has not arrived is not there. -/
def pollRx {α : Type} (arrived : Bool) (answer : Option α) : Poll α :=
  match arrived, answer with
  | true, some a => .ready a
  | _, _ => .pending

theorem pollRx_ready {α : Type} {arrived : Bool} {answer : Option α} {a : α}
    (ready : pollRx arrived answer = .ready a) : answer = some a := by
  simp only [pollRx] at ready
  split at ready
  · cases ready
    rfl
  · cases ready

/-! ### Reading -/

/-- The response to a read: the bytes for the caller, whose buffer has room for `remaining`. -/
def readResult (remaining : Nat) : Answer → Except Error Bytes
  | .ok (.data data) => .ok (data.data.take remaining)
  | .ok (.status status) => if status.isEof then .ok [] else .error (.status status)
  | .ok _ => .error (.packet "not a Data or Status")
  | .error e => .error e

/-- The request of a read is there, or it is sent. -/
def sendRead (f : File) (remaining : Nat) (sent : Except Error Unit) : Except Error ReadRx :=
  match f.readRx, sent with
  | some rx, _ => .ok rx
  | none, .ok () => .ok ⟨f.cursor, min remaining chunkSize, none⟩
  | none, .error e => .error e

/-- What a finished read leaves. -/
def finishRead (f : File) : Except Error Bytes → File
  | .ok bytes => { f with cursor := advance f.cursor bytes.length, readRx := none }
  | .error _ => { f with readRx := none }

def pollRead (f : File) (remaining : Nat) (sent : Except Error Unit) (arrived : Bool) :
    File × Poll (Except Error Bytes) :=
  match f.sendRead remaining sent with
  | .error e => (f, .ready (.error e))
  | .ok rx =>
    match pollRx arrived rx.answer with
    | .pending => ({ f with readRx := some rx }, .pending)
    | .ready (answer, _) =>
      let result := readResult remaining answer
      (f.finishRead result, .ready result)

/-! ### Seeking -/

/-- The size of the file is asked for where the position depends on it. -/
def seekState (f : File) (sent : Except Error Unit) : SeekFrom → Except Error SeekState
  | .start n => .ok (.nonBlocking n)
  | .current n =>
    match checkedAddSigned f.cursor n with
    | some position => .ok (.nonBlocking position)
    | none => .error overflowed
  | .fromEnd n =>
    match sent with
    | .ok () => .ok (.blocking n none)
    | .error e => .error e

def startSeek (f : File) (position : SeekFrom) (sent : Except Error Unit) :
    File × Except Error Unit :=
  match f.seekRx with
  | some _ =>
    (f, .error (.custom
      "other file operation is pending, call poll_complete before start_seek"))
  | none =>
    match f.seekState sent position with
    | .error e => (f, .error e)
    | .ok state => ({ f with seekRx := some state }, .ok ())

/-- The response to the question for the size. -/
def sizeResult : Answer → Except Error UInt64
  | .ok (.attrs reply) =>
    match reply.attrs.size with
    | some size => .ok size
    | none => .error (.custom "could not get file size for seeking from end")
  | .ok _ => .error (.packet "not an Attrs")
  | .error e => .error e

def endResult (n : Int) (answer : Answer) : Except Error UInt64 :=
  match sizeResult answer with
  | .error e => .error e
  | .ok size =>
    match checkedAddSigned size n with
    | some position => .ok position
    | none => .error overflowed

/-- `SeekState::poll`; the time may be up before the response arrives. -/
def SeekState.poll (arrived elapsed : Bool) : SeekState → Poll (Except Error UInt64)
  | .nonBlocking n => .ready (.ok n)
  | .blocking n answer =>
    match pollRx arrived answer with
    | .ready (answer, _) => .ready (endResult n answer)
    | .pending => if elapsed then .ready (.error .timeout) else .pending

def finishSeek (f : File) : Except Error UInt64 → File
  | .ok n => { f with cursor := n, seekRx := none }
  | .error _ => { f with seekRx := none }

def pollComplete (f : File) (arrived elapsed : Bool) : File × Poll (Except Error UInt64) :=
  match f.seekRx with
  | none => (f, .ready (.ok f.cursor))
  | some state =>
    match SeekState.poll arrived elapsed state with
    | .pending => (f, .pending)
    | .ready result => (f.finishSeek result, .ready result)

/-! ### Writing -/

/-- The response to a request that has no other result. -/
def statusResult : Answer → Except Error Unit
  | .ok (.status status) => if status.isOk then .ok () else .error (.status status)
  | .ok _ => .error (.packet "not a Status")
  | .error e => .error e

def sendWrite (f : File) (buf : Bytes) (sent : Except Error Unit) : Except Error WriteRx :=
  match f.writeRx, sent with
  | some rx, _ => .ok rx
  | none, .ok () => .ok ⟨f.cursor, buf.take chunkSize, none⟩
  | none, .error e => .error e

/-- What a finished write leaves, and the number of bytes it reports. -/
def finishWrite (f : File) (rx : WriteRx) (answer : Answer) : File × Except Error Nat :=
  match statusResult answer with
  | .ok () =>
    ({ f with cursor := advance f.cursor rx.data.length, writeRx := none }, .ok rx.data.length)
  | .error e => ({ f with writeRx := none }, .error e)

def pollWrite (f : File) (buf : Bytes) (sent : Except Error Unit) (arrived : Bool) :
    File × Poll (Except Error Nat) :=
  match f.sendWrite buf sent with
  | .error e => (f, .ready (.error e))
  | .ok rx =>
    match pollRx arrived rx.answer with
    | .pending => ({ f with writeRx := some rx }, .pending)
    | .ready answer =>
      let (f, result) := f.finishWrite rx answer
      (f, .ready result)

/-! ### Flushing -/

/-- The part of `poll_flush` behind the pending write. The server need not know fsync. -/
def pollFsync (f : File) (sent : Except Error Unit) (arrived elapsed : Bool) :
    File × Poll (Except Error Unit) :=
  match f.flushRx, sent with
  | none, .error e => (f, .ready (if e = .unsupported then .ok () else .error e))
  | none, .ok () =>
    if elapsed then (f, .ready (.error .timeout)) else ({ f with flushRx := some none }, .pending)
  | some answer, _ =>
    match pollRx arrived answer with
    | .ready answer => ({ f with flushRx := none }, .ready (statusResult answer))
    | .pending =>
      if elapsed then ({ f with flushRx := none }, .ready (.error .timeout)) else (f, .pending)

/-- A pending write is finished first, with the number of bytes it reports. -/
def flushWrite (f : File) (arrived : Bool) : File × Poll (Except Error Nat) :=
  if f.writeRx.isSome then f.pollWrite [] (.ok ()) arrived else (f, .ready (.ok 0))

def pollFlush (f : File) (written : Bool) (sent : Except Error Unit) (arrived elapsed : Bool) :
    File × Poll (Except Error Unit) :=
  match f.flushWrite written with
  | (f, .pending) => (f, .pending)
  | (f, .ready (.error e)) => (f, .ready (.error e))
  | (f, .ready (.ok _)) => f.pollFsync sent arrived elapsed

end File

end Yazi.Sftp
