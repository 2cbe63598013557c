import Yazi.Fs.FileCursor

/-!
The files at the two ends of a copy, and the cursors over them.

A file on the disk has a cursor of its own. Any other file is read through a buffer that is filled
as a whole and written through one that gathers the bytes. Such a file answers when it likes: an
SFTP file once a request is carried out, while one of a Lua service takes bytes at once and reports
on them before it takes the next.
-/
namespace Yazi.Vfs
open Yazi.Base Yazi.Shared Yazi.Fs

/-! ### A file that is written -/

/-- `RwFile`, written from a place on. -/
structure RwFile where
  place : Nat
  /-- On its way to the file. -/
  sent : Bytes
  /-- A request with so many bytes waits for its answer. -/
  owed : Option Nat
  /-- Something was lost on its way, and nobody has been told. -/
  lost : Bool

namespace RwFile

def make (place : Nat) : RwFile := ⟨place, [], none, false⟩

/-- What a poll meets. -/
inductive Answer where
  | pending
  | failed (e : IoError)
  /-- A request with so many bytes goes out. -/
  | send (n : Nat)
  /-- The request was carried out. -/
  | answered
  /-- So many bytes are taken at once. -/
  | take (n : Nat)
  /-- The file is shut down. -/
  | done

/-- Nothing is on its way, and all that was has arrived. -/
def quiet (f : RwFile) : Bool := f.sent.isEmpty && !f.lost

def free (f : RwFile) : Bool := f.quiet && f.owed.isNone

def failed (f : RwFile) : RwFile := { f with owed := none, lost := false }

/-- `poll_write`. While a request waits for its answer, the bytes of the call do not matter. -/
def pollWrite (f : RwFile) (data : Bytes) :
    Answer → Option (RwFile × Poll (Except IoError Nat))
  | .pending => some (f, .pending)
  | .failed e => some (f.failed, .ready (.error e))
  | .send n =>
    if f.free ∧ n ≤ data.length then some ({ f with sent := data.take n, owed := some n }, .pending)
    else none
  | .answered =>
    match f.owed with
    | some n => if f.quiet then some ({ f with owed := none }, .ready (.ok n)) else none
    | none => none
  | .take n =>
    if f.free ∧ n ≤ data.length then some ({ f with sent := data.take n }, .ready (.ok n)) else none
  | .done => none

/-- `poll_shutdown` -/
def pollShutdown (f : RwFile) : Answer → Option (RwFile × Poll (Except IoError Unit))
  | .pending => some (f, .pending)
  | .failed e => some (f.failed, .ready (.error e))
  | .done => if f.quiet then some ({ f with owed := none }, .ready (.ok ())) else none
  | .send _ | .answered | .take _ => none

/-- What becomes of the bytes on their way. -/
inductive Action where
  | commit (n : Nat)
  | lose

def step (dest : Bytes) (f : RwFile) : Action → Option (RwFile × Bytes)
  | .commit n =>
    if 0 < n ∧ n ≤ f.sent.length then
      some ({ f with place := f.place + n, sent := f.sent.drop n },
        overwrite dest f.place (f.sent.take n))
    else none
  | .lose => if f.sent.isEmpty then none else some ({ f with sent := [], lost := true }, dest)

end RwFile

/-- A file may give so many bytes to a reader with some room, and none only at its end. -/
def readable (content : Bytes) (offset room n : Nat) : Bool :=
  n ≤ room ∧ n ≤ content.length - offset ∧ (n = 0 → room = 0 ∨ content.length ≤ offset)

/-! ### Buffers -/

/-- `BufReader<RwFile>`, whose file is read on at an offset. -/
structure BufReader where
  offset : Nat
  buf : Bytes
  position : Nat

namespace BufReader

def make (offset : Nat) : BufReader := ⟨offset, [], 0⟩

def serve (r : BufReader) (remaining : Nat) : BufReader × Bytes :=
  let bytes := (r.buf.drop r.position).take remaining
  ({ r with position := r.position + bytes.length }, bytes)

/-- `poll_read`. The file is asked when the buffer is used up, for the caller alone when he has room
for as much. -/
def pollRead (capacity : Nat) (content : Bytes) (remaining : Nat) (r : BufReader) :
    Option (Poll (Except IoError Nat)) → Option (BufReader × Poll (Except IoError Bytes))
  | none =>
    if r.position < r.buf.length then
      let (r, bytes) := r.serve remaining
      some (r, .ready (.ok bytes))
    else none
  | some answer =>
    if r.position < r.buf.length then none
    else
      match answer with
      | .pending => some (r, .pending)
      | .ready (.error e) => some (r, .ready (.error e))
      | .ready (.ok n) =>
        let bytes := slice content r.offset n
        if capacity ≤ remaining then
          if readable content r.offset remaining n then
            some (⟨r.offset + n, [], 0⟩, .ready (.ok bytes))
          else none
        else if readable content r.offset capacity n then
          let (r, bytes) := serve ⟨r.offset + n, bytes, 0⟩ remaining
          some (r, .ready (.ok bytes))
        else none

end BufReader

/-- `BufWriter<RwFile>`, of whose buffer the file has got a part. -/
structure BufWriter where
  file : RwFile
  buf : Bytes
  written : Nat

namespace BufWriter

def make (place : Nat) : BufWriter := ⟨.make place, [], 0⟩

/-- `Vec::drain`: what the file has got is taken out of the buffer. -/
def drain (w : BufWriter) (file : RwFile) : BufWriter := ⟨file, w.buf.drop w.written, 0⟩

/-- One round of `flush_buf`. -/
def flushBuf (w : BufWriter) (answer : RwFile.Answer) :
    Option (BufWriter × Poll (Except IoError Unit)) :=
  (w.file.pollWrite (w.buf.drop w.written) answer).map fun (file, polled) =>
    match polled with
    | .pending => ({ w with file }, .pending)
    | .ready (.error e) => (w.drain file, .ready (.error e))
    | .ready (.ok n) =>
      if n = 0 then (w.drain file, .ready (.error .writeZero))
      else if w.written + n = w.buf.length then (⟨file, [], 0⟩, .ready (.ok ()))
      else (⟨file, w.buf, w.written + n⟩, .ready (.ok ()))

/-- `poll_write`, which is ready without a number where a round of `flush_buf` is over and the call
goes on. What does not fit into the buffer is written past it. -/
def pollWrite (capacity : Nat) (w : BufWriter) (data : Bytes) :
    Option RwFile.Answer → Option (BufWriter × Poll (Except IoError (Option Nat)))
  | none =>
    if capacity < w.buf.length + data.length ∧ w.buf ≠ [] ∨ capacity ≤ data.length then none
    else some ({ w with buf := w.buf ++ data }, .ready (.ok (some data.length)))
  | some answer =>
    if capacity < w.buf.length + data.length ∧ w.buf ≠ [] then
      (w.flushBuf answer).map fun (w, polled) => Poll.andThen (w, polled) fun w _ =>
        (w, .ready (.ok none))
    else if capacity ≤ data.length then
      (w.file.pollWrite data answer).map fun (file, polled) =>
        Poll.andThen ({ w with file }, polled) fun w n => (w, .ready (.ok (some n)))
    else none

/-- `poll_shutdown`, with its rounds as `pollWrite`. -/
def pollShutdown (w : BufWriter) (answer : RwFile.Answer) :
    Option (BufWriter × Poll (Except IoError (Option Unit))) :=
  if w.buf ≠ [] then
    (w.flushBuf answer).map fun (w, polled) => Poll.andThen (w, polled) fun w _ =>
      (w, .ready (.ok none))
  else
    (w.file.pollShutdown answer).map fun (file, polled) =>
      Poll.andThen ({ w with file }, polled) fun w _ => (w, .ready (.ok (some ())))

end BufWriter

/-! ### Cursors -/

/-- What a poll meets: no file is asked, or the task of a local cursor may have ended, or another
file answers. -/
inductive Met (α : Type) where
  | nothing
  | task (arrived : Bool)
  | file (answer : α)

/-- `FileCursor::reader`. While a poll of a local cursor is on that has spawned a read, `polling` is
the room its caller has. -/
inductive Reader where
  | «local» (cursor : FileCursor) (polling : Option Nat)
  | buffered (r : BufReader)

namespace Reader

def make (remote : Bool) (offset : Nat) : Reader :=
  if remote then .buffered (.make offset) else .local (.make offset) none

def task : Reader → Option Transfer
  | .local c _ => c.task
  | .buffered _ => none

def polling : Reader → Option Nat
  | .local _ polling => polling
  | .buffered _ => none

def buffered' (polled : BufReader × Poll (Except IoError Bytes)) :
    Reader × Poll (Except IoError (Option Bytes)) :=
  Poll.andThen (.buffered polled.1, polled.2) fun r bytes => (r, .ready (.ok (some bytes)))

/-- `poll_read`, which goes on where there are no bytes. -/
def pollRead (capacity : Nat) (content : Bytes) (remaining : Nat) :
    Reader → Met (Poll (Except IoError Nat)) →
      Option (Reader × Poll (Except IoError (Option Bytes)))
  | .local c none, .task arrived =>
    let (c, polled) := c.pollRead capacity remaining arrived
    some (.local c (OpenFile.waiting remaining polled), polled)
  | .local c (some remaining), .task arrived =>
    let (c, polled) := c.resumeRead remaining arrived
    some (.local c (OpenFile.waiting remaining polled), polled)
  | .buffered r, .nothing => (r.pollRead capacity content remaining none).map buffered'
  | .buffered r, .file answer => (r.pollRead capacity content remaining (some answer)).map buffered'
  | _, _ => none

end Reader

/-- `FileCursor::writer` -/
inductive Writer where
  | «local» (cursor : FileCursor)
  | buffered (w : BufWriter)

namespace Writer

def make (remote : Bool) (offset : Nat) : Writer :=
  if remote then .buffered (.make offset) else .local (.make offset)

def local' {α : Type} (polled : FileCursor × Poll (Except IoError α)) :
    Writer × Poll (Except IoError (Option α)) :=
  Poll.andThen (.local polled.1, polled.2) fun w a => (w, .ready (.ok (some a)))

def buffered' {α : Type} (polled : BufWriter × Poll (Except IoError (Option α))) :
    Writer × Poll (Except IoError (Option α)) :=
  (.buffered polled.1, polled.2)

def pollWrite (capacity : Nat) (data : Bytes) :
    Writer → Met RwFile.Answer → Option (Writer × Poll (Except IoError (Option Nat)))
  | .local c, .task arrived => some (local' (c.pollWrite data arrived))
  | .buffered w, .nothing => (w.pollWrite capacity data none).map buffered'
  | .buffered w, .file answer => (w.pollWrite capacity data (some answer)).map buffered'
  | _, _ => none

/-- A local cursor flushes. -/
def pollShutdown :
    Writer → Met RwFile.Answer → Option (Writer × Poll (Except IoError (Option Unit)))
  | .local c, .task arrived => some (local' (c.pollFlush arrived))
  | .buffered w, .file answer => (w.pollShutdown answer).map buffered'
  | _, _ => none

/-- `get_mut().shutdown()`: what is in the buffer is not written any more. -/
def abort : Writer → Met RwFile.Answer → Option (Writer × Poll (Except IoError Unit))
  | .local c, .task arrived =>
    let (c, polled) := c.pollFlush arrived
    some (.local c, polled)
  | .buffered w, .file answer =>
    (w.file.pollShutdown answer).map fun (file, polled) => (.buffered { w with file }, polled)
  | _, _ => none

end Writer

end Yazi.Vfs
