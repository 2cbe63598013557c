import Yazi.Base.PlainFile
import Yazi.Shared.Path

/-!
The copier of Linux: three ways to move the bytes of a file, one after the other.

The ways share the offsets of the two files, so each goes on where the one before it stopped. What
the kernel answers is a label, and what a call moves is what it is asked for and what there is; a
call that cannot read the file moves nothing.
-/
namespace Yazi.Fs
open Yazi.Base Yazi.Shared

inductive Errno where
  | nosys | perm | inval | xdev | opnotsupp | badf | overflow
  /-- `ErrorKind::Interrupted` -/
  | intr
  /-- `ErrorKind::WouldBlock` -/
  | again
  | acces
  | other (code : Nat)
  deriving DecidableEq

inductive CopyError where
  | os (e : Errno)
  /-- Nobody receives what is reported any more. -/
  | cancelled
  | notRegular
  | writeZero
  deriving DecidableEq

namespace Copier

/-- Whether `copy_file_range` was probed, and what came of it. -/
inductive Avail where
  | unprobed | available | unavailable
  deriving DecidableEq

def copyChunk : Nat := 32 * 1024 * 1024

def bufferSize : Nat := 128 * 1024

inductive Reply where
  /-- At most so many bytes are moved, after one. -/
  | moved (more : Nat)
  | failed (e : Errno)
  deriving DecidableEq

/-- One round of a loop: the check before it, the answer, and what decides the report. -/
structure Turn where
  closed : Bool := false
  reply : Reply
  /-- The invalid handles are told apart. -/
  probe : Bool := true
  /-- The interval is over, and the channel has room. -/
  due : Bool := false
  deriving DecidableEq

inductive Answer where
  /-- The check of `Copier::spawn`. -/
  | check (closed : Bool)
  | openSrc (closed : Bool) (error : Option Errno)
  | fileMeta (result : Except Errno (Bool × Nat))
  | openDist (closed : Bool) (error : Option Errno)
  | setLen (error : Option Errno)
  | setPermissions (error : Option Errno)
  | copyFileRange (turn : Turn)
  | sendfile (turn : Turn)
  | read (turn : Turn)
  | write (turn : Turn)
  /-- Another copier stores what it found out. -/
  | store (copyRange : Avail) (sendfile : Bool)

inductive Phase where
  | spawned
  | openSrc
  | fileMeta
  | openDist (len : Nat)
  | setLen (len : Nat)
  | setPermissions (len : Nat)
  | copyRange (start : Nat) (avail : Avail)
  | copySendfile (start : Nat)
  | reading
  | writing (remaining : Bytes)
  | ended (result : Except CopyError Unit)
  deriving DecidableEq

/-- The file to copy, and which of the calls can read it. -/
structure Source where
  content : Bytes
  byRange : Bool
  bySendfile : Bool

end Copier

/-- `Copier`, with the two files, what is known of the calls, and what was reported. -/
structure Copier where
  phase : Copier.Phase := .spawned
  offset : Nat := 0
  dest : Bytes
  cursor : Nat := 0
  written : Nat := 0
  reported : Nat := 0
  sent : List Nat := []
  copyRange : Copier.Avail
  sendfile : Bool
  deriving DecidableEq

namespace Copier
variable (src : Source)

/-- `Progress::remaining` -/
def remaining (c : Copier) : Nat := c.written - c.reported

/-- `Progress::report` -/
def report (due : Bool) (c : Copier) : Copier :=
  if c.reported < c.written ∧ due then
    { c with sent := c.sent ++ [c.written - c.reported], reported := c.written }
  else c

/-- `Progress::advance` -/
def advance (bytes : Nat) (due : Bool) (c : Copier) : Copier :=
  { c with written := c.written + bytes }.report due

def fail (e : CopyError) (c : Copier) : Copier := { c with phase := .ended (.error e) }

def finish (c : Copier) : Copier := { c with phase := .ended (.ok ()) }

/-- How many bytes are moved from the offset on. -/
def amount (reads : Bool) (limit more : Nat) (c : Copier) : Nat :=
  if reads then min (min (more + 1) limit) (src.content.length - c.offset) else 0

/-- Bytes are appended where the last ones ended. -/
def put (data : Bytes) (c : Copier) : Copier :=
  { c with dest := overwrite c.dest c.cursor data, cursor := c.cursor + data.length }

/-- The kernel moves bytes from one file to the other. -/
def transfer (n : Nat) (c : Copier) : Copier :=
  { c.put (slice src.content c.offset n) with offset := c.offset + n }

/-- `Copier::skip_attrs` -/
def skipAttrs : Errno → Bool
  | .perm | .acces | .nosys | .opnotsupp => true
  | _ => false

/-- Whether the error asks for a probe, if it is one to fall back from. -/
def rangeProbe : Errno → Option Bool
  | .nosys => some true
  | .perm => some true
  | .inval => some false
  | .xdev => some false
  | .opnotsupp => some true
  | .badf => some false
  | _ => none

/-- `Copier::copy_range_fallback` -/
def copyRangeFallback (e : Errno) (avail : Avail) (probe : Bool) (c : Copier) : Option Copier :=
  (rangeProbe e).map fun asks =>
    if avail = .unprobed then
      { c with copyRange := if !asks || probe then .available else .unavailable }
    else c

/-- The start of `Copier::copy_sendfile`. -/
def startSendfile (c : Copier) : Copier :=
  if c.sendfile then { c with phase := .copySendfile c.written } else { c with phase := .reading }

/-- The start of `Copier::copy_range`. -/
def startRange (c : Copier) : Copier :=
  if c.copyRange = .unavailable then c.startSendfile
  else { c with phase := .copyRange c.written c.copyRange }

/-- A round of `Copier::copy_range` -/
def onCopyRange (start : Nat) (avail : Avail) (turn : Turn) (c : Copier) : Copier :=
  if turn.closed then c.fail .cancelled
  else match turn.reply with
    | .moved more =>
      -- Whatever it moves, the call is there.
      let c := if avail = .unprobed then { c with copyRange := .available } else c
      let n := c.amount src src.byRange copyChunk more
      if n = 0 then if start < c.written then c.finish else c.startSendfile
      else
        let avail := if avail = .unprobed then .available else avail
        { (c.transfer src n).advance n turn.due with phase := .copyRange start avail }
    | .failed e =>
      if e = .overflow then c.startSendfile
      else if c.written = start then
        match copyRangeFallback e avail turn.probe c with
        | some c => c.startSendfile
        | none => c.fail (.os e)
      else c.fail (.os e)

/-- A round of `Copier::copy_sendfile` -/
def onCopySendfile (start : Nat) (turn : Turn) (c : Copier) : Copier :=
  if turn.closed then c.fail .cancelled
  else match turn.reply with
    | .moved more =>
      let n := c.amount src src.bySendfile copyChunk more
      if n = 0 then c.finish
      else { (c.transfer src n).advance n turn.due with phase := .copySendfile start }
    | .failed e =>
      if e = .overflow then { c with phase := .reading }
      else if c.written = start then
        if e = .nosys ∨ e = .perm then { c with sendfile := false, phase := .reading }
        else if e = .inval then { c with phase := .reading }
        else c.fail (.os e)
      else c.fail (.os e)

/-- A read of `Copier::copy_buffered` -/
def onRead (turn : Turn) (c : Copier) : Copier :=
  if turn.closed then c.fail .cancelled
  else match turn.reply with
    | .moved more =>
      let n := c.amount src true bufferSize more
      if n = 0 then c.finish
      else { c with offset := c.offset + n, phase := .writing (slice src.content c.offset n) }
    | .failed .intr => c
    | .failed e => c.fail (.os e)

/-- A write of `Copier::copy_buffered`. Zero bytes may be taken as well. -/
def onWrite (buffer : Bytes) (turn : Turn) (c : Copier) : Copier :=
  if turn.closed then c.fail .cancelled
  else match turn.reply with
    | .moved more =>
      let n := min more buffer.length
      if n = 0 then c.fail .writeZero
      else
        let rest := buffer.drop n
        { (c.put (buffer.take n)).advance n turn.due with
          phase := if rest = [] then .reading else .writing rest }
    | .failed .intr => c
    | .failed e => c.fail (.os e)

/-- An attempt to open a file: a lease is waited for. -/
def attempt (closed : Bool) (error : Option Errno) (next : Phase) (c : Copier) : Copier :=
  if closed then c.fail .cancelled
  else match error with
    | none => { c with phase := next }
    | some .again => c
    | some e => c.fail (.os e)

/-- A step of `Copier::spawn`, which `Copier::copy` is the main part of. -/
def step (c : Copier) (answer : Answer) : Option Copier :=
  match c.phase, answer with
  | _, .store copyRange sendfile => some { c with copyRange, sendfile }
  | .spawned, .check closed =>
    some (if closed then c.fail .cancelled else { c with phase := .openSrc })
  | .openSrc, .openSrc closed error => some (c.attempt closed error .fileMeta)
  | .fileMeta, .fileMeta (.error e) => some (c.fail (.os e))
  | .fileMeta, .fileMeta (.ok (isFile, len)) =>
    some (if isFile then { c with phase := .openDist len } else c.fail .notRegular)
  | .openDist len, .openDist closed error => some (c.attempt closed error (.setLen len))
  | .setLen _, .setLen (some e) => some (c.fail (.os e))
  | .setLen len, .setLen none => some { c with dest := [], phase := .setPermissions len }
  | .setPermissions len, .setPermissions error =>
    some
      (match error.filter (!skipAttrs ·) with
      | some e => c.fail (.os e)
      -- A virtual file may be longer than it says.
      | none => if len = 0 then { c with phase := .reading } else c.startRange)
  | .copyRange start avail, .copyFileRange turn => some (c.onCopyRange src start avail turn)
  | .copySendfile start, .sendfile turn => some (c.onCopySendfile src start turn)
  | .reading, .read turn => some (c.onRead src turn)
  | .writing buffer, .write turn => some (c.onWrite buffer turn)
  | _, _ => none

/-- What comes through the channel: the increments, and at the end what remains or the error. -/
def messages (c : Copier) : List (Except CopyError Nat) :=
  c.sent.map .ok ++
    match c.phase with
    | .ended (.ok ()) => if c.remaining = 0 then [] else [.ok c.remaining]
    | .ended (.error e) => [.error e]
    | _ => []

def tally (total : Nat) (message : Except CopyError Nat) : Except CopyError Nat :=
  message.map (total + ·)

/-- `Transit::total` -/
def total (messages : List (Except CopyError Nat)) : Except CopyError Nat := messages.foldlM tally 0

end Copier
end Yazi.Fs
