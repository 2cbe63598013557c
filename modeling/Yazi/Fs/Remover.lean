import Yazi.Base.Inodes
import Yazi.Base.Run
import Yazi.Shared.Text

/-!
Removing a directory with all there is in it.

The directories that are open are on a stack, each with its name in the one below. Entries are
unlinked as they are read, and a directory when there are no more. Others may take entries away
in the meantime.
-/
namespace Yazi.Fs
open Yazi.Base Yazi.Shared

namespace Remover

inductive Errno where
  | noent | notdir | loop | isdir | notempty | inval | intr
  | other (code : Nat)
  deriving DecidableEq

inductive FileType where
  | directory | symlink | unknown | other
  deriving DecidableEq

/-! ### The system -/

namespace System
variable (disk : Disk Bytes) (d : Nat) (name : Bytes)

def dot : Bytes := text "."

def dotdot : Bytes := text ".."

def isDots : Bool := name = dot ∨ name = dotdot

def resolve : Option Nat :=
  if name = dot then some d
  else if name = dotdot then some (disk.parent d)
  else disk.entry d name

/-- With `O_DIRECTORY` and `O_NOFOLLOW`. A call may also fail by itself, and says for a link on some
systems that it is no directory. -/
def openat (fault : Option Errno) : Except Errno Nat :=
  match fault, resolve disk d name with
  | some e, _ => .error e
  | none, none => .error .noent
  | none, some i =>
    match disk.inode i with
    | .dir _ => .ok i
    | .link => .error .loop
    | .file => .error .notdir

/-- The inode that has lost its name. -/
def unlinkat (removedir : Bool) (fault : Option Errno) : Except Errno Nat :=
  match fault with
  | some e => .error e
  | none =>
    if isDots name then .error .inval
    else
      match disk.entry d name with
      | none => .error .noent
      | some i =>
        match disk.inode i, removedir with
        | .dir entries, true => if entries = [] then .ok i else .error .notempty
        | .dir _, false => .error .isdir
        | _, true => .error .notdir
        | _, false => .ok i

/-- Whether there is a link, with `SYMLINK_NOFOLLOW`. -/
def isSymlink (fault : Option Errno) : Bool :=
  match fault, resolve disk d name with
  | none, some i => disk.inode i = .link
  | _, _ => false

def fileType (i : Nat) : FileType :=
  match disk.inode i with
  | .dir _ => .directory
  | .link => .symlink
  | .file => .other

end System

/-! ### The remover -/

inductive Failure where
  /-- "Removal cancelled" -/
  | cancelled
  | os (e : Errno)
  deriving DecidableEq

/-- A directory that is open, with what its stream may still have and what it has given. -/
structure Frame where
  inode : Nat
  entry : Option Bytes
  listed : Assoc Bytes Nat
  seen : List Bytes
  deriving DecidableEq

inductive Phase where
  | opening
  | statting (e : Errno)
  | unlinkingRoot
  | reading
  | unlinking (name : Bytes)
  | openingChild (name : Bytes)
  /-- It is off the stack. -/
  | removing (frame : Frame)
  | returned (result : Except Failure Unit)
  | ended (result : Except Failure Unit)

inductive Event where
  | unlinked (dir : Nat) (name : Bytes)
  | removed (dir : Nat) (name : Bytes) (inode : Nat)
  | vanished (dir : Nat) (name : Bytes)
  /-- With all there is below it. -/
  | movedAway (dir : Nat) (name : Bytes)
  deriving DecidableEq

end Remover

open Remover in
structure Remover where
  disk : Disk Bytes
  /-- The directory that the path leads to, and the name in it. -/
  base : Nat
  root : Bytes
  /-- The last one comes first. -/
  stack : List Frame := []
  phase : Phase := .opening
  closed : Bool := false
  pending : Nat := 0
  sent : List Nat := []
  /-- The last one comes first. -/
  log : List Event := []

namespace Remover

inductive Action where
  | openat (fault : Option Errno)
  | statat (fault : Option Errno)
  | next (result : Option (Except Errno (Bytes × FileType)))
  /-- Whether progress is due, and whether it finds room in the channel. -/
  | unlinkat (fault : Option Errno) (due room : Bool)
  | deliver
  | close
  /-- Somebody else unlinks an entry, or moves it elsewhere. -/
  | vanish (dir : Nat) (name : Bytes) (moved : Bool)

namespace Event

def place : Event → Nat × Bytes
  | unlinked dir name | removed dir name _ | vanished dir name | movedAway dir name => (dir, name)

/-- It was the remover. -/
def ours : Event → Bool
  | unlinked .. | removed .. => true
  | vanished .. | movedAway .. => false

end Event

/-- A stream gives what there was when it was opened, and does not leave out what there still is. -/
def Frame.gives (f : Frame) (disk : Disk Bytes) : Option (Except Errno (Bytes × FileType)) → Bool
  | none => (disk.entries f.inode).all fun entry => f.seen.contains entry.1
  | some (.error _) => true
  | some (.ok (name, type)) =>
    System.isDots name ||
      match f.listed.get? name with
      | none => false
      | some i => type = .unknown || type = System.fileType disk i

variable (c : Remover)

/-- `Remover::check` -/
def check (next : Option Remover) : Option Remover :=
  if c.closed then some { c with phase := .returned (.error .cancelled) } else next

def fail (e : Errno) : Remover := { c with phase := .returned (.error (.os e)) }

/-- `Progress::advance` -/
def advance (due room : Bool) : Remover :=
  if due && room then { c with sent := c.sent ++ [c.pending + 1], pending := 0 }
  else { c with pending := c.pending + 1 }

/-- What has been unlinked is gone. -/
def unlinked (d : Nat) (name : Bytes) (event : Event) (due room : Bool) : Remover :=
  { c.advance due room with disk := c.disk.unlink d name, log := event :: c.log }

/-- The loop ends with the root. -/
def onward (stack : List Frame) : Phase := if stack = [] then .returned (.ok ()) else .reading

/-- Where `Remover::open_dir` looks. -/
def opened (i : Nat) (entry : Option Bytes) : Remover :=
  { c with stack := ⟨i, entry, c.disk.entries i, []⟩ :: c.stack, phase := .reading }

/-- What a stream has given, for the first directory on the stack. -/
def read (f : Frame) (rest : List Frame) : Option (Except Errno (Bytes × FileType)) → Remover
  | none => { c with stack := rest, phase := .removing f }
  | some (.error e) => if e = .noent ∧ rest ≠ [] then { c with stack := rest } else c.fail e
  | some (.ok (name, type)) =>
    let c := { c with stack := { f with seen := name :: f.seen } :: rest }
    if System.isDots name then c
    else if type = .directory ∨ type = .unknown then { c with phase := .openingChild name }
    else { c with phase := .unlinking name }

/-- The directory of an entry that is off the stack, and its name there. -/
def above (f : Frame) : Nat × Bytes :=
  ((c.stack.head?.map Frame.inode).getD c.base, f.entry.getD c.root)

/-- A step of `Remover::remove`, or of somebody else. -/
def step (c : Remover) : Action → Option Remover
  | .openat fault =>
    if fault = some .noent then none
    else
      match c.phase with
      | .opening => c.check <| some <|
        match System.openat c.disk c.base c.root fault with
        | .ok i => c.opened i none
        | .error .intr => c
        | .error .noent => c.fail .noent
        | .error e => { c with phase := .statting e }
      | .openingChild name =>
        c.stack.head?.bind fun f => c.check <| some <|
          match System.openat c.disk f.inode name fault with
          | .ok i => c.opened i (some name)
          | .error .intr => c
          | .error .noent => { c with phase := .reading }
          | .error .notdir | .error .loop => { c with phase := .unlinking name }
          | .error e => c.fail e
      | _ => none
  | .statat fault =>
    match c.phase with
    | .statting e => c.check <| some <|
      if System.isSymlink c.disk c.base c.root fault then { c with phase := .unlinkingRoot }
      else c.fail e
    | _ => none
  | .next result =>
    match c.phase, c.stack with
    | .reading, f :: rest =>
      if f.gives c.disk result then c.check (some (c.read f rest result)) else none
    | _, _ => none
  | .unlinkat fault due room =>
    if fault = some .noent then none
    else
      match c.phase with
      | .unlinkingRoot => c.check <| some <|
        match System.unlinkat c.disk c.base c.root false fault with
        | .ok _ =>
          { c.unlinked c.base c.root (.unlinked c.base c.root) due room with
            phase := .returned (.ok ()) }
        | .error e => c.fail e
      | .unlinking name =>
        c.stack.head?.bind fun f => c.check <| some <|
          match System.unlinkat c.disk f.inode name false fault with
          | .ok _ =>
            { c.unlinked f.inode name (.unlinked f.inode name) due room with phase := .reading }
          | .error e => if e = .noent then { c with phase := .reading } else c.fail e
      | .removing f => c.check <| some <|
        match System.unlinkat c.disk (c.above f).1 (c.above f).2 true fault with
        | .ok i =>
          { c.unlinked (c.above f).1 (c.above f).2 (.removed (c.above f).1 (c.above f).2 i) due room
            with phase := onward c.stack }
        | .error e => if e = .noent then { c with phase := onward c.stack } else c.fail e
      | _ => none
  | .deliver =>
    match c.phase with
    | .returned result =>
      if 0 < c.pending ∧ ¬c.closed then
        some { c with sent := c.sent ++ [c.pending], pending := 0, phase := .ended result }
      else some { c with phase := .ended result }
    | _ => none
  | .close => some { c with closed := true }
  | .vanish dir name moved =>
    (c.disk.entry dir name).bind fun i =>
      if moved then
        some { c with disk := c.disk.unlink dir name, log := .movedAway dir name :: c.log }
      else if c.disk.entries i = [] then
        some { c with disk := c.disk.unlink dir name, log := .vanished dir name :: c.log }
      else none

def make (disk : Disk Bytes) (base : Nat) (root : Bytes) : Remover := { disk, base, root }

end Remover
end Yazi.Fs
