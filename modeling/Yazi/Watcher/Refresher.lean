import Mathlib.Data.List.Perm.Basic
import Yazi.Base.Assoc
import Yazi.Base.Run

/-!
The refresher: one entry for each registered directory, and at most one run for each entry.

Urls are taken up to equality, so that the key of an entry is the url of its file.
-/
namespace Yazi.Watcher
open Yazi.Base

variable {Url Stat : Type}

structure File (Url Stat : Type) where
  url : Url
  stat : Stat
  isDir : Bool
deriving DecidableEq, Repr

abbrev Files (Url Stat : Type) := List (File Url Stat)

inductive IoError where
  | notFound
  | notADirectory
  | invalidData (reason : String)
  | other (reason : String)
deriving DecidableEq, Repr

/-- What the refresher tells the rest of the program. -/
inductive FilesOp (Url Stat : Type) where
  | full (dir : File Url Stat) (files : Files Url Stat)
  | part (dir : Url) (files : Files Url Stat) (ticket : Nat)
  | done (dir : File Url Stat) (ticket : Nat)
  | delete (dir : Url) (urls : List Url)
  | fail (dir : Url) (err : IoError)
deriving Repr

inductive RefreshResponse (Url Stat : Type) where
  | full (files : Files Url Stat)
  | part
  | skip
deriving Repr

/-- An entry of the table, and the copy of it that a run works on. `busy` is the ticket of the
run in flight, or zero. -/
structure Entry (Url Stat : Type) where
  file : File Url Stat
  busy : Nat := 0
  dirty : Bool := false
  report : Bool := false
  force : Bool := false
  stream : Bool := false
deriving DecidableEq, Repr

/-! ### A run -/

/-- `Entries::revalidate`: what the engine answers is checked against the old file. -/
def revalidate [DecidableEq Url] (old : File Url Stat)
    (answer : Except IoError (Option (File Url Stat))) (timeless : Bool) :
    Except IoError (Option (File Url Stat)) :=
  match answer with
  | .error err => .error err
  | .ok (some new) =>
    if new.url ≠ old.url then .error (.invalidData "revalidated file URL changed")
    else if !new.isDir then .error .notADirectory
    else .ok (some new)
  | .ok none => if timeless then .ok (some old) else .ok none

/-- The body of the task that `spawn` starts: the entry and the result it sends back. -/
def Entry.refresh [DecidableEq Url] (prev : Entry Url Stat)
    (answer : Except IoError (Option (File Url Stat))) (timeless : Bool)
    (read : Except IoError (Files Url Stat)) :
    Entry Url Stat × Except IoError (RefreshResponse Url Stat) :=
  match revalidate prev.file answer timeless with
  | .error err => (prev, .error err)
  | .ok found =>
    let prev := { prev with file := found.getD prev.file }
    if found.isNone && !prev.force then (prev, .ok .skip)
    else if prev.stream then (prev, read.map fun _ => .part)
    else (prev, read.map .full)

/-! ### The table -/

structure Refresher (Url Stat : Type) where
  /-- `FILES_TICKET`. -/
  ticket : Nat := 1
  entries : Assoc Url (Entry Url Stat) := []
  /-- Runs whose handle is in an entry, and runs whose entry was dropped. -/
  flying : List (Entry Url Stat) := []
  aborted : List (Entry Url Stat) := []
  /-- Every run that was ever started. -/
  started : List (Entry Url Stat) := []
  emitted : List (FilesOp Url Stat) := []

inductive Op (Url Stat : Type) where
  | sync (files : Files Url Stat)
  | load (file : File Url Stat)
  | refresh (file : File Url Stat) (force : Bool)
  | done (prev : Entry Url Stat) (result : Except IoError (RefreshResponse Url Stat))

/-- What depends on the form of a url only: whether it is local, and how it splits into the
directory and the file in it. -/
structure Urls (Url : Type) where
  isLocal : Url → Bool
  pair : Url → Option (Url × Url)

namespace Refresher

variable [DecidableEq Url] (urls : Urls Url)

/-- `Refresher::spawn` with `Entry::turn`: the run takes the flags of the entry along. -/
def spawn (s : Refresher Url Stat) (key : Url) (entry : Entry Url Stat) : Refresher Url Stat :=
  if !entry.dirty || entry.busy != 0 then
    { s with entries := s.entries.insert key entry }
  else
    let prev := { entry with busy := s.ticket }
    { s with
      ticket := s.ticket + 1
      entries := s.entries.insert key { file := entry.file, busy := s.ticket }
      flying := prev :: s.flying
      started := prev :: s.started }

def sync (s : Refresher Url Stat) (files : Files Url Stat) : Refresher Url Stat :=
  let wanted := fun url => files.any (·.url == url)
  { s with
    entries := files.foldl
      (fun entries file => if (entries.get? file.url).isSome then entries
        else entries.insert file.url { file })
      (s.entries.retain wanted)
    flying := s.flying.filter (wanted ·.file.url)
    aborted := s.flying.filter (!wanted ·.file.url) ++ s.aborted }

def emit (s : Refresher Url Stat) (op : FilesOp Url Stat) : Refresher Url Stat :=
  { s with emitted := s.emitted ++ [op] }

/-- What an accepted `Done` emits, and the file it leaves in the entry. -/
def respond (s : Refresher Url Stat) (prev entry : Entry Url Stat)
    (result : Except IoError (RefreshResponse Url Stat)) :
    Refresher Url Stat × Entry Url Stat :=
  match result with
  | .ok (.full files) => (s.emit (.full prev.file files), { entry with file := prev.file })
  | .ok .part => (s.emit (.done prev.file prev.busy), { entry with file := prev.file })
  | .ok .skip => (s, entry)
  | .error .notFound =>
    match urls.pair prev.file.url with
    | some (trail, name) => (s.emit (.delete trail [name]), { entry with force := true })
    | none =>
      if prev.report then (s.emit (.fail prev.file.url .notFound), { entry with force := true })
      else (s, { entry with force := true })
  | .error err =>
    if prev.report then (s.emit (.fail prev.file.url err), { entry with force := true })
    else (s, { entry with force := true })

def handle (s : Refresher Url Stat) : Op Url Stat → Refresher Url Stat
  | .sync files => s.sync files
  | .load file =>
    match s.entries.get? file.url with
    | some entry =>
      -- A load that finds a run in flight leaves its file and nothing else.
      if entry.busy != 0 then { s with entries := s.entries.insert file.url { entry with file } }
      else s.spawn file.url { entry with
        file, dirty := true, report := true, force := true, stream := true }
    | none => s.spawn file.url
        { file, dirty := true, report := true, force := true, stream := true }
  | .refresh file force =>
    match s.entries.get? file.url with
    | some entry =>
      if !force && entry.busy != 0 then
        { s with entries := s.entries.insert file.url { entry with file } }
      else s.spawn file.url { entry with
        file, dirty := true, report := true, force := entry.force || force, stream := false }
    | none => s.spawn file.url { file, dirty := true, report := true, force, stream := false }
  | .done prev result =>
    match s.entries.get? prev.file.url with
    | none => s
    | some entry =>
      if entry.busy != prev.busy then s
      else
        let (s, entry) := s.respond urls prev entry result
        -- A new request may have arrived while this entry was busy.
        s.spawn prev.file.url { entry with busy := 0 }

/-- The timer, for one directory that is not local. -/
def tick (s : Refresher Url Stat) (url : Url) : Refresher Url Stat :=
  match s.entries.get? url with
  | none => s
  | some entry => s.spawn url { entry with dirty := true }

inductive Label (Url Stat : Type) where
  | sync (files : Files Url Stat)
  | load (file : File Url Stat)
  | refresh (file : File Url Stat) (force : Bool)
  | chunk (run : Entry Url Stat) (files : Files Url Stat)
  | done (run : Entry Url Stat) (answer : Except IoError (Option (File Url Stat))) (timeless : Bool)
      (read : Except IoError (Files Url Stat))
  | tick (order : List Url)
  | next

variable [DecidableEq Stat]

/-- One step. A run sends chunks and its `Done`; an aborted one may still do so. The timer goes
through the directories in the order of the map, which is not determined. `next` is a ticket
taken elsewhere. -/
def step (s : Refresher Url Stat) : Label Url Stat → Option (Refresher Url Stat)
  | .sync files => some (s.handle urls (.sync files))
  | .load file => some (s.handle urls (.load file))
  | .refresh file force => some (s.handle urls (.refresh file force))
  | .chunk run files =>
    if run ∈ s.flying ++ s.aborted ∧ run.stream then
      some (s.emit (.part run.file.url files run.busy))
    else none
  | .done run answer timeless read =>
    if run ∈ s.flying ++ s.aborted then
      let s := { s with flying := s.flying.erase run, aborted := s.aborted.erase run }
      let (prev, result) := run.refresh answer timeless read
      some (s.handle urls (.done prev result))
    else none
  | .tick order =>
    if order.Perm (s.entries.keys.filter (!urls.isLocal ·)) then some (order.foldl tick s) else none
  | .next => some { s with ticket := s.ticket + 1 }

end Refresher
end Yazi.Watcher
