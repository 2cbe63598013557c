import Yazi.Base.Assoc
import Yazi.Base.Run
import Yazi.Shared.Throttle
import Yazi.Shared.Path

/-!
Finding out the sizes of directories.

The directories of a folder whose sizes are not known make up a batch, with a task for each. The
tasks share a throttle, which reports sizes in groups and takes their targets off `sizing` then.
-/
namespace Yazi.Scheduler.Size
open Yazi.Base Yazi.Shared

/-- The url of an entry, in the folder of its trail. -/
structure Target where
  trail : Bytes
  key : Bytes
  deriving DecidableEq

def Target.pair (t : Target) : Option (Bytes × Bytes) :=
  if t.key = [] then none else some (t.trail, t.key)

structure Entry where
  key : Bytes
  isDir : Bool
  deriving DecidableEq

structure Folder where
  trail : Bytes
  entries : List Entry
  distinct : (entries.map Entry.key).Nodup
  /-- It is sorted by size. -/
  bySize : Bool
  sizes : List Bytes

/-- `FilesOp::Size` -/
structure SizeOp where
  trail : Bytes
  sizes : Assoc Bytes Nat
  deriving DecidableEq

inductive Phase where
  | queued
  | calculating
  /-- The size was handed in. -/
  | counted (size : Nat)
  | completed (size : Nat)
  | cancelled (size : Option Nat)
  deriving DecidableEq

namespace Phase

def size : Phase → Option Nat
  | queued | calculating => none
  | counted size | completed size => some size
  | cancelled size => size

def ended : Phase → Bool
  | queued | calculating | counted _ => false
  | completed _ | cancelled _ => true

end Phase

structure Task where
  target : Target
  phase : Phase
  deriving DecidableEq

/-- The tasks that share a throttle, and what it has reported. -/
structure Batch where
  throttle : Throttle (Target × Nat)
  tasks : List Task
  ops : List SizeOp
  deriving DecidableEq

structure State where
  sizing : List Target := []
  batches : List Batch := []
  underflow : Bool := false
  deriving DecidableEq

inductive Label where
  | prework (folder : Folder)
  | start (batch task : Nat)
  | calculated (batch task size : Nat) (elapsed : Bool)
  | complete (batch task : Nat)
  | cancel (batch task : Nat)

/-- `HashMap::from_iter` -/
def fromIter (sizes : List (Bytes × Nat)) : Assoc Bytes Nat :=
  sizes.foldl (fun map entry => map.insert entry.1 entry.2) []

/-- The operation for a group, in the folder of its first target. -/
def sizeOp (buf : List (Target × Nat)) : Option SizeOp :=
  buf.head?.bind fun first => first.1.pair.map fun pair =>
    ⟨pair.1, fromIter (buf.map fun entry => (entry.1.key, entry.2))⟩

namespace State
variable (s : State)

def task (batch task : Nat) : Option (Batch × Task) :=
  s.batches[batch]?.bind fun b => b.tasks[task]?.map fun t => (b, t)

def setBatch (batch : Nat) (b : Batch) : State := { s with batches := s.batches.set batch b }

def setPhase (batch task : Nat) (b : Batch) (t : Task) (phase : Phase) : State :=
  s.setBatch batch { b with tasks := b.tasks.set task { t with phase } }

/-- `Tasks::prework_sorted` and `Scheduler::prework_size` -/
def prework (folder : Folder) : State :=
  if !folder.bySize then s
  else
    let targets := (folder.entries.filter fun e => e.isDir && e.key ≠ [] &&
      !folder.sizes.contains e.key && !s.sizing.contains ⟨folder.trail, e.key⟩).map fun e =>
        (⟨folder.trail, e.key⟩ : Target)
    if targets = [] then s
    else
      { s with
        sizing := targets.foldl (fun sizing target => sizing.insert target) s.sizing
        batches := s.batches ++
          [⟨.make targets.length, targets.map fun target => ⟨target, .queued⟩, []⟩] }

/-- The end of `Size::size`, with what the throttle calls. -/
def done (batch task : Nat) (b : Batch) (t : Task) (size : Nat) (elapsed : Bool) : State :=
  match b.throttle.done (t.target, size) elapsed with
  | none => { s with underflow := true }
  | some (throttle, called) =>
    let tasks := b.tasks.set task { t with phase := .counted size }
    match called with
    | none => s.setBatch batch { b with throttle, tasks }
    | some buf =>
      { s.setBatch batch { throttle, tasks, ops := b.ops ++ (sizeOp buf).toList } with
        sizing := s.sizing.filter fun target => !(buf.map Prod.fst).contains target }

/-- A worker leaves a task that was cancelled in the queue, and drops one that it is at. -/
def step (s : State) : Label → Option State
  | .prework folder => some (s.prework folder)
  | .start batch task => (s.task batch task).bind fun (b, t) =>
    if t.phase = .queued then some (s.setPhase batch task b t .calculating) else none
  | .calculated batch task size elapsed => (s.task batch task).bind fun (b, t) =>
    if t.phase = .calculating then some (s.done batch task b t size elapsed) else none
  | .complete batch task => (s.task batch task).bind fun (b, t) =>
    match t.phase with
    | .counted size => some (s.setPhase batch task b t (.completed size))
    | _ => none
  | .cancel batch task => (s.task batch task).bind fun (b, t) =>
    if t.phase.ended then none else some (s.setPhase batch task b t (.cancelled t.phase.size))

end State
end Yazi.Scheduler.Size
