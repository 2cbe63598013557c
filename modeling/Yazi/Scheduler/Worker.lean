import Mathlib.Logic.Function.Basic
import Yazi.Base.Run
import Yazi.Scheduler.Out

/-!
The table of ongoing tasks, the op loop, the hook workers and cancellation.

Everything that runs concurrently is a label of `System.step`: a worker sending a
report, the op loop taking the next report, a hook worker taking a hook or finishing
one, a cancellation. A run is any interleaving of them.
-/
namespace Yazi.Scheduler
open Yazi.Base

/-- Task ids, as `Ids::next` hands them out. -/
abbrev Id := Nat

/-! ### What workers report -/

/-- The meaning of a report for the task it is about. -/
inductive Event where
  | register
  | announce
  | deform
  | collected (ok : Bool)
  | settled (ok : Bool)
  | advance
  | clean (state : CleanupState)
  | other
deriving DecidableEq, Repr

def FileOut.event {κ : Type} (cleanup : κ → CleanupState × Option String) : FileOut κ → Event
  | .new _ => .announce
  | .deform _ => .deform
  | .succ => .collected true
  | .fail _ => .collected false
  | .clean result => .clean (cleanup result).1

def FileOutDo.event : FileOutDo → Event
  | .adv _ => .advance
  | .succ => .settled true
  | .fail _ => .settled false

def FileOutHardlink.event : FileOutHardlink → Event
  | .new => .announce
  | .deform _ => .deform
  | .succ => .collected true
  | .fail _ => .collected false
  | .clean => .clean .success

def FileOutHardlinkDo.event : FileOutHardlinkDo → Event
  | .succ => .settled true
  | .fail _ => .settled false

def StateOut.event : StateOut → Event
  | .succ => .collected true
  | .fail _ => .collected false
  | .clean => .clean .success

/-- A link made on behalf of a copy or a move: only the task itself is cleaned up. -/
def StateOut.eventFile : StateOut → Option Event
  | .succ => some (.settled true)
  | .fail _ => some (.settled false)
  | .clean => none

def FileOutDelete.event : FileOutDelete → Event
  | .adv _ => .other
  | .succ => .collected true
  | .fail _ => .collected false
  | .clean => .clean .success

/-- What a report means for a task of the given kind, if it is one that the workers of such
tasks send. -/
def TaskOut.event (kind : TaskKind) (out : TaskOut) : Option Event :=
  match out with
  | fileCopy out => if kind = .fileCopy then some (out.event cleanDone) else none
  | fileCopyDo out => if kind = .fileCopy then some out.event else none
  | fileMove out => if kind = .fileMove then some (out.event cleanMoved) else none
  | fileMoveDo out => if kind = .fileMove then some out.event else none
  | fileLink out =>
    if kind = .fileLink then some (StateOut.event out)
    else if kind = .fileCopy ∨ kind = .fileMove then out.eventFile else none
  | fileHardlink out => if kind = .fileHardlink then some out.event else none
  | fileHardlinkDo out => if kind = .fileHardlink then some out.event else none
  | fileDelete out => if kind = .fileDelete then some out.event else none
  | fileTrash out => if kind = .fileTrash then some out.event else none
  | fileDownload out => if kind = .fileDownload then some (out.event cleanDone) else none
  | fileDownloadDo out => if kind = .fileDownload then some out.event else none
  | fileUpload out => if kind = .fileUpload then some (out.event cleanDone) else none
  | fileUploadDo out => if kind = .fileUpload then some out.event else none
  | pluginEntry _ => if kind = .pluginEntry then some .other else none
  | fetch out => if kind = .fetch then some out.event else none
  | preload out => if kind = .preload then some out.event else none
  | size _ => if kind = .size then some .other else none
  | processBlock _ => if kind = .processBlock then some .other else none
  | processOrphan _ => if kind = .processOrphan then some .other else none
  | processBg _ => if kind = .processBg then some .other else none
  | custom _ => if kind = .custom then some .other else none
  | hookCopy => if kind = .fileCopy then some .register else none
  | hookMove => if kind = .fileMove then some .register else none
  | hookLink => if kind = .fileLink then some .register else none
  | hookHardlink => if kind = .fileHardlink then some .register else none

inductive Stage where
  | fresh
  | working
  | finished
deriving DecidableEq, Repr

/-- Where the workers of a task are: the first one, which registers the hook, announces the
sub-operations and reports how that ended; and the sub-operations that have not finished. -/
structure Job where
  kind : TaskKind
  stage : Stage
  pending : Nat := 0
  hooked : Bool
deriving DecidableEq, Repr

/-- The order in which the workers of one task send their reports: the hook before anything is
announced, the end of the collection once, `Do` reports only of announced sub-operations. -/
def Job.next (job : Job) : Event → Option Job
  | .register =>
    if job.stage = .fresh then some { job with stage := .working, hooked := true } else none
  | .announce =>
    if job.stage = .working then some { job with pending := job.pending + 1 } else none
  | .deform => if job.stage = .working then some job else none
  | .collected true => if job.stage = .working then some { job with stage := .finished } else none
  | .collected false => if job.stage ≠ .finished then some { job with stage := .finished } else none
  | .settled _ => if 0 < job.pending then some { job with pending := job.pending - 1 } else none
  | .advance => if 0 < job.pending then some job else none
  | .clean _ | .other => some job

/-- Taking a report is taking its event; a report with no event is not sent. -/
def Job.take (job : Job) (out : TaskOut) : Option Job :=
  (out.event job.kind).bind job.next

def TaskKind.hook : TaskKind → Option HookIn
  | .fileCopy => some .copy
  | .fileMove => some .move
  | .fileLink => some .link
  | .fileHardlink => some .hardlink
  | .fileDelete => some .delete
  | .fileTrash => some .trash
  | .fileDownload => some .download
  | .fileUpload => some .upload
  | .fetch => some .fetch
  | .preload => some .preload
  | _ => none

/-- The kinds that `Scheduler` adds without a hook: their worker registers it, or nobody does. -/
def TaskKind.hookless : TaskKind → Bool
  | .fileCopy | .fileMove | .fileLink | .fileHardlink => true
  | kind => kind.hook.isNone

/-- `Ongoing::add`, with the hook of `Scheduler::add_hooked`. -/
def Task.new (kind : TaskKind) : Task :=
  { prog := .default kind, hook := if kind.hookless then none else kind.hook }

def Job.new (kind : TaskKind) : Job :=
  { kind, stage := if kind.hookless then .fresh else .working, hooked := !kind.hookless }

/-- What a hook worker reports at the end of `hook_do`. The cleanup after a move may fail; a move
that is no longer intact is not cleaned up and reports success. -/
def HookIn.out (hook : HookIn) (result : Except String Unit) : TaskOut :=
  match hook with
  | copy => .fileCopy (.clean ())
  | move => .fileMove (.clean result)
  | delete => .fileDelete .clean
  | trash => .fileTrash .clean
  | link => .fileLink .clean
  | hardlink => .fileHardlink .clean
  | download => .fileDownload (.clean ())
  | upload => .fileUpload (.clean ())
  | fetch => .fetch .clean
  | preload => .preload .clean

def TaskOut.isClean (out : TaskOut) : Bool :=
  match out with
  | fileCopy (.clean _) | fileMove (.clean _) | fileDelete .clean | fileTrash .clean
  | fileLink .clean | fileHardlink .clean | fileDownload (.clean _) | fileUpload (.clean _)
  | fetch .clean | preload .clean => true
  | _ => false

/-! ### The op loop and cancellation, for the task they are about -/

/-- What becomes of a task: it stays in the table, it stays while its hook is submitted, or it
leaves the table. The task in `leave` is how its handle, which outlives the table, sees it. -/
inductive Outcome where
  | stay (task : Task)
  | submit (task : Task) (hook : HookIn)
  | leave (task : Task)
deriving DecidableEq, Repr

open Progress (running cooked failed cleaned success)

/-- The status of a task whose work ended without success. -/
def Task.settle (task : Task) : Task :=
  if !running task.prog && !success task.prog then task.fail else task

/-- The body of `Worker::op`. -/
def Worker.op (task : Task) (out : TaskOut) : Outcome :=
  let task := (out.reduce task).settle
  if !cooked task.prog && !task.status.isFinished then
    .stay task
  else if task.status == .failed then
    .stay task
  else match task.hook with
    | some hook => .submit { task with hook := none } hook
    | none =>
      if cleaned task.prog == some .pending then .stay task
      else .leave task.succeed

/-- `Worker::cancel` with `Ongoing::cancel`. -/
def Worker.cancel (task : Task) (force : Bool) : Outcome :=
  if !force && task.isCanceled then
    .stay task
  else
    let task := task.cancel
    match task.hook with
    | some hook => .submit { task with hook := none } hook
    | none => .leave task

/-! ### The whole scheduler -/

structure TaskOp where
  id : Id
  out : TaskOut
deriving Repr

structure System where
  ids : Id := 0
  /-- `Ongoing`, a map from ids to tasks. -/
  ongoing : Id → Option Task := fun _ => none
  /-- Tasks that left the table, as their handles still see them. -/
  left : Id → Option Task := fun _ => none
  jobs : Id → Option Job := fun _ => none
  ops : List TaskOp := []
  /-- Hooks submitted, and hooks that a hook worker is executing. -/
  hooks : Id → List HookIn := fun _ => []
  executing : Id → List HookIn := fun _ => []
  /-- How often a hook of the task was executed to its end. -/
  executed : Id → Nat := fun _ => 0

inductive Label where
  | add (kind : TaskKind)
  | start (id : Id)
  | report (op : TaskOp)
  | op
  | cancel (id : Id) (force : Bool)
  | take (id : Id) (hook : HookIn)
  | finish (id : Id) (hook : HookIn) (result : Except String Unit)
deriving Repr

namespace System

def settle (s : System) (id : Id) : Outcome → System
  | .stay task => { s with ongoing := Function.update s.ongoing id (some task) }
  | .submit task hook =>
    { s with
      ongoing := Function.update s.ongoing id (some task)
      hooks := Function.update s.hooks id (hook :: s.hooks id) }
  | .leave task =>
    { s with
      ongoing := Function.update s.ongoing id none
      left := Function.update s.left id (some task) }

def step (s : System) : Label → Option System
  | .add kind => some
    { s with
      ids := s.ids + 1
      ongoing := Function.update s.ongoing s.ids (some (Task.new kind))
      jobs := Function.update s.jobs s.ids (some (Job.new kind)) }
  | .start id => do
    let task ← s.ongoing id
    return { s with ongoing := Function.update s.ongoing id (some task.start) }
  | .report op =>
    if op.out.isClean then none
    else do
      let job ← s.jobs op.id
      let job ← job.take op.out
      return { s with jobs := Function.update s.jobs op.id (some job), ops := s.ops ++ [op] }
  | .op =>
    match s.ops with
    | [] => none
    | op :: ops =>
      match s.ongoing op.id with
      | none => some { s with ops }
      | some task => some ({ s with ops }.settle op.id (Worker.op task op.out))
  | .cancel id force =>
    match s.ongoing id with
    | none => some s
    | some task => some (s.settle id (Worker.cancel task force))
  | .take id hook =>
    if hook ∈ s.hooks id then
      let s := { s with hooks := Function.update s.hooks id ((s.hooks id).erase hook) }
      -- The worker drops a hook whose task is no longer there.
      if (s.ongoing id).isSome then
        some { s with executing := Function.update s.executing id (hook :: s.executing id) }
      else some s
    else none
  | .finish id hook result =>
    if hook ∈ s.executing id then
      some
        { s with
          executing := Function.update s.executing id ((s.executing id).erase hook)
          executed := Function.update s.executed id (s.executed id + 1)
          ops := s.ops ++ [{ id, out := hook.out result }] }
    else none

end System
end Yazi.Scheduler
