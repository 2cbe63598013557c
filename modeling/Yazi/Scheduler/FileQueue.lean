import Mathlib.Data.List.Perm.Subperm
import Yazi.Base.Run
import Yazi.Fs.File

/-!
The queue of the file workers.

A worker takes a job and puts further jobs into the same queue. A move that follows links puts
those of its links in first and waits until they are done, so that the files they lead to are
still there: the jobs hold the sending half of a channel whose receiving half it listens to.
-/
namespace Yazi.Scheduler.FileQueue
open Base Fs

/-! ### Jobs -/

abbrev Id := Nat

abbrev Chan := Nat

def low : Nat := 0

def normal : Nat := 1

/-- `FileIn`, with the files that a traversal of the task meets. -/
inductive FileIn where
  | copy (id : Id) (follow : Bool) (tree : List Stat)
  | copyDo (id : Id)
  /-- `symlink` is the capability of the source. -/
  | move (id : Id) (follow symlink : Bool) (tree : List Stat)
  | moveDo (id : Id) (drop : Option Chan)
  | link (id : Id)
  | linkDo (id : Id)
  | hardlink (id : Id) (tree : List Stat)
  | hardlinkDo (id : Id)
  | delete (id : Id)
  | trash (id : Id)
  | trashDo (id : Id)
  | download (id : Id) (tree : List Stat)
  | downloadDo (id : Id)
  /-- Each file comes with the metadata of its cache, where it has one. -/
  | upload (id : Id) (tree : List (Stat × Option Stat))
  | uploadDo (id : Id)
  deriving DecidableEq

/-- What a job does with the queue. -/
inductive Action where
  | requeue (priority : Nat) (job : FileIn)
  | wait (chan : Chan)
  deriving DecidableEq

namespace FileIn

def drop : FileIn → Option Chan
  | moveDo _ drop => drop
  | _ => none

/-- What the scheduler submits. -/
def isTask : FileIn → Bool
  | copy .. | move .. | link _ | hardlink .. | delete _ | trash _ | download .. | upload .. => true
  | _ => false

/-- `File::copy` -/
def bodyCopy (id : Id) (follow : Bool) (tree : List Stat) : List Action :=
  tree.map fun stat =>
    if stat.isOrphan || (stat.isIndirect && !follow) then .requeue normal (linkDo id)
    else .requeue low (copyDo id)

section move
variable (id : Id) (follow symlink : Bool) (tree : List Stat)

def nofollow (stat : Stat) : Bool := stat.isOrphan || (stat.isIndirect && !follow)

def reorder : Bool := follow && symlink

/-- What a traversal puts into the queue at once. -/
def bodyTraverse : List Action :=
  tree.filterMap fun stat =>
    if nofollow follow stat then some (.requeue normal (linkDo id))
    else if reorder follow symlink then none
    else some (.requeue low (moveDo id none))

def links : List Stat :=
  tree.filter fun stat => !nofollow follow stat && (reorder follow symlink && stat.isLink)

def files : List Stat :=
  tree.filter fun stat => !nofollow follow stat && (reorder follow symlink && !stat.isLink)

/-- The links with their channel, and waiting for it. -/
def bodyLinks (chan : Chan) : List Action :=
  if links follow symlink tree = [] then []
  else
    ((links follow symlink tree).map fun _ => .requeue low (moveDo id (some chan))) ++ [.wait chan]

/-- `File::move` -/
def bodyMove (chan : Chan) : List Action :=
  bodyTraverse id follow symlink tree ++ (bodyLinks id follow symlink tree chan ++
    (files follow symlink tree).map fun _ => .requeue low (moveDo id none))

end move

/-- What the job does with the queue, in order, with a channel of its own. -/
def body (chan : Chan) : FileIn → List Action
  | copy id follow tree => bodyCopy id follow tree
  | move id follow symlink tree => bodyMove id follow symlink tree chan
  | link id => [.requeue normal (linkDo id)]
  | hardlink id tree => tree.map fun _ => .requeue normal (hardlinkDo id)
  | trash id => [.requeue low (trashDo id)]
  | download id tree =>
    (tree.filter fun stat => !stat.isOrphan).map fun _ => .requeue low (downloadDo id)
  | upload id tree =>
    (tree.filter fun (stat, cache) => cache.any (·.mtime ≠ stat.mtime)).map fun _ =>
      .requeue low (uploadDo id)
  | _ => []

end FileIn

/-! ### The workers -/

/-- A job that a worker has taken, and what it has still to do. -/
structure Work where
  job : FileIn
  rest : List Action
  deriving DecidableEq

structure State where
  queue : List (Nat × FileIn)
  workers : List (Option Work)
  chans : Nat

namespace State

/-- As many workers as `file_workers` says. -/
def make (workers : Nat) : State where
  queue := []
  workers := List.replicate workers none
  chans := 0

/-- A job that is not done yet holds the sending half. -/
def held (s : State) (chan : Chan) : Bool :=
  s.queue.any (·.2.drop = some chan) || s.workers.any fun w => w.any (·.job.drop = some chan)

/-- The worker waits for jobs to finish. -/
def waiting (s : State) : Option Work → Bool
  | some ⟨_, .wait chan :: _⟩ => s.held chan
  | _ => false

/-- All of them wait. -/
def Stuck (s : State) : Prop := ∀ w ∈ s.workers, s.waiting w = true

end State

inductive Label where
  | submit (task : FileIn)
  /-- An idle worker takes a job of the highest priority that is queued. -/
  | take (worker : Nat) (priority : Nat) (job : FileIn)
  /-- As `take`, for a job whose task is gone. -/
  | discard (worker : Nat) (priority : Nat) (job : FileIn)
  | act (worker : Nat)
  /-- The work is done, has failed or was cancelled, or the move was a rename. -/
  | leave (worker : Nat)

namespace State

def idle (s : State) (worker : Nat) : Bool := s.workers[worker]? = some none

def first (s : State) (priority : Nat) (job : FileIn) : Bool :=
  (priority, job) ∈ s.queue ∧ s.queue.all (·.1 ≤ priority)

def working (s : State) (worker : Nat) : Option Work := s.workers[worker]?.join

def step (s : State) : Label → Option State
  | .submit task => if task.isTask then some { s with queue := s.queue ++ [(low, task)] } else none
  | .take worker priority job =>
    if s.idle worker && s.first priority job then
      some { s with
        queue := s.queue.erase (priority, job)
        workers := s.workers.set worker (some ⟨job, job.body s.chans⟩)
        chans := s.chans + 1 }
    else none
  | .discard worker priority job =>
    if s.idle worker && s.first priority job then
      some { s with queue := s.queue.erase (priority, job) }
    else none
  | .act worker =>
    (s.working worker).bind fun work =>
      match work.rest with
      | [] => none
      | .requeue priority job :: rest =>
        some { s with
          queue := s.queue ++ [(priority, job)]
          workers := s.workers.set worker (some { work with rest }) }
      | .wait chan :: rest =>
        if s.held chan then none
        else some { s with workers := s.workers.set worker (some { work with rest }) }
  | .leave worker =>
    (s.working worker).map fun _ => { s with workers := s.workers.set worker none }

end State

/-- The tasks that a run submits. -/
def submitted (labels : List Label) : List FileIn :=
  labels.filterMap fun
    | .submit task => some task
    | _ => none

/-! ### Moves that wait -/

/-- A move that follows links, of a tree with a link that leads somewhere. -/
def FileIn.waits : FileIn → Bool
  | move _ follow symlink tree =>
    follow && symlink && tree.any fun stat => stat.isLink && !stat.isOrphan
  | _ => false

def Action.isWait : Action → Bool
  | wait _ => true
  | requeue .. => false

/-- It puts a job into the queue that does not wait. -/
def Action.Plain : Action → Prop
  | requeue _ job => job.waits = false
  | wait _ => False

theorem FileIn.links_eq_nil {follow symlink : Bool} {tree : List Stat} :
    links follow symlink tree = [] ↔
      (follow && symlink && tree.any fun stat => stat.isLink && !stat.isOrphan) = false := by
  cases follow <;> cases symlink <;> simp [links, reorder, nofollow, and_comm]

private theorem plain_map {α : Type} (l : List α) (priority : Nat) {job : FileIn}
    (plain : job.waits = false) : ∀ a ∈ l.map (fun _ => Action.requeue priority job), a.Plain := by
  intro a member
  obtain ⟨_, -, rfl⟩ := List.mem_map.mp member
  exact plain

theorem FileIn.plain_traverse (id : Id) (follow symlink : Bool) (tree : List Stat) :
    ∀ a ∈ bodyTraverse id follow symlink tree, a.Plain := by
  intro a member
  obtain ⟨stat, -, given⟩ := List.mem_filterMap.mp member
  split at given
  · cases given
    rfl
  · split at given
    · cases given
    · cases given
      rfl

/-- What does not wait does nothing but fill the queue. -/
theorem FileIn.plain_body (chan : Chan) {job : FileIn} (patient : job.waits = false) :
    ∀ a ∈ job.body chan, a.Plain := by
  cases job with
  | copy id follow tree =>
    intro a member
    obtain ⟨stat, -, rfl⟩ := List.mem_map.mp member
    split <;> rfl
  | move id follow symlink tree =>
    intro a member
    rcases List.mem_append.mp member with early | late
    · exact plain_traverse id follow symlink tree a early
    rw [bodyLinks, if_pos (links_eq_nil.mpr patient), List.nil_append] at late
    exact plain_map _ low rfl a late
  | link id =>
    rintro a (_ | ⟨_, ⟨⟩⟩)
    rfl
  | hardlink id tree => exact plain_map tree normal rfl
  | trash id =>
    rintro a (_ | ⟨_, ⟨⟩⟩)
    rfl
  | download id tree => exact plain_map _ low rfl
  | upload id tree => exact plain_map _ low rfl
  | copyDo | moveDo | linkDo | hardlinkDo | delete | trashDo | downloadDo | uploadDo => nofun

/-- What waits does so once, after the jobs that it waits for were put into the queue. -/
theorem FileIn.body_of_waits (chan : Chan) {job : FileIn} (waits : job.waits = true) :
    ∃ before after, job.body chan = before ++ .wait chan :: after ∧ (∀ a ∈ before, a.Plain) ∧
      (∀ a ∈ after, a.Plain) ∧
      ∃ priority job', .requeue priority job' ∈ before ∧ job'.drop = some chan := by
  cases job with
  | move id follow symlink tree =>
    have present : links follow symlink tree ≠ [] := by
      rw [ne_eq, links_eq_nil]
      exact ne_false_of_eq_true waits
    refine ⟨bodyTraverse id follow symlink tree ++
        (links follow symlink tree).map fun _ => .requeue low (moveDo id (some chan)),
      (files follow symlink tree).map fun _ => .requeue low (moveDo id none), ?_, ?_, ?_, ?_⟩
    · simp [body, bodyMove, bodyLinks, present]
    · intro a member
      rcases List.mem_append.mp member with early | late
      · exact plain_traverse id follow symlink tree a early
      · exact plain_map _ low rfl a late
    · exact plain_map _ low rfl
    · obtain ⟨stat, listed⟩ := List.exists_mem_of_ne_nil _ present
      exact ⟨low, _, List.mem_append_right _ (List.mem_map_of_mem listed), rfl⟩
  | _ => cases waits

end Yazi.Scheduler.FileQueue
