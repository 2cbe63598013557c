import Mathlib

/-! Task states and the progress records of every kind of task. -/
namespace Yazi.Scheduler

inductive TaskStatus where
  | pending
  | started
  | succeeded
  | failed
  | canceled
deriving DecidableEq, Repr

namespace TaskStatus

def hasStarted (status : TaskStatus) : Bool :=
  match status with
  | started | succeeded | failed => true
  | pending | canceled => false

def isCancelable (status : TaskStatus) : Bool :=
  match status with
  | pending | started | failed => true
  | succeeded | canceled => false

def isFinishable (status : TaskStatus) : Bool :=
  match status with
  | pending | started => true
  | succeeded | failed | canceled => false

def isFinished (status : TaskStatus) : Bool :=
  match status with
  | succeeded | failed | canceled => true
  | pending | started => false

/-- `TaskHandle::transition`: the status changes only where the old one allows it. -/
def transition (status next : TaskStatus) (allowed : TaskStatus → Bool) : TaskStatus :=
  if allowed status then next else status

end TaskStatus

inductive CleanupState where
  | pending
  | success
  | failed
deriving DecidableEq, Repr

/-- `success` and `cooking_or_cleaning` are the trait's provided methods, below. -/
class Progress (α : Type) where
  running : α → Bool
  cooked : α → Bool
  failed : α → Bool
  cleaned : α → Option CleanupState

namespace Progress

def success {α : Type} [Progress α] (prog : α) : Bool :=
  match cleaned prog with
  | none | some .success => cooked prog
  | some .pending | some .failed => false

def cookingOrCleaning (cooked : Bool) (cleaned : Option CleanupState) (cooking : Bool) : Bool :=
  cooking || (cooked && cleaned == some .pending)

end Progress

open Progress (cookingOrCleaning)

/-! ### Tasks with a collect phase -/

/-- The one record behind the progress of copies, moves, downloads and uploads. -/
structure FileProg where
  totalFiles : Nat := 0
  succeededFiles : Nat := 0
  failedFiles : Nat := 0
  totalBytes : Nat := 0
  processedBytes : Nat := 0
  collected : Option Bool := none
  cleaned : CleanupState := .pending
deriving DecidableEq, Repr

abbrev FileProgCopy := FileProg
abbrev FileProgMove := FileProg
abbrev FileProgDownload := FileProg
abbrev FileProgUpload := FileProg

namespace FileProg

def cooked (prog : FileProg) : Bool :=
  prog.collected == some true && prog.succeededFiles == prog.totalFiles

instance : Progress FileProg where
  running prog := cookingOrCleaning prog.cooked (some prog.cleaned)
    (prog.collected.isNone || prog.succeededFiles + prog.failedFiles != prog.totalFiles)
  cooked prog := prog.cooked
  failed prog := prog.cleaned == .failed || prog.collected == some false
  cleaned prog := some prog.cleaned

end FileProg

structure FileProgHardlink where
  total : Nat := 0
  succeeded : Nat := 0
  failed : Nat := 0
  collected : Option Bool := none
  cleaned : CleanupState := .pending
deriving DecidableEq, Repr

namespace FileProgHardlink

def cooked (prog : FileProgHardlink) : Bool :=
  prog.collected == some true && prog.succeeded == prog.total

instance : Progress FileProgHardlink where
  running prog := cookingOrCleaning prog.cooked (some prog.cleaned)
    (prog.collected.isNone || prog.succeeded + prog.failed != prog.total)
  cooked prog := prog.cooked
  failed prog := prog.cleaned == .failed || prog.collected == some false
  cleaned prog := some prog.cleaned

end FileProgHardlink

/-! ### Tasks with one piece of work and a cleanup -/

structure StateProg where
  state : Option Bool := none
  cleaned : CleanupState := .pending
deriving DecidableEq, Repr

abbrev FileProgLink := StateProg
abbrev FileProgTrash := StateProg
abbrev FetchProg := StateProg
abbrev PreloadProg := StateProg

instance : Progress StateProg where
  running prog := cookingOrCleaning (prog.state == some true) (some prog.cleaned) prog.state.isNone
  cooked prog := prog.state == some true
  failed prog := prog.cleaned == .failed || prog.state == some false
  cleaned prog := some prog.cleaned

structure Delta where
  total : Nat := 0
  succeeded : Nat := 0
  failed : Nat := 0
  workload : Option Nat := none
  processed : Nat := 0
deriving DecidableEq, Repr

/-- `u64::checked_add`. -/
def checkedAdd (a b : Nat) : Except String Nat :=
  if a + b < 2 ^ 64 then .ok (a + b) else .error "Removal progress overflow"

def Delta.tryAdd (delta rhs : Delta) : Except String Delta := do
  let total ← checkedAdd delta.total rhs.total
  let succeeded ← checkedAdd delta.succeeded rhs.succeeded
  let failed ← checkedAdd delta.failed rhs.failed
  let processed ← checkedAdd delta.processed rhs.processed
  let workload ← match rhs.workload with
    | some more => some <$> checkedAdd (delta.workload.getD 0) more
    | none => .ok delta.workload
  if workload.isNone && processed != 0 then
    throw "processed requires workload"
  if processed > workload.getD 0 then
    throw "processed exceeds workload"
  if (← checkedAdd succeeded failed) > total then
    throw "succeeded + failed exceeds total"
  return { total, succeeded, failed, workload, processed }

structure FileProgDelete where
  delta : Delta := {}
  state : Option Bool := none
  cleaned : CleanupState := .pending
deriving DecidableEq, Repr

namespace FileProgDelete

def cooked (prog : FileProgDelete) : Bool :=
  prog.state == some true && prog.delta.failed == 0

/-- Unlike its siblings, a deletion that failed to clean up does not count as failed. -/
instance : Progress FileProgDelete where
  running prog := cookingOrCleaning prog.cooked (some prog.cleaned) prog.state.isNone
  cooked prog := prog.cooked
  failed prog := prog.state == some false || prog.delta.failed != 0
  cleaned prog := some prog.cleaned

end FileProgDelete

/-! ### Tasks without a cleanup -/

structure OutcomeProg where
  state : Option Bool := none
deriving DecidableEq, Repr

abbrev PluginProgEntry := OutcomeProg
abbrev ProcessProgBlock := OutcomeProg
abbrev ProcessProgOrphan := OutcomeProg
abbrev ProcessProgBg := OutcomeProg

instance : Progress OutcomeProg where
  running prog := prog.state.isNone
  cooked prog := prog.state == some true
  failed prog := prog.state == some false
  cleaned _ := none

structure SizeProg where
  done : Bool := false
deriving DecidableEq, Repr

instance : Progress SizeProg where
  running prog := !prog.done
  cooked prog := prog.done
  failed _ := false
  cleaned _ := none

structure CustomProg where
  state : Option Bool := none
  total : Nat := 0
  succeeded : Nat := 0
  failed : Nat := 0
  workload : Nat := 0
  processed : Nat := 0
deriving DecidableEq, Repr

instance : Progress CustomProg where
  running prog := prog.state.isNone
  cooked prog := prog.state == some true
  failed prog := prog.state == some false
  cleaned _ := none

/-! ### The progress of any task -/

inductive TaskKind where
  | fileCopy | fileMove | fileLink | fileHardlink | fileDelete | fileTrash
  | fileDownload | fileUpload | pluginEntry | fetch | preload | size
  | processBlock | processOrphan | processBg | custom
deriving DecidableEq, Repr

inductive TaskProg where
  | fileCopy (prog : FileProgCopy)
  | fileMove (prog : FileProgMove)
  | fileLink (prog : FileProgLink)
  | fileHardlink (prog : FileProgHardlink)
  | fileDelete (prog : FileProgDelete)
  | fileTrash (prog : FileProgTrash)
  | fileDownload (prog : FileProgDownload)
  | fileUpload (prog : FileProgUpload)
  | pluginEntry (prog : PluginProgEntry)
  | fetch (prog : FetchProg)
  | preload (prog : PreloadProg)
  | size (prog : SizeProg)
  | processBlock (prog : ProcessProgBlock)
  | processOrphan (prog : ProcessProgOrphan)
  | processBg (prog : ProcessProgBg)
  | custom (prog : CustomProg)
deriving DecidableEq, Repr

namespace TaskProg

def kind : TaskProg → TaskKind
  | fileCopy _ => .fileCopy
  | fileMove _ => .fileMove
  | fileLink _ => .fileLink
  | fileHardlink _ => .fileHardlink
  | fileDelete _ => .fileDelete
  | fileTrash _ => .fileTrash
  | fileDownload _ => .fileDownload
  | fileUpload _ => .fileUpload
  | pluginEntry _ => .pluginEntry
  | fetch _ => .fetch
  | preload _ => .preload
  | size _ => .size
  | processBlock _ => .processBlock
  | processOrphan _ => .processOrphan
  | processBg _ => .processBg
  | custom _ => .custom

/-- `T::Prog::default()` for each kind of task. -/
def default : TaskKind → TaskProg
  | .fileCopy => fileCopy {}
  | .fileMove => fileMove {}
  | .fileLink => fileLink {}
  | .fileHardlink => fileHardlink {}
  | .fileDelete => fileDelete {}
  | .fileTrash => fileTrash {}
  | .fileDownload => fileDownload {}
  | .fileUpload => fileUpload {}
  | .pluginEntry => pluginEntry {}
  | .fetch => fetch {}
  | .preload => preload {}
  | .size => size {}
  | .processBlock => processBlock {}
  | .processOrphan => processOrphan {}
  | .processBg => processBg {}
  | .custom => custom {}

@[simp] theorem kind_default (k : TaskKind) : (default k).kind = k := by cases k <;> rfl

/-- `dispatch_progress!`. -/
def dispatch {β : Type} (prog : TaskProg) (method : {α : Type} → [Progress α] → α → β) : β :=
  match prog with
  | fileCopy p | fileMove p | fileDownload p | fileUpload p => method p
  | fileLink p | fileTrash p | fetch p | preload p => method p
  | fileHardlink p => method p
  | fileDelete p => method p
  | pluginEntry p | processBlock p | processOrphan p | processBg p => method p
  | size p => method p
  | custom p => method p

instance : Progress TaskProg where
  running prog := prog.dispatch Progress.running
  cooked prog := prog.dispatch Progress.cooked
  failed prog := prog.dispatch Progress.failed
  cleaned prog := prog.dispatch Progress.cleaned

end TaskProg

/-- No record reports both outcomes, in any state of its fields. -/
theorem not_failed_and_success (prog : TaskProg) :
    ¬(Progress.failed prog = true ∧ Progress.success prog = true) := by
  rintro ⟨failed, success⟩
  cases prog <;>
    simp only [Progress.success, Progress.failed, Progress.cleaned, Progress.cooked,
      TaskProg.dispatch, FileProg.cooked, FileProgHardlink.cooked, FileProgDelete.cooked] at *
  all_goals grind

end Yazi.Scheduler
