import Yazi.Scheduler.Progress

/-! What workers report about a task, and how a report changes the task. -/
namespace Yazi.Scheduler

/-- A registered hook. What it does when executed is not part of the task's state, and the id
in it is the one its task is kept under. -/
inductive HookIn where
  | copy | move | delete | trash | link | hardlink | download | upload | fetch | preload
deriving DecidableEq, Repr

structure Task where
  status : TaskStatus := .pending
  prog : TaskProg
  hook : Option HookIn := none
  logs : String := ""
deriving DecidableEq, Repr

namespace Task

def start (task : Task) : Task :=
  { task with status := task.status.transition .started (· == .pending) }

def succeed (task : Task) : Task :=
  { task with status := task.status.transition .succeeded TaskStatus.isFinishable }

def fail (task : Task) : Task :=
  { task with status := task.status.transition .failed TaskStatus.isFinishable }

def cancel (task : Task) : Task :=
  { task with status := task.status.transition .canceled TaskStatus.isCancelable }

def isCanceled (task : Task) : Bool := task.status == .canceled

def log (task : Task) (line : String) : Task := { task with logs := task.logs ++ line ++ "\n" }

def withHook (task : Task) (hook : HookIn) : Task := { task with hook := some hook }

/-- Store a new progress record, and log the reason when there is one. -/
def report (task : Task) (prog : TaskProg) (reason : Option String := none) : Task :=
  match reason with
  | none => { task with prog }
  | some line => { task with prog }.log line

@[simp] theorem report_prog (task : Task) (prog : TaskProg) (reason : Option String) :
    (task.report prog reason).prog = prog := by cases reason <;> rfl

@[simp] theorem report_status (task : Task) (prog : TaskProg) (reason : Option String) :
    (task.report prog reason).status = task.status := by cases reason <;> rfl

@[simp] theorem report_hook (task : Task) (prog : TaskProg) (reason : Option String) :
    (task.report prog reason).hook = task.hook := by cases reason <;> rfl

end Task

/-! ### Copies, moves, downloads and uploads -/

/-- The reports of a collecting worker; `κ` is what a cleanup reports. -/
inductive FileOut (κ : Type) where
  | new (bytes : Nat)
  | deform (reason : String)
  | succ
  | fail (reason : String)
  | clean (result : κ)
deriving Repr

abbrev FileOutCopy := FileOut Unit
abbrev FileOutMove := FileOut (Except String Unit)
abbrev FileOutDownload := FileOut Unit
abbrev FileOutUpload := FileOut Unit

/-- The reports of a worker on one file. -/
inductive FileOutDo where
  | adv (size : Nat)
  | succ
  | fail (reason : String)
deriving DecidableEq, Repr

abbrev FileOutCopyDo := FileOutDo
abbrev FileOutMoveDo := FileOutDo
abbrev FileOutDownloadDo := FileOutDo
abbrev FileOutUploadDo := FileOutDo

/-- The common part of the four `reduce` functions. -/
def FileOut.apply {κ : Type} (cleanup : κ → CleanupState × Option String) (out : FileOut κ)
    (prog : FileProg) : FileProg × Option String :=
  match out with
  | .new bytes =>
    ({ prog with totalFiles := prog.totalFiles + 1, totalBytes := prog.totalBytes + bytes }, none)
  | .deform reason =>
    ({ prog with totalFiles := prog.totalFiles + 1, failedFiles := prog.failedFiles + 1 },
      some reason)
  | .succ => ({ prog with collected := some true }, none)
  | .fail reason => ({ prog with collected := some false }, some reason)
  | .clean result => ({ prog with cleaned := (cleanup result).1 }, (cleanup result).2)

def FileOutDo.apply (out : FileOutDo) (prog : FileProg) : FileProg × Option String :=
  match out with
  | .adv size => ({ prog with processedBytes := prog.processedBytes + size }, none)
  | .succ => ({ prog with succeededFiles := prog.succeededFiles + 1 }, none)
  | .fail reason => ({ prog with failedFiles := prog.failedFiles + 1 }, some reason)

def cleanDone (_ : Unit) : CleanupState × Option String := (.success, none)

/-- Only a move can fail to clean up. -/
def cleanMoved (result : Except String Unit) : CleanupState × Option String :=
  match result with
  | .ok () => (.success, none)
  | .error reason => (.failed, some ("Failed cleaning up moved file: " ++ reason))

def FileOutCopy.reduce (out : FileOutCopy) (task : Task) : Task :=
  match task.prog with
  | .fileCopy prog =>
    task.report (.fileCopy (out.apply cleanDone prog).1) (out.apply cleanDone prog).2
  | _ => task

def FileOutCopyDo.reduce (out : FileOutCopyDo) (task : Task) : Task :=
  match task.prog with
  | .fileCopy prog => task.report (.fileCopy (out.apply prog).1) (out.apply prog).2
  | _ => task

def FileOutMove.reduce (out : FileOutMove) (task : Task) : Task :=
  match task.prog with
  | .fileMove prog =>
    task.report (.fileMove (out.apply cleanMoved prog).1) (out.apply cleanMoved prog).2
  | _ => task

def FileOutMoveDo.reduce (out : FileOutMoveDo) (task : Task) : Task :=
  match task.prog with
  | .fileMove prog => task.report (.fileMove (out.apply prog).1) (out.apply prog).2
  | _ => task

def FileOutDownload.reduce (out : FileOutDownload) (task : Task) : Task :=
  match task.prog with
  | .fileDownload prog =>
    task.report (.fileDownload (out.apply cleanDone prog).1) (out.apply cleanDone prog).2
  | _ => task

def FileOutDownloadDo.reduce (out : FileOutDownloadDo) (task : Task) : Task :=
  match task.prog with
  | .fileDownload prog => task.report (.fileDownload (out.apply prog).1) (out.apply prog).2
  | _ => task

def FileOutUpload.reduce (out : FileOutUpload) (task : Task) : Task :=
  match task.prog with
  | .fileUpload prog =>
    task.report (.fileUpload (out.apply cleanDone prog).1) (out.apply cleanDone prog).2
  | _ => task

def FileOutUploadDo.reduce (out : FileOutUploadDo) (task : Task) : Task :=
  match task.prog with
  | .fileUpload prog => task.report (.fileUpload (out.apply prog).1) (out.apply prog).2
  | _ => task

/-! ### Hard links -/

inductive FileOutHardlink where
  | new
  | deform (reason : String)
  | succ
  | fail (reason : String)
  | clean
deriving DecidableEq, Repr

inductive FileOutHardlinkDo where
  | succ
  | fail (reason : String)
deriving DecidableEq, Repr

def FileOutHardlink.reduce (out : FileOutHardlink) (task : Task) : Task :=
  match task.prog with
  | .fileHardlink prog =>
    match out with
    | .new => task.report (.fileHardlink { prog with total := prog.total + 1 })
    | .deform reason =>
      task.report (.fileHardlink { prog with total := prog.total + 1, failed := prog.failed + 1 })
        (some reason)
    | .succ => task.report (.fileHardlink { prog with collected := some true })
    | .fail reason =>
      task.report (.fileHardlink { prog with collected := some false }) (some reason)
    | .clean => task.report (.fileHardlink { prog with cleaned := .success })
  | _ => task

def FileOutHardlinkDo.reduce (out : FileOutHardlinkDo) (task : Task) : Task :=
  match task.prog with
  | .fileHardlink prog =>
    match out with
    | .succ => task.report (.fileHardlink { prog with succeeded := prog.succeeded + 1 })
    | .fail reason =>
      task.report (.fileHardlink { prog with failed := prog.failed + 1 }) (some reason)
  | _ => task

/-! ### Tasks with one piece of work -/

inductive StateOut where
  | succ
  | fail (reason : String)
  | clean
deriving DecidableEq, Repr

abbrev FileOutLink := StateOut
abbrev FileOutTrash := StateOut
abbrev FetchOutFetch := StateOut
abbrev PreloadOut := StateOut

def StateOut.apply (out : StateOut) (prog : StateProg) : StateProg × Option String :=
  match out with
  | .succ => ({ prog with state := some true }, none)
  | .fail reason => ({ prog with state := some false }, some reason)
  | .clean => ({ prog with cleaned := .success }, none)

/-- A link made on behalf of a copy or a move counts as one of its files. -/
def StateOut.applyFile (out : StateOut) (prog : FileProg) : FileProg × Option String :=
  match out with
  | .succ => ({ prog with succeededFiles := prog.succeededFiles + 1 }, none)
  | .fail reason => ({ prog with failedFiles := prog.failedFiles + 1 }, some reason)
  | .clean => (prog, none)

def FileOutLink.reduce (out : FileOutLink) (task : Task) : Task :=
  match task.prog with
  | .fileLink prog => task.report (.fileLink (out.apply prog).1) (out.apply prog).2
  | .fileCopy prog => task.report (.fileCopy (out.applyFile prog).1) (out.applyFile prog).2
  | .fileMove prog => task.report (.fileMove (out.applyFile prog).1) (out.applyFile prog).2
  | _ => task

def FileOutTrash.reduce (out : FileOutTrash) (task : Task) : Task :=
  match task.prog with
  | .fileTrash prog => task.report (.fileTrash (out.apply prog).1) (out.apply prog).2
  | _ => task

def FetchOutFetch.reduce (out : FetchOutFetch) (task : Task) : Task :=
  match task.prog with
  | .fetch prog => task.report (.fetch (out.apply prog).1) (out.apply prog).2
  | _ => task

def PreloadOut.reduce (out : PreloadOut) (task : Task) : Task :=
  match task.prog with
  | .preload prog => task.report (.preload (out.apply prog).1) (out.apply prog).2
  | _ => task

inductive FileOutDelete where
  | adv (delta : Delta)
  | succ
  | fail (reason : String)
  | clean
deriving DecidableEq, Repr

def FileOutDelete.reduce (out : FileOutDelete) (task : Task) : Task :=
  match task.prog with
  | .fileDelete prog =>
    match out with
    | .adv delta =>
      match prog.delta.tryAdd delta with
      | .ok delta => task.report (.fileDelete { prog with delta })
      | .error reason => task.report (.fileDelete { prog with state := some false }) (some reason)
    | .succ => task.report (.fileDelete { prog with state := some (prog.state.getD true) })
    | .fail reason => task.report (.fileDelete { prog with state := some false }) (some reason)
    | .clean => task.report (.fileDelete { prog with cleaned := .success })
  | _ => task

/-! ### Tasks without a cleanup -/

inductive OutcomeOut where
  | log (line : String)
  | succ
  | fail (reason : String)
  | cancel
deriving DecidableEq, Repr

abbrev PluginOutEntry := OutcomeOut
abbrev ProcessOutBlock := OutcomeOut
abbrev ProcessOutOrphan := OutcomeOut
abbrev ProcessOutBg := OutcomeOut

/-- The common part of the four: `store` puts the outcome back into the task's own record. -/
def OutcomeOut.apply (out : OutcomeOut) (store : OutcomeProg → TaskProg) (prog : OutcomeProg)
    (task : Task) : Task :=
  match out with
  | .log line => task.log line
  | .succ => task.report (store { prog with state := some true })
  | .fail reason => task.report (store { prog with state := some false }) (some reason)
  | .cancel => task.cancel

def PluginOutEntry.reduce (out : PluginOutEntry) (task : Task) : Task :=
  match task.prog with
  | .pluginEntry prog => out.apply .pluginEntry prog task
  | _ => task

def ProcessOutBlock.reduce (out : ProcessOutBlock) (task : Task) : Task :=
  match task.prog with
  | .processBlock prog => out.apply .processBlock prog task
  | _ => task

def ProcessOutOrphan.reduce (out : ProcessOutOrphan) (task : Task) : Task :=
  match task.prog with
  | .processOrphan prog => out.apply .processOrphan prog task
  | _ => task

def ProcessOutBg.reduce (out : ProcessOutBg) (task : Task) : Task :=
  match task.prog with
  | .processBg prog => out.apply .processBg prog task
  | _ => task

inductive SizeOut where
  | done
deriving DecidableEq, Repr

def SizeOut.reduce (out : SizeOut) (task : Task) : Task :=
  match task.prog, out with
  | .size _, .done => task.report (.size { done := true })
  | _, _ => task

inductive CustomOut where
  | progress (total succeeded failed workload processed : Nat)
  | log (line : String)
  | cancel
  | succ
  | fail (reason : String)
deriving DecidableEq, Repr

/-- `u64::saturating_add`. -/
def saturatingAdd (a b : Nat) : Nat := min (a + b) (2 ^ 64 - 1)

def CustomOut.reduce (out : CustomOut) (task : Task) : Task :=
  match out with
  | .log line => task.log line
  | .cancel => task.cancel
  | .progress total succeeded failed workload processed =>
    match task.prog with
    | .custom prog =>
      let succeeded := saturatingAdd prog.succeeded succeeded
      let failed := saturatingAdd prog.failed failed
      let total := max (saturatingAdd succeeded failed) (saturatingAdd prog.total total)
      let processed := saturatingAdd prog.processed processed
      let workload := max processed (saturatingAdd prog.workload workload)
      task.report (.custom { prog with total, succeeded, failed, workload, processed })
    | _ => task
  | .succ =>
    match task.prog with
    | .custom prog =>
      if prog.state.isNone then task.report (.custom { prog with state := some true }) else task
    | _ => task
  | .fail reason =>
    match task.prog with
    | .custom prog =>
      if prog.state.isNone then
        task.report (.custom { prog with state := some false }) (some reason)
      else task
    | _ => task

/-! ### The report of any worker -/

inductive TaskOut where
  | fileCopy (out : FileOutCopy)
  | fileCopyDo (out : FileOutCopyDo)
  | fileMove (out : FileOutMove)
  | fileMoveDo (out : FileOutMoveDo)
  | fileLink (out : FileOutLink)
  | fileHardlink (out : FileOutHardlink)
  | fileHardlinkDo (out : FileOutHardlinkDo)
  | fileDelete (out : FileOutDelete)
  | fileTrash (out : FileOutTrash)
  | fileDownload (out : FileOutDownload)
  | fileDownloadDo (out : FileOutDownloadDo)
  | fileUpload (out : FileOutUpload)
  | fileUploadDo (out : FileOutUploadDo)
  | pluginEntry (out : PluginOutEntry)
  | fetch (out : FetchOutFetch)
  | preload (out : PreloadOut)
  | size (out : SizeOut)
  | processBlock (out : ProcessOutBlock)
  | processOrphan (out : ProcessOutOrphan)
  | processBg (out : ProcessOutBg)
  | custom (out : CustomOut)
  | hookCopy
  | hookMove
  | hookLink
  | hookHardlink
deriving Repr

/-- `HookInOut*::reduce`: a hook is registered with a task of its own kind only. -/
def reduceHook (task : Task) (expected : TaskKind) (hook : HookIn) : Task :=
  if task.prog.kind = expected then task.withHook hook else task

def TaskOut.reduce (out : TaskOut) (task : Task) : Task :=
  match out with
  | fileCopy out => FileOutCopy.reduce out task
  | fileCopyDo out => FileOutCopyDo.reduce out task
  | fileMove out => FileOutMove.reduce out task
  | fileMoveDo out => FileOutMoveDo.reduce out task
  | fileLink out => FileOutLink.reduce out task
  | fileHardlink out => out.reduce task
  | fileHardlinkDo out => out.reduce task
  | fileDelete out => out.reduce task
  | fileTrash out => FileOutTrash.reduce out task
  | fileDownload out => FileOutDownload.reduce out task
  | fileDownloadDo out => FileOutDownloadDo.reduce out task
  | fileUpload out => FileOutUpload.reduce out task
  | fileUploadDo out => FileOutUploadDo.reduce out task
  | pluginEntry out => PluginOutEntry.reduce out task
  | fetch out => FetchOutFetch.reduce out task
  | preload out => PreloadOut.reduce out task
  | size out => out.reduce task
  | processBlock out => ProcessOutBlock.reduce out task
  | processOrphan out => ProcessOutOrphan.reduce out task
  | processBg out => ProcessOutBg.reduce out task
  | custom out => out.reduce task
  | hookCopy => reduceHook task .fileCopy .copy
  | hookMove => reduceHook task .fileMove .move
  | hookLink => reduceHook task .fileLink .link
  | hookHardlink => reduceHook task .fileHardlink .hardlink

end Yazi.Scheduler
