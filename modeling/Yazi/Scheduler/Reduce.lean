import Yazi.Scheduler.Worker

/-! What a report does to a task, in terms of the event it stands for. -/
namespace Yazi.Scheduler

/-- The counters and flags that the progress of a collecting task consists of, less its bytes. -/
structure Counts where
  total : Nat
  succeeded : Nat
  failed : Nat
  collected : Option Bool
  cleaned : CleanupState
deriving DecidableEq, Repr

def Counts.apply (counts : Counts) : Event → Counts
  | .announce => { counts with total := counts.total + 1 }
  | .deform => { counts with total := counts.total + 1, failed := counts.failed + 1 }
  | .collected ok => { counts with collected := some ok }
  | .settled true => { counts with succeeded := counts.succeeded + 1 }
  | .settled false => { counts with failed := counts.failed + 1 }
  | .clean state => { counts with cleaned := state }
  | .register | .advance | .other => counts

def FileProg.counts (prog : FileProg) : Counts :=
  { total := prog.totalFiles, succeeded := prog.succeededFiles, failed := prog.failedFiles,
    collected := prog.collected, cleaned := prog.cleaned }

def FileProgHardlink.counts (prog : FileProgHardlink) : Counts :=
  { total := prog.total, succeeded := prog.succeeded, failed := prog.failed,
    collected := prog.collected, cleaned := prog.cleaned }

/-- Copies, moves, hard links, downloads and uploads keep counts. -/
def TaskProg.counts : TaskProg → Option Counts
  | .fileCopy prog | .fileMove prog | .fileDownload prog | .fileUpload prog => some prog.counts
  | .fileHardlink prog => some prog.counts
  | _ => none

/-! ### The shared bodies of `reduce` -/

private theorem file_apply {κ : Type} (cleanup : κ → CleanupState × Option String)
    (out : FileOut κ) (prog : FileProg) :
    (out.apply cleanup prog).1.counts = prog.counts.apply (out.event cleanup) := by
  cases out <;> rfl

private theorem file_do_apply (out : FileOutDo) (prog : FileProg) :
    (out.apply prog).1.counts = prog.counts.apply out.event := by
  cases out <;> rfl

private theorem link_apply_file {out : StateOut} {e : Event} (known : out.eventFile = some e)
    (prog : FileProg) : (out.applyFile prog).1.counts = prog.counts.apply e := by
  cases out <;> cases known <;> rfl

/-! ### `TaskOut.reduce` -/

/-- The cleanup state after an event. -/
def Event.cleaned (old : CleanupState) : Event → CleanupState
  | .clean state => state
  | _ => old

/-- What an event does to a task. The status is left alone, except that the reports of tasks
without a cleanup may cancel them. -/
structure Effect (e : Event) (task next : Task) : Prop where
  kind : next.prog.kind = task.prog.kind
  counts : next.prog.counts = task.prog.counts.map (·.apply e)
  cleaned : Progress.cleaned next.prog = (Progress.cleaned task.prog).map e.cleaned
  hook : next.hook = if e = .register then task.prog.kind.hook else task.hook
  status : next.status = task.status ∨
    (Progress.cleaned task.prog = none ∧ next.status = task.cancel.status)

private theorem effect_report {e : Event} {task : Task} {prog : TaskProg} (reason : Option String)
    (plain : e ≠ .register) (kind : prog.kind = task.prog.kind)
    (counts : prog.counts = task.prog.counts.map (·.apply e))
    (cleaned : Progress.cleaned prog = (Progress.cleaned task.prog).map e.cleaned) :
    Effect e task (task.report prog reason) :=
  ⟨by simpa using kind, by simpa using counts, by simpa using cleaned, by simp [plain],
    Or.inl (by simp)⟩

private theorem effect_register {task : Task} {hook : HookIn} {kind : TaskKind}
    (same : task.prog.kind = kind) (own : kind.hook = some hook)
    (counts : task.prog.counts.map (·.apply .register) = task.prog.counts) :
    Effect .register task (reduceHook task kind hook) := by
  simp only [reduceHook, same, if_true]
  exact ⟨rfl, counts.symm, by simp [Task.withHook, Event.cleaned], by simp [Task.withHook, same, own],
    Or.inl rfl⟩

private theorem effect_other {task next : Task} (prog : next.prog = task.prog)
    (hook : next.hook = task.hook)
    (status : next.status = task.status ∨
      (Progress.cleaned task.prog = none ∧ next.status = task.cancel.status)) :
    Effect .other task next := by
  refine ⟨by rw [prog], ?_, ?_, hook, status⟩
  · rw [prog]
    exact Option.map_id'.symm
  · rw [prog]
    exact Option.map_id'.symm

private theorem effect_outcome (out : OutcomeOut) (task : Task) (prog : OutcomeProg)
    (store : OutcomeProg → TaskProg) (same : task.prog = store prog)
    (kind : ∀ p q, (store p).kind = (store q).kind) (counts : ∀ p, (store p).counts = none)
    (cleaned : ∀ p, Progress.cleaned (store p) = none) :
    Effect .other task (out.apply store prog task) := by
  have stored (next : OutcomeProg) (reason : Option String) :
      Effect .other task (task.report (store next) reason) :=
    effect_report reason nofun (same ▸ kind ..) (by simp [same, counts]) (by simp [same, cleaned])
  cases out with
  | log line => exact effect_other rfl rfl (.inl rfl)
  | succ => exact stored _ none
  | fail reason => exact stored _ (some reason)
  | cancel => exact effect_other rfl rfl (.inr ⟨by rw [same, cleaned], rfl⟩)

private theorem effect_custom (out : CustomOut) (task : Task) (prog : CustomProg)
    (same : task.prog = .custom prog) : Effect .other task (out.reduce task) := by
  have stored (next : CustomProg) (reason : Option String) :
      Effect .other task (task.report (.custom next) reason) :=
    effect_report reason nofun (by rw [same]; rfl) (by rw [same]; rfl) (by rw [same]; rfl)
  cases out with
  | log line => exact effect_other rfl rfl (.inl rfl)
  | cancel => exact effect_other rfl rfl (.inr ⟨by rw [same]; rfl, rfl⟩)
  | progress =>
    simp only [CustomOut.reduce, same]
    exact stored _ _
  | succ =>
    simp only [CustomOut.reduce, same]
    split
    · exact stored _ _
    · exact effect_other rfl rfl (.inl rfl)
  | fail reason =>
    simp only [CustomOut.reduce, same]
    split
    · exact stored _ _
    · exact effect_other rfl rfl (.inl rfl)

private theorem effect_size (out : SizeOut) (task : Task) (prog : SizeProg)
    (same : task.prog = .size prog) : Effect .other task (out.reduce task) := by
  simp only [SizeOut.reduce, same]
  exact effect_report _ nofun (by rw [same]; rfl) (by rw [same]; rfl) (by rw [same]; rfl)

private theorem effect_file {κ : Type} (cleanup : κ → CleanupState × Option String)
    (out : FileOut κ) (task : Task) (prog : FileProg) (store : FileProg → TaskProg)
    (same : task.prog = store prog) (kind : ∀ p q, (store p).kind = (store q).kind)
    (counts : ∀ p, (store p).counts = some p.counts)
    (cleaned : ∀ p, Progress.cleaned (store p) = some p.cleaned) :
    Effect (out.event cleanup) task
      (task.report (store (out.apply cleanup prog).1) (out.apply cleanup prog).2) := by
  refine effect_report _ ?_ (same ▸ kind ..) ?_ ?_
  · cases out <;> nofun
  · simp [same, counts, file_apply]
  · rw [same, cleaned, cleaned]
    cases out <;> rfl

private theorem effect_file_do (out : FileOutDo) (task : Task) (prog : FileProg)
    (store : FileProg → TaskProg) (same : task.prog = store prog)
    (kind : ∀ p q, (store p).kind = (store q).kind)
    (counts : ∀ p, (store p).counts = some p.counts)
    (cleaned : ∀ p, Progress.cleaned (store p) = some p.cleaned) :
    Effect out.event task (task.report (store (out.apply prog).1) (out.apply prog).2) := by
  refine effect_report _ ?_ (same ▸ kind ..) ?_ ?_
  · cases out <;> nofun
  · simp [same, counts, file_do_apply]
  · rw [same, cleaned, cleaned]
    cases out <;> rfl

private theorem effect_state (out : StateOut) (task : Task) (prog : StateProg)
    (store : StateProg → TaskProg) (same : task.prog = store prog)
    (kind : ∀ p q, (store p).kind = (store q).kind) (counts : ∀ p, (store p).counts = none)
    (cleaned : ∀ p, Progress.cleaned (store p) = some p.cleaned) :
    Effect out.event task (task.report (store (out.apply prog).1) (out.apply prog).2) := by
  refine effect_report _ ?_ (same ▸ kind ..) ?_ ?_
  · cases out <;> nofun
  · simp [same, counts]
  · rw [same, cleaned, cleaned]
    cases out <;> rfl

private theorem effect_link_file {out : StateOut} {e : Event} (known : out.eventFile = some e)
    (task : Task) (prog : FileProg) (store : FileProg → TaskProg) (same : task.prog = store prog)
    (kind : ∀ p q, (store p).kind = (store q).kind)
    (counts : ∀ p, (store p).counts = some p.counts)
    (cleaned : ∀ p, Progress.cleaned (store p) = some p.cleaned) :
    Effect e task (task.report (store (out.applyFile prog).1) (out.applyFile prog).2) := by
  refine effect_report _ ?_ (same ▸ kind ..) ?_ ?_
  · cases out <;> cases known <;> nofun
  · simp [same, counts, link_apply_file known]
  · rw [same, cleaned, cleaned]
    cases out <;> cases known <;> rfl

private theorem effect_hardlink (out : FileOutHardlink) (task : Task) (prog : FileProgHardlink)
    (same : task.prog = .fileHardlink prog) : Effect out.event task (out.reduce task) := by
  simp only [FileOutHardlink.reduce, same]
  cases out <;>
    exact effect_report _ nofun (by rw [same]; rfl) (by rw [same]; rfl) (by rw [same]; rfl)

private theorem effect_hardlink_do (out : FileOutHardlinkDo) (task : Task)
    (prog : FileProgHardlink) (same : task.prog = .fileHardlink prog) :
    Effect out.event task (out.reduce task) := by
  simp only [FileOutHardlinkDo.reduce, same]
  cases out <;>
    exact effect_report _ nofun (by rw [same]; rfl) (by rw [same]; rfl) (by rw [same]; rfl)

private theorem effect_delete (out : FileOutDelete) (task : Task) (prog : FileProgDelete)
    (same : task.prog = .fileDelete prog) : Effect out.event task (out.reduce task) := by
  simp only [FileOutDelete.reduce, same]
  cases out with
  | adv delta =>
    dsimp only
    split <;> exact effect_report _ nofun (by rw [same]; rfl) (by rw [same]; rfl) (by rw [same]; rfl)
  | _ => exact effect_report _ nofun (by rw [same]; rfl) (by rw [same]; rfl) (by rw [same]; rfl)

/-- A report has the effect of its event. -/
theorem reduce_effect {out : TaskOut} {task : Task} {e : Event}
    (known : out.event task.prog.kind = some e) : Effect e task (out.reduce task) := by
  cases same : task.prog <;> cases out <;>
    simp only [same, TaskOut.event, TaskProg.kind, reduceCtorEq, if_true, if_false, or_self,
      Option.some.injEq, true_or, or_true] at known
  all_goals
    try subst known
    simp only [TaskOut.reduce, FileOutCopy.reduce, FileOutCopyDo.reduce, FileOutMove.reduce,
      FileOutMoveDo.reduce, FileOutDownload.reduce, FileOutDownloadDo.reduce, FileOutUpload.reduce,
      FileOutUploadDo.reduce, FileOutLink.reduce, FileOutTrash.reduce, FetchOutFetch.reduce,
      PreloadOut.reduce, PluginOutEntry.reduce, ProcessOutBlock.reduce, ProcessOutOrphan.reduce,
      ProcessOutBg.reduce, same]
  all_goals
    first
    | exact effect_file _ _ _ _ _ same (fun _ _ => rfl) (fun _ => rfl) fun _ => rfl
    | exact effect_file_do _ _ _ _ same (fun _ _ => rfl) (fun _ => rfl) fun _ => rfl
    | exact effect_link_file known _ _ _ same (fun _ _ => rfl) (fun _ => rfl) fun _ => rfl
    | exact effect_state _ _ _ _ same (fun _ _ => rfl) (fun _ => rfl) fun _ => rfl
    | exact effect_hardlink _ _ _ same
    | exact effect_hardlink_do _ _ _ same
    | exact effect_delete _ _ _ same
    | exact effect_outcome _ _ _ _ same (fun _ _ => rfl) (fun _ => rfl) fun _ => rfl
    | exact effect_size _ _ _ same
    | exact effect_custom _ _ _ same
    | exact effect_register (by rw [same]; rfl) rfl (by rw [same]; rfl)

end Yazi.Scheduler
