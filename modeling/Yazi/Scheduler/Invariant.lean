import Yazi.Scheduler.Lifecycle

/-!
The invariant of a task that is in the table.

It follows the task through the queue of reports: `seen` is where the
workers were when they sent the report that the op loop handled last, `sent` is where they
are now, and the queue leads from the one to the other.
-/
namespace Yazi.Scheduler
open Yazi.Base
open Progress (running cooked failed cleaned success)

/-! ### What counts say about the progress -/

theorem cooked_iff {prog : TaskProg} {k : Counts} (counted : prog.counts = some k) :
    cooked prog = true ↔ k.collected = some true ∧ k.succeeded = k.total := by
  cases prog <;> cases counted <;>
    simp [cooked, TaskProg.dispatch, FileProg.cooked, FileProgHardlink.cooked, FileProg.counts,
      FileProgHardlink.counts]

theorem cleaned_eq {prog : TaskProg} {k : Counts} (counted : prog.counts = some k) :
    cleaned prog = some k.cleaned := by
  cases prog <;> cases counted <;> rfl

theorem failed_iff {prog : TaskProg} {k : Counts} (counted : prog.counts = some k) :
    failed prog = true ↔ k.cleaned = .failed ∨ k.collected = some false := by
  cases prog <;> cases counted <;>
    simp [failed, TaskProg.dispatch, FileProg.counts, FileProgHardlink.counts]

theorem running_iff {prog : TaskProg} {k : Counts} (counted : prog.counts = some k) :
    running prog = true ↔ k.collected = none ∨ k.succeeded + k.failed ≠ k.total ∨
      (cooked prog = true ∧ k.cleaned = .pending) := by
  cases prog <;> cases counted <;>
    simp [running, cooked, TaskProg.dispatch, Progress.cookingOrCleaning, FileProg.counts,
      FileProgHardlink.counts, or_assoc]

theorem success_iff {prog : TaskProg} {k : Counts} (counted : prog.counts = some k) :
    success prog = true ↔ cooked prog = true ∧ k.cleaned = .success := by
  rw [success, cleaned_eq counted]
  cases k.cleaned <;> simp

/-- The kinds with a cleanup are those with a hook. -/
theorem cleaned_isSome (prog : TaskProg) : (cleaned prog).isSome = prog.kind.hook.isSome := by
  cases prog <;> rfl

/-! ### The order of reports -/

namespace Job

/-- The worker's position agrees with the counts. -/
structure Tracks (job : Job) (k : Counts) : Prop where
  balance : k.total = k.succeeded + k.failed + job.pending
  collecting : k.collected = none ↔ job.stage ≠ .finished

theorem tracks_next {job next : Job} {k : Counts} {e : Event} (tracks : job.Tracks k)
    (move : job.next e = some next) : next.Tracks (k.apply e) := by
  obtain ⟨balance, collecting⟩ := tracks
  cases e with
  | collected ok =>
    cases ok <;> simp only [Job.next] at move <;> split at move <;> cases move <;>
      exact ⟨balance, by simp [Counts.apply]⟩
  | settled ok =>
    simp only [Job.next] at move
    split at move
    · next busy =>
      cases move
      cases ok <;> exact ⟨by simp only [Counts.apply]; omega, collecting⟩
    · cases move
  | announce =>
    simp only [Job.next] at move
    split at move <;> cases move
    exact ⟨by simp only [Counts.apply]; omega, collecting⟩
  | deform =>
    simp only [Job.next] at move
    split at move <;> cases move
    exact ⟨by simp only [Counts.apply]; omega, collecting⟩
  | register =>
    simp only [Job.next] at move
    split at move
    · next fresh =>
      cases move
      exact ⟨balance, by simp [Counts.apply, collecting, fresh]⟩
    · cases move
  | advance =>
    simp only [Job.next] at move
    split at move <;> cases move
    exact ⟨balance, collecting⟩
  | clean state =>
    cases move
    exact ⟨balance, collecting⟩
  | other =>
    cases move
    exact ⟨balance, collecting⟩

theorem next_kind {job next : Job} {e : Event} (move : job.next e = some next) :
    next.kind = job.kind := by
  cases e with
  | collected ok => cases ok <;> simp only [Job.next] at move <;> split at move <;> cases move <;> rfl
  | clean _ | other => cases move; rfl
  | _ => simp only [Job.next] at move; split at move <;> cases move; rfl

/-- Only registering changes whether a task has a hook, and only before anything else. -/
theorem next_hooked {job next : Job} {e : Event} (move : job.next e = some next) :
    (e = .register ∧ job.stage = .fresh ∧ next.hooked = true ∧ next.stage ≠ .fresh) ∨
      (e ≠ .register ∧ next.hooked = job.hooked ∧ (next.stage = .fresh → job.stage = .fresh)) := by
  cases e with
  | collected ok =>
    cases ok <;> simp only [Job.next] at move <;> split at move <;> cases move <;>
      exact Or.inr ⟨nofun, rfl, nofun⟩
  | clean _ | other => cases move; exact Or.inr ⟨nofun, rfl, id⟩
  | register =>
    simp only [Job.next] at move
    split at move
    · next fresh =>
      cases move
      exact Or.inl ⟨rfl, fresh, rfl, nofun⟩
    · cases move
  | _ => simp only [Job.next] at move; split at move <;> cases move; exact Or.inr ⟨nofun, rfl, id⟩

theorem take_eq_some {job next : Job} {out : TaskOut} (move : job.take out = some next) :
    ∃ e, out.event job.kind = some e ∧ job.next e = some next :=
  Option.bind_eq_some_iff.mp move

theorem exec_take_kind {job next : Job} {outs : List TaskOut}
    (moves : exec Job.take job outs = some next) : next.kind = job.kind := by
  refine (run_of_exec moves).invariant (P := fun at_ => at_.kind = job.kind) ?_ rfl
  intro s out t same move
  obtain ⟨e, _, moved⟩ := take_eq_some move
  exact (next_kind moved).trans same

end Job

/-! ### Hooks as tokens -/

def cleansIn (ops : List TaskOut) : Nat := ops.countP TaskOut.isClean

@[simp] theorem cleansIn_nil : cleansIn [] = 0 := rfl

@[simp] theorem cleansIn_cons (out : TaskOut) (ops : List TaskOut) :
    cleansIn (out :: ops) = cleansIn ops + if out.isClean then 1 else 0 := by
  simp [cleansIn, List.countP_cons]

@[simp] theorem cleansIn_append (first rest : List TaskOut) :
    cleansIn (first ++ rest) = cleansIn first + cleansIn rest := List.countP_append ..

/-- Whether the task was told of its cleanup. -/
def Task.cleanups (task : Task) : Nat :=
  match cleaned task.prog with
  | none | some .pending => 0
  | some .success | some .failed => 1

/-- A hook is in one place: with the task, submitted, being executed, on its way back as a
report, or reported. -/
def Cell.tokens (c : Cell) (task : Task) : Nat :=
  task.hook.toList.length + c.hooks.length + c.executing.length + cleansIn c.ops + task.cleanups

/-- The task has failed for good: no later report can make its work a success. -/
def Counts.Doomed (k : Counts) : Prop :=
  k.collected = some false ∨ 0 < k.failed ∨ k.cleaned = .failed

structure Live (c : Cell) (task : Task) (sent seen : Job) : Prop where
  job : c.job = some sent
  follows : exec Job.take seen c.ops = some sent
  kind : task.prog.kind = seen.kind
  phase : seen.hooked = true → seen.kind.hook.isSome = true
  fresh : seen.stage = .fresh → seen.hooked = false
  own : ∀ hook, task.hook = some hook ∨ hook ∈ c.hooks ∨ hook ∈ c.executing →
    seen.kind.hook = some hook
  tokens : c.tokens task = seen.hooked.toNat
  executed : c.executed = cleansIn c.ops + task.cleanups
  tracks : ∀ k, task.prog.counts = some k → seen.Tracks k
  listed : task.status ≠ .succeeded
  doomed : task.status = .failed → ∀ k, task.prog.counts = some k → k.Doomed

/-! ### Reports and hooks -/

theorem isClean_out (hook : HookIn) (result : Except String Unit) :
    (hook.out result).isClean = true := by cases hook <;> rfl

private def Event.isClean : Event → Bool
  | .clean _ => true
  | _ => false

/-- A cleanup is reported by a `Clean`, and by nothing else. -/
private theorem event_isClean {out : TaskOut} {kind : TaskKind} {e : Event}
    (known : out.event kind = some e) : e.isClean = out.isClean ∧ e ≠ .clean .pending := by
  cases out with
  | fileCopy out | fileDownload out | fileUpload out =>
    simp only [TaskOut.event, Option.ite_none_right_eq_some, Option.some.injEq] at known
    obtain ⟨_, rfl⟩ := known
    cases out <;> exact ⟨rfl, fun pending => by cases pending⟩
  | fileMove out =>
    simp only [TaskOut.event, Option.ite_none_right_eq_some, Option.some.injEq] at known
    obtain ⟨_, rfl⟩ := known
    cases out with
    | clean result => cases result <;> exact ⟨rfl, fun pending => by cases pending⟩
    | _ => exact ⟨rfl, fun pending => by cases pending⟩
  | fileLink out =>
    simp only [TaskOut.event] at known
    repeat' split at known
    all_goals cases out <;> cases known <;> exact ⟨rfl, fun pending => by cases pending⟩
  | fileCopyDo out | fileMoveDo out | fileHardlink out | fileHardlinkDo out | fileDelete out
  | fileTrash out | fileDownloadDo out | fileUploadDo out | fetch out | preload out =>
    simp only [TaskOut.event, Option.ite_none_right_eq_some, Option.some.injEq] at known
    obtain ⟨_, rfl⟩ := known
    cases out <;> exact ⟨rfl, fun pending => by cases pending⟩
  | _ =>
    simp only [TaskOut.event, Option.ite_none_right_eq_some, Option.some.injEq] at known
    obtain ⟨_, rfl⟩ := known
    exact ⟨rfl, fun pending => by cases pending⟩

theorem event_out {hook : HookIn} {kind : TaskKind} (own : kind.hook = some hook)
    (result : Except String Unit) : ∃ state, (hook.out result).event kind = some (.clean state) := by
  cases kind <;> cases own <;> simp [HookIn.out, TaskOut.event, FileOut.event, StateOut.event,
    FileOutHardlink.event, FileOutDelete.event]

private theorem event_register {out : TaskOut} {kind : TaskKind}
    (known : out.event kind = some .register) : kind.hook.isSome = true := by
  cases kind <;> first | rfl | (cases out <;> simp [TaskOut.event] at known)

/-! ### Reports keep the invariant -/

private theorem cleanups_eq_zero {task : Task} {state : CleanupState}
    (phase : cleaned task.prog = some state) : task.cleanups = 0 ↔ state = .pending := by
  cases state <;> simp [Task.cleanups, phase]

private theorem cleanups_effect {e : Event} {task next : Task} (effect : Effect e task next)
    (notPending : e ≠ .clean .pending)
    (once : e.isClean = true → (cleaned task.prog).isSome = true ∧ task.cleanups = 0) :
    next.cleanups = task.cleanups + e.isClean.toNat := by
  have told := effect.cleaned
  cases e with
  | clean state =>
    obtain ⟨phase, untold⟩ := once rfl
    obtain ⟨old, phase⟩ := Option.isSome_iff_exists.mp phase
    rw [phase] at told
    rw [untold]
    cases state with
    | pending => exact absurd rfl notPending
    | success => simp [Task.cleanups, told, Event.cleaned, Event.isClean]
    | failed => simp [Task.cleanups, told, Event.cleaned, Event.isClean]
  | _ =>
    have same : cleaned next.prog = cleaned task.prog := by
      rw [told]
      cases cleaned task.prog <;> rfl
    simp [Task.cleanups, same, Event.isClean]

/-- A failed collection and a failed cleanup are final: neither is reported twice. -/
private theorem failed_apply {job next : Job} {k : Counts} {e : Event} (tracks : job.Tracks k)
    (move : job.next e = some next) (once : e.isClean = true → k.cleaned = .pending)
    (stuck : k.cleaned = .failed ∨ k.collected = some false) :
    (k.apply e).cleaned = .failed ∨ (k.apply e).collected = some false := by
  cases e with
  | clean state =>
    refine stuck.imp (fun failed => ?_) id
    rw [once rfl] at failed
    cases failed
  | collected ok =>
    refine stuck.imp id (fun failed => ?_)
    have finished : job.stage = .finished := by
      by_contra unfinished
      rw [tracks.collecting.mpr unfinished] at failed
      cases failed
    cases ok <;> simp [Job.next, finished] at move
  | settled ok => cases ok <;> exact stuck
  | _ => exact stuck

private theorem doomed_apply {job next : Job} {k : Counts} {e : Event} (tracks : job.Tracks k)
    (move : job.next e = some next) (once : e.isClean = true → k.cleaned = .pending)
    (doomed : k.Doomed) : (k.apply e).Doomed := by
  have grows : k.failed ≤ (k.apply e).failed := by
    cases e with
    | settled ok => cases ok <;> simp [Counts.apply]
    | _ => simp [Counts.apply]
  rcases doomed with collected | lost | cleaned
  · exact (failed_apply tracks move once (.inr collected)).elim (.inr ∘ .inr) .inl
  · exact .inr (.inl (by omega))
  · exact (failed_apply tracks move once (.inl cleaned)).elim (.inr ∘ .inr) .inl

theorem cancel_status (task : Task) (listed : task.status ≠ .succeeded) :
    task.cancel.status ≠ .succeeded ∧ task.cancel.status ≠ .failed := by
  cases same : task.status <;> simp [Task.cancel, TaskStatus.transition, same,
    TaskStatus.isCancelable] at listed ⊢

/-- The report at the front of the queue, told to the task. -/
theorem live_reduce {c : Cell} {task : Task} {sent seen : Job} {out : TaskOut}
    {ops : List TaskOut} (live : Live c task sent seen) (queued : c.ops = out :: ops) :
    ∃ next, Live { c with ops } (out.reduce task) sent next ∧
      (seen.hooked = true → next.hooked = true) ∧
      ∀ k, task.prog.counts = some k → (out.reduce task).status = task.status ∧
        (out.reduce task).prog.counts.isSome = true ∧ (failed task.prog = true → failed (out.reduce task).prog = true) := by
  obtain ⟨job, follows, kind, phase, fresh, own, tokens, executed, tracks, listed, doomed⟩ := live
  rw [queued] at follows
  obtain ⟨next, taken, follows⟩ := Option.bind_eq_some_iff.mp follows
  obtain ⟨e, known, moved⟩ := Job.take_eq_some taken
  have effect : Effect e task (out.reduce task) := reduce_effect (kind ▸ known)
  have sameKind := Job.next_kind moved
  obtain ⟨clean, notPending⟩ := event_isClean known
  simp only [Cell.tokens, queued, cleansIn_cons] at tokens executed
  have once : e.isClean = true → (cleaned task.prog).isSome = true ∧ task.cleanups = 0 := by
    intro told
    rw [clean] at told
    simp only [told, if_true] at tokens
    have hooked : seen.hooked = true := by
      by_contra unhooked
      simp only [Bool.not_eq_true] at unhooked
      simp only [unhooked, Bool.toNat_false] at tokens
      omega
    simp only [hooked, Bool.toNat_true] at tokens
    exact ⟨by rw [cleaned_isSome, kind, phase hooked], by omega⟩
  have counted : ∀ k, task.prog.counts = some k → e.isClean = true → k.cleaned = .pending :=
    fun k known told => (cleanups_eq_zero (cleaned_eq known)).mp (once told).2
  have cleanups := cleanups_effect effect notPending once
  have statusOf : ∀ k, task.prog.counts = some k → (out.reduce task).status = task.status := by
    intro k known
    refine effect.status.resolve_right ?_
    rw [cleaned_eq known]
    nofun
  have back : ∀ k, (out.reduce task).prog.counts = some k →
      ∃ old, task.prog.counts = some old ∧ k = old.apply e := by
    intro k known
    rw [effect.counts] at known
    obtain ⟨old, before, rfl⟩ := Option.map_eq_some_iff.mp known
    exact ⟨old, before, rfl⟩
  refine ⟨next, ⟨job, follows, effect.kind.trans (kind.trans sameKind.symm), ?_, ?_, ?_, ?_, ?_, ?_,
    ?_, ?_⟩, ?_, ?_⟩
  case refine_1 =>
    intro hooked
    rw [sameKind]
    rcases Job.next_hooked moved with ⟨rfl, -⟩ | ⟨-, same, -⟩
    · exact event_register known
    · exact phase (same ▸ hooked)
  case refine_2 =>
    intro start
    rcases Job.next_hooked moved with ⟨-, -, -, started⟩ | ⟨-, same, earlier⟩
    · exact absurd start started
    · rw [same]
      exact fresh (earlier start)
  case refine_3 =>
    intro hook place
    rw [sameKind]
    rw [effect.hook] at place
    split at place
    · rw [← kind]
      exact place.elim id fun later => kind ▸ own hook (.inr later)
    · exact own hook place
  case refine_4 =>
    simp only [Cell.tokens, cleanups, effect.hook, clean]
    rcases Job.next_hooked moved with ⟨rfl, start, hooked, -⟩ | ⟨plain, same, -⟩
    · obtain ⟨hook, registered⟩ := Option.isSome_iff_exists.mp (event_register known)
      rw [fresh start] at tokens
      rw [← kind] at registered
      simp only [if_true, registered, Option.toList_some, List.length_singleton, hooked,
        Bool.toNat_true]
      simp only [Bool.toNat_false] at tokens
      have dirty : out.isClean.toNat = 0 := by rw [← clean]; rfl
      omega
    · rw [same, ← tokens, if_neg plain]
      cases out.isClean <;> simp
      omega
  case refine_5 =>
    rw [executed, cleanups, clean]
    cases out.isClean <;> simp
    omega
  case refine_6 =>
    intro k known
    obtain ⟨old, before, rfl⟩ := back k known
    exact Job.tracks_next (tracks old before) moved
  case refine_7 =>
    rcases effect.status with same | ⟨-, canceled⟩
    · rw [same]
      exact listed
    · rw [canceled]
      exact (cancel_status task listed).1
  case refine_8 =>
    intro lost k known
    obtain ⟨old, before, rfl⟩ := back k known
    rw [statusOf old before] at lost
    exact doomed_apply (tracks old before) moved (counted old before) (doomed lost old before)
  case refine_9 =>
    intro hooked
    rcases Job.next_hooked moved with ⟨-, -, hooked, -⟩ | ⟨-, same, -⟩
    · exact hooked
    · exact same.trans hooked
  case refine_10 =>
    intro k known
    have after : (out.reduce task).prog.counts = some (k.apply e) := by simp [effect.counts, known]
    refine ⟨statusOf k known, by simp [after], fun lost => ?_⟩
    exact (failed_iff after).mpr
      (failed_apply (tracks k known) moved (counted k known) ((failed_iff known).mp lost))

/-! ### The other changes of a task -/

private theorem Live.restatus {c : Cell} {task : Task} {sent seen : Job}
    (live : Live c task sent seen) {status : TaskStatus} (listed : status ≠ .succeeded)
    (doomed : status = .failed → ∀ k, task.prog.counts = some k → k.Doomed) :
    Live c { task with status } sent seen :=
  ⟨live.job, live.follows, live.kind, live.phase, live.fresh, live.own, live.tokens,
    live.executed, live.tracks, listed, doomed⟩

private theorem Live.place {c : Cell} {task : Task} {sent seen : Job}
    (live : Live c task sent seen) (entry left : Option Task) :
    Live { c with entry, left } task sent seen :=
  ⟨live.job, live.follows, live.kind, live.phase, live.fresh, live.own, live.tokens,
    live.executed, live.tracks, live.listed, live.doomed⟩

private theorem Live.submit {c : Cell} {task : Task} {sent seen : Job} {hook : HookIn}
    (live : Live c task sent seen) (held : task.hook = some hook) :
    Live { c with hooks := hook :: c.hooks } { task with hook := none } sent seen := by
  refine ⟨live.job, live.follows, live.kind, live.phase, live.fresh, ?_, ?_, live.executed,
    live.tracks, live.listed, live.doomed⟩
  · intro other place
    rcases place with slot | queued | busy
    · cases slot
    · rcases List.mem_cons.mp queued with rfl | queued
      · exact live.own other (.inl held)
      · exact live.own other (.inr (.inl queued))
    · exact live.own other (.inr (.inr busy))
  · rw [← live.tokens]
    simp only [Cell.tokens, held, Option.toList_none, List.length_nil, List.length_cons,
      Option.toList_some, Task.cleanups]
    omega

/-- A task whose counts are complete without success has lost something for good. -/
private theorem Live.ended {c : Cell} {task : Task} {sent seen : Job} {k : Counts}
    (live : Live c task sent seen) (counted : task.prog.counts = some k)
    (idle : running task.prog = false) (lost : success task.prog = false) : k.Doomed := by
  have still := mt (running_iff counted).mpr (by simp [idle])
  have unsuccessful := mt (success_iff counted).mpr (by simp [lost])
  simp only [cooked_iff counted, not_or, not_and, not_not] at still unsuccessful
  obtain ⟨collected, complete, pending⟩ := still
  have balance := (live.tracks k counted).balance
  simp only [Counts.Doomed]
  by_cases zero : k.failed = 0
  · cases done : k.collected with
    | none => exact absurd done collected
    | some ok =>
      cases ok with
      | false => exact .inl rfl
      | true =>
        have all : k.collected = some true ∧ k.succeeded = k.total := ⟨done, by omega⟩
        cases told : k.cleaned with
        | pending => exact absurd told (pending all)
        | success => exact absurd told (unsuccessful all)
        | failed => exact .inr (.inr rfl)
  · exact .inr (.inl (by omega))

theorem Live.settle {c : Cell} {task : Task} {sent seen : Job}
    (live : Live c task sent seen) : Live c task.settle sent seen := by
  simp only [Task.settle]
  split
  · next ended =>
    simp only [Bool.and_eq_true, Bool.not_eq_true'] at ended
    refine live.restatus ?_ fun _ k counted => live.ended counted ended.1 ended.2
    have listed := live.listed
    cases same : task.status <;>
      simp [TaskStatus.transition, TaskStatus.isFinishable, same] at listed ⊢
  · exact live

@[simp] theorem settle_prog (task : Task) : task.settle.prog = task.prog := by
  simp only [Task.settle]
  split <;> rfl

@[simp] theorem settle_hook (task : Task) : task.settle.hook = task.hook := by
  simp only [Task.settle]
  split <;> rfl

/-! ### What the op loop and a cancellation can do to a task -/

/-- The task is listed as before, or listed while its hook is submitted, or it leaves. -/
theorem op_cases (task : Task) (out : TaskOut) :
    Worker.op task out = .stay (out.reduce task).settle ∨
      (∃ hook, (out.reduce task).settle.hook = some hook ∧
        (out.reduce task).settle.status ≠ .failed ∧
        (cooked (out.reduce task).prog = true ∨ (out.reduce task).settle.status.isFinished = true) ∧
        Worker.op task out = .submit { (out.reduce task).settle with hook := none } hook) ∨
      ((out.reduce task).settle.hook = none ∧ (out.reduce task).settle.status ≠ .failed ∧
        (cooked (out.reduce task).prog = true ∨ (out.reduce task).settle.status.isFinished = true) ∧
        cleaned (out.reduce task).prog ≠ some .pending ∧
        Worker.op task out = .leave (out.reduce task).settle.succeed) := by
  rw [← settle_prog (out.reduce task)]
  generalize same : (out.reduce task).settle = next
  simp only [Worker.op, same]
  split
  · exact .inl rfl
  · next ended =>
    split
    · exact .inl rfl
    · next unfailed =>
      simp only [beq_iff_eq] at unfailed
      have done : cooked next.prog = true ∨ next.status.isFinished = true := by
        simp only [Bool.and_eq_true, Bool.not_eq_true', not_and] at ended
        cases work : cooked next.prog with
        | true => exact .inl rfl
        | false => exact .inr (by simpa using ended work)
      cases slot : next.hook with
      | some hook => exact .inr (.inl ⟨hook, rfl, unfailed, done, rfl⟩)
      | none =>
        by_cases pending : cleaned next.prog = some .pending
        · exact .inl (by simp [pending])
        · exact .inr (.inr ⟨rfl, unfailed, done, pending, by simp [pending]⟩)

theorem cancel_cases (task : Task) (force : Bool) :
    (Worker.cancel task force = .stay task ∧ force = false ∧ task.status = .canceled) ∨
      (∃ hook, task.hook = some hook ∧
        Worker.cancel task force = .submit { task.cancel with hook := none } hook) ∨
      (task.hook = none ∧ (force = true ∨ task.status ≠ .canceled) ∧
        Worker.cancel task force = .leave task.cancel) := by
  have same : task.cancel.hook = task.hook := rfl
  cases settled : !force && task.isCanceled with
  | true =>
    refine .inl ⟨by simp [Worker.cancel, settled], ?_⟩
    simpa [Task.isCanceled] using settled
  | false =>
    simp only [Worker.cancel, settled, same]
    cases slot : task.hook with
    | some hook => exact .inr (.inl ⟨hook, rfl, rfl⟩)
    | none =>
      refine .inr (.inr ⟨rfl, ?_, rfl⟩)
      cases force with
      | true => exact .inl rfl
      | false => exact .inr (by simpa [Task.isCanceled] using settled)

/-! ### Steps -/

/-- How a task leaves the table: canceled without a hook, or fulfilled. -/
inductive Leaving (c d : Cell) (task : Task) : Act → Prop where
  | cancel {force : Bool} (present : c.entry = some task) (left : d.left = some task.cancel)
      (same : d = { c with entry := none, left := some task.cancel })
      (allowed : force = true ∨ task.status ≠ .canceled) : Leaving c d task (.cancel force)
  | fulfill (left : d.left = some task.succeed) (unfailed : task.status ≠ .failed)
      (done : cooked task.prog = true ∨ task.status.isFinished = true)
      (settled : task.settle = task)
      (clean : cleaned task.prog ≠ some .pending) : Leaving c d task .op

theorem settle_settle (task : Task) : task.settle.settle = task.settle := by
  simp only [Task.settle]
  split
  · next ended =>
    simp only [Task.fail, ended, if_true]
    cases same : task.status <;> simp [TaskStatus.transition, TaskStatus.isFinishable]
  · rfl

/-- One step of a task in the table. -/
theorem live_step {c d : Cell} {task : Task} {sent seen : Job} {act : Act}
    (live : Live c task sent seen) (present : c.entry = some task) (move : c.step act = some d) :
    ∃ task' sent' seen', Live d task' sent' seen' ∧ (seen.hooked = true → seen'.hooked = true) ∧
      c.executed ≤ d.executed ∧
      ((d.entry = some task' ∧ d.left = c.left) ∨
        (d.entry = none ∧ task'.hook = none ∧ Leaving c d task' act)) := by
  cases act with
  | add kind => simp [Cell.step, live.job] at move
  | start =>
    simp only [Cell.step, present, Option.map_some, Option.some.injEq] at move
    subst move
    have started : Live c task.start sent seen := by
      have listed := live.listed
      have doomed := live.doomed
      refine live.restatus ?_ ?_ <;> cases same : task.status <;>
        simp [TaskStatus.transition, same] at listed doomed ⊢
      exact doomed
    exact ⟨task.start, sent, seen, started.place _ _, id, Nat.le_refl _, .inl ⟨rfl, rfl⟩⟩
  | report out =>
    simp only [Cell.step] at move
    split at move
    · cases move
    · next dirty =>
      simp only [live.job, Option.bind_some, Option.map_eq_some_iff] at move
      obtain ⟨next, taken, rfl⟩ := move
      refine ⟨task, next, seen, ?_, id, Nat.le_refl _, .inl ⟨present, rfl⟩⟩
      refine ⟨rfl, ?_, live.kind, live.phase, live.fresh, live.own, ?_, ?_, live.tracks,
        live.listed, live.doomed⟩
      · rw [exec_append, live.follows]
        simp [exec, taken]
      · rw [← live.tokens]
        simp [Cell.tokens, dirty]
      · simpa [dirty] using live.executed
  | op =>
    simp only [Cell.step] at move
    split at move
    · cases move
    · next out ops queued =>
      simp only [present, Option.some.injEq] at move
      obtain ⟨next, told, hooked, -⟩ := live_reduce live queued
      have settled := told.settle
      rcases op_cases task out with stay | ⟨hook, held, -, -, submit⟩ |
        ⟨slot, unfailed, done, clean, leave⟩
      · rw [stay] at move
        subst move
        exact ⟨_, sent, next, settled.place _ _, hooked, Nat.le_refl _, .inl ⟨rfl, rfl⟩⟩
      · rw [submit] at move
        subst move
        exact ⟨_, sent, next, (settled.submit held).place _ _, hooked, Nat.le_refl _, .inl ⟨rfl, rfl⟩⟩
      · rw [leave] at move
        subst move
        refine ⟨_, sent, next, settled.place _ _, hooked, Nat.le_refl _, .inr ⟨rfl, slot, ?_⟩⟩
        exact .fulfill rfl unfailed (by simpa using done) (settle_settle _) (by simpa using clean)
  | cancel force =>
    simp only [Cell.step, present, Option.some.injEq] at move
    have canceled : Live c task.cancel sent seen :=
      live.restatus (cancel_status task live.listed).1 fun lost =>
        absurd lost (cancel_status task live.listed).2
    rcases cancel_cases task force with ⟨stay, -⟩ | ⟨hook, held, submit⟩ | ⟨slot, allowed, leave⟩
    · rw [stay] at move
      subst move
      exact ⟨_, sent, seen, live.place _ _, id, Nat.le_refl _, .inl ⟨rfl, rfl⟩⟩
    · rw [submit] at move
      subst move
      exact ⟨_, sent, seen, (canceled.submit held).place _ _, id, Nat.le_refl _, .inl ⟨rfl, rfl⟩⟩
    · rw [leave] at move
      subst move
      refine ⟨task, sent, seen, live.place _ _, id, Nat.le_refl _, .inr ⟨rfl, slot, ?_⟩⟩
      exact .cancel present rfl rfl allowed
  | take hook =>
    simp only [Cell.step, present, Option.isSome_some, if_true] at move
    split at move
    · next queued =>
      cases move
      refine ⟨task, sent, seen, ?_, id, Nat.le_refl _, .inl ⟨rfl, rfl⟩⟩
      refine ⟨live.job, live.follows, live.kind, live.phase, live.fresh, ?_, ?_, live.executed,
        live.tracks, live.listed, live.doomed⟩
      · intro other place
        apply live.own other
        rcases place with slot | queued | busy
        · exact .inl slot
        · exact .inr (.inl (List.mem_of_mem_erase queued))
        · rcases List.mem_cons.mp busy with rfl | busy
          · exact .inr (.inl ‹_›)
          · exact .inr (.inr busy)
      · rw [← live.tokens]
        have some_queued := List.length_pos_of_mem queued
        simp only [Cell.tokens, List.length_erase_of_mem queued, List.length_cons]
        omega
    · cases move
  | finish hook result =>
    simp only [Cell.step] at move
    split at move
    · next busy =>
      cases move
      obtain ⟨state, known⟩ := event_out (live.own hook (.inr (.inr busy))) result
      have taken : sent.take (hook.out result) = some sent := by
        have same : sent.kind = seen.kind := Job.exec_take_kind live.follows
        simp [Job.take, same, known, Job.next]
      refine ⟨task, sent, seen, ?_, id, Nat.le_succ _, .inl ⟨present, rfl⟩⟩
      refine ⟨live.job, ?_, live.kind, live.phase, live.fresh, ?_, ?_, ?_, live.tracks,
        live.listed, live.doomed⟩
      · rw [exec_append, live.follows]
        simp [exec, taken]
      · intro other place
        apply live.own other
        exact place.imp id (.imp id List.mem_of_mem_erase)
      · rw [← live.tokens]
        have some_busy := List.length_pos_of_mem busy
        simp only [Cell.tokens, List.length_erase_of_mem busy, cleansIn_append, cleansIn_cons,
          cleansIn_nil, isClean_out, if_true]
        omega
      · have executed := live.executed
        simp only [cleansIn_append, cleansIn_cons, cleansIn_nil, isClean_out, if_true]
        omega
    · cases move

/-- Nothing happened yet under this id. -/
structure Cell.Blank (c : Cell) : Prop where
  entry : c.entry = none
  left : c.left = none
  ops : c.ops = []
  hooks : c.hooks = []
  executing : c.executing = []
  executed : c.executed = 0

structure Cell.Tended (c : Cell) : Prop where
  live : ∀ task, c.entry = some task → ∃ sent seen, Live c task sent seen
  blank : c.job = none → c.Blank

/-- A task that was just added. -/
theorem live_new {c : Cell} (blank : c.Blank) (kind : TaskKind) :
    Live { c with entry := some (Task.new kind), job := some (Job.new kind) } (Task.new kind)
      (Job.new kind) (Job.new kind) := by
  obtain ⟨-, -, ops, hooks, executing, executed⟩ := blank
  refine ⟨rfl, by rw [ops]; rfl, by simp [Task.new, Job.new], ?_, ?_, ?_, ?_, ?_, ?_, nofun, nofun⟩
  · cases kind <;> simp [Job.new, TaskKind.hookless, TaskKind.hook]
  · cases kind <;> simp [Job.new, TaskKind.hookless, TaskKind.hook]
  · rw [hooks, executing]
    cases kind <;> simp [Task.new, Job.new, TaskKind.hookless, TaskKind.hook]
  · simp only [Cell.tokens, ops, hooks, executing]
    cases kind <;> rfl
  · rw [ops, executed]
    cases kind <;> rfl
  · intro k counted
    cases kind <;> cases counted <;>
      exact ⟨rfl, by simp [Job.new, FileProg.counts, FileProgHardlink.counts, TaskKind.hookless,
        TaskKind.hook]⟩

/-- Nothing happens under an unused id until a task is added. -/
private theorem idle_step {c d : Cell} {act : Act} (blank : c.Blank) (idle : c.job = none)
    (old : ∀ kind, act ≠ .add kind) (move : c.step act = some d) : d = c := by
  obtain ⟨entry, -, ops, hooks, executing, -⟩ := blank
  cases act with
  | add kind => exact absurd rfl (old kind)
  | start => simp [Cell.step, entry] at move
  | report out => simp [Cell.step, idle] at move
  | op => simp [Cell.step, ops] at move
  | cancel force => simpa [Cell.step, entry, eq_comm] using move
  | take hook => simp [Cell.step, hooks] at move
  | finish hook result => simp [Cell.step, executing] at move

/-- A step of an id whose task is not in the table. -/
theorem absent_step {c d : Cell} {act : Act} (absent : c.entry = none)
    (old : ∀ kind, act ≠ .add kind) (move : c.step act = some d) :
    d.entry = none ∧ d.left = c.left ∧ c.executed ≤ d.executed ∧ (d.job = none → c.job = none) ∧
      (c.hooks = [] → c.executing = [] →
        d.hooks = [] ∧ d.executing = [] ∧ d.executed = c.executed) := by
  cases act with
  | add kind => exact absurd rfl (old kind)
  | start => simp [Cell.step, absent] at move
  | report out =>
    simp only [Cell.step] at move
    split at move
    · cases move
    · obtain ⟨next, -, rfl⟩ := Option.map_eq_some_iff.mp move
      exact ⟨absent, rfl, Nat.le_refl _, (fun none => by cases none), fun hooks executing => ⟨hooks, executing, rfl⟩⟩
  | op =>
    simp only [Cell.step, absent] at move
    split at move
    · cases move
    · cases move
      exact ⟨rfl, rfl, Nat.le_refl _, id, fun hooks executing => ⟨hooks, executing, rfl⟩⟩
  | cancel force =>
    simp only [Cell.step, absent, Option.some.injEq] at move
    subst move
    exact ⟨absent, rfl, Nat.le_refl _, id, fun hooks executing => ⟨hooks, executing, rfl⟩⟩
  | take hook =>
    simp only [Cell.step, absent] at move
    split at move
    · next queued =>
      cases move
      refine ⟨rfl, rfl, Nat.le_refl _, id, fun hooks _ => ?_⟩
      simp [hooks] at queued
    · cases move
  | finish hook result =>
    simp only [Cell.step] at move
    split at move
    · next busy =>
      cases move
      refine ⟨absent, rfl, Nat.le_succ _, id, fun _ executing => ?_⟩
      simp [executing] at busy
    · cases move

/-- Adding a task is the first thing that happens under its id. -/
theorem add_step {c d : Cell} {kind : TaskKind} (move : c.step (.add kind) = some d) :
    c.job = none ∧ c.entry = none ∧
      d = { c with entry := some (Task.new kind), job := some (Job.new kind) } := by
  simp only [Cell.step, Bool.and_eq_true, Option.isNone_iff_eq_none] at move
  split at move
  · next unused => exact ⟨unused.1, unused.2, by simpa [eq_comm] using move⟩
  · cases move

theorem tended_step {c d : Cell} {act : Act} (tended : c.Tended) (move : c.step act = some d) :
    d.Tended := by
  cases before : c.entry with
  | some old =>
    obtain ⟨sent, seen, live⟩ := tended.live old before
    obtain ⟨next, sent, seen, live, -, -, ⟨listed, -⟩ | ⟨absent, -⟩⟩ :=
      live_step live before move
    · refine ⟨fun task present => ?_, fun idle => ?_⟩
      · cases listed.symm.trans present
        exact ⟨sent, seen, live⟩
      · rw [live.job] at idle
        cases idle
    · refine ⟨fun task present => ?_, fun idle => ?_⟩
      · rw [absent] at present
        cases present
      · rw [live.job] at idle
        cases idle
  | none =>
    by_cases added : ∃ kind, act = .add kind
    · obtain ⟨kind, rfl⟩ := added
      obtain ⟨idle, -, rfl⟩ := add_step move
      refine ⟨fun task present => ?_, nofun⟩
      cases present
      exact ⟨_, _, live_new (tended.blank idle) kind⟩
    · have old : ∀ kind, act ≠ .add kind := not_exists.mp added
      obtain ⟨absent, -, -, worked, -⟩ := absent_step before old move
      refine ⟨fun task present => ?_, fun idle => ?_⟩
      · rw [absent] at present
        cases present
      · have unused := worked idle
        have blank := tended.blank unused
        rw [idle_step blank unused old move]
        exact blank

theorem tended_new : ({} : Cell).Tended := by
  refine ⟨fun task present => ?_, fun _ => ⟨rfl, rfl, rfl, rfl, rfl, rfl⟩⟩
  cases present

theorem tended_run {c : Cell} {acts : List Act} (run : Run Cell.step {} acts c) : c.Tended := by
  refine run.invariant ?_ tended_new
  intro _ _ _ tended move
  exact tended_step tended move

end Yazi.Scheduler
