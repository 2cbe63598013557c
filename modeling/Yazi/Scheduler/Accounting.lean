import Yazi.Scheduler.Invariant

/-! Accounting of the tasks that collect sub-operations, and their terminal states. -/
namespace Yazi.Scheduler
open Yazi.Base
open Progress (running cooked failed cleaned success)

/-- What holds of a task's counts at any time, in the table or after it left. -/
structure Sound (executed : Nat) (task : Task) (k : Counts) : Prop where
  bounded : k.succeeded + k.failed ≤ k.total
  complete : success task.prog = true ∨ task.status = .succeeded →
    k.collected = some true ∧ k.succeeded = k.total ∧ k.failed = 0 ∧ k.cleaned = .success ∧
      1 ≤ executed
  unmixed : task.status = .failed → success task.prog = false

theorem Sound.mono {few many : Nat} {task : Task} {k : Counts} (sound : Sound few task k)
    (more : few ≤ many) : Sound many task k := by
  refine ⟨sound.bounded, fun done => ?_, sound.unmixed⟩
  obtain ⟨collected, all, none, cleaned, ran⟩ := sound.complete done
  exact ⟨collected, all, none, cleaned, Nat.le_trans ran more⟩

private theorem complete_of_success {c : Cell} {task : Task} {sent seen : Job} {k : Counts}
    (live : Live c task sent seen) (counted : task.prog.counts = some k)
    (done : success task.prog = true) :
    k.collected = some true ∧ k.succeeded = k.total ∧ k.failed = 0 ∧ k.cleaned = .success ∧
      1 ≤ c.executed := by
  obtain ⟨work, clean⟩ := (success_iff counted).mp done
  obtain ⟨collected, all⟩ := (cooked_iff counted).mp work
  have balance := (live.tracks k counted).balance
  have executed := live.executed
  have told : task.cleanups = 1 := by simp [Task.cleanups, cleaned_eq counted, clean]
  exact ⟨collected, all, by omega, clean, by omega⟩

theorem Live.sound {c : Cell} {task : Task} {sent seen : Job} {k : Counts}
    (live : Live c task sent seen) (counted : task.prog.counts = some k) :
    Sound c.executed task k := by
  refine ⟨?_, fun done => ?_, fun lost => ?_⟩
  · have balance := (live.tracks k counted).balance
    omega
  · exact complete_of_success live counted (done.resolve_right live.listed)
  · by_contra done
    simp only [Bool.not_eq_false] at done
    obtain ⟨collected, -, none, clean, -⟩ := complete_of_success live counted done
    rcases live.doomed lost k counted with failed | some_failed | failed
    · rw [collected] at failed
      cases failed
    · omega
    · rw [clean] at failed
      cases failed

/-- Work that is done and cleaned up without success makes the op loop fail the task. -/
private theorem finished_of_unsuccessful {c : Cell} {task : Task} {sent seen : Job} {k : Counts}
    (live : Live c task sent seen) (counted : task.prog.counts = some k)
    (settled : task.settle = task) (work : cooked task.prog = true)
    (clean : cleaned task.prog ≠ some .pending) (lost : success task.prog = false) :
    task.status.isFinished = true := by
  obtain ⟨collected, all⟩ := (cooked_iff counted).mp work
  have balance := (live.tracks k counted).balance
  rw [cleaned_eq counted] at clean
  have idle : running task.prog = false := by
    by_contra busy
    simp only [Bool.not_eq_false] at busy
    rcases (running_iff counted).mp busy with collecting | incomplete | ⟨-, pending⟩
    · rw [collected] at collecting
      cases collecting
    · omega
    · exact clean (congrArg some pending)
  have status : task.settle.status = task.status := congrArg Task.status settled
  rw [← status]
  simp only [Task.settle, idle, lost, Bool.not_false, Bool.and_self, if_true, Task.fail]
  cases task.status <;> rfl

private theorem leaving_sound {c d : Cell} {task left : Task} {sent seen : Job} {act : Act}
    {k : Counts} (live : Live d task sent seen) (leaving : Leaving c d task act)
    (gone : d.left = some left) (counted : left.prog.counts = some k) :
    Sound d.executed left k := by
  cases leaving with
  | cancel present there same allowed =>
    cases there.symm.trans gone
    have sound := live.sound counted
    obtain ⟨unfulfilled, unfailed⟩ := cancel_status task live.listed
    exact ⟨sound.bounded, fun done => sound.complete (.inl (done.resolve_right unfulfilled)),
      fun failed => absurd failed unfailed⟩
  | fulfill there unfailed done settled clean =>
    cases there.symm.trans gone
    have same : task.prog = task.succeed.prog := rfl
    rw [← same] at counted
    have sound := live.sound counted
    refine ⟨sound.bounded, fun reported => ?_, fun failed => ?_⟩
    · by_contra incomplete
      have lost : success task.prog = false := by
        by_contra success
        exact incomplete (sound.complete (.inl (by simpa using success)))
      have finished : task.status.isFinished = true :=
        done.elim (finished_of_unsuccessful live counted settled · clean lost) id
      rcases reported with success | succeeded
      · exact incomplete (sound.complete (.inl success))
      · have listed := live.listed
        cases status : task.status <;>
          simp [Task.succeed, TaskStatus.transition, TaskStatus.isFinishable, status,
            TaskStatus.isFinished] at succeeded finished listed
    · exfalso
      cases status : task.status <;>
        simp [Task.succeed, TaskStatus.transition, TaskStatus.isFinishable, status] at failed unfailed

/-- Every task that left the table left it in a sound state. -/
structure Cell.Accounted (c : Cell) : Prop extends c.Tended where
  left : ∀ task k, c.left = some task → task.prog.counts = some k → Sound c.executed task k

private theorem accounted_step {c d : Cell} {act : Act} (accounted : c.Accounted)
    (move : c.step act = some d) : d.Accounted := by
  refine ⟨tended_step accounted.toTended move, fun task k gone counted => ?_⟩
  cases before : c.entry with
  | none =>
    by_cases added : ∃ kind, act = .add kind
    · obtain ⟨kind, rfl⟩ := added
      obtain ⟨-, -, rfl⟩ := add_step move
      exact accounted.left task k gone counted
    · obtain ⟨-, same, more, -⟩ := absent_step before (not_exists.mp added) move
      exact (accounted.left task k (same ▸ gone) counted).mono more
  | some task =>
    obtain ⟨sent, seen, live⟩ := accounted.live task before
    obtain ⟨next, sent, seen, live, -, more, ⟨-, same⟩ | ⟨-, -, leaving⟩⟩ :=
      live_step live before move
    · exact (accounted.left _ k (same ▸ gone) counted).mono more
    · exact leaving_sound live leaving gone counted

theorem accounted_run {c : Cell} {acts : List Act} (run : Run Cell.step {} acts c) :
    c.Accounted := by
  refine run.invariant ?_ ⟨tended_new, fun task k gone => by cases gone⟩
  intro _ _ _ accounted move
  exact accounted_step accounted move

/-! ### Failed tasks -/

/-- The op loop failed the task, or its progress reports a failure and nobody canceled it. -/
def Task.Failed (task : Task) : Prop :=
  task.status = .failed ∨ (task.status ≠ .canceled ∧ failed task.prog = true)

/-- A task that failed, and that the op loop has not failed, has not done its work. -/
private theorem undone {c : Cell} {task : Task} {sent seen : Job} {k : Counts}
    (live : Live c task sent seen) (counted : task.prog.counts = some k)
    (settled : task.settle = task) (lost : task.Failed) (unfailed : task.status ≠ .failed) :
    ¬(cooked task.prog = true ∨ task.status.isFinished = true) := by
  obtain ⟨uncanceled, failed⟩ := lost.resolve_left unfailed
  have unfinished : ¬task.status.isFinished = true := by
    have listed := live.listed
    cases same : task.status <;> simp [same, TaskStatus.isFinished] at unfailed uncanceled listed ⊢
  refine not_or.mpr ⟨fun work => ?_, unfinished⟩
  have collected := ((cooked_iff counted).mp work).1
  have unclean : k.cleaned = .failed := by
    refine ((failed_iff counted).mp failed).resolve_right ?_
    rw [collected]
    nofun
  refine unfinished (finished_of_unsuccessful live counted settled work ?_ ?_)
  · rw [cleaned_eq counted, unclean]
    nofun
  · by_contra done
    simp only [Bool.not_eq_false, success_iff counted, unclean] at done
    cases done.2

/-- Told another report, a failed task is still failed, and still listed. -/
private theorem op_failed {c : Cell} {task : Task} {sent seen : Job} {out : TaskOut}
    {ops : List TaskOut} {k : Counts} (live : Live c task sent seen) (queued : c.ops = out :: ops)
    (counted : task.prog.counts = some k) (lost : task.Failed) :
    ∃ next, Worker.op task out = .stay next ∧ next.Failed ∧ next.prog.counts.isSome = true ∧
      (task.status = .failed → next.status = .failed) := by
  obtain ⟨_, told, -, kept⟩ := live_reduce live queued
  obtain ⟨status, after, stuck⟩ := kept k counted
  have settled := told.settle
  obtain ⟨k', after'⟩ := Option.isSome_iff_exists.mp after
  have stays : task.status = .failed → (out.reduce task).settle.status = .failed := by
    intro failed
    simp only [Task.settle]
    split
    · simp [Task.fail, status, failed, TaskStatus.transition, TaskStatus.isFinishable]
    · rw [status, failed]
  have still : (out.reduce task).settle.Failed := by
    refine lost.imp stays ?_
    rintro ⟨uncanceled, failed⟩
    refine ⟨?_, by simpa using stuck failed⟩
    simp only [Task.settle]
    split
    · cases same : task.status <;>
        simp [Task.fail, status, same, TaskStatus.transition, TaskStatus.isFinishable]
          at uncanceled ⊢
    · rw [status]
      exact uncanceled
  have never := fun unfailed => undone settled (by simpa using after') (settle_settle _) still unfailed
  refine ⟨_, ?_, still, by simpa using after, stays⟩
  rcases op_cases task out with stay | ⟨hook, -, unfailed, done, -⟩ | ⟨-, unfailed, done, -⟩
  · exact stay
  · exact absurd (by simpa using done) (never unfailed)
  · exact absurd (by simpa using done) (never unfailed)

private theorem failed_step {c d : Cell} {task : Task} {act : Act} (tended : c.Tended)
    (present : c.entry = some task) (counted : task.prog.counts.isSome = true)
    (lost : task.Failed) (kept : ∀ force, act ≠ .cancel force) (move : c.step act = some d) :
    ∃ next, d.entry = some next ∧ next.Failed ∧ next.prog.counts.isSome = true ∧
      (task.status = .failed → next.status = .failed) := by
  obtain ⟨sent, seen, live⟩ := tended.live task present
  obtain ⟨k, known⟩ := Option.isSome_iff_exists.mp counted
  cases act with
  | add kind => simp [Cell.step, live.job] at move
  | cancel force => exact absurd rfl (kept force)
  | start =>
    simp only [Cell.step, present, Option.map_some, Option.some.injEq] at move
    subst move
    refine ⟨task.start, rfl, ?_, counted, ?_⟩
    · refine lost.imp ?_ (And.imp_left ?_) <;>
        cases same : task.status <;> simp [Task.start, TaskStatus.transition, same]
    · intro failed
      simp [Task.start, TaskStatus.transition, failed]
  | op =>
    simp only [Cell.step] at move
    split at move
    · cases move
    · next out ops queued =>
      simp only [present, Option.some.injEq] at move
      obtain ⟨next, stay, still, counted, failed⟩ := op_failed live queued known lost
      rw [stay] at move
      subst move
      exact ⟨next, rfl, still, counted, failed⟩
  | report out =>
    simp only [Cell.step] at move
    split at move
    · cases move
    · obtain ⟨_, -, rfl⟩ := Option.map_eq_some_iff.mp move
      exact ⟨task, present, lost, counted, id⟩
  | take hook | finish hook result =>
    simp only [Cell.step] at move
    repeat' split at move
    all_goals cases move
    all_goals exact ⟨task, present, lost, counted, id⟩

private theorem failed_run {c d : Cell} {acts : List Act} {task : Task} (run : Run Cell.step c acts d)
    (tended : c.Tended) (present : c.entry = some task) (counted : task.prog.counts.isSome = true)
    (lost : task.Failed) (kept : ∀ force, .cancel force ∉ acts) :
    ∃ next, d.entry = some next ∧ next.Failed ∧ (task.status = .failed → next.status = .failed) := by
  have held : d.Tended ∧ ∃ next, d.entry = some next ∧ next.Failed ∧
      next.prog.counts.isSome = true ∧ (task.status = .failed → next.status = .failed) := by
    refine run.invariant_of_labels
      (P := fun c => c.Tended ∧ ∃ next, c.entry = some next ∧ next.Failed ∧
        next.prog.counts.isSome = true ∧ (task.status = .failed → next.status = .failed)) ?_
      ⟨tended, task, present, lost, counted, id⟩
    rintro c act d member ⟨tended, next, present, lost, counted, same⟩ move
    have uncanceled : ∀ force, act ≠ .cancel force := by
      rintro force rfl
      exact kept force member
    obtain ⟨after, listed, still, counted, failed⟩ :=
      failed_step tended present counted lost uncanceled move
    exact ⟨tended_step tended move, after, listed, still, counted, failed ∘ same⟩
  obtain ⟨-, next, listed, still, -, failed⟩ := held
  exact ⟨next, listed, still, failed⟩

/-! ### Every run of the scheduler -/

/-- A copy of one file, from its submission to its fulfilment. -/
def copyRun : List Label :=
  [.add .fileCopy, .start 0, .report ⟨0, .hookCopy⟩, .op, .report ⟨0, .fileCopy (.new 5)⟩,
    .report ⟨0, .fileCopyDo (.adv 5)⟩, .op, .report ⟨0, .fileCopyDo .succ⟩, .op,
    .report ⟨0, .fileCopy .succ⟩, .op, .op, .take 0 .copy, .finish 0 .copy (.ok ()), .op]

end Yazi.Scheduler
