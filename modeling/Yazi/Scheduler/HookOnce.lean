import Yazi.Scheduler.Invariant

/-!
How often the hook of a task is executed.

A hook is lost in one way only: after the op loop took it from a task that is done, a
cancellation that is not forced finds no hook with the task and removes the task, and the hook
worker drops a hook without a task.
-/
namespace Yazi.Scheduler
open Yazi.Base
open Progress (cooked cleaned)

/-! ### Cells -/

/-- No cancellation comes between the submission of a finished task's hook and the end of the
hook's execution. A forced one is the user's and out of the question here. -/
def Cell.undisturbed (c : Cell) : Act → Bool
  | .cancel force =>
    !force && match c.entry with
      | none => true
      | some task =>
        task.isCanceled || task.hook.isSome || (c.hooks.isEmpty && c.executing.isEmpty)
  | _ => true

/-- A task that registered a hook, and what is left of it once it left the table. -/
def Cell.Hooked (c : Cell) : Prop :=
  match c.entry with
  | some task => ∃ sent seen, Live c task sent seen ∧ seen.hooked = true
  | none => c.job ≠ none ∧ c.executed = 1 ∧ c.hooks = [] ∧ c.executing = []

private theorem hooked_of_none {c : Cell} (absent : c.entry = none) :
    c.Hooked ↔ c.job ≠ none ∧ c.executed = 1 ∧ c.hooks = [] ∧ c.executing = [] := by
  simp [Cell.Hooked, absent]

/-- With nothing else in its place, the one token of a hook is its execution. -/
private theorem leaving_hooked {c d : Cell} {task : Task} {sent seen : Job} {act : Act}
    (live : Live d task sent seen) (hooked : seen.hooked = true) (slot : task.hook = none)
    (leaving : Leaving c d task act) (calm : c.undisturbed act = true) :
    d.executed = 1 ∧ d.hooks = [] ∧ d.executing = [] := by
  have tokens := live.tokens
  have executed := live.executed
  simp only [Cell.tokens, slot, hooked, Option.toList_none, List.length_nil, Bool.toNat_true]
    at tokens
  cases leaving with
  | cancel present there same allowed =>
    simp only [Cell.undisturbed, present, Bool.and_eq_true, Bool.not_eq_true', Bool.or_eq_true,
      List.isEmpty_iff, slot, Option.isSome_none, Bool.false_eq_true, or_false,
      Task.isCanceled, beq_iff_eq] at calm
    obtain ⟨unforced, canceled | ⟨hooks, executing⟩⟩ := calm
    · rw [unforced] at allowed
      exact absurd canceled (allowed.resolve_left Bool.false_ne_true)
    · subst same
      simp only [hooks, executing, List.length_nil] at tokens
      dsimp only at executed ⊢
      exact ⟨by omega, hooks, executing⟩
  | fulfill there unfailed done settled clean =>
    have phase : (cleaned task.prog).isSome = true := by
      rw [cleaned_isSome, live.kind]
      exact live.phase hooked
    have told : task.cleanups = 1 := by
      cases state : cleaned task.prog with
      | none => simp [state] at phase
      | some told =>
        cases told with
        | pending => exact absurd state clean
        | success | failed => simp [Task.cleanups, state]
    exact ⟨by omega, List.eq_nil_of_length_eq_zero (by omega),
      List.eq_nil_of_length_eq_zero (by omega)⟩

/-- After its task left, nothing is left of a hook to execute. -/
private theorem left_step {c d : Cell} {act : Act} (absent : c.entry = none) (hooked : c.Hooked)
    (move : c.step act = some d) : d.entry = none ∧ d.Hooked := by
  obtain ⟨worked, once, hooks, executing⟩ := (hooked_of_none absent).mp hooked
  have old : ∀ kind, act ≠ .add kind := by
    rintro kind rfl
    exact worked (add_step move).1
  obtain ⟨absent, -, -, still, rest⟩ := absent_step absent old move
  obtain ⟨hooks, executing, same⟩ := rest hooks executing
  exact ⟨absent, (hooked_of_none absent).mpr ⟨fun idle => worked (still idle), same.trans once,
    hooks, executing⟩⟩

private theorem hooked_step {c d : Cell} {act : Act} (hooked : c.Hooked)
    (move : restrict Cell.step Cell.undisturbed c act = some d) : d.Hooked := by
  obtain ⟨calm, move⟩ := restrict_eq_some move
  cases before : c.entry with
  | none => exact (left_step before hooked move).2
  | some task =>
    simp only [Cell.Hooked, before] at hooked
    obtain ⟨sent, seen, live, token⟩ := hooked
    obtain ⟨next, sent, seen, live, keeps, -, ⟨listed, -⟩ | ⟨absent, slot, leaving⟩⟩ :=
      live_step live before move
    · simp only [Cell.Hooked, listed]
      exact ⟨sent, seen, live, keeps token⟩
    · refine (hooked_of_none absent).mpr ⟨by simp [live.job], ?_⟩
      exact leaving_hooked live (keeps token) slot leaving calm

private theorem executed_le_one {c : Cell} (hooked : c.Hooked) : c.executed ≤ 1 := by
  cases present : c.entry with
  | none => exact Nat.le_of_eq ((hooked_of_none present).mp hooked).2.1
  | some task =>
    simp only [Cell.Hooked, present] at hooked
    obtain ⟨sent, seen, live, token⟩ := hooked
    have tokens := live.tokens
    have executed := live.executed
    simp only [Cell.tokens, token, Bool.toNat_true] at tokens
    omega

private theorem hooked_of_registered {c : Cell} {task : Task} {hook : HookIn} (tended : c.Tended)
    (present : c.entry = some task) (registered : task.hook = some hook) : c.Hooked := by
  obtain ⟨sent, seen, live⟩ := tended.live task present
  simp only [Cell.Hooked, present]
  refine ⟨sent, seen, live, ?_⟩
  have tokens := live.tokens
  by_contra unhooked
  simp only [Bool.not_eq_true] at unhooked
  simp [Cell.tokens, registered, unhooked] at tokens

/-! ### Every run of the scheduler -/

def System.undisturbed (s : System) : Label → Bool
  | .cancel id force =>
    !force && match s.ongoing id with
      | none => true
      | some task =>
        task.isCanceled || task.hook.isSome || ((s.hooks id).isEmpty && (s.executing id).isEmpty)
  | _ => true

private theorem undisturbed_cell {s : System} {id : Id} {act : Act}
    (calm : s.undisturbed (act.label id) = true) : (s.cell id).undisturbed act = true := by
  cases act <;> exact calm

private theorem calm_run_cell {s t : System} {labels : List Label} (fresh : s.Fresh)
    (run : Run (restrict System.step System.undisturbed) s labels t) (id : Id) :
    ∃ acts, Run (restrict Cell.step Cell.undisturbed) (s.cell id) acts (t.cell id) ∧
      ∀ act ∈ acts, act.label id ∈ labels := by
  refine run.project (P := System.Fresh) (System.cell · id) (Act.label id) ?_ ?_ fresh
  · exact fun _ _ _ fresh move => System.fresh_step fresh (restrict_eq_some move).2
  · intro s label t fresh move
    obtain ⟨calm, move⟩ := restrict_eq_some move
    refine (System.step_cell fresh move id).imp (fun same => same) ?_
    rintro ⟨act, rfl, moved⟩
    exact ⟨act, rfl, by simp [restrict, undisturbed_cell calm, moved]⟩

/-- In a run without such a cancellation, a registered hook is executed at most once, and by the
time its task left the table it was executed, with nothing of it left to execute later. -/
theorem hook_executed_once {labels rest : List Label} {s t : System} (id : Id) (task : Task)
    (hook : HookIn) (run : Run (restrict System.step System.undisturbed) {} labels s)
    (listed : s.ongoing id = some task) (registered : task.hook = some hook)
    (later : Run (restrict System.step System.undisturbed) s rest t) :
    t.executed id ≤ 1 ∧
      (t.ongoing id = none → t.executed id = 1 ∧
        ∀ more u, Run System.step t more u → u.ongoing id = none ∧ u.executed id = 1) := by
  have fresh : System.Fresh {} := fun _ _ => ⟨rfl, rfl⟩
  have freshLater : s.Fresh := run.of_restrict.invariant (fun _ _ _ => System.fresh_step) fresh
  have freshLast : t.Fresh :=
    later.of_restrict.invariant (fun _ _ _ => System.fresh_step) freshLater
  obtain ⟨_, cellRun, -⟩ := System.run_cell fresh run.of_restrict id
  have start : (s.cell id).Hooked := hooked_of_registered (tended_run cellRun) listed registered
  obtain ⟨_, cellRun, -⟩ := calm_run_cell freshLater later id
  have hooked : (t.cell id).Hooked := cellRun.invariant (fun _ _ _ => hooked_step) start
  refine ⟨executed_le_one hooked, fun absent => ?_⟩
  refine ⟨((hooked_of_none absent).mp hooked).2.1, fun more u further => ?_⟩
  obtain ⟨_, cellRun, -⟩ := System.run_cell freshLast further id
  have last : (u.cell id).entry = none ∧ (u.cell id).Hooked :=
    cellRun.invariant (P := fun c => c.entry = none ∧ c.Hooked)
      (fun _ _ _ held move => left_step held.1 held.2 move) ⟨absent, hooked⟩
  exact ⟨last.1, ((hooked_of_none last.1).mp last.2).2.1⟩

theorem hook_executed_once_of_trash :
    ∃ labels s, Run (restrict System.step System.undisturbed) {} labels s ∧
      s.ongoing 0 = none ∧ s.executed 0 = 1 := by
  let added : System := (System.step {} (.add .fileTrash)).get rfl
  have run : Run (restrict System.step System.undisturbed) {} [.add .fileTrash] added :=
    run_exec rfl
  have later : Run (restrict System.step System.undisturbed) added [.start 0,
      .report ⟨0, .fileTrash .succ⟩, .op, .take 0 .trash, .finish 0 .trash (.ok ()), .op] _ :=
    run_exec rfl
  exact ⟨_, _, run.append later, rfl, ((hook_executed_once 0 _ _ run rfl rfl later).2 rfl).1⟩

/-- A preload is done, its hook is submitted; a newer preload of the same file cancels it before
the hook worker takes the hook. -/
theorem hook_lost :
    ¬ ∀ (labels rest : List Label) (s t : System) (id : Id) (task : Task) (hook : HookIn),
      Run System.step {} labels s → s.ongoing id = some task → task.hook = some hook →
      Run System.step s rest t → (∀ id, .cancel id true ∉ labels ++ rest) →
      t.ongoing id = none → t.executed id = 1 := by
  intro once
  have run : Run System.step {} [.add .preload] _ := run_exec rfl
  have lost := once _ [.report ⟨0, .preload .succ⟩, .op, .cancel 0 false, .take 0 .preload] _ _ 0 _
    .preload run rfl rfl (run_exec rfl) (by simp) rfl
  cases lost

end Yazi.Scheduler
