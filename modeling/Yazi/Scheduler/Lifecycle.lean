import Yazi.Scheduler.Reduce

/-!
The life of a single task.

A `Cell` is what the scheduler knows of one id. Each step of the scheduler moves at most one
cell, by a step of that cell, so whatever holds along every run of a cell holds of every task.
-/
namespace Yazi.Scheduler
open Yazi.Base

structure Cell where
  entry : Option Task := none
  left : Option Task := none
  job : Option Job := none
  ops : List TaskOut := []
  hooks : List HookIn := []
  executing : List HookIn := []
  executed : Nat := 0

inductive Act where
  | add (kind : TaskKind)
  | start
  | report (out : TaskOut)
  | op
  | cancel (force : Bool)
  | take (hook : HookIn)
  | finish (hook : HookIn) (result : Except String Unit)

namespace Cell

def settle (c : Cell) : Outcome → Cell
  | .stay task => { c with entry := some task }
  | .submit task hook => { c with entry := some task, hooks := hook :: c.hooks }
  | .leave task => { c with entry := none, left := some task }

def step (c : Cell) : Act → Option Cell
  | .add kind =>
    if c.job.isNone && c.entry.isNone then
      some { c with entry := some (Task.new kind), job := some (Job.new kind) }
    else none
  | .start => c.entry.map fun task => { c with entry := some task.start }
  | .report out =>
    if out.isClean then none
    else (c.job.bind (·.take out)).map fun job => { c with job := some job, ops := c.ops ++ [out] }
  | .op =>
    match c.ops with
    | [] => none
    | out :: ops =>
      match c.entry with
      | none => some { c with ops }
      | some task => some ({ c with ops }.settle (Worker.op task out))
  | .cancel force =>
    match c.entry with
    | none => some c
    | some task => some (c.settle (Worker.cancel task force))
  | .take hook =>
    if hook ∈ c.hooks then
      if c.entry.isSome then
        some { c with hooks := c.hooks.erase hook, executing := hook :: c.executing }
      else some { c with hooks := c.hooks.erase hook }
    else none
  | .finish hook result =>
    if hook ∈ c.executing then
      some
        { c with
          executing := c.executing.erase hook
          executed := c.executed + 1
          ops := c.ops ++ [hook.out result] }
    else none

end Cell

/-! ### The scheduler is made of cells -/

def Act.label (id : Id) : Act → Label
  | .add kind => .add kind
  | .start => .start id
  | .report out => .report { id, out }
  | .op => .op
  | .cancel force => .cancel id force
  | .take hook => .take id hook
  | .finish hook result => .finish id hook result

namespace System

def cell (s : System) (id : Id) : Cell :=
  { entry := s.ongoing id
    left := s.left id
    job := s.jobs id
    ops := (s.ops.filter (·.id = id)).map (·.out)
    hooks := s.hooks id
    executing := s.executing id
    executed := s.executed id }

/-- Ids that were not handed out yet are unused. -/
def Fresh (s : System) : Prop :=
  ∀ id, s.ids ≤ id → s.ongoing id = none ∧ s.jobs id = none

private theorem cell_settle_self (s : System) (id : Id) (outcome : Outcome) :
    (s.settle id outcome).cell id = (s.cell id).settle outcome := by
  cases outcome <;> simp [settle, cell, Cell.settle]

private theorem cell_settle_other (s : System) {id other : Id} (different : other ≠ id)
    (outcome : Outcome) : (s.settle id outcome).cell other = s.cell other := by
  cases outcome <;> simp [settle, cell, different]

/-- A step other than `add` moves at most one cell, by a step of that cell. -/
private theorem step_cell_of_ne_add {s t : System} {label : Label} (old : ∀ kind, label ≠ .add kind)
    (move : s.step label = some t) (id : Id) :
    t.cell id = s.cell id ∨
      ∃ act : Act, act.label id = label ∧ (s.cell id).step act = some (t.cell id) := by
  cases label with
  | add kind => exact absurd rfl (old kind)
  | start target =>
    simp only [step, Option.bind_eq_bind, Option.bind_eq_some_iff, Option.pure_def,
      Option.some.injEq] at move
    obtain ⟨task, present, rfl⟩ := move
    by_cases same : id = target
    · subst same
      exact Or.inr ⟨.start, rfl, by simp [Cell.step, cell, present]⟩
    · exact Or.inl (by simp [cell, same])
  | report op =>
    simp only [step] at move
    split at move
    · cases move
    · next dirty =>
      simp only [Option.bind_eq_bind, Option.bind_eq_some_iff, Option.pure_def,
        Option.some.injEq] at move
      obtain ⟨job, present, next, taken, rfl⟩ := move
      by_cases same : id = op.id
      · subst same
        refine Or.inr ⟨.report op.out, rfl, ?_⟩
        simp [Cell.step, cell, dirty, present, taken]
      · exact Or.inl (by simp [cell, same, Ne.symm same])
  | op =>
    simp only [step] at move
    split at move
    · cases move
    · next op ops queued =>
      by_cases same : id = op.id
      · subst same
        refine Or.inr ⟨.op, rfl, ?_⟩
        split at move
        · next absent =>
          cases move
          simp [Cell.step, cell, queued, absent]
        · next task present =>
          cases move
          rw [cell_settle_self]
          simp [Cell.step, cell, queued, present]
      · left
        split at move
        · cases move
          simp [cell, queued, Ne.symm same]
        · cases move
          rw [cell_settle_other _ same]
          simp [cell, queued, Ne.symm same]
  | cancel target force =>
    simp only [step] at move
    by_cases same : id = target
    · subst same
      refine Or.inr ⟨.cancel force, rfl, ?_⟩
      split at move
      · next absent =>
        cases move
        simp [Cell.step, cell, absent]
      · next task present =>
        cases move
        rw [cell_settle_self]
        simp [Cell.step, cell, present]
    · left
      split at move
      · cases move
        rfl
      · cases move
        exact cell_settle_other _ same _
  | take target hook =>
    simp only [step] at move
    split at move
    · next queued =>
      by_cases same : id = target
      · subst same
        refine Or.inr ⟨.take hook, rfl, ?_⟩
        split at move
        · next present =>
          cases move
          simp [Cell.step, cell, queued, present]
        · next absent =>
          cases move
          simp [Cell.step, cell, queued, absent]
      · left
        split at move <;> cases move <;> simp [cell, same]
    · cases move
  | finish target hook result =>
    simp only [step] at move
    split at move
    · next busy =>
      cases move
      by_cases same : id = target
      · subst same
        exact Or.inr ⟨.finish hook result, rfl, by simp [Cell.step, cell, busy]⟩
      · exact Or.inl (by simp [cell, same, Ne.symm same])
    · cases move

/-- A step moves at most one cell, by a step of that cell. -/
theorem step_cell {s t : System} {label : Label} (fresh : s.Fresh)
    (move : s.step label = some t) (id : Id) :
    t.cell id = s.cell id ∨
      ∃ act : Act, act.label id = label ∧ (s.cell id).step act = some (t.cell id) := by
  cases label with
  | add kind =>
    cases move
    by_cases same : id = s.ids
    · subst same
      obtain ⟨absent, idle⟩ := fresh s.ids (Nat.le_refl _)
      exact Or.inr ⟨.add kind, rfl, by simp [Cell.step, cell, absent, idle]⟩
    · exact Or.inl (by simp [cell, same])
  | _ => exact step_cell_of_ne_add (by simp) move id

/-- Only `add` starts the work of a task. -/
private theorem step_blank {c d : Cell} {act : Act} (old : ∀ kind, act ≠ .add kind)
    (blank : c.entry = none ∧ c.job = none) (move : c.step act = some d) :
    d.entry = none ∧ d.job = none := by
  obtain ⟨absent, idle⟩ := blank
  cases act with
  | add kind => exact absurd rfl (old kind)
  | start => simp [Cell.step, absent] at move
  | report out => simp [Cell.step, idle] at move
  | op =>
    simp only [Cell.step, absent] at move
    split at move
    · cases move
    · cases move
      exact ⟨rfl, idle⟩
  | cancel force =>
    simp only [Cell.step, absent] at move
    cases move
    exact ⟨absent, idle⟩
  | take hook =>
    simp only [Cell.step, absent] at move
    split at move
    · cases move
      exact ⟨rfl, idle⟩
    · cases move
  | finish hook result =>
    simp only [Cell.step] at move
    split at move
    · cases move
      exact ⟨absent, idle⟩
    · cases move

private theorem step_ids {s t : System} {label : Label} (old : ∀ kind, label ≠ .add kind)
    (move : s.step label = some t) : t.ids = s.ids := by
  have settled (s : System) (id : Id) (outcome : Outcome) : (s.settle id outcome).ids = s.ids := by
    cases outcome <;> rfl
  cases label with
  | add kind => exact absurd rfl (old kind)
  | start id =>
    simp only [step, Option.bind_eq_bind, Option.bind_eq_some_iff, Option.pure_def,
      Option.some.injEq] at move
    obtain ⟨_, _, rfl⟩ := move
    rfl
  | report op =>
    simp only [step] at move
    split at move
    · cases move
    · simp only [Option.bind_eq_bind, Option.bind_eq_some_iff, Option.pure_def,
        Option.some.injEq] at move
      obtain ⟨_, _, _, _, rfl⟩ := move
      rfl
  | op =>
    simp only [step] at move
    repeat' split at move
    all_goals cases move
    · rfl
    · exact settled ..
  | cancel id force =>
    simp only [step] at move
    split at move <;> cases move
    · rfl
    · exact settled ..
  | take id hook =>
    simp only [step] at move
    repeat' split at move
    all_goals cases move
    · rfl
    · rfl
  | finish id hook result =>
    simp only [step] at move
    split at move <;> cases move
    rfl

theorem fresh_step {s t : System} {label : Label} (fresh : s.Fresh)
    (move : s.step label = some t) : t.Fresh := by
  intro id unused
  cases label with
  | add kind =>
    cases move
    have above : s.ids + 1 ≤ id := unused
    have different : id ≠ s.ids := Nat.ne_of_gt above
    simpa [different] using fresh id (Nat.le_of_succ_le above)
  | _ =>
    rw [step_ids (by simp) move] at unused
    rcases step_cell_of_ne_add (by simp) move id with same | ⟨act, named, moved⟩
    · exact ⟨(congrArg Cell.entry same).trans (fresh id unused).1,
        (congrArg Cell.job same).trans (fresh id unused).2⟩
    · exact step_blank (by rintro kind rfl; cases named) (fresh id unused) moved

/-- A run of the scheduler is a run of each of its cells. -/
theorem run_cell {s t : System} {labels : List Label} (fresh : s.Fresh)
    (run : Run step s labels t) (id : Id) :
    ∃ acts, Run Cell.step (s.cell id) acts (t.cell id) ∧ ∀ act ∈ acts, act.label id ∈ labels :=
  run.project (cell · id) (Act.label id) (fun _ _ _ fresh move => fresh_step fresh move)
    (fun _ _ _ fresh move => step_cell fresh move id) fresh

end System
end Yazi.Scheduler
