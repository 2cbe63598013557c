import Mathlib.Logic.Function.Basic

/-!
# Runs of labelled transition functions

A system is a partial step function: a label that is not enabled in a state has
no successor. `Run` closes it under sequences of labels. The rules are the usual
ones: composition, and the two invariant rules, with and without a condition on
the steps that are taken.
-/
namespace Yazi.Base

variable {State Label : Type}

/-- Performing `labels` in order leads from the first state to the last. -/
inductive Run (step : State → Label → Option State) : State → List Label → State → Prop where
  | nil (s : State) : Run step s [] s
  | cons {s t u : State} {a : Label} {labels : List Label} :
      step s a = some t → Run step t labels u → Run step s (a :: labels) u

/-- The step function restricted to the steps that meet a condition. -/
def restrict (step : State → Label → Option State) (ok : State → Label → Bool) :
    State → Label → Option State :=
  fun s a => if ok s a then step s a else none

namespace Run

variable {step : State → Label → Option State} {s t u : State} {first rest : List Label}

theorem append (head : Run step s first t) (tail : Run step t rest u) :
    Run step s (first ++ rest) u := by
  induction head with
  | nil => exact tail
  | cons move _ ih => exact cons move (ih tail)

/-- What every step preserves, every run preserves. -/
theorem invariant {P : State → Prop} (run : Run step s first t)
    (preserved : ∀ s a t, P s → step s a = some t → P t) (initial : P s) : P t := by
  induction run with
  | nil => exact initial
  | cons move _ ih => exact ih (preserved _ _ _ initial move)

/-- As `invariant`, for a property that only the labels of the run must preserve. -/
theorem invariant_of_labels {P : State → Prop} (run : Run step s first t)
    (preserved : ∀ s a t, a ∈ first → P s → step s a = some t → P t) (initial : P s) : P t := by
  induction run with
  | nil => exact initial
  | cons move _ ih =>
    apply ih
    · intro s a t member
      exact preserved s a t (List.mem_cons_of_mem _ member)
    · exact preserved _ _ _ (List.mem_cons_self ..) initial move

/-- As `invariant`, for a property that is also about what was done so far. -/
theorem invariant_of_past {P : List Label → State → Prop} (run : Run step s first t)
    (preserved : ∀ past u a v, Run step s past u → P past u → step u a = some v → P (past ++ [a]) v)
    (initial : P [] s) : P first t := by
  have all {past labels : List Label} {u v : State} (before : Run step s past u)
      (run : Run step u labels v) (known : P past u) : P (past ++ labels) v := by
    induction run generalizing past with
    | nil => rwa [List.append_nil]
    | @cons u w v a labels move _ ih =>
      rw [List.append_cons]
      exact ih (before.append (.cons move (.nil w))) (preserved past u a w before known move)
  exact all (.nil s) run initial

/-- A restricted run is a run. -/
theorem of_restrict {ok : State → Label → Bool} (run : Run (restrict step ok) s first t) :
    Run step s first t := by
  induction run with
  | nil => exact nil _
  | cons move _ ih =>
    simp only [restrict] at move
    split at move
    · exact cons move ih
    · cases move

/-- A run of a system, seen through a view that every step either leaves alone or moves as a
step of the smaller system, is a run of the smaller system. `P` is an invariant of the run. -/
theorem project {View Act : Type} {move : View → Act → Option View} {P : State → Prop}
    (view : State → View) (label : Act → Label)
    (preserved : ∀ s a t, P s → step s a = some t → P t)
    (moves : ∀ s a t, P s → step s a = some t →
      view t = view s ∨ ∃ b, label b = a ∧ move (view s) b = some (view t))
    (run : Run step s first t) (initial : P s) :
    ∃ acts, Run move (view s) acts (view t) ∧ ∀ b ∈ acts, label b ∈ first := by
  induction run with
  | nil => exact ⟨[], nil _, nofun⟩
  | cons first _ ih =>
    obtain ⟨acts, run, named⟩ := ih (preserved _ _ _ initial first)
    rcases moves _ _ _ initial first with same | ⟨b, rfl, moved⟩
    · rw [← same]
      exact ⟨acts, run, fun b member => List.mem_cons_of_mem _ (named b member)⟩
    · refine ⟨b :: acts, cons moved run, ?_⟩
      intro c member
      rcases List.mem_cons.mp member with rfl | member
      · exact List.mem_cons_self ..
      · exact List.mem_cons_of_mem _ (named c member)

end Run

theorem restrict_eq_some {step : State → Label → Option State} {ok : State → Label → Bool}
    {s t : State} {a : Label} (move : restrict step ok s a = some t) :
    ok s a = true ∧ step s a = some t := by
  simp only [restrict] at move
  split at move
  next allowed => exact ⟨allowed, move⟩
  next => cases move

theorem restrict_of {step : State → Label → Option State} {ok : State → Label → Bool}
    {s t : State} {a : Label} (allowed : ok s a = true) (move : step s a = some t) :
    restrict step ok s a = some t := by
  rw [restrict, if_pos allowed, move]

/-- The states that a run goes through, its first and its last among them. -/
def Throughout (step : State → Label → Option State) (P : State → Prop) (s : State)
    (labels : List Label) : Prop :=
  ∀ first rest t, labels = first ++ rest → Run step s first t → P t

/-- Where exactly the steps that do not meet the condition break a property, it holds all
along a run if and only if all steps meet the condition. -/
theorem throughout_iff {step : State → Label → Option State} {ok : State → Label → Bool}
    {P Q : State → Prop} (preserved : ∀ s a t, Q s → step s a = some t → Q t)
    (kept : ∀ s a t, Q s → P s → step s a = some t → (P t ↔ ok s a = true))
    {s u : State} {labels : List Label} (run : Run step s labels u) (inv : Q s) (initial : P s) :
    Throughout step P s labels ↔ Run (restrict step ok) s labels u := by
  induction run with
  | nil s =>
    refine ⟨fun _ => .nil s, fun _ first rest t whole run => ?_⟩
    obtain ⟨rfl, -⟩ := List.append_eq_nil_iff.mp whole.symm
    cases run
    exact initial
  | @cons s t u a labels move _ ih =>
    constructor
    · intro all
      have next := all [a] labels t rfl (.cons move (.nil t))
      have allowed := (kept s a t inv initial move).mp next
      refine .cons (restrict_of allowed move) ((ih (preserved s a t inv move) next).mp ?_)
      intro first rest v whole run
      exact all (a :: first) rest v (congrArg (a :: ·) whole) (.cons move run)
    · intro restricted first rest v whole run
      cases restricted with
      | cons move' tail =>
        obtain ⟨allowed, same⟩ := restrict_eq_some move'
        cases move.symm.trans same
        have next := (kept s a t inv initial move).mpr allowed
        cases run with
        | nil => exact initial
        | cons step' run =>
          cases whole
          cases move.symm.trans step'
          exact (ih (preserved s a t inv move) next).mpr tail _ rest v rfl run

/-- Performing one label after the other leads through all these states, without end. -/
def Endless (step : State → Label → Option State) (states : Nat → State) (labels : Nat → Label) :
    Prop :=
  ∀ i, step (states i) (labels i) = some (states (i + 1))

/-- A measure that falls with every step but those that wait leads to the goal, if it is not
always waited from some time on. Steps that may raise it do no harm if they cease. -/
theorem Endless.reaches {step : State → Label → Option State} {states : Nat → State}
    {labels : Nat → Label} (run : Endless step states labels) {P goal : State → Prop}
    {waits : State → Label → Bool} {raises : Label → Bool} (measure : State → Nat)
    (preserved : ∀ s a t, P s → step s a = some t → P t)
    (falls : ∀ s a t, P s → step s a = some t → raises a = false →
      goal t ∨ if waits s a then measure t ≤ measure s else measure t < measure s)
    (initial : P (states 0)) (fair : ∀ i, ∃ j, i ≤ j ∧ waits (states j) (labels j) = false)
    (ceased : ∃ n, ∀ i, n ≤ i → raises (labels i) = false) : ∃ i, goal (states i) := by
  obtain ⟨n, calm⟩ := ceased
  have inv : ∀ i, P (states i) := by
    intro i
    induction i with
    | zero => exact initial
    | succ i ih => exact preserved _ _ _ ih (run i)
  by_contra never
  have falls (i : Nat) (late : n ≤ i) := (falls _ _ _ (inv i) (run i) (calm i late)).resolve_left
    fun reached => never ⟨i + 1, reached⟩
  have steady : ∀ k i, n ≤ i → measure (states (i + k)) ≤ measure (states i) := by
    intro k i late
    induction k with
    | zero => exact Nat.le_refl _
    | succ k ih =>
      have next := falls (i + k) (by omega)
      split at next
      · exact Nat.le_trans next ih
      · exact Nat.le_trans (Nat.le_of_lt next) ih
  -- From any time on it falls once more.
  have below : ∀ m i, n ≤ i → measure (states i) ≠ m := by
    intro m
    induction m using Nat.strongRecOn with
    | ind m ih =>
      intro i late same
      obtain ⟨j, later, moves⟩ := fair i
      have less := falls j (by omega)
      rw [moves, if_neg Bool.false_ne_true] at less
      have before := steady (j - i) i late
      rw [Nat.add_sub_cancel' later] at before
      exact ih _ (by omega) (j + 1) (by omega) rfl
  exact below _ n (Nat.le_refl n) rfl

/-- The state after performing every label in order, when all of them are enabled. -/
def exec (step : State → Label → Option State) : State → List Label → Option State
  | s, [] => some s
  | s, a :: labels => (step s a).bind fun t => exec step t labels

@[simp] theorem exec_append (step : State → Label → Option State) (s : State)
    (first rest : List Label) :
    exec step s (first ++ rest) = (exec step s first).bind (exec step · rest) := by
  induction first generalizing s with
  | nil => rfl
  | cons a first ih =>
    simp only [List.cons_append, exec, Option.bind_assoc]
    exact Option.bind_congr fun t _ => ih t

theorem run_of_exec {step : State → Label → Option State} {s t : State} {labels : List Label}
    (reached : exec step s labels = some t) : Run step s labels t := by
  induction labels generalizing s with
  | nil =>
    cases reached
    exact .nil _
  | cons a labels ih =>
    cases move : step s a with
    | none => simp [exec, move] at reached
    | some next => exact .cons move (ih (by simpa [exec, move] using reached))

theorem run_exec {step : State → Label → Option State} {s : State} {labels : List Label}
    (enabled : (exec step s labels).isSome = true) :
    Run step s labels ((exec step s labels).get enabled) :=
  run_of_exec (Option.some_get enabled).symm

/-- Where a step fails exactly under some condition, a run comes to its end if and only if the
condition is met nowhere on the way. -/
theorem exec_isSome_iff {step : State → Label → Option State} {Q : State → Prop}
    {fails : State → Label → Prop}
    (steps : ∀ s a, Q s → match step s a with | none => fails s a | some t => ¬fails s a ∧ Q t)
    {s : State} (initial : Q s) (labels : List Label) :
    (exec step s labels).isSome = true ↔ ∀ before a after t, labels = before ++ a :: after →
      exec step s before = some t → ¬fails t a := by
  induction labels generalizing s with
  | nil =>
    refine ⟨fun _ before a after t whole => ?_, fun _ => rfl⟩
    exact absurd whole.symm (List.append_ne_nil_of_right_ne_nil before (List.cons_ne_nil a after))
  | cons a labels ih =>
    have first := steps s a initial
    cases move : step s a with
    | none =>
      rw [move] at first
      constructor
      · intro ends
        simp [exec, move] at ends
      · intro nowhere
        exact absurd first (nowhere [] a labels s rfl rfl)
    | some next =>
      rw [move] at first
      have rest : exec step s (a :: labels) = exec step next labels := by
        rw [exec, move, Option.bind_some]
      rw [rest, ih first.2]
      constructor
      · intro nowhere before b after t whole reached
        cases before with
        | nil =>
          cases whole
          cases reached
          exact first.1
        | cons c before =>
          cases whole
          rw [exec, move, Option.bind_some] at reached
          exact nowhere before b after t rfl reached
      · intro nowhere before b after t whole reached
        apply nowhere (a :: before) b after t (congrArg (a :: ·) whole)
        rw [exec, move, Option.bind_some, reached]

end Yazi.Base
