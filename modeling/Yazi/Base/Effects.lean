import Mathlib.Data.List.Forall2

/-!
# Rules for computations that fail and keep what they did

A computation over a state gives a result or an error, and a state in either case. `Triple` relates
the states before to the outcomes after; the postcondition is about both, so that also what is left
by a failure is known.
-/
namespace Yazi.Base

universe u

variable {σ ε α β : Type u}

/-- The result or the error of a computation, and the state that it leaves. -/
def outcome (x : EStateM ε σ α) (s : σ) : Except ε α × σ :=
  match x s with
  | .ok a t => (.ok a, t)
  | .error e t => (.error e, t)

/-- A failure is a result, and what was done stays done. -/
def attempt (x : EStateM ε σ α) : EStateM ε σ (Except ε α) := fun s =>
  match x s with
  | .ok a t => .ok (.ok a) t
  | .error e t => .ok (.error e) t

/-- From every state of the precondition the outcome is one of the postcondition. -/
def Triple (P : σ → Prop) (x : EStateM ε σ α) (Q : Except ε α → σ → Prop) : Prop :=
  ∀ s, P s → Q (outcome x s).1 (outcome x s).2

/-- Whatever comes out, the relation to the state before is kept. -/
def Keeps (R : σ → σ → Prop) (x : EStateM ε σ α) : Prop :=
  ∀ s, Triple (R s) x fun _ => R s

/-- An error is no result, so anything holds of the result. -/
theorem of_error {e : ε} {P : α → Prop} (a : α) (same : (.error e : Except ε α) = .ok a) : P a := by
  cases same

theorem outcome_bind (x : EStateM ε σ α) (f : α → EStateM ε σ β) (s : σ) :
    outcome (x >>= f) s =
      match outcome x s with
      | (.ok a, t) => outcome (f a) t
      | (.error e, t) => (.error e, t) := by
  simp only [outcome, bind, EStateM.bind]
  cases x s <;> rfl

theorem outcome_attempt (x : EStateM ε σ α) (s : σ) :
    outcome (attempt x) s = (.ok (outcome x s).1, (outcome x s).2) := by
  simp only [outcome, attempt]
  cases x s <;> rfl

namespace Triple

variable {P P' : σ → Prop} {Q Q' : Except ε α → σ → Prop} {x : EStateM ε σ α}

theorem mono (triple : Triple P x Q) (pre : ∀ s, P' s → P s) (post : ∀ r s, Q r s → Q' r s) :
    Triple P' x Q' := fun s before => post _ _ (triple s (pre s before))

theorem pure {a : α} (post : ∀ s, P s → Q (.ok a) s) : Triple P (pure a) Q := post

theorem throw {e : ε} (post : ∀ s, P s → Q (.error e) s) : Triple P (throw e) Q := post

theorem bind {f : α → EStateM ε σ β} {R : Except ε β → σ → Prop} (first : Triple P x Q)
    (next : ∀ a, Triple (Q (.ok a)) (f a) R) (fails : ∀ e s, Q (.error e) s → R (.error e) s) :
    Triple P (x >>= f) R := by
  intro s before
  have here := first s before
  rw [outcome_bind]
  revert here
  generalize outcome x s = done
  obtain ⟨result, t⟩ := done
  cases result with
  | error e => exact fails e t
  | ok a => exact next a t

/-- A fact that no state changes is known throughout. -/
theorem of_and {K : Prop} (triple : K → Triple P x Q) : Triple (fun s => P s ∧ K) x Q :=
  fun s before => triple before.2 s before.1

/-- What is made of the result or the error. -/
theorem bindAttempt {f : Except ε α → EStateM ε σ β} {R : Except ε β → σ → Prop}
    (first : Triple P x Q) (next : ∀ r, Triple (Q r) (f r) R) : Triple P (Base.attempt x >>= f) R := by
  intro s before
  rw [outcome_bind, outcome_attempt]
  exact next _ _ (first s before)

theorem ite {c : Prop} [Decidable c] {y : EStateM ε σ α} (yes : c → Triple P x Q)
    (no : ¬c → Triple P y Q) : Triple P (if c then x else y) Q := by
  by_cases h : c
  · rw [if_pos h]
    exact yes h
  · rw [if_neg h]
    exact no h

/-- A loop: what is known of the elements that are done holds at every turn. -/
theorem forM {l : List α} {f : α → EStateM ε σ PUnit} {I : List α → σ → Prop}
    {E : ε → σ → Prop} (turn : ∀ done a rest, l = done ++ a :: rest →
      Triple (I done) (f a) fun r s => match r with
        | .ok _ => I (done ++ [a]) s
        | .error e => E e s) :
    Triple (I []) (l.forM f) fun r s => match r with
      | .ok _ => I l s
      | .error e => E e s := by
  have all (done rest : List α) (whole : l = done ++ rest) :
      Triple (I done) (rest.forM f) fun r s => match r with
        | .ok _ => I l s
        | .error e => E e s := by
    induction rest generalizing done with
    | nil =>
      rw [List.append_nil] at whole
      subst whole
      exact Triple.pure fun _ known => known
    | cons a rest ih =>
      refine Triple.bind (turn done a rest whole) (fun _ => ?_) fun _ _ known => known
      exact ih (done ++ [a]) (whole.trans (List.append_cons done a rest))
  exact all [] l rfl

/-- What is known of each result where all of them are there. -/
theorem mapM {l : List α} {f : α → EStateM ε σ β} {good : α → β → Prop}
    (each : ∀ a ∈ l, Triple P (f a) fun r s => P s ∧ ∀ b, r = .ok b → good a b) :
    Triple P (l.mapM f) fun r s => P s ∧ ∀ bs, r = .ok bs → List.Forall₂ good l bs := by
  induction l with
  | nil =>
    refine Triple.pure fun s known => ⟨known, fun bs same => ?_⟩
    cases same
    exact .nil
  | cons a l ih =>
    obtain ⟨here, others⟩ := List.forall_mem_cons.mp each
    rw [List.mapM_cons]
    refine Triple.bind here (fun b => ?_) fun e s known => ⟨known.1, of_error⟩
    refine of_and fun known => ?_
    refine Triple.bind (ih others) (fun bs => ?_) fun e s known => ⟨known.1, of_error⟩
    refine Triple.pure fun s later => ⟨later.1, fun all same => ?_⟩
    cases same
    exact .cons (known b rfl) (later.2 bs rfl)

end Triple

namespace Keeps

variable {R : σ → σ → Prop} {x : EStateM ε σ α}

theorem pure (a : α) : Keeps R (Pure.pure a : EStateM ε σ α) := fun _ => Triple.pure fun _ kept => kept

theorem throw (e : ε) : Keeps R (MonadExcept.throw e : EStateM ε σ α) :=
  fun _ => Triple.throw fun _ kept => kept

theorem bind {f : α → EStateM ε σ β} (first : Keeps R x) (next : ∀ a, Keeps R (f a)) :
    Keeps R (x >>= f) :=
  fun s => Triple.bind (first s) (fun a => next a s) fun _ _ kept => kept

theorem attempt (keeps : Keeps R x) : Keeps R (Base.attempt x) := by
  intro s t before
  rw [outcome_attempt]
  exact keeps s t before

theorem ite {c : Prop} [Decidable c] {y : EStateM ε σ α} (yes : Keeps R x) (no : Keeps R y) :
    Keeps R (if c then x else y) := fun s => Triple.ite (fun _ => yes s) fun _ => no s

theorem forM {l : List α} {f : α → EStateM ε σ PUnit} (turn : ∀ a ∈ l, Keeps R (f a)) :
    Keeps R (l.forM f) := by
  induction l with
  | nil => exact Keeps.pure _
  | cons a l ih =>
    obtain ⟨here, others⟩ := List.forall_mem_cons.mp turn
    exact Keeps.bind here fun _ => ih others

/-- From related states to related states, where the relation is reflexive. -/
theorem outcome (keeps : Keeps R x) (s : σ) (refl : R s s) : R s (outcome x s).2 := keeps s s refl

theorem mono {R' : σ → σ → Prop} (keeps : Keeps R x) (weaker : ∀ s t, R s t → R' s t)
    (refl : ∀ s, R s s) (trans : ∀ s t u, R' s t → R' t u → R' s u) : Keeps R' x := by
  intro s t before
  exact trans s t _ before (weaker t _ (keeps t t (refl t)))

end Keeps

end Yazi.Base
