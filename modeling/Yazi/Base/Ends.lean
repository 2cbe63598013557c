import Mathlib.Data.List.Infix

/-!
A list that is taken from at both ends.

What is left after any calls is a stretch of the list. A program that takes the same elements from
something else, call by call, does so over every run.
-/
namespace Yazi.Base

/-- The end that an element is taken from. -/
inductive End where
  | front
  | back
  deriving DecidableEq, Repr

namespace Ends

variable {α β σ : Type}

def pop (l : List α) : End → Option α × List α
  | .front => (l.head?, l.tail)
  | .back => (l.getLast?, l.dropLast)

/-- Runs a step over several calls: their results, and the last state. -/
def run (step : σ → End → Option α × σ) (s : σ) : List End → List (Option α) × σ
  | [] => ([], s)
  | call :: calls =>
    let (taken, s) := step s call
    let (rest, s) := run step s calls
    (taken :: rest, s)

/-- From the front alone everything comes out in its order. -/
theorem run_front (l : List α) :
    run pop l (List.replicate l.length .front) = (l.map some, []) := by
  induction l with
  | nil => rfl
  | cons a l ih =>
    rw [List.length_cons, List.replicate_succ, run]
    simp only [pop, List.tail_cons, List.head?_cons, ih, List.map_cons]

/-- What takes the same elements in every step takes the same ones in a run. -/
theorem run_simulates {step : σ → End → Option α × σ} {R : σ → List α → Prop}
    (simulates : ∀ s l call, R s l → (step s call).1 = (pop l call).1 ∧ R (step s call).2 (pop l call).2)
    {s : σ} {l : List α} (related : R s l) (calls : List End) :
    (run step s calls).1 = (run pop l calls).1 ∧ R (run step s calls).2 (run pop l calls).2 := by
  induction calls generalizing s l with
  | nil => exact ⟨rfl, related⟩
  | cons call calls ih =>
    obtain ⟨same, after⟩ := simulates s l call related
    obtain ⟨same', after'⟩ := ih after
    exact ⟨congrArg₂ List.cons same same', after'⟩

end Ends

end Yazi.Base
