import Mathlib.Data.List.Basic

/-!
Replacing a pattern in a text, from the left.

In a text of blocks, each a symbol on its own or a mark with as many symbols as the pattern has,
only whole blocks can match.
-/
namespace Yazi.Base

variable {α : Type} [DecidableEq α]

/-- What matches is passed over. The pattern has a symbol at least. -/
def substitute (pat out : List α) : List α → List α
  | [] => []
  | a :: l =>
    if pat.isPrefixOf (a :: l) then out ++ substitute pat out (l.drop (pat.length - 1))
    else a :: substitute pat out l
termination_by l => l.length
decreasing_by
  · exact Nat.lt_succ_of_le (by rw [List.length_drop]; exact Nat.sub_le _ _)
  · exact Nat.lt_succ_self _

variable {mark : α} {tail out : List α}

/-- Without the mark nothing matches. -/
theorem substitute_append {l : List α} (clean : mark ∉ l) (rest : List α) :
    substitute (mark :: tail) out (l ++ rest) = l ++ substitute (mark :: tail) out rest := by
  induction l with
  | nil => rfl
  | cons a l ih =>
    obtain ⟨other, clean⟩ := not_or.mp (List.mem_cons.not.mp clean)
    have starts : ¬(mark :: tail).isPrefixOf (a :: (l ++ rest)) = true := by
      rw [List.isPrefixOf_iff_prefix, List.cons_prefix_cons]
      exact fun h => other h.1
    rw [List.cons_append, substitute, if_neg starts, ih clean, List.cons_append]

/-- A block that matches, or one of the same length that does not. -/
theorem substitute_marked {t : List α} (clean : mark ∉ t) (length : t.length = tail.length)
    (rest : List α) :
    substitute (mark :: tail) out (mark :: t ++ rest) =
      (if t = tail then out else mark :: t) ++ substitute (mark :: tail) out rest := by
  rw [List.cons_append, substitute]
  split
  · next same =>
    rw [List.isPrefixOf_iff_prefix, List.cons_prefix_cons] at same
    have begins := List.prefix_of_prefix_length_le same.2 (List.prefix_append t rest) (Nat.le_of_eq length.symm)
    have whole : tail = t := begins.eq_of_length length.symm
    rw [if_pos whole.symm, List.length_cons, Nat.add_sub_cancel, ← length, List.drop_left]
  · next different =>
    have other : t ≠ tail := by
      rintro rfl
      exact different (List.isPrefixOf_iff_prefix.mpr ⟨rest, rfl⟩)
    rw [if_neg other, substitute_append clean, List.cons_append]

/-- A block of a text in which a mark begins a code. -/
def Block (mark : α) (n : Nat) (b : List α) : Prop :=
  (∃ a, a ≠ mark ∧ b = [a]) ∨ ∃ t, mark ∉ t ∧ t.length = n ∧ b = mark :: t

theorem substitute_flatMap {β : Type} {code : β → List α}
    (block : ∀ b, Block mark tail.length (code b)) (l : List β) :
    substitute (mark :: tail) out (l.flatMap code) =
      l.flatMap fun b => if code b = mark :: tail then out else code b := by
  induction l with
  | nil => rw [List.flatMap_nil, List.flatMap_nil, substitute]
  | cons b l ih =>
    rw [List.flatMap_cons, List.flatMap_cons]
    rcases block b with ⟨a, other, single⟩ | ⟨t, clean, length, marked⟩
    · have different : code b ≠ mark :: tail := by
        rw [single]
        exact fun same => other (List.cons.inj same).1
      rw [if_neg different, single, substitute_append (by simpa using other.symm), ih]
    · rw [marked, substitute_marked clean length, ih]
      simp only [List.cons.injEq, true_and]

end Yazi.Base
