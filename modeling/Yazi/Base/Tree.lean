import Mathlib.Data.List.Infix
import Yazi.Base.Assoc

/-!
Trees as maps from paths to nodes, and moving what is at one path to another.
-/
namespace Yazi.Base

/-- A node for every path that is there. -/
abbrev Tree (κ ν : Type) := Assoc (List κ) ν

namespace Tree

variable {κ ν : Type} [BEq (List κ)] [LawfulBEq (List κ)] [DecidableEq κ]

/-- Whatever is at the first path or below it goes to the second one, in place of what was there. -/
def move (t : Tree κ ν) (src dst : List κ) : Tree κ ν :=
  (t.filter fun e => !decide (dst <+: e.1)).map fun e =>
    if src <+: e.1 then (dst ++ e.1.drop src.length, e.2) else e

/-- There is nothing below the path. -/
def bare (t : Tree κ ν) (p : List κ) : Bool := t.all fun e => !decide (p <+: e.1) || e.1 = p

omit [BEq (List κ)] [LawfulBEq (List κ)] [DecidableEq κ] in
theorem eq_append_drop {src p : List κ} (below : src <+: p) : p = src ++ p.drop src.length :=
  (List.prefix_iff_eq_append.mp below).symm

theorem bare_iff {t : Tree κ ν} {p : List κ} (bare : t.bare p = true) {q : List κ} {n : ν}
    (found : t.get? q = some n) (below : p <+: q) : q = p := by
  obtain ⟨key, member, same⟩ := Assoc.mem_of_get? found
  obtain rfl := eq_of_beq same
  have here := List.all_eq_true.mp bare _ member
  simpa [below] using here

/-- Neither path is below the other. -/
def Apart (p q : List κ) : Prop := ¬p <+: q ∧ ¬q <+: p

omit [BEq (List κ)] [LawfulBEq (List κ)] [DecidableEq κ] in
theorem Apart.not_both {p q r : List κ} (apart : Apart p q) (below : p <+: r) : ¬q <+: r := by
  intro other
  rcases List.prefix_or_prefix_of_prefix below other with h | h
  · exact apart.1 h
  · exact apart.2 h

theorem get?_move (t : Tree κ ν) {src dst : List κ} (apart : Apart src dst) (p : List κ) :
    (t.move src dst).get? p =
      if dst <+: p then t.get? (src ++ p.drop dst.length)
      else if src <+: p then none else t.get? p := by
  induction t with
  | nil => simp [move, Assoc.get?]
  | cons e t ih =>
    obtain ⟨k, n⟩ := e
    rw [move] at ih ⊢
    by_cases under : dst <+: k
    · -- what is at the destination goes
      rw [List.filter_cons_of_neg (by simpa using under), ih]
      have elsewhere : ∀ r, src ++ r ≠ k := by
        rintro r rfl
        exact apart.not_both (List.prefix_append src r) under
      have here : ∀ r, Assoc.get? ((k, n) :: t) (src ++ r) = Assoc.get? t (src ++ r) := by
        intro r
        simp [Assoc.get?_cons, elsewhere r]
      by_cases below : dst <+: p
      · simp [below, here]
      · have other : p ≠ k := by
          rintro rfl
          exact below under
        simp [below, Assoc.get?_cons, other]
    · rw [List.filter_cons_of_pos (by simpa using under), List.map_cons]
      by_cases moves : src <+: k
      · rw [if_pos moves, Assoc.get?_cons, ih]
        have shape := eq_append_drop moves
        by_cases below : dst <+: p
        · have same : (p == dst ++ k.drop src.length) = (src ++ p.drop dst.length == k) := by
            rw [Bool.eq_iff_iff, beq_iff_eq, beq_iff_eq]
            conv_lhs => rw [eq_append_drop below]
            conv_rhs => rw [shape]
            simp
          simp [below, Assoc.get?_cons, same]
        · have other : p ≠ dst ++ k.drop src.length := by
            rintro rfl
            exact below (List.prefix_append ..)
          by_cases inside : src <+: p
          · simp [below, other, inside]
          · have different : p ≠ k := by
              rintro rfl
              exact inside moves
            simp [below, other, inside, Assoc.get?_cons, different]
      · rw [if_neg moves, Assoc.get?_cons, ih]
        have elsewhere : ∀ r, src ++ r ≠ k := by
          rintro r rfl
          exact moves (List.prefix_append ..)
        by_cases below : dst <+: p
        · have other : p ≠ k := by
            rintro rfl
            exact under below
          simp [below, other, Assoc.get?_cons, elsewhere]
        · by_cases inside : src <+: p
          · have other : p ≠ k := by
              rintro rfl
              exact moves inside
            simp [below, other, inside]
          · simp [below, inside, Assoc.get?_cons]

end Tree
end Yazi.Base
