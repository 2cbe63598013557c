import Mathlib.Data.List.Destutter

/-!
# Lists in which no element repeats the one before it

Dropping repetitions and dropping elements by a test both move the elements behind. Where an
element goes is counted on the part of the list up to it.
-/
namespace Yazi.Base

variable {α : Type}

/-! ### Elements that are kept -/

/-- A kept element stands behind the kept elements before it. -/
theorem getElem?_filter_countP {keep : α → Bool} {l : List α} {k : Nat} {x : α}
    (here : l[k]? = some x) (kept : keep x = true) :
    (l.filter keep)[(l.take k).countP keep]? = some x := by
  induction l generalizing k with
  | nil => cases here
  | cons y l ih =>
    cases k with
    | zero =>
      cases here
      simp [kept]
    | succ k =>
      have rest := ih (by simpa using here)
      rw [List.take_succ_cons, List.filter_cons, List.countP_cons]
      cases keep y <;> simpa using rest

/-- Of the elements before a place some are kept and the others are not. -/
theorem countP_take {l : List α} (keep : α → Bool) {k : Nat} (inside : k ≤ l.length) :
    (l.take k).countP keep + (l.take k).countP (fun x => !keep x) = k := by
  have total : (l.take k).length = _ := List.length_eq_countP_add_countP keep
  rw [List.length_take_of_le inside] at total
  simpa using total.symm

variable [BEq α]

/-- `Vec::dedup`. -/
def squash (l : List α) : List α := l.destutter fun a b => (b == a) = false

/-- How many elements repeat the one before them. -/
def repeats : List α → Nat
  | a :: b :: rest => (a == b).toNat + repeats (b :: rest)
  | [_] | [] => 0

/-- No element repeats the one before it. -/
def Squashed (l : List α) : Prop := l.IsChain fun a b => (b == a) = false

theorem squashed_squash (l : List α) : Squashed (squash l) := List.isChain_destutter _ l

theorem squash_sublist (l : List α) : (squash l).Sublist l := List.destutter_sublist _ l

private theorem getElem?_destutter' [EquivBEq α] {kept last : α} (same : (last == kept) = true)
    {l : List α} {k : Nat} (inside : k ≤ l.length) :
    repeats ((last :: l).take (k + 1)) ≤ k ∧ ∃ x y,
      (l.destutter' (fun a b => (b == a) = false) kept)[k - repeats ((last :: l).take (k + 1))]? =
        some x ∧ (last :: l)[k]? = some y ∧ (y == x) = true := by
  -- `kept` is the last element that was kept and `last` the one just before the list.
  induction l generalizing kept last k with
  | nil =>
    obtain rfl : k = 0 := Nat.le_zero.mp inside
    exact ⟨Nat.le_refl 0, kept, last, rfl, rfl, same⟩
  | cons b l ih =>
    have first : ∀ m : List α, (m.destutter' (fun a b => (b == a) = false) kept)[0]? = some kept := by
      intro m
      induction m with
      | nil => rfl
      | cons c m ih =>
        rw [List.destutter'_cons]
        split
        · rfl
        · exact ih
    cases k with
    | zero => exact ⟨Nat.le_refl 0, kept, last, first _, rfl, same⟩
    | succ k =>
      have inside : k ≤ l.length := Nat.le_of_succ_le_succ inside
      have count : repeats ((last :: b :: l).take (k + 1 + 1)) =
          (last == b).toNat + repeats ((b :: l).take (k + 1)) := rfl
      rw [count, List.destutter'_cons]
      cases equal : b == kept with
      | true =>
        obtain ⟨few, x, y, found, here, same'⟩ := ih equal inside
        have again : (last == b) = true := BEq.trans same (BEq.symm equal)
        have less : k + 1 - (true.toNat + repeats ((b :: l).take (k + 1))) =
            k - repeats ((b :: l).take (k + 1)) := by
          simp only [Bool.toNat_true]
          omega
        rw [again, less, if_neg (by decide)]
        exact ⟨by simp only [Bool.toNat_true]; omega, x, y, found, here, same'⟩
      | false =>
        obtain ⟨few, x, y, found, here, same'⟩ := ih (BEq.refl b) inside
        have differs : (last == b) = false := by
          rw [BEq.congr_left same, BEq.comm, equal]
        have more : k + 1 - (false.toNat + repeats ((b :: l).take (k + 1))) =
            k - repeats ((b :: l).take (k + 1)) + 1 := by
          simp only [Bool.toNat_false]
          omega
        rw [differs, more, if_pos rfl]
        exact ⟨by simp only [Bool.toNat_false]; omega, x, y, found, here, same'⟩

/-- An element moves by the repetitions up to it, and an equal one is there then. -/
theorem getElem?_squash [EquivBEq α] {l : List α} {k : Nat} {y : α} (here : l[k]? = some y) :
    repeats (l.take (k + 1)) ≤ k ∧
      ∃ x, (squash l)[k - repeats (l.take (k + 1))]? = some x ∧ (x == y) = true := by
  cases l with
  | nil => cases here
  | cons a l =>
    obtain ⟨inside, -⟩ := List.getElem?_eq_some_iff.mp here
    obtain ⟨few, x, y', found, here', same⟩ :=
      getElem?_destutter' (BEq.refl a) (Nat.le_of_lt_succ inside)
    cases here.symm.trans here'
    exact ⟨few, x, found, BEq.symm same⟩

end Yazi.Base
