import Mathlib.Data.List.Nodup
import Mathlib.Data.List.Pairwise
import Mathlib.Data.List.Sort
import Yazi.Base.Keyed

/-!
# The order of lists without duplicates

A list without duplicates fixes an order of its elements, and its sublists are what keeps that
order. Swap removal keeps it only near the end; a sort by stamps brings back the order in which
the stamps were given, if no two are the same.
-/
namespace Yazi.Base

variable {α β : Type}

/-- Two elements stand in one order. -/
theorem not_both_sublists {a b : α} {l : List α} (nodup : l.Nodup)
    (first : List.Sublist [a, b] l) (second : List.Sublist [b, a] l) : False := by
  induction l with
  | nil => cases first
  | cons x l ih =>
    obtain ⟨fresh, nodup⟩ := List.nodup_cons.mp nodup
    cases first with
    | cons _ first =>
      cases second with
      | cons _ second => exact ih nodup first second
      | cons_cons _ _ => exact fresh (first.subset (by simp))
    | cons_cons _ first =>
      cases second with
      | cons _ second => exact fresh (second.subset (by simp))
      | cons_cons _ second => exact fresh (second.subset (by simp))

/-- Two elements stand in one order or the other. -/
theorem pair_sublist_or {a b : α} {l : List α} (left : a ∈ l) (right : b ∈ l) (apart : a ≠ b) :
    List.Sublist [a, b] l ∨ List.Sublist [b, a] l := by
  induction l with
  | nil => cases left
  | cons x l ih =>
    rcases List.mem_cons.mp left with rfl | inLeft
    · rcases List.mem_cons.mp right with same | inRight
      · exact absurd same.symm apart
      · exact .inl (.cons_cons a (List.singleton_sublist.mpr inRight))
    · rcases List.mem_cons.mp right with rfl | inRight
      · exact .inr (.cons_cons b (List.singleton_sublist.mpr inLeft))
      · exact (ih inLeft inRight).imp (.cons _) (.cons _)

/-- Membership by equality, where the elements have a coarser Boolean equality of their own. -/
def among [DecidableEq α] (l : List α) (a : α) : Bool :=
  l.any fun b => decide (b = a)

theorem among_iff [DecidableEq α] {l : List α} {a : α} : among l a = true ↔ a ∈ l := by
  rw [among, List.any_eq_true]
  simp only [decide_eq_true_eq, exists_eq_right]

theorem eq_filter_of_sublist [DecidableEq α] {l whole : List α} (nodup : whole.Nodup)
    (sub : l.Sublist whole) : l = whole.filter (among l) := by
  induction sub with
  | slnil => rfl
  | @cons l whole x sub ih =>
    obtain ⟨fresh, nodup⟩ := List.nodup_cons.mp nodup
    have outside : ¬ among l x = true := fun member => fresh (sub.subset (among_iff.mp member))
    rw [List.filter_cons_of_neg outside]
    exact ih nodup
  | @cons_cons l whole x sub ih =>
    obtain ⟨fresh, nodup⟩ := List.nodup_cons.mp nodup
    rw [List.filter_cons_of_pos (among_iff.mpr List.mem_cons_self), List.cons.injEq]
    refine ⟨rfl, (ih nodup).trans (List.filter_congr ?_)⟩
    intro y member
    have apart : y ≠ x := fun same => fresh (same ▸ member)
    rw [Bool.eq_iff_iff, among_iff, among_iff, List.mem_cons]
    exact ⟨.inr, fun either => either.resolve_left apart⟩

/-- A sublist is determined by its members. -/
theorem eq_of_sublists_perm [DecidableEq α] {l m whole : List α} (nodup : whole.Nodup)
    (left : l.Sublist whole) (right : m.Sublist whole) (perm : l.Perm m) : l = m := by
  rw [eq_filter_of_sublist nodup left, eq_filter_of_sublist nodup right]
  refine List.filter_congr fun x _ => ?_
  rw [Bool.eq_iff_iff, among_iff, among_iff, perm.mem_iff]

/-! ### Swap removal -/

/-- The last element in the place of the one before the list. -/
def rotated : List α → List α
  | [] => []
  | a :: l => (a :: l).getLastD a :: (a :: l).dropLast

theorem rotated_concat (l : List α) (a : α) : rotated (l ++ [a]) = a :: l := by
  cases l with
  | nil => rfl
  | cons b l =>
    rw [List.cons_append, rotated, ← List.cons_append, List.dropLast_concat,
      List.getLastD_eq_getLast?, List.getLast?_concat, Option.getD_some]

theorem swapRemove_eq_some {p : α → Bool} {l rest : List α} (removed : swapRemove p l = some rest) :
    ∃ before a after, l = before ++ a :: after ∧ p a = true ∧ rest = before ++ rotated after := by
  induction l generalizing rest with
  | nil => cases removed
  | cons x l ih =>
    rw [swapRemove] at removed
    split at removed
    · next asked =>
      cases removed
      refine ⟨[], x, l, rfl, asked, ?_⟩
      rcases l.eq_nil_or_concat with rfl | ⟨lead, last, rfl⟩
      · rfl
      · simp [rotated_concat]
    · obtain ⟨rest', found, rfl⟩ := Option.map_eq_some_iff.mp removed
      obtain ⟨before, a, after, rfl, asked, rfl⟩ := ih found
      exact ⟨x :: before, a, after, rfl, asked, rfl⟩

theorem swapRemove_eq_none {p : α → Bool} {l : List α} :
    swapRemove p l = none ↔ ∀ a ∈ l, p a = false := by
  induction l with
  | nil => exact iff_of_true rfl nofun
  | cons x l ih =>
    rw [swapRemove, List.forall_mem_cons]
    split
    · next asked => simp [asked]
    · next other => simp [ih, other]

/-- What is left is in order when at most one element came after the one taken out. -/
theorem rotated_sublist_iff {before after : List α} {a : α}
    (nodup : (before ++ a :: after).Nodup) :
    List.Sublist (before ++ rotated after) (before ++ a :: after) ↔ after.length ≤ 1 := by
  rcases after.eq_nil_or_concat with rfl | ⟨lead, last, rfl⟩
  · exact iff_of_true ((List.Sublist.refl _).append (List.nil_sublist _)) (by simp)
  · rw [List.concat_eq_append, rotated_concat] at *
    cases lead with
    | nil => exact iff_of_true ((List.Sublist.refl _).append (.cons _ (.refl _))) (by simp)
    | cons b lead =>
      refine iff_of_false ?_ (by simp)
      intro kept
      have behind : List.Sublist [last, b] (before ++ last :: b :: lead) :=
        (List.Sublist.cons_cons last (.cons_cons b (List.nil_sublist _))).trans
          (List.sublist_append_right _ _)
      have ahead : List.Sublist [b, last] (before ++ a :: (b :: lead ++ [last])) := by
        refine (List.Sublist.cons _ ?_).trans (List.sublist_append_right _ _)
        exact .cons_cons b (List.sublist_append_right _ _)
      exact not_both_sublists nodup ahead (behind.trans kept)

/-! ### Sorting by stamps -/

section Stamps
variable (stamp : α → Nat)

/-- Sorting restores a sublist whose stamps increase. -/
theorem eq_of_stamps {l sorted : List α} (perm : sorted.Perm l)
    (increasing : l.Pairwise fun a b => stamp a < stamp b)
    (ascends : sorted.Pairwise fun a b => stamp a ≤ stamp b) : sorted = l := by
  refine perm.eq_of_pairwise ?_ ascends (increasing.imp Nat.le_of_lt)
  intro a b left right le ge
  have apart : l.Pairwise fun a b => stamp a ≠ stamp b := increasing.imp Nat.ne_of_lt
  have symmetric : Std.Symm fun a b => stamp a ≠ stamp b := ⟨fun _ _ => Ne.symm⟩
  by_contra differ
  exact apart.forall (perm.mem_iff.mp left) right differ (Nat.le_antisymm le ge)

/-- Whatever sort there is restores a list only if its stamps increase: one that is stable and
one that turns the list round before do not agree on equal stamps. -/
theorem stamps_of_eq {l unsorted : List α} (nodup : l.Nodup) (perm : unsorted.Perm l)
    (restores : unsorted.insertionSort (stamp · ≤ stamp ·) = l)
    (reverses : unsorted.reverse.insertionSort (stamp · ≤ stamp ·) = l) :
    l.Pairwise fun a b => stamp a < stamp b := by
  rw [List.pairwise_iff_forall_sublist]
  intro a b here
  have ascends : l.Pairwise fun a b => stamp a ≤ stamp b := by
    have total : Std.Total fun a b => stamp a ≤ stamp b := ⟨fun _ _ => Nat.le_total _ _⟩
    have transitive : IsTrans α fun a b => stamp a ≤ stamp b := ⟨fun _ _ _ => Nat.le_trans⟩
    rw [← restores]
    exact List.pairwise_insertionSort _ _
  refine Nat.lt_of_le_of_ne (List.pairwise_iff_forall_sublist.mp ascends here) ?_
  intro tied
  have apart : a ≠ b := (List.pairwise_iff_forall_sublist.mp nodup here)
  have left : a ∈ unsorted := perm.mem_iff.mpr (here.subset (by simp))
  have right : b ∈ unsorted := perm.mem_iff.mpr (here.subset (by simp))
  have stable {m : List α} (sorts : m.insertionSort (stamp · ≤ stamp ·) = l)
      (turned : List.Sublist [b, a] m) : False := by
    have kept := List.pair_sublist_insertionSort (r := (stamp · ≤ stamp ·)) (Nat.le_of_eq tied.symm)
      turned
    rw [sorts] at kept
    exact not_both_sublists nodup here kept
  rcases pair_sublist_or left right apart with ordered | turned
  · exact stable reverses (List.reverse_sublist.mpr ordered)
  · exact stable restores turned

end Stamps

/-! ### First occurrences -/

/-- The elements in the order in which they first occur. -/
def firsts [DecidableEq α] : List α → List α
  | [] => []
  | a :: l => a :: (firsts l).filter (· ≠ a)

section Firsts
variable [DecidableEq α]

theorem mem_firsts {a : α} {l : List α} : a ∈ firsts l ↔ a ∈ l := by
  induction l with
  | nil => rfl
  | cons b l ih =>
    rw [firsts, List.mem_cons, List.mem_cons, List.mem_filter, ih]
    by_cases same : a = b <;> simp [same]

theorem nodup_firsts (l : List α) : (firsts l).Nodup := by
  induction l with
  | nil => exact .nil
  | cons a l ih =>
    rw [firsts, List.nodup_cons]
    exact ⟨by simp, ih.filter _⟩

theorem firsts_append_of_disjoint {l m : List α} (disjoint : ∀ a ∈ l, a ∉ m) :
    firsts (l ++ m) = firsts l ++ firsts m := by
  induction l with
  | nil => rfl
  | cons a l ih =>
    obtain ⟨fresh, disjoint⟩ := List.forall_mem_cons.mp disjoint
    have kept : (firsts m).filter (· ≠ a) = firsts m := by
      rw [List.filter_eq_self]
      intro b member
      have apart : b ≠ a := fun same => fresh (same ▸ mem_firsts.mp member)
      simpa using apart
    rw [List.cons_append, firsts, ih disjoint, List.filter_append, kept, firsts, List.cons_append]

theorem firsts_filter (p : α → Bool) (l : List α) : firsts (l.filter p) = (firsts l).filter p := by
  induction l with
  | nil => rfl
  | cons a l ih =>
    rw [firsts, List.filter_cons, List.filter_cons]
    split
    · rw [firsts, ih, List.filter_filter, List.filter_filter]
      simp only [Bool.and_comm]
    · next out =>
      rw [ih, List.filter_filter]
      -- What fails the test is not there to be struck out.
      refine List.filter_congr fun b _ => ?_
      by_cases same : b = a
      · rw [same]
        simpa using out
      · simp [same]

end Firsts

end Yazi.Base
