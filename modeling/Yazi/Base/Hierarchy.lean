import Mathlib.Data.List.Perm.Basic
import Yazi.Base.Keyed

/-!
Keys with parents, and counts along the chains of ancestors.

Keys are compared by an equivalence. On a set of keys where equivalent ones have equivalent
parents, a table can hold how many selected keys each key is an ancestor of: selecting and
deselecting siblings changes the counts of their common ancestors only.
-/
namespace Yazi.Base

/-- The keys above a key, the nearest first, as far as the fuel goes. -/
def climb {κ : Type} (parent : κ → Option κ) : Nat → κ → List κ
  | 0, _ => []
  | fuel + 1, k =>
    match parent k with
    | none => []
    | some p => p :: climb parent fuel p

/-- Parents have smaller ranks, so every chain of ancestors ends. -/
structure Hierarchy (κ : Type) [BEq κ] where
  parent : κ → Option κ
  rank : κ → Nat
  descends : ∀ k p, parent k = some p → rank p < rank k
  rank_congr : ∀ a b, (a == b) = true → rank a = rank b

namespace Hierarchy

variable {κ : Type} [BEq κ] (H : Hierarchy κ)

def ancestors (k : κ) : List κ := climb H.parent (H.rank k) k

/-- What holds of a key if it holds of its parent holds of every key. -/
theorem induct {P : κ → Prop} (step : ∀ k, (∀ p, H.parent k = some p → P p) → P k) (k : κ) : P k := by
  have any : ∀ n k, H.rank k < n → P k := by
    intro n
    induction n with
    | zero =>
      intro k below
      exact absurd below (Nat.not_lt_zero _)
    | succ n ih =>
      intro k below
      apply step
      intro p parent
      have less := H.descends k p parent
      exact ih p (by omega)
  exact any _ k (Nat.lt_succ_self _)

private theorem climb_enough (k : κ) (fuel : Nat) (enough : H.rank k ≤ fuel) :
    climb H.parent fuel k = H.ancestors k := by
  revert fuel
  apply H.induct (k := k)
  intro k ih fuel enough
  rw [ancestors]
  cases above : H.parent k with
  | none => cases fuel <;> cases H.rank k <;> simp [climb, above]
  | some p =>
    have less := H.descends k p above
    obtain ⟨r, rank⟩ := Nat.exists_eq_succ_of_ne_zero (Nat.ne_of_gt (Nat.zero_lt_of_lt less))
    obtain ⟨f, rfl⟩ := Nat.exists_eq_succ_of_ne_zero (n := fuel) (by omega)
    simp only [rank, climb, above]
    rw [ih p above f (by omega), ih p above r (by omega)]

/-- The fuel suffices: a chain goes on as long as there are parents. -/
theorem ancestors_eq (k : κ) :
    H.ancestors k = match H.parent k with
      | none => []
      | some p => p :: H.ancestors p := by
  cases above : H.parent k with
  | none => cases rank : H.rank k <;> simp [ancestors, climb, above, rank]
  | some p =>
    have less := H.descends k p above
    obtain ⟨r, rank⟩ := Nat.exists_eq_succ_of_ne_zero (Nat.ne_of_gt (Nat.zero_lt_of_lt less))
    simp only [ancestors, rank, climb, above]
    rw [climb_enough H p r (by omega), ancestors]

/-- `a` is an ancestor of `k`. -/
def isAbove (a k : κ) : Bool := (H.ancestors k).any (· == a)

theorem isAbove_eq (a k : κ) :
    H.isAbove a k = match H.parent k with
      | none => false
      | some p => p == a || H.isAbove a p := by
  rw [isAbove, ancestors_eq]
  cases H.parent k <;> rfl

theorem rank_lt {k a : κ} (above : H.isAbove a k = true) : H.rank a < H.rank k := by
  revert above
  apply H.induct (k := k)
  intro k ih above
  rw [isAbove_eq] at above
  cases parent : H.parent k with
  | none => simp [parent] at above
  | some p =>
    have less := H.descends k p parent
    simp only [parent, Bool.or_eq_true] at above
    rcases above with same | above
    · rw [← H.rank_congr p a same]
      exact less
    · exact Nat.lt_trans (ih p parent above) less

/-- No key is above itself. -/
theorem isAbove_self (k : κ) : H.isAbove k k = false := by
  by_contra above
  exact Nat.lt_irrefl _ (H.rank_lt (by simpa using above))

/-- A set of keys that is closed under parents, where equivalent keys have equivalent parents. -/
structure Uniform (U : κ → Prop) : Prop where
  closed : ∀ k p, U k → H.parent k = some p → U p
  agrees : ∀ k l, U k → U l → (k == l) = true →
    Option.Rel (fun p q => (p == q) = true) (H.parent k) (H.parent l)

variable [EquivBEq κ]

theorem isAbove_congr {a b : κ} (same : (a == b) = true) (k : κ) :
    H.isAbove a k = H.isAbove b k := by
  simp only [isAbove, BEq.congr_right same]

/-- A chain of ancestors has each key once. -/
theorem ancestors_distinct (k : κ) : (H.ancestors k).Pairwise fun a b => (a == b) = false := by
  apply H.induct (k := k)
  intro k ih
  rw [ancestors_eq]
  cases parent : H.parent k with
  | none => exact .nil
  | some p =>
    refine .cons (fun a member => ?_) (ih p parent)
    by_contra same
    have above : H.isAbove a p = true := List.any_eq_true.mpr ⟨a, member, BEq.rfl⟩
    have lower := H.rank_lt above
    rw [H.rank_congr p a (by simpa using same)] at lower
    exact Nat.lt_irrefl _ lower

/-- Equivalent keys of a uniform set have the same ancestors. -/
theorem above_agrees {U : κ → Prop} (uniform : H.Uniform U) {k l : κ} (left : U k) (right : U l)
    (same : (k == l) = true) (a : κ) : H.isAbove a k = H.isAbove a l := by
  revert l left
  apply H.induct (k := k)
  intro k ih l left right same
  have parents := uniform.agrees k l left right same
  rw [isAbove_eq, isAbove_eq]
  cases above : H.parent k <;> cases above' : H.parent l <;> rw [above, above'] at parents
  case none.some => cases parents
  case some.none => cases parents
  case some.some p q =>
    cases parents with
    | some same =>
      have further := ih p above (uniform.closed k p left above) (uniform.closed l q right above') same
      simp only [BEq.congr_left same, further]

end Hierarchy

/-! ### Counts along a chain -/

namespace Assoc

variable {κ : Type} [BEq κ]

/-- Adds to the count of every key of the chain. -/
def raise (n : Nat) : Assoc κ Nat → List κ → Assoc κ Nat
  | counts, [] => counts
  | counts, a :: chain => raise n (counts.insert a ((counts.get? a).getD 0 + n)) chain

/-- Subtracts from the count of every key of the chain, and removes the key at zero: `none`
where a key has no count, or one that is too small. -/
def lower (n : Nat) : Assoc κ Nat → List κ → Option (Assoc κ Nat)
  | counts, [] => some counts
  | counts, a :: chain =>
    match counts.get? a with
    | none => none
    | some m =>
      if m < n then none
      else lower n (if m - n = 0 then counts.erase a else counts.insert a (m - n)) chain

variable [EquivBEq κ] {n : Nat} {counts : Assoc κ Nat} {chain : List κ}

theorem get?_raise (distinct : chain.Pairwise fun a b => (a == b) = false) (a : κ) :
    (raise n counts chain).get? a =
      if chain.any (· == a) then some ((counts.get? a).getD 0 + n) else counts.get? a := by
  induction chain generalizing counts with
  | nil => rfl
  | cons b chain ih =>
    obtain ⟨apart, distinct⟩ := List.pairwise_cons.mp distinct
    rw [raise, ih distinct, get?_insert, List.any_cons]
    cases here : b == a with
    | true =>
      -- The key itself does not come again in the chain.
      have once : chain.any (· == a) = false := by
        rw [List.any_eq_false]
        intro c member
        rw [← BEq.congr_right here, BEq.comm, apart c member]
        exact Bool.false_ne_true
      simp [once, BEq.comm.trans here, get?_congr counts (BEq.comm.trans here)]
    | false => simp [BEq.comm.trans here]

/-- Subtracting succeeds if every key of the chain has a count that is large enough. -/
theorem get?_lower (distinct : chain.Pairwise fun a b => (a == b) = false)
    (enough : ∀ a ∈ chain, ∃ m, counts.get? a = some m ∧ n ≤ m) :
    ∃ after, lower n counts chain = some after ∧ ∀ a, after.get? a =
      if chain.any (· == a) then
        if (counts.get? a).getD 0 - n = 0 then none else some ((counts.get? a).getD 0 - n)
      else counts.get? a := by
  induction chain generalizing counts with
  | nil => exact ⟨counts, rfl, fun _ => rfl⟩
  | cons b chain ih =>
    obtain ⟨apart, distinct⟩ := List.pairwise_cons.mp distinct
    obtain ⟨m, found, large⟩ := enough b (List.mem_cons_self ..)
    rw [lower, found]
    simp only [if_neg (Nat.not_lt.mpr large)]
    have one : ∀ a, get? (if m - n = 0 then counts.erase b else counts.insert b (m - n)) a =
        if b == a then if m - n = 0 then none else some (m - n) else counts.get? a := by
      intro a
      split
      · rw [get?_erase]
      · rw [get?_insert, BEq.comm]
    generalize (if m - n = 0 then counts.erase b else counts.insert b (m - n)) = rest at one ⊢
    have others : ∀ a ∈ chain, rest.get? a = counts.get? a := by
      intro a member
      rw [one, apart a member]
      rfl
    obtain ⟨after, done, counted⟩ := ih distinct (by
      intro a member
      rw [others a member]
      exact enough a (List.mem_cons_of_mem _ member))
    refine ⟨after, done, fun a => ?_⟩
    rw [counted, List.any_cons, one]
    cases here : b == a with
    | true =>
      have once : chain.any (· == a) = false := by
        rw [List.any_eq_false]
        intro c member
        rw [← BEq.congr_right here, BEq.comm, apart c member]
        exact Bool.false_ne_true
      simp [once, ← get?_congr counts here, found]
    | false => simp

end Assoc
/-! ### Counting the selected keys below each key -/

namespace Hierarchy

variable {κ : Type} [BEq κ] (H : Hierarchy κ)

/-- How many of the keys the key is an ancestor of. -/
def tally (a : κ) (keys : List κ) : Nat := keys.countP (H.isAbove a)

/-- The counts are those of the keys, with no entry for zero. -/
def Tallied (counts : Assoc κ Nat) (keys : List κ) : Prop :=
  ∀ a, counts.get? a = if H.tally a keys = 0 then none else some (H.tally a keys)

/-- All keys have the ancestors of `k`. -/
def Alike (k : κ) (keys : List κ) : Prop := ∀ l ∈ keys, ∀ a, H.isAbove a l = H.isAbove a k

variable {H} {counts : Assoc κ Nat} {keys : List κ}

theorem Tallied.perm {other : List κ} (tallied : H.Tallied counts keys) (perm : keys.Perm other) :
    H.Tallied counts other := by
  intro a
  rw [tallied a, tally, tally, perm.countP_eq]

theorem tally_congr {other : List κ}
    (same : List.Forall₂ (fun k l => ∀ a, H.isAbove a k = H.isAbove a l) keys other) (a : κ) :
    H.tally a keys = H.tally a other := by
  induction same with
  | nil => rfl
  | cons same _ ih =>
    simp only [tally, List.countP_cons, same a] at ih ⊢
    rw [ih]

theorem tally_alike {k : κ} (alike : H.Alike k keys) (a : κ) :
    H.tally a keys = if H.isAbove a k then keys.length else 0 := by
  split
  · next above => exact List.countP_eq_length.mpr fun l member => by rw [alike l member, above]
  · next below => exact List.countP_eq_zero.mpr fun l member => by rwa [alike l member]

theorem Tallied.getD (tallied : H.Tallied counts keys) (a : κ) :
    (counts.get? a).getD 0 = H.tally a keys := by
  rw [tallied a]
  split
  · next zero => rw [zero]; rfl
  · rfl

variable [EquivBEq κ]

theorem tallied_raise {k : κ} {fresh : List κ} (tallied : H.Tallied counts keys)
    (alike : H.Alike k fresh) (given : fresh ≠ []) :
    H.Tallied (counts.raise fresh.length (H.ancestors k)) (keys ++ fresh) := by
  intro a
  have positive := List.length_pos_iff.mpr given
  have sum : H.tally a (keys ++ fresh) = H.tally a keys + H.tally a fresh := List.countP_append
  rw [Assoc.get?_raise (H.ancestors_distinct k), tallied.getD, sum, tally_alike alike]
  change (if H.isAbove a k = true then _ else _) = _
  split
  · rw [if_neg (by omega)]
  · rw [Nat.add_zero, tallied a]

/-- Deselecting alike keys finds a count for each of their ancestors. -/
theorem tallied_lower {k : κ} {taken rest : List κ} (tallied : H.Tallied counts (taken ++ rest))
    (alike : H.Alike k taken) (given : taken ≠ []) :
    ∃ after, counts.lower taken.length (H.ancestors k) = some after ∧ H.Tallied after rest := by
  have positive := List.length_pos_iff.mpr given
  have sum : ∀ a, H.tally a (taken ++ rest) = H.tally a taken + H.tally a rest :=
    fun _ => List.countP_append
  have enough : ∀ a ∈ H.ancestors k, ∃ m, counts.get? a = some m ∧ taken.length ≤ m := by
    intro a member
    have above : H.isAbove a k = true := List.any_eq_true.mpr ⟨a, member, BEq.rfl⟩
    have share := tally_alike alike a
    rw [if_pos above] at share
    exact ⟨_, (tallied a).trans (if_neg (by rw [sum]; omega)), by rw [sum]; omega⟩
  obtain ⟨after, done, counted⟩ := Assoc.get?_lower (H.ancestors_distinct k) enough
  refine ⟨after, done, fun a => ?_⟩
  rw [counted, tallied.getD, sum, tally_alike alike]
  change (if H.isAbove a k = true then _ else _) = _
  split
  · simp only [Nat.add_sub_cancel_left]
  · next below =>
    rw [tallied a, sum, tally_alike alike, if_neg below, Nat.zero_add]

end Hierarchy

end Yazi.Base
