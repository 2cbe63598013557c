import Mathlib.Data.List.Nodup

/-!
# Searching around a ring

The positions of a list, from one of them on and round, in either direction: what is found first is
the next of the positions that are searched for.
-/
namespace Yazi.Base.Around

variable {c len : Nat}

/-- The other positions, forward. -/
def ahead (len c : Nat) : List Nat := List.range' (c + 1) (len - 1 - c) ++ List.range c

theorem map_forward (inside : c < len) :
    (List.range' 1 (len - 1)).map (fun i => (c + i) % len) = ahead len c := by
  refine List.ext_getElem (by simp [ahead]; omega) fun i early late => ?_
  simp only [List.length_map, List.length_range'] at early
  rw [List.getElem_map, List.getElem_range']
  simp only [ahead, List.getElem_append, List.length_range']
  split
  · next before =>
    rw [List.getElem_range', Nat.mod_eq_of_lt (by omega)]
    omega
  · next after =>
    rw [List.getElem_range, Nat.mod_eq_sub_mod (by omega), Nat.mod_eq_of_lt (by omega)]
    omega

theorem map_backward (inside : c < len) :
    (List.range' 1 (len - 1)).map (fun i => (c + len - i) % len) = (ahead len c).reverse := by
  refine List.ext_getElem (by simp [ahead]; omega) fun i early late => ?_
  simp only [List.length_map, List.length_range'] at early
  rw [List.getElem_map, List.getElem_range', List.getElem_reverse]
  simp only [ahead, List.getElem_append, List.length_append, List.length_range', List.length_range]
  split
  · next before =>
    rw [List.getElem_range', Nat.mod_eq_of_lt (by omega)]
    omega
  · next after =>
    rw [List.getElem_range, Nat.mod_eq_sub_mod (by omega), Nat.mod_eq_of_lt (by omega)]
    omega

/-- The positions of the list that are searched for. -/
def hits (hit : Nat → Bool) (len : Nat) : List Nat := (List.range len).filter hit

variable {hit : Nat → Bool} {k : Nat}

theorem range_split (inside : c < len) :
    List.range len = List.range c ++ c :: List.range' (c + 1) (len - 1 - c) := by
  have whole := List.range'_append_1 (s := 0) (m := c) (n := len - 1 - c + 1)
  rw [Nat.zero_add, show c + (len - 1 - c + 1) = len by omega] at whole
  rw [← List.range'_succ, List.range_eq_range', List.range_eq_range', whole]

theorem nodup_hits (hit : Nat → Bool) (len : Nat) : (hits hit len).Nodup :=
  List.nodup_range.filter hit

/-- From one of them, the others come in their order, round. -/
theorem filter_ahead (here : (hits hit len)[k]? = some c) :
    (ahead len c).filter hit = (hits hit len).drop (k + 1) ++ (hits hit len).take k := by
  have among : c ∈ hits hit len := List.mem_of_getElem? here
  obtain ⟨inside, is⟩ := List.mem_filter.mp among
  have split : hits hit len =
      (List.range c).filter hit ++ c :: (List.range' (c + 1) (len - 1 - c)).filter hit := by
    rw [hits, range_split (List.mem_range.mp inside), List.filter_append, List.filter_cons, if_pos is]
  have index : ((List.range c).filter hit).length = k := by
    have at' : (hits hit len)[((List.range c).filter hit).length]? = some c := by
      rw [split, List.getElem?_append_right (Nat.le_refl _), Nat.sub_self]
      rfl
    obtain ⟨low, same⟩ := List.getElem?_eq_some_iff.mp at'
    obtain ⟨low', same'⟩ := List.getElem?_eq_some_iff.mp here
    exact (List.Nodup.getElem_inj_iff (nodup_hits hit len)).mp (same.trans same'.symm)
  rw [ahead, List.filter_append, split, ← index, List.take_left' rfl]
  rw [List.append_cons, List.drop_left' (by simp)]

theorem head?_forward (here : (hits hit len)[k]? = some c) (others : 1 < (hits hit len).length) :
    (ahead len c).find? hit = (hits hit len)[(k + 1) % (hits hit len).length]? := by
  have few : k < (hits hit len).length := (List.getElem?_eq_some_iff.mp here).1
  rw [← List.head?_filter, filter_ahead here]
  by_cases last : k + 1 = (hits hit len).length
  · rw [List.drop_eq_nil_of_le (by omega), last, Nat.mod_self, List.nil_append, List.head?_take,
      if_neg (by omega), List.head?_eq_getElem?]
  · rw [List.head?_append_of_ne_nil, List.head?_drop, Nat.mod_eq_of_lt (by omega)]
    simpa using by omega

theorem head?_backward (here : (hits hit len)[k]? = some c) (others : 1 < (hits hit len).length) :
    (ahead len c).reverse.find? hit =
      (hits hit len)[(k + (hits hit len).length - 1) % (hits hit len).length]? := by
  have few : k < (hits hit len).length := (List.getElem?_eq_some_iff.mp here).1
  rw [← List.head?_filter, List.filter_reverse, filter_ahead here, List.reverse_append]
  cases k with
  | zero =>
    rw [List.take_zero, List.reverse_nil, List.nil_append, List.head?_reverse, List.getLast?_drop,
      if_neg (by omega), Nat.mod_eq_of_lt (by omega), List.getLast?_eq_getElem?]
    congr 1
    omega
  | succ k =>
    have some : ((hits hit len).take (k + 1)).reverse ≠ [] := by
      rw [Ne, List.reverse_eq_nil_iff, ← List.length_eq_zero_iff, List.length_take]
      omega
    have back : (k + 1 + (hits hit len).length - 1) % (hits hit len).length = k := by
      rw [Nat.mod_eq_sub_mod (by omega), Nat.mod_eq_of_lt (by omega)]
      omega
    rw [List.head?_append_of_ne_nil _ some, List.head?_reverse, back, List.getLast?_take, if_neg (by omega)]
    simp [List.getElem?_eq_getElem (show k < (hits hit len).length by omega)]

/-- Alone, it is not found again. -/
theorem find?_alone (here : (hits hit len)[k]? = some c) (alone : (hits hit len).length = 1) :
    (ahead len c).find? hit = none ∧ (ahead len c).reverse.find? hit = none := by
  have few : k < (hits hit len).length := (List.getElem?_eq_some_iff.mp here).1
  have none : (ahead len c).filter hit = [] := by
    rw [filter_ahead here, List.drop_eq_nil_of_le (by omega), show k = 0 by omega]
    rfl
  constructor
  · rw [← List.head?_filter, none]
    rfl
  · rw [← List.head?_filter, List.filter_reverse, none]
    rfl

/-! ### From anywhere -/

theorem hits_split (hit : Nat → Bool) (inside : c < len) :
    hits hit len = (List.range c).filter hit ++
      ((if hit c then [c] else []) ++ (List.range' (c + 1) (len - 1 - c)).filter hit) := by
  rw [hits, range_split inside, List.filter_append, List.filter_cons]
  split <;> rfl

theorem countP_below (hit : Nat → Bool) (inside : c < len) :
    (hits hit len).countP (· < c) = ((List.range c).filter hit).length := by
  have all : ((List.range c).filter hit).countP (· < c) = ((List.range c).filter hit).length :=
    List.countP_eq_length.mpr fun i member => by
      simpa using List.mem_range.mp (List.mem_of_mem_filter member)
  have none : ((if hit c then [c] else []) ++ (List.range' (c + 1) (len - 1 - c)).filter hit).countP
      (· < c) = 0 := by
    refine List.countP_eq_zero.mpr fun i member => ?_
    rcases List.mem_append.mp member with same | later
    · split at same
      · simp [List.mem_singleton.mp same]
      · cases same
    · have := List.mem_range'_1.mp (List.mem_of_mem_filter later)
      simpa using by omega
  rw [hits_split hit inside, List.countP_append, all, none, Nat.add_zero]

theorem countP_upto (hit : Nat → Bool) (inside : c < len) :
    (hits hit len).countP (· ≤ c) =
      ((List.range c).filter hit ++ if hit c then [c] else []).length := by
  have all : ((List.range c).filter hit ++ if hit c then [c] else []).countP (· ≤ c) =
      ((List.range c).filter hit ++ if hit c then [c] else []).length := by
    refine List.countP_eq_length.mpr fun i member => ?_
    rcases List.mem_append.mp member with before | same
    · have := List.mem_range.mp (List.mem_of_mem_filter before)
      simpa using by omega
    · split at same
      · simp [List.mem_singleton.mp same]
      · cases same
  have none : ((List.range' (c + 1) (len - 1 - c)).filter hit).countP (· ≤ c) = 0 := by
    refine List.countP_eq_zero.mpr fun i member => ?_
    have := List.mem_range'_1.mp (List.mem_of_mem_filter member)
    simpa using by omega
  rw [hits_split hit inside, ← List.append_assoc, List.countP_append, all, none, Nat.add_zero]

/-- The head of a list that is turned. -/
theorem head?_turned {α : Type} (l : List α) {n : Nat} (few : n ≤ l.length) :
    (l.drop n ++ l.take n).head? = l[n % l.length]? := by
  by_cases last : n = l.length
  · rw [List.drop_eq_nil_of_le (by omega), last, Nat.mod_self, List.nil_append, List.take_length,
      List.head?_eq_getElem?]
  · rw [List.head?_append_of_ne_nil, List.head?_drop, Nat.mod_eq_of_lt (by omega)]
    simpa using by omega

theorem getLast?_turned {α : Type} (l : List α) {n : Nat} (few : n ≤ l.length) :
    (l.drop n ++ l.take n).getLast? = l[(n + l.length - 1) % l.length]? := by
  cases n with
  | zero =>
    rw [List.take_zero, List.append_nil, List.drop_zero, List.getLast?_eq_getElem?, Nat.zero_add]
    cases l with
    | nil => rfl
    | cons a l => rw [Nat.mod_eq_of_lt (by simp)]
  | succ n =>
    have some : l.take (n + 1) ≠ [] := by
      rw [Ne, ← List.length_eq_zero_iff, List.length_take]
      omega
    have back : (n + 1 + l.length - 1) % l.length = n := by
      rw [Nat.mod_eq_sub_mod (by omega), Nat.mod_eq_of_lt (by omega)]
      omega
    rw [List.getLast?_append_of_ne_nil _ some, back, List.getLast?_take, if_neg (by omega)]
    simp [List.getElem?_eq_getElem (show n < l.length by omega)]

theorem head?_from (hit : Nat → Bool) (inside : c < len) :
    (c :: ahead len c).find? hit =
      (hits hit len)[(hits hit len).countP (· < c) % (hits hit len).length]? := by
  have turned : (c :: ahead len c).filter hit =
      (hits hit len).drop ((hits hit len).countP (· < c)) ++
        (hits hit len).take ((hits hit len).countP (· < c)) := by
    rw [countP_below hit inside, hits_split hit inside, List.drop_left' rfl, List.take_left' rfl,
      ahead, List.filter_cons, List.filter_append]
    split <;> simp
  rw [← List.head?_filter, turned, head?_turned _ List.countP_le_length]

theorem head?_upto (hit : Nat → Bool) (inside : c < len) :
    (c :: (ahead len c).reverse).find? hit =
      (hits hit len)[((hits hit len).countP (· ≤ c) + (hits hit len).length - 1) %
        (hits hit len).length]? := by
  have turned : ((c :: (ahead len c).reverse).filter hit).reverse =
      (hits hit len).drop ((hits hit len).countP (· ≤ c)) ++
        (hits hit len).take ((hits hit len).countP (· ≤ c)) := by
    rw [countP_upto hit inside, hits_split hit inside, ← List.append_assoc, List.drop_left' rfl,
      List.take_left' rfl, ahead, List.filter_cons, List.filter_reverse, List.filter_append]
    split <;> simp
  rw [← List.head?_filter, ← List.getLast?_reverse, turned, getLast?_turned _ List.countP_le_length]

end Yazi.Base.Around
