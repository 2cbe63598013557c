import Yazi.Actor.BulkRename

/-!
What the order of a bulk rename keeps.

Each round takes the pairs that are freed in it, and puts them before those of the rounds before.
A pair that has to wait for another one therefore comes behind it exactly if it is freed sooner.
-/
namespace Yazi.Actor

open Yazi.Base
open Yazi.Base.Peeling
open Yazi.Shared

/-- The name that one pair gives is the one that the other pair takes away. -/
def Leads (p q : Pair) : Prop := (p.2 == q.1) = true

instance (p q : Pair) : Decidable (Leads p q) := inferInstanceAs (Decidable (_ = true))

theorem pair_unique {ps : List Pair} (distinct : Assoc.Distinct ps) {p q : Pair} (one : p ∈ ps)
    (other : q ∈ ps) (same : (p.1 == q.1) = true) : p = q := by
  by_contra apart
  have symmetric : Std.Symm fun p q : Pair => (p.1 == q.1) = false :=
    ⟨fun p q other => by rwa [BEq.comm]⟩
  have differ : (p.1 == q.1) = false := List.Pairwise.forall distinct one other apart
  rw [differ] at same
  cases same

/-- Nothing leads to two pairs. -/
theorem leads_unique {ps : List Pair} (distinct : Assoc.Distinct ps) :
    ∀ p ∈ ps, ∀ q ∈ ps, ∀ r ∈ ps, Leads p q → Leads p r → q = r :=
  fun _ _ _ second _ third one other => pair_unique distinct second third
    (BEq.trans (BEq.symm one) other)

/-! ### Places -/

theorem order_zipIdx {olds : List Tuple} (distinct : olds.Pairwise fun a b => (a == b) = false) :
    olds.Pairwise fun a b =>
      order (collect olds.zipIdx) a < order (collect olds.zipIdx) b := by
  have distinct' : Assoc.Distinct olds.zipIdx := by
    have names : (olds.zipIdx.map Prod.fst).Pairwise fun a b => (a == b) = false := by
      rwa [List.zipIdx_map_fst]
    exact List.pairwise_map.mp names
  have place : ∀ e ∈ olds.zipIdx, order (collect olds.zipIdx) e.1 = e.2 := by
    intro e member
    rw [collect_eq distinct', order, Assoc.get?_of_mem distinct' member]
    rfl
  have places : (olds.zipIdx.map Prod.snd).Pairwise (· < ·) := by
    rw [List.zipIdx_map_snd]
    exact List.pairwise_lt_range'
  have along : (olds.zipIdx.map Prod.fst).Pairwise fun a b =>
      order (collect olds.zipIdx) a < order (collect olds.zipIdx) b := by
    refine List.pairwise_map.mpr ((List.pairwise_map.mp places).imp_of_mem ?_)
    intro e f first second less
    rwa [place e first, place f second]
  rwa [List.zipIdx_map_fst] at along

/-- Sorted from behind, what stands in its order is reversed. -/
theorem insertionSort_behind {key : Tuple → Nat} {l : List Tuple}
    (along : l.Pairwise fun a b => key a < key b) :
    l.insertionSort (fun a b => key b ≤ key a) = l.reverse := by
  have behind : l.reverse.Pairwise fun a b => key b ≤ key a :=
    List.pairwise_reverse.mpr (along.imp Nat.le_of_lt)
  have total : Std.Total fun a b : Tuple => key b ≤ key a := ⟨fun a b => Nat.le_total _ _⟩
  have trans : IsTrans Tuple fun a b => key b ≤ key a := ⟨fun _ _ _ one other => other.trans one⟩
  have sorted : (l.insertionSort fun a b => key b ≤ key a).Pairwise fun a b => key b ≤ key a :=
    List.pairwise_insertionSort _ l
  refine List.Perm.eq_of_pairwise ?_ sorted behind
    ((List.perm_insertionSort _ l).trans (List.reverse_perm l).symm)
  intro a b first second one other
  by_contra apart
  rcases before_or_before ((List.mem_insertionSort _).mp first) (List.mem_reverse.mp second)
    apart with before | before
  · exact absurd (List.pairwise_iff_forall_sublist.mp along before) (by omega)
  · exact absurd (List.pairwise_iff_forall_sublist.mp along before) (by omega)

/-! ### One round -/

namespace Bulk
variable {orders : Assoc Tuple Nat} {s : Bulk} {live : List Pair} {income : Pair → Bool}

theorem Holds.outcomes_eq (holds : s.Holds live income)
    (along : live.Pairwise fun p q => order orders p.1 < order orders q.1) :
    s.outcomes orders = ((live.filter fun p => !income p).reverse).map Prod.fst := by
  have names : (s.incomes.filter fun e => !e.2).map Prod.fst =
      (live.filter fun p => !income p).map Prod.fst := by
    rw [holds.incomes, List.filter_map, List.map_map]
    rfl
  rw [outcomes, names, List.map_reverse]
  exact insertionSort_behind (List.pairwise_map.mpr (along.filter _))

theorem Holds.remain_eq (holds : s.Holds live income)
    (along : live.Pairwise fun p q => order orders p.1 < order orders q.1) :
    s.remain orders = live := by
  rw [remain, holds.todos]
  exact List.Pairwise.insertionSort_eq (along.imp Nat.le_of_lt)

/-- A round takes what is not waited for, and sets free what this leads to. -/
theorem round_spec (holds : s.Holds live income)
    (along : live.Pairwise fun p q => order orders p.1 < order orders q.1) :
    ∃ t, (s.outcomes orders).foldlM take s = some t ∧
      t.sorted = s.sorted ++ (live.filter fun p => !income p).reverse ∧
      t.Holds (live.filter income)
        fun q => income q && !(live.filter fun p => !income p).any fun p => decide (Leads p q) := by
  have distinct := holds.distinct
  have apart : Assoc.Distinct (live.filter fun p => !income p).reverse := by
    refine List.pairwise_reverse.mpr ((holds.distinct.filter _).imp ?_)
    intro p q other
    rwa [BEq.comm]
  have among : ∀ p ∈ (live.filter fun p => !income p).reverse, p ∈ live := by
    intro p member
    exact List.mem_of_mem_filter (List.mem_reverse.mp member)
  obtain ⟨t, took, sorted, holds'⟩ := foldlM_take apart holds among
  refine ⟨t, by rw [holds.outcomes_eq along, took], sorted, ?_⟩
  have rest : (live.filter fun q =>
      !(live.filter fun p => !income p).reverse.any fun p => p.1 == q.1) = live.filter income := by
    apply List.filter_congr
    intro q member
    rw [List.any_reverse]
    cases held : income q with
    | true =>
      have free : ((live.filter fun p => !income p).any fun p => p.1 == q.1) = false := by
        apply List.any_eq_false.mpr
        intro p taken same
        obtain ⟨among, released⟩ := List.mem_filter.mp taken
        rw [pair_unique distinct among member same, held] at released
        cases released
      rw [free]
      rfl
    | false =>
      have taken : q ∈ live.filter fun p => !income p :=
        List.mem_filter.mpr ⟨member, by rw [held]; rfl⟩
      have found : ((live.filter fun p => !income p).any fun p => p.1 == q.1) = true :=
        List.any_eq_true.mpr ⟨q, taken, BEq.rfl⟩
      rw [found]
      rfl
  rw [rest] at holds'
  refine ⟨holds'.distinct, holds'.todos, holds'.incomes.trans ?_⟩
  apply List.map_congr_left
  intro q _
  rw [List.any_reverse]
  have same : (fun p : Pair => decide (Leads p q)) = fun p => p.2 == q.1 := by
    funext p
    exact Bool.decide_eq_true
  rw [same]
  cases (live.filter fun p => !income p).any fun p => p.2 == q.1 with
  | true => rw [if_pos rfl, Bool.not_true, Bool.and_false]
  | false => rw [if_neg Bool.false_ne_true, Bool.not_false, Bool.and_true]

end Bulk

/-! ### All rounds -/

section rounds
variable {ps : List Pair}

/-- What holds before a round: what is live is not freed yet, and what is not waited for is freed
in this round. What is sorted was freed before. -/
structure Bulk.Peeled (ps : List Pair) (k : Nat) (s : Bulk) (live : List Pair)
    (income : Pair → Bool) : Prop where
  holds : s.Holds live income
  sub : live.Sublist ps
  unfreed : ∀ p, p ∈ live ↔ p ∈ ps ∧ ∀ j < k, ¬Freed Leads ps j p
  free : ∀ p ∈ live, income p = false ↔ Freed Leads ps k p
  perm : (s.sorted ++ live).Perm ps
  freed : ∀ p ∈ s.sorted, ∃ j < k, Freed Leads ps j p
  sooner : s.sorted.Pairwise (Sooner Leads ps)

namespace Bulk.Peeled
variable {k : Nat} {s : Bulk} {live : List Pair} {income : Pair → Bool}

theorem along {orders : Assoc Tuple Nat} (peeled : Bulk.Peeled ps k s live income)
    (places : ps.Pairwise fun p q => order orders p.1 < order orders q.1) :
    live.Pairwise fun p q => order orders p.1 < order orders q.1 :=
  places.sublist peeled.sub

theorem mem_front (peeled : Bulk.Peeled ps k s live income) {p : Pair} :
    p ∈ live.filter (fun p => !income p) ↔ p ∈ live ∧ Freed Leads ps k p := by
  rw [List.mem_filter, Bool.not_eq_true']
  exact and_congr_right fun member => peeled.free p member

/-- The next round is held by what is not freed in this one. -/
theorem next (peeled : Bulk.Peeled ps k s live income) {t : Bulk}
    (sorted : t.sorted = s.sorted ++ (live.filter fun p => !income p).reverse)
    (holds : t.Holds (live.filter income)
      fun q => income q && !(live.filter fun p => !income p).any fun p => decide (Leads p q)) :
    Bulk.Peeled ps (k + 1) t (live.filter income)
      fun q => income q && !(live.filter fun p => !income p).any fun p => decide (Leads p q) := by
  have waits : ∀ p, p ∈ live.filter income ↔ p ∈ live ∧ ¬Freed Leads ps k p := by
    intro p
    rw [List.mem_filter]
    refine and_congr_right fun member => ?_
    rw [← peeled.free p member, Bool.not_eq_false]
  have unfreed : ∀ p, p ∈ live.filter income ↔ p ∈ ps ∧ ∀ j < k + 1, ¬Freed Leads ps j p := by
    intro p
    rw [waits, peeled.unfreed, and_assoc]
    refine and_congr_right fun _ => ⟨fun h j less => ?_, fun h => ⟨fun j less => ?_, ?_⟩⟩
    · rcases Nat.lt_succ_iff_lt_or_eq.mp less with earlier | rfl
      · exact h.1 j earlier
      · exact h.2
    · exact h j (Nat.lt_succ_of_lt less)
    · exact h k (Nat.lt_succ_self k)
  refine ⟨holds, List.filter_sublist.trans peeled.sub, unfreed, ?_, ?_, ?_, ?_⟩
  · intro q member
    obtain ⟨among, later⟩ := (unfreed q).mp member
    have held : income q = true := (List.mem_filter.mp member).2
    rw [held, Bool.true_and, Bool.not_eq_false', List.any_eq_true]
    constructor
    · rintro ⟨p, front, led⟩
      exact ⟨among, p, (peeled.mem_front.mp front).2, of_decide_eq_true led⟩
    · rintro ⟨-, p, freed, led⟩
      -- Were it freed earlier, this one would have been freed by now.
      have live : p ∈ live := (peeled.unfreed p).mpr ⟨freed.mem, fun j less freed' =>
        later (j + 1) (Nat.succ_lt_succ less) ⟨among, p, freed', led⟩⟩
      exact ⟨p, peeled.mem_front.mpr ⟨live, freed⟩, decide_eq_true led⟩
  · rw [sorted, List.append_assoc]
    refine List.Perm.trans (List.Perm.append_left _ ?_) peeled.perm
    refine ((List.reverse_perm _).append_right _).trans (List.perm_append_comm.trans ?_)
    exact List.filter_append_perm income live
  · intro p member
    rw [sorted, List.mem_append, List.mem_reverse] at member
    rcases member with before | now
    · obtain ⟨j, less, freed⟩ := peeled.freed p before
      exact ⟨j, Nat.lt_succ_of_lt less, freed⟩
    · exact ⟨k, Nat.lt_succ_self k, (peeled.mem_front.mp now).2⟩
  · rw [sorted]
    refine List.pairwise_append.mpr ⟨peeled.sooner, ?_, ?_⟩
    · -- In one round, what stands behind comes first.
      have front : ((live.filter fun p => !income p).reverse).Pairwise fun p q =>
          Before (live.filter fun p => !income p) q p :=
        List.pairwise_reverse.mpr (pairwise_before _)
      refine front.imp_of_mem fun {p q} one other before i freed => ?_
      have one := peeled.mem_front.mp (List.mem_reverse.mp one)
      have other := peeled.mem_front.mp (List.mem_reverse.mp other)
      rcases Nat.lt_trichotomy i k with less | rfl | more
      · exact absurd freed (((peeled.unfreed q).mp other.1).2 i less)
      · exact .inr ⟨one.2, before.mono (List.filter_sublist.trans peeled.sub)⟩
      · exact .inl ⟨k, more, one.2⟩
    · intro p before q now i freed
      obtain ⟨j, less, freed'⟩ := peeled.freed p before
      have now := peeled.mem_front.mp (List.mem_reverse.mp now)
      have late : ¬i < k := fun less => ((peeled.unfreed q).mp now.1).2 i less freed
      exact .inl ⟨j, by omega, freed'⟩

/-- Where a round takes nothing, nothing is freed any more. -/
theorem stuck (peeled : Bulk.Peeled ps k s live income)
    (empty : live.filter (fun p => !income p) = []) (j : Nat) :
    ∀ p ∈ live, ¬Freed Leads ps j p := by
  induction j with
  | zero =>
    intro p member freed
    rcases Nat.eq_zero_or_pos k with rfl | positive
    · have front := peeled.mem_front.mpr ⟨member, freed⟩
      rw [empty] at front
      cases front
    · exact ((peeled.unfreed p).mp member).2 0 positive freed
  | succ j ih =>
    intro p member freed
    obtain ⟨among, later⟩ := (peeled.unfreed p).mp member
    obtain ⟨-, q, freed', led⟩ := freed
    by_cases live : q ∈ live
    · exact ih q live freed'
    · -- What leads to it is gone, so it would have been freed until now.
      have gone : ∃ i < k, Freed Leads ps i q := by
        by_contra none
        exact live ((peeled.unfreed q).mpr ⟨freed'.mem, fun i less freed => none ⟨i, less, freed⟩⟩)
      obtain ⟨i, less, freed''⟩ := gone
      rcases Nat.lt_or_eq_of_le (Nat.succ_le_of_lt less) with earlier | rfl
      · exact later (i + 1) earlier ⟨among, q, freed'', led⟩
      · have front := peeled.mem_front.mpr ⟨member, among, q, freed'', led⟩
        rw [empty] at front
        cases front

end Bulk.Peeled

/-- The pairs that are freed, the sooner the further behind, and those on and after cycles. -/
def Arranged (ps result : List Pair) : Prop :=
  ∃ freed rest, result = freed.reverse ++ rest ∧ (freed ++ rest).Perm ps ∧
    freed.Pairwise (Sooner Leads ps) ∧ (∀ p ∈ freed, ∃ k, Freed Leads ps k p) ∧
      ∀ p ∈ rest, ∀ k, ¬Freed Leads ps k p

theorem Arranged.perm {result : List Pair} (arranged : Arranged ps result) : result.Perm ps := by
  obtain ⟨freed, rest, rfl, perm, -⟩ := arranged
  exact ((List.reverse_perm freed).append_right rest).trans perm

theorem Bulk.rounds_spec {orders : Assoc Tuple Nat}
    (places : ps.Pairwise fun p q => order orders p.1 < order orders q.1) (n : Nat) {k : Nat}
    {s : Bulk} {live : List Pair} {income : Pair → Bool} (peeled : Bulk.Peeled ps k s live income)
    (enough : live.length < n) : ∃ result, Bulk.rounds orders n s = some result ∧
      Arranged ps result := by
  induction n generalizing k s live income with
  | zero => exact absurd enough (Nat.not_lt_zero _)
  | succ n ih =>
    have along := peeled.along places
    have freed : ∀ p ∈ s.sorted, ∃ k, Freed Leads ps k p := by
      intro p member
      obtain ⟨j, -, freed⟩ := peeled.freed p member
      exact ⟨j, freed⟩
    rw [rounds, peeled.holds.todos, peeled.holds.outcomes_eq along]
    by_cases done : live = []
    · subst done
      exact ⟨_, rfl, s.sorted, [], (List.append_nil _).symm, peeled.perm, peeled.sooner, freed,
        fun p member => absurd member List.not_mem_nil⟩
    rw [if_neg (by simpa using done)]
    by_cases empty : live.filter (fun p => !income p) = []
    · rw [empty, List.reverse_nil, List.map_nil, List.isEmpty_nil, if_pos rfl,
        peeled.holds.remain_eq along]
      exact ⟨_, rfl, s.sorted, live, rfl, peeled.perm, peeled.sooner, freed,
        fun p member k => peeled.stuck empty k p member⟩
    · obtain ⟨t, took, sorted, holds⟩ := Bulk.round_spec peeled.holds along
      rw [if_neg (by simpa using empty), ← peeled.holds.outcomes_eq along, took, Option.bind_some]
      refine ih (peeled.next sorted holds) ?_
      obtain ⟨p, front⟩ := List.exists_mem_of_ne_nil _ empty
      obtain ⟨member, released⟩ := List.mem_filter.mp front
      have fewer : (live.filter income).length < live.length := by
        refine List.length_filter_lt_length_iff_exists.mpr ⟨p, member, ?_⟩
        rw [Bool.not_eq_true'] at released
        rw [released]
        exact Bool.false_ne_true
      omega

/-! ### The first round -/

/-- The flags of the names that are given. -/
theorem flags_eq (distinct : Assoc.Distinct ps) (l : List Pair) (g : Pair → Bool) :
    l.foldl (fun m p => flag m p.2 true) (ps.map fun q => (q.1, g q)) =
      ps.map fun q => (q.1, g q || l.any fun p => decide (Leads p q)) := by
  induction l generalizing g with
  | nil =>
    apply List.map_congr_left
    intro q _
    rw [List.any_nil, Bool.or_false]
  | cons p l ih =>
    rw [List.foldl_cons, flag_map distinct, ih]
    apply List.map_congr_left
    intro q _
    rw [List.any_cons]
    by_cases led : Leads p q
    · have same : (p.2 == q.1) = true := led
      rw [if_pos same, decide_eq_true led, Bool.true_or, Bool.or_true]
    · have other : ¬(p.2 == q.1) = true := led
      rw [if_neg other, decide_eq_false led, Bool.false_or]

/-- All pairs come out, in the order of their rounds. -/
theorem prioritizedPaths_arranged (distinct : Assoc.Distinct ps) :
    ∃ sorted, prioritizedPaths (ps.map Prod.fst) (ps.map Prod.snd) = some sorted ∧
      Arranged ps sorted := by
  have places := order_zipIdx (List.pairwise_map.mpr distinct)
  rw [List.pairwise_map] at places
  have zipped : (ps.map Prod.fst).zip (ps.map Prod.snd) = ps := (List.zip_of_prod rfl rfl).symm
  have bare : collect ((ps.map Prod.fst).map (·, false)) = ps.map fun q => (q.1, false) := by
    have distinct' : Assoc.Distinct (ps.map fun q => (q.1, false)) := List.pairwise_map.mpr distinct
    rw [List.map_map]
    exact collect_eq distinct'
  have peeled : Bulk.Peeled ps 0 ⟨ps.map fun q => (q.1, false || ps.any fun p => decide (Leads p q)),
      ps, []⟩ ps fun q => false || ps.any fun p => decide (Leads p q) := by
    refine ⟨⟨distinct, rfl, rfl⟩, List.Sublist.refl ps, ?_, ?_, List.Perm.refl ps, ?_, .nil⟩
    · exact fun p => (and_iff_left fun j less => absurd less (Nat.not_lt_zero j)).symm
    · intro q member
      rw [Bool.false_or, List.any_eq_false]
      constructor
      · exact fun none => ⟨member, fun p among led => none p among (decide_eq_true led)⟩
      · exact fun freed p among led => freed.2 p among (of_decide_eq_true led)
    · exact fun p member => absurd member List.not_mem_nil
  rw [prioritizedPaths, zipped, collect_eq distinct, bare, flags_eq distinct, List.length_map]
  exact Bulk.rounds_spec places _ peeled (Nat.lt_succ_self _)

/-- Where one pair leads to another, the other one comes first if this one is freed sooner. -/
theorem Arranged.before_iff (distinct : Assoc.Distinct ps) {sorted : List Pair}
    (arranged : Arranged ps sorted) {p q : Pair} (one : p ∈ ps) (other : q ∈ ps) (apart : p ≠ q)
    (leads : Leads p q) (uncommon : ¬Common Leads ps p q) :
    Before sorted q p ↔ Sooner Leads ps p q := by
  obtain ⟨freed, rest, rfl, perm, sooner, all, never⟩ := arranged
  have nodup : ps.Nodup := by
    refine distinct.imp ?_
    rintro p q differ rfl
    exact absurd BEq.rfl (differ ▸ Bool.false_ne_true)
  have frees : ∀ r ∈ ps, ∀ k, Freed Leads ps k r → r ∈ freed := by
    intro r member k led
    refine (List.mem_append.mp (perm.mem_iff.mpr member)).resolve_right fun inside => ?_
    exact never r inside k led
  have first : p ∈ freed := by
    by_contra missing
    have led : ∀ k, ¬Freed Leads ps k p := fun k led => missing (frees p one k led)
    exact uncommon (common_of_unfreed (leads_unique distinct) led ⟨one, other, leads⟩)
  obtain ⟨k, led⟩ := all p first
  have second : q ∈ freed := frees q other (k + 1) ⟨other, p, led, leads⟩
  have nodup' : (freed.reverse ++ rest).Nodup :=
    (((List.reverse_perm freed).append_right rest).trans perm).nodup_iff.mpr nodup
  constructor
  · intro before
    rcases before_or_before first second apart with ahead | behind
    · exact List.pairwise_iff_forall_sublist.mp sooner ahead
    · have back := behind.reverse.mono (List.sublist_append_left freed.reverse rest)
      exact absurd before (back.asymm nodup')
  · intro early
    rcases before_or_before first second apart with ahead | behind
    · exact ahead.reverse.mono (List.sublist_append_left _ _)
    · exact absurd (List.pairwise_iff_forall_sublist.mp sooner behind) (early.asymm nodup led)

end rounds

/-- `2` to `3`, `1` to `2` and `3` to `4`. -/
def chain : List Pair :=
  [(⟨0, [50]⟩, ⟨0, [51]⟩), (⟨1, [49]⟩, ⟨1, [50]⟩), (⟨2, [51]⟩, ⟨2, [52]⟩)]

/-- `a` and `c` to `n`, `b` to `c` and `n` to `m`. -/
def collision : List Pair :=
  [(⟨0, [97]⟩, ⟨0, [110]⟩), (⟨1, [98]⟩, ⟨1, [99]⟩), (⟨2, [99]⟩, ⟨2, [110]⟩),
    (⟨3, [110]⟩, ⟨3, [109]⟩)]

/-- Where no name is given twice, each pair comes behind the one that it has to wait for. -/
theorem prioritizedPaths_of_unique {ps : List Pair} (distinct : Assoc.Distinct ps)
    (unique : ps.Pairwise fun p q => (p.2 == q.2) = false) :
    ∃ sorted, prioritizedPaths (ps.map Prod.fst) (ps.map Prod.snd) = some sorted ∧
      sorted.Perm ps ∧
      ∀ p ∈ ps, ∀ q ∈ ps, p ≠ q → Leads p q → ¬Common Leads ps p q → Before sorted q p := by
  obtain ⟨sorted, given, arranged⟩ := prioritizedPaths_arranged distinct
  refine ⟨sorted, given, arranged.perm, ?_⟩
  intro p one q other apart leads uncommon
  refine (arranged.before_iff distinct one other apart leads uncommon).mpr ?_
  refine sooner_of_unique (fun r third leads' => ?_) ⟨one, other, leads⟩
  by_contra apart'
  have symmetric : Std.Symm fun p q : Pair => (p.2 == q.2) = false :=
    ⟨fun p q differ => by rwa [BEq.comm]⟩
  have differ : (r.2 == p.2) = false := List.Pairwise.forall unique third one apart'
  have same : (r.2 == p.2) = true := BEq.trans leads' (BEq.symm leads)
  rw [differ] at same
  cases same

end Yazi.Actor
