import Mathlib.Data.List.Sort
import Yazi.Base.Keyed
import Yazi.Base.Peeling
import Yazi.Shared.Path

/-!
The order in which files are renamed in bulk.

A file that is to get the name of another one has to wait until that one is renamed. The pairs are
peeled from those that nothing waits for, and renamed the other way round; what is left are cycles.
-/
namespace Yazi.Actor

open Yazi.Base
open Yazi.Shared

/-- `Tuple`: the name in its place. Places do not count where tuples are compared. -/
structure Tuple where
  index : Nat
  inner : Bytes
  deriving Repr, DecidableEq

namespace Tuple

instance : BEq Tuple := ⟨fun a b => a.inner = b.inner⟩

theorem beq_iff {a b : Tuple} : (a == b) = true ↔ a.inner = b.inner :=
  decide_eq_true_iff

instance : EquivBEq Tuple where
  rfl := beq_iff.mpr rfl
  symm same := beq_iff.mpr (beq_iff.mp same).symm
  trans one other := beq_iff.mpr ((beq_iff.mp one).trans (beq_iff.mp other))

end Tuple

/-- An old name and the new one. -/
abbrev Pair := Tuple × Tuple

/-- Collects into a map. -/
def collect {ν : Type} (l : List (Tuple × ν)) : Assoc Tuple ν :=
  l.foldl (fun m e => m.insert e.1 e.2) []

/-- `incomes.get_mut(t).map(|b| *b = value)`. -/
def flag (incomes : Assoc Tuple Bool) (t : Tuple) (value : Bool) : Assoc Tuple Bool :=
  match incomes.get? t with
  | none => incomes
  | some _ => incomes.insert t value

def order (orders : Assoc Tuple Nat) (t : Tuple) : Nat := (orders.get? t).getD 0

/-- What the loop of `prioritized_paths` keeps. -/
structure Bulk where
  incomes : Assoc Tuple Bool
  todos : Assoc Tuple Tuple
  sorted : List Pair

namespace Bulk

/-- One turn of the inner loop: `none` where the code is unreachable. -/
def take (s : Bulk) (old : Tuple) : Option Bulk :=
  (s.todos.get? old).map fun new =>
    { incomes := flag (s.incomes.erase old) new false
      todos := s.todos.erase old
      sorted := s.sorted ++ [(old, new)] }

/-- The names that nothing waits for, from behind. The maps are read in any order, as what is
collected is sorted by the places. -/
def outcomes (orders : Assoc Tuple Nat) (s : Bulk) : List Tuple :=
  ((s.incomes.filter fun e => !e.2).map Prod.fst).insertionSort fun a b =>
    order orders b ≤ order orders a

/-- What is left are cycles, in their order. -/
def remain (orders : Assoc Tuple Nat) (s : Bulk) : List Pair :=
  s.todos.insertionSort fun a b => order orders a.1 ≤ order orders b.1

/-- The outer loop for so many turns: `none` where they do not suffice. -/
def rounds (orders : Assoc Tuple Nat) : Nat → Bulk → Option (List Pair)
  | 0, _ => none
  | n + 1, s =>
    if s.todos.isEmpty then some s.sorted.reverse
    else if (s.outcomes orders).isEmpty then some (s.sorted.reverse ++ s.remain orders)
    else ((s.outcomes orders).foldlM take s).bind (rounds orders n)

end Bulk

/-- `prioritized_paths`, with one turn more than there are pairs. -/
def prioritizedPaths (old new : List Tuple) : Option (List Pair) :=
  let pairs := old.zip new
  let incomes := pairs.foldl (fun m p => flag m p.2 true) (collect (old.map (·, false)))
  Bulk.rounds (collect old.zipIdx) (old.length + 1) ⟨incomes, collect pairs, []⟩

/-! ### Maps of distinct names -/

section maps
variable {ν : Type}

theorem collect_eq {l : List (Tuple × ν)} (distinct : Assoc.Distinct l) : collect l = l := by
  have each (l m : List (Tuple × ν)) (distinct : Assoc.Distinct (m ++ l)) :
      l.foldl (fun m e => Assoc.insert m e.1 e.2) m = m ++ l := by
    induction l generalizing m with
    | nil => exact (List.append_nil m).symm
    | cons e l ih =>
      have new : ∀ entry ∈ m, (e.1 == entry.1) = false := by
        intro entry member
        rw [BEq.comm]
        exact (List.pairwise_append.mp distinct).2.2 entry member e List.mem_cons_self
      rw [List.foldl_cons, Assoc.insert_of_new _ new, ih, List.append_assoc]
      · rfl
      · rwa [List.append_assoc]
  exact each l [] distinct

private theorem flag_cons (e : Tuple × Bool) (m : Assoc Tuple Bool) (t : Tuple) (value : Bool) :
    flag (e :: m) t value = if t == e.1 then (e.1, value) :: m else e :: flag m t value := by
  obtain ⟨k, v⟩ := e
  rw [flag, Assoc.get?_cons]
  by_cases same : (t == k) = true
  · rw [if_pos same, if_pos same]
    exact if_pos same
  · rw [if_neg same, if_neg same, flag]
    cases m.get? t with
    | none => rfl
    | some old => exact if_neg same

/-- One flag is set, the others stay. -/
theorem flag_map {l : List Pair} (distinct : Assoc.Distinct l) (g : Pair → Bool) (t : Tuple)
    (value : Bool) : flag (l.map fun p => (p.1, g p)) t value =
      l.map fun p => (p.1, if t == p.1 then value else g p) := by
  induction l with
  | nil => rfl
  | cons p l ih =>
    obtain ⟨apart, distinct⟩ := List.pairwise_cons.mp distinct
    rw [List.map_cons, List.map_cons, flag_cons]
    by_cases same : (t == p.1) = true
    · rw [if_pos same, if_pos same]
      congr 1
      apply List.map_congr_left
      intro q member
      have other : ¬(t == q.1) = true := by
        rw [BEq.congr_left same, apart q member]
        exact Bool.false_ne_true
      rw [if_neg other]
    · rw [if_neg same, if_neg same, ih distinct]

end maps

/-! ### The inner loop -/

namespace Bulk

/-- The pairs that are not done yet, with the flags of their old names. -/
structure Holds (s : Bulk) (live : List Pair) (income : Pair → Bool) : Prop where
  distinct : Assoc.Distinct live
  todos : s.todos = live
  incomes : s.incomes = live.map fun p => (p.1, income p)

private theorem erase_map (live : List Pair) (income : Pair → Bool) (t : Tuple) :
    Assoc.erase (live.map fun p => (p.1, income p)) t =
      (live.filter fun p => !(t == p.1)).map fun p => (p.1, income p) := by
  rw [Assoc.erase, List.filter_map]
  rfl

/-- Taking one of them frees the one that its new name belongs to. -/
theorem take_spec {s : Bulk} {live : List Pair} {income : Pair → Bool} (holds : s.Holds live income)
    {p : Pair} (member : p ∈ live) :
    ∃ t, s.take p.1 = some t ∧ t.sorted = s.sorted ++ [p] ∧
      t.Holds (live.filter fun q => !(p.1 == q.1))
        fun q => if p.2 == q.1 then false else income q := by
  have found : s.todos.get? p.1 = some p.2 := by
    rw [holds.todos]
    exact Assoc.get?_of_mem holds.distinct member
  refine ⟨_, by rw [take, found, Option.map_some], rfl, holds.distinct.filter _, ?_, ?_⟩
  · rw [holds.todos]
    rfl
  · rw [holds.incomes, erase_map, flag_map (holds.distinct.filter _)]

/-- Taking several, one after another. -/
theorem foldlM_take {taken : List Pair} (apart : Assoc.Distinct taken) {s : Bulk} {live : List Pair}
    {income : Pair → Bool} (holds : s.Holds live income) (among : ∀ p ∈ taken, p ∈ live) :
    ∃ t, (taken.map Prod.fst).foldlM take s = some t ∧ t.sorted = s.sorted ++ taken ∧
      t.Holds (live.filter fun q => !taken.any fun p => p.1 == q.1)
        fun q => if taken.any (fun p => p.2 == q.1) then false else income q := by
  induction taken generalizing s live income with
  | nil =>
    refine ⟨s, rfl, (List.append_nil _).symm, ?_⟩
    have all : (live.filter fun q => !([] : List Pair).any fun p => p.1 == q.1) = live :=
      List.filter_eq_self.mpr fun _ _ => rfl
    rw [all]
    exact holds
  | cons p taken ih =>
    obtain ⟨first, apart⟩ := List.pairwise_cons.mp apart
    obtain ⟨t, took, sorted, holds'⟩ := take_spec holds (among p List.mem_cons_self)
    have among' : ∀ q ∈ taken, q ∈ live.filter fun q => !(p.1 == q.1) := by
      intro q member
      refine List.mem_filter.mpr ⟨among q (List.mem_cons_of_mem _ member), ?_⟩
      rw [first q member]
      rfl
    obtain ⟨u, took', sorted', holds''⟩ := ih apart holds' among'
    refine ⟨u, ?_, ?_, ?_⟩
    · rw [List.map_cons, List.foldlM_cons, took]
      exact took'
    · rw [sorted', sorted, List.append_assoc, List.singleton_append]
    · have live' : (live.filter fun q => !(p :: taken).any fun p => p.1 == q.1) =
          (live.filter fun q => !(p.1 == q.1)).filter fun q => !taken.any fun p => p.1 == q.1 := by
        rw [List.filter_filter]
        apply List.filter_congr
        intro q _
        rw [List.any_cons, Bool.not_or, Bool.and_comm]
      have income' : (fun q => if (p :: taken).any (fun p => p.2 == q.1) then false else income q) =
          fun q => if taken.any (fun p => p.2 == q.1) then false
            else if p.2 == q.1 then false else income q := by
        funext q
        rw [List.any_cons]
        cases p.2 == q.1 <;> cases taken.any (fun p => p.2 == q.1) <;> rfl
      rw [live', income']
      exact holds''

end Bulk

end Yazi.Actor
