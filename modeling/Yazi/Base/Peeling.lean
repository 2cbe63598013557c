import Mathlib.Data.Set.Finite.List
import Mathlib.Dynamics.PeriodicPts.Lemmas
import Mathlib.Logic.Relation

/-!
Peeling a graph from its sources.

The vertices are those of a list. What nothing leads to is freed at once, and any other vertex one
round after something that leads to it. Where no vertex leads to two others, what is never freed
lies on a cycle.
-/
namespace Yazi.Base.Peeling

open Relation

section order
variable {α : Type}

/-- One stands before the other. -/
def Before (l : List α) (a b : α) : Prop := [a, b].Sublist l

theorem pairwise_before (l : List α) : l.Pairwise (Before l) :=
  List.pairwise_iff_forall_sublist.mpr id

theorem Before.mono {l m : List α} {a b : α} (before : Before l a b) (sub : l.Sublist m) :
    Before m a b :=
  List.Sublist.trans before sub

theorem Before.reverse {l : List α} {a b : α} (before : Before l a b) : Before l.reverse b a :=
  List.Sublist.reverse before

theorem Before.mem {l : List α} {a b : α} (before : Before l a b) : a ∈ l ∧ b ∈ l :=
  ⟨before.subset List.mem_cons_self, before.subset (List.mem_cons_of_mem _ List.mem_cons_self)⟩

theorem Before.asymm {l : List α} (nodup : l.Nodup) {a b : α} (before : Before l a b) :
    ¬Before l b a := by
  induction l with
  | nil => cases before
  | cons c l ih =>
    obtain ⟨fresh, rest⟩ := List.nodup_cons.mp nodup
    intro back
    rcases List.sublist_cons_iff.mp before with inside | ⟨r, same, tail⟩
    · rcases List.sublist_cons_iff.mp back with inside' | ⟨r', same', tail'⟩
      · exact ih rest inside inside'
      · obtain ⟨rfl, rfl⟩ := List.cons.inj same'
        exact fresh (Before.mem inside).2
    · obtain ⟨rfl, rfl⟩ := List.cons.inj same
      rcases List.sublist_cons_iff.mp back with inside' | ⟨r', same', tail'⟩
      · exact fresh (Before.mem inside').2
      · obtain ⟨rfl, rfl⟩ := List.cons.inj same'
        exact fresh (tail.subset List.mem_cons_self)

theorem before_or_before {l : List α} {a b : α} (one : a ∈ l) (other : b ∈ l) (apart : a ≠ b) :
    Before l a b ∨ Before l b a := by
  induction l with
  | nil => cases one
  | cons c l ih =>
    rcases List.mem_cons.mp one with rfl | inside
    · left
      have behind : b ∈ l := (List.mem_cons.mp other).resolve_left (Ne.symm apart)
      exact List.Sublist.cons_cons _ (List.singleton_sublist.mpr behind)
    · rcases List.mem_cons.mp other with rfl | inside'
      · right
        exact List.Sublist.cons_cons _ (List.singleton_sublist.mpr inside)
      · exact (ih inside inside').imp (Before.mono · (List.sublist_cons_self ..))
          (Before.mono · (List.sublist_cons_self ..))

end order

/-- In a finite graph where everything is led to and nothing leads to two, all lies on cycles. -/
theorem transGen_self {V : Type} [Finite V] {R : V → V → Prop}
    (functional : ∀ u v w, R u v → R u w → v = w) (entered : ∀ v, ∃ u, R u v) (v : V) :
    TransGen R v v := by
  choose source leads using entered
  have injective : Function.Injective source := by
    intro u w same
    exact functional (source u) u w (leads u) (same ▸ leads w)
  have walk (n : Nat) : TransGen R (source^[n + 1] v) v := by
    induction n with
    | zero => exact .single (leads v)
    | succ n ih =>
      rw [Function.iterate_succ_apply']
      exact .head (leads _) ih
  obtain ⟨n, positive, back⟩ := injective.mem_periodicPts v
  obtain ⟨n, rfl⟩ := Nat.exists_eq_succ_of_ne_zero (Nat.ne_of_gt positive)
  have cycle := walk n
  rwa [back.eq] at cycle

section peeling
variable {α : Type} (leads : α → α → Prop) (vertices : List α)

/-- Freed so many rounds after the first. -/
def Freed : Nat → α → Prop
  | 0, b => b ∈ vertices ∧ ∀ a ∈ vertices, ¬leads a b
  | k + 1, b => b ∈ vertices ∧ ∃ a, Freed k a ∧ leads a b

def Edge (a b : α) : Prop := a ∈ vertices ∧ b ∈ vertices ∧ leads a b

/-- On a common cycle. -/
def Common (a b : α) : Prop :=
  TransGen (Edge leads vertices) a b ∧ TransGen (Edge leads vertices) b a

/-- Freed in an earlier round than another one can be, or in the same one and behind it. -/
def Sooner (a b : α) : Prop :=
  ∀ k, Freed leads vertices k b →
    (∃ j < k, Freed leads vertices j a) ∨ Freed leads vertices k a ∧ Before vertices b a

variable {leads vertices}

theorem Freed.mem {k : Nat} {b : α} (freed : Freed leads vertices k b) : b ∈ vertices := by
  cases k with
  | zero => exact freed.1
  | succ k => exact freed.1

/-- What is never freed lies on a cycle with what it leads to. -/
theorem common_of_unfreed
    (functional : ∀ a ∈ vertices, ∀ b ∈ vertices, ∀ c ∈ vertices, leads a b → leads a c → b = c)
    {a b : α} (never : ∀ k, ¬Freed leads vertices k a) (edge : Edge leads vertices a b) :
    Common leads vertices a b := by
  -- The vertices that are never freed, each led to by another such one.
  let V := { v : α // v ∈ vertices ∧ ∀ k, ¬Freed leads vertices k v }
  have finite : Finite V :=
    ((List.finite_toSet vertices).subset fun v (member : v ∈ _ ∧ _) => member.1).to_subtype
  let R (u v : V) : Prop := Edge leads vertices u.1 v.1
  have entered : ∀ v : V, ∃ u, R u v := by
    rintro ⟨v, member, never⟩
    have some : ∃ u ∈ vertices, leads u v := by
      by_contra none
      exact never 0 ⟨member, fun u among led => none ⟨u, among, led⟩⟩
    obtain ⟨u, among, led⟩ := some
    exact ⟨⟨u, among, fun k freed => never (k + 1) ⟨member, u, freed, led⟩⟩, among, member, led⟩
  have cycle : TransGen R ⟨a, edge.1, never⟩ ⟨a, edge.1, never⟩ := by
    refine transGen_self (fun u v w one other => Subtype.ext ?_) entered _
    exact functional _ one.1 _ one.2.1 _ other.2.1 one.2.2 other.2.2
  have cycle' : TransGen (Edge leads vertices) a a :=
    cycle.lift (fun v : V => v.1) fun _ _ edge => edge
  refine ⟨.single edge, ?_⟩
  -- The walk back begins with the only edge that there is.
  obtain ⟨c, step, rest⟩ := TransGen.head'_iff.mp cycle'
  obtain rfl := functional a edge.1 b edge.2.1 c step.2.1 edge.2.2 step.2.2
  rcases ReflTransGen.cases_head_iff.mp rest with rfl | ⟨d, first, later⟩
  · exact .single edge
  · exact TransGen.head' first later

/-- What alone leads to another one is freed in the round before. -/
theorem sooner_of_unique {a b : α} (unique : ∀ c ∈ vertices, leads c b → c = a)
    (edge : Edge leads vertices a b) : Sooner leads vertices a b := by
  intro k freed
  cases k with
  | zero => exact absurd edge.2.2 (freed.2 a edge.1)
  | succ k =>
    obtain ⟨-, c, earlier, led⟩ := freed
    obtain rfl := unique c earlier.mem led
    exact .inl ⟨k, Nat.lt_succ_self k, earlier⟩

/-- Of two that are freed, not both are sooner. -/
theorem Sooner.asymm (nodup : vertices.Nodup) {a b : α} {k : Nat}
    (freed : Freed leads vertices k a) (sooner : Sooner leads vertices a b) :
    ¬Sooner leads vertices b a := by
  classical
  intro back
  have some : ∃ k, Freed leads vertices k a := ⟨k, freed⟩
  rcases back _ (Nat.find_spec some) with ⟨j, less, led⟩ | ⟨led, before⟩
  · rcases sooner j led with ⟨i, less', led'⟩ | ⟨led', -⟩
    · exact Nat.find_min some (Nat.lt_trans less' less) led'
    · exact Nat.find_min some less led'
  · rcases sooner _ led with ⟨i, less, led'⟩ | ⟨-, before'⟩
    · exact Nat.find_min some less led'
    · exact before.asymm nodup before'

end peeling

end Yazi.Base.Peeling
