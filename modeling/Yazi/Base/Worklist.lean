import Mathlib.Data.List.Nodup
import Mathlib.Data.List.Perm.Subperm
import Mathlib.Logic.Relation

/-!
Going through a tree with a queue.

Each item, when its turn comes, leaves some records and puts what it leads to at the end of the
queue. Where the items form a finite tree, the queue runs empty after every item had its turn
once, no item before those that lead to it.
-/
namespace Yazi.Base.Worklist

variable {α κ ε : Type}

/-- Works through the queue: `none` where an item is stuck, or the fuel runs out. -/
def drain (visit : α → Option (List ε × List α)) : Nat → List α → List ε → Option (List ε)
  | _, [], log => some log
  | 0, _ :: _, _ => none
  | fuel + 1, a :: todo, log =>
    match visit a with
    | none => none
    | some (records, found) => drain visit fuel (todo ++ found) (log ++ records)

variable (next : α → List α) (key : α → κ) (root : α)

inductive Reach : α → Prop
  | root : Reach root
  | step {a c : α} : Reach a → c ∈ next a → Reach c

/-- `p` leads to `c`, over any number of items. -/
abbrev Above (p c : α) : Prop := Relation.TransGen (fun a b => b ∈ next a) p c

/-- Items are found once, from one item only, and the root from none. -/
structure Tree : Prop where
  distinct : ∀ a, Reach next root a → ((next a).map key).Nodup
  parents : ∀ a b c d, Reach next root a → Reach next root b → c ∈ next a → d ∈ next b →
    key c = key d → a = b
  top : ∀ a c, Reach next root a → c ∈ next a → key c ≠ key root

/-- `order` has every reachable item once, none before those above it. -/
structure Enumerates (order : List α) : Prop where
  nodup : (order.map key).Nodup
  complete : ∀ a, a ∈ order ↔ Reach next root a
  ordered : order.Pairwise fun a b => ¬Above next b a

/-- Between two turns: `done` had their turn, `todo` are in the queue. -/
private structure Inv (done todo : List α) : Prop where
  nodup : ((done ++ todo).map key).Nodup
  reach : ∀ x ∈ done ++ todo, Reach next root x
  start : root ∈ done ++ todo
  closed : ∀ a ∈ done, ∀ c ∈ next a, c ∈ done ++ todo
  above : ∀ x ∈ done ++ todo, ∀ p, Reach next root p → Above next p x → p ∈ done
  ordered : (done ++ todo).Pairwise fun x y => ¬Above next y x

variable {next key root}

/-- Above an item lies one that leads to it, itself at or below the upper one. -/
private theorem last_step {p c : α} (above : Above next p c) (reach : Reach next root p) :
    ∃ b, Reach next root b ∧ c ∈ next b ∧ (p = b ∨ Above next p b) := by
  obtain ⟨b, upper, last⟩ := Relation.TransGen.tail'_iff.mp above
  refine ⟨b, ?_, last, ?_⟩
  · clear above last
    induction upper with
    | refl => exact reach
    | tail _ step ih => exact .step ih step
  · rcases Relation.reflTransGen_iff_eq_or_transGen.mp upper with same | upper
    · exact .inl same.symm
    · exact .inr upper

private theorem inv_start (tree : Tree next key root) : Inv next key root [] [root] where
  nodup := List.nodup_singleton _
  reach x member := by
    obtain rfl := List.mem_singleton.mp member
    exact .root
  start := List.mem_singleton_self _
  closed := nofun
  above x member p reach above := by
    obtain rfl := List.mem_singleton.mp member
    obtain ⟨b, reachB, found, -⟩ := last_step above reach
    exact absurd rfl (tree.top b x reachB found)
  ordered := List.pairwise_singleton _ _

/-- What the next item leads to is new. -/
private theorem Inv.fresh (tree : Tree next key root) {done todo : List α} {a : α}
    (inv : Inv next key root done (a :: todo)) :
    ∀ c ∈ next a, ∀ x ∈ done ++ a :: todo, key c ≠ key x := by
  intro c found x member same
  have reachA := inv.reach a (by simp)
  cases inv.reach x member with
  | root => exact tree.top a c reachA found same
  | step reachP from' =>
    obtain rfl := tree.parents _ _ c x reachA reachP found from' same
    have early := inv.above x member a reachA (.single from')
    have twice := inv.nodup
    rw [List.map_append, List.nodup_append] at twice
    exact twice.2.2 _ (List.mem_map_of_mem early) _ (List.mem_map_of_mem List.mem_cons_self) rfl

/-- Each turn keeps the invariant. -/
private theorem Inv.turn (tree : Tree next key root) {done todo : List α} {a : α}
    (inv : Inv next key root done (a :: todo)) :
    Inv next key root (done ++ [a]) (todo ++ next a) := by
  have reachA := inv.reach a (by simp)
  have fresh := inv.fresh tree
  have same : done ++ [a] ++ (todo ++ next a) = done ++ a :: todo ++ next a := by simp
  have upper : ∀ c ∈ next a, ∀ p, Reach next root p → Above next p c → p ∈ done ++ [a] := by
    intro c found p reach above
    obtain ⟨b, reachB, from', higher⟩ := last_step above reach
    obtain rfl := tree.parents a b c c reachA reachB found from' rfl
    rcases higher with rfl | higher
    · simp
    · exact List.mem_append_left _ (inv.above a (by simp) p reach higher)
  -- An item that is not new is above none of those before it.
  have late : ∀ c ∈ next a, c ∉ done ++ [a] := by
    intro c found member
    refine fresh c found c ?_ rfl
    rcases List.mem_append.mp member with early | here
    · exact List.mem_append_left _ early
    · obtain rfl := List.mem_singleton.mp here
      simp
  refine ⟨?_, ?_, ?_, ?_, ?_, ?_⟩
  · rw [same, List.map_append, List.nodup_append]
    refine ⟨inv.nodup, tree.distinct a reachA, ?_⟩
    intro k old k' new
    obtain ⟨x, member, rfl⟩ := List.mem_map.mp old
    obtain ⟨c, found, rfl⟩ := List.mem_map.mp new
    exact (fresh c found x member).symm
  · rw [same]
    intro x member
    rcases List.mem_append.mp member with old | new
    · exact inv.reach x old
    · exact .step reachA new
  · rw [same]
    exact List.mem_append_left _ inv.start
  · rw [same]
    intro x member c found
    rcases List.mem_append.mp member with old | new
    · exact List.mem_append_left _ (inv.closed x old c found)
    · obtain rfl := List.mem_singleton.mp new
      exact List.mem_append_right _ found
  · rw [same]
    intro x member p reach above
    rcases List.mem_append.mp member with old | new
    · exact List.mem_append_left _ (inv.above x old p reach above)
    · exact upper x new p reach above
  · rw [same, List.pairwise_append]
    refine ⟨inv.ordered, ?_, ?_⟩
    · refine List.pairwise_of_forall_mem_list fun x first y second above => ?_
      exact late y second (upper x first y (.step reachA second) above)
    · intro x old c new above
      have early := inv.above x old c (.step reachA new) above
      exact late c new (List.mem_append_left _ early)

private theorem Inv.enumerates {done : List α} (inv : Inv next key root done []) :
    Enumerates next key root done := by
  obtain ⟨nodup, reach, start, closed, -, ordered⟩ := inv
  rw [List.append_nil] at nodup reach start closed ordered
  refine ⟨nodup, fun a => ⟨reach a, fun path => ?_⟩, ordered⟩
  induction path with
  | root => exact start
  | step _ found ih => exact closed _ ih _ found

/-- The queue of a finite tree runs empty, and the records are those of every item in turn. -/
theorem drain_tree {visit : α → Option (List ε × List α)} {records : α → List ε}
    (visits : ∀ a, Reach next root a → visit a = some (records a, next a))
    (tree : Tree next key root) {all : List α} (finite : ∀ a, Reach next root a → a ∈ all)
    {fuel : Nat} (enough : all.length ≤ fuel) :
    ∃ order, Enumerates next key root order ∧
      drain visit fuel [root] [] = some (order.flatMap records) := by
  have each : ∀ (fuel : Nat) (done todo : List α), Inv next key root done todo →
      all.length ≤ fuel + done.length → ∃ order, Enumerates next key root order ∧
        drain visit fuel todo (done.flatMap records) = some (order.flatMap records) := by
    intro fuel
    induction fuel with
    | zero =>
      intro done todo inv enough
      cases todo with
      | nil => exact ⟨done, inv.enumerates, rfl⟩
      | cons a todo =>
        have members : done ++ [a] ⊆ all := by
          intro x member
          refine finite x (inv.reach x ?_)
          rcases List.mem_append.mp member with early | here
          · exact List.mem_append_left _ early
          · obtain rfl := List.mem_singleton.mp here
            simp
        have distinct : (done ++ [a]).Nodup := by
          have whole : (done ++ a :: todo).Nodup := inv.nodup.of_map _
          refine whole.sublist ?_
          exact List.Sublist.append_left (List.singleton_sublist.mpr List.mem_cons_self) done
        have short := (distinct.subperm members).length_le
        rw [List.length_append, List.length_singleton] at short
        omega
    | succ fuel ih =>
      intro done todo inv enough
      cases todo with
      | nil => exact ⟨done, inv.enumerates, by rw [drain]⟩
      | cons a todo =>
        have here := visits a (inv.reach a (by simp))
        obtain ⟨order, enumerates, drained⟩ := ih (done ++ [a]) (todo ++ next a) (inv.turn tree)
          (by rw [List.length_append, List.length_singleton]; omega)
        refine ⟨order, enumerates, ?_⟩
        rw [drain, here]
        simpa using drained
  exact each fuel [] [root] (inv_start tree) (by simpa using enough)

end Yazi.Base.Worklist
