import Mathlib
import Yazi.Base.Keyed
import Yazi.Scheduler.Size

/-!
What is left behind of a batch of size tasks.

Each target of a batch is either without a size, or in the buffer of the throttle, or in one of
the operations, and `sizing` has those of the first two kinds. The last task that hands in a size
empties the buffer, so that nothing is left where all tasks do. A task that is cancelled before
never does, and its target stays.
-/
namespace Yazi.Scheduler.Size
open Yazi.Base Yazi.Shared

-- ═══════════════════════════════════════════════════════════════
-- Operations
-- ═══════════════════════════════════════════════════════════════

/-- The sizes of an operation, each with its target. -/
def SizeOp.reported (op : SizeOp) : List (Target × Nat) :=
  op.sizes.map fun entry => (⟨op.trail, entry.1⟩, entry.2)

/-- Distinct keys go into a map one after the other. -/
theorem fromIter_of_nodup {sizes : List (Bytes × Nat)} (distinct : (sizes.map Prod.fst).Nodup) :
    fromIter sizes = sizes := by
  have grows : ∀ front : Assoc Bytes Nat, ((front ++ sizes).map Prod.fst).Nodup →
      sizes.foldl (fun map entry => map.insert entry.1 entry.2) front = front ++ sizes := by
    clear distinct
    induction sizes with
    | nil => simp
    | cons entry sizes ih =>
      intro front distinct
      have fresh : front.insert entry.1 entry.2 = front ++ [entry] := by
        apply Assoc.insert_of_new
        intro other member
        rw [beq_eq_false_iff_ne]
        rintro same
        simp only [List.map_append, List.map_cons, List.nodup_append] at distinct
        exact distinct.2.2 other.1 (List.mem_map_of_mem member) entry.1 (List.mem_cons_self ..)
          same.symm
      rw [List.foldl_cons, fresh, ih]
      · rw [List.append_assoc, List.singleton_append]
      · rwa [List.append_assoc, List.singleton_append]
  exact grows [] distinct

/-- A group is reported as it is. -/
theorem sizeOp_reported {buf : List (Target × Nat)} (filled : buf ≠ [])
    (distinct : (buf.map Prod.fst).Nodup) (named : ∀ e ∈ buf, e.1.key ≠ [])
    (trail : ∀ e ∈ buf, ∀ f ∈ buf, e.1.trail = f.1.trail) :
    ∃ op, sizeOp buf = some op ∧ op.reported = buf := by
  obtain ⟨first, rest, rfl⟩ := List.exists_cons_of_ne_nil filled
  have here : first ∈ first :: rest := List.mem_cons_self ..
  have pair : first.1.pair = some (first.1.trail, first.1.key) := if_neg (named first here)
  refine ⟨_, by rw [sizeOp, List.head?_cons, Option.bind_some, pair, Option.map_some], ?_⟩
  have keys : (((first :: rest).map fun entry => (entry.1.key, entry.2)).map Prod.fst).Nodup := by
    rw [List.map_map]
    rw [List.Nodup, List.pairwise_map] at distinct ⊢
    apply distinct.imp_of_mem
    intro e f left right other same
    have trail := trail e left f right
    obtain ⟨⟨_, _⟩, _⟩ := e
    obtain ⟨⟨_, _⟩, _⟩ := f
    cases trail
    cases same
    exact other rfl
  rw [SizeOp.reported, fromIter_of_nodup keys, List.map_map]
  conv_rhs => rw [← List.map_id (first :: rest)]
  apply List.map_congr_left
  intro e member
  have trail := trail first here e member
  obtain ⟨⟨_, _⟩, _⟩ := e
  cases trail
  rfl

-- ═══════════════════════════════════════════════════════════════
-- A batch
-- ═══════════════════════════════════════════════════════════════

namespace Batch
variable (b : Batch)

/-- Every target, and its size once that was handed in. -/
def rows : List (Target × Option Nat) := b.tasks.map fun t => (t.target, t.phase.size)

/-- What was handed in: what was reported of it, and what is still in the buffer. -/
def placed : List (Target × Nat) := b.ops.flatMap SizeOp.reported ++ b.throttle.buf

/-- The target is to be taken off `sizing` yet. -/
def Owes (t : Target) : Prop := (t, none) ∈ b.rows ∨ t ∈ b.throttle.buf.map Prod.fst

structure Sound : Prop where
  distinct : (b.rows.map Prod.fst).Nodup
  named : ∀ row ∈ b.rows, row.1.key ≠ []
  trail : ∀ row ∈ b.rows, ∀ other ∈ b.rows, row.1.trail = other.1.trail
  /-- As many as are still to hand in a size. -/
  total : b.throttle.total = b.rows.countP fun row => row.2.isNone
  once : (b.placed.map Prod.fst).Nodup
  sizes : ∀ t n, (t, n) ∈ b.placed ↔ (t, some n) ∈ b.rows
  flushed : b.throttle.total = 0 → b.throttle.buf = []

variable {b}

theorem Sound.unique (sound : b.Sound) {t : Target} {o o' : Option Nat} (left : (t, o) ∈ b.rows)
    (right : (t, o') ∈ b.rows) : o = o' := by
  have same := List.inj_on_of_nodup_map sound.distinct left right rfl
  exact congrArg Prod.snd same

/-- A target is in the batch. -/
theorem Sound.owes_mem (sound : b.Sound) {t : Target} (owes : b.Owes t) :
    t ∈ b.rows.map Prod.fst := by
  rcases owes with row | buffered
  · exact List.mem_map_of_mem row
  · obtain ⟨e, member, rfl⟩ := List.mem_map.mp buffered
    have row := (sound.sizes e.1 e.2).mp (List.mem_append_right _ member)
    exact List.mem_map_of_mem row

/-- The row of a task changes, and no other. -/
theorem mem_rows_set {rows : List (Target × Option Nat)} (distinct : (rows.map Prod.fst).Nodup)
    {k : Nat} {t : Target} {o o' : Option Nat} (here : rows[k]? = some (t, o))
    (row : Target × Option Nat) :
    row ∈ rows.set k (t, o') ↔ row = (t, o') ∨ row ∈ rows ∧ row.1 ≠ t := by
  obtain ⟨bound, same⟩ := List.getElem?_eq_some_iff.mp here
  constructor
  · intro member
    obtain ⟨j, found⟩ := List.getElem?_of_mem member
    rw [List.getElem?_set] at found
    split at found
    next =>
      cases found
      exact .inl rfl
    next apart =>
      refine .inr ⟨List.mem_of_getElem? found, ?_⟩
      intro equal
      obtain ⟨inside, rfl⟩ := List.getElem?_eq_some_iff.mp found
      apply apart
      have left : k < (rows.map Prod.fst).length := by rwa [List.length_map]
      have right : j < (rows.map Prod.fst).length := by rwa [List.length_map]
      apply (@List.Nodup.getElem_inj_iff _ _ distinct k left j right).mp
      rw [List.getElem_map, List.getElem_map, same, equal]
  · rintro (rfl | ⟨member, other⟩)
    · exact List.mem_set bound _
    · obtain ⟨j, found⟩ := List.getElem?_of_mem member
      have apart : k ≠ j := by
        rintro rfl
        cases here.symm.trans found
        exact other rfl
      apply List.mem_of_getElem?
      rw [List.getElem?_set_ne apart]
      exact found

/-- Where a size is still to be handed in, the buffer does not have it. -/
theorem Sound.fresh (sound : b.Sound) {t : Target} (waits : (t, none) ∈ b.rows) :
    t ∉ b.placed.map Prod.fst := by
  intro member
  obtain ⟨e, reported, rfl⟩ := List.mem_map.mp member
  cases sound.unique waits ((sound.sizes e.1 e.2).mp reported)

theorem names_set {rows : List (Target × Option Nat)} {k : Nat} {t : Target} {o o' : Option Nat}
    (here : rows[k]? = some (t, o)) : (rows.set k (t, o')).map Prod.fst = rows.map Prod.fst := by
  apply List.ext_getElem?
  intro j
  rw [List.getElem?_map, List.getElem?_map, List.getElem?_set]
  split
  next equal =>
    subst equal
    obtain ⟨bound, -⟩ := List.getElem?_eq_some_iff.mp here
    rw [if_pos bound, here]
    rfl
  next => rfl

/-- A task hands in its size. -/
theorem sound_done {k : Nat} {t : Target} {b' : Batch} (sound : b.Sound) (size : Nat)
    (here : b.rows[k]? = some (t, none)) (rows : b'.rows = b.rows.set k (t, some size))
    (total : b'.throttle.total + 1 = b.throttle.total)
    (placed : b'.placed = b.placed ++ [(t, size)])
    (flushed : b'.throttle.total = 0 → b'.throttle.buf = []) : b'.Sound := by
  have moved : ∀ row, row ∈ b.rows.set k (t, some size) ↔ _ := mem_rows_set sound.distinct here
  have waits : (t, none) ∈ b.rows := List.mem_of_getElem? here
  have fresh := sound.fresh waits
  have back : ∀ row ∈ b'.rows, ∃ o, (row.1, o) ∈ b.rows := by
    intro row member
    rw [rows, moved] at member
    rcases member with rfl | ⟨member, -⟩
    · exact ⟨none, waits⟩
    · exact ⟨row.2, member⟩
  constructor
  · rw [rows, names_set here]
    exact sound.distinct
  · intro row member
    obtain ⟨o, old⟩ := back row member
    exact sound.named (row.1, o) old
  · intro row member other also
    obtain ⟨o, old⟩ := back row member
    obtain ⟨o', old'⟩ := back other also
    exact sound.trail (row.1, o) old (other.1, o') old'
  · obtain ⟨bound, equal⟩ := List.getElem?_eq_some_iff.mp here
    have total' := sound.total
    have some : 0 < b.rows.countP fun row => row.2.isNone :=
      List.countP_pos_iff.mpr ⟨_, waits, rfl⟩
    rw [rows, List.countP_set bound, equal]
    simp only [Option.isNone_none, Option.isNone_some, if_true, Bool.false_eq_true, if_false]
    omega
  · rw [placed, List.map_append, List.nodup_append]
    refine ⟨sound.once, by simp, ?_⟩
    intro u member v new
    cases List.mem_singleton.mp new
    rintro rfl
    exact fresh member
  · intro u n
    rw [placed, rows, moved, List.mem_append, sound.sizes, List.mem_singleton]
    constructor
    · rintro (old | new)
      · refine .inr ⟨old, ?_⟩
        rintro rfl
        cases sound.unique waits old
      · cases new
        exact .inl rfl
    · rintro (new | ⟨old, -⟩)
      · cases new
        exact .inr rfl
      · exact .inl old
  · exact flushed

/-- A group is of targets of the batch. -/
theorem Sound.group (sound : b.Sound) {t : Target} (waits : (t, none) ∈ b.rows) (size : Nat) :
    ∃ op, sizeOp (b.throttle.buf ++ [(t, size)]) = some op ∧
      op.reported = b.throttle.buf ++ [(t, size)] := by
  have rows : ∀ e ∈ b.throttle.buf ++ [(t, size)], ∃ o, (e.1, o) ∈ b.rows := by
    intro e member
    rcases List.mem_append.mp member with old | new
    · exact ⟨_, (sound.sizes e.1 e.2).mp (List.mem_append_right _ old)⟩
    · cases List.mem_singleton.mp new
      exact ⟨_, waits⟩
  have fresh := sound.fresh waits
  have once := sound.once
  rw [placed, List.map_append] at fresh once
  apply sizeOp_reported
  · simp
  · rw [List.map_append, List.nodup_append]
    refine ⟨(List.nodup_append.mp once).2.1, by simp, ?_⟩
    intro u member v new
    cases List.mem_singleton.mp new
    rintro rfl
    exact fresh (List.mem_append_right _ member)
  · intro e member
    obtain ⟨o, row⟩ := rows e member
    exact sound.named (e.1, o) row
  · intro e member f also
    obtain ⟨o, row⟩ := rows e member
    obtain ⟨o', row'⟩ := rows f also
    exact sound.trail (e.1, o) row (f.1, o') row'

end Batch

-- ═══════════════════════════════════════════════════════════════
-- All batches
-- ═══════════════════════════════════════════════════════════════

structure Inv (s : State) : Prop where
  sound : ∀ b ∈ s.batches, b.Sound
  sizing : ∀ t, t ∈ s.sizing ↔ ∃ b ∈ s.batches, b.Owes t
  /-- A target is in no other batch before it is off `sizing`. -/
  later : ∀ (i j : Nat) (b c : Batch), i < j → s.batches[i]? = some b → s.batches[j]? = some c →
    ∀ t, b.Owes t → t ∉ c.rows.map Prod.fst
  underflow : s.underflow = false

variable {s s' : State} {i k : Nat} {b b' : Batch} {t : Task}

theorem inv_start : Inv {} where
  sound := nofun
  sizing := by simp
  later := nofun
  underflow := rfl

theorem Inv.apart (inv : Inv s) {j : Nat} {c : Batch} (other : i ≠ j)
    (here : s.batches[i]? = some b) (there : s.batches[j]? = some c) {t : Target}
    (owes : b.Owes t) : ¬c.Owes t := by
  intro also
  rcases Nat.lt_or_gt_of_ne other with before | after
  · exact inv.later i j b c before here there t owes
      ((inv.sound c (List.mem_of_getElem? there)).owes_mem also)
  · exact inv.later j i c b after there here t also
      ((inv.sound b (List.mem_of_getElem? here)).owes_mem owes)

/-- A batch moves on: it owes no more than before, and what it does not owe any more goes off
`sizing`. -/
theorem Inv.set (inv : Inv s) (here : s.batches[i]? = some b) (sound : b'.Sound)
    (names : b'.rows.map Prod.fst = b.rows.map Prod.fst) (less : ∀ t, b'.Owes t → b.Owes t)
    {sizing : List Target} (off : ∀ t, t ∈ sizing ↔ t ∈ s.sizing ∧ (b.Owes t → b'.Owes t)) :
    Inv { s.setBatch i b' with sizing } := by
  obtain ⟨bound, -⟩ := List.getElem?_eq_some_iff.mp here
  have split : ∀ (j : Nat) (c : Batch), (s.batches.set i b')[j]? = some c →
      (j = i ∧ c = b') ∨ (i ≠ j ∧ s.batches[j]? = some c) := by
    intro j c found
    rw [List.getElem?_set] at found
    split at found
    next equal =>
      cases found
      exact .inl ⟨equal.symm, rfl⟩
    next other => exact .inr ⟨other, found⟩
  constructor
  · intro c member
    obtain ⟨j, found⟩ := List.getElem?_of_mem member
    rcases split j c found with ⟨-, rfl⟩ | ⟨-, old⟩
    · exact sound
    · exact inv.sound c (List.mem_of_getElem? old)
  · intro t
    change t ∈ sizing ↔ ∃ c ∈ s.batches.set i b', c.Owes t
    rw [off, inv.sizing]
    constructor
    · rintro ⟨⟨c, member, owes⟩, kept⟩
      obtain ⟨j, found⟩ := List.getElem?_of_mem member
      by_cases equal : i = j
      · subst equal
        cases here.symm.trans found
        exact ⟨b', List.mem_set bound b', kept owes⟩
      · have still : (s.batches.set i b')[j]? = some c := by
          rw [List.getElem?_set_ne equal]
          exact found
        exact ⟨c, List.mem_of_getElem? still, owes⟩
    · rintro ⟨c, member, owes⟩
      obtain ⟨j, found⟩ := List.getElem?_of_mem member
      rcases split j c found with ⟨-, rfl⟩ | ⟨other, old⟩
      · exact ⟨⟨b, List.mem_of_getElem? here, less t owes⟩, fun _ => owes⟩
      · exact ⟨⟨c, List.mem_of_getElem? old, owes⟩,
          fun owed => absurd owes (inv.apart other here old owed)⟩
  · intro j l c d before left right t owes
    have left' : ∃ c', s.batches[j]? = some c' ∧ c'.Owes t := by
      rcases split j c left with ⟨rfl, rfl⟩ | ⟨-, old⟩
      · exact ⟨b, here, less t owes⟩
      · exact ⟨c, old, owes⟩
    have right' : ∃ d', s.batches[l]? = some d' ∧ d'.rows.map Prod.fst = d.rows.map Prod.fst := by
      rcases split l d right with ⟨rfl, rfl⟩ | ⟨-, old⟩
      · exact ⟨b, here, names.symm⟩
      · exact ⟨d, old, rfl⟩
    obtain ⟨c', old, owed⟩ := left'
    obtain ⟨d', old', same⟩ := right'
    rw [← same]
    exact inv.later j l c' d' before old old' t owed
  · exact inv.underflow

-- ═══════════════════════════════════════════════════════════════
-- Steps
-- ═══════════════════════════════════════════════════════════════

theorem task_eq {j : Nat} (found : s.task i j = some (b, t)) :
    s.batches[i]? = some b ∧ b.tasks[j]? = some t := by
  obtain ⟨b, here, found⟩ := Option.bind_eq_some_iff.mp found
  obtain ⟨t, there, ⟨⟩⟩ := Option.map_eq_some_iff.mp found
  exact ⟨here, there⟩

theorem rows_set (b : Batch) (k : Nat) (t : Task) :
    (b.tasks.set k t).map (fun t => (t.target, t.phase.size)) =
      b.rows.set k (t.target, t.phase.size) :=
  List.map_set

theorem rows_here (there : b.tasks[k]? = some t) : b.rows[k]? = some (t.target, t.phase.size) := by
  rw [Batch.rows, List.getElem?_map, there]
  rfl

/-- A task gets on without handing anything in. -/
theorem inv_setPhase {phase : Phase} (inv : Inv s) (found : s.task i k = some (b, t))
    (same : phase.size = t.phase.size) : Inv (s.setPhase i k b t phase) := by
  obtain ⟨here, there⟩ := task_eq found
  have rows : ({ b with tasks := b.tasks.set k { t with phase } } : Batch).rows = b.rows := by
    rw [Batch.rows, rows_set, same]
    have row := rows_here there
    obtain ⟨bound, equal⟩ := List.getElem?_eq_some_iff.mp row
    rw [← equal, List.set_getElem_self]
  have sound := inv.sound b (List.mem_of_getElem? here)
  refine inv.set here ?_ ?_ ?_ ?_
  · exact ⟨rows ▸ sound.distinct, rows ▸ sound.named, rows ▸ sound.trail, rows ▸ sound.total,
      sound.once, rows ▸ sound.sizes, sound.flushed⟩
  · rw [rows]
  · intro u owes
    rw [Batch.Owes, rows] at owes
    exact owes
  · intro u
    rw [Batch.Owes, Batch.Owes, rows]
    exact ⟨fun here => ⟨here, id⟩, And.left⟩

theorem inv_done {size : Nat} {elapsed : Bool} (inv : Inv s) (found : s.task i k = some (b, t))
    (waits : t.phase.size = none) : Inv (s.done i k b t size elapsed) := by
  obtain ⟨here, there⟩ := task_eq found
  have sound := inv.sound b (List.mem_of_getElem? here)
  have row := rows_here there
  rw [waits] at row
  have left : 0 < b.throttle.total := by
    rw [sound.total]
    exact List.countP_pos_iff.mpr ⟨_, List.mem_of_getElem? row, rfl⟩
  have waiting := List.mem_of_getElem? row
  have group := sound.group waiting size
  have names : (b.rows.set k (t.target, some size)).map Prod.fst = b.rows.map Prod.fst :=
    Batch.names_set row
  -- What is owed after the size is in the buffer, or not any more.
  have owes_set : ∀ u, (u, none) ∈ b.rows.set k (t.target, some size) ↔
      (u, none) ∈ b.rows ∧ u ≠ t.target := by
    intro u
    rw [Batch.mem_rows_set sound.distinct row]
    constructor
    · rintro (⟨⟨⟩⟩ | kept)
      exact kept
    · exact .inr
  have rows : ∀ throttle ops,
      (Batch.mk throttle (b.tasks.set k { t with phase := .counted size }) ops).rows =
        b.rows.set k (t.target, some size) := fun _ _ => rows_set b k _
  have done : b.throttle.done (t.target, size) elapsed =
      if b.throttle.total - 1 ≠ 0 ∧ ¬elapsed = true then
        some (⟨b.throttle.total - 1, b.throttle.buf ++ [(t.target, size)]⟩, none)
      else some (⟨b.throttle.total - 1, []⟩, some (b.throttle.buf ++ [(t.target, size)])) :=
    if_neg (by omega)
  rw [State.done, done]
  by_cases held : b.throttle.total - 1 ≠ 0 ∧ ¬elapsed = true
  · rw [if_pos held]
    refine inv.set here (Batch.sound_done sound size row ?_ ?_ ?_ ?_) ?_ ?_ ?_
    · exact rows _ _
    · exact Nat.sub_add_cancel left
    · exact (List.append_assoc ..).symm
    · exact fun none => absurd none held.1
    · rw [rows]
      exact names
    · intro u owes
      rw [Batch.Owes, rows, List.map_append] at owes
      rcases owes with row | buffered
      · exact .inl ((owes_set u).mp row).1
      · rcases List.mem_append.mp buffered with old | new
        · exact .inr old
        · cases List.mem_singleton.mp new
          exact .inl waiting
    · intro u
      refine ⟨fun here => ⟨here, ?_⟩, And.left⟩
      intro owes
      rw [Batch.Owes, rows, List.map_append]
      rcases owes with row | buffered
      · by_cases same : u = t.target
        · exact .inr (List.mem_append_right _ (List.mem_singleton.mpr same))
        · exact .inl ((owes_set u).mpr ⟨row, same⟩)
      · exact .inr (List.mem_append_left _ buffered)
  · rw [if_neg held]
    obtain ⟨op, made, reported⟩ := group
    refine inv.set here (Batch.sound_done sound size row ?_ ?_ ?_ ?_) ?_ ?_ ?_
    · exact rows _ _
    · exact Nat.sub_add_cancel left
    · rw [Batch.placed, made]
      simp only [Option.toList_some, List.flatMap_append, List.flatMap_singleton, reported]
      rw [List.append_nil, Batch.placed, List.append_assoc]
    · exact fun _ => rfl
    · rw [rows]
      exact names
    · intro u owes
      rw [Batch.Owes, rows] at owes
      rcases owes with row | buffered
      · exact .inl ((owes_set u).mp row).1
      · cases buffered
    · intro u
      have off : u ∈ s.sizing.filter (fun target =>
          !((b.throttle.buf ++ [(t.target, size)]).map Prod.fst).contains target) ↔
          u ∈ s.sizing ∧ u ∉ b.throttle.buf.map Prod.fst ∧ u ≠ t.target := by
        simp
      rw [off, Batch.Owes, Batch.Owes, rows, owes_set]
      constructor
      · rintro ⟨here, unbuffered, other⟩
        refine ⟨here, ?_⟩
        rintro (row | buffered)
        · exact .inl ⟨row, other⟩
        · exact absurd buffered unbuffered
      · rintro ⟨here, kept⟩
        refine ⟨here, ?_, ?_⟩
        · intro buffered
          rcases kept (.inr buffered) with ⟨row, -⟩ | gone
          · obtain ⟨e, member, rfl⟩ := List.mem_map.mp buffered
            cases sound.unique row ((sound.sizes e.1 e.2).mp (List.mem_append_right _ member))
          · cases gone
        · rintro rfl
          rcases kept (.inl waiting) with ⟨-, other⟩ | gone
          · exact other rfl
          · cases gone

/-- `Tasks::prework_sorted` looks for what is not on its way yet. -/
def wanted (s : State) (folder : Folder) : List Target :=
  (folder.entries.filter fun e => e.isDir && e.key ≠ [] && !folder.sizes.contains e.key &&
    !s.sizing.contains ⟨folder.trail, e.key⟩).map fun e => ⟨folder.trail, e.key⟩

theorem mem_wanted {folder : Folder} {t : Target} (wanted : t ∈ wanted s folder) :
    t.trail = folder.trail ∧ t.key ≠ [] ∧ t ∉ s.sizing := by
  obtain ⟨e, member, rfl⟩ := List.mem_map.mp wanted
  obtain ⟨-, meets⟩ := List.mem_filter.mp member
  simp only [Bool.and_eq_true, Bool.not_eq_true', decide_eq_true_eq, List.contains_eq_mem,
    decide_eq_false_iff_not] at meets
  exact ⟨rfl, meets.1.1.2, meets.2⟩

theorem wanted_nodup (s : State) (folder : Folder) : (wanted s folder).Nodup := by
  have keys := List.pairwise_map.mp folder.distinct
  rw [wanted, List.Nodup, List.pairwise_map]
  apply (keys.filter _).imp
  intro e f other same
  exact other (congrArg Target.key same)

theorem mem_insertAll (targets sizing : List Target) (t : Target) :
    t ∈ targets.foldl (fun sizing target => sizing.insert target) sizing ↔
      t ∈ targets ∨ t ∈ sizing := by
  induction targets generalizing sizing with
  | nil => simp
  | cons target targets ih =>
    rw [List.foldl_cons, ih, List.mem_insert_iff, List.mem_cons]
    tauto

/-- A new batch. -/
def fresh (targets : List Target) : Batch :=
  ⟨.make targets.length, targets.map fun target => ⟨target, .queued⟩, []⟩

theorem rows_fresh (targets : List Target) :
    (fresh targets).rows = targets.map fun target => (target, none) := by
  rw [Batch.rows, fresh, List.map_map]
  rfl

theorem owes_fresh (targets : List Target) (t : Target) : (fresh targets).Owes t ↔ t ∈ targets := by
  rw [Batch.Owes, rows_fresh]
  simp [fresh, Throttle.make]

theorem sound_fresh {targets : List Target} (distinct : targets.Nodup)
    (named : ∀ t ∈ targets, t.key ≠ []) (trail : ∀ t ∈ targets, ∀ u ∈ targets, t.trail = u.trail) :
    (fresh targets).Sound := by
  have back : ∀ row ∈ (fresh targets).rows, row.1 ∈ targets ∧ row.2 = none := by
    intro row member
    rw [rows_fresh] at member
    obtain ⟨t, here, rfl⟩ := List.mem_map.mp member
    exact ⟨here, rfl⟩
  constructor
  · rw [rows_fresh, List.map_map]
    exact (List.map_id targets).symm ▸ distinct
  · exact fun row member => named _ (back row member).1
  · exact fun row member other also => trail _ (back row member).1 _ (back other also).1
  · rw [rows_fresh, List.countP_map]
    symm
    exact List.countP_eq_length.mpr fun _ _ => rfl
  · exact List.nodup_nil
  · intro t n
    refine ⟨nofun, fun member => ?_⟩
    cases (back _ member).2
  · exact fun _ => rfl

theorem inv_prework (folder : Folder) (inv : Inv s) : Inv (s.prework folder) := by
  rw [State.prework]
  split
  · exact inv
  · change Inv (if wanted s folder = [] then s else
      { s with
        sizing := (wanted s folder).foldl (fun sizing target => sizing.insert target) s.sizing
        batches := s.batches ++ [fresh (wanted s folder)] })
    split
    · exact inv
    have last : ∀ (j : Nat) (c : Batch), (s.batches ++ [fresh (wanted s folder)])[j]? = some c →
        s.batches[j]? = some c ∨ j = s.batches.length ∧ c = fresh (wanted s folder) := by
      intro j c found
      by_cases old : j < s.batches.length
      · rw [List.getElem?_append_left old] at found
        exact .inl found
      · rw [List.getElem?_append_right (Nat.le_of_not_lt old), List.getElem?_singleton] at found
        obtain ⟨here, ⟨⟩⟩ := Option.ite_none_right_eq_some.mp found
        exact .inr ⟨by omega, rfl⟩
    constructor
    · intro c member
      rcases List.mem_append.mp member with old | new
      · exact inv.sound c old
      · cases List.mem_singleton.mp new
        apply sound_fresh (wanted_nodup s folder)
        · exact fun t here => (mem_wanted here).2.1
        · exact fun t here u also => (mem_wanted here).1.trans (mem_wanted also).1.symm
    · intro t
      rw [mem_insertAll, inv.sizing]
      constructor
      · rintro (new | ⟨c, member, owes⟩)
        · exact ⟨_, List.mem_append_right _ (List.mem_singleton_self _), (owes_fresh _ t).mpr new⟩
        · exact ⟨c, List.mem_append_left _ member, owes⟩
      · rintro ⟨c, member, owes⟩
        rcases List.mem_append.mp member with old | new
        · exact .inr ⟨c, old, owes⟩
        · cases List.mem_singleton.mp new
          exact .inl ((owes_fresh _ t).mp owes)
    · intro j l c d before left right t owes
      have bound : j < s.batches.length := by
        obtain ⟨inside, -⟩ := List.getElem?_eq_some_iff.mp right
        rw [List.length_append, List.length_singleton] at inside
        omega
      have old : s.batches[j]? = some c := by
        rwa [List.getElem?_append_left bound] at left
      rcases last l d right with there | ⟨-, rfl⟩
      · exact inv.later j l c d before old there t owes
      · rw [rows_fresh, List.map_map]
        intro member
        have wanted : t ∈ wanted s folder := by simpa using member
        exact (mem_wanted wanted).2.2 ((inv.sizing t).mpr ⟨c, List.mem_of_getElem? old, owes⟩)
    · exact inv.underflow

theorem inv_step {label : Label} (inv : Inv s) (move : s.step label = some s') : Inv s' := by
  cases label with
  | prework folder =>
    cases move
    exact inv_prework folder inv
  | start i k =>
    obtain ⟨⟨b, t⟩, found, move⟩ := Option.bind_eq_some_iff.mp move
    obtain ⟨queued, ⟨⟩⟩ := Option.ite_none_right_eq_some.mp move
    exact inv_setPhase inv found (by rw [queued]; rfl)
  | calculated i k size elapsed =>
    obtain ⟨⟨b, t⟩, found, move⟩ := Option.bind_eq_some_iff.mp move
    obtain ⟨calculating, ⟨⟩⟩ := Option.ite_none_right_eq_some.mp move
    exact inv_done inv found (by rw [calculating]; rfl)
  | complete i k =>
    obtain ⟨⟨b, t⟩, found, move⟩ := Option.bind_eq_some_iff.mp move
    dsimp only at move
    split at move
    next size counted =>
      cases move
      exact inv_setPhase inv found (by rw [counted]; rfl)
    · cases move
  | cancel i k =>
    obtain ⟨⟨b, t⟩, found, move⟩ := Option.bind_eq_some_iff.mp move
    obtain ⟨-, ⟨⟩⟩ := Option.ite_none_left_eq_some.mp move
    exact inv_setPhase inv found rfl

-- ═══════════════════════════════════════════════════════════════
-- What is left behind
-- ═══════════════════════════════════════════════════════════════

/-- Nothing is left behind of a batch: its targets are off `sizing`, where no later batch has put
them, and each size that was handed in is in one operation. -/
structure Clean (s : State) (i : Nat) (b : Batch) : Prop where
  off : ∀ t ∈ b.tasks, t.target ∈ s.sizing →
    ∃ j c, i < j ∧ s.batches[j]? = some c ∧ ∃ other ∈ c.tasks, other.target = t.target
  delivered : (b.ops.flatMap SizeOp.reported).Perm
    (b.tasks.filterMap fun t => t.phase.size.map fun size => (t.target, size))

/-- Where everybody has handed in a size, the buffer is empty. -/
theorem delivered_of_counted (sound : b.Sound) (all : ∀ t ∈ b.tasks, t.phase.size ≠ none) :
    b.throttle.buf = [] ∧ (b.ops.flatMap SizeOp.reported).Perm
      (b.tasks.filterMap fun t => t.phase.size.map fun size => (t.target, size)) := by
  have none : b.throttle.total = 0 := by
    rw [sound.total, List.countP_eq_zero]
    intro row member empty
    obtain ⟨t, here, rfl⟩ := List.mem_map.mp member
    exact all t here (Option.isNone_iff_eq_none.mp empty)
  have flushed := sound.flushed none
  refine ⟨flushed, ?_⟩
  have once := sound.once
  have sizes := sound.sizes
  simp only [Batch.placed, flushed, List.append_nil] at once sizes
  have distinct : (b.tasks.filterMap fun t =>
      t.phase.size.map fun size => (t.target, size)).Nodup := by
    have names := List.pairwise_map.mp sound.distinct
    rw [Batch.rows, List.pairwise_map] at names
    rw [List.Nodup, List.pairwise_filterMap]
    apply names.imp
    intro t u other x left y right same
    obtain ⟨n, -, rfl⟩ := Option.map_eq_some_iff.mp left
    obtain ⟨m, -, rfl⟩ := Option.map_eq_some_iff.mp right
    have equal : t.target = u.target := congrArg Prod.fst same
    exact other equal
  rw [List.perm_ext_iff_of_nodup once.of_map distinct]
  rintro ⟨t, n⟩
  rw [sizes, Batch.rows, List.mem_map, List.mem_filterMap]
  constructor
  · rintro ⟨u, member, same⟩
    obtain ⟨target, size⟩ := Prod.mk.inj same
    exact ⟨u, member, by rw [size, target]; rfl⟩
  · rintro ⟨u, member, same⟩
    obtain ⟨m, size, ⟨⟩⟩ := Option.map_eq_some_iff.mp same
    exact ⟨u, member, by rw [size]⟩

/-- A batch leaves nothing behind if and only if all its tasks have handed in a size. -/
theorem clean_iff (inv : Inv s) (here : s.batches[i]? = some b) :
    Clean s i b ↔ ∀ t ∈ b.tasks, t.phase.size ≠ none := by
  have sound := inv.sound b (List.mem_of_getElem? here)
  constructor
  · intro clean t member none
    have row : (t.target, Option.none) ∈ b.rows := by
      rw [← none]
      exact List.mem_map_of_mem member
    have stays := (inv.sizing t.target).mpr ⟨b, List.mem_of_getElem? here, .inl row⟩
    obtain ⟨j, c, later, there, other, member, same⟩ := clean.off t member stays
    apply inv.later i j b c later here there t.target (.inl row)
    rw [← same, Batch.rows, List.map_map]
    exact List.mem_map_of_mem member
  · intro all
    obtain ⟨flushed, delivered⟩ := delivered_of_counted sound all
    refine ⟨?_, delivered⟩
    intro t member stays
    obtain ⟨c, found, owes⟩ := (inv.sizing t.target).mp stays
    obtain ⟨j, there⟩ := List.getElem?_of_mem found
    have settled : ∀ u, ¬b.Owes u := by
      rintro u (row | buffered)
      · obtain ⟨v, member, same⟩ := List.mem_map.mp row
        exact all v member (congrArg Prod.snd same)
      · rw [flushed] at buffered
        cases buffered
    have mine : t.target ∈ b.rows.map Prod.fst := by
      rw [Batch.rows, List.map_map]
      exact List.mem_map_of_mem member
    rcases Nat.lt_trichotomy i j with later | rfl | before
    · refine ⟨j, c, later, there, ?_⟩
      have names := (inv.sound c found).owes_mem owes
      rw [Batch.rows, List.map_map] at names
      obtain ⟨other, member, same⟩ := List.mem_map.mp names
      exact ⟨other, member, same⟩
    · cases here.symm.trans there
      exact absurd owes (settled _)
    · exact absurd mine (inv.later j i c b before there here t.target owes)

-- ═══════════════════════════════════════════════════════════════
-- Cancellations
-- ═══════════════════════════════════════════════════════════════

def phase (s : State) (i k : Nat) : Option Phase := (s.task i k).map fun found => found.2.phase

/-- The task has handed in its size, or is in another batch. -/
def spares (i : Nat) (s : State) : Label → Bool
  | .cancel j k => j ≠ i || (phase s i k).all fun phase => phase.size.isSome
  | _ => true

/-- A task of the batch was cancelled before it handed in its size. -/
def Lost (i : Nat) (s : State) : Prop := ∃ k, phase s i k = some (.cancelled none)

theorem phase_eq (found : s.task i k = some (b, t)) : phase s i k = some t.phase := by
  rw [phase, found]
  rfl

/-- Of a batch that moves on one task may change. -/
theorem phase_set {t' : Task} (found : s.task i k = some (b, t)) (tasks : b'.tasks = b.tasks.set k t')
    (batches : s'.batches = s.batches.set i b') (j l : Nat) :
    phase s' j l = if j = i ∧ l = k then some t'.phase else phase s j l := by
  obtain ⟨here, there⟩ := task_eq found
  obtain ⟨bound, -⟩ := List.getElem?_eq_some_iff.mp here
  obtain ⟨inside, -⟩ := List.getElem?_eq_some_iff.mp there
  rw [phase, phase, State.task, State.task, batches, List.getElem?_set]
  by_cases equal : i = j
  · subst equal
    rw [if_pos rfl, if_pos bound, here, Option.bind_some, Option.bind_some, tasks, List.getElem?_set]
    by_cases same : k = l
    · subst same
      simp [inside]
    · simp [same, Ne.symm same]
      rfl
  · rw [if_neg equal, if_neg fun both => equal both.1.symm]

theorem phase_prework (folder : Folder) (j l : Nat) (p : Phase) (other : p ≠ .queued) :
    phase (s.prework folder) j l = some p ↔ phase s j l = some p := by
  rw [State.prework]
  split
  · rfl
  · dsimp only
    split
    · rfl
    rw [phase, phase, State.task, State.task]
    by_cases old : j < s.batches.length
    · rw [List.getElem?_append_left old]
    · have none : s.batches[j]? = none := List.getElem?_eq_none (Nat.le_of_not_lt old)
      rw [List.getElem?_append_right (Nat.le_of_not_lt old), List.getElem?_singleton, none]
      split
      · simp [Ne.symm other]
      · rfl

/-- A task that goes on from one phase to another, neither of which is that of a lost one. -/
theorem lost_set {t' : Task} (found : s.task i k = some (b, t))
    (tasks : b'.tasks = b.tasks.set k t') (batches : s'.batches = s.batches.set i b')
    (before : t.phase ≠ .cancelled none) (after : t'.phase ≠ .cancelled none) (j l : Nat) :
    phase s' j l = some (.cancelled none) ↔ phase s j l = some (.cancelled none) := by
  rw [phase_set found tasks batches]
  split
  next same =>
    obtain ⟨rfl, rfl⟩ := same
    rw [phase_eq found]
    simp [before, after]
  next => rfl

/-- Only a cancellation makes a task lost, and nothing finds it again. -/
theorem lost_step {label : Label} (move : s.step label = some s') (j l : Nat) :
    phase s' j l = some (.cancelled none) ↔ phase s j l = some (.cancelled none) ∨
      label = .cancel j l ∧ ∃ p, phase s j l = some p ∧ p.size = none := by
  cases label with
  | prework folder =>
    cases move
    rw [phase_prework folder j l (.cancelled none) nofun]
    simp
  | start i k =>
    obtain ⟨⟨b, t⟩, found, move⟩ := Option.bind_eq_some_iff.mp move
    obtain ⟨queued, ⟨⟩⟩ := Option.ite_none_right_eq_some.mp move
    have same : phase (s.setPhase i k b t .calculating) j l = some (.cancelled none) ↔
        phase s j l = some (.cancelled none) :=
      lost_set found rfl rfl (by simp [queued]) (by simp) j l
    rw [same]
    simp
  | calculated i k size elapsed =>
    obtain ⟨⟨b, t⟩, found, move⟩ := Option.bind_eq_some_iff.mp move
    obtain ⟨calculating, ⟨⟩⟩ := Option.ite_none_right_eq_some.mp move
    have same : phase (s.done i k b t size elapsed) j l = some (.cancelled none) ↔
        phase s j l = some (.cancelled none) := by
      rw [State.done]
      split
      · rfl
      · dsimp only
        split
        · exact lost_set found rfl rfl (by simp [calculating]) (by simp) j l
        · exact lost_set found rfl rfl (by simp [calculating]) (by simp) j l
    rw [same]
    simp
  | complete i k =>
    obtain ⟨⟨b, t⟩, found, move⟩ := Option.bind_eq_some_iff.mp move
    dsimp only at move
    split at move
    next size counted =>
      cases move
      have same : phase (s.setPhase i k b t (.completed size)) j l = some (.cancelled none) ↔
          phase s j l = some (.cancelled none) :=
        lost_set found rfl rfl (by simp [counted]) (by simp) j l
      rw [same]
      simp
    · cases move
  | cancel i k =>
    obtain ⟨⟨b, t⟩, found, move⟩ := Option.bind_eq_some_iff.mp move
    obtain ⟨going, ⟨⟩⟩ := Option.ite_none_left_eq_some.mp move
    have alive : t.phase ≠ .cancelled none := by
      intro lost
      rw [lost] at going
      exact going rfl
    rw [State.setPhase, phase_set found rfl rfl]
    split
    next same =>
      obtain ⟨rfl, rfl⟩ := same
      rw [phase_eq found]
      simp [alive]
    next other =>
      constructor
      · exact .inl
      · rintro (lost | ⟨same, -⟩)
        · exact lost
        · cases same
          exact absurd ⟨rfl, rfl⟩ other

theorem spares_iff {label : Label} (move : s.step label = some s') (unlost : ¬Lost i s) :
    ¬Lost i s' ↔ spares i s label = true := by
  have unlost : ∀ l, phase s i l ≠ some (.cancelled none) := fun l lost => unlost ⟨l, lost⟩
  have lost : Lost i s' ↔ ∃ l, label = .cancel i l ∧ ∃ p, phase s i l = some p ∧ p.size = none :=
    exists_congr fun l => (lost_step move i l).trans (or_iff_right (unlost l))
  rw [lost]
  cases label with
  | cancel j k =>
    by_cases same : j = i
    · subst same
      cases found : phase s j k with
      | none => simp [spares, found]
      | some p => simp [spares, found, Option.isSome_iff_ne_none]
    · simp [spares, same]
  | _ => simp [spares]

theorem Lost.step {label : Label} (lost : Lost i s) (move : s.step label = some s') : Lost i s' := by
  obtain ⟨l, lost⟩ := lost
  exact ⟨l, (lost_step move i l).mpr (.inl lost)⟩

/-- A run loses nothing of a batch if and only if all its cancellations spare it. -/
theorem spared_iff {labels : List Label} (run : Run State.step s labels s') (unlost : ¬Lost i s) :
    Run (restrict State.step (spares i)) s labels s' ↔ ¬Lost i s' := by
  induction run with
  | nil s => exact ⟨fun _ => unlost, fun _ => .nil s⟩
  | @cons s t u label labels move tail ih =>
    constructor
    · intro restricted
      cases restricted with
      | cons first rest =>
        obtain ⟨allowed, moved⟩ := restrict_eq_some first
        cases move.symm.trans moved
        exact (ih ((spares_iff move unlost).mpr allowed)).mp rest
    · intro kept
      have next : ¬Lost i t := fun lost =>
        kept (tail.invariant (fun _ _ _ lost move => lost.step move) lost)
      exact .cons (restrict_of ((spares_iff move unlost).mp next) move) ((ih next).mpr kept)

/-- Whatever the tasks of the batches do, and whenever the interval is over: the throttles count
down to zero at most, and once all tasks of a batch have completed or been cancelled, nothing is left
behind of it exactly if none was cancelled before it handed in its size. -/
theorem left_behind_iff {labels : List Label} (run : Run State.step {} labels s)
    (here : s.batches[i]? = some b) (ended : ∀ t ∈ b.tasks, t.phase.ended = true) :
    s.underflow = false ∧
      (Clean s i b ↔ Run (restrict State.step (spares i)) {} labels s) := by
  have inv : Inv s := run.invariant (fun _ _ _ inv move => inv_step inv move) inv_start
  refine ⟨inv.underflow, ?_⟩
  have unlost : ¬Lost i {} := by
    rintro ⟨l, lost⟩
    cases lost
  rw [clean_iff inv here, spared_iff run unlost]
  constructor
  · rintro all ⟨l, lost⟩
    obtain ⟨⟨c, t⟩, found, phase⟩ := Option.map_eq_some_iff.mp lost
    obtain ⟨there, task⟩ := task_eq found
    cases here.symm.trans there
    apply all t (List.mem_of_getElem? task)
    rw [phase]
    rfl
  · intro kept t member unsized
    obtain ⟨l, task⟩ := List.getElem?_of_mem member
    have found : s.task i l = some (b, t) := by
      rw [State.task, here, Option.bind_some, task, Option.map_some]
    have stopped := ended t member
    have cancelled : t.phase = .cancelled none := by
      cases is : t.phase with
      | cancelled size =>
        rw [is] at unsized
        cases unsized
        rfl
      | queued => simp [is, Phase.ended] at stopped
      | calculating => simp [is, Phase.ended] at stopped
      | counted n => simp [is, Phase.ended] at stopped
      | completed n => simp [is, Phase.size] at unsized
    exact kept ⟨l, (phase_eq found).trans (congrArg some cancelled)⟩

/-- Two directories, whose sizes are reported one by one. -/
def sampleFolder : Folder where
  trail := [1]
  entries := [⟨[2], true⟩, ⟨[3], true⟩]
  distinct := by decide
  bySize := true
  sizes := []

def sampleLabels : List Label :=
  [.prework sampleFolder, .start 0 0, .calculated 0 0 7 true, .complete 0 0, .start 0 1,
    .calculated 0 1 8 false, .complete 0 1]

theorem left_behind_iff_sample :
    ∃ s b, Run State.step {} sampleLabels s ∧ s.batches[0]? = some b ∧ s.underflow = false ∧
      (Clean s 0 b ↔ Run (restrict State.step (spares 0)) {} sampleLabels s) := by
  have enabled : (exec State.step {} sampleLabels).isSome = true := by decide
  have run := run_exec enabled
  exact ⟨_, _, run, rfl, left_behind_iff run rfl (by decide)⟩

/-- What comes of it when the second one is cancelled in the queue. -/
def strayBatch : Batch where
  throttle := ⟨1, []⟩
  tasks := [⟨⟨[1], [2]⟩, .completed 7⟩, ⟨⟨[1], [3]⟩, .cancelled none⟩]
  ops := [⟨[1], [([2], 7)]⟩]

theorem cancelled_stays :
    ¬∀ (labels : List Label) (s : State) (i : Nat) (b : Batch), Run State.step {} labels s →
      s.batches[i]? = some b → (∀ t ∈ b.tasks, t.phase.ended = true) →
        s.underflow = false ∧ Clean s i b := by
  intro all
  have reached : exec State.step {} [.prework sampleFolder, .start 0 0, .calculated 0 0 7 true,
      .complete 0 0, .cancel 0 1] = some { sizing := [⟨[1], [3]⟩], batches := [strayBatch] } := by
    decide
  have clean := (all _ _ 0 strayBatch (run_of_exec reached) rfl (by decide)).2
  obtain ⟨j, c, later, there, -⟩ :=
    clean.off ⟨⟨[1], [3]⟩, .cancelled none⟩ (by decide) (by decide)
  match j with
  | 0 => cases later
  | _ + 1 => cases there

end Yazi.Scheduler.Size
