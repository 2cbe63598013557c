import Mathlib
import Yazi.Widgets.Input

/-!
What an action of an input is made of: carrying out the pending operation, tagging a version and
moving the cursor.

A move is the heart of it: whatever the cursor was before, it ends inside the value, and so does
the offset, except at no width.
-/
namespace Yazi.Widgets

/-! ### Windows -/

section fits
variable (width : Char → Nat)

theorem fits_le (limit : Nat) (s : List Char) : fits width limit s ≤ s.length := by
  induction s generalizing limit with
  | nil => exact Nat.le_refl _
  | cons c s ih =>
    rw [fits]
    split
    · exact Nat.succ_le_succ (ih _)
    · exact Nat.zero_le _

theorem sum_take_fits (limit : Nat) (s : List Char) :
    ((s.take (fits width limit s)).map width).sum ≤ limit := by
  induction s generalizing limit with
  | nil => exact Nat.zero_le _
  | cons c s ih =>
    rw [fits]
    split
    · next fit =>
      have rest := ih (limit - width c)
      rw [List.take_succ_cons, List.map_cons, List.sum_cons]
      omega
    · exact Nat.zero_le _

theorem length_le_fits {limit : Nat} {s : List Char} (fit : (s.map width).sum ≤ limit)
    (rest : List Char) : s.length ≤ fits width limit (s ++ rest) := by
  induction s generalizing limit with
  | nil => exact Nat.zero_le _
  | cons c s ih =>
    rw [List.map_cons, List.sum_cons] at fit
    rw [List.cons_append, fits, if_pos (by omega), List.length_cons]
    have inner : s.length ≤ fits width (limit - width c) (s ++ rest) := ih (by omega)
    omega

theorem findWindow_le (s : List Char) (offset limit : Nat) :
    (findWindow width s offset limit).1 ≤ (findWindow width s offset limit).2 ∧
      (findWindow width s offset limit).2 ≤ s.length := by
  have fit := fits_le width limit (s.drop offset)
  rw [List.length_drop] at fit
  simp only [findWindow]
  split
  · exact ⟨Nat.le_refl _, Nat.zero_le _⟩
  · refine ⟨Nat.le_add_right .., ?_⟩
    dsimp only
    omega

theorem findWindow_zero (s : List Char) (limit : Nat) :
    (findWindow width s 0 limit).2 = fits width limit s := by
  simp only [findWindow, List.drop_zero]
  split
  · next none => exact none.symm
  · exact Nat.zero_add _

/-- What fits at the beginning fits at the end as well. -/
theorem fits_le_reverse {small limit : Nat} {s : List Char} (front : List Char)
    (fit : ((s.take (fits width small s)).map width).sum ≤ limit) :
    fits width small s ≤ fits width limit (front ++ s.take (fits width small s)).reverse := by
  have count : (s.take (fits width small s)).length = fits width small s := by
    rw [List.length_take, Nat.min_eq_left (fits_le ..)]
  rw [List.reverse_append]
  have fit' : ((s.take (fits width small s)).reverse.map width).sum ≤ limit := by
    rw [List.map_reverse, List.sum_reverse]
    exact fit
  have all := length_le_fits width fit' front.reverse
  rwa [List.length_reverse, count] at all

end fits

/-- The first character that takes space takes one cell. -/
def narrow (w : Widths) (s : List Char) : Bool :=
  (s.find? fun c => w.char c ≠ 0).any fun c => w.char c = 1

theorem fits_one_of_not_narrow {w : Widths} {s : List Char} (wide : narrow w s = false) :
    fits w.char 1 s = fits w.char 0 s := by
  induction s with
  | nil => rfl
  | cons c s ih =>
    rw [fits, fits]
    by_cases zero : w.char c = 0
    · have rest : narrow w s = false := by
        rw [narrow, List.find?_cons_of_neg (by simpa using zero)] at wide
        exact wide
      simp [zero, ih rest]
    · have more : w.char c ≠ 1 := by
        rw [narrow, List.find?_cons_of_pos (by simpa using zero)] at wide
        simpa using wide
      rw [if_neg (by omega), if_neg (by omega)]

namespace InputSnap

theorem length_shown (snap : InputSnap) (s : List Char) : (snap.shown s).length = s.length := by
  rw [shown]
  split
  · exact List.length_map ..
  · rfl

theorem shown_append (snap : InputSnap) (s t : List Char) :
    snap.shown (s ++ t) = snap.shown s ++ snap.shown t := by
  simp only [shown]
  split
  · exact List.map_append
  · rfl

theorem shown_take (snap : InputSnap) (s : List Char) (n : Nat) :
    snap.shown (s.take n) = (snap.shown s).take n := by
  simp only [shown]
  split
  · exact List.map_take
  · rfl

theorem shown_reverse (snap : InputSnap) (s : List Char) :
    snap.shown s.reverse = (snap.shown s).reverse := by
  simp only [shown]
  split
  · exact List.map_reverse
  · rfl

/-- At no width, a character of one cell to scroll to. -/
def cramped (w : Widths) (snap : InputSnap) (limit : Nat) : Bool :=
  limit = 0 ∧ snap.mode ≠ .insert ∧ narrow w (snap.shown (snap.value.drop snap.cursor))

theorem slice_eq {snap : InputSnap} {s e : Nat} (order : s ≤ e) (inside : e ≤ snap.count) :
    snap.slice s e = some ((snap.value.take e).drop s) := by
  rw [slice, if_pos ⟨order, inside⟩]

theorem splice_eq {snap : InputSnap} {s e : Nat} (order : s ≤ e) (inside : e ≤ snap.count)
    (other : List Char) :
    snap.splice s e other = some (snap.value.take s ++ other ++ snap.value.drop e) := by
  rw [splice, slice_eq order inside]
  rfl

theorem width_isSome (w : Widths) (snap : InputSnap) (s e : Nat)
    (fine : snap.obscure = true ∨ s ≤ e ∧ e ≤ snap.count) : (snap.width w s e).isSome = true := by
  rw [width]
  split
  · rfl
  · next plain =>
    rcases fine with obscure | ⟨order, inside⟩
    · exact absurd obscure plain
    · rw [slice_eq order inside]
      rfl

end InputSnap

namespace Input
open InputSnap
variable (w : Widths)

theorem delta_le (mode : InputMode) : mode.delta ≤ 1 := by
  cases mode <;> decide

/-- To the left, the offset follows the cursor. -/
theorem scroll_left {snap : InputSnap} {old : Nat} (limit : Nat) (inside : snap.cursor ≤ snap.count)
    (left : snap.cursor ≤ old) : ∃ offset, scroll w snap limit old = some offset ∧
      offset ≤ snap.cursor := by
  simp only [scroll, if_pos left, slice_eq (Nat.zero_le _) inside, List.drop_zero]
  split
  · exact ⟨_, rfl, Nat.le_trans (Nat.min_le_right ..) (Nat.sub_le ..)⟩
  · exact ⟨_, rfl, Nat.sub_le ..⟩

/-- What is kept visible after the cursor fits in the window. -/
theorem pad_fits {snap : InputSnap} {limit : Nat} (fine : snap.cramped w limit = false) :
    let after := snap.shown (snap.value.drop snap.cursor)
    let pad := fits w.char (min 5 (limit / 2) + snap.mode.delta) after
    pad ≤ fits w.char limit (snap.shown (snap.value.take (snap.cursor + pad)).reverse) := by
  intro after pad
  have split : snap.shown (snap.value.take (snap.cursor + pad)).reverse =
      (snap.shown (snap.value.take snap.cursor) ++ after.take pad).reverse := by
    rw [shown_reverse, List.take_add, shown_append, shown_take snap (snap.value.drop _)]
  rw [split]
  apply fits_le_reverse w.char
  have small := sum_take_fits w.char (min 5 (limit / 2) + snap.mode.delta) after
  have delta := delta_le snap.mode
  by_cases zero : limit = 0
  · -- nothing that takes space is kept visible
    have bare : fits w.char (min 5 (limit / 2) + snap.mode.delta) after = fits w.char 0 after := by
      subst zero
      by_cases mode : snap.mode = .insert
      · rw [mode]
        rfl
      · have wide : narrow w after = false := by
          simpa [cramped, mode] using fine
        have one : snap.mode.delta = 1 := if_pos mode
        rw [one]
        exact fits_one_of_not_narrow wide
    rw [bare]
    have none := sum_take_fits w.char 0 after
    omega
  · omega

/-- To the right, it stays at the cursor or before it, except at no width. -/
theorem scroll_right {snap : InputSnap} {old : Nat} (limit : Nat) (inside : snap.cursor ≤ snap.count)
    (right : old < snap.cursor) (fine : snap.obscure = true ∨ snap.offset ≤ snap.cursor) :
    ∃ offset, scroll w snap limit old = some offset ∧
      (snap.offset ≤ snap.cursor → snap.cramped w limit = false → offset ≤ snap.cursor) := by
  have after : (snap.value.take snap.count).drop snap.cursor = snap.value.drop snap.cursor := by
    rw [count, List.take_length]
  have pad := fits_le w.char (min 5 (limit / 2) + snap.mode.delta)
    (snap.shown (snap.value.drop snap.cursor))
  rw [length_shown, List.length_drop] at pad
  have room : snap.cursor + fits w.char (min 5 (limit / 2) + snap.mode.delta)
      (snap.shown (snap.value.drop snap.cursor)) ≤ snap.count := by
    rw [count] at inside ⊢
    omega
  obtain ⟨width, widthEq⟩ := Option.isSome_iff_exists.mp (width_isSome w snap snap.offset
    snap.cursor (fine.imp_right fun order => ⟨order, inside⟩))
  simp only [scroll, if_neg (Nat.not_le.mpr right), slice_eq inside (Nat.le_refl _), after,
    Option.bind_eq_bind, Option.bind_some, findWindow_zero, slice_eq (Nat.zero_le _) room,
    List.drop_zero, widthEq]
  refine ⟨_, rfl, fun order plain => ?_⟩
  have kept := pad_fits w plain
  dsimp only at kept
  split
  · exact Nat.max_le.mpr ⟨order, by omega⟩
  · omega

/-! ### Operations -/

end Input

/-- An operation that a move carries out. -/
def InputOp.isPending : InputOp → Bool
  | none | select _ => false
  | delete .. | yank _ => true

/-- No version has an operation of its own. -/
def InputSnaps.Calm (s : InputSnaps) : Prop := ∀ v ∈ s.versions, v.op = .none

namespace InputSnaps
variable (w : Widths)

@[simp] theorem tag_current (limit : Nat) (s : InputSnaps) :
    (s.tag w limit).1.current = s.current := by
  rw [tag]
  split
  · rfl
  · dsimp only
    split <;> rfl

theorem Calm.tag {s : InputSnaps} (calm : s.Calm) (idle : s.current.op = .none) (limit : Nat) :
    (s.tag w limit).1.Calm := by
  rw [InputSnaps.tag]
  split
  · exact calm
  · next last _ =>
    -- what is synchronized has the operation of the current snapshot
    have synced : ∀ v ∈ s.versions.set s.idx
        ({ s.current with value := last.value }.resize w limit), v.op = .none := by
      intro v member
      rcases List.mem_or_eq_of_mem_set member with old | rfl
      · exact calm v old
      · exact idle
    dsimp only
    split
    · exact synced
    · intro v member
      rcases List.mem_append.mp member with old | new
      · exact synced v (List.mem_of_mem_take old)
      · rw [List.mem_singleton.mp new]
        exact idle

end InputSnaps

namespace Input
open InputSnap
variable (w : Widths)

theorem last_le_count (snap : InputSnap) : snap.last ≤ snap.count := Nat.sub_le ..

@[simp] theorem put_snap (i : Input) (snap : InputSnap) : (i.put snap).snap = snap := rfl

@[simp] theorem put_size (i : Input) (snap : InputSnap) : (i.put snap).size = i.size := rfl

theorem partition_isSome {i : Input} (inside : i.snap.cursor ≤ i.snap.count) :
    i.partition.isSome = true := by
  rw [partition, if_pos inside]
  split <;> rfl

theorem flushTrigger_eq {i : Input} (inside : i.snap.cursor ≤ i.snap.count) :
    i.flushTrigger = some i := by
  rw [flushTrigger]
  split
  · obtain ⟨parts, eq⟩ := Option.isSome_iff_exists.mp (partition_isSome inside)
    rw [eq]
    rfl
  · rfl

theorem flushAll_eq {i : Input} (inside : i.snap.cursor ≤ i.snap.count) :
    i.flushAll = some { i with history := ⟨none, []⟩ } :=
  flushTrigger_eq (i := { i with history := ⟨none, []⟩ }) inside

theorem tagged_spec {i : Input} (inside : i.snap.cursor ≤ i.snap.count) :
    ∃ t, i.tagged w = some t ∧ t.snaps = (i.snaps.tag w i.limit).1 ∧ t.size = i.size := by
  rw [tagged]
  dsimp only
  split
  · have same : (i.snaps.tag w i.limit).1.current = i.snap := InputSnaps.tag_current ..
    have inside' : ({ i with snaps := (i.snaps.tag w i.limit).1 } : Input).snap.cursor ≤
        ({ i with snaps := (i.snaps.tag w i.limit).1 } : Input).snap.count := by
      rw [snap, same]
      exact inside
    exact ⟨_, flushAll_eq inside', rfl, rfl⟩
  · exact ⟨_, rfl, rfl, rfl⟩

/-- The snapshot that `handle_op` leaves. -/
def operated (snap : InputSnap) (cursor : Nat) (inclusive : Bool) : InputSnap :=
  match snap.op with
  | .none | .select _ => clamp { snap with cursor }
  | .delete _ insert start =>
    let (s, e) := InputOp.span start cursor inclusive
    clamp
      { snap with
        value := snap.value.take s ++ snap.value.drop e
        op := .none
        mode := if insert then .insert else .normal
        cursor := s }
  | .yank _ => clamp { snap with op := .none }

/-- And the versions. -/
def settled (i : Input) (after : InputSnap) : InputSnaps :=
  let snaps := { i.snaps with current := after }
  if i.snap.op.isPending then (snaps.tag w i.limit).1 else snaps

theorem clamp_le (snap : InputSnap) : (clamp snap).cursor ≤ (clamp snap).last :=
  Nat.min_le_left ..

theorem operated_le (snap : InputSnap) (cursor : Nat) (inclusive : Bool) :
    (operated snap cursor inclusive).cursor ≤ (operated snap cursor inclusive).last := by
  unfold operated
  cases snap.op <;> exact clamp_le _

@[simp] theorem operated_offset (snap : InputSnap) (cursor : Nat) (inclusive : Bool) :
    (operated snap cursor inclusive).offset = snap.offset := by
  unfold operated
  cases snap.op <;> rfl

@[simp] theorem operated_obscure (snap : InputSnap) (cursor : Nat) (inclusive : Bool) :
    (operated snap cursor inclusive).obscure = snap.obscure := by
  unfold operated
  cases snap.op <;> rfl

theorem settled_current (i : Input) (after : InputSnap) :
    (settled w i after).current = after := by
  rw [settled]
  dsimp only
  split
  · exact InputSnaps.tag_current ..
  · rfl

theorem operated_op {snap : InputSnap} (pending : snap.op.isPending = true) (cursor : Nat)
    (inclusive : Bool) : (operated snap cursor inclusive).op = .none := by
  unfold operated
  cases op : snap.op with
  | none | select _ =>
    rw [op] at pending
    cases pending
  | delete _ _ _ | yank _ => rfl

theorem calm_settled {i : Input} (calm : i.snaps.Calm) (cursor : Nat) (inclusive : Bool) :
    (settled w i (operated i.snap cursor inclusive)).Calm := by
  rw [settled]
  dsimp only
  split
  · next pending =>
    exact InputSnaps.Calm.tag w (s := { i.snaps with current := operated i.snap cursor inclusive })
      calm (operated_op pending cursor inclusive) i.limit
  · exact calm

theorem handleOp_idle {i : Input} (idle : i.snap.op.isPending = false) (cursor : Nat)
    (inclusive : Bool) :
    i.handleOp w cursor inclusive = some (i.put (operated i.snap cursor inclusive)) := by
  cases op : i.snap.op with
  | none | select _ => simp [handleOp, operated, op]
  | delete _ _ _ | yank _ =>
    rw [op] at idle
    cases idle

/-- The range of an operation is inside the value. -/
theorem span_inside {start cursor : Nat} {inclusive : Bool} {snap : InputSnap}
    (room : max start cursor + inclusive.toNat ≤ snap.count) :
    snap.slice (InputOp.span start cursor inclusive).1 (InputOp.span start cursor inclusive).2 =
      some ((snap.value.take (InputOp.span start cursor inclusive).2).drop
        (InputOp.span start cursor inclusive).1) := by
  apply slice_eq _ room
  have order : min start cursor ≤ max start cursor :=
    Nat.le_trans (Nat.min_le_left ..) (Nat.le_max_left ..)
  exact Nat.le_trans order (Nat.le_add_right ..)

theorem handleOp_pending {i : Input} {cursor : Nat} {inclusive : Bool}
    (pending : i.snap.op.isPending = true)
    (reach : ∀ start, i.snap.op.start = some start →
      max start cursor + inclusive.toNat ≤ i.snap.count) :
    i.handleOp w cursor inclusive = (i.put (operated i.snap cursor inclusive)).tagged w := by
  cases op : i.snap.op with
  | none | select _ =>
    rw [op] at pending
    cases pending
  | delete cut insert start =>
    have room := reach start (by rw [op]; rfl)
    simp [handleOp, operated, op, splice, span_inside room]
  | yank start =>
    have room := reach start (by rw [op]; rfl)
    simp [handleOp, operated, op, span_inside room]

/-- A pending operation is carried out when its range is inside the value. -/
theorem handleOp_spec {i : Input} (cursor : Nat) (inclusive : Bool)
    (reach : i.snap.op.isPending = true → ∀ start, i.snap.op.start = some start →
      max start cursor + inclusive.toNat ≤ i.snap.count) :
    ∃ t, i.handleOp w cursor inclusive = some t ∧ t.size = i.size ∧
      t.snaps = settled w i (operated i.snap cursor inclusive) := by
  cases pending : i.snap.op.isPending with
  | true =>
    have bound := Nat.le_trans (operated_le i.snap cursor inclusive) (last_le_count _)
    obtain ⟨t, done, snaps, size⟩ :=
      tagged_spec w (i := i.put (operated i.snap cursor inclusive)) bound
    refine ⟨t, (handleOp_pending w pending (reach pending)).trans done, size, ?_⟩
    rw [settled, if_pos pending]
    exact snaps
  | false =>
    refine ⟨_, handleOp_idle w pending cursor inclusive, rfl, ?_⟩
    rw [settled, pending]
    rfl

/-- A move carries out the operation, and sets the offset. -/
theorem move_spec {i : Input} (step : MoveOptStep) {after : InputSnap}
    (result : operated i.snap (step.add i.value i.snap.cursor) false = after)
    (reach : i.snap.op.isPending = true → ∀ start, i.snap.op.start = some start →
      max start (step.add i.value i.snap.cursor) ≤ i.snap.count)
    (fine : after.cursor ≤ i.snap.cursor ∨ after.value = [] ∨ i.snap.obscure = true ∨
      i.snap.offset ≤ after.cursor) :
    ∃ t offset, i.move w step false = some t ∧ t.size = i.size ∧
      t.snaps = { settled w i after with current := { after with offset } } ∧
      (after.cursor ≤ i.snap.cursor ∨ after.value = [] ∨
        i.snap.offset ≤ after.cursor ∧ after.cramped w i.limit = false →
        offset ≤ after.cursor) := by
  obtain ⟨h, handled, size, snaps⟩ := handleOp_spec w (step.add i.value i.snap.cursor) false reach
  rw [result] at snaps
  have current : h.snap = after := by rw [snap, snaps, settled_current]
  have limit : h.limit = i.limit := congrArg Prod.fst size
  have inside : h.snap.cursor ≤ h.snap.count := by
    rw [current, ← result]
    exact Nat.le_trans (operated_le ..) (last_le_count _)
  have offset : h.snap.offset = i.snap.offset := by rw [current, ← result, operated_offset]
  have obscure : h.snap.obscure = i.snap.obscure := by rw [current, ← result, operated_obscure]
  simp only [move, Bool.false_eq_true, false_and, if_false, handled, Option.bind_eq_bind,
    Option.bind_some]
  rw [← current] at fine
  rw [← snaps, ← current]
  by_cases empty : h.value = []
  · rw [if_pos empty]
    exact ⟨_, 0, rfl, size, rfl, fun _ => Nat.zero_le _⟩
  · rw [if_neg empty]
    have scrolled : ∃ offset, scroll w h.snap h.limit i.snap.cursor = some offset ∧
        (h.snap.cursor ≤ i.snap.cursor ∨ h.value = [] ∨
          i.snap.offset ≤ h.snap.cursor ∧ h.snap.cramped w i.limit = false →
          offset ≤ h.snap.cursor) := by
      by_cases left : h.snap.cursor ≤ i.snap.cursor
      · obtain ⟨o, eq, le⟩ := scroll_left w h.limit inside left
        exact ⟨o, eq, fun _ => le⟩
      · have right : h.snap.obscure = true ∨ h.snap.offset ≤ h.snap.cursor := by
          rcases fine with le | none | given | le
          · exact absurd le left
          · exact absurd none empty
          · exact .inl (obscure.trans given)
          · exact .inr (by rwa [offset])
        obtain ⟨o, eq, le⟩ := scroll_right w h.limit inside (Nat.lt_of_not_le left) right
        refine ⟨o, eq, fun plain => ?_⟩
        rcases plain with le | none | ⟨before, plain⟩
        · exact absurd le left
        · exact absurd none empty
        · exact le (by rwa [offset]) (by rwa [limit])
    obtain ⟨offset, eq, le⟩ := scrolled
    rw [eq, Option.bind_some]
    refine ⟨h.put { h.snap with offset }, offset, ?_, size, rfl, le⟩
    split
    · exact flushTrigger_eq inside
    · rfl

end Input
end Yazi.Widgets
