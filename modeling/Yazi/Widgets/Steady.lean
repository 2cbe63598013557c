import Yazi.Widgets.Editing

/-!
The invariant of an input, and how a move, the modes and an insertion keep it.

A selection begins inside the value, and an operation that waits for a motion begins at the
cursor: nothing moves the cursor without carrying it out. Both are there in normal mode only.
-/
namespace Yazi.Widgets

/-! ### The invariant -/

namespace InputSnap

/-- Where an operation begins. -/
def Placed (snap : InputSnap) : Prop :=
  match snap.op with
  | .none => True
  | .select start => start < snap.count ∧ snap.mode = .normal
  | .delete _ _ start | .yank start => start = snap.cursor ∧ snap.mode = .normal

structure Steady (snap : InputSnap) : Prop where
  cursor : snap.cursor ≤ snap.last
  offset : snap.offset ≤ snap.cursor
  placed : snap.Placed

/-- What is asked of an input after each action. -/
structure Inside (snap : InputSnap) : Prop where
  offset : snap.offset ≤ snap.cursor
  cursor : snap.cursor ≤ snap.count - snap.mode.delta
  start : ∀ start, snap.op.start = some start → start ≤ snap.count - snap.mode.delta

theorem placed_of_none {snap : InputSnap} (idle : snap.op = .none) : snap.Placed := by
  rw [Placed, idle]
  trivial

theorem Placed.of_same {s t : InputSnap} (placed : s.Placed) (op : t.op = s.op)
    (count : t.count = s.count) (mode : t.mode = s.mode) (cursor : t.cursor = s.cursor) :
    t.Placed := by
  rw [Placed, op, count, mode, cursor]
  exact placed

theorem Steady.inside {snap : InputSnap} (steady : snap.Steady) : snap.Inside where
  offset := steady.offset
  cursor := steady.cursor
  start := by
    intro start given
    have placed := steady.placed
    have cursor := steady.cursor
    rw [last] at cursor
    cases op : snap.op with
    | none =>
      rw [op] at given
      cases given
    | select s =>
      rw [op] at given
      cases given
      simp only [Placed, op] at placed
      rw [placed.2, InputMode.delta_normal]
      omega
    | delete _ _ s | yank s =>
      rw [op] at given
      cases given
      simp only [Placed, op] at placed
      rw [placed.1]
      exact cursor

theorem Steady.le_count {snap : InputSnap} (steady : snap.Steady) : snap.cursor ≤ snap.count :=
  Nat.le_trans steady.cursor (Input.last_le_count snap)

/-- Only normal mode has operations. -/
theorem Steady.idle {snap : InputSnap} (steady : snap.Steady) (mode : snap.mode ≠ .normal) :
    snap.op = .none := by
  have placed := steady.placed
  cases op : snap.op with
  | none => rfl
  | select _ | delete _ _ _ | yank _ =>
    simp only [Placed, op] at placed
    exact absurd placed.2 mode

theorem Steady.of_select {snap : InputSnap} (steady : snap.Steady) {start : Nat}
    (op : snap.op = .select start) : start < snap.count ∧ snap.mode = .normal := by
  have placed := steady.placed
  simp only [Placed, op] at placed
  exact placed

theorem Steady.of_pending {snap : InputSnap} (steady : snap.Steady)
    (pending : snap.op.isPending = true) {start : Nat} (given : snap.op.start = some start) :
    start = snap.cursor ∧ snap.mode = .normal := by
  have placed := steady.placed
  cases op : snap.op with
  | none | select _ =>
    rw [op] at pending
    cases pending
  | delete _ _ _ | yank _ =>
    rw [op] at given
    cases given
    simp only [Placed, op] at placed
    exact placed

/-- With something selected, the cursor is at a character. -/
theorem Steady.lt_of_select {snap : InputSnap} (steady : snap.Steady) {start : Nat}
    (op : snap.op = .select start) : snap.cursor < snap.count := by
  obtain ⟨some, mode⟩ := steady.of_select op
  have cursor := steady.cursor
  rw [last, mode, InputMode.delta_normal] at cursor
  omega

end InputSnap

namespace Input
open InputSnap
variable (w : Widths)

/-- What every input keeps. -/
structure Safe (i : Input) : Prop where
  steady : i.snap.Steady
  calm : i.snaps.Calm

/-! ### Moves -/

theorem add_le {s : List Char} {cursor : Nat} {n : Int} (left : n ≤ 0) :
    MoveOptStep.add s cursor (.offset n) ≤ cursor := by
  rw [MoveOptStep.add, if_pos left]
  exact Nat.sub_le ..

theorem add_natCast (s : List Char) (cursor n : Nat) : MoveOptStep.add s cursor (.offset n) =
    if n = 0 then cursor else min s.length (cursor + n) := by
  rw [MoveOptStep.add, Int.natAbs_natCast]
  split
  · next zero =>
    rw [if_pos (by omega)]
    omega
  · rw [if_neg (by omega)]

theorem add_le_length {s : List Char} {cursor : Nat} (inside : cursor ≤ s.length)
    (step : MoveOptStep) : step.add s cursor ≤ s.length := by
  cases step with
  | offset n =>
    rw [MoveOptStep.add]
    split
    · exact Nat.le_trans (Nat.sub_le ..) inside
    · exact Nat.min_le_left ..
  | bol => exact Nat.zero_le _
  | eol => exact Nat.le_refl _
  | firstChar =>
    rw [MoveOptStep.add]
    cases found : s.findIdx? fun c => !isWhitespace c with
    | none => exact Nat.zero_le _
    | some n => exact Nat.le_of_lt (List.findIdx?_eq_some_iff_getElem.mp found).1

theorem operated_idle {snap : InputSnap} (idle : snap.op.isPending = false) (cursor : Nat)
    (inclusive : Bool) : operated snap cursor inclusive = clamp { snap with cursor } := by
  cases op : snap.op with
  | none | select _ => simp [operated, op]
  | delete _ _ _ | yank _ =>
    rw [op] at idle
    cases idle

/-- The cursor does not get beyond where the operation ends, nor where it begins. -/
theorem operated_left {snap : InputSnap} {cursor : Nat} {inclusive : Bool}
    (left : cursor ≤ snap.cursor ∨
      snap.op.isPending = true ∧ ∀ start, snap.op.start = some start → start ≤ snap.cursor) :
    (operated snap cursor inclusive).cursor ≤ snap.cursor := by
  cases op : snap.op with
  | none | select _ =>
    rw [operated_idle (by rw [op]; rfl)]
    have left := left.resolve_right fun pending => by
      rw [op] at pending
      cases pending.1
    exact Nat.le_trans (Nat.min_le_right ..) left
  | delete cut insert start =>
    simp only [operated, op, clamp, InputOp.span]
    apply Nat.le_trans (Nat.min_le_right ..)
    rcases left with left | ⟨-, left⟩
    · exact Nat.le_trans (Nat.min_le_right ..) left
    · exact Nat.le_trans (Nat.min_le_left ..) (left start (by rw [op]; rfl))
  | yank start =>
    simp only [operated, op, clamp]
    exact Nat.min_le_right ..

theorem operated_placed {snap : InputSnap}
    (select : ∀ start, snap.op = .select start → start < snap.count ∧ snap.mode = .normal)
    (cursor : Nat) (inclusive : Bool) : (operated snap cursor inclusive).Placed := by
  cases op : snap.op with
  | none =>
    apply placed_of_none
    rw [operated_idle (by rw [op]; rfl)]
    exact op
  | select start =>
    rw [operated_idle (by rw [op]; rfl), Placed]
    simp only [clamp, op]
    exact select start op
  | delete _ _ _ | yank _ => exact placed_of_none (operated_op (by rw [op]; rfl) ..)

/-- A move after which everything is in its place. -/
theorem move_safe {i : Input} {step : MoveOptStep} {after : InputSnap}
    (result : operated i.snap (step.add i.value i.snap.cursor) false = after)
    (calm : i.snaps.Calm)
    (select : ∀ start, i.snap.op = .select start → start < i.snap.count ∧ i.mode = .normal)
    (reach : i.snap.op.isPending = true → ∀ start, i.snap.op.start = some start →
      max start (step.add i.value i.snap.cursor) ≤ i.snap.count)
    (fine : after.cursor ≤ i.snap.cursor ∨
      i.snap.offset ≤ after.cursor ∧ after.cramped w i.limit = false) :
    ∃ t, i.move w step false = some t ∧ Safe t := by
  obtain ⟨t, offset, eq, -, snaps, le⟩ := move_spec w step result reach
    (fine.imp_right fun fine => .inr (.inr fine.1))
  refine ⟨t, eq, ?_, ?_⟩
  · rw [snap, snaps]
    subst result
    exact {
      cursor := operated_le ..
      offset := le (fine.imp_right .inr)
      placed := operated_placed select .. }
  · rw [snaps, ← result]
    exact calm_settled w calm (step.add i.value i.snap.cursor) false

/-- To the left, a move is always possible. -/
theorem moveBy_left {i : Input} {n : Int} (left : n ≤ 0) (calm : i.snaps.Calm)
    (select : ∀ start, i.snap.op = .select start → start < i.snap.count ∧ i.mode = .normal)
    (reach : i.snap.op.isPending = true → ∀ start, i.snap.op.start = some start →
      max start i.snap.cursor ≤ i.snap.count) :
    ∃ t, i.moveBy w n = some t ∧ Safe t := by
  have less : MoveOptStep.add i.value i.snap.cursor (.offset n) ≤ i.snap.cursor := add_le left
  apply move_safe w rfl calm select
  · intro pending start given
    have room := reach pending start given
    omega
  · exact .inl (operated_left (.inl less))

/-- Most often there is nothing to carry out. -/
theorem moveBy_left_of_none {i : Input} {n : Int} (left : n ≤ 0) (calm : i.snaps.Calm)
    (idle : i.snap.op = .none) : ∃ t, i.moveBy w n = some t ∧ Safe t := by
  apply moveBy_left w left calm
  · intro start given
    rw [idle] at given
    cases given
  · intro pending
    rw [idle] at pending
    cases pending

theorem flushed_safe {moved : Option Input} (fine : ∃ m, moved = some m ∧ Safe m) :
    ∃ t, (moved.bind fun i => i.flushAll) = some t ∧ Safe t := by
  obtain ⟨m, rfl, safe⟩ := fine
  exact ⟨_, flushAll_eq safe.steady.le_count, safe.steady, safe.calm⟩

/-! ### Leaving and entering modes -/

theorem safe_tag {i : Input} (safe : Safe i) (idle : i.snap.op = .none) :
    Safe { i with snaps := (i.snaps.tag w i.limit).1 } := by
  constructor
  · have same : (i.snaps.tag w i.limit).1.current = i.snap := InputSnaps.tag_current ..
    rw [snap, same]
    exact safe.steady
  · exact safe.calm.tag w idle i.limit

theorem moveBy_mode {i t : Input} {n : Int} (moved : i.moveBy w n = some t)
    (idle : i.snap.op.isPending = false) (left : n ≤ 0) :
    t.mode = i.mode ∧ t.snap.op = i.snap.op ∧ t.value = i.value := by
  have less : MoveOptStep.add i.value i.snap.cursor (.offset n) ≤ i.snap.cursor := add_le left
  obtain ⟨t', offset, eq, -, snaps, -⟩ := move_spec w (.offset n) rfl
    (fun pending => by
      rw [idle] at pending
      cases pending)
    (.inl (operated_left (.inl less)))
  cases moved.symm.trans eq
  rw [mode, mode, value, value, snap, snaps]
  dsimp only
  rw [operated_idle idle]
  exact ⟨rfl, rfl, rfl⟩

/-- Leaving insert mode is possible wherever the cursor and the offset are. -/
theorem escape_insert {i : Input} (mode : i.mode = .insert) (idle : i.snap.op = .none)
    (calm : i.snaps.Calm) : ∃ t, i.escape w = some t ∧ Safe t ∧ t.mode = .normal ∧
      t.snap.op = .none ∧ t.value = i.value := by
  obtain ⟨m, moved, safe⟩ := moveBy_left_of_none w (i := i.put { i.snap with mode := .normal })
    (n := -1) (by decide) calm idle
  obtain ⟨modeEq, op, valueEq⟩ := moveBy_mode w moved (by rw [put_snap, idle]; rfl) (by decide)
  have op : m.snap.op = .none := op.trans idle
  have same : (m.snaps.tag w m.limit).1.current = m.snap := InputSnaps.tag_current ..
  refine ⟨{ m with snaps := (m.snaps.tag w m.limit).1 }, ?_, safe_tag w safe op, ?_, ?_, ?_⟩
  · simp [escape, mode, moved]
  · rw [Input.mode, snap, same]
    exact modeEq
  · rw [snap, same]
    exact op
  · rw [value, snap, same]
    exact valueEq

theorem escape_safe {i : Input} (safe : Safe i) : ∃ t, i.escape w = some t ∧ Safe t := by
  have steady := safe.steady
  cases mode : i.mode with
  | normal =>
    have calmed : Safe (i.put { i.snap with op := .none }) :=
      ⟨⟨steady.cursor, steady.offset, placed_of_none rfl⟩, safe.calm⟩
    refine ⟨_, ?_, safe_tag w calmed rfl⟩
    simp [escape, mode]
  | insert =>
    obtain ⟨t, eq, safe, -⟩ :=
      escape_insert w mode (steady.idle (by rw [← Input.mode, mode]; decide)) safe.calm
    exact ⟨t, eq, safe⟩
  | replace =>
    have op := steady.idle (by rw [← Input.mode, mode]; decide)
    have cursor : i.snap.cursor ≤ i.snap.count - 1 := by
      have cursor := steady.cursor
      rw [last, ← Input.mode, mode] at cursor
      exact cursor
    have left : Safe (i.put { i.snap with mode := .normal }) :=
      ⟨⟨cursor, steady.offset, placed_of_none op⟩, safe.calm⟩
    refine ⟨_, ?_, safe_tag w left op⟩
    simp [escape, mode]

theorem replace_safe {i : Input} (safe : Safe i) : Safe i.replace := by
  rw [replace]
  split
  · next mode =>
    have cursor := safe.steady.cursor
    rw [last, ← Input.mode, mode] at cursor
    exact ⟨⟨cursor, safe.steady.offset, placed_of_none rfl⟩, safe.calm⟩
  · exact safe

theorem visual_normal {i : Input} (safe : Safe i) (mode : i.mode = .normal) :
    ∃ t, i.visual w = some t ∧ Safe t := by
  have steady := safe.steady
  by_cases selecting : ∃ start, i.snap.op = .select start
  · obtain ⟨start, op⟩ := selecting
    exact ⟨i, by simp [visual, mode, op], safe⟩
  · refine ⟨if i.value = [] then i else i.put { i.snap with op := .select i.snap.cursor }, ?_, ?_⟩
    · simp only [visual, mode, ne_eq, not_true_eq_false, if_false, Option.bind_eq_bind,
        Option.bind_some]
      cases op : i.snap.op with
      | none | delete _ _ _ | yank _ => rfl
      | select start => exact absurd ⟨start, op⟩ selecting
    · split
      · exact safe
      · next some =>
        have positive : 0 < i.snap.count := List.length_pos_iff.mpr some
        have cursor := steady.cursor
        rw [last, ← Input.mode, mode, InputMode.delta_normal] at cursor
        have placed : i.snap.cursor < i.snap.count := by omega
        exact ⟨⟨steady.cursor, steady.offset, placed, mode⟩, safe.calm⟩

/-- `Input::execute` has no `visual` in replace mode. -/
theorem visual_safe {i : Input} (safe : Safe i) (mode : i.mode = .normal ∨ i.mode = .insert) :
    ∃ t, i.visual w = some t ∧ Safe t := by
  rcases mode with mode | mode
  · exact visual_normal w safe mode
  · have op := safe.steady.idle (by rw [← Input.mode, mode]; decide)
    obtain ⟨n, eq, safe, normal, -⟩ := escape_insert w mode op safe.calm
    have after : i.visual w = n.visual w := by
      simp [visual, mode, normal, eq]
    rw [after]
    exact visual_normal w safe normal

/-! ### Inserting -/

/-- Entering insert mode leaves room for one position more. -/
theorem insert_safe {i : Input} (safe : Safe i) (append : Bool) :
    ∃ t, i.insert w append = some t ∧ Safe t := by
  have steady := safe.steady
  rw [insert]
  split
  · have calm : (i.put { i.snap with op := .none, mode := .insert }).snaps.Calm := safe.calm
    cases append with
    | false => exact ⟨_, rfl, ⟨⟨steady.le_count, steady.offset, placed_of_none rfl⟩, calm⟩⟩
    | true =>
      apply move_safe w rfl calm nofun nofun
      refine .inr ⟨?_, by simp [cramped, operated, clamp]⟩
      have room := steady.le_count
      have offset := steady.offset
      rw [show (1 : Int) = ((1 : Nat) : Int) from rfl, add_natCast, if_neg (by decide)]
      simp only [operated, clamp, put_snap, last, InputMode.delta_insert, value]
      simp only [count] at room ⊢
      omega
  · exact ⟨i, rfl, safe⟩

theorem length_oneLine (s : List Char) : (oneLine s).length = s.length := List.length_map ..

/-- The snapshot after text has come in at the cursor. -/
theorem insertStr_spec {i : Input} {s : List Char} (mode : i.mode = .insert)
    (idle : i.snap.op = .none) (calm : i.snaps.Calm) (inside : i.snap.cursor ≤ i.snap.count)
    (fine : i.snap.obscure = true ∨ i.snap.offset ≤ i.snap.cursor + s.length) :
    ∃ t, i.insertStr w s = some t ∧ t.snaps.Calm ∧ t.mode = .insert ∧ t.snap.op = .none ∧
      t.value = i.value.take i.snap.cursor ++ oneLine s ++ i.value.drop i.snap.cursor ∧
      (i.snap.offset ≤ i.snap.cursor + s.length → Safe t) := by
  have spliced : i.snap.splice i.snap.cursor i.snap.cursor (oneLine s) =
      some (i.value.take i.snap.cursor ++ oneLine s ++ i.value.drop i.snap.cursor) :=
    splice_eq (Nat.le_refl _) inside _
  generalize whole : i.value.take i.snap.cursor ++ oneLine s ++ i.value.drop i.snap.cursor = value
    at spliced ⊢
  have count : value.length = i.snap.count + s.length := by
    rw [InputSnap.count] at inside ⊢
    rw [← whole, List.length_append, List.length_append, List.length_take, length_oneLine,
      List.length_drop, Input.value]
    omega
  have result : operated (i.put { i.snap with value }).snap
      (MoveOptStep.add value i.snap.cursor (.offset s.length)) false =
      { i.snap with value, cursor := i.snap.cursor + s.length } := by
    rw [operated_idle (by rw [put_snap, idle]; rfl), add_natCast, clamp]
    have target : min value.length (if s.length = 0 then i.snap.cursor else
        min value.length (i.snap.cursor + s.length)) = i.snap.cursor + s.length := by
      simp only [InputSnap.count] at inside count
      split <;> omega
    simp only [last, put_snap, (show i.snap.mode = .insert from mode), InputMode.delta_insert,
      InputSnap.count, Nat.sub_zero, target]
  obtain ⟨m, offset, moved, size, snaps, le⟩ := move_spec w (i := i.put { i.snap with value })
    (.offset s.length) result
    (fun pending => by
      rw [put_snap, idle] at pending
      cases pending)
    (.inr (.inr fine))
  have now : m.snap = { i.snap with value, cursor := i.snap.cursor + s.length, offset } := by
    rw [snap, snaps]
  have inside' : m.snap.cursor ≤ m.snap.count := by
    rw [now]
    simp only [InputSnap.count] at inside count ⊢
    omega
  have calm' : m.snaps.Calm := by
    rw [snaps, settled, put_snap, idle]
    exact calm
  refine ⟨{ m with history := ⟨none, []⟩ }, ?_, calm', ?_, ?_, ?_, fun before => ⟨⟨?_, ?_, ?_⟩, calm'⟩⟩
  · simp [insertStr, spliced, moveBy, moved, flushAll_eq inside']
  · change m.snap.mode = .insert
    rw [now]
    exact mode
  · change m.snap.op = .none
    rw [now]
    exact idle
  · change m.snap.value = value
    rw [now]
  · change m.snap.cursor ≤ m.snap.last
    rw [last, show m.snap.mode = .insert by rw [now]; exact mode]
    exact inside'
  · change m.snap.offset ≤ m.snap.cursor
    rw [now]
    exact le (.inr (.inr ⟨before, by simp [cramped, show i.snap.mode = .insert from mode]⟩))
  · apply placed_of_none
    change m.snap.op = .none
    rw [now]
    exact idle

/-- In insert mode there is always room for more. -/
theorem insertStr_safe {i : Input} (safe : Safe i) (s : List Char) (mode : i.mode = .insert) :
    ∃ t, i.insertStr w s = some t ∧ Safe t := by
  have steady := safe.steady
  have before := Nat.le_trans steady.offset (Nat.le_add_right i.snap.cursor s.length)
  have idle := steady.idle (by rw [← Input.mode, mode]; decide)
  obtain ⟨t, eq, -, -, -, -, safe⟩ :=
    insertStr_spec w (s := s) mode idle safe.calm steady.le_count (.inr before)
  exact ⟨t, eq, safe before⟩

/-- Typing nothing over the last character takes it away from under the cursor. -/
def shortens (i : Input) (s : List Char) : Bool :=
  i.mode = .replace ∧ s = [] ∧ 0 < i.snap.cursor ∧ i.snap.cursor + 1 = i.snap.count

theorem replaceStr_safe {i : Input} (safe : Safe i) (s : List Char) (mode : i.mode = .replace)
    (fine : i.shortens s = false) : ∃ t, i.replaceStr w s = some t ∧ Safe t := by
  have steady := safe.steady
  have idle := steady.idle (by rw [← Input.mode, mode]; decide)
  have inside := steady.cursor
  rw [last, ← Input.mode, mode, InputMode.delta_replace] at inside
  have room := steady.le_count
  have order : i.snap.cursor ≤ min (i.snap.cursor + 1) i.snap.count :=
    Nat.le_min.mpr ⟨Nat.le_succ _, room⟩
  let value := i.value.take i.snap.cursor ++
    (if i.snap.cursor < i.snap.count then oneLine s else []) ++
    i.value.drop (min (i.snap.cursor + 1) i.snap.count)
  have kept : i.snap.cursor ≤ value.length - 1 := by
    have long : i.snap.cursor + 1 = i.snap.count → 0 < i.snap.cursor → 0 < s.length := by
      intro final positive
      apply List.length_pos_iff.mpr
      intro empty
      simp [shortens, mode, empty, positive, final] at fine
    simp only [value, List.length_append, List.length_take, List.length_drop]
    have count : i.value.length = i.snap.count := rfl
    rw [count]
    split
    · rw [length_oneLine]
      omega
    · rw [List.length_nil]
      omega
  let after := i.put { i.snap with mode := .normal, value }
  obtain ⟨t, eq, snaps, -⟩ := tagged_spec w (i := after) (Nat.le_trans kept (Nat.sub_le ..))
  refine ⟨t, ?_, ?_, ?_⟩
  · have spliced : ({ i.snap with mode := .normal } : InputSnap).splice i.snap.cursor
        (min (i.snap.cursor + 1) i.snap.count)
        (if i.snap.cursor < i.snap.count then oneLine s else []) = some value :=
      splice_eq order (Nat.min_le_right ..) _
    exact (congrArg (Option.bind · _) spliced).trans eq
  · rw [snap, snaps, InputSnaps.tag_current]
    exact ⟨kept, steady.offset, placed_of_none idle⟩
  · rw [snaps]
    exact InputSnaps.Calm.tag w (s := after.snaps) safe.calm idle _

theorem feed_safe {i : Input} (safe : Safe i) (s : List Char) (fine : i.shortens s = false) :
    ∃ t, i.feed w s = some t ∧ Safe t := by
  rw [feed]
  cases mode : i.mode with
  | normal => exact ⟨i, rfl, safe⟩
  | insert => exact insertStr_safe w safe s mode
  | replace => exact replaceStr_safe w safe s mode fine

end Input
end Yazi.Widgets
