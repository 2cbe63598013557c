import Yazi.Base.Run
import Yazi.Widgets.Operations

/-!
No action of an input and no query panics, and its cursor, offset and pending operation stay
inside the value, as long as the steps that go wrong are not taken.

What goes wrong: a move at no width, a completion that leaves the operation outside of the new
value, a paste over a selection that begins before the window, a killing of nothing behind
characters of more than one byte, and a query for a selection that is not in the window.
-/
namespace Yazi.Widgets
open Base

namespace Input
open InputSnap
variable (w : Widths)

/-! ### Moves to the right -/

/-- A move to a character of one cell, at no width, of an input with this value. -/
def crampedBy (i : Input) (value : List Char) (step : MoveOptStep) : Bool :=
  let snap := clamp { i.snap with value, cursor := step.add value i.snap.cursor }
  !i.snap.op.isPending && i.snap.cursor < snap.cursor && snap.cramped w i.limit

/-- A move in a value that the operation begins inside of. -/
theorem move_within {i : Input} {value : List Char} {step : MoveOptStep} (safe : Safe i)
    (fine : i.crampedBy w value step = false)
    (select : ∀ start, i.snap.op = .select start → start < value.length)
    (reach : i.snap.op.isPending = true → ∀ start, i.snap.op.start = some start →
      max start (step.add value i.snap.cursor) ≤ value.length) :
    ∃ t, (i.put { i.snap with value }).move w step false = some t ∧ Safe t := by
  have select' : ∀ start, i.snap.op = .select start → start < value.length ∧ i.mode = .normal :=
    fun start op => ⟨select start op, (safe.steady.of_select op).2⟩
  cases pending : i.snap.op.isPending with
  | true =>
    apply move_safe w (i := i.put { i.snap with value }) rfl safe.calm select' reach
    refine .inl (operated_left (.inr ⟨pending, fun start given => ?_⟩))
    exact Nat.le_of_eq (safe.steady.of_pending pending given).1
  | false =>
    have kept : ({ i.snap with value } : InputSnap).op.isPending = false := pending
    have result : operated { i.snap with value } (step.add value i.snap.cursor) false =
        clamp { i.snap with value, cursor := step.add value i.snap.cursor } :=
      operated_idle kept _ false
    apply move_safe w (i := i.put { i.snap with value }) result safe.calm select' reach
    by_cases right : i.snap.cursor <
        (clamp { i.snap with value, cursor := step.add value i.snap.cursor }).cursor
    · refine .inr ⟨Nat.le_trans safe.steady.offset (Nat.le_of_lt right), ?_⟩
      simp only [crampedBy, pending, Bool.not_false, Bool.true_and, right, decide_true] at fine
      exact fine
    · exact .inl (Nat.le_of_not_lt right)

theorem moves_safe {i : Input} {step : MoveOptStep} (safe : Safe i)
    (fine : i.crampedBy w i.value step = false) :
    ∃ t, i.move w step false = some t ∧ Safe t := by
  apply move_within w safe fine
  · intro start op
    exact (safe.steady.of_select op).1
  · intro pending start given
    rw [(safe.steady.of_pending pending given).1]
    exact Nat.max_le.mpr ⟨safe.steady.le_count, add_le_length safe.steady.le_count step⟩

theorem move_action_safe {i : Input} {step : MoveOptStep} {inOperating : Bool} (safe : Safe i)
    (fine : inOperating = true ∧ i.snap.op = .none ∨ i.crampedBy w i.value step = false) :
    ∃ t, i.move w step inOperating = some t ∧ Safe t := by
  by_cases idle : inOperating = true ∧ i.snap.op = .none
  · refine ⟨i, ?_, safe⟩
    rw [move, if_pos idle]
  · have same : i.move w step inOperating = i.move w step false := by
      rw [move, if_neg idle, move, if_neg (by simp)]
    rw [same]
    exact moves_safe w safe (fine.resolve_left idle)

/-- Nothing is cramped to the left. -/
theorem left_safe {i : Input} {n : Int} (safe : Safe i) (left : n ≤ 0) :
    ∃ t, i.moveBy w n = some t ∧ Safe t := by
  apply moves_safe w safe
  have less : (clamp { i.snap with
      cursor := MoveOptStep.add i.value i.snap.cursor (.offset n) }).cursor ≤ i.snap.cursor :=
    Nat.le_trans (Nat.min_le_right ..) (add_le left)
  simp only [crampedBy, Bool.and_eq_false_iff, decide_eq_false_iff_not]
  exact .inl (.inr (Nat.not_lt.mpr less))

theorem backward_safe {i : Input} (safe : Safe i) (gait : Gait) :
    ∃ t, i.backward w gait = some t ∧ Safe t := by
  rw [backward]
  split
  · exact left_safe w safe (Int.le_refl 0)
  · next some =>
    split
    · next none =>
      -- there is a character before the cursor
      have count := congrArg List.length none
      rw [List.length_reverse, List.length_take, List.length_nil] at count
      have room : i.snap.cursor ≤ i.value.length := safe.steady.le_count
      omega
    · split
      · exact left_safe w safe (by omega)
      · exact left_safe w safe (by omega)

/-- Where `Input::forward` goes. -/
def forwardStep (i : Input) (gait : Gait) (endOfWord : Bool) : MoveOptStep :=
  match i.value.drop i.snap.cursor with
  | [] => .offset 0
  | c :: s =>
    match forwardStop gait endOfWord (.new c) 1 s with
    | none => .offset i.snap.len
    | some n =>
      .offset (if !i.snap.op.isPending && endOfWord then n - i.mode.delta else n : Nat)

theorem forwardStop_pos {gait : Gait} {endOfWord : Bool} {prev : CharKind} {n stop : Nat}
    {s : List Char} (found : forwardStop gait endOfWord prev n s = some stop) : n ≤ stop := by
  induction s generalizing prev n with
  | nil => cases found
  | cons c s ih =>
    rcases ite_eq_iff.mp found with ⟨-, here⟩ | ⟨-, further⟩
    · exact Nat.le_of_eq (Option.some.inj here)
    · exact Nat.le_of_succ_le (ih further)

theorem forward_safe {i : Input} (safe : Safe i) (gait : Gait) (endOfWord : Bool)
    (fine : i.crampedBy w i.value (i.forwardStep gait endOfWord) = false) :
    ∃ t, i.forward w gait endOfWord = some t ∧ Safe t := by
  have goes : i.forward w gait endOfWord = i.move w (i.forwardStep gait endOfWord) false := by
    cases chars : i.value.drop i.snap.cursor with
    | nil => simp [forward, forwardStep, chars, moveBy]
    | cons c s =>
      cases found : forwardStop gait endOfWord (.new c) 1 s with
      | none => simp [forward, forwardStep, chars, found, moveBy]
      | some n =>
        -- what is stopped at is one character away at least
        have after : ¬n < i.mode.delta :=
          Nat.not_lt.mpr (Nat.le_trans (delta_le i.mode) (forwardStop_pos found))
        cases op : i.snap.op with
        | none | select _ =>
          cases endOfWord <;>
            simp [forward, forwardStep, chars, found, op, InputOp.isPending, after, moveBy]
        | delete _ _ _ | yank _ =>
          simp [forward, forwardStep, chars, found, op, InputOp.isPending, moveBy]
  rw [goes]
  exact moves_safe w safe fine

/-! ### Other values -/

/-- A completion in which the operation still begins, and to whose end the cursor can go. -/
def completesWithin (i : Input) (opt : CompleteOpt) : Bool :=
  match i.partition with
  | none => true
  | some (before, after) =>
    let value := completed before after opt
    value = i.value ||
      !i.crampedBy w value (.offset ((value.length : Int) - i.snap.count)) &&
        match i.snap.op with
        | .none => true
        | .select start => start < value.length
        | .delete _ _ start | .yank start => start ≤ value.length

theorem complete_safe {i : Input} (safe : Safe i) (opt : CompleteOpt)
    (fine : i.completesWithin w opt = true) : ∃ t, i.complete w opt = some t ∧ Safe t := by
  rw [completesWithin] at fine
  rw [complete]
  cases parts : i.partition with
  | none => exact absurd (partition_isSome safe.steady.le_count) (by rw [parts]; decide)
  | some parts' =>
    obtain ⟨before, after⟩ := parts'
    simp only [parts, Option.bind_eq_bind, Option.bind_some] at fine ⊢
    generalize completed before after opt = value at *
    split
    · exact ⟨i, rfl, safe⟩
    · next other =>
      simp only [other, decide_false, Bool.false_or, Bool.and_eq_true, Bool.not_eq_true'] at fine
      apply flushed_safe
      apply move_within w safe fine.1
      · intro start op
        simpa [op] using fine.2
      · intro pending start given
        have placed := (safe.steady.of_pending pending given).1
        have room : start ≤ value.length := by
          cases op : i.snap.op with
          | none | select _ =>
            rw [op] at pending
            cases pending
          | delete _ _ _ | yank _ =>
            rw [op] at given
            cases given
            simpa [op] using fine.2
        rw [← placed]
        exact Nat.max_le.mpr ⟨room, add_le_length room _⟩

/-- A snapshot of another size. -/
theorem resize_offset_le {snap : InputSnap} {limit : Nat}
    (before : snap.offset ≤ min snap.cursor snap.last ∨
      snap.tail w limit ≠ 0 ∧ snap.count - 1 ≤ min snap.cursor snap.last)
    (room : snap.tail w limit ≠ 0 ∨ snap.count ≤ min snap.cursor snap.last) :
    (snap.resize w limit).offset ≤ (snap.resize w limit).cursor := by
  rw [resize]
  generalize snap.tail w limit = t at *
  generalize min snap.cursor snap.last = c at *
  dsimp only
  split
  · omega
  · omega

theorem resize_cursor_le (snap : InputSnap) (limit : Nat) :
    (snap.resize w limit).cursor ≤ (snap.resize w limit).last := Nat.min_le_right ..

theorem new_offset_le (value : List Char) (obscure : Bool) :
    (InputSnap.new w value obscure).offset ≤ (InputSnap.new w value obscure).cursor := by
  apply resize_offset_le w (.inl (Nat.zero_le _))
  exact .inr (Nat.le_of_eq (Nat.min_self _).symm)

/-- At the end of what is behind the last character that fits. -/
def blinds (i : Input) (size : Nat × Nat) : Bool :=
  i.size ≠ size ∧ i.snap.tail w size.1 = 0 ∧ i.snap.cursor < i.snap.count

theorem repos_safe {i : Input} (safe : Safe i) (size : Nat × Nat)
    (fine : i.blinds w size = false) : Safe (i.repos w size) := by
  have steady := safe.steady
  rw [repos]
  split
  · next other =>
    have cursor : min i.snap.cursor i.snap.last = i.snap.cursor := Nat.min_eq_left steady.cursor
    have room : i.snap.tail w size.1 ≠ 0 ∨ i.snap.count ≤ min i.snap.cursor i.snap.last := by
      rw [cursor]
      by_contra blind
      simp [blinds, other] at fine
      omega
    refine ⟨⟨resize_cursor_le .., ?_, ?_⟩, safe.calm⟩
    · apply resize_offset_le w _ room
      rw [cursor]
      exact .inl steady.offset
    · exact steady.placed.of_same rfl rfl rfl cursor
  · exact safe

/-- The value that `Input::recall` puts in place of the current one. -/
def recalled (i : Input) (items : List (List Char)) (step : Step) : Option (List Char) :=
  if items = [] then none
  else
    let pos := i.history.at'.getD items.length
    let next := step.add pos items.length
    if next = pos then none else if next = items.length then i.history.draft else items[next]?

/-- At its end there is no character that fits, and the cursor is on the last one. -/
def blindEnd (i : Input) (value : List Char) : Bool :=
  i.mode ≠ .insert ∧ value ≠ [] ∧
    ({ i.snap with value, obscure := i.obscure } : InputSnap).tail w i.limit = 0

theorem recallTo_safe {i : Input} (calm : i.snaps.Calm) (history : InputHistory)
    (value : List Char) (fine : i.blindEnd w value = false) :
    ∃ t, ({ i with history } : Input).recallTo w value = some t ∧ Safe t := by
  have delta := delta_le i.mode
  -- a new snapshot has its cursor behind the last character, where it stays in insert mode only
  have cursor : (InputSnap.new w value i.obscure).cursor = value.length := Nat.min_self _
  have offset : (InputSnap.new w value i.obscure).offset ≤ value.length := by
    rw [← cursor]
    exact new_offset_le ..
  let fresh := { InputSnap.new w value i.obscure with mode := i.mode }
  have stop : min fresh.cursor fresh.last = value.length - i.mode.delta := by
    have last : fresh.last = value.length - i.mode.delta := rfl
    rw [last, cursor]
    exact Nat.min_eq_right (Nat.sub_le ..)
  have le : (fresh.resize w i.limit).offset ≤ (fresh.resize w i.limit).cursor := by
    have count : fresh.count = value.length := rfl
    by_cases tail : fresh.tail w i.limit = 0
    · have whole : value.length = value.length - i.mode.delta := by
        by_cases insert : i.mode = .insert
        · rw [insert]
          rfl
        · by_cases empty : value = []
          · rw [empty, List.length_nil, Nat.zero_sub]
          · have none : i.blindEnd w value = true := by
              simp only [blindEnd, decide_eq_true_eq]
              exact ⟨insert, empty, tail⟩
            exact absurd (none.symm.trans fine) (by decide)
      apply resize_offset_le w
      · rw [stop, ← whole]
        exact .inl offset
      · rw [stop, ← whole, count]
        exact .inr (Nat.le_refl _)
    · apply resize_offset_le w _ (.inl tail)
      rw [stop, count]
      exact .inr ⟨tail, by omega⟩
  have bound := Nat.le_trans (resize_cursor_le w fresh i.limit) (last_le_count _)
  exact ⟨_, flushTrigger_eq bound, ⟨resize_cursor_le .., le, placed_of_none rfl⟩, calm⟩

theorem step_add_le (pos last : Nat) (step : Step) : step.add pos last ≤ last := by
  cases step with
  | top => exact Nat.zero_le _
  | bot => exact Nat.le_refl _
  | prev | next | offset _ | percent | vp _ => exact Nat.min_le_right ..

theorem recall_safe {i : Input} (safe : Safe i) (items : List (List Char)) (step : Step)
    (fine : (i.recalled items step).any (i.blindEnd w) = false) :
    ∃ t, i.recall w items step = some t ∧ Safe t := by
  rw [recalled] at fine
  rw [Input.recall]
  split
  · exact ⟨i, rfl, safe⟩
  · next some =>
    rw [if_neg some] at fine
    dsimp only at fine ⊢
    split
    · exact ⟨i, rfl, safe⟩
    · next other =>
      rw [if_neg other] at fine
      have bound := step_add_le (i.history.at'.getD items.length) items.length step
      split
      · next draft =>
        rw [if_pos draft] at fine
        exact recallTo_safe w safe.calm _ _ fine
      · next listed =>
        rw [if_neg listed] at fine
        have item := List.getElem?_eq_getElem (Nat.lt_of_le_of_ne bound listed)
        rw [item] at fine ⊢
        exact recallTo_safe w safe.calm _ _ fine

/-! ### Pasting -/

/-- What is pasted does not leave the cursor before the window. -/
def pastesWithin (i : Input) (before : Bool) (clipboard : List Char) : Bool :=
  match i.snap.op.start with
  | none => true
  | some start =>
    let (s, e) := InputOp.span start i.snap.cursor true
    let rest := i.snap.count - (e - s)
    let cursor := min (rest - 1) s
    0 < i.snap.count &&
      if clipboard = [] then i.snap.offset ≤ cursor
      else
        i.snap.obscure ||
          if before then i.snap.offset ≤ cursor + clipboard.length
          else rest = 0 || i.snap.offset ≤ cursor + 1

/-- Entering insert mode wherever the offset is. -/
theorem insert_ready {i : Input} {append : Bool} {n : Nat} (mode : i.mode = .normal)
    (calm : i.snaps.Calm) (inside : i.snap.cursor ≤ i.snap.last)
    (fine : i.snap.obscure = true ∨ if append then i.snap.count = 0 ∨
      i.snap.offset ≤ i.snap.cursor + 1 else i.snap.offset ≤ i.snap.cursor + n) :
    ∃ t, i.insert w append = some t ∧ t.mode = .insert ∧ t.snap.op = .none ∧ t.snaps.Calm ∧
      t.snap.cursor ≤ t.snap.count ∧
      (t.snap.obscure = true ∨ t.snap.offset ≤ t.snap.cursor + n) := by
  have room := Nat.le_trans inside (last_le_count _)
  rw [insert, if_pos mode]
  cases append with
  | false => exact ⟨_, rfl, rfl, rfl, calm, room, fine⟩
  | true =>
    let before := i.put { i.snap with op := .none, mode := .insert }
    have cursor : min i.snap.count (MoveOptStep.add i.value i.snap.cursor (.offset 1)) =
        min i.snap.count (i.snap.cursor + 1) := by
      rw [show (1 : Int) = ((1 : Nat) : Int) from rfl, add_natCast, if_neg (by decide)]
      exact Nat.min_eq_right (Nat.min_le_left ..)
    have result : operated before.snap (MoveOptStep.add i.value i.snap.cursor (.offset 1)) false =
        { before.snap with cursor := min i.snap.count (i.snap.cursor + 1) } := by
      rw [← cursor]
      rfl
    rw [last, ← Input.mode, mode, InputMode.delta_normal] at inside
    have reached : i.snap.count ≠ 0 → min i.snap.count (i.snap.cursor + 1) = i.snap.cursor + 1 := by
      omega
    have fine' : i.snap.obscure = true ∨ i.snap.value = [] ∨
        i.snap.offset ≤ min i.snap.count (i.snap.cursor + 1) := by
      rcases fine with obscure | fine
      · exact .inl obscure
      · by_cases empty : i.snap.count = 0
        · exact .inr (.inl (List.length_eq_zero_iff.mp empty))
        · rw [reached empty]
          exact .inr (.inr (fine.resolve_left empty))
    obtain ⟨t, offset, moved, -, snaps, le⟩ := move_spec w (i := before) (.offset 1)
      result (by rintro ⟨⟩) (.inr (by
        rcases fine' with obscure | empty | le
        · exact .inr (.inl obscure)
        · exact .inl empty
        · exact .inr (.inr le)))
    have now : t.snap = { i.snap with
        op := .none, mode := .insert, cursor := min i.snap.count (i.snap.cursor + 1), offset } := by
      rw [snap, snaps]
      rfl
    refine ⟨t, moved, ?_, ?_, ?_, ?_, ?_⟩
    · rw [Input.mode, now]
    · rw [now]
    · rw [snaps]
      exact calm
    · rw [now]
      exact Nat.min_le_left ..
    · rw [now]
      rcases fine' with obscure | empty | within
      · exact .inl obscure
      · exact .inr (Nat.le_trans (le (.inr (.inl empty))) (Nat.le_add_right ..))
      · have plain : ({ before.snap with cursor := min i.snap.count (i.snap.cursor + 1) } :
            InputSnap).cramped w before.limit = false := by
          simp [cramped, before]
        exact .inr (Nat.le_trans (le (.inr (.inr ⟨within, plain⟩))) (Nat.le_add_right ..))

/-- The rest of a paste. -/
theorem put_in {i : Input} {before : Bool} {clipboard : List Char} (mode : i.mode = .normal)
    (calm : i.snaps.Calm) (inside : i.snap.cursor ≤ i.snap.last)
    (fine : i.snap.obscure = true ∨ if !before then i.snap.count = 0 ∨
      i.snap.offset ≤ i.snap.cursor + 1 else i.snap.offset ≤ i.snap.cursor + clipboard.length) :
    ∃ t, ((i.insert w !before).bind fun i => (i.insertStr w clipboard).bind fun i => i.escape w) =
      some t ∧ Safe t := by
  obtain ⟨m, eq, mode, op, calm, inside, fine⟩ := insert_ready w mode calm inside fine
  obtain ⟨n, eq', calm, mode, op, -, -⟩ := insertStr_spec w mode op calm inside fine
  obtain ⟨t, eq'', safe, -⟩ := escape_insert w mode op calm
  refine ⟨t, ?_, safe⟩
  rw [eq, Option.bind_some, eq', Option.bind_some]
  exact eq''

theorem paste_safe {i : Input} (safe : Safe i) (mode : i.mode = .normal) (before : Bool)
    (clipboard : List Char) (fine : i.pastesWithin before clipboard = true) :
    ∃ t, i.paste w before clipboard = some t ∧ Safe t := by
  have steady := safe.steady
  cases begins : i.snap.op.start with
  | none =>
    simp only [paste, begins, Option.bind_eq_bind, Option.bind_some]
    split
    · exact ⟨i, rfl, safe⟩
    · apply put_in w mode safe.calm steady.cursor
      have offset := steady.offset
      right
      split <;> omega
  | some start =>
    simp only [pastesWithin, begins, Bool.and_eq_true, decide_eq_true_eq] at fine
    obtain ⟨positive, fine⟩ := fine
    have cursor := steady.cursor
    rw [last, ← Input.mode, mode, InputMode.delta_normal] at cursor
    have room : max start i.snap.cursor + true.toNat ≤ i.snap.count := by
      have begins' := steady.inside.start start begins
      rw [← Input.mode, mode, InputMode.delta_normal] at begins'
      rw [Bool.toNat_true]
      omega
    obtain ⟨h, eq, now, op, calm, -⟩ := carried w
      (i := i.put { i.snap with op := .delete false false start }) i.snap.cursor true rfl
      safe.calm (fun s given => by
        cases given
        exact room)
    have count : h.snap.count = i.snap.count - (max start i.snap.cursor + true.toNat -
        min start i.snap.cursor) := by
      rw [now, InputSnap.count]
      simp only [operated, put_snap, clamp, InputOp.span, List.length_append, List.length_take,
        List.length_drop]
      rw [InputSnap.count] at room ⊢
      omega
    have mode' : h.mode = .normal := by
      rw [Input.mode, now]
      rfl
    have cursor' : h.snap.cursor = min (h.snap.count - 1) (min start i.snap.cursor) := by
      rw [now]
      rfl
    have offset : h.snap.offset = i.snap.offset := by rw [now, operated_offset, put_snap]
    have obscure : h.snap.obscure = i.snap.obscure := by rw [now, operated_obscure, put_snap]
    have inside : h.snap.cursor ≤ h.snap.last := by
      rw [now]
      exact operated_le ..
    simp only [InputOp.span, ← count, ← cursor', ← offset, ← obscure] at fine
    simp only [paste, begins, eq, Option.bind_eq_bind, Option.bind_some]
    split
    · next empty =>
      rw [if_pos empty, decide_eq_true_eq] at fine
      exact ⟨h, rfl, ⟨inside, fine, placed_of_none op⟩, calm⟩
    · next some =>
      rw [if_neg some] at fine
      apply put_in w mode' calm inside
      cases before <;> simpa using fine

/-! ### Queries -/

/-- The selection, or what an operation has begun with, is in the window. -/
def shows (i : Input) (start : Nat) : Bool :=
  let count := fits w.char i.limit ((i.snap.shown i.value).drop i.snap.offset)
  i.snap.obscure ||
    if start < i.snap.cursor then
      start ≤ i.snap.offset + count && (count ≠ 0 || i.snap.offset = 0)
    else i.snap.cursor < i.snap.offset + count

/-- Its width has sixteen bits. -/
def narrows (i : Input) (start : Nat) : Bool :=
  let (s, e) := i.selection w start
  (i.snap.width w i.snap.offset s).getD 0 + (i.snap.width w s e).getD 0 < 2 ^ 16

/-- What a rendering asks for. -/
def query (i : Input) : Option Unit := do
  let _ ← i.display w
  let _ ← i.cursor w
  let _ ← i.selected w
  let _ ← i.partition
  some ()

theorem window_le (snap : InputSnap) (limit : Nat) :
    (snap.window w limit).1 ≤ (snap.window w limit).2 ∧ (snap.window w limit).2 ≤ snap.count := by
  have bounds := findWindow_le w.char (snap.shown snap.value) snap.offset limit
  rw [length_shown] at bounds
  exact bounds

theorem selection_spec {i : Input} (steady : i.snap.Steady) {start : Nat}
    (shown : i.shows w start = true) : i.snap.obscure = true ∨
      i.snap.offset ≤ (i.selection w start).1 ∧
        (i.selection w start).1 ≤ (i.selection w start).2 ∧
        (i.selection w start).2 ≤ i.snap.count := by
  have offset := steady.offset
  have bounds := window_le w i.snap i.limit
  have window : i.snap.window w i.limit =
      if fits w.char i.limit ((i.snap.shown i.value).drop i.snap.offset) = 0 then (0, 0)
      else (i.snap.offset, i.snap.offset +
        fits w.char i.limit ((i.snap.shown i.value).drop i.snap.offset)) := rfl
  simp only [shows, Bool.or_eq_true] at shown
  refine shown.imp_right fun shown => ?_
  rw [selection]
  generalize fits w.char i.limit ((i.snap.shown i.value).drop i.snap.offset) = count at *
  have cursor := steady.le_count
  by_cases left : start < i.snap.cursor
  · simp only [if_pos left, Bool.and_eq_true, Bool.or_eq_true, decide_eq_true_eq] at shown ⊢
    by_cases none : count = 0
    · rw [if_pos none] at window
      rw [window]
      dsimp only
      omega
    · rw [if_neg none] at window
      rw [window] at bounds ⊢
      dsimp only at bounds ⊢
      omega
  · simp only [if_neg left, decide_eq_true_eq] at shown ⊢
    have some : count ≠ 0 := by omega
    rw [if_neg some] at window
    rw [window] at bounds ⊢
    dsimp only at bounds ⊢
    omega

theorem selected_isSome {i : Input} (steady : i.snap.Steady)
    (fine : ∀ start, i.snap.op.start = some start →
      i.shows w start = true ∧ i.narrows w start = true) : (i.selected w).isSome = true := by
  rw [Input.selected]
  cases begins : i.snap.op.start with
  | none => rfl
  | some start =>
    obtain ⟨shown, narrow⟩ := fine start begins
    have spec := selection_spec w steady shown
    obtain ⟨before, beforeEq⟩ := Option.isSome_iff_exists.mp
      (width_isSome w i.snap i.snap.offset (i.selection w start).1
        (spec.imp_right fun spec => ⟨spec.1, Nat.le_trans spec.2.1 spec.2.2⟩))
    obtain ⟨inside, insideEq⟩ := Option.isSome_iff_exists.mp
      (width_isSome w i.snap (i.selection w start).1 (i.selection w start).2 (spec.imp_right And.right))
    simp only [narrows, beforeEq, insideEq, Option.getD_some, decide_eq_true_eq] at narrow
    simp only [beforeEq, insideEq, Option.bind_eq_bind, Option.bind_some, if_pos narrow,
      Option.isSome_some]

theorem query_isSome {i : Input} (safe : Safe i)
    (fine : ∀ start, i.snap.op.start = some start →
      i.shows w start = true ∧ i.narrows w start = true) : (i.query w).isSome = true := by
  have steady := safe.steady
  have display : (i.display w).isSome = true := by
    rw [Input.display]
    have bounds := window_le w i.snap i.limit
    dsimp only
    split
    · rfl
    · rw [slice_eq bounds.1 bounds.2]
      rfl
  have cursor : (i.cursor w).isSome = true :=
    width_isSome w _ _ _ (.inr ⟨steady.offset, steady.le_count⟩)
  obtain ⟨_, display⟩ := Option.isSome_iff_exists.mp display
  obtain ⟨_, cursor⟩ := Option.isSome_iff_exists.mp cursor
  obtain ⟨_, selected⟩ := Option.isSome_iff_exists.mp (selected_isSome w steady fine)
  obtain ⟨_, partition⟩ := Option.isSome_iff_exists.mp (partition_isSome steady.le_count)
  simp only [query, display, cursor, selected, partition, Option.bind_eq_bind, Option.bind_some,
    Option.isSome_some]

/-! ### Runs -/

/-- An action, or a rendering. -/
inductive Event where
  | act (a : Action)
  | query
  deriving DecidableEq, Repr

/-- What an event leaves; `none` is a panic, after which there is nothing. -/
def step (i : Option Input) (e : Event) : Option (Option Input) :=
  i.map fun i =>
    match e with
    | .act a => i.act w a
    | .query => (i.query w).map fun _ => i

/-- The action is not one of those that go wrong. -/
def allows (i : Input) : Action → Bool
  | .move step inOperating => inOperating && i.snap.op = .none || !i.crampedBy w i.value step
  | .forward gait endOfWord => !i.crampedBy w i.value (i.forwardStep gait endOfWord)
  | .feed s => !i.shortens s
  | .paste before clipboard => i.mode ≠ .normal || i.pastesWithin before clipboard
  | .kill kind => i.mode ≠ .insert || !i.overruns kind
  | .complete opt => i.completesWithin w opt
  | .recall items step => !(i.recalled items step).any (i.blindEnd w)
  | .repos size => !i.blinds w size
  | .backward _ | .insert _ | .visual | .replace | .delete .. | .yank | .undo | .redo | .casefy _
  | .backspace _ | .escape => true

def ok (i : Option Input) (e : Event) : Bool :=
  i.all fun i =>
    match e with
    | .act a => i.allows w a
    | .query => i.snap.op.start.all fun start => i.shows w start && i.narrows w start

theorem act_safe {i : Input} (safe : Safe i) {a : Action} (fine : i.allows w a = true) :
    ∃ t, i.act w a = some t ∧ Safe t := by
  cases a with
  | move step inOperating =>
    apply move_action_safe w safe
    simpa [allows] using fine
  | feed s => exact feed_safe w safe s (by simpa [allows] using fine)
  | backward gait => exact backward_safe w safe gait
  | forward gait endOfWord => exact forward_safe w safe gait endOfWord (by simpa [allows] using fine)
  | insert append =>
    rw [act]
    split
    · exact insert_safe w safe append
    · exact ⟨i, rfl, safe⟩
  | visual =>
    rw [act]
    split
    · next mode => exact visual_safe w safe mode
    · exact ⟨i, rfl, safe⟩
  | replace =>
    rw [act]
    split
    · exact ⟨_, rfl, replace_safe safe⟩
    · exact ⟨i, rfl, safe⟩
  | delete cut insert =>
    rw [act]
    split
    · next mode => exact delete_safe w safe mode cut insert
    · exact ⟨i, rfl, safe⟩
  | yank =>
    rw [act]
    split
    · next mode => exact yank_safe w safe mode
    · exact ⟨i, rfl, safe⟩
  | paste before clipboard =>
    rw [act]
    split
    · next mode => exact paste_safe w safe mode before clipboard (by simpa [allows, mode] using fine)
    · exact ⟨i, rfl, safe⟩
  | undo =>
    rw [act]
    split
    · exact undo_safe w safe
    · exact ⟨i, rfl, safe⟩
  | redo =>
    rw [act]
    split
    · exact redo_safe w safe
    · exact ⟨i, rfl, safe⟩
  | casefy upper =>
    rw [act]
    split
    · exact casefy_safe w safe upper
    · exact ⟨i, rfl, safe⟩
  | backspace under =>
    rw [act]
    split
    · next mode => exact backspace_safe w safe mode under
    · exact ⟨i, rfl, safe⟩
  | kill kind =>
    rw [act]
    split
    · next mode => exact kill_safe w safe mode kind (by simpa [allows, mode] using fine)
    · exact ⟨i, rfl, safe⟩
  | escape => exact escape_safe w safe
  | complete opt => exact complete_safe w safe opt fine
  | «recall» items step => exact recall_safe w safe items step (by simpa [allows] using fine)
  | repos size => exact ⟨_, rfl, repos_safe w safe size (by simpa [allows] using fine)⟩

theorem new_safe (value : List Char) (cursor : Option Nat) (obscure completion : Bool) :
    ∃ i, Input.new w value cursor obscure completion = some i ∧ Safe i := by
  have calm : (InputSnaps.new w value obscure).Calm := by
    intro version member
    rw [List.mem_singleton.mp member]
    rfl
  unfold Input.new
  cases cursor with
  | none => exact ⟨_, rfl, ⟨resize_cursor_le .., new_offset_le .., placed_of_none rfl⟩, calm⟩
  | some cursor => exact moveBy_left_of_none w (Int.le_refl 0) calm rfl

/-- An event that is not one of those that go wrong. -/
theorem step_safe {i : Input} (safe : Safe i) {e : Event} {s : Option Input}
    (moved : restrict (step w) (ok w) (some i) e = some s) : ∃ t, s = some t ∧ Safe t := by
  obtain ⟨fine, moved⟩ := restrict_eq_some moved
  cases Option.some.inj moved
  cases e with
  | act a => exact act_safe w safe fine
  | query =>
    have fine' : ∀ start, i.snap.op.start = some start →
        i.shows w start = true ∧ i.narrows w start = true := by
      intro start given
      simpa [ok, given] using fine
    obtain ⟨_, eq⟩ := Option.isSome_iff_exists.mp (query_isSome w safe fine')
    exact ⟨i, congrArg (Option.map fun _ => i) eq, safe⟩

/-- Along every run of events that do not go wrong, nothing panics, and the cursor, the offset and
the operation are inside the value. -/
theorem input_safe (value : List Char) (cursor : Option Nat) (obscure completion : Bool)
    {events : List Event} {s : Option Input}
    (run : Run (restrict (step w) (ok w)) (Input.new w value cursor obscure completion) events s) :
    ∃ i, s = some i ∧ i.snap.Inside := by
  obtain ⟨i, eq, safe⟩ := run.invariant (P := fun s => ∃ i, s = some i ∧ Safe i)
    (by
      rintro _ e t ⟨i, rfl, safe⟩ moved
      exact step_safe w safe moved)
    (new_safe w value cursor obscure completion)
  exact ⟨i, eq, safe.steady.inside⟩

/-- Eight cells of width, every character of one. -/
def cells : Widths where
  char _ := 1
  str s := s.length

/-- A word is typed, selected from its end, and taken out; nothing is killed at the end. -/
def session : List Event :=
  [.act (.repos (8, 1)), .act (.feed ['a', 'b', '/', 'c']), .act .escape, .query, .act .visual,
    .act (.move (.offset (-2)) false), .query, .act (.delete true false), .act .undo, .query,
    .act (.forward .fine true), .act (.insert true), .act (.kill .eol), .query]

theorem input_safe_session :
    ∃ i, (exec (restrict (step cells) (ok cells)) (Input.new cells [] none false true) session).get
      (by decide) = some i ∧ i.snap.Inside :=
  input_safe cells [] none false true (run_exec (by decide))

/-- Killing nothing at the end of a value that is not ASCII leaves the cursor behind it, where
the next query panics. -/
theorem killed_at_end :
    ∃ i, exec (step cells) (Input.new cells ['é'] none false false) [.act (.kill .eol)] =
      some (some i) ∧ i.snap.count < i.snap.cursor ∧ i.query cells = none :=
  ⟨_, rfl, by decide, by decide⟩

end Input
end Yazi.Widgets
