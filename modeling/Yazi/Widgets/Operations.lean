import Yazi.Widgets.Steady

/-!
What carries out an operation, goes back to a version or removes characters keeps the invariant of
an input. Only a killing of nothing may not.
-/
namespace Yazi.Widgets
namespace Input
open InputSnap
variable (w : Widths)

/-! ### Operations -/

/-- An operation that has a range is carried out. -/
theorem carried {i : Input} (cursor : Nat) (inclusive : Bool)
    (pending : i.snap.op.isPending = true) (calm : i.snaps.Calm)
    (room : ∀ start, i.snap.op.start = some start →
      max start cursor + inclusive.toNat ≤ i.snap.count) :
    ∃ t, i.handleOp w cursor inclusive = some t ∧ t.snap = operated i.snap cursor inclusive ∧
      t.snap.op = .none ∧ t.snaps.Calm ∧ t.size = i.size := by
  obtain ⟨t, eq, size, snaps⟩ := handleOp_spec w cursor inclusive fun _ => room
  have current : t.snap = operated i.snap cursor inclusive := by
    rw [snap, snaps, settled_current]
  refine ⟨t, eq, current, ?_, ?_, size⟩
  · rw [current]
    exact operated_op pending ..
  · rw [snaps]
    exact calm_settled w calm cursor inclusive

/-- What is selected is inside the value. -/
theorem selection_inside {snap : InputSnap} (steady : snap.Steady) {start : Nat}
    (op : snap.op = .select start) : max start snap.cursor + 1 ≤ snap.count := by
  have first := (steady.of_select op).1
  have last := steady.lt_of_select op
  omega

/-- The operation on a selection, and the move of nothing after it. -/
theorem carried_moved {i : Input} {cursor : Nat} {inclusive : Bool}
    (pending : i.snap.op.isPending = true) (calm : i.snaps.Calm)
    (room : ∀ start, i.snap.op.start = some start →
      max start cursor + inclusive.toNat ≤ i.snap.count) :
    ∃ t, ((i.handleOp w cursor inclusive).bind fun i => i.moveBy w 0) = some t ∧ Safe t := by
  obtain ⟨h, eq, -, op, calm, -⟩ := carried w cursor inclusive pending calm room
  rw [eq, Option.bind_some]
  exact moveBy_left_of_none w (by decide) calm op

/-- Asked for twice, an operation covers the whole value. -/
theorem whole_safe {i : Input} (pending : i.snap.op.isPending = true) (calm : i.snaps.Calm)
    (begins : i.snap.op.start = some 0) (inside : i.snap.cursor ≤ i.snap.count) :
    ∃ t, i.moveBy w i.snap.len = some t ∧ Safe t := by
  have reach := add_le_length (s := i.value) inside (.offset i.snap.len)
  apply move_safe w rfl calm
  · intro start op
    rw [op] at pending
    cases pending
  · intro _ start given
    cases begins.symm.trans given
    rw [Nat.zero_max]
    exact reach
  · refine .inl (operated_left (.inr ⟨pending, fun start given => ?_⟩))
    cases begins.symm.trans given
    exact Nat.zero_le _

theorem delete_safe {i : Input} (safe : Safe i) (mode : i.mode = .normal) (cut insert : Bool) :
    ∃ t, i.delete w cut insert = some t ∧ Safe t := by
  have steady := safe.steady
  rw [delete]
  split
  · exact ⟨_, rfl, ⟨steady.cursor, steady.offset, rfl, mode⟩, safe.calm⟩
  · next start op =>
    apply carried_moved w (i := i.put { i.snap with op := .delete cut insert start }) rfl safe.calm
    intro s given
    cases given
    exact selection_inside steady op
  · exact whole_safe w (i := i.put { i.snap with op := .delete cut insert 0 }) rfl safe.calm rfl
      steady.le_count
  · exact ⟨i, rfl, safe⟩

theorem yank_safe {i : Input} (safe : Safe i) (mode : i.mode = .normal) :
    ∃ t, i.yank w = some t ∧ Safe t := by
  have steady := safe.steady
  rw [yank]
  split
  · exact ⟨_, rfl, ⟨steady.cursor, steady.offset, rfl, mode⟩, safe.calm⟩
  · next start op =>
    apply carried_moved w (i := i.put { i.snap with op := .yank start }) rfl safe.calm
    intro s given
    cases given
    exact selection_inside steady op
  · exact whole_safe w (i := i.put { i.snap with op := .yank 0 }) rfl safe.calm rfl
      steady.le_count
  · exact ⟨i, rfl, safe⟩

theorem casefy_safe {i : Input} (safe : Safe i) (upper : Bool) :
    ∃ t, i.casefy w upper = some t ∧ Safe t := by
  have steady := safe.steady
  rw [casefy]
  split
  · next start op =>
    have room := selection_inside steady op
    have order : min start i.snap.cursor ≤ max start i.snap.cursor + true.toNat :=
      Nat.le_trans (Nat.le_trans (Nat.min_le_left ..) (Nat.le_max_left ..)) (Nat.le_add_right ..)
    simp only [InputOp.span]
    rw [slice_eq order room, Option.bind_eq_bind, Option.bind_some, splice_eq order room,
      Option.bind_eq_bind, Option.bind_some]
    generalize whole : i.snap.value.take (min start i.snap.cursor) ++ transform upper _ ++ _ = value
    have count : value.length = i.snap.count := by
      rw [InputSnap.count] at room ⊢
      rw [← whole, transform]
      simp only [List.length_append, List.length_take, List.length_map, List.length_drop]
      omega
    have inside : min start i.snap.cursor ≤ value.length := by
      rw [count]
      exact Nat.le_trans (Nat.min_le_right ..) steady.le_count
    let after := i.put { i.snap with value, op := .none, cursor := min start i.snap.cursor }
    obtain ⟨t, eq, snaps, -⟩ := tagged_spec w (i := after) inside
    rw [eq, Option.bind_some]
    apply moveBy_left_of_none w (by decide)
    · rw [snaps]
      exact InputSnaps.Calm.tag w (s := after.snaps) safe.calm rfl _
    · rw [snap, snaps, InputSnaps.tag_current]
      rfl
  · exact ⟨i, rfl, safe⟩

/-! ### Versions -/

theorem undo_safe {i : Input} (safe : Safe i) : ∃ t, i.undo w = some t ∧ Safe t := by
  rw [undo]
  split
  · exact ⟨i, rfl, safe⟩
  · cases undone : i.snaps.undo with
    | none => exact ⟨i, rfl, safe⟩
    | some snaps =>
      have restored : snaps.Calm ∧ snaps.current.op = .none := by
        rw [InputSnaps.undo] at undone
        split at undone
        · cases undone
        · obtain ⟨version, found, rfl⟩ := Option.map_eq_some_iff.mp undone
          exact ⟨safe.calm, safe.calm version (List.mem_of_getElem? found)⟩
      obtain ⟨m, moved, safe⟩ := moveBy_left_of_none w (i := { i with snaps }) (n := 0) (by decide)
        restored.1 restored.2
      simp only [moved, Option.bind_eq_bind, Option.bind_some]
      split
      · exact escape_safe w safe
      · exact ⟨m, rfl, safe⟩

theorem redo_safe {i : Input} (safe : Safe i) : ∃ t, i.redo w = some t ∧ Safe t := by
  rw [redo]
  cases redone : i.snaps.redo with
  | none =>
    -- what is pending is carried out over nothing
    apply moveBy_left w (by decide) safe.calm
    · intro start op
      exact safe.steady.of_select op
    · intro pending start given
      rw [(safe.steady.of_pending pending given).1, Nat.max_self]
      exact safe.steady.le_count
  | some snaps =>
    rw [InputSnaps.redo] at redone
    obtain ⟨version, found, rfl⟩ := Option.map_eq_some_iff.mp redone
    exact moveBy_left_of_none w (by decide) safe.calm
      (safe.calm version (List.mem_of_getElem? found))

/-! ### Removing -/

theorem backspace_safe {i : Input} (safe : Safe i) (mode : i.mode = .insert) (under : Bool) :
    ∃ t, i.backspace w under = some t ∧ Safe t := by
  have steady := safe.steady
  have idle := steady.idle (by rw [← Input.mode, mode]; decide)
  have room := steady.le_count
  rw [backspace]
  split
  · exact ⟨i, rfl, safe⟩
  · next first =>
    split
    · exact ⟨i, rfl, safe⟩
    · next last =>
      have removed : (if under = true then i.snap.cursor else i.snap.cursor - 1) + 1 ≤
          i.snap.count := by
        cases under with
        | false =>
          simp at first ⊢
          omega
        | true =>
          simp at last ⊢
          omega
      have left : (if under = true then 0 else (-1 : Int)) ≤ 0 := by
        split <;> decide
      simp only [splice_eq (Nat.le_succ _) removed, Option.bind_eq_bind, Option.bind_some]
      exact flushed_safe (moveBy_left_of_none w left safe.calm idle)

/-- Killing nothing at the end sets the cursor to the length in bytes. -/
def overruns (i : Input) : Kill → Bool
  | .eol | .forward => i.snap.cursor = i.snap.count ∧ i.snap.len ≠ i.snap.count
  | .all | .bol | .backward | .unknown => false

theorem killRange_safe {i : Input} (safe : Safe i) (mode : i.mode = .insert) {s e : Nat}
    (order : s ≤ e) (inside : e ≤ i.snap.count)
    (fine : s = e → i.snap.offset ≤ bytes (i.value.take s) ∧
      bytes (i.value.take s) ≤ i.snap.count) :
    ∃ t, i.killRange w s e = some t ∧ Safe t := by
  have idle := safe.steady.idle (by rw [← Input.mode, mode]; decide)
  simp only [killRange, splice_eq order inside, Option.bind_eq_bind, Option.bind_some,
    List.append_nil]
  split
  · next same =>
    obtain ⟨offset, cursor⟩ := fine same
    refine ⟨_, rfl, ⟨?_, offset, placed_of_none idle⟩, safe.calm⟩
    subst same
    simp only [put_snap, last, (show i.snap.mode = .insert from mode), InputMode.delta_insert,
      InputSnap.count, List.take_append_drop]
    exact cursor
  · exact flushed_safe (moveBy_left_of_none w (by decide) safe.calm idle)

theorem findWordBoundary_le (s : List Char) : findWordBoundary s ≤ s.length := by
  rw [findWordBoundary]
  have spaces := (List.takeWhile_sublist (fun c => CharKind.new c = .space) (l := s)).length_le
  generalize (s.takeWhile fun c => CharKind.new c = .space).length = n at *
  cases rest : s.drop n with
  | nil => exact spaces
  | cons first rest' =>
    have count := congrArg List.length rest
    rw [List.length_drop, List.length_cons] at count
    have word :=
      (List.takeWhile_sublist (fun c => CharKind.new c = CharKind.new first) (l := rest')).length_le
    dsimp only
    omega

theorem findWordBoundary_eq_zero {s : List Char} (none : findWordBoundary s = 0) : s = [] := by
  rw [findWordBoundary] at none
  cases rest : s.drop (s.takeWhile fun c => CharKind.new c = .space).length with
  | nil =>
    rw [rest] at none
    dsimp only at none
    rwa [none] at rest
  | cons first rest' =>
    rw [rest] at none
    dsimp only at none
    omega

theorem kill_safe {i : Input} (safe : Safe i) (mode : i.mode = .insert) (kind : Kill)
    (fine : i.overruns kind = false) : ∃ t, i.kill w kind = some t ∧ Safe t := by
  have room := safe.steady.le_count
  have clamped : min i.snap.cursor i.snap.count = i.snap.cursor := Nat.min_eq_left room
  -- at the beginning, and at the end of what has one byte for each character
  have start : i.snap.cursor = 0 → i.snap.offset ≤ bytes (i.value.take 0) ∧
      bytes (i.value.take 0) ≤ i.snap.count := by
    intro zero
    rw [List.take_zero]
    exact ⟨Nat.le_trans safe.steady.offset (Nat.le_of_eq zero), Nat.zero_le _⟩
  have stop : i.snap.cursor = i.snap.count → i.snap.len = i.snap.count →
      i.snap.offset ≤ bytes (i.value.take i.snap.cursor) ∧
        bytes (i.value.take i.snap.cursor) ≤ i.snap.count := by
    intro final ascii
    have all : bytes (i.value.take i.snap.cursor) = i.snap.len := by
      rw [final, InputSnap.count, ← Input.value, List.take_length]
      rfl
    rw [all, ascii, ← final]
    exact ⟨safe.steady.offset, Nat.le_refl _⟩
  unfold kill
  rw [clamped]
  cases kind with
  | all =>
    apply killRange_safe w safe mode (Nat.zero_le _) (Nat.le_refl _)
    intro none
    exact start (Nat.le_zero.mp (none ▸ room))
  | bol =>
    apply killRange_safe w safe mode (Nat.zero_le _) room
    intro none
    exact start none.symm
  | eol =>
    apply killRange_safe w safe mode room (Nat.le_refl _)
    intro final
    apply stop final
    simpa [overruns, final] using fine
  | backward =>
    have word := findWordBoundary_le (i.value.take i.snap.cursor).reverse
    rw [List.length_reverse, List.length_take] at word
    apply killRange_safe w safe mode (Nat.sub_le ..) room
    intro none
    have zero : i.snap.cursor = 0 := by
      by_contra some
      have nothing : findWordBoundary (i.value.take i.snap.cursor).reverse = 0 := by omega
      have empty := congrArg List.length (findWordBoundary_eq_zero nothing)
      rw [List.length_reverse, List.length_take, List.length_nil] at empty
      have count : i.value.length = i.snap.count := rfl
      omega
    rw [none, zero]
    exact start zero
  | forward =>
    have word := findWordBoundary_le (i.value.drop i.snap.cursor)
    rw [List.length_drop] at word
    have count : i.value.length = i.snap.count := rfl
    apply killRange_safe w safe mode (Nat.le_add_right ..) (by omega)
    intro none
    have nothing : findWordBoundary (i.value.drop i.snap.cursor) = 0 := by omega
    have empty := congrArg List.length (findWordBoundary_eq_zero nothing)
    rw [List.length_drop, List.length_nil] at empty
    have final : i.snap.cursor = i.snap.count := by omega
    apply stop final
    simpa [overruns, final] using fine
  | unknown => exact ⟨i, rfl, safe⟩

end Input
end Yazi.Widgets
