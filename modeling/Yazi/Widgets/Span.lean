import Yazi.Widgets.Safety

/-!
What a kill removes, and where it leaves the cursor.

The span is the one its name says, whatever lengths the characters have. The cursor is set to the
number of bytes before the span, which is its place only when there are as many characters, or
when the move after it stops at the same place anyway.
-/
namespace Yazi.Widgets

/-! ### Spans -/

/-- Spaces, and then all characters of one other kind, as many as there are. -/
def WordSpan (s : List Char) (n : Nat) : Prop :=
  ∃ spaces run rest, s = spaces ++ (run ++ rest) ∧ n = spaces.length + run.length ∧
    (∀ c ∈ spaces, CharKind.new c = .space) ∧
    (run = [] ∧ rest = [] ∨ ∃ kind, kind ≠ .space ∧ run ≠ [] ∧
      (∀ c ∈ run, CharKind.new c = kind) ∧ ∀ c ∈ rest.head?, CharKind.new c ≠ kind)

/-- The characters that a kill is named for. -/
def Kill.Spans (s : List Char) (cursor : Nat) : Kill → Nat → Nat → Prop
  | all, first, last => first = 0 ∧ last = s.length
  | bol, first, last => first = 0 ∧ last = cursor
  | eol, first, last => first = cursor ∧ last = s.length
  | backward, first, last =>
    ∃ n, WordSpan (s.take cursor).reverse n ∧ first + n = cursor ∧ last = cursor
  | forward, first, last => ∃ n, WordSpan (s.drop cursor) n ∧ first = cursor ∧ last = cursor + n
  | unknown, first, last => first = cursor ∧ last = cursor

theorem takeWhile_of_head {p : Char → Bool} {l : List Char} (rest : List Char) (all : ∀ c ∈ l, p c = true)
    (stop : ∀ c ∈ rest.head?, p c = false) : (l ++ rest).takeWhile p = l := by
  rw [List.takeWhile_append_of_pos all]
  cases rest with
  | nil => rw [List.takeWhile_nil, List.append_nil]
  | cons c rest =>
    have here := stop c rfl
    rw [List.takeWhile_cons_of_neg (by rw [here]; decide), List.append_nil]

theorem head_dropWhile {p : Char → Bool} (l : List Char) :
    ∀ c ∈ (l.dropWhile p).head?, p c = false := by
  intro c first
  have head := List.head?_dropWhile_not p l
  rw [show (l.dropWhile p).head? = some c from first] at head
  simpa using head

theorem drop_takeWhile (p : Char → Bool) (l : List Char) :
    l.drop (l.takeWhile p).length = l.dropWhile p := by
  have split : l.takeWhile p ++ l.dropWhile p = l := List.takeWhile_append_dropWhile
  calc
    l.drop (l.takeWhile p).length
      = (l.takeWhile p ++ l.dropWhile p).drop (l.takeWhile p).length := by rw [split]
    _ = l.dropWhile p := List.drop_left

theorem of_takeWhile {p : Char → Bool} {l : List Char} : ∀ c ∈ l.takeWhile p, p c = true := by
  intro c member
  exact List.all_eq_true.mp List.all_takeWhile c member

namespace Input
open Base InputSnap

/-- The boundary is where the span ends. -/
theorem wordSpan_iff (s : List Char) (n : Nat) : WordSpan s n ↔ n = findWordBoundary s := by
  constructor
  · rintro ⟨spaces, run, rest, rfl, rfl, blank, kinds⟩
    have blank' : ∀ c ∈ spaces, decide (CharKind.new c = .space) = true := by simpa using blank
    rcases kinds with ⟨rfl, rfl⟩ | ⟨kind, other, some, same, stop⟩
    · have first := takeWhile_of_head [] blank' nofun
      rw [findWordBoundary, List.append_nil, first, List.drop_left]
      rfl
    · obtain ⟨c, run, rfl⟩ := List.exists_cons_of_ne_nil some
      have here : CharKind.new c = kind := same c (List.mem_cons_self ..)
      have first := takeWhile_of_head (c :: run ++ rest) blank' (by
        intro d head
        cases head
        rw [here]
        exact decide_eq_false other)
      have second : (run ++ rest).takeWhile (fun d => CharKind.new d = CharKind.new c) = run := by
        apply takeWhile_of_head
        · intro d member
          rw [same d (List.mem_cons_of_mem _ member), here]
          exact decide_eq_true rfl
        · intro d head
          rw [here]
          exact decide_eq_false (stop d head)
      rw [findWordBoundary, first, List.drop_left, List.cons_append]
      dsimp only
      rw [second, List.length_cons]
      omega
  · rintro rfl
    let blank : Char → Bool := fun c => CharKind.new c = .space
    have split : s.takeWhile blank ++ s.dropWhile blank = s := List.takeWhile_append_dropWhile
    have spaces : ∀ c ∈ s.takeWhile blank, CharKind.new c = .space :=
      fun c member => of_decide_eq_true (of_takeWhile (p := blank) c member)
    rw [findWordBoundary, drop_takeWhile]
    cases after : s.dropWhile blank with
    | nil =>
      rw [after] at split
      exact ⟨s.takeWhile blank, [], [], split.symm, rfl, spaces, .inl ⟨rfl, rfl⟩⟩
    | cons c tail =>
      let same : Char → Bool := fun d => CharKind.new d = CharKind.new c
      have head := head_dropWhile (p := blank) s c (by rw [after]; rfl)
      refine ⟨s.takeWhile blank, c :: tail.takeWhile same, tail.dropWhile same, ?_, rfl, spaces,
        .inr ⟨CharKind.new c, of_decide_eq_false head, List.cons_ne_nil _ _, ?_, ?_⟩⟩
      · rw [List.cons_append, List.takeWhile_append_dropWhile, ← after, split]
      · intro d member
        rcases List.mem_cons.mp member with rfl | member
        · rfl
        · exact of_decide_eq_true (of_takeWhile (p := same) d member)
      · intro d first
        exact of_decide_eq_false (head_dropWhile (p := same) tail d first)

/-! ### Kills -/

/-- A kill has one span. -/
theorem spans_iff {s : List Char} {cursor first last : Nat} (inside : cursor ≤ s.length)
    (kind : Kill) : kind.Spans s cursor first last ↔ (first, last) =
      match kind with
      | .all => (0, s.length)
      | .bol => (0, cursor)
      | .eol => (cursor, s.length)
      | .backward => (cursor - findWordBoundary (s.take cursor).reverse, cursor)
      | .forward => (cursor, cursor + findWordBoundary (s.drop cursor))
      | .unknown => (cursor, cursor) := by
  cases kind with
  | all | bol | eol | unknown => simp [Kill.Spans]
  | backward =>
    have bound := findWordBoundary_le (s.take cursor).reverse
    rw [List.length_reverse, List.length_take] at bound
    simp only [Kill.Spans, wordSpan_iff, Prod.mk.injEq]
    constructor
    · rintro ⟨n, rfl, ends, rfl⟩
      omega
    · rintro ⟨rfl, rfl⟩
      exact ⟨_, rfl, by omega, rfl⟩
  | forward =>
    simp only [Kill.Spans, wordSpan_iff, Prod.mk.injEq]
    constructor
    · rintro ⟨n, rfl, rfl, rfl⟩
      exact ⟨rfl, rfl⟩
    · rintro ⟨rfl, rfl⟩
      exact ⟨_, rfl, rfl, rfl⟩

theorem spans_order {s : List Char} {cursor first last : Nat} {kind : Kill}
    (inside : cursor ≤ s.length) (spans : kind.Spans s cursor first last) :
    first ≤ last ∧ last ≤ s.length := by
  have eq := (spans_iff inside kind).mp spans
  have forward := findWordBoundary_le (s.drop cursor)
  rw [List.length_drop] at forward
  cases kind with
  | all | bol | eol | backward | forward | unknown =>
    obtain ⟨rfl, rfl⟩ := Prod.mk.inj eq
    omega

/-- Every kill is a removal of its span. -/
theorem kill_eq (w : Widths) {i : Input} {kind : Kill} {first last : Nat}
    (inside : i.snap.cursor ≤ i.snap.count) (named : kind ≠ .unknown)
    (spans : kind.Spans i.value i.snap.cursor first last) :
    i.kill w kind = i.killRange w first last := by
  have eq := (spans_iff inside kind).mp spans
  have clamped : min i.snap.cursor i.snap.count = i.snap.cursor := Nat.min_eq_left inside
  unfold Input.kill
  rw [clamped]
  cases kind with
  | all | bol | eol | backward | forward =>
    obtain ⟨rfl, rfl⟩ := Prod.mk.inj eq
    rfl
  | unknown => exact absurd rfl named

theorem length_le_bytes (s : List Char) : s.length ≤ bytes s := by
  induction s with
  | nil => exact Nat.le_refl _
  | cons c s ih =>
    have one := Char.utf8Size_pos c
    have sum : bytes (c :: s) = c.utf8Size + bytes s := rfl
    rw [sum, List.length_cons]
    omega

/-- Where a removal leaves the cursor. -/
theorem killRange_spec (w : Widths) {i : Input} {first last : Nat} (mode : i.mode = .insert)
    (idle : i.snap.op = .none) (order : first ≤ last) (inside : last ≤ i.snap.count) :
    ∃ t, i.killRange w first last = some t ∧
      t.value = i.value.take first ++ i.value.drop last ∧
      t.snap.cursor =
        if first = last then bytes (i.value.take first)
        else min (i.snap.count - (last - first)) (bytes (i.value.take first)) := by
  simp only [killRange, splice_eq order inside, Option.bind_eq_bind, Option.bind_some,
    List.append_nil]
  let current : InputSnap :=
    { i.snap with
      value := i.value.take first ++ i.value.drop last
      cursor := bytes (i.value.take first) }
  split
  · exact ⟨i.put current, rfl, rfl, rfl⟩
  · let value := i.value.take first ++ i.value.drop last
    let before := i.put current
    have target : MoveOptStep.add value (bytes (i.value.take first)) (.offset 0) =
        bytes (i.value.take first) := by
      rw [MoveOptStep.add, if_pos (Int.le_refl 0)]
      rfl
    have result : operated before.snap
        (MoveOptStep.add value (bytes (i.value.take first)) (.offset 0)) false =
        clamp before.snap := by
      rw [target, operated_idle (by rw [put_snap, idle]; rfl)]
      rfl
    obtain ⟨m, offset, moved, -, snaps, -⟩ := move_spec w (i := before) (.offset 0) result
      (fun pending => by
        rw [put_snap, idle] at pending
        cases pending)
      (.inl (Nat.min_le_right ..))
    have now : m.snap = { clamp before.snap with offset } := by
      rw [snap, snaps]
    have room : m.snap.cursor ≤ m.snap.count := by
      rw [now]
      exact Nat.le_trans (clamp_le _) (last_le_count _)
    have count : value.length = i.snap.count - (last - first) := by
      simp only [value, List.length_append, List.length_take, List.length_drop]
      have whole : i.value.length = i.snap.count := rfl
      omega
    refine ⟨{ m with history := ⟨none, []⟩ }, ?_, ?_, ?_⟩
    · change (before.moveBy w 0).bind _ = _
      rw [show before.moveBy w 0 = some m from moved]
      exact flushAll_eq room
    · change m.snap.value = value
      rw [now]
      rfl
    · change m.snap.cursor = _
      have delta : current.mode.delta = 0 := by
        rw [show current.mode = .insert from mode]
        rfl
      rw [now, ← count]
      change min (value.length - current.mode.delta) _ = _
      rw [delta]
      rfl

/-- A kill removes its span, and nothing else; the cursor comes to where the span began exactly
when each character before it is of one byte, or when something is removed and nothing is left
behind it. -/
theorem kill_spans (w : Widths) {i : Input} {kind : Kill} {first last : Nat}
    (mode : i.mode = .insert) (idle : i.snap.op = .none) (inside : i.snap.cursor ≤ i.snap.count)
    (named : kind ≠ .unknown) (spans : kind.Spans i.value i.snap.cursor first last) :
    ∃ t, i.act w (.kill kind) = some t ∧
      t.value = i.value.take first ++ i.value.drop last ∧
      (t.snap.cursor = first ↔
        bytes (i.value.take first) = first ∨ first < last ∧ last = i.value.length) := by
  obtain ⟨order, bound⟩ := spans_order inside spans
  obtain ⟨t, eq, value, cursor⟩ := killRange_spec w mode idle order bound
  refine ⟨t, ?_, value, ?_⟩
  · rw [act, if_pos mode, kill_eq w inside named spans]
    exact eq
  · have count : i.snap.count = i.value.length := rfl
    rw [count] at inside
    have least : first ≤ bytes (i.value.take first) := by
      have least := length_le_bytes (i.value.take first)
      rw [List.length_take] at least
      have whole : i.snap.value.length = i.value.length := rfl
      omega
    change last ≤ i.value.length at bound
    rw [cursor, count]
    split
    · omega
    · omega

def words : Input := (Input.new cells ['a', ' ', 'é', ' '] none false false).get (by decide)

theorem kill_spans_words : ∃ t, words.act cells (.kill .backward) = some t ∧
      t.value = words.value.take 2 ++ words.value.drop 4 ∧
      (t.snap.cursor = 2 ↔
        bytes (words.value.take 2) = 2 ∨ 2 < 4 ∧ 4 = words.value.length) := by
  have word : WordSpan [' ', 'é', ' ', 'a'] 2 :=
    ⟨[' '], ['é'], [' ', 'a'], rfl, rfl, List.forall_mem_singleton.mpr (by decide), .inr ⟨.other, by decide,
      by decide, List.forall_mem_singleton.mpr (by decide), fun c first => by cases first; decide⟩⟩
  have spans : Kill.Spans words.value words.snap.cursor .backward 2 4 := ⟨2, word, rfl, rfl⟩
  exact kill_spans cells (by decide) (by decide) (by decide) (by decide) spans

/-- Behind a character of two bytes, the cursor goes one too far. -/
theorem killed_behind :
    (((Input.new cells ['é', 'a', ' ', 'b'] (some 1) false false).get (by decide)).act cells
      (.kill .forward)).map (fun t => (t.value, t.snap.cursor)) = some (['é', ' ', 'b'], 2) := by
  decide

end Input
end Yazi.Widgets
