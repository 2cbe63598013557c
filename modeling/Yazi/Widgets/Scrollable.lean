import Yazi.Base.Machine

/-!
Moving a cursor in a list of which a window is shown.

The numbers are of machine size: a sum, a difference or a product that does not fit is an
overflow, and the operation is `none` then.
-/
namespace Yazi.Widgets.Scroll
open Base.Machine

/-! ### Steps -/

inductive Step where
  | top
  | bot
  | prev
  | next
  | offset (n : Int64)
  | percent (n : Int8)
  | vp (n : Int8)
  deriving DecidableEq

namespace Step

/-- The end of `add` for a step that does not wrap. -/
def shift (pos len : Nat) (off : Int) : Nat := min (saturatingAddSigned pos off) (len - 1)

/-- The end of `add` for a step that wraps. -/
def wrap (pos len : Nat) (off : Int) : Nat :=
  min (saturatingAddUnsigned off pos % asIsize len).toNat (len - 1)

/-- `Step::Vp`: by so many hundredths of the window, which goes up to `last`. -/
def page (n : Int8) (pos len offset scrolloff last : Nat) : Option Nat :=
  (usize (offset + 1)).bind fun first =>
    if last < first then some 0
    else
      let count := last - first
      let scrolloff := min scrolloff (count / 2)
      (isize (n.toInt * asIsize count)).bind fun part =>
        -- The real ends of the list may be reached, those of the window only up to the padding.
        let target := saturatingAddSigned offset (part.tdiv 100)
        (if offset = 0 then some 0 else usize (offset + scrolloff)).bind fun low =>
          (checkedSub (last - 1) (if last = len then 0 else scrolloff)).bind fun high =>
            (clamp target low high).bind fun target =>
              (isize (asIsize target - asIsize pos)).map (shift pos len)

/-- `Step::add`. -/
def add (step : Step) (pos len limit offset scrolloff : Nat) : Option Nat :=
  if len = 0 then some 0
  else
    match step with
    | .top => some 0
    | .bot => some (len - 1)
    | .vp n =>
      if limit = 0 then (isize (n.toInt * asIsize len)).map fun part => shift pos len (part.tdiv 100)
      else (usize (offset + limit)).bind fun reach => page n pos len offset scrolloff (min len reach)
    | .prev => some (wrap pos len (-1))
    | .next => some (wrap pos len 1)
    | .offset n => some (shift pos len n.toInt)
    | .percent n =>
      if n = 0 then some (shift pos len 0)
      else (isize (n.toInt * asIsize limit)).map fun part => shift pos len (part.tdiv 100)

variable {pos len : Nat}

theorem shift_lt (off : Int) (some : len ≠ 0) : shift pos len off < len := by
  rw [shift]
  omega

theorem wrap_lt (off : Int) (some : len ≠ 0) : wrap pos len off < len := by
  rw [wrap]
  omega

theorem shift_eq {off : Int} (low : -2 ^ 63 ≤ off) (high : off < 2 ^ 63) (small : pos < 2 ^ 63) :
    shift pos len off = min (pos + off).toNat (len - 1) := by
  rw [shift, saturatingAddSigned_eq (by omega)]

private theorem wrap_of_emod {off : Int} {n : Nat} (few : pos < len) (small : len < 2 ^ 63)
    (unit : off = 1 ∨ off = -1) (goes : (pos + off) % len = (n : Int)) (inside : n < len) :
    wrap pos len off = n := by
  have room : off + pos ≤ 2 ^ 63 - 1 := by omega
  rw [wrap, saturatingAddUnsigned, Int.min_eq_left room, asIsize_eq small, Int.add_comm off, goes,
    Int.toNat_natCast]
  omega

theorem wrap_prev (few : pos < len) (small : len < 2 ^ 63) :
    wrap pos len (-1) = if pos = 0 then len - 1 else pos - 1 := by
  split
  · next first =>
    refine wrap_of_emod few small (.inr rfl) ?_ (by omega)
    have round : (pos : Int) + -1 = (len - 1 : Nat) + -1 * len := by omega
    rw [round, Int.add_mul_emod_self_right, Int.emod_eq_of_lt (by omega) (by omega)]
  · next later =>
    refine wrap_of_emod few small (.inr rfl) ?_ (by omega)
    have stays : (pos : Int) + -1 = (pos - 1 : Nat) := by omega
    rw [stays, Int.emod_eq_of_lt (by omega) (by omega)]

theorem wrap_next (few : pos < len) (small : len < 2 ^ 63) :
    wrap pos len 1 = if pos + 1 = len then 0 else pos + 1 := by
  split
  · next last =>
    refine wrap_of_emod few small (.inl rfl) ?_ (by omega)
    have round : (pos : Int) + 1 = len := by omega
    rw [round, Int.emod_self]
    rfl
  · next before =>
    refine wrap_of_emod few small (.inl rfl) ?_ (by omega)
    exact Int.emod_eq_of_lt (by omega) (by omega)

/-- Moving by a part of the window does not overflow. -/
theorem page_total {n : Int8} {offset scrolloff last : Nat} (some : len ≠ 0) (short : len < 2 ^ 63)
    (before : offset < 2 ^ 63) (inside : pos < 2 ^ 63) (ends : last ≤ len)
    (narrow : last ≤ offset + 2 ^ 16) :
    ∃ m, page n pos len offset scrolloff last = Option.some m ∧ m < len := by
  rw [page, usize_eq (show offset + 1 < 2 ^ 64 by omega), Option.bind_some]
  split
  · exact ⟨0, rfl, Nat.pos_of_ne_zero some⟩
  · next full =>
    have count : last - (offset + 1) < 2 ^ 16 := by omega
    dsimp only
    rw [isize_mul count, Option.bind_some]
    generalize saturatingAddSigned offset _ = target
    have half : min scrolloff ((last - (offset + 1)) / 2) ≤ (last - (offset + 1)) / 2 := Nat.min_le_right ..
    generalize min scrolloff ((last - (offset + 1)) / 2) = scrolloff at half ⊢
    obtain ⟨low, lowEq, lowLe⟩ : ∃ low, (if offset = 0 then Option.some 0 else usize (offset + scrolloff)) =
        Option.some low ∧ low ≤ offset + scrolloff := by
      split
      · exact ⟨0, rfl, Nat.zero_le _⟩
      · exact ⟨_, usize_eq (by omega), Nat.le_refl _⟩
    obtain ⟨high, highEq, highLe⟩ : ∃ high,
        checkedSub (last - 1) (if last = len then 0 else scrolloff) = Option.some high ∧
          last - 1 - scrolloff ≤ high ∧ high < len := by
      split
      · exact ⟨_, checkedSub_eq (Nat.zero_le _), by omega, by omega⟩
      · exact ⟨_, checkedSub_eq (by omega), by omega, by omega⟩
    rw [lowEq, Option.bind_some, highEq, Option.bind_some, clamp, if_pos (by omega), Option.bind_some]
    have fits : max low (min target high) < len := by omega
    generalize max low (min target high) = target at fits ⊢
    rw [asIsize_eq (by omega), asIsize_eq inside, isize_eq (by omega) (by omega)]
    exact ⟨_, rfl, shift_lt _ some⟩

/-- No step overflows, and none leaves the list. -/
theorem add_total {limit offset scrolloff : Nat} (step : Step) (window : 0 < limit)
    (narrow : limit < 2 ^ 16) (short : len < 2 ^ 63) (before : offset < 2 ^ 63)
    (inside : pos < 2 ^ 63) :
    ∃ n, step.add pos len limit offset scrolloff = some n ∧ (len ≠ 0 → n < len) := by
  by_cases empty : len = 0
  · exact ⟨0, if_pos empty, fun some => absurd empty some⟩
  · simp only [add, if_neg empty]
    cases step with
    | top => exact ⟨0, rfl, Nat.pos_of_ne_zero⟩
    | bot => exact ⟨len - 1, rfl, fun _ => by omega⟩
    | prev => exact ⟨_, rfl, wrap_lt _⟩
    | next => exact ⟨_, rfl, wrap_lt _⟩
    | offset n => exact ⟨_, rfl, shift_lt _⟩
    | percent n =>
      dsimp only
      split
      · exact ⟨_, rfl, shift_lt _⟩
      · rw [isize_mul narrow]
        exact ⟨_, rfl, shift_lt _⟩
    | vp n =>
      dsimp only
      rw [if_neg (Nat.ne_of_gt window), usize_eq (show offset + limit < 2 ^ 64 by omega),
        Option.bind_some]
      obtain ⟨m, done, few⟩ := @page_total pos len n offset scrolloff _ empty short before inside
        (Nat.min_le_left len (offset + limit)) (by omega)
      exact ⟨m, done, fun _ => few⟩

/-- What a step gives is in the list. -/
theorem add_lt {step : Step} {limit offset scrolloff n : Nat}
    (added : step.add pos len limit offset scrolloff = some n) (some : len ≠ 0) : n < len := by
  have mapped {off : Option Int} {f : Int → Int} (done : off.map (fun o => shift pos len (f o)) = Option.some n) :
      n < len := by
    obtain ⟨o, -, rfl⟩ := Option.map_eq_some_iff.mp done
    exact shift_lt _ some
  simp only [add, if_neg some] at added
  cases step with
  | top =>
    cases added
    exact Nat.pos_of_ne_zero some
  | bot =>
    cases added
    omega
  | prev =>
    cases added
    exact wrap_lt _ some
  | next =>
    cases added
    exact wrap_lt _ some
  | offset n =>
    cases added
    exact shift_lt _ some
  | percent n =>
    dsimp only at added
    split at added
    · cases added
      exact shift_lt _ some
    · exact mapped added
  | vp n =>
    dsimp only at added
    split at added
    · exact mapped added
    · obtain ⟨reach, -, paged⟩ := Option.bind_eq_some_iff.mp added
      obtain ⟨first, -, paged⟩ := Option.bind_eq_some_iff.mp paged
      split at paged
      · cases paged
        exact Nat.pos_of_ne_zero some
      · obtain ⟨part, -, paged⟩ := Option.bind_eq_some_iff.mp paged
        obtain ⟨low, -, paged⟩ := Option.bind_eq_some_iff.mp paged
        obtain ⟨high, -, paged⟩ := Option.bind_eq_some_iff.mp paged
        obtain ⟨target, -, paged⟩ := Option.bind_eq_some_iff.mp paged
        exact @mapped _ id paged

end Step

/-! ### Scrolling -/

/-- What `Scrollable` asks for. -/
structure Scrollable where
  total : Nat
  limit : Nat
  scrolloff : Nat
  cursor : Nat
  offset : Nat

namespace Scrollable

def visibleEnd (s : Scrollable) : Option Nat := (usize (s.offset + s.limit)).map (min s.total)

def needsScrollDown (s : Scrollable) (cursor : Nat) : Option Bool :=
  s.visibleEnd.map fun reach => decide (cursor ≥ reach - s.scrolloff)

def needsScrollUp (s : Scrollable) (cursor : Nat) : Option Bool :=
  (usize (s.offset + s.scrolloff)).map fun pad => decide (cursor < pad)

/-- The cursor and the offset after `next`. -/
def next (s : Scrollable) (cursor : Nat) : Option (Nat × Nat) :=
  (s.needsScrollDown cursor).bind fun down =>
    if down then
      (usize (s.offset + cursor)).bind fun moved =>
        (checkedSub moved s.cursor).map fun moved => (cursor, min (s.total - s.limit) moved)
    else some (cursor, min s.offset (s.total - 1))

/-- The cursor and the offset after `prev`. -/
def prev (s : Scrollable) (cursor : Nat) : Option (Nat × Nat) :=
  (s.needsScrollUp cursor).bind fun up =>
    if up then (checkedSub s.cursor cursor).map fun moved => (cursor, s.offset - moved)
    else some (cursor, min (s.total - 1) s.offset)

/-- The cursor and the offset after `scroll`. -/
def scroll (s : Scrollable) (step : Step) : Option (Nat × Nat) :=
  (step.add s.cursor s.total s.limit s.offset s.scrolloff).bind fun cursor =>
    if cursor > s.cursor then s.next cursor else s.prev cursor

/-- Scrolling moves the cursor as the step says, and does not overflow. -/
theorem scroll_total {s : Scrollable} {step : Step} {cursor : Nat} (narrow : s.limit < 2 ^ 16)
    (half : s.scrolloff < 2 ^ 16) (short : s.total < 2 ^ 63) (before : s.offset < 2 ^ 63)
    (inside : cursor < 2 ^ 63)
    (added : step.add s.cursor s.total s.limit s.offset s.scrolloff = some cursor) :
    ∃ offset, s.scroll step = some (cursor, offset) ∧ offset < 2 ^ 63 := by
  rw [scroll, added, Option.bind_some]
  split
  · next further =>
    rw [next, needsScrollDown, visibleEnd, usize_eq (show s.offset + s.limit < 2 ^ 64 by omega),
      Option.map_some, Option.map_some, Option.bind_some]
    split
    · rw [usize_eq (show s.offset + cursor < 2 ^ 64 by omega), Option.bind_some,
        checkedSub_eq (by omega)]
      exact ⟨_, rfl, by omega⟩
    · exact ⟨_, rfl, by omega⟩
  · next back =>
    rw [prev, needsScrollUp, usize_eq (show s.offset + s.scrolloff < 2 ^ 64 by omega),
      Option.map_some, Option.bind_some]
    split
    · rw [checkedSub_eq (by omega)]
      exact ⟨_, rfl, by omega⟩
    · exact ⟨_, rfl, by omega⟩

end Scrollable

end Yazi.Widgets.Scroll
