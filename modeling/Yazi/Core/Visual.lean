import Yazi.Base.Run
import Yazi.Widgets.Scrollable

/-!
The range that visual mode selects.

The cursor may go round the list. How often it has done so, one way or the other, is counted, and
the range is read off from the cursor and the count.
-/
namespace Yazi.Core

open Yazi.Base Yazi.Base.Machine Yazi.Widgets.Scroll

structure Visual where
  start : Nat
  wraps : Int
  deriving DecidableEq, Repr

namespace Visual

def new (start : Nat) : Visual := ⟨start, 0⟩

def arrow (v : Visual) (step : Step) (old new : Nat) : Visual :=
  { v with
    wraps := v.wraps +
      match step with
      | .prev => if new > old then -1 else 0
      | .next => if new < old then 1 else 0
      | _ => 0 }

/-- The elements of `first..last`. -/
def range (first last : Nat) : List Nat := List.range' first (last - first)

/-- `Visual::ranges`, one after the other. -/
def indices (v : Visual) (last len : Nat) : List Nat :=
  if len = 0 then []
  else
    let start := min v.start (len - 1)
    let last := min last (len - 1)
    if v.wraps = 0 then range (min start last) (max start last + 1)
    else if v.wraps = 1 ∧ start > last + 1 then range 0 (last + 1) ++ range start len
    else if v.wraps = -1 ∧ last > start + 1 then range 0 (start + 1) ++ range last len
    else range 0 len

def contains (v : Visual) (index last len : Nat) : Bool := (v.indices last len).contains index

/-! ### Runs -/

/-- A step, with the window and the padding that the list has then. -/
structure Move where
  step : Step
  limit : Nat
  offset : Nat
  scrolloff : Nat

/-- Visual mode, the cursor, and the position in the list unrolled in both directions. -/
structure Walk where
  visual : Visual
  cursor : Nat
  position : Int

/-- How far a step goes in the unrolled list. -/
def travel (step : Step) (old new : Nat) : Int :=
  match step with
  | .prev => -1
  | .next => 1
  | _ => new - old

/-- Visual mode begins at the cursor. -/
def Walk.begin (start : Nat) : Walk := ⟨.new start, start, start⟩

def Walk.step (len : Nat) (s : Walk) (m : Move) : Option Walk :=
  (m.step.add s.cursor len m.limit m.offset m.scrolloff).map fun cursor =>
    { visual := s.visual.arrow m.step s.cursor cursor
      cursor
      position := s.position + travel m.step s.cursor cursor }

/-- The position is that of the cursor in the round of the list that the wraps count. A list of
one element has only one position. -/
structure Walk.Inv (start len : Nat) (s : Walk) : Prop where
  start : s.visual.start = start
  inside : s.cursor < len
  unrolled : len = 1 ∨ s.position = s.cursor + s.visual.wraps * len

theorem Walk.step_inv {start len : Nat} (short : len < 2 ^ 63) (s : Walk) (m : Move) (t : Walk)
    (inv : s.Inv start len) (move : s.step len m = some t) : t.Inv start len := by
  obtain ⟨cursor, added, rfl⟩ := Option.map_eq_some_iff.mp move
  have some : len ≠ 0 := Nat.ne_of_gt (Nat.zero_lt_of_lt inv.inside)
  have inside : cursor < len := Step.add_lt added some
  refine ⟨inv.start, inside, ?_⟩
  rcases inv.unrolled with single | unrolled
  · exact .inl single
  · by_cases single : len = 1
    · exact .inl single
    · right
      dsimp only
      rw [unrolled]
      cases kind : m.step with
      | prev =>
        rw [kind, Step.add, if_neg some, Option.some_inj] at added
        rw [Step.wrap_prev inv.inside short] at added
        simp only [travel, arrow, Int.add_mul]
        split at added <;> split <;> omega
      | next =>
        rw [kind, Step.add, if_neg some, Option.some_inj] at added
        rw [Step.wrap_next inv.inside short] at added
        simp only [travel, arrow, Int.add_mul]
        split at added <;> split <;> omega
      | top | bot | offset n | percent n | vp n =>
        simp only [travel, arrow, Int.add_zero]
        omega

/-! ### The range -/

theorem mem_range {first last i : Nat} : i ∈ range first last ↔ first ≤ i ∧ i < last := by
  rw [range, List.mem_range'_1]
  omega

theorem nodup_range (first last : Nat) : (range first last).Nodup := List.nodup_range'

/-- A number is the element `i` of some round of the list. -/
private theorem emod_iff {p : Int} {len i : Nat} (some : 0 < len) :
    p % len = i ↔ i < len ∧ ∃ k : Int, p = i + k * len := by
  constructor
  · intro rest
    have below := Int.emod_lt_of_pos p (show (0 : Int) < len by omega)
    have whole := Int.emod_add_mul_ediv p len
    refine ⟨by omega, p / len, ?_⟩
    rw [Int.mul_comm, ← rest]
    exact whole.symm
  · rintro ⟨below, k, rfl⟩
    rw [Int.add_mul_emod_self_right, Int.emod_eq_of_lt (by omega) (by omega)]

/-- The positions between the start and the end are those of the range. -/
theorem mem_indices {v : Visual} {last len : Nat} (first : v.start < len) (inside : last < len)
    (i : Nat) : i ∈ v.indices last len ↔ ∃ p : Int, min (v.start : Int) (last + v.wraps * len) ≤ p ∧
      p ≤ max (v.start : Int) (last + v.wraps * len) ∧ p % len = i := by
  have some : len ≠ 0 := by omega
  simp only [emod_iff (Nat.pos_of_ne_zero some)]
  rw [indices, if_neg some, Nat.min_eq_left (by omega), Nat.min_eq_left (by omega)]
  -- So many rounds are at least so many lengths.
  have rounds {m k : Int} (order : m ≤ k) : m * len ≤ k * len :=
    Int.mul_le_mul_of_nonneg_right order (Int.natCast_nonneg len)
  have at' (k : Int) (low : min (v.start : Int) (last + v.wraps * len) ≤ i + k * len)
      (high : i + k * len ≤ max (v.start : Int) (last + v.wraps * len)) (small : i < len) :
      ∃ p : Int, min (v.start : Int) (last + v.wraps * len) ≤ p ∧
        p ≤ max (v.start : Int) (last + v.wraps * len) ∧ i < len ∧ ∃ k : Int, p = i + k * len :=
    ⟨_, low, high, small, k, rfl⟩
  dsimp only
  split
  · next same =>
    rw [same] at at' ⊢
    rw [mem_range]
    constructor
    · intro here
      exact at' 0 (by omega) (by omega) (by omega)
    · rintro ⟨p, low, high, small, k, rfl⟩
      have below : k ≤ 0 := by
        by_contra more
        have far := @rounds 1 k (by omega)
        omega
      have above : 0 ≤ k := by
        by_contra less
        have far := @rounds k (-1) (by omega)
        omega
      obtain rfl : k = 0 := by omega
      omega
  · split
    · next once =>
      rw [once.1] at at' ⊢
      rw [List.mem_append, mem_range, mem_range]
      constructor
      · rintro (here | here)
        · exact at' 1 (by omega) (by omega) (by omega)
        · exact at' 0 (by omega) (by omega) (by omega)
      · rintro ⟨p, low, high, small, k, rfl⟩
        have below : k ≤ 1 := by
          by_contra more
          have far := @rounds 2 k (by omega)
          omega
        have above : 0 ≤ k := by
          by_contra less
          have far := @rounds k (-1) (by omega)
          omega
        rcases (show k = 0 ∨ k = 1 by omega) with rfl | rfl <;> omega
    · split
      · next once =>
        rw [once.1] at at' ⊢
        rw [List.mem_append, mem_range, mem_range]
        constructor
        · rintro (here | here)
          · exact at' 0 (by omega) (by omega) (by omega)
          · exact at' (-1) (by omega) (by omega) (by omega)
        · rintro ⟨p, low, high, small, k, rfl⟩
          have below : k ≤ 0 := by
            by_contra more
            have far := @rounds 1 k (by omega)
            omega
          have above : -1 ≤ k := by
            by_contra less
            have far := @rounds k (-2) (by omega)
            omega
          rcases (show k = 0 ∨ k = -1 by omega) with rfl | rfl <;> omega
      · next other once once' =>
        rw [mem_range]
        refine ⟨fun here => ?_, fun ⟨p, low, high, small, _⟩ => ⟨Nat.zero_le _, small⟩⟩
        -- More than one round, or one round that meets its start again, is the whole list.
        have cases' : v.wraps = 1 ∨ v.wraps = -1 ∨ 2 ≤ v.wraps ∨ v.wraps ≤ -2 := by omega
        rcases cases' with forth | back | many | many
        · rw [forth] at at' ⊢
          by_cases early : v.start ≤ i
          · exact at' 0 (by omega) (by omega) here.2
          · exact at' 1 (by omega) (by omega) here.2
        · rw [back] at at' ⊢
          by_cases early : i ≤ v.start
          · exact at' 0 (by omega) (by omega) here.2
          · exact at' (-1) (by omega) (by omega) here.2
        · have far := rounds many
          exact at' 1 (by omega) (by omega) here.2
        · have far := rounds many
          exact at' (-1) (by omega) (by omega) here.2

theorem nodup_indices (v : Visual) (last len : Nat) : (v.indices last len).Nodup := by
  rw [indices]
  split
  · exact List.nodup_nil
  · dsimp only
    split
    · exact nodup_range ..
    · split
      · next once =>
        refine (List.nodup_append.mpr ⟨nodup_range .., nodup_range .., fun i low j high => ?_⟩)
        rw [mem_range] at low high
        omega
      · split
        · next once =>
          refine (List.nodup_append.mpr ⟨nodup_range .., nodup_range .., fun i low j high => ?_⟩)
          rw [mem_range] at low high
          omega
        · exact nodup_range ..

/-- In a list that does not change, whatever steps are taken from wherever, the range is what lies
between the start and the position in the unrolled list, each element once. -/
theorem visual_range {start len : Nat} (inside : len ≠ 0 → start < len) (short : len < 2 ^ 63)
    {moves : List Move} {s : Walk} (run : Run (Walk.step len) (.begin start) moves s) :
    (s.visual.indices s.cursor len).Nodup ∧ (∀ i ∈ s.visual.indices s.cursor len, i < len) ∧
      ∀ i : Nat, i ∈ s.visual.indices s.cursor len ↔ len ≠ 0 ∧
        ∃ p : Int, min (start : Int) s.position ≤ p ∧ p ≤ max (start : Int) s.position ∧ p % len = i := by
  by_cases empty : len = 0
  · have none : s.visual.indices s.cursor len = [] := if_pos empty
    rw [none]
    exact ⟨List.nodup_nil, nofun, fun i => iff_of_false List.not_mem_nil fun both => both.1 empty⟩
  have inside := inside empty
  have initial : (Walk.begin start).Inv start len := ⟨rfl, inside, .inr (by simp [Walk.begin, new])⟩
  have inv := run.invariant (Walk.step_inv short) initial
  have first : s.visual.start < len := inv.start.symm ▸ inside
  have exact' := mem_indices first inv.inside
  refine ⟨nodup_indices .., fun i here => ?_, fun i => ?_⟩
  · obtain ⟨p, -, -, rest⟩ := (exact' i).mp here
    have below := Int.emod_lt_of_pos p (show (0 : Int) < len by omega)
    omega
  · rw [and_iff_right empty]
    rcases inv.unrolled with single | unrolled
    · -- Any position of a list of one element is that element.
      subst single
      rw [exact' i, inv.start]
      constructor
      · rintro ⟨p, -, -, rest⟩
        exact ⟨start, Int.min_le_left .., Int.le_max_left .., by omega⟩
      · rintro ⟨p, -, -, rest⟩
        exact ⟨start, Int.min_le_left .., Int.le_max_left .., by omega⟩
    · rw [exact' i, inv.start, unrolled]

/-- In a list of three, one step back from the first element and one more. -/
def back : Move := ⟨.prev, 5, 0, 0⟩

theorem visual_range_back : ∃ s, Run (Walk.step 3) (.begin 0) [back, back] s ∧
    (s.visual.indices s.cursor 3).Nodup ∧ (∀ i ∈ s.visual.indices s.cursor 3, i < 3) ∧
      ∀ i : Nat, i ∈ s.visual.indices s.cursor 3 ↔ 3 ≠ 0 ∧
        ∃ p : Int, min ((0 : Nat) : Int) s.position ≤ p ∧ p ≤ max ((0 : Nat) : Int) s.position ∧
          p % ((3 : Nat) : Int) = i := by
  have run : Run (Walk.step 3) (.begin 0) [back, back] ⟨⟨0, -1⟩, 1, -2⟩ :=
    .cons rfl (.cons rfl (.nil _))
  exact ⟨_, run, visual_range (fun _ => by decide) (by decide) run⟩

end Visual

end Yazi.Core
