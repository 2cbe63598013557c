import Mathlib.Data.List.Basic
import Mathlib.Data.Nat.Bitwise

/-!
# The sixel language

Sixel data is interpreted byte by byte. An introducer collects numbers, which take effect with
the next byte that is no number: `#` selects a colour register and may define it, `!` repeats
the sixel after it, `"` tells the size of the raster. A sixel paints those of the six rows of
the band whose bits are set, `$` returns to the first column and `-` goes to the next band.
Rows whose bits are not set are left as they are.
-/
namespace Yazi.Base.Sixel

inductive Introducer where
  | raster
  | repetition
  | colour
deriving DecidableEq, Repr

/-- The numbers that were collected for an introducer, the last of them apart. -/
inductive Pending where
  | ground
  | params (introducer : Introducer) (done : List Nat) (last : Nat)
deriving DecidableEq, Repr

/-- A point that was painted: column, row and register. -/
abbrev Dot := Nat × Nat × Nat

structure Screen where
  column : Nat := 0
  band : Nat := 0
  register : Nat := 0
  /-- What the registers are defined as. -/
  palette : List (Nat × List Nat) := []
  painted : List Dot := []
  pending : Pending := .ground
deriving DecidableEq, Repr

/-- The dots of one column. -/
def dots (column band mask register : Nat) : List Dot :=
  ((List.range 6).filter mask.testBit).map fun bit => (column, 6 * band + bit, register)

namespace Screen

/-- Paint a sixel in so many columns. -/
def paint (s : Screen) (count mask : Nat) : Screen :=
  { s with
    column := s.column + count
    painted := s.painted ++
      (List.range' s.column count).flatMap fun column => dots column s.band mask s.register
    pending := .ground }

/-- What was collected takes effect. -/
def settle (s : Screen) : Screen :=
  match s.pending with
  | .params .colour done last =>
    match done ++ [last] with
    | register :: [] => { s with register, pending := .ground }
    | register :: definition =>
      { s with register, palette := s.palette ++ [(register, definition)], pending := .ground }
    | [] => { s with pending := .ground }
  | _ => { s with pending := .ground }

def introduce (s : Screen) (introducer : Introducer) : Screen :=
  { s.settle with pending := .params introducer [] 0 }

def carriageReturn (s : Screen) : Screen := { s.settle with column := 0 }

def nextBand (s : Screen) : Screen := { s.settle with column := 0, band := s.settle.band + 1 }

/-- A sixel, repeated as often as was just asked for; zero times is once. -/
def sixel (s : Screen) (mask : Nat) : Screen :=
  match s.pending with
  | .params .repetition done last => s.paint (max 1 ((done ++ [last]).headD 1)) mask
  | _ => s.settle.paint 1 mask

def digit (s : Screen) (d : Nat) : Screen :=
  match s.pending with
  | .params introducer done last =>
    { s with pending := .params introducer done (last * 10 + d) }
  | .ground => s

def separator (s : Screen) : Screen :=
  match s.pending with
  | .params introducer done last =>
    { s with pending := .params introducer (done ++ [last]) 0 }
  | .ground => s

def feed (s : Screen) (b : UInt8) : Screen :=
  if 0x30 ≤ b ∧ b ≤ 0x39 then s.digit (b.toNat - 0x30)
  else if b = 0x3b then s.separator
  else if b = 0x22 then s.introduce .raster
  else if b = 0x21 then s.introduce .repetition
  else if b = 0x23 then s.introduce .colour
  else if b = 0x24 then s.carriageReturn
  else if b = 0x2d then s.nextBand
  else if 0x3f ≤ b ∧ b ≤ 0x7e then s.sixel (b.toNat - 0x3f)
  else s

def feeds (s : Screen) (data : List UInt8) : Screen := data.foldl feed s

end Screen

/-- The meaning of a whole text. -/
def interpret (data : List UInt8) : Screen := (({} : Screen).feeds data).settle

namespace Screen

@[simp] theorem feeds_nil (s : Screen) : s.feeds [] = s := rfl

@[simp] theorem feeds_cons (s : Screen) (b : UInt8) (data : List UInt8) :
    s.feeds (b :: data) = (s.feed b).feeds data := rfl

@[simp] theorem feeds_append (s : Screen) (first rest : List UInt8) :
    s.feeds (first ++ rest) = (s.feeds first).feeds rest := List.foldl_append ..

@[simp] theorem feed_separator (s : Screen) : s.feed 0x3b = s.separator := rfl
@[simp] theorem feed_raster (s : Screen) : s.feed 0x22 = s.introduce .raster := rfl
@[simp] theorem feed_repetition (s : Screen) : s.feed 0x21 = s.introduce .repetition := rfl
@[simp] theorem feed_colour (s : Screen) : s.feed 0x23 = s.introduce .colour := rfl
@[simp] theorem feed_carriageReturn (s : Screen) : s.feed 0x24 = s.carriageReturn := rfl
@[simp] theorem feed_nextBand (s : Screen) : s.feed 0x2d = s.nextBand := rfl

theorem feed_sixel (s : Screen) {b : UInt8} (low : 0x3f ≤ b) (high : b ≤ 0x7e) :
    s.feed b = s.sixel (b.toNat - 0x3f) := by
  have atLeast : 0x3f ≤ b.toNat := low
  have differ : ∀ c : UInt8, c.toNat < 0x3f → b ≠ c := by
    rintro c small rfl
    omega
  rw [feed, if_neg fun digit => absurd (show b.toNat ≤ 0x39 from digit.2) (by omega),
    if_neg (differ _ (by decide)), if_neg (differ _ (by decide)), if_neg (differ _ (by decide)),
    if_neg (differ _ (by decide)), if_neg (differ _ (by decide)), if_neg (differ _ (by decide)),
    if_pos ⟨low, high⟩]

/-- The screen in the middle of the numbers of an introducer. -/
def collect (s : Screen) (introducer : Introducer) (done : List Nat) (last : Nat) : Screen :=
  { s with pending := .params introducer done last }

section Collect

variable (s : Screen) (introducer : Introducer) (done : List Nat) (last : Nat)

@[simp] theorem introduce_eq : s.introduce introducer = s.settle.collect introducer [] 0 := rfl

@[simp] theorem collect_separator :
    (s.collect introducer done last).separator = s.collect introducer (done ++ [last]) 0 := rfl

@[simp] theorem collect_digit (d : Nat) :
    (s.collect introducer done last).digit d = s.collect introducer done (last * 10 + d) := rfl

/-- The digits of a number are collected into it. -/
theorem collect_digits {digits : List UInt8} (all : ∀ b ∈ digits, 0x30 ≤ b ∧ b ≤ 0x39) :
    (s.collect introducer done last).feeds digits =
      s.collect introducer done (digits.foldl (fun n d => n * 10 + (d.toNat - 0x30)) last) := by
  induction digits generalizing last with
  | nil => rfl
  | cons b digits ih =>
    have first : (s.collect introducer done last).feed b =
        s.collect introducer done (last * 10 + (b.toNat - 0x30)) := by
      rw [feed, if_pos (all b (List.mem_cons_self ..)), collect_digit]
    rw [feeds_cons, first, ih _ fun c member => all c (List.mem_cons_of_mem _ member),
      List.foldl_cons]

end Collect

@[simp] theorem settle_pending (s : Screen) : s.settle.pending = .ground := by
  unfold settle
  split
  · split <;> rfl
  · rfl

@[simp] theorem settle_column (s : Screen) : s.settle.column = s.column := by
  unfold settle
  split
  · split <;> rfl
  · rfl

@[simp] theorem settle_band (s : Screen) : s.settle.band = s.band := by
  unfold settle
  split
  · split <;> rfl
  · rfl

@[simp] theorem settle_painted (s : Screen) : s.settle.painted = s.painted := by
  unfold settle
  split
  · split <;> rfl
  · rfl

theorem settle_of_ground {s : Screen} (ground : s.pending = .ground) : s.settle = s := by
  rw [settle, ground]
  cases s
  cases ground
  rfl

end Screen

/-- A sixel of one bit, repeated, is a strip in one row. -/
theorem flatMap_dots {mask bit : Nat} (single : mask = 2 ^ bit) (inside : bit < 6)
    (column count band register : Nat) :
    ((List.range' column count).flatMap fun column => dots column band mask register) =
      (List.range' column count).map fun column => (column, 6 * band + bit, register) := by
  have one : ∀ column, dots column band mask register = [(column, 6 * band + bit, register)] := by
    intro column
    have bits : ∀ bit < 6, (List.range 6).filter (2 ^ bit).testBit = [bit] := by decide
    rw [dots, single, bits bit inside]
    rfl
  simp only [one]
  rw [← List.map_eq_flatMap]

end Yazi.Base.Sixel
