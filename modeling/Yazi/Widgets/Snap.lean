import Mathlib

/-!
A snapshot of an input: its value, cursor, mode and pending operation, and the versions of it.

A position is a number of characters; what the source measures in bytes has a name of its own.
`none` is a panic.
-/
namespace Yazi.Widgets

/-- `InputMode` -/
inductive InputMode where
  | normal
  | insert
  | replace
  deriving DecidableEq, Repr

def InputMode.delta (mode : InputMode) : Nat := if mode ≠ .insert then 1 else 0

@[simp] theorem InputMode.delta_insert : InputMode.delta .insert = 0 := rfl

@[simp] theorem InputMode.delta_normal : InputMode.delta .normal = 1 := rfl

@[simp] theorem InputMode.delta_replace : InputMode.delta .replace = 1 := rfl

/-- `InputOp` -/
inductive InputOp where
  | none
  | select (start : Nat)
  | delete (cut insert : Bool) (start : Nat)
  | yank (start : Nat)
  deriving DecidableEq, Repr

namespace InputOp

def start : InputOp → Option Nat
  | none => .none
  | select s | delete _ _ s | yank s => .some s

/-- `InputOp::range`, given the start. -/
def span (start cursor : Nat) (inclusive : Bool) : Nat × Nat :=
  (min start cursor, max start cursor + inclusive.toNat)

end InputOp

/-- The widths of characters and strings on a terminal. -/
structure Widths where
  char : Char → Nat
  str : List Char → Nat

/-- `InputSnap` -/
structure InputSnap where
  value : List Char
  op : InputOp
  mode : InputMode
  obscure : Bool
  offset : Nat
  cursor : Nat
  deriving DecidableEq, Repr

/-- `str::len` -/
def bytes (s : List Char) : Nat := (s.map Char.utf8Size).sum

/-- How many characters fit. -/
def fits (width : Char → Nat) : Nat → List Char → Nat
  | _, [] => 0
  | limit, c :: s => if width c ≤ limit then fits width (limit - width c) s + 1 else 0

/-- `InputSnap::find_window` -/
def findWindow (width : Char → Nat) (s : List Char) (offset limit : Nat) : Nat × Nat :=
  let count := fits width limit (s.drop offset)
  if count = 0 then (0, 0) else (offset, offset + count)

def bullet : Char := '•'

namespace InputSnap

def count (snap : InputSnap) : Nat := snap.value.length

def len (snap : InputSnap) : Nat := bytes snap.value

/-- `InputSnap::idx`, in bytes. -/
def idx (snap : InputSnap) (n : Nat) : Option Nat :=
  if n ≤ snap.count then some (bytes (snap.value.take n)) else none

/-- `InputSnap::slice` -/
def slice (snap : InputSnap) (s e : Nat) : Option (List Char) :=
  if s ≤ e ∧ e ≤ snap.count then some ((snap.value.take e).drop s) else none

/-- `replace_range` over `idx(s)..idx(e)`. -/
def splice (snap : InputSnap) (s e : Nat) (other : List Char) : Option (List Char) :=
  (snap.slice s e).map fun _ => snap.value.take s ++ other ++ snap.value.drop e

/-- The last position a cursor may have. -/
def last (snap : InputSnap) : Nat := snap.count - snap.mode.delta

section widths
variable (w : Widths)

def width (snap : InputSnap) (s e : Nat) : Option Nat :=
  if snap.obscure then some ((e - s) % 2 ^ 16) else (snap.slice s e).map fun s => w.str s % 2 ^ 16

/-- The value as it is shown. -/
def shown (snap : InputSnap) (s : List Char) : List Char :=
  if snap.obscure then s.map fun _ => bullet else s

def window (snap : InputSnap) (limit : Nat) : Nat × Nat :=
  findWindow w.char (snap.shown snap.value) snap.offset limit

/-- How many characters fit, counted from the end. -/
def tail (snap : InputSnap) (limit : Nat) : Nat :=
  if snap.obscure then min snap.count limit
  else (findWindow w.char snap.value.reverse 0 limit).2

/-- `InputSnap::resize` -/
def resize (snap : InputSnap) (limit : Nat) : InputSnap :=
  let limit := snap.tail w limit
  let cursor := min snap.cursor snap.last
  { snap with
    cursor
    offset :=
      if cursor < min (snap.offset + limit) snap.count then min (snap.count - limit) snap.offset
      else min (snap.count - limit) (cursor - limit + 1) }

/-- `InputSnap::new`, whose cursor is at first beyond every value. -/
def new (value : List Char) (obscure : Bool) : InputSnap :=
  resize w
    { value, op := .none, mode := .insert, obscure, offset := 0, cursor := value.length } 0

end widths

@[simp] theorem resize_value (w : Widths) (snap : InputSnap) (limit : Nat) :
    (snap.resize w limit).value = snap.value := rfl

@[simp] theorem resize_op (w : Widths) (snap : InputSnap) (limit : Nat) :
    (snap.resize w limit).op = snap.op := rfl

@[simp] theorem resize_mode (w : Widths) (snap : InputSnap) (limit : Nat) :
    (snap.resize w limit).mode = snap.mode := rfl

end InputSnap

/-! ### Versions -/

/-- `InputSnaps` -/
structure InputSnaps where
  idx : Nat
  versions : List InputSnap
  current : InputSnap

namespace InputSnaps

def new (w : Widths) (value : List Char) (obscure : Bool) : InputSnaps where
  idx := 0
  versions := [.new w value obscure]
  current := .new w value obscure

/-- `InputSnaps::tag`: the last version takes over everything but the value, and the current one
becomes a version if its value is another one. -/
def tag (w : Widths) (limit : Nat) (s : InputSnaps) : InputSnaps × Bool :=
  match s.versions[s.idx]? with
  | none => (s, false)
  | some last =>
    let versions := s.versions.set s.idx ({ s.current with value := last.value }.resize w limit)
    if last.value = s.current.value then ({ s with versions }, false)
    else
      ({ s with idx := s.idx + 1, versions := versions.take (s.idx + 1) ++ [s.current] }, true)

/-- `InputSnaps::undo` -/
def undo (s : InputSnaps) : Option InputSnaps :=
  if s.idx = 0 then none
  else s.versions[s.idx - 1]?.map fun current => { s with idx := s.idx - 1, current }

/-- `InputSnaps::redo` -/
def redo (s : InputSnaps) : Option InputSnaps :=
  s.versions[s.idx + 1]?.map fun current => { s with idx := s.idx + 1, current }

end InputSnaps
end Yazi.Widgets
