import Mathlib.Data.Int.ModEq

/-!
# Machine numbers

A number of 64 bits stands for itself, and what does not fit into them, or falls below zero, is
`none`. Casts wrap around, and saturating operations stop at the end.
-/
namespace Yazi.Base.Machine

def usize (n : Nat) : Option Nat := if n < 2 ^ 64 then some n else none

def checkedSub (n m : Nat) : Option Nat := if m ≤ n then some (n - m) else none

def isize (n : Int) : Option Int := if -2 ^ 63 ≤ n ∧ n < 2 ^ 63 then some n else none

/-- The cast of a `usize`. -/
def asIsize (n : Nat) : Int := (n : Int).bmod (2 ^ 64)

/-- `usize::saturating_add_signed`. -/
def saturatingAddSigned (n : Nat) (d : Int) : Nat := min (n + d).toNat (2 ^ 64 - 1)

/-- `isize::saturating_add_unsigned`. -/
def saturatingAddUnsigned (d : Int) (n : Nat) : Int := min (d + n) (2 ^ 63 - 1)

/-- `Ord::clamp`, which panics when the range is inverted. -/
def clamp (n low high : Nat) : Option Nat := if low ≤ high then some (max low (min n high)) else none

theorem usize_eq {n : Nat} (small : n < 2 ^ 64) : usize n = some n := if_pos small

theorem checkedSub_eq {n m : Nat} (le : m ≤ n) : checkedSub n m = some (n - m) := if_pos le

theorem isize_eq {n : Int} (low : -2 ^ 63 ≤ n) (high : n < 2 ^ 63) : isize n = some n :=
  if_pos ⟨low, high⟩

theorem asIsize_eq {n : Nat} (small : n < 2 ^ 63) : asIsize n = n := by
  exact Int.bmod_eq_of_le (by omega) (by omega)

theorem saturatingAddSigned_eq {n : Nat} {d : Int} (small : n + d < 2 ^ 64) :
    saturatingAddSigned n d = (n + d).toNat := by
  rw [saturatingAddSigned]
  omega

theorem isize_mul {n : Int8} {k : Nat} (small : k < 2 ^ 16) :
    isize (n.toInt * asIsize k) = some (n.toInt * k) := by
  have low := Int.mul_le_mul_of_nonneg_right n.le_toInt (Int.natCast_nonneg k)
  have high := Int.mul_le_mul_of_nonneg_right (Int.le_of_lt n.toInt_lt) (Int.natCast_nonneg k)
  rw [asIsize_eq (by omega)]
  exact isize_eq (by omega) (by omega)

end Yazi.Base.Machine
