import Mathlib

/-!
Unsigned integers as bytes, the most significant one first, in a fixed number of bytes.
-/
namespace Yazi.Base.BigEndian

/-- The last `width` base-256 digits of a number. -/
def encode : Nat → Nat → List UInt8
  | 0, _ => []
  | width + 1, n => encode width (n / 256) ++ [UInt8.ofNat n]

def decode (bytes : List UInt8) : Nat := bytes.foldl (fun n b => n * 256 + b.toNat) 0

@[simp] theorem length_encode (width n : Nat) : (encode width n).length = width := by
  induction width generalizing n with
  | zero => rfl
  | succ width ih => rw [encode, List.length_append, ih, List.length_singleton]

theorem decode_append_singleton (bytes : List UInt8) (b : UInt8) :
    decode (bytes ++ [b]) = decode bytes * 256 + b.toNat := by
  rw [decode, List.foldl_append]
  rfl

theorem decode_encode {width n : Nat} (fits : n < 256 ^ width) : decode (encode width n) = n := by
  induction width generalizing n with
  | zero =>
    have zero : n = 0 := by simpa using fits
    rw [zero]
    rfl
  | succ width ih =>
    have quotient : n / 256 < 256 ^ width := by
      apply Nat.div_lt_of_lt_mul
      rwa [Nat.mul_comm, ← Nat.pow_succ]
    have digit : (UInt8.ofNat n).toNat = n % 256 := UInt8.toNat_ofNat' ..
    rw [encode, decode_append_singleton, ih quotient, digit]
    omega

end Yazi.Base.BigEndian
