import Mathlib.Data.Nat.Digits.Lemmas
import Yazi.Shared.Auth
import Yazi.Shared.Utf8

/-!
Numbers in texts: the decimal ports of a url, and the variable-length integers of wire data.
-/
namespace Yazi.Shared

/-- Why a text is no url or no wire data. -/
inductive Error where
  | text (message : String)
  /-- "invalid wire data tag" -/
  | tag (tag : UInt8)
  /-- "scheme must be 1-20 characters in kebab-case, got" -/
  | scheme (got : Bytes)
  /-- "unknown authority" -/
  | authority (scheme : Scheme) (domain : Bytes)
  | utf8
  | integer
  | number
  /-- Nested deeper than its length allows. -/
  | depth
  deriving DecidableEq

/-! ### Decimal numbers -/

namespace Decimal

def isDigit (b : UInt8) : Bool := 0x30 ≤ b && b ≤ 0x39

def write (n : Nat) : Bytes :=
  if n = 0 then [0x30] else (Nat.digits 10 n).reverse.map fun d => UInt8.ofNat (0x30 + d)

/-- A leading `+` is allowed. -/
def unsigned (s : Bytes) : Bytes := if s.head? = some 0x2b ∧ 1 < s.length then s.tail else s

/-- `usize::from_str`. -/
def read (s : Bytes) : Except Error Nat :=
  let digits := unsigned s
  if digits = [] ∨ ¬digits.all isDigit then .error .integer
  else
    let n := digits.foldl (fun n d => n * 10 + (d.toNat - 0x30)) 0
    if n < 2 ^ 64 then .ok n else .error .integer

/-- `str::from_utf8(s)?.parse()?`. -/
def parse (s : Bytes) : Except Error Nat := if Utf8.isUtf8 s then read s else .error .utf8

theorem write_ne_nil (n : Nat) : write n ≠ [] := by
  simp only [write]
  split
  · simp
  · simpa using Nat.digits_ne_nil_iff_ne_zero.mpr ‹_›

theorem isDigit_of_mem_write {n : Nat} {b : UInt8} (member : b ∈ write n) : isDigit b = true := by
  simp only [write] at member
  split at member
  · obtain rfl := List.mem_singleton.mp member
    decide
  · obtain ⟨d, inside, rfl⟩ := List.mem_map.mp member
    have small := Nat.digits_lt_base (by decide) (List.mem_reverse.mp inside)
    have each : ∀ d : Fin 10, isDigit (UInt8.ofNat (0x30 + d.val)) = true := by decide
    exact each ⟨d, small⟩

theorem value_write (n : Nat) :
    (write n).foldl (fun n d => n * 10 + (d.toNat - 0x30)) 0 = n := by
  simp only [write]
  split
  · next zero => simp [zero]
  · have small : ∀ d ∈ Nat.digits 10 n, d < 10 := fun d => Nat.digits_lt_base (by decide)
    conv_rhs => rw [← Nat.ofDigits_digits 10 n]
    rw [List.foldl_map, List.foldl_reverse]
    generalize Nat.digits 10 n = digits at small
    induction digits with
    | nil => rfl
    | cons d ds ih =>
      have low : d < 10 := small d List.mem_cons_self
      have byte : (UInt8.ofNat (0x30 + d)).toNat = 0x30 + d := by
        rw [UInt8.toNat_ofNat']
        omega
      rw [List.foldr_cons, ih fun d member => small d (List.mem_cons_of_mem _ member), byte,
        Nat.ofDigits_cons]
      omega

/-- Reading undoes writing. -/
theorem parse_write {n : Nat} (bound : n < 2 ^ 64) : parse (write n) = .ok n := by
  have ascii : Utf8.isUtf8 (write n) = true := by
    rw [Utf8.isUtf8, List.all_eq_true]
    intro mark member
    have inside : mark.2 ∈ write n := by
      rw [← Utf8.chunks_map_snd (write n)]
      exact List.mem_map_of_mem member
    have digit := isDigit_of_mem_write inside
    refine Utf8.valid_of_ascii member ?_
    simp only [isDigit, Bool.and_eq_true, decide_eq_true_eq] at digit
    exact Nat.le_trans digit.2 (by decide)
  have plain : unsigned (write n) = write n := by
    refine if_neg fun sign => ?_
    exact absurd (isDigit_of_mem_write (List.mem_of_head? sign.1)) (by decide)
  have digits : (write n).all isDigit = true :=
    List.all_eq_true.mpr fun _ => isDigit_of_mem_write
  rw [parse, if_pos ascii, read]
  simp only [plain, write_ne_nil, digits, not_true, or_self, value_write, bound, if_false, if_true]

end Decimal

/-! ### Variable-length integers -/

namespace Varint

/-- Five bits in a character each, the lowest first; the second half of the alphabet announces
more of them. -/
def alphabet : Bytes := text "0123456789abcdefghijklmnopqrstuvABCDEFGHIJKLMNOPQRSTUVWXYZ-._~!$"

/-- Writes up to `digits` digits. -/
def writeDigits : Nat → Nat → Bytes
  | 0, _ => []
  | digits + 1, value =>
    let more := value > 31
    let letter := alphabet.getD (value % 32 + if more then 32 else 0) 0
    letter :: if more then writeDigits digits (value / 32) else []

/-- `Varint::write_u64`: thirteen digits hold 64 bits. -/
def writeU64 (value : UInt64) : Bytes := writeDigits 13 value.toNat

def zigzag (value : Int64) : UInt64 := (value.toUInt64 <<< 1) ^^^ (value >>> 63).toUInt64

def unzigzag (value : UInt64) : Int64 := (value >>> 1).toInt64 ^^^ -(value &&& 1).toInt64

def writeI64 (value : Int64) : Bytes := writeU64 (zigzag value)

/-- A digit, and whether more follow. -/
def digit (b : UInt8) : Option (Nat × Bool) :=
  if 0x30 ≤ b ∧ b ≤ 0x39 then some ((b - 0x30).toNat, false)
  else if 0x61 ≤ b ∧ b ≤ 0x76 then some ((b - 0x61 + 10).toNat, false)
  else if 0x41 ≤ b ∧ b ≤ 0x5a then some ((b - 0x41).toNat, true)
  else if b = 0x2d then some (26, true)
  else if b = 0x2e then some (27, true)
  else if b = 0x5f then some (28, true)
  else if b = 0x7e then some (29, true)
  else if b = 0x21 then some (30, true)
  else if b = 0x24 then some (31, true)
  else none

/-- The loop of `Varint::read_u64`, from digit `i` on. -/
def readDigits : Nat → Nat → Bytes → Except Error (Nat × Nat)
  | _, _, [] => .error (.text "unexpected end of varint")
  | i, value, byte :: rest =>
    match digit byte with
    | none => .error (.text "invalid varint digit")
    | some (digit, more) =>
      let shift := i * 5
      if shift < 64 ∧ digit ≤ (2 ^ 64 - 1) >>> shift then
        let value := value ||| digit <<< shift
        if more then readDigits (i + 1) value rest else .ok (value, i + 1)
      else .error (.text "varint overflow")

/-- The value and the number of bytes it takes. -/
def readU64 (bytes : Bytes) : Except Error (UInt64 × Nat) :=
  (readDigits 0 0 bytes).map fun (value, len) => (UInt64.ofNat value, len)

def readI64 (bytes : Bytes) : Except Error (Int64 × Nat) :=
  (readU64 bytes).map fun (value, len) => (unzigzag value, len)

private theorem digit_alphabet (d : Nat) (small : d < 32) (more : Bool) :
    digit (alphabet.getD (d + if more then 32 else 0) 0) = some (d, more) := by
  have each : ∀ d : Fin 32, ∀ more : Bool,
      digit (alphabet.getD (d.val + if more then 32 else 0) 0) = some (d.val, more) := by decide
  exact each ⟨d, small⟩ more

/-- The digits read so far fill the bits below the next one. -/
private theorem readDigits_writeDigits (digits i acc v : Nat) (rest : Bytes)
    (room : v < 32 ^ digits) (some : 0 < digits) (low : acc < 2 ^ (i * 5))
    (bound : acc + v * 2 ^ (i * 5) < 2 ^ 64) (present : i = 0 ∨ 0 < v) :
    readDigits i acc (writeDigits digits v ++ rest) =
      .ok (acc + v * 2 ^ (i * 5), i + (writeDigits digits v).length) := by
  induction digits generalizing i acc v with
  | zero => exact absurd some (by decide)
  | succ digits ih =>
    have small : v % 32 < 32 := Nat.mod_lt _ (by decide)
    have part : v % 32 * 2 ^ (i * 5) ≤ v * 2 ^ (i * 5) :=
      Nat.mul_le_mul_right _ (Nat.mod_le ..)
    have power : 0 < 2 ^ (i * 5) := Nat.two_pow_pos _
    have shift : i * 5 < 64 := by
      rcases present with rfl | positive
      · decide
      · have least : 2 ^ (i * 5) ≤ v * 2 ^ (i * 5) := Nat.le_mul_of_pos_left _ positive
        exact (Nat.pow_lt_pow_iff_right (by decide)).mp (Nat.lt_of_le_of_lt least (by omega))
    have fits : v % 32 ≤ (2 ^ 64 - 1) >>> (i * 5) := by
      rw [Nat.shiftRight_eq_div_pow, Nat.le_div_iff_mul_le power]
      omega
    have joined : acc ||| (v % 32) <<< (i * 5) = acc + v % 32 * 2 ^ (i * 5) := by
      rw [Nat.or_comm, Nat.shiftLeft_eq, Nat.mul_comm, ← Nat.two_pow_add_eq_or_of_lt low]
      omega
    have here := digit_alphabet (v % 32) small (decide (v > 31))
    simp only [decide_eq_true_eq] at here
    simp only [writeDigits, List.cons_append, readDigits, here, shift, fits, joined, and_self,
      if_true]
    by_cases more : v > 31
    · have split : v = v / 32 * 32 + v % 32 := by omega
      have next : 2 ^ ((i + 1) * 5) = 32 * 2 ^ (i * 5) := by
        rw [Nat.add_mul, Nat.pow_add, Nat.mul_comm]
      have total : acc + v % 32 * 2 ^ (i * 5) + v / 32 * 2 ^ ((i + 1) * 5) =
          acc + v * 2 ^ (i * 5) := by
        conv_rhs => rw [split]
        rw [next, Nat.add_mul, Nat.mul_assoc]
        omega
      have later := ih (i + 1) (acc + v % 32 * 2 ^ (i * 5)) (v / 32)
        (by rw [Nat.pow_succ] at room; omega)
        (by
          rcases Nat.eq_zero_or_pos digits with rfl | positive
          · simp at room
            omega
          · exact positive)
        (by
          have top : v % 32 * 2 ^ (i * 5) ≤ 31 * 2 ^ (i * 5) := Nat.mul_le_mul_right _ (by omega)
          omega)
        (by rw [total]; exact bound) (.inr (by omega))
      simp only [more, decide_true, if_true, later, total, List.length_cons]
      congr 2
      omega
    · have whole : v % 32 = v := Nat.mod_eq_of_lt (by omega)
      simp [more, whole]

theorem readU64_writeU64 (value : UInt64) (rest : Bytes) :
    readU64 (writeU64 value ++ rest) = .ok (value, (writeU64 value).length) := by
  have bound := value.toNat_lt
  rw [readU64, writeU64, readDigits_writeDigits 13 0 0 value.toNat rest
    (Nat.lt_trans bound (by decide)) (by decide) (by decide) (by simpa using bound) (.inl rfl)]
  simp [Except.map]

private theorem sign_bits (x : BitVec 64) :
    x.sshiftRight 63 = if x.msb then BitVec.allOnes 64 else 0#64 := by
  ext i inside
  rw [BitVec.getElem_sshiftRight]
  cases sign : x.msb <;> split
  · obtain rfl : i = 0 := by omega
    simpa [BitVec.msb_eq_getLsbD_last] using sign
  · simp
  · obtain rfl : i = 0 := by omega
    rw [if_pos rfl, BitVec.getElem_allOnes]
    simpa [BitVec.msb_eq_getLsbD_last] using sign
  · rw [if_pos rfl, BitVec.getElem_allOnes]

/-- The lowest bit is the sign, and the others are flipped with it. -/
private theorem unzigzag_bits (x : BitVec 64) :
    ((x <<< 1 ^^^ x.sshiftRight 63) >>> 1) ^^^ -((x <<< 1 ^^^ x.sshiftRight 63) &&& 1#64) = x := by
  rw [sign_bits]
  cases sign : x.msb with
  | false =>
    have low : x <<< 1 &&& 1#64 = 0#64 := by
      ext i inside
      cases i <;> simp
    simp only [Bool.false_eq_true, if_false, BitVec.xor_zero, low, BitVec.neg_zero]
    ext i inside
    by_cases last : i = 63
    · subst last
      simpa [BitVec.msb_eq_getLsbD_last] using sign.symm
    · have next : 1 + i < 64 := by omega
      simp [next, ← BitVec.getLsbD_eq_getElem]
  | true =>
    have low : (x <<< 1 ^^^ BitVec.allOnes 64) &&& 1#64 = 1#64 := by
      ext i inside
      cases i <;> simp
    simp only [if_true, low, BitVec.neg_one_eq_allOnes]
    ext i inside
    by_cases last : i = 63
    · subst last
      simpa [BitVec.msb_eq_getLsbD_last] using sign
    · have next : 1 + i < 64 := by omega
      simp only [BitVec.getElem_xor, BitVec.getElem_allOnes, BitVec.getElem_ushiftRight,
        BitVec.getLsbD_xor, BitVec.getLsbD_allOnes, BitVec.getLsbD_shiftLeft]
      simp [next, ← BitVec.getLsbD_eq_getElem]

theorem unzigzag_zigzag (value : Int64) : unzigzag (zigzag value) = value := by
  apply Int64.toBitVec_inj.mp
  exact unzigzag_bits value.toBitVec

theorem readI64_writeI64 (value : Int64) (rest : Bytes) :
    readI64 (writeI64 value ++ rest) = .ok (value, (writeI64 value).length) := by
  rw [readI64, writeI64, readU64_writeU64]
  simp [Except.map, unzigzag_zigzag]

/-- Every letter of a number is from the alphabet. -/
theorem mem_alphabet_of_mem {value : UInt64} {b : UInt8} (member : b ∈ writeU64 value) :
    b ∈ alphabet := by
  have all : ∀ digits v, b ∈ writeDigits digits v → b ∈ alphabet := by
    intro digits
    induction digits with
    | zero => intro v member; cases member
    | succ digits ih =>
      intro v member
      rcases List.mem_cons.mp member with rfl | later
      · have index : v % 32 + (if v > 31 then 32 else 0) < alphabet.length := by
          have size : alphabet.length = 64 := by decide
          rw [size]
          split <;> omega
        rw [List.getD_eq_getElem?_getD, List.getElem?_eq_getElem index, Option.getD_some]
        exact List.getElem_mem index
      · split at later
        · exact ih _ later
        · cases later
  exact all 13 value.toNat member

end Varint

end Yazi.Shared
