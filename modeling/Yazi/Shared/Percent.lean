import Yazi.Base.Escape
import Yazi.Shared.Utf8

/-!
Percent encoding: a byte outside ASCII or in the set stands as `%` and two hexadecimal digits.
-/
namespace Yazi.Shared

/-- A claim about every byte, checked byte by byte. -/
theorem forall_byte {P : UInt8 → Prop} (each : ∀ n : Fin 256, P (UInt8.ofFin n)) (b : UInt8) :
    P b :=
  each b.toFin

namespace Percent

def percent : UInt8 := 0x25

/-- The digit of a nibble, in upper case. -/
def digit (n : UInt8) : UInt8 := if n < 10 then 0x30 + n else 0x37 + n

/-- `char::to_digit(16)`: letters of either case. -/
def nibble (b : UInt8) : Option UInt8 :=
  if 0x30 ≤ b ∧ b ≤ 0x39 then some (b - 0x30)
  else if 0x41 ≤ b ∧ b ≤ 0x46 then some (b - 0x37)
  else if 0x61 ≤ b ∧ b ≤ 0x66 then some (b - 0x57)
  else none

/-- `CONTROLS`. -/
def controls (b : UInt8) : Bool := b < 0x20 || b == 0x7f

/-- The encoded set of paths. -/
def pathSet (b : UInt8) : Bool := controls b || b == percent

/-- The encoded set of domains: `/` and `:` delimit them. -/
def domainSet (b : UInt8) : Bool := controls b || b == 0x2f || b == 0x3a || b == percent

/-- The encoded set of the domains above a hub. -/
def parentSet (b : UInt8) : Bool :=
  controls b || b == 0x2f || b == 0x2c || b == 0x40 || b == percent

def encodeByte (set : UInt8 → Bool) (b : UInt8) : Bytes :=
  if 0x80 ≤ b || set b then [percent, digit (b >>> 4), digit (b &&& 0xf)] else [b]

/-- `percent_encode`. -/
def encode (set : UInt8 → Bool) (s : Bytes) : Bytes := s.flatMap (encodeByte set)

/-- A byte of a domain: characters outside ASCII stand for themselves. -/
def encodeMark (set : UInt8 → Bool) (mark : Bool × UInt8) : Bytes :=
  if mark.1 && 0x80 ≤ mark.2 then [mark.2] else encodeByte set mark.2

/-- `domain::Encode`. -/
def encodeDomain (set : UInt8 → Bool) (s : Bytes) : Bytes :=
  (Utf8.chunks s).flatMap (encodeMark set)

/-- `percent_decode`: a `%` without two digits stands for itself. -/
def decode : Bytes → Bytes
  | [] => []
  | b :: rest =>
    if b = percent then
      match rest with
      | [] => [b]
      | [l] => [b, l]
      | h :: l :: tail =>
        match nibble h, nibble l with
        | some h, some l => (h * 0x10 + l) :: decode tail
        | _, _ => b :: decode (h :: l :: tail)
    else b :: decode rest

private theorem nibble_digit (b : UInt8) :
    nibble (digit (b >>> 4)) = some (b >>> 4) ∧ nibble (digit (b &&& 0xf)) = some (b &&& 0xf) ∧
      (b >>> 4) * 0x10 + (b &&& 0xf) = b := by
  revert b
  exact forall_byte (by decide +kernel)

private theorem digit_range (b : UInt8) :
    (digit (b >>> 4) ≠ percent ∧ digit (b &&& 0xf) ≠ percent) ∧
      (nibble (digit (b >>> 4))).isSome ∧ (nibble (digit (b &&& 0xf))).isSome := by
  revert b
  exact forall_byte (by decide +kernel)

@[simp] theorem decode_nil : decode [] = [] := by rw [decode]

private theorem decode_eq (b : UInt8) (rest : Bytes) :
    decode (b :: rest) =
      if b = percent then
        match rest with
        | [] => [b]
        | [l] => [b, l]
        | h :: l :: tail =>
          match nibble h, nibble l with
          | some h, some l => (h * 0x10 + l) :: decode tail
          | _, _ => b :: decode (h :: l :: tail)
      else b :: decode rest :=
  decode.eq_def (b :: rest)

theorem decode_cons {b : UInt8} (other : b ≠ percent) (rest : Bytes) :
    decode (b :: rest) = b :: decode rest := by
  rw [decode_eq, if_neg other]

theorem decode_encodeByte {set : UInt8 → Bool} (escaped : set percent = true) (b : UInt8)
    (rest : Bytes) : decode (encodeByte set b ++ rest) = b :: decode rest := by
  simp only [encodeByte]
  split
  · obtain ⟨high, low, whole⟩ := nibble_digit b
    simp only [List.cons_append, List.nil_append]
    rw [decode_eq]
    simp only [if_true, high, low, whole]
  · next plain =>
    refine decode_cons ?_ rest
    rintro rfl
    simp [escaped] at plain

theorem decode_encodeMark {set : UInt8 → Bool} (escaped : set percent = true)
    (mark : Bool × UInt8) (rest : Bytes) :
    decode (encodeMark set mark ++ rest) = mark.2 :: decode rest := by
  simp only [encodeMark]
  split
  · next raw =>
    refine decode_cons ?_ rest
    rintro same
    rw [same] at raw
    simp [percent] at raw
  · exact decode_encodeByte escaped mark.2 rest

/-- Decoding undoes encoding, whatever follows. -/
theorem decode_encode_append {set : UInt8 → Bool} (escaped : set percent = true)
    (s rest : Bytes) : decode (encode set s ++ rest) = s ++ decode rest := by
  have whole := Base.decode_flatMap (m := Id) (decode_encodeByte escaped) s rest
  rwa [List.map_id'] at whole

@[simp] theorem decode_encode {set : UInt8 → Bool} (escaped : set percent = true) (s : Bytes) :
    decode (encode set s) = s := by
  have whole := decode_encode_append escaped s []
  rwa [List.append_nil, decode_nil, List.append_nil] at whole

@[simp] theorem decode_encodeDomain {set : UInt8 → Bool} (escaped : set percent = true)
    (s : Bytes) : decode (encodeDomain set s) = s := by
  have whole := Base.decode_flatMap (m := Id) (decode_encodeMark escaped) (Utf8.chunks s) []
  rw [List.append_nil, decode_nil] at whole
  change decode (encodeDomain set s) = (Utf8.chunks s).map (·.2) ++ [] at whole
  rwa [Utf8.chunks_map_snd, List.append_nil] at whole

/-- A byte that is no digit, and that the set escapes, stands nowhere in an encoded text. -/
theorem not_mem_encodeMark {set : UInt8 → Bool} {c : UInt8} (escaped : set c = true)
    (ascii : c < 0x80) (other : c ≠ percent) (letter : nibble c = none) (mark : Bool × UInt8) :
    c ∉ encodeMark set mark := by
  obtain ⟨-, high, low⟩ := digit_range mark.2
  have apart : ∀ d, (nibble d).isSome = true → c ≠ d := by
    rintro d some rfl
    rw [letter] at some
    cases some
  intro member
  simp only [encodeMark, encodeByte] at member
  split at member
  · next raw =>
    obtain rfl := List.mem_singleton.mp member
    simp only [Bool.and_eq_true, decide_eq_true_eq] at raw
    exact absurd ascii (UInt8.not_lt.mpr raw.2)
  · split at member
    · rcases List.mem_cons.mp member with same | member
      · exact other same
      · rcases List.mem_cons.mp member with same | member
        · exact apart _ high same
        · exact apart _ low (List.mem_singleton.mp member)
    · next plain =>
      obtain rfl := List.mem_singleton.mp member
      simp [escaped] at plain

theorem not_mem_encodeDomain {set : UInt8 → Bool} {c : UInt8} (escaped : set c = true)
    (ascii : c < 0x80) (other : c ≠ percent) (letter : nibble c = none) (s : Bytes) :
    c ∉ encodeDomain set s :=
  Base.not_mem_flatMap (not_mem_encodeMark escaped ascii other letter) _

/-- Decoding never lengthens a text. -/
theorem length_decode_le (s : Bytes) : (decode s).length ≤ s.length := by
  induction s using decode.induct with
  | case1 => exact Nat.le_refl _
  | case2 => simp [decode]
  | case3 => simp [decode]
  | case4 h l tail h' l' high low ih =>
    rw [decode.eq_def]
    simp only [if_true, high, low, List.length_cons]
    omega
  | case5 h l tail other ih =>
    rw [decode.eq_def]
    simp only [if_true]
    exact Nat.succ_le_succ ih
  | case6 b rest other ih =>
    rw [decode_cons other]
    exact Nat.succ_le_succ ih

end Percent

end Yazi.Shared
