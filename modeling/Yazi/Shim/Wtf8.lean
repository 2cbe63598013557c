import Mathlib.Data.List.Chain
import Yazi.Shared.Utf8

/-!
WTF-8, and the check for it.

Generalized UTF-8 encodes surrogates as it encodes other code points. In WTF-8 they are there only
where they do not form a pair, which UTF-8 has an encoding of its own for. The check has forgotten
what came before a surrogate when it meets the next one.
-/
namespace Yazi.Shim
open Shared Shared.Utf8

/-! ### The check -/

/-- What `str::from_utf8` does not accept, from `valid_up_to` on; the first `n` bytes are
accepted. -/
def strip : Nat → Bytes → Bytes
  | _, [] => []
  | n + 1, _ :: rest => strip n rest
  | 0, b :: rest =>
    match charLen (b :: rest) with
    | 0 => b :: rest
    | n + 1 => strip n rest

/-- The loop of `valid_wtf8`, in which every turn takes three bytes. -/
def validLoop : Nat → Bytes → Bool
  | 0, bytes => strip 0 bytes = []
  | turns + 1, bytes =>
    match strip 0 bytes with
    | [] => true
    | a :: b :: c :: rest =>
      a = 0xed && 0xa0 ≤ b && b ≤ 0xbf && 0x80 ≤ c && c ≤ 0xbf && validLoop turns rest
    | _ => false

def validWtf8 (bytes : Bytes) : Bool := validLoop bytes.length bytes

/-- The cases of the source's test. -/
example : [text "hello", [0xc2, 0xa0], [0xe0, 0xa0, 0x80], [0xed, 0xa0, 0x80], [0xed, 0xbf, 0xbf],
      [0xf0, 0x90, 0x80, 0x80]].all validWtf8 ∧
    ¬[[0xc0, 0x80], [0xc1, 0xbf], [0xe0, 0x9f, 0xbf], [0xf0, 0x8f, 0xbf, 0xbf],
      [0xf4, 0x90, 0x80, 0x80], [0xc2, 0x00], [0xc2], [0xe0, 0xa0], [0xf0, 0x90, 0x80]].any
        validWtf8 := by
  decide

/-! ### Generalized UTF-8 -/

def byte (n : Nat) : UInt8 := UInt8.ofNat n

/-- Of one code point. -/
def encode (p : Nat) : Bytes :=
  if p < 0x80 then [byte p]
  else if p < 0x800 then [byte (0xc0 + p / 0x40), byte (0x80 + p % 0x40)]
  else if p < 0x10000 then
    [byte (0xe0 + p / 0x1000), byte (0x80 + p / 0x40 % 0x40), byte (0x80 + p % 0x40)]
  else
    [byte (0xf0 + p / 0x40000), byte (0x80 + p / 0x1000 % 0x40), byte (0x80 + p / 0x40 % 0x40),
      byte (0x80 + p % 0x40)]

def IsPoint (p : Nat) : Prop := p ≤ 0x10ffff

def IsHigh (p : Nat) : Prop := 0xd800 ≤ p ∧ p ≤ 0xdbff

def IsLow (p : Nat) : Prop := 0xdc00 ≤ p ∧ p ≤ 0xdfff

/-- The encoding of a sequence of code points. -/
def Encodes (points : List Nat) (bytes : Bytes) : Prop :=
  (∀ p ∈ points, IsPoint p) ∧ bytes = points.flatMap encode

def IsWtf8 (bytes : Bytes) : Prop :=
  ∃ points, Encodes points bytes ∧ points.IsChain fun a b => ¬(IsHigh a ∧ IsLow b)

/-- A high surrogate directly before a low one. -/
def HasPair (bytes : Bytes) : Prop :=
  ∃ before high low after, IsHigh high ∧ IsLow low ∧
    Encodes (before ++ high :: low :: after) bytes

/-- The code point at the beginning. -/
def point (bytes : Bytes) : Nat :=
  let unit n := (bytes.getD n 0).toNat
  if unit 0 < 0x80 then unit 0
  else if unit 0 < 0xe0 then (unit 0 - 0xc0) * 0x40 + (unit 1 - 0x80)
  else if unit 0 < 0xf0 then
    (unit 0 - 0xe0) * 0x1000 + (unit 1 - 0x80) * 0x40 + (unit 2 - 0x80)
  else
    (unit 0 - 0xf0) * 0x40000 + (unit 1 - 0x80) * 0x1000 + (unit 2 - 0x80) * 0x40 +
      (unit 3 - 0x80)

theorem toNat_byte {n : Nat} (small : n < 0x100) : (byte n).toNat = n :=
  UInt8.toNat_ofNat_of_lt' small

theorem point_encode {p : Nat} (valid : IsPoint p) (rest : Bytes) : point (encode p ++ rest) = p := by
  rw [IsPoint] at valid
  rw [encode]
  split
  · next one =>
    simp only [point, List.cons_append, List.getD_cons_zero, toNat_byte (n := p) (by omega)]
    rw [if_pos one]
  · split
    · simp only [point, List.cons_append, List.getD_cons_zero, List.getD_cons_succ,
        toNat_byte (n := 0xc0 + p / 0x40) (by omega), toNat_byte (n := 0x80 + p % 0x40) (by omega)]
      rw [if_neg (by omega), if_pos (by omega)]
      omega
    · split
      · simp only [point, List.cons_append, List.getD_cons_zero, List.getD_cons_succ,
          toNat_byte (n := 0xe0 + p / 0x1000) (by omega),
          toNat_byte (n := 0x80 + p / 0x40 % 0x40) (by omega),
          toNat_byte (n := 0x80 + p % 0x40) (by omega)]
        rw [if_neg (by omega), if_neg (by omega), if_pos (by omega)]
        omega
      · simp only [point, List.cons_append, List.getD_cons_zero, List.getD_cons_succ,
          toNat_byte (n := 0xf0 + p / 0x40000) (by omega),
          toNat_byte (n := 0x80 + p / 0x1000 % 0x40) (by omega),
          toNat_byte (n := 0x80 + p / 0x40 % 0x40) (by omega),
          toNat_byte (n := 0x80 + p % 0x40) (by omega)]
        rw [if_neg (by omega), if_neg (by omega), if_neg (by omega)]
        omega

theorem encode_ne_nil (p : Nat) : encode p ≠ [] := by
  rw [encode]
  split
  · exact List.cons_ne_nil _ _
  · split
    · exact List.cons_ne_nil _ _
    · split
      · exact List.cons_ne_nil _ _
      · exact List.cons_ne_nil _ _

/-- An encoding is of one sequence. -/
theorem encodes_unique {points others : List Nat} {bytes : Bytes} (one : Encodes points bytes)
    (other : Encodes others bytes) : points = others := by
  induction points generalizing others bytes with
  | nil =>
    cases others with
    | nil => rfl
    | cons q others =>
      have same := one.2.symm.trans other.2
      rw [List.flatMap_cons] at same
      exact absurd (List.append_eq_nil_iff.mp same.symm).1 (encode_ne_nil q)
  | cons p points ih =>
    cases others with
    | nil =>
      have same := one.2.symm.trans other.2
      rw [List.flatMap_cons] at same
      exact absurd (List.append_eq_nil_iff.mp same).1 (encode_ne_nil p)
    | cons q others =>
      have same := one.2.symm.trans other.2
      rw [List.flatMap_cons, List.flatMap_cons] at same
      have first : p = q := by
        have points := congrArg point same
        rwa [point_encode (one.1 p (List.mem_cons_self ..)),
          point_encode (other.1 q (List.mem_cons_self ..))] at points
      subst first
      have rest := List.append_cancel_left same
      rw [ih ⟨fun p member => one.1 p (List.mem_cons_of_mem _ member), rfl⟩
        ⟨fun q member => other.1 q (List.mem_cons_of_mem _ member), rest⟩]

/-! ### UTF-8 inside of it -/

def IsSurrogate (p : Nat) : Prop := 0xd800 ≤ p ∧ p ≤ 0xdfff

instance (p : Nat) : Decidable (IsSurrogate p) := inferInstanceAs (Decidable (_ ∧ _))

theorem tails_succ {n : Nat} {low high : UInt8} {s : Bytes} : tails (n + 1) low high s = true ↔
    ∃ b rest, s = b :: rest ∧ low.toNat ≤ b.toNat ∧ b.toNat ≤ high.toNat ∧
      tails n 0x80 0xbf rest = true := by
  cases s with
  | nil => simp [tails]
  | cons b rest => simp [tails, UInt8.le_iff_toNat_le, and_assoc]

/-- In numbers. -/
theorem charLen_cons (a : UInt8) (rest : Bytes) : charLen (a :: rest) =
    if a.toNat ≤ 0x7f then 1
    else if 0xc2 ≤ a.toNat ∧ a.toNat ≤ 0xdf ∧ tails 1 0x80 0xbf rest then 2
    else if 0xe0 ≤ a.toNat ∧ a.toNat ≤ 0xef ∧
        tails 2 (if a.toNat = 0xe0 then 0xa0 else 0x80) (if a.toNat = 0xed then 0x9f else 0xbf)
          rest then 3
    else if 0xf0 ≤ a.toNat ∧ a.toNat ≤ 0xf4 ∧
        tails 3 (if a.toNat = 0xf0 then 0x90 else 0x80) (if a.toNat = 0xf4 then 0x8f else 0xbf)
          rest then 4
    else 0 := by
  simp only [charLen, UInt8.le_iff_toNat_le, ← UInt8.toNat_inj]
  rfl

theorem tails_byte {n m : Nat} {low high : UInt8} {rest : Bytes} (least : low.toNat ≤ m)
    (most : m ≤ high.toNat) (more : tails n 0x80 0xbf rest = true) :
    tails (n + 1) low high (byte m :: rest) = true := by
  have small : m < 0x100 := Nat.lt_of_le_of_lt most high.toNat_lt
  apply tails_succ.mpr ⟨_, _, rfl, _⟩
  rw [toNat_byte small]
  exact ⟨least, most, more⟩

/-- A byte of six bits. -/
theorem tails_bits {n : Nat} (m : Nat) {rest : Bytes} (more : tails n 0x80 0xbf rest = true) :
    tails (n + 1) 0x80 0xbf (byte (0x80 + m % 0x40) :: rest) = true := by
  have bits := Nat.mod_lt m (show 0x40 > 0 by decide)
  apply tails_byte _ _ more
  · exact Nat.le_add_right ..
  · change _ ≤ 0xbf
    omega

/-- UTF-8 has the other code points. -/
theorem charLen_encode {p : Nat} (valid : IsPoint p) (plain : ¬IsSurrogate p) (rest : Bytes) :
    charLen (encode p ++ rest) = (encode p).length := by
  rw [IsPoint] at valid
  rw [IsSurrogate] at plain
  rw [encode]
  split
  · rw [List.singleton_append, charLen_cons, toNat_byte (by omega), if_pos (by omega)]
    rfl
  · split
    · have one : tails 1 0x80 0xbf (byte (0x80 + p % 0x40) :: rest) = true := tails_bits p rfl
      rw [List.cons_append, List.singleton_append, charLen_cons, toNat_byte (by omega),
        if_neg (by omega), if_pos ⟨by omega, by omega, one⟩]
      rfl
    · split
      · have two : tails 2 (if 0xe0 + p / 0x1000 = 0xe0 then 0xa0 else 0x80)
            (if 0xe0 + p / 0x1000 = 0xed then 0x9f else 0xbf)
            (byte (0x80 + p / 0x40 % 0x40) :: byte (0x80 + p % 0x40) :: rest) = true := by
          apply tails_byte _ _ (tails_bits p rfl)
          · split
            · change 0xa0 ≤ _
              omega
            · exact Nat.le_add_right ..
          · split
            · change _ ≤ 0x9f
              omega
            · change _ ≤ 0xbf
              omega
        simp only [List.cons_append, List.nil_append]
        rw [charLen_cons, toNat_byte (by omega), if_neg (by omega), if_neg (by omega),
          if_pos ⟨by omega, by omega, two⟩]
        rfl
      · have three : tails 3 (if 0xf0 + p / 0x40000 = 0xf0 then 0x90 else 0x80)
            (if 0xf0 + p / 0x40000 = 0xf4 then 0x8f else 0xbf)
            (byte (0x80 + p / 0x1000 % 0x40) :: byte (0x80 + p / 0x40 % 0x40) ::
              byte (0x80 + p % 0x40) :: rest) = true := by
          apply tails_byte _ _ (tails_bits (p / 0x40) (tails_bits p rfl))
          · split
            · change 0x90 ≤ _
              omega
            · exact Nat.le_add_right ..
          · split
            · change _ ≤ 0x8f
              omega
            · change _ ≤ 0xbf
              omega
        simp only [List.cons_append, List.nil_append]
        rw [charLen_cons, toNat_byte (by omega), if_neg (by omega), if_neg (by omega),
          if_neg (by omega), if_pos ⟨by omega, by omega, three⟩]
        rfl

theorem encode_surrogate {p : Nat} (surrogate : IsSurrogate p) :
    encode p = [0xed, byte (0x80 + p / 0x40 % 0x40), byte (0x80 + p % 0x40)] := by
  obtain ⟨least, most⟩ := surrogate
  have lead : 0xe0 + p / 0x1000 = 0xed := by omega
  rw [encode, if_neg (by omega), if_neg (by omega), if_pos (by omega), lead]
  rfl

theorem charLen_surrogate {p : Nat} (surrogate : IsSurrogate p) (rest : Bytes) :
    charLen (encode p ++ rest) = 0 := by
  have none : ¬tails 2 (if (0xed : UInt8).toNat = 0xe0 then 0xa0 else 0x80)
      (if (0xed : UInt8).toNat = 0xed then 0x9f else 0xbf)
      (byte (0x80 + p / 0x40 % 0x40) :: byte (0x80 + p % 0x40) :: rest) = true := by
    intro accepted
    obtain ⟨b, s, same, -, most, -⟩ := tails_succ.mp accepted
    cases same
    obtain ⟨least, last⟩ := surrogate
    rw [toNat_byte (by omega)] at most
    change _ ≤ 0x9f at most
    omega
  rw [encode_surrogate surrogate]
  simp only [List.cons_append, List.nil_append]
  rw [charLen_cons, if_neg (by decide), if_neg (fun two => absurd two.2.1 (by decide)),
    if_neg (fun three => none three.2.2), if_neg (fun four => absurd four.1 (by decide))]

theorem byte_eq {n : Nat} {b : UInt8} (same : n = b.toNat) : byte n = b := by
  rw [same]
  exact UInt8.ofNat_toNat

/-- What UTF-8 accepts is the encoding of a code point. -/
theorem encode_of_charLen {bytes : Bytes} {n : Nat} (accepted : charLen bytes = n + 1) :
    ∃ p rest, IsPoint p ∧ (encode p).length = n + 1 ∧ bytes = encode p ++ rest := by
  cases bytes with
  | nil => cases accepted
  | cons a s =>
    rw [charLen_cons] at accepted
    have bits : (0x80 : UInt8).toNat = 0x80 ∧ (0xbf : UInt8).toNat = 0xbf := ⟨rfl, rfl⟩
    split at accepted
    · next one =>
      cases accepted
      refine ⟨a.toNat, s, Nat.le_trans one (by decide), ?_, ?_⟩
      · rw [encode, if_pos (by omega)]
        rfl
      · rw [encode, if_pos (by omega), byte_eq rfl]
        rfl
    · split at accepted
      · next two =>
        cases accepted
        obtain ⟨least, most, more⟩ := two
        obtain ⟨b, s, rfl, low, high, -⟩ := tails_succ.mp more
        rw [bits.1] at low
        rw [bits.2] at high
        have encoded : encode ((a.toNat - 0xc0) * 0x40 + (b.toNat - 0x80)) = [a, b] := by
          rw [encode, if_neg (by omega), if_pos (by omega), byte_eq (b := a) (by omega),
            byte_eq (b := b) (by omega)]
        refine ⟨_, s, ?_, congrArg List.length encoded, ?_⟩
        · rw [IsPoint]
          omega
        · rw [encoded]
          rfl
      · rcases ite_eq_iff.mp accepted with ⟨three, length⟩ | ⟨-, accepted⟩
        · cases length
          obtain ⟨least, most, more⟩ := three
          obtain ⟨b, s, rfl, low, high, more⟩ := tails_succ.mp more
          obtain ⟨c, s, rfl, low', high', -⟩ := tails_succ.mp more
          rw [bits.1] at low'
          rw [bits.2] at high'
          have first : 0x80 ≤ b.toNat ∧ b.toNat ≤ 0xbf ∧ (a.toNat = 0xe0 → 0xa0 ≤ b.toNat) := by
            refine ⟨Nat.le_trans ?_ low, Nat.le_trans high ?_, fun e0 => ?_⟩
            · split <;> decide
            · split <;> decide
            · rwa [if_pos e0] at low
          have encoded : encode ((a.toNat - 0xe0) * 0x1000 + (b.toNat - 0x80) * 0x40 +
              (c.toNat - 0x80)) = [a, b, c] := by
            rw [encode, if_neg (by omega), if_neg (by omega), if_pos (by omega),
              byte_eq (b := a) (by omega), byte_eq (b := b) (by omega),
              byte_eq (b := c) (by omega)]
          refine ⟨_, s, ?_, congrArg List.length encoded, ?_⟩
          · rw [IsPoint]
            omega
          · rw [encoded]
            rfl
        · rcases ite_eq_iff.mp accepted with ⟨four, length⟩ | ⟨-, none⟩
          · cases length
            obtain ⟨least, most, more⟩ := four
            obtain ⟨b, s, rfl, low, high, more⟩ := tails_succ.mp more
            obtain ⟨c, s, rfl, low', high', more⟩ := tails_succ.mp more
            obtain ⟨d, s, rfl, low'', high'', -⟩ := tails_succ.mp more
            rw [bits.1] at low' low''
            rw [bits.2] at high' high''
            have first : 0x80 ≤ b.toNat ∧ b.toNat ≤ 0xbf ∧ (a.toNat = 0xf0 → 0x90 ≤ b.toNat) ∧
                (a.toNat = 0xf4 → b.toNat ≤ 0x8f) := by
              refine ⟨Nat.le_trans ?_ low, Nat.le_trans high ?_, fun f0 => ?_, fun f4 => ?_⟩
              · split <;> decide
              · split <;> decide
              · rwa [if_pos f0] at low
              · rwa [if_pos f4] at high
            have encoded : encode ((a.toNat - 0xf0) * 0x40000 + (b.toNat - 0x80) * 0x1000 +
                (c.toNat - 0x80) * 0x40 + (d.toNat - 0x80)) = [a, b, c, d] := by
              rw [encode, if_neg (by omega), if_neg (by omega), if_neg (by omega),
                byte_eq (b := a) (by omega), byte_eq (b := b) (by omega),
                byte_eq (b := c) (by omega), byte_eq (b := d) (by omega)]
            refine ⟨_, s, ?_, congrArg List.length encoded, ?_⟩
            · rw [IsPoint]
              omega
            · rw [encoded]
              rfl
          · cases none

/-! ### The check -/

theorem strip_append (taken rest : Bytes) : strip taken.length (taken ++ rest) = strip 0 rest := by
  induction taken with
  | nil => rfl
  | cons b taken ih => exact ih

/-- What begins with a character is taken up to behind it. -/
theorem strip_charLen {p : Nat} {rest : Bytes}
    (accepted : charLen (encode p ++ rest) = (encode p).length) :
    strip 0 (encode p ++ rest) = strip 0 rest := by
  cases bytes : encode p with
  | nil => exact absurd bytes (encode_ne_nil p)
  | cons b taken =>
    rw [bytes, List.cons_append, List.length_cons] at accepted
    simp only [List.cons_append, strip, accepted]
    exact strip_append taken rest

theorem strip_surrogate {p : Nat} (surrogate : IsSurrogate p) (rest : Bytes) :
    strip 0 (encode p ++ rest) = encode p ++ rest := by
  have refused := charLen_surrogate surrogate rest
  cases bytes : encode p with
  | nil => exact absurd bytes (encode_ne_nil p)
  | cons b taken =>
    rw [bytes, List.cons_append] at refused
    simp only [List.cons_append, strip, refused]

/-- What is taken is an encoding. -/
theorem strip_spec (n : Nat) (bytes : Bytes) (short : bytes.length ≤ n) :
    ∃ points : List Nat, (∀ p ∈ points, IsPoint p) ∧
      bytes = points.flatMap encode ++ strip 0 bytes := by
  induction n generalizing bytes with
  | zero =>
    rw [List.length_eq_zero_iff.mp (Nat.le_zero.mp short)]
    exact ⟨[], nofun, rfl⟩
  | succ n ih =>
    cases len : charLen bytes with
    | zero =>
      refine ⟨[], nofun, ?_⟩
      cases bytes with
      | nil => rfl
      | cons b rest => simp only [strip, len, List.flatMap_nil, List.nil_append]
    | succ m =>
      obtain ⟨p, rest, valid, length, rfl⟩ := encode_of_charLen len
      have shorter : rest.length ≤ n := by
        rw [List.length_append, length] at short
        omega
      obtain ⟨points, all, same⟩ := ih rest shorter
      refine ⟨p :: points, ?_, ?_⟩
      · intro q member
        rcases List.mem_cons.mp member with rfl | member
        · exact valid
        · exact all q member
      · rw [strip_charLen (len.trans length.symm), List.flatMap_cons, List.append_assoc, ← same]

/-- The pattern is that of a surrogate. -/
theorem surrogate_of_pattern {b c : UInt8} (least : 0xa0 ≤ b) (most : b ≤ 0xbf) (low : 0x80 ≤ c)
    (high : c ≤ 0xbf) : ∃ p, IsSurrogate p ∧ encode p = [0xed, b, c] := by
  rw [UInt8.le_iff_toNat_le] at least most low high
  change 0xa0 ≤ _ at least
  change _ ≤ 0xbf at most
  change 0x80 ≤ _ at low
  change _ ≤ 0xbf at high
  refine ⟨0xd000 + (b.toNat - 0x80) * 0x40 + (c.toNat - 0x80), ?_, ?_⟩
  · rw [IsSurrogate]
    omega
  · rw [encode_surrogate (by rw [IsSurrogate]; omega), byte_eq (b := b) (by omega),
      byte_eq (b := c) (by omega)]

theorem encodes_append {points others : List Nat} {bytes rest : Bytes}
    (first : ∀ p ∈ points, IsPoint p) (same : bytes = points.flatMap encode ++ rest)
    (second : Encodes others rest) : Encodes (points ++ others) bytes := by
  refine ⟨?_, ?_⟩
  · intro p member
    rcases List.mem_append.mp member with member | member
    · exact first p member
    · exact second.1 p member
  · rw [List.flatMap_append, ← second.2, same]

theorem encodes_of_validLoop {turns : Nat} {bytes : Bytes} (valid : validLoop turns bytes = true) :
    ∃ points, Encodes points bytes := by
  induction turns generalizing bytes with
  | zero =>
    obtain ⟨points, all, same⟩ := strip_spec bytes.length bytes (Nat.le_refl _)
    simp only [validLoop, decide_eq_true_eq] at valid
    rw [valid, List.append_nil] at same
    exact ⟨points, all, same⟩
  | succ turns ih =>
    obtain ⟨points, all, same⟩ := strip_spec bytes.length bytes (Nat.le_refl _)
    rw [validLoop] at valid
    split at valid
    · next none =>
      rw [none, List.append_nil] at same
      exact ⟨points, all, same⟩
    · next a b c rest stripped =>
      simp only [Bool.and_eq_true, decide_eq_true_eq] at valid
      obtain ⟨⟨⟨⟨⟨rfl, least⟩, most⟩, low⟩, high⟩, valid⟩ := valid
      obtain ⟨p, surrogate, encoded⟩ := surrogate_of_pattern least most low high
      obtain ⟨others, rest'⟩ := ih valid
      have later : Encodes (p :: others) (0xed :: b :: c :: rest) := by
        refine ⟨?_, ?_⟩
        · intro q member
          rcases List.mem_cons.mp member with rfl | member
          · exact Nat.le_trans surrogate.2 (by decide)
          · exact rest'.1 q member
        · rw [List.flatMap_cons, encoded, ← rest'.2]
          rfl
      rw [stripped] at same
      exact ⟨points ++ p :: others, encodes_append all same later⟩
    · cases valid

theorem validLoop_of_encodes {points : List Nat} {bytes : Bytes} (encodes : Encodes points bytes)
    {turns : Nat} (enough : bytes.length ≤ turns) : validLoop turns bytes = true := by
  induction points generalizing bytes turns with
  | nil =>
    rw [encodes.2]
    cases turns <;> rfl
  | cons p points ih =>
    obtain ⟨all, rfl⟩ := encodes
    have valid := all p (List.mem_cons_self ..)
    have rest : Encodes points (points.flatMap encode) :=
      ⟨fun q member => all q (List.mem_cons_of_mem _ member), rfl⟩
    rw [List.flatMap_cons] at enough ⊢
    rw [List.length_append] at enough
    by_cases surrogate : IsSurrogate p
    · have encoded := encode_surrogate surrogate
      have length : (encode p).length = 3 := by rw [encoded]; rfl
      obtain ⟨turns, rfl⟩ := Nat.exists_eq_succ_of_ne_zero (show turns ≠ 0 by omega)
      have later : validLoop turns (points.flatMap encode) = true := ih rest (by omega)
      rw [validLoop, strip_surrogate surrogate, encoded]
      obtain ⟨least, most⟩ := surrogate
      have pattern : 0xa0 ≤ byte (0x80 + p / 0x40 % 0x40) ∧ byte (0x80 + p / 0x40 % 0x40) ≤ 0xbf ∧
          0x80 ≤ byte (0x80 + p % 0x40) ∧ byte (0x80 + p % 0x40) ≤ 0xbf := by
        simp only [UInt8.le_iff_toNat_le, toNat_byte (n := 0x80 + p / 0x40 % 0x40) (by omega),
          toNat_byte (n := 0x80 + p % 0x40) (by omega)]
        change 0xa0 ≤ _ ∧ _ ≤ 0xbf ∧ 0x80 ≤ _ ∧ _ ≤ 0xbf
        omega
      simp [pattern, later]
    · have same := strip_charLen (charLen_encode valid surrogate (points.flatMap encode))
      have later : validLoop turns (points.flatMap encode) = true := ih rest (by omega)
      cases turns with
      | zero =>
        rw [validLoop] at later ⊢
        rwa [same]
      | succ turns =>
        rw [validLoop] at later ⊢
        rwa [same]

/-- What the check accepts: generalized UTF-8. -/
theorem validWtf8_iff (bytes : Bytes) :
    validWtf8 bytes = true ↔ ∃ points, Encodes points bytes := by
  constructor
  · exact encodes_of_validLoop
  · rintro ⟨points, encodes⟩
    exact validLoop_of_encodes encodes (Nat.le_refl _)

/-- The check is right about a byte string exactly when there is no surrogate pair in it. -/
theorem validWtf8_exact (bytes : Bytes) :
    (validWtf8 bytes = true ↔ IsWtf8 bytes) ↔ ¬HasPair bytes := by
  rw [validWtf8_iff]
  constructor
  · rintro exact ⟨before, high, low, after, isHigh, isLow, encodes⟩
    obtain ⟨points, encodes', chain⟩ := exact.mp ⟨_, encodes⟩
    rw [encodes_unique encodes' encodes] at chain
    exact (List.isChain_append_cons_cons.mp chain).2.1 ⟨isHigh, isLow⟩
  · intro single
    constructor
    · rintro ⟨points, encodes⟩
      refine ⟨points, encodes, List.isChain_iff_forall_rel_of_append_cons_cons.mpr ?_⟩
      rintro high low before after rfl ⟨isHigh, isLow⟩
      exact single ⟨before, high, low, after, isHigh, isLow, encodes⟩
    · rintro ⟨points, encodes, -⟩
      exact ⟨points, encodes⟩

/-- The two halves of U+10000. -/
theorem accepts_pair : validWtf8 [0xed, 0xa0, 0x80, 0xed, 0xb0, 0x80] = true ∧
    ¬IsWtf8 [0xed, 0xa0, 0x80, 0xed, 0xb0, 0x80] := by
  refine ⟨by decide, ?_⟩
  rintro ⟨points, encodes, chain⟩
  have halves : Encodes [0xd800, 0xdc00] [0xed, 0xa0, 0x80, 0xed, 0xb0, 0x80] :=
    ⟨by simp [IsPoint], by decide⟩
  rw [encodes_unique encodes halves] at chain
  exact (List.isChain_cons_cons.mp chain).1 ⟨by simp [IsHigh], by simp [IsLow]⟩

end Yazi.Shim
