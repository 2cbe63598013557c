import Yazi.Shared.Utf8

/-!
Texts that are valid UTF-8, and what is made of those that are not.

`String::from_utf8_lossy` replaces what starts no character by U+FFFD, once for each longest
piece that could have gone on to one.
-/
namespace Yazi.Shared

/-- `String` and `str`. -/
structure Text where
  bytes : Bytes
  valid : Utf8.isUtf8 bytes = true
  deriving DecidableEq

instance : Inhabited Text := ⟨[], rfl⟩

namespace Utf8

/-! ### Decoding the first character -/

/-- The value of a character's bytes. -/
def scalar : Bytes → Nat
  | [a] => a.toNat
  | [a, b] => (a.toNat % 0x20) * 0x40 + b.toNat % 0x40
  | [a, b, c] => ((a.toNat % 0x10) * 0x40 + b.toNat % 0x40) * 0x40 + c.toNat % 0x40
  | [a, b, c, d] =>
    (((a.toNat % 0x08) * 0x40 + b.toNat % 0x40) * 0x40 + c.toNat % 0x40) * 0x40 + d.toNat % 0x40
  | _ => 0

/-- `char::from_u32` -/
def charOf (n : Nat) : Option Char := if n.isValidChar then some (Char.ofNat n) else none

/-- `str::chars().next()` -/
def firstChar (s : Bytes) : Option Char :=
  match charLen s with
  | 0 => none
  | n + 1 => charOf (scalar (s.take (n + 1)))

/-! ### Lossy texts -/

/-- How many continuation bytes follow, the first one within bounds. -/
def countTails : Nat → UInt8 → UInt8 → Bytes → Nat
  | 0, _, _, _ => 0
  | _ + 1, _, _, [] => 0
  | n + 1, low, high, b :: rest => if low ≤ b ∧ b ≤ high then countTails n 0x80 0xbf rest + 1 else 0

/-- How many of the bytes that follow belong to the piece that is replaced. -/
def brokenTail (a : UInt8) (rest : Bytes) : Nat :=
  if 0xc2 ≤ a ∧ a ≤ 0xdf then countTails 1 0x80 0xbf rest
  else if 0xe0 ≤ a ∧ a ≤ 0xef then
    countTails 2 (if a = 0xe0 then 0xa0 else 0x80) (if a = 0xed then 0x9f else 0xbf) rest
  else if 0xf0 ≤ a ∧ a ≤ 0xf4 then
    countTails 3 (if a = 0xf0 then 0x90 else 0x80) (if a = 0xf4 then 0x8f else 0xbf) rest
  else 0

/-- U+FFFD -/
def replacement : Bytes := [0xef, 0xbf, 0xbd]

/-- The first bytes are kept, and some more are dropped. -/
def lossyFrom : Nat → Nat → Bytes → Bytes
  | _, _, [] => []
  | keep + 1, drop, b :: rest => b :: lossyFrom keep drop rest
  | 0, drop + 1, _ :: rest => lossyFrom 0 drop rest
  | 0, 0, b :: rest =>
    match charLen (b :: rest) with
    | 0 => replacement ++ lossyFrom 0 (brokenTail b rest) rest
    | n + 1 => b :: lossyFrom n 0 rest

theorem lossyFrom_take (keep drop : Nat) (s : Bytes) :
    (lossyFrom keep drop s).take keep = s.take keep := by
  induction s generalizing keep with
  | nil => rw [lossyFrom]
  | cons b rest ih =>
    cases keep with
    | zero => rw [List.take_zero, List.take_zero]
    | succ keep => rw [lossyFrom, List.take_succ_cons, List.take_succ_cons, ih]

/-- Only so many bytes are looked at. -/
theorem tails_of_take {n : Nat} {low high : UInt8} {s t : Bytes} (same : s.take n = t.take n)
    (follow : tails n low high s = true) : tails n low high t = true := by
  induction n generalizing low high s t with
  | zero => rfl
  | succ n ih =>
    cases s with
    | nil => cases follow
    | cons b s =>
      cases t with
      | nil => cases same
      | cons c t =>
        rw [List.take_succ_cons, List.take_succ_cons] at same
        obtain ⟨rfl, rest⟩ := List.cons.inj same
        simp only [tails, Bool.and_eq_true] at follow ⊢
        exact ⟨follow.1, ih rest follow.2⟩

theorem charLen_of_take {a : UInt8} {n : Nat} {s t : Bytes} (len : charLen (a :: s) = n + 1)
    (same : s.take n = t.take n) : charLen (a :: t) = n + 1 := by
  by_cases one : a ≤ 0x7f
  · rw [charLen, if_pos one] at len ⊢
    exact len
  by_cases two : 0xc2 ≤ a ∧ a ≤ 0xdf ∧ tails 1 0x80 0xbf s = true
  · rw [charLen, if_neg one, if_pos two] at len
    cases len
    rw [charLen, if_neg one, if_pos ⟨two.1, two.2.1, tails_of_take same two.2.2⟩]
  by_cases three : 0xe0 ≤ a ∧ a ≤ 0xef ∧
      tails 2 (if a = 0xe0 then 0xa0 else 0x80) (if a = 0xed then 0x9f else 0xbf) s = true
  · rw [charLen, if_neg one, if_neg two, if_pos three] at len
    cases len
    have above : ¬ a ≤ 0xdf := fun below => absurd (UInt8.le_trans three.1 below) (by decide)
    rw [charLen, if_neg one, if_neg fun two => above two.2.1,
      if_pos ⟨three.1, three.2.1, tails_of_take same three.2.2⟩]
  by_cases four : 0xf0 ≤ a ∧ a ≤ 0xf4 ∧
      tails 3 (if a = 0xf0 then 0x90 else 0x80) (if a = 0xf4 then 0x8f else 0xbf) s = true
  · rw [charLen, if_neg one, if_neg two, if_neg three, if_pos four] at len
    cases len
    have above : ¬ a ≤ 0xef := fun below => absurd (UInt8.le_trans four.1 below) (by decide)
    have above' : ¬ a ≤ 0xdf := fun below => above (UInt8.le_trans below (by decide))
    rw [charLen, if_neg one, if_neg fun two => above' two.2.1, if_neg fun three => above three.2.1,
      if_pos ⟨four.1, four.2.1, tails_of_take same four.2.2⟩]
  rw [charLen, if_neg one, if_neg two, if_neg three, if_neg four] at len
  cases len

theorem marks_replacement (s : Bytes) :
    marks 0 (replacement ++ s) = replacement.map (true, ·) ++ marks 0 s := rfl

theorem marks_lossyFrom (keep drop : Nat) (s : Bytes) :
    (marks keep (lossyFrom keep drop s)).all (·.1) = true := by
  induction s generalizing keep drop with
  | nil =>
    cases keep <;> rfl
  | cons b rest ih =>
    cases keep with
    | succ keep => exact ih keep drop
    | zero =>
      cases drop with
      | succ drop => exact ih 0 drop
      | zero =>
        rw [lossyFrom]
        split
        next broken =>
          rw [marks_replacement, List.all_append, ih]
          rfl
        next n len =>
          rw [marks, charLen_of_take len (lossyFrom_take n 0 rest).symm]
          exact ih n 0

/-- A valid text is left as it is. -/
theorem lossyFrom_of_marks {keep : Nat} {s : Bytes} (valid : (marks keep s).all (·.1) = true) :
    lossyFrom keep 0 s = s := by
  induction s generalizing keep with
  | nil => rw [lossyFrom]
  | cons b rest ih =>
    cases keep with
    | succ keep => rw [lossyFrom, ih valid]
    | zero =>
      rw [marks] at valid
      rw [lossyFrom]
      cases len : charLen (b :: rest) with
      | zero =>
        rw [len] at valid
        cases valid
      | succ n =>
        rw [len] at valid
        exact congrArg (b :: ·) (ih valid)

end Utf8

namespace Text

/-- `String::from_utf8` -/
def ofUtf8 (s : Bytes) : Option Text := if valid : Utf8.isUtf8 s = true then some ⟨s, valid⟩ else none

/-- `String::from_utf8_lossy` -/
def fromUtf8Lossy (s : Bytes) : Text := ⟨Utf8.lossyFrom 0 0 s, Utf8.marks_lossyFrom 0 0 s⟩

/-- Nothing is lost of a valid text. -/
theorem fromUtf8Lossy_bytes (t : Text) : fromUtf8Lossy t.bytes = t := by
  obtain ⟨bytes, valid⟩ := t
  have same := Utf8.lossyFrom_of_marks valid
  rw [fromUtf8Lossy]
  congr 1

example : (fromUtf8Lossy [0x61, 0xe2, 0x82, 0x41, 0xff, 0xc3, 0xa9]).bytes =
    [0x61, 0xef, 0xbf, 0xbd, 0x41, 0xef, 0xbf, 0xbd, 0xc3, 0xa9] := by decide

end Text

end Yazi.Shared
