import Yazi.Shared.Path

/-!
UTF-8, as `<[u8]>::utf8_chunks` sees it: which bytes of a text belong to characters.

An invalid sequence is a leading byte with the continuation bytes that could follow it. Those
start no character, so every byte of it is invalid on its own.
-/
namespace Yazi.Shared.Utf8

/-- Continuation bytes follow, the first one within bounds. -/
def tails : Nat → UInt8 → UInt8 → Bytes → Bool
  | 0, _, _, _ => true
  | _ + 1, _, _, [] => false
  | n + 1, low, high, b :: rest => low ≤ b && b ≤ high && tails n 0x80 0xbf rest

/-- The length of the character that a text starts with, zero where it starts with none. -/
def charLen : Bytes → Nat
  | [] => 0
  | a :: rest =>
    if a ≤ 0x7f then 1
    else if 0xc2 ≤ a ∧ a ≤ 0xdf ∧ tails 1 0x80 0xbf rest then 2
    else if 0xe0 ≤ a ∧ a ≤ 0xef ∧
        tails 2 (if a = 0xe0 then 0xa0 else 0x80) (if a = 0xed then 0x9f else 0xbf) rest then 3
    else if 0xf0 ≤ a ∧ a ≤ 0xf4 ∧
        tails 3 (if a = 0xf0 then 0x90 else 0x80) (if a = 0xf4 then 0x8f else 0xbf) rest then 4
    else 0

/-- The bytes, each with whether it belongs to a character; the first `n` are known to. -/
def marks : Nat → Bytes → List (Bool × UInt8)
  | _, [] => []
  | n + 1, b :: rest => (true, b) :: marks n rest
  | 0, b :: rest =>
    match charLen (b :: rest) with
    | 0 => (false, b) :: marks 0 rest
    | n + 1 => (true, b) :: marks n rest

def chunks (s : Bytes) : List (Bool × UInt8) := marks 0 s

/-- `str::from_utf8` succeeds. -/
def isUtf8 (s : Bytes) : Bool := (chunks s).all (·.1)

theorem marks_map_snd (n : Nat) (s : Bytes) : (marks n s).map (·.2) = s := by
  induction s generalizing n with
  | nil => cases n <;> rfl
  | cons b rest ih =>
    cases n with
    | succ n => simp [marks, ih]
    | zero =>
      simp only [marks]
      split <;> simp [ih]

@[simp] theorem chunks_map_snd (s : Bytes) : (chunks s).map (·.2) = s := marks_map_snd 0 s

/-- Invalid bytes are not ASCII. -/
theorem valid_of_ascii {n : Nat} {s : Bytes} {mark : Bool × UInt8} (member : mark ∈ marks n s)
    (ascii : mark.2 ≤ 0x7f) : mark.1 = true := by
  induction s generalizing n with
  | nil => cases n <;> cases member
  | cons b rest ih =>
    cases n with
    | succ n =>
      rcases List.mem_cons.mp member with rfl | later
      · rfl
      · exact ih later
    | zero =>
      simp only [marks] at member
      split at member
      · next none =>
        rcases List.mem_cons.mp member with rfl | later
        · simp [charLen, ascii] at none
        · exact ih later
      · rcases List.mem_cons.mp member with rfl | later
        · rfl
        · exact ih later

example : (chunks [0x61, 0xe2, 0x82, 0x41, 0xc3, 0xa9]).map (·.1) =
    [true, false, false, true, true, true] := by decide

end Yazi.Shared.Utf8
