import Yazi.Base.Reader
import Yazi.Shared.Numeral
import Yazi.Shared.Percent

/-!
The escapes of wire data. An escaped text has no `/` and no `%`, so it can stand inside a url.
-/
namespace Yazi.Shared.Twiddle

def tilde : UInt8 := 0x7e

/-- `Twiddle::encode_byte`. -/
def encodeByte (b : UInt8) : Bytes :=
  if b = 0x2f then [tilde, 0x73]
  else if b = 0x25 then [tilde, 0x70]
  else if b = tilde then [tilde, tilde]
  else [tilde, Percent.digit (b >>> 4), Percent.digit (b &&& 0xf)]

/-- `Twiddle::len_escape`. -/
def lenEscape (b : UInt8) : Nat :=
  if b = 0x2f ∨ b = 0x25 ∨ b = tilde then 2 else if b ≤ 0x1f ∨ b = 0x7f then 3 else 1

def encodeChar (b : UInt8) : Bytes := if lenEscape b = 1 then [b] else encodeByte b

/-- `Twiddle::encode` of a text. -/
def encode (s : Bytes) : Bytes := s.flatMap encodeChar

def encodeMark (mark : Bool × UInt8) : Bytes :=
  if mark.1 then encodeChar mark.2 else encodeByte mark.2

def encodeBytes (s : Bytes) : Bytes := (Utf8.chunks s).flatMap encodeMark

/-- `Twiddle::len_bytes`. -/
def lenBytes (s : Bytes) : Nat :=
  ((Utf8.chunks s).map fun mark => if mark.1 then lenEscape mark.2 else 3).sum

def hex (b : UInt8) : Except Error UInt8 :=
  if 0x30 ≤ b ∧ b ≤ 0x39 then .ok (b - 0x30)
  else if 0x41 ≤ b ∧ b ≤ 0x46 then .ok (b - 0x41 + 10)
  else .error (.text "invalid twiddle data")

def decode : Bytes → Except Error Bytes
  | [] => .ok []
  | b :: rest =>
    if b ≠ tilde then (b :: ·) <$> decode rest
    else
      match rest with
      | [] => .error (.text "truncated twiddle data")
      | code :: tail =>
        if code = tilde then (tilde :: ·) <$> decode tail
        else if code = 0x73 then (0x2f :: ·) <$> decode tail
        else if code = 0x70 then (0x25 :: ·) <$> decode tail
        else
          match tail with
          | [] => .error (.text "truncated twiddle data")
          | low :: tail =>
            match hex code, hex low with
            | .error e, _ => .error e
            | .ok _, .error e => .error e
            | .ok code, .ok low => ((code <<< 4 ||| low) :: ·) <$> decode tail

private theorem hex_digit (b : UInt8) :
    hex (Percent.digit (b >>> 4)) = .ok (b >>> 4) ∧ hex (Percent.digit (b &&& 0xf)) = .ok (b &&& 0xf) ∧
      (b >>> 4) <<< 4 ||| (b &&& 0xf) = b ∧
      Percent.digit (b >>> 4) ≠ tilde ∧ Percent.digit (b >>> 4) ≠ 0x73 ∧
      Percent.digit (b >>> 4) ≠ 0x70 := by
  revert b
  exact forall_byte (by decide +kernel)

theorem decode_encodeByte (b : UInt8) (rest : Bytes) :
    decode (encodeByte b ++ rest) = (b :: ·) <$> decode rest := by
  simp only [encodeByte]
  split
  · next slash =>
    subst slash
    rw [List.cons_append, decode.eq_def]
    rfl
  · split
    · next percent =>
      subst percent
      rw [List.cons_append, decode.eq_def]
      rfl
    · split
      · next same =>
        subst same
        rw [List.cons_append, decode.eq_def]
        rfl
      · obtain ⟨high, low, whole, h1, h2, h3⟩ := hex_digit b
        simp only [List.cons_append, List.nil_append]
        rw [decode.eq_def]
        simp only [ne_eq, not_true, if_false, h1, h2, h3, high, low, whole]

theorem decode_encodeChar (b : UInt8) (rest : Bytes) :
    decode (encodeChar b ++ rest) = (b :: ·) <$> decode rest := by
  simp only [encodeChar]
  split
  · next plain =>
    have other : b ≠ tilde := by
      rintro rfl
      cases plain
    rw [List.cons_append, decode.eq_def]
    simp only [if_pos other, List.nil_append]
  · exact decode_encodeByte b rest

@[simp] theorem decode_encode (s : Bytes) : decode (encode s) = .ok s := by
  have whole := Base.decode_flatMap decode_encodeChar s []
  rw [List.append_nil, List.map_id'] at whole
  rw [encode, whole]
  change Except.ok (s ++ []) = _
  rw [List.append_nil]

@[simp] theorem decode_encodeBytes (s : Bytes) : decode (encodeBytes s) = .ok s := by
  have each : ∀ (mark : Bool × UInt8) rest,
      decode (encodeMark mark ++ rest) = (mark.2 :: ·) <$> decode rest := by
    intro mark rest
    simp only [encodeMark]
    split
    · exact decode_encodeChar mark.2 rest
    · exact decode_encodeByte mark.2 rest
  have whole := Base.decode_flatMap each (Utf8.chunks s) []
  rw [List.append_nil, Utf8.chunks_map_snd] at whole
  rw [encodeBytes, whole]
  change Except.ok (s ++ []) = _
  rw [List.append_nil]

private theorem length_encodeChar (b : UInt8) : (encodeChar b).length = lenEscape b := by
  revert b
  exact forall_byte (by decide +kernel)

/-- The length that is written in front of the bytes is their length. -/
theorem length_encodeBytes (s : Bytes) : (encodeBytes s).length = lenBytes s := by
  rw [encodeBytes, lenBytes, List.length_flatMap]
  congr 1
  refine List.map_congr_left fun mark member => ?_
  simp only [encodeMark]
  split
  · exact length_encodeChar mark.2
  · next invalid =>
    have wide : ¬mark.2 ≤ 0x7f := fun ascii => invalid (Utf8.valid_of_ascii member ascii)
    have each : ∀ b : UInt8, ¬b ≤ 0x7f → (encodeByte b).length = 3 :=
      forall_byte (by decide +kernel)
    exact each mark.2 wide

private theorem short_cons {x : Except Error Bytes} {n m : Nat}
    (short : Base.Yields x (· ≠ .depth) (·.length ≤ n)) (b : UInt8) (more : n < m) :
    Base.Yields ((b :: ·) <$> x) (· ≠ .depth) (·.length ≤ m) := by
  cases x with
  | error e => exact short
  | ok out => exact Nat.le_trans (Nat.succ_le_succ short) more

private theorem hex_fails {b : UInt8} {e : Error} (fails : hex b = .error e) : e ≠ .depth := by
  simp only [hex] at fails
  split at fails
  · cases fails
  · split at fails <;> cases fails
    simp

/-- Decoding never lengthens a text, and fails for no reason but the escapes. -/
theorem decode_short (s : Bytes) :
    Base.Yields (decode s) (· ≠ .depth) (·.length ≤ s.length) := by
  fun_induction decode s with
  | case1 => exact Nat.le_refl _
  | case2 b rest other ih => exact short_cons ih b (Nat.lt_succ_self _)
  | case3 b escape => exact Error.noConfusion
  | case4 b escape tail ih => exact short_cons ih tilde (by simp only [List.length_cons]; omega)
  | case5 b escape tail h1 ih => exact short_cons ih 0x2f (by simp only [List.length_cons]; omega)
  | case6 b escape tail h1 h2 ih =>
    exact short_cons ih 0x25 (by simp only [List.length_cons]; omega)
  | case7 => exact Error.noConfusion
  | case8 b escape code h1 h2 h3 low tail e fails => exact hex_fails fails
  | case9 b escape code h1 h2 h3 low tail a e fails => exact hex_fails fails
  | case10 b escape code h1 h2 h3 low tail high low' h4 h5 ih =>
    exact short_cons ih _ (by simp only [List.length_cons]; omega)

end Yazi.Shared.Twiddle
