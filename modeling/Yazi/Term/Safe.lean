import Yazi.Term.Parser

/-!
Which sequences are parsed without a panic.

A sequence that is long enough for what led into its state is, whatever it consists of. So is no
chunk that is shorter than its first one can be.
-/
namespace Yazi.Term
open Yazi.Base Yazi.Shared

/-! ### What does not panic -/

def Safe {α : Type} (x : Parsed α) : Prop := x ≠ .error .panic

section Safe

variable {α β : Type}

@[simp] theorem safe_ok (a : α) : Safe (.ok a : Parsed α) := nofun

@[simp] theorem safe_error (e : ParseError) : Safe (.error (.error e) : Parsed α) := nofun

@[simp] theorem safe_bail : Safe (bail : Parsed α) := nofun

@[simp] theorem safe_orInvalid (a : Option α) : Safe (orInvalid a) := by
  cases a with
  | none => exact safe_bail
  | some a => exact safe_ok a

/-- What goes on with a result may rely on it. -/
@[simp] theorem safe_bind (x : Parsed α) (f : α → Parsed β) :
    Safe (x >>= f) ↔ Safe x ∧ ∀ a, x = .ok a → Safe (f a) := by
  cases x with
  | error fault =>
    constructor
    · intro safe
      refine ⟨?_, nofun⟩
      rintro ⟨⟩
      exact safe rfl
    · rintro ⟨safe, -⟩ panics
      cases panics
      exact safe rfl
  | ok a =>
    constructor
    · intro safe
      refine ⟨safe_ok a, ?_⟩
      rintro _ ⟨⟩
      exact safe
    · rintro ⟨-, safe⟩
      exact safe a rfl

@[simp] theorem safe_map (f : α → β) (x : Parsed α) : Safe (f <$> x) ↔ Safe x := by
  cases x with
  | error fault =>
    constructor
    · rintro safe ⟨⟩
      exact safe rfl
    · rintro safe ⟨⟩
      exact safe rfl
  | ok a => exact ⟨fun _ => safe_ok a, fun _ => safe_ok (f a)⟩

@[simp] theorem safe_except_map (f : α → β) (x : Parsed α) : Safe (x.map f) ↔ Safe x := safe_map f x

@[simp] theorem safe_ite (c : Prop) [Decidable c] (x y : Parsed α) :
    Safe (if c then x else y) ↔ (c → Safe x) ∧ (¬c → Safe y) := by
  split
  next holds => simp [holds]
  next fails => simp [fails]

theorem safe_mapM {f : α → Parsed β} (each : ∀ a, Safe (f a)) (as : List α) : Safe (as.mapM f) := by
  induction as with
  | nil => exact safe_ok []
  | cons a as ih =>
    rw [List.mapM_cons]
    simp [each a, ih, pure, Except.pure]

theorem safe_foldlM {f : β → α → Parsed β} (each : ∀ b a, Safe (f b a)) (b : β) (as : List α) :
    Safe (as.foldlM f b) := by
  induction as generalizing b with
  | nil => exact safe_ok b
  | cons a as ih =>
    rw [List.foldlM_cons]
    simp [each b a, ih]

theorem minus_eq {a b : Nat} (le : b ≤ a) : minus a b = .ok (a - b) := if_pos le

theorem subslice_eq {seq : Bytes} {start stop : Nat} (inside : start ≤ stop ∧ stop ≤ seq.length) :
    subslice seq start stop = .ok ((seq.take stop).drop start) := if_pos inside

/-- What is sliced decides about all that is done with it. -/
theorem safe_of_subslice {seq : Bytes} {start stop : Nat} {f : Bytes → Parsed α}
    (safe : ∀ s, Safe (f s)) :
    Safe (subslice seq start stop >>= f) ↔ start ≤ stop ∧ stop ≤ seq.length := by
  constructor
  · intro whole
    by_contra outside
    rw [subslice, if_neg outside] at whole
    exact whole rfl
  · intro inside
    rw [subslice_eq inside]
    exact safe _

theorem safe_subslice {seq : Bytes} {start stop : Nat} (inside : start ≤ stop ∧ stop ≤ seq.length) :
    Safe (subslice seq start stop) := by
  rw [subslice_eq inside]
  exact safe_ok _

theorem safe_index {seq : Bytes} {i : Nat} (inside : i < seq.length) : Safe (index seq i) := by
  rw [index, List.getElem?_eq_getElem inside]
  exact safe_ok _

end Safe

/-! ### Numbers and names -/

@[simp] theorem safe_utf8 (s : Bytes) : Safe (utf8 s) := by
  simp [utf8]

@[simp] theorem safe_parseUint (bits : Nat) (s : Bytes) : Safe (parseUint bits s) := by
  rw [parseUint]
  split
  · simp
  · exact safe_bail

@[simp] theorem safe_parseI32 (s : Bytes) : Safe (parseI32 s) := by
  unfold parseI32
  split <;> simp

@[simp] theorem safe_next (parts : List Bytes) (i : Nat) : Safe (next parts i) := safe_orInvalid _

@[simp] theorem safe_parseNext (bits : Nat) (parts : List Bytes) (i : Nat) :
    Safe (parseNext bits parts i) := by
  simp [parseNext]

@[simp] theorem safe_checkedSub (n a : Nat) : Safe (checkedSub n a) := by
  simp [checkedSub]

@[simp] theorem safe_fromVtCode (code : Nat) : Safe (KeyEventKind.fromVtCode code) := by
  unfold KeyEventKind.fromVtCode
  split <;> simp

@[simp] theorem safe_fromXtermModifier (final : UInt8) : Safe (KeyCode.fromXtermModifier final) := by
  unfold KeyCode.fromXtermModifier
  split <;> simp

@[simp] theorem safe_fromCodepoint (codepoint : Nat) : Safe (KeyCode.fromCodepoint codepoint) := by
  rw [KeyCode.fromCodepoint]
  split
  · simp
  · simp

@[simp] theorem safe_fromCb (cb : UInt8) : Safe (MouseEventKind.fromCb cb) := by
  rw [MouseEventKind.fromCb, safe_except_map]
  unfold MouseEventKind.ofButton
  split <;> simp

@[simp] theorem safe_specialKey (first : Nat) : Safe (specialKey first) := by
  simp [specialKey]

@[simp] theorem safe_parseMks (s : Bytes) : Safe (parseMks s) := by
  simp [parseMks, parseKind, parseMask]

@[simp] theorem safe_parseChar (s : Option Bytes) : Safe (parseChar s) := by
  unfold parseChar
  split <;> simp

/-! ### CSI -/

section Csi

variable {seq : Bytes}

theorem minus_one (long : 2 < seq.length) : minus seq.length 1 = .ok (seq.length - 1) :=
  minus_eq (by omega)

/-- What is between the two bytes that lead in and the last one. -/
theorem safe_body (long : 2 < seq.length) : Safe (subslice seq 2 (seq.length - 1)) :=
  safe_subslice (by omega)

theorem safe_last (long : 2 < seq.length) : Safe (index seq (seq.length - 1)) :=
  safe_index (by omega)

theorem safe_parseCsiUKey (long : 2 < seq.length) : Safe (parseCsiUKey seq) := by
  simp [parseCsiUKey, minus_one long, safe_body long]

theorem safe_parseCsiModifierKey (long : 2 < seq.length) : Safe (parseCsiModifierKey seq) := by
  simp [parseCsiModifierKey, minus_one long, safe_body long, safe_last long]

theorem safe_parseCsiModifierLegacyKey (long : 2 < seq.length) :
    Safe (parseCsiModifierLegacyKey seq) := by
  simp [parseCsiModifierLegacyKey, minus_one long, safe_body long, safe_last long]

theorem safe_parseCsiSpecialKey (long : 2 < seq.length) : Safe (parseCsiSpecialKey seq) := by
  simp [parseCsiSpecialKey, minus_one long, safe_body long]

theorem safe_parseCsiRxvtMouse (long : 2 < seq.length) : Safe (parseCsiRxvtMouse seq) := by
  simp [parseCsiRxvtMouse, minus_one long, safe_body long]

theorem safe_parseCsiNormalMouse (seq : Bytes) : Safe (parseCsiNormalMouse seq) := by
  rw [parseCsiNormalMouse, safe_ite]
  refine ⟨fun _ => safe_error _, fun whole => ?_⟩
  have third : Safe (index seq 3) := safe_index (by omega)
  have fourth : Safe (index seq 4) := safe_index (by omega)
  have fifth : Safe (index seq 5) := safe_index (by omega)
  simp [third, fourth, fifth]

/-- The last byte is not the one that leads in. -/
theorem safe_parseCsiSgrMouse (first : seq[2]? = some 0x3c) : Safe (parseCsiSgrMouse seq) := by
  unfold parseCsiSgrMouse
  split
  next last last_eq =>
    rw [safe_ite]
    refine ⟨fun button => ?_, fun _ => safe_error _⟩
    obtain ⟨long, -⟩ := List.getElem?_eq_some_iff.mp first
    have longer : seq.length ≠ 3 := by
      intro three
      rw [List.getLast?_eq_getElem?, three, first] at last_eq
      cases last_eq
      revert button
      decide
    have body : Safe (subslice seq 3 (seq.length - 1)) := safe_subslice (by omega)
    simp [minus_one long, body]
  next => exact safe_error _

@[simp] theorem safe_parseAttributes (mid : Bytes) : Safe (parseAttributes mid) := by
  simp [parseAttributes, safe_mapM (safe_parseUint 16)]

@[simp] theorem safe_parseCellSize (mid : Bytes) : Safe (parseCellSize mid) := by
  simp [parseCellSize]

@[simp] theorem safe_parseMode (mid : Bytes) : Safe (parseMode mid) := by
  unfold parseMode
  split
  · simp [blinks]
  · split <;> simp

theorem safe_parseCsiReport (long : 2 < seq.length) : Safe (parseCsiReport seq) := by
  simp only [parseCsiReport, safe_bind, safe_orInvalid, minus_one long, safe_ok, safe_map, true_and]
  intro first _ stop _ mid _ last _
  split <;> simp [parseColorScheme]

theorem safe_parseCsiNumber (long : 2 < seq.length) (last : UInt8) :
    Safe (parseCsiNumber seq last) := by
  rw [parseCsiNumber, safe_ite]
  refine ⟨fun _ => safe_error _, fun _ => ?_⟩
  split
  · exact safe_parseCsiRxvtMouse long
  · exact safe_parseCsiUKey long
  · exact safe_parseCsiSpecialKey long
  · exact safe_parseCsiReport long
  · exact safe_parseCsiReport long
  · exact safe_error _
  · rw [safe_ite]
    exact ⟨fun _ => safe_parseCsiModifierKey long, fun _ => safe_parseCsiModifierLegacyKey long⟩

theorem safe_parseCsiAnswer (long : 2 < seq.length) (last : UInt8) :
    Safe (parseCsiAnswer seq last) := by
  unfold parseCsiAnswer
  split
  · exact safe_parseCsiReport long
  · exact safe_parseCsiReport long
  · exact safe_parseCsiReport long
  · exact safe_parseCsiReport long
  · exact safe_bail

theorem safe_parseCsiShape (long : 2 < seq.length) : Safe (parseCsiShape seq) := by
  have two : minus seq.length 2 = .ok (seq.length - 2) := minus_eq (by omega)
  have tail : Safe (subslice seq (seq.length - 2) seq.length) := safe_subslice (by omega)
  simp [parseCsiShape, two, tail]

@[simp] theorem safe_parseCsiLinux (second : Option UInt8) : Safe (parseCsiLinux second) := by
  cases second <;> simp [parseCsiLinux]

/-- A CSI sequence that has come to its last byte is parsed without a panic. -/
theorem safe_parseCsi (long : 2 < seq.length) : Safe (parseCsi seq) := by
  rw [parseCsi, safe_ite]
  refine ⟨fun _ => safe_error _, fun _ => ?_⟩
  simp only [safe_bind, minus_one long, safe_ok, safe_index long, safe_last long, true_and,
    Except.ok.injEq, forall_eq']
  intro first first_eq last _
  split
  · exact safe_parseCsiLinux _
  iterate 7 exact safe_ok _
  · exact safe_parseCsiNormalMouse seq
  next third =>
    have angle : first = 0x3c := UInt8.toNat_inj.mp (congrArg Char.toNat third)
    rw [index, List.getElem?_eq_getElem long] at first_eq
    apply safe_parseCsiSgrMouse
    rw [List.getElem?_eq_getElem long, ← angle]
    exact congrArg some (Except.ok.inj first_eq)
  iterate 2 exact safe_ok _
  · exact safe_parseCsiModifierKey long
  iterate 3 exact safe_ok _
  · exact safe_parseCsiAnswer long last
  · exact safe_parseCsiShape long
  · rw [safe_ite]
    exact ⟨fun _ => safe_parseCsiNumber long last, fun _ => safe_bail⟩

end Csi

/-! ### Strings -/

@[simp] theorem safe_cursorShape (body : Bytes) : Safe (cursorShape body) := by
  unfold cursorShape
  split <;> simp

@[simp] theorem safe_parseDcsReport (seq : Bytes) : Safe (parseDcsReport seq) := by
  simp only [parseDcsReport, safe_bind, safe_orInvalid, true_and]
  intro seq _
  split
  · simp
  · split <;> simp

theorem hexDigit_lt {b : UInt8} {d : Nat} (digit : hexDigit b = some d) : d < 16 := by
  simp only [hexDigit, UInt8.le_iff_toNat_le] at digit
  split at digit
  next decimal =>
    cases digit
    have bound : b.toNat ≤ 0x39 := decimal.2
    omega
  next =>
    split at digit
    next lower =>
      cases digit
      have bound : b.toNat ≤ 0x66 := lower.2
      omega
    next =>
      split at digit
      next upper =>
        cases digit
        have bound : b.toNat ≤ 0x46 := upper.2
        omega
      next => cases digit

theorem hexDigits_small {s : Bytes} {digits : List Nat} (all : s.mapM hexDigit = some digits) :
    digits.length = s.length ∧ ∀ d ∈ digits, d < 16 := by
  induction s generalizing digits with
  | nil =>
    cases all
    exact ⟨rfl, nofun⟩
  | cons b s ih =>
    rw [List.mapM_cons] at all
    obtain ⟨d, digit, all⟩ := Option.bind_eq_some_iff.mp all
    obtain ⟨rest, digits, ⟨⟩⟩ := Option.bind_eq_some_iff.mp all
    obtain ⟨length, small⟩ := ih digits
    constructor
    · rw [List.length_cons, List.length_cons, length]
    · intro x member
      rcases List.mem_cons.mp member with rfl | member
      · exact hexDigit_lt digit
      · exact small x member

theorem hexValue_lt {digits : List Nat} (small : ∀ d ∈ digits, d < 16) (n : Nat) :
    digits.foldl (fun n d => n * 16 + d) n < (n + 1) * 16 ^ digits.length := by
  induction digits generalizing n with
  | nil => simp
  | cons d digits ih =>
    have first : d < 16 := small d (List.mem_cons_self ..)
    have rest := ih (fun d member => small d (List.mem_cons_of_mem _ member)) (n * 16 + d)
    rw [List.foldl_cons, List.length_cons, Nat.pow_succ']
    calc
      _ < (n * 16 + d + 1) * 16 ^ digits.length := rest
      _ ≤ ((n + 1) * 16) * 16 ^ digits.length := Nat.mul_le_mul_right _ (by omega)
      _ = (n + 1) * (16 * 16 ^ digits.length) := Nat.mul_assoc ..

theorem unsigned_length_le (s : Bytes) : (Decimal.unsigned s).length ≤ s.length := by
  rw [Decimal.unsigned]
  split
  · rw [List.length_tail]
    exact Nat.sub_le ..
  · exact Nat.le_refl _

/-- A number of so many characters is no larger. -/
theorem parseHex_lt {s : Bytes} {n : Nat} (parsed : parseHex s = .ok n) : n < 16 ^ s.length := by
  unfold parseHex at parsed
  split at parsed
  next d ds digits =>
    obtain ⟨count, small⟩ := hexDigits_small digits
    have bound := hexValue_lt small 0
    rw [count, Nat.zero_add, Nat.one_mul] at bound
    dsimp only at parsed
    split at parsed
    · cases parsed
      exact Nat.lt_of_lt_of_le bound (Nat.pow_le_pow_right (by decide) (unsigned_length_le s))
    · cases parsed
  next => cases parsed

@[simp] theorem safe_parseHex (s : Bytes) : Safe (parseHex s) := by
  unfold parseHex
  split
  · simp
  · exact safe_bail

theorem safe_word {n : Nat} (fits : n < 2 ^ 16) : Safe (word n) := by
  rw [word, if_pos fits]
  exact safe_ok n

/-- The digits of a color are repeated within its sixteen bits. -/
@[simp] theorem safe_parseColor (s : Bytes) : Safe (parseColor s) := by
  simp only [parseColor, safe_bind, safe_parseHex, true_and]
  intro n parsed
  have bound := parseHex_lt parsed
  split
  next one =>
    rw [one] at bound
    exact safe_word (by omega)
  next two =>
    rw [two] at bound
    exact safe_word (by omega)
  · exact safe_ok _
  · exact safe_ok _
  · exact safe_bail

@[simp] theorem safe_parseOscReport (seq : Bytes) : Safe (parseOscReport seq) := by
  simp only [parseOscReport, stripOscTerminator, safe_bind, safe_orInvalid, true_and]
  intro seq _
  split
  · simp [parseBgRgb]
  · exact safe_bail

@[simp] theorem safe_parseApcReport (seq : Bytes) : Safe (parseApcReport seq) := by
  simp only [parseApcReport, safe_bind, safe_orInvalid, true_and]
  intro seq _
  split
  · simp
  · exact safe_bail

theorem safe_parsePaste {seq : Bytes} (whole : 12 ≤ seq.length) : Safe (parsePaste seq) := by
  have stop : minus seq.length 6 = .ok (seq.length - 6) := minus_eq (by omega)
  have content : Safe (subslice seq 6 (seq.length - 6)) := safe_subslice (by omega)
  simp [parsePaste, stop, content]

/-! ### Chunks -/

@[simp] theorem safe_chunkParts (body : Bytes) : Safe (chunkParts body) := by
  simp [chunkParts]

theorem safe_osc72Pair (s : StateOsc72) (part : Bytes) : Safe (osc72Pair s part) := by
  simp only [osc72Pair, safe_bind, safe_orInvalid, true_and]
  rintro ⟨key, v⟩ _
  simp

theorem safe_osc72Payload (payload : Bytes) (s : StateOsc72) : Safe (osc72Payload payload s) := by
  simp [osc72Payload]

theorem safe_osc5522Pair (lib : Library) (s : StateOsc5522) (part : Bytes) :
    Safe (osc5522Pair lib s part) := by
  simp only [osc5522Pair, safe_bind, safe_orInvalid, true_and]
  rintro ⟨key, v⟩ _
  simp [decodeText]

theorem safe_pushPayload (payload : Bytes) (s : StateOsc5522) : Safe (pushPayload payload s) := by
  rw [pushPayload, safe_ite]
  refine ⟨fun _ => safe_ok _, fun _ => ?_⟩
  split
  · exact safe_ok _
  · exact safe_bail

theorem safe_osc5522Payload (lib : Library) (payload : Bytes) (s : StateOsc5522) :
    Safe (osc5522Payload lib payload s) := by
  simp [osc5522Payload, safe_pushPayload]

/-- A chunk of OSC 72 is sliced between the five bytes of its start and the two of its end. -/
theorem safe_parseOsc72 {seq : Bytes} (ends : terminator <:+ seq) (s : StateOsc72) :
    Safe (parseOsc72 seq s) ↔ 7 ≤ seq.length := by
  have two : 2 ≤ seq.length := ends.length_le
  have rest : ∀ body, Safe (chunkParts body >>= fun parts =>
      (parts.1.splitOn 0x3a).foldlM osc72Pair { s with hasMore := false } >>=
        osc72Payload parts.2) := by
    intro body
    simp only [safe_bind, safe_chunkParts, true_and]
    rintro ⟨fields, payload⟩ _
    simp [safe_foldlM safe_osc72Pair, safe_osc72Payload]
  have whole : parseOsc72 seq s = subslice seq 5 (seq.length - 2) >>= fun body =>
      chunkParts body >>= fun parts =>
        (parts.1.splitOn 0x3a).foldlM osc72Pair { s with hasMore := false } >>=
          osc72Payload parts.2 := by
    rw [parseOsc72, minus_eq two]
    change (subslice seq 5 (seq.length - 2) >>= chunkParts) >>= _ = _
    rw [bind_assoc]
  rw [whole, safe_of_subslice rest]
  omega

/-- A chunk of OSC 5522 is sliced behind the seven bytes of its start, once it has lost its end. -/
theorem safe_parseOsc5522 (lib : Library) (seq : Bytes) (s : StateOsc5522) :
    Safe (parseOsc5522 lib seq s) ↔ ∀ body, stripOscTerminator seq = .ok body → 7 ≤ body.length := by
  have rest : ∀ body, Safe (chunkParts body >>= fun parts =>
      (parts.1.splitOn 0x3a).foldlM (osc5522Pair lib) { s with status := [], hasMore := false } >>=
        osc5522Payload lib parts.2) := by
    intro body
    simp only [safe_bind, safe_chunkParts, true_and]
    rintro ⟨fields, payload⟩ _
    simp [safe_foldlM (safe_osc5522Pair lib), safe_osc5522Payload]
  have whole : parseOsc5522 lib seq s = stripOscTerminator seq >>= fun seq =>
      subslice seq 7 seq.length >>= fun body =>
        chunkParts body >>= fun parts =>
          (parts.1.splitOn 0x3a).foldlM (osc5522Pair lib) { s with status := [], hasMore := false } >>=
            osc5522Payload lib parts.2 := by
    rw [parseOsc5522]
    congr 1
    funext seq
    rw [← bind_assoc]
  have strip : Safe (stripOscTerminator seq) := safe_orInvalid _
  simp only [whole, safe_bind (stripOscTerminator seq), strip, true_and, safe_of_subslice rest,
    Nat.le_refl, and_true]

end Yazi.Term
