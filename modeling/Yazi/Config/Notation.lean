import Mathlib
import Yazi.Config.Key

/-!
The round trip of the notation of keys.

Every key read is one of three kinds: a plain character, a character chosen between the brackets,
or a named key. A kind fixes how shift and the case of the character hang together, and that is
what the text displayed leaves out.
-/
namespace Yazi.Config
open Term

-- ═══════════════════════════════════════════════════════════════
-- The table of names
-- ═══════════════════════════════════════════════════════════════

theorem long_of_names : ∀ p ∈ names, 2 ≤ p.1.length ∧ p.2 ≠ .null := by
  decide +kernel

theorem codeOf_codeText : ∀ p ∈ names,
    codeOf ((Key.codeText p.2).map Char.toLower) = some p.2 ∧ '-' ∉ Key.codeText p.2 ∧
      '-' ∉ (Key.codeText p.2).map Char.toLower ∧ Key.codeText p.2 ≠ [] := by
  decide +kernel

theorem char_of_names : ∀ p ∈ names, ∀ c, p.2 = .char c → c = ' ' := by
  simp [names]

def Named (code : KeyCode) : Prop := ∃ name, (name, code) ∈ names

theorem listed_of_codeOf (found : codeOf name = some code) : (name, code) ∈ names := by
  simp only [codeOf, Option.map_eq_some_iff] at found
  obtain ⟨⟨n, k⟩, listed, rfl⟩ := found
  have same := List.find?_some listed
  simp only [decide_eq_true_eq] at same
  exact same ▸ List.mem_of_find?_eq_some listed

/-- A single character names no key. -/
theorem codeOf_single (c : Char) : codeOf [c] = none := by
  cases found : codeOf [c] with
  | none => rfl
  | some code => simpa using (long_of_names _ (listed_of_codeOf found)).1

theorem Named.ne_null (named : Named code) : code ≠ .null := by
  obtain ⟨name, listed⟩ := named
  exact (long_of_names _ listed).2

-- ═══════════════════════════════════════════════════════════════
-- Pieces between the dashes
-- ═══════════════════════════════════════════════════════════════

theorem splitInclusive_cons (c : Char) (s : List Char) :
    splitInclusive (c :: s) =
      if c = '-' then [c] :: splitInclusive s
      else
        match splitInclusive s with
        | [] => [[c]]
        | piece :: pieces => (c :: piece) :: pieces := rfl

theorem splitInclusive_nil : splitInclusive [] = [] := rfl

theorem splitInclusive_of_dashless {s : List Char} (dashless : '-' ∉ s) (filled : s ≠ []) :
    splitInclusive s = [s] := by
  induction s with
  | nil => contradiction
  | cons c s ih =>
    simp only [List.mem_cons, not_or] at dashless
    rw [splitInclusive_cons, if_neg (Ne.symm dashless.1)]
    cases s with
    | nil => rfl
    | cons d s => simp [ih dashless.2]

theorem splitInclusive_single (c : Char) : splitInclusive [c] = [[c]] := by
  by_cases dash : c = '-' <;> simp [splitInclusive_cons, splitInclusive_nil, dash]

theorem splitInclusive_modifier {m : Char} (other : m ≠ '-') (s : List Char) :
    splitInclusive (m :: '-' :: s) = [m, '-'] :: splitInclusive s := by
  simp [splitInclusive_cons, other]

namespace Key
variable {table : Char → Bool}

theorem isUppercase_space : isUppercase table ' ' = false := by
  simp [isUppercase]

theorem impliesShift_of_named (named : Named k) : impliesShift table k = false := by
  obtain ⟨name, listed⟩ := named
  cases held : k with
  | char c =>
    have blank := char_of_names _ listed c held
    simp [impliesShift, blank, isUppercase_space]
  | _ => rfl

-- ═══════════════════════════════════════════════════════════════
-- The kinds of keys read
-- ═══════════════════════════════════════════════════════════════

/-- A character given without brackets. -/
def Typed (table : Char → Bool) (key : Key) : Prop :=
  ∃ c, key = { code := .char c, shift := isUppercase table c }

/-- A character given between brackets. -/
def Chosen (table : Char → Bool) (key : Key) : Prop :=
  ∃ c, key.code = .char c ∧ (key.shift = true → c.toUpper = c) ∧
    (key.shift = false → isUppercase table c = false)

theorem read_cons (key : Key) (next : List Char) (rest : List (List Char)) :
    read table key (next :: rest) =
      if next.map Char.toLower = ['s', '-'] then read table { key with shift := true } rest
      else if next.map Char.toLower = ['c', '-'] then read table { key with ctrl := true } rest
      else if next.map Char.toLower = ['a', '-'] then read table { key with alt := true } rest
      else if next.map Char.toLower = ['d', '-'] then read table { key with super_ := true } rest
      else
        match codeOf (next.map Char.toLower) with
        | some code => read table { key with code } rest
        | none =>
          match next, rest with
          | c :: _, [] =>
            .ok { key with
              shift := key.shift || isUppercase table c,
              code := .char (if key.shift || isUppercase table c then c.toUpper else c) }
          | s, _ => .error (.unknownKey s) := rfl

/-- What one round of the loop keeps: no code yet, or a named one. -/
theorem read_kinds {pieces : List (List Char)}
    (before : key.code = .null ∨ Named key.code) (parsed : read table key pieces = .ok key') :
    key'.code = .null ∨ Named key'.code ∨ Chosen table key' := by
  induction pieces generalizing key with
  | nil =>
    cases (Except.ok.inj parsed : key = key')
    exact before.imp_right .inl
  | cons next rest ih =>
    rw [read_cons] at parsed
    split at parsed
    · refine ih ?_ parsed
      exact before
    split at parsed
    · refine ih ?_ parsed
      exact before
    split at parsed
    · refine ih ?_ parsed
      exact before
    split at parsed
    · refine ih ?_ parsed
      exact before
    split at parsed
    · next code found => exact ih (.inr ⟨_, listed_of_codeOf found⟩) parsed
    split at parsed
    · next c s =>
      -- The last piece: its first character, raised when shift is held or the character has it.
      simp only [Except.ok.injEq] at parsed
      subst parsed
      refine .inr (.inr ⟨_, rfl, ?_, ?_⟩)
      · intro shifted
        rw [if_pos shifted, Char.toUpper_toUpper_eq_toUpper]
      · intro unshifted
        simp only [Bool.or_eq_false_iff] at unshifted
        simp [unshifted]
    · cases parsed

theorem fromStr_kinds (parsed : fromStr table s = .ok key) :
    Typed table key ∨ Named key.code ∨ Chosen table key := by
  unfold fromStr at parsed
  split at parsed
  · cases parsed
  split at parsed
  · simp only [Except.ok.injEq] at parsed
    exact .inl ⟨_, parsed.symm⟩
  split at parsed
  · cases parsed
  next c s bracketed key' held =>
  split at parsed
  · cases parsed
  · next filled =>
    simp only [Except.ok.injEq] at parsed
    subst parsed
    have kinds := read_kinds (.inl rfl) held
    exact .inr (kinds.resolve_left filled)

-- ═══════════════════════════════════════════════════════════════
-- Reading what is displayed
-- ═══════════════════════════════════════════════════════════════

theorem read_super : read table key (['D', '-'] :: rest) =
    read table { key with super_ := true } rest := by
  have lower : ['D', '-'].map Char.toLower = ['d', '-'] := by decide
  rw [read_cons, lower]
  simp

theorem read_ctrl : read table key (['C', '-'] :: rest) =
    read table { key with ctrl := true } rest := by
  have lower : ['C', '-'].map Char.toLower = ['c', '-'] := by decide
  rw [read_cons, lower]
  simp

theorem read_alt : read table key (['A', '-'] :: rest) =
    read table { key with alt := true } rest := by
  have lower : ['A', '-'].map Char.toLower = ['a', '-'] := by decide
  rw [read_cons, lower]
  simp

theorem read_shift : read table key (['S', '-'] :: rest) =
    read table { key with shift := true } rest := by
  have lower : ['S', '-'].map Char.toLower = ['s', '-'] := by decide
  rw [read_cons, lower]
  simp

/-- A name between the dashes sets the code. -/
theorem read_named (found : codeOf (text.map Char.toLower) = some k)
    (dashless : '-' ∉ text.map Char.toLower) :
    read table key [text] = .ok { key with code := k } := by
  have other (m : Char) : text.map Char.toLower ≠ [m, '-'] := by
    intro same
    simp [same] at dashless
  simp [read_cons, other, found, show ∀ key : Key, read table key [] = .ok key from fun _ => rfl]

/-- A single character is taken as it is, and raised when shift is held. -/
theorem read_single (c : Char) :
    read table key [[c]] = .ok { key with
      shift := key.shift || isUppercase table c,
      code := .char (if key.shift || isUppercase table c then c.toUpper else c) } := by
  simp [read_cons, codeOf_single]

/-- The modifiers displayed are read one by one. -/
theorem read_modifierText (key : Key) (body : List Char) :
    read table {} (splitInclusive (key.modifierText table ++ body)) =
      read table { super_ := key.super_, ctrl := key.ctrl, alt := key.alt,
                   shift := key.shift && !impliesShift table key.code } (splitInclusive body) := by
  unfold modifierText
  cases key.super_ <;> cases key.ctrl <;> cases key.alt <;>
    cases key.shift && !impliesShift table key.code <;>
    simp [splitInclusive_modifier, read_super, read_ctrl, read_alt, read_shift]

theorem fromStr_bracketed (body : List Char) :
    fromStr table (['<'] ++ body ++ ['>']) =
      match read table {} (splitInclusive body) with
      | .error e => .error e
      | .ok key => if key.code = .null then .error .emptyKey else .ok key := by
  have closed : ('<' :: (body ++ ['>'])).getLast? = some '>' := by
    rw [← List.cons_append, List.getLast?_concat]
  cases result : read table {} (splitInclusive body) <;>
    simp only [fromStr, List.cons_append, List.nil_append, closed, and_self, not_true_eq_false,
      if_false, List.drop_succ_cons, List.drop_zero, List.dropLast_concat, result]

theorem fromStr_single (c : Char) :
    fromStr table [c] = .ok { code := .char c, shift := isUppercase table c } := by
  have open_ : ¬(c = '<' ∧ [c].getLast? = some '>') := by
    rintro ⟨rfl, closed⟩
    simp at closed
  simp only [fromStr, open_, not_false_eq_true, if_true]

theorem fromStr_space : fromStr table "<Space>".toList = .ok { code := .char ' ' } := by
  have found : codeOf ("Space".toList.map Char.toLower) = some (.char ' ') := by decide +kernel
  have dashless : '-' ∉ "Space".toList.map Char.toLower := by decide +kernel
  have split : splitInclusive "Space".toList = ["Space".toList] := by decide +kernel
  have brackets : "<Space>".toList = ['<'] ++ "Space".toList ++ ['>'] := by decide +kernel
  rw [brackets, fromStr_bracketed, split, read_named found dashless]
  rfl

theorem plain_eq_some {key : Key} (shown : key.plain table = some c) :
    key = { code := .char c, shift := key.shift } ∧
      (key.shift = true → isUppercase table c = true) := by
  obtain ⟨code, shift, ctrl, alt, super_⟩ := key
  unfold plain at shown
  split at shown
  · cases shown
  next free =>
  split at shown
  · cases shown
  next implied =>
  split at shown
  · next d =>
    simp only [Option.some.injEq] at shown
    subst shown
    simp_all [impliesShift]
  · cases shown

/-- A key displayed without brackets is read as it was. -/
theorem fromStr_display_plain (kinds : Typed table key ∨ Named key.code ∨ Chosen table key)
    (shown : key.plain table = some c) : fromStr table (key.display table) = .ok key := by
  obtain ⟨shape, implied⟩ := plain_eq_some shown
  have held : key.code = .char c := by rw [shape]
  have cased : key.shift = isUppercase table c := by
    cases shifted : key.shift with
    | true => exact (implied shifted).symm
    | false =>
      obtain ⟨d, typed⟩ | ⟨name, listed⟩ | ⟨d, chosen, -, lower⟩ := kinds
      · have same : d = c := by
          rw [typed] at held
          exact KeyCode.char.inj held
        rw [← same, ← shifted, typed]
      · rw [char_of_names _ listed c held, isUppercase_space]
      · have same : d = c := KeyCode.char.inj (chosen.symm.trans held)
        exact (same ▸ lower shifted).symm
  unfold display
  rw [shown]
  by_cases blank : c = ' '
  · subst blank
    rw [isUppercase_space] at cased
    rw [shape, cased]
    exact fromStr_space
  · simp only [blank, if_false]
    rw [fromStr_single, shape, cased]

/-- A key displayed with brackets is read as it was. -/
theorem fromStr_display_bracketed (kinds : Typed table key ∨ Named key.code ∨ Chosen table key)
    (shown : key.plain table = none) : fromStr table (key.display table) = .ok key := by
  have display_eq : key.display table =
      ['<'] ++ (key.modifierText table ++ codeText key.code) ++ ['>'] := by
    simp [display, shown]
  rw [display_eq, fromStr_bracketed, read_modifierText]
  by_cases named : Named key.code
  · have explicit : impliesShift table key.code = false := impliesShift_of_named named
    have filled := named.ne_null
    obtain ⟨name, listed⟩ := named
    obtain ⟨found, dashless, lowered, long⟩ := codeOf_codeText _ listed
    rw [splitInclusive_of_dashless dashless long, read_named found lowered]
    simp [explicit, filled]
  · obtain ⟨c, typed⟩ | named' | ⟨c, held, upper, lower⟩ := kinds
    · -- A typed character is displayed plainly.
      rw [typed] at shown
      cases raised : isUppercase table c <;> simp [plain, impliesShift, raised] at shown
    · contradiction
    · have visible : c ≠ ' ' := by
        rintro rfl
        exact named ⟨"space".toList, by simp [held, names]⟩
      have text_eq : codeText key.code = [c] := by
        rw [held]
        simp only [codeText, visible, if_false]
      rw [text_eq, splitInclusive_single, read_single]
      obtain ⟨code, shift, ctrl, alt, super_⟩ := key
      simp only at held upper lower
      subst held
      cases shift with
      | true => cases raised : isUppercase table c <;> simp [impliesShift, raised, upper rfl]
      | false => simp [impliesShift, lower rfl]

theorem fromStr_display (parsed : fromStr table s = .ok key) :
    fromStr table (key.display table) = .ok key := by
  have kinds := fromStr_kinds parsed
  cases shown : key.plain table with
  | some c => exact fromStr_display_plain kinds shown
  | none => exact fromStr_display_bracketed kinds shown

-- ═══════════════════════════════════════════════════════════════
-- The round trip
-- ═══════════════════════════════════════════════════════════════

/-- The text displayed of a key read is read as the same key, so keys displayed alike are one. -/
theorem notation_round_trip (table : Char → Bool) (s : List Char) (key : Key)
    (parsed : fromStr table s = .ok key) :
    fromStr table (key.display table) = .ok key ∧
      ∀ s' key', fromStr table s' = .ok key' → key.display table = key'.display table →
        key = key' := by
  constructor
  · exact fromStr_display parsed
  · intro s' key' parsed' alike
    have read_back := fromStr_display parsed
    rw [alike, fromStr_display parsed'] at read_back
    exact (Except.ok.inj read_back).symm

/-- Shift is read twice and displayed by the case alone. -/
theorem notation_round_trip_chord :
    let key : Key := { code := .char 'A', shift := true, ctrl := true }
    fromStr (fun _ => false) "<s-C-a>".toList = .ok key ∧
      key.display (fun _ => false) = "<C-A>".toList ∧
      fromStr (fun _ => false) (key.display fun _ => false) = .ok key := by
  have parsed : fromStr (fun _ => false) "<s-C-a>".toList =
      .ok { code := .char 'A', shift := true, ctrl := true } := by decide +kernel
  exact ⟨parsed, by decide +kernel, (notation_round_trip _ _ _ parsed).1⟩

end Key
end Yazi.Config
