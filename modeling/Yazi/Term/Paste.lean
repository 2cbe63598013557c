import Yazi.Term.Totality

/-!
When a paste comes through.

The parser holds what a paste has sent since it was last too long, which its length alone
determines. The end is found among the bytes that are held, so it is not found where it is cut.
-/
namespace Yazi.Term
open Yazi.Base Yazi.Shared

def pasteLimit : Nat := 2 ^ 24

/-- How many of so many bytes are held. -/
def held (n : Nat) : Nat := (n - 1) % pasteLimit + 1

theorem held_le (n : Nat) : held n ≤ pasteLimit := by
  rw [held, pasteLimit]
  omega

theorem held_le_self {n : Nat} (positive : 0 < n) : held n ≤ n := by
  rw [held, pasteLimit]
  omega

theorem held_self {n : Nat} (positive : 0 < n) (fits : n ≤ pasteLimit) : held n = n := by
  rw [pasteLimit] at fits
  rw [held, pasteLimit]
  omega

/-- With the limit reached, what is held starts again. -/
theorem held_succ {n : Nat} (positive : 0 < n) :
    held (n + 1) = if held n = pasteLimit then 1 else held n + 1 := by
  rw [held, held, pasteLimit]
  split <;> omega

namespace Parser

variable {lib : Library} {p : Parser}

/-- Inside a paste of which these bytes have come, its start among them. -/
def within (p : Parser) (s : Bytes) : Parser :=
  { p with
    state := .bracketedPaste
    seq := s.drop (s.length - held s.length)
    discard := pasteLimit < s.length }

theorem within_length {s : Bytes} (begun : s ≠ []) : (within p s).seq.length = held s.length := by
  have least := held_le_self (List.length_pos_iff.mpr begun)
  rw [within, List.length_drop]
  omega

/-- A byte more is one more of those that have come. -/
theorem within_push {s : Bytes} (begun : s ≠ []) (b : UInt8) :
    (within p s).clip.push b = within p (s ++ [b]) := by
  have positive := List.length_pos_iff.mpr begun
  have least := held_le_self positive
  have length : (s ++ [b]).length = s.length + 1 := List.length_append
  have more := held_succ positive
  have limit : (within p s).state.limit = pasteLimit := rfl
  rw [clip, limit, within_length begun]
  split
  next full =>
    -- What was held is thrown away, and the byte is held alone.
    have all : held s.length = pasteLimit := Nat.le_antisymm (held_le _) full
    rw [if_pos all] at more
    rw [push, within, within, length, more, Nat.add_sub_cancel, List.drop_left]
    simp only [List.nil_append, Parser.mk.injEq, true_and]
    exact (decide_eq_true (by omega)).symm
  next room =>
    have fewer : held s.length ≠ pasteLimit := fun all => room (Nat.le_of_eq all.symm)
    have apart : s.length ≠ pasteLimit := by
      intro same
      exact fewer (by rw [held_self positive (Nat.le_of_eq same), same])
    rw [if_neg fewer] at more
    have start : s.length + 1 - (held s.length + 1) = s.length - held s.length := by omega
    rw [push, within, within, length, more, start, List.drop_append_of_le_length (by omega)]
    simp only [Parser.mk.injEq, true_and, decide_eq_decide]
    omega

/-- The end is among the bytes that are held. -/
def Closes (s : Bytes) : Prop := pasteEnd <:+ s ∧ 6 ≤ held s.length

theorem closes_iff {s : Bytes} (begun : s ≠ []) :
    pasteEnd.isSuffixOf (within p s).seq = true ↔ Closes s := by
  have length := within_length (p := p) begun
  have tail : (within p s).seq <:+ s := List.drop_suffix ..
  rw [List.isSuffixOf_iff_suffix]
  constructor
  · intro ended
    refine ⟨ended.trans tail, ?_⟩
    rw [← length]
    exact ended.length_le
  · rintro ⟨ended, enough⟩
    apply List.suffix_of_suffix_length_le ended tail
    rw [length]
    exact enough

/-- A byte that does not end the paste is gathered. -/
theorem step_within {s : Bytes} (begun : s ≠ []) {b : UInt8} (goesOn : ¬ Closes (s ++ [b])) :
    (within p s).step lib b = some (within p (s ++ [b])) := by
  have paste : (within p s).clip.state = .bracketedPaste := by
    rw [clip]
    split <;> rfl
  rw [step, dispatch, paste]
  change onBracketedPaste _ b = _
  rw [onBracketedPaste, within_push begun, if_pos]
  rwa [closes_iff (by simp)]

theorem parse_within {s t : Bytes} (begun : s ≠ [])
    (goesOn : ∀ u, u <+: t → u ≠ [] → ¬ Closes (s ++ u)) :
    (within p s).parse lib t = some (within p (s ++ t)) := by
  rw [parse]
  induction t generalizing s with
  | nil => rw [List.append_nil, exec]
  | cons b t ih =>
    have first : ¬ Closes (s ++ [b]) := goesOn [b] (List.prefix_append [b] t) (by simp)
    rw [exec, step_within begun first, Option.bind_some, ih (by simp)]
    · rw [List.append_assoc, List.singleton_append]
    · intro u begins nonempty
      rw [List.append_assoc]
      exact goesOn (b :: u) (List.prefix_cons_inj b |>.mpr begins) (by simp)

/-- The last byte of the end, where it is found. -/
theorem step_close {s : Bytes} (begun : s ≠ []) {b : UInt8} (closes : Closes (s ++ [b])) :
    (within p s).step lib b =
      if pasteLimit < (s ++ [b]).length then some p.reset
      else (within p (s ++ [b])).finish (parsePaste (s ++ [b])) := by
  have paste : (within p s).clip.state = .bracketedPaste := by
    rw [clip]
    split <;> rfl
  have ended : pasteEnd.isSuffixOf (within p (s ++ [b])).seq = true :=
    (closes_iff (by simp)).mpr closes
  rw [step, dispatch, paste]
  change onBracketedPaste _ b = _
  rw [onBracketedPaste, within_push begun, if_neg (not_not.mpr ended)]
  by_cases long : pasteLimit < (s ++ [b]).length
  · have cut : (within p (s ++ [b])).discard = true := decide_eq_true long
    rw [if_pos long, if_pos cut]
    rfl
  · have whole : (within p (s ++ [b])).seq = s ++ [b] := by
      rw [within, held_self (by simp) (Nat.le_of_not_lt long), Nat.sub_self, List.drop_zero]
    have kept : ¬ (within p (s ++ [b])).discard = true := by
      rw [within]
      simpa using long
    rw [if_neg long, if_neg kept, whole]

/-! ### A paste from its start to its end -/

theorem parsePaste_whole (c : Bytes) :
    parsePaste (pasteStart ++ c ++ pasteEnd) = .ok (.paste (Text.fromUtf8Lossy c)) := by
  have six : pasteStart.length = 6 := rfl
  have length : (pasteStart ++ c ++ pasteEnd).length = (pasteStart ++ c).length + 6 :=
    List.length_append
  have content : (pasteStart ++ c).length = c.length + 6 := by
    rw [List.length_append, six, Nat.add_comm]
  have stop : minus (pasteStart ++ c ++ pasteEnd).length 6 = .ok (pasteStart ++ c).length := by
    rw [length, minus_eq (Nat.le_add_left 6 _), Nat.add_sub_cancel]
  have body : subslice (pasteStart ++ c ++ pasteEnd) 6 (pasteStart ++ c).length = .ok c := by
    rw [subslice_eq ⟨by omega, by omega⟩, List.take_left, ← six, List.drop_left]
  rw [parsePaste, stop]
  change subslice _ 6 _ >>= _ = _
  rw [body]
  rfl

/-- The end has no part that it starts with as well. -/
theorem pasteEnd_borderless : ∀ n < pasteEnd.length, 0 < n → ¬ pasteEnd.drop n <+: pasteEnd := by
  decide

/-- The end is not found before it has come. -/
theorem not_closes {c u : Bytes} (clean : ¬ pasteEnd <:+: c)
    (begins : u <+: c ++ pasteEnd.dropLast) : ¬ Closes (pasteStart ++ u) := by
  rintro ⟨ended, -⟩
  have long := paste_length (List.prefix_append pasteStart u) ended
  have inside : pasteEnd <:+ u := by
    apply List.suffix_of_suffix_length_le ended (List.suffix_append pasteStart u)
    rw [List.length_append] at long
    exact Nat.le_of_add_le_add_left long
  obtain ⟨x, rfl⟩ := inside
  obtain ⟨y, whole⟩ := begins
  rw [List.append_eq_append_iff] at whole
  rcases whole with ⟨rest, front, back⟩ | ⟨rest, front, back⟩
  · exact clean ⟨x, rest, front.symm⟩
  · -- The rest of the end would be in the marker that is still to come.
    have five : pasteEnd.dropLast.length = 5 := rfl
    have six : pasteEnd.length = 6 := rfl
    have short : rest.length ≤ 5 := by
      rw [← five, back, List.length_append]
      exact Nat.le_add_right ..
    have start : rest <+: pasteEnd :=
      (List.IsPrefix.trans ⟨y, back.symm⟩ (List.dropLast_prefix pasteEnd))
    rw [List.append_eq_append_iff] at front
    rcases front with ⟨w, content, marker⟩ | ⟨w, -, marker⟩
    · have lengths := congrArg List.length marker
      rw [List.length_append] at lengths
      by_cases all : rest = []
      · rw [all, List.append_nil] at marker
        exact clean ⟨x, [], by rw [content, marker, List.append_nil]⟩
      · have some := List.length_pos_iff.mpr all
        apply pasteEnd_borderless w.length (by omega) (by omega)
        rw [marker, List.drop_left, ← marker]
        exact start
    · have lengths := congrArg List.length marker
      rw [List.length_append] at lengths
      omega

theorem parse_start (p : Parser) (state : p.state = .ground) (seq : p.seq = [])
    (discard : p.discard = false) : p.parse lib pasteStart = some (within p pasteStart) := by
  obtain ⟨_, _, events, _⟩ := p
  cases state
  cases seq
  cases discard
  rfl

/-- The parser is back at the ground, and all that has come of the paste is one event, or none
where it is too long. -/
def Pasted (lib : Library) (p : Parser) (c : Bytes) : Prop :=
  ∃ q, p.parse lib (pasteStart ++ c ++ pasteEnd) = some q ∧ q.state = .ground ∧ q.seq = [] ∧
    q.events = p.events ++
      if c.length + 12 ≤ 2 ^ 24 then [.paste (Text.fromUtf8Lossy c)] else []

/-- All but the last byte of the end is gathered. -/
theorem parse_paste {c : Bytes} (state : p.state = .ground) (seq : p.seq = [])
    (discard : p.discard = false) (clean : ¬ pasteEnd <:+: c) :
    p.parse lib (pasteStart ++ c ++ pasteEnd) =
      (within p (pasteStart ++ (c ++ pasteEnd.dropLast))).step lib 0x7e := by
  have split : pasteStart ++ c ++ pasteEnd =
      pasteStart ++ ((c ++ pasteEnd.dropLast) ++ [0x7e]) := by
    rw [List.append_assoc, List.append_assoc]
    rfl
  have start : exec (Parser.step lib) p pasteStart = some (within p pasteStart) :=
    parse_start p state seq discard
  have gathered : exec (Parser.step lib) (within p pasteStart) (c ++ pasteEnd.dropLast) =
      some (within p (pasteStart ++ (c ++ pasteEnd.dropLast))) :=
    parse_within (by decide) fun u begins _ => not_closes clean begins
  rw [parse, split, exec_append, start, Option.bind_some, exec_append, gathered, Option.bind_some]
  exact Option.bind_fun_some _

theorem pasted_iff_of_idle (lib : Library) {p : Parser} (state : p.state = .ground)
    (seq : p.seq = []) (discard : p.discard = false) {c : Bytes} (clean : ¬ pasteEnd <:+: c) :
    Pasted lib p c ↔ 5 ≤ (c.length + 11) % 2 ^ 24 := by
  have whole : pasteStart ++ (c ++ pasteEnd.dropLast) ++ [0x7e] = pasteStart ++ c ++ pasteEnd := by
    rw [List.append_assoc, List.append_assoc, List.append_assoc]
    rfl
  have length : (pasteStart ++ c ++ pasteEnd).length = c.length + 12 := by
    rw [List.length_append, List.length_append]
    change 6 + c.length + 6 = c.length + 12
    omega
  have begun : pasteStart ++ (c ++ pasteEnd.dropLast) ≠ [] := by
    intro empty
    exact absurd (List.append_eq_nil_iff.mp empty).1 (by decide)
  have closes : Closes (pasteStart ++ c ++ pasteEnd) ↔ 5 ≤ (c.length + 11) % 2 ^ 24 := by
    rw [Closes, length, held, pasteLimit]
    constructor
    · rintro ⟨-, enough⟩
      omega
    · intro enough
      exact ⟨List.suffix_append .., by omega⟩
  rw [Pasted, parse_paste state seq discard clean, ← closes, ← whole]
  by_cases found : Closes (pasteStart ++ (c ++ pasteEnd.dropLast) ++ [0x7e])
  · refine iff_of_true ?_ found
    rw [step_close begun found, whole, length, parsePaste_whole]
    by_cases long : pasteLimit < c.length + 12
    · have out : ¬ c.length + 12 ≤ 2 ^ 24 := Nat.not_le.mpr long
      rw [if_pos long, if_neg out]
      exact ⟨_, rfl, rfl, rfl, (List.append_nil _).symm⟩
    · have fits : c.length + 12 ≤ 2 ^ 24 := Nat.le_of_not_lt long
      rw [if_neg long, if_pos fits]
      exact ⟨_, rfl, rfl, rfl, rfl⟩
  · refine iff_of_false ?_ found
    rintro ⟨q, stepped, ground, -⟩
    rw [step_within begun found] at stepped
    cases stepped
    cases ground

/-- From the ground, a paste that does not hold the end comes through, whole or as nothing, if and
only if the end is not cut where the bytes that have come are thrown away. -/
theorem pasted_iff (lib : Library) {inputs : List Input} {p : Parser}
    (reached : exec (input lib) make inputs = some p) (ground : p.state = .ground) {c : Bytes}
    (clean : ¬ pasteEnd <:+: c) : Pasted lib p c ↔ 5 ≤ (c.length + 11) % 2 ^ 24 := by
  have sound := sound_run reached
  rw [Sound, ground] at sound
  exact pasted_iff_of_idle lib ground sound.1 sound.2 clean

/-- An escape that was the key alone is over before the paste. -/
theorem pasted_iff_sample :
    let lib : Library := ⟨fun _ => false, fun _ => none, fun _ => none⟩
    ∃ p, exec (input lib) make [.byte 0x61, .byte 0x1b, .expire 10000000] = some p ∧
      p.events.length = 2 ∧ Pasted lib p (text "hi") := by
  intro lib
  have reached : exec (input lib) make [.byte 0x61, .byte 0x1b, .expire 10000000] = some _ := rfl
  exact ⟨_, reached, rfl, (pasted_iff lib reached rfl (by decide)).mpr (by decide)⟩

/-- After so many bytes the last byte of the end finds the limit reached. -/
theorem cut_paste : ¬ ∀ (lib : Library) (c : Bytes), ¬ pasteEnd <:+: c → Pasted lib make c := by
  intro pasted
  have clean : ¬ pasteEnd <:+: List.replicate (2 ^ 24 - 11) 0x61 := by
    rintro ⟨front, back, same⟩
    have escape : 0x1b ∈ List.replicate (2 ^ 24 - 11) (0x61 : UInt8) := by
      rw [← same]
      exact List.mem_append_left _ (List.mem_append_right _ (List.mem_cons_self ..))
    exact absurd (List.eq_of_mem_replicate escape) (by decide)
  have come := pasted ⟨fun _ => false, fun _ => none, fun _ => none⟩ _ clean
  rw [pasted_iff_of_idle _ rfl rfl rfl clean, List.length_replicate] at come
  exact absurd come (by decide)

end Parser

end Yazi.Term
