import Yazi.Shared.Path

/-!
Words of a command line: quoting them, and splitting a line into them.

Quoting works on bytes, splitting on characters. What is special to either is ASCII, so on text
they meet.
-/
namespace Yazi.Shared

namespace Shell

def allowed (b : UInt8) : Bool :=
  0x61 ≤ b && b ≤ 0x7a || 0x41 ≤ b && b ≤ 0x5a || 0x30 ≤ b && b ≤ 0x39 ||
    [0x2d, 0x5f, 0x3d, 0x2f, 0x2c, 0x2e, 0x2b].contains b

/-- In quotes, a quote or an exclamation mark is written outside of them. -/
def quoteByte (b : UInt8) : Bytes :=
  if b = 0x27 ∨ b = 0x21 then [0x27, 0x5c, b, 0x27] else [b]

def escapeOsBytes (b : Bytes) : Bytes :=
  if !b.isEmpty && b.all allowed then b else 0x27 :: b.flatMap quoteByte ++ [0x27]

inductive SplitError where
  | missingSingleQuote
  | missingDoubleQuote
  | missingQuoteAfterSlash
  deriving DecidableEq, Repr

def SplitError.message : SplitError → String
  | missingSingleQuote => "missing closing single quote"
  | missingDoubleQuote => "missing closing double quote"
  | missingQuoteAfterSlash => "missing quote after escape slash"

inductive State where
  /-- Within a delimiter. -/
  | delimiter
  /-- After backslash, but before starting word. -/
  | backslash
  /-- Within an unquoted word. -/
  | unquoted
  /-- After backslash in an unquoted word. -/
  | unquotedBackslash
  | singleQuoted
  | doubleQuoted
  /-- After backslash inside a double quoted word. -/
  | doubleQuotedBackslash
  | comment
  deriving DecidableEq, Repr

/-- What a character does: it adds to the word, or ends it. -/
inductive Turn where
  | go (push : List Char) (next : State)
  | flush
  deriving DecidableEq, Repr

def turn : State → Char → Turn
  | .delimiter, c =>
    if c = '\'' then .go [] .singleQuoted
    else if c = '"' then .go [] .doubleQuoted
    else if c = '\\' then .go [] .backslash
    else if c = '\t' ∨ c = ' ' ∨ c = '\n' then .go [] .delimiter
    else if c = '#' then .go [] .comment
    else .go [c] .unquoted
  | .backslash, c => if c = '\n' then .go [] .delimiter else .go [c] .unquoted
  | .unquoted, c =>
    if c = '\'' then .go [] .singleQuoted
    else if c = '"' then .go [] .doubleQuoted
    else if c = '\\' then .go [] .unquotedBackslash
    else if c = '\t' ∨ c = ' ' ∨ c = '\n' then .flush
    else .go [c] .unquoted
  | .unquotedBackslash, c => if c = '\n' then .go [] .unquoted else .go [c] .unquoted
  | .singleQuoted, c => if c = '\'' then .go [] .unquoted else .go [c] .singleQuoted
  | .doubleQuoted, c =>
    if c = '"' then .go [] .unquoted
    else if c = '\\' then .go [] .doubleQuotedBackslash
    else .go [c] .doubleQuoted
  | .doubleQuotedBackslash, c =>
    if c = '\n' then .go [] .doubleQuoted
    else if c = '$' ∨ c = '`' ∨ c = '"' ∨ c = '\\' then .go [c] .doubleQuoted
    else .go ['\\', c] .doubleQuoted
  | .comment, c => if c = '\n' then .go [] .delimiter else .go [] .comment

/-- At the end of the text: what is added to a last word, or `none` where there is none. -/
def finish : State → Except SplitError (Option (List Char))
  | .delimiter | .comment => .ok none
  | .backslash | .unquotedBackslash => .ok (some ['\\'])
  | .unquoted => .ok (some [])
  | .singleQuoted => .error .missingSingleQuote
  | .doubleQuoted => .error .missingDoubleQuote
  | .doubleQuotedBackslash => .error .missingQuoteAfterSlash

abbrev Split := Except SplitError (List (List Char) × Option (List Char))

def dashes : List Char := ['-', '-']

def splitFrom (eoo : Bool) (words : List (List Char)) (state : State) (word : List Char) :
    List Char → Split
  | [] =>
    match finish state with
    | .error e => .error e
    | .ok none => .ok (words, none)
    | .ok (some push) =>
      if word ++ push = dashes ∧ eoo then .ok (words, some [])
      else .ok (words ++ [word ++ push], none)
  | c :: s =>
    match turn state c with
    | .go push next => splitFrom eoo words next (word ++ push) s
    | .flush =>
      if word = dashes ∧ eoo then .ok (words, some s)
      else splitFrom eoo (words ++ [word]) .delimiter [] s

/-- `eoo` stops at the first word `--`, and gives the rest of the text as it is. -/
def split (s : List Char) (eoo : Bool) : Split := splitFrom eoo [] .delimiter [] s

/-! ### Stopping at `--` -/

variable {eoo : Bool} {words : List (List Char)} {state : State} {word s : List Char}

theorem splitFrom_go {c : Char} {push : List Char} {next : State}
    (goes : turn state c = .go push next) :
    splitFrom eoo words state word (c :: s) = splitFrom eoo words next (word ++ push) s := by
  rw [splitFrom, goes]

theorem splitFrom_flush {c : Char} (flushes : turn state c = .flush) :
    splitFrom eoo words state word (c :: s) =
      if word = dashes ∧ eoo then .ok (words, some s)
      else splitFrom eoo (words ++ [word]) .delimiter [] s := by
  rw [splitFrom, flushes]

/-- The words that are there already come first. -/
theorem splitFrom_words (words : List (List Char)) (state : State) (word s : List Char) :
    splitFrom eoo words state word s =
      (splitFrom eoo [] state word s).map fun (more, last) => (words ++ more, last) := by
  induction s generalizing words state word with
  | nil =>
    rw [splitFrom, splitFrom]
    cases finish state with
    | error e => rfl
    | ok push =>
      cases push with
      | none => simp [Except.map]
      | some push =>
        dsimp only
        split <;> simp [Except.map]
  | cons c s ih =>
    cases turns : turn state c with
    | go push next => rw [splitFrom_go turns, splitFrom_go turns, ih]
    | flush =>
      rw [splitFrom_flush turns, splitFrom_flush turns]
      split
      · simp [Except.map]
      · rw [ih, ih ([] ++ [word])]
        cases splitFrom eoo [] .delimiter [] s <;> simp [Except.map]

/-- With `eoo`, a text is split as without it, or it is left at the first word `--`, where a leading
part of the text ends with that word. -/
inductive Stops (words : List (List Char)) (state : State) (word s : List Char) : Prop
  | never (same : splitFrom true words state word s = splitFrom false words state word s)
      (none : ∀ more last, splitFrom false words state word s = .ok (words ++ more, last) →
        dashes ∉ more)
  | once {more : List (List Char)} {front rest : List Char} (cut : s = front ++ rest)
      (first : dashes ∉ more)
      (stops : splitFrom true words state word s = .ok (words ++ more, some rest))
      (lead : splitFrom false words state word front = .ok (words ++ (more ++ [dashes]), none))
      (whole : splitFrom false words state word s =
        splitFrom false (words ++ (more ++ [dashes])) .delimiter [] rest)

/-- A character is read before the rest. -/
theorem Stops.cons {c : Char} {next : State} {more : List (List Char)} {word' : List Char}
    (reads : ∀ eoo s, splitFrom eoo words state word (c :: s) =
      splitFrom eoo (words ++ more) next word' s) (clean : dashes ∉ more)
    (rest : Stops (words ++ more) next word' s) : Stops words state word (c :: s) := by
  cases rest with
  | never same none =>
    refine .never ((reads ..).trans (same.trans (reads ..).symm)) fun all last found => ?_
    rw [reads, splitFrom_words] at found
    cases inner : splitFrom false [] next word' s with
    | error e =>
      rw [inner] at found
      cases found
    | ok result =>
      obtain ⟨later, last'⟩ := result
      rw [inner] at found
      obtain ⟨same', -⟩ := Prod.mk.inj (Except.ok.inj found)
      rw [List.append_assoc, List.append_cancel_left_eq] at same'
      have absent := none later last' (by rw [splitFrom_words, inner]; rfl)
      rw [← same', List.mem_append]
      exact not_or.mpr ⟨clean, absent⟩
  | @once later front rest cut first stops lead whole =>
    have assoc (tail : List (List Char)) : words ++ more ++ tail = words ++ (more ++ tail) :=
      List.append_assoc ..
    refine @Stops.once _ _ _ _ (more ++ later) (c :: front) rest (by rw [cut]; rfl) ?_ ?_ ?_ ?_
    · rw [List.mem_append]
      exact not_or.mpr ⟨clean, first⟩
    · rw [reads, stops, assoc]
    · rw [reads, lead, assoc, List.append_assoc]
    · rw [reads, whole, assoc, List.append_assoc]

theorem stops (words : List (List Char)) (state : State) (word s : List Char) :
    Stops words state word s := by
  induction s generalizing words state word with
  | nil =>
    cases ends : finish state with
    | error e => exact .never (by rw [splitFrom, splitFrom, ends]) (by simp [splitFrom, ends])
    | ok push =>
      cases push with
      | none =>
        refine .never (by rw [splitFrom, splitFrom, ends]) fun more last found => ?_
        rw [splitFrom, ends] at found
        obtain ⟨same, -⟩ := Prod.mk.inj (Except.ok.inj found)
        rw [List.self_eq_append_right.mp same]
        exact List.not_mem_nil
      | some push =>
        have plain : splitFrom false words state word [] = .ok (words ++ [word ++ push], none) := by
          rw [splitFrom, ends]
          simp
        by_cases stop : word ++ push = dashes
        · refine @Stops.once _ _ _ _ [] [] [] rfl List.not_mem_nil ?_ ?_ ?_
          · rw [splitFrom, ends]
            simp [stop]
          · rw [plain, stop]
            rfl
          · rw [plain, stop]
            rfl
        · refine .never ?_ fun more last found => ?_
          · rw [plain, splitFrom, ends]
            simp [stop]
          · rw [plain] at found
            obtain ⟨same, -⟩ := Prod.mk.inj (Except.ok.inj found)
            rw [List.append_cancel_left_eq] at same
            rw [← same, List.mem_singleton]
            exact fun same => stop same.symm
  | cons c s ih =>
    cases turns : turn state c with
    | go push next =>
      have reads (eoo : Bool) (s : List Char) : splitFrom eoo words state word (c :: s) =
          splitFrom eoo (words ++ []) next (word ++ push) s := by
        rw [splitFrom_go turns, List.append_nil]
      exact .cons reads List.not_mem_nil (ih _ next (word ++ push))
    | flush =>
      by_cases stop : word = dashes
      · refine @Stops.once _ _ _ _ [] [c] s rfl List.not_mem_nil ?_ ?_ ?_
        · rw [splitFrom_flush turns, if_pos ⟨stop, rfl⟩, List.append_nil]
        · rw [splitFrom_flush turns, if_neg (by simp), stop]
          rfl
        · rw [splitFrom_flush turns, if_neg (by simp), stop]
          rfl
      · have reads (eoo : Bool) (s : List Char) : splitFrom eoo words state word (c :: s) =
            splitFrom eoo (words ++ [word]) .delimiter [] s := by
          rw [splitFrom_flush turns, if_neg fun both => stop both.1]
        refine .cons reads ?_ (ih _ .delimiter [])
        rw [List.mem_singleton]
        exact fun same => stop same.symm

/-- With `eoo`, splitting differs only where a word is `--`: it stops after the first one, with the
words before it, and leaves the rest of the text as it is. -/
theorem split_eoo (s : List Char) :
    (split s true = split s false ∧ ∀ ws last, split s false = .ok (ws, last) → dashes ∉ ws) ∨
      ∃ ws front rest, s = front ++ rest ∧ dashes ∉ ws ∧ split s true = .ok (ws, some rest) ∧
        split front false = .ok (ws ++ [dashes], none) ∧
        split s false =
          (split rest false).map fun (more, last) => (ws ++ [dashes] ++ more, last) := by
  cases stops [] .delimiter [] s with
  | never same none => exact .inl ⟨same, none⟩
  | @once ws front rest cut first stops lead whole =>
    refine .inr ⟨ws, front, rest, cut, first, stops, lead, ?_⟩
    rw [split, whole, splitFrom_words]
    rfl

/-! ### Quoted text -/

/-- The bytes of a text. -/
def utf8 (s : List Char) : Bytes := s.flatMap String.utf8EncodeChar

/-- `allowed`, of a character. -/
def plain (c : Char) : Bool := c.toNat ≤ 0x7f && allowed (UInt8.ofNat c.toNat)

def quoteChar (c : Char) : List Char := if c = '\'' ∨ c = '!' then ['\'', '\\', c, '\''] else [c]

/-- `escape_os_bytes`, of a text. -/
def escape (s : List Char) : List Char :=
  if !s.isEmpty && s.all plain then s else '\'' :: s.flatMap quoteChar ++ ['\'']

theorem high_of_allowed {b : UInt8} (high : 0x80 ≤ b) :
    allowed b = false ∧ b ≠ 0x27 ∧ b ≠ 0x21 := by
  have large : 0x80 ≤ b.toNat := UInt8.le_iff_toNat_le.mp high
  refine ⟨?_, ?_, ?_⟩
  · simp only [allowed, UInt8.le_iff_toNat_le, List.contains_eq_mem, List.mem_cons,
      List.not_mem_nil, or_false, UInt8.toNat_inj.symm, UInt8.reduceToNat, Bool.or_eq_false_iff,
      Bool.and_eq_false_iff, decide_eq_false_iff_not]
    omega
  · rintro rfl
    simp at large
  · rintro rfl
    simp at large

theorem encodeChar_cases (c : Char) :
    (c.toNat ≤ 0x7f ∧ String.utf8EncodeChar c = [UInt8.ofNat c.toNat]) ∨
      ¬ c.toNat ≤ 0x7f ∧ ∀ b ∈ String.utf8EncodeChar c, 0x80 ≤ b := by
  have high {n m : Nat} (lead : 0x80 ≤ m) (fits : n + m < 256) : 0x80 ≤ UInt8.ofNat (n + m) := by
    rw [UInt8.le_iff_toNat_le, UInt8.toNat_ofNat_of_lt' fits]
    exact Nat.le_trans lead (Nat.le_add_left ..)
  by_cases small : c.toNat ≤ 0x7f
  · refine .inl ⟨small, ?_⟩
    rw [String.utf8EncodeChar]
    exact if_pos small
  · refine .inr ⟨small, ?_⟩
    rw [String.utf8EncodeChar]
    change ∀ b ∈ (if c.toNat ≤ 0x7f then _ else _), _
    rw [if_neg small]
    split
    · simp only [List.mem_cons, List.not_mem_nil, or_false]
      rintro b (rfl | rfl) <;> exact high (by decide) (by omega)
    · split
      · simp only [List.mem_cons, List.not_mem_nil, or_false]
        rintro b (rfl | rfl | rfl) <;> exact high (by decide) (by omega)
      · simp only [List.mem_cons, List.not_mem_nil, or_false]
        rintro b (rfl | rfl | rfl | rfl) <;> exact high (by decide) (by omega)

theorem ofNat_eq_iff {c d : Char} (small : c.toNat ≤ 0x7f) (small' : d.toNat ≤ 0x7f) :
    UInt8.ofNat c.toNat = UInt8.ofNat d.toNat ↔ c = d := by
  refine ⟨fun same => ?_, fun same => by rw [same]⟩
  have numbers := congrArg UInt8.toNat same
  rw [UInt8.toNat_ofNat_of_lt' (Nat.lt_of_le_of_lt small (by decide)),
    UInt8.toNat_ofNat_of_lt' (Nat.lt_of_le_of_lt small' (by decide))] at numbers
  rw [← Char.ofNat_toNat c, numbers, Char.ofNat_toNat]

theorem quote_encoded (c : Char) :
    (String.utf8EncodeChar c).flatMap quoteByte = utf8 (quoteChar c) := by
  rcases encodeChar_cases c with ⟨small, ascii⟩ | ⟨large, high⟩
  · have quote : UInt8.ofNat c.toNat = 0x27 ↔ c = '\'' :=
      ofNat_eq_iff (d := '\'') small (by decide)
    have bang : UInt8.ofNat c.toNat = 0x21 ↔ c = '!' := ofNat_eq_iff (d := '!') small (by decide)
    rw [ascii, List.flatMap_singleton, quoteByte, quoteChar]
    simp only [quote, bang]
    split
    · simp only [utf8, List.flatMap_cons, List.flatMap_nil, ascii]
      rfl
    · simp only [utf8, List.flatMap_cons, List.flatMap_nil, ascii]
      rfl
  · have same (l : Bytes) (high : ∀ b ∈ l, 0x80 ≤ b) : l.flatMap quoteByte = l := by
      induction l with
      | nil => rfl
      | cons b l ih =>
        obtain ⟨here, rest⟩ := List.forall_mem_cons.mp high
        obtain ⟨-, quote, bang⟩ := high_of_allowed here
        rw [List.flatMap_cons, ih rest, quoteByte, if_neg (not_or.mpr ⟨quote, bang⟩)]
        rfl
    have none : ¬(c = '\'' ∨ c = '!') := by
      rintro (rfl | rfl) <;> exact large (by decide)
    rw [same _ high, quoteChar, if_neg none, utf8, List.flatMap_singleton]

theorem plain_encoded (c : Char) : (String.utf8EncodeChar c).all allowed = plain c := by
  rcases encodeChar_cases c with ⟨small, ascii⟩ | ⟨large, high⟩
  · rw [ascii, plain, decide_eq_true small, Bool.true_and, List.all_cons, List.all_nil,
      Bool.and_true]
  · rw [plain, decide_eq_false large, Bool.false_and, Bool.eq_false_iff, ne_eq, List.all_eq_true]
    intro all
    obtain ⟨b, member⟩ := List.exists_mem_of_ne_nil _ (String.utf8EncodeChar_ne_nil (c := c))
    exact Bool.false_ne_true ((high_of_allowed (high b member)).1.symm.trans (all b member))

theorem escape_encoded (s : List Char) : escapeOsBytes (utf8 s) = utf8 (escape s) := by
  have empty : (utf8 s).isEmpty = s.isEmpty := by
    cases s with
    | nil => rfl
    | cons c s =>
      rw [utf8, List.flatMap_cons, List.isEmpty_cons, List.isEmpty_eq_false_iff]
      exact List.append_ne_nil_of_left_ne_nil String.utf8EncodeChar_ne_nil _
  have all : (utf8 s).all allowed = s.all plain := by
    rw [utf8, List.all_flatMap]
    simp only [plain_encoded]
  have quoted : (utf8 s).flatMap quoteByte = utf8 (s.flatMap quoteChar) := by
    rw [utf8, utf8, List.flatMap_assoc, List.flatMap_assoc]
    simp only [quote_encoded]
    rfl
  rw [escapeOsBytes, empty, all, quoted, escape]
  split
  · rfl
  · simp only [utf8, List.flatMap_cons, List.flatMap_append, List.flatMap_nil]
    rfl

/-! ### Splitting what is quoted -/

/-- Plain characters mean nothing to the splitting. -/
theorem turn_plain {c : Char} (isPlain : plain c = true) :
    turn .delimiter c = .go [c] .unquoted ∧ turn .unquoted c = .go [c] .unquoted := by
  have all : ['\'', '"', '\\', '\t', ' ', '\n', '#'].all (fun d => !plain d) = true := by rfl
  have special : ∀ d ∈ ['\'', '"', '\\', '\t', ' ', '\n', '#'], plain d = false := by
    intro d member
    simpa only [Bool.not_eq_true'] using List.all_eq_true.mp all d member
  have apart : ∀ d ∈ ['\'', '"', '\\', '\t', ' ', '\n', '#'], c ≠ d := by
    rintro d member rfl
    exact Bool.false_ne_true ((special c member).symm.trans isPlain)
  simp only [List.forall_mem_cons] at apart
  obtain ⟨quote, double, slash, tab, blank, line, hash, -⟩ := apart
  simp only [turn, quote, double, slash, tab, blank, line, hash, or_self, if_false, and_self]

variable {rest : List Char}

theorem splitFrom_plain {w : List Char} (isPlain : ∀ c ∈ w, plain c = true) :
    splitFrom eoo words .unquoted word (w ++ rest) =
      splitFrom eoo words .unquoted (word ++ w) rest := by
  induction w generalizing word with
  | nil => rw [List.nil_append, List.append_nil]
  | cons c w ih =>
    obtain ⟨here, others⟩ := List.forall_mem_cons.mp isPlain
    rw [List.cons_append, splitFrom_go (turn_plain here).2, ih others, List.append_assoc]
    rfl

theorem splitFrom_quoted (w : List Char) :
    splitFrom eoo words .singleQuoted word (w.flatMap quoteChar ++ '\'' :: rest) =
      splitFrom eoo words .unquoted (word ++ w) rest := by
  induction w generalizing word with
  | nil => rw [List.flatMap_nil, List.nil_append, splitFrom_go rfl]
  | cons c w ih =>
    rw [List.flatMap_cons, quoteChar]
    split
    · next special =>
      -- Out of the quotes, the escaped character, and back.
      have escaped : turn .unquotedBackslash c = .go [c] .unquoted := by
        rcases special with rfl | rfl <;> rfl
      have out : ['\'', '\\', c, '\''] ++ w.flatMap quoteChar ++ '\'' :: rest =
          '\'' :: '\\' :: c :: '\'' :: (w.flatMap quoteChar ++ '\'' :: rest) := rfl
      rw [out, splitFrom_go rfl, splitFrom_go rfl, splitFrom_go escaped, splitFrom_go rfl,
        List.append_nil, List.append_nil, List.append_nil, ih, List.append_assoc]
      rfl
    · next plain =>
      have stays : turn .singleQuoted c = .go [c] .singleQuoted :=
        if_neg fun quote => plain (.inl quote)
      rw [List.singleton_append, List.cons_append, splitFrom_go stays, ih, List.append_assoc]
      rfl

theorem splitFrom_escape (w : List Char) :
    splitFrom eoo words .delimiter [] (escape w ++ rest) =
      splitFrom eoo words .unquoted w rest := by
  rw [escape]
  split
  · next bare =>
    rw [Bool.and_eq_true, List.all_eq_true] at bare
    obtain ⟨some, isPlain⟩ := bare
    cases w with
    | nil => cases some
    | cons c w =>
      obtain ⟨here, others⟩ := List.forall_mem_cons.mp isPlain
      rw [List.cons_append, splitFrom_go (turn_plain here).1, splitFrom_plain others]
      rfl
  · rw [List.append_assoc, List.cons_append, splitFrom_go rfl, List.singleton_append,
      splitFrom_quoted]
    rfl

/-- The quoted words, with blanks between them. -/
def line (ws : List (List Char)) : List Char := [' '].intercalate (ws.map escape)

theorem line_cons_cons (w v : List Char) (ws : List (List Char)) :
    line (w :: v :: ws) = escape w ++ ' ' :: line (v :: ws) := by
  rw [line, List.map_cons, List.map_cons, List.intercalate_cons_cons, List.append_assoc]
  rfl

theorem line_singleton (w : List Char) : line [w] = escape w := List.intercalate_singleton

/-- With `eoo`, what follows the first `--` is left as it is. -/
theorem splitFrom_line (ws : List (List Char)) :
    splitFrom eoo words .delimiter [] (line ws) =
      if eoo ∧ dashes ∈ ws then
        .ok (words ++ ws.takeWhile (· ≠ dashes), some (line (ws.dropWhile (· ≠ dashes)).tail))
      else .ok (words ++ ws, none) := by
  induction ws generalizing words with
  | nil => simp [line, splitFrom, finish]
  | cons w ws ih =>
    by_cases stop : w = dashes
    · have after (ws : List (List Char)) : splitFrom eoo words .delimiter [] (line (w :: ws)) =
          if eoo then .ok (words, some (line ws))
          else splitFrom eoo (words ++ [w]) .delimiter [] (line ws) := by
        cases ws with
        | nil =>
          rw [line_singleton, ← List.append_nil (escape w), splitFrom_escape, splitFrom]
          simp [finish, stop, line, splitFrom]
        | cons v ws => rw [line_cons_cons, splitFrom_escape, splitFrom_flush rfl, stop]; simp
      rw [after, ih]
      cases eoo <;> simp [stop]
    · have after (ws : List (List Char)) : splitFrom eoo words .delimiter [] (line (w :: ws)) =
          splitFrom eoo (words ++ [w]) .delimiter [] (line ws) := by
        cases ws with
        | nil =>
          rw [line_singleton, ← List.append_nil (escape w), splitFrom_escape, splitFrom]
          simp [finish, stop, line, splitFrom]
        | cons v ws =>
          rw [line_cons_cons, splitFrom_escape, splitFrom_flush rfl, if_neg fun both => stop both.1]
      have other : dashes ∈ w :: ws ↔ dashes ∈ ws :=
        List.mem_cons.trans (or_iff_right fun same => stop same.symm)
      rw [after, ih]
      simp only [other]
      split <;> simp [stop]

/-- Quoted words before other text. -/
theorem splitFrom_line_append {w : List Char} {ws : List (List Char)}
    (clean : ∀ v ∈ w :: ws, ¬(v = dashes ∧ eoo = true)) :
    splitFrom eoo words .delimiter [] (line (w :: ws) ++ ' ' :: rest) =
      splitFrom eoo (words ++ w :: ws) .delimiter [] rest := by
  induction ws generalizing w words with
  | nil =>
    have here := clean w List.mem_cons_self
    rw [line_singleton, splitFrom_escape, splitFrom_flush rfl, if_neg here]
  | cons v ws ih =>
    obtain ⟨here, others⟩ := List.forall_mem_cons.mp clean
    rw [line_cons_cons, List.append_assoc, splitFrom_escape, List.cons_append, splitFrom_flush rfl,
      if_neg here, ih others, List.append_assoc]
    rfl

/-- Groups of quoted words, with blanks between them, are split into all of the words. -/
theorem splitFrom_lines (words : List (List Char)) (groups : List (List (List Char))) :
    splitFrom false words .delimiter [] ([' '].intercalate (groups.map line)) =
      .ok (words ++ groups.flatten, none) := by
  induction groups generalizing words with
  | nil => rw [List.flatten_nil, List.append_nil]; rfl
  | cons ws groups ih =>
    cases groups with
    | nil =>
      rw [List.map_cons, List.map_nil, List.intercalate_singleton, splitFrom_line,
        if_neg fun h => Bool.false_ne_true h.1, List.flatten_singleton]
    | cons next groups =>
      rw [List.map_cons, List.map_cons, List.intercalate_cons_cons, List.append_assoc,
        List.singleton_append, ← List.map_cons, List.flatten_cons, ← List.append_assoc]
      cases ws with
      | nil =>
        rw [List.append_nil]
        exact (splitFrom_go rfl).trans (ih words)
      | cons w ws =>
        rw [splitFrom_line_append fun v _ both => Bool.false_ne_true both.2, ih]

/-- A line is its words, quoted and with blanks between them. -/
theorem utf8_line (ws : List (List Char)) :
    utf8 (line ws) = [0x20].intercalate (ws.map fun w => escapeOsBytes (utf8 w)) := by
  simp only [escape_encoded]
  induction ws with
  | nil => rfl
  | cons w ws ih =>
    cases ws with
    | nil => simp [line]
    | cons v ws =>
      rw [List.map_cons] at ih
      rw [line_cons_cons, List.map_cons, List.map_cons, List.intercalate_cons_cons, ← ih, utf8,
        List.flatMap_append, List.flatMap_cons, List.append_assoc]
      rfl

/-- The words before the first `--` are split, and the quoted rest is kept. -/
theorem split_line_rest (ws : List (List Char)) :
    split (line ws) true =
      if dashes ∈ ws then
        .ok (ws.takeWhile (· ≠ dashes), some (line (ws.dropWhile (· ≠ dashes)).tail))
      else .ok (ws, none) := by
  rw [split, splitFrom_line]
  simp

/-- Quoting the words of a command line and splitting it gives the words back; with `eoo`, up to
the first `--`, and the quoted rest. -/
theorem split_line (ws : List (List Char)) :
    utf8 (line ws) = [0x20].intercalate (ws.map fun w => escapeOsBytes (utf8 w)) ∧
      split (line ws) false = .ok (ws, none) ∧
      split (line ws) true =
        if dashes ∈ ws then
          .ok (ws.takeWhile (· ≠ dashes), some (line (ws.dropWhile (· ≠ dashes)).tail))
        else .ok (ws, none) := by
  refine ⟨utf8_line ws, ?_, split_line_rest ws⟩
  rw [split, splitFrom_line]
  simp

end Shell

end Yazi.Shared
