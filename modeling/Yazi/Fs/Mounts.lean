import Yazi.Base.Lines
import Yazi.Base.Substitute
import Yazi.Widgets.Input

/-!
The table of mounts, as the kernel prints it.

The fields of a line stand between blanks, so what is special in a field is written as a backslash
and an octal code. The codes are replaced one after the other, and that of the backslash last.
-/
namespace Yazi.Fs.Mounts
open Base Widgets

structure Partition where
  src : List Char
  dist : List Char
  fstype : List Char
  deriving DecidableEq, Repr

/-- The three digits that follow the backslash. -/
def octal (c : Char) : List Char :=
  [c.toNat / 64, c.toNat / 8 % 8, c.toNat % 8].map fun n => Char.ofNat (0x30 + n)

/-- `'\t'`, `'\n'`, `' '`, `'#'` and `'\\'`. -/
def codes : List (List Char × List Char) :=
  [("\\011".toList, ['\t']), ("\\012".toList, ['\n']), ("\\040".toList, [' ']),
    ("\\043".toList, ['#']), ("\\134".toList, ['\\'])]

def unmangleOctal (s : List Char) : List Char :=
  codes.foldl (fun s code => substitute code.1 code.2 s) s

/-- `str::split_whitespace` -/
def splitWhitespace (s : List Char) : List (List Char) := (s.splitOnP isWhitespace).filter (· ≠ [])

/-- Lines with less than three fields are passed over. -/
def mounts (s : List Char) : List Partition :=
  (Lines.lines '\n' '\r' s).filterMap fun line =>
    match splitWhitespace line with
    | src :: dist :: fstype :: _ =>
      some ⟨unmangleOctal src, unmangleOctal dist, unmangleOctal fstype⟩
    | _ => none

/-! ### What the kernel prints -/

def special : List Char := ['\t', '\n', ' ', '#', '\\']

/-- How a character is written, with the codes of some already replaced. -/
def code (done : List Char) (c : Char) : List Char :=
  if c ∈ special ∧ c ∉ done then '\\' :: octal c else [c]

def mangle (s : List Char) : List Char := s.flatMap (code [])

theorem octal_special : ∀ c ∈ special, '\\' ∉ octal c ∧
    (∀ d ∈ octal c, isWhitespace d = false) ∧ ∀ d ∈ special, octal d = octal c → d = c := by
  have tab : octal '\t' = ['0', '1', '1'] := rfl
  have newline : octal '\n' = ['0', '1', '2'] := rfl
  have blank : octal ' ' = ['0', '4', '0'] := rfl
  have hash : octal '#' = ['0', '4', '3'] := rfl
  have slash : octal '\\' = ['1', '3', '4'] := rfl
  have digits : ∀ d ∈ ['0', '1', '2', '3', '4'], isWhitespace d = false := by simp [isWhitespace]
  simp only [List.forall_mem_cons] at digits
  simp [special, tab, newline, blank, hash, slash, digits]

/-- Replacing the code of a character leaves those of the others. -/
theorem substitute_code {c : Char} (among : c ∈ special) {done : List Char} (open' : '\\' ∉ done)
    (s : List Char) :
    substitute ('\\' :: octal c) [c] (s.flatMap (code done)) = s.flatMap (code (c :: done)) := by
  rw [substitute_flatMap]
  · congr 1
    funext d
    rw [code, code]
    by_cases given : d ∈ special ∧ d ∉ done
    · rw [if_pos given]
      by_cases same : d = c
      · subst same
        simp
      · have other : octal d ≠ octal c := fun equal =>
          same ((octal_special c among).2.2 d given.1 equal)
        simp [other, same, given]
    · rw [if_neg given, if_neg (by simp [octal]), if_neg fun both => given ⟨both.1, fun h =>
        both.2 (List.mem_cons_of_mem c h)⟩]
  · intro d
    rw [code]
    split
    · next given => exact .inr ⟨octal d, (octal_special d given.1).1, rfl, rfl⟩
    · next plain =>
      refine .inl ⟨d, ?_, rfl⟩
      rintro rfl
      exact plain ⟨by decide, open'⟩

/-- The codes are read back, whatever the text. -/
theorem unmangle_mangle (s : List Char) : unmangleOctal (mangle s) = s := by
  have same : codes = special.map fun c => ('\\' :: octal c, [c]) := by decide
  have plain : code special.reverse = fun c => [c] := by
    funext c
    rw [code, if_neg fun both => both.2 (List.mem_reverse.mpr both.1)]
  rw [unmangleOctal, same, mangle, special, List.map_cons, List.map_cons, List.map_cons,
    List.map_cons, List.map_singleton, List.foldl_cons, List.foldl_cons, List.foldl_cons,
    List.foldl_cons, List.foldl_cons, List.foldl_nil, substitute_code (by decide) (by decide),
    substitute_code (by decide) (by decide), substitute_code (by decide) (by decide),
    substitute_code (by decide) (by decide), substitute_code (by decide) (by decide)]
  exact (congrArg s.flatMap plain).trans (List.flatMap_singleton' s)

/-! ### The table -/

/-- A line of the table: what follows the fields does not end it. -/
def line (p : Partition) (rest : List Char) : List Char :=
  mangle p.src ++ ' ' :: mangle p.dist ++ ' ' :: mangle p.fstype ++ ' ' :: rest

/-- A field is not empty, and has no blanks but those that the kernel writes as codes. -/
def Plain (field : List Char) : Prop :=
  field ≠ [] ∧ ∀ c ∈ field, isWhitespace c = true → c ∈ special

theorem mangle_clean {field : List Char} (plain : Plain field) :
    mangle field ≠ [] ∧ ∀ c ∈ mangle field, isWhitespace c = false := by
  constructor
  · cases field with
    | nil => exact absurd rfl plain.1
    | cons c field =>
      rw [mangle, List.flatMap_cons, code]
      split <;> exact List.cons_ne_nil _ _
  · intro c member
    obtain ⟨d, inside, member⟩ := List.mem_flatMap.mp member
    rw [code] at member
    split at member
    · next given =>
      rcases List.mem_cons.mp member with rfl | digit
      · decide
      · exact (octal_special d given.1).2.1 c digit
    · next other =>
      obtain rfl := List.mem_singleton.mp member
      rw [Bool.eq_false_iff]
      exact fun blank => other ⟨plain.2 c inside blank, List.not_mem_nil⟩

theorem splitWhitespace_append {field : List Char} (some : field ≠ [])
    (clean : ∀ c ∈ field, isWhitespace c = false) (rest : List Char) :
    splitWhitespace (field ++ ' ' :: rest) = field :: splitWhitespace rest := by
  rw [splitWhitespace, List.splitOnP_append_cons_of_forall_mem clean ' ' (by decide),
    List.filter_cons, if_pos (by simpa using some)]
  rfl

theorem splitWhitespace_line {p : Partition} (src : Plain p.src) (dist : Plain p.dist)
    (fstype : Plain p.fstype) (rest : List Char) :
    ∃ more, splitWhitespace (line p rest) =
      mangle p.src :: mangle p.dist :: mangle p.fstype :: more := by
  obtain ⟨some, clean⟩ := mangle_clean src
  obtain ⟨some', clean'⟩ := mangle_clean dist
  obtain ⟨some'', clean''⟩ := mangle_clean fstype
  refine ⟨splitWhitespace rest, ?_⟩
  rw [line, List.append_assoc, List.append_assoc, List.cons_append, List.cons_append,
    splitWhitespace_append some clean, splitWhitespace_append some' clean',
    splitWhitespace_append some'' clean'']

theorem strip_line (p : Partition) (rest : List Char) :
    ∃ rest', Lines.strip '\r' (line p rest) = line p rest' := by
  rw [Lines.strip]
  split
  · next ends =>
    cases rest with
    | nil => exact absurd ((List.getLast?_concat ..).symm.trans ends) (by decide)
    | cons c rest =>
      refine ⟨(c :: rest).dropLast, ?_⟩
      rw [line, List.dropLast_append_of_ne_nil (List.cons_ne_nil _ _),
        List.dropLast_cons_of_ne_nil (List.cons_ne_nil _ _)]
      rfl
  · exact ⟨rest, rfl⟩

private def usb : Partition := ⟨['/', 's'], ['/', 'a', ' ', 'b', '\\', '#'], ['v']⟩

end Yazi.Fs.Mounts
