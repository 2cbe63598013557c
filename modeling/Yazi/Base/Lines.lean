import Mathlib

/-!
Texts as lines.

Texts that are joined, one a line, are read back when none of them has a line end of its own. A
text that has one takes the place of more than one, so all that follow are shifted.
-/
namespace Yazi.Base.Lines

variable {α : Type} [DecidableEq α] (newline return' : α)

/-- A final return goes with the end of its line. -/
def strip (line : List α) : List α :=
  if line.getLast? = some return' then line.dropLast else line

/-- The lines of a text. An empty last one does not count. -/
def lines (s : List α) : List (List α) :=
  let parts := s.splitOn newline
  parts.dropLast.map (strip return') ++ (parts.getLast?.toList.filter (· ≠ []))

def join (parts : List (List α)) : List α := [newline].intercalate parts

variable {newline return'}

theorem splitOn_append (s t : List α) :
    (s ++ newline :: t).splitOn newline = s.splitOn newline ++ t.splitOn newline :=
  List.splitOn_append_cons_self s t

variable (newline) in
/-- No part has the separator. -/
theorem not_mem_splitOn (s : List α) : ∀ part ∈ s.splitOn newline, newline ∉ part := by
  induction s with
  | nil => simp
  | cons a s ih =>
    by_cases separator : a = newline
    · subst separator
      have split : (a :: s).splitOn a = [] :: s.splitOn a := splitOn_append [] s
      rw [split]
      simpa using ih
    · have split : (a :: s).splitOn newline = (s.splitOn newline).modifyHead (a :: ·) := by
        simp [List.splitOn_cons_eq_if_modifyHead, separator]
      cases parts : s.splitOn newline with
      | nil => exact absurd parts (List.splitOn_ne_nil newline s)
      | cons part rest =>
        rw [parts] at ih split
        simp only [split, List.modifyHead_cons, List.mem_cons, forall_eq_or_imp] at ih ⊢
        refine ⟨?_, ih.2⟩
        rintro (rfl | member)
        · exact separator rfl
        · exact ih.1 member

omit [DecidableEq α] in
theorem join_cons {part : List α} {parts : List (List α)} (more : parts ≠ []) :
    join newline (part :: parts) = part ++ newline :: join newline parts := by
  cases parts with
  | nil => exact absurd rfl more
  | cons next rest => simp [join, List.intercalate]

variable (newline) in
/-- Every joined text takes at least one part, and more if it has a separator. -/
theorem length_splitOn (s : List α) :
    (s.splitOn newline).length = s.count newline + 1 := by
  induction s with
  | nil => rfl
  | cons a s ih =>
    by_cases separator : a = newline
    · subst separator
      have split : (a :: s).splitOn a = [] :: s.splitOn a := splitOn_append [] s
      rw [split, List.length_cons, ih, List.count_cons_self]
    · have split : (a :: s).splitOn newline = (s.splitOn newline).modifyHead (a :: ·) := by
        simp [List.splitOn_cons_eq_if_modifyHead, separator]
      rw [split, List.length_modifyHead, ih, List.count_cons_of_ne separator]

theorem count_join {parts : List (List α)} (some : parts ≠ []) :
    (join newline parts).count newline + 1 = parts.length + (parts.map (·.count newline)).sum := by
  induction parts with
  | nil => exact absurd rfl some
  | cons part rest ih =>
    by_cases last : rest = []
    · subst last
      simp [join, List.intercalate]
      omega
    · have ih := ih last
      rw [join_cons last, List.count_append, List.count_cons_self, List.map_cons, List.sum_cons,
        List.length_cons]
      omega

/-- Joined texts come back as lines, up to their returns, where none has a line end. -/
theorem lines_join {parts : List (List α)} {last : List α}
    (clean : ∀ part ∈ parts ++ [last], newline ∉ part) :
    lines newline return' (join newline (parts ++ [last])) =
      parts.map (strip return') ++ [last].filter (· ≠ []) := by
  have split : (join newline (parts ++ [last])).splitOn newline = parts ++ [last] :=
    List.splitOn_intercalate newline clean (by simp)
  rw [lines, split, List.dropLast_concat, List.getLast?_concat]
  rfl

/-- A text with a line end shifts the others, so that as many lines as texts are not the texts. -/
theorem lines_of_dirty {parts : List (List α)} (dirty : ∃ part ∈ parts, newline ∈ part) :
    parts.length ≤ (lines newline return' (join newline parts)).length ∧
      ∀ line ∈ lines newline return' (join newline parts), newline ∉ line := by
  obtain ⟨part, member, inside⟩ := dirty
  have some : parts ≠ [] := List.ne_nil_of_mem member
  constructor
  · have total : (join newline parts).count newline + 1 = _ := count_join some
    have split := length_splitOn newline (join newline parts)
    have positive : 0 < (parts.map (·.count newline)).sum := by
      apply List.sum_pos_iff_exists_pos_nat.mpr
      exact ⟨_, List.mem_map_of_mem member, List.count_pos_iff.mpr inside⟩
    rw [lines, List.length_append, List.length_map, List.length_dropLast, split]
    omega
  · intro line found
    have clean := not_mem_splitOn newline (join newline parts)
    rw [lines, List.mem_append] at found
    rcases found with front | back
    · obtain ⟨whole, among, rfl⟩ := List.mem_map.mp front
      have outside := clean whole (List.dropLast_subset _ among)
      rw [strip]
      split
      · exact fun within => outside (List.dropLast_subset _ within)
      · exact outside
    · have among := List.mem_of_mem_filter back
      rw [Option.mem_toList] at among
      exact clean line (List.mem_of_getLast? among)

theorem strip_eq {line : List α} : strip return' line = line ↔ line.getLast? ≠ some return' := by
  rw [strip]
  split
  · next ends =>
    refine iff_of_false (fun same => ?_) (not_not.mpr ends)
    have some : line ≠ [] := by
      rintro rfl
      cases ends
    have shorter := congrArg List.length same
    have positive := List.length_pos_iff.mpr some
    rw [List.length_dropLast] at shorter
    omega
  · next other => exact iff_of_true rfl other

variable (newline return') in
/-- None of the texts has a line end, and none but the last a final return, unless the last is
empty. -/
def Kept (parts : List (List α)) : Prop :=
  (∀ part ∈ parts, newline ∉ part) ∧
    (parts.getLast? = some [] ∨ ∀ part ∈ parts.dropLast, part.getLast? ≠ some return')

omit [DecidableEq α] in
private theorem map_eq_self {f : List α → List α} {l : List (List α)} :
    l.map f = l ↔ ∀ a ∈ l, f a = a := by
  conv_lhs => rw [← List.map_id l, List.map_map]
  exact List.map_inj_left

/-- As many lines as texts are the texts, or there are fewer lines, exactly if the texts can be
kept. -/
theorem take_lines_iff {parts : List (List α)} :
    ((lines newline return' (join newline parts)).take parts.length).length ≠ parts.length ∨
        (lines newline return' (join newline parts)).take parts.length = parts ↔
      Kept newline return' parts := by
  by_cases clean : ∀ part ∈ parts, newline ∉ part
  · rcases List.eq_nil_or_concat' parts with rfl | ⟨front, last, rfl⟩
    · exact iff_of_true (.inr rfl) ⟨nofun, .inr nofun⟩
    · rw [lines_join clean, Kept, List.getLast?_concat, List.dropLast_concat]
      by_cases empty : last = []
      · subst empty
        refine iff_of_true (.inl ?_) ⟨clean, .inl rfl⟩
        simp
      · have kept : [last].filter (· ≠ []) = [last] := by simp [empty]
        have whole : front.length + [last].length = (front.map (strip return') ++ [last]).length := by
          simp
        rw [kept, List.length_append, whole, List.take_length, ← whole]
        have same : front.map (strip return') ++ [last] = front ++ [last] ↔
            ∀ part ∈ front, part.getLast? ≠ some return' := by
          rw [List.append_left_inj, map_eq_self]
          exact forall₂_congr fun part _ => strip_eq
        constructor
        · rintro (few | result)
          · exact absurd rfl few
          · exact ⟨clean, .inr (same.mp result)⟩
        · rintro ⟨-, none | others⟩
          · exact absurd (Option.some.inj none) empty
          · exact .inr (same.mpr others)
  · obtain ⟨part, member, inside⟩ : ∃ part ∈ parts, newline ∈ part := by
      by_contra none
      exact clean fun part member inside => none ⟨part, member, inside⟩
    obtain ⟨enough, outside⟩ := @lines_of_dirty _ _ newline return' _ ⟨part, member, inside⟩
    refine iff_of_false ?_ fun kept => clean kept.1
    rintro (few | same)
    · exact few (List.length_take_of_le enough)
    · rw [← same] at member
      exact outside part (List.mem_of_mem_take member) inside

end Yazi.Base.Lines
