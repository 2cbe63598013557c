import Mathlib
import Yazi.Shared.Path

/-!
`ui.truncate`: a text that is cut to a width, with an ellipsis at the cut.

The characters are counted, where the source counts their bytes: it slices between characters only.
-/
namespace Yazi.Plugin
open Shared

/-- A character of a string, or bytes that are none and are shown as U+FFFD. -/
inductive Piece where
  | char (c : Char)
  | broken (first : UInt8) (more : Bytes)
  deriving DecidableEq

namespace Piece

def length : Piece → Nat
  | .char c => c.utf8Size
  | .broken _ more => more.length + 1

/-- `String::from_utf8_lossy` -/
def lossy : Piece → Char
  | .char c => c
  | .broken .. => '\uFFFD'

end Piece

def ellipsis : Char := '…'

section width
variable (width : Char → Nat)

/-- The position of the last character that fits, the width before the last one that was looked at,
and whether there was one that did not fit. -/
def traverse (max : Nat) : List (Char × Nat) → Option Nat → Nat → Nat → Option Nat × Nat × Bool
  | [], idx, last, adv => (idx, last, decide (adv > max))
  | (c, i) :: rest, idx, _, adv =>
    -- `take_while` has already moved on when it meets one that does not fit.
    if adv + width c ≤ max then traverse max rest (some i) adv (adv + width c)
    else (idx, adv, decide (adv + width c > max))

def truncate (s : List Piece) (max : Nat) (rtl : Bool) : List Piece :=
  if s = [] then s
  else if (s.map Piece.length).sum ≤ max then s
  else if max < 1 then []
  else
    let lossy := s.map Piece.lossy
    let it := if rtl then lossy.zipIdx.reverse else lossy.zipIdx
    match traverse width max it none 0 0 with
    | (none, _, _) => [.char ellipsis]
    | (some idx, last, remain) =>
      if !remain then s
      else
        (match rtl, decide (last = max) with
        | false, false => lossy.take (idx + 1) ++ [ellipsis]
        | false, true => lossy.take idx ++ [ellipsis]
        | true, false => ellipsis :: lossy.drop idx
        | true, true => ellipsis :: lossy.drop (idx + 1)).map .char

/-! ### What fits -/

def total (l : List Char) : Nat := (l.map width).sum

/-- The longest beginning that is not wider. -/
def fitting : Nat → List Char → List Char
  | _, [] => []
  | n, c :: l => if width c ≤ n then c :: fitting (n - width c) l else []

theorem fitting_begins (n : Nat) (l : List Char) : fitting width n l <+: l := by
  induction l generalizing n with
  | nil => exact List.nil_prefix
  | cons c l ih =>
    rw [fitting]
    split
    · exact (List.prefix_cons_inj c).mpr (ih _)
    · exact List.nil_prefix

theorem total_fitting (n : Nat) (l : List Char) : total width (fitting width n l) ≤ n := by
  induction l generalizing n with
  | nil => exact Nat.zero_le n
  | cons c l ih =>
    rw [fitting]
    split
    · have rest := ih (n - width c)
      simp only [total, List.map_cons, List.sum_cons] at rest ⊢
      omega
    · exact Nat.zero_le n

/-- Everything fits, or not. -/
theorem fitting_eq_self (n : Nat) (l : List Char) :
    fitting width n l = l ↔ total width l ≤ n := by
  constructor
  · intro all
    rw [← all]
    exact total_fitting width n l
  · intro fits
    induction l generalizing n with
    | nil => rfl
    | cons c l ih =>
      simp only [total, List.map_cons, List.sum_cons] at fits
      rw [fitting, if_pos (by omega), ih (n - width c) (by rw [total]; omega)]

variable {width}

/-- The traversal ends behind what fits. -/
theorem traverse_spec {max : Nat} {l : List (Char × Nat)} {idx : Option Nat} {last adv : Nat}
    (below : adv ≤ max) :
    ∃ reached, traverse width max l idx last adv =
        ((((l.take (fitting width (max - adv) (l.map Prod.fst)).length).getLast?).map Prod.snd).or
          idx, reached, decide (fitting width (max - adv) (l.map Prod.fst) ≠ l.map Prod.fst)) ∧
      (fitting width (max - adv) (l.map Prod.fst) ≠ l.map Prod.fst →
        reached = adv + total width (fitting width (max - adv) (l.map Prod.fst))) := by
  induction l generalizing idx last adv with
  | nil =>
    refine ⟨last, ?_, fun other => absurd rfl other⟩
    simp [traverse, fitting, below]
  | cons entry l ih =>
    obtain ⟨c, i⟩ := entry
    rw [traverse, List.map_cons, fitting]
    dsimp only
    by_cases fits : adv + width c ≤ max
    · obtain ⟨reached, same, place⟩ := @ih (some i) adv (adv + width c) fits
      rw [if_pos fits, if_pos (by omega), same, Nat.sub_sub]
      refine ⟨reached, ?_, ?_⟩
      · rw [List.length_cons, List.take_succ_cons, List.getLast?_cons]
        cases (l.take (fitting width (max - (adv + width c)) (l.map Prod.fst)).length).getLast? <;>
          simp
      · intro other
        rw [place (fun all => other (by rw [all]))]
        simp only [total, List.map_cons, List.sum_cons, Nat.add_assoc]
    · rw [if_neg fits, if_neg (by omega)]
      exact ⟨adv, by simp [Nat.lt_of_not_le fits], fun _ => rfl⟩

end width

/-! ### The cut -/

/-- The characters in the order in which they are read. -/
def ordered (rtl : Bool) (l : List Char) : List Char := if rtl then l.reverse else l

/-- What is kept: what fits, less its last character if that leaves no room for the ellipsis. -/
def kept (width : Char → Nat) (max : Nat) (l : List Char) : List Char :=
  if total width (fitting width max l) = max then (fitting width max l).dropLast
  else fitting width max l

theorem kept_begins (width : Char → Nat) (max : Nat) (l : List Char) : kept width max l <+: l := by
  rw [kept]
  split
  · exact (List.dropLast_prefix _).trans (fitting_begins width max l)
  · exact fitting_begins width max l

variable {width : Char → Nat}

theorem zipIdx_last {l : List Char} {k : Nat} (some : 0 < k) (inside : k ≤ l.length) :
    (l.zipIdx.take k).getLast?.map Prod.snd = Option.some (k - 1) := by
  rw [List.getLast?_eq_getElem?, List.length_take, List.length_zipIdx, Nat.min_eq_left inside,
    List.getElem?_take_of_lt (by omega), List.getElem?_zipIdx,
    List.getElem?_eq_getElem (by omega)]
  simp

theorem zipIdx_reverse_last {l : List Char} {k : Nat} (some : 0 < k) (inside : k ≤ l.length) :
    (l.zipIdx.reverse.take k).getLast?.map Prod.snd = Option.some (l.length - k) := by
  rw [List.getLast?_eq_getElem?, List.length_take, List.length_reverse, List.length_zipIdx,
    Nat.min_eq_left inside, List.getElem?_take_of_lt (by omega),
    List.getElem?_reverse (by rw [List.length_zipIdx]; omega), List.length_zipIdx,
    List.getElem?_zipIdx, List.getElem?_eq_getElem (by omega)]
  simp
  omega

/-- The place of the last character that was looked at. -/
theorem last_read (rtl : Bool) {l : List Char} {k : Nat} (some : 0 < k) (inside : k ≤ l.length) :
    ((if rtl then l.zipIdx.reverse else l.zipIdx).take k).getLast?.map Prod.snd =
      Option.some (if rtl then l.length - k else k - 1) := by
  cases rtl with
  | false => exact zipIdx_last some inside
  | true => exact zipIdx_reverse_last some inside

theorem take_fitting (l : List Char) (max : Nat) :
    l.take (fitting width max l).length = fitting width max l :=
  (List.prefix_iff_eq_take.mp (fitting_begins width max l)).symm

theorem take_dropLast (l : List Char) (max : Nat) :
    l.take ((fitting width max l).length - 1) = (fitting width max l).dropLast := by
  rw [List.dropLast_eq_take]
  nth_rewrite 3 [← take_fitting l max]
  rw [List.take_take, Nat.min_eq_left (Nat.sub_le ..)]

theorem ordered_read (rtl : Bool) (l : List Char) :
    (if rtl then l.zipIdx.reverse else l.zipIdx).map Prod.fst = ordered rtl l := by
  cases rtl <;> simp [ordered]

theorem total_ordered (rtl : Bool) (l : List Char) :
    total width (ordered rtl l) = total width l := by
  cases rtl with
  | false => rfl
  | true => rw [ordered, if_pos rfl, total, List.map_reverse, List.sum_reverse, total]

/-- A text that does not fit is what is kept of it, with an ellipsis behind it as it is read. -/
theorem truncate_eq (s : List Piece) (max : Nat) (rtl : Bool) :
    truncate width s max rtl =
      if (s.map Piece.length).sum ≤ max then s
      else if max = 0 then []
      else if total width (s.map Piece.lossy) ≤ max then s
      else (ordered rtl
        (kept width max (ordered rtl (s.map Piece.lossy)) ++ [ellipsis])).map .char := by
  rw [truncate]
  by_cases empty : s = []
  · rw [if_pos empty, if_pos (by simp [empty])]
  rw [if_neg empty]
  by_cases small : (s.map Piece.length).sum ≤ max
  · rw [if_pos small, if_pos small]
  rw [if_neg small, if_neg small]
  by_cases none : max = 0
  · rw [if_pos (by omega), if_pos none]
  rw [if_neg (by omega), if_neg none]
  -- From here on only the characters matter, not how many bytes they take.
  have some : s.map Piece.lossy ≠ [] := by simpa using empty
  generalize s.map Piece.lossy = chars at some
  obtain ⟨reached, traversed, place⟩ := @traverse_spec width max
    (if rtl then chars.zipIdx.reverse else chars.zipIdx) .none 0 0 (Nat.zero_le _)
  rw [ordered_read, Nat.sub_zero] at traversed place
  have all := (fitting_eq_self width max (ordered rtl chars)).trans (by rw [total_ordered])
  dsimp only
  rw [traversed]
  have inside : (fitting width max (ordered rtl chars)).length ≤ chars.length := by
    have shorter := (fitting_begins width max (ordered rtl chars)).length_le
    cases rtl <;> simpa [ordered] using shorter
  rcases Nat.eq_zero_or_pos (fitting width max (ordered rtl chars)).length with zero | pos
  · have nothing := List.length_eq_zero_iff.mp zero
    have wide : ¬total width chars ≤ max := by
      intro fits
      have same := all.mpr fits
      rw [nothing] at same
      apply some
      cases rtl <;> simpa [ordered] using same.symm
    have short : total width [] ≠ max := Ne.symm none
    rw [if_neg wide, kept, nothing, if_neg short]
    cases rtl <;> simp [ordered]
  rw [last_read rtl pos inside, Option.some_or]
  dsimp only
  by_cases fits : total width chars ≤ max
  · rw [if_pos fits, all.mpr fits]
    simp
  have cut : fitting width max (ordered rtl chars) ≠ ordered rtl chars :=
    fun same => fits (all.mp same)
  rw [if_neg fits, place cut, Nat.zero_add, decide_eq_true cut, if_neg (by simp), kept]
  congr 1
  cases rtl with
  | false =>
    rw [ordered, if_neg Bool.false_ne_true] at pos ⊢
    by_cases full : total width (fitting width max chars) = max
    · rw [decide_eq_true full, if_pos full, ← take_dropLast]
      rfl
    · rw [decide_eq_false full, if_neg full]
      dsimp only
      rw [if_neg Bool.false_ne_true, Nat.sub_add_cancel pos, take_fitting]
      rfl
  | true =>
    have dropped : ∀ k, ordered true (chars.reverse.take k ++ [ellipsis]) =
        ellipsis :: chars.drop (chars.length - k) := by
      intro k
      rw [ordered, if_pos rfl, List.take_reverse, List.reverse_append, List.reverse_reverse]
      rfl
    rw [show ordered true chars = chars.reverse from rfl] at pos inside ⊢
    by_cases full : total width (fitting width max chars.reverse) = max
    · rw [decide_eq_true full, if_pos full, ← take_dropLast, dropped]
      dsimp only
      rw [if_pos rfl, show chars.length - ((fitting width max chars.reverse).length - 1) =
        chars.length - (fitting width max chars.reverse).length + 1 by omega]
    · have whole := dropped (fitting width max chars.reverse).length
      rw [take_fitting] at whole
      rw [decide_eq_false full, if_neg full, whole]
      rfl

/-- Without characters of no width, what is kept is what fits beside the ellipsis. -/
theorem kept_eq {l : List Char} (visible : ∀ c ∈ l, 0 < width c) (n : Nat) :
    kept width n l = fitting width (n - 1) l := by
  induction l generalizing n with
  | nil => simp [kept, fitting]
  | cons c l ih =>
    have here := visible c List.mem_cons_self
    have rest := ih (fun d member => visible d (List.mem_cons_of_mem c member)) (n - width c)
    rw [kept] at rest ⊢
    rw [fitting, fitting]
    by_cases fits : width c ≤ n
    · rw [if_pos fits]
      have sum : total width (c :: fitting width (n - width c) l) = n ↔
          total width (fitting width (n - width c) l) = n - width c := by
        simp only [total, List.map_cons, List.sum_cons]
        omega
      by_cases exact : width c ≤ n - 1
      · rw [if_pos exact, Nat.sub_right_comm, ← rest]
        by_cases full : total width (fitting width (n - width c) l) = n - width c
        · have some : fitting width (n - width c) l ≠ [] := by
            intro nothing
            rw [nothing] at full
            simp only [total, List.map_nil, List.sum_nil] at full
            omega
          rw [if_pos (sum.mpr full), if_pos full, List.dropLast_cons_of_ne_nil some]
        · rw [if_neg (fun same => full (sum.mp same)), if_neg full]
      · -- It takes all that is left, so it is what goes for the ellipsis.
        have nothing : fitting width (n - width c) l = [] := by
          cases l with
          | nil => rfl
          | cons d l =>
            have next := visible d (by simp)
            rw [fitting, if_neg (by omega)]
        have taken : total width [c] = n := by simpa [total] using (show width c = n by omega)
        rw [if_neg exact, nothing, if_pos taken]
        rfl
    · rw [if_neg fits, if_neg (show ¬width c ≤ n - 1 by omega)]
      simp

theorem total_append (l m : List Char) : total width (l ++ m) = total width l + total width m := by
  rw [total, List.map_append, List.sum_append, total, total]

/-- With the ellipsis it fits unless what is left out for it has no width. -/
theorem kept_fits {max : Nat} (some : 0 < max) (l : List Char) :
    total width (kept width max l) + 1 ≤ max ↔ (total width (fitting width max l) = max →
      ∀ c, (fitting width max l).getLast? = Option.some c → 0 < width c) := by
  have below := total_fitting width max l
  rw [kept]
  split
  · next full =>
    rcases List.eq_nil_or_concat' (fitting width max l) with nothing | ⟨front, c, split⟩
    · rw [nothing] at full
      exact absurd full.symm (Nat.ne_of_gt some)
    · rw [split, List.dropLast_concat, List.getLast?_concat]
      rw [split, total_append] at full
      have sum : total width front + width c = max := by simpa [total] using full
      constructor
      · rintro room - d ⟨⟩
        omega
      · intro visible
        have shown := visible (by rw [total_append]; exact full) c rfl
        omega
  · next other => exact iff_of_true (by omega) fun full => absurd full other

theorem map_lossy (l : List Char) : (l.map Piece.char).map Piece.lossy = l := by
  rw [List.map_map]
  exact List.map_id l

/-- What fits is left as it is. Of what does not, as much is kept from the side where reading begins
as leaves room for the ellipsis, so that it fits then, as long as no character without width is
left out for it. -/
theorem truncated (one : width ellipsis = 1) (s : List Piece) (max : Nat) (rtl : Bool) :
    let chars := ordered rtl (s.map Piece.lossy)
    ((s.map Piece.length).sum ≤ max ∨ 0 < max ∧ total width chars ≤ max →
      truncate width s max rtl = s) ∧
    (max < (s.map Piece.length).sum ∧ 0 < max ∧ max < total width chars →
      (∃ kept rest, chars = kept ++ rest ∧
        truncate width s max rtl = (ordered rtl (kept ++ [ellipsis])).map .char ∧
        ((∀ c ∈ chars, 0 < width c) → kept = fitting width (max - 1) chars)) ∧
      (total width ((truncate width s max rtl).map Piece.lossy) ≤ max ↔
        (total width (fitting width max chars) = max →
          ∀ c, (fitting width max chars).getLast? = some c → 0 < width c))) := by
  dsimp only
  rw [truncate_eq, total_ordered]
  constructor
  · rintro (small | ⟨some, fits⟩)
    · rw [if_pos small]
    · rw [if_neg (Nat.ne_of_gt some), if_pos fits, ite_self]
  · rintro ⟨large, some, wide⟩
    rw [if_neg (Nat.not_le.mpr large), if_neg (Nat.ne_of_gt some), if_neg (Nat.not_le.mpr wide),
      map_lossy, total_ordered, total_append]
    have ellipsis_one : total width [ellipsis] = 1 := by simp [total, one]
    rw [ellipsis_one]
    refine ⟨?_, kept_fits some _⟩
    obtain ⟨rest, split⟩ := kept_begins width max (ordered rtl (s.map Piece.lossy))
    exact ⟨_, rest, split.symm, rfl, fun visible => kept_eq visible max⟩

def columns (c : Char) : Nat := if c = '\u0301' then 0 else if c.val < 0x2e80 then 1 else 2

theorem truncated_sample :
    let s : List Piece := [.char 'a', .char 'b', .char 'c', .char '日', .char '本']
    truncate columns s 4 false = [.char 'a', .char 'b', .char 'c', .char ellipsis] ∧
      total columns ((truncate columns s 4 false).map Piece.lossy) ≤ 4 := by
  refine ⟨by decide, ((truncated (by decide) _ 4 false).2 (by decide)).2.mpr ?_⟩
  rintro - c ⟨⟩
  decide

/-- Where an accent is left out for the ellipsis, one column is missing. -/
example :
    let s : List Piece := [.char 'a', .char 'b', .char '\u0301', .char 'c', .char 'd']
    total columns ((truncate columns s 2 false).map Piece.lossy) = 3 := by decide

end Yazi.Plugin
