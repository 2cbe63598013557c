import Yazi.Base.Enumeration
import Yazi.Fs.Sorter

/-!
Whether the order of a listing depends on the order in which its files arrived.

The sort is unstable, so it does exactly when two files are equal for the comparison: when the
method and the fallback together do not tell them apart.
-/
namespace Yazi.Fs.FilesSorter
open Yazi.Base Yazi.Shared Yazi.Shared.Natsort

variable {sorter : FilesSorter} {env : Sorting} {sizes : Sizes} {ranks : Ranks}

/-- Names that natural comparison takes for the same. -/
def SameTokens (insensitive : Bool) (a b : Bytes) : Prop :=
  (tokens a).map (Token.fold insensitive) = (tokens b).map (Token.fold insensitive)

/-- The method does not tell the files apart. -/
def Level (sorter : FilesSorter) (transliterate : Bytes → Bytes) (sizes : Sizes) (ranks : Ranks)
    (a b : File) : Prop :=
  match sorter.sortBy with
  | .none | .random => True
  | .mtime => a.stat.mtime = b.stat.mtime
  | .btime => a.stat.btime = b.stat.btime
  | .extension =>
    if sorter.sensitive then a.sortExt = b.sortExt
    else ((a.sortExt.map (·.bytes)).getD []).map lower = ((b.sortExt.map (·.bytes)).getD []).map lower
  | .alphabetical =>
    if sorter.sensitive then a.urnBytes = b.urnBytes
    else a.urnBytes.map lower = b.urnBytes.map lower
  | .natural =>
    if sorter.translit then
      SameTokens (!sorter.sensitive) (transliterate a.urnBytes) (transliterate b.urnBytes)
    else SameTokens (!sorter.sensitive) a.urnBytes b.urnBytes
  | .size => a.sortSize sizes = b.sortSize sizes
  | .custom => a.sortRank ranks = b.sortRank ranks

/-- Neither does the fallback. -/
def LevelFallback (sorter : FilesSorter) (a b : File) : Prop :=
  match sorter.fallback with
  | .alphabetical => a.urnBytes = b.urnBytes
  | .natural => SameTokens false a.urnBytes b.urnBytes

/-- Nothing tells the files apart. -/
def Tied (sorter : FilesSorter) (transliterate : Bytes → Bytes) (sizes : Sizes) (ranks : Ranks)
    (a b : File) : Prop :=
  (sorter.dirFirst = true → a.isDir = b.isDir) ∧ sorter.Level transliterate sizes ranks a b ∧
    sorter.LevelFallback a b

/-! ### Ties are what the comparison takes for equal -/

instance : Std.LawfulEqOrd Strand where
  eq_of_compare {a b} same := by
    change compareLex (compareOn Strand.tag) (compareOn Strand.bytes) a b = .eq at same
    rw [compareLex, Ordering.then_eq_eq, compareOn, compareOn, Std.LawfulEqCmp.compare_eq_iff_eq,
      Std.LawfulEqCmp.compare_eq_iff_eq] at same
    cases a
    cases b
    rw [Strand.mk.injEq]
    exact same

theorem directed_eq_iff {cmp : File → File → Ordering} [Std.OrientedCmp cmp] (a b : File) :
    sorter.directed cmp a b = .eq ↔ cmp a b = .eq := by
  rw [directed]
  split
  · exact Std.OrientedCmp.eq_comm
  · rfl

theorem cmpInsensitive_eq_iff (a b : Bytes) :
    cmpInsensitive a b = .eq ↔ a.map lower = b.map lower := by
  rw [cmpInsensitive_eq, Std.LawfulEqCmp.compare_eq_iff_eq]

theorem primary_eq_iff (a b : File) :
    sorter.primary env sizes ranks a b = .eq ↔ sorter.Level env.transliterate sizes ranks a b := by
  rw [primary, Level]
  cases sorter.sortBy with
  | none | random => exact iff_of_true rfl trivial
  | mtime | btime | size | custom =>
    dsimp only
    rw [directed_eq_iff, compareOn, Std.LawfulEqCmp.compare_eq_iff_eq]
  | extension =>
    dsimp only
    split
    · rw [directed_eq_iff, compareOn, Std.LawfulEqCmp.compare_eq_iff_eq]
    · rw [directed_eq_iff, comap, cmpInsensitive_eq_iff]
  | alphabetical =>
    dsimp only
    split
    · rw [directed_eq_iff, comap, Std.LawfulEqCmp.compare_eq_iff_eq]
    · rw [directed_eq_iff, comap, cmpInsensitive_eq_iff]
  | natural =>
    dsimp only
    split
    all_goals
      rw [directed_eq_iff, comap, natsort_eq_iff]
      rfl

theorem secondary_eq_iff (a b : File) :
    sorter.secondary a b = .eq ↔ sorter.LevelFallback a b := by
  rw [secondary, LevelFallback]
  cases sorter.fallback with
  | alphabetical =>
    dsimp only
    rw [directed_eq_iff, comap, Std.LawfulEqCmp.compare_eq_iff_eq]
  | natural =>
    dsimp only
    rw [directed_eq_iff, comap, natsort_eq_iff]
    rfl

theorem promote_eq_iff (a b : File) :
    sorter.promote a b = .eq ↔ (sorter.dirFirst = true → a.isDir = b.isDir) := by
  rw [promote]
  split
  · next first =>
    rw [Std.LawfulEqCmp.compare_eq_iff_eq]
    exact ⟨fun same _ => same.symm, fun same => (same first).symm⟩
  · next first => exact iff_of_true rfl fun asked => absurd asked first

theorem compare_eq_iff (env : Sorting) (a b : File) :
    sorter.compare env sizes ranks a b = .eq ↔ sorter.Tied env.transliterate sizes ranks a b := by
  rw [compare, compareLex, compareLex, Ordering.then_eq_eq, Ordering.then_eq_eq, promote_eq_iff,
    primary_eq_iff, secondary_eq_iff, Tied]

/-! ### Sorting the same files in another order -/

/-- Insertion sort, which is stable. The standard library sorts short slices with it. -/
def insertion (transliterate : Bytes → Bytes) : Sorting :=
  { Sorting.plain with transliterate }

variable {transliterate : Bytes → Bytes} {items other : List File}

theorem Tied.symm {a b : File} (tied : sorter.Tied transliterate sizes ranks a b) :
    sorter.Tied transliterate sizes ranks b a := by
  have equal := (compare_eq_iff (insertion transliterate) a b).mpr tied
  exact (compare_eq_iff (insertion transliterate) b a).mp (Std.OrientedCmp.eq_comm.mp equal)

/-- Files none of which are tied are sorted in one way. -/
theorem sort_eq_of_perm (ordered : sorter.ordered = true) (perm : other.Perm items)
    (apart : items.Pairwise fun a b => ¬ sorter.Tied env.transliterate sizes ranks a b) :
    sorter.sort env sizes ranks other = sorter.sort env sizes ranks items := by
  have sides : (sorter.sort env sizes ranks other).Perm (sorter.sort env sizes ranks items) :=
    sort_perm.trans (perm.trans sort_perm.symm)
  refine sides.eq_of_pairwise ?_ (sort_sorted ordered) (sort_sorted ordered)
  intro a b left right le ge
  have tied : sorter.Tied env.transliterate sizes ranks a b := by
    rw [← compare_eq_iff]
    have trans : Std.TransCmp (sorter.compare env sizes ranks) := inferInstance
    rw [trans.eq_swap, Ordering.isLE_swap] at ge
    cases order : sorter.compare env sizes ranks a b with
    | eq => rfl
    | lt => rw [order] at ge; cases ge
    | gt => rw [order] at le; cases le
  have member : a ∈ items := perm.mem_iff.mp (sort_perm.mem_iff.mp left)
  have member' : b ∈ items := sort_perm.mem_iff.mp right
  have symmetric : Std.Symm fun a b => ¬ sorter.Tied env.transliterate sizes ranks a b :=
    ⟨fun _ _ untied tied => untied tied.symm⟩
  by_contra differ
  exact apart.forall member member' differ tied

/-- Two tied files stay in the order in which they arrived. -/
theorem sublist_insertion {a b : File} (ordered : sorter.ordered = true)
    (tied : sorter.Tied transliterate sizes ranks a b) (arrived : List.Sublist [a, b] items) :
    List.Sublist [a, b] (sorter.sort (insertion transliterate) sizes ranks items) := by
  have equal := (compare_eq_iff (insertion transliterate) a b).mpr tied
  have le : (sorter.compare (insertion transliterate) sizes ranks a b).isLE = true := by rw [equal]; rfl
  have sorts : sorter.sort (insertion transliterate) sizes ranks items =
      items.insertionSort fun a b =>
        (sorter.compare (insertion transliterate) sizes ranks a b).isLE = true := by
    simp only [FilesSorter.ordered, ne_eq, decide_eq_true_eq] at ordered
    rw [sort]
    split
    · next none => exact absurd none ordered.1
    · next random => exact absurd random ordered.2
    · rfl
  rw [sorts]
  exact List.pair_sublist_insertionSort le arrived

/-- The order in which files arrive does not show, whatever sort there is, when no two of them are
tied. -/
theorem sort_perm_iff (ordered : sorter.ordered = true)
    (distinct : items.Pairwise fun a b => a.urn ≠ b.urn) :
    (∀ env : Sorting, env.transliterate = transliterate → ∀ other, other.Perm items →
      sorter.sort env sizes ranks other = sorter.sort env sizes ranks items) ↔
      items.Pairwise fun a b => ¬ sorter.Tied transliterate sizes ranks a b := by
  constructor
  · intro same
    rw [List.pairwise_iff_forall_sublist]
    intro a b arrived tied
    obtain ⟨rest, perm⟩ := arrived.exists_perm_append
    have differ : a.urn ≠ b.urn := List.pairwise_iff_forall_sublist.mp distinct arrived
    have first := sublist_insertion ordered tied (List.sublist_append_left [a, b] rest)
    have second := sublist_insertion ordered tied.symm (List.sublist_append_left [b, a] rest)
    have swapped : ([b, a] ++ rest).Perm items := (List.Perm.swap a b rest).trans perm.symm
    rw [same (insertion transliterate) rfl _ perm.symm] at first
    rw [same (insertion transliterate) rfl _ swapped] at second
    have nodup : (sorter.sort (insertion transliterate) sizes ranks items).Nodup := by
      rw [sort_perm.nodup_iff]
      exact distinct.imp fun differ same => differ (congrArg File.urn same)
    exact not_both_sublists nodup first second
  · rintro apart env rfl other perm
    exact sort_eq_of_perm ordered perm apart

private def spaced : File := .fromDummy (.regular (text "/d/a b")) none

private def joined : File := .fromDummy (.regular (text "/d/ab")) none

private def byTime (fallback : SortFallback) : FilesSorter where
  sortBy := .mtime
  sensitive := false
  reverse := false
  dirFirst := false
  translit := false
  fallback := fallback

/-- The alphabetical fallback compares the very names. -/
theorem sort_perm_iff_sample :
    (byTime .alphabetical).sort .plain [] [] [joined, spaced] =
      (byTime .alphabetical).sort .plain [] [] [spaced, joined] := by
  have same : ∀ env : Sorting, env.transliterate = id → ∀ other, other.Perm [spaced, joined] →
      (byTime .alphabetical).sort env [] [] other =
        (byTime .alphabetical).sort env [] [] [spaced, joined] :=
    (sort_perm_iff rfl (List.pairwise_pair.mpr (by decide))).mpr (List.pairwise_pair.mpr
      fun tied => absurd tied.2.2 (by decide : spaced.urnBytes ≠ joined.urnBytes))
  exact same .plain rfl [joined, spaced] (List.Perm.swap spaced joined [])

/-- `a b` and `ab` are the same for the natural fallback, and stay as they arrive. -/
theorem arrival_shows :
    ¬ ∀ (sorter : FilesSorter) (env : Sorting) (sizes : Sizes) (ranks : Ranks)
      (items other : List File), sorter.ordered = true →
      (items.Pairwise fun a b => a.urn ≠ b.urn) → other.Perm items →
      sorter.sort env sizes ranks other = sorter.sort env sizes ranks items := by
  intro same
  have equal := same (byTime .natural) .plain [] [] [spaced, joined] [joined, spaced] rfl
    (List.pairwise_pair.mpr (by decide)) (List.Perm.swap spaced joined [])
  revert equal
  decide

end Yazi.Fs.FilesSorter
