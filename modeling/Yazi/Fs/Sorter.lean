import Mathlib.Data.List.Sort
import Yazi.Base.Assoc
import Yazi.Fs.File
import Yazi.Shared.Natsort

/-!
The order of a listing.

Sorting leaves a sorted list behind only if the comparison is a total preorder, so this is
proved for every mode that compares values.
-/
namespace Yazi.Fs
open Yazi.Base Yazi.Shared Yazi.Shared.Natsort

inductive SortBy where
  | none
  | mtime
  | btime
  | extension
  | alphabetical
  | natural
  | size
  | random
  | custom
  deriving DecidableEq, Repr

inductive SortFallback where
  | alphabetical
  | natural
  deriving DecidableEq, Repr

structure FilesSorter where
  sortBy : SortBy
  sensitive : Bool
  reverse : Bool
  dirFirst : Bool
  translit : Bool
  fallback : SortFallback
  deriving DecidableEq, Repr

abbrev Sizes := Assoc PathDyn Nat

abbrev Ranks := Assoc PathDyn Int

/-- What sorting takes from outside: the transliteration table, and the sort of the standard
library. The latter gives a sorted permutation for a total preorder, and some permutation for
the draws of a random generator. -/
structure Sorting where
  transliterate : Bytes → Bytes
  sortUnstableBy : (File → File → Ordering) → List File → List File
  shuffle : List File → List File
  sort_perm : ∀ cmp files, (sortUnstableBy cmp files).Perm files
  shuffle_perm : ∀ files, (shuffle files).Perm files
  sort_sorted : ∀ cmp files, Std.TransCmp cmp →
    (sortUnstableBy cmp files).Pairwise fun a b => (cmp a b).isLE = true

/-- The contract can be met: insertion sort, with a generator that draws no exchange. -/
def Sorting.plain : Sorting where
  transliterate := id
  sortUnstableBy cmp := List.insertionSort fun a b => (cmp a b).isLE = true
  shuffle := id
  sort_perm _ files := List.perm_insertionSort _ files
  shuffle_perm := .refl
  sort_sorted cmp files trans := by
    have total : Std.Total fun a b => (cmp a b).isLE = true := by
      refine ⟨fun a b => ?_⟩
      rw [trans.eq_swap, Ordering.isLE_swap]
      cases cmp b a <;> simp
    have transitive : IsTrans File fun a b => (cmp a b).isLE = true :=
      ⟨fun _ _ _ => trans.isLE_trans⟩
    exact List.pairwise_insertionSort _ files

/-- A string of a path, tagged by its kind as the derived order compares it. -/
structure Strand where
  tag : Nat
  bytes : Bytes
  deriving DecidableEq

instance : Ord Strand := ⟨compareLex (compareOn Strand.tag) (compareOn Strand.bytes)⟩

instance : Std.TransOrd Strand :=
  inferInstanceAs (Std.TransCmp (compareLex (compareOn Strand.tag) (compareOn Strand.bytes)))

/-- Bytes that differ in case are equal; a prefix is less. -/
def cmpInsensitive : Bytes → Bytes → Ordering
  | a :: as, b :: bs => (compare (lower a) (lower b)).then (cmpInsensitive as bs)
  | as, bs => compare as.length bs.length

theorem cmpInsensitive_eq (a b : Bytes) :
    cmpInsensitive a b = compare (a.map lower) (b.map lower) := by
  induction a generalizing b with
  | nil => cases b <;> simp [cmpInsensitive, Nat.compare_eq_ite_lt]
  | cons x a ih =>
    cases b with
    | nil => simp [cmpInsensitive, Nat.compare_eq_ite_lt]
    | cons y b => simp only [cmpInsensitive, List.map_cons, List.compare_cons_cons, ih]

instance : Std.TransCmp cmpInsensitive := by
  have same : cmpInsensitive = compareOn fun s => s.map lower := by
    funext a b
    exact cmpInsensitive_eq a b
  rw [same]
  infer_instance

namespace File

def urnBytes (file : File) : Bytes := file.urn.bytes

/-- The extension, which only a regular file has. -/
def sortExt (file : File) : Option Strand :=
  if file.isFile then
    file.ext.map fun ext => ⟨if file.url.pathKind = .os then 0 else 2, ext⟩
  else none

/-- The size, which for a directory is the calculated one if known. -/
def sortSize (sizes : Sizes) (file : File) : Nat :=
  ((if file.isDir then sizes.get? file.key else none)).getD file.stat.len

def sortRank (ranks : Ranks) (file : File) : Int := (ranks.get? file.key).getD 0

end File

namespace FilesSorter

/-- A comparison of bytes, over what a file is sorted by. -/
def comap (cmp : Bytes → Bytes → Ordering) (f : File → Bytes) (a b : File) : Ordering :=
  cmp (f a) (f b)

/-- `FilesSorter::cmp`. -/
def directed (sorter : FilesSorter) (cmp : File → File → Ordering) : File → File → Ordering :=
  if sorter.reverse then fun a b => cmp b a else cmp

def promote (sorter : FilesSorter) : File → File → Ordering :=
  if sorter.dirFirst then fun a b => compare b.isDir a.isDir else fun _ _ => .eq

def primary (sorter : FilesSorter) (env : Sorting) (sizes : Sizes) (ranks : Ranks) :
    File → File → Ordering :=
  match sorter.sortBy with
  | .none | .random => fun _ _ => .eq
  | .mtime => sorter.directed (compareOn (·.stat.mtime))
  | .btime => sorter.directed (compareOn (·.stat.btime))
  | .extension =>
    if sorter.sensitive then sorter.directed (compareOn (·.sortExt))
    else sorter.directed (comap cmpInsensitive fun file => (file.sortExt.map (·.bytes)).getD [])
  | .alphabetical =>
    if sorter.sensitive then sorter.directed (comap compare (·.urnBytes))
    else sorter.directed (comap cmpInsensitive (·.urnBytes))
  | .natural =>
    if sorter.translit then
      sorter.directed (comap (natsort · · (!sorter.sensitive)) (env.transliterate ·.urnBytes))
    else sorter.directed (comap (natsort · · (!sorter.sensitive)) (·.urnBytes))
  | .size => sorter.directed (compareOn (·.sortSize sizes))
  | .custom => sorter.directed (compareOn (·.sortRank ranks))

def secondary (sorter : FilesSorter) : File → File → Ordering :=
  match sorter.fallback with
  | .alphabetical => sorter.directed (comap compare (·.urnBytes))
  | .natural => sorter.directed (comap (natsort · · false) (·.urnBytes))

/-- The comparison of `FilesSorter::sort`. -/
def compare (sorter : FilesSorter) (env : Sorting) (sizes : Sizes) (ranks : Ranks) :
    File → File → Ordering :=
  compareLex sorter.promote (compareLex (sorter.primary env sizes ranks) sorter.secondary)

def sort (sorter : FilesSorter) (env : Sorting) (sizes : Sizes) (ranks : Ranks)
    (items : List File) : List File :=
  match sorter.sortBy with
  | .none => items
  | .random => env.shuffle items
  | _ => env.sortUnstableBy (sorter.compare env sizes ranks) items

/-- No mode but these two leaves the order open. -/
def ordered (sorter : FilesSorter) : Bool := sorter.sortBy ≠ .none ∧ sorter.sortBy ≠ .random

/-! ### The comparison is a total preorder -/

section preorder
variable (sorter : FilesSorter) (env : Sorting) (sizes : Sizes) (ranks : Ranks)

instance (cmp : Bytes → Bytes → Ordering) [Std.TransCmp cmp] (f : File → Bytes) :
    Std.TransCmp (comap cmp f) where
  eq_swap {_ _} := @Std.OrientedCmp.eq_swap _ cmp _ _ _
  isLE_trans {_ _ _} := @Std.TransCmp.isLE_trans _ cmp _ _ _ _

private theorem trans_const : Std.TransCmp fun _ _ : File => Ordering.eq where
  eq_swap := rfl
  isLE_trans _ _ := rfl

instance (cmp : File → File → Ordering) [Std.TransCmp cmp] : Std.TransCmp (sorter.directed cmp) := by
  simp only [directed]
  split
  · exact Std.TransCmp.opposite
  · infer_instance

instance : Std.TransCmp sorter.promote := by
  simp only [promote]
  split
  · exact @Std.TransCmp.opposite File (compareOn (·.isDir)) _
  · exact trans_const

instance : Std.TransCmp (sorter.primary env sizes ranks) := by
  simp only [primary]
  split
  · exact trans_const
  · exact trans_const
  · infer_instance
  · infer_instance
  · split <;> infer_instance
  · split <;> infer_instance
  · split <;> infer_instance
  · infer_instance
  · infer_instance

instance : Std.TransCmp sorter.secondary := by
  simp only [secondary]
  split <;> infer_instance

instance : Std.TransCmp (sorter.compare env sizes ranks) := by
  unfold compare
  infer_instance

end preorder

/-! ### Sorting -/

/-- No file stands before a lesser one. -/
def Sorted (sorter : FilesSorter) (env : Sorting) (sizes : Sizes) (ranks : Ranks)
    (items : List File) : Prop :=
  items.Pairwise fun a b => (sorter.compare env sizes ranks a b).isLE = true

instance (sorter : FilesSorter) (env : Sorting) (sizes : Sizes) (ranks : Ranks)
    (items : List File) : Decidable (sorter.Sorted env sizes ranks items) :=
  inferInstanceAs (Decidable (List.Pairwise ..))

variable {sorter : FilesSorter} {env : Sorting} {sizes : Sizes} {ranks : Ranks} {items : List File}

theorem sort_perm : (sorter.sort env sizes ranks items).Perm items := by
  simp only [sort]
  split
  · exact .refl _
  · exact env.shuffle_perm _
  · exact env.sort_perm ..

theorem sort_sorted (ordered : sorter.ordered = true) :
    sorter.Sorted env sizes ranks (sorter.sort env sizes ranks items) := by
  simp only [FilesSorter.ordered, ne_eq, decide_eq_true_eq] at ordered
  simp only [sort]
  split
  · next none => exact absurd none ordered.1
  · next random => exact absurd random ordered.2
  · exact env.sort_sorted _ _ inferInstance

end FilesSorter

end Yazi.Fs
