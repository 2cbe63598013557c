import Yazi.Fs.Partition

/-!
The revision of a listing.

The items are sorted again only when the revision has grown, so an update that leaves it alone
must keep them sorted. An update in place compares the metadata and the keys of the files, which
is not all that the order depends on: the key of a file in a hub is its domain, not its name.
-/
namespace Yazi.Fs
open Yazi.Base Yazi.Shared

namespace FilesSorter

variable {sorter : FilesSorter} {env : Sorting} {sizes sizes' : Sizes} {ranks ranks' : Ranks}

/-- All that the order of files depends on, under the sizes and ranks of either side. -/
structure Alike (sorter : FilesSorter) (sizes sizes' : Sizes) (ranks ranks' : Ranks)
    (a b : File) : Prop where
  dir : a.isDir = b.isDir
  mtime : a.stat.mtime = b.stat.mtime
  btime : a.stat.btime = b.stat.btime
  ext : a.sortExt = b.sortExt
  bytes : a.urnBytes = b.urnBytes
  size : sorter.sortBy = .size → a.sortSize sizes = b.sortSize sizes'
  rank : sorter.sortBy = .custom → a.sortRank ranks = b.sortRank ranks'

section congr
variable {a a' b b' : File}

private theorem directed_comap (cmp : Bytes → Bytes → Ordering) {f : File → Bytes}
    (left : f a = f a') (right : f b = f b') :
    sorter.directed (comap cmp f) a b = sorter.directed (comap cmp f) a' b' := by
  simp only [directed]
  split <;> simp only [comap, left, right]

private theorem directed_compareOn {β : Type} [Ord β] {f f' : File → β} (left : f a = f' a')
    (right : f b = f' b') :
    sorter.directed (compareOn f) a b = sorter.directed (compareOn f') a' b' := by
  simp only [directed]
  split <;> simp only [compareOn, left, right]

private theorem primary_congr (left : sorter.Alike sizes sizes' ranks ranks' a a')
    (right : sorter.Alike sizes sizes' ranks ranks' b b') :
    sorter.primary env sizes ranks a b = sorter.primary env sizes' ranks' a' b' := by
  simp only [primary]
  cases mode : sorter.sortBy with
  | none => rfl
  | random => rfl
  | mtime => exact directed_compareOn left.mtime right.mtime
  | btime => exact directed_compareOn left.btime right.btime
  | extension =>
    cases sorter.sensitive with
    | true => exact directed_compareOn left.ext right.ext
    | false => exact directed_comap _ (by rw [left.ext]) (by rw [right.ext])
  | alphabetical =>
    cases sorter.sensitive with
    | true => exact directed_comap _ left.bytes right.bytes
    | false => exact directed_comap _ left.bytes right.bytes
  | natural =>
    cases sorter.translit with
    | true => exact directed_comap _ (congrArg _ left.bytes) (congrArg _ right.bytes)
    | false => exact directed_comap _ left.bytes right.bytes
  | size => exact directed_compareOn (left.size mode) (right.size mode)
  | custom => exact directed_compareOn (left.rank mode) (right.rank mode)

/-- Files that are alike stand to each other in the same way. -/
theorem compare_congr (left : sorter.Alike sizes sizes' ranks ranks' a a')
    (right : sorter.Alike sizes sizes' ranks ranks' b b') :
    sorter.compare env sizes ranks a b = sorter.compare env sizes' ranks' a' b' := by
  have promote : sorter.promote a b = sorter.promote a' b' := by
    cases first : sorter.dirFirst <;> simp [FilesSorter.promote, first, left.dir, right.dir]
  have secondary : sorter.secondary a b = sorter.secondary a' b' := by
    simp only [FilesSorter.secondary]
    cases sorter.fallback with
    | alphabetical => exact directed_comap _ left.bytes right.bytes
    | natural => exact directed_comap _ left.bytes right.bytes
  simp only [compare, compareLex, promote, primary_congr left right, secondary]

theorem sorted_congr {files files' : Files}
    (alike : List.Forall₂ (sorter.Alike sizes sizes' ranks ranks') files files')
    (sorted : sorter.Sorted env sizes ranks files) : sorter.Sorted env sizes' ranks' files' := by
  refine pairwise_of_forall₂ alike sorted fun a b a' b' left right least => ?_
  rw [← compare_congr left right]
  exact least

end congr

end FilesSorter

namespace Entries

section revised
variable (regex : Regex) (env : Sorting) (entries : Entries)

/-- The items are in the order that the sorter asks for, if it asks for one. -/
def Ordered : Prop :=
  entries.sorter.ordered = true →
    entries.sorter.Sorted env entries.sizes entries.ranks entries.items

/-- Unless a revision is to be caught up with, the items are in order. -/
structure Revised : Prop where
  behind : entries.version ≤ entries.revision
  ordered : entries.version = entries.revision → entries.Ordered env

/-- What an update in place compares of the old file and the new one. -/
def still (old new : File) : Bool := old.hits new && old.key == new.key

/-- What it does not compare: the name and the extension that files are sorted by. -/
def sameName (old new : File) : Bool := old.urnBytes = new.urnBytes ∧ old.sortExt = new.sortExt

/-- The items that are replaced in place, with the files that replace them. -/
def replacedItems (files : FileMap) : List (File × File) :=
  Keyed.replaced File.key (entries.side regex false files) entries.items

/-- The files of the map that replace no item. -/
def unplacedItems (files : FileMap) : FileMap :=
  Keyed.unused File.key (entries.side regex false files) entries.items

/-- An upsert removes no item and adds none. -/
def settled (files : FileMap) : Bool :=
  (entries.items.all fun file => !landsOn files file.key) &&
    (entries.unplacedItems regex files).isEmpty

/-- An update whose replacements all compare equal also keeps the names. -/
def keepsNames : EntriesOp → Bool
  | .existing files =>
    (entries.replacedItems regex files).all (fun pair => still pair.1 pair.2) →
      (entries.replacedItems regex files).all fun pair => sameName pair.1 pair.2
  | .upsert files =>
    entries.settled regex files ∧
        (entries.replacedItems regex files).all (fun pair => still pair.1 pair.2) →
      (entries.replacedItems regex files).all fun pair => sameName pair.1 pair.2
  | _ => true

end revised

variable {regex : Regex} {env : Sorting} {entries : Entries}

/-! ### What the updates do to the revision -/

theorem replaceFiles_same (src : FileMap) (files : Files) :
    (replaceFiles src files).2.2 =
      (Keyed.replaced File.key src files).all fun pair => still pair.1 pair.2 := by
  induction files generalizing src with
  | nil => rfl
  | cons old files ih =>
    simp only [replaceFiles, Keyed.replaced]
    cases src.get? old.key with
    | none => exact ih _
    | some file => simp only [ih, List.all_cons, still]

variable (regex entries) in
theorem updateExisting_revision (files : FileMap) :
    (entries.updateExisting regex files).1.revision =
      if (entries.replacedItems regex files).all (fun pair => still pair.1 pair.2)
      then entries.revision else entries.revision + 1 := by
  simp only [updateExisting, replacedItems, side]
  split
  · next none =>
    rw [List.isEmpty_iff] at none
    simp [none, Keyed.replaced_nil]
  · simp only [List.partition_eq_filter_filter, Function.comp_def, beq_false, replaceFiles_same]

/-- A step that leaves the revision alone keeps the order. -/
private theorem revised_of {a b : Entries} (revised : a.Revised env)
    (version : b.version = a.version) (grows : a.revision ≤ b.revision)
    (keeps : b.revision = a.revision → a.Ordered env → b.Ordered env) : b.Revised env where
  behind := version ▸ revised.behind.trans grows
  ordered caught := by
    have behind := revised.behind
    have same : b.revision = a.revision := by omega
    exact keeps same (revised.ordered (by omega))

/-- An update that empties the items, or revises. -/
private theorem ordered_nil {b : Entries} (none : b.items = []) : b.Ordered env := by
  intro _
  rw [none]
  exact .nil

theorem revised_full {ticket : Nat} {files : Files} (revised : entries.Revised env) :
    (entries.updateFull regex ticket files).Revised env := by
  refine revised_of revised rfl ?_ ?_
  · simp only [updateFull]
    split <;> omega
  · intro same _
    simp only [updateFull] at same
    split at same
    · next none =>
      simp only [Bool.and_eq_true, List.isEmpty_iff] at none
      exact ordered_nil none.1
    · omega

theorem revised_part {ticket : Nat} {files : Files} (revised : entries.Revised env) :
    (entries.updatePart regex files ticket).Revised env := by
  simp only [updatePart]
  split
  · split
    · exact revised
    · refine revised_of revised rfl ?_ ?_
      · dsimp only
        split <;> omega
      · intro same ordered
        dsimp only at same
        split at same
        · next none =>
          rw [List.isEmpty_iff] at none
          simpa [Ordered, none] using ordered
        · omega
  · refine revised_of revised rfl ?_ fun _ _ => ordered_nil rfl
    dsimp only
    split <;> omega

theorem revised_fail {ticket : Nat} (revised : entries.Revised env) :
    (entries.updateFail ticket).Revised env := by
  refine revised_of revised rfl ?_ fun _ _ => ordered_nil rfl
  simp only [updateFail]
  split <;> omega

theorem revised_create {files : Files} (revised : entries.Revised env) :
    (entries.updateCreate regex files).Revised env := by
  simp only [updateCreate]
  split
  · exact revised
  · refine revised_of revised rfl ?_ ?_
    · dsimp only
      split <;> omega
    · intro same ordered
      dsimp only at same
      split at same
      · next none =>
        rw [List.isEmpty_iff] at none
        simpa [Ordered, none] using ordered
      · omega

/-- Whatever stays stays in order. -/
private theorem ordered_sublist {b : Entries} (ordered : entries.Ordered env)
    (sorter : b.sorter = entries.sorter) (sizes : b.sizes = entries.sizes)
    (ranks : b.ranks = entries.ranks) (items : b.items.Sublist entries.items) :
    b.Ordered env := by
  intro asked
  rw [sorter] at asked
  rw [sorter, sizes, ranks]
  exact (ordered asked).sublist items

variable (entries) in
theorem delete_revision (keys : List PathDyn) :
    entries.revision ≤ (entries.updateDelete keys).1.revision ∧
      ((entries.updateDelete keys).1.revision = entries.revision →
        (entries.updateDelete keys).1.items = entries.items) := by
  simp only [updateDelete]
  split
  · next none =>
    rw [List.isEmpty_iff, removeKeys_deleted] at none
    exact ⟨le_rfl, fun _ => none⟩
  · exact ⟨by omega, fun same => by omega⟩

theorem revised_delete (keys : List PathDyn) (revised : entries.Revised env) :
    (entries.updateDelete keys).1.Revised env := by
  obtain ⟨grows, -⟩ := delete_revision entries keys
  refine revised_of revised rfl grows fun _ ordered => ?_
  refine ordered_sublist ordered rfl rfl rfl ?_
  rw [updateDelete_items]
  exact Keyed.drop_sublist ..

/-- Whatever is replaced is replaced by files that are alike. -/
private theorem ordered_congr {b : Entries} (ordered : entries.Ordered env)
    (sorter : b.sorter = entries.sorter)
    (alike : List.Forall₂
      (entries.sorter.Alike entries.sizes b.sizes entries.ranks b.ranks) entries.items b.items) :
    b.Ordered env := by
  intro asked
  rw [sorter] at asked ⊢
  exact FilesSorter.sorted_congr alike (ordered asked)

theorem insertSizes_same {sizes src : Sizes} (same : (insertSizes sizes src).2 = false)
    (key : PathDyn) : (insertSizes sizes src).1.get? key = sizes.get? key := by
  induction src generalizing sizes with
  | nil => rfl
  | cons entry src ih =>
    obtain ⟨at_, size⟩ := entry
    simp only [insertSizes] at same ⊢
    split
    · next empty =>
      rw [if_pos empty] at same
      exact ih same
    · next given =>
      rw [if_neg given] at same
      simp only [Bool.or_eq_false_iff, decide_eq_false_iff_not, not_not] at same
      rw [ih same.2, Assoc.get?_insert]
      split
      · next here => rw [Assoc.get?_congr _ here, same.1]
      · rfl

theorem insertRanks_same {ranks src : Ranks} (same : (insertRanks ranks src).2 = false)
    (key : PathDyn) : (insertRanks ranks src).1.get? key = ranks.get? key := by
  induction src generalizing ranks with
  | nil => rfl
  | cons entry src ih =>
    obtain ⟨at_, rank⟩ := entry
    simp only [insertRanks] at same ⊢
    split
    · next empty =>
      rw [if_pos empty] at same
      exact ih same
    · next given =>
      rw [if_neg given] at same
      split
      · next zero =>
        rw [if_pos zero] at same
        simp only [Bool.or_eq_false_iff, Option.isSome_eq_false_iff, Option.isNone_iff_eq_none]
          at same
        rw [ih same.2, Assoc.get?_erase]
        split
        · next here => rw [← Assoc.get?_congr _ here, same.1]
        · rfl
      · next other =>
        rw [if_neg other] at same
        simp only [Bool.or_eq_false_iff, decide_eq_false_iff_not, not_not] at same
        rw [ih same.2, Assoc.get?_insert]
        split
        · next here => rw [Assoc.get?_congr _ here, same.1]
        · rfl

theorem revised_size {sizes : Sizes} (revised : entries.Revised env) :
    (entries.updateSize sizes).Revised env := by
  refine revised_of revised rfl ?_ ?_
  · simp only [updateSize]
    split <;> omega
  · intro same ordered
    simp only [updateSize] at same
    split at same
    · omega
    · next unchanged =>
      refine ordered_congr ordered rfl (List.forall₂_same.mpr fun file _ => ?_)
      refine ⟨rfl, rfl, rfl, rfl, rfl, fun mode => ?_, fun _ => rfl⟩
      have kept : (insertSizes entries.sizes sizes).2 = false := by simpa [mode] using unchanged
      simp only [File.sortSize, updateSize, insertSizes_same kept]

variable (entries) in
/-- The ranks after an update, and whether it changed any. -/
private theorem updateRank_eq (ranks : Ranks) :
    ∃ changed, (changed = false → ∀ key,
        (entries.updateRank ranks).ranks.get? key = entries.ranks.get? key) ∧
      (entries.updateRank ranks).revision =
        if changed && entries.sorter.sortBy = .custom then entries.revision + 1
        else entries.revision := by
  simp only [updateRank]
  split
  · next empty =>
    refine ⟨_, fun same key => ?_, rfl⟩
    rw [List.isEmpty_iff] at empty
    simp only [Bool.not_eq_false', List.isEmpty_iff] at same
    rw [same, empty]
  · exact ⟨_, insertRanks_same, rfl⟩

theorem revised_rank {ranks : Ranks} (revised : entries.Revised env) :
    (entries.updateRank ranks).Revised env := by
  obtain ⟨changed, kept, revision⟩ := updateRank_eq entries ranks
  refine revised_of revised rfl ?_ ?_
  · rw [revision]
    split <;> omega
  · intro same ordered
    rw [revision] at same
    split at same
    · omega
    · next unchanged =>
      refine ordered_congr ordered rfl (List.forall₂_same.mpr fun file _ => ?_)
      refine ⟨rfl, rfl, rfl, rfl, rfl, fun _ => rfl, fun mode => ?_⟩
      simp only [File.sortRank, kept (by simpa [mode] using unchanged)]

/-- Files that compare equal in place are alike if they also have the same name. -/
private theorem alike_of_still {old new : File} (equal : still old new = true)
    (name : sameName old new = true) :
    entries.sorter.Alike entries.sizes entries.sizes entries.ranks entries.ranks old new := by
  simp only [still, File.hits, Bool.and_eq_true, Stat.hits_iff] at equal
  obtain ⟨⟨stat, -⟩, key⟩ := equal
  obtain ⟨bytes, ext⟩ := of_decide_eq_true name
  refine ⟨?_, ?_, ?_, ext, bytes, fun _ => ?_, fun _ => ?_⟩
  · rw [File.isDir, stat, File.isDir]
  · rw [stat]
  · rw [stat]
  · rw [File.sortSize, File.sortSize, File.isDir, stat, Assoc.get?_congr _ key, File.isDir]
  · rw [File.sortRank, File.sortRank, Assoc.get?_congr _ key]

/-- Replacing items by files that compare equal keeps the order if it keeps the names. -/
private theorem alike_substitute {files : FileMap}
    (equal : (entries.replacedItems regex files).all (fun pair => still pair.1 pair.2) = true)
    (names : (entries.replacedItems regex files).all (fun pair => sameName pair.1 pair.2) = true) :
    List.Forall₂ (entries.sorter.Alike entries.sizes entries.sizes entries.ranks entries.ranks)
      entries.items (Keyed.substitute File.key (entries.side regex false files) entries.items) := by
  refine (Keyed.substitute_forall₂ _ _).imp fun old new => ?_
  rintro (rfl | replaced)
  · exact ⟨rfl, rfl, rfl, rfl, rfl, fun _ => rfl, fun _ => rfl⟩
  · exact alike_of_still (List.all_eq_true.mp equal _ replaced) (List.all_eq_true.mp names _ replaced)

variable (regex entries) in
private theorem existing_fields (files : FileMap) :
    (entries.updateExisting regex files).1.version = entries.version ∧
      (entries.updateExisting regex files).1.sorter = entries.sorter ∧
      (entries.updateExisting regex files).1.sizes = entries.sizes ∧
      (entries.updateExisting regex files).1.ranks = entries.ranks := by
  simp only [updateExisting]
  split <;> exact ⟨rfl, rfl, rfl, rfl⟩

theorem revised_existing {files : FileMap} (revised : entries.Revised env)
    (keeps : entries.keepsNames regex (.existing files) = true) :
    (entries.updateExisting regex files).1.Revised env := by
  obtain ⟨version, sorter, sizes, ranks⟩ := existing_fields regex entries files
  refine revised_of revised version ?_ ?_
  · rw [updateExisting_revision]
    split <;> omega
  · intro same ordered
    rw [updateExisting_revision] at same
    split at same
    · next equal =>
      refine ordered_congr ordered sorter ?_
      rw [sizes, ranks, (updateExisting_eq regex entries files).1]
      exact alike_substitute equal (of_decide_eq_true keeps equal)
    · omega

variable (regex entries) in
private theorem upsert_fields (files : FileMap) :
    (entries.updateUpsert regex files).version = entries.version ∧
      (entries.updateUpsert regex files).sorter = entries.sorter ∧
      (entries.updateUpsert regex files).sizes = entries.sizes ∧
      (entries.updateUpsert regex files).ranks = entries.ranks := by
  simp only [updateUpsert]
  split
  · exact ⟨rfl, rfl, rfl, rfl⟩
  · exact existing_fields regex (entries.updateDelete (renamed (keyed files))).1 (keyed files)

variable (regex entries) in
/-- An upsert that leaves the revision alone only replaces items, by files that compare equal. -/
theorem upsert_revision (files : FileMap) :
    entries.revision ≤ (entries.updateUpsert regex files).revision ∧
      ((entries.updateUpsert regex files).revision = entries.revision →
        entries.settled regex files = true ∧
        (entries.replacedItems regex files).all (fun pair => still pair.1 pair.2) = true ∧
        (entries.updateUpsert regex files).items =
          Keyed.substitute File.key (entries.side regex false files) entries.items) := by
  simp only [updateUpsert]
  split
  · next none =>
    rw [List.isEmpty_iff] at none
    simp [settled, unplacedItems, replacedItems, landsOn, renamed, side, none]
  · obtain ⟨grows, whole⟩ := delete_revision entries (renamed (keyed files))
    have deleted := updateDelete_items entries (renamed (keyed files))
    have side := side_updateDelete regex entries files (renamed (keyed files)) false
    rw [renamed_keyed] at deleted
    generalize (entries.updateDelete (renamed (keyed files))).1 = rest at *
    have revision := updateExisting_revision regex rest (keyed files)
    obtain ⟨visible, -, left⟩ := updateExisting_eq regex rest (keyed files)
    have grows' : rest.revision ≤ (rest.updateExisting regex (keyed files)).1.revision := by
      rw [revision]
      split <;> omega
    generalize rest.updateExisting regex (keyed files) = after at *
    obtain ⟨after, hidden, items⟩ := after
    dsimp only at *
    constructor
    · split <;> omega
    · intro same
      -- Nothing was added, nothing was deleted, and all that was replaced compares equal.
      have none : items.isEmpty = true := by
        by_contra some
        rw [if_neg some] at same
        omega
      rw [if_pos none] at same
      rw [List.isEmpty_iff] at none
      have unchanged := whole (by omega)
      rw [side, unchanged, Prod.mk.injEq] at left
      rw [unchanged] at deleted
      have equal : (rest.replacedItems regex (keyed files)).all (fun pair => still pair.1 pair.2) =
          true := by
        by_contra differ
        rw [if_neg differ] at revision
        omega
      rw [replacedItems, side, unchanged] at equal
      refine ⟨?_, equal, ?_⟩
      · simp only [settled, Bool.and_eq_true, List.all_eq_true, Bool.not_eq_true', unplacedItems]
        exact ⟨Keyed.drop_eq_self.mp deleted.symm, by rw [← left.2, none]; rfl⟩
      · rw [visible, side, unchanged, none]
        exact List.append_nil _

theorem revised_upsert {files : FileMap} (revised : entries.Revised env)
    (keeps : entries.keepsNames regex (.upsert files) = true) :
    (entries.updateUpsert regex files).Revised env := by
  obtain ⟨version, sorter, sizes, ranks⟩ := upsert_fields regex entries files
  obtain ⟨grows, unrevised⟩ := upsert_revision regex entries files
  refine revised_of revised version grows fun same ordered => ?_
  obtain ⟨settled, equal, items⟩ := unrevised same
  refine ordered_congr ordered sorter ?_
  rw [sizes, ranks, items]
  exact alike_substitute equal (of_decide_eq_true keeps ⟨settled, equal⟩)

theorem revised_catchup (revised : entries.Revised env) :
    (entries.catchupRevision env).1.Revised env := by
  simp only [catchupRevision]
  split
  · exact revised
  · exact ⟨le_rfl, fun _ asked => FilesSorter.sort_sorted asked⟩

theorem revised_setSorter (sorter : FilesSorter) (revised : entries.Revised env) :
    (entries.setSorter sorter).Revised env := by
  simp only [setSorter]
  split
  · exact revised
  · exact revised_of revised rfl (Nat.le_succ _) fun same => by simp at same

theorem revised_setFilter (filter : Option Filter) (revised : entries.Revised env) :
    (entries.setFilter regex env filter).1.Revised env := by
  simp only [setFilter]
  split
  · exact revised
  · split
    · split
      · next none =>
        rw [List.isEmpty_iff] at none
        refine revised_of revised rfl le_rfl fun _ ordered => ?_
        simpa [Ordered, none] using ordered
      · exact revised_of revised rfl le_rfl fun _ _ asked => FilesSorter.sort_sorted asked
    · exact revised_of revised rfl le_rfl fun _ _ asked => FilesSorter.sort_sorted asked

theorem revised_setShowHidden (state : Bool) (revised : entries.Revised env) :
    (entries.setShowHidden regex state).Revised env := by
  simp only [setShowHidden]
  split
  · exact revised
  · cases state with
    | true =>
      simp only [↓reduceIte]
      split
      · exact revised_of revised rfl le_rfl fun _ => id
      · refine revised_of revised rfl ?_ ?_
        · dsimp only
          split <;> omega
        · intro same ordered
          dsimp only at same
          split at same
          · omega
          · next length =>
            -- No hidden file becomes visible.
            have none := length
            simp only [List.length_append, ne_eq, Nat.add_eq_left, not_not,
              List.length_eq_zero_iff] at none
            simpa [Ordered, none] using ordered
    | false =>
      simp only [Bool.false_eq_true, ↓reduceIte]
      split
      · exact revised_of revised rfl le_rfl fun _ _ => ordered_nil rfl
      · refine revised_of revised rfl ?_ ?_
        · dsimp only
          split <;> omega
        · intro _ ordered
          refine ordered_sublist ordered rfl rfl rfl ?_
          rw [List.nil_append, splitFiles_eq]
          exact List.filter_sublist

/-- What keeps the names keeps the order until the next revision. -/
theorem revised_apply {op : EntriesOp} (revised : entries.Revised env)
    (keeps : entries.keepsNames regex op = true) : (entries.apply regex env op).Revised env := by
  cases op with
  | full => exact revised_full revised
  | part => exact revised_part revised
  | size => exact revised_size revised
  | rank => exact revised_rank revised
  | fail => exact revised_fail revised
  | create => exact revised_create revised
  | delete => exact revised_delete _ revised
  | existing => exact revised_existing revised keeps
  | upsert => exact revised_upsert revised keeps
  | catchup => exact revised_catchup revised
  | setSorter => exact revised_setSorter _ revised
  | setFilter => exact revised_setFilter _ revised
  | setShowHidden => exact revised_setShowHidden _ revised

theorem revised_step {op : EntriesOp} {after : Entries} (revised : entries.Revised env)
    (move : restrict (step regex env) (keepsNames regex) entries op = some after) :
    after.Revised env := by
  obtain ⟨keeps, move⟩ := restrict_eq_some move
  simp only [step] at move
  split at move
  · cases move
    exact revised_apply revised keeps
  · cases move

/-- While updates in place keep the names, items without a revision to catch up with are in the
order of the sorter, with the sizes and ranks of the moment. -/
theorem caught_up_sorted {showHidden : Bool} {ops : List EntriesOp}
    (run : Run (restrict (step regex env) (keepsNames regex)) (.new showHidden) ops entries)
    (caught : entries.version = entries.revision) (ordered : entries.sorter.ordered = true) :
    entries.sorter.Sorted env entries.sizes entries.ranks entries.items := by
  have start : (new showHidden).Revised env := ⟨le_rfl, fun _ => ordered_nil rfl⟩
  have revised := run.invariant (fun _ _ _ revised move => revised_step revised move) start
  exact revised.ordered caught ordered

/-- A file of a hub, that the hub knows by a number and shows under a name. -/
private def hubFile (domain name : Bytes) : File :=
  let scheme : Scheme := .custom ⟨text "tags", by decide⟩
  let hub : Auth := .mk .hub scheme [] .none .none
  File.fromDummy (.os (Loc.bare (text "/" ++ name)) (.mk .hub scheme domain (.some hub) .none)) none

private def byName : FilesSorter := ⟨.alphabetical, true, false, false, false, .alphabetical⟩

/-- Two files are loaded and sorted, and one of them is updated under another number. -/
theorem caught_up_sorted_hub :
    let a := hubFile (text "1") (text "a")
    let ops := [.full 1 [hubFile (text "2") (text "b"), a], .setSorter byName, .catchup,
      .existing [(a.key, hubFile (text "3") (text "c"))], .catchup]
    let reached := exec (restrict (step .literal .plain) (keepsNames .literal)) (new false) ops
    ∃ enabled : reached.isSome = true,
      (reached.get enabled).version = (reached.get enabled).revision ∧
        (reached.get enabled).sorter.Sorted .plain (reached.get enabled).sizes
          (reached.get enabled).ranks (reached.get enabled).items :=
  ⟨by decide, by decide, caught_up_sorted (run_exec (by decide)) (by decide) (by decide)⟩

/-- A hub shows a file under a new name, with the metadata and the number it had. -/
theorem caught_up_unsorted :
    let a := hubFile (text "1") (text "a")
    let ops := [.full 1 [hubFile (text "2") (text "b"), a], .setSorter byName, .catchup,
      .existing [(a.key, hubFile (text "1") (text "c"))]]
    ∃ reached, Run (step .literal .plain) (new false) ops reached ∧
      reached.version = reached.revision ∧ reached.sorter.ordered = true ∧
      ¬reached.sorter.Sorted .plain reached.sizes reached.ranks reached.items :=
  ⟨_, run_exec (by decide), by decide, by decide, by decide⟩

end Entries

end Yazi.Fs
