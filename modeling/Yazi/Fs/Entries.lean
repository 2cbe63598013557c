import Yazi.Base.Keyed
import Yazi.Base.Run
import Yazi.Fs.Sorter

/-!
The entries of a directory: the visible items and the hidden files.

Hash maps are association lists; where the source walks through one, the order of the list
stands for the order of the map.
-/
namespace Yazi.Fs
open Yazi.Base Yazi.Shared

abbrev Files := List File

abbrev FileMap := Assoc PathDyn File

structure Entries where
  hidden : Files
  items : Files
  ticket : Nat
  version : Nat
  revision : Nat
  sizes : Sizes
  ranks : Ranks
  sorter : FilesSorter
  filter : Option Filter
  showHidden : Bool
  deriving DecidableEq

namespace Entries

def new (showHidden : Bool) : Entries where
  hidden := []
  items := []
  ticket := 0
  version := 0
  revision := 0
  sizes := []
  ranks := []
  sorter := ⟨.none, false, false, false, false, .alphabetical⟩
  filter := none
  showHidden := showHidden

/-- `Entries::all`. -/
def all (entries : Entries) : Files := entries.items ++ entries.hidden

section filtering
variable (regex : Regex)

/-- Whether a file belongs to the hidden ones. -/
def conceals (entries : Entries) (file : File) : Bool :=
  match entries.filter with
  | some filter => (file.isHidden && !entries.showHidden) || !filter.isMatch regex file.urn
  | none => if entries.showHidden then false else file.isHidden

/-- The hidden files and the visible ones; a file without key is neither. -/
def splitFiles (entries : Entries) (files : Files) : Files × Files :=
  (files.filter fun file => !file.key.isEmpty).partition (entries.conceals regex)

end filtering

/-! ### Updates -/

/-- `HashSet::remove` for the key of each file in turn: the keys left, the files retained, and
the positions of the others. -/
def removeKeys (position : Nat) : List PathDyn → Files → List PathDyn × Files × List Nat
  | keys, [] => (keys, [], [])
  | keys, file :: files =>
    if keys.contains file.key then
      let (keys, kept, deleted) :=
        removeKeys (position + 1) (keys.filter fun k => !(file.key == k)) files
      (keys, kept, position :: deleted)
    else
      let (keys, kept, deleted) := removeKeys (position + 1) keys files
      (keys, file :: kept, deleted)

/-- Puts each file of the map in the place of the first file of its key: the rest of the map,
the files, and whether none of them changed. -/
def replaceFiles : FileMap → Files → FileMap × Files × Bool
  | src, [] => (src, [], true)
  | src, old :: files =>
    match src.get? old.key with
    | some file =>
      let (src, files, same) := replaceFiles (src.erase old.key) files
      (src, file :: files, old.hits file && (old.key == file.key) && same)
    | none =>
      let (src, files, same) := replaceFiles src files
      (src, old :: files, same)

/-- The files that no file of the list has the key of, the last one for each key. -/
def freshFiles (dist src : Files) : Files :=
  let todo : FileMap := src.foldl (fun todo file => todo.insert file.key file) []
  (dist.foldl (fun todo file => Assoc.erase todo file.key) todo).values

/-- `HashMap::insert` for each entry with a key, and whether a value changed. -/
def insertSizes : Sizes → Sizes → Sizes × Bool
  | sizes, [] => (sizes, false)
  | sizes, (key, size) :: rest =>
    if key.isEmpty then insertSizes sizes rest
    else
      let (updated, changed) := insertSizes (sizes.insert key size) rest
      (updated, decide (sizes.get? key ≠ some size) || changed)

/-- As `insertSizes`, where rank 0 removes the key. -/
def insertRanks : Ranks → Ranks → Ranks × Bool
  | ranks, [] => (ranks, false)
  | ranks, (key, rank) :: rest =>
    if key.isEmpty then insertRanks ranks rest
    else if rank = 0 then
      let (updated, changed) := insertRanks (ranks.erase key) rest
      (updated, (ranks.get? key).isSome || changed)
    else
      let (updated, changed) := insertRanks (ranks.insert key rank) rest
      (updated, decide (ranks.get? key ≠ some rank) || changed)

section update
variable (regex : Regex)

/-- The ticket is the next of `FILES_TICKET`. -/
def updateFull (entries : Entries) (ticket : Nat) (files : Files) : Entries :=
  let (hidden, items) := entries.splitFiles regex files
  { entries with
    ticket, hidden, items
    revision :=
      if items.isEmpty && entries.items.isEmpty then entries.revision else entries.revision + 1 }

def updatePart (entries : Entries) (files : Files) (ticket : Nat) : Entries :=
  if !files.isEmpty then
    if ticket ≠ entries.ticket then entries
    else
      let (hidden, items) := entries.splitFiles regex files
      { entries with
        hidden := entries.hidden ++ hidden
        items := entries.items ++ items
        revision := if items.isEmpty then entries.revision else entries.revision + 1 }
  else
    { entries with
      ticket
      hidden := []
      items := []
      revision := if entries.items.isEmpty then entries.revision else entries.revision + 1 }

def updateSize (entries : Entries) (sizes : Sizes) : Entries :=
  let (updated, changed) := insertSizes entries.sizes sizes
  { entries with
    sizes := updated
    revision :=
      if changed && entries.sorter.sortBy = .size then entries.revision + 1
      else entries.revision }

def updateRank (entries : Entries) (ranks : Ranks) : Entries :=
  let (updated, changed) :=
    if entries.ranks.isEmpty then
      let kept : Ranks := List.filter (fun entry => entry.2 ≠ 0 && !entry.1.isEmpty) ranks
      (kept, !kept.isEmpty)
    else insertRanks entries.ranks ranks
  { entries with
    ranks := updated
    revision :=
      if changed && entries.sorter.sortBy = .custom then entries.revision + 1
      else entries.revision }

/-- The ticket is the next of `FILES_TICKET`. -/
def updateFail (entries : Entries) (ticket : Nat) : Entries :=
  { entries with
    ticket
    revision := if entries.items.isEmpty then entries.revision else entries.revision + 1
    hidden := []
    items := [] }

def updateCreate (entries : Entries) (files : Files) : Entries :=
  if files.isEmpty then entries
  else
    let (hidden, items) := entries.splitFiles regex files
    let fresh := freshFiles entries.items items
    { entries with
      items := entries.items ++ fresh
      hidden := entries.hidden ++ freshFiles entries.hidden hidden
      revision := if fresh.isEmpty then entries.revision else entries.revision + 1 }

/-- With the positions of the deleted items. -/
def updateDelete (entries : Entries) (keys : List PathDyn) : Entries × List Nat :=
  let keys := keys.filter fun key => !key.isEmpty
  let (keys, items, deleted) := removeKeys 0 keys entries.items
  let (_, hidden, _) := removeKeys 0 keys entries.hidden
  ({ entries with
      items, hidden
      revision := if deleted.isEmpty then entries.revision else entries.revision + 1 },
    deleted)

/-- The entries with a key on both sides. -/
def keyed (files : FileMap) : FileMap :=
  List.filter (fun entry => !entry.1.isEmpty && !entry.2.key.isEmpty) files

/-- With the hidden and the visible files that took no place. -/
def updateExisting (entries : Entries) (files : FileMap) : Entries × FileMap × FileMap :=
  let files := keyed files
  if files.isEmpty then (entries, [], [])
  else
    let (hidden, items) := List.partition (fun entry => entries.conceals regex entry.2) files
    let (items, visible, same) := replaceFiles items entries.items
    let (hidden, concealed, _) := replaceFiles hidden entries.hidden
    ({ entries with
        items := visible
        hidden := concealed
        revision := if same then entries.revision else entries.revision + 1 },
      hidden, items)

/-- The new keys of the files that are renamed. -/
def renamed (files : FileMap) : List PathDyn :=
  (List.filter (fun entry => !(entry.1 == entry.2.key)) files).map (·.2.key)

def updateUpsert (entries : Entries) (files : FileMap) : Entries :=
  let files := keyed files
  if files.isEmpty then entries
  else
    let (entries, _) := entries.updateDelete (renamed files)
    let (entries, hidden, items) := entries.updateExisting regex files
    { entries with
      hidden := entries.hidden ++ hidden.values
      items := entries.items ++ items.values
      revision := if items.isEmpty then entries.revision else entries.revision + 1 }

end update

/-! ### Order and filter -/

section order
variable (regex : Regex) (env : Sorting)

def sorted (entries : Entries) : Files :=
  entries.sorter.sort env entries.sizes entries.ranks entries.items

/-- With whether the items were sorted. -/
def catchupRevision (entries : Entries) : Entries × Bool :=
  if entries.version = entries.revision then (entries, false)
  else ({ entries with version := entries.revision, items := entries.sorted env }, true)

def setSorter (entries : Entries) (sorter : FilesSorter) : Entries :=
  if entries.sorter = sorter then entries
  else { entries with sorter, revision := entries.revision + 1 }

def sameFilter : Option Filter → Option Filter → Bool
  | none, none => true
  | some a, some b => a.eq b
  | _, _ => false

/-- With whether the filter was taken for another one. -/
def setFilter (entries : Entries) (filter : Option Filter) : Entries × Bool :=
  if sameFilter entries.filter filter then (entries, false)
  else
    let entries := { entries with filter }
    if filter.isNone then
      let (hidden, items) := entries.splitFiles regex entries.hidden
      let entries := { entries with hidden, items := entries.items ++ items }
      (if items.isEmpty then entries else { entries with items := entries.sorted env }, true)
    else
      let (hidden, items) := entries.splitFiles regex entries.all
      let entries := { entries with hidden, items }
      ({ entries with items := entries.sorted env }, true)

def setShowHidden (entries : Entries) (state : Bool) : Entries :=
  if entries.showHidden = state then entries
  else
    let len := entries.items.length
    let take := if state then entries.hidden else entries.items
    let entries :=
      if state then { entries with showHidden := state, hidden := [] }
      else { entries with showHidden := state, items := [] }
    if take.isEmpty then
      -- Nothing was taken, so nothing was lost.
      entries
    else
      let (hidden, items) := entries.splitFiles regex take
      let items := entries.items ++ items
      { entries with
        hidden := entries.hidden ++ hidden
        items
        revision := if items.length ≠ len then entries.revision + 1 else entries.revision }

end order

/-! ### Operations -/

end Entries

inductive EntriesOp where
  | full (ticket : Nat) (files : Files)
  | part (files : Files) (ticket : Nat)
  | size (sizes : Sizes)
  | rank (ranks : Ranks)
  | fail (ticket : Nat)
  | create (files : Files)
  | delete (keys : List PathDyn)
  | existing (files : FileMap)
  | upsert (files : FileMap)
  | catchup
  | setSorter (sorter : FilesSorter)
  | setFilter (filter : Option Filter)
  | setShowHidden (state : Bool)

/-- The maps of an operation are hash maps. -/
def EntriesOp.proper : EntriesOp → Bool
  | .size sizes => sizes.Distinct
  | .rank ranks => ranks.Distinct
  | .existing files | .upsert files => files.Distinct
  | _ => true

namespace Entries

def apply (regex : Regex) (env : Sorting) (entries : Entries) : EntriesOp → Entries
  | .full ticket files => entries.updateFull regex ticket files
  | .part files ticket => entries.updatePart regex files ticket
  | .size sizes => entries.updateSize sizes
  | .rank ranks => entries.updateRank ranks
  | .fail ticket => entries.updateFail ticket
  | .create files => entries.updateCreate regex files
  | .delete keys => (entries.updateDelete keys).1
  | .existing files => (entries.updateExisting regex files).1
  | .upsert files => entries.updateUpsert regex files
  | .catchup => (entries.catchupRevision env).1
  | .setSorter sorter => entries.setSorter sorter
  | .setFilter filter => (entries.setFilter regex env filter).1
  | .setShowHidden state => entries.setShowHidden regex state

def step (regex : Regex) (env : Sorting) (entries : Entries) (op : EntriesOp) : Option Entries :=
  if op.proper then some (entries.apply regex env op) else none

/-! ### What the loops do -/

theorem removeKeys_kept (position : Nat) (keys : List PathDyn) (files : Files) :
    (removeKeys position keys files).2.1 = Keyed.drop File.key keys files := by
  induction files generalizing position keys with
  | nil => rfl
  | cons file files ih =>
    simp only [removeKeys, Keyed.drop]
    split
    · exact ih ..
    · exact congrArg _ (ih ..)

theorem removeKeys_keys (position : Nat) (keys : List PathDyn) (files : Files) :
    (removeKeys position keys files).1 =
      keys.filter fun key => files.all fun file => !(file.key == key) := by
  induction files generalizing position keys with
  | nil => simp [removeKeys]
  | cons file files ih =>
    simp only [removeKeys]
    split
    · rw [ih, List.filter_filter]
      simp only [List.all_cons, Bool.and_comm]
    · next absent =>
      rw [ih]
      apply List.filter_congr
      intro key member
      have other : (file.key == key) = false := by
        by_contra same
        rw [List.contains_iff_exists_mem_beq] at absent
        exact absent ⟨key, member, by simpa using same⟩
      simp [other]

/-- Positions are reported exactly when files go. -/
theorem removeKeys_deleted (position : Nat) (keys : List PathDyn) (files : Files) :
    (removeKeys position keys files).2.2 = [] ↔
      (removeKeys position keys files).2.1 = files := by
  induction files generalizing position keys with
  | nil => simp [removeKeys]
  | cons file files ih =>
    simp only [removeKeys]
    split
    · have shorter : (Keyed.drop File.key (keys.filter fun k => !(file.key == k)) files).length ≤
          files.length := (Keyed.drop_sublist ..).length_le
      rw [← removeKeys_kept (position + 1)] at shorter
      simp only [reduceCtorEq, false_iff]
      intro whole
      rw [whole, List.length_cons] at shorter
      omega
    · simp [ih]

theorem replaceFiles_src (src : FileMap) (files : Files) :
    (replaceFiles src files).1 = Keyed.unused File.key src files := by
  induction files generalizing src with
  | nil => rfl
  | cons old files ih =>
    simp only [replaceFiles, Keyed.unused]
    cases src.get? old.key with
    | none => exact ih _
    | some file => exact ih _

theorem replaceFiles_files (src : FileMap) (files : Files) :
    (replaceFiles src files).2.1 = Keyed.substitute File.key src files := by
  induction files generalizing src with
  | nil => rfl
  | cons old files ih =>
    simp only [replaceFiles, Keyed.substitute]
    cases src.get? old.key with
    | none => exact congrArg _ (ih _)
    | some file => exact congrArg _ (ih _)

/-- Collecting files into a map keeps each under its key. -/
private theorem collect_spec (src : Files) (todo : FileMap) (distinct : todo.Distinct) :
    (src.foldl (fun todo file => todo.insert file.key file) todo).Distinct ∧
      ∀ entry ∈ src.foldl (fun todo file => todo.insert file.key file) todo,
        entry ∈ todo ∨ entry.2 ∈ src ∧ (entry.2.key == entry.1) = true := by
  induction src generalizing todo with
  | nil => exact ⟨distinct, fun _ => .inl⟩
  | cons file src ih =>
    obtain ⟨apart, origin⟩ := ih (todo.insert file.key file) (distinct.insert ..)
    refine ⟨apart, fun entry member => ?_⟩
    rcases origin entry member with old | ⟨inside, same⟩
    · rcases Assoc.mem_insert old with old | ⟨same, new⟩
      · exact .inl old
      · rw [← new] at same
        exact .inr ⟨new ▸ List.mem_cons_self .., same⟩
    · exact .inr ⟨List.mem_cons_of_mem _ inside, same⟩

private theorem discard_eq (dist : Files) (todo : FileMap) :
    dist.foldl (fun todo file => Assoc.erase todo file.key) todo =
      List.filter (fun entry => dist.all fun file => !(file.key == entry.1)) todo := by
  induction dist generalizing todo with
  | nil => simp
  | cons file dist ih =>
    rw [List.foldl_cons, ih, Assoc.erase, List.filter_filter]
    simp only [List.all_cons, Bool.and_comm]

/-- Fresh files are of the source, with keys that are new and occur once. -/
theorem freshFiles_spec (dist src : Files) :
    Keyed.Distinct File.key (freshFiles dist src) ∧
      ∀ file ∈ freshFiles dist src,
        file ∈ src ∧ ∀ known ∈ dist, (known.key == file.key) = false := by
  obtain ⟨apart, origin⟩ := collect_spec src [] .nil
  simp only [List.not_mem_nil, false_or] at origin
  simp only [freshFiles, discard_eq]
  constructor
  · apply Keyed.distinct_values (apart.filter _)
    intro entry member
    rw [BEq.comm]
    exact (origin entry (List.mem_filter.mp member).1).2
  · intro file member
    obtain ⟨entry, inside, rfl⟩ := List.mem_map.mp member
    obtain ⟨inside, new⟩ := List.mem_filter.mp inside
    obtain ⟨source, same⟩ := origin entry inside
    refine ⟨source, fun known there => ?_⟩
    rw [BEq.congr_right same]
    simpa using List.all_eq_true.mp new known there

section spec
variable (regex : Regex) (entries : Entries)

theorem splitFiles_eq (files : Files) :
    entries.splitFiles regex files =
      (files.filter fun file => !file.key.isEmpty && entries.conceals regex file,
        files.filter fun file => !file.key.isEmpty && !entries.conceals regex file) := by
  rw [splitFiles, List.partition_eq_filter_filter, List.filter_filter, List.filter_filter]
  simp only [Bool.and_comm, Function.comp_apply]

/-- The keys that the items leave to the hidden files. -/
def leftKeys (entries : Entries) (keys : List PathDyn) : List PathDyn :=
  keys.filter fun key => !key.isEmpty && entries.items.all fun file => !(file.key == key)

theorem updateDelete_items (keys : List PathDyn) :
    (entries.updateDelete keys).1.items =
      Keyed.drop File.key (keys.filter fun key => !key.isEmpty) entries.items :=
  removeKeys_kept ..

theorem updateDelete_hidden (keys : List PathDyn) :
    (entries.updateDelete keys).1.hidden =
      Keyed.drop File.key (entries.leftKeys keys) entries.hidden := by
  change (removeKeys 0 (removeKeys 0 _ entries.items).1 entries.hidden).2.1 = _
  rw [removeKeys_kept, removeKeys_keys, List.filter_filter, leftKeys]
  simp only [Bool.and_comm]

/-- The entries of a map whose file is visible, and those whose file is not. -/
def side (hidden : Bool) (files : FileMap) : FileMap :=
  List.filter (fun entry => entries.conceals regex entry.2 == hidden) (keyed files)

theorem updateExisting_eq (files : FileMap) :
    (entries.updateExisting regex files).1.items =
        Keyed.substitute File.key (entries.side regex false files) entries.items ∧
      (entries.updateExisting regex files).1.hidden =
        Keyed.substitute File.key (entries.side regex true files) entries.hidden ∧
      (entries.updateExisting regex files).2 =
        (Keyed.unused File.key (entries.side regex true files) entries.hidden,
          Keyed.unused File.key (entries.side regex false files) entries.items) := by
  simp only [updateExisting, side]
  split
  · next none =>
    rw [List.isEmpty_iff] at none
    simp [none]
  · simp only [List.partition_eq_filter_filter, Function.comp_def, beq_true, beq_false]
    exact ⟨replaceFiles_files .., replaceFiles_files .., by rw [replaceFiles_src, replaceFiles_src]⟩

end spec

end Entries

end Yazi.Fs
