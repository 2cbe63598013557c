import Yazi.Fs.Upsert

/-!
The two sides of a listing.

Each update moves files between the visible items and the hidden files by its own code, and
looks for known files on one side only. The sides stay apart, and no key occurs twice, as long
as what an update brings does not meet a file that it fails to look at.
-/
namespace Yazi.Fs
open Yazi.Base Yazi.Shared

namespace Entries

section parted
variable (regex : Regex)

/-- What the two sides are for. -/
structure Parted (entries : Entries) : Prop where
  visible : ∀ file ∈ entries.items, entries.conceals regex file = false
  concealed : ∀ file ∈ entries.hidden, entries.conceals regex file = true
  distinct : Keyed.Distinct File.key entries.all

/-- The files with a key. -/
def listed (files : Files) : Files := files.filter fun file => !file.key.isEmpty

/-- The side that a file does not belong to. -/
def opposite (entries : Entries) (file : File) : Files :=
  if entries.conceals regex file then entries.items else entries.hidden

/-- The key is that of a file on the side where the update of `file` does not look. -/
def overlooks (entries : Entries) (file : File) (key : PathDyn) : Bool :=
  (entries.opposite regex file).any fun known => known.key == key

/-- The entries of the map that take the place of a file on their own side. -/
def placed (entries : Entries) (hidden : Bool) (files : FileMap) : FileMap :=
  Keyed.used File.key (entries.side regex hidden files)
    (if hidden then entries.hidden else entries.items)

/-- The files that take the place of known ones. -/
def placedFiles (entries : Entries) (files : FileMap) : Files :=
  (entries.placed regex false files).values ++ (entries.placed regex true files).values

/-- No file stays whose key a placed file has. -/
def yields (entries : Entries) (files : FileMap) (hidden : Bool) (known : File) : Bool :=
  (entries.placed regex hidden files).keys.contains known.key ||
    !(entries.placedFiles regex files).any fun file => known.key == file.key

/-- What an operation brings is new to the side where it does not look. -/
def admits (entries : Entries) : EntriesOp → Bool
  | .full _ files => Keyed.Distinct File.key (listed files)
  | .part files ticket =>
    files.isEmpty || ticket ≠ entries.ticket ||
      decide (Keyed.Distinct File.key (entries.all ++ listed files))
  | .create files =>
    (listed files).all fun file => !entries.overlooks regex file file.key &&
      (listed files).all fun other =>
        !(file.key == other.key) || entries.conceals regex file == entries.conceals regex other
  | .existing files =>
    Keyed.Distinct File.key (entries.placedFiles regex files) ∧
      entries.items.all (entries.yields regex files false) ∧
      entries.hidden.all (entries.yields regex files true)
  | .upsert files =>
    Keyed.Distinct File.key (keyed files).values ∧
      (keyed files).all fun entry =>
        !(entry.1 == entry.2.key) || !entries.overlooks regex entry.2 entry.1
  | .setFilter filter => !sameFilter entries.filter filter || entries.filter = filter
  | _ => true

end parted

variable {regex : Regex} {env : Sorting} {entries : Entries}

/-! ### Splitting -/

/-- What is added to the known files is added to the ends of the two sides. -/
private theorem perm_sides (items hidden visible concealed : Files) :
    ((items ++ hidden) ++ (visible ++ concealed)).Perm
      ((items ++ visible) ++ (hidden ++ concealed)) := by
  rw [List.append_assoc, List.append_assoc]
  exact (List.perm_append_comm_assoc hidden visible concealed).append_left items

section splitting
variable (regex entries)

theorem splitFiles_perm (files : Files) :
    ((entries.splitFiles regex files).2 ++ (entries.splitFiles regex files).1).Perm
      (listed files) := by
  rw [splitFiles, List.partition_eq_filter_filter]
  exact List.perm_append_comm.trans (List.filter_append_perm _ _)

end splitting

theorem splitFiles_hidden {files : Files} {file : File}
    (member : file ∈ (entries.splitFiles regex files).1) :
    file ∈ listed files ∧ entries.conceals regex file = true := by
  rw [splitFiles, List.partition_eq_filter_filter] at member
  exact List.mem_filter.mp member

theorem splitFiles_items {files : Files} {file : File}
    (member : file ∈ (entries.splitFiles regex files).2) :
    file ∈ listed files ∧ entries.conceals regex file = false := by
  rw [splitFiles, List.partition_eq_filter_filter] at member
  obtain ⟨inside, shown⟩ := List.mem_filter.mp member
  exact ⟨inside, by simpa using shown⟩

theorem listed_sublist (files : Files) : (listed files).Sublist files := List.filter_sublist

/-- Only the filter and what is shown decide on which side a file belongs. -/
theorem conceals_congr {a b : Entries} (filter : a.filter = b.filter)
    (shown : a.showHidden = b.showHidden) (file : File) :
    a.conceals regex file = b.conceals regex file := by
  simp only [conceals, filter, shown]

/-- Each side keeps some of its files and gets others of its own, whose keys are new. -/
private theorem parted_revise {a b : Entries} {keptItems keptHidden visible concealed : Files}
    (parted : a.Parted regex) (filter : b.filter = a.filter)
    (shown : b.showHidden = a.showHidden) (items : b.items.Perm (keptItems ++ visible))
    (hidden : b.hidden.Perm (keptHidden ++ concealed)) (sub : keptItems.Sublist a.items)
    (sub' : keptHidden.Sublist a.hidden) (fits : ∀ file ∈ visible, a.conceals regex file = false)
    (fits' : ∀ file ∈ concealed, a.conceals regex file = true)
    (apart : Keyed.Distinct File.key (visible ++ concealed))
    (new : ∀ known ∈ keptItems ++ keptHidden, ∀ file ∈ visible ++ concealed,
      (known.key == file.key) = false) : b.Parted regex where
  visible file member := by
    rw [conceals_congr filter shown]
    rcases List.mem_append.mp (items.subset member) with old | added
    · exact parted.visible file (sub.subset old)
    · exact fits file added
  concealed file member := by
    rw [conceals_congr filter shown]
    rcases List.mem_append.mp (hidden.subset member) with old | added
    · exact parted.concealed file (sub'.subset old)
    · exact fits' file added
  distinct := by
    have kept : Keyed.Distinct File.key (keptItems ++ keptHidden) :=
      parted.distinct.sublist (sub.append sub')
    have whole := Keyed.distinct_append.mpr ⟨kept, apart, new⟩
    exact whole.perm ((perm_sides ..).trans (items.append hidden).symm)

/-- As `parted_revise`, where what is added is split. -/
private theorem parted_split {a b : Entries} {keptItems keptHidden taken : Files}
    (filter : b.filter = a.filter) (shown : b.showHidden = a.showHidden)
    (items : b.items.Perm (keptItems ++ (a.splitFiles regex taken).2))
    (hidden : b.hidden.Perm (keptHidden ++ (a.splitFiles regex taken).1))
    (visible : ∀ file ∈ keptItems, a.conceals regex file = false)
    (concealed : ∀ file ∈ keptHidden, a.conceals regex file = true)
    (distinct : Keyed.Distinct File.key ((keptItems ++ keptHidden) ++ listed taken)) :
    b.Parted regex where
  visible file member := by
    rw [conceals_congr filter shown]
    rcases List.mem_append.mp (items.subset member) with old | added
    · exact visible file old
    · exact (splitFiles_items added).2
  concealed file member := by
    rw [conceals_congr filter shown]
    rcases List.mem_append.mp (hidden.subset member) with old | added
    · exact concealed file old
    · exact (splitFiles_hidden added).2
  distinct := by
    have halves := (splitFiles_perm regex a taken).symm
    have whole := distinct.perm (halves.append_left _)
    exact whole.perm ((perm_sides ..).trans (items.append hidden).symm)

/-! ### Updates that bring files -/

theorem parted_full {ticket : Nat} {files : Files}
    (distinct : Keyed.Distinct File.key (listed files)) :
    (entries.updateFull regex ticket files).Parted regex :=
  @parted_split regex entries _ [] [] files rfl rfl (.refl _) (.refl _) (by simp) (by simp) distinct

theorem parted_part {ticket : Nat} {files : Files} (parted : entries.Parted regex)
    (new : files.isEmpty = false → ticket = entries.ticket →
      Keyed.Distinct File.key (entries.all ++ listed files)) :
    (entries.updatePart regex files ticket).Parted regex := by
  simp only [updatePart]
  split
  · next given =>
    split
    · exact parted
    · next current =>
      have distinct := new (by simpa using given) (not_not.mp current)
      exact parted_split rfl rfl (.refl _) (.refl _) parted.visible parted.concealed distinct
  · exact ⟨by simp, by simp, .nil⟩

variable (regex entries) in
/-- A part of the current load adds its files. -/
theorem updatePart_all {files : Files} (given : files.isEmpty = false) :
    (entries.updatePart regex files entries.ticket).all.Perm (entries.all ++ listed files) := by
  have halves := splitFiles_perm regex entries files
  simp only [updatePart, given, Bool.not_false, if_true, ne_eq, not_true_eq_false, if_false]
  exact (perm_sides entries.items entries.hidden _ _).symm.trans (halves.append_left _)

theorem parted_create {files : Files} (parted : entries.Parted regex)
    (new : ∀ file ∈ listed files, entries.overlooks regex file file.key = false)
    (agree : ∀ file ∈ listed files, ∀ other ∈ listed files, (file.key == other.key) = true →
      entries.conceals regex file = entries.conceals regex other) :
    (entries.updateCreate regex files).Parted regex := by
  simp only [updateCreate]
  split
  · exact parted
  · obtain ⟨shownApart, shown⟩ :=
      freshFiles_spec entries.items (entries.splitFiles regex files).2
    obtain ⟨heldApart, held⟩ :=
      freshFiles_spec entries.hidden (entries.splitFiles regex files).1
    have visible := fun file member => splitFiles_items (shown file member).1
    have concealed := fun file member => splitFiles_hidden (held file member).1
    refine parted_revise parted rfl rfl (.refl _) (.refl _) (.refl _) (.refl _)
      (fun file member => (visible file member).2) (fun file member => (concealed file member).2)
      (Keyed.distinct_append.mpr ⟨shownApart, heldApart, ?_⟩) ?_
    · -- Two files of one key are on the same side.
      intro a shown b held
      by_contra same
      have equal := agree a (visible a shown).1 b (concealed b held).1 (by simpa using same)
      rw [(visible a shown).2, (concealed b held).2] at equal
      cases equal
    · intro known inside file member
      rw [List.mem_append] at member
      have look := new file (member.elim (fun m => (visible file m).1) fun m => (concealed file m).1)
      simp only [overlooks, opposite, List.any_eq_false, Bool.not_eq_true] at look
      rcases member with member | member
      · rw [(visible file member).2] at look
        rcases List.mem_append.mp inside with here | there
        · exact (shown file member).2 known here
        · exact look known there
      · rw [(concealed file member).2] at look
        rcases List.mem_append.mp inside with here | there
        · exact look known here
        · exact (held file member).2 known there

/-! ### Updates that replace files -/

private theorem side_conceals {hidden : Bool} {files : FileMap} {file : File}
    (member : file ∈ (entries.side regex hidden files).values) :
    entries.conceals regex file = hidden := by
  obtain ⟨entry, inside, rfl⟩ := List.mem_map.mp member
  simpa using (List.mem_filter.mp inside).2

private theorem placed_sublist {hidden : Bool} {files : FileMap} :
    (entries.placed regex hidden files).Sublist (entries.side regex hidden files) :=
  List.filter_sublist

/-- A known file that makes room for the placed ones has none of their keys. -/
private theorem yields_apart {files : FileMap} {hidden : Bool} {known : File}
    (yields : entries.yields regex files hidden known = true)
    (stays : (entries.side regex hidden files).keys.contains known.key = false) :
    ∀ file ∈ entries.placedFiles regex files, (known.key == file.key) = false := by
  have absent : (entries.placed regex hidden files).keys.contains known.key = false := by
    simp only [Bool.eq_false_iff, ne_eq, List.contains_iff_exists_mem_beq] at stays ⊢
    rintro ⟨key, inside, same⟩
    exact stays ⟨key, (placed_sublist.map _).subset inside, same⟩
  simpa [Entries.yields, absent] using yields

variable (regex entries) in
private theorem existing_settings (files : FileMap) :
    (entries.updateExisting regex files).1.filter = entries.filter ∧
      (entries.updateExisting regex files).1.showHidden = entries.showHidden := by
  simp only [updateExisting]
  split <;> exact ⟨rfl, rfl⟩

theorem parted_existing {files : FileMap} (proper : files.Distinct) (parted : entries.Parted regex)
    (apart : Keyed.Distinct File.key (entries.placedFiles regex files))
    (shown : ∀ known ∈ entries.items, entries.yields regex files false known = true)
    (held : ∀ known ∈ entries.hidden, entries.yields regex files true known = true) :
    (entries.updateExisting regex files).1.Parted regex := by
  obtain ⟨visible, concealed, -⟩ := updateExisting_eq regex entries files
  obtain ⟨itemsApart, hiddenApart, -⟩ := Keyed.distinct_append.mp parted.distinct
  -- A side afterwards: what is left of it, and what takes a place there.
  have items := Keyed.substitute_used File.key (side_distinct regex entries proper false)
    entries.items
  have hidden := Keyed.substitute_used File.key (side_distinct regex entries proper true)
    entries.hidden
  rw [← visible] at items
  rw [← concealed] at hidden
  obtain ⟨filter, shown'⟩ := existing_settings regex entries files
  refine parted_revise parted filter shown' items hidden (Keyed.drop_sublist ..)
    (Keyed.drop_sublist ..) ?_ ?_ apart ?_
  · intro file member
    exact side_conceals ((placed_sublist.map _).subset member)
  · intro file member
    exact side_conceals ((placed_sublist.map _).subset member)
  · intro known inside
    rcases List.mem_append.mp inside with here | there
    · have member := (Keyed.drop_sublist ..).subset here
      exact yields_apart (shown known member) (Keyed.not_mem_drop itemsApart here)
    · have member := (Keyed.drop_sublist ..).subset there
      exact yields_apart (held known member) (Keyed.not_mem_drop hiddenApart there)

variable (regex entries) in
private theorem upsert_settings (files : FileMap) :
    (entries.updateUpsert regex files).filter = entries.filter ∧
      (entries.updateUpsert regex files).showHidden = entries.showHidden := by
  simp only [updateUpsert]
  split
  · exact ⟨rfl, rfl⟩
  · exact existing_settings regex _ (keyed files)

/-- A file that an upsert leaves has none of the keys it brings. -/
private theorem left_apart {files : FileMap} (parted : entries.Parted regex)
    (new : ∀ entry ∈ keyed files, (entry.1 == entry.2.key) = true →
      entries.overlooks regex entry.2 entry.1 = false) {known file : File}
    (left : known ∈ entries.leftItems regex files ++ entries.leftHidden regex files)
    (brought : file ∈ (keyed files).values) : (known.key == file.key) = false := by
  by_contra same
  rw [Bool.not_eq_false] at same
  obtain ⟨visible, concealed⟩ := count_left regex entries files known.key
  have single : Keyed.count File.key known.key entries.items +
      Keyed.count File.key known.key entries.hidden ≤ 1 := by
    rw [Keyed.count, Keyed.count, ← List.countP_append]
    exact Keyed.count_le_one parted.distinct known.key
  have present : 0 < Keyed.count File.key known.key (entries.leftItems regex files) +
      Keyed.count File.key known.key (entries.leftHidden regex files) := by
    rw [Keyed.count, Keyed.count, ← List.countP_append]
    exact Keyed.count_pos left
  obtain ⟨entry, inside, rfl⟩ := List.mem_map.mp brought
  cases kept : entry.1 == entry.2.key with
  | false =>
    -- A rename removes the file of its new key, wherever it is.
    have lands : landsOn files known.key = true := by
      rw [landsOn, Keyed.contains_congr same, List.contains_iff_exists_mem_beq]
      refine ⟨entry.2.key, List.mem_map.mpr ⟨entry, List.mem_filter.mpr ⟨inside, ?_⟩, rfl⟩, BEq.rfl⟩
      rw [kept]
      rfl
    simp only [lands, Bool.toNat_true, Bool.true_and] at visible concealed
    by_cases none : Keyed.count File.key known.key entries.items = 0
    · simp only [none, beq_self_eq_true, Bool.toNat_true] at visible concealed
      omega
    · omega
  | true =>
    have key : (entry.1 == known.key) = true := BEq.trans kept (BEq.symm same)
    have replaces : entries.replacesOn regex (entries.conceals regex entry.2) files known.key =
        true := by
      rw [replacesOn, List.contains_iff_exists_mem_beq]
      refine ⟨entry.1, List.mem_map.mpr ⟨entry, List.mem_filter.mpr ⟨inside, ?_⟩, rfl⟩, BEq.symm key⟩
      exact beq_self_eq_true _
    have clear : Keyed.count File.key known.key (entries.opposite regex entry.2) = 0 := by
      have free := new entry inside kept
      simp only [overlooks, List.any_eq_false] at free
      rw [Keyed.count, List.countP_eq_zero]
      intro other there
      rw [← BEq.congr_right key]
      exact free other there
    cases side : entries.conceals regex entry.2 with
    | false =>
      rw [side] at replaces
      rw [opposite, if_neg (by simp [side])] at clear
      simp only [replaces, Bool.toNat_true] at visible
      omega
    | true =>
      rw [side] at replaces
      rw [opposite, if_pos side] at clear
      simp only [replaces, Bool.toNat_true] at concealed
      omega

theorem parted_upsert {files : FileMap} (proper : files.Distinct) (parted : entries.Parted regex)
    (apart : Keyed.Distinct File.key (keyed files).values)
    (new : ∀ entry ∈ keyed files, (entry.1 == entry.2.key) = true →
      entries.overlooks regex entry.2 entry.1 = false) :
    (entries.updateUpsert regex files).Parted regex := by
  obtain ⟨items, hidden⟩ := updateUpsert_sides regex entries proper
  obtain ⟨filter, shown⟩ := upsert_settings regex entries files
  have sub : (entries.leftItems regex files).Sublist entries.items :=
    (Keyed.drop_sublist ..).trans (Keyed.drop_sublist ..)
  have sub' : (entries.leftHidden regex files).Sublist entries.hidden :=
    (Keyed.drop_sublist ..).trans (Keyed.drop_sublist ..)
  have sides := side_values regex entries files
  refine parted_revise parted filter shown items hidden sub sub' (fun _ => side_conceals)
    (fun _ => side_conceals) (apart.perm sides.symm) ?_
  intro known left file brought
  exact left_apart parted new left (sides.subset brought)

/-! ### Other updates -/

theorem parted_delete (keys : List PathDyn) (parted : entries.Parted regex) :
    (entries.updateDelete keys).1.Parted regex := by
  have items : (entries.updateDelete keys).1.items.Sublist entries.items := by
    rw [updateDelete_items]
    exact Keyed.drop_sublist ..
  have hidden : (entries.updateDelete keys).1.hidden.Sublist entries.hidden := by
    rw [updateDelete_hidden]
    exact Keyed.drop_sublist ..
  exact ⟨fun file member => parted.visible file (items.subset member),
    fun file member => parted.concealed file (hidden.subset member),
    parted.distinct.sublist (items.append hidden)⟩

/-- The items may come in any order. -/
theorem parted_sorted {b : Entries} (parted : entries.Parted regex)
    (filter : b.filter = entries.filter) (shown : b.showHidden = entries.showHidden)
    (items : b.items.Perm entries.items) (hidden : b.hidden = entries.hidden) :
    b.Parted regex where
  visible file member := by
    rw [conceals_congr filter shown]
    exact parted.visible file (items.subset member)
  concealed file member := by
    rw [conceals_congr filter shown]
    rw [hidden] at member
    exact parted.concealed file member
  distinct := parted.distinct.perm ((items.append_right _).trans (by rw [hidden]; rfl)).symm

theorem parted_catchup (parted : entries.Parted regex) :
    (entries.catchupRevision env).1.Parted regex := by
  simp only [catchupRevision]
  split
  · exact parted
  · exact parted_sorted parted rfl rfl FilesSorter.sort_perm rfl

theorem parted_setFilter (filter : Option Filter) (parted : entries.Parted regex) :
    (entries.setFilter regex env filter).1.Parted regex := by
  simp only [setFilter]
  split
  · exact parted
  · split
    · next absent =>
      rw [Option.isNone_iff_eq_none] at absent
      subst absent
      -- Without a filter the items stay visible; the hidden files are split anew.
      have stays : ∀ file ∈ entries.items,
          Entries.conceals regex { entries with filter := none } file = false := by
        intro file member
        have shown := parted.visible file member
        simp only [conceals] at shown ⊢
        split at shown
        · simp only [Bool.or_eq_false_iff] at shown
          split <;> simp_all
        · exact shown
      have distinct : Keyed.Distinct File.key
          ((entries.items ++ []) ++ listed entries.hidden) := by
        rw [List.append_nil]
        exact parted.distinct.sublist ((List.Sublist.refl _).append (listed_sublist _))
      split
      · exact @parted_split regex { entries with filter := none } _ entries.items [] entries.hidden
          rfl rfl (.refl _) (.refl _) stays (by simp) distinct
      · exact @parted_split regex { entries with filter := none } _ entries.items [] entries.hidden
          rfl rfl FilesSorter.sort_perm (.refl _) stays (by simp) distinct
    · exact @parted_split regex { entries with filter } _ [] [] entries.all rfl rfl
        FilesSorter.sort_perm (.refl _) (by simp) (by simp)
        (parted.distinct.sublist (listed_sublist _))

theorem parted_setShowHidden (state : Bool) (parted : entries.Parted regex) :
    (entries.setShowHidden regex state).Parted regex := by
  simp only [setShowHidden]
  split
  · exact parted
  · next other =>
    cases state with
    | true =>
      -- More is shown, so the items stay and the hidden files are split.
      have stays : ∀ file ∈ entries.items,
          Entries.conceals regex { entries with showHidden := true } file = false := by
        intro file member
        have shown := parted.visible file member
        simp only [conceals, other] at shown ⊢
        split at shown <;> simp_all
      have distinct : Keyed.Distinct File.key
          ((entries.items ++ []) ++ listed entries.hidden) := by
        rw [List.append_nil]
        exact parted.distinct.sublist ((List.Sublist.refl _).append (listed_sublist _))
      simp only [↓reduceIte]
      split
      · next none =>
        rw [List.isEmpty_iff] at none
        refine ⟨stays, by simp, ?_⟩
        simpa [all, none, listed] using distinct
      · exact @parted_split regex { entries with showHidden := true } _ entries.items []
          entries.hidden rfl rfl (.refl _) (.refl _) stays (by simp) distinct
    | false =>
      -- Less is shown, so the hidden files stay and the items are split.
      have stays : ∀ file ∈ entries.hidden,
          Entries.conceals regex { entries with showHidden := false } file = true := by
        intro file member
        have held := parted.concealed file member
        simp only [conceals, other] at held ⊢
        split at held <;> simp_all
      have distinct : Keyed.Distinct File.key (([] ++ entries.hidden) ++ listed entries.items) :=
        (parted.distinct.perm List.perm_append_comm).sublist
          ((List.Sublist.refl _).append (listed_sublist _))
      simp only [Bool.false_eq_true, ↓reduceIte]
      split
      · next none =>
        rw [List.isEmpty_iff] at none
        refine ⟨by simp, stays, ?_⟩
        rw [none] at distinct
        simpa [all, listed] using distinct
      · exact @parted_split regex { entries with showHidden := false } _ [] entries.hidden
          entries.items rfl rfl (.refl _) (.refl _) (by simp) stays distinct

/-- What an operation admits, it sorts into the two sides. -/
theorem parted_apply {op : EntriesOp} (parted : entries.Parted regex) (proper : op.proper = true)
    (admits : entries.admits regex op = true) : (entries.apply regex env op).Parted regex := by
  cases op with
  | full ticket files => exact parted_full (by simpa [Entries.admits] using admits)
  | part files ticket =>
    apply parted_part parted
    intro given current
    simpa [Entries.admits, given, current] using admits
  | size sizes => exact parted_sorted parted rfl rfl (.refl _) rfl
  | rank ranks =>
    exact parted_sorted parted rfl rfl (.refl _) rfl
  | fail ticket => exact ⟨by simp [apply, updateFail], by simp [apply, updateFail], .nil⟩
  | create files =>
    simp only [Entries.admits, List.all_eq_true, Bool.and_eq_true, Bool.not_eq_true', Bool.or_eq_true,
      beq_iff_eq] at admits
    apply parted_create parted
    · intro file member
      exact (admits file member).1
    · intro file member other there same
      rcases (admits file member).2 other there with differ | agree
      · rw [same] at differ
        cases differ
      · exact agree
  | delete keys => exact parted_delete keys parted
  | existing files =>
    simp only [Entries.admits, Bool.decide_and, Bool.and_eq_true, decide_eq_true_eq,
      List.all_eq_true] at admits
    obtain ⟨apart, shown, held⟩ := admits
    exact parted_existing (by simpa [EntriesOp.proper] using proper) parted apart shown held
  | upsert files =>
    simp only [Entries.admits, Bool.decide_and, Bool.and_eq_true, decide_eq_true_eq,
      List.all_eq_true, Bool.or_eq_true, Bool.not_eq_true'] at admits
    obtain ⟨apart, free⟩ := admits
    apply parted_upsert (by simpa [EntriesOp.proper] using proper) parted apart
    intro entry member same
    rcases free entry member with differ | free
    · rw [same] at differ
      cases differ
    · exact free
  | catchup => exact parted_catchup parted
  | setSorter sorter =>
    simp only [apply, setSorter]
    split
    · exact parted
    · exact parted_sorted parted rfl rfl (.refl _) rfl
  | setFilter filter => exact parted_setFilter filter parted
  | setShowHidden state => exact parted_setShowHidden state parted

end Entries

/-! ### Runs -/

/-- Entries, and the filter that was set last. -/
structure Filtered where
  entries : Entries
  wanted : Option Filter

namespace Filtered

section runs
variable (regex : Regex) (env : Sorting)

def new (showHidden : Bool) : Filtered := ⟨.new showHidden, none⟩

/-- The filter that is wanted after an operation. -/
def wish (wanted : Option Filter) : EntriesOp → Option Filter
  | .setFilter filter => filter
  | _ => wanted

def step (s : Filtered) (op : EntriesOp) : Option Filtered :=
  (s.entries.step regex env op).map fun entries => ⟨entries, wish s.wanted op⟩

/-- A file is visible if it is not hidden or hidden files are shown, and the filter matches. -/
def shows (s : Filtered) (file : File) : Bool :=
  (!file.isHidden || s.entries.showHidden) && s.wanted.all fun filter => filter.isMatch regex file.urn

/-- The entries have the filter that is wanted, and are parted by it. -/
def Inv (s : Filtered) : Prop := s.entries.filter = s.wanted ∧ s.entries.Parted regex

end runs

variable {regex : Regex} {env : Sorting} {s t : Filtered}

theorem conceals_eq (inv : s.Inv regex) (file : File) :
    s.entries.conceals regex file = !s.shows regex file := by
  simp only [Entries.conceals, shows, inv.1]
  cases s.wanted with
  | none => cases s.entries.showHidden <;> simp
  | some filter => simp [Bool.not_and]

private theorem filter_apply {op : EntriesOp} (entries : Entries)
    (admits : entries.admits regex op = true) :
    (entries.apply regex env op).filter = wish entries.filter op := by
  cases op with
  | setFilter filter =>
    simp only [Entries.admits, Bool.or_eq_true, Bool.not_eq_true', decide_eq_true_eq] at admits
    simp only [Entries.apply, Entries.setFilter, wish]
    split
    · next same =>
      -- The filter that is taken for the same one is the same.
      rcases admits with differ | equal
      · rw [same] at differ
        cases differ
      · exact equal
    · split
      · split <;> rfl
      · rfl
  | existing files => exact (Entries.existing_settings regex entries files).1
  | upsert files => exact (Entries.upsert_settings regex entries files).1
  | delete keys => rfl
  | full ticket files => rfl
  | fail ticket => rfl
  | size sizes => rfl
  | rank ranks => rfl
  | part files ticket =>
    simp only [Entries.apply, Entries.updatePart, wish]
    (repeat' split) <;> rfl
  | create files =>
    simp only [Entries.apply, Entries.updateCreate, wish]
    split <;> rfl
  | catchup =>
    simp only [Entries.apply, Entries.catchupRevision, wish]
    split <;> rfl
  | setSorter sorter =>
    simp only [Entries.apply, Entries.setSorter, wish]
    split <;> rfl
  | setShowHidden state =>
    simp only [Entries.apply, Entries.setShowHidden, wish]
    (repeat' split) <;> rfl

theorem inv_step {op : EntriesOp} (inv : s.Inv regex)
    (move : restrict (step regex env) (fun s op => s.entries.admits regex op) s op = some t) :
    t.Inv regex := by
  obtain ⟨admits, move⟩ := restrict_eq_some move
  simp only [step, Entries.step, Option.map_eq_some_iff] at move
  obtain ⟨entries, applied, rfl⟩ := move
  split at applied
  · next proper =>
    cases applied
    refine ⟨?_, Entries.parted_apply inv.2 proper admits⟩
    rw [filter_apply _ admits, inv.1]
  · cases applied

/-- While what comes in is admitted, each side holds its files, and no key occurs twice. -/
theorem sides_exact {showHidden : Bool} {ops : List EntriesOp}
    (run : Run (restrict (step regex env) fun s op => s.entries.admits regex op)
      (.new showHidden) ops s) :
    s.entries.items = s.entries.all.filter (s.shows regex) ∧
      s.entries.hidden = s.entries.all.filter (fun file => !s.shows regex file) ∧
      Keyed.Distinct File.key s.entries.all := by
  have start : (new showHidden).Inv regex :=
    ⟨rfl, by simp [new, Entries.new], by simp [new, Entries.new], .nil⟩
  have inv : s.Inv regex := run.invariant (fun _ _ _ inv move => inv_step inv move) start
  obtain ⟨visible, concealed, distinct⟩ := inv.2
  have shown : ∀ file ∈ s.entries.items, s.shows regex file = true := by
    intro file member
    simpa [conceals_eq inv] using visible file member
  have held : ∀ file ∈ s.entries.hidden, s.shows regex file = false := by
    intro file member
    simpa [conceals_eq inv] using concealed file member
  have gone : s.entries.hidden.filter (s.shows regex) = [] :=
    List.filter_eq_nil_iff.mpr (by simpa using held)
  have gone' : s.entries.items.filter (fun file => !s.shows regex file) = [] :=
    List.filter_eq_nil_iff.mpr (by simpa using shown)
  refine ⟨?_, ?_, distinct⟩
  · rw [Entries.all, List.filter_append, List.filter_eq_self.mpr shown, gone, List.append_nil]
  · have whole : s.entries.hidden.filter (fun file => !s.shows regex file) = s.entries.hidden :=
      List.filter_eq_self.mpr (by simpa using held)
    rw [Entries.all, List.filter_append, whole, gone', List.nil_append]

/-- A file whose name is an upper case letter. -/
private def sample : File := File.fromDummy (Url.regular (text "/d/A")) none

/-- A load, a rename to a hidden name, and a filter in both cases. -/
theorem sides_exact_load :
    ∃ s, Run (restrict (step .literal .plain) fun s op => s.entries.admits .literal op) (new false)
        [.part [] 1, .part [File.fromDummy (Url.regular (text "/d/A")) none,
            File.fromDummy (Url.regular (text "/d/.b")) none] 1,
          .setFilter (Filter.new .literal (text "a") .smart), .setShowHidden true,
          .setFilter none] s ∧
      s.entries.items = s.entries.all.filter (s.shows .literal) ∧
      s.entries.hidden = s.entries.all.filter (fun file => !s.shows .literal file) ∧
      Keyed.Distinct File.key s.entries.all :=
  ⟨_, run_exec (by decide), sides_exact (run_exec (by decide))⟩

/-- A part delivers a file again that was created in the meantime; a filter that differs in case
only is not taken. -/
theorem sides_fail :
    (∃ s, Run (step .literal .plain) (new false) [.part [] 1, .create [sample], .part [sample] 1] s ∧
      ¬Keyed.Distinct File.key s.entries.all) ∧
    ∃ s, Run (step .literal .plain) (new false)
        [.part [] 1, .part [sample] 1, .setFilter (Filter.new .literal (text "a") .sensitive),
          .setFilter (Filter.new .literal (text "a") .insensitive)] s ∧
      s.entries.items ≠ s.entries.all.filter (s.shows .literal) :=
  ⟨⟨_, run_exec (by decide), by decide⟩, _, run_exec (by decide), by decide⟩

end Filtered

end Yazi.Fs
