import Yazi.Fs.Entries

/-!
What an upsert leaves behind.

An upsert looks for the file it replaces on the side of the new file only, the visible or the
hidden one. A file that waits on the other side stays, unless a rename onto its key removes it.
-/
namespace Yazi.Fs
open Yazi.Base Yazi.Shared

namespace Entries

variable {regex : Regex} {entries : Entries} {files : FileMap}

/-- The key is an old or a new key of the upsert. -/
def touches (files : FileMap) (key : PathDyn) : Bool :=
  (keyed files).keys.contains key || ((keyed files).values.map File.key).contains key

/-- A file of another key gets the key. -/
def landsOn (files : FileMap) (key : PathDyn) : Bool := (renamed (keyed files)).contains key

/-- The upsert has a file for the key, on the given side. -/
def replacesOn (regex : Regex) (entries : Entries) (hidden : Bool) (files : FileMap)
    (key : PathDyn) : Bool :=
  (entries.side regex hidden files).keys.contains key

/-- Every file of a touched key is either removed by a rename onto the key, which takes the
first one, or stands on the side of the file that replaces it. -/
def Settles (regex : Regex) (entries : Entries) (files : FileMap) : Prop :=
  ∀ key, touches files key = true →
    Keyed.count File.key key entries.items ≤
        (landsOn files key).toNat + (entries.replacesOn regex false files key).toNat ∧
      Keyed.count File.key key entries.hidden ≤
        (landsOn files key && Keyed.count File.key key entries.items == 0).toNat +
          (entries.replacesOn regex true files key).toNat

/-! ### The files of the two sides -/

theorem keyed_keyed (files : FileMap) : keyed (keyed files) = keyed files :=
  List.filter_eq_self.mpr fun _ member => (List.mem_filter.mp member).2

theorem renamed_keyed (files : FileMap) :
    (renamed (keyed files)).filter (fun key => !key.isEmpty) = renamed (keyed files) := by
  apply List.filter_eq_self.mpr
  intro key member
  obtain ⟨entry, inside, rfl⟩ := List.mem_map.mp member
  have present := (List.mem_filter.mp (List.mem_filter.mp inside).1).2
  exact (Bool.and_eq_true_iff.mp present).2

/-- The old files that an upsert leaves visible. -/
def leftItems (regex : Regex) (entries : Entries) (files : FileMap) : Files :=
  Keyed.drop File.key (entries.side regex false files).keys
    (Keyed.drop File.key (renamed (keyed files)) entries.items)

/-- The old files that an upsert leaves hidden. -/
def leftHidden (regex : Regex) (entries : Entries) (files : FileMap) : Files :=
  Keyed.drop File.key (entries.side regex true files).keys
    (Keyed.drop File.key (entries.leftKeys (renamed (keyed files))) entries.hidden)

variable (regex entries files) in
/-- The deletion changes neither the filter nor what is shown. -/
theorem side_updateDelete (keys : List PathDyn) (hidden : Bool) :
    (entries.updateDelete keys).1.side regex hidden (keyed files) =
      entries.side regex hidden files := by
  simp only [side, keyed_keyed]
  rfl

variable (regex entries) in
theorem side_distinct (distinct : files.Distinct) (hidden : Bool) :
    (entries.side regex hidden files).Distinct :=
  (distinct.filter _).filter _

variable (regex entries) in
theorem updateUpsert_sides (distinct : files.Distinct) :
    (entries.updateUpsert regex files).items.Perm
        (entries.leftItems regex files ++ (entries.side regex false files).values) ∧
      (entries.updateUpsert regex files).hidden.Perm
        (entries.leftHidden regex files ++ (entries.side regex true files).values) := by
  simp only [updateUpsert]
  split
  · next none =>
    rw [List.isEmpty_iff] at none
    simp [leftItems, leftHidden, side, leftKeys, renamed, none, Assoc.values, Assoc.keys]
  · let rest := (entries.updateDelete (renamed (keyed files))).1
    obtain ⟨visible, concealed, left⟩ := updateExisting_eq regex rest (keyed files)
    rw [side_updateDelete] at visible concealed
    rw [side_updateDelete, side_updateDelete] at left
    have items : rest.items = Keyed.drop File.key (renamed (keyed files)) entries.items := by
      rw [updateDelete_items, renamed_keyed]
    have hidden : rest.hidden =
        Keyed.drop File.key (entries.leftKeys (renamed (keyed files))) entries.hidden :=
      updateDelete_hidden ..
    constructor
    · change ((rest.updateExisting regex (keyed files)).1.items ++
        (rest.updateExisting regex (keyed files)).2.2.values).Perm _
      rw [visible, left, leftItems, ← items]
      exact Keyed.substitute_perm (side_distinct regex entries distinct false) _
    · change ((rest.updateExisting regex (keyed files)).1.hidden ++
        (rest.updateExisting regex (keyed files)).2.1.values).Perm _
      rw [concealed, left, leftHidden, ← hidden]
      exact Keyed.substitute_perm (side_distinct regex entries distinct true) _

theorem side_values (regex : Regex) (entries : Entries) (files : FileMap) :
    ((entries.side regex false files).values ++ (entries.side regex true files).values).Perm
      (keyed files).values := by
  simp only [Assoc.values, ← List.map_append]
  apply List.Perm.map
  simp only [side, beq_true, beq_false]
  exact (List.perm_append_comm).trans (List.filter_append_perm _ _)

variable (regex entries) in
/-- An upsert adds its files to what it leaves of the old ones. -/
theorem updateUpsert_all (distinct : files.Distinct) :
    (entries.updateUpsert regex files).all.Perm
      ((entries.leftItems regex files ++ entries.leftHidden regex files) ++ (keyed files).values) := by
  obtain ⟨visible, concealed⟩ := updateUpsert_sides regex entries distinct
  refine (visible.append concealed).trans ?_
  rw [List.append_assoc, List.append_assoc]
  apply List.Perm.append_left
  exact (List.perm_append_comm_assoc ..).trans
    ((side_values regex entries files).append_left _)

/-! ### What an upsert leaves -/

/-- The old files whose keys the upsert does not touch. -/
def untouched (entries : Entries) (files : FileMap) : Files :=
  entries.all.filter fun file => !touches files file.key

theorem touches_congr {a b : PathDyn} (same : (a == b) = true) :
    touches files a = touches files b := by
  simp only [touches, Keyed.contains_congr same]

private theorem touches_landsOn {key : PathDyn} (lands : landsOn files key = true) :
    touches files key = true := by
  simp only [touches, Bool.or_eq_true]
  right
  simp only [landsOn, renamed, Assoc.values, List.contains_iff_exists_mem_beq, List.mem_map,
    List.mem_filter] at lands ⊢
  obtain ⟨_, ⟨entry, ⟨member, -⟩, rfl⟩, same⟩ := lands
  exact ⟨_, ⟨_, ⟨entry, member, rfl⟩, rfl⟩, same⟩

private theorem touches_replacesOn {hidden : Bool} {key : PathDyn}
    (replaces : entries.replacesOn regex hidden files key = true) : touches files key = true := by
  simp only [touches, Bool.or_eq_true]
  left
  simp only [replacesOn, side, Assoc.keys, List.contains_iff_exists_mem_beq, List.mem_map,
    List.mem_filter] at replaces ⊢
  obtain ⟨_, ⟨entry, ⟨member, -⟩, rfl⟩, same⟩ := replaces
  exact ⟨_, ⟨entry, member, rfl⟩, same⟩

private theorem touches_leftKeys {key : PathDyn}
    (left : (entries.leftKeys (renamed (keyed files))).contains key = true) :
    touches files key = true := by
  apply touches_landsOn
  simp only [landsOn, leftKeys, List.contains_iff_exists_mem_beq, List.mem_filter] at left ⊢
  obtain ⟨k, ⟨member, -⟩, same⟩ := left
  exact ⟨k, member, same⟩

variable (regex) in
/-- The untouched files are among those left. -/
private theorem left_untouched :
    (entries.leftItems regex files ++ entries.leftHidden regex files).filter
      (fun file => !touches files file.key) = entries.untouched files := by
  have outside {keys : List PathDyn}
      (touched : ∀ key, keys.contains key = true → touches files key = true) (file : File)
      (member : keys.contains file.key = true) : (!touches files file.key) = false := by
    rw [touched _ member]
    rfl
  rw [untouched, all, List.filter_append, List.filter_append, leftItems, leftHidden,
    Keyed.filter_drop (outside fun _ => touches_replacesOn),
    Keyed.filter_drop (outside fun _ => touches_landsOn),
    Keyed.filter_drop (outside fun _ => touches_replacesOn),
    Keyed.filter_drop (outside fun _ => touches_leftKeys)]

private theorem contains_leftKeys (key : PathDyn) :
    (entries.leftKeys (renamed (keyed files))).contains key =
      (landsOn files key && Keyed.count File.key key entries.items == 0) := by
  apply Bool.eq_iff_iff.mpr
  simp only [leftKeys, landsOn, Keyed.count, List.contains_iff_exists_mem_beq, List.mem_filter,
    Bool.and_eq_true, List.all_eq_true, Bool.not_eq_true', beq_iff_eq, List.countP_eq_zero,
    Bool.not_eq_true]
  constructor
  · rintro ⟨k, ⟨member, -, absent⟩, same⟩
    refine ⟨⟨k, member, same⟩, fun file inside => ?_⟩
    rw [BEq.congr_right same]
    exact absent file inside
  · rintro ⟨⟨k, member, same⟩, absent⟩
    refine ⟨k, ⟨member, ?_, fun file inside => ?_⟩, same⟩
    · have present : k ∈ (renamed (keyed files)).filter fun key => !key.isEmpty := by
        rw [renamed_keyed]
        exact member
      simpa using (List.mem_filter.mp present).2
    · rw [← BEq.congr_right same]
      exact absent file inside

variable (regex entries files) in
/-- How many files of a key an upsert leaves on each side. -/
theorem count_left (key : PathDyn) :
    Keyed.count File.key key (entries.leftItems regex files) =
        Keyed.count File.key key entries.items - (landsOn files key).toNat -
          (entries.replacesOn regex false files key).toNat ∧
      Keyed.count File.key key (entries.leftHidden regex files) =
        Keyed.count File.key key entries.hidden -
          (landsOn files key && Keyed.count File.key key entries.items == 0).toNat -
          (entries.replacesOn regex true files key).toNat := by
  rw [leftItems, leftHidden, Keyed.count_drop, Keyed.count_drop, Keyed.count_drop,
    Keyed.count_drop, contains_leftKeys]
  exact ⟨rfl, rfl⟩

/-- An upsert settles exactly when it leaves no file of a touched key. -/
private theorem settles_iff :
    entries.Settles regex files ↔
      (entries.leftItems regex files ++ entries.leftHidden regex files).filter
        (fun file => touches files file.key) = [] := by
  have zero : entries.Settles regex files ↔ ∀ key, touches files key = true →
      Keyed.count File.key key (entries.leftItems regex files) = 0 ∧
        Keyed.count File.key key (entries.leftHidden regex files) = 0 := by
    apply forall₂_congr
    intro key _
    obtain ⟨visible, concealed⟩ := count_left regex entries files key
    rw [visible, concealed]
    omega
  rw [zero, List.filter_eq_nil_iff]
  constructor
  · intro none file member touched
    obtain ⟨visible, concealed⟩ := none file.key touched
    simp only [Keyed.count, List.countP_eq_zero] at visible concealed
    rcases List.mem_append.mp member with here | here
    · exact visible file here BEq.rfl
    · exact concealed file here BEq.rfl
  · intro none key touched
    have absent : ∀ file ∈ entries.leftItems regex files ++ entries.leftHidden regex files,
        ¬(file.key == key) = true := by
      intro file member same
      exact none file member ((touches_congr same).trans touched)
    simp only [Keyed.count, List.countP_eq_zero]
    exact ⟨fun file member => absent file (List.mem_append_left _ member),
      fun file member => absent file (List.mem_append_right _ member)⟩

/-- After an upsert the known files are the untouched ones and its own, exactly when it
settles. -/
theorem upsert_exact (distinct : files.Distinct) :
    (entries.updateUpsert regex files).all.Perm (entries.untouched files ++ (keyed files).values) ↔
      entries.Settles regex files := by
  rw [settles_iff, ← left_untouched regex]
  have whole := updateUpsert_all regex entries distinct
  generalize entries.leftItems regex files ++ entries.leftHidden regex files = left at whole ⊢
  have halves : (left.filter (fun file => touches files file.key) ++
      left.filter (fun file => !touches files file.key)).Perm left :=
    List.filter_append_perm _ _
  constructor
  · intro exact
    have same := (List.perm_append_right_iff _).mp (whole.symm.trans exact)
    have length := (halves.trans same).length_eq
    rw [List.length_append] at length
    exact List.length_eq_zero_iff.mp (by omega)
  · intro none
    rw [none, List.nil_append] at halves
    exact whole.trans (halves.symm.append_right _)

/-- A rename between visible names. -/
theorem upsert_exact_rename :
    let regex : Regex := ⟨fun _ => false, fun _ => true, fun _ _ _ => true⟩
    let old := File.fromDummy (Url.regular (text "/d/a")) none
    let entries := { Entries.new false with items := [old] }
    entries.Settles regex [(old.key, File.fromDummy (Url.regular (text "/d/b")) none)] :=
  (upsert_exact (by decide)).mp (by decide)

/-- A hidden file that is renamed to a visible name stays. -/
theorem upsert_keeps_hidden :
    let regex : Regex := ⟨fun _ => false, fun _ => true, fun _ _ _ => true⟩
    let old := File.fromDummy (Url.regular (text "/d/.a")) none
    let file := File.fromDummy (Url.regular (text "/d/b")) none
    let entries := { Entries.new false with hidden := [old] }
    let files : FileMap := [(old.key, file)]
    (entries.updateUpsert regex files).all = [file, old] ∧
      ¬(entries.updateUpsert regex files).all.Perm
        (entries.untouched files ++ (keyed files).values) := by
  decide

end Entries

end Yazi.Fs
