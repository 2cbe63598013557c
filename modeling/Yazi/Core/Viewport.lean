import Yazi.Base.Run
import Yazi.Core.Folder
import Yazi.Widgets.Scrollable

/-!
The cursor of a folder and the window that shows it.

Whatever moves the cursor ends by squeezing the offset, so that the window has the cursor in it.
-/
namespace Yazi.Core

open Yazi.Base Yazi.Base.Machine Yazi.Shared Yazi.Fs Yazi.Widgets.Scroll

/-- `Folder`, with its cursor. -/
structure Pane (Err : Type) where
  folder : Folder Err
  offset : Nat
  cursor : Nat
  page : Nat
  trace : Option PathDyn

/-- The height of the layout, and the option `scrolloff`. -/
structure Layout where
  height : UInt16
  scrolloff : UInt8

/-- `Layout::folder_limit`. -/
def Layout.limit (layout : Layout) : Nat := layout.height.toNat

/-- `Scrollable::scrolloff` of a folder. -/
def Layout.pad (layout : Layout) : Nat := min (layout.limit / 2) layout.scrolloff.toNat

namespace Pane

variable {Err : Type}

/-- `Folder::from`. -/
def new (showHidden : Bool) (url : Url) : Pane Err where
  folder := Folder.new showHidden url
  offset := 0
  cursor := 0
  page := 0
  trace := none

/-- The entries that are shown. -/
def items (pane : Pane Err) : Files := pane.folder.entries.items

def hovered (pane : Pane Err) : Option File := pane.items[pane.cursor]?

section layout
variable (layout : Layout)

def scrollable (pane : Pane Err) : Scrollable where
  total := pane.items.length
  limit := layout.limit
  scrolloff := layout.pad
  cursor := pane.cursor
  offset := pane.offset

def syncPage (pane : Pane Err) : Pane Err :=
  if layout.limit = 0 then pane else { pane with page := pane.cursor / layout.limit }

def squeezeOffset (pane : Pane Err) : Option (Pane Err × Bool) :=
  let len := pane.items.length
  (usize (pane.offset + layout.limit)).bind fun reach =>
    (if pane.cursor < min reach len - layout.pad then some (min (len - layout.limit) pane.offset)
      else
        (usize (pane.cursor - layout.limit + 1)).bind fun next =>
          (usize (next + layout.pad)).map fun next => min (len - layout.limit) next).map fun offset =>
      ({ pane with offset := min offset pane.cursor },
        decide (pane.offset ≠ min offset pane.cursor))

/-- With whether the cursor or the offset changed. -/
def arrow (pane : Pane Err) (step : Step) : Option (Pane Err × Bool) :=
  (if pane.items = [] then some (0, 0) else (pane.scrollable layout).scroll step).bind
    fun (cursor, offset) =>
      (squeezeOffset layout { pane with cursor, offset }).map fun (after, squeezed) =>
        (after.syncPage layout, decide ((cursor, offset) ≠ (pane.cursor, pane.offset)) || squeezed)

def retrace (pane : Pane Err) : Pane Err :=
  { pane with trace := (pane.hovered.map File.key).or pane.trace }

/-- `Entries::position`. -/
def position (pane : Pane Err) (key : PathDyn) : Option Nat :=
  if key.isEmpty then none else pane.items.findIdx? fun file => file.key == key

def hover (pane : Pane Err) (key : PathDyn) : Option (Pane Err × Bool) :=
  if key.isEmpty then pane.arrow layout (.offset 0)
  else if pane.hovered.any fun file => file.key == key then pane.arrow layout (.offset 0)
  else
    let new := (pane.position key).getD pane.cursor
    (isize (asIsize new - asIsize pane.cursor)).bind fun off =>
      (pane.arrow layout (.offset (.ofInt off))).map fun (after, b) => (after.retrace, b)

def repos (pane : Pane Err) (key : Option PathDyn) : Option (Pane Err × Bool) :=
  match key with
  | some key => pane.hover layout key
  | none =>
    match pane.trace with
    | some key =>
      (hover layout { pane with trace := none } key).map fun (after, b) =>
        ({ after with trace := some key }, b)
    | none => pane.arrow layout (.offset 0)

/-- The positions of the entries that the operation deletes. -/
def deleted (entries : Entries) : FilesOp Err → List Nat
  | .delete keys => (entries.updateDelete keys).2
  | _ => []

variable [DecidableEq Err] (regex : Regex)

/-- `Folder::update`, with its cursor. -/
def update (fresh : Nat) (pane : Pane Err) (op : FilesOp Err) : Option (Pane Err × Bool) :=
  match pane.folder.enter op with
  | none => some (pane, false)
  | some entered =>
    let gone := (deleted entered.entries op).countP fun i => decide (i < pane.cursor)
    let (folder, changed) := pane.folder.update regex fresh op
    let trace :=
      if folder.entries.items = [] ∧ ¬folder.stage.isLoading then none else pane.trace
    (isize (-asIsize gone)).bind fun off =>
      (arrow layout { pane with folder, trace } (.offset (.ofInt off))).map fun (after, _) =>
        (after, changed)

inductive Call (Err : Type) where
  | arrow (step : Step)
  | hover (key : PathDyn)
  | repos (key : Option PathDyn)
  | retrace
  | update (fresh : Nat) (op : FilesOp Err)

def step (pane : Pane Err) : Call Err → Option (Pane Err)
  | .arrow step => (pane.arrow layout step).map (·.1)
  | .hover key => (pane.hover layout key).map (·.1)
  | .repos key => (pane.repos layout key).map (·.1)
  | .retrace => some pane.retrace
  | .update fresh op => (pane.update layout regex fresh op).map (·.1)

/-! ### Entries -/

/-- Every file has a key. -/
def Named (files : Files) : Prop := ∀ file ∈ files, file.key.isEmpty = false

private theorem mem_substitute {src : FileMap} {files : Files} {file : File}
    (member : file ∈ Keyed.substitute File.key src files) : file ∈ files ∨ file ∈ src.values := by
  induction files generalizing src with
  | nil => cases member
  | cons old files ih =>
    rw [Keyed.substitute] at member
    cases found : src.get? old.key with
    | none =>
      rw [found] at member
      rcases List.mem_cons.mp member with rfl | rest
      · exact .inl (List.mem_cons_self ..)
      · exact (ih rest).imp_left (List.mem_cons_of_mem _)
    | some new =>
      rw [found] at member
      rcases List.mem_cons.mp member with rfl | rest
      · obtain ⟨key, here, -⟩ := Assoc.mem_of_get? found
        exact .inr (List.mem_map_of_mem here)
      · refine (ih rest).imp (List.mem_cons_of_mem _) fun here => ?_
        exact (List.filter_sublist.map Prod.snd).subset here

private theorem named_side (regex : Regex) (entries : Entries) (hidden : Bool) (files : FileMap) :
    Named (entries.side regex hidden files).values := by
  intro file member
  obtain ⟨entry, inside, rfl⟩ := List.mem_map.mp member
  have keyed := (List.mem_filter.mp (List.mem_filter.mp inside).1).2
  simpa using (Bool.and_eq_true_iff.mp keyed).2

private theorem named_existing {regex : Regex} {entries : Entries} (files : FileMap)
    (named : Named entries.items) :
    Named (entries.updateExisting regex files).1.items ∧
      Named (entries.updateExisting regex files).2.2.values := by
  obtain ⟨visible, -, left⟩ := Entries.updateExisting_eq regex entries files
  have side := named_side regex entries false files
  constructor
  · intro file member
    rw [visible] at member
    exact (mem_substitute member).elim (named file) (side file)
  · intro file member
    have rest := congrArg Prod.snd left
    dsimp only at rest
    rw [rest, Keyed.unused_eq] at member
    exact side file ((List.filter_sublist.map Prod.snd).subset member)

private theorem named_delete {entries : Entries} (keys : List PathDyn) (named : Named entries.items) :
    Named (entries.updateDelete keys).1.items := by
  rw [Entries.updateDelete_items]
  exact fun file member => named file ((Keyed.drop_sublist ..).subset member)

private theorem named_split (regex : Regex) (entries : Entries) (files : Files) :
    Named (entries.splitFiles regex files).2 := by
  intro file member
  obtain ⟨listed, -⟩ := Entries.splitFiles_items member
  simpa using (List.mem_filter.mp listed).2

omit [DecidableEq Err] in
/-- No operation shows a file without key. -/
theorem named_absorb {regex : Regex} (fresh : Nat) {entries : Entries} (op : FilesOp Err)
    (named : Named entries.items) : Named (Folder.absorb regex fresh entries op).items := by
  have both {first rest : Files} (left : Named first) (right : Named rest) : Named (first ++ rest) := by
    intro file member
    exact (List.mem_append.mp member).elim (left file) (right file)
  cases op with
  | full file files => exact named_split regex entries files
  | part files ticket =>
    simp only [Folder.absorb, Entries.updatePart]
    split
    · split
      · exact named
      · exact both named (named_split regex entries files)
    · intro file member
      cases member
  | done | size | rank => exact named
  | fail err =>
    intro file member
    cases member
  | create files =>
    simp only [Folder.absorb, Entries.updateCreate]
    split
    · exact named
    · refine both named fun file member => ?_
      exact named_split regex entries files file ((Entries.freshFiles_spec _ _).2 file member).1
  | delete keys => exact named_delete keys named
  | update files => exact (named_existing files named).1
  | upsert files =>
    simp only [Folder.absorb, Entries.updateUpsert]
    split
    · exact named
    · obtain ⟨items, more⟩ := named_existing (Entries.keyed files) (named_delete _ named)
      exact both items more

/-! ### The window -/

/-- The cursor is on an entry that the window shows, or there is none. -/
structure Shown (layout : Layout) (pane : Pane Err) : Prop where
  empty : pane.items = [] → pane.cursor = 0 ∧ pane.offset = 0
  shown : pane.items ≠ [] → pane.cursor < pane.items.length ∧ pane.offset ≤ pane.cursor ∧
    pane.cursor < pane.offset + layout.limit

omit [DecidableEq Err] in
theorem squeezeOffset_total {layout : Layout} {pane : Pane Err} (positive : 0 < layout.limit)
    (short : pane.items.length < 2 ^ 63) (before : pane.offset < 2 ^ 63)
    (inside : pane.items = [] ∧ pane.cursor = 0 ∨ pane.cursor < pane.items.length) :
    ∃ offset b, pane.squeezeOffset layout = some ({ pane with offset }, b) ∧
      offset ≤ pane.cursor ∧ pane.cursor < offset + layout.limit := by
  have narrow : layout.limit < 2 ^ 16 := layout.height.toNat_lt
  have pad : layout.pad < 2 ^ 16 := by
    rw [Layout.pad]
    omega
  have half : layout.pad ≤ layout.limit / 2 := Nat.min_le_left ..
  have some : pane.items = [] → pane.items.length = 0 := fun none => by rw [none, List.length_nil]
  rw [squeezeOffset, usize_eq (show pane.offset + layout.limit < 2 ^ 64 by omega), Option.bind_some]
  split
  · next early =>
    refine ⟨_, _, rfl, Nat.min_le_right .., ?_⟩
    omega
  · next late =>
    rw [usize_eq (show pane.cursor - layout.limit + 1 < 2 ^ 64 by omega), Option.bind_some,
      usize_eq (show pane.cursor - layout.limit + 1 + layout.pad < 2 ^ 64 by omega)]
    refine ⟨_, _, rfl, Nat.min_le_right .., ?_⟩
    dsimp only
    omega

omit [DecidableEq Err] in
/-- The cursor moves as the step says, and the window follows. -/
theorem arrow_total {layout : Layout} {pane : Pane Err} (positive : 0 < layout.limit)
    (short : pane.items.length < 2 ^ 63) (before : pane.offset < 2 ^ 63)
    (inside : pane.cursor < 2 ^ 63) (step : Step) :
    ∃ t b, pane.arrow layout step = some (t, b) ∧ t.Shown layout ∧ t.folder = pane.folder ∧
      t.trace = pane.trace ∧ (pane.items ≠ [] → step.add pane.cursor pane.items.length layout.limit
        pane.offset layout.pad = some t.cursor) := by
  have narrow : layout.limit < 2 ^ 16 := layout.height.toNat_lt
  have synced (t : Pane Err) : (t.syncPage layout).cursor = t.cursor ∧
      (t.syncPage layout).offset = t.offset ∧ (t.syncPage layout).folder = t.folder ∧
        (t.syncPage layout).trace = t.trace := by
    rw [syncPage]
    split <;> exact ⟨rfl, rfl, rfl, rfl⟩
  -- What is left to show when the cursor has moved.
  have squeezed (cursor offset : Nat) (before : offset < 2 ^ 63)
      (here : pane.items = [] ∧ cursor = 0 ∨ cursor < pane.items.length) :
      ∃ t b, (squeezeOffset layout { pane with cursor, offset }).map
          (fun p : Pane Err × Bool => (p.1.syncPage layout,
            decide ((cursor, offset) ≠ (pane.cursor, pane.offset)) || p.2)) = some (t, b) ∧
        t.Shown layout ∧ t.folder = pane.folder ∧ t.trace = pane.trace ∧ t.cursor = cursor := by
    obtain ⟨offset', b, done, low, high⟩ :=
      @squeezeOffset_total Err layout { pane with cursor, offset } positive short before here
    rw [done, Option.map_some]
    obtain ⟨cursorEq, offsetEq, folderEq, traceEq⟩ := synced { pane with cursor, offset := offset' }
    have items : (syncPage layout { pane with cursor, offset := offset' }).items = pane.items :=
      congrArg (fun folder : Folder Err => folder.entries.items) folderEq
    refine ⟨_, _, rfl, ⟨?_, ?_⟩, folderEq, traceEq, cursorEq⟩
    · rw [items, cursorEq, offsetEq]
      intro none
      rw [none] at here
      rcases here with both | none
      · exact ⟨both.2, Nat.le_zero.mp (both.2 ▸ low)⟩
      · cases none
    · rw [items, cursorEq, offsetEq]
      intro some
      exact ⟨here.resolve_left fun both => some both.1, low, high⟩
  rw [arrow]
  by_cases empty : pane.items = []
  · rw [if_pos empty, Option.bind_some]
    obtain ⟨t, b, done, shown, folder, trace, -⟩ := squeezed 0 0 (by decide) (.inl ⟨empty, rfl⟩)
    exact ⟨t, b, done, shown, folder, trace, fun some => absurd empty some⟩
  · have pad : layout.pad < 2 ^ 16 := by
      rw [Layout.pad]
      omega
    have some : pane.items.length ≠ 0 := fun none => empty (List.length_eq_zero_iff.mp none)
    obtain ⟨cursor, added, few⟩ := @Step.add_total pane.cursor pane.items.length
      layout.limit pane.offset layout.pad step positive narrow short before inside
    obtain ⟨offset, scrolled, bound⟩ := @Scrollable.scroll_total (pane.scrollable layout) step cursor
      narrow pad short before (by have := few some; omega) added
    rw [if_neg empty, scrolled, Option.bind_some]
    obtain ⟨t, b, done, shown, folder, trace, same⟩ := squeezed cursor offset bound (.inr (few some))
    exact ⟨t, b, done, shown, folder, trace, fun _ => same ▸ added⟩

/-- The window shows the cursor, the entries fit into memory, and every entry has a key. -/
structure Inv (layout : Layout) (pane : Pane Err) : Prop where
  shown : pane.Shown layout
  short : pane.items.length < 2 ^ 63
  named : Named pane.items

omit [DecidableEq Err] in
theorem Inv.small {layout : Layout} {pane : Pane Err} (inv : pane.Inv layout) :
    pane.cursor < 2 ^ 63 ∧ pane.offset < 2 ^ 63 := by
  have short := inv.short
  by_cases empty : pane.items = []
  · obtain ⟨cursor, offset⟩ := inv.shown.empty empty
    omega
  · obtain ⟨inside, below, -⟩ := inv.shown.shown empty
    omega

omit [DecidableEq Err] in
/-- A step by an offset within the list goes there. -/
theorem arrow_offset {layout : Layout} {pane : Pane Err} (positive : 0 < layout.limit)
    (inv : pane.Inv layout) {off : Int64} {target : Nat} (goes : (pane.cursor : Int) + off.toInt = target)
    (inside : target < pane.items.length) :
    ∃ t b, pane.arrow layout (.offset off) = some (t, b) ∧ t.Shown layout ∧ t.folder = pane.folder ∧
      t.cursor = target := by
  obtain ⟨small, before⟩ := inv.small
  obtain ⟨t, b, done, shown, folder, -, added⟩ := arrow_total positive inv.short before small (.offset off)
  have some : pane.items ≠ [] := List.ne_nil_of_length_pos (Nat.zero_lt_of_lt inside)
  have moved := added some
  have low := off.le_toInt
  have high := off.toInt_lt
  simp only [Step.add, if_neg (Nat.ne_of_gt (Nat.zero_lt_of_lt inside)), Option.some_inj] at moved
  rw [Step.shift_eq (by omega) (by omega) small, goes] at moved
  exact ⟨t, b, done, shown, folder, by omega⟩

omit [DecidableEq Err] in
/-- Hovering does not overflow, and goes to an entry with the key if there is one. -/
theorem hover_total {layout : Layout} {pane : Pane Err} (positive : 0 < layout.limit)
    (inv : pane.Inv layout) (key : PathDyn) :
    ∃ t b, pane.hover layout key = some (t, b) ∧ t.Shown layout ∧ t.folder = pane.folder ∧
      ((∃ file ∈ pane.items, (file.key == key) = true) →
        ∃ file, t.hovered = some file ∧ (file.key == key) = true) := by
  obtain ⟨small, before⟩ := inv.small
  rw [hover]
  split
  · next none =>
    obtain ⟨t, b, done, shown, folder, -⟩ := arrow_total positive inv.short before small (.offset 0)
    refine ⟨t, b, done, shown, folder, fun ⟨file, member, same⟩ => ?_⟩
    -- No entry lacks a key.
    have other := inv.named file member
    rw [PathDyn.isEmpty_congr same, none] at other
    cases other
  · split
    · next here =>
      obtain ⟨file, hovered, same⟩ := (Option.any_eq_true ..).mp here
      obtain ⟨inside, -⟩ := List.getElem?_eq_some_iff.mp hovered
      obtain ⟨t, b, done, shown, folder, stays⟩ :=
        arrow_offset positive inv (show (pane.cursor : Int) + (0 : Int64).toInt = pane.cursor by simp) inside
      refine ⟨t, b, done, shown, folder, fun _ => ⟨file, ?_, same⟩⟩
      rw [Pane.hovered, Pane.items, folder, stays]
      exact hovered
    · next proper other =>
      by_cases empty : pane.items = []
      · have nowhere : pane.position key = none := by simp [position, empty]
        rw [nowhere, Option.getD_none]
        dsimp only
        rw [Int.sub_self, isize_eq (by decide) (by decide), Option.bind_some]
        obtain ⟨t, b, done, shown, folder, -⟩ :=
          arrow_total positive inv.short before small (.offset (.ofInt 0))
        rw [done]
        refine ⟨_, _, rfl, ⟨shown.empty, shown.shown⟩, folder, fun ⟨file, member, _⟩ => ?_⟩
        rw [empty] at member
        cases member
      · obtain ⟨target, found, inside, there⟩ : ∃ target, (pane.position key).getD pane.cursor = target ∧
            target < pane.items.length ∧ ((∃ file ∈ pane.items, (file.key == key) = true) →
              ∃ file, pane.items[target]? = some file ∧ (file.key == key) = true) := by
          rw [position, if_neg proper]
          cases place : pane.items.findIdx? fun file => file.key == key with
          | none =>
            refine ⟨_, rfl, (inv.shown.shown empty).1, fun ⟨file, member, same⟩ => ?_⟩
            have nowhere := List.findIdx?_eq_none_iff.mp place file member
            rw [same] at nowhere
            cases nowhere
          | some target =>
            obtain ⟨inside, same, -⟩ := List.findIdx?_eq_some_iff_getElem.mp place
            exact ⟨_, rfl, inside, fun _ => ⟨_, List.getElem?_eq_getElem inside, same⟩⟩
        have short := inv.short
        rw [found]
        dsimp only
        rw [asIsize_eq (show target < 2 ^ 63 by omega), asIsize_eq small, isize_eq (by omega) (by omega),
          Option.bind_some]
        obtain ⟨t, b, done, shown, folder, stays⟩ := arrow_offset positive inv
          (show (pane.cursor : Int) + (Int64.ofInt (target - pane.cursor)).toInt = target by
            rw [Int64.toInt_ofInt_of_le (by omega) (by omega)]
            omega) inside
        rw [done]
        refine ⟨_, _, rfl, ⟨shown.empty, shown.shown⟩, folder, fun present => ?_⟩
        obtain ⟨file, here, same⟩ := there present
        refine ⟨file, ?_, same⟩
        change t.folder.entries.items[t.cursor]? = _
        rw [folder, stays]
        exact here

omit [DecidableEq Err] in
theorem repos_total {layout : Layout} {pane : Pane Err} (positive : 0 < layout.limit)
    (inv : pane.Inv layout) (key : Option PathDyn) :
    ∃ t b, pane.repos layout key = some (t, b) ∧ t.Shown layout ∧ t.folder = pane.folder := by
  cases key with
  | some key =>
    obtain ⟨t, b, done, shown, folder, -⟩ := hover_total positive inv key
    exact ⟨t, b, done, shown, folder⟩
  | none =>
    simp only [repos]
    cases pane.trace with
    | none =>
      obtain ⟨small, before⟩ := inv.small
      obtain ⟨t, b, done, shown, folder, -⟩ := arrow_total positive inv.short before small (.offset 0)
      exact ⟨t, b, done, shown, folder⟩
    | some key =>
      have inv : Inv layout { pane with trace := none } :=
        ⟨⟨inv.shown.empty, inv.shown.shown⟩, inv.short, inv.named⟩
      obtain ⟨t, b, done, shown, folder, -⟩ := hover_total positive inv key
      refine ⟨{ t with trace := some key }, b, ?_, ⟨shown.empty, shown.shown⟩, folder⟩
      dsimp only
      rw [done]
      rfl

/-- What a call leaves fits into memory. -/
def Fits (regex : Regex) (pane : Pane Err) : Call Err → Prop
  | .update fresh op => (pane.folder.update regex fresh op).1.entries.items.length < 2 ^ 63
  | .arrow _ | .hover _ | .repos _ | .retrace => True

omit [DecidableEq Err] in
private theorem deleted_length (entries : Entries) (op : FilesOp Err) :
    (deleted entries op).length ≤ entries.items.length := by
  have few (position : Nat) (keys : List PathDyn) (files : Files) :
      (Entries.removeKeys position keys files).2.2.length ≤ files.length := by
    induction files generalizing position keys with
    | nil => exact Nat.le_refl 0
    | cons file files ih =>
      simp only [Entries.removeKeys]
      split
      · exact Nat.succ_le_succ (ih ..)
      · exact Nat.le_succ_of_le (ih ..)
  cases op with
  | delete keys => exact few ..
  | full | part | done | size | rank | fail | create | update | upsert => exact Nat.zero_le _

omit [DecidableEq Err] in
/-- The files do not change before the operation is carried out. -/
theorem enter_entries {folder after : Folder Err} {op : FilesOp Err}
    (entered : folder.enter op = some after) : after.entries = folder.entries := by
  cases op with
  | part files ticket =>
    simp only [Folder.enter] at entered
    split at entered
    · cases entered
    · split at entered
      · cases entered
        rfl
      · split at entered <;> cases entered <;> rfl
  | done file ticket =>
    simp only [Folder.enter] at entered
    split at entered
    · cases entered
    · split at entered <;> cases entered <;> rfl
  | full | size | rank | fail | create | delete | update | upsert =>
    cases entered
    rfl

theorem update_total {layout : Layout} {regex : Regex} {pane : Pane Err} (positive : 0 < layout.limit)
    (inv : pane.Inv layout) (fresh : Nat) (op : FilesOp Err)
    (fits : pane.Fits regex (.update fresh op)) :
    ∃ t b, pane.update layout regex fresh op = some (t, b) ∧ t.Inv layout := by
  obtain ⟨small, before⟩ := inv.small
  rw [update]
  cases entered : pane.folder.enter op with
  | none => exact ⟨pane, false, rfl, inv⟩
  | some after =>
    have entries : after.entries = pane.folder.entries := enter_entries entered
    have updated : (pane.folder.update regex fresh op).1 =
        { after with entries := Folder.absorb regex fresh after.entries op } := by
      rw [Folder.update, entered]
    have few : (deleted after.entries op).countP (fun i => decide (i < pane.cursor)) < 2 ^ 63 := by
      have short := inv.short
      have less := deleted_length after.entries op
      rw [entries] at less
      have counted := (deleted after.entries op).countP_le_length (p := fun i => decide (i < pane.cursor))
      rw [entries] at counted ⊢
      exact Nat.lt_of_le_of_lt (counted.trans less) short
    cases result : pane.folder.update regex fresh op with
    | mk folder changed =>
    rw [result] at updated
    rw [Fits, result] at fits
    dsimp only at updated fits ⊢
    rw [asIsize_eq few, isize_eq (by omega) (by omega), Option.bind_some]
    generalize (if folder.entries.items = [] ∧ ¬folder.stage.isLoading = true then none
      else pane.trace) = trace
    obtain ⟨t, b, done, shown, same, -⟩ := @arrow_total Err layout { pane with folder, trace }
      positive fits before small (.offset (.ofInt (-((deleted after.entries op).countP
        fun i => decide (i < pane.cursor)))))
    refine ⟨t, changed, by rw [done]; rfl, shown, ?_, ?_⟩
    · rw [Pane.items, same]
      exact fits
    · rw [Pane.items, same]
      dsimp only
      rw [updated, entries]
      exact named_absorb fresh op inv.named

theorem step_total {layout : Layout} {regex : Regex} {pane : Pane Err} (positive : 0 < layout.limit)
    (inv : pane.Inv layout) {call : Call Err} (fits : pane.Fits regex call) :
    ∃ t, pane.step layout regex call = some t ∧ t.Inv layout := by
  obtain ⟨small, before⟩ := inv.small
  -- A call that leaves the entries keeps what is said of them.
  have kept {t : Pane Err} (shown : t.Shown layout) (folder : t.folder = pane.folder) : t.Inv layout :=
    ⟨shown, by rw [Pane.items, folder]; exact inv.short, by rw [Pane.items, folder]; exact inv.named⟩
  cases call with
  | arrow step =>
    obtain ⟨t, b, done, shown, folder, -⟩ := arrow_total positive inv.short before small step
    exact ⟨t, by rw [Pane.step, done]; rfl, kept shown folder⟩
  | hover key =>
    obtain ⟨t, b, done, shown, folder, -⟩ := hover_total positive inv key
    exact ⟨t, by rw [Pane.step, done]; rfl, kept shown folder⟩
  | repos key =>
    obtain ⟨t, b, done, shown, folder⟩ := repos_total positive inv key
    exact ⟨t, by rw [Pane.step, done]; rfl, kept shown folder⟩
  | retrace => exact ⟨pane.retrace, rfl, ⟨inv.shown.empty, inv.shown.shown⟩, inv.short, inv.named⟩
  | update fresh op =>
    obtain ⟨t, b, done, inv⟩ := update_total positive inv fresh op fits
    exact ⟨t, by rw [Pane.step, done]; rfl, inv⟩

/-- What any of the calls leaves fits into memory. -/
def FitAll (layout : Layout) (regex : Regex) (pane : Pane Err) : List (Call Err) → Prop
  | [] => True
  | call :: calls =>
    pane.Fits regex call ∧ ∀ t, pane.step layout regex call = some t → t.FitAll layout regex calls

theorem exec_total {layout : Layout} {regex : Regex} {pane : Pane Err} (positive : 0 < layout.limit)
    (inv : pane.Inv layout) {calls : List (Call Err)} (fits : pane.FitAll layout regex calls) :
    ∃ t, exec (step layout regex) pane calls = some t ∧ t.Inv layout := by
  induction calls generalizing pane with
  | nil => exact ⟨pane, rfl, inv⟩
  | cons call calls ih =>
    obtain ⟨t, done, inv⟩ := step_total positive inv fits.1
    obtain ⟨u, reached, inv⟩ := ih inv (fits.2 t done)
    exact ⟨u, by rw [exec, done, Option.bind_some, reached], inv⟩

omit [DecidableEq Err] in
theorem inv_new (layout : Layout) (showHidden : Bool) (url : Url) :
    (new showHidden url : Pane Err).Inv layout where
  shown := ⟨fun _ => ⟨rfl, rfl⟩, fun some => absurd rfl some⟩
  short := Nat.two_pow_pos 63
  named := by simp [Named, items, new, Folder.new, Entries.new]

/-- Whatever is done to a folder, nothing overflows, the window shows the cursor, and hovering over
a file that is there goes to it. -/
theorem viewport_shown {layout : Layout} {regex : Regex} (positive : 0 < layout.limit)
    {showHidden : Bool} {url : Url} {calls : List (Call Err)}
    (fits : (new showHidden url : Pane Err).FitAll layout regex calls) :
    ∃ t, exec (step layout regex) (new showHidden url : Pane Err) calls = some t ∧ t.Shown layout ∧
      ∀ key, (∃ file ∈ t.items, (file.key == key) = true) →
        ∃ u b, t.hover layout key = some (u, b) ∧ u.items = t.items ∧
          ∃ file, u.hovered = some file ∧ (file.key == key) = true := by
  obtain ⟨t, reached, inv⟩ := exec_total positive (inv_new layout showHidden url) fits
  refine ⟨t, reached, inv.shown, fun key present => ?_⟩
  obtain ⟨u, b, done, -, folder, there⟩ := hover_total positive inv key
  exact ⟨u, b, done, by rw [Pane.items, folder]; rfl, there present⟩

/-- Two files are listed, and the cursor goes from one to the other and back. -/
def listing : List (Call Unit) :=
  [.update 1 (.full (.fromDummy (.regular (text "/d")) (some .dir))
      [.fromDummy (.regular (text "/d/a")) none, .fromDummy (.regular (text "/d/b")) none]),
    .arrow .next, .hover ⟨.os, text "a"⟩]

theorem viewport_shown_listing :
    ∃ t, exec (step ⟨5, 2⟩ .literal) (new false (.regular (text "/d")) : Pane Unit) listing =
        some t ∧ t.Shown ⟨5, 2⟩ ∧
      ∀ key, (∃ file ∈ t.items, (file.key == key) = true) →
        ∃ u b, t.hover ⟨5, 2⟩ key = some (u, b) ∧ u.items = t.items ∧
          ∃ file, u.hovered = some file ∧ (file.key == key) = true := by
  apply viewport_shown
  · decide
  · refine ⟨?_, fun t _ => ⟨trivial, fun u _ => ⟨trivial, fun _ _ => trivial⟩⟩⟩
    unfold Fits
    decide

end layout

end Pane

end Yazi.Core
