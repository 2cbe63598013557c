import Yazi.Fs.Partition

/-!
A folder: its entries, and how far they are loaded.

Parts of a load carry its ticket. The folder compares it, and the entries compare it again.
-/
namespace Yazi.Core
open Yazi.Shared Yazi.Fs

inductive FolderStage (Err : Type) where
  | loading
  | loaded
  | failed (err : Err)
  deriving DecidableEq, Repr

def FolderStage.isLoading {Err : Type} : FolderStage Err → Bool
  | .loading => true
  | _ => false

def FolderStage.isLoaded {Err : Type} : FolderStage Err → Bool
  | .loaded => true
  | _ => false

/-- What is read of an operation on the files of a folder. -/
inductive FilesOp (Err : Type) where
  | full (file : File) (files : Files)
  | part (files : Files) (ticket : Nat)
  | done (file : File) (ticket : Nat)
  | size (sizes : Sizes)
  | rank (ranks : Ranks)
  | fail (err : Err)
  | create (files : Files)
  | delete (keys : List PathDyn)
  | update (files : FileMap)
  | upsert (files : FileMap)

structure Folder (Err : Type) where
  file : File
  entries : Entries
  stage : FolderStage Err
  deriving DecidableEq

namespace Folder

variable {Err : Type}

/-- A folder that is not loaded yet. -/
def new (showHidden : Bool) (url : Url) : Folder Err where
  file := File.fromDummy url (some .dir)
  entries := Entries.new showHidden
  stage := .loading

/-- The ticket is not newer than that of the entries, and these are complete. -/
def outdated (folder : Folder Err) (ticket : Nat) : Bool :=
  folder.stage.isLoaded && decide (ticket ≤ folder.entries.ticket)

/-- The first `match` of `update`: the new file and stage, or `none` for an early return. -/
def enter (folder : Folder Err) : FilesOp Err → Option (Folder Err)
  | .full file _ => some { folder with file, stage := .loaded }
  | .part files ticket =>
    if folder.outdated ticket then none
    else if files.isEmpty then some { folder with stage := .loading }
    else if ticket = folder.entries.ticket then some { folder with stage := .loading }
    else some folder
  | .done file ticket =>
    if folder.outdated ticket then none
    else if ticket = folder.entries.ticket then some { folder with file, stage := .loaded }
    else some folder
  | .fail err =>
    let kind := folder.file.stat.kind ||| StatKind.dummy
    some { folder with
      file := { folder.file with stat := { folder.file.stat with kind } }
      stage := .failed err }
  | _ => some folder

/-- The second `match` of `update`. `fresh` is the next of `FILES_TICKET`. -/
def absorb (regex : Regex) (fresh : Nat) (entries : Entries) : FilesOp Err → Entries
  | .full _ files => entries.updateFull regex fresh files
  | .part files ticket => entries.updatePart regex files ticket
  | .done .. => entries
  | .size sizes => entries.updateSize sizes
  | .rank ranks => entries.updateRank ranks
  | .fail _ => entries.updateFail fresh
  | .create files => entries.updateCreate regex files
  | .delete keys => (entries.updateDelete keys).1
  | .update files => (entries.updateExisting regex files).1
  | .upsert files => entries.updateUpsert regex files

/-- With whether the stage or the revision changed. -/
def update [DecidableEq Err] (regex : Regex) (fresh : Nat) (folder : Folder Err)
    (op : FilesOp Err) : Folder Err × Bool :=
  match folder.enter op with
  | none => (folder, false)
  | some entered =>
    let after := { entered with entries := absorb regex fresh entered.entries op }
    (after, decide (folder.stage ≠ after.stage ∨ folder.entries.revision ≠ after.entries.revision))

variable [DecidableEq Err] {regex : Regex} {fresh ticket : Nat} {folder : Folder Err}

/-! ### What the messages of a load do -/

/-- A start marker is ignored, or begins with no files. -/
theorem update_start :
    (folder.update regex fresh (.part [] ticket)).1 =
      if folder.outdated ticket then folder
      else { folder with
        stage := .loading
        entries := folder.entries.updatePart regex [] ticket } := by
  simp only [update, enter, absorb, List.isEmpty_nil, if_true]
  cases folder.outdated ticket <;> rfl

/-- A part of another load than the current one changes nothing. -/
theorem update_part_stale {files : Files} (given : files.isEmpty = false)
    (other : ticket ≠ folder.entries.ticket) :
    (folder.update regex fresh (.part files ticket)).1 = folder := by
  simp only [update, enter, absorb, given, other, Bool.false_eq_true, if_false]
  cases folder.outdated ticket with
  | true => rfl
  | false => simp [Entries.updatePart, given, other]

theorem update_part_current {files : Files} (given : files.isEmpty = false)
    (unfinished : folder.stage.isLoaded = false) :
    (folder.update regex fresh (.part files folder.entries.ticket)).1 =
      { folder with
        stage := .loading
        entries := folder.entries.updatePart regex files folder.entries.ticket } := by
  simp [update, enter, absorb, outdated, given, unfinished]

/-- So does its end. -/
theorem update_done_stale {file : File} (other : ticket ≠ folder.entries.ticket) :
    (folder.update regex fresh (.done file ticket)).1 = folder := by
  simp only [update, enter, absorb, other, if_false]
  cases folder.outdated ticket <;> rfl

theorem update_done_current {file : File} (unfinished : folder.stage.isLoaded = false) :
    (folder.update regex fresh (.done file folder.entries.ticket)).1 =
      { folder with file, stage := .loaded } := by
  simp [update, enter, absorb, outdated, unfinished]

end Folder

end Yazi.Core
