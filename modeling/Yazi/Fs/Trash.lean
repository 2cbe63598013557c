import Yazi.Base.Tree
import Yazi.Shared.Text

/-!
The trash of a desktop: items with an info file, a backing tree and an original location, and
putting them back.

A path is the list of its components from the root on. Links are not followed: no directory on
the way to an item is one.
-/
namespace Yazi.Fs.Trash
open Base Shared

abbrev Path := List Bytes

/-- A leaf is a file, or whatever else has nothing below it. -/
inductive Node where
  | dir
  | leaf (content : Bytes)
  deriving DecidableEq

abbrev Files := Tree Bytes Node

/-! ### The file system -/

inductive Call where
  | symlinkMetadata (path : Path)
  | createDir (path : Path)
  | createNew (path : Path)
  | rename (src dst : Path)
  | removeFile (path : Path)
  deriving DecidableEq

inductive Error where
  /-- "trash item has no put-back location" -/
  | noOriginal
  /-- "restore target already exists: {to:?}" -/
  | alreadyExists (dst : Path)
  | io (call : Call)
  deriving DecidableEq

section calls
variable (fails : Call → Bool) (files : Files)

def symlinkMetadata (path : Path) : Except Error Node :=
  match files.get? path with
  | some node => if fails (.symlinkMetadata path) then .error (.io (.symlinkMetadata path)) else .ok node
  | none => .error (.io (.symlinkMetadata path))

/-- `fs::create_dir_all` of the rest below a directory that is there: the files it leaves, also
where it fails. -/
def createDirAll (files : Files) (done : Path) : Path → Except Error Unit × Files
  | [] => (.ok (), files)
  | name :: rest =>
    let path := done ++ [name]
    match files.get? path with
    | some .dir => createDirAll files path rest
    | some (.leaf _) => (.error (.io (.createDir path)), files)
    | none =>
      if fails (.createDir path) then (.error (.io (.createDir path)), files)
      else createDirAll (files.insert path .dir) path rest

/-- `fs::create_dir`, or `fs::File::create_new`. -/
def create (isDir : Bool) (path : Path) : Except Error Files :=
  let call := if isDir then Call.createDir path else .createNew path
  if (files.get? path).isSome then .error (.alreadyExists path)
  else if fails call then .error (.io call)
  else .ok (files.insert path (if isDir then .dir else .leaf []))

/-- A directory without entries gives way to a directory, a leaf to a leaf. -/
def replaceable (src dst : Path) : Bool :=
  match files.get? src, files.get? dst with
  | some .dir, some .dir | some (.leaf _), some (.leaf _) => files.bare dst
  | _, _ => false

/-- `fs::rename` over something that is there. -/
def rename (src dst : Path) : Except Error Files :=
  if replaceable files src dst ∧ ¬src <+: dst ∧ ¬dst <+: src ∧ fails (.rename src dst) = false then
    .ok (files.move src dst)
  else .error (.io (.rename src dst))

def removeFile (path : Path) : Except Error Files :=
  match files.get? path with
  | some (.leaf _) =>
    if fails (.removeFile path) then .error (.io (.removeFile path)) else .ok (files.erase path)
  | _ => .error (.io (.removeFile path))

end calls

/-! ### Items -/

/-- `TrashInfo`, as it is parsed from an info file. -/
structure TrashInfo where
  root : Path
  stem : Bytes
  original : Path
  deriving DecidableEq

namespace TrashInfo

def info (i : TrashInfo) : Path := i.root ++ [text "info", i.stem ++ text ".trashinfo"]

def backing (i : TrashInfo) : Path := i.root ++ [text "files", i.stem]

end TrashInfo

/-- `TrashEntry` with its `TrashId`: what to restore of an item. -/
structure TrashEntry where
  top : Path
  rel : Path
  original : Option Path
  backing : Path
  deriving DecidableEq

def TrashEntry.hasRel (entry : TrashEntry) : Bool := entry.rel ≠ []

/-- `Trash::entry` -/
def TrashInfo.entry (i : TrashInfo) (rel : Path) : TrashEntry where
  top := i.info
  rel := rel
  original := some (i.original ++ rel)
  backing := i.backing ++ rel

/-! ### Restoring -/

/-- An entry comes with all that is below it. -/
def TrashEntry.covers (entry other : TrashEntry) : Bool :=
  entry.top = other.top ∧ entry.rel <+: other.rel

/-- `TrashEntries::new`, after the entries were sorted by the lengths of their paths: those that
an earlier one covers are left out. -/
def retain (seen : List TrashEntry) : List TrashEntry → List TrashEntry
  | [] => []
  | entry :: rest =>
    if seen.any (·.covers entry) then retain seen rest else entry :: retain (seen ++ [entry]) rest

section restore
variable (fails : Call → Bool)

/-- The first part of `restore_item`, which creates what the item will replace. -/
def reserve (src dst : Path) (files : Files) : Except Error Unit × Files :=
  match symlinkMetadata fails files src with
  | .error e => (.error e, files)
  | .ok node =>
    match createDirAll fails files [] dst.dropLast with
    | (.error e, files) => (.error e, files)
    | (.ok _, files) =>
      match create fails files (node = .dir) dst with
      | .error e => (.error e, files)
      | .ok files => (.ok (), files)

/-- `restore_item` -/
def restoreItem (src dst : Path) (files : Files) : Except Error Unit × Files :=
  match reserve fails src dst files with
  | (.error e, files) => (.error e, files)
  | (.ok _, files) =>
    match rename fails files src dst with
    | .error e => (.error e, files)
    | .ok files => (.ok (), files)

/-- One entry of `Trash::restore`. -/
def restoreEntry (entry : TrashEntry) (files : Files) : Except Error Unit × Files :=
  match entry.original with
  | none => (.error .noOriginal, files)
  | some dst =>
    match restoreItem fails entry.backing dst files with
    | (.error e, files) => (.error e, files)
    | (.ok _, files) =>
      if entry.hasRel then (.ok (), files)
      else
        match removeFile fails files entry.top with
        | .error e => (.error e, files)
        | .ok files => (.ok (), files)

/-- `Trash::restore` -/
def restore : List TrashEntry → Files → Except Error Unit × Files
  | [], files => (.ok (), files)
  | entry :: rest, files =>
    match restoreEntry fails entry files with
    | (.error e, files) => (.error e, files)
    | (.ok _, files) => restore rest files

end restore
end Yazi.Fs.Trash
