import Yazi.Base.Links
import Yazi.Shared.Join
import Yazi.Shared.Percent

/-!
# Items of the trash folders

An item is named by the path of its info file and, below a trashed directory, by a path relative
to it. Both are bytes that come from outside, and are checked as text; what they lead to is up to
the directories and links of the file system, below the trash folders too.
-/
namespace Yazi.Fs.Freedesktop
open Yazi.Base Yazi.Shared

/-! ### The file system -/

/-- What the kernel makes of a segment of a path. -/
def segment (s : Bytes) : Segment Bytes :=
  if s = [] ∨ s = [Path.dot] then .here
  else if s = [Path.dot, Path.dot] then .up
  else .name s

def segs (p : Bytes) : List (Segment Bytes) := (Path.segments p).map segment

structure World where
  fs : Links Bytes
  /-- Of a file. -/
  content : Nat → Bytes
  cwd : Nat
  /-- `Uzers::uid()` -/
  uid : Bytes
  /-- `os_limited::trash_folders()` -/
  folders : List Bytes
  /-- Entries have proper names. -/
  named : ∀ d n i, fs.entry d n = some i → segment n = .name n ∧ Path.slash ∉ n

/-- The most links that are followed on a path. -/
def maxLinks : Nat := 40

inductive Error where
  /-- "invalid trash entry" -/
  | entry
  /-- "invalid trash entry path" -/
  | entryPath
  /-- "invalid trash info path" -/
  | infoPath
  /-- "invalid trash info header" -/
  | header
  /-- "trash info has no Path" -/
  | noPath
  /-- "invalid original trash path" -/
  | originalPath
  /-- "invalid trash mount point" -/
  | mountPoint
  /-- "trash item outside of trash folders" -/
  | outside
  /-- "trash item is not a directory" -/
  | notDir
  /-- "invalid trash item path" -/
  | itemPath
  | io
deriving DecidableEq, Repr

namespace World

variable (w : World)

/-- Where a path begins. -/
def start (p : Bytes) : Nat := if Path.hasRoot p then w.fs.root else w.cwd

/-- What a call that follows links gets to. -/
def follow (p : Bytes) : Option (Nat × Nat) :=
  if p = [] then none else w.fs.walk maxLinks (w.start p) (segs p)

/-- What a call that follows no link at the end of a path gets to: `symlink_metadata`, `unlink`,
`rmdir` and `rename`. -/
def locate (p : Bytes) : Option (Links.Place Bytes) :=
  if p = [] then none else w.fs.locate maxLinks (w.start p) (segs p)

/-- `symlink_metadata(p)?.is_dir()` -/
def isDir (p : Bytes) : Except Error Bool :=
  match (w.locate p).bind (·.node w.fs) with
  | some i => .ok (w.fs.isDir i)
  | none => .error .io

/-- `File::open`, and all that is read from it. -/
def read (p : Bytes) : Except Error Bytes :=
  match w.follow p with
  | none => .error .io
  | some (i, _) =>
    match w.fs.node i with
    | .file => .ok (w.content i)
    | _ => .error .io

/-- `fs::read_dir`, the names in the order of the listing. -/
def readDir (p : Bytes) : Except Error (List Bytes) :=
  match w.follow p with
  | none => .error .io
  | some (i, _) =>
    match w.fs.node i with
    | .dir entries => .ok entries.keys
    | _ => .error .io

end World

/-! ### Paths -/

/-- `Path::file_stem` -/
def fileStem (p : Bytes) : Option Bytes :=
  (Path.name p).map fun s =>
    let before := s.rdropWhile (· != Path.dot)
    if before.length ≤ 1 then s else before.dropLast

/-- `PathExt::has_parent_component` -/
def hasParentComponent (p : Bytes) : Bool := (Path.components p).contains .parentDir

/-- `TrashId` -/
structure TrashId where
  top : Bytes
  rel : Bytes
deriving DecidableEq, Repr

namespace TrashId

def new (top rel : Bytes) : Except Error TrashId :=
  if top = [] ∨ Path.hasRoot rel then .error .entry
  else if hasParentComponent rel then .error .entryPath
  else .ok ⟨top, rel⟩

def child (id : TrashId) (name : Bytes) : Except Error TrashId :=
  let rel := Path.push id.rel name
  if Path.hasRoot rel ∨ hasParentComponent rel then .error .entryPath else .ok ⟨id.top, rel⟩

def hasRel (id : TrashId) : Bool := id.rel ≠ []

end TrashId

/-! ### Info files -/

/-- `TrashInfo` -/
structure TrashInfo where
  root : Bytes
  backing : Bytes
  original : Bytes
deriving DecidableEq, Repr

namespace TrashInfo

/-- `trim_line`, of a line that was cut at its line feed. -/
def trimLine (line : Bytes) : Bytes := line.rdropWhile (· == 0x0d)

/-- `mount_point` -/
def mountPoint (uid root : Bytes) : Except Error Bytes :=
  let above :=
    match Path.parent root with
    | some p => if Path.name root = some uid ∧ Path.name p = some (text ".Trash") then Path.parent p
        else some p
    | none => none
  match above with
  | some p => .ok p
  | none => .error .mountPoint

/-- The loop of `parse_original` over the lines after the first. -/
def pathLine (uid root : Bytes) : List Bytes → Except Error Bytes
  | [] => .error .noPath
  | line :: lines =>
    let line := trimLine line
    if (text "Path=").isPrefixOf line then
      let path := Percent.decode (line.drop (text "Path=").length)
      if path = [] ∨ !Path.hasRoot path ∧ hasParentComponent path then .error .originalPath
      else if Path.hasRoot path then .ok path
      else (mountPoint uid root).map (Path.push · path)
    else pathLine uid root lines

def parseOriginal (w : World) (info root : Bytes) : Except Error Bytes :=
  match w.read info with
  | .error e => .error e
  | .ok content =>
    match content.splitOn 0x0a with
    | [] => .error .header
    | first :: lines =>
      if trimLine first ≠ text "[Trash Info]" then .error .header else pathLine w.uid root lines

/-- The folder of an info file, whose directory is called `info`. -/
def rootOf (info : Bytes) : Option Bytes :=
  ((Path.parent info).filter fun p => Path.name p = some (text "info")).bind Path.parent

/-- The name of an item. -/
def stemOf (info : Bytes) : Option Bytes :=
  (fileStem info).filter fun stem => stem ≠ [Path.dot] ∧ stem ≠ [Path.dot, Path.dot]

/-- `root.join("files").join(stem)` -/
def backingOf (root stem : Bytes) : Bytes := Path.push (Path.push root (text "files")) stem

/-- `TrashInfo::parse` -/
def parse (w : World) (info : Bytes) : Except Error TrashInfo :=
  if Path.extension info ≠ some (text "trashinfo") then .error .infoPath
  else
    match rootOf info with
    | none => .error .infoPath
    | some root =>
      match stemOf info with
      | none => .error .infoPath
      | some stem =>
        match parseOriginal w info root with
        | .error e => .error e
        | .ok original =>
          if Path.name original = none then .error .originalPath
          else .ok ⟨root, backingOf root stem, original⟩

end TrashInfo

/-! ### Entries -/

/-- `TrashEntry`, of which only the kind is kept of its metadata. -/
structure TrashEntry where
  id : TrashId
  isDir : Bool
  original : Option Bytes
  backing : Bytes
deriving DecidableEq, Repr

namespace TrashEntry

/-- `TrashEntry::new` -/
def new (w : World) (id : TrashId) (backing : Bytes) (original : Option Bytes) :
    Except Error TrashEntry :=
  let name := (Path.name id.rel <|> original.bind Path.name) <|> Path.name backing
  match name.filter (· ≠ []) with
  | none => .error .itemPath
  | some _ => (w.isDir backing).map (⟨id, ·, original, backing⟩)

/-- `TrashEntry::child` -/
def child (w : World) (entry : TrashEntry) (name : Bytes) : Except Error TrashEntry :=
  match entry.id.child name with
  | .error e => .error e
  | .ok id =>
    new w id (Path.push entry.backing name) (entry.original.map (Path.push · name))

end TrashEntry

/-- `folders.iter().any(|folder| folder == &info.root)`, paths being compared by components. -/
def World.hasFolder (w : World) (root : Bytes) : Bool :=
  w.folders.any fun folder => Path.components folder = Path.components root

/-- `Trash::entry` -/
def entry (w : World) (id : TrashId) : Except Error TrashEntry :=
  match TrashInfo.parse w id.top with
  | .error e => .error e
  | .ok info =>
    if !w.hasFolder info.root then .error .outside
    else if id.hasRel then
      match w.isDir info.backing with
      | .error e => .error e
      | .ok false => .error .notDir
      | .ok true =>
        TrashEntry.new w id (Path.push info.backing id.rel) (some (Path.push info.original id.rel))
    else TrashEntry.new w id info.backing (some info.original)

/-- `Trash::list` of an entry. -/
def list (w : World) (entry : TrashEntry) : Except Error (List TrashEntry) :=
  if !entry.isDir then .error .notDir
  else
    match w.readDir entry.backing with
    | .error e => .error e
    | .ok names => names.mapM (entry.child w)

end Yazi.Fs.Freedesktop
