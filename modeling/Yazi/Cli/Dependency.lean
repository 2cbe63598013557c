import Mathlib.Data.List.Sort
import Yazi.Base.Effects
import Yazi.Cli.Files
import Yazi.Shared.Auth

/-!
A dependency of `package.toml`: how it is fetched, deployed into its directory and deleted from it.

Every call of the file system may fail, and what was done before it stays. A hash of what was
deployed is kept, by which later changes are noticed.
-/
namespace Yazi.Cli
open Base Shared

/-- `use` is `owner/repo:child`; `parent` and `child` are its parts, and `name` is the one of the
directory. -/
structure Dependency where
  use : Bytes
  name : Bytes
  parent : Bytes
  child : Bytes
  rev : Bytes := []
  hash : Bytes := []
  isFlavor : Bool := false
  deriving DecidableEq

inductive Error where
  | io (e : IoError)
  | git
  /-- "Package URL `{parent}` must be in the format `owner/repository`" -/
  | format (parent : Bytes)
  /-- "Package name `{name}` must be in kebab-case" -/
  | kebab (name : Bytes)
  /-- "asset path is not valid UTF-8" -/
  | asset (path : Path)
  /-- "You have modified the contents of the `{}` {}. For safety, the operation has been aborted." -/
  | modified (name : Bytes) (isFlavor : Bool) (target : Path)
  /-- "{} `{}` already exists in package.toml" -/
  | alreadyExists (isFlavor : Bool) (name : Bytes)
  /-- "`{}` was not found in package.toml" -/
  | unknown (use : Bytes)
  deriving DecidableEq

/-- A call that has `some n` ahead fails; if it writes, then `n` bytes have been written. -/
structure Cx where
  files : Files
  faults : List (Option Nat) := []
  self : Dependency
  deriving DecidableEq

abbrev Io := EStateM Error Cx

namespace Io

variable {α : Type}

def call (f : Files → Except IoError (α × Files)) : Io α := fun c =>
  match c.faults.head?.join with
  | some _ => .error (.io .other) { c with faults := c.faults.tail }
  | none =>
    match f c.files with
    | .ok (a, files) => .ok a { c with files, faults := c.faults.tail }
    | .error e => .error (.io e) { c with faults := c.faults.tail }

/-- A call that changes nothing. -/
def look (f : Files → Except IoError α) : Io α := call fun files => (f files).map fun a => (a, files)

def change (f : Files → Except IoError Files) : Io Unit :=
  call fun files => (f files).map fun files => ((), files)

/-- `write_all`, which may write a part. -/
def writeAll (p : Path) (data : Bytes) : Io Unit := fun c =>
  match c.faults.head?.join with
  | some n => .error (.io .other)
      { c with files := c.files.setData p (data.take n), faults := c.faults.tail }
  | none => .ok () { c with files := c.files.setData p data, faults := c.faults.tail }

def okOrNotFound [Inhabited α] (x : Io α) : Io α := do
  match ← attempt x with
  | .ok a => pure a
  | .error (.io .notFound) => pure default
  | .error e => throw e

def maybeExists (x : Io Node) : Io Bool := do
  match ← attempt x with
  | .ok _ => pure true
  | .error e => pure (e ≠ .io .notFound)

def ofExcept : Except Error α → Io α
  | .ok a => pure a
  | .error e => throw e

def self : Io Dependency := fun c => .ok c.self c

def modifySelf (f : Dependency → Dependency) : Io Unit := fun c => .ok () { c with self := f c.self }

/-- `create_dir_all` -/
def createDirAll (p : Path) : Io Unit := p.inits.forM fun q => change (·.makeDir q)

/-- Those of the entries of a directory that are directories. -/
def subdirs (dir : Path) : List Bytes → Io (List Bytes)
  | [] => pure []
  | name :: names => do
    let node ← attempt (look (·.lookup (dir ++ [name])))
    let rest ← subdirs dir names
    match node with
    | .ok .dir => pure (name :: rest)
    | _ => pure rest

/-- `remove_dir_clean`, for the directories that are at most that deep: an empty directory goes
after the ones in it, and what fails is left out. -/
def removeDirClean : Nat → Path → Io Unit
  | 0, _ => pure ()
  | depth + 1, dir => do
    match ← attempt (look (·.lookup dir)) with
    | .ok .dir =>
      match ← attempt (look (·.readDir dir)) with
      | .ok names =>
        let dirs ← subdirs dir names
        dirs.reverse.forM fun name => removeDirClean depth (dir ++ [name])
        let _ ← attempt (change (·.removeDir dir))
        pure ()
      | .error _ => pure ()
    | _ => pure ()

/-- No path is longer. -/
def depth : Io Nat := fun c => .ok ((c.files.entries.map (·.1.length)).foldl max 0 + 1) c

def clean (dir : Path) : Io Unit := do
  let depth ← depth
  removeDirClean depth dir

/-- `copy_and_seal`, from a repository -/
def copyAndSeal (repo : Files) (src dst : Path) : Io Unit := do
  let b ← look fun _ => repo.read src
  okOrNotFound (change (·.removeFile dst))
  change (·.createNew dst)
  writeAll dst b
  -- the permissions are read, and set
  look fun _ => .ok ()
  look fun _ => .ok ()

end Io

/-- In the order of `sort_unstable`. -/
def sorted (names : List Bytes) : List Bytes := names.insertionSort (· ≤ ·)

def lua : Bytes := text ".lua"

def fixed : List Bytes := [text "LICENSE", text "README.md", text "main.lua"]

/-- A file name of the other sources of a plugin. -/
def isSource (name : Bytes) : Bool :=
  lua.isSuffixOf name &&
    (name.dropLast.dropLast.dropLast.dropLast ≠ text "main" &&
      kebabCased name.dropLast.dropLast.dropLast.dropLast)

def assets : Bytes := text "assets"

namespace Dependency

def pluginFiles (readDir : Io (List Bytes)) : Io (List Bytes) := do
  let names ← readDir
  pure (sorted (fixed ++ names.filter isSource))

def flavorFiles : List Bytes :=
  [text "LICENSE", text "LICENSE-tmtheme", text "README.md", text "flavor.toml",
    text "preview.png", text "tmtheme.xml"]

def splitOnce (sep : UInt8) (s : Bytes) : Option (Bytes × Bytes) :=
  if sep ∈ s then some (s.takeWhile (· ≠ sep), (s.dropWhile (· ≠ sep)).tail) else none

def fromStr (s : Bytes) : Except Error Dependency :=
  let (parent, child) := (splitOnce 0x3a s).getD (s, [])
  match splitOnce 0x2f parent with
  | none => .error (.format parent)
  | some (_, repo) =>
    let name := if child = [] then repo else child
    if !kebabCased name then .error (.kebab name)
    else .ok {
      use := s
      name := name ++ text ".yazi"
      parent := parent ++ if child = [] then text ".yazi" else []
      child := if child = [] then [] else child ++ text ".yazi" }

def identical (d other : Dependency) : Bool := d.parent = other.parent && d.child = other.child

/-- The directory of flavors or plugins with the name. -/
def directory (isFlavor : Bool) (name : Bytes) : Path :=
  [if isFlavor then text "flavors" else text "plugins", name]

def target (d : Dependency) : Path := directory d.isFlavor d.name

/-- Where the dependency is in its repository. -/
def «local» (d : Dependency) : Path := if d.child = [] then [] else [d.child]

variable (digest : Bytes → Bytes)

def sourceMark : Bytes := text "VpvFw9Atb7cWGOdqhZCra634CcJJRlsRl72RbZeV0vpG1" ++ [0]

def assetMark : Bytes := text "pQU2in0xcsu97Y77Nuq2LnT8mczMlFj22idcYRmMrglqU" ++ [0]

/-- The files of the dependency that there may be. -/
def sources (d : Dependency) : Io (List Bytes) :=
  if d.isFlavor then pure flavorFiles else pluginFiles (Io.look (·.readDir d.target))

def readSource (d : Dependency) (file : Bytes) : Io Bytes := do
  let data ← Io.okOrNotFound (Io.look (·.read (d.target ++ [file])))
  pure (file ++ sourceMark ++ data)

def readAsset (d : Dependency) (name : Bytes) : Io (Bytes × Bytes) := do
  if Utf8.isUtf8 name then
    let data ← Io.look (·.read (d.target ++ [assets, name]))
    pure (name, data)
  else throw (.asset (d.target ++ [assets, name]))

def readAssets (d : Dependency) : Io (List (Bytes × Bytes)) := do
  match ← attempt (Io.look (·.readDir (d.target ++ [assets]))) with
  | .ok names => names.mapM (readAsset d)
  | .error (.io .notFound) => pure []
  | .error e => throw e

/-- `assets.sort_unstable_by(|(a, _), (b, _)| a.cmp(b))`, and what is hashed of them. -/
def hashAssets (assets : List (Bytes × Bytes)) : Bytes :=
  (assets.insertionSort fun a b => a.1 ≤ b.1).flatMap fun e => e.1 ++ assetMark ++ e.2

/-- `Dependency::hash`: `digest` is XXH3 with 128 bits, in hexadecimal digits. -/
def hashed (d : Dependency) : Io Bytes := do
  let files ← sources d
  let h ← files.mapM (readSource d)
  let assets ← readAssets d
  pure (digest (h.flatten ++ hashAssets assets))

def hashCheck (d : Dependency) : Io Unit := do
  let hash ← hashed digest d
  if d.hash ≠ hash then throw (.modified d.name d.isFlavor d.target) else pure ()

def clearAssets (d : Dependency) : Io Unit := do
  match ← attempt (Io.look (·.readDir (d.target ++ [assets]))) with
  | .ok names => names.forM fun name => Io.change (·.removeFile (d.target ++ [assets, name]))
  | .error (.io .notFound) => pure ()
  | .error e => throw e

def deleteAssets (d : Dependency) : Io Unit := do
  clearAssets d
  let _ ← attempt (Io.clean (d.target ++ [assets]))
  pure ()

def deleteSources (d : Dependency) : Io Bool := do
  let files ← sources d
  files.forM fun file => Io.okOrNotFound (Io.change (·.removeFile (d.target ++ [file])))
  let removed ← attempt (Io.okOrNotFound (Io.change (·.removeDir d.target)))
  pure (removed matches .ok _)

/-- The check of what is there, which `--discard` leaves out. -/
def guard (d : Dependency) (exist discard : Bool) : Io Unit :=
  if exist && !discard then hashCheck digest d else pure ()

def delete (d : Dependency) (discard : Bool) : Io Unit := do
  let exist ← Io.maybeExists (Io.look (·.lookup d.target))
  guard digest d exist discard
  if exist then
    deleteAssets d
    let _ ← deleteSources d
    pure ()
  else pure ()

def deployAssets (repo : Files) (src dst : Path) : Io Unit := do
  match ← attempt (Io.look fun _ => repo.readDir src) with
  | .ok names =>
    Io.createDirAll dst
    names.forM fun name => Io.copyAndSeal repo (src ++ [name]) (dst ++ [name])
  | .error (.io .notFound) => pure ()
  | .error e => throw e

def deploySources (repo : Files) (src dst : Path) (files : List Bytes) : Io Unit :=
  files.forM fun file => Io.copyAndSeal repo (src ++ [file]) (dst ++ [file])

def rehash : Io Unit := do
  let hash ← hashed digest (← Io.self)
  Io.modifySelf fun d => { d with hash }

/-- What is done in `deploy` where copying failed. -/
def settle (exist : Bool) (d : Dependency) (failed : Bool) : Io Unit :=
  if !exist && failed then do
    deleteAssets d
    let _ ← deleteSources d
    pure ()
  else if exist && failed then rehash digest
  else pure ()

/-- `deploy`, when it is known what is deployed. -/
def place (repo : Files) (src : Path) (files : List Bytes) (discard : Bool) (d : Dependency) :
    Io Unit := do
  let exist ← Io.maybeExists (Io.look (·.lookup d.target))
  guard digest d exist discard
  Io.createDirAll d.target
  deleteAssets d
  let res1 ← attempt (deployAssets repo (src ++ [assets]) (d.target ++ [assets]))
  let res2 ← attempt (deploySources repo src d.target files)
  settle digest exist d ((res2 matches .error _) || (res1 matches .error _))
  let _ ← attempt (Io.clean d.target)
  Io.ofExcept res2
  Io.ofExcept res1
  rehash digest

def deploy (repo : Files) (discard : Bool) : Io Unit := do
  let src := (← Io.self).local
  let isFlavor ← Io.maybeExists (Io.look fun _ => repo.lookup (src ++ [text "flavor.toml"]))
  Io.modifySelf fun d => { d with isFlavor }
  let files ← (if isFlavor then pure flavorFiles
    else pluginFiles (Io.look fun _ => repo.readDir src))
  place digest repo src files discard (← Io.self)

/-- What `git` leaves of the repository: after a clone or a pull, after a clone or a fetch, and
after a checkout. -/
structure Git where
  pulled : Option Files
  fetched : Option Files
  checkout : Bytes → Option Files
  revision : Option Bytes

def git {α : Type} (done : Option α) : Io α := Io.ofExcept (done.elim (.error .git) .ok)

def add (g : Git) (discard : Bool) : Io Unit := do
  let repo ← git g.pulled
  deploy digest repo discard
  let rev ← git g.revision
  Io.modifySelf fun d => { d with rev }

def install (g : Git) (discard : Bool) : Io Unit := do
  let repo ← git g.fetched
  let d ← Io.self
  let repo ← (if d.rev ≠ [] then git (g.checkout (d.rev.dropWhile (· = 0x3d))) else pure repo)
  deploy digest repo discard
  if d.rev = [] then
    let rev ← git g.revision
    Io.modifySelf fun d => { d with rev }
  else pure ()

def upgrade (g : Git) (discard : Bool) : Io Unit := do
  if (← Io.self).rev.head? = some 0x3d then pure () else add digest g discard

end Dependency
end Yazi.Cli
