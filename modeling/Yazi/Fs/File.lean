import Yazi.Shared.Natsort
import Yazi.Shared.Url

/-!
Files of a directory listing: a url with its metadata, and the filter over their names.
-/
namespace Yazi.Fs
open Yazi.Shared

/-- Nanoseconds since the epoch. -/
abbrev Time := Int

inductive StatType where
  | file
  | dir
  | link
  | block
  | char
  | sock
  | fifo
  | unknown
  deriving DecidableEq, Repr

/-- `StatMode`, whose upper bits give the type. -/
def StatType.ofMode (mode : UInt16) : StatType :=
  let bits := mode &&& 0xf000
  if bits = 0x8000 then .file
  else if bits = 0x4000 then .dir
  else if bits = 0xa000 then .link
  else if bits = 0x6000 then .block
  else if bits = 0x2000 then .char
  else if bits = 0xc000 then .sock
  else if bits = 0x1000 then .fifo
  else .unknown

/-- `StatMode::from_bare`. -/
def StatType.mode : StatType → UInt16
  | .file => 0x8000
  | .dir => 0x4000
  | .link => 0xa000
  | .block => 0x6000
  | .char => 0x2000
  | .sock => 0xc000
  | .fifo => 0x1000
  | .unknown => 0

namespace StatKind

def follow : UInt8 := 0x01

def hidden : UInt8 := 0x02

def system : UInt8 := 0x04

def dummy : UInt8 := 0x08

def reparse : UInt8 := 0x10

end StatKind

structure Stat where
  kind : UInt8
  mode : UInt16
  len : Nat
  btime : Option Time
  ctime : Option Time
  mtime : Option Time
  deriving DecidableEq, Repr

namespace Stat

def type (stat : Stat) : StatType := .ofMode stat.mode

def isDir (stat : Stat) : Bool := stat.type = .dir

def isFile (stat : Stat) : Bool := stat.type = .file

/-- On Unix. -/
def isHidden (stat : Stat) : Bool := stat.kind &&& StatKind.hidden = StatKind.hidden

def isLink (stat : Stat) : Bool :=
  stat.kind &&& StatKind.follow = StatKind.follow ∨ stat.type = .link

def isReparse (stat : Stat) : Bool := stat.kind &&& StatKind.reparse = StatKind.reparse

def isIndirect (stat : Stat) : Bool := stat.isLink ∨ stat.isReparse

/-- A link that leads nowhere. -/
def isOrphan (stat : Stat) : Bool :=
  stat.type = .link ∧ stat.kind &&& StatKind.follow = StatKind.follow

/-- `Stat::follow`. -/
def follow (stat : Stat) (followed : Option Stat) : Stat :=
  if stat.isLink then
    let retain := stat.kind &&& (StatKind.hidden ||| StatKind.system ||| StatKind.reparse)
    let shown := followed.getD stat
    { shown with kind := shown.kind ||| (retain ||| StatKind.follow) }
  else stat

/-- `Stat::hits`. -/
def hits (a b : Stat) : Bool :=
  a.len = b.len ∧ a.mtime = b.mtime ∧ a.ctime = b.ctime ∧ a.btime = b.btime ∧ a.kind = b.kind ∧
    a.mode = b.mode

def fromDummy (url : Url) (type : Option StatType) : Stat where
  kind := if url.urn.isHidden then StatKind.dummy ||| StatKind.hidden else StatKind.dummy
  mode := (type.map StatType.mode).getD 0
  len := 0
  btime := none
  ctime := none
  mtime := none

/-- The compared fields are all there are. -/
theorem hits_iff {a b : Stat} : a.hits b = true ↔ a = b := by
  constructor
  · intro same
    simp only [hits, decide_eq_true_eq] at same
    obtain ⟨len, mtime, ctime, btime, kind, mode⟩ := same
    cases a
    cases b
    simp_all
  · rintro rfl
    simp [hits]

end Stat

/-- `lstat` is the metadata of a link itself, in the files that keep it. -/
structure File where
  url : Url
  stat : Stat
  extra : Option Stat
  deriving DecidableEq

namespace File

def fromDummy (url : Url) (type : Option StatType) : File where
  url
  stat := .fromDummy url type
  extra := none

def urn (file : File) : PathDyn := file.url.urn

def key (file : File) : PathDyn := file.url.key

def ext (file : File) : Option Bytes := Path.extension file.url.loc.inner

def isHidden (file : File) : Bool := file.stat.isHidden

def isDir (file : File) : Bool := file.stat.isDir

def isFile (file : File) : Bool := file.stat.isFile

def lstat (file : File) : Stat := file.extra.getD file.stat

def hits (a b : File) : Bool := a.stat.hits b.stat && a.lstat.hits b.lstat

end File

/-- The regex library, with the normalizer in front of it. -/
structure Regex where
  hasUppercase : Bytes → Bool
  compiles : Bytes → Bool
  /-- The pattern, whether case is ignored, and the name. -/
  isMatch : Bytes → Bool → Bytes → Bool

/-- Patterns without special characters: a name matches that contains the pattern. -/
def Regex.literal : Regex where
  hasUppercase raw := raw.any fun b => b != Natsort.lower b
  compiles _ := true
  isMatch raw insensitive name :=
    if insensitive then raw.map Natsort.lower <:+: name.map Natsort.lower else raw <:+: name

inductive FilterCase where
  | smart
  | sensitive
  | insensitive
  deriving DecidableEq, Repr

/-- A pattern, and whether its compiled regex ignores case. -/
structure Filter where
  raw : Bytes
  insensitive : Bool
  deriving DecidableEq

namespace Filter

def new (regex : Regex) (raw : Bytes) (case : FilterCase) : Option Filter :=
  if regex.compiles raw then
    some ⟨raw, match case with
      | .smart => !regex.hasUppercase raw
      | .sensitive => false
      | .insensitive => true⟩
  else none

/-- `Filter::matches`. -/
def isMatch (regex : Regex) (filter : Filter) (name : PathDyn) : Bool :=
  regex.isMatch filter.raw filter.insensitive name.bytes

/-- `Filter::eq`. -/
def eq (a b : Filter) : Bool := a.raw = b.raw

end Filter

end Yazi.Fs
