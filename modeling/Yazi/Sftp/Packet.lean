import Yazi.Sftp.Attrs

/-!
The requests and the responses of SFTP, and their packets.

Each has a length computed by hand, which goes in front of what its serializer writes. A
struct is serialized and deserialized field by field.
-/
namespace Yazi.Sftp
open Base Shared Serializer

/-! ### Requests -/

namespace Requests

structure Init where
  version : UInt32
  extensions : TextMap

def Init.len (v : Init) : Nat := 4 + (v.extensions.entries.map Measured.entryLen).sum

def Init.serialize (v : Init) : Output :=
  concat [serializeU32 v.version, serializeMap v.extensions]

structure Flags where
  bits : UInt32

structure Open where
  id : UInt32
  path : Bytes
  flags : Flags
  attrs : Attrs

def Open.len (v : Open) : Nat := 4 + 4 + v.path.length + 4 + v.attrs.len

def Open.serialize (v : Open) : Output :=
  concat [serializeU32 v.id, serializeBytes v.path, serializeU32 v.flags.bits, v.attrs.serialize]

/-- A request about a handle. -/
structure OnHandle where
  id : UInt32
  handle : Text

def OnHandle.len (v : OnHandle) : Nat := 4 + 4 + v.handle.bytes.length

def OnHandle.serialize (v : OnHandle) : Output :=
  concat [serializeU32 v.id, serializeStr v.handle]

abbrev Close := OnHandle
abbrev Fstat := OnHandle
abbrev ReadDir := OnHandle

/-- A request about a path. -/
structure OnPath where
  id : UInt32
  path : Bytes

def OnPath.len (v : OnPath) : Nat := 4 + 4 + v.path.length

def OnPath.serialize (v : OnPath) : Output := concat [serializeU32 v.id, serializeBytes v.path]

abbrev Lstat := OnPath
abbrev OpenDir := OnPath
abbrev Remove := OnPath
abbrev Rmdir := OnPath
abbrev Realpath := OnPath
abbrev Stat := OnPath
abbrev Readlink := OnPath

structure Read where
  id : UInt32
  handle : Text
  offset : UInt64
  length : UInt32

def Read.len (v : Read) : Nat := 4 + 4 + v.handle.bytes.length + 8 + 4

def Read.serialize (v : Read) : Output :=
  concat [serializeU32 v.id, serializeStr v.handle, serializeU64 v.offset, serializeU32 v.length]

structure Write where
  id : UInt32
  handle : Text
  offset : UInt64
  data : Bytes

def Write.len (v : Write) : Nat := 4 + 4 + v.handle.bytes.length + 8 + 4 + v.data.length

def Write.serialize (v : Write) : Output :=
  concat [serializeU32 v.id, serializeStr v.handle, serializeU64 v.offset,
    serializeSeq serializeU8 v.data]

/-- A request that sets the attributes of a path. -/
structure PathAttrs where
  id : UInt32
  path : Bytes
  attrs : Attrs

def PathAttrs.len (v : PathAttrs) : Nat := 4 + 4 + v.path.length + v.attrs.len

def PathAttrs.serialize (v : PathAttrs) : Output :=
  concat [serializeU32 v.id, serializeBytes v.path, v.attrs.serialize]

abbrev SetStat := PathAttrs
abbrev Mkdir := PathAttrs

structure FSetStat where
  id : UInt32
  handle : Text
  attrs : Attrs

def FSetStat.len (v : FSetStat) : Nat := 4 + 4 + v.handle.bytes.length + v.attrs.len

def FSetStat.serialize (v : FSetStat) : Output :=
  concat [serializeU32 v.id, serializeStr v.handle, v.attrs.serialize]

/-- A request about two paths. -/
structure TwoPaths where
  id : UInt32
  first : Bytes
  second : Bytes

def TwoPaths.len (v : TwoPaths) : Nat := 4 + 4 + v.first.length + 4 + v.second.length

def TwoPaths.serialize (v : TwoPaths) : Output :=
  concat [serializeU32 v.id, serializeBytes v.first, serializeBytes v.second]

/-- The old path is the first. -/
abbrev Rename := TwoPaths
/-- The link is the first. -/
abbrev Symlink := TwoPaths

/-- The data of an extended request. Its length is right. -/
class ExtendedData (D : Type) where
  len : D → Nat
  serialize : D → Output
  measured : ∀ data, Measured (serialize data) (len data)

structure Extended (D : Type) where
  id : UInt32
  request : Text
  data : D

def Extended.len {D : Type} [ExtendedData D] (v : Extended D) : Nat :=
  4 + 4 + v.request.bytes.length + ExtendedData.len v.data

def Extended.serialize {D : Type} [ExtendedData D] (v : Extended D) : Output :=
  concat [serializeU32 v.id, serializeStr v.request, ExtendedData.serialize v.data]

/-- Two paths as the data of an extended request. -/
structure PathPair where
  first : Bytes
  second : Bytes

instance : ExtendedData PathPair where
  len data := 4 + data.first.length + 4 + data.second.length
  serialize data := concat [serializeBytes data.first, serializeBytes data.second]
  measured data := by
    have fields := (Measured.bytes data.first).cons ((Measured.bytes data.second).cons Measured.nil)
    simpa only [Nat.add_assoc, Nat.add_zero] using fields

abbrev ExtendedRename := PathPair
abbrev ExtendedHardlink := PathPair

structure ExtendedFsync where
  handle : Text

instance : ExtendedData ExtendedFsync where
  len data := 4 + data.handle.bytes.length
  serialize data := concat [serializeStr data.handle]
  measured data := (Measured.str data.handle).cons Measured.nil

structure ExtendedLimits where

instance : ExtendedData ExtendedLimits where
  len _ := 0
  serialize _ := concat []
  measured _ := Measured.nil

end Requests

/-! ### Responses -/

namespace Status

def len (v : Status) : Nat := 4 + 4 + 4 + v.message.bytes.length + 4 + v.language.bytes.length

def serialize (v : Status) : Output :=
  concat [serializeU32 v.id, serializeUnitVariant v.code.index, serializeStr v.message,
    serializeStr v.language]

def variant (index : UInt32) : Deserializer StatusCode :=
  match StatusCode.ofIndex index with
  | some code => pure code
  | none => Deserializer.fail (.variant index)

def deserializeCode : Deserializer StatusCode := do
  let index ← Deserializer.chunk 4 "enum not enough"
  variant (UInt32.ofNat index)

def deserialize : Deserializer Status := do
  let id ← Deserializer.deserializeU32
  let code ← deserializeCode
  let message ← Deserializer.deserializeStr
  let language ← Deserializer.deserializeStr
  pure ⟨id, code, message, language⟩

def isOk (v : Status) : Bool := v.code = .ok

def isEof (v : Status) : Bool := v.code = .eof

def connectionLost (id : UInt32) : Status where
  id := id
  code := .connectionLost
  message := ⟨"connection lost".toUTF8.data.toList, by decide⟩
  language := ⟨"en".toUTF8.data.toList, by decide⟩

end Status

namespace Responses
open Deserializer

structure Version where
  version : UInt32
  extensions : TextMap

def Version.len (v : Version) : Nat := 4 + (v.extensions.entries.map Measured.entryLen).sum

def Version.serialize (v : Version) : Output :=
  concat [serializeU32 v.version, serializeMap v.extensions]

def Version.deserialize : Deserializer Version := do
  let version ← deserializeU32
  let extensions ← deserializeMap
  pure ⟨version, extensions⟩

structure Handle where
  id : UInt32
  handle : Text

def Handle.len (v : Handle) : Nat := 4 + 4 + v.handle.bytes.length

def Handle.serialize (v : Handle) : Output := concat [serializeU32 v.id, serializeStr v.handle]

def Handle.deserialize : Deserializer Handle := do
  let id ← deserializeU32
  let handle ← deserializeStr
  pure ⟨id, handle⟩

structure Data where
  id : UInt32
  data : Bytes

def Data.len (v : Data) : Nat := 4 + 4 + v.data.length

def Data.serialize (v : Data) : Output :=
  concat [serializeU32 v.id, serializeSeq serializeU8 v.data]

def Data.deserialize : Deserializer Data := do
  let id ← deserializeU32
  let data ← deserializeSeq deserializeU8
  pure ⟨id, data⟩

structure NameItem where
  name : Bytes
  longName : Bytes
  attrs : Attrs
  deriving DecidableEq

def NameItem.len (v : NameItem) : Nat :=
  4 + v.name.length + 4 + v.longName.length + v.attrs.len

def NameItem.serialize (v : NameItem) : Output :=
  concat [serializeSeq serializeU8 v.name, serializeSeq serializeU8 v.longName, v.attrs.serialize]

def NameItem.deserialize : Deserializer NameItem := do
  let name ← deserializeSeq deserializeU8
  let longName ← deserializeSeq deserializeU8
  let attrs ← Attrs.deserialize
  pure ⟨name, longName, attrs⟩

structure Name where
  id : UInt32
  items : List NameItem

def Name.len (v : Name) : Nat := 4 + 4 + (v.items.map NameItem.len).sum

def Name.serialize (v : Name) : Output :=
  concat [serializeU32 v.id, serializeSeq NameItem.serialize v.items]

def Name.deserialize : Deserializer Name := do
  let id ← deserializeU32
  let items ← deserializeSeq NameItem.deserialize
  pure ⟨id, items⟩

/-- `responses::Attrs` -/
structure FileAttrs where
  id : UInt32
  attrs : Attrs

def FileAttrs.len (v : FileAttrs) : Nat := 4 + v.attrs.len

def FileAttrs.serialize (v : FileAttrs) : Output := concat [serializeU32 v.id, v.attrs.serialize]

def FileAttrs.deserialize : Deserializer FileAttrs := do
  let id ← deserializeU32
  let attrs ← Attrs.deserialize
  pure ⟨id, attrs⟩

structure Extended where
  id : UInt32
  data : Bytes

def Extended.len (v : Extended) : Nat := 4 + v.data.length

def Extended.serialize (v : Extended) : Output :=
  concat [serializeU32 v.id, serializeElements serializeU8 v.data]

def Extended.deserialize : Deserializer Extended := do
  let id ← deserializeU32
  let data ← deserializeAny (visitSeq deserializeU8)
  pure ⟨id, data⟩

end Responses

/-! ### Packets -/

open Requests in
inductive Packet where
  | init (v : Init)
  | openFile (v : Open)
  | close (v : Close)
  | read (v : Read)
  | write (v : Write)
  | lstat (v : Lstat)
  | fstat (v : Fstat)
  | setStat (v : SetStat)
  | fSetStat (v : FSetStat)
  | openDir (v : OpenDir)
  | readDir (v : ReadDir)
  | remove (v : Remove)
  | mkdir (v : Mkdir)
  | rmdir (v : Rmdir)
  | realpath (v : Realpath)
  | stat (v : Requests.Stat)
  | rename (v : Rename)
  | readlink (v : Readlink)
  | symlink (v : Symlink)
  | extendedRename (v : Extended ExtendedRename)
  | extendedFsync (v : Extended ExtendedFsync)
  | extendedHardlink (v : Extended ExtendedHardlink)
  | extendedLimits (v : Extended ExtendedLimits)
  | version (v : Responses.Version)
  | status (v : Status)
  | handle (v : Responses.Handle)
  | data (v : Responses.Data)
  | name (v : Responses.Name)
  | attrs (v : Responses.FileAttrs)
  | extendedReply (v : Responses.Extended)

namespace Packet

def kind : Packet → UInt8
  | .init _ => 1
  | .openFile _ => 3
  | .close _ => 4
  | .read _ => 5
  | .write _ => 6
  | .lstat _ => 7
  | .fstat _ => 8
  | .setStat _ => 9
  | .fSetStat _ => 10
  | .openDir _ => 11
  | .readDir _ => 12
  | .remove _ => 13
  | .mkdir _ => 14
  | .rmdir _ => 15
  | .realpath _ => 16
  | .stat _ => 17
  | .rename _ => 18
  | .readlink _ => 19
  | .symlink _ => 20
  | .extendedRename _ | .extendedFsync _ | .extendedHardlink _ | .extendedLimits _ => 200
  | .version _ => 2
  | .status _ => 101
  | .handle _ => 102
  | .data _ => 103
  | .name _ => 104
  | .attrs _ => 105
  | .extendedReply _ => 201

def id : Packet → UInt32
  | .init _ | .version _ => 0
  | .openFile v => v.id
  | .close v | .fstat v | .readDir v => v.id
  | .read v => v.id
  | .write v => v.id
  | .lstat v | .openDir v | .remove v | .rmdir v | .realpath v | .stat v | .readlink v => v.id
  | .setStat v | .mkdir v => v.id
  | .fSetStat v => v.id
  | .rename v | .symlink v => v.id
  | .extendedRename v | .extendedHardlink v => v.id
  | .extendedFsync v => v.id
  | .extendedLimits v => v.id
  | .status v => v.id
  | .handle v => v.id
  | .data v => v.id
  | .name v => v.id
  | .attrs v => v.id
  | .extendedReply v => v.id

def withId (id : UInt32) : Packet → Packet
  | .init v => .init v
  | .openFile v => .openFile { v with id }
  | .close v => .close { v with id }
  | .read v => .read { v with id }
  | .write v => .write { v with id }
  | .lstat v => .lstat { v with id }
  | .fstat v => .fstat { v with id }
  | .setStat v => .setStat { v with id }
  | .fSetStat v => .fSetStat { v with id }
  | .openDir v => .openDir { v with id }
  | .readDir v => .readDir { v with id }
  | .remove v => .remove { v with id }
  | .mkdir v => .mkdir { v with id }
  | .rmdir v => .rmdir { v with id }
  | .realpath v => .realpath { v with id }
  | .stat v => .stat { v with id }
  | .rename v => .rename { v with id }
  | .readlink v => .readlink { v with id }
  | .symlink v => .symlink { v with id }
  | .extendedRename v => .extendedRename { v with id }
  | .extendedFsync v => .extendedFsync { v with id }
  | .extendedHardlink v => .extendedHardlink { v with id }
  | .extendedLimits v => .extendedLimits { v with id }
  | .version v => .version v
  | .status v => .status { v with id }
  | .handle v => .handle { v with id }
  | .data v => .data { v with id }
  | .name v => .name { v with id }
  | .attrs v => .attrs { v with id }
  | .extendedReply v => .extendedReply { v with id }

/-- The byte of the kind counts. -/
def len : Packet → Nat
  | .init v => 1 + v.len
  | .openFile v => 1 + v.len
  | .close v | .fstat v | .readDir v => 1 + v.len
  | .read v => 1 + v.len
  | .write v => 1 + v.len
  | .lstat v | .openDir v | .remove v | .rmdir v | .realpath v | .stat v | .readlink v => 1 + v.len
  | .setStat v | .mkdir v => 1 + v.len
  | .fSetStat v => 1 + v.len
  | .rename v | .symlink v => 1 + v.len
  | .extendedRename v | .extendedHardlink v => 1 + v.len
  | .extendedFsync v => 1 + v.len
  | .extendedLimits v => 1 + v.len
  | .version v => 1 + v.len
  | .status v => 1 + v.len
  | .handle v => 1 + v.len
  | .data v => 1 + v.len
  | .name v => 1 + v.len
  | .attrs v => 1 + v.len
  | .extendedReply v => 1 + v.len

/-- A packet is serialized as what it holds. -/
def serialize : Packet → Output
  | .init v => v.serialize
  | .openFile v => v.serialize
  | .close v | .fstat v | .readDir v => v.serialize
  | .read v => v.serialize
  | .write v => v.serialize
  | .lstat v | .openDir v | .remove v | .rmdir v | .realpath v | .stat v | .readlink v =>
    v.serialize
  | .setStat v | .mkdir v => v.serialize
  | .fSetStat v => v.serialize
  | .rename v | .symlink v => v.serialize
  | .extendedRename v | .extendedHardlink v => v.serialize
  | .extendedFsync v => v.serialize
  | .extendedLimits v => v.serialize
  | .version v => v.serialize
  | .status v => v.serialize
  | .handle v => v.serialize
  | .data v => v.serialize
  | .name v => v.serialize
  | .attrs v => v.serialize
  | .extendedReply v => v.serialize

def toBytes (packet : Packet) : Output :=
  if packet.len < 2 ^ 32 then do
    let body ← packet.serialize
    .ok (BigEndian.encode 4 packet.len ++ packet.kind :: body)
  else .error (.serde "packet too large")

/-- The reader for a kind of packet. -/
def deserialize (kind : UInt8) : Deserializer Packet :=
  match kind with
  | 2 => .version <$> Responses.Version.deserialize
  | 101 => .status <$> Status.deserialize
  | 102 => .handle <$> Responses.Handle.deserialize
  | 103 => .data <$> Responses.Data.deserialize
  | 104 => .name <$> Responses.Name.deserialize
  | 105 => .attrs <$> Responses.FileAttrs.deserialize
  | 201 => .extendedReply <$> Responses.Extended.deserialize
  | _ => Deserializer.fail (.packet "unknown packet kind")

/-- `Deserializer::once` -/
def once {α : Type} (deserialize : Deserializer α) (input : Bytes) : Except Fault α := do
  let (t, de) ← deserialize ⟨0, input⟩
  if de.rest.isEmpty then .ok t else .error (.error (.serde "trailing bytes"))

def fromBytes : Bytes → Except Fault Packet
  | [] => .error (.error (.serde "empty packet"))
  | kind :: bytes => once (deserialize kind) bytes

end Packet

end Yazi.Sftp
