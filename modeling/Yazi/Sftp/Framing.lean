import Yazi.Sftp.Packet

/-!
Packets are framed right: the length in front is the number of bytes behind it, and what is
accepted was consumed whole. Attributes end where their encoding does, so the items of a list
of names stay where they are.
-/
namespace Yazi.Sftp
open Base Shared Serializer

/-! ### Lengths -/

theorem measured_serializeMap (m : TextMap) :
    Measured (serializeMap m) (m.entries.map Measured.entryLen).sum :=
  Measured.elements Measured.entry m.entries

namespace Requests

theorem Init.measured (v : Init) : Measured v.serialize v.len :=
  (Measured.u32 _).cons ((measured_serializeMap _).cons Measured.nil)

theorem Open.measured (v : Open) : Measured v.serialize v.len := by
  have fields := (Measured.u32 v.id).cons ((Measured.bytes v.path).cons
    ((Measured.u32 v.flags.bits).cons (v.attrs.measured_serialize.cons Measured.nil)))
  exact fields.of_eq (by simp only [Open.len]; omega)

theorem OnHandle.measured (v : OnHandle) : Measured v.serialize v.len := by
  have fields := (Measured.u32 v.id).cons ((Measured.str v.handle).cons Measured.nil)
  exact fields.of_eq (by simp only [OnHandle.len]; omega)

theorem OnPath.measured (v : OnPath) : Measured v.serialize v.len := by
  have fields := (Measured.u32 v.id).cons ((Measured.bytes v.path).cons Measured.nil)
  exact fields.of_eq (by simp only [OnPath.len]; omega)

theorem Read.measured (v : Read) : Measured v.serialize v.len := by
  have fields := (Measured.u32 v.id).cons ((Measured.str v.handle).cons
    ((Measured.u64 v.offset).cons ((Measured.u32 v.length).cons Measured.nil)))
  exact fields.of_eq (by simp only [Read.len]; omega)

theorem Write.measured (v : Write) : Measured v.serialize v.len := by
  have fields := (Measured.u32 v.id).cons ((Measured.str v.handle).cons
    ((Measured.u64 v.offset).cons ((Measured.byteSeq v.data).cons Measured.nil)))
  exact fields.of_eq (by simp only [Write.len]; omega)

theorem PathAttrs.measured (v : PathAttrs) : Measured v.serialize v.len := by
  have fields := (Measured.u32 v.id).cons ((Measured.bytes v.path).cons
    (v.attrs.measured_serialize.cons Measured.nil))
  exact fields.of_eq (by simp only [PathAttrs.len]; omega)

theorem FSetStat.measured (v : FSetStat) : Measured v.serialize v.len := by
  have fields := (Measured.u32 v.id).cons ((Measured.str v.handle).cons
    (v.attrs.measured_serialize.cons Measured.nil))
  exact fields.of_eq (by simp only [FSetStat.len]; omega)

theorem TwoPaths.measured (v : TwoPaths) : Measured v.serialize v.len := by
  have fields := (Measured.u32 v.id).cons ((Measured.bytes v.first).cons
    ((Measured.bytes v.second).cons Measured.nil))
  exact fields.of_eq (by simp only [TwoPaths.len]; omega)

theorem Extended.measured {D : Type} [ExtendedData D] (v : Extended D) :
    Measured v.serialize v.len := by
  have fields := (Measured.u32 v.id).cons ((Measured.str v.request).cons
    ((ExtendedData.measured v.data).cons Measured.nil))
  exact fields.of_eq (by simp only [Extended.len]; omega)

end Requests

theorem Status.measured (v : Status) : Measured v.serialize v.len := by
  have fields := (Measured.u32 v.id).cons ((Measured.u32 v.code.index).cons
    ((Measured.str v.message).cons ((Measured.str v.language).cons Measured.nil)))
  exact fields.of_eq (by simp only [Status.len]; omega)

namespace Responses

theorem Version.measured (v : Version) : Measured v.serialize v.len :=
  (Measured.u32 _).cons ((measured_serializeMap _).cons Measured.nil)

theorem Handle.measured (v : Handle) : Measured v.serialize v.len := by
  have fields := (Measured.u32 v.id).cons ((Measured.str v.handle).cons Measured.nil)
  exact fields.of_eq (by simp only [Handle.len]; omega)

theorem Data.measured (v : Data) : Measured v.serialize v.len := by
  have fields := (Measured.u32 v.id).cons ((Measured.byteSeq v.data).cons Measured.nil)
  exact fields.of_eq (by simp only [Data.len]; omega)

theorem NameItem.measured (v : NameItem) : Measured v.serialize v.len := by
  have fields := (Measured.byteSeq v.name).cons ((Measured.byteSeq v.longName).cons
    (v.attrs.measured_serialize.cons Measured.nil))
  exact fields.of_eq (by simp only [NameItem.len]; omega)

theorem Name.measured (v : Name) : Measured v.serialize v.len := by
  have nonempty : ∀ item : NameItem, 0 < item.len := fun item => by
    simp only [NameItem.len]
    omega
  have fields := (Measured.u32 v.id).cons
    ((Measured.seq NameItem.measured nonempty v.items).cons Measured.nil)
  exact fields.of_eq (by simp only [Name.len]; omega)

theorem FileAttrs.measured (v : FileAttrs) : Measured v.serialize v.len :=
  (Measured.u32 _).cons (v.attrs.measured_serialize.cons Measured.nil)

theorem Extended.measured (v : Extended) : Measured v.serialize v.len :=
  (Measured.u32 _).cons ((Measured.byteElements _).cons Measured.nil)

end Responses

/-! ### No panics -/

section Orderly
open Deserializer Reader

theorem Status.orderly_deserializeCode : Orderly .panic deserializeCode := by
  apply (orderly_chunk _ _).bind
  intro index
  simp only [variant]
  split
  · exact Orderly.pure _
  · exact orderly_fail _

theorem Status.orderly_deserialize : Orderly .panic deserialize :=
  orderly_deserializeU32.bind fun _ => orderly_deserializeCode.bind fun _ =>
    orderly_deserializeStr.bind fun _ => orderly_deserializeStr.bind fun _ => Orderly.pure _

namespace Responses

theorem Version.orderly_deserialize : Orderly .panic deserialize :=
  orderly_deserializeU32.bind fun _ => orderly_deserializeMap.bind fun _ => Orderly.pure _

theorem Handle.orderly_deserialize : Orderly .panic deserialize :=
  orderly_deserializeU32.bind fun _ => orderly_deserializeStr.bind fun _ => Orderly.pure _

theorem orderly_deserializeVec : Orderly .panic (deserializeSeq deserializeU8) :=
  orderly_deserializeSeq orderly_deserializeU8

theorem Data.orderly_deserialize : Orderly .panic deserialize :=
  orderly_deserializeU32.bind fun _ => orderly_deserializeVec.bind fun _ => Orderly.pure _

theorem NameItem.orderly_deserialize : Orderly .panic deserialize :=
  orderly_deserializeVec.bind fun _ => orderly_deserializeVec.bind fun _ =>
    Attrs.orderly_deserialize.bind fun _ => Orderly.pure _

theorem Name.orderly_deserialize : Orderly .panic deserialize :=
  orderly_deserializeU32.bind fun _ =>
    (orderly_deserializeSeq NameItem.orderly_deserialize).bind fun _ => Orderly.pure _

theorem FileAttrs.orderly_deserialize : Orderly .panic deserialize :=
  orderly_deserializeU32.bind fun _ => Attrs.orderly_deserialize.bind fun _ => Orderly.pure _

theorem Extended.orderly_deserialize : Orderly .panic deserialize :=
  orderly_deserializeU32.bind fun _ =>
    (Steady.visitSeq orderly_deserializeU8).deserializeAny.bind fun _ => Orderly.pure _

end Responses

end Orderly

namespace Packet

theorem measured_serialize (packet : Packet) :
    ∃ n, packet.len = 1 + n ∧ Measured packet.serialize n := by
  cases packet with
  | init v | version v => exact ⟨_, rfl, v.measured⟩
  | openFile v => exact ⟨_, rfl, v.measured⟩
  | close v | fstat v | readDir v => exact ⟨_, rfl, Requests.OnHandle.measured v⟩
  | read v | write v | fSetStat v => exact ⟨_, rfl, v.measured⟩
  | lstat v | openDir v | remove v | rmdir v | realpath v | stat v | readlink v =>
    exact ⟨_, rfl, Requests.OnPath.measured v⟩
  | setStat v | mkdir v => exact ⟨_, rfl, Requests.PathAttrs.measured v⟩
  | rename v | symlink v => exact ⟨_, rfl, Requests.TwoPaths.measured v⟩
  | extendedRename v | extendedHardlink v => exact ⟨_, rfl, v.measured⟩
  | extendedFsync v | extendedLimits v => exact ⟨_, rfl, v.measured⟩
  | status v | handle v | data v | name v | attrs v | extendedReply v => exact ⟨_, rfl, v.measured⟩

theorem orderly_deserialize (kind : UInt8) : Reader.Orderly .panic (deserialize kind) := by
  simp only [deserialize]
  split
  · exact Responses.Version.orderly_deserialize.bind fun _ => Reader.Orderly.pure _
  · exact Status.orderly_deserialize.bind fun _ => Reader.Orderly.pure _
  · exact Responses.Handle.orderly_deserialize.bind fun _ => Reader.Orderly.pure _
  · exact Responses.Data.orderly_deserialize.bind fun _ => Reader.Orderly.pure _
  · exact Responses.Name.orderly_deserialize.bind fun _ => Reader.Orderly.pure _
  · exact Responses.FileAttrs.orderly_deserialize.bind fun _ => Reader.Orderly.pure _
  · exact Responses.Extended.orderly_deserialize.bind fun _ => Reader.Orderly.pure _
  · exact Deserializer.orderly_fail _

/-- A packet of fewer than 2³² bytes is written, behind the number of its bytes. -/
theorem toBytes_of_len {packet : Packet} (fits : packet.len < 2 ^ 32) :
    ∃ body, packet.serialize = .ok body ∧
      packet.toBytes = .ok (BigEndian.encode 4 packet.len ++ packet.kind :: body) ∧
      (packet.kind :: body).length = packet.len := by
  obtain ⟨n, whole, measured⟩ := packet.measured_serialize
  obtain ⟨body, written, length⟩ := measured (by omega)
  refine ⟨body, written, ?_, ?_⟩
  · rw [toBytes, if_pos fits, written]
    rfl
  · rw [List.length_cons, length, whole, Nat.add_comm]

/-- What is accepted was consumed whole. -/
theorem once_ok {α : Type} {p : Deserializer α} {input : Bytes} {t : α}
    (orderly : Reader.Orderly .panic p) (accepted : once p input = .ok t) :
    p ⟨0, input⟩ = .ok (t, ⟨input.length, []⟩) := by
  simp only [once] at accepted
  cases result : p ⟨0, input⟩ with
  | error fault =>
    rw [result] at accepted
    cases accepted
  | ok value =>
    obtain ⟨t', pos, rest⟩ := value
    rw [result] at accepted
    change (if rest.isEmpty then _ else _) = _ at accepted
    split at accepted
    · next empty =>
      cases accepted
      obtain rfl := List.isEmpty_iff.mp empty
      have counted := ((orderly _).of_ok result).pos_of_rest_nil rfl
      simp only [Nat.zero_add] at counted
      rw [counted]
    · cases accepted

theorem once_ne_panic {α : Type} {p : Deserializer α} (orderly : Reader.Orderly .panic p)
    (input : Bytes) : once p input ≠ .error .panic := by
  simp only [once]
  cases result : p ⟨0, input⟩ with
  | error fault =>
    have other := (orderly _).of_error result
    intro panicked
    cases panicked
    exact other rfl
  | ok value =>
    change (if value.2.rest.isEmpty then _ else _) ≠ _
    split <;> exact nofun

/-- The length in front of a packet is the number of bytes behind it, which are its kind and what
it holds, and only a packet too large for its length is not written. No byte string makes the reader panic, and the reader of
an accepted one stands at its end, having counted every byte of the body. -/
theorem framed :
    (∀ packet : Packet, packet.len < 2 ^ 32 ↔ ∃ out, packet.toBytes = .ok out) ∧
    (∀ (packet : Packet) (out : Bytes), packet.toBytes = .ok out →
      4 ≤ out.length ∧ BigEndian.decode (out.take 4) = (out.drop 4).length ∧
        ∃ body, packet.serialize = .ok body ∧ out.drop 4 = packet.kind :: body) ∧
    ∀ bytes : Bytes, fromBytes bytes ≠ .error .panic ∧
      ∀ packet, fromBytes bytes = .ok packet → ∃ kind body, bytes = kind :: body ∧
        deserialize kind ⟨0, body⟩ = .ok (packet, ⟨body.length, []⟩) := by
  have fits : ∀ (packet : Packet) (out : Bytes), packet.toBytes = .ok out →
      packet.len < 2 ^ 32 := by
    intro packet out written
    by_contra large
    rw [toBytes, if_neg large] at written
    cases written
  refine ⟨fun packet => ⟨fun fits => ?_, fun ⟨out, written⟩ => fits packet out written⟩,
    fun packet out written => ?_, fun bytes => ?_⟩
  · obtain ⟨body, -, written, -⟩ := toBytes_of_len fits
    exact ⟨_, written⟩
  · obtain ⟨body, serialized, written', length⟩ := toBytes_of_len (fits packet out written)
    cases written'.symm.trans written
    have width := BigEndian.length_encode 4 packet.len
    rw [List.take_left' width, List.drop_left' width, length, List.length_append, width]
    exact ⟨Nat.le_add_right .., BigEndian.decode_encode (fits packet _ written), body, serialized, rfl⟩
  · cases bytes with
    | nil => simp [fromBytes]
    | cons kind body =>
      have orderly := orderly_deserialize kind
      exact ⟨once_ne_panic orderly body, fun packet accepted =>
        ⟨kind, body, rfl, once_ok orderly accepted⟩⟩

end Packet

/-! ### Attributes -/

namespace Responses

/-- A list item as it arrives. -/
def NameItem.sent (v : NameItem) : NameItem := { v with attrs := v.attrs.sent }

theorem NameItem.returns_deserialize {v : NameItem} {t : Bytes} (written : v.serialize = .ok t) :
    Reader.Returns deserialize t v.sent := by
  obtain ⟨name, rest, named, others, rfl⟩ := concat_cons_ok written
  obtain ⟨long, last, longNamed, described, rfl⟩ := concat_cons_ok others
  rw [concat_singleton] at described
  refine (Deserializer.returns_vec named).bind ((Deserializer.returns_vec longNamed).bind ?_)
  exact (Attrs.returns_deserialize described).finish (Reader.Returns.pure v.sent)

end Responses

namespace Attrs

/-- One of a pair arrives as it is unless it is missing and the other is not. -/
private theorem sentOf_eq_iff (has : Bool) (v : Option UInt32) (there : v.isSome → has) :
    sentOf has v = v ↔ v.isSome = has := by
  cases v with
  | none => cases has <;> simp [sentOf]
  | some v => simp [sentOf, there rfl]

theorem sent_eq_iff (a : Attrs) : a.sent = a ↔
    a.uid.isSome = a.gid.isSome ∧ a.atime.isSome = a.mtime.isSome ∧
      a.extended.entries.length < 2 ^ 32 := by
  obtain ⟨size, uid, gid, perm, atime, mtime, ⟨entries, distinct⟩⟩ := a
  have count : entries.take (UInt32.ofNat entries.length).toNat = entries ↔
      entries.length < 2 ^ 32 := by
    rw [List.take_eq_self_iff, UInt32.toNat_ofNat']
    have positive : 0 < 2 ^ 32 := by decide
    constructor
    · intro few
      exact Nat.lt_of_le_of_lt few (Nat.mod_lt _ positive)
    · intro fits
      exact Nat.le_of_eq (Nat.mod_eq_of_lt fits).symm
  simp only [sent, hasIds, hasTimes, extendedCount, mk.injEq, TextMap.mk.injEq, true_and, count]
  rw [sentOf_eq_iff _ uid (by simp +contextual), sentOf_eq_iff _ gid (by simp +contextual),
    sentOf_eq_iff _ atime (by simp +contextual), sentOf_eq_iff _ mtime (by simp +contextual)]
  cases uid.isSome <;> cases gid.isSome <;> cases atime.isSome <;> cases mtime.isSome <;> simp

/-- What is decoded of attributes that were encoded, whatever follows them, is what was sent,
and the reader stands at their end, so the items of a list of names are all found. What was
sent are the attributes themselves, except where one of a pair is missing and arrives as
zero, or the number of the extended pairs does not fit four bytes. -/
theorem round_trip :
    (∀ a : Attrs, a.len < 2 ^ 32 → ∃ t, a.serialize = .ok t) ∧
    (∀ (a : Attrs) (t : Bytes), a.serialize = .ok t → ∀ pos rest,
      deserialize ⟨pos, t ++ rest⟩ = .ok (a.sent, ⟨pos + t.length, rest⟩)) ∧
    (∀ a : Attrs, a.sent = a ↔ a.uid.isSome = a.gid.isSome ∧ a.atime.isSome = a.mtime.isSome ∧
      a.extended.entries.length < 2 ^ 32) ∧
    ∀ (items : List Responses.NameItem) (t : Bytes),
      serializeSeq Responses.NameItem.serialize items = .ok t → ∀ pos rest,
        Deserializer.deserializeSeq Responses.NameItem.deserialize ⟨pos, t ++ rest⟩ =
          .ok (items.map Responses.NameItem.sent, ⟨pos + t.length, rest⟩) := by
  refine ⟨fun a fits => ?_, fun a t written => (returns_deserialize written).result,
    sent_eq_iff, fun items t written => ?_⟩
  · obtain ⟨t, written, -⟩ := a.measured_serialize fits
    exact ⟨t, written⟩
  · have items := Deserializer.returns_deserializeSeq
      (fun v t => Responses.NameItem.returns_deserialize) written
    exact items.result

/-- An owner without a group comes back with the group zero. -/
theorem owner_alone :
    let a : Attrs := { (default : Attrs) with uid := some 1000 }
    ∃ t b, a.serialize = .ok t ∧ deserialize ⟨0, t⟩ = .ok (b, ⟨t.length, []⟩) ∧
      b.gid = some 0 ∧ b ≠ a := by
  intro a
  have decoded := (returns_deserialize (a := a) rfl).result 0 []
  rw [List.append_nil] at decoded
  refine ⟨_, a.sent, rfl, ?_, rfl, by decide⟩
  rw [decoded, Nat.zero_add]

end Attrs

end Yazi.Sftp
