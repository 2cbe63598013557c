import Mathlib
import Yazi.Base.BigEndian
import Yazi.Base.Keyed
import Yazi.Base.Reader
import Yazi.Shared.Text

/-!
The serializer and the deserializer of SFTP packets.

A value is written field after field, with no names and no tags; texts, bytes and sequences
start with their length in four bytes. What `serialize` appends to the output is returned as
bytes. The deserializer slices its input, and a slice that is out of range is a panic.
-/
namespace Yazi.Sftp
open Base Shared

/-- `HashMap<String, String>`, in the order of its iteration. -/
structure TextMap where
  entries : Assoc Text Text
  distinct : entries.Distinct
  deriving DecidableEq

namespace TextMap

instance : Inhabited TextMap := ⟨[], List.Pairwise.nil⟩

def insert (m : TextMap) (k v : Text) : TextMap := ⟨m.entries.insert k v, m.distinct.insert k v⟩

def collect (m : TextMap) (pairs : List (Text × Text)) : TextMap :=
  pairs.foldl (fun m pair => m.insert pair.1 pair.2) m

end TextMap

inductive StatusCode where
  | ok | eof | noSuchFile | permissionDenied | failure | badMessage | noConnection
  | connectionLost | opUnsupported | invalidHandle | noSuchPath | fileAlreadyExists
  | writeProtect | noMedia
  deriving DecidableEq

namespace StatusCode

def all : List StatusCode :=
  [ok, eof, noSuchFile, permissionDenied, failure, badMessage, noConnection, connectionLost,
    opUnsupported, invalidHandle, noSuchPath, fileAlreadyExists, writeProtect, noMedia]

/-- The index of the variant, which is its discriminant too. -/
def index (code : StatusCode) : UInt32 := UInt32.ofNat (all.idxOf code)

def ofIndex (index : UInt32) : Option StatusCode := all[index.toNat]?

end StatusCode

structure Status where
  id : UInt32
  code : StatusCode
  message : Text
  language : Text
  deriving DecidableEq

inductive Error where
  | serde (message : String)
  /-- The text of a `Utf8Error`. -/
  | utf8
  /-- "invalid value: integer, expected variant index 0 <= i < 14" -/
  | variant (index : UInt32)
  | status (status : Status)
  | packet (message : String)
  | timeout
  | unsupported
  | custom (message : String)
  deriving DecidableEq

/-- Why no value is returned. -/
inductive Fault where
  | error (e : Error)
  | panic

/-! ### Serializing -/

abbrev Output := Except Error Bytes

namespace Serializer

/-- What is written one after the other. -/
def concat : List Output → Output
  | [] => .ok []
  | first :: rest => do
    let head ← first
    let tail ← concat rest
    .ok (head ++ tail)

theorem concat_cons (x : Output) (xs : List Output) :
    concat (x :: xs) = x >>= fun head => concat xs >>= fun tail => .ok (head ++ tail) := rfl

theorem concat_append (xs ys : List Output) :
    concat (xs ++ ys) = concat xs >>= fun head => concat ys >>= fun tail => .ok (head ++ tail) := by
  induction xs with
  | nil =>
    simp only [List.nil_append, concat]
    cases concat ys <;> rfl
  | cons x xs ih =>
    rw [List.cons_append, concat_cons, concat_cons, ih]
    cases x with
    | error e => rfl
    | ok head =>
      cases concat xs with
      | error e => rfl
      | ok middle =>
        cases concat ys with
        | error e => rfl
        | ok tail => exact congrArg Except.ok (List.append_assoc ..).symm

theorem concat_append_ok {xs ys : List Output} {t : Bytes} (written : concat (xs ++ ys) = .ok t) :
    ∃ head tail, concat xs = .ok head ∧ concat ys = .ok tail ∧ t = head ++ tail := by
  rw [concat_append] at written
  cases first : concat xs with
  | error e =>
    rw [first] at written
    cases written
  | ok head =>
    cases second : concat ys with
    | error e =>
      rw [first, second] at written
      cases written
    | ok tail =>
      rw [first, second] at written
      cases written
      exact ⟨head, tail, rfl, rfl, rfl⟩

theorem concat_singleton (x : Output) : concat [x] = x := by
  cases x with
  | error e => rfl
  | ok t => exact congrArg Except.ok (List.append_nil t)

theorem concat_cons_ok {x : Output} {xs : List Output} {t : Bytes}
    (written : concat (x :: xs) = .ok t) :
    ∃ head tail, x = .ok head ∧ concat xs = .ok tail ∧ t = head ++ tail := by
  obtain ⟨head, tail, first, rest, whole⟩ := @concat_append_ok [x] xs t written
  exact ⟨head, tail, (concat_singleton x).symm.trans first, rest, whole⟩

/-- What was written, if it was. -/
def written (x : Output) : Bytes :=
  match x with
  | .ok t => t
  | .error _ => []

theorem concat_map_ok {α : Type} {each : α → Output} {items : List α} {t : Bytes}
    (ok : concat (items.map each) = .ok t) :
    (∀ item ∈ items, each item = .ok (written (each item))) ∧
      t = items.flatMap fun item => written (each item) := by
  induction items generalizing t with
  | nil =>
    cases ok
    exact ⟨nofun, rfl⟩
  | cons item items ih =>
    obtain ⟨head, tail, first, rest, rfl⟩ := concat_cons_ok ok
    obtain ⟨all, rfl⟩ := ih rest
    have here : each item = .ok (written (each item)) := by rw [first]; rfl
    refine ⟨?_, ?_⟩
    · simpa using ⟨here, all⟩
    · rw [List.flatMap_cons, first]
      rfl

def serializeU8 (v : UInt8) : Output := .ok [v]

def serializeU32 (v : UInt32) : Output := .ok (BigEndian.encode 4 v.toNat)

def serializeU64 (v : UInt64) : Output := .ok (BigEndian.encode 8 v.toNat)

def serializeBytes (v : Bytes) : Output :=
  if v.length < 2 ^ 32 then .ok (BigEndian.encode 4 v.length ++ v)
  else .error (.serde "bytes too long")

def serializeStr (v : Text) : Output := serializeBytes v.bytes

def serializeUnitVariant (index : UInt32) : Output := serializeU32 index

def seqHeader (len : Nat) : Output :=
  if len < 2 ^ 32 then .ok (BigEndian.encode 4 len) else .error (.serde "sequence too long")

def serializeSeq {α : Type} (each : α → Output) (items : List α) : Output :=
  concat (seqHeader items.length :: items.map each)

/-- `serialize_seq(None)` -/
def serializeElements {α : Type} (each : α → Output) (items : List α) : Output :=
  concat (items.map each)

def serializeEntry (entry : Text × Text) : Output :=
  concat [serializeStr entry.1, serializeStr entry.2]

def serializeMap (m : TextMap) : Output := serializeElements serializeEntry m.entries

end Serializer

/-- Where a value of `n` bytes fits a packet, exactly so many are written. -/
def Measured (x : Output) (n : Nat) : Prop :=
  n < 2 ^ 32 → ∃ out, x = .ok out ∧ out.length = n

namespace Measured
open Serializer

variable {x : Output} {xs : List Output} {n m : Nat}

theorem of_eq (measured : Measured x n) (same : n = m) : Measured x m := same ▸ measured

theorem nil : Measured (concat []) 0 := fun _ => ⟨[], rfl, rfl⟩

theorem cons (first : Measured x n) (rest : Measured (concat xs) m) :
    Measured (concat (x :: xs)) (n + m) := by
  intro fits
  obtain ⟨head, written, length⟩ := first (by omega)
  obtain ⟨tail, written', length'⟩ := rest (by omega)
  refine ⟨head ++ tail, ?_, ?_⟩
  · rw [concat, written, written']
    rfl
  · rw [List.length_append, length, length']

theorem append {ys : List Output} (first : Measured (concat xs) n)
    (rest : Measured (concat ys) m) : Measured (concat (xs ++ ys)) (n + m) := by
  intro fits
  obtain ⟨head, written, length⟩ := first (by omega)
  obtain ⟨tail, written', length'⟩ := rest (by omega)
  exact ⟨head ++ tail, by rw [concat_append, written, written']; rfl, by simp [length, length']⟩

theorem u32 (v : UInt32) : Measured (serializeU32 v) 4 :=
  fun _ => ⟨_, rfl, BigEndian.length_encode ..⟩

theorem u64 (v : UInt64) : Measured (serializeU64 v) 8 :=
  fun _ => ⟨_, rfl, BigEndian.length_encode ..⟩

theorem bytes (v : Bytes) : Measured (serializeBytes v) (4 + v.length) := by
  intro fits
  refine ⟨_, if_pos (by omega), ?_⟩
  rw [List.length_append, BigEndian.length_encode]

theorem str (v : Text) : Measured (serializeStr v) (4 + v.bytes.length) := bytes v.bytes

theorem elements {α : Type} {each : α → Output} {len : α → Nat}
    (measured : ∀ a, Measured (each a) (len a)) (items : List α) :
    Measured (serializeElements each items) (items.map len).sum := by
  induction items with
  | nil => exact nil
  | cons item items ih => exact (measured item).cons ih

/-- No item is empty, so their number fits four bytes where they do. -/
theorem seq {α : Type} {each : α → Output} {len : α → Nat}
    (measured : ∀ a, Measured (each a) (len a)) (nonempty : ∀ a, 0 < len a) (items : List α) :
    Measured (serializeSeq each items) (4 + (items.map len).sum) := by
  have count : items.length ≤ (items.map len).sum := by
    have least : ∀ n ∈ items.map len, 1 ≤ n := by
      intro n member
      obtain ⟨a, -, rfl⟩ := List.mem_map.mp member
      exact nonempty a
    simpa using List.length_le_sum_of_one_le _ least
  intro fits
  have header : Measured (seqHeader items.length) 4 :=
    fun _ => ⟨_, if_pos (by omega), BigEndian.length_encode ..⟩
  exact header.cons (elements measured items) fits

theorem byteSeq (v : Bytes) : Measured (serializeSeq serializeU8 v) (4 + v.length) := by
  have whole := seq (fun b _ => ⟨[b], rfl, rfl⟩ : ∀ b : UInt8, Measured (serializeU8 b) 1)
    (fun _ => Nat.one_pos) v
  simpa using whole

theorem byteElements (v : Bytes) : Measured (serializeElements serializeU8 v) v.length := by
  have whole := elements (fun b _ => ⟨[b], rfl, rfl⟩ : ∀ b : UInt8, Measured (serializeU8 b) 1) v
  simpa using whole

/-- The length of an entry. -/
def entryLen (entry : Text × Text) : Nat := 4 + entry.1.bytes.length + 4 + entry.2.bytes.length

theorem entry (entry : Text × Text) : Measured (serializeEntry entry) (entryLen entry) := by
  have fields := (str entry.1).cons ((str entry.2).cons nil)
  exact fields.of_eq (by simp only [entryLen]; omega)

end Measured

/-! ### Deserializing -/

/-- The state is the input that is left, with the number of bytes taken off it. -/
abbrev Deserializer := Reader UInt8 Fault

namespace Deserializer

def fail {α : Type} (e : Error) : Deserializer α := fun _ => .error (.error e)

/-- `self.input.first_chunk().ok_or(e)?` -/
def firstChunk (n : Nat) (e : Error) : Deserializer Bytes := fun de =>
  if n ≤ de.rest.length then .ok (de.rest.take n, de) else .error (.error e)

/-- `self.input.get(start..start + len).ok_or(e)?` -/
def range (start len : Nat) (e : Error) : Deserializer Bytes := fun de =>
  if start + len ≤ de.rest.length then .ok ((de.rest.drop start).take len, de)
  else .error (.error e)

/-- `self.input = &self.input[n..]` -/
def advance (n : Nat) : Deserializer Unit := fun de =>
  if n ≤ de.rest.length then .ok ((), ⟨de.pos + n, de.rest.drop n⟩) else .error .panic

/-- `self.input.split_off(..n).ok_or(e)?` -/
def splitOff (n : Nat) (e : Error) : Deserializer Bytes := fun de =>
  if n ≤ de.rest.length then .ok (de.rest.take n, ⟨de.pos + n, de.rest.drop n⟩)
  else .error (.error e)

def deserializeU8 : Deserializer UInt8 := fun de =>
  match de.rest with
  | [] => .error (.error (.serde "u8 not enough"))
  | b :: rest => .ok (b, ⟨de.pos + 1, rest⟩)

/-- An integer of so many bytes. -/
def chunk (width : Nat) (message : String) : Deserializer Nat := do
  let b ← firstChunk width (.serde message)
  advance width
  pure (BigEndian.decode b)

def deserializeU32 : Deserializer UInt32 := UInt32.ofNat <$> chunk 4 "u32 not enough"

def deserializeU64 : Deserializer UInt64 := UInt64.ofNat <$> chunk 8 "u64 not enough"

def utf8 (b : Bytes) : Deserializer Text :=
  if valid : Utf8.isUtf8 b = true then pure ⟨b, valid⟩ else fail .utf8

def deserializeStr : Deserializer Text := do
  let len ← chunk 4 "invalid string length"
  let b ← splitOff len (.serde "string not enough")
  utf8 b

def deserializeBytes : Deserializer Bytes := do
  let b ← firstChunk 4 (.serde "invalid bytes length")
  let len := BigEndian.decode b
  let b ← range 4 len (.serde "bytes not enough")
  advance (4 + len)
  pure b

/-- A visitor of a `SeqDeserializer`, whose state is `remaining`. -/
abbrev SeqVisitor (α : Type) := StateT Nat Deserializer α

/-- `next_element` -/
def nextElement {α : Type} (each : Deserializer α) : SeqVisitor (Option α) := fun remaining =>
  match remaining with
  | 0 => pure (none, 0)
  | remaining + 1 => do
    let a ← each
    pure (some a, remaining)

/-- `while let Some(a) = seq.next_element()?`, which ends when nothing remains. -/
def visitSeq {α : Type} (each : Deserializer α) : SeqVisitor (List α) := fun remaining => do
  let items ← each.times remaining
  pure (items, 0)

/-- Each element takes a byte at least, as far as `remaining` knows. -/
def deserializeAny {α : Type} (visitor : SeqVisitor α) : Deserializer α := fun de =>
  (Prod.fst <$> visitor de.rest.length) de

def deserializeSeq {α : Type} (each : Deserializer α) : Deserializer (List α) := do
  let len ← chunk 4 "invalid seq length"
  Prod.fst <$> visitSeq each len

def entry : Deserializer (Text × Text) := do
  let k ← deserializeStr
  let v ← deserializeStr
  pure (k, v)

/-! #### No panics -/

theorem chunk_apply (width : Nat) (message : String) (de : Cursor UInt8) :
    chunk width message de =
      if width ≤ de.rest.length then
        .ok (BigEndian.decode (de.rest.take width), ⟨de.pos + width, de.rest.drop width⟩)
      else .error (.error (.serde message)) := by
  by_cases enough : width ≤ de.rest.length
  · simp only [chunk, firstChunk, advance, bind, StateT.bind, Except.bind, enough, if_true]
    rfl
  · simp only [chunk, firstChunk, bind, StateT.bind, Except.bind, enough, if_false]

/-- Taking so many bytes that are there. -/
theorem before_drop {de : Cursor UInt8} {n : Nat} (enough : n ≤ de.rest.length) :
    de.Before ⟨de.pos + n, de.rest.drop n⟩ :=
  ⟨de.rest.take n, (List.take_append_drop ..).symm, by rw [List.length_take_of_le enough]⟩

section Orderly
open Reader (Orderly)

variable {α : Type}

theorem orderly_fail (e : Error) : Orderly Fault.panic (fail e : Deserializer α) := fun _ => nofun

theorem orderly_splitOff (n : Nat) (e : Error) : Orderly .panic (splitOff n e) := by
  intro de
  simp only [splitOff]
  split
  · next enough => exact before_drop enough
  · exact nofun

theorem orderly_deserializeU8 : Orderly .panic deserializeU8 := by
  rintro ⟨pos, _ | ⟨b, rest⟩⟩
  · exact nofun
  · exact ⟨[b], rfl, rfl⟩

theorem orderly_chunk (width : Nat) (message : String) : Orderly .panic (chunk width message) := by
  intro de
  rw [chunk_apply]
  split
  · next enough => exact before_drop enough
  · exact nofun

theorem orderly_deserializeU32 : Orderly .panic deserializeU32 :=
  (orderly_chunk _ _).bind fun _ => Orderly.pure _

theorem orderly_deserializeU64 : Orderly .panic deserializeU64 :=
  (orderly_chunk _ _).bind fun _ => Orderly.pure _

theorem orderly_utf8 (b : Bytes) : Orderly .panic (utf8 b) := by
  simp only [utf8]
  split
  · exact Orderly.pure _
  · exact orderly_fail _

theorem orderly_deserializeStr : Orderly .panic deserializeStr :=
  (orderly_chunk _ _).bind fun _ => (orderly_splitOff _ _).bind fun _ => orderly_utf8 _

theorem orderly_entry : Orderly .panic entry :=
  orderly_deserializeStr.bind fun _ => orderly_deserializeStr.bind fun _ => Orderly.pure _

/-- A visitor whose reads are orderly, however many elements remain. -/
def Steady (visitor : SeqVisitor α) : Prop := ∀ remaining, Orderly Fault.panic (visitor remaining)

namespace Steady

variable {β : Type} {visitor : SeqVisitor α} {f : α → SeqVisitor β}

theorem pure (a : α) : Steady (Pure.pure a) := fun _ => Orderly.pure _

theorem bind (first : Steady visitor) (next : ∀ a, Steady (f a)) : Steady (visitor >>= f) :=
  fun remaining => (first remaining).bind fun value => next value.1 value.2

theorem nextElement {each : Deserializer α} (orderly : Orderly .panic each) :
    Steady (nextElement each) := by
  intro remaining
  cases remaining with
  | zero => exact Orderly.pure _
  | succ remaining => exact orderly.bind fun _ => Orderly.pure _

theorem visitSeq {each : Deserializer α} (orderly : Orderly .panic each) :
    Steady (visitSeq each) :=
  fun remaining => (orderly.times remaining).bind fun _ => Orderly.pure _

theorem deserializeAny (steady : Steady visitor) : Orderly .panic (deserializeAny visitor) :=
  fun de => ((steady de.rest.length).bind fun _ => Orderly.pure _) de

end Steady

theorem orderly_deserializeSeq {each : Deserializer α} (orderly : Orderly .panic each) :
    Orderly .panic (deserializeSeq each) :=
  (orderly_chunk _ _).bind fun _ =>
    (Steady.visitSeq orderly _).bind fun _ => Orderly.pure _

end Orderly

/-! #### Maps -/

theorem deserializeStr_shrinks {de de' : Cursor UInt8} {v : Text}
    (ok : deserializeStr de = .ok (v, de')) : de'.rest.length < de.rest.length := by
  obtain ⟨len, middle, header, rest⟩ := Reader.bind_ok ok
  rw [chunk_apply] at header
  split at header
  · next enough =>
    cases header
    have body : ∀ len, Reader.Orderly .panic (splitOff len (.serde "string not enough") >>= utf8) :=
      fun len => (orderly_splitOff len _).bind orderly_utf8
    have shorter := ((body _ _).of_ok rest).length_le
    rw [List.length_drop] at shorter
    omega
  · cases header

theorem entry_shrinks (de : Cursor UInt8) (a : Text × Text) (de' : Cursor UInt8)
    (ok : entry de = .ok (a, de')) : de'.rest.length < de.rest.length := by
  obtain ⟨k, middle, key, rest⟩ := Reader.bind_ok ok
  obtain ⟨v, last, value, done⟩ := Reader.bind_ok rest
  cases done
  exact (deserializeStr_shrinks value).trans (deserializeStr_shrinks key)

/-- A `HashMap`, whose entries go on until the input ends. -/
def deserializeMap : Deserializer TextMap :=
  TextMap.collect default <$> Reader.untilEnd entry entry_shrinks

theorem orderly_deserializeMap : Reader.Orderly .panic deserializeMap :=
  (orderly_entry.untilEnd entry_shrinks).bind fun _ => Reader.Orderly.pure _

/-! #### What was serialized -/

section Returns
open Reader (Returns)

theorem returns_chunk {width n : Nat} (fits : n < 256 ^ width) (message : String) :
    Returns (chunk width message) (BigEndian.encode width n) n := by
  apply Returns.of_result
  intro pos rest
  have length := BigEndian.length_encode width n
  rw [chunk_apply, if_pos (by rw [List.length_append]; omega),
    List.take_left' length, List.drop_left' length, BigEndian.decode_encode fits, length]

theorem returns_deserializeU32 (v : UInt32) :
    Returns deserializeU32 (BigEndian.encode 4 v.toNat) v := by
  have fits : v.toNat < 256 ^ 4 := v.toNat_lt
  have returns := (returns_chunk fits "u32 not enough").map UInt32.ofNat
  rwa [UInt32.ofNat_toNat] at returns

theorem returns_deserializeU64 (v : UInt64) :
    Returns deserializeU64 (BigEndian.encode 8 v.toNat) v := by
  have fits : v.toNat < 256 ^ 8 := v.toNat_lt
  have returns := (returns_chunk fits "u64 not enough").map UInt64.ofNat
  rwa [UInt64.ofNat_toNat] at returns

theorem returns_splitOff (v : Bytes) (e : Error) : Returns (splitOff v.length e) v v := by
  apply Returns.of_result
  intro pos rest
  rw [splitOff, if_pos (by rw [List.length_append]; omega), List.take_left, List.drop_left]

theorem returns_utf8 (v : Text) : Returns (utf8 v.bytes) [] v := by
  rw [utf8, dif_pos v.valid]
  exact Returns.pure v

theorem returns_deserializeStr {v : Text} (fits : v.bytes.length < 2 ^ 32) :
    Returns deserializeStr (BigEndian.encode 4 v.bytes.length ++ v.bytes) v :=
  (returns_chunk fits _).bind ((returns_splitOff v.bytes _).finish (returns_utf8 v))

theorem returns_deserializeU8 (b : UInt8) : Returns deserializeU8 [b] b :=
  Returns.of_result fun _ _ => rfl

/-- A sequence whose items arrive with values of their own. -/
theorem returns_deserializeSeq {α β : Type} {write : β → Output} {each : Deserializer α}
    {value : β → α} (returns : ∀ item t, write item = .ok t → Returns each t (value item))
    {items : List β} {t : Bytes} (ok : Serializer.serializeSeq write items = .ok t) :
    Returns (deserializeSeq each) t (items.map value) := by
  obtain ⟨header, body, counted, written, rfl⟩ := Serializer.concat_cons_ok ok
  obtain ⟨all, rfl⟩ := Serializer.concat_map_ok written
  simp only [Serializer.seqHeader] at counted
  split at counted
  · next fits =>
    cases counted
    have visit : Returns (visitSeq each items.length) _ (items.map value, 0) :=
      (Returns.times fun item member => returns item _ (all item member)).finish (Returns.pure _)
    exact (returns_chunk fits _).bind (visit.map Prod.fst)
  · cases counted

theorem returns_vec {v t : Bytes}
    (ok : Serializer.serializeSeq Serializer.serializeU8 v = .ok t) :
    Returns (deserializeSeq deserializeU8) t v := by
  have each : ∀ b t, Serializer.serializeU8 b = .ok t → Returns deserializeU8 t (id b) := by
    rintro b t ⟨⟩
    exact returns_deserializeU8 b
  have items := returns_deserializeSeq each ok
  rwa [List.map_id] at items

/-! #### What is visited -/

/-- The visitor makes a value of what was written. As long as no more elements remain than
there are bytes, there is one where the next was written. -/
def Visits {α : Type} (visitor : SeqVisitor α) (x : Output) (a : α) : Prop :=
  ∀ t, x = .ok t → ∀ pos rest remaining, (t ++ rest).length ≤ remaining →
    ∃ left, rest.length ≤ left ∧
      visitor remaining ⟨pos, t ++ rest⟩ = .ok ((a, left), ⟨pos + t.length, rest⟩)

namespace Visits
open Serializer

variable {α β : Type} {visitor : SeqVisitor α} {f : α → SeqVisitor β} {xs ys : List Output}
  {a : α} {b : β}

theorem pure (a : α) : Visits (Pure.pure a) (concat []) a := by
  intro t written pos rest remaining room
  cases written
  exact ⟨remaining, room, rfl⟩

theorem bind (first : Visits visitor (concat xs) a) (next : Visits (f a) (concat ys) b) :
    Visits (visitor >>= f) (concat (xs ++ ys)) b := by
  intro t written pos rest remaining room
  obtain ⟨before, after, head, tail, rfl⟩ := concat_append_ok written
  rw [List.append_assoc] at room ⊢
  obtain ⟨middle, enough, visited⟩ := first before head pos (after ++ rest) remaining room
  obtain ⟨left, still, visited'⟩ := next after tail (pos + before.length) rest middle enough
  refine ⟨left, still, ?_⟩
  change Except.bind (visitor remaining ⟨pos, before ++ (after ++ rest)⟩) _ = _
  rw [visited, List.length_append, ← Nat.add_assoc]
  exact visited'

theorem finish (first : Visits visitor (concat xs) a) (next : Visits (f a) (concat []) b) :
    Visits (visitor >>= f) (concat xs) b := by
  have whole := first.bind next
  rwa [List.append_nil] at whole

theorem nextElement {each : Deserializer α} {x : Output}
    (returns : ∀ t, x = .ok t → t ≠ [] ∧ Returns each t a) :
    Visits (nextElement each) (concat [x]) (some a) := by
  intro t written pos rest remaining room
  rw [concat_singleton] at written
  obtain ⟨nonempty, returns⟩ := returns t written
  have some := List.length_pos_iff.mpr nonempty
  rw [List.length_append] at room
  obtain ⟨left, rfl⟩ : ∃ left, remaining = left + 1 := ⟨remaining - 1, by omega⟩
  refine ⟨left, by omega, ?_⟩
  change Except.bind (each ⟨pos, t ++ rest⟩) _ = _
  rw [returns.result]
  rfl

theorem u32 (v : UInt32) : Visits (Deserializer.nextElement deserializeU32)
    (concat [serializeU32 v]) (some v) := by
  apply nextElement
  rintro t ⟨⟩
  exact ⟨List.ne_nil_of_length_pos (by simp), returns_deserializeU32 v⟩

theorem u64 (v : UInt64) : Visits (Deserializer.nextElement deserializeU64)
    (concat [serializeU64 v]) (some v) := by
  apply nextElement
  rintro t ⟨⟩
  exact ⟨List.ne_nil_of_length_pos (by simp), returns_deserializeU64 v⟩

theorem str (v : Text) : Visits (Deserializer.nextElement deserializeStr)
    (concat [serializeStr v]) (some v) := by
  apply nextElement
  intro t written
  simp only [serializeStr, serializeBytes] at written
  split at written
  · next fits =>
    cases written
    have nonempty : 0 < (BigEndian.encode 4 v.bytes.length ++ v.bytes).length := by
      rw [List.length_append, BigEndian.length_encode]
      omega
    exact ⟨List.ne_nil_of_length_pos nonempty, returns_deserializeStr fits⟩
  · cases written

theorem deserializeAny {t : Bytes} (visits : Visits visitor (.ok t) a) :
    Returns (deserializeAny visitor) t a := by
  apply Returns.of_result
  intro pos rest
  obtain ⟨left, -, visited⟩ := visits t rfl pos rest _ (Nat.le_refl _)
  change Except.bind (visitor _ ⟨pos, t ++ rest⟩) _ = _
  rw [visited]
  rfl

end Visits

end Returns

end Deserializer

end Yazi.Sftp
