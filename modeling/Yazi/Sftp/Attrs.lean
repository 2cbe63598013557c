import Yazi.Sftp.Serde

/-!
File attributes, each of which may be missing.

The flags in front say which attributes follow. The protocol has one flag for both ids and
one for both times, so where one of a pair is there, zero is sent for a missing other.
-/
namespace Yazi.Sftp
open Base Shared

structure Attrs where
  size : Option UInt64
  uid : Option UInt32
  gid : Option UInt32
  perm : Option UInt32
  atime : Option UInt32
  mtime : Option UInt32
  extended : TextMap
  deriving DecidableEq

namespace Attrs
open Serializer Deserializer

instance : Inhabited Attrs := ⟨none, none, none, none, none, none, default⟩

def hasIds (a : Attrs) : Bool := a.uid.isSome || a.gid.isSome

def hasTimes (a : Attrs) : Bool := a.atime.isSome || a.mtime.isSome

def hasExtended (a : Attrs) : Bool := !a.extended.entries.isEmpty

def len (a : Attrs) : Nat :=
  4 + (if a.size.isSome then 8 else 0) + (if a.hasIds then 4 + 4 else 0) +
    (if a.perm.isSome then 4 else 0) + (if a.hasTimes then 4 + 4 else 0) +
    (if a.hasExtended then 4 + (a.extended.entries.map Measured.entryLen).sum else 0)

/-! ### Serializing -/

def flagsOf (size ids perm times extended : Bool) : UInt32 :=
  (if size then 0x1 else 0) ||| (if ids then 0x2 else 0) ||| (if perm then 0x4 else 0) |||
    (if times then 0x8 else 0) ||| (if extended then 0x80000000 else 0)

def flags (a : Attrs) : UInt32 :=
  flagsOf a.size.isSome a.hasIds a.perm.isSome a.hasTimes a.hasExtended

/-- `self.extended.len() as u32` -/
def extendedCount (a : Attrs) : UInt32 := UInt32.ofNat a.extended.entries.length

def sizeField (a : Attrs) : List Output :=
  match a.size with
  | some size => [serializeU64 size]
  | none => []

def idFields (a : Attrs) : List Output :=
  if a.hasIds then [serializeU32 (a.uid.getD 0), serializeU32 (a.gid.getD 0)] else []

def permField (a : Attrs) : List Output :=
  match a.perm with
  | some perm => [serializeU32 perm]
  | none => []

def timeFields (a : Attrs) : List Output :=
  if a.hasTimes then [serializeU32 (a.atime.getD 0), serializeU32 (a.mtime.getD 0)] else []

def pairFields (entries : List (Text × Text)) : List Output :=
  entries.flatMap fun entry => [serializeStr entry.1, serializeStr entry.2]

def extendedFields (a : Attrs) : List Output :=
  if a.hasExtended then
    serializeU32 a.extendedCount :: pairFields (a.extended.entries.take a.extendedCount.toNat)
  else []

def serialize (a : Attrs) : Output :=
  concat ([serializeU32 a.flags] ++ (a.sizeField ++ (a.idFields ++ (a.permField ++
    (a.timeFields ++ a.extendedFields)))))

/-! ### Deserializing -/

/-- `if b & mask != 0 { seq.next_element()? }` -/
def flagged {α : Type} (b mask : UInt32) (each : Deserializer α) : SeqVisitor (Option α) :=
  if b &&& mask ≠ 0 then nextElement each else pure none

/-- `for _ in 0..count` -/
def visitPairs : Nat → TextMap → SeqVisitor TextMap
  | 0, m => pure m
  | count + 1, m => do
    let k ← nextElement deserializeStr
    let v ← nextElement deserializeStr
    visitPairs count (m.insert (k.getD default) (v.getD default))

def visitExtended (b : UInt32) : SeqVisitor TextMap :=
  if b &&& 0x80000000 ≠ 0 then do
    let count ← nextElement deserializeU32
    visitPairs (count.getD 0).toNat default
  else pure default

def visitFields (b : UInt32) : SeqVisitor Attrs := do
  let size ← flagged b 0x1 deserializeU64
  let uid ← flagged b 0x2 deserializeU32
  let gid ← flagged b 0x2 deserializeU32
  let perm ← flagged b 0x4 deserializeU32
  let atime ← flagged b 0x8 deserializeU32
  let mtime ← flagged b 0x8 deserializeU32
  let extended ← visitExtended b
  pure ⟨size, uid, gid, perm, atime, mtime, extended⟩

def visitor : SeqVisitor Attrs := do
  let b ← nextElement deserializeU32
  visitFields (b.getD 0)

def deserialize : Deserializer Attrs := deserializeAny visitor

/-! ### The length is right -/

theorem measured_pairs (entries : List (Text × Text)) :
    Measured (concat (pairFields entries)) (entries.map Measured.entryLen).sum := by
  induction entries with
  | nil => exact Measured.nil
  | cons entry entries ih =>
    exact (Measured.entry entry).append ih

theorem length_le_entryLen (entries : List (Text × Text)) :
    entries.length ≤ (entries.map Measured.entryLen).sum := by
  have least : ∀ n ∈ entries.map Measured.entryLen, 1 ≤ n := by
    intro n member
    obtain ⟨entry, -, rfl⟩ := List.mem_map.mp member
    simp only [Measured.entryLen]
    omega
  simpa using List.length_le_sum_of_one_le _ least

theorem extendedCount_toNat {a : Attrs} (fits : a.extended.entries.length < 2 ^ 32) :
    a.extendedCount.toNat = a.extended.entries.length := by
  rw [extendedCount, UInt32.toNat_ofNat']
  exact Nat.mod_eq_of_lt fits

/-- Where the entries fit a packet, their number is not truncated. -/
theorem measured_extended (a : Attrs) : Measured (concat a.extendedFields)
    (if a.hasExtended then 4 + (a.extended.entries.map Measured.entryLen).sum else 0) := by
  simp only [extendedFields]
  cases a.hasExtended with
  | false => exact Measured.nil
  | true =>
    intro fits
    simp only [if_true] at fits ⊢
    have few := length_le_entryLen a.extended.entries
    rw [extendedCount_toNat (by omega), List.take_length]
    exact (Measured.u32 _).cons (measured_pairs _) fits

theorem measured_serialize (a : Attrs) : Measured a.serialize a.len := by
  have size : Measured (concat a.sizeField) (if a.size.isSome then 8 else 0) := by
    simp only [sizeField]
    cases a.size with
    | none => exact Measured.nil
    | some size => exact (Measured.u64 size).cons Measured.nil
  have perm : Measured (concat a.permField) (if a.perm.isSome then 4 else 0) := by
    simp only [permField]
    cases a.perm with
    | none => exact Measured.nil
    | some perm => exact (Measured.u32 perm).cons Measured.nil
  have ids : Measured (concat a.idFields) (if a.hasIds then 4 + 4 else 0) := by
    simp only [idFields]
    cases a.hasIds with
    | false => exact Measured.nil
    | true => exact (Measured.u32 _).cons ((Measured.u32 _).cons Measured.nil)
  have times : Measured (concat a.timeFields) (if a.hasTimes then 4 + 4 else 0) := by
    simp only [timeFields]
    cases a.hasTimes with
    | false => exact Measured.nil
    | true => exact (Measured.u32 _).cons ((Measured.u32 _).cons Measured.nil)
  have flags : Measured (concat [serializeU32 a.flags]) 4 := (Measured.u32 _).cons Measured.nil
  have whole := flags.append (size.append (ids.append
    (perm.append (times.append a.measured_extended))))
  intro fits
  simp only [len, Nat.add_assoc] at fits ⊢
  exact whole fits

/-! ### No panics -/

theorem steady_flagged {α : Type} (b mask : UInt32) {each : Deserializer α}
    (orderly : Reader.Orderly .panic each) : Steady (flagged b mask each) := by
  simp only [flagged]
  split
  · exact Steady.nextElement orderly
  · exact Steady.pure _

theorem steady_visitPairs (count : Nat) (m : TextMap) : Steady (visitPairs count m) := by
  have text := Steady.nextElement orderly_deserializeStr
  induction count generalizing m with
  | zero => exact Steady.pure _
  | succ count ih => exact text.bind fun k => text.bind fun v => ih _

theorem steady_visitExtended (b : UInt32) : Steady (visitExtended b) := by
  simp only [visitExtended]
  split
  · exact (Steady.nextElement orderly_deserializeU32).bind fun _ => steady_visitPairs _ _
  · exact Steady.pure _

theorem orderly_deserialize : Reader.Orderly .panic deserialize := by
  have u32 := fun b mask => steady_flagged b mask orderly_deserializeU32
  apply Steady.deserializeAny
  apply (Steady.nextElement orderly_deserializeU32).bind
  intro b
  apply (steady_flagged _ _ orderly_deserializeU64).bind
  intro size
  refine (u32 _ _).bind fun uid => (u32 _ _).bind fun gid => (u32 _ _).bind fun perm => ?_
  refine (u32 _ _).bind fun atime => (u32 _ _).bind fun mtime => ?_
  exact (steady_visitExtended _).bind fun extended => Steady.pure _

/-! ### The round trip -/

/-- What is sent of one of a pair. -/
def sentOf (has : Bool) (v : Option UInt32) : Option UInt32 := if has then some (v.getD 0) else none

/-- What arrives: a missing one of a pair is zero, and of the entries come as many as their
number in four bytes says. -/
def sent (a : Attrs) : Attrs where
  size := a.size
  uid := sentOf a.hasIds a.uid
  gid := sentOf a.hasIds a.gid
  perm := a.perm
  atime := sentOf a.hasTimes a.atime
  mtime := sentOf a.hasTimes a.mtime
  extended :=
    ⟨a.extended.entries.take a.extendedCount.toNat,
      a.extended.distinct.sublist (List.take_sublist ..)⟩

private theorem flags_test (size ids perm times extended : Bool) :
    let b := flagsOf size ids perm times extended
    decide (b &&& 0x1 ≠ 0) = size ∧ decide (b &&& 0x2 ≠ 0) = ids ∧
      decide (b &&& 0x4 ≠ 0) = perm ∧ decide (b &&& 0x8 ≠ 0) = times ∧
      decide (b &&& 0x80000000 ≠ 0) = extended := by
  revert size ids perm times extended
  decide

section visits

variable {α : Type} {each : Deserializer α} {b mask : UInt32}

private theorem visits_absent (clear : decide (b &&& mask ≠ 0) = false) :
    Visits (flagged b mask each) (concat []) none := by
  rw [flagged, if_neg (of_decide_eq_false clear)]
  exact Visits.pure none

private theorem visits_present {x : Output} {v : α} (set : decide (b &&& mask ≠ 0) = true)
    (visits : Visits (nextElement each) (concat [x]) (some v)) :
    Visits (flagged b mask each) (concat [x]) (some v) := by
  rwa [flagged, if_pos (of_decide_eq_true set)]

/-- One of a pair, with the flag of the pair. -/
private theorem visits_paired {has : Bool} (flag : decide (b &&& mask ≠ 0) = has)
    (v : Option UInt32) : Visits (flagged b mask deserializeU32)
      (concat (if has then [serializeU32 (v.getD 0)] else [])) (sentOf has v) := by
  cases has with
  | false => exact visits_absent flag
  | true => exact visits_present flag (Visits.u32 _)

private theorem visits_size {a : Attrs} (flag : decide (b &&& mask ≠ 0) = a.size.isSome) :
    Visits (flagged b mask deserializeU64) (concat a.sizeField) a.size := by
  simp only [sizeField]
  cases there : a.size with
  | none => exact visits_absent (flag.trans (there ▸ rfl))
  | some size => exact visits_present (flag.trans (there ▸ rfl)) (Visits.u64 size)

private theorem visits_perm {a : Attrs} (flag : decide (b &&& mask ≠ 0) = a.perm.isSome) :
    Visits (flagged b mask deserializeU32) (concat a.permField) a.perm := by
  simp only [permField]
  cases there : a.perm with
  | none => exact visits_absent (flag.trans (there ▸ rfl))
  | some perm => exact visits_present (flag.trans (there ▸ rfl)) (Visits.u32 perm)

end visits

/-- The entries are new to the map, in which they follow those before them. -/
private theorem visits_pairs {before entries : List (Text × Text)}
    (first : Assoc.Distinct before) (distinct : Assoc.Distinct (before ++ entries)) :
    Visits (visitPairs entries.length ⟨before, first⟩) (concat (pairFields entries))
      ⟨before ++ entries, distinct⟩ := by
  induction entries generalizing before with
  | nil =>
    simp only [List.append_nil]
    exact Visits.pure _
  | cons entry entries ih =>
    have new : ∀ old ∈ before, (entry.1 == old.1) = false := fun old member =>
      (BEq.comm ..).trans ((List.pairwise_append.mp distinct).2.2 old member entry
        (List.mem_cons_self ..))
    have added : Assoc.insert before entry.1 entry.2 = before ++ [entry] :=
      Assoc.insert_of_new entry.2 new
    have whole : before ++ entry :: entries = (before ++ [entry]) ++ entries := by simp
    have step : TextMap.insert ⟨before, first⟩ entry.1 entry.2 =
        ⟨before ++ [entry], added ▸ first.insert entry.1 entry.2⟩ :=
      TextMap.mk.injEq .. ▸ added
    simp only [whole] at distinct ⊢
    refine (Visits.str entry.1).bind ((Visits.str entry.2).bind ?_)
    simp only [Option.getD_some, step]
    exact ih _ distinct

private theorem visits_extended {a : Attrs} {b : UInt32}
    (flag : decide (b &&& 0x80000000 ≠ 0) = a.hasExtended) :
    Visits (visitExtended b) (concat a.extendedFields) a.sent.extended := by
  simp only [visitExtended, extendedFields]
  cases has : a.hasExtended with
  | false =>
    rw [if_neg (of_decide_eq_false (flag.trans has))]
    have none : a.extended.entries = [] := by simpa [hasExtended] using has
    simp only [sent, none, List.take_nil]
    exact Visits.pure _
  | true =>
    rw [if_pos (of_decide_eq_true (flag.trans has))]
    -- The number in four bytes is at most the number of the entries.
    have few : a.extendedCount.toNat ≤ a.extended.entries.length := by
      rw [extendedCount, UInt32.toNat_ofNat']
      exact Nat.mod_le ..
    have distinct : Assoc.Distinct ([] ++ a.extended.entries.take a.extendedCount.toNat) :=
      a.sent.extended.distinct
    have pairs := visits_pairs List.Pairwise.nil distinct
    rw [List.length_take_of_le few] at pairs
    exact (Visits.u32 a.extendedCount).bind pairs

theorem visits_visitor (a : Attrs) : Visits visitor a.serialize a.sent := by
  obtain ⟨size, ids, perm, times, extended⟩ :=
    flags_test a.size.isSome a.hasIds a.perm.isSome a.hasTimes a.hasExtended
  have idFields : a.idFields = (if a.hasIds then [serializeU32 (a.uid.getD 0)] else []) ++
      if a.hasIds then [serializeU32 (a.gid.getD 0)] else [] := by
    rw [Attrs.idFields]
    cases a.hasIds <;> rfl
  have timeFields : a.timeFields = (if a.hasTimes then [serializeU32 (a.atime.getD 0)] else []) ++
      if a.hasTimes then [serializeU32 (a.mtime.getD 0)] else [] := by
    rw [Attrs.timeFields]
    cases a.hasTimes <;> rfl
  rw [serialize, idFields, timeFields]
  simp only [List.append_assoc]
  apply (Visits.u32 a.flags).bind
  apply (visits_size size).bind
  apply (visits_paired ids a.uid).bind
  apply (visits_paired ids a.gid).bind
  apply (visits_perm perm).bind
  apply (visits_paired times a.atime).bind
  apply (visits_paired times a.mtime).bind
  exact (visits_extended extended).finish (Visits.pure a.sent)

/-- Decoding stops at the end of what was encoded. -/
theorem returns_deserialize {a : Attrs} {t : Bytes} (written : a.serialize = .ok t) :
    Reader.Returns deserialize t a.sent :=
  Visits.deserializeAny (written ▸ a.visits_visitor)

end Attrs

end Yazi.Sftp
