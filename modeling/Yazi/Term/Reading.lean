import Yazi.Term.Packet

/-!
Reading the clipboard: from its packets to the one event.

The types and the payloads are kept in two lists of one length. A packet of the last type extends
the last payload, and a packet of a type that was not there begins both anew.
-/
namespace Yazi.Term
open Yazi.Base Yazi.Shared

/-- What a packet of a reply to a read tells: its status, and the type it is about. -/
structure Packet.Tells (lib : Library) (stat : Bytes) (about : Option Text) (pass : Text)
    (k : Packet) : Prop where
  clean : k.Clean
  type : ∀ f ∈ k.fields, f.key = text "type" → f.value = text "read"
  status : ∀ f ∈ k.fields, f.key = text "status" → f.value = stat
  stated : ∃ f ∈ k.fields, f.key = text "status"
  mime : ∀ f ∈ k.fields, f.key = text "mime" → ∃ m ∈ about, decodeText lib f.value = .ok m
  named : about ≠ none → ∃ f ∈ k.fields, f.key = text "mime"
  pw : ∀ f ∈ k.fields, f.key = text "pw" → decodeText lib f.value = .ok pass

/-- The types after one of them was named. -/
def announce (about : Option Text) (mimes : List Text) : List Text :=
  match about with
  | none => mimes
  | some m => if mimes.getLast? = some m then mimes else mimes ++ [m]

theorem announce_announce (about : Option Text) (mimes : List Text) :
    announce about (announce about mimes) = announce about mimes := by
  cases about with
  | none => rfl
  | some m => by_cases last : mimes.getLast? = some m <;> simp [announce, last]

variable {lib : Library} {stat : Bytes} {about : Option Text} {pass : Text}

/-- What the fields of a packet make of the state. -/
structure Told (stat : Bytes) (about : Option Text) (pass : Text) (fields : List Field)
    (s s' : StateOsc5522) : Prop where
  write : s'.write = false
  payload : s'.payload = s.payload
  pw : s'.pw = s.pw ∨ s'.pw = pass
  mimes : s'.mimes =
    if ∃ f ∈ fields, f.key = text "mime" then announce about s.mimes else s.mimes
  status : s'.status = if ∃ f ∈ fields, f.key = text "status" then stat else s.status
  hasMore : s'.hasMore =
    if ∃ f ∈ fields, f.key = text "status" then decide (stat = text "OK" ∨ stat = text "DATA")
    else s.hasMore

theorem pair_told {f : Field} {s : StateOsc5522} (reads : s.write = false) (clean : 0x3d ∉ f.key)
    (type : f.key = text "type" → f.value = text "read")
    (status : f.key = text "status" → f.value = stat)
    (mime : f.key = text "mime" → ∃ m ∈ about, decodeText lib f.value = .ok m)
    (pw : f.key = text "pw" → decodeText lib f.value = .ok pass) :
    ∃ s', osc5522Pair lib s f.bytes = .ok s' ∧ Told stat about pass [f] s s' := by
  have split : splitSeqOnce [0x3d] f.bytes = some (f.key, f.value) := splitSeqOnce_byte clean _
  have noType : text "mime" ≠ text "type" ∧ text "status" ≠ text "type" := by decide
  have noLoc : text "mime" ≠ text "loc" ∧ text "status" ≠ text "loc" := by decide
  have noPw : text "mime" ≠ text "pw" ∧ text "status" ≠ text "pw" := by decide
  have apart : text "mime" ≠ text "status" := by decide
  simp only [osc5522Pair, split, orInvalid, bind, Except.bind]
  by_cases isType : f.key = text "type"
  · have read : f.value ≠ text "write" := by
      rw [type isType]
      decide
    rw [if_pos isType]
    refine ⟨_, rfl, ⟨by simp [read], rfl, .inl rfl, ?_, ?_, ?_⟩⟩ <;>
      simp [isType, noType.1.symm, noType.2.symm]
  rw [if_neg isType]
  by_cases isLoc : f.key = text "loc"
  · rw [if_pos isLoc]
    refine ⟨_, rfl, ⟨reads, rfl, .inl rfl, ?_, ?_, ?_⟩⟩ <;>
      simp [isLoc, noLoc.1.symm, noLoc.2.symm]
  rw [if_neg isLoc]
  by_cases isMime : f.key = text "mime"
  · obtain ⟨m, named, decoded⟩ := mime isMime
    cases named
    rw [if_pos isMime, decoded]
    refine ⟨_, rfl, ⟨reads, rfl, .inl rfl, ?_, ?_, ?_⟩⟩ <;> simp [isMime, apart, announce]
  rw [if_neg isMime]
  by_cases isPw : f.key = text "pw"
  · rw [if_pos isPw, pw isPw]
    refine ⟨_, rfl, ⟨reads, rfl, .inr rfl, ?_, ?_, ?_⟩⟩ <;> simp [isPw, noPw.1.symm, noPw.2.symm]
  rw [if_neg isPw]
  by_cases isStatus : f.key = text "status"
  · rw [if_pos isStatus, status isStatus]
    refine ⟨_, rfl, ⟨reads, rfl, .inl rfl, ?_, ?_, ?_⟩⟩ <;> simp [isStatus, apart.symm]
  rw [if_neg isStatus]
  exact ⟨s, rfl, ⟨reads, rfl, .inl rfl, by simp [isMime], by simp [isStatus], by simp [isStatus]⟩⟩

theorem Told.trans {f : Field} {fields : List Field} {s s' s'' : StateOsc5522}
    (first : Told stat about pass [f] s s') (rest : Told stat about pass fields s' s'') :
    Told stat about pass (f :: fields) s s'' where
  write := rest.write
  payload := rest.payload.trans first.payload
  pw := rest.pw.elim (fun same => same ▸ first.pw) .inr
  mimes := by
    rw [rest.mimes, first.mimes]
    by_cases now : f.key = text "mime" <;> by_cases later : ∃ f ∈ fields, f.key = text "mime" <;>
      simp [now, later, announce_announce]
  status := by
    rw [rest.status, first.status]
    by_cases now : f.key = text "status" <;>
      by_cases later : ∃ f ∈ fields, f.key = text "status" <;> simp [now, later]
  hasMore := by
    rw [rest.hasMore, first.hasMore]
    by_cases now : f.key = text "status" <;>
      by_cases later : ∃ f ∈ fields, f.key = text "status" <;> simp [now, later]

theorem fields_told {fields : List Field} {s : StateOsc5522} (reads : s.write = false)
    (clean : ∀ f ∈ fields, 0x3d ∉ f.key)
    (type : ∀ f ∈ fields, f.key = text "type" → f.value = text "read")
    (status : ∀ f ∈ fields, f.key = text "status" → f.value = stat)
    (mime : ∀ f ∈ fields, f.key = text "mime" → ∃ m ∈ about, decodeText lib f.value = .ok m)
    (pw : ∀ f ∈ fields, f.key = text "pw" → decodeText lib f.value = .ok pass) :
    ∃ s', (fields.map Field.bytes).foldlM (osc5522Pair lib) s = .ok s' ∧
      Told stat about pass fields s s' := by
  induction fields generalizing s with
  | nil => exact ⟨s, rfl, ⟨reads, rfl, .inl rfl, by simp, by simp, by simp⟩⟩
  | cons f fields ih =>
    simp only [List.forall_mem_cons] at clean type status mime pw
    obtain ⟨s', one, first⟩ := pair_told reads clean.1 type.1 status.1 mime.1 pw.1
    obtain ⟨s'', all, rest⟩ := ih first.write clean.2 type.2 status.2 mime.2 pw.2
    refine ⟨s'', ?_, first.trans rest⟩
    rw [List.map_cons, List.foldlM_cons, one]
    exact all

/-- A packet tells its status and its type. -/
theorem Packet.Tells.told {k : Packet} (tells : k.Tells lib stat about pass) {s : StateOsc5522}
    (reads : s.write = false) :
    ∃ s', (k.fields.map Field.bytes).foldlM (osc5522Pair lib)
        { s with status := [], hasMore := false } = .ok s' ∧
      s'.write = false ∧ s'.payload = s.payload ∧ (s'.pw = s.pw ∨ s'.pw = pass) ∧
      s'.mimes = announce about s.mimes ∧ s'.status = stat ∧
      s'.hasMore = decide (stat = text "OK" ∨ stat = text "DATA") := by
  obtain ⟨s', all, told⟩ := fields_told (s := { s with status := [], hasMore := false }) reads
    tells.clean.key tells.type tells.status tells.mime tells.pw
  have mimes := told.mimes
  have status := told.status
  have hasMore := told.hasMore
  rw [if_pos tells.stated] at status hasMore
  refine ⟨s', all, told.write, told.payload, told.pw, ?_, status, hasMore⟩
  by_cases named : about = none
  · subst named
    rw [mimes]
    exact ite_self _
  · rw [mimes, if_pos (tells.named named)]

-- ═══════════════════════════════════════════════════════════════
-- What is held between two packets
-- ═══════════════════════════════════════════════════════════════

/-- How much a list of types with their payloads counts. -/
def size (held : List (Text × Bytes)) : Nat :=
  (held.map fun entry => entry.1.bytes.length + entry.2.length).sum

/-- The state holds these types and payloads, in two lists. -/
structure Holds (pass : Text) (held : List (Text × Bytes)) (s : StateOsc5522) : Prop where
  write : s.write = false
  mimes : s.mimes = held.map (·.1)
  payload : s.payload = held.map (·.2)
  pw : s.pw = default ∨ s.pw = pass

theorem size_append (held more : List (Text × Bytes)) : size (held ++ more) = size held + size more := by
  simp [size]

theorem size_eq (held : List (Text × Bytes)) :
    size held = ((held.map (·.1)).map (·.bytes.length)).sum + ((held.map (·.2)).map List.length).sum := by
  induction held with
  | nil => rfl
  | cons entry held ih =>
    simp only [size, List.map_cons, List.sum_cons] at ih ⊢
    omega

theorem pw_length {s : StateOsc5522} (pw : s.pw = default ∨ s.pw = pass) :
    s.pw.bytes.length ≤ pass.bytes.length := by
  rcases pw with none | same
  · rw [none]
    exact Nat.zero_le _
  · rw [same]

/-- The last of the types got a payload, anew or as an extension. -/
theorem pushPayload_first {held : List (Text × Bytes)} {m : Text} {d : Bytes} {s : StateOsc5522}
    (mimes : s.mimes = held.map (·.1) ++ [m]) (payload : s.payload = held.map (·.2)) :
    pushPayload d s = .ok { s with payload := (held ++ [(m, d)]).map (·.2) } := by
  rw [pushPayload, if_pos (by simp [mimes, payload]), payload, List.map_append]
  rfl

theorem pushPayload_next {held : List (Text × Bytes)} {m : Text} {d e : Bytes} {s : StateOsc5522}
    (mimes : s.mimes = (held ++ [(m, e)]).map (·.1))
    (payload : s.payload = (held ++ [(m, e)]).map (·.2)) :
    pushPayload d s = .ok { s with payload := (held ++ [(m, e ++ d)]).map (·.2) } := by
  rw [pushPayload, if_neg (by simp [mimes, payload]), payload]
  simp

/-- Within the limits a payload is pushed. -/
theorem osc5522Payload_data {encoded d : Bytes} {s : StateOsc5522} (data : s.status = text "DATA")
    (decoded : lib.decodePad encoded = some d) (types : s.mimes.length ≤ 1024)
    (room : s.len + d.length ≤ osc5522Limit) : osc5522Payload lib encoded s = pushPayload d s := by
  have start : ¬(osc5522Limit < s.len ∨ 1024 < s.mimes.length) := by omega
  rw [osc5522Payload, if_neg start, if_neg (not_not.mpr data), decoded]
  exact if_neg (by omega)

theorem osc5522Payload_other {encoded : Bytes} {s : StateOsc5522} (other : s.status ≠ text "DATA")
    (types : s.mimes.length ≤ 1024) (room : s.len ≤ osc5522Limit) :
    osc5522Payload lib encoded s = .ok s := by
  have start : ¬(osc5522Limit < s.len ∨ 1024 < s.mimes.length) := by omega
  rw [osc5522Payload, if_neg start, if_pos other]

variable {k : Packet} {held : List (Text × Bytes)} {s : StateOsc5522} {m : Text} {d e : Bytes}

/-- A packet without data changes nothing but the status. -/
theorem parse_other (tells : k.Tells lib stat none pass) (other : stat ≠ text "DATA")
    (holds : Holds pass held s) (types : held.length ≤ 1024)
    (room : pass.bytes.length + size held ≤ osc5522Limit) :
    ∃ s', parseOsc5522 lib (k.bytes osc5522Start) s = .ok s' ∧ Holds pass held s' ∧
      s'.status = stat ∧ s'.hasMore = decide (stat = text "OK" ∨ stat = text "DATA") := by
  obtain ⟨s', all, write, payload, pw, mimes, status, hasMore⟩ := tells.told holds.write
  have kept : Holds pass held s' := by
    refine ⟨write, mimes.trans holds.mimes, payload.trans holds.payload, ?_⟩
    rcases pw with same | now
    · rw [same]
      exact holds.pw
    · exact .inr now
  have len : s'.len ≤ pass.bytes.length + size held := by
    have short := pw_length kept.pw
    rw [StateOsc5522.len, kept.mimes, kept.payload, size_eq]
    omega
  refine ⟨s', ?_, kept, status, hasMore⟩
  rw [Packet.parseOsc5522_bytes tells.clean, all]
  exact osc5522Payload_other (status ▸ other) (by simpa [kept.mimes] using types) (by omega)

/-- The first packet of a type begins a payload. -/
theorem parse_first (tells : k.Tells lib (text "DATA") (some m) pass)
    (decoded : lib.decodePad (k.payload.getD []) = some d) (holds : Holds pass held s)
    (fresh : m ∉ held.map (·.1)) (types : held.length < 1024)
    (room : pass.bytes.length + size (held ++ [(m, d)]) ≤ osc5522Limit) :
    ∃ s', parseOsc5522 lib (k.bytes osc5522Start) s = .ok s' ∧ Holds pass (held ++ [(m, d)]) s' ∧
      s'.hasMore = true := by
  obtain ⟨s', all, write, payload, pw, mimes, status, hasMore⟩ := tells.told holds.write
  have named : s'.mimes = held.map (·.1) ++ [m] := by
    have other : ¬(held.map (·.1)).getLast? = some m := fun last =>
      fresh (List.mem_of_getLast? last)
    rw [mimes, holds.mimes]
    exact if_neg other
  have pw' : s'.pw = default ∨ s'.pw = pass := by
    rcases pw with same | now
    · rw [same]
      exact holds.pw
    · exact .inr now
  have len : s'.len + d.length ≤ pass.bytes.length + size (held ++ [(m, d)]) := by
    have short := pw_length pw'
    rw [StateOsc5522.len, named, payload, holds.payload, size_append, size_eq held]
    simp only [List.map_append, List.sum_append, size, List.map_cons, List.map_nil, List.sum_cons,
      List.sum_nil]
    omega
  refine ⟨{ s' with payload := (held ++ [(m, d)]).map (·.2) }, ?_, ⟨write, ?_, rfl, pw'⟩, ?_⟩
  · rw [Packet.parseOsc5522_bytes tells.clean, all]
    change osc5522Payload lib _ s' = _
    rw [osc5522Payload_data status decoded (by simpa [named] using types) (by omega)]
    exact pushPayload_first named (payload.trans holds.payload)
  · simp [named]
  · rw [hasMore]
    decide

/-- A packet more of the last type extends its payload. -/
theorem parse_next (tells : k.Tells lib (text "DATA") (some m) pass)
    (decoded : lib.decodePad (k.payload.getD []) = some d)
    (holds : Holds pass (held ++ [(m, e)]) s) (types : held.length < 1024)
    (room : pass.bytes.length + size (held ++ [(m, e ++ d)]) ≤ osc5522Limit) :
    ∃ s', parseOsc5522 lib (k.bytes osc5522Start) s = .ok s' ∧
      Holds pass (held ++ [(m, e ++ d)]) s' ∧ s'.hasMore = true := by
  obtain ⟨s', all, write, payload, pw, mimes, status, hasMore⟩ := tells.told holds.write
  have named : s'.mimes = (held ++ [(m, e)]).map (·.1) := by
    rw [mimes, holds.mimes]
    exact if_pos (by simp)
  have pw' : s'.pw = default ∨ s'.pw = pass := by
    rcases pw with same | now
    · rw [same]
      exact holds.pw
    · exact .inr now
  have len : s'.len + d.length ≤ pass.bytes.length + size (held ++ [(m, e ++ d)]) := by
    have short := pw_length pw'
    rw [StateOsc5522.len, named, payload, holds.payload, size_append, size_eq held]
    simp only [List.map_append, List.sum_append, size, List.map_cons, List.map_nil, List.sum_cons,
      List.sum_nil, List.length_append]
    omega
  refine ⟨{ s' with payload := (held ++ [(m, e ++ d)]).map (·.2) }, ?_, ⟨write, ?_, rfl, pw'⟩, ?_⟩
  · rw [Packet.parseOsc5522_bytes tells.clean, all]
    change osc5522Payload lib _ s' = _
    rw [osc5522Payload_data status decoded (by simp [named]; omega) (by omega)]
    exact pushPayload_next named (payload.trans holds.payload)
  · simp [named]
  · rw [hasMore]
    decide

-- ═══════════════════════════════════════════════════════════════
-- The transcript
-- ═══════════════════════════════════════════════════════════════

/-- The packets of one type, each with what its payload is decoded to. -/
structure Group where
  mime : Text
  packets : List (Packet × Bytes)

namespace Group

def data (g : Group) : Bytes := (g.packets.map (·.2)).flatten

/-- What the packets come to: nothing when there are none. -/
def content (g : Group) : List (Text × Bytes) :=
  if g.packets = [] then [] else [(g.mime, g.data)]

def sent (g : Group) : List Packet := g.packets.map (·.1)

end Group

/-- The reply to a read. -/
structure Reading where
  ok : Packet
  groups : List Group
  done : Packet
  pw : Text := default

namespace Reading

def packets (t : Reading) : List Packet := t.ok :: (t.groups.flatMap Group.sent ++ [t.done])

def bytes (t : Reading) : Bytes := t.packets.flatMap (·.bytes osc5522Start)

def content (t : Reading) : List (Text × Bytes) := t.groups.flatMap Group.content

structure Conforms (lib : Library) (t : Reading) : Prop where
  ok : t.ok.Tells lib (text "OK") none t.pw
  data : ∀ g ∈ t.groups, ∀ packet ∈ g.packets,
    packet.1.Tells lib (text "DATA") (some g.mime) t.pw ∧
      lib.decodePad (packet.1.payload.getD []) = some packet.2
  done : t.done.Tells lib (text "DONE") none t.pw
  distinct : (t.groups.map Group.mime).Nodup

/-- The limits of the parser, for a packet and for the whole. -/
structure Fits (t : Reading) : Prop where
  packet : ∀ k ∈ t.packets, (k.bytes osc5522Start).length ≤ 2 ^ 20
  types : t.content.length ≤ 1024
  size : t.pw.bytes.length + size t.content ≤ osc5522Limit

end Reading

namespace Parser
variable {p q : Parser} {events : List Event}

/-- Between two packets. -/
def Awaits (pass : Text) (held : List (Text × Bytes)) (events : List Event) (p : Parser) : Prop :=
  ∃ s, p = ⟨.osc5522 s, [], events, false⟩ ∧ Holds pass held s

theorem awaits_of_parsed {s' : StateOsc5522} (clean : k.Clean)
    (fits : (k.bytes osc5522Start).length ≤ 2 ^ 20)
    (parsed : parseOsc5522 lib (k.bytes osc5522Start) s = .ok s') (more : s'.hasMore = true)
    (holds : Holds pass held s') :
    ∃ q, parse lib ⟨.osc5522 s, [], events, false⟩ (k.bytes osc5522Start) = some q ∧
      Awaits pass held events q := by
  have whole := parse_packet5522 (p := ⟨.osc5522 s, [], events, false⟩) clean rfl rfl
    (List.nil_append _) fits parsed
  rw [if_pos more, ← Packet.bytes_eq] at whole
  exact ⟨_, whole, s', rfl, holds⟩

/-- The further packets of a type. -/
theorem parse_rest_of_group {packets : List (Packet × Bytes)}
    (data : ∀ packet ∈ packets, packet.1.Tells lib (text "DATA") (some m) pass ∧
      lib.decodePad (packet.1.payload.getD []) = some packet.2)
    (fits : ∀ packet ∈ packets, (packet.1.bytes osc5522Start).length ≤ 2 ^ 20)
    (types : held.length < 1024)
    (room : pass.bytes.length + size (held ++ [(m, e ++ (packets.map (·.2)).flatten)]) ≤
      osc5522Limit)
    (awaits : Awaits pass (held ++ [(m, e)]) events p) :
    ∃ q, p.parse lib ((packets.map (·.1)).flatMap (·.bytes osc5522Start)) = some q ∧
      Awaits pass (held ++ [(m, e ++ (packets.map (·.2)).flatten)]) events q := by
  induction packets generalizing p e with
  | nil =>
    refine ⟨p, rfl, ?_⟩
    simpa using awaits
  | cons packet packets ih =>
    obtain ⟨s, rfl, holds⟩ := awaits
    obtain ⟨tells, decoded⟩ := data packet List.mem_cons_self
    have least : size (held ++ [(m, e ++ packet.2)]) ≤
        size (held ++ [(m, e ++ ((packet :: packets).map (·.2)).flatten)]) := by
      simp [size]
    obtain ⟨s', parsed, kept, more⟩ := parse_next tells decoded holds types (by omega)
    obtain ⟨q, first, next⟩ := awaits_of_parsed tells.clean
      (fits packet List.mem_cons_self) parsed more kept
    rw [List.map_cons, List.flatten_cons, ← List.append_assoc] at room
    obtain ⟨r, rest, last⟩ := ih (fun k member => data k (List.mem_cons_of_mem _ member))
      (fun k member => fits k (List.mem_cons_of_mem _ member)) room next
    refine ⟨r, ?_, ?_⟩
    · rw [List.map_cons, List.flatMap_cons, parse_append, first]
      exact rest
    · rw [List.map_cons, List.flatten_cons, ← List.append_assoc]
      exact last

/-- The packets of a type come to the concatenation of what they hold. -/
theorem parse_group {g : Group}
    (data : ∀ packet ∈ g.packets, packet.1.Tells lib (text "DATA") (some g.mime) pass ∧
      lib.decodePad (packet.1.payload.getD []) = some packet.2)
    (fits : ∀ packet ∈ g.packets, (packet.1.bytes osc5522Start).length ≤ 2 ^ 20)
    (fresh : g.mime ∉ held.map (·.1)) (types : (held ++ g.content).length ≤ 1024)
    (room : pass.bytes.length + size (held ++ g.content) ≤ osc5522Limit)
    (awaits : Awaits pass held events p) :
    ∃ q, p.parse lib (g.sent.flatMap (·.bytes osc5522Start)) = some q ∧
      Awaits pass (held ++ g.content) events q := by
  obtain ⟨m, packets⟩ := g
  cases packets with
  | nil => exact ⟨p, rfl, by simpa [Group.content] using awaits⟩
  | cons packet packets =>
    obtain ⟨s, rfl, holds⟩ := awaits
    obtain ⟨tells, decoded⟩ : packet.1.Tells lib (text "DATA") (some m) pass ∧ _ :=
      data packet List.mem_cons_self
    have content : Group.content ⟨m, packet :: packets⟩ =
        [(m, packet.2 ++ (packets.map (·.2)).flatten)] := by
      simp [Group.content, Group.data]
    rw [content] at types room
    rw [List.length_append, List.length_singleton] at types
    have least : size (held ++ [(m, packet.2)]) ≤
        size (held ++ [(m, packet.2 ++ (packets.map (·.2)).flatten)]) := by
      simp [size]
    obtain ⟨s', parsed, kept, more⟩ := parse_first tells decoded holds fresh (by omega) (by omega)
    obtain ⟨q, first, next⟩ := awaits_of_parsed tells.clean
      (fits packet List.mem_cons_self) parsed more kept
    obtain ⟨r, rest, last⟩ := parse_rest_of_group
      (fun k member => data k (List.mem_cons_of_mem _ member))
      (fun k member => fits k (List.mem_cons_of_mem _ member)) (by omega) room next
    refine ⟨r, ?_, ?_⟩
    · rw [Group.sent, List.map_cons, List.flatMap_cons, parse_append, first]
      exact rest
    · rw [content]
      exact last

theorem types_of_content (g : Group) {m : Text} (member : m ∈ g.content.map (·.1)) : m = g.mime := by
  rw [Group.content] at member
  split at member
  · simp at member
  · simpa using member

/-- Group by group, what is held grows by what the group comes to. -/
theorem parse_groups {groups : List Group}
    (data : ∀ g ∈ groups, ∀ packet ∈ g.packets,
      packet.1.Tells lib (text "DATA") (some g.mime) pass ∧
        lib.decodePad (packet.1.payload.getD []) = some packet.2)
    (fits : ∀ k ∈ groups.flatMap Group.sent, (k.bytes osc5522Start).length ≤ 2 ^ 20)
    (distinct : (groups.map Group.mime).Nodup)
    (fresh : ∀ g ∈ groups, g.mime ∉ held.map (·.1))
    (types : (held ++ groups.flatMap Group.content).length ≤ 1024)
    (room : pass.bytes.length + size (held ++ groups.flatMap Group.content) ≤ osc5522Limit)
    (awaits : Awaits pass held events p) :
    ∃ q, p.parse lib ((groups.flatMap Group.sent).flatMap (·.bytes osc5522Start)) = some q ∧
      Awaits pass (held ++ groups.flatMap Group.content) events q := by
  induction groups generalizing held p with
  | nil =>
    refine ⟨p, rfl, ?_⟩
    simpa using awaits
  | cons g groups ih =>
    rw [List.flatMap_cons, ← List.append_assoc] at types room
    rw [List.map_cons, List.nodup_cons] at distinct
    have fewer : (held ++ g.content).length ≤ 1024 := by
      rw [List.length_append] at types
      omega
    have less : pass.bytes.length + size (held ++ g.content) ≤ osc5522Limit := by
      rw [size_append] at room
      omega
    obtain ⟨q, first, next⟩ := parse_group (data g List.mem_cons_self)
      (fun packet member => fits _ (by
        rw [List.flatMap_cons]
        exact List.mem_append_left _ (List.mem_map_of_mem member)))
      (fresh g List.mem_cons_self) fewer less awaits
    have still : ∀ g' ∈ groups, g'.mime ∉ (held ++ g.content).map (·.1) := by
      intro g' member inside
      rw [List.map_append, List.mem_append] at inside
      rcases inside with before | now
      · exact fresh g' (List.mem_cons_of_mem _ member) before
      · exact distinct.1 (types_of_content g now ▸ List.mem_map_of_mem member)
    obtain ⟨r, rest, last⟩ := ih (fun g member => data g (List.mem_cons_of_mem _ member))
      (fun k member => fits k (by
        rw [List.flatMap_cons]
        exact List.mem_append_right _ member))
      distinct.2 still types room next
    refine ⟨r, ?_, ?_⟩
    · rw [List.flatMap_cons, List.flatMap_append, parse_append, first]
      exact rest
    · rw [List.flatMap_cons, ← List.append_assoc]
      exact last

theorem parse_osc5522Start (lib : Library) (events : List Event) :
    parse lib ⟨.ground, [], events, false⟩ osc5522Start =
      some ⟨.osc5522 {}, osc5522Start, events, false⟩ := by
  have bytes : osc5522Start = [0x1b, 0x5d, 0x35, 0x35, 0x32, 0x32, 0x3b] := by decide
  have short : osc72Start = [0x1b, 0x5d, 0x37, 0x32, 0x3b] := by decide
  have esc : step lib ⟨.ground, [], events, false⟩ 0x1b = some ⟨.esc, [0x1b], events, false⟩ := rfl
  have osc : step lib ⟨.esc, [0x1b], events, false⟩ 0x5d =
      some ⟨.osc, [0x1b, 0x5d], events, false⟩ := rfl
  have digit : ∀ seq b, seq.length < State.limit .osc → b ≠ bel → b ≠ 0x1b →
      osc72Start.isPrefixOf (seq ++ [b]) = false →
      osc5522Start.isPrefixOf (seq ++ [b]) = false →
      step lib ⟨.osc, seq, events, false⟩ b = some ⟨.osc, seq ++ [b], events, false⟩ := by
    intro seq b room other open' drag clipboard
    simp [step, clip, Nat.not_le.mpr room, dispatch, onOsc, push, other, open', drag, clipboard]
  have semicolon : step lib ⟨.osc, [0x1b, 0x5d, 0x35, 0x35, 0x32, 0x32], events, false⟩ 0x3b =
      some ⟨.osc5522 {}, [0x1b, 0x5d, 0x35, 0x35, 0x32, 0x32, 0x3b], events, false⟩ := by
    have room : ¬State.limit .osc ≤ 6 := by decide
    simp [step, clip, room, dispatch, onOsc, push, bytes, short, bel]
  rw [bytes] at digit ⊢
  rw [short] at digit
  have first := digit [0x1b, 0x5d] 0x35 (by decide) (by decide) (by decide) rfl rfl
  have second := digit [0x1b, 0x5d, 0x35] 0x35 (by decide) (by decide) (by decide) rfl rfl
  have third := digit [0x1b, 0x5d, 0x35, 0x35] 0x32 (by decide) (by decide) (by decide) rfl rfl
  have fourth := digit [0x1b, 0x5d, 0x35, 0x35, 0x32] 0x32 (by decide) (by decide) (by decide)
    rfl rfl
  simp only [List.cons_append, List.nil_append] at first second third fourth
  simp only [parse, exec, esc, osc, first, second, third, fourth, semicolon, Option.bind_some]

/-- The reply to a read within the limits is one event, with what the groups come to. -/
theorem parse_reading {t : Reading} (conforms : t.Conforms lib) (fits : t.Fits) :
    ∃ primary pw, parse lib ⟨.ground, [], events, false⟩ t.bytes =
      some ⟨.ground, [], events ++
        [.clipboard (.read primary pw (ClipboardData.collect t.content))], false⟩ := by
  have none_ : Holds t.pw [] {} := ⟨rfl, rfl, rfl, .inl rfl⟩
  have okFits := fits.packet t.ok List.mem_cons_self
  have doneFits := fits.packet t.done (by simp [Reading.packets])
  have size := fits.size
  -- The first packet is the one that leads into the state.
  obtain ⟨s, parsed, holds, -, more⟩ := parse_other conforms.ok (by decide) none_ (Nat.zero_le _)
    (by
      change t.pw.bytes.length + 0 ≤ _
      omega)
  have begun : parse lib ⟨.ground, [], events, false⟩ (t.ok.bytes osc5522Start) =
      some ⟨.osc5522 s, [], events, false⟩ := by
    have rest := parse_packet5522 (p := ⟨.osc5522 {}, osc5522Start, events, false⟩)
      conforms.ok.clean rfl rfl (List.append_assoc ..).symm okFits parsed
    rw [if_pos (by rw [more]; decide)] at rest
    have split : t.ok.bytes osc5522Start =
        osc5522Start ++ (t.ok.body ++ t.ok.ending.dropLast ++ [t.ok.last]) := by
      rw [Packet.bytes_eq]
      simp only [List.append_assoc]
    rw [split, parse_append, parse_osc5522Start]
    exact rest
  obtain ⟨q, middle, s', rfl, held⟩ := parse_groups conforms.data
    (fun k member => fits.packet k (by simp [Reading.packets, member])) conforms.distinct (by simp)
    fits.types fits.size ⟨s, rfl, holds⟩
  rw [List.nil_append] at held
  obtain ⟨s'', last, holds', status, exceeds⟩ := parse_other conforms.done (by decide) held fits.types
    fits.size
  have ended := parse_packet5522 (p := ⟨.osc5522 s', [], events, false⟩) conforms.done.clean rfl rfl
    (List.nil_append _) doneFits last
  have event : ClipboardEvent.fromState s'' =
      some (.read s''.primary s''.pw (ClipboardData.collect t.content)) := by
    have zipped : s''.mimes.zip s''.payload = t.content := by
      rw [holds'.mimes, holds'.payload]
      exact (List.zip_of_prod rfl rfl).symm
    rw [ClipboardEvent.fromState, if_pos status, holds'.write, zipped]
    rfl
  rw [if_neg (by rw [exceeds]; decide), ← Packet.bytes_eq, event] at ended
  refine ⟨s''.primary, s''.pw, ?_⟩
  rw [Reading.bytes, Reading.packets, List.flatMap_cons, List.flatMap_append, parse_append, begun,
    Option.bind_some, parse_append, middle, Option.bind_some, List.flatMap_singleton]
  exact ended

end Parser
end Yazi.Term
