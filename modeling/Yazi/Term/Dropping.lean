import Yazi.Term.Packet

/-!
A drop in chunks: from its packets to the one event.

The header is told by the first chunk and may be told again by the others. The payload is what
the chunks carry one after the other.
-/
namespace Yazi.Term
open Yazi.Base Yazi.Shared

/-- What the fields of a drop are about. -/
structure Header where
  type : UInt8
  x : Int := 0
  y : Int := 0
  op : UInt8 := 0

def DndOp.code : DndOp → UInt8
  | .copy => 1
  | .move => 2
  | .either => 3

/-- What a terminal reports of a drop. -/
inductive Drop where
  | enter (x y : Nat) (op : DndOp) (mimes : Text)
  | leave (payload : Bytes)
  | ready (x y : Nat) (op : DndOp) (mimes : Text)
  | arrive (idx : Nat) (encoded data : Bytes)
  | error (idx : Nat) (payload name desc : Bytes)

namespace Drop

def header : Drop → Header
  | enter x y op _ => { type := 0x6d, x, y, op := op.code }
  | leave _ => { type := 0x6d, x := -1, y := -1 }
  | ready x y op _ => { type := 0x4d, x, y, op := op.code }
  | arrive idx _ _ => { type := 0x72, x := idx }
  | error idx _ _ _ => { type := 0x52, x := idx }

def payload : Drop → Bytes
  | enter _ _ _ mimes => mimes.bytes
  | leave payload => payload
  | ready _ _ _ mimes => mimes.bytes
  | arrive _ encoded _ => encoded
  | error _ payload _ _ => payload

/-- Data is sent in base 64, and an error as a name with a description. -/
def Valid (lib : Library) : Drop → Prop
  | arrive _ encoded data => lib.decodeNoPad encoded = some data
  | error _ payload name desc => DndEvent.parseError payload = some (name, desc)
  | _ => True

def event : Drop → DndEvent
  | enter x y op mimes => .dropEnter x y op mimes
  | leave _ => .dropLeave
  | ready x y op mimes => .dropReady x y op mimes
  | arrive idx _ data => .dropArrive idx data
  | error idx _ name desc => .dropError idx name desc

end Drop

/-- The state that a header and a payload come to. -/
def Header.state (h : Header) (payload : Bytes) (hasMore : Bool) : StateOsc72 :=
  { type := some h.type, x := h.x, y := h.y, op := h.op, payload, hasMore }

theorem fromRepr_code (op : DndOp) : DndOp.fromRepr op.code = some op := by
  cases op <;> rfl

theorem ofUtf8_bytes (s : Text) : Text.ofUtf8 s.bytes = some s := by
  rw [Text.ofUtf8, dif_pos s.valid]

/-- The event of a drop is made of its header and its whole payload. -/
theorem fromState_drop {lib : Library} {drop : Drop} (valid : drop.Valid lib) (hasMore : Bool) :
    DndEvent.fromState lib (drop.header.state drop.payload hasMore) = some drop.event := by
  cases drop with
  | enter x y op mimes =>
    have letter : Char.ofUInt8 0x6d = 'm' := by decide
    simp [DndEvent.fromState, Drop.header, Drop.payload, Drop.event, Header.state, letter,
      DndEvent.unsigned, fromRepr_code, ofUtf8_bytes]
  | leave payload => rfl
  | ready x y op mimes =>
    have letter : Char.ofUInt8 0x4d = 'M' := by decide
    simp [DndEvent.fromState, Drop.header, Drop.payload, Drop.event, Header.state, letter,
      DndEvent.unsigned, fromRepr_code, ofUtf8_bytes]
  | arrive idx encoded data =>
    have letter : Char.ofUInt8 0x72 = 'r' := by decide
    have decoded : lib.decodeNoPad encoded = some data := valid
    simp [DndEvent.fromState, Drop.header, Drop.payload, Drop.event, Header.state, letter,
      DndEvent.unsigned, decoded]
  | error idx payload name desc =>
    have letter : Char.ofUInt8 0x52 = 'R' := by decide
    have parsed : DndEvent.parseError payload = some (name, desc) := valid
    simp [DndEvent.fromState, Drop.header, Drop.payload, Drop.event, Header.state, letter,
      DndEvent.unsigned, parsed]

-- ═══════════════════════════════════════════════════════════════
-- What the fields tell
-- ═══════════════════════════════════════════════════════════════

/-- More is announced by `m=1`. -/
def Field.Announces (f : Field) : Prop := f.key = text "m" ∧ f.value = text "1"

instance (f : Field) : Decidable f.Announces := inferInstanceAs (Decidable (_ ∧ _))

/-- A field of a chunk agrees with the header. -/
structure Field.Agrees (h : Header) (f : Field) : Prop where
  key : 0x3d ∉ f.key
  t : f.key = text "t" → f.value.head? = some h.type
  x : f.key = text "x" → parseI32 f.value = .ok h.x
  y : f.key = text "y" → parseI32 f.value = .ok h.y
  o : f.key = text "o" → parseUint 8 f.value = .ok h.op.toNat

/-- What the fields of a chunk make of the state. -/
structure Led (h : Header) (fields : List Field) (s s' : StateOsc72) : Prop where
  type : s'.type = if ∃ f ∈ fields, f.key = text "t" then some h.type else s.type
  x : s'.x = if ∃ f ∈ fields, f.key = text "x" then h.x else s.x
  y : s'.y = if ∃ f ∈ fields, f.key = text "y" then h.y else s.y
  op : s'.op = if ∃ f ∈ fields, f.key = text "o" then h.op else s.op
  payload : s'.payload = s.payload
  hasMore : s'.hasMore = (s.hasMore || decide (∃ f ∈ fields, f.Announces))

variable {h : Header}

theorem pair_led {f : Field} (agrees : f.Agrees h) (s : StateOsc72) :
    ∃ s', osc72Pair s f.bytes = .ok s' ∧ Led h [f] s s' := by
  have split : splitSeqOnce [0x3d] f.bytes = some (f.key, f.value) :=
    splitSeqOnce_byte agrees.key _
  simp only [osc72Pair, split, orInvalid, bind, Except.bind]
  by_cases isT : f.key = text "t"
  · have others : f.key ≠ text "x" ∧ f.key ≠ text "y" ∧ f.key ≠ text "o" ∧ f.key ≠ text "m" := by
      rw [isT]
      decide
    rw [if_pos isT, agrees.t isT]
    refine ⟨_, rfl, ⟨?_, ?_, ?_, ?_, rfl, ?_⟩⟩ <;> simp [others, Field.Announces]
    exact fun no => absurd isT no
  rw [if_neg isT]
  by_cases isX : f.key = text "x"
  · have others : f.key ≠ text "y" ∧ f.key ≠ text "o" ∧ f.key ≠ text "m" := by
      rw [isX]
      decide
    rw [if_pos isX, agrees.x isX]
    refine ⟨_, rfl, ⟨?_, ?_, ?_, ?_, rfl, ?_⟩⟩ <;> simp [isT, others, Field.Announces]
    exact fun no => absurd isX no
  rw [if_neg isX]
  by_cases isY : f.key = text "y"
  · have others : f.key ≠ text "o" ∧ f.key ≠ text "m" := by
      rw [isY]
      decide
    rw [if_pos isY, agrees.y isY]
    refine ⟨_, rfl, ⟨?_, ?_, ?_, ?_, rfl, ?_⟩⟩ <;> simp [isT, isX, others, Field.Announces]
    exact fun no => absurd isY no
  rw [if_neg isY]
  by_cases isO : f.key = text "o"
  · have other : f.key ≠ text "m" := by
      rw [isO]
      decide
    rw [if_pos isO, agrees.o isO]
    refine ⟨_, rfl, ⟨?_, ?_, ?_, ?_, rfl, ?_⟩⟩ <;>
      simp [isT, isX, isY, other, Field.Announces]
    exact fun no => absurd isO no
  rw [if_neg isO]
  by_cases announces : f.key = text "m" ∧ f.value = text "1"
  · have first : f.Announces := announces
    rw [if_pos announces]
    refine ⟨_, rfl, ⟨?_, ?_, ?_, ?_, rfl, ?_⟩⟩ <;> simp [isT, isX, isY, isO, first]
  · have no : ¬f.Announces := announces
    rw [if_neg announces]
    refine ⟨_, rfl, ⟨?_, ?_, ?_, ?_, rfl, ?_⟩⟩ <;> simp [isT, isX, isY, isO, no]

theorem Led.trans {f : Field} {fields : List Field} {s s' s'' : StateOsc72}
    (first : Led h [f] s s') (rest : Led h fields s' s'') : Led h (f :: fields) s s'' where
  type := by
    rw [rest.type, first.type]
    by_cases now : f.key = text "t" <;> by_cases later : ∃ f ∈ fields, f.key = text "t" <;>
      simp [now, later]
  x := by
    rw [rest.x, first.x]
    by_cases now : f.key = text "x" <;> by_cases later : ∃ f ∈ fields, f.key = text "x" <;>
      simp [now, later]
  y := by
    rw [rest.y, first.y]
    by_cases now : f.key = text "y" <;> by_cases later : ∃ f ∈ fields, f.key = text "y" <;>
      simp [now, later]
  op := by
    rw [rest.op, first.op]
    by_cases now : f.key = text "o" <;> by_cases later : ∃ f ∈ fields, f.key = text "o" <;>
      simp [now, later]
  payload := rest.payload.trans first.payload
  hasMore := by
    rw [rest.hasMore, first.hasMore]
    by_cases now : f.Announces <;> by_cases later : ∃ f ∈ fields, f.Announces <;>
      simp [now, later]

theorem fields_led {fields : List Field} (agree : ∀ f ∈ fields, f.Agrees h) (s : StateOsc72) :
    ∃ s', (fields.map Field.bytes).foldlM osc72Pair s = .ok s' ∧ Led h fields s s' := by
  induction fields generalizing s with
  | nil => exact ⟨s, rfl, ⟨by simp, by simp, by simp, by simp, rfl, by simp⟩⟩
  | cons f fields ih =>
    rw [List.forall_mem_cons] at agree
    obtain ⟨s', one, first⟩ := pair_led agree.1 s
    obtain ⟨s'', all, rest⟩ := ih agree.2 s'
    refine ⟨s'', ?_, first.trans rest⟩
    rw [List.map_cons, List.foldlM_cons, one]
    exact all

-- ═══════════════════════════════════════════════════════════════
-- The transcript
-- ═══════════════════════════════════════════════════════════════

/-- A chunk of a drop with this header. -/
structure Packet.Heads (h : Header) (k : Packet) : Prop where
  clean : k.Clean
  silent : k.rings = false
  agrees : ∀ f ∈ k.fields, f.Agrees h

/-- The first chunk tells all of the header that is not as it is by default. -/
structure Packet.Opens (h : Header) (k : Packet) : Prop where
  t : ∃ f ∈ k.fields, f.key = text "t"
  x : h.x ≠ 0 → ∃ f ∈ k.fields, f.key = text "x"
  y : h.y ≠ 0 → ∃ f ∈ k.fields, f.key = text "y"
  o : h.op ≠ 0 → ∃ f ∈ k.fields, f.key = text "o"

/-- More is to come: it is announced, or the chunk carries a part of the data. -/
def Packet.Continues (h : Header) (k : Packet) : Prop :=
  (∃ f ∈ k.fields, f.Announces) ∨ h.type = 0x72 ∧ k.payload.getD [] ≠ []

/-- A drop in chunks. -/
structure Dropping where
  drop : Drop
  chunks : List Packet
  final : Packet

namespace Dropping

def packets (t : Dropping) : List Packet := t.chunks ++ [t.final]

def bytes (t : Dropping) : Bytes := t.packets.flatMap (·.bytes osc72Start)

structure Conforms (lib : Library) (t : Dropping) : Prop where
  valid : t.drop.Valid lib
  heads : ∀ k ∈ t.packets, k.Heads t.drop.header
  opens : ∀ k ∈ t.packets.head?, k.Opens t.drop.header
  more : ∀ k ∈ t.chunks, k.Continues t.drop.header
  last : ¬t.final.Continues t.drop.header
  payload : t.packets.flatMap (·.payload.getD []) = t.drop.payload

/-- The limits of the parser, for a packet and for the whole. -/
structure Fits (t : Dropping) : Prop where
  packet : ∀ k ∈ t.packets, (k.bytes osc72Start).length ≤ 2 ^ 20
  size : t.drop.payload.length ≤ osc72Limit

end Dropping

/-- A chunk of a drop extends the payload. -/
theorem parse_chunk {k : Packet} {s : StateOsc72} {acc : Bytes} (heads : k.Heads h)
    (begun : k.Opens h ∧ s = { payload := acc } ∨ ∃ more, s = h.state acc more)
    (room : acc.length + (k.payload.getD []).length ≤ osc72Limit) :
    ∃ more, parseOsc72 (k.bytes osc72Start) s =
      .ok (h.state (acc ++ k.payload.getD []) more) ∧ (more = true ↔ k.Continues h) := by
  obtain ⟨s', all, led⟩ := fields_led heads.agrees { s with hasMore := false }
  have shape : s'.type = some h.type ∧ s'.x = h.x ∧ s'.y = h.y ∧ s'.op = h.op := by
    rw [led.type, led.x, led.y, led.op]
    rcases begun with ⟨opens, rfl⟩ | ⟨more, rfl⟩
    · refine ⟨if_pos opens.t, ?_, ?_, ?_⟩
      · exact ite_eq_left_iff.mpr fun absent => not_not.mp fun other => absent (opens.x (Ne.symm other))
      · exact ite_eq_left_iff.mpr fun absent => not_not.mp fun other => absent (opens.y (Ne.symm other))
      · exact ite_eq_left_iff.mpr fun absent => not_not.mp fun other => absent (opens.o (Ne.symm other))
    · exact ⟨ite_self _, ite_self _, ite_self _, ite_self _⟩
  have kept : s'.payload = acc := by
    rw [led.payload]
    rcases begun with ⟨opens, rfl⟩ | ⟨more, rfl⟩ <;> rfl
  have announced : s'.hasMore = decide (∃ f ∈ k.fields, f.Announces) := by
    rw [led.hasMore, Bool.false_or]
  rw [Packet.parseOsc72_bytes heads.clean heads.silent, all]
  refine ⟨s'.hasMore || s'.type = some 0x72 && !(k.payload.getD []).isEmpty, ?_, ?_⟩
  · change osc72Payload (k.payload.getD []) s' = _
    rw [osc72Payload, if_neg (by rw [kept]; omega)]
    obtain ⟨type, x, y, op⟩ := shape
    simp only [Header.state, type, x, y, op, kept]
  · rw [announced, shape.1, Packet.Continues]
    simp

/-- A chunk that makes the payload too long is refused. -/
theorem parse_chunk_over {k : Packet} {s : StateOsc72} (heads : k.Heads h)
    (exceeds : osc72Limit < s.payload.length + (k.payload.getD []).length) :
    parseOsc72 (k.bytes osc72Start) s = bail := by
  obtain ⟨s', all, led⟩ := fields_led heads.agrees { s with hasMore := false }
  have kept : s'.payload = s.payload := led.payload
  rw [Packet.parseOsc72_bytes heads.clean heads.silent, all]
  change osc72Payload (k.payload.getD []) s' = _
  rw [osc72Payload, if_pos (by rw [kept]; exact exceeds)]

namespace Parser
variable {lib : Library} {events : List Event}

/-- Chunk by chunk, the payload grows up to the whole. -/
theorem parse_chunks {chunks : List Packet} {final : Packet} {s : StateOsc72} {acc payload : Bytes}
    {event : DndEvent} (heads : ∀ k ∈ chunks ++ [final], k.Heads h)
    (begun : (∀ k ∈ (chunks ++ [final]).head?, k.Opens h) ∧ s = { payload := acc } ∨
      ∃ more, s = h.state acc more)
    (more : ∀ k ∈ chunks, k.Continues h) (last : ¬final.Continues h)
    (fits : ∀ k ∈ chunks ++ [final], (k.bytes osc72Start).length ≤ 2 ^ 20)
    (whole : acc ++ (chunks ++ [final]).flatMap (·.payload.getD []) = payload)
    (room : payload.length ≤ osc72Limit)
    (made : ∀ more, DndEvent.fromState lib (h.state payload more) = some event) :
    parse lib ⟨.osc72 s, [], events, false⟩ ((chunks ++ [final]).flatMap (·.bytes osc72Start)) =
      some ⟨.ground, [], events ++ [.dnd event], false⟩ := by
  induction chunks generalizing s acc with
  | nil =>
    have head := heads final (by simp)
    have whole : acc ++ final.payload.getD [] = payload := by simpa using whole
    have opens : final.Opens h ∧ s = { payload := acc } ∨ ∃ more, s = h.state acc more :=
      begun.imp_left fun first => ⟨first.1 final rfl, first.2⟩
    obtain ⟨more, parsed, exceeds⟩ := parse_chunk head opens (by
      rw [← List.length_append, whole]
      exact room)
    have ended : more = false := by
      rw [← Bool.not_eq_true, exceeds]
      exact last
    have step : Parser.parse lib _ _ = _ := parse_packet72 (p := ⟨.osc72 s, [], events, false⟩) head.clean
      head.silent rfl rfl (List.nil_append _) (fits final (by simp)) parsed
    rw [ended, whole, made] at step
    have single : ([] ++ [final]).flatMap (fun k : Packet => k.bytes osc72Start) = final.bytes osc72Start := by simp
    rw [single, Packet.bytes_eq]
    exact step
  | cons k chunks ih =>
    have head := heads k (by simp)
    have opens : k.Opens h ∧ s = { payload := acc } ∨ ∃ more, s = h.state acc more :=
      begun.imp_left fun first => ⟨first.1 k rfl, first.2⟩
    rw [List.cons_append, List.flatMap_cons, ← List.append_assoc] at whole
    obtain ⟨goes, parsed, on⟩ := parse_chunk head opens (by
      rw [← List.length_append]
      rw [← whole, List.length_append] at room
      omega)
    have held : goes = true := on.mpr (more k (by simp))
    have step : Parser.parse lib _ _ = _ := parse_packet72 (p := ⟨.osc72 s, [], events, false⟩) head.clean
      head.silent rfl rfl (List.nil_append _) (fits k (by simp)) parsed
    rw [held, if_pos (by rfl), ← Packet.bytes_eq] at step
    rw [List.cons_append, List.flatMap_cons, parse_append, step]
    exact ih (fun k member => heads k (List.mem_cons_of_mem _ member)) (.inr ⟨_, rfl⟩)
      (fun k member => more k (List.mem_cons_of_mem _ member))
      (fun k member => fits k (List.mem_cons_of_mem _ member)) whole

/-- From the ground, the start leads to where a chunk is awaited. -/
theorem parse_osc72Start (lib : Library) (events : List Event) (rest : Bytes) :
    parse lib ⟨.ground, [], events, false⟩ (osc72Start ++ rest) =
      parse lib ⟨.osc72 {}, [], events, false⟩ (osc72Start ++ rest) := by
  have outside : parse lib ⟨.ground, [], events, false⟩ osc72Start =
      some ⟨.osc72 {}, osc72Start, events, false⟩ := rfl
  have inside : parse lib ⟨.osc72 {}, [], events, false⟩ osc72Start =
      some ⟨.osc72 {}, osc72Start, events, false⟩ := by
    apply parse_gather
    · rintro u begins - ended
      have back : 0x5c ∈ u := ended.subset (by decide)
      exact absurd (begins.subset back) (by decide)
    · exact (by decide : 0 + osc72Start.length ≤ 2 ^ 20)
  rw [parse_append, parse_append, outside, inside]

/-- When the second chunk makes the payload too long, the first is thrown away with it. -/
theorem parse_over {k k' : Packet} (heads : k.Heads h) (heads' : k'.Heads h) (opens : k.Opens h)
    (more : k.Continues h)
    (fits : (k.bytes osc72Start).length ≤ 2 ^ 20 ∧ (k'.bytes osc72Start).length ≤ 2 ^ 20)
    (room : (k.payload.getD []).length ≤ osc72Limit)
    (exceeds : osc72Limit < (k.payload.getD []).length + (k'.payload.getD []).length) :
    parse lib ⟨.ground, [], events, false⟩ (k.bytes osc72Start ++ k'.bytes osc72Start) =
      some ⟨.ground, [], events, false⟩ := by
  obtain ⟨goes, parsed, on⟩ := parse_chunk (s := {}) heads (.inl ⟨opens, rfl⟩) (by
    simpa using room)
  have held : goes = true := on.mpr more
  have step : Parser.parse lib _ _ = _ := parse_packet72 (p := ⟨.osc72 {}, [], events, false⟩) heads.clean
    heads.silent rfl rfl (List.nil_append _) fits.1 parsed
  rw [held, if_pos (by rfl), ← Packet.bytes_eq] at step
  have refused : Parser.parse lib _ _ = _ := parse_packet72_error
    (p := ⟨.osc72 (h.state ([] ++ k.payload.getD []) true), [], events, false⟩) heads'.clean
    heads'.silent rfl rfl (List.nil_append _) fits.2 (parse_chunk_over heads' (by simpa [Header.state] using exceeds))
  rw [← Packet.bytes_eq] at refused
  have shape : k.bytes osc72Start ++ k'.bytes osc72Start =
      osc72Start ++ (k.body ++ k.ending ++ k'.bytes osc72Start) := by
    rw [Packet.bytes]
    simp only [List.append_assoc]
  have opened := parse_osc72Start lib events (k.body ++ k.ending ++ k'.bytes osc72Start)
  rw [← shape] at opened
  rw [opened, parse_append, step, Option.bind_some]
  exact refused

/-- A drop within the limits is one event, with its whole payload. -/
theorem parse_dropping {t : Dropping} (conforms : t.Conforms lib) (fits : t.Fits) :
    parse lib ⟨.ground, [], events, false⟩ t.bytes =
      some ⟨.ground, [], events ++ [.dnd t.drop.event], false⟩ := by
  obtain ⟨first, rest, packets⟩ : ∃ first rest, t.packets = first :: rest := by
    rw [Dropping.packets]
    cases t.chunks with
    | nil => exact ⟨_, _, rfl⟩
    | cons k chunks => exact ⟨_, _, rfl⟩
  have shape : t.bytes = osc72Start ++
      (first.body ++ first.ending ++ rest.flatMap (·.bytes osc72Start)) := by
    rw [Dropping.bytes, packets, List.flatMap_cons, Packet.bytes]
    simp only [List.append_assoc]
  rw [shape, parse_osc72Start, ← shape]
  exact parse_chunks conforms.heads (.inl ⟨conforms.opens, rfl⟩) conforms.more conforms.last
    fits.packet conforms.payload fits.size (fromState_drop conforms.valid)

end Parser

end Yazi.Term
