import Yazi.Shared.Header
import Yazi.Term.Totality

/-!
One packet of a sequence that comes in packets: its fields, its payload and its end.

The bytes of a packet are gathered without a look at them, up to the last one, where the fields
and the payload are taken apart again.
-/
namespace Yazi.Term
open Yazi.Base Yazi.Shared

structure Field where
  key : Bytes
  value : Bytes

def Field.bytes (f : Field) : Bytes := f.key ++ 0x3d :: f.value

structure Packet where
  fields : List Field
  /-- What is behind the semicolon, if there is one. -/
  payload : Option Bytes
  /-- It ends by `BEL`, not by `ESC \`. -/
  rings : Bool := false

namespace Packet

def head (k : Packet) : Bytes := [0x3a].intercalate (k.fields.map Field.bytes)

def tail (k : Packet) : Bytes := (k.payload.map (0x3b :: ·)).getD []

def body (k : Packet) : Bytes := k.head ++ k.tail

def ending (k : Packet) : Bytes := if k.rings then [bel] else terminator

/-- The packet as it is sent, with what it starts with. -/
def bytes (start : Bytes) (k : Packet) : Bytes := start ++ k.body ++ k.ending

/-- The separators and the end of a packet stand only where they separate and end. -/
structure Clean (k : Packet) : Prop where
  filled : k.fields ≠ []
  key : ∀ f ∈ k.fields, 0x3d ∉ f.key
  field : ∀ f ∈ k.fields, 0x3a ∉ f.bytes ∧ 0x3b ∉ f.bytes
  utf8 : Utf8.isUtf8 k.head = true
  escape : 0x1b ∉ k.body
  bell : bel ∉ k.body

variable {k : Packet}

theorem splitOn_head (clean : k.Clean) : k.head.splitOn 0x3a = k.fields.map Field.bytes := by
  apply List.splitOn_intercalate
  · intro field member
    obtain ⟨f, listed, rfl⟩ := List.mem_map.mp member
    exact (clean.field f listed).1
  · exact fun none => clean.filled (List.map_eq_nil_iff.mp none)

theorem not_mem_intercalate {b c : UInt8} {parts : List Bytes} (other : b ≠ c)
    (clean : ∀ part ∈ parts, b ∉ part) : b ∉ [c].intercalate parts := by
  induction parts with
  | nil => simp
  | cons part parts ih =>
    cases parts with
    | nil => simpa using clean part
    | cons next parts =>
      rw [List.intercalate_cons_cons, List.mem_append, List.mem_append]
      rintro ((inside | sep) | later)
      · exact clean part List.mem_cons_self inside
      · exact other (List.mem_singleton.mp sep)
      · exact ih (fun p member => clean p (List.mem_cons_of_mem _ member)) later

theorem semicolon_head (clean : k.Clean) : 0x3b ∉ k.head := by
  apply not_mem_intercalate (by decide)
  intro part member
  obtain ⟨f, listed, rfl⟩ := List.mem_map.mp member
  exact (clean.field f listed).2

theorem chunkParts_body (clean : k.Clean) : chunkParts k.body = .ok (k.head, k.payload.getD []) := by
  have whole : utf8 k.head = .ok k.head := if_pos clean.utf8
  have apart := semicolon_head clean
  rw [chunkParts, body, tail]
  cases k.payload with
  | none =>
    have single : splitn 2 0x3b (k.head ++ []) = [k.head] := by
      have absent : splitSeqOnce [0x3b] k.head = none := by
        rw [splitSeqOnce_eq_none (by simp)]
        exact fun inside => apart (inside.subset List.mem_cons_self)
      rw [List.append_nil, splitn, absent]
    simp only [Option.map_none, Option.getD_none, single, next, List.getElem?_cons_zero, orInvalid]
    change utf8 k.head >>= _ = _
    rw [whole]
    rfl
  | some payload =>
    have double : splitn 2 0x3b (k.head ++ 0x3b :: payload) = [k.head, payload] := by
      rw [splitn, splitSeqOnce_byte apart]
      rfl
    simp only [Option.map_some, Option.getD_some, double, next, List.getElem?_cons_zero, orInvalid]
    change utf8 k.head >>= _ = _
    rw [whole]
    rfl

end Packet

namespace Parser
variable {lib : Library} {p : Parser}

-- ═══════════════════════════════════════════════════════════════
-- Gathering
-- ═══════════════════════════════════════════════════════════════

theorem parse_append (lib : Library) (p : Parser) (a b : Bytes) :
    p.parse lib (a ++ b) = (p.parse lib a).bind fun q => q.parse lib b := exec_append ..

/-- Where the bytes gathered in a state that takes packets are looked at. -/
def closes : State → Bytes → Prop
  | .osc72 _, seq => terminator <:+ seq
  | .osc5522 _, seq => terminator <:+ seq ∨ [bel] <:+ seq
  | _, _ => True

theorem step_gather {b : UInt8} (going : ¬closes p.state (p.seq ++ [b]))
    (room : p.seq.length < 2 ^ 20) : p.step lib b = some (p.push b) := by
  obtain ⟨state, seq, events, discard⟩ := p
  cases state with
  | osc72 s =>
    have kept : clip ⟨.osc72 s, seq, events, discard⟩ = ⟨.osc72 s, seq, events, discard⟩ :=
      if_neg (Nat.not_le.mpr room)
    rw [step, kept, dispatch]
    simp only [closes] at going
    simp [onOsc72, push, List.isSuffixOf_iff_suffix, going]
  | osc5522 s =>
    have kept : clip ⟨.osc5522 s, seq, events, discard⟩ = ⟨.osc5522 s, seq, events, discard⟩ :=
      if_neg (Nat.not_le.mpr room)
    rw [step, kept, dispatch]
    simp only [closes, not_or] at going
    have silent : b ≠ bel := fun same => going.2 ⟨seq, by rw [same]⟩
    simp [onOsc5522, push, List.isSuffixOf_iff_suffix, going.1, silent]
  | _ => exact absurd trivial going

theorem parse_gather {t : Bytes} (going : ∀ u, u <+: t → u ≠ [] → ¬closes p.state (p.seq ++ u))
    (room : p.seq.length + t.length ≤ 2 ^ 20) :
    p.parse lib t = some { p with seq := p.seq ++ t } := by
  rw [parse]
  induction t generalizing p with
  | nil => rw [List.append_nil, exec]
  | cons b t ih =>
    have first : ¬closes p.state (p.seq ++ [b]) := going [b] (List.prefix_append [b] t) (by simp)
    rw [List.length_cons] at room
    rw [exec, step_gather first (by omega), Option.bind_some, ih]
    · simp [push]
    · intro u begins filled
      have longer := going (b :: u) ((List.prefix_cons_inj b).mpr begins) (by simp)
      simpa [push] using longer
    · rw [push, List.length_append, List.length_singleton]
      omega

/-- Behind bytes with no escape, at most the very last byte is one. -/
theorem not_mid {w x rest e : Bytes} {a b : UInt8} (absent : a ∉ w) (short : e.length ≤ 1)
    (whole : x ++ a :: b :: rest = w ++ e) : False := by
  have lengths := congrArg List.length whole
  simp only [List.length_append, List.length_cons] at lengths
  have here : (w ++ e)[x.length]? = some a := by
    rw [← whole, List.getElem?_append_right (Nat.le_refl _), Nat.sub_self]
    rfl
  rw [List.getElem?_append_left (by omega)] at here
  exact absent (List.mem_of_getElem? here)

/-- All of a packet but its last byte is gathered. -/
theorem not_closes_packet {k : Packet} {start u : Bytes} {st : State} (clean : k.Clean)
    (chunked : (∃ s, st = .osc72 s) ∨ ∃ s, st = .osc5522 s)
    (marker : start = osc72Start ∨ start = osc5522Start)
    (begins : u <+: start ++ k.body ++ k.ending.dropLast) : ¬closes st u := by
  obtain ⟨rest, whole⟩ := begins
  obtain ⟨front, shape, calm, mute⟩ : ∃ front, start = 0x1b :: 0x5d :: front ∧
      0x1b ∉ front ∧ bel ∉ front := by
    rcases marker with rfl | rfl
    · exact ⟨text "72;", by decide, by decide, by decide⟩
    · exact ⟨text "5522;", by decide, by decide, by decide⟩
  have ended : k.ending.dropLast = [] ∨ k.ending.dropLast = [0x1b] := by
    rw [Packet.ending]
    split
    · exact .inl rfl
    · exact .inr rfl
  have short : k.ending.dropLast.length ≤ 1 := by
    rcases ended with none | one
    · simp [none]
    · simp [one]
  rw [shape] at whole
  -- The only escape before the end is the first byte, and a bracket is behind it.
  have unterminated : ¬terminator <:+ u := by
    rintro ⟨x, rfl⟩
    cases x with
    | nil => simp [terminator] at whole
    | cons c x =>
      have behind : x ++ 0x1b :: 0x5c :: rest = (0x5d :: front ++ k.body) ++ k.ending.dropLast := by
        simpa [terminator] using (List.cons.inj whole).2
      have escapeless : 0x1b ∉ 0x5d :: front ++ k.body := by
        simp [calm, clean.escape]
      exact not_mid escapeless short behind
  have silent : ¬[bel] <:+ u := by
    rintro ⟨x, rfl⟩
    have rung : bel ∈ x ++ [bel] ++ rest := by simp
    rw [whole] at rung
    simp only [List.cons_append, List.mem_cons, List.mem_append] at rung
    rcases rung with first | second | (inside | inside) | last
    · exact absurd first (by decide)
    · exact absurd second (by decide)
    · exact mute inside
    · exact clean.bell inside
    · rcases ended with none | one
      · simp [none] at last
      · rw [one] at last
        exact absurd last (by decide)
  rcases chunked with ⟨s, rfl⟩ | ⟨s, rfl⟩
  · exact unterminated
  · exact not_or.mpr ⟨unterminated, silent⟩

end Parser

-- ═══════════════════════════════════════════════════════════════
-- What is taken apart at the end
-- ═══════════════════════════════════════════════════════════════

namespace Packet
variable {k : Packet}

/-- The byte that ends the packet. -/
def last (k : Packet) : UInt8 := if k.rings then bel else 0x5c

theorem ending_eq (k : Packet) : k.ending = k.ending.dropLast ++ [k.last] := by
  rw [ending, last]
  split <;> rfl

theorem bytes_eq (k : Packet) (start : Bytes) :
    k.bytes start = (start ++ k.body ++ k.ending.dropLast) ++ [k.last] := by
  rw [List.append_assoc, ← k.ending_eq, bytes]

theorem stripSuffix_append (front back : Bytes) : stripSuffix back (front ++ back) = some front := by
  have ended : back.isSuffixOf (front ++ back) = true :=
    List.isSuffixOf_iff_suffix.mpr (List.suffix_append ..)
  rw [stripSuffix, if_pos ended, List.length_append, Nat.add_sub_cancel, List.take_left]

theorem stripOscTerminator_bytes (k : Packet) (start : Bytes) :
    stripOscTerminator (k.bytes start) = .ok (start ++ k.body) := by
  rw [stripOscTerminator, bytes, ending]
  split
  · have other : terminator.isSuffixOf (start ++ k.body ++ [bel]) = false := by
      rw [← Bool.not_eq_true, List.isSuffixOf_iff_suffix]
      rintro ⟨x, same⟩
      have lasts := congrArg List.getLast? same
      simp [terminator, bel] at lasts
    have failed : stripSuffix terminator (start ++ k.body ++ [bel]) = none := by
      simp only [stripSuffix, other, Bool.false_eq_true, if_false]
    rw [failed, stripSuffix_append]
    rfl
  · rw [stripSuffix_append]
    rfl

theorem parseOsc5522_bytes {lib : Library} (clean : k.Clean) (s : StateOsc5522) :
    parseOsc5522 lib (k.bytes osc5522Start) s =
      ((k.fields.map Field.bytes).foldlM (osc5522Pair lib) { s with status := [], hasMore := false }
        >>= osc5522Payload lib (k.payload.getD [])) := by
  have seven : osc5522Start.length = 7 := rfl
  have inside : subslice (osc5522Start ++ k.body) 7 (osc5522Start ++ k.body).length = .ok k.body := by
    rw [subslice_eq ⟨by simp [seven], Nat.le_refl _⟩, List.take_length, ← seven, List.drop_left]
  simp only [parseOsc5522, stripOscTerminator_bytes, bind, Except.bind, inside,
    chunkParts_body clean, splitOn_head clean]

theorem parseOsc72_bytes (clean : k.Clean) (silent : k.rings = false) (s : StateOsc72) :
    parseOsc72 (k.bytes osc72Start) s =
      ((k.fields.map Field.bytes).foldlM osc72Pair { s with hasMore := false }
        >>= osc72Payload (k.payload.getD [])) := by
  have five : osc72Start.length = 5 := rfl
  have shape : k.bytes osc72Start = osc72Start ++ k.body ++ terminator := by
    rw [bytes, ending, silent]
    rfl
  have two : (osc72Start ++ k.body ++ terminator).length = (osc72Start ++ k.body).length + 2 :=
    List.length_append
  have stop : minus (osc72Start ++ k.body ++ terminator).length 2 =
      .ok (osc72Start ++ k.body).length := by
    rw [two, minus_eq (Nat.le_add_left 2 _), Nat.add_sub_cancel]
  have inside : subslice (osc72Start ++ k.body ++ terminator) 5 (osc72Start ++ k.body).length =
      .ok k.body := by
    rw [subslice_eq ⟨by simp [five], by simp⟩, List.take_left, ← five, List.drop_left]
  simp only [parseOsc72, shape, stop, bind, Except.bind, inside, chunkParts_body clean,
    splitOn_head clean]

end Packet

namespace Parser
variable {lib : Library} {p : Parser} {k : Packet}

-- ═══════════════════════════════════════════════════════════════
-- A packet as a whole
-- ═══════════════════════════════════════════════════════════════

/-- The rest of a packet is gathered, and its last byte finds the whole of it. -/
theorem parse_rest {start mid : Bytes} (clean : k.Clean)
    (chunked : (∃ s, p.state = .osc72 s) ∨ ∃ s, p.state = .osc5522 s)
    (marker : start = osc72Start ∨ start = osc5522Start)
    (begun : p.seq ++ mid = start ++ k.body ++ k.ending.dropLast)
    (fits : (k.bytes start).length ≤ 2 ^ 20) :
    p.parse lib (mid ++ [k.last]) =
      dispatch lib { p with seq := start ++ k.body ++ k.ending.dropLast } k.last := by
  have length : (k.bytes start).length = (p.seq ++ mid).length + 1 := by
    rw [begun, Packet.bytes, k.ending_eq]
    simp only [List.length_append, List.length_singleton, List.dropLast_concat]
    omega
  have gathered : exec (Parser.step lib) p mid = some { p with seq := p.seq ++ mid } := by
    apply parse_gather
    · intro u begins _
      apply not_closes_packet clean chunked marker
      rw [← begun]
      exact (List.prefix_append_right_inj _).mpr begins
    · rw [List.length_append] at length
      omega
  rw [parse, exec_append, gathered, Option.bind_some, exec, begun]
  have kept : clip { p with seq := start ++ k.body ++ k.ending.dropLast } =
      { p with seq := start ++ k.body ++ k.ending.dropLast } := by
    apply if_neg
    rw [← begun]
    rcases chunked with ⟨s, inside⟩ | ⟨s, inside⟩ <;> rw [inside] <;>
      exact Nat.not_le.mpr (by simp only [State.limit]; omega)
  rw [step, kept]
  exact Option.bind_fun_some _

theorem push_last (k : Packet) (start : Bytes) (st : State) (events : List Event) (discard : Bool) :
    push ⟨st, start ++ k.body ++ k.ending.dropLast, events, discard⟩ k.last =
      ⟨st, k.bytes start, events, discard⟩ := by
  rw [Packet.bytes_eq]
  rfl

theorem parse_packet5522 {s s' : StateOsc5522} {mid : Bytes} (clean : k.Clean)
    (inside : p.state = .osc5522 s) (kept : p.discard = false)
    (begun : p.seq ++ mid = osc5522Start ++ k.body ++ k.ending.dropLast)
    (fits : (k.bytes osc5522Start).length ≤ 2 ^ 20)
    (parsed : parseOsc5522 lib (k.bytes osc5522Start) s = .ok s') :
    p.parse lib (mid ++ [k.last]) =
      if s'.hasMore then some { p with seq := [], state := .osc5522 s' }
      else match ClipboardEvent.fromState s' with
        | some event => some (p.emit (.clipboard event)).reset
        | none => some p.reset := by
  rw [parse_rest clean (.inr ⟨s, inside⟩) (.inr rfl) begun fits, dispatch]
  obtain ⟨st, seq, events, discard⟩ := p
  cases inside
  cases kept
  simp only
  rw [onOsc5522, push_last]
  have ended : ¬(¬terminator.isSuffixOf (k.bytes osc5522Start) ∧ k.last ≠ bel) := by
    rw [Packet.bytes, Packet.ending, Packet.last, List.isSuffixOf_iff_suffix]
    split
    · exact fun both => both.2 rfl
    · exact fun both => both.1 (List.suffix_append ..)
  rw [if_neg ended, if_neg (by simp)]
  simp only [parsed]
  split
  · rfl
  · cases ClipboardEvent.fromState s' <;> rfl

theorem parse_packet72 {s s' : StateOsc72} {mid : Bytes} (clean : k.Clean)
    (silent : k.rings = false) (inside : p.state = .osc72 s) (kept : p.discard = false)
    (begun : p.seq ++ mid = osc72Start ++ k.body ++ k.ending.dropLast)
    (fits : (k.bytes osc72Start).length ≤ 2 ^ 20)
    (parsed : parseOsc72 (k.bytes osc72Start) s = .ok s') :
    p.parse lib (mid ++ [k.last]) =
      if s'.hasMore then some { p with seq := [], state := .osc72 s' }
      else match DndEvent.fromState lib s' with
        | some event => some (p.emit (.dnd event)).reset
        | none => some p.reset := by
  rw [parse_rest clean (.inl ⟨s, inside⟩) (.inl rfl) begun fits, dispatch]
  obtain ⟨st, seq, events, discard⟩ := p
  cases inside
  cases kept
  simp only
  rw [onOsc72, push_last]
  have ended : ¬¬terminator.isSuffixOf (k.bytes osc72Start) := by
    rw [Packet.bytes, Packet.ending, silent, List.isSuffixOf_iff_suffix]
    exact not_not.mpr (List.suffix_append ..)
  rw [if_neg ended, if_neg (by simp)]
  simp only [parsed]
  split
  · rfl
  · cases DndEvent.fromState lib s' <;> rfl

/-- A packet that is not taken is thrown away, with what came before it. -/
theorem parse_packet72_error {s : StateOsc72} {e : ParseError} {mid : Bytes} (clean : k.Clean)
    (silent : k.rings = false) (inside : p.state = .osc72 s) (kept : p.discard = false)
    (begun : p.seq ++ mid = osc72Start ++ k.body ++ k.ending.dropLast)
    (fits : (k.bytes osc72Start).length ≤ 2 ^ 20)
    (failed : parseOsc72 (k.bytes osc72Start) s = .error (.error e)) :
    p.parse lib (mid ++ [k.last]) = some p.reset := by
  rw [parse_rest clean (.inl ⟨s, inside⟩) (.inl rfl) begun fits, dispatch]
  obtain ⟨st, seq, events, discard⟩ := p
  cases inside
  cases kept
  simp only
  rw [onOsc72, push_last]
  have ended : ¬¬terminator.isSuffixOf (k.bytes osc72Start) := by
    rw [Packet.bytes, Packet.ending, silent, List.isSuffixOf_iff_suffix]
    exact not_not.mpr (List.suffix_append ..)
  rw [if_neg ended, if_neg (by simp)]
  simp only [failed]
  rfl

end Parser
end Yazi.Term
