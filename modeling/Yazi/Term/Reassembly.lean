import Yazi.Term.Dropping
import Yazi.Term.Reading

/-!
What the replies in packets come to: one event each, with all that the packets carry.
-/
namespace Yazi.Term
open Yazi.Base Yazi.Shared

/-- With each type there once, the data of a type is what came with it. -/
theorem get?_collect (pairs : List (Text × Bytes)) (distinct : (pairs.map (·.1)).Nodup) (m : Text)
    (data : Assoc Text Bytes) :
    (pairs.foldl (fun data pair => data.insert pair.1 pair.2) data).get? m =
      (pairs.lookup m).or (data.get? m) := by
  induction pairs generalizing data with
  | nil => rfl
  | cons pair pairs ih =>
    obtain ⟨k, v⟩ := pair
    rw [List.map_cons, List.nodup_cons] at distinct
    rw [List.foldl_cons, ih distinct.2, Assoc.get?_insert, List.lookup_cons]
    by_cases same : m = k
    · subst same
      have absent : pairs.lookup m = none := by
        rw [List.lookup_eq_none_iff]
        intro pair member
        simp only [bne_iff_ne, ne_eq]
        intro same
        exact distinct.1 (List.mem_map.mpr ⟨pair, member, same.symm⟩)
      simp [absent]
    · have other : (m == k) = false := beq_eq_false_iff_ne.mpr same
      simp [other]

theorem distinct_content {groups : List Group} (distinct : (groups.map Group.mime).Nodup) :
    ((groups.flatMap Group.content).map (·.1)).Nodup := by
  induction groups with
  | nil => exact List.nodup_nil
  | cons g groups ih =>
    rw [List.map_cons, List.nodup_cons] at distinct
    rw [List.flatMap_cons, List.map_append, List.nodup_append']
    refine ⟨?_, ih distinct.2, ?_⟩
    · rw [Group.content]
      split <;> simp
    · intro m here later
      obtain rfl := Parser.types_of_content g here
      rw [List.map_flatMap, List.mem_flatMap] at later
      obtain ⟨g', member, inside⟩ := later
      exact distinct.1 (Parser.types_of_content g' inside ▸ List.mem_map_of_mem member)

/-- The data of a type is the concatenation of what its packets are decoded to, when it has any. -/
theorem lookup_content {groups : List Group} (distinct : (groups.map Group.mime).Nodup) {g : Group}
    (member : g ∈ groups) :
    (groups.flatMap Group.content).lookup g.mime = if g.packets = [] then none else some g.data := by
  induction groups with
  | nil => cases member
  | cons g' groups ih =>
    rw [List.map_cons, List.nodup_cons] at distinct
    rw [List.flatMap_cons, List.lookup_append]
    rcases List.mem_cons.mp member with rfl | later
    · have absent : (groups.flatMap Group.content).lookup g.mime = none := by
        rw [List.lookup_eq_none_iff]
        intro pair inside
        simp only [bne_iff_ne, ne_eq]
        intro same
        obtain ⟨g', member, here⟩ := List.mem_flatMap.mp inside
        have named := Parser.types_of_content g' (List.mem_map_of_mem here)
        exact distinct.1 (same ▸ named ▸ List.mem_map_of_mem member)
      rw [absent, Option.or_none, Group.content]
      split <;> simp
    · have other : g'.content.lookup g.mime = none := by
        rw [List.lookup_eq_none_iff]
        intro pair inside
        simp only [bne_iff_ne, ne_eq]
        intro same
        have named := Parser.types_of_content g' (List.mem_map_of_mem inside)
        exact distinct.1 (named ▸ same ▸ List.mem_map_of_mem later)
      rw [other, Option.none_or, ih distinct.2 later]

namespace Parser

/-- The parser is back at the ground, and all that has come of the bytes is this event. -/
def Becomes (lib : Library) (p : Parser) (bytes : Bytes) (event : Event) : Prop :=
  ∃ q, p.parse lib bytes = some q ∧ q.state = .ground ∧ q.seq = [] ∧
    q.events = p.events ++ [event]

/-- The reply is one event, in which a type has the concatenation of its payloads. -/
def ReadsBack (lib : Library) (p : Parser) (t : Reading) : Prop :=
  ∃ primary pw data, Becomes lib p t.bytes (.clipboard (.read primary pw data)) ∧
    (∀ g ∈ t.groups, data.get? g.mime = if g.packets = [] then none else some g.data) ∧
    ∀ m, m ∉ t.groups.map Group.mime → data.get? m = none

/-- The drop is one event, with its whole payload. -/
def DropsBack (lib : Library) (p : Parser) (t : Dropping) : Prop :=
  Becomes lib p t.bytes (.dnd t.drop.event)

variable {lib : Library} {p : Parser}

theorem readsBack_of_idle (state : p.state = .ground) (seq : p.seq = [])
    (discard : p.discard = false) {t : Reading} (conforms : t.Conforms lib) (fits : t.Fits) :
    ReadsBack lib p t := by
  obtain ⟨_, _, events, _⟩ := p
  cases state
  cases seq
  cases discard
  obtain ⟨primary, pw, parsed⟩ := parse_reading conforms fits
  have distinct := distinct_content conforms.distinct
  refine ⟨primary, pw, _, ⟨_, parsed, rfl, rfl, rfl⟩, ?_, ?_⟩
  · intro g member
    rw [ClipboardData.collect, Reading.content, get?_collect _ distinct, Assoc.get?_nil,
      Option.or_none]
    exact lookup_content conforms.distinct member
  · intro m absent
    rw [ClipboardData.collect, Reading.content, get?_collect _ distinct, Assoc.get?_nil,
      Option.or_none, List.lookup_eq_none_iff]
    intro pair inside
    simp only [bne_iff_ne, ne_eq]
    rintro rfl
    obtain ⟨g, member, here⟩ := List.mem_flatMap.mp inside
    have named := types_of_content g (List.mem_map_of_mem here)
    exact absent (named ▸ List.mem_map_of_mem member)

theorem dropsBack_of_idle (state : p.state = .ground) (seq : p.seq = [])
    (discard : p.discard = false) {t : Dropping} (conforms : t.Conforms lib) (fits : t.Fits) :
    DropsBack lib p t := by
  obtain ⟨_, _, events, _⟩ := p
  cases state
  cases seq
  cases discard
  exact ⟨_, parse_dropping conforms fits, rfl, rfl, rfl⟩

/-- From the ground, every reply to a read and every drop in chunks that keep to the limits come
to one event with all that was sent, and to nothing else. -/
theorem reassembled (lib : Library) {inputs : List Input} {p : Parser}
    (reached : exec (input lib) make inputs = some p) (ground : p.state = .ground) :
    (∀ t : Reading, t.Conforms lib → t.Fits → ReadsBack lib p t) ∧
      ∀ t : Dropping, t.Conforms lib → t.Fits → DropsBack lib p t := by
  have sound := sound_run reached
  rw [Sound, ground] at sound
  constructor
  · intro t conforms fits
    exact readsBack_of_idle ground sound.1 sound.2 conforms fits
  · intro t conforms fits
    exact dropsBack_of_idle ground sound.1 sound.2 conforms fits

def field (key value : String) : Field := ⟨text key, text value⟩

/-- Base 64, as far as the sample needs it. -/
def sampleLibrary : Library where
  isUppercase := fun _ => false
  decodePad := fun s =>
    if s = text "dGV4dC9wbGFpbg==" then some (text "text/plain")
    else if s = text "aGk=" then some (text "hi") else if s = [] then some [] else none
  decodeNoPad := fun s => if s = text "aGk" then some (text "hi") else none

/-- A text is sent in two packets, one of them empty, and each ends in its own way. -/
def sampleReading : Reading where
  ok := ⟨[field "type" "read", field "status" "OK"], none, false⟩
  groups := [⟨⟨text "text/plain", by decide⟩,
    [(⟨[field "type" "read", field "status" "DATA", field "mime" "dGV4dC9wbGFpbg=="],
        some (text "aGk="), true⟩, text "hi"),
      (⟨[field "status" "DATA", field "mime" "dGV4dC9wbGFpbg=="], none, false⟩, [])]⟩]
  done := ⟨[field "type" "read", field "status" "DONE"], none, true⟩

/-- Data is sent in two chunks and an empty one. -/
def sampleDropping : Dropping where
  drop := .arrive 1 (text "aGk") (text "hi")
  chunks := [⟨[field "t" "r", field "x" "1", field "m" "1"], some (text "aG"), false⟩,
    ⟨[field "m" "1"], some (text "k"), false⟩]
  final := ⟨[field "m" "0"], none, false⟩

theorem conforms_sampleReading : sampleReading.Conforms sampleLibrary where
  ok := ⟨⟨by decide, by decide, by decide, by decide, by decide, by decide⟩, by decide, by decide,
    by decide, by decide, by decide, by decide⟩
  data := by
    intro g member packet inside
    obtain rfl := List.mem_singleton.mp member
    simp only [List.mem_cons, List.not_mem_nil, or_false] at inside
    rcases inside with rfl | rfl
    · exact ⟨⟨⟨by decide, by decide, by decide, by decide, by decide, by decide⟩, by decide,
        by decide, by decide, by decide, by decide, by decide⟩, by decide⟩
    · exact ⟨⟨⟨by decide, by decide, by decide, by decide, by decide, by decide⟩, by decide,
        by decide, by decide, by decide, by decide, by decide⟩, by decide⟩
  done := ⟨⟨by decide, by decide, by decide, by decide, by decide, by decide⟩, by decide, by decide,
    by decide, by decide, by decide, by decide⟩
  distinct := by decide

theorem fits_sampleReading : sampleReading.Fits := ⟨by decide, by decide, by decide⟩

theorem agrees_of_decide {h : Header} {f : Field}
    (checked : 0x3d ∉ f.key ∧ (f.key = text "t" → f.value.head? = some h.type) ∧
      (f.key = text "x" → parseI32 f.value = .ok h.x) ∧
      (f.key = text "y" → parseI32 f.value = .ok h.y) ∧
      (f.key = text "o" → parseUint 8 f.value = .ok h.op.toNat)) : f.Agrees h :=
  ⟨checked.1, checked.2.1, checked.2.2.1, checked.2.2.2.1, checked.2.2.2.2⟩

theorem conforms_sampleDropping : sampleDropping.Conforms sampleLibrary where
  valid := by
    change sampleLibrary.decodeNoPad (text "aGk") = some (text "hi")
    decide
  heads := by
    simp only [sampleDropping, Dropping.packets, List.cons_append, List.nil_append, List.mem_cons,
      List.not_mem_nil, or_false]
    rintro k (rfl | rfl | rfl)
    · exact ⟨⟨by decide, by decide, by decide, by decide, by decide, by decide⟩, rfl,
        fun f member => agrees_of_decide (by revert f; decide)⟩
    · exact ⟨⟨by decide, by decide, by decide, by decide, by decide, by decide⟩, rfl,
        fun f member => agrees_of_decide (by revert f; decide)⟩
    · exact ⟨⟨by decide, by decide, by decide, by decide, by decide, by decide⟩, rfl,
        fun f member => agrees_of_decide (by revert f; decide)⟩
  opens := by
    rintro k first
    cases first
    exact ⟨by decide, by decide, by decide, by decide⟩
  more := by
    simp only [sampleDropping, List.mem_cons, List.not_mem_nil, or_false]
    rintro k (rfl | rfl)
    · exact .inl (by decide)
    · exact .inl (by decide)
  last := by
    rintro (announced | carried)
    · revert announced
      decide
    · exact carried.2 rfl
  payload := by decide

theorem fits_sampleDropping : sampleDropping.Fits := ⟨by decide, by decide⟩

/-- Behind a key, both transcripts come back. -/
theorem reassembled_sample :
    ∃ p, exec (input sampleLibrary) make [.byte 0x61] = some p ∧
      ReadsBack sampleLibrary p sampleReading ∧ DropsBack sampleLibrary p sampleDropping := by
  have reached : exec (input sampleLibrary) make [.byte 0x61] = some _ := rfl
  have both := reassembled sampleLibrary reached rfl
  exact ⟨_, reached, both.1 _ conforms_sampleReading fits_sampleReading,
    both.2 _ conforms_sampleDropping fits_sampleDropping⟩

/-- A chunk that lists a type of so many bytes. -/
def longChunk (fields : List Field) (n : Nat) : Packet :=
  ⟨fields, some (List.replicate n 0x61), false⟩

theorem body_longChunk (fields : List Field) (n : Nat) : (longChunk fields n).body =
    Packet.head ⟨fields, none, false⟩ ++ 0x3b :: List.replicate n 0x61 := rfl

theorem clean_longChunk {fields : List Field} (n : Nat) (filled : fields ≠ [])
    (key : ∀ f ∈ fields, 0x3d ∉ f.key) (field : ∀ f ∈ fields, 0x3a ∉ f.bytes ∧ 0x3b ∉ f.bytes)
    (utf8 : Utf8.isUtf8 (Packet.head ⟨fields, none, false⟩) = true)
    (controls : 0x1b ∉ Packet.head ⟨fields, none, false⟩ ∧
      bel ∉ Packet.head ⟨fields, none, false⟩) : (longChunk fields n).Clean where
  filled := filled
  key := key
  field := field
  utf8 := utf8
  escape := by
    rw [body_longChunk]
    simp [controls.1]
  bell := by
    rw [body_longChunk, List.mem_append, List.mem_cons, List.mem_replicate]
    rintro (head | marker | ⟨-, letter⟩)
    · exact controls.2 head
    · exact absurd marker (by decide)
    · exact absurd letter (by decide)

theorem length_longChunk (fields : List Field) (n : Nat) :
    ((longChunk fields n).bytes osc72Start).length =
      (Packet.head ⟨fields, none, false⟩).length + n + 8 := by
  have start : osc72Start.length = 5 := rfl
  have ending : (longChunk fields n).ending.length = 2 := rfl
  rw [Packet.bytes, List.length_append, List.length_append, body_longChunk, start, ending]
  simp only [List.length_append, List.length_cons, List.length_replicate]
  omega

def manyTypes (n : Nat) : Text where
  bytes := List.replicate n 0x61
  valid := by
    rw [Utf8.isUtf8, List.all_eq_true]
    intro mark member
    apply Utf8.valid_of_ascii member
    have inside := List.mem_map_of_mem (f := Prod.snd) member
    rw [Utf8.chunks_map_snd] at inside
    rw [List.eq_of_mem_replicate inside]
    decide

def longFirst : Packet :=
  longChunk [field "t" "m", field "x" "1", field "y" "1", field "o" "1", field "m" "1"] (2 ^ 19)

def longLast : Packet := longChunk [field "m" "0"] (2 ^ 19 + 1)

/-- One byte too many, in two chunks. -/
def longDropping : Dropping where
  drop := .enter 1 1 .copy (manyTypes (2 ^ 19 + (2 ^ 19 + 1)))
  chunks := [longFirst]
  final := longLast

theorem heads_longDropping : ∀ k ∈ longDropping.packets, k.Heads longDropping.drop.header := by
  simp only [longDropping, Dropping.packets, List.cons_append, List.nil_append, List.mem_cons,
    List.not_mem_nil, or_false]
  rintro k (rfl | rfl)
  · exact ⟨clean_longChunk _ (by decide) (by decide) (by decide) (by decide) (by decide), rfl,
      fun f member => agrees_of_decide (by revert f; decide)⟩
  · exact ⟨clean_longChunk _ (by decide) (by decide) (by decide) (by decide) (by decide), rfl,
      fun f member => agrees_of_decide (by revert f; decide)⟩

theorem conforms_longDropping (lib : Library) : longDropping.Conforms lib where
  valid := trivial
  heads := heads_longDropping
  opens := by
    rintro k first
    cases first
    exact ⟨by decide, by decide, by decide, by decide⟩
  more := by
    intro k member
    obtain rfl := List.mem_singleton.mp member
    exact .inl (by decide)
  last := by
    rintro (announced | carried)
    · revert announced
      decide
    · exact absurd carried.1 (by decide)
  payload := by
    simp only [longDropping, Dropping.packets, longFirst, longLast, longChunk, List.cons_append, List.nil_append,
      List.flatMap_cons, List.flatMap_nil, Option.getD_some, List.append_nil, Drop.payload,
      manyTypes]
    exact List.replicate_append_replicate

/-- The second chunk is refused, and the first is thrown away with it. -/
theorem parse_longDropping (lib : Library) :
    make.parse lib longDropping.bytes = some make := by
  have heads := heads_longDropping
  have shape : longDropping.bytes = longFirst.bytes osc72Start ++ longLast.bytes osc72Start := by
    simp only [Dropping.bytes, Dropping.packets, longDropping, List.cons_append, List.nil_append,
      List.flatMap_cons, List.flatMap_nil, List.append_nil]
  have first : (longFirst.payload.getD []).length = 2 ^ 19 := List.length_replicate
  have last : (longLast.payload.getD []).length = 2 ^ 19 + 1 := List.length_replicate
  have begins : longFirst.Heads longDropping.drop.header := heads _ List.mem_cons_self
  have ends : longLast.Heads longDropping.drop.header :=
    heads _ (List.mem_cons_of_mem _ List.mem_cons_self)
  rw [shape]
  apply parse_over begins ends
  · exact ⟨by decide, by decide, by decide, by decide⟩
  · exact .inl (by decide)
  · constructor
    · rw [longFirst, length_longChunk]
      decide
    · rw [longLast, length_longChunk]
      decide
  · rw [first]
    decide
  · rw [first, last]
    decide

/-- A drop that is too long does not come back. -/
theorem refused_drop : ¬∀ lib : Library,
    (∀ t : Reading, t.Conforms lib → ReadsBack lib make t) ∧
      ∀ t : Dropping, t.Conforms lib → DropsBack lib make t := by
  intro all
  obtain ⟨q, parsed, -, -, events⟩ := (all sampleLibrary).2 longDropping (conforms_longDropping _)
  rw [parse_longDropping] at parsed
  cases parsed
  simp [make] at events

end Parser
end Yazi.Term
