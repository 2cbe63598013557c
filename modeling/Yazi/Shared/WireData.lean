import Yazi.Shared.WellFormed

/-!
Wire data are read back from their text, up to the urls in them: whatever reading makes of
these, the reader stays in step with the writer.
-/
namespace Yazi.Shared

open Base (Yields Cursor)
open Base.Reader (Reads)

mutual

/-- Texts are valid, and dictionaries are ordered by their keys. -/
def WireOf.Sound : Wire → Prop
  | .string s => Utf8.isUtf8 s = true
  | .list values => values.Sound
  | .dict entries => entries.Sound ∧ Wire.Keyed entries
  | .nil | .boolean _ | .integer _ | .number _ | .url _ | .id _ | .bytes _ => True

def WiresOf.Sound : Wires → Prop
  | .nil => True
  | .cons value rest => value.Sound ∧ rest.Sound

def DictOf.Sound : Dict → Prop
  | .nil => True
  | .cons _ value rest => value.Sound ∧ rest.Sound

end

/-- Two values agree but for the ports of the urls in them. -/
abbrev SameWire (a b : Wire) : Prop := a.map Loc.inner id = b.map Loc.inner id

abbrev SameUrl (a b : Url) : Prop := a.map Loc.inner id = b.map Loc.inner id

/-! ### Texts -/

section texts
variable {floats : Floats} {t : Bytes}

theorem encode_list {values : Wires} (written : (WireOf.list values).encode floats = some t) :
    ∃ s, values.encode floats = some s ∧ t = Wire.listHead (Wire.length values) ++ s := by
  rw [WireOf.encode] at written
  obtain ⟨s, found, same⟩ := Option.bind_eq_some_iff.mp written
  exact ⟨s, found, (Option.some.inj same).symm⟩

theorem encode_dict {entries : Dict} (written : (WireOf.dict entries).encode floats = some t) :
    ∃ s, entries.encode floats = some s ∧ t = Wire.dictHead entries ++ s := by
  rw [WireOf.encode] at written
  obtain ⟨s, found, same⟩ := Option.bind_eq_some_iff.mp written
  exact ⟨s, found, (Option.some.inj same).symm⟩

theorem encode_url {url : Url} (written : (WireOf.url url).encode floats = some t) :
    ∃ s, url.encode floats = some s ∧ t = Wire.display 0x75 s := by
  simpa [WireOf.encode, eq_comm] using written

theorem encode_wires {value : Wire} {rest : Wires}
    (written : (WiresOf.cons value rest).encode floats = some t) :
    ∃ s s', value.encode floats = some s ∧ rest.encode floats = some s' ∧ t = s ++ s' := by
  rw [WiresOf.encode] at written
  obtain ⟨s, first, written⟩ := Option.bind_eq_some_iff.mp written
  obtain ⟨s', second, same⟩ := Option.bind_eq_some_iff.mp written
  exact ⟨s, s', first, second, (Option.some.inj same).symm⟩

theorem encode_entries {key : WireKey} {value : Wire} {rest : Dict}
    (written : (DictOf.cons key value rest).encode floats = some t) :
    ∃ s s', value.encode floats = some s ∧ rest.encode floats = some s' ∧
      t = Wire.encodeKey key ++ (s ++ s') := by
  rw [DictOf.encode] at written
  obtain ⟨s, first, written⟩ := Option.bind_eq_some_iff.mp written
  obtain ⟨s', second, same⟩ := Option.bind_eq_some_iff.mp written
  exact ⟨s, s', first, second, by rw [← List.append_assoc]; exact (Option.some.inj same).symm⟩

end texts

/-! ### Characters -/

/-- A byte that may stand inside a url and on a terminal. -/
def Clean (b : UInt8) : Prop :=
  b ≠ Path.slash ∧ b ≠ Percent.percent ∧ Percent.controls b = false

instance (b : UInt8) : Decidable (Clean b) := inferInstanceAs (Decidable (_ ∧ _ ∧ _))

section clean

/-- Stated with `List.all`, since deciding `∀ c : UInt8` may also run through all bytes. -/
private theorem clean_all {s : Bytes} (all : s.all (fun c => decide (Clean c)) = true) :
    ∀ c ∈ s, Clean c :=
  fun c member => of_decide_eq_true (List.all_eq_true.mp all c member)

private theorem clean_char (b : UInt8) : ∀ c ∈ Twiddle.encodeChar b, Clean c := by
  apply clean_all
  revert b
  exact forall_byte (by decide +kernel)

private theorem clean_byte (b : UInt8) : ∀ c ∈ Twiddle.encodeByte b, Clean c := by
  apply clean_all
  revert b
  exact forall_byte (by decide +kernel)

private theorem clean_varint (value : UInt64) : ∀ c ∈ Varint.writeU64 value, Clean c := by
  intro c member
  have all : ∀ c ∈ Varint.alphabet, Clean c := clean_all (by decide)
  exact all c (Varint.mem_alphabet_of_mem member)

private theorem clean_sized (s : Bytes) : ∀ c ∈ Wire.sized s, Clean c := by
  intro c member
  rcases List.mem_append.mp member with length | inside
  · exact clean_varint _ c length
  · obtain ⟨mark, -, found⟩ := List.mem_flatMap.mp inside
    simp only [Twiddle.encodeMark] at found
    split at found
    · exact clean_char _ c found
    · exact clean_byte _ c found

private theorem clean_display {tag : UInt8} (letter : Clean tag) (s : Bytes) :
    ∀ c ∈ Wire.display tag s, Clean c := by
  intro c member
  rcases List.mem_cons.mp member with rfl | rest
  · exact letter
  · rcases List.mem_append.mp rest with length | inside
    · exact clean_varint _ c length
    · obtain ⟨b, -, found⟩ := List.mem_flatMap.mp inside
      exact clean_char b c found

private theorem clean_listHead (len : Nat) : ∀ c ∈ Wire.listHead len, Clean c := by
  intro c member
  simp only [Wire.listHead] at member
  split at member
  · next short =>
    obtain rfl := List.mem_singleton.mp member
    have each : ∀ n : Fin 26, Clean (UInt8.ofNat (0x41 + n.val)) := by decide
    exact each ⟨len, by omega⟩
  · rcases List.mem_cons.mp member with rfl | rest
    · decide
    · exact clean_varint _ c rest

private theorem clean_dictHead (entries : Dict) : ∀ c ∈ Wire.dictHead entries, Clean c := by
  intro c member
  cases entries with
  | nil =>
    obtain rfl := List.mem_singleton.mp member
    decide
  | cons key value rest =>
    rcases List.mem_cons.mp member with rfl | rest
    · decide
    · rcases List.mem_append.mp rest with first | second
      · exact clean_varint _ c first
      · exact clean_varint _ c second

private theorem clean_key (key : WireKey) : ∀ c ∈ Wire.encodeKey key, Clean c := by
  cases key with
  | integer i => exact clean_varint _
  | string s => exact clean_sized s

private theorem clean_cons {tag : UInt8} (letter : Clean tag) {t : Bytes}
    (rest : ∀ c ∈ t, Clean c) : ∀ c ∈ tag :: t, Clean c := by
  intro c member
  rcases List.mem_cons.mp member with rfl | inside
  · exact letter
  · exact rest c inside

private theorem clean_append {s t : Bytes} (first : ∀ c ∈ s, Clean c) (second : ∀ c ∈ t, Clean c) :
    ∀ c ∈ s ++ t, Clean c := by
  intro c member
  rcases List.mem_append.mp member with inside | inside
  · exact first c inside
  · exact second c inside

variable (floats : Floats)

mutual

/-- The text of wire data can stand inside a url. -/
theorem WireOf.clean_encode : (wire : Wire) → {t : Bytes} → wire.encode floats = some t →
    ∀ c ∈ t, Clean c
  | .nil, _, written => by
    cases written
    exact clean_all (by decide)
  | .boolean b, _, written => by
    cases written
    apply clean_all
    cases b <;> decide
  | .integer i, _, written => by
    cases written
    exact clean_cons (by decide) (clean_varint _)
  | .number n, _, written => by
    cases written
    exact clean_display (by decide) _
  | .string s, _, written => by
    cases written
    exact clean_cons (by decide) (clean_sized s)
  | .list values, _, written => by
    obtain ⟨t, elements, rfl⟩ := encode_list written
    exact clean_append (clean_listHead _) (WiresOf.clean_encode values elements)
  | .dict entries, _, written => by
    obtain ⟨t, texts, rfl⟩ := encode_dict written
    exact clean_append (clean_dictHead _) (DictOf.clean_encode entries texts)
  | .id id, _, written => by
    cases written
    exact clean_cons (by decide) (clean_varint id)
  | .url url, _, written => by
    obtain ⟨t, -, rfl⟩ := encode_url written
    exact clean_display (by decide) t
  | .bytes b, _, written => by
    cases written
    exact clean_cons (by decide) (clean_sized b)

theorem WiresOf.clean_encode : (wires : Wires) → {t : Bytes} → wires.encode floats = some t →
    ∀ c ∈ t, Clean c
  | .nil, _, written => by
    cases written
    simp
  | .cons value rest, _, written => by
    obtain ⟨t, t', first, second, rfl⟩ := encode_wires written
    exact clean_append (WireOf.clean_encode value first) (WiresOf.clean_encode rest second)

theorem DictOf.clean_encode : (dict : Dict) → {t : Bytes} → dict.encode floats = some t →
    ∀ c ∈ t, Clean c
  | .nil, _, written => by
    cases written
    simp
  | .cons key value rest, _, written => by
    obtain ⟨t, t', first, second, rfl⟩ := encode_entries written
    exact clean_append (clean_key key)
      (clean_append (WireOf.clean_encode value first) (DictOf.clean_encode rest second))

end

end clean

/-! ### Readers -/

namespace Decoder

private theorem reads_byte (b : UInt8) : Reads (2 ^ 64) byte [b] False (· = b) :=
  fun _ _ _ => ⟨rfl, rfl⟩

private theorem reads_varint (v : UInt64) :
    Reads (2 ^ 64) varint (Varint.writeU64 v) False (· = v) := by
  intro pos rest _
  rw [varint, Varint.readU64_writeU64]
  exact ⟨by rw [List.drop_left], rfl⟩

private theorem reads_signedVarint (v : Int64) :
    Reads (2 ^ 64) signedVarint (Varint.writeI64 v) False (· = v) := by
  intro pos rest _
  rw [signedVarint, Varint.readI64_writeI64]
  exact ⟨by rw [List.drop_left], rfl⟩

private theorem reads_take (s : Bytes) : Reads (2 ^ 64) (take s.length) s False (· = s) := by
  intro pos rest room
  have low : ¬2 ^ 64 ≤ pos + s.length := by omega
  have enough : ¬(s ++ rest).length < s.length := by
    rw [List.length_append]
    omega
  rw [take, if_neg low, if_neg enough]
  exact ⟨by rw [List.drop_left], List.take_left⟩

/-- An escaped text behind its length. -/
private theorem reads_sized {escaped value : Bytes}
    (decodes : Twiddle.decode escaped = .ok value) :
    Reads (2 ^ 64) sized (Varint.writeU64 (UInt64.ofNat escaped.length) ++ escaped) False
      (· = value) := by
  refine Reads.of_room fun room => ?_
  rw [List.length_append] at room
  have length : (UInt64.ofNat escaped.length).toNat = escaped.length := by
    rw [UInt64.toNat_ofNat']
    exact Nat.mod_eq_of_lt (by omega)
  refine (reads_varint _).bind ?_
  rintro len rfl
  rw [length]
  refine (reads_take escaped).finish ?_
  rintro s rfl
  rw [decodes]
  exact Reads.lift rfl

private theorem reads_bytes (s : Bytes) :
    Reads (2 ^ 64) sized (Wire.sized s) False (· = s) := by
  rw [Wire.sized, ← Twiddle.length_encodeBytes]
  exact reads_sized (Twiddle.decode_encodeBytes s)

private theorem reads_utf8 {s : Bytes} {t : Bytes} (valid : Utf8.isUtf8 s = true)
    (reads : Reads (2 ^ 64) sized t False (· = s)) : Reads (2 ^ 64) utf8 t False (· = s) := by
  refine reads.finish ?_
  rintro s rfl
  rw [if_pos valid]
  exact Reads.lift rfl

private theorem reads_key {key : WireKey} (valid : Wire.validKey key = true) :
    Reads (2 ^ 64) (Decoder.key (Wire.WireKey.isInteger key)) (Wire.encodeKey key) False
      (· = key) := by
  cases key with
  | integer i =>
    refine (reads_signedVarint i).finish ?_
    rintro i rfl
    exact Reads.pure rfl
  | string s =>
    refine (reads_utf8 valid (reads_bytes s)).finish ?_
    rintro s rfl
    exact Reads.pure rfl

/-- A count is checked against the text behind it. -/
private theorem reads_checkLength {α : Type} {p : Decoder α} {t : Bytes} {fails : Prop}
    {post : α → Prop} {len : Nat} (message : String) (enough : len ≤ t.length)
    (reads : Reads (2 ^ 64) p t fails post) :
    Reads (2 ^ 64) (checkLength len message >>= fun _ => p) t fails post := by
  intro pos rest room
  have check : checkLength len message ⟨pos, t ++ rest⟩ = .ok ((), ⟨pos, t ++ rest⟩) := by
    refine if_pos ?_
    rw [List.length_append]
    omega
  have start : (checkLength len message >>= fun _ => p) ⟨pos, t ++ rest⟩ = p ⟨pos, t ++ rest⟩ := by
    change Except.bind (checkLength len message ⟨pos, t ++ rest⟩) _ = _
    rw [check]
    rfl
  rw [start]
  exact reads pos rest room

/-! ### Dictionaries -/

private theorem less_asymm {a b : WireKey} (less : WireKey.less a b = true) :
    WireKey.less b a = false := by
  cases a <;> cases b <;> simp only [WireKey.less, decide_eq_true_eq, decide_eq_false_iff_not] at less ⊢
  · exact Int64.lt_asymm less
  · cases less
  · exact List.lt_asymm less

private theorem less_ne {a b : WireKey} (less : WireKey.less a b = true) : a ≠ b := by
  rintro rfl
  rw [less_asymm less] at less
  cases less

def ofEntries : List (WireKey × Wire) → Dict
  | [] => .nil
  | (key, value) :: rest => .cons key value (ofEntries rest)

private theorem insert_ofEntries {key : WireKey} {value : Wire} {before : List (WireKey × Wire)}
    (above : ∀ entry ∈ before, WireKey.less entry.1 key = true) :
    insert key value (ofEntries before) = ofEntries (before ++ [(key, value)]) := by
  induction before with
  | nil => rfl
  | cons entry before ih =>
    have later := less_asymm (above entry List.mem_cons_self)
    simp only [ofEntries, insert, later, Bool.false_eq_true, if_false, List.cons_append]
    rw [ih fun e member => above e (List.mem_cons_of_mem _ member)]

/-- Entries that come in order are inserted at the end. -/
private theorem foldl_insert {before entries : List (WireKey × Wire)}
    (sorted : ((before ++ entries).map (·.1)).Pairwise (WireKey.less · · = true)) :
    entries.foldl (fun dict entry => insert entry.1 entry.2 dict) (ofEntries before) =
      ofEntries (before ++ entries) := by
  induction entries generalizing before with
  | nil => simp
  | cons entry entries ih =>
    have above : ∀ e ∈ before, WireKey.less e.1 entry.1 = true := by
      intro e member
      rw [List.map_append, List.pairwise_append] at sorted
      exact sorted.2.2 _ (List.mem_map_of_mem member) _ (by simp)
    rw [List.foldl_cons, insert_ofEntries above, ih (by simpa using sorted)]
    simp

/-- Where a text key stands first, no integer key follows. -/
private theorem integers_eq_zero : ∀ {s : Bytes} {value : Wire} (rest : Dict),
    (Wire.keys (.cons (.string s) value rest)).Pairwise (WireKey.less · · = true) →
      Wire.integers rest = 0
  | _, _, .nil, _ => rfl
  | _, _, .cons (.integer i) v rest, sorted => by
    have first := (List.pairwise_cons.mp sorted).1 (.integer i) (by simp [Wire.keys])
    cases first
  | _, _, .cons (.string s') v rest, sorted => by
    have tail : (Wire.keys (.cons (.string s') v rest)).Pairwise (WireKey.less · · = true) :=
      (List.pairwise_cons.mp sorted).2
    simp [Wire.integers, Wire.WireKey.isInteger, integers_eq_zero rest tail]

end Decoder

/-! ### Round trip -/

section reads
variable (inventory : Inventory) (floats : Floats)

/-- The text of the url reads as the url if it is `plain`; else it fails or reads as another. -/
def UrlReads (plain : Prop) (url : Url) : Prop :=
  ∀ t, url.encode floats = some t → t.length < 2 ^ 64 → ∀ depth, t.length < depth →
    Yields (tryFrom inventory floats depth t) (fun _ => ¬plain) fun url' => SameUrl url' url ↔ plain

variable {inventory floats} {plain : Url → Prop}

private theorem reads_tagged {depth : Nat} {tag : UInt8} {t : Bytes} {fails : Prop} {post : Wire → Prop}
    (reads : Reads (2 ^ 64) (Decoder.tagged floats (value inventory floats depth)
      (tryFrom inventory floats depth) tag) t fails post) :
    Reads (2 ^ 64) (value inventory floats (depth + 1)) (tag :: t) fails post := by
  have first : Reads (2 ^ 64) Decoder.byte [tag] fails (· = tag) :=
    (Decoder.reads_byte tag).weaken False.elim fun _ holds => holds
  exact first.bind fun _ same => same ▸ reads

/-- Data without urls are read exactly. -/
private theorem reads_exact {p : Decoder Wire} {t : Bytes} {w : Wire} {fails : Prop}
    (reads : Reads (2 ^ 64) p t False (· = w)) :
    Reads (2 ^ 64) p t fails fun w' => SameWire w' w ↔ True := by
  refine reads.weaken False.elim ?_
  rintro w' rfl
  exact iff_true_intro rfl

private theorem reads_display {s : Bytes} {p : Bytes → Decoder Wire} {fails : Prop}
    {post : Wire → Prop} (next : Reads (2 ^ 64) (p s) [] fails post) :
    Reads (2 ^ 64) (Decoder.sized >>= p)
      (Varint.writeU64 (UInt64.ofNat (Twiddle.encode s).length) ++ Twiddle.encode s) fails post := by
  have sized : Reads (2 ^ 64) Decoder.sized
      (Varint.writeU64 (UInt64.ofNat (Twiddle.encode s).length) ++ Twiddle.encode s) fails (· = s) :=
    (Decoder.reads_sized (Twiddle.decode_encode s)).weaken False.elim fun _ holds => holds
  exact sized.finish fun _ same => same ▸ next

private theorem reads_length {len : Nat} (bound : len < 2 ^ 64) {p : Nat → Decoder Wire} {t : Bytes}
    {fails : Prop} {post : Wire → Prop} (next : Reads (2 ^ 64) (p len) t fails post) :
    Reads (2 ^ 64) (Decoder.varint >>= fun v => p v.toNat)
      (Varint.writeU64 (UInt64.ofNat len) ++ t) fails post := by
  have first : Reads (2 ^ 64) Decoder.varint (Varint.writeU64 (UInt64.ofNat len)) fails
      (· = UInt64.ofNat len) :=
    (Decoder.reads_varint _).weaken False.elim fun _ holds => holds
  have same : (UInt64.ofNat len).toNat = len := by
    rw [UInt64.toNat_ofNat']
    exact Nat.mod_eq_of_lt bound
  refine first.bind ?_
  rintro v rfl
  rw [same]
  exact next

/-- Every value takes a byte. -/
theorem length_pos_of_encode (w : Wire) {t : Bytes} (written : w.encode floats = some t) :
    0 < t.length := by
  cases w with
  | list values =>
    obtain ⟨s, -, rfl⟩ := encode_list written
    simp only [Wire.listHead]
    split <;> simp
  | dict entries =>
    obtain ⟨s, -, rfl⟩ := encode_dict written
    cases entries <;> simp [Wire.dictHead]
  | url url =>
    obtain ⟨s, -, rfl⟩ := encode_url written
    simp [Wire.display]
  | _ =>
    cases written
    simp [Wire.display]

private theorem length_le_of_encode : (ws : Wires) → {t : Bytes} → ws.encode floats = some t →
    Wire.length ws ≤ t.length
  | .nil, _, _ => Nat.zero_le _
  | .cons value rest, t, written => by
    obtain ⟨s, s', first, second, rfl⟩ := encode_wires written
    have one := length_pos_of_encode value first
    have more := length_le_of_encode rest second
    simp only [Wire.length, List.length_append]
    omega

private theorem count_le_of_encode : (es : Dict) → {t : Bytes} → es.encode floats = some t →
    Wire.count es ≤ t.length ∧ Wire.integers es ≤ Wire.count es
  | .nil, _, _ => ⟨Nat.zero_le _, Nat.le_refl _⟩
  | .cons key value rest, t, written => by
    obtain ⟨s, s', first, second, rfl⟩ := encode_entries written
    have one := length_pos_of_encode value first
    obtain ⟨more, fewer⟩ := count_le_of_encode rest second
    have key := Bool.toNat_le (Wire.WireKey.isInteger key)
    simp only [Wire.count, Wire.integers, List.length_append]
    exact ⟨by omega, by omega⟩

/-- The tags of short lists are letters. -/
private theorem tagged_short {depth len : Nat} (short : len ≤ 25) :
    Decoder.tagged floats (value inventory floats depth) (tryFrom inventory floats depth)
        (UInt8.ofNat (0x41 + len)) = Decoder.list (value inventory floats depth) len := by
  have each : ∀ n : Fin 26, let tag := UInt8.ofNat (0x41 + n.val)
      tag ≠ 0x6e ∧ tag ≠ 0x30 ∧ tag ≠ 0x31 ∧ tag ≠ 0x69 ∧ tag ≠ 0x66 ∧ tag ≠ 0x73 ∧
        (0x41 ≤ tag ∧ tag ≤ 0x5a) ∧ (tag - 0x41).toNat = n.val := by decide
  obtain ⟨h1, h2, h3, h4, h5, h6, letter, same⟩ := each ⟨len, by omega⟩
  rw [Decoder.tagged, if_neg h1, if_neg h2, if_neg h3, if_neg h4, if_neg h5, if_neg h6,
    if_pos letter, same]

private theorem reads_list {depth len : Nat} {t : Bytes} {values : Wires} {p : Prop}
    (enough : len ≤ t.length)
    (reads : Reads (2 ^ 64) ((value inventory floats depth).times len) t (¬p)
      fun vs => (Decoder.ofList vs).map Loc.inner id = values.map Loc.inner id ↔ p) :
    Reads (2 ^ 64) (Decoder.list (value inventory floats depth) len) t (¬p)
      fun w => SameWire w (.list values) ↔ p := by
  refine Decoder.reads_checkLength _ enough (reads.finish fun vs holds => Reads.pure ?_)
  simpa [SameWire, WireOf.map] using holds

-- The reader stays in step with the writer whatever it makes of the urls.
mutual

theorem WireOf.reads : (w : Wire) → w.Sound →
    w.Urls (fun url => UrlReads inventory floats (plain url) url) → {t : Bytes} →
    w.encode floats = some t → {depth : Nat} → t.length < depth →
    Reads (2 ^ 64) (value inventory floats depth) t (¬w.Urls plain)
      fun w' => SameWire w' w ↔ w.Urls plain
  | _, _, _, _, _, 0, room => absurd room (Nat.not_lt_zero _)
  | .nil, _, _, _, written, depth + 1, _ => by
    cases written
    exact reads_exact (reads_tagged (Reads.pure rfl))
  | .boolean b, _, _, _, written, depth + 1, _ => by
    cases written
    cases b <;> exact reads_exact (reads_tagged (Reads.pure rfl))
  | .integer i, _, _, _, written, depth + 1, _ => by
    cases written
    refine reads_exact (reads_tagged ((Decoder.reads_signedVarint i).finish ?_))
    rintro i rfl
    exact Reads.pure rfl
  | .number n, _, _, _, written, depth + 1, _ => by
    cases written
    have utf8 : Reads (2 ^ 64) Decoder.utf8
        (Varint.writeU64 (UInt64.ofNat (Twiddle.encode (floats.print n)).length) ++
          Twiddle.encode (floats.print n)) False (· = floats.print n) :=
      Decoder.reads_utf8 (floats.utf8_print n) (Decoder.reads_sized (Twiddle.decode_encode _))
    refine reads_exact (reads_tagged (utf8.finish ?_))
    rintro b rfl
    rw [floats.parse_print]
    exact Reads.pure rfl
  | .string s, sound, _, _, written, depth + 1, _ => by
    cases written
    refine reads_exact (reads_tagged ((Decoder.reads_utf8 sound (Decoder.reads_bytes s)).finish ?_))
    rintro s rfl
    exact Reads.pure rfl
  | .list values, sound, urls, _, written, depth + 1, room => by
    obtain ⟨s, elements, rfl⟩ := encode_list written
    have enough := length_le_of_encode values elements
    by_cases short : Wire.length values ≤ 25
    · rw [Wire.listHead, if_pos short] at room ⊢
      refine reads_tagged ?_
      rw [tagged_short short]
      exact reads_list enough (WiresOf.reads values sound urls elements
        (by simp only [List.length_append, List.length_singleton] at room; omega))
    · rw [Wire.listHead, if_neg short] at room ⊢
      refine Reads.of_room fun fits => ?_
      rw [List.cons_append] at fits ⊢
      simp only [List.cons_append, List.length_append, List.length_cons] at room fits
      exact reads_tagged (reads_length (by omega)
        (reads_list enough (WiresOf.reads values sound urls elements (by omega))))
  | .dict .nil, _, _, _, written, depth + 1, _ => by
    cases written
    exact reads_exact (reads_tagged (Reads.pure rfl))
  | .dict (.cons key v rest), sound, urls, _, written, depth + 1, room => by
    obtain ⟨s, texts, rfl⟩ := encode_dict written
    obtain ⟨enough, fewer⟩ := count_le_of_encode _ texts
    obtain ⟨inner, sorted, valid⟩ := sound
    refine Reads.of_room fun fits => ?_
    simp only [Wire.dictHead, List.cons_append, List.length_append, List.length_cons,
      List.append_assoc] at room fits ⊢
    have entries := DictOf.reads (.cons key v rest) inner sorted valid urls texts
      (by omega : s.length < depth) [] (by simp)
    have sum : Reads (2 ^ 64) (Decoder.dict (value inventory floats depth)
        (Wire.count (.cons key v rest)) (Wire.integers (.cons key v rest))) s
        (¬(WireOf.dict (.cons key v rest)).Urls plain)
        fun w => SameWire w (.dict (.cons key v rest)) ↔ (WireOf.dict (.cons key v rest)).Urls plain := by
      refine Decoder.reads_checkLength _ enough ?_
      rw [if_pos fewer]
      refine entries.finish ?_
      rintro out ⟨keys, same⟩
      -- The entries came in the order of their keys, so the map holds them as they came.
      have whole : out.foldl (fun dict entry => Decoder.insert entry.1 entry.2 dict)
          (Decoder.ofEntries []) = Decoder.ofEntries ([] ++ out) := Decoder.foldl_insert (by
        rw [List.nil_append, keys]
        exact sorted)
      change out.foldl _ .nil = Decoder.ofEntries out at whole
      rw [whole]
      refine Reads.pure ?_
      simpa [SameWire, WireOf.map, WireOf.Urls] using same
    exact reads_tagged (reads_length (p := fun len => Decoder.varint >>= fun integers =>
      Decoder.dict (value inventory floats depth) len integers.toNat) (by omega)
        (reads_length (by omega) sum))
  | .id id, _, _, _, written, depth + 1, _ => by
    cases written
    refine reads_exact (reads_tagged ((Decoder.reads_varint id).finish ?_))
    rintro v rfl
    exact Reads.pure rfl
  | .url url, _, urls, _, written, depth + 1, room => by
    obtain ⟨s, text, rfl⟩ := encode_url written
    refine Reads.of_room fun fits => ?_
    have shorter := Twiddle.decode_short (Twiddle.encode s)
    rw [Twiddle.decode_encode] at shorter
    have less : s.length ≤ (Twiddle.encode s).length := shorter
    simp only [Wire.display, List.length_cons, List.length_append] at room fits
    have result := urls s text (by omega) depth (by omega)
    refine reads_tagged (reads_display ((Reads.lift result).finish fun url' same => Reads.pure ?_))
    simpa [SameWire, WireOf.map, WireOf.Urls] using same
  | .bytes b, _, _, _, written, depth + 1, _ => by
    cases written
    refine reads_exact (reads_tagged ((Decoder.reads_bytes b).finish ?_))
    rintro b rfl
    exact Reads.pure rfl

theorem WiresOf.reads : (ws : Wires) → ws.Sound →
    ws.Urls (fun url => UrlReads inventory floats (plain url) url) → {t : Bytes} →
    ws.encode floats = some t → {depth : Nat} → t.length < depth →
    Reads (2 ^ 64) ((value inventory floats depth).times (Wire.length ws)) t (¬ws.Urls plain)
      fun vs => (Decoder.ofList vs).map Loc.inner id = ws.map Loc.inner id ↔ ws.Urls plain
  | .nil, _, _, _, written, _, _ => by
    cases written
    exact Reads.pure (iff_of_true rfl trivial)
  | .cons value rest, sound, urls, _, written, depth, room => by
    obtain ⟨s, s', first, second, rfl⟩ := encode_wires written
    rw [List.length_append] at room
    have head := WireOf.reads value sound.1 urls.1 first (by omega : s.length < depth)
    have tail := WiresOf.reads rest sound.2 urls.2 second (by omega : s'.length < depth)
    refine (head.weaken (fun not both => not both.1) fun _ holds => holds).bind fun w same => ?_
    refine (tail.weaken (fun not both => not both.2) fun _ holds => holds).finish fun ws same' => ?_
    refine Reads.pure ?_
    simp only [Decoder.ofList, WiresOf.map, WiresOf.cons.injEq, WiresOf.Urls]
    exact and_congr same same'

theorem DictOf.reads : (es : Dict) → es.Sound →
    (Wire.keys es).Pairwise (Decoder.WireKey.less · · = true) →
    (∀ key ∈ Wire.keys es, Wire.validKey key = true) →
    es.Urls (fun url => UrlReads inventory floats (plain url) url) → {t : Bytes} →
    es.encode floats = some t → {depth : Nat} → t.length < depth → (seen : List WireKey) →
    (∀ key ∈ Wire.keys es, key ∉ seen) →
    Reads (2 ^ 64) (Decoder.entries (value inventory floats depth) (Wire.count es)
        (Wire.integers es) seen) t (¬es.Urls plain)
      fun out => out.map (·.1) = Wire.keys es ∧
        ((Decoder.ofEntries out).map Loc.inner id = es.map Loc.inner id ↔ es.Urls plain)
  | .nil, _, _, _, _, _, written, _, _, _, _ => by
    cases written
    exact Reads.pure ⟨rfl, iff_of_true rfl trivial⟩
  | .cons key v rest, sound, sorted, valid, urls, _, written, depth, room, seen, fresh => by
    obtain ⟨s, s', first, second, rfl⟩ := encode_entries written
    simp only [List.length_append] at room
    have integer : decide (0 < Wire.integers (.cons key v rest)) = Wire.WireKey.isInteger key := by
      cases key with
      | integer i => simp [Wire.integers, Wire.WireKey.isInteger]
      | string s =>
        simp [Wire.integers, Wire.WireKey.isInteger, Decoder.integers_eq_zero rest sorted]
    have others : Wire.integers (.cons key v rest) - 1 = Wire.integers rest := by
      cases key with
      | integer i => simp [Wire.integers, Wire.WireKey.isInteger]
      | string s =>
        simp [Wire.integers, Wire.WireKey.isInteger, Decoder.integers_eq_zero rest sorted]
    obtain ⟨above, sorted'⟩ := List.pairwise_cons.mp sorted
    have reads := Decoder.reads_key (valid key List.mem_cons_self)
    have head := WireOf.reads v sound.1 urls.1 first (by omega : s.length < depth)
    have tail := DictOf.reads rest sound.2 sorted'
      (fun k member => valid k (List.mem_cons_of_mem _ member)) urls.2 second
      (by omega : s'.length < depth) (key :: seen) (by
        intro k member
        rw [List.mem_cons, not_or]
        exact ⟨(Decoder.less_ne (above k member)).symm, fresh k (List.mem_cons_of_mem _ member)⟩)
    simp only [Wire.count, Decoder.entries, integer, others]
    refine (reads.weaken False.elim fun _ holds => holds).bind ?_
    rintro k rfl
    refine (head.weaken (fun not both => not both.1) fun _ holds => holds).bind fun w same => ?_
    rw [if_neg (fresh k List.mem_cons_self)]
    refine (tail.weaken (fun not both => not both.2) fun _ holds => holds).finish ?_
    rintro out ⟨keys, same'⟩
    refine Reads.pure ⟨by rw [List.map_cons, keys]; rfl, ?_⟩
    simp only [Decoder.ofEntries, DictOf.map, DictOf.cons.injEq, true_and, DictOf.Urls]
    exact and_congr same same'

end

/-- The whole text is read. -/
theorem yields_run {w : Wire} (sound : w.Sound)
    (urls : w.Urls fun url => UrlReads inventory floats (plain url) url) {t : Bytes}
    (written : w.encode floats = some t) (fits : t.length < 2 ^ 64) {depth : Nat}
    (room : t.length < depth) :
    Yields (Decoder.run (value inventory floats depth) t) (fun _ => ¬w.Urls plain)
      fun w' => SameWire w' w ↔ w.Urls plain := by
  have whole := WireOf.reads w sound urls written room 0 [] (by simpa using fits)
  rw [List.append_nil] at whole
  simp only [Decoder.run]
  cases result : value inventory floats depth ⟨0, t⟩ with
  | error e => exact whole.of_error result
  | ok r =>
    obtain ⟨w', c⟩ := r
    obtain ⟨rfl, same⟩ := whole.of_ok result
    simp only [Nat.zero_add, if_true]
    exact same

end reads

end Yazi.Shared
