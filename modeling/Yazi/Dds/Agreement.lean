import Yazi.Dds.Registry

/-!
Static messages: what the clients have received against what the server keeps.

A static message is stored first and then put into the channels of its clients one by one.
Other tasks store and forward in between, since all of them only read the table. Until a client
has got the message that was stored last, that message waits for it in some task.
-/
namespace Yazi.Dds
open Base Shared

/-! ### Lines -/

theorem Decimal.read_write {n : Nat} (bound : n < 2 ^ 64) : Decimal.read (Decimal.write n) = .ok n := by
  have parsed := Decimal.parse_write bound
  rw [Decimal.parse] at parsed
  split at parsed
  · exact parsed
  · cases parsed

theorem Decimal.read_lt {s : Bytes} {n : Nat} (read : Decimal.read s = .ok n) : n < 2 ^ 64 := by
  simp only [Decimal.read] at read
  split at read
  · cases read
  · split at read
    · next bound =>
      cases read
      exact bound
    · cases read

namespace Message

theorem parse_value {kind : Bytes} (clean : comma ∉ kind) {sender : Nat} (bound : sender < 2 ^ 64)
    (body : Bytes) :
    parse (State.value kind sender body).dropLast = some ⟨kind, 0, sender, some body⟩ := by
  have zero : comma ∉ text "0" := by decide
  have digits : comma ∉ Decimal.write sender := by
    intro member
    have digit := Decimal.isDigit_of_mem_write member
    exact absurd digit (by decide)
  have whole : (State.value kind sender body).dropLast =
      kind ++ comma :: (text "0" ++ comma :: (Decimal.write sender ++ comma :: body)) := by
    have last : State.value kind sender body =
        (kind ++ comma :: (text "0" ++ comma :: (Decimal.write sender ++ comma :: body))) ++
          [newline] := by
      simp [State.value]
    rw [last, List.dropLast_concat]
  have read : Decimal.read (text "0") = .ok 0 := by decide
  simp only [parse, whole, splitn, splitSeqOnce_byte clean, splitSeqOnce_byte zero,
    splitSeqOnce_byte digits, read, Decimal.read_write bound, List.head?_cons]

theorem parse_clean {line : Bytes} {m : Message} (parsed : parse line = some m) :
    comma ∉ m.kind ∧ m.sender < 2 ^ 64 := by
  simp only [parse] at parsed
  split at parsed
  · next kind receiver sender body parts =>
    split at parsed
    · next r s first second =>
      cases parsed
      refine ⟨?_, Decimal.read_lt second⟩
      simp only [splitn] at parts
      split at parts
      · next before after found =>
        cases (List.cons.inj parts).1
        exact not_mem_of_splitSeqOnce found
      · cases parts
    · cases parsed
  · cases parsed

end Message

/-- The body of a static message of the kind. -/
def Sent.body? (kind : Bytes) : Sent → Option Bytes
  | .hey _ => none
  | .line s =>
    match Message.parse s.dropLast with
    | some m => if m.kind = kind ∧ m.receiver = 0 then m.body else none
    | none => none

def bodies (kind : Bytes) (sent : List Sent) : List Bytes := sent.filterMap (Sent.body? kind)

theorem bodies_append (kind : Bytes) (first rest : List Sent) :
    bodies kind (first ++ rest) = bodies kind first ++ bodies kind rest := List.filterMap_append

/-- A null body takes the state of its kind away. -/
def denoted (body : Option Bytes) : Option Bytes := body.filter (· ≠ text "null")

theorem denoted_null : denoted (some (text "null")) = none := by decide

theorem denoted_some {body : Bytes} (other : body ≠ text "null") : denoted (some body) = some body := by
  simp [denoted, Option.filter_some, other]

/-- What a client makes of the messages of a kind that it has received. -/
def lastBody (kind : Bytes) (sent : List Sent) : Option Bytes := denoted (bodies kind sent).getLast?

/-- What the server keeps of a kind. -/
def storedBody (kind : Bytes) (state : Option State) : Option Bytes :=
  (state.bind (·.get? kind)).bind fun line => Sent.body? kind (.line line)

/-! ### The state -/

/-- Every line of the state is a static message of its kind. -/
structure Kept (state : State) : Prop where
  distinct : state.Distinct
  well : ∀ entry ∈ state, Server.wellStored entry = true

theorem body?_of_wellStored {entry : Bytes × Bytes} (well : Server.wellStored entry = true)
    (kind : Bytes) : ∃ body, body ≠ text "null" ∧
      Sent.body? kind (.line entry.2) = if entry.1 = kind then some body else none := by
  simp only [Server.wellStored] at well
  split at well
  · next kind' receiver sender body parsed =>
    obtain ⟨same, everyone, -, some⟩ := of_decide_eq_true well
    refine ⟨body, some, ?_⟩
    simp only [Sent.body?, parsed, everyone, and_true]
    rw [same]
  · cases well

/-- In the lines of the state each kind has its body once. -/
theorem bodies_lines {state : State} (kept : Kept state) (kind : Bytes) (n : Nat) :
    bodies kind (state.values.flatMap fun line => List.replicate n (.line line)) =
      (storedBody kind (some state)).toList.flatMap (List.replicate n) := by
  obtain ⟨distinct, well⟩ := kept
  induction state with
  | nil => rfl
  | cons entry state ih =>
    obtain ⟨kind', line⟩ := entry
    obtain ⟨apart, distinct⟩ := List.pairwise_cons.mp distinct
    have later := ih distinct fun e member => well e (List.mem_cons_of_mem _ member)
    obtain ⟨body, -, found⟩ := body?_of_wellStored (well _ List.mem_cons_self) kind
    have here : bodies kind (List.replicate n (.line line)) =
        (if kind' = kind then some body else none).toList.flatMap (List.replicate n) := by
      rw [bodies, List.filterMap_replicate, found]
      by_cases same : kind' = kind <;> simp [same]
    rw [Assoc.values, List.map_cons, List.flatMap_cons, bodies_append, here, ← Assoc.values, later]
    by_cases same : kind' = kind
    · -- the kind of the first line occurs in no other
      subst same
      have absent : Assoc.get? state kind' = none := by
        cases rest : Assoc.get? state kind' with
        | none => rfl
        | some line =>
          have distinctHere := apart _ (Assoc.mem_of_get?_lawful rest)
          simp at distinctHere
      simp [storedBody, Assoc.get?_cons, absent, found]
    · have other : ¬kind = kind' := fun h => same h.symm
      simp [storedBody, Assoc.get?_cons, same, other]

/-- What is stored stays a state, and holds the body for its kind only. -/
theorem kept_set {state next : State} (kept : Kept state) {line : Bytes} {m : Message} {body : Bytes}
    (parsed : Message.parse line = some m) (static : m.static = true)
    (changed : state.set m.kind m.sender body = some next) :
    Kept next ∧ ∀ kind, storedBody kind (some next) =
      if kind = m.kind then denoted (some body) else storedBody kind (some state) := by
  obtain ⟨clean, bound⟩ := Message.parse_clean parsed
  obtain ⟨-, mark⟩ := of_decide_eq_true static
  simp only [State.set] at changed
  split at changed
  · next null =>
    split at changed
    · cases changed
      refine ⟨⟨kept.distinct.erase _, fun entry member => kept.well entry (List.mem_filter.mp member).1⟩,
        fun kind => ?_⟩
      simp only [storedBody, Option.bind_some, Assoc.get?_erase]
      by_cases same : kind = m.kind
      · simp [same, denoted_null, null]
      · simp [same, Ne.symm same]
    · cases changed
  · next some =>
    split at changed
    · cases changed
    · cases changed
      have value := Message.parse_value clean bound body
      constructor
      · refine ⟨kept.distinct.insert _ _, fun entry member => ?_⟩
        rcases Assoc.mem_insert member with old | ⟨here, new⟩
        · exact kept.well entry old
        · simp [Server.wellStored, new, value, mark, some, ← eq_of_beq here]
      · intro kind
        simp only [storedBody, Option.bind_some, Assoc.get?_insert]
        by_cases same : kind = m.kind
        · subst same
          simp [Sent.body?, value, denoted_some some]
        · simp [same]

/-! ### What waits for a client -/

/-- A stored message of the kind that some task has still to put into the channel. -/
def Waits (handling : Assoc Conn Handling) (kind : Bytes) (tx : Conn) (n : Nat)
    (body : Option Bytes) : Prop :=
  ∃ c h, handling.get? c = some h ∧ h.message.kind = kind ∧ h.message.static = true ∧
    h.phase = .forwarding n ∧ tx ∈ h.targets ∧ h.message.body = body

/-- The last message that waits for the client is the stored one; if none waits, it has it. -/
structure Informed (s : Server) (kind : Bytes) (tx : Conn) : Prop where
  waiting : ∀ n body, Waits s.handling kind tx n body →
    (∀ n' body', Waits s.handling kind tx n' body' → n' ≤ n) →
      denoted body = storedBody kind s.state
  arrived : (∀ n body, ¬Waits s.handling kind tx n body) →
    lastBody kind (s.sent tx) = storedBody kind s.state

theorem Informed.congr {s t : Server} {kind : Bytes} {tx : Conn} (informed : Informed s kind tx)
    (waits : ∀ n body, Waits t.handling kind tx n body ↔ Waits s.handling kind tx n body)
    (stored : storedBody kind t.state = storedBody kind s.state)
    (last : lastBody kind (t.sent tx) = lastBody kind (s.sent tx)) : Informed t kind tx where
  waiting := by
    intro n body here latest
    rw [stored]
    exact informed.waiting n body ((waits n body).mp here) fun n' body' h =>
      latest n' body' ((waits n' body').mpr h)
  arrived := by
    intro none
    rw [stored, last]
    exact informed.arrived fun n body here => none n body ((waits n body).mpr here)

theorem waits_nil (kind : Bytes) (tx : Conn) (n : Nat) (body : Option Bytes) :
    ¬Waits [] kind tx n body := by
  rintro ⟨c, h, found, -⟩
  cases found

/-- A message that is not stored yet, or not to be stored, does not count. -/
theorem waits_insert_idle {handling : Assoc Conn Handling} {c : Conn} {h : Handling}
    (before : ∀ h', handling.get? c = some h' → h'.phase = .storing ∨ h'.message.static = false)
    (idle : h.phase = .storing ∨ h.message.static = false) (kind : Bytes) (tx : Conn) (n : Nat)
    (body : Option Bytes) :
    Waits (handling.insert c h) kind tx n body ↔ Waits handling kind tx n body := by
  have counts : ∀ h' : Handling, h'.phase = .storing ∨ h'.message.static = false →
      h'.message.static = true → h'.phase = .forwarding n → False := by
    rintro h' (storing | other) static forwarding
    · rw [storing] at forwarding
      cases forwarding
    · rw [other] at static
      cases static
  constructor
  · rintro ⟨c', h', found, same, static, phase, rest⟩
    rw [Assoc.get?_insert] at found
    split at found
    · cases found
      exact (counts h idle static phase).elim
    · exact ⟨c', h', found, same, static, phase, rest⟩
  · rintro ⟨c', h', found, same, static, phase, rest⟩
    refine ⟨c', h', ?_, same, static, phase, rest⟩
    rw [Assoc.get?_insert, if_neg, found]
    intro here
    exact counts h' (before h' (eq_of_beq here ▸ found)) static phase

theorem waits_erase_idle {handling : Assoc Conn Handling} {c : Conn}
    (before : ∀ h, handling.get? c = some h → h.phase = .storing) (kind : Bytes) (tx : Conn) (n : Nat)
    (body : Option Bytes) :
    Waits (handling.erase c) kind tx n body ↔ Waits handling kind tx n body := by
  constructor
  · rintro ⟨c', h', found, rest⟩
    rw [Assoc.get?_erase] at found
    split at found
    · cases found
    · exact ⟨c', h', found, rest⟩
  · rintro ⟨c', h', found, same, static, phase, rest⟩
    refine ⟨c', h', ?_, same, static, phase, rest⟩
    rw [Assoc.get?_erase, if_neg, found]
    intro here
    rw [before h' (eq_of_beq here ▸ found)] at phase
    cases phase

/-- Whoever has nothing of the kind gets the lines of the state. -/
theorem lastBody_append_lines {state : State} (kept : Kept state) {kind : Bytes} {sent : List Sent}
    (empty : lastBody kind sent = none) {n : Nat} (pos : 0 < n) :
    lastBody kind (sent ++ state.values.flatMap fun line => List.replicate n (.line line)) =
      storedBody kind (some state) := by
  rw [lastBody, bodies_append, bodies_lines kept]
  cases found : storedBody kind (some state) with
  | none => simpa [lastBody] using empty
  | some body =>
    obtain ⟨n, rfl⟩ := Nat.exists_eq_succ_of_ne_zero (Nat.ne_of_gt pos)
    obtain ⟨line, listed, body?⟩ := Option.bind_eq_some_iff.mp found
    -- a line of the state has no null body
    have other : body ≠ text "null" := by
      have member := Assoc.mem_of_get?_lawful listed
      obtain ⟨body', some, here⟩ := body?_of_wellStored (kept.well _ member) kind
      rw [here] at body?
      split at body?
      · cases body?
        exact some
      · cases body?
    rw [Option.toList_some, List.flatMap_singleton, List.replicate_succ', ← List.append_assoc,
      List.getLast?_concat, denoted_some other]

theorem lastBody_append_heys (kind : Bytes) (sent : List Sent) (n : Nat)
    (peers : Assoc Id (List Bytes)) :
    lastBody kind (sent ++ List.replicate n (.hey peers)) = lastBody kind sent := by
  have none : bodies kind (List.replicate n (.hey peers)) = [] :=
    List.filterMap_eq_nil_iff.mpr fun x member => by rw [List.eq_of_mem_replicate member]; rfl
  rw [lastBody, bodies_append, none, List.append_nil, lastBody]

/-! ### The invariant -/

/-- What is handled was read from a line, and goes to everyone it is for. -/
structure Handled (s : Server) (h : Handling) : Prop where
  parsed : Message.parse h.line = some h.message
  addressed : ∀ tx ∈ h.targets, ∃ id, s.connections.get? tx = some (some id)
  body : h.message.static = true → h.message.body.isSome = true
  storing : h.phase = .storing → h.message.static = true ∧
    ∀ id client, s.clients.get? id = some client → client.able h.message.kind = true →
      client.tx ∈ h.targets
  counted : ∀ n, h.phase = .forwarding n → n ≤ s.stores
  loaded : h.message.static = true → h.phase ≠ .storing → s.state ≠ none

structure Agreed (s : Server) : Prop where
  sound : s.Sound
  kept : ∀ state, s.state = some state → Kept state
  silent : ∀ c, s.connections.get? c = some none → s.sent c = []
  handled : ∀ c h, s.handling.get? c = some h → Handled s h
  informed : ∀ kind, kind.head? = some 0x40 → ∀ id client, s.clients.get? id = some client →
    client.able kind = true → Informed s kind client.tx

theorem agreed_make : Agreed Server.make where
  sound := Server.sound_make
  kept := by intro state loaded; cases loaded
  silent := by intro c found; cases found
  handled := by intro c h found; cases found
  informed := by intro kind _ id client found; cases found

/-- Each client gets the messages of a kind in the order in which they were stored; and one that
says `hi` again is in the table, and was able to get what it asks for. -/
def inOrder (s : Server) : Event → Bool
  | .hi c _ abilities =>
    match s.connections.get? c with
    | some (some old) =>
      (s.clients.get? old).any fun client =>
        client.tx = c ∧ abilities.all fun kind => kind.head? ≠ some 0x40 || client.able kind
    | _ => true
  | .send c tx =>
    match s.handling.get? c with
    | some h =>
      !h.message.static || s.handling.all fun (_, h') =>
        match h.phase, h'.phase with
        | .forwarding n, .forwarding n' =>
          !h'.message.static || h'.message.kind ≠ h.message.kind || tx ∉ h'.targets || n ≤ n'
        | _, _ => true
    | none => true
  | _ => true

theorem first_of_inOrder {s : Server} {c tx : Conn} {h : Handling} {n : Nat}
    (ordered : inOrder s (.send c tx) = true) (found : s.handling.get? c = some h)
    (static : h.message.static = true) (phase : h.phase = .forwarding n) {n' : Nat}
    {body : Option Bytes} (waits : Waits s.handling h.message.kind tx n' body) : n ≤ n' := by
  obtain ⟨c', h', found', same, static', phase', target, -⟩ := waits
  simp only [inOrder, found, static, Bool.not_true, Bool.false_or, List.all_eq_true] at ordered
  have here := ordered (c', h') (Assoc.mem_of_get?_lawful found')
  simpa [phase, phase', static', same, target] using here

/-! ### The steps -/

section steps

variable {s : Server}

private theorem agreed_accept (agreed : Agreed s) {c : Conn} (fresh : s.connections.get? c = none)
    (sound : Server.Sound { s with
      connections := s.connections.insert c none
      sent := Function.update s.sent c [] }) :
    Agreed { s with
      connections := s.connections.insert c none
      sent := Function.update s.sent c [] } where
  sound := sound
  kept := agreed.kept
  silent := by
    intro c' found
    by_cases here : c' = c
    · subst here
      exact Function.update_self ..
    · rw [Assoc.get?_insert, if_neg (by simpa using here)] at found
      exact (Function.update_of_ne here ..).trans (agreed.silent c' found)
  handled := by
    intro c' h found
    have here := agreed.handled c' h found
    refine ⟨here.parsed, fun tx target => ?_, here.body, here.storing, here.counted, here.loaded⟩
    obtain ⟨id, isOpen⟩ := here.addressed tx target
    have other : tx ≠ c := by
      rintro rfl
      rw [fresh] at isOpen
      cases isOpen
    exact ⟨id, by rwa [Assoc.get?_insert, if_neg (by simpa using other)]⟩
  informed := by
    intro kind static id client found able
    refine (agreed.informed kind static id client found able).congr (fun _ _ => Iff.rfl) rfl ?_
    -- a connection that was not there belongs to no client
    have other : client.tx ≠ c := by
      intro here
      have isOpen := agreed.sound.alive id client found
      rw [here, fresh] at isOpen
      cases isOpen
    exact congrArg _ (Function.update_of_ne other ..)

/-- A task that begins or ends handling a message, without storing it. -/
private theorem agreed_handling (agreed : Agreed s) {handling : Assoc Conn Handling}
    (handled : ∀ c h, handling.get? c = some h → Handled s h)
    (waits : ∀ kind tx n body, Waits handling kind tx n body ↔ Waits s.handling kind tx n body) :
    Agreed { s with handling := handling } where
  sound := ⟨agreed.sound.distinct, agreed.sound.alive, agreed.sound.told⟩
  kept := agreed.kept
  silent := agreed.silent
  handled := fun c h found =>
    let here := handled c h found
    ⟨here.parsed, here.addressed, here.body, here.storing, here.counted, here.loaded⟩
  informed := fun kind static id client found able =>
    (agreed.informed kind static id client found able).congr (waits kind client.tx) rfl rfl

private theorem handled_insert (agreed : Agreed s) {c : Conn} {h : Handling} (new : Handled s h) :
    ∀ c' h', (s.handling.insert c h).get? c' = some h' → Handled s h' := by
  intro c' h' found
  rw [Assoc.get?_insert] at found
  split at found
  · cases found
    exact new
  · exact agreed.handled c' h' found

private theorem agreed_line (agreed : Agreed s) {c : Conn} (free : s.handling.get? c = none)
    (line : Bytes) : Agreed (s.handleLine c line) := by
  have before : ∀ h, s.handling.get? c = some h → h.phase = .storing ∨ h.message.static = false := by
    intro h found
    rw [free] at found
    cases found
  have addressed : ∀ m, ∀ tx ∈ s.targets m, ∃ id, s.connections.get? tx = some (some id) := by
    intro m tx target
    obtain ⟨client, listed, rfl⟩ := List.mem_map.mp target
    split at listed
    · obtain ⟨⟨id, client'⟩, member, rfl⟩ := List.mem_map.mp (List.mem_filter.mp listed).1
      exact ⟨id, agreed.sound.alive id _ (Assoc.get?_of_mem agreed.sound.distinct member)⟩
    · exact ⟨_, agreed.sound.alive _ _ (Option.mem_toList.mp (List.mem_filter.mp listed).1)⟩
  rw [Server.handleLine]
  split
  · exact agreed
  next m parsed =>
  split
  · exact agreed
  split
  · next static =>
    split
    · exact agreed
    next body given =>
    obtain ⟨everyone, -⟩ := of_decide_eq_true static
    have new : Handled s ⟨line, m, s.targets m, .storing⟩ := by
      refine ⟨parsed, addressed m, fun _ => Option.isSome_of_eq_some given, fun _ => ⟨static, ?_⟩,
        (fun _ other => by cases other), fun _ other => absurd rfl other⟩
      intro id client found able
      have listed : client ∈ s.clients.values :=
        List.mem_map_of_mem (Assoc.mem_of_get?_lawful found)
      rw [Server.targets, if_pos everyone]
      exact List.mem_map_of_mem (List.mem_filter.mpr ⟨listed, able⟩)
    exact agreed_handling agreed (handled_insert agreed new) (waits_insert_idle before (.inl rfl))
  · next other =>
    have dynamic : m.static = false := eq_false_of_ne_true other
    have new : Handled s ⟨line, m, s.targets m, .forwarding s.stores⟩ := by
      refine ⟨parsed, addressed m, fun static => absurd static other,
        (fun storing => by cases storing), ?_, fun static => absurd static other⟩
      rintro n ⟨⟩
      exact Nat.le_refl _
    exact agreed_handling agreed (handled_insert agreed new)
      (waits_insert_idle before (.inr dynamic))

/-- A message that was just stored is the last to wait for every client it is for. -/
private theorem agreed_stored (agreed : Agreed s) {c : Conn} {h : Handling} {state next : State}
    {body : Bytes} (found : s.handling.get? c = some h) (storing : h.phase = .storing)
    (loaded : s.state = some state) (given : h.message.body = some body)
    (changed : state.set h.message.kind h.message.sender body = some next) :
    Agreed { s with
      state := some next
      stores := s.stores + 1
      handling := s.handling.insert c { h with phase := .forwarding (s.stores + 1) } } := by
  have here := agreed.handled c h found
  obtain ⟨static, everyone⟩ := here.storing storing
  obtain ⟨kept, stored⟩ := kept_set (agreed.kept state loaded) here.parsed static changed
  -- what waits now is what waited, and the new message
  have waits : ∀ kind tx n body', Waits
      (s.handling.insert c { h with phase := .forwarding (s.stores + 1) }) kind tx n body' ↔
        Waits s.handling kind tx n body' ∨ h.message.kind = kind ∧ n = s.stores + 1 ∧
          tx ∈ h.targets ∧ h.message.body = body' := by
    intro kind tx n body'
    constructor
    · rintro ⟨c', h', found', same, static', phase, rest⟩
      rw [Assoc.get?_insert] at found'
      split at found'
      · cases found'
        cases phase
        exact .inr ⟨same, rfl, rest⟩
      · exact .inl ⟨c', h', found', same, static', phase, rest⟩
    · rintro (⟨c', h', found', same, static', phase, rest⟩ | ⟨same, rfl, rest⟩)
      · refine ⟨c', h', ?_, same, static', phase, rest⟩
        rw [Assoc.get?_insert, if_neg, found']
        intro same
        rw [eq_of_beq same, found] at found'
        cases found'
        rw [storing] at phase
        cases phase
      · exact ⟨c, _, Assoc.get?_insert_self .., same, static, rfl, rest⟩
  refine ⟨⟨agreed.sound.distinct, agreed.sound.alive, agreed.sound.told⟩, ?_, agreed.silent, ?_, ?_⟩
  · rintro state' ⟨⟩
    exact kept
  · intro c' h' found'
    rw [Assoc.get?_insert] at found'
    split at found'
    · cases found'
      refine ⟨here.parsed, here.addressed, here.body, nofun, ?_, nofun⟩
      rintro n ⟨⟩
      exact Nat.le_refl _
    · have other := agreed.handled c' h' found'
      exact ⟨other.parsed, other.addressed, other.body, other.storing,
        fun n phase => Nat.le_succ_of_le (other.counted n phase), fun _ _ => nofun⟩
  · intro kind mark id client known able
    have before := agreed.informed kind mark id client known able
    by_cases same : kind = h.message.kind
    · subst same
      have last : Waits (s.handling.insert c { h with phase := .forwarding (s.stores + 1) })
          h.message.kind client.tx (s.stores + 1) h.message.body :=
        (waits ..).mpr (.inr ⟨rfl, rfl, everyone id client known able, rfl⟩)
      refine ⟨fun n body' here' latest => ?_, fun none => absurd last (none _ _)⟩
      have later := latest _ _ last
      rcases (waits ..).mp here' with ⟨c', h', found', -, -, phase, -⟩ | ⟨-, -, -, rfl⟩
      · have counted := (agreed.handled c' h' found').counted n phase
        exact absurd (Nat.le_trans later counted) (Nat.not_succ_le_self _)
      · rw [stored, if_pos rfl, given]
    · refine before.congr (fun n body' => ?_) ?_ rfl
      · rw [waits]
        exact or_iff_left fun ⟨here, _⟩ => same here.symm
      · rw [stored, if_neg same, loaded]

private theorem agreed_set (agreed : Agreed s) {c : Conn} {h : Handling}
    (found : s.handling.get? c = some h) (storing : h.phase = .storing) :
    Agreed (s.handleSet c h) := by
  have here := agreed.handled c h found
  obtain ⟨body, given⟩ := Option.isSome_iff_exists.mp (here.body (here.storing storing).1)
  rw [Server.handleSet, given, Option.getD_some]
  split
  · refine agreed_handling agreed (fun c' h' found' => ?_) (waits_erase_idle fun h' found' => ?_)
    · rw [Assoc.get?_erase] at found'
      split at found'
      · cases found'
      · exact agreed.handled c' h' found'
    · rw [found] at found'
      cases found'
      exact storing
  · next next changed =>
    obtain ⟨state, loaded, changed⟩ := Option.bind_eq_some_iff.mp changed
    exact agreed_stored agreed found storing loaded given changed

private theorem agreed_send (agreed : Agreed s) {c tx : Conn} {h : Handling}
    (found : s.handling.get? c = some h) (forwarding : h.phase ≠ .storing) (target : tx ∈ h.targets)
    (ordered : inOrder s (.send c tx) = true) : Agreed (s.handleSend c tx h) := by
  have here := agreed.handled c h found
  obtain ⟨n, phase⟩ : ∃ n, h.phase = .forwarding n := by
    cases phase : h.phase with
    | storing => exact absurd phase forwarding
    | forwarding n => exact ⟨n, rfl⟩
  generalize handling : (if h.targets.erase tx = [] then s.handling.erase c
    else s.handling.insert c { h with targets := h.targets.erase tx }) = handling'
  have shape : s.handleSend c tx h =
      { s with
        handling := handling'
        sent := Function.update s.sent tx (s.sent tx ++ [.line (h.line ++ [newline])]) } := by
    rw [← handling]
    rfl
  -- what the task still has to send
  have left : ∀ c' h', handling'.get? c' = some h' → s.handling.get? c' = some h' ∨
      c' = c ∧ h' = { h with targets := h.targets.erase tx } := by
    intro c' h' found'
    rw [← handling] at found'
    split at found'
    · rw [Assoc.get?_erase] at found'
      split at found'
      · cases found'
      · exact .inl found'
    · rw [Assoc.get?_insert] at found'
      split at found'
      · next same =>
        cases found'
        exact .inr ⟨eq_of_beq same, rfl⟩
      · exact .inl found'
  have other : ∀ c', c' ≠ c → handling'.get? c' = s.handling.get? c' := by
    intro c' different
    rw [← handling]
    split
    · rw [Assoc.get?_erase, if_neg (by simpa using Ne.symm different)]
    · rw [Assoc.get?_insert, if_neg (by simpa using different)]
  have fewer : ∀ {kind tx' n' body}, Waits handling' kind tx' n' body →
      Waits s.handling kind tx' n' body := by
    rintro kind tx' n' body ⟨c', h', found', same, static, phase', target', rest⟩
    rcases left c' h' found' with before | ⟨rfl, rfl⟩
    · exact ⟨c', h', before, same, static, phase', target', rest⟩
    · exact ⟨c', h, found, same, static, phase', List.mem_of_mem_erase target', rest⟩
  have gone : ∀ {kind tx' n' body}, Waits s.handling kind tx' n' body →
      Waits handling' kind tx' n' body ∨
        h.message.kind = kind ∧ h.message.static = true ∧ tx' = tx ∧ n' = n := by
    rintro kind tx' n' body ⟨c', h', found', same, static, phase', target', rest⟩
    by_cases mine : c' = c
    · subst mine
      rw [found] at found'
      cases found'
      rw [phase] at phase'
      cases phase'
      by_cases sent : tx' = tx
      · exact .inr ⟨same, static, sent, rfl⟩
      · have stays : tx' ∈ h.targets.erase tx := (List.mem_erase_of_ne sent).mpr target'
        have some : handling'.get? c' = some { h with targets := h.targets.erase tx } := by
          rw [← handling, if_neg (List.ne_nil_of_mem stays), Assoc.get?_insert_self]
        exact .inl ⟨c', _, some, same, static, phase, stays, rest⟩
    · exact .inl ⟨c', h', (other c' mine).trans found', same, static, phase', target', rest⟩
  rw [shape]
  refine ⟨?_, agreed.kept, ?_, ?_, ?_⟩
  · have moved : s.step (.send c tx) = some (s.handleSend c tx h) := by
      simp [Server.step, found, forwarding, target]
    rw [← shape]
    exact Server.sound_step agreed.sound moved
  · intro c' found'
    -- a client's connection is not a silent one
    obtain ⟨id, isOpen⟩ := here.addressed tx target
    have different : c' ≠ tx := by
      rintro rfl
      rw [isOpen] at found'
      cases found'
    exact (Function.update_of_ne different ..).trans (agreed.silent c' found')
  · intro c' h' found'
    rcases left c' h' found' with before | ⟨rfl, rfl⟩
    · have handled := agreed.handled c' h' before
      exact ⟨handled.parsed, handled.addressed, handled.body, handled.storing, handled.counted,
        handled.loaded⟩
    · exact ⟨here.parsed, fun tx' member => here.addressed tx' (List.mem_of_mem_erase member),
        here.body, fun storing => absurd storing forwarding, here.counted,
        here.loaded⟩
  · intro kind mark id client known able
    have before := agreed.informed kind mark id client known able
    constructor
    · intro n' body waits latest
      refine before.waiting n' body (fewer waits) fun n'' body' waits' => ?_
      rcases gone waits' with stays | ⟨same, static, into, rfl⟩
      · exact latest n'' body' stays
      · -- the message that is sent was stored before those that still wait
        subst same
        rw [into] at waits
        exact first_of_inOrder ordered found static phase (fewer waits)
    · intro none
      by_cases mine : h.message.kind = kind ∧ h.message.static = true ∧ client.tx = tx
      · obtain ⟨rfl, static, into⟩ := mine
        obtain ⟨everyone, -⟩ := of_decide_eq_true static
        obtain ⟨body, given⟩ := Option.isSome_iff_exists.mp (here.body static)
        have last : lastBody h.message.kind (Function.update s.sent tx
            (s.sent tx ++ [.line (h.line ++ [newline])]) client.tx) = denoted (some body) := by
          rw [into, Function.update_self, lastBody, bodies_append]
          simp [bodies, Sent.body?, here.parsed, everyone, given]
        rw [last, ← given]
        refine before.waiting n _ ⟨c, h, found, rfl, static, phase, into ▸ target, rfl⟩ ?_
        intro n' body' waits
        rcases gone waits with stays | ⟨-, -, -, rfl⟩
        · exact absurd stays (none _ _)
        · exact Nat.le_refl _
      · have same : lastBody kind (Function.update s.sent tx
            (s.sent tx ++ [.line (h.line ++ [newline])]) client.tx) = lastBody kind (s.sent client.tx) := by
          by_cases into : client.tx = tx
          · rw [into, Function.update_self, lastBody, bodies_append]
            have foreign : Sent.body? kind (.line (h.line ++ [newline])) = Option.none := by
              simp only [Sent.body?, List.dropLast_concat, here.parsed]
              rw [if_neg]
              rintro ⟨rfl, everyone⟩
              exact mine ⟨rfl, by simp [Message.static, everyone, mark], into⟩
            simp [bodies, foreign, lastBody]
          · rw [Function.update_of_ne into]
        rw [same]
        refine before.arrived fun n' body waits => ?_
        rcases gone waits with stays | ⟨same, static, into, -⟩
        · exact none _ _ stays
        · exact mine ⟨same, static, into⟩

/-! ### Greeting and leaving -/

private theorem hi_sent (s : Server) (c : Conn) (old : Option Id) (id : Id) (abilities : List Bytes)
    (tx : Conn) :
    (s.handleHi c old id abilities).sent tx = (s.greet c old).sent tx ++
      List.replicate ((s.handleHi c old id abilities).txs.count tx)
        (.hey (s.handleHi c old id abilities).peers) := by
  rw [Server.handleHi, Server.handleHey, Server.broadcast_eq]
  rfl

private theorem hi_rest (s : Server) (c : Conn) (old : Option Id) (id : Id)
    (abilities : List Bytes) : (s.handleHi c old id abilities).state = s.state ∧
      (s.handleHi c old id abilities).handling = s.handling := by
  rw [Server.handleHi, Server.handleHey, Server.broadcast_eq]
  cases old with
  | none =>
    rw [Server.greet_new]
    exact ⟨rfl, rfl⟩
  | some old => exact ⟨rfl, rfl⟩

private theorem close_rest (s : Server) (c : Conn) (old : Option Id) :
    (s.handleClose c old).state = s.state ∧ (s.handleClose c old).handling = s.handling ∧
      ∀ tx, ∃ n peers, (s.handleClose c old).sent tx = s.sent tx ++ List.replicate n (.hey peers) ∧
        n ≤ (s.handleClose c old).txs.count tx := by
  have quiet : ∀ tx, ∃ n peers, s.sent tx = s.sent tx ++ List.replicate n (.hey peers) ∧
      n ≤ (s.handleClose c old).txs.count tx := fun tx => ⟨0, [], by simp, Nat.zero_le _⟩
  cases old with
  | none => exact ⟨rfl, rfl, quiet⟩
  | some old =>
    by_cases present : (s.clients.get? old).isSome = true
    · have shape : s.handleClose c (some old) = Server.handleHey
          { s with connections := s.connections.erase c, clients := s.clients.erase old } := by
        simp [Server.handleClose, present]
      rw [shape, Server.handleHey, Server.broadcast_eq]
      exact ⟨rfl, rfl, fun tx => ⟨_, _, rfl, Nat.le_refl _⟩⟩
    · have shape : s.handleClose c (some old) = { s with connections := s.connections.erase c } := by
        simp [Server.handleClose, present]
      rw [shape] at quiet ⊢
      exact ⟨rfl, rfl, quiet⟩

/-- A connection that has not said `hi` is in no entry. -/
private theorem count_eq_zero {t : Server} (sound : t.Sound) {c : Conn}
    (silent : t.connections.get? c = some none) : t.txs.count c = 0 := by
  rw [List.count_eq_zero]
  intro listed
  obtain ⟨client, among, rfl⟩ := List.mem_map.mp listed
  obtain ⟨⟨id, client'⟩, member, rfl⟩ := List.mem_map.mp among
  have isOpen := sound.alive id _ (Assoc.get?_of_mem sound.distinct member)
  rw [silent] at isOpen
  cases isOpen

private theorem kept_getD (agreed : Agreed s) : Kept (s.state.getD []) := by
  cases loaded : s.state with
  | none => exact ⟨.nil, nofun⟩
  | some state => exact agreed.kept state loaded

private theorem storedBody_getD (kind : Bytes) (state : Option State) :
    storedBody kind (some (state.getD [])) = storedBody kind state := by
  cases state <;> rfl

private theorem stored_eq (s : Server) :
    s.stored = (s.state.getD []).values.flatMap fun line => List.replicate 1 (.line line) := by
  simp [Server.stored, List.map_eq_flatMap]

/-- The messages of the state are the first that a new connection gets. -/
private theorem greeted (agreed : Agreed s) {c : Conn} (silent : s.connections.get? c = some none)
    (id : Id) (abilities : List Bytes) : ∃ n > 0, (s.handleHi c none id abilities).sent c =
      s.stored ++ List.replicate n (.hey (s.handleHi c none id abilities).peers) := by
  have listed : (s.handleHi c none id abilities).clients.get? id = some ⟨id, c, abilities⟩ := by
    rw [(Server.handleHi_fields ..).1, Assoc.get?_insert_self]
  refine ⟨(s.handleHi c none id abilities).txs.count c, ?_, ?_⟩
  · exact List.count_pos_iff.mpr
      (List.mem_map_of_mem (List.mem_map_of_mem (Assoc.mem_of_get?_lawful listed)))
  · rw [hi_sent, Server.greet_new]
    simp [agreed.silent c silent]

private theorem agreed_hi (agreed : Agreed s) {c : Conn} {old : Option Id} {id : Id}
    {abilities : List Bytes} (idle : s.handling = []) (found : s.connections.get? c = some old)
    (ordered : inOrder s (.hi c id abilities) = true)
    (sound : (s.handleHi c old id abilities).Sound) :
    Agreed (s.handleHi c old id abilities) := by
  obtain ⟨clients, connections⟩ := Server.handleHi_fields s c old id abilities
  obtain ⟨state, handling⟩ := hi_rest s c old id abilities
  rw [idle] at handling
  have others : ∀ tx, tx ≠ c → (s.greet c old).sent tx = s.sent tx := by
    intro tx other
    cases old with
    | none =>
      rw [Server.greet_new]
      exact Function.update_of_ne other ..
    | some old => rfl
  refine ⟨sound, state ▸ agreed.kept, ?_, ?_, ?_⟩
  · intro c' silent
    rw [hi_sent, count_eq_zero sound silent, List.replicate_zero, List.append_nil]
    rw [connections, Assoc.get?_insert] at silent
    split at silent
    · cases silent
    · next other => rw [others c' (fun here => other (by simp [here])),
        agreed.silent c' silent]
  · intro c' h there
    rw [handling] at there
    cases there
  · intro kind mark id' client there able
    have nothing := fun n body => waits_nil kind client.tx n body
    refine ⟨fun n body waits => absurd waits (handling ▸ nothing n body), fun _ => ?_⟩
    rw [state, hi_sent, lastBody_append_heys]
    have arrived : ∀ id client, s.clients.get? id = some client → client.able kind = true →
        lastBody kind (s.sent client.tx) = storedBody kind s.state := fun id client there able =>
      (agreed.informed kind mark id client there able).arrived (idle ▸ waits_nil kind client.tx)
    rw [clients, Assoc.get?_insert] at there
    split at there
    · cases there
      cases old with
      | none =>
        rw [Server.greet_new]
        simp only [Function.update_self]
        rw [stored_eq, agreed.silent c found,
          lastBody_append_lines (kept_getD agreed) rfl Nat.one_pos, storedBody_getD]
      | some old =>
        -- it could get messages of the kind before
        simp only [inOrder, found, Option.any_eq_true] at ordered
        obtain ⟨before, there, here⟩ := ordered
        simp only [Bool.decide_and, Bool.and_eq_true, decide_eq_true_eq,
          List.all_eq_true] at here
        have earlier : before.able kind = true := by
          have asked := here.2 kind (List.elem_iff.mp able)
          simpa [mark] using asked
        exact here.1 ▸ arrived old before there earlier
    · obtain ⟨there, other⟩ := agreed.sound.stays found there
      rw [others _ other]
      exact arrived id' client there able

private theorem agreed_close (agreed : Agreed s) {c : Conn} {old : Option Id}
    (idle : s.handling = []) (found : s.connections.get? c = some old)
    (sound : (s.handleClose c old).Sound) : Agreed (s.handleClose c old) := by
  obtain ⟨clients, connections⟩ := Server.handleClose_fields s c old
  obtain ⟨state, handling, sent⟩ := close_rest s c old
  rw [idle] at handling
  refine ⟨sound, state ▸ agreed.kept, ?_, ?_, ?_⟩
  · intro c' silent
    obtain ⟨n, peers, shape, few⟩ := sent c'
    rw [count_eq_zero sound silent, Nat.le_zero] at few
    rw [connections, Assoc.get?_erase] at silent
    split at silent
    · cases silent
    · rw [shape, few, List.replicate_zero, List.append_nil, agreed.silent c' silent]
  · intro c' h there
    rw [handling] at there
    cases there
  · intro kind mark id client there able
    rw [clients] at there
    obtain ⟨there, -⟩ := agreed.sound.stays found there
    refine (agreed.informed kind mark id client there able).congr (fun n body => ?_) (by rw [state]) ?_
    · rw [handling, idle]
    · obtain ⟨n, peers, shape, -⟩ := sent client.tx
      rw [shape, lastBody_append_heys]

/-- What was stored before reaches everyone who is connected when it is read. -/
private theorem agreed_load (agreed : Agreed s) {entries : State} (absent : s.state = none)
    (kept : Kept entries) (sound : (s.load entries).Sound) : Agreed (s.load entries) := by
  rw [Server.load_eq] at sound ⊢
  refine ⟨sound, ?_, ?_, ?_, ?_⟩
  · rintro state ⟨⟩
    exact kept
  · intro c silent
    simp [count_eq_zero agreed.sound silent, agreed.silent c silent]
  · intro c h found
    have here := agreed.handled c h found
    exact ⟨here.parsed, here.addressed, here.body, here.storing, here.counted, fun _ _ => nofun⟩
  · intro kind mark id client found able
    -- nothing was stored so far, so that nothing waits
    have nothing : ∀ n body, ¬Waits s.handling kind client.tx n body := by
      rintro n body ⟨c, h, there, -, static, phase, -⟩
      refine (agreed.handled c h there).loaded static ?_ absent
      rw [phase]
      nofun
    refine ⟨fun n body waits => absurd waits (nothing n body), fun _ => ?_⟩
    have empty := (agreed.informed kind mark id client found able).arrived nothing
    rw [absent] at empty
    have listed : client.tx ∈ s.txs :=
      List.mem_map_of_mem (List.mem_map_of_mem (Assoc.mem_of_get?_lawful found))
    exact lastBody_append_lines kept empty (List.count_pos_iff.mpr listed)

private theorem agreed_step {a : Event} {t : Server} (agreed : Agreed s)
    (move : restrict Server.step inOrder s a = some t) : Agreed t := by
  obtain ⟨ordered, move⟩ := restrict_eq_some move
  have sound := Server.sound_step agreed.sound move
  cases a with
  | accept c =>
    simp only [Server.step] at move
    split at move
    · cases move
    · next fresh =>
      cases move
      exact agreed_accept agreed (by simpa using fresh) sound
  | hi c id abilities =>
    simp only [Server.step] at move
    split at move
    · next idle =>
      obtain ⟨old, found, rfl⟩ := Option.map_eq_some_iff.mp move
      exact agreed_hi agreed idle found ordered sound
    · cases move
  | line c line =>
    simp only [Server.step] at move
    split at move
    · cases move
    · next free =>
      obtain ⟨id, -, move⟩ := Option.bind_eq_some_iff.mp move
      split at move
      · cases move
        exact agreed
      · split at move
        · cases move
        · cases move
          exact agreed_line agreed (by simpa using (not_or.mp free).1) line
  | set c =>
    obtain ⟨h, found, move⟩ := Option.bind_eq_some_iff.mp move
    split at move
    · next storing =>
      cases move
      exact agreed_set agreed found storing
    · cases move
  | send c tx =>
    obtain ⟨h, found, move⟩ := Option.bind_eq_some_iff.mp move
    split at move
    · next forwarding =>
      cases move
      exact agreed_send agreed found forwarding.1 forwarding.2 ordered
    · cases move
  | close c =>
    simp only [Server.step] at move
    split at move
    · next idle =>
      obtain ⟨old, found, rfl⟩ := Option.map_eq_some_iff.mp move
      exact agreed_close agreed idle found sound
    · cases move
  | load entries =>
    simp only [Server.step] at move
    split at move
    · next fresh =>
      cases move
      exact agreed_load agreed fresh.1 ⟨fresh.2.1, List.all_eq_true.mp fresh.2.2⟩ sound
    · cases move

end steps

/-- Where each client gets the messages of a kind in the order in which they were stored, whoever
is able has got what is kept of a kind once none of its messages is handled; and a new client
gets what is kept first. -/
theorem static_agreement {labels : List Event} {s : Server}
    (run : Run (restrict Server.step inOrder) Server.make labels s) :
    (∀ kind : Bytes, kind.head? = some 0x40 →
      (∀ c h, s.handling.get? c = some h → h.message.static = true → h.message.kind ≠ kind) →
        ∀ id client, s.clients.get? id = some client → client.able kind = true →
          lastBody kind (s.sent client.tx) = storedBody kind s.state) ∧
    ∀ c id abilities t, s.connections.get? c = some none →
      s.step (.hi c id abilities) = some t →
        ∃ n > 0, t.sent c = s.stored ++ List.replicate n (.hey t.peers) := by
  have agreed : Agreed s := run.invariant (fun _ _ _ => agreed_step) agreed_make
  constructor
  · intro kind mark idle id client found able
    refine (agreed.informed kind mark id client found able).arrived fun n body waits => ?_
    obtain ⟨c, h, there, same, static, -⟩ := waits
    exact idle c h there static same
  · intro c id abilities t silent move
    simp only [Server.step, silent] at move
    split at move
    · cases move
      exact greeted agreed silent id abilities
    · cases move

def kindK : Bytes := text "@k"

/-- Two senders and one that listens; each of the two has a message stored. -/
def senders : List Event :=
  [.load [(kindK, text "@k,0,9,old\n")], .accept 0, .hi 0 5 [], .accept 1, .hi 1 6 [kindK],
    .accept 2, .hi 2 7 [], .line 0 (text "@k,0,5,first"), .line 2 (text "@k,0,7,second"), .set 0,
    .set 2]

def ordered : List Event := senders ++ [.send 0 1, .send 2 1]

theorem static_agreement_ordered : ∃ s, Run (restrict Server.step inOrder) Server.make ordered s ∧
    lastBody kindK (s.sent 1) = storedBody kindK s.state := by
  have run := run_exec
    (by decide : (exec (restrict Server.step inOrder) Server.make ordered).isSome = true)
  refine ⟨_, run, (static_agreement run).1 kindK (by decide) ?_ 6 ⟨6, 1, [kindK]⟩ (by decide)
    (by decide)⟩
  intro c h found
  have idle : ((exec (restrict Server.step inOrder) Server.make ordered).get
    (by decide)).handling = [] := by decide
  rw [idle] at found
  cases found

/-- The task that stored last may send first. -/
def overtaken : List Event := senders ++ [.send 2 1, .send 0 1]

theorem overtaken_disagrees : ∃ s, Run Server.step Server.make overtaken s ∧ s.handling = [] ∧
    (s.clients.get? 6).map (·.tx) = some 1 ∧ lastBody kindK (s.sent 1) = some (text "first") ∧
      storedBody kindK s.state = some (text "second") := by
  refine ⟨_, run_exec (by decide : (exec Server.step Server.make overtaken).isSome = true), ?_⟩
  decide

end Yazi.Dds
