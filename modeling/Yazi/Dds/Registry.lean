import Yazi.Dds.Server

/-!
The table of clients against the connections that are open.

An observer beside the server keeps the open connections that have said `hi`, with the id each
of them said last, the latest first. Two of them may have said the same id.
-/
namespace Yazi.Dds
open Base Shared

/-! ### What the channels get -/

namespace Server

@[simp] theorem broadcast_eq (s : Server) (txs : List Conn) (payload : Sent) :
    s.broadcast txs payload =
      { s with sent := fun c => s.sent c ++ List.replicate (txs.count c) payload } := by
  induction txs generalizing s with
  | nil => simp [broadcast]
  | cons tx txs ih =>
    rw [broadcast, List.foldl_cons, ← broadcast, ih]
    simp only [send, Server.mk.injEq, true_and]
    funext c
    by_cases here : c = tx
    · subst here
      rw [Function.update_self, List.count_cons_self, List.append_assoc, List.replicate_succ]
      rfl
    · rw [Function.update_of_ne here, List.count_cons_of_ne (Ne.symm here)]

theorem greet_new (s : Server) (c : Conn) :
    s.greet c none = { s with sent := Function.update s.sent c (s.sent c ++ s.stored) } := by
  have lines : ∀ (lines : List Sent) (s : Server), lines.foldl (fun s line => s.send c line) s =
      { s with sent := Function.update s.sent c (s.sent c ++ lines) } := by
    intro lines
    induction lines with
    | nil => simp
    | cons line lines ih =>
      intro s
      rw [List.foldl_cons, ih]
      simp [send]
  exact lines s.stored s

theorem load_eq (s : Server) (entries : State) :
    s.load entries = { s with
      state := some entries
      sent := fun c => s.sent c ++
        entries.values.flatMap fun line => List.replicate (s.txs.count c) (.line line) } := by
  have lines : ∀ (lines : List Bytes) (s' : Server), s'.txs = s.txs →
      lines.foldl (fun s line => s.broadcast s.txs (.line line)) s' = { s' with
        sent := fun c => s'.sent c ++
          lines.flatMap fun line => List.replicate (s.txs.count c) (.line line) } := by
    intro lines
    induction lines with
    | nil => simp
    | cons line lines ih =>
      intro s' same
      rw [List.foldl_cons, ih]
      · simp [same]
      · rw [broadcast_eq]
        exact same
  rw [load, lines _ _ rfl]

end Server

def Sent.hey? : Sent → Option (Assoc Id (List Bytes))
  | .hey peers => some peers
  | .line _ => none

/-- The table as a client knows it. -/
def lastHey (sent : List Sent) : Option (Assoc Id (List Bytes)) := (sent.filterMap Sent.hey?).getLast?

theorem lastHey_append_of_lines {sent more : List Sent} (lines : ∀ x ∈ more, x.hey? = none) :
    lastHey (sent ++ more) = lastHey sent := by
  rw [lastHey, List.filterMap_append, List.filterMap_eq_nil_iff.mpr lines, List.append_nil, lastHey]

theorem lastHey_append_heys (sent : List Sent) {n : Nat} (pos : 0 < n)
    (peers : Assoc Id (List Bytes)) :
    lastHey (sent ++ List.replicate n (.hey peers)) = some peers := by
  obtain ⟨n, rfl⟩ := Nat.exists_eq_succ_of_ne_zero (Nat.ne_of_gt pos)
  rw [List.replicate_succ', ← List.append_assoc, lastHey, List.filterMap_append]
  simp [Sent.hey?]

/-! ### The observer -/

/-- The open connections that have said `hi`, the latest first. -/
abbrev Registered := List (Conn × Id)

def observe (r : Registered) : Event → Registered
  | .hi c id _ => (c, id) :: r.filter (·.1 ≠ c)
  | .close c => r.filter (·.1 ≠ c)
  | _ => r

/-- The connection that registered an id last and is still open under it. -/
def holder (r : Registered) (id : Id) : Option Conn := (r.find? (·.2 = id)).map (·.1)

theorem holder_cons (r : Registered) (c : Conn) (id id' : Id) :
    holder ((c, id) :: r) id' = if id = id' then some c else holder r id' := by
  rw [holder, List.find?_cons]
  by_cases same : id = id' <;> simp [same, holder]

theorem holder_eq_none (r : Registered) (id : Id) : holder r id = none ↔ ∀ p ∈ r, p.2 ≠ id := by
  simp [holder]

theorem holder_filter {r : Registered} {c : Conn} {id : Id} (elsewhere : (c, id) ∉ r) :
    holder (r.filter (·.1 ≠ c)) id = holder r id := by
  induction r with
  | nil => rfl
  | cons p r ih =>
    obtain ⟨c', id'⟩ := p
    obtain ⟨first, later⟩ := not_or.mp (mt List.mem_cons.mpr elsewhere)
    rw [List.filter_cons, holder_cons]
    by_cases here : c' = c
    · subst here
      have other : id' ≠ id := fun same => first (same ▸ rfl)
      simpa [other] using ih later
    · simpa [here, holder_cons] using congrArg _ (ih later)

/-- Nobody else is registered under the id. -/
def alone (r : Registered) (c : Conn) (id : Id) : Bool := r.all fun p => p.1 = c ∨ p.2 ≠ id

theorem alone_iff (r : Registered) (c : Conn) (id : Id) :
    alone r c id = true ↔ holder (r.filter (·.1 ≠ c)) id = none := by
  rw [alone, holder_eq_none, List.all_eq_true]
  constructor
  · intro all p member
    obtain ⟨member, other⟩ := List.mem_filter.mp member
    have here := all p member
    simp only [ne_eq, decide_not, Bool.not_eq_true', decide_eq_false_iff_not] at other
    simpa [other] using here
  · intro none p member
    by_cases here : p.1 = c
    · simp [here]
    · simpa [here] using none p (List.mem_filter.mpr ⟨member, by simpa using here⟩)

/-- A connection that gives up its id is the only one that is registered under it. -/
def undisputed (s : Server) (r : Registered) : Event → Bool
  | .hi c id _ =>
    match s.connections.get? c with
    | some (some old) => old = id || alone r c old
    | _ => true
  | .close c =>
    match s.connections.get? c with
    | some (some old) => alone r c old
    | _ => true
  | _ => true

/-! ### What a step does to the table -/

namespace Server

theorem told_handleHey (s : Server) {id : Id} {client : Client}
    (found : s.handleHey.clients.get? id = some client) :
    lastHey (s.handleHey.sent client.tx) = some s.handleHey.peers := by
  rw [handleHey, broadcast_eq] at found
  have listed : client.tx ∈ s.txs :=
    List.mem_map_of_mem (List.mem_map_of_mem (Assoc.mem_of_get?_lawful found))
  rw [handleHey, broadcast_eq]
  exact lastHey_append_heys _ (List.count_pos_iff.mpr listed) _

/-- The step leaves the table alone, and what the clients know of it. -/
structure Quiet (s t : Server) : Prop where
  clients : t.clients = s.clients
  connections : ∀ c id,
    t.connections.get? c = some (some id) ↔ s.connections.get? c = some (some id)
  told : ∀ c, (s.connections.get? c).isSome = true → lastHey (t.sent c) = lastHey (s.sent c)

private theorem quiet_of_sent {s t : Server} (more : Conn → List Sent)
    (clients : t.clients = s.clients) (connections : t.connections = s.connections)
    (sent : ∀ c, t.sent c = s.sent c ++ more c) (lines : ∀ c, ∀ x ∈ more c, x.hey? = none) :
    s.Quiet t where
  clients := clients
  connections := by simp [connections]
  told := by
    intro c _
    rw [sent, lastHey_append_of_lines (lines c)]

private theorem quiet_same {s t : Server} (clients : t.clients = s.clients)
    (connections : t.connections = s.connections) (sent : t.sent = s.sent) : s.Quiet t :=
  quiet_of_sent (fun _ => []) clients connections (by simp [sent]) (by simp)

private theorem quiet_accept {s : Server} {c : Conn} (fresh : s.connections.get? c = none) :
    s.Quiet { s with
      connections := s.connections.insert c none
      sent := Function.update s.sent c [] } where
  clients := rfl
  connections := by
    intro c' id
    rw [Assoc.get?_insert]
    split
    · next here => simp [eq_of_beq here, fresh]
    · rfl
  told := by
    intro c' isOpen
    have other : c' ≠ c := by
      rintro rfl
      simp [fresh] at isOpen
    simp [other]

private theorem quiet_handleLine (s : Server) (c : Conn) (line : Bytes) :
    s.Quiet (s.handleLine c line) := by
  rw [handleLine]
  repeat' split
  all_goals exact quiet_same rfl rfl rfl

private theorem quiet_handleSet (s : Server) (c : Conn) (h : Handling) :
    s.Quiet (s.handleSet c h) := by
  rw [handleSet]
  split <;> exact quiet_same rfl rfl rfl

private theorem quiet_handleSend (s : Server) (c tx : Conn) (h : Handling) :
    s.Quiet (s.handleSend c tx h) := by
  refine quiet_of_sent (fun c => if c = tx then [.line (h.line ++ [newline])] else []) rfl rfl
    (fun c => ?_) ?_
  · by_cases here : c = tx
    · subst here
      simp [handleSend, send]
    · simp [handleSend, send, here]
  · intro c x member
    split at member
    · cases List.mem_singleton.mp member
      rfl
    · cases member

private theorem quiet_load (s : Server) (entries : State) : s.Quiet (s.load entries) := by
  rw [load_eq]
  refine quiet_of_sent _ rfl rfl (fun c => rfl) ?_
  intro c x member
  obtain ⟨line, -, repeated⟩ := List.mem_flatMap.mp member
  rw [List.eq_of_mem_replicate repeated]
  rfl

/-- Every step but a `hi` and the end of a task is quiet. -/
theorem step_cases {s t : Server} {a : Event} (move : s.step a = some t) :
    (s.Quiet t ∧ (∀ r, observe r a = r) ∧ ∀ known, undisputed s known a = true) ∨
    (∃ c old id abilities, a = .hi c id abilities ∧ s.connections.get? c = some old ∧
      t = s.handleHi c old id abilities) ∨
    ∃ c old, a = .close c ∧ s.connections.get? c = some old ∧ t = s.handleClose c old := by
  cases a with
  | accept c =>
    refine .inl ⟨?_, fun _ => rfl, fun _ => rfl⟩
    simp only [step] at move
    split at move
    · cases move
    · next fresh =>
      cases move
      exact quiet_accept (by simpa using fresh)
  | hi c id abilities =>
    simp only [step] at move
    split at move
    · obtain ⟨old, found, rfl⟩ := Option.map_eq_some_iff.mp move
      exact .inr (.inl ⟨c, old, id, abilities, rfl, found, rfl⟩)
    · cases move
  | line c line =>
    refine .inl ⟨?_, fun _ => rfl, fun _ => rfl⟩
    simp only [step] at move
    split at move
    · cases move
    · obtain ⟨id, -, move⟩ := Option.bind_eq_some_iff.mp move
      split at move
      · cases move
        exact quiet_same rfl rfl rfl
      · split at move
        · cases move
        · cases move
          exact quiet_handleLine s c line
  | set c =>
    refine .inl ⟨?_, fun _ => rfl, fun _ => rfl⟩
    obtain ⟨h, -, move⟩ := Option.bind_eq_some_iff.mp move
    split at move
    · cases move
      exact quiet_handleSet s c h
    · cases move
  | send c tx =>
    refine .inl ⟨?_, fun _ => rfl, fun _ => rfl⟩
    obtain ⟨h, -, move⟩ := Option.bind_eq_some_iff.mp move
    split at move
    · cases move
      exact quiet_handleSend s c tx h
    · cases move
  | close c =>
    simp only [step] at move
    split at move
    · obtain ⟨old, found, rfl⟩ := Option.map_eq_some_iff.mp move
      exact .inr (.inr ⟨c, old, rfl, found, rfl⟩)
    · cases move
  | load entries =>
    refine .inl ⟨?_, fun _ => rfl, fun _ => rfl⟩
    simp only [step] at move
    split at move
    · cases move
      exact quiet_load s entries
    · cases move

/-- The table without the id that a connection had. -/
def without (s : Server) : Option Id → Assoc Id Client
  | some old => s.clients.erase old
  | none => s.clients

theorem get?_without (s : Server) (old : Option Id) (id : Id) :
    (s.without old).get? id = if old = some id then none else s.clients.get? id := by
  cases old with
  | none => simp [without]
  | some old => simp [without, Assoc.get?_erase]

theorem handleHi_fields (s : Server) (c : Conn) (old : Option Id) (id : Id)
    (abilities : List Bytes) :
    (s.handleHi c old id abilities).clients = (s.without old).insert id ⟨id, c, abilities⟩ ∧
      (s.handleHi c old id abilities).connections = s.connections.insert c (some id) := by
  rw [handleHi, handleHey, broadcast_eq]
  cases old with
  | none =>
    rw [greet_new]
    exact ⟨rfl, rfl⟩
  | some old => exact ⟨rfl, rfl⟩

theorem handleClose_fields (s : Server) (c : Conn) (old : Option Id) :
    (s.handleClose c old).clients = s.without old ∧
      (s.handleClose c old).connections = s.connections.erase c := by
  cases old with
  | none => exact ⟨rfl, rfl⟩
  | some old =>
    simp only [handleClose]
    split
    · rw [handleHey, broadcast_eq]
      exact ⟨rfl, rfl⟩
    · next absent =>
      have absent : s.clients.get? old = none := by simpa using absent
      exact ⟨(Assoc.erase_of_get?_eq_none absent).symm, rfl⟩

/-- Every entry belongs to an open connection, which was last told the table as it is. -/
structure Sound (s : Server) : Prop where
  distinct : s.clients.Distinct
  alive : ∀ id client, s.clients.get? id = some client →
    s.connections.get? client.tx = some (some id)
  told : ∀ id client, s.clients.get? id = some client →
    client.id = id ∧ lastHey (s.sent client.tx) = some s.peers

theorem sound_make : make.Sound where
  distinct := .nil
  alive := by intro id client found; cases found
  told := by intro id client found; cases found

/-- An entry that stays belongs to another connection. -/
theorem Sound.stays {s : Server} (sound : s.Sound) {c : Conn} {old : Option Id} {id : Id}
    {client : Client} (found : s.connections.get? c = some old)
    (stays : (s.without old).get? id = some client) :
    s.clients.get? id = some client ∧ client.tx ≠ c := by
  rw [get?_without] at stays
  split at stays
  · cases stays
  · next other =>
    refine ⟨stays, ?_⟩
    rintro rfl
    rw [sound.alive id client stays] at found
    exact other (Option.some.inj found).symm

private theorem sound_quiet {s t : Server} (sound : s.Sound) (quiet : s.Quiet t) : t.Sound where
  distinct := quiet.clients ▸ sound.distinct
  alive := by
    intro id client found
    rw [quiet.clients] at found
    rw [quiet.connections]
    exact sound.alive id client found
  told := by
    intro id client found
    rw [quiet.clients] at found
    have isOpen := Option.isSome_of_eq_some (sound.alive id client found)
    rw [quiet.told _ isOpen, peers, quiet.clients]
    exact sound.told id client found

theorem Sound.without {s : Server} (sound : s.Sound) (old : Option Id) :
    (s.without old).Distinct := by
  cases old with
  | none => exact sound.distinct
  | some old => exact sound.distinct.erase old

private theorem sound_hi {s : Server} (sound : s.Sound) {c : Conn} {old : Option Id}
    (found : s.connections.get? c = some old) (id : Id) (abilities : List Bytes) :
    (s.handleHi c old id abilities).Sound := by
  obtain ⟨clients, connections⟩ := handleHi_fields s c old id abilities
  refine ⟨clients ▸ (sound.without old).insert _ _, ?_, ?_⟩
  · intro id' client there
    rw [clients, Assoc.get?_insert] at there
    rw [connections, Assoc.get?_insert]
    split at there
    · next here =>
      cases there
      simp [eq_of_beq here]
    · obtain ⟨before, other⟩ := sound.stays found there
      simpa [other] using sound.alive id' client before
  · intro id' client there
    refine ⟨?_, told_handleHey _ there⟩
    rw [clients, Assoc.get?_insert] at there
    split at there
    · next here =>
      cases there
      exact (eq_of_beq here).symm
    · exact (sound.told id' client (sound.stays found there).1).1

private theorem sound_close {s : Server} (sound : s.Sound) {c : Conn} {old : Option Id}
    (found : s.connections.get? c = some old) : (s.handleClose c old).Sound := by
  obtain ⟨clients, connections⟩ := handleClose_fields s c old
  refine ⟨clients ▸ sound.without old, ?_, ?_⟩
  · intro id client there
    rw [clients] at there
    obtain ⟨before, other⟩ := sound.stays found there
    rw [connections, Assoc.get?_erase]
    simpa [Ne.symm other] using sound.alive id client before
  · intro id client there
    obtain ⟨before, -⟩ := sound.stays found (clients ▸ there)
    refine ⟨(sound.told id client before).1, ?_⟩
    cases old with
    | none => exact (sound.told id client before).2
    | some old =>
      simp only [handleClose] at there ⊢
      split at there
      · next present =>
        rw [if_pos present]
        exact told_handleHey _ there
      · next absent =>
        rw [if_neg absent]
        exact (sound.told id client before).2

theorem sound_step {s t : Server} {a : Event} (sound : s.Sound) (move : s.step a = some t) :
    t.Sound := by
  rcases step_cases move with ⟨quiet, -, -⟩ | ⟨c, old, id, abilities, -, found, rfl⟩ |
    ⟨c, old, -, found, rfl⟩
  · exact sound_quiet sound quiet
  · exact sound_hi sound found id abilities
  · exact sound_close sound found

end Server

/-! ### The table -/

/-- The server and its observer. -/
structure Watched where
  server : Server
  registered : Registered

namespace Watched
open Server

variable {w : Watched}

def make : Watched := ⟨.make, []⟩

def step (w : Watched) (a : Event) : Option Watched :=
  (w.server.step a).map fun s => ⟨s, observe w.registered a⟩

/-- The table maps each id to the connection that registered it last and is still open under it,
and whoever is in the table was last told exactly what is in it. -/
def Exact (w : Watched) : Prop :=
  (∀ id, (w.server.clients.get? id).map (·.tx) = holder w.registered id) ∧ w.server.Sound

/-- What holds of the observer whatever happens to the table. -/
structure Inv (w : Watched) : Prop where
  sound : w.server.Sound
  known : ∀ c id, (c, id) ∈ w.registered ↔ w.server.connections.get? c = some (some id)

theorem inv_make : make.Inv where
  sound := sound_make
  known := by
    intro c id
    simp [make, Server.make]

theorem exact_make : make.Exact := ⟨fun _ => rfl, sound_make⟩

theorem inv_step {a : Event} {w' : Watched} (inv : w.Inv) (move : w.step a = some w') :
    w'.Inv := by
  obtain ⟨t, moved, rfl⟩ := Option.map_eq_some_iff.mp move
  refine ⟨sound_step inv.sound moved, fun c id => ?_⟩
  have known := inv.known c id
  rcases step_cases moved with ⟨quiet, same, -⟩ | ⟨c', old, id', abilities, rfl, found, rfl⟩ |
    ⟨c', old, rfl, found, rfl⟩
  · rw [same, quiet.connections]
    exact known
  · rw [(handleHi_fields ..).2, Assoc.get?_insert, observe, List.mem_cons, List.mem_filter, known]
    by_cases here : c = c'
    · subst here
      simp [eq_comm]
    · simp [here]
  · rw [(handleClose_fields ..).2, Assoc.get?_erase, observe, List.mem_filter, known]
    by_cases here : c = c'
    · subst here
      simp
    · simp [here, Ne.symm here]

/-- A connection that gives up its id, by closing or with a `hi` under another one, is the only
one that is open under it. -/
def undisputed (w : Watched) (a : Event) : Bool := Dds.undisputed w.server w.registered a

/-- An id that a connection leaves has no entry, and should have none unless somebody else is
open under it. -/
private theorem left_exact (inv : w.Inv) (exact : w.Exact) {c : Conn} {old : Option Id}
    (found : w.server.connections.get? c = some old) (id : Id) :
    ((w.server.without old).get? id).map (·.tx) = holder (w.registered.filter (·.1 ≠ c)) id ↔
      (old = some id → alone w.registered c id = true) := by
  rw [get?_without]
  split
  · next here =>
    subst here
    rw [alone_iff]
    simp [eq_comm]
  · next other =>
    have elsewhere : (c, id) ∉ w.registered := by
      intro member
      rw [inv.known, found] at member
      exact other (Option.some.inj member)
    rw [exact.1, holder_filter elsewhere]
    simp [other]

private theorem table_hi (inv : w.Inv) (exact : w.Exact) {c : Conn} {old : Option Id} {id : Id}
    {abilities : List Bytes} (found : w.server.connections.get? c = some old) :
    (∀ id', ((w.server.handleHi c old id abilities).clients.get? id').map (·.tx) =
      holder (observe w.registered (.hi c id abilities)) id') ↔
        w.undisputed (.hi c id abilities) = true := by
  have entry : ∀ id', ((w.server.handleHi c old id abilities).clients.get? id').map (·.tx) =
      holder (observe w.registered (.hi c id abilities)) id' ↔
        (id ≠ id' → old = some id' → alone w.registered c id' = true) := by
    intro id'
    rw [(handleHi_fields ..).1, observe, holder_cons, Assoc.get?_insert,
      ← left_exact inv exact found]
    by_cases here : id = id'
    · simp [here]
    · simp [here, Ne.symm here]
  simp only [entry, undisputed, Dds.undisputed, found]
  cases old with
  | none => simp
  | some old =>
    simp only [Option.some.injEq, Bool.or_eq_true, decide_eq_true_eq]
    constructor
    · intro all
      by_cases same : old = id
      · exact .inl same
      · exact .inr (all old (Ne.symm same) rfl)
    · rintro (same | alone) id' other rfl
      · exact absurd same.symm other
      · exact alone

private theorem table_close (inv : w.Inv) (exact : w.Exact) {c : Conn} {old : Option Id}
    (found : w.server.connections.get? c = some old) :
    (∀ id, ((w.server.handleClose c old).clients.get? id).map (·.tx) =
      holder (observe w.registered (.close c)) id) ↔ w.undisputed (.close c) = true := by
  simp only [(handleClose_fields ..).1, observe, left_exact inv exact found, undisputed,
    Dds.undisputed, found]
  cases old <;> simp

/-- Exactly a disputed id spoils the table. -/
theorem exact_step {a : Event} {w' : Watched} (inv : w.Inv) (exact : w.Exact)
    (move : w.step a = some w') : w'.Exact ↔ w.undisputed a = true := by
  obtain ⟨t, moved, rfl⟩ := Option.map_eq_some_iff.mp move
  refine (and_iff_left (sound_step inv.sound moved)).trans ?_
  rcases step_cases moved with ⟨quiet, same, calm⟩ | ⟨c, old, id, abilities, rfl, found, rfl⟩ |
    ⟨c, old, rfl, found, rfl⟩
  · rw [same, quiet.clients]
    exact iff_of_true exact.1 (calm w.registered)
  · exact table_hi inv exact found
  · exact table_close inv exact found

/-- The table is exact at every moment if and only if no connection gives up an id that another
open connection has. -/
theorem registry_exact {labels : List Event} {w : Watched} (run : Run step make labels w) :
    Throughout step Exact make labels ↔ Run (restrict step undisputed) make labels w :=
  throughout_iff (fun _ _ _ inv move => inv_step inv move)
    (fun _ _ _ inv exact move => exact_step inv exact move) run inv_make exact_make

/-- An instance says `hi` twice, leaves, and comes back under its id. -/
def returning : List Event :=
  [.accept 0, .hi 0 5 [], .hi 0 5 [text "@yank"], .accept 1, .hi 1 7 [], .close 0, .accept 2,
    .hi 2 5 [text "@yank"]]

theorem registry_exact_returning : Throughout step Exact make returning :=
  (registry_exact (run_exec (by decide : (exec step make returning).isSome = true))).mpr
    (run_of_exec (Option.some_get
      (by decide : (exec (restrict step undisputed) make returning).isSome = true)).symm)

/-- An instance comes back before its old connection ends: that removes its new entry. -/
def reconnecting : List Event := [.accept 0, .hi 0 5 [], .accept 1, .hi 1 5 [], .close 0]

theorem reconnected_lost :
    ∃ w, Run step make reconnecting w ∧ w.server.connections.get? 1 = some (some 5) ∧
      w.server.clients.get? 5 = none ∧ ¬w.Exact := by
  refine ⟨_, run_exec (by decide : (exec step make reconnecting).isSome = true), by decide,
    by decide, fun exact => ?_⟩
  exact absurd (exact.1 5) (by decide)

end Watched
end Yazi.Dds
