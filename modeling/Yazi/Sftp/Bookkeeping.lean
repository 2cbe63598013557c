import Yazi.Sftp.Session

/-!
What a session keeps of its requests, whatever the order of sends, responses and losses.

A callback waits under the id of its request until it is taken out, once, with the packet it
gets. Once the writer has drained the table, no request that it had accepted waits there.
-/
namespace Yazi.Sftp
open Base Shared

/-! ### The calls -/

/-- Each call registers its callback once, before its outcome. -/
structure Registry (calls : Nat) (starting sending : Assoc Nat Packet)
    (registered : Assoc Nat UInt32) (accepted failed : List Nat) : Prop where
  started : ∀ call ∈ starting, call.1 < calls ∧ call.1 ∉ registered.keys
  known : ∀ token ∈ registered.keys, token < calls
  distinct : registered.keys.Nodup
  sending : ∀ call ∈ sending, (call.1, call.2.id) ∈ registered
  decided : ∀ token, token ∈ accepted ∨ token ∈ failed → token ∈ registered.keys

namespace Registry

variable {calls : Nat} {starting sending : Assoc Nat Packet} {registered : Assoc Nat UInt32}
  {accepted failed : List Nat}

theorem start (registry : Registry calls starting sending registered accepted failed)
    (request : Packet) :
    Registry (calls + 1) ((calls, request) :: starting) sending registered accepted failed where
  started := by
    intro call member
    rcases List.mem_cons.mp member with rfl | member
    · exact ⟨Nat.lt_succ_self _, fun known => Nat.lt_irrefl _ (registry.known _ known)⟩
    · obtain ⟨below, new⟩ := registry.started call member
      exact ⟨Nat.lt_succ_of_lt below, new⟩
  known := fun token member => Nat.lt_succ_of_lt (registry.known token member)
  distinct := registry.distinct
  sending := registry.sending
  decided := registry.decided

theorem register (registry : Registry calls starting sending registered accepted failed)
    {token : Nat} {request : Packet} (found : starting.get? token = some request) :
    Registry calls (starting.erase token) ((token, request) :: sending)
      ((token, request.id) :: registered) accepted failed where
  started := by
    intro call member
    obtain ⟨member, other⟩ := List.mem_filter.mp member
    obtain ⟨below, new⟩ := registry.started call member
    refine ⟨below, fun known => ?_⟩
    rcases List.mem_cons.mp known with same | known
    · rw [show call.1 = token from same] at other
      simp at other
    · exact new known
  known := by
    intro other member
    rcases List.mem_cons.mp member with rfl | member
    · exact (registry.started _ (Assoc.mem_of_get?_lawful found)).1
    · exact registry.known other member
  distinct := List.nodup_cons.mpr
    ⟨(registry.started _ (Assoc.mem_of_get?_lawful found)).2, registry.distinct⟩
  sending := by
    intro call member
    rcases List.mem_cons.mp member with rfl | member
    · exact List.mem_cons_self ..
    · exact List.mem_cons_of_mem _ (registry.sending call member)
  decided := fun other outcome => List.mem_cons_of_mem _ (registry.decided other outcome)

theorem accept (registry : Registry calls starting sending registered accepted failed)
    {token : Nat} {request : Packet} (found : sending.get? token = some request) :
    Registry calls starting (sending.erase token) registered (token :: accepted) failed :=
  { registry with
    sending := fun call member => registry.sending call (List.mem_of_mem_filter member)
    decided := by
      intro other outcome
      rw [List.mem_cons, or_assoc] at outcome
      rcases outcome with rfl | outcome
      · exact Assoc.mem_keys (registry.sending _ (Assoc.mem_of_get?_lawful found))
      · exact registry.decided other outcome }

theorem fail (registry : Registry calls starting sending registered accepted failed)
    {token : Nat} {request : Packet} (found : sending.get? token = some request) :
    Registry calls starting (sending.erase token) registered accepted (token :: failed) :=
  { registry with
    sending := fun call member => registry.sending call (List.mem_of_mem_filter member)
    decided := by
      intro other outcome
      rw [List.mem_cons, or_left_comm] at outcome
      rcases outcome with rfl | outcome
      · exact Assoc.mem_keys (registry.sending _ (Assoc.mem_of_get?_lawful found))
      · exact registry.decided other outcome }

end Registry

/-! ### The table -/

/-- A callback waits under the id of its request and has got nothing, and each has got at most
one packet, which carries that id. -/
structure Table (callback : Assoc UInt32 Nat) (registered : Assoc Nat UInt32)
    (delivered : Assoc Nat Packet) : Prop where
  distinct : callback.Distinct
  under : ∀ entry ∈ callback, (entry.2, entry.1) ∈ registered
  answered : ∀ answer ∈ delivered, (answer.1, answer.2.id) ∈ registered
  once : delivered.keys.Nodup
  waiting : ∀ entry ∈ callback, entry.2 ∉ delivered.keys

namespace Table

variable {callback : Assoc UInt32 Nat} {registered : Assoc Nat UInt32}
  {delivered : Assoc Nat Packet} {token : Nat} {id : UInt32}

theorem register (table : Table callback registered delivered)
    (new : token ∉ registered.keys) :
    Table (callback.insert id token) ((token, id) :: registered) delivered where
  distinct := table.distinct.insert id token
  under := by
    intro entry member
    rcases Assoc.mem_insert member with old | ⟨same, rfl⟩
    · exact List.mem_cons_of_mem _ (table.under entry old)
    · rw [eq_of_beq same]
      exact List.mem_cons_self ..
  answered := fun answer member => List.mem_cons_of_mem _ (table.answered answer member)
  once := table.once
  waiting := by
    intro entry member
    rcases Assoc.mem_insert member with old | ⟨-, rfl⟩
    · exact table.waiting entry old
    · intro got
      obtain ⟨answer, inside, same⟩ := List.mem_map.mp got
      exact new (same ▸ Assoc.mem_keys (table.answered answer inside))

theorem erase (table : Table callback registered delivered) (id : UInt32) :
    Table (callback.erase id) registered delivered :=
  { table with
    distinct := table.distinct.erase id
    under := fun entry member => table.under entry (List.mem_of_mem_filter member)
    waiting := fun entry member => table.waiting entry (List.mem_of_mem_filter member) }

/-- Nobody else waits with the token that is taken out. -/
theorem receive (table : Table callback registered delivered) (unique : registered.keys.Nodup)
    {packet : Packet} (found : callback.get? packet.id = some token) :
    Table (callback.erase packet.id) registered ((token, packet) :: delivered) :=
  have there := Assoc.mem_of_get?_lawful found
  { table.erase packet.id with
    answered := by
      intro answer member
      rcases List.mem_cons.mp member with rfl | member
      · exact table.under _ there
      · exact table.answered answer member
    once := List.nodup_cons.mpr ⟨table.waiting _ there, table.once⟩
    waiting := by
      intro entry member got
      obtain ⟨member, other⟩ := List.mem_filter.mp member
      rcases List.mem_cons.mp got with same | got
      · have mine := table.under entry member
        rw [show entry.2 = token from same] at mine
        have here : entry.1 = packet.id := Assoc.value_unique unique mine (table.under _ there)
        simp [here] at other
      · exact table.waiting entry member got }

theorem tokens_nodup (table : Table callback registered delivered)
    (unique : registered.keys.Nodup) : (callback.map (·.2)).Nodup := by
  apply List.pairwise_map.mpr
  apply table.distinct.imp_of_mem
  intro a b first second differ same
  have mine := table.under a first
  rw [same] at mine
  rw [Assoc.value_unique unique mine (table.under b second)] at differ
  simp at differ

theorem drain (table : Table callback registered delivered) (unique : registered.keys.Nodup) :
    Table [] registered
      ((callback.map fun entry => (entry.2, Session.lostPacket entry.1)) ++ delivered) where
  distinct := List.Pairwise.nil
  under := nofun
  answered := by
    intro answer member
    rcases List.mem_append.mp member with new | old
    · obtain ⟨entry, inside, rfl⟩ := List.mem_map.mp new
      exact table.under entry inside
    · exact table.answered answer old
  once := by
    rw [Assoc.keys, List.map_append, List.map_map, List.nodup_append]
    refine ⟨table.tokens_nodup unique, table.once, ?_⟩
    rintro token new _ old rfl
    obtain ⟨entry, member, rfl⟩ := List.mem_map.mp new
    exact table.waiting entry member old
  waiting := nofun

end Table

namespace Session

/-! ### The two tasks -/

/-- The channel is open until the writer closes it, and a writer that does not know of the loss
finds an empty message. -/
structure Channel (accepting : Bool) (writer : Writer) (queue : List Bytes) (lost : Bool) :
    Prop where
  accepting_iff : accepting = true ↔ writer = .running ∨ writer = .broken
  signalled : lost = true → writer = .running → [] ∈ queue

/-- Once the table is drained, nobody waits in it whose send was accepted. -/
def Drained (writer : Writer) (callback : Assoc UInt32 Nat) (accepted : List Nat) : Prop :=
  writer = .finished → ∀ entry ∈ callback, entry.2 ∉ accepted

structure Inv (s : Session) : Prop where
  registry : Registry s.calls s.starting s.sending s.registered s.accepted s.failed
  table : Table s.callback s.registered s.delivered
  channel : Channel s.accepting s.writer s.queue s.lost
  drained : Drained s.writer s.callback s.accepted

variable {s t : Session} {token : Nat} {request : Packet}

theorem inv_make : Inv make where
  registry :=
    ⟨by simp [make], by simp [make, Assoc.keys], List.nodup_nil, by simp [make], by simp [make]⟩
  table := ⟨List.Pairwise.nil, by simp [make], by simp [make], List.nodup_nil, by simp [make]⟩
  channel := ⟨by decide, by simp [make]⟩
  drained := by simp [Drained, make]

theorem Inv.start (inv : s.Inv) (request : Packet) : (s.start request).Inv := by
  simp only [Session.start]
  split
  · exact ⟨inv.registry.start _, inv.table, inv.channel, inv.drained⟩
  · exact ⟨inv.registry.start _, inv.table, inv.channel, inv.drained⟩

theorem Inv.register (inv : s.Inv) (found : s.starting.get? token = some request) :
    (s.register token request).Inv := by
  have new := (inv.registry.started _ (Assoc.mem_of_get?_lawful found)).2
  refine ⟨inv.registry.register found, inv.table.register new, inv.channel, ?_⟩
  intro finished entry member
  rcases Assoc.mem_insert member with old | ⟨-, rfl⟩
  · exact inv.drained finished entry old
  · exact fun accepted => new (inv.registry.decided _ (.inl accepted))

theorem Inv.fail (inv : s.Inv) (found : s.sending.get? token = some request) :
    (s.fail token).Inv :=
  ⟨inv.registry.fail found, inv.table, inv.channel, inv.drained⟩

/-- Only an open channel accepts, and it was not drained. -/
theorem Inv.accept (inv : s.Inv) (found : s.sending.get? token = some request)
    (accepting : s.accepting = true) (bytes : Bytes) : (s.accept token request bytes).Inv := by
  have channel := inv.channel
  refine ⟨inv.registry.accept found, inv.table, ⟨channel.accepting_iff, ?_⟩, ?_⟩
  · intro lost running
    exact List.mem_append_left _ (channel.signalled lost running)
  · intro finished
    have writing := channel.accepting_iff.mp accepting
    rw [show s.writer = .finished from finished] at writing
    exact absurd writing (by decide)

theorem Inv.push (inv : s.Inv) (found : s.sending.get? token = some request) :
    (s.push token request).Inv := by
  simp only [Session.push]
  split
  · exact inv.fail found
  · split
    · next accepting => exact inv.accept found accepting _
    · exact inv.fail found

theorem Inv.write (inv : s.Inv) {data : Bytes} {queue : List Bytes} (running : s.writer = .running)
    (head : s.queue = data :: queue) (result : Written) : (s.write data queue result).Inv := by
  have channel := inv.channel
  simp only [Session.write]
  split
  · refine ⟨inv.registry, inv.table, ⟨?_, nofun⟩, nofun⟩
    simp [channel.accepting_iff, running]
  · next other =>
    refine ⟨inv.registry, inv.table, ⟨channel.accepting_iff, ?_⟩, inv.drained⟩
    intro lost _
    have signalled := channel.signalled lost running
    rw [head] at signalled
    rcases List.mem_cons.mp signalled with empty | later
    · exact absurd (.inl empty.symm) other
    · exact later

theorem Inv.close (inv : s.Inv) : s.close.Inv :=
  ⟨inv.registry, inv.table, ⟨by simp [Session.close], nofun⟩, nofun⟩

theorem Inv.drain (inv : s.Inv) (closed : s.writer = .closed) : s.drain.Inv := by
  refine ⟨inv.registry, inv.table.drain inv.registry.distinct, ⟨?_, nofun⟩, nofun⟩
  have accepting_iff := inv.channel.accepting_iff
  rw [closed] at accepting_iff
  simpa [Session.drain] using accepting_iff

/-- Taking an entry out of the table. -/
theorem Drained.erase {writer : Writer} {callback : Assoc UInt32 Nat} {accepted : List Nat}
    (drained : Drained writer callback accepted) (id : UInt32) :
    Drained writer (callback.erase id) accepted :=
  fun finished entry member => drained finished entry (List.mem_of_mem_filter member)

theorem Inv.receive (inv : s.Inv) (buf : Bytes) : (s.receive buf).Inv := by
  simp only [Session.receive]
  split
  · exact inv
  · split
    · exact inv
    · next packet _ token found =>
      exact ⟨inv.registry, inv.table.receive inv.registry.distinct found, inv.channel,
        inv.drained.erase _⟩

theorem Inv.lose (inv : s.Inv) : s.lose.Inv := by
  have channel := inv.channel
  refine ⟨inv.registry, inv.table, ⟨channel.accepting_iff, ?_⟩, inv.drained⟩
  intro _ running
  have accepting := channel.accepting_iff.mpr (.inl running)
  simp [Session.lose, accepting]

theorem Inv.poll (inv : s.Inv) (token : Nat) (receiver : Receiver) :
    (s.poll token receiver).Inv := by
  simp only [Session.poll]
  split
  · exact inv
  · exact ⟨inv.registry, inv.table, inv.channel, inv.drained⟩

theorem Inv.drop (inv : s.Inv) (token : Nat) (receiver : Receiver) :
    (s.drop token receiver).Inv := by
  simp only [Session.drop]
  split
  · exact ⟨inv.registry, inv.table, inv.channel, inv.drained⟩
  · exact ⟨inv.registry, inv.table.erase _, inv.channel, inv.drained.erase _⟩

/-- What a step needs, and what it does. -/
theorem step_inv {a : Action} (inv : s.Inv) (move : step s a = some t) : t.Inv := by
  cases a with
  | start request =>
    cases move
    exact inv.start request
  | register token =>
    obtain ⟨request, found, rfl⟩ := Option.map_eq_some_iff.mp move
    exact inv.register found
  | push token =>
    obtain ⟨request, found, rfl⟩ := Option.map_eq_some_iff.mp move
    exact inv.push found
  | write result =>
    simp only [step] at move
    split at move
    · next data queue running head =>
      cases move
      exact inv.write running head result
    · cases move
  | close =>
    simp only [step, Option.ite_none_right_eq_some] at move
    obtain ⟨-, ⟨⟩⟩ := move
    exact inv.close
  | drain =>
    simp only [step, Option.ite_none_right_eq_some] at move
    obtain ⟨closed, ⟨⟩⟩ := move
    exact inv.drain closed
  | receive buf =>
    simp only [step, Option.ite_none_right_eq_some] at move
    obtain ⟨-, ⟨⟩⟩ := move
    exact inv.receive buf
  | lose =>
    simp only [step, Option.ite_none_right_eq_some] at move
    obtain ⟨-, ⟨⟩⟩ := move
    exact inv.lose
  | stop =>
    simp only [step, Option.ite_none_right_eq_some] at move
    obtain ⟨-, ⟨⟩⟩ := move
    exact ⟨inv.registry, inv.table, inv.channel, inv.drained⟩
  | poll token =>
    obtain ⟨receiver, -, rfl⟩ := Option.map_eq_some_iff.mp move
    exact inv.poll token receiver
  | drop token =>
    obtain ⟨receiver, -, rfl⟩ := Option.map_eq_some_iff.mp move
    exact inv.drop token receiver

theorem run_inv {acts : List Action} (run : Run step make acts s) : s.Inv :=
  run.invariant (fun _ _ _ => step_inv) inv_make

/-! ### What is kept -/

/-- A response goes to the call with its id, and a call gets one at most. A call that returned
an error has no callback in the table, and once the table is drained, neither has one that was
accepted. -/
structure Bookkept (s : Session) : Prop where
  sameId : ∀ answer ∈ s.delivered, (answer.1, answer.2.id) ∈ s.registered
  once : s.delivered.keys.Nodup
  cleared : ∀ entry ∈ s.callback, entry.2 ∉ s.failed
  drained : Drained s.writer s.callback s.accepted

def accepts (s : Session) (request : Packet) : Bool := s.accepting && request.toBytes.isOk

/-- The step is no failure of a send whose callback is in the table. -/
def clears (s : Session) : Action → Bool
  | .push token =>
    match s.sending.get? token with
    | none => true
    | some request => s.accepts request || s.callback.get? request.id != some token
  | _ => true

theorem Inv.bookkept (inv : s.Inv) (cleared : ∀ entry ∈ s.callback, entry.2 ∉ s.failed) :
    s.Bookkept :=
  ⟨inv.table.answered, inv.table.once, cleared, inv.drained⟩

theorem push_accepts (accepts : s.accepts request = true) :
    ∃ bytes, s.push token request = s.accept token request bytes := by
  obtain ⟨accepting, written⟩ := Bool.and_eq_true_iff.mp accepts
  simp only [Session.push]
  cases result : request.toBytes with
  | error e =>
    rw [result] at written
    cases written
  | ok bytes => exact ⟨bytes, if_pos accepting⟩

theorem push_fails (refuses : s.accepts request = false) :
    s.push token request = s.fail token := by
  simp only [Session.push]
  cases result : request.toBytes with
  | error e => rfl
  | ok bytes =>
    have closed : s.accepting = false := by
      simpa [accepts, result, Except.isOk, Except.toBool] using refuses
    simp [closed]

/-- A failing call clears the table exactly where its callback is not there any more. -/
private theorem bookkept_push (inv : s.Inv) (cleared : ∀ entry ∈ s.callback, entry.2 ∉ s.failed)
    (found : s.sending.get? token = some request) :
    (s.push token request).Bookkept ↔
      (s.accepts request || s.callback.get? request.id != some token) = true := by
  have next := inv.push found
  cases accepts : s.accepts request with
  | true =>
    obtain ⟨bytes, pushed⟩ := push_accepts accepts
    rw [pushed] at next ⊢
    simpa using next.bookkept cleared
  | false =>
    rw [push_fails accepts] at next ⊢
    rw [Bool.false_or, bne_iff_ne]
    constructor
    · intro bookkept there
      exact bookkept.cleared _ (Assoc.mem_of_get?_lawful there) (List.mem_cons_self ..)
    · intro gone
      refine next.bookkept fun entry member failed => ?_
      rcases List.mem_cons.mp failed with same | failed
      · -- The callback of the call can only wait under the id of its request.
        have mine := inv.registry.sending _ (Assoc.mem_of_get?_lawful found)
        have other := inv.table.under entry member
        rw [same] at other
        have id := Assoc.value_unique inv.registry.distinct mine other
        apply gone
        rw [show request.id = entry.1 from id, ← same]
        exact Assoc.get?_of_mem inv.table.distinct member
      · exact cleared entry member failed

/-- Of the other steps, none lets a call fail, and a callback that is new in the table is that
of a call that has no outcome. -/
private theorem bookkept_step {a : Action} (inv : s.Inv) (bookkept : s.Bookkept)
    (move : step s a = some t) : t.Bookkept ↔ s.clears a = true := by
  have next := step_inv inv move
  have cleared := bookkept.cleared
  cases a with
  | push token =>
    obtain ⟨request, found, rfl⟩ := Option.map_eq_some_iff.mp move
    simp only [clears, found]
    exact bookkept_push inv cleared found
  | start request =>
    cases move
    refine iff_of_true (next.bookkept ?_) rfl
    simp only [Session.start]
    split <;> exact cleared
  | register token =>
    obtain ⟨request, found, rfl⟩ := Option.map_eq_some_iff.mp move
    refine iff_of_true (next.bookkept fun entry member => ?_) rfl
    rcases Assoc.mem_insert member with old | ⟨-, rfl⟩
    · exact cleared entry old
    · have new := (inv.registry.started _ (Assoc.mem_of_get?_lawful found)).2
      exact fun failed => new (inv.registry.decided _ (.inr failed))
  | write result =>
    simp only [step] at move
    split at move
    · cases move
      refine iff_of_true (next.bookkept ?_) rfl
      simp only [Session.write]
      split <;> exact cleared
    · cases move
  | close =>
    simp only [step, Option.ite_none_right_eq_some] at move
    obtain ⟨-, ⟨⟩⟩ := move
    exact iff_of_true (next.bookkept cleared) rfl
  | drain =>
    simp only [step, Option.ite_none_right_eq_some] at move
    obtain ⟨-, ⟨⟩⟩ := move
    exact iff_of_true (next.bookkept nofun) rfl
  | receive buf =>
    simp only [step, Option.ite_none_right_eq_some] at move
    obtain ⟨-, ⟨⟩⟩ := move
    refine iff_of_true (next.bookkept ?_) rfl
    simp only [Session.receive]
    split
    · exact cleared
    · split
      · exact cleared
      · exact fun entry member => cleared entry (List.mem_of_mem_filter member)
  | lose =>
    simp only [step, Option.ite_none_right_eq_some] at move
    obtain ⟨-, ⟨⟩⟩ := move
    exact iff_of_true (next.bookkept cleared) rfl
  | stop =>
    simp only [step, Option.ite_none_right_eq_some] at move
    obtain ⟨-, ⟨⟩⟩ := move
    exact iff_of_true (next.bookkept cleared) rfl
  | poll token =>
    obtain ⟨receiver, -, rfl⟩ := Option.map_eq_some_iff.mp move
    refine iff_of_true (next.bookkept ?_) rfl
    simp only [Session.poll]
    split <;> exact cleared
  | drop token =>
    obtain ⟨receiver, -, rfl⟩ := Option.map_eq_some_iff.mp move
    refine iff_of_true (next.bookkept ?_) rfl
    simp only [Session.drop]
    split
    · exact cleared
    · exact fun entry member => cleared entry (List.mem_of_mem_filter member)

/-! ### The way down -/

/-- The connection is lost: reading has failed, or the writer has met a broken pipe. -/
def Down (s : Session) : Prop := s.lost = true ∨ s.writer ≠ .running

/-- How many steps the writer takes to the end of its task, at most. -/
def remaining (s : Session) : Nat :=
  match s.writer with
  | .running => s.queue.idxOf [] + 3
  | .broken => 2
  | .closed => 1
  | .finished => 0

/-- A step of another that leaves the writer alone and takes nothing out of the queue. -/
private theorem others_wait (inv : s.Inv) (down : s.Down) (lost : s.lost = true → t.lost = true)
    (writer : t.writer = s.writer) {more : List Bytes} (queue : t.queue = s.queue ++ more) :
    t.Down ∧ t.remaining ≤ s.remaining := by
  refine ⟨down.imp lost (writer ▸ ·), ?_⟩
  simp only [remaining, writer, queue]
  split
  · next running =>
    have signalled := inv.channel.signalled (down.resolve_right (· running)) running
    rw [List.idxOf_append_of_mem signalled]
  all_goals exact Nat.le_refl _

/-- Once the connection is lost, it stays so, nobody keeps the writer up, and each of its own
steps brings it nearer to its end. -/
theorem step_down {a : Action} (inv : s.Inv) (down : s.Down) (move : step s a = some t) :
    t.Down ∧ t.remaining ≤ s.remaining ∧ (a.isWriter = true → t.remaining < s.remaining) := by
  have waits : a.isWriter = false → t.Down ∧ t.remaining ≤ s.remaining →
      t.Down ∧ t.remaining ≤ s.remaining ∧ (a.isWriter = true → t.remaining < s.remaining) :=
    fun other down => ⟨down.1, down.2, fun writer => absurd (other ▸ writer) (by decide)⟩
  have nothing : s.queue = s.queue ++ [] := (List.append_nil _).symm
  cases a with
  | start request =>
    cases move
    apply waits rfl
    simp only [start]
    split <;> exact others_wait inv down id rfl nothing
  | register token =>
    obtain ⟨request, -, rfl⟩ := Option.map_eq_some_iff.mp move
    exact waits rfl (others_wait inv down id rfl nothing)
  | push token =>
    obtain ⟨request, -, rfl⟩ := Option.map_eq_some_iff.mp move
    apply waits rfl
    simp only [push]
    split
    · exact others_wait inv down id rfl nothing
    · split
      · exact others_wait inv down id rfl rfl
      · exact others_wait inv down id rfl nothing
  | write result =>
    simp only [step] at move
    split at move
    · next data queue running head =>
      cases move
      simp only [write]
      split
      · refine ⟨.inr nofun, ?_, fun _ => ?_⟩ <;> simp only [remaining, running] <;> omega
      · next other =>
        rw [not_or] at other
        have later : (data :: queue).idxOf [] = queue.idxOf [] + 1 :=
          List.idxOf_cons_ne _ other.1
        refine ⟨down.imp id (absurd running), ?_, fun _ => ?_⟩ <;>
          simp only [remaining, running, head, later] <;> omega
    · cases move
  | close =>
    simp only [step, Option.ite_none_right_eq_some] at move
    obtain ⟨broken, ⟨⟩⟩ := move
    refine ⟨.inr nofun, ?_, fun _ => ?_⟩ <;> simp [close, remaining, broken]
  | drain =>
    simp only [step, Option.ite_none_right_eq_some] at move
    obtain ⟨closed, ⟨⟩⟩ := move
    refine ⟨.inr nofun, ?_, fun _ => ?_⟩ <;> simp [drain, remaining, closed]
  | receive buf =>
    simp only [step, Option.ite_none_right_eq_some] at move
    obtain ⟨-, ⟨⟩⟩ := move
    apply waits rfl
    simp only [receive]
    split
    · exact others_wait inv down id rfl nothing
    · split <;> exact others_wait inv down id rfl nothing
  | lose =>
    simp only [step, Option.ite_none_right_eq_some] at move
    obtain ⟨-, ⟨⟩⟩ := move
    apply waits rfl
    have queue : s.lose.queue = s.queue ++ if s.accepting then [[]] else [] := by
      cases accepting : s.accepting <;> simp [lose, accepting]
    exact others_wait inv down (fun _ => rfl) rfl queue
  | stop =>
    simp only [step, Option.ite_none_right_eq_some] at move
    obtain ⟨-, ⟨⟩⟩ := move
    exact waits rfl (others_wait inv down id rfl nothing)
  | poll token =>
    obtain ⟨receiver, -, rfl⟩ := Option.map_eq_some_iff.mp move
    apply waits rfl
    simp only [poll]
    split <;> exact others_wait inv down id rfl nothing
  | drop token =>
    obtain ⟨receiver, -, rfl⟩ := Option.map_eq_some_iff.mp move
    exact waits rfl (others_wait inv down id rfl nothing)

/-- The writer can go on until it has finished. -/
theorem writer_enabled (inv : s.Inv) (down : s.Down) (unfinished : s.writer ≠ .finished) :
    ∃ a t, a.isWriter = true ∧ step s a = some t := by
  cases writer : s.writer with
  | running =>
    have signalled := inv.channel.signalled (down.resolve_right (· writer)) writer
    obtain ⟨data, queue, head⟩ := List.exists_cons_of_ne_nil (List.ne_nil_of_mem signalled)
    exact ⟨.write .ok, s.write data queue .ok, rfl, by simp only [step, writer, head]⟩
  | broken => exact ⟨.close, s.close, rfl, if_pos writer⟩
  | closed => exact ⟨.drain, s.drain, rfl, if_pos writer⟩
  | finished => exact absurd writer unfinished

/-- All along a run the session keeps book, exactly where no send fails while its callback is
in the table. After a loss the writer gets to the end of its task, whatever the others do. -/
theorem bookkeeping {acts : List Action} (run : Run step make acts s) :
    (Throughout step Bookkept make acts ↔ Run (restrict step clears) make acts s) ∧
    (s.Down → (s.writer ≠ .finished → ∃ a t, a.isWriter = true ∧ step s a = some t) ∧
      ∀ a t, step s a = some t →
        t.Down ∧ t.remaining ≤ s.remaining ∧ (a.isWriter = true → t.remaining < s.remaining)) := by
  have inv := run_inv run
  refine ⟨?_, fun down => ⟨writer_enabled inv down, fun a t => step_down inv down⟩⟩
  apply throughout_iff (Q := Inv) (fun _ _ _ => step_inv) ?_ run inv_make
  · exact inv_make.bookkept nofun
  · exact fun s a t => bookkept_step

/-- A request for the attributes of the root. -/
def lstatRoot : Packet := .lstat ⟨0, [0x2f]⟩

/-- A request is accepted, and the connection is lost: it is told so. -/
theorem bookkeeping_sample :
    let acts : List Action := [.start lstatRoot, .register 0, .push 0, .lose, .write .ok,
      .write .ok, .close, .drain]
    ∃ s, Run step make acts s ∧ s.callback = [] ∧ s.accepted = [0] ∧
      s.delivered.keys = [0] ∧ Throughout step Bookkept make acts := by
  refine ⟨_, run_exec rfl, rfl, rfl, rfl, (bookkeeping (run_exec rfl)).1.mpr ?_⟩
  exact run_of_exec rfl

/-- A send after the loss returns an error, and its callback stays in the table. -/
theorem failed_send_leaks :
    ∃ s, Run step make [.lose, .write .ok, .close, .drain, .start lstatRoot, .register 0, .push 0] s ∧
      s.failed = [0] ∧ s.callback = [(1, 0)] ∧ ¬s.Bookkept := by
  refine ⟨_, run_exec rfl, rfl, rfl, fun bookkept => ?_⟩
  exact bookkept.cleared (1, 0) (List.mem_cons_self ..) (List.mem_cons_self ..)

end Session

end Yazi.Sftp
