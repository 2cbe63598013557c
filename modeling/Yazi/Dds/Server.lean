import Mathlib.Logic.Function.Basic
import Yazi.Base.Keyed
import Yazi.Base.Run
import Yazi.Shared.Decode

/-!
The server of the data distribution service: the table of its clients, the state it keeps of
static messages, and a task for each connection.

A task that reads the table holds its lock until its message is forwarded, so that no task
changes the table meanwhile; other tasks may read it at the same time. From the end of its loop
on, a task does nothing but remove its client, whenever that happens.
-/
namespace Yazi.Dds
open Base Shared

abbrev Id := Nat

/-- A connection; it stands for both ends of its channel. -/
abbrev Conn := Nat

/-! ### Messages -/

def comma : UInt8 := 0x2c

def newline : UInt8 := 0x0a

/-- `kind,receiver,sender,body` -/
structure Message where
  kind : Bytes
  receiver : Id
  sender : Nat
  body : Option Bytes
  deriving DecidableEq

namespace Message

/-- `line.splitn(4, ',')`, with its parts parsed. -/
def parse (line : Bytes) : Option Message :=
  match splitn 4 comma line with
  | kind :: receiver :: sender :: body =>
    match Decimal.read receiver, Decimal.read sender with
    | .ok receiver, .ok sender => some ⟨kind, receiver, sender, body.head?⟩
    | _, _ => none
  | _ => none

/-- A static message to everyone. -/
def static (m : Message) : Bool := m.receiver = 0 ∧ m.kind.head? = some 0x40

end Message

/-- What goes into the channel of a connection. -/
inductive Sent where
  | hey (peers : Assoc Id (List Bytes))
  | line (s : Bytes)
  deriving DecidableEq

/-! ### The state -/

/-- The last static message of each kind. -/
abbrev State := Assoc Bytes Bytes

namespace State

/-- `{kind},0,{sender},{body}\n` -/
def value (kind : Bytes) (sender : Nat) (body : Bytes) : Bytes :=
  kind ++ comma :: text "0" ++ comma :: (Decimal.write sender ++ comma :: (body ++ [newline]))

/-- `State::set`: the state it leaves, if anything changes. -/
def set (inner : State) (kind : Bytes) (sender : Nat) (body : Bytes) : Option State :=
  if body = text "null" then
    if (inner.get? kind).isSome then some (inner.erase kind) else none
  else if inner.get? kind = some (value kind sender body) then none
  else some (inner.insert kind (value kind sender body))

end State

/-! ### The server -/

structure Client where
  id : Id
  tx : Conn
  abilities : List Bytes
  deriving DecidableEq

def Client.able (c : Client) (ability : Bytes) : Bool := c.abilities.contains ability

inductive Phase where
  | storing
  /-- Stored, or not to be stored, when so many stores had happened. -/
  | forwarding (stores : Nat)
  deriving DecidableEq

/-- A message that a task is handling, and the clients that are still to get it. -/
structure Handling where
  line : Bytes
  message : Message
  targets : List Conn
  phase : Phase
  deriving DecidableEq

structure Server where
  /-- `CLIENTS` -/
  clients : Assoc Id Client
  /-- `STATE`, once it is loaded -/
  state : Option State
  /-- The number of stores so far. -/
  stores : Nat
  /-- The tasks, with what they know as the id of their client. -/
  connections : Assoc Conn (Option Id)
  /-- The tasks that hold the table's lock for reading. -/
  handling : Assoc Conn Handling
  /-- What was put into the channels. -/
  sent : Conn → List Sent

namespace Server

/-- `Server::make` -/
def make : Server where
  clients := []
  state := none
  stores := 0
  connections := []
  handling := []
  sent := fun _ => []

/-- `_ = tx.send(..)` -/
def send (s : Server) (tx : Conn) (payload : Sent) : Server :=
  { s with sent := Function.update s.sent tx (s.sent tx ++ [payload]) }

def broadcast (s : Server) (txs : List Conn) (payload : Sent) : Server :=
  txs.foldl (fun s tx => s.send tx payload) s

def txs (s : Server) : List Conn := s.clients.values.map (·.tx)

def peers (s : Server) : Assoc Id (List Bytes) := s.clients.values.map fun c => (c.id, c.abilities)

/-- `Server::handle_hey` -/
def handleHey (s : Server) : Server := s.broadcast s.txs (.hey s.peers)

/-- The lines of the state, for a client that is new. -/
def stored (s : Server) : List Sent := (s.state.getD []).values.map .line

/-- The first part of `Server::handle_hi`: another id is given up, a new client is told the
state. -/
def greet (s : Server) (c : Conn) : Option Id → Server
  | some old => { s with clients := s.clients.erase old }
  | none => s.stored.foldl (fun s line => s.send c line) s

/-- `Server::handle_hi` -/
def handleHi (s : Server) (c : Conn) (id : Option Id) (sender : Id) (abilities : List Bytes) :
    Server :=
  let s := s.greet c id
  { s with
    connections := s.connections.insert c (some sender)
    clients := s.clients.insert sender ⟨sender, c, abilities⟩ }.handleHey

/-- The clients that a message is for. -/
def targets (s : Server) (m : Message) : List Conn :=
  let clients :=
    if m.receiver = 0 then s.clients.values.filter (·.able m.kind)
    else (s.clients.get? m.receiver).toList.filter (·.able m.kind)
  clients.map (·.tx)

/-- A line of another message, up to the point where it is stored or forwarded. -/
def handleLine (s : Server) (c : Conn) (line : Bytes) : Server :=
  match Message.parse line with
  | none => s
  | some m =>
    if s.targets m = [] then s
    else if m.static then
      match m.body with
      | none => s
      | some _ => { s with handling := s.handling.insert c ⟨line, m, s.targets m, .storing⟩ }
    else { s with handling := s.handling.insert c ⟨line, m, s.targets m, .forwarding s.stores⟩ }

/-- `if !STATE.set(kind, sender, body) { continue }` -/
def handleSet (s : Server) (c : Conn) (h : Handling) : Server :=
  match s.state.bind (·.set h.message.kind h.message.sender (h.message.body.getD [])) with
  | none => { s with handling := s.handling.erase c }
  | some state =>
    { s with
      state := some state
      stores := s.stores + 1
      handling := s.handling.insert c { h with phase := .forwarding (s.stores + 1) } }

/-- `c.tx.send(line.clone())` for one of the clients. -/
def handleSend (s : Server) (c tx : Conn) (h : Handling) : Server :=
  let rest := h.targets.erase tx
  { s with
    handling :=
      if rest = [] then s.handling.erase c else s.handling.insert c { h with targets := rest } }.send
    tx (.line (h.line ++ [newline]))

/-- The end of a task. -/
def handleClose (s : Server) (c : Conn) (id : Option Id) : Server :=
  let s := { s with connections := s.connections.erase c }
  match id with
  | none => s
  | some id =>
    if (s.clients.get? id).isSome then { s with clients := s.clients.erase id }.handleHey else s

/-- A line of the state's file, with its kind. -/
def wellStored (entry : Bytes × Bytes) : Bool :=
  match Message.parse entry.2.dropLast with
  | some ⟨kind, receiver, _, some body⟩ =>
    kind = entry.1 ∧ receiver = 0 ∧ kind.head? = some 0x40 ∧ body ≠ text "null"
  | _ => false

/-- `State::load` -/
def load (s : Server) (entries : State) : Server :=
  { entries.values.foldl (fun s line => s.broadcast s.txs (.line line)) s with
    state := some entries }

end Server

/-! ### Runs -/

inductive Event where
  | accept (c : Conn)
  | hi (c : Conn) (sender : Id) (abilities : List Bytes)
  /-- A line that is neither a `hi` that parses nor a `bye` of a client. -/
  | line (c : Conn) (s : Bytes)
  | set (c : Conn)
  | send (c tx : Conn)
  /-- After a `bye`, a failed write, or the end of the stream. -/
  | close (c : Conn)
  | load (entries : State)
  deriving DecidableEq

namespace Server

def step (s : Server) : Event → Option Server
  | .accept c =>
    if (s.connections.get? c).isSome then none
    else
      some { s with
        connections := s.connections.insert c none
        sent := Function.update s.sent c [] }
  | .hi c sender abilities =>
    if s.handling = [] then (s.connections.get? c).map fun id => s.handleHi c id sender abilities
    else none
  | .line c line =>
    if (s.handling.get? c).isSome ∨ newline ∈ line then none
    else
      (s.connections.get? c).bind fun id =>
        if id = none ∨ text "hi," <+: line then some s
        else if text "bye," <+: line then none
        else some (s.handleLine c line)
  | .set c =>
    (s.handling.get? c).bind fun h =>
      if h.phase = .storing then some (s.handleSet c h) else none
  | .send c tx =>
    (s.handling.get? c).bind fun h =>
      if h.phase ≠ .storing ∧ tx ∈ h.targets then some (s.handleSend c tx h) else none
  | .close c =>
    if s.handling = [] then (s.connections.get? c).map fun id => s.handleClose c id else none
  | .load entries =>
    if s.state = none ∧ entries.Distinct ∧ entries.all wellStored then some (s.load entries)
    else none

end Server
end Yazi.Dds
