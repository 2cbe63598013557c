import Mathlib.Data.List.Sort
import Yazi.Dds.Server

/-!
The state of the server in its file.

A server that starts reads the file, one that ends writes it. In between, the last static message
of each kind is kept. So the file is a map that persists, as long as no newer file is there when a
server ends.
-/
namespace Yazi.Dds
open Base Shared

namespace State

/-- `AsyncBufReadExt::read_line`, to the end: the lines with their newlines. -/
def readLines : Bytes → List Bytes
  | [] => []
  | b :: s =>
    if b = newline then [b] :: readLines s
    else
      match readLines s with
      | [] => [[b]]
      | line :: lines => (b :: line) :: lines

def keep (inner : State) (line : Bytes) : State :=
  match splitn 4 comma line with
  | kind :: _ :: _ => if kind.head? = some 0x40 then inner.insert kind line else inner
  | _ => inner

def load (file : Bytes) : State := (readLines file).foldl keep []

/-- `sort_unstable_by(|(a, _), (b, _)| a.cmp(b))`, where no kind occurs twice. -/
def sorted (inner : State) : State := List.mergeSort inner fun a b => decide (a.1 ≤ b.1)

/-- What is written to the file. -/
def drain (inner : State) : Bytes := inner.sorted.values.flatten

/-- The last of several messages, of the kinds and bodies that a message can have. -/
structure Clean (kind body : Bytes) : Prop where
  static : kind.head? = some 0x40
  comma : comma ∉ kind
  newline : newline ∉ kind ∧ newline ∉ body

/-- What the state stands for: the sender and the body of the last message of each kind. -/
structure Stands (inner : State) (last : Bytes → Option (Nat × Bytes)) : Prop where
  distinct : inner.Distinct
  get : ∀ kind, inner.get? kind = (last kind).map fun m => value kind m.1 m.2
  clean : ∀ kind m, last kind = some m → Clean kind m.2

/-! ### Reading what was written -/

theorem readLines_append {line : Bytes} (clean : newline ∉ line) (rest : Bytes) :
    readLines (line ++ newline :: rest) = (line ++ [newline]) :: readLines rest := by
  induction line with
  | nil => rw [List.nil_append, readLines, if_pos rfl]; rfl
  | cons b line ih =>
    obtain ⟨other, clean⟩ := not_or.mp (List.mem_cons.not.mp clean)
    rw [List.cons_append, readLines, if_neg (Ne.symm other), ih clean]
    rfl

/-- A line is kept as the message of its kind. -/
theorem keep_value {kind body : Bytes} (clean : Clean kind body) (sender : Nat) (inner : State) :
    keep inner (value kind sender body) = inner.insert kind (value kind sender body) := by
  have first : splitn 4 comma (value kind sender body) = kind :: splitn 3 comma
      (text "0" ++ comma :: (Decimal.write sender ++ comma :: (body ++ [newline]))) := by
    rw [value, List.append_assoc, splitn, List.cons_append, splitSeqOnce_byte clean.comma]
  have more : ∀ s, splitn 3 comma s ≠ [] := by
    intro s
    rw [splitn]
    split <;> exact List.cons_ne_nil _ _
  obtain ⟨second, others, split⟩ := List.exists_cons_of_ne_nil (more
    (text "0" ++ comma :: (Decimal.write sender ++ comma :: (body ++ [newline]))))
  rw [keep, first, split]
  exact if_pos clean.static

theorem value_line {kind body : Bytes} (clean : Clean kind body) (sender : Nat) :
    ∃ line, newline ∉ line ∧ value kind sender body = line ++ [newline] := by
  refine ⟨kind ++ comma :: text "0" ++ comma :: (Decimal.write sender ++ comma :: body), ?_, by
    simp [value]⟩
  have digits : newline ∉ Decimal.write sender := fun member =>
    absurd (Decimal.isDigit_of_mem_write member) (by decide)
  have other : newline ≠ comma := by decide
  have zero : newline ∉ text "0" := by decide
  simp [clean.newline.1, clean.newline.2, digits, other, zero]

theorem readLines_flatten {lines : List Bytes}
    (whole : ∀ line ∈ lines, ∃ l, newline ∉ l ∧ line = l ++ [newline]) :
    readLines lines.flatten = lines := by
  induction lines with
  | nil => rfl
  | cons line lines ih =>
    obtain ⟨⟨l, clean, rfl⟩, others⟩ := List.forall_mem_cons.mp whole
    rw [List.flatten_cons, List.append_assoc, List.singleton_append, readLines_append clean,
      ih others]

variable {inner other : State} {last : Bytes → Option (Nat × Bytes)}

theorem Stands.entry (stands : Stands inner last) {e : Bytes × Bytes} (member : e ∈ inner) :
    ∃ m, last e.1 = some m ∧ e.2 = value e.1 m.1 m.2 ∧ Clean e.1 m.2 := by
  have found := Assoc.get?_of_mem stands.distinct member
  rw [stands.get] at found
  obtain ⟨m, is, same⟩ := Option.map_eq_some_iff.mp found
  exact ⟨m, is, same.symm, stands.clean _ _ is⟩

theorem Stands.perm (stands : Stands inner last) (perm : inner.Perm other) : Stands other last := by
  have symmetric {a b : Bytes × Bytes} (apart : (a.1 == b.1) = false) : (b.1 == a.1) = false := by
    rwa [BEq.comm]
  have distinct : other.Distinct := (perm.pairwise_iff symmetric).mp stands.distinct
  refine ⟨distinct, fun kind => ?_, stands.clean⟩
  have within {a b : State} (perm : a.Perm b) (distinct : b.Distinct) {v : Bytes}
      (found : a.get? kind = some v) : b.get? kind = some v :=
    Assoc.get?_of_mem distinct (perm.mem_iff.mp (Assoc.mem_of_get?_lawful found))
  rw [← stands.get]
  refine Option.ext fun v => ⟨within perm.symm stands.distinct, within perm distinct⟩

theorem foldl_insert {entries : State} (distinct : entries.Distinct) :
    entries.foldl (fun (inner : State) e => Assoc.insert inner e.1 e.2) [] = entries := by
  have all (done rest : State) (distinct : Assoc.Distinct (done ++ rest)) :
      rest.foldl (fun (inner : State) e => Assoc.insert inner e.1 e.2) done = done ++ rest := by
    induction rest generalizing done with
    | nil => exact (List.append_nil done).symm
    | cons e rest ih =>
      have new : ∀ entry ∈ done, (e.1 == entry.1) = false := by
        intro entry member
        have apart := (List.pairwise_append.mp distinct).2.2 entry member e List.mem_cons_self
        rwa [BEq.comm]
      rw [List.foldl_cons, Assoc.insert_of_new e.2 new]
      rw [List.append_cons] at distinct
      rw [ih _ distinct, List.append_assoc]
      rfl
  exact all [] entries distinct

/-- What was written is read back. -/
theorem load_drain (stands : Stands inner last) : Stands (load (drain inner)) last := by
  have sorted : Stands inner.sorted last := stands.perm (List.mergeSort_perm inner _).symm
  have lines : readLines (drain inner) = inner.sorted.values := by
    refine readLines_flatten fun line member => ?_
    obtain ⟨e, among, rfl⟩ := List.mem_map.mp member
    obtain ⟨m, -, same, clean⟩ := sorted.entry among
    rw [same]
    exact value_line clean m.1
  have kept : inner.sorted.values.foldl keep [] =
      inner.sorted.foldl (fun (inner : State) e => Assoc.insert inner e.1 e.2) [] := by
    rw [Assoc.values, List.foldl_map]
    refine List.foldl_ext _ _ _ fun done e among => ?_
    obtain ⟨m, -, same, clean⟩ := sorted.entry among
    rw [same]
    exact keep_value clean m.1 done
  rw [load, lines, kept, foldl_insert sorted.distinct]
  exact sorted

theorem stands_nil : Stands [] fun _ => none :=
  ⟨List.Pairwise.nil, fun _ => rfl, fun _ _ none => absurd none (Option.some_ne_none _).symm⟩

/-- What `set` leaves, also where it changes nothing. -/
theorem Stands.set (stands : Stands inner last) {kind body : Bytes} (sender : Nat)
    (clean : Clean kind body) :
    Stands ((inner.set kind sender body).getD inner) (Function.update last kind
      (if body = text "null" then none else some (sender, body))) := by
  have clean' : ∀ k m, Function.update last kind
      (if body = text "null" then none else some (sender, body)) k = some m → Clean k m.2 := by
    intro k m is
    by_cases here : k = kind
    · subst here
      rw [Function.update_self] at is
      split at is
      · cases is
      · cases is
        exact clean
    · rw [Function.update_of_ne here] at is
      exact stands.clean k m is
  have get' {inner' : State} (same : ∀ k ≠ kind, inner'.get? k = inner.get? k)
      (now : inner'.get? kind =
        if body = text "null" then none else some (value kind sender body)) (k : Bytes) :
      inner'.get? k = (Function.update last kind
        (if body = text "null" then none else some (sender, body)) k).map
          fun m => value k m.1 m.2 := by
    by_cases here : k = kind
    · subst here
      rw [Function.update_self, now]
      split <;> rfl
    · rw [Function.update_of_ne here, same k here, stands.get]
  rw [State.set]
  by_cases null : body = text "null"
  · rw [if_pos null]
    by_cases known : (inner.get? kind).isSome = true
    · rw [if_pos known, Option.getD_some]
      refine ⟨stands.distinct.erase kind, get' (fun k other => ?_) ?_, clean'⟩
      · rw [Assoc.get?_erase, if_neg (by simpa using Ne.symm other)]
      · rw [Assoc.get?_erase, if_pos BEq.rfl, if_pos null]
    · rw [if_neg known, Option.getD_none]
      refine ⟨stands.distinct, get' (fun _ _ => rfl) ?_, clean'⟩
      rw [if_pos null]
      simpa using known
  · rw [if_neg null]
    by_cases known : inner.get? kind = some (value kind sender body)
    · rw [if_pos known, Option.getD_none]
      refine ⟨stands.distinct, get' (fun _ _ => rfl) ?_, clean'⟩
      rw [if_neg null, known]
    · rw [if_neg known, Option.getD_some]
      refine ⟨stands.distinct.insert _ _, get' (fun k other => ?_) ?_, clean'⟩
      · rw [Assoc.get?_insert, if_neg (by simpa using other)]
      · rw [Assoc.get?_insert, if_pos BEq.rfl, if_neg null]

end State

/-! ### Runs -/

/-- The file, and the state of the server while there is one. -/
structure Store where
  file : Option Bytes
  state : Option State
  deriving DecidableEq

/-- Whether the file is newer than the last change is known where it is read. -/
inductive StoreOp where
  | start
  | set (kind : Bytes) (sender : Nat) (body : Bytes)
  | stop (newer : Bool)
  deriving DecidableEq

def StoreOp.Clean : StoreOp → Prop
  | .set kind _ body => State.Clean kind body
  | _ => True

namespace Store

def step (s : Store) : StoreOp → Option Store
  | .start =>
    if s.state = none then some { s with state := some ((s.file.map .load).getD []) } else none
  | .set kind sender body =>
    s.state.map fun inner => { s with state := some ((inner.set kind sender body).getD inner) }
  | .stop newer =>
    s.state.map fun inner =>
      if newer ∧ s.file.isSome then { s with state := none } else ⟨some inner.drain, none⟩

/-- What the server knows, or would know if it started. -/
def content (s : Store) : State := s.state.getD ((s.file.map .load).getD [])

end Store

/-- A map that persists: what is durable, if anything was made so, and what is made of it. -/
structure Persistent (K V : Type) where
  durable : Option (K → Option V)
  current : Option (K → Option V)

namespace Persistent

variable {K V : Type} [DecidableEq K]

def known (p : Persistent K V) : K → Option V := p.current.getD (p.durable.getD fun _ => none)

def open' (p : Persistent K V) : Option (Persistent K V) :=
  if p.current.isNone then some { p with current := some p.known } else none

def set (p : Persistent K V) (k : K) (v : Option V) : Option (Persistent K V) :=
  p.current.map fun m => { p with current := some (Function.update m k v) }

/-- What is not made durable is lost. -/
def close (p : Persistent K V) (lost : Bool) : Option (Persistent K V) :=
  p.current.map fun m => if lost && p.durable.isSome then { p with current := none } else ⟨some m, none⟩

end Persistent

/-- The messages of the operations, as changes of a map. -/
def Persistent.step (p : Persistent Bytes (Nat × Bytes)) :
    StoreOp → Option (Persistent Bytes (Nat × Bytes))
  | .start => p.open'
  | .set kind sender body => p.set kind (if body = text "null" then none else some (sender, body))
  | .stop newer => p.close newer

/-- The file and the state stand for the map. -/
structure Store.Represents (s : Store) (p : Persistent Bytes (Nat × Bytes)) : Prop where
  file : Option.Rel (fun file last => State.Stands (.load file) last) s.file p.durable
  state : Option.Rel State.Stands s.state p.current

namespace Store

theorem Represents.content {s : Store} {p : Persistent Bytes (Nat × Bytes)} (rep : s.Represents p) :
    State.Stands s.content p.known := by
  obtain ⟨file, state⟩ := s
  obtain ⟨durable, current⟩ := p
  obtain ⟨onFile, inState⟩ := rep
  cases inState with
  | some stands => exact stands
  | none =>
    cases onFile with
    | some stands => exact stands
    | none => exact State.stands_nil

theorem step_represents {s t : Store} {op : StoreOp} {p : Persistent Bytes (Nat × Bytes)}
    (rep : s.Represents p) (clean : op.Clean) (move : step s op = some t) :
    ∃ q, p.step op = some q ∧ t.Represents q := by
  obtain ⟨onFile, inState⟩ := rep
  have content := Represents.content ⟨onFile, inState⟩
  obtain ⟨file, state⟩ := s
  obtain ⟨durable, current⟩ := p
  cases op with
  | start =>
    cases inState with
    | some stands => simp [step] at move
    | none =>
      cases move
      exact ⟨_, rfl, onFile, .some content⟩
  | set kind sender body =>
    cases inState with
    | none => cases move
    | some stands =>
      cases move
      exact ⟨_, rfl, onFile, .some (stands.set sender clean)⟩
  | stop newer =>
    cases inState with
    | none => cases move
    | @some inner last stands =>
      cases onFile with
      | none =>
        cases newer <;> cases move <;> exact ⟨_, rfl, .some (State.load_drain stands), .none⟩
      | some old =>
        cases newer with
        | true => cases move; exact ⟨_, rfl, .some old, .none⟩
        | false => cases move; exact ⟨_, rfl, .some (State.load_drain stands), .none⟩

/-- Servers that start and end, one after the other, keep the map in their file. -/
theorem run_represents {s t : Store} {ops : List StoreOp} {p : Persistent Bytes (Nat × Bytes)}
    (run : Run step s ops t) (clean : ∀ op ∈ ops, op.Clean) (rep : s.Represents p) :
    ∃ q, Run Persistent.step p ops q ∧ t.Represents q := by
  induction run generalizing p with
  | nil => exact ⟨p, .nil p, rep⟩
  | cons move _ ih =>
    obtain ⟨here, others⟩ := List.forall_mem_cons.mp clean
    obtain ⟨p', moved, rep⟩ := step_represents rep here move
    obtain ⟨q, run, rep⟩ := ih others rep
    exact ⟨q, .cons moved run, rep⟩

/-- What is known of the kind, after an operation by which nothing is lost. -/
def after (kind : Bytes) (last : Option (Nat × Bytes)) : StoreOp → Option (Nat × Bytes)
  | .set k sender body =>
    if k = kind then if body = text "null" then none else some (sender, body) else last
  | _ => last

/-- The last message of the kind, unless it was `null`. -/
def latest (kind : Bytes) (ops : List StoreOp) : Option (Nat × Bytes) :=
  ops.foldl (after kind) none

end Store

theorem Persistent.step_known {p q : Persistent Bytes (Nat × Bytes)} {op : StoreOp}
    (move : p.step op = some q) (kept : op ≠ .stop true) (kind : Bytes) :
    q.known kind = Store.after kind (p.known kind) op := by
  obtain ⟨durable, current⟩ := p
  cases op with
  | start =>
    cases current with
    | some m => cases move
    | none => cases move; rfl
  | set k sender body =>
    cases current with
    | none => cases move
    | some m =>
      cases move
      by_cases here : k = kind
      · subst here
        exact (Function.update_self _ _ _).trans (if_pos rfl).symm
      · exact (Function.update_of_ne (Ne.symm here) _ _).trans (if_neg here).symm
  | stop newer =>
    cases newer with
    | true => exact absurd rfl kept
    | false =>
      cases current with
      | none => cases move
      | some m => cases move; rfl

theorem Persistent.run_known {p q : Persistent Bytes (Nat × Bytes)} {ops : List StoreOp}
    (run : Run Persistent.step p ops q) (kept : .stop true ∉ ops) (kind : Bytes) :
    q.known kind = ops.foldl (Store.after kind) (p.known kind) := by
  induction run with
  | nil => rfl
  | cons move _ ih =>
    obtain ⟨here, others⟩ := not_or.mp (List.mem_cons.not.mp kept)
    rw [List.foldl_cons, ih others, Persistent.step_known move (Ne.symm here)]

namespace Store

/-- Whichever servers there were, the last static message of each kind is known. -/
theorem persists {ops : List StoreOp} {t : Store} (run : Run step ⟨none, none⟩ ops t)
    (clean : ∀ op ∈ ops, op.Clean) (kept : .stop true ∉ ops) (kind : Bytes) :
    t.content.get? kind = (latest kind ops).map fun m => State.value kind m.1 m.2 := by
  have empty : Represents ⟨none, none⟩ ⟨none, none⟩ := ⟨.none, .none⟩
  obtain ⟨q, moves, rep⟩ := run_represents run clean empty
  rw [rep.content.get, Persistent.run_known moves kept]
  rfl

private def theme : Bytes := text "@theme"

private def days : List StoreOp :=
  [.start, .set theme 3 (text "light"), .stop false, .start, .set theme 7 (text "dark"),
    .stop false, .start]

private def written : Store :=
  ⟨some (State.value theme 7 (text "dark")), some [(theme, State.value theme 7 (text "dark"))]⟩

theorem persists_sample :
    written.content.get? theme =
      (latest theme days).map fun m => State.value theme m.1 m.2 := by
  have run : Run step ⟨none, none⟩ days written := run_of_exec (by decide +kernel)
  refine persists run ?_ (by decide) _
  have clean (body : Bytes) (line : newline ∉ body) : State.Clean theme body :=
    ⟨rfl, by decide, by decide, line⟩
  simp only [days, List.forall_mem_cons, StoreOp.Clean, List.not_mem_nil, false_implies,
    implies_true, and_true, true_and]
  exact ⟨clean _ (by decide), clean _ (by decide)⟩

end Store

end Yazi.Dds
