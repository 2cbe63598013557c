import Yazi.Config.Key
import Yazi.Config.Mixing
import Yazi.Shared.Cmd

/-!
Keys that are typed, and the chords of the keymap that they run.

A chord of several keys opens the list of those that begin with the first of them. Each key that
follows narrows the list, until one chord is left or one is complete.
-/
namespace Yazi.Term.KeyCode

def isModifier : KeyCode → Bool
  | modifier _ => true
  | _ => false

def isLock : KeyCode → Bool
  | capsLock | scrollLock | numLock => true
  | _ => false

end Yazi.Term.KeyCode

namespace Yazi.Core
open Shared Config

inductive Layer where
  | null
  | app
  | mgr
  | tasks
  | spot
  | pick
  | input
  | confirm
  | help
  | cmp
  | which
  | notify
  deriving DecidableEq, Repr

def Layer.or (a b : Layer) : Layer := if a = null then b else a

structure Action where
  cmd : Cmd
  layer : Layer
  deriving DecidableEq, Repr

inductive Platform where
  | all
  | linux
  | macos
  | windows
  | android
  | unix
  deriving DecidableEq, Repr

/-- On Linux. -/
def Platform.matches : Platform → Bool
  | all | linux | unix => true
  | macos | windows | android => false

structure Chord where
  on : List Key
  run : List Action
  desc : List Char
  platform : Platform
  deriving DecidableEq

namespace Chord

def noop (c : Chord) : Bool :=
  match c.run with
  | [action] => action.cmd.name = "noop".toList && action.cmd.args.isEmpty
  | _ => false

instance : Mixable Chord where
  filter c := c.platform.matches && !c.noop
  anyFile _ := false
  anyDir _ := false

/-- The action to be performed first is the last one. -/
def toSeq (c : Chord) (layer : Layer) : List Action :=
  c.run.reverse.map fun a => { a with layer := a.layer.or layer }

end Chord

/-! ### The keymap -/

structure KeymapSection where
  keymap : List Chord
  prependKeymap : List Chord
  appendKeymap : List Chord

/-- The first two keys. -/
def KeymapSection.on (c : Chord) : Key × Key := (c.on[0]?.getD {}, c.on[1]?.getD {})

/-- `deserialize_over_hook`. -/
def KeymapSection.mixed (s : KeymapSection) : List Chord :=
  mix s.prependKeymap
    (s.keymap.filter fun v => !(s.prependKeymap.map on).contains (on v))
    (s.appendKeymap.filter fun v => !(s.keymap.map on).contains (on v))

structure Keymap where
  mgr : List Chord
  tasks : List Chord
  spot : List Chord
  pick : List Chord
  input : List Chord
  confirm : List Chord
  help : List Chord
  cmp : List Chord

def Keymap.chords (m : Keymap) : Layer → List Chord
  | .null | .app | .which | .notify => []
  | .mgr => m.mgr
  | .tasks => m.tasks
  | .spot => m.spot
  | .pick => m.pick
  | .input => m.input
  | .confirm => m.confirm
  | .help => m.help
  | .cmp => m.cmp

/-! ### Choosing a chord -/

/-- `tx` is the channel that waits for an answer. -/
structure Which where
  tx : Option Nat
  layer : Layer
  cands : List Chord
  times : Nat
  active : Bool
  silent : Bool

structure WhichOpt where
  tx : Option Nat
  layer : Layer
  cands : List Chord
  times : Nat
  silent : Bool

/-- The order of `WhichSorter`. -/
structure WhichSorter where
  sort : List Chord → List Chord
  perm : ∀ cands, (sort cands).Perm cands

inductive Sent where
  | answer (tx : Nat) (chord : Option Chord)
  | seq (actions : List Action)
  deriving DecidableEq

def WhichOpt.new (m : Keymap) (src dist : Layer) (key : Key) : WhichOpt where
  tx := none
  layer := dist
  cands := (m.chords src).filter fun c => c.on.length > 1 && c.on[0]? = some key
  times := 1
  silent := false

namespace Which

def dismiss (w : Which) (chord : Option Chord) : Which × List Sent :=
  ({ w with tx := none, cands := [], times := 0, active := false, silent := false },
    (w.tx.toList.map fun tx => .answer tx chord) ++
      chord.toList.map fun chord => .seq (chord.toSeq w.layer))

/-- Once narrowed: what is decided by now. -/
def settle (w : Which) : Which × List Sent :=
  match w.cands with
  | [] => w.dismiss none
  | [chord] => w.dismiss (some chord)
  | cands =>
    match cands.find? fun c => c.on.length = w.times with
    | some chord => w.dismiss (some chord)
    | none => (w, [])

/-- A key that is not for itself. -/
def ignored (key : Key) : Bool := key.code.isModifier || key.code.isLock

def «type» (w : Which) (key : Key) : Which × List Sent × Bool :=
  if ignored key then (w, [], false)
  else
    let cands := w.cands.filter fun c => c.on.length > w.times && c.on[w.times]? = some key
    let (w, sent) := { w with cands, times := w.times + 1 }.settle
    (w, sent, true)

/-- The actor `which:activate`. -/
def activate (sorter : WhichSorter) (w : Which) (opt : WhichOpt) : Which :=
  match sorter.sort (opt.cands.filter fun c => c.on.length > opt.times) with
  | [] => w
  | cands => ⟨opt.tx, opt.layer, cands, opt.times, true, opt.silent⟩

end Which

/-! ### Routing keys -/

/-- What the `type` of help, or of the input, makes of a key. -/
inductive Hook where
  /-- There is no help to be seen, or no input. -/
  | absent
  | leaves
  | takes
  | fails
  deriving DecidableEq

structure Hooks where
  help : Hook := .absent
  input : Hook := .absent

def Hooks.taken (h : Hooks) : Bool :=
  match h.help, h.input with
  | .takes, _ | .fails, _ | _, .takes | _, .fails => true
  | _, _ => false

namespace Router

variable (m : Keymap) (sorter : WhichSorter)

def «matches» (w : Which) (src dist : Layer) (key : Key) : Which × List Sent × Bool :=
  match (m.chords src).find? fun c => c.on[0]? = some key with
  | none => (w, [], false)
  | some chord =>
    if chord.on.length > 1 then (w.activate sorter (.new m src dist key), [], true)
    else (w, [.seq (chord.toSeq dist)], true)

/-- The second table is looked at where the first has nothing. -/
def orElse (first : Which × List Sent × Bool) (second : Which → Which × List Sent × Bool) :
    Which × List Sent × Bool :=
  if first.2.2 then first else second first.1

/-- A key that neither help nor the input takes. `layer` is that of the focus, with nothing to be
chosen. -/
def dispatch (w : Which) (layer : Layer) (key : Key) : Which × List Sent × Bool :=
  if w.active then w.type key
  else
    match layer with
    | .null | .app | .notify | .which => (w, [], false)
    | .help =>
      orElse («matches» m sorter w .help .help key) fun w =>
        «matches» m sorter w .input .help key
    | .cmp =>
      orElse («matches» m sorter w .cmp .cmp key) fun w =>
        «matches» m sorter w .input .input key
    | layer => «matches» m sorter w layer layer key

/-- The help that is shown has the key first, then the input that is open. An error of theirs also
ends it. -/
def route (w : Which) (hooks : Hooks) (layer : Layer) (key : Key) : Which × List Sent × Bool :=
  if hooks.taken then (w, [], true) else dispatch m sorter w layer key

end Router

/-! ### Narrowing -/

namespace Which

def fitting (cands : List Chord) (times : Nat) (typed : List Key) : List Chord :=
  cands.filter fun c => typed.isPrefixOf (c.on.drop times)

/-- What is to be chosen from, after keys that have not decided it. -/
structure Open (opt : WhichOpt) (typed : List Key) (w : Which) : Prop where
  active : w.active = true
  tx : w.tx = opt.tx
  layer : w.layer = opt.layer
  times : w.times = opt.times + typed.length
  cands : w.cands = fitting opt.cands opt.times typed
  longer : ∀ c ∈ w.cands, w.times < c.on.length

/-- What the keys decide: there is nothing left, or one chord, or the first complete one. -/
inductive Ends (opt : WhichOpt) (typed : List Key) : Option Chord → Prop where
  | nothing : fitting opt.cands opt.times typed = [] → Ends opt typed none
  | only {c : Chord} : fitting opt.cands opt.times typed = [c] → Ends opt typed (some c)
  | complete {c : Chord} :
      (fitting opt.cands opt.times typed).find? (fun c =>
        c.on.length = opt.times + typed.length) = some c → Ends opt typed (some c)

theorem prefix_concat_iff {α : Type} {typed l : List α} {a : α} :
    typed ++ [a] <+: l ↔ typed <+: l ∧ l[typed.length]? = some a := by
  induction typed generalizing l with
  | nil => cases l <;> simp [List.cons_prefix_cons, eq_comm]
  | cons b typed ih =>
    cases l with
    | nil => simp
    | cons c l => simp [List.cons_prefix_cons, ih, and_assoc]

theorem fitting_concat (cands : List Chord) (times : Nat) (typed : List Key) (key : Key) :
    ((fitting cands times typed).filter fun c =>
        c.on.length > times + typed.length && c.on[times + typed.length]? = some key) =
      fitting cands times (typed ++ [key]) := by
  rw [fitting, fitting, List.filter_filter]
  refine List.filter_congr fun c _ => ?_
  rw [Bool.eq_iff_iff]
  simp only [Bool.and_eq_true, decide_eq_true_eq, List.isPrefixOf_iff_prefix, prefix_concat_iff,
    List.getElem?_drop]
  constructor
  · exact fun ⟨⟨_, next⟩, start⟩ => ⟨start, next⟩
  · intro ⟨start, next⟩
    exact ⟨⟨(List.getElem?_eq_some_iff.mp next).1, next⟩, start⟩

/-- A key decides, and that is what is sent, or the choice stays open. -/
theorem Open.type {opt : WhichOpt} {typed : List Key} {w : Which} (opened : Open opt typed w)
    {key : Key} (given : ignored key = false) :
    (∃ chord, Ends opt (typed ++ [key]) chord ∧ (w.type key).1.active = false ∧
        (w.type key).1.tx = none ∧
        (w.type key).2.1 = (opt.tx.toList.map fun tx => .answer tx chord) ++
          chord.toList.map fun chord => .seq (chord.toSeq opt.layer)) ∨
      Open opt (typed ++ [key]) (w.type key).1 ∧ (w.type key).2.1 = [] := by
  have narrowed := fitting_concat opt.cands opt.times typed key
  rw [← opened.times, ← opened.cands] at narrowed
  have times : w.times + 1 = opt.times + (typed ++ [key]).length := by
    rw [opened.times, List.length_append, List.length_singleton, Nat.add_assoc]
  rw [Which.type, given, if_neg Bool.false_ne_true]
  dsimp only
  generalize now : ({ w with
    cands := w.cands.filter fun c => c.on.length > w.times && c.on[w.times]? = some key
    times := w.times + 1 } : Which) = w'
  have left : w'.cands = fitting opt.cands opt.times (typed ++ [key]) := by rw [← now]; exact narrowed
  have counted : w'.times = opt.times + (typed ++ [key]).length := by rw [← now]; exact times
  have dismissed (chord : Option Chord) :
      (w'.dismiss chord).1.active = false ∧ (w'.dismiss chord).1.tx = none ∧
        (w'.dismiss chord).2 = (opt.tx.toList.map fun tx => .answer tx chord) ++
          chord.toList.map fun chord => .seq (chord.toSeq opt.layer) := by
    rw [← now]
    exact ⟨rfl, rfl, by rw [dismiss, opened.tx, opened.layer]⟩
  rw [settle]
  split
  · next nothing => exact .inl ⟨none, .nothing (left ▸ nothing), dismissed none⟩
  · next chord only => exact .inl ⟨some chord, .only (left ▸ only), dismissed (some chord)⟩
  · split
    · next chord complete =>
      exact .inl ⟨some chord, .complete (by rwa [left, counted] at complete), dismissed (some chord)⟩
    · next incomplete =>
      refine .inr ⟨⟨?_, ?_, ?_, counted, left, fun c member => ?_⟩, rfl⟩
      · rw [← now]; exact opened.active
      · rw [← now]; exact opened.tx
      · rw [← now]; exact opened.layer
      · have notYet := List.find?_eq_none.mp incomplete c member
        have longer : w.times + 1 ≤ c.on.length := by
          rw [left, ← narrowed] at member
          simpa using (Bool.and_eq_true_iff.mp (List.mem_filter.mp member).2).1
        have same : w'.times = w.times + 1 := counted.trans times.symm
        simp only [decide_eq_true_eq] at notYet
        exact Nat.lt_of_le_of_ne (same ▸ longer) (Ne.symm notYet)

end Which

/-! ### Runs -/

inductive Event where
  | key (layer : Layer) (hooks : Hooks) (key : Key)
  | activate (opt : WhichOpt)
  | dismiss

namespace Router

variable (m : Keymap) (sorter : WhichSorter)

def step (w : Which) : Event → Which × List Sent
  | .key layer hooks key =>
    ((route m sorter w hooks layer key).1, (route m sorter w hooks layer key).2.1)
  | .activate opt => (w.activate sorter opt, [])
  | .dismiss => w.dismiss none

def run (w : Which) (events : List Event) : Which × List Sent :=
  events.foldl (fun done e => ((step m sorter done.1 e).1, done.2 ++ (step m sorter done.1 e).2))
    (w, [])

/-- Nothing is to be chosen, and nobody waits for it. -/
def Idle (w : Which) : Prop := w.active = false ∧ w.tx = none

/-- The tables that a key is looked up in, and the layers that its actions are for. -/
inductive Reads : Layer → Layer → Layer → Prop where
  | own (layer : Layer) : Reads layer layer layer
  | help : Reads .help .input .help
  | cmp : Reads .cmp .input .input

/-- An event that opens a choice. -/
inductive Opens : Event → WhichOpt → Prop where
  | key {layer src dist : Layer} {hooks : Hooks} {key : Key} {c : Chord} : hooks.taken = false →
      Reads layer src dist → (m.chords src).find? (fun c => c.on[0]? = some key) = some c →
      1 < c.on.length →
      Opens (.key layer hooks key) { WhichOpt.new m src dist key with
        cands := sorter.sort (WhichOpt.new m src dist key).cands }
  | activate {opt : WhichOpt} : Opens (.activate opt)
      { opt with cands := sorter.sort (opt.cands.filter fun c => c.on.length > opt.times) }

/-- While a choice is open, also an activation with nothing to choose from changes nothing. -/
def Inside : Event → Prop
  | .key _ _ _ => True
  | .activate opt => (opt.cands.filter fun c => c.on.length > opt.times) = []
  | .dismiss => False

def typedKeys (events : List Event) : List Key :=
  events.filterMap fun
    | .key _ hooks key => if hooks.taken || Which.ignored key then none else some key
    | _ => none

/-- The last of the events run a chord: it is of the one key, or the keys since a choice was opened
have decided for it. -/
inductive Typed : List Event → List Action → Prop where
  | single {before : List Event} {layer src dist : Layer} {hooks : Hooks} {key : Key} {c : Chord} :
      hooks.taken = false → Reads layer src dist →
      (m.chords src).find? (fun c => c.on[0]? = some key) = some c → c.on = [key] →
      Typed (before ++ [.key layer hooks key]) (c.toSeq dist)
  | chosen {before typed : List Event} {opening : Event} {opt : WhichOpt} {c : Chord} :
      Opens m sorter opening opt → (∀ e ∈ typed, Inside e) →
      Which.Ends opt (typedKeys typed) (some c) →
      Typed (before ++ opening :: typed) (c.toSeq opt.layer)

/-- What a key does where nothing is to be chosen. -/
inductive Routed (layer : Layer) (hooks : Hooks) (key : Key) (w : Which) :
    Which × List Sent × Bool → Prop where
  | nothing : Routed layer hooks key w (w, [], false)
  | single {src dist : Layer} {c : Chord} : Reads layer src dist →
      (m.chords src).find? (fun c => c.on[0]? = some key) = some c → c.on = [key] →
      Routed layer hooks key w (w, [.seq (c.toSeq dist)], true)
  | opens {opt : WhichOpt} : Opens m sorter (.key layer hooks key) opt → opt.cands ≠ [] →
      Routed layer hooks key w
        (⟨opt.tx, opt.layer, opt.cands, opt.times, true, opt.silent⟩, [], true)

end Router

namespace Which

theorem activate_of_ne_nil {sorter : WhichSorter} {w : Which} {opt : WhichOpt}
    (some : (opt.cands.filter fun c => c.on.length > opt.times) ≠ []) :
    w.activate sorter opt = ⟨opt.tx, opt.layer,
      sorter.sort (opt.cands.filter fun c => c.on.length > opt.times), opt.times, true,
      opt.silent⟩ := by
  have sorted : sorter.sort (opt.cands.filter fun c => c.on.length > opt.times) ≠ [] := by
    intro none
    have perm := sorter.perm (opt.cands.filter fun c => c.on.length > opt.times)
    rw [none] at perm
    exact some perm.nil_eq.symm
  rw [activate]
  split
  · next none => exact absurd none sorted
  · rfl

theorem activate_of_nil {sorter : WhichSorter} {w : Which} {opt : WhichOpt}
    (none : (opt.cands.filter fun c => c.on.length > opt.times) = []) :
    w.activate sorter opt = w := by
  have sorted : sorter.sort (opt.cands.filter fun c => c.on.length > opt.times) = [] := by
    have perm := sorter.perm (opt.cands.filter fun c => c.on.length > opt.times)
    rw [none] at perm ⊢
    exact perm.eq_nil
  rw [activate, sorted]

end Which

namespace Router

variable {m : Keymap} {sorter : WhichSorter}

/-- A chord of several keys opens the choice among those that begin with the first of them. -/
theorem matches_several (w : Which) {src dist : Layer} {key : Key} {c : Chord}
    (found : (m.chords src).find? (fun c => c.on[0]? = some key) = some c)
    (several : 1 < c.on.length) :
    «matches» m sorter w src dist key =
        (⟨none, dist, sorter.sort (WhichOpt.new m src dist key).cands, 1, true, false⟩, [], true) ∧
      sorter.sort (WhichOpt.new m src dist key).cands ≠ [] := by
  have first : c.on[0]? = some key := by simpa using List.find?_some found
  have cands : (WhichOpt.new m src dist key).cands ≠ [] :=
    List.ne_nil_of_mem (List.mem_filter.mpr
      ⟨List.mem_of_find?_eq_some found, by simpa [first] using several⟩)
  have longer : ((WhichOpt.new m src dist key).cands.filter fun c =>
      c.on.length > (WhichOpt.new m src dist key).times) = (WhichOpt.new m src dist key).cands := by
    rw [WhichOpt.new, List.filter_filter]
    exact List.filter_congr fun c _ => by cases decide (c.on.length > 1) <;> simp
  constructor
  · rw [«matches», found]
    dsimp only
    rw [if_pos several, Which.activate_of_ne_nil (longer.symm ▸ cands), longer]
    rfl
  · intro none
    have perm := sorter.perm (WhichOpt.new m src dist key).cands
    rw [none] at perm
    exact cands perm.nil_eq.symm

theorem matches_routed {hooks : Hooks} (free : hooks.taken = false) (w : Which)
    {layer src dist : Layer} (reads : Reads layer src dist) (key : Key) :
    Routed m sorter layer hooks key w («matches» m sorter w src dist key) := by
  cases found : (m.chords src).find? fun c => c.on[0]? = some key with
  | none =>
    rw [«matches», found]
    exact .nothing
  | some c =>
    by_cases several : 1 < c.on.length
    · obtain ⟨opened, some⟩ := @matches_several m sorter w src dist key c found several
      rw [opened]
      exact .opens (.key free reads found several) some
    · rw [«matches», found]
      dsimp only
      rw [if_neg several]
      refine .single reads found ?_
      have first : c.on[0]? = some key := by simpa using List.find?_some found
      cases on : c.on with
      | nil => simp [on] at first
      | cons k others =>
        rw [on] at several first
        obtain rfl : k = key := Option.some_inj.mp first
        cases others with
        | nil => rfl
        | cons k' others => exact absurd (by simp) several

/-- What the layer's own table has is taken. -/
theorem dispatch_own {w : Which} (idle : w.active = false) {layer : Layer} {key : Key}
    (taken : («matches» m sorter w layer layer key).2.2 = true) :
    dispatch m sorter w layer key = «matches» m sorter w layer layer key := by
  have inactive {done : Which × List Sent × Bool} :
      (if w.active then w.type key else done) = done := if_neg (ne_true_of_eq_false idle)
  cases layer with
  | null | app | notify | which => exact absurd taken Bool.false_ne_true
  | help | cmp => exact inactive.trans (if_pos taken)
  | mgr | tasks | spot | pick | input | confirm => exact inactive

theorem dispatch_routed {hooks : Hooks} (free : hooks.taken = false) {w : Which}
    (idle : w.active = false) (layer : Layer) (key : Key) :
    Routed m sorter layer hooks key w (dispatch m sorter w layer key) := by
  have either {src dist : Layer} (reads : Reads layer src dist) :
      Routed m sorter layer hooks key w (orElse («matches» m sorter w layer layer key) fun w =>
        «matches» m sorter w src dist key) := by
    have first := @matches_routed m sorter hooks free w layer layer layer (.own layer) key
    revert first
    generalize «matches» m sorter w layer layer key = done
    intro first
    cases first with
    | nothing => exact matches_routed free w reads key
    | single reads found only => exact .single reads found only
    | opens opens some => exact .opens opens some
  have inactive (layer : Layer) : dispatch m sorter w layer key =
      (match layer with
      | .null | .app | .notify | .which => (w, [], false)
      | .help => orElse («matches» m sorter w .help .help key) fun w =>
          «matches» m sorter w .input .help key
      | .cmp => orElse («matches» m sorter w .cmp .cmp key) fun w =>
          «matches» m sorter w .input .input key
      | layer => «matches» m sorter w layer layer key) := if_neg (ne_true_of_eq_false idle)
  rw [inactive]
  cases layer with
  | null | app | notify | which => exact .nothing
  | help => exact either .help
  | cmp => exact either .cmp
  | mgr | tasks | spot | pick | input | confirm => exact matches_routed free w (.own _) key

theorem route_free {hooks : Hooks} (free : hooks.taken = false) (w : Which) (layer : Layer)
    (key : Key) : route m sorter w hooks layer key = dispatch m sorter w layer key := by
  rw [route, if_neg (ne_true_of_eq_false free)]

theorem step_taken {hooks : Hooks} (taken : hooks.taken = true) {w : Which} {layer : Layer}
    {key : Key} : step m sorter w (.key layer hooks key) = (w, []) := by
  rw [step, route, if_pos taken]

/-- While a choice is open, a key that nobody takes is for it. -/
theorem step_typing {hooks : Hooks} (free : hooks.taken = false) {w : Which}
    (active : w.active = true) (layer : Layer) (key : Key) :
    step m sorter w (.key layer hooks key) = ((w.type key).1, (w.type key).2.1) := by
  have typing : dispatch m sorter w layer key = w.type key := if_pos active
  rw [step, route_free free, typing]

theorem Opens.open {opening : Event} {opt : WhichOpt} (opens : Opens m sorter opening opt) :
    Which.Open opt [] ⟨opt.tx, opt.layer, opt.cands, opt.times, true, opt.silent⟩ := by
  have longer : ∀ c ∈ opt.cands, opt.times < c.on.length := by
    cases opens with
    | key reads found several =>
      intro c member
      have listed := (sorter.perm _).mem_iff.mp member
      exact of_decide_eq_true (Bool.and_eq_true_iff.mp (List.mem_filter.mp listed).2).1
    | activate =>
      intro c member
      simpa using (List.mem_filter.mp ((sorter.perm _).mem_iff.mp member)).2
  refine ⟨rfl, rfl, rfl, rfl, ?_, longer⟩
  exact (List.filter_true _).symm

theorem run_concat (w : Which) (events : List Event) (e : Event) :
    run m sorter w (events ++ [e]) =
      ((step m sorter (run m sorter w events).1 e).1,
        (run m sorter w events).2 ++ (step m sorter (run m sorter w events).1 e).2) := by
  rw [run, List.foldl_append]
  rfl

/-- Either nothing is to be chosen, or the last events opened a choice and have not decided it. -/
def Known (m : Keymap) (sorter : WhichSorter) (events : List Event) (w : Which) : Prop :=
  Idle w ∨ ∃ before opening typed opt, events = before ++ opening :: typed ∧
    Opens m sorter opening opt ∧ (∀ e ∈ typed, Inside e) ∧ Which.Open opt (typedKeys typed) w

theorem typedKeys_concat (events : List Event) (e : Event) :
    typedKeys (events ++ [e]) = typedKeys events ++ typedKeys [e] := List.filterMap_append

theorem step_known {events : List Event} {w : Which} (known : Known m sorter events w) (e : Event) :
    Known m sorter (events ++ [e]) (step m sorter w e).1 ∧
      ∀ actions, .seq actions ∈ (step m sorter w e).2 → Typed m sorter (events ++ [e]) actions := by
  rcases known with ⟨inactive, waits⟩ | ⟨before, opening, typed, opt, rfl, opens, inside, opened⟩
  · cases e with
    | key layer hooks key =>
      cases free : hooks.taken with
      | true =>
        rw [step_taken free]
        exact ⟨.inl ⟨inactive, waits⟩, fun actions sent => absurd sent List.not_mem_nil⟩
      | false =>
        have routed := @dispatch_routed m sorter hooks free w inactive layer key
        rw [step, route_free free]
        revert routed
        generalize dispatch m sorter w layer key = done
        intro routed
        cases routed with
        | nothing =>
          exact ⟨.inl ⟨inactive, waits⟩, fun actions sent => absurd sent List.not_mem_nil⟩
        | single reads found only =>
          refine ⟨.inl ⟨inactive, waits⟩, fun actions sent => ?_⟩
          cases List.mem_singleton.mp sent
          exact .single free reads found only
        | opens opens some =>
          refine ⟨.inr ⟨events, _, [], _, rfl, opens, fun e none => absurd none List.not_mem_nil,
            opens.open⟩, fun actions sent => absurd sent List.not_mem_nil⟩
    | activate opt =>
      refine ⟨?_, fun actions sent => absurd sent List.not_mem_nil⟩
      rw [step]
      by_cases none : (opt.cands.filter fun c => c.on.length > opt.times) = []
      · rw [Which.activate_of_nil none]
        exact .inl ⟨inactive, waits⟩
      · rw [Which.activate_of_ne_nil none]
        exact .inr ⟨events, _, [], _, rfl, .activate, fun e none => absurd none List.not_mem_nil,
          Opens.activate (m := m).open⟩
    | dismiss =>
      refine ⟨.inl ⟨rfl, rfl⟩, fun actions sent => ?_⟩
      simp [step, Which.dismiss] at sent
  · cases e with
    | key layer hooks key =>
      have inside' : ∀ e ∈ typed ++ [.key layer hooks key], Inside e := by
        rw [List.forall_mem_append, List.forall_mem_singleton]
        exact ⟨inside, trivial⟩
      -- A key that is not for the choice leaves it as it is.
      have unmoved (same : step m sorter w (.key layer hooks key) = (w, []))
          (unread : (hooks.taken || Which.ignored key) = true) :
          Known m sorter (before ++ opening :: typed ++ [.key layer hooks key])
              (step m sorter w (.key layer hooks key)).1 ∧
            ∀ actions, .seq actions ∈ (step m sorter w (.key layer hooks key)).2 →
              Typed m sorter (before ++ opening :: typed ++ [.key layer hooks key]) actions := by
        have same' : typedKeys (typed ++ [.key layer hooks key]) = typedKeys typed := by
          have none : typedKeys [.key layer hooks key] = [] := by
            simp only [typedKeys, List.filterMap_cons, unread, if_true, List.filterMap_nil]
          rw [typedKeys_concat, none, List.append_nil]
        rw [same]
        refine ⟨.inr ⟨before, opening, typed ++ [.key layer hooks key], opt, ?_, opens, inside', ?_⟩,
          fun actions sent => absurd sent List.not_mem_nil⟩
        · rw [List.append_assoc, List.cons_append]
        · rw [same']
          exact opened
      cases free : hooks.taken with
      | true => exact unmoved (step_taken free) (by rw [free, Bool.true_or])
      | false =>
        have routed := @step_typing m sorter hooks free w opened.active layer key
        cases given : Which.ignored key with
        | true =>
          refine unmoved ?_ (by rw [given, Bool.or_true])
          rw [routed, Which.type, given, if_pos rfl]
        | false =>
          rw [routed]
          have more : typedKeys (typed ++ [.key layer hooks key]) = typedKeys typed ++ [key] := by
            rw [typedKeys_concat, typedKeys, typedKeys]
            simp [free, given]
          rcases opened.type given with ⟨chord, ends, inactive, waits, sends⟩ | ⟨opened', sends⟩
          · refine ⟨.inl ⟨inactive, waits⟩, fun actions sent => ?_⟩
            rw [sends] at sent
            cases chord with
            | none => simp at sent
            | some c =>
              obtain rfl : actions = c.toSeq opt.layer := by simpa using sent
              rw [List.append_assoc, List.cons_append]
              exact .chosen opens inside' (more ▸ ends)
          · rw [sends]
            refine ⟨.inr ⟨before, opening, typed ++ [.key layer hooks key], opt, ?_, opens, inside',
              more ▸ opened'⟩, fun actions sent => absurd sent List.not_mem_nil⟩
            rw [List.append_assoc, List.cons_append]
    | activate opt' =>
      refine ⟨?_, fun actions sent => absurd sent List.not_mem_nil⟩
      rw [step]
      by_cases none : (opt'.cands.filter fun c => c.on.length > opt'.times) = []
      · rw [Which.activate_of_nil none]
        refine .inr ⟨before, opening, typed ++ [.activate opt'], opt, ?_, opens, ?_, ?_⟩
        · rw [List.append_assoc, List.cons_append]
        · rw [List.forall_mem_append, List.forall_mem_singleton]
          exact ⟨inside, none⟩
        · rw [typedKeys_concat, show typedKeys [.activate opt'] = [] from rfl, List.append_nil]
          exact opened
      · rw [Which.activate_of_ne_nil none]
        exact .inr ⟨_, _, [], _, rfl, .activate, fun e none => absurd none List.not_mem_nil,
          Opens.activate (m := m).open⟩
    | dismiss =>
      refine ⟨.inl ⟨rfl, rfl⟩, fun actions sent => ?_⟩
      simp [step, Which.dismiss] at sent

/-- Every chord that is ever run was typed. -/
theorem seq_typed {w : Which} (idle : Idle w) {events : List Event} {actions : List Action}
    (sent : .seq actions ∈ (run m sorter w events).2) :
    ∃ events', events' <+: events ∧ Typed m sorter events' actions := by
  have both : Known m sorter events (run m sorter w events).1 ∧
      ∀ actions, .seq actions ∈ (run m sorter w events).2 →
        ∃ events', events' <+: events ∧ Typed m sorter events' actions := by
    clear sent
    induction events using List.reverseRecOn with
    | nil => exact ⟨.inl idle, fun actions sent => absurd sent List.not_mem_nil⟩
    | append_singleton events e ih =>
      obtain ⟨known, typed⟩ := ih
      obtain ⟨known', typed'⟩ := step_known known e
      rw [run_concat]
      refine ⟨known', fun actions sent => ?_⟩
      rcases List.mem_append.mp sent with old | new
      · obtain ⟨events', before, typed⟩ := typed actions old
        exact ⟨events', before.trans (List.prefix_append events [e]), typed⟩
      · exact ⟨_, List.prefix_refl _, typed' actions new⟩
  exact both.2 actions sent

theorem run_cons (w : Which) (e : Event) (events : List Event) :
    run m sorter w (e :: events) =
      ((run m sorter (step m sorter w e).1 events).1,
        (step m sorter w e).2 ++ (run m sorter (step m sorter w e).1 events).2) := by
  induction events using List.reverseRecOn with
  | nil => exact Prod.ext rfl (List.append_nil _).symm
  | append_singleton events last ih =>
    rw [← List.cons_append, run_concat, run_concat, ih, List.append_assoc]

/-- No other of the chords of several keys can be meant where `c` is. -/
def Apart (chords : List Chord) (c : Chord) : Prop :=
  ∀ c' ∈ chords, 1 < c'.on.length → c' ≠ c → ¬c'.on <+: c.on ∧ ¬c.on <+: c'.on

/-- From a choice among the chords of a key, the keys of one of them run it, and nothing before. -/
theorem typing {layer : Layer} {key : Key} {opt : WhichOpt} {c : Chord}
    (cands : opt.cands.Perm ((m.chords layer).filter fun c => c.on.length > 1 && c.on[0]? = some key))
    (fresh : opt.times = 1 ∧ opt.tx = none ∧ opt.layer = layer)
    (listed : c ∈ m.chords layer) (apart : Apart (m.chords layer) c) (focus : Layer)
    {hooks : Hooks} (free : hooks.taken = false) {typed rest : List Key}
    (on : c.on = key :: (typed ++ rest)) (more : rest ≠ [])
    (given : ∀ key ∈ rest, Which.ignored key = false) {w : Which} (opened : Which.Open opt typed w) :
    ∃ n, 0 < n ∧ n ≤ rest.length ∧
      Idle (run m sorter w ((rest.take n).map (.key focus hooks))).1 ∧
      (run m sorter w ((rest.take n).map (.key focus hooks))).2 = [.seq (c.toSeq layer)] ∧
      ∀ j < n, (run m sorter w ((rest.take j).map (.key focus hooks))).2 = [] := by
  obtain ⟨once, alone, dist⟩ := fresh
  induction rest generalizing typed w with
  | nil => exact absurd rfl more
  | cons k rest ih =>
    obtain ⟨here, others⟩ := List.forall_mem_cons.mp given
    have routed := @step_typing m sorter hooks free w opened.active focus k
    have inOpt (c' : Chord) : c' ∈ opt.cands ↔
        c' ∈ m.chords layer ∧ 1 < c'.on.length ∧ c'.on[0]? = some key := by
      rw [cands.mem_iff, List.mem_filter]
      simp
    have cand : c ∈ opt.cands := (inOpt c).mpr ⟨listed, by rw [on]; simp, by rw [on]; rfl⟩
    have fits : c ∈ Which.fitting opt.cands opt.times (typed ++ [k]) := by
      rw [Which.fitting, List.mem_filter, List.isPrefixOf_iff_prefix, once, on]
      exact ⟨cand, rest, by simp⟩
    rcases opened.type here with ⟨chord, ends, idle, waits, sends⟩ | ⟨opened', sends⟩
    · have decided : chord = some c := by
        cases ends with
        | nothing none => exact absurd fits (none ▸ List.not_mem_nil)
        | only only => rw [only] at fits; rw [List.mem_singleton.mp fits]
        | @complete c' complete =>
          -- The keys of a complete chord are all typed, so they begin those of `c`.
          have length : c'.on.length = opt.times + (typed ++ [k]).length := by
            simpa using List.find?_some complete
          obtain ⟨cand', keys⟩ := List.mem_filter.mp (List.mem_of_find?_eq_some complete)
          obtain ⟨listed', several, start⟩ := (inOpt c').mp cand'
          rw [once] at length keys
          have whole : c'.on = key :: (typed ++ [k]) := by
            cases on' : c'.on with
            | nil => simp [on'] at start
            | cons first tail =>
              rw [on'] at length keys start
              obtain rfl := Option.some_inj.mp start
              rw [List.length_cons, Nat.add_comm, Nat.add_left_cancel_iff] at length
              rw [(List.isPrefixOf_iff_prefix.mp keys).eq_of_length length.symm]
              rfl
          by_contra other
          refine (apart c' listed' several fun same => other (congrArg some same)).1 ?_
          rw [whole, on]
          exact ⟨rest, by simp⟩
      refine ⟨1, Nat.one_pos, Nat.succ_le_succ (Nat.zero_le _), ?_⟩
      have ran : run m sorter w (((k :: rest).take 1).map (.key focus hooks)) =
          ((w.type k).1, (w.type k).2.1) := by
        rw [← routed]
        exact (run_cons ..).trans (Prod.ext rfl (List.append_nil _))
      rw [ran]
      refine ⟨⟨idle, waits⟩, ?_, fun j less => ?_⟩
      · rw [sends, decided, alone, dist]
        rfl
      · obtain rfl := Nat.lt_one_iff.mp less
        rfl
    · have on' : c.on = key :: (typed ++ [k] ++ rest) := by rw [on, List.append_assoc]; rfl
      have after : rest ≠ [] := by
        rintro rfl
        have longer := opened'.longer c (opened'.cands ▸ fits)
        rw [opened'.times, once, on] at longer
        simp at longer
      obtain ⟨n, positive, within, idle, sent, silent⟩ :=
        ih on' after others opened'
      have next (j : Nat) : run m sorter w (((k :: rest).take (j + 1)).map (.key focus hooks)) =
          run m sorter (w.type k).1 ((rest.take j).map (.key focus hooks)) := by
        rw [List.take_succ_cons, List.map_cons, run_cons, routed, sends]
        rfl
      refine ⟨n + 1, Nat.succ_pos n, Nat.succ_le_succ within, ?_, ?_, fun j less => ?_⟩
      · rw [next]
        exact idle
      · rw [next]
        exact sent
      · cases j with
        | zero => rfl
        | succ j =>
          rw [next]
          exact silent j (Nat.lt_of_succ_lt_succ less)

/-- The first key of a chord opens a choice among the chords that begin with it. -/
theorem opening {layer : Layer} {key : Key} {c : Chord} (listed : c ∈ m.chords layer)
    (start : c.on[0]? = some key)
    (first : ∀ c' ∈ (m.chords layer).find? (fun c => c.on[0]? = some key), 1 < c'.on.length)
    {hooks : Hooks} (free : hooks.taken = false) {w : Which} (idle : Idle w) :
    ∃ opt opened, Which.Open opt [] opened ∧
      step m sorter w (.key layer hooks key) = (opened, []) ∧
      opt.cands.Perm
        ((m.chords layer).filter fun c => c.on.length > 1 && c.on[0]? = some key) ∧
      opt.times = 1 ∧ opt.tx = none ∧ opt.layer = layer := by
  have listed' : ((m.chords layer).find? fun c => c.on[0]? = some key).isSome = true := by
    rw [List.find?_isSome]
    exact ⟨c, listed, by simpa using start⟩
  obtain ⟨c', found⟩ := Option.isSome_iff_exists.mp listed'
  have opens := @Opens.key m sorter layer layer layer hooks key c' free (.own layer) found
    (first c' found)
  refine ⟨_, _, opens.open, ?_, sorter.perm _, rfl, rfl, rfl⟩
  have opened := (@matches_several m sorter w layer layer key c' found (first c' found)).1
  rw [step, route_free free, dispatch_own idle.1 (by rw [opened]), opened]
  rfl

private def char (c : Char) : Key := { code := .char c }

private def chord (on : List Char) (name : String) : Chord :=
  ⟨on.map char, [⟨⟨name.toList, []⟩, .null⟩], [], .all⟩

private def tables : KeymapSection where
  keymap := [chord ['g', 'x'] "own", chord ['g', 'x', 'y'] "longer", chord ['q'] "quit"]
  prependKeymap := [chord ['g', 'x'] "mine", chord ['g', 'h', 'h'] "home"]
  appendKeymap := [chord ['z'] "jump"]

private def keymap : Keymap := ⟨tables.mixed, [], [], [], [], [], [], []⟩

private def unsorted : WhichSorter := ⟨id, fun cands => List.Perm.refl cands⟩

private def idle : Which := ⟨none, .null, [], 0, false, false⟩

theorem seq_typed_sample :
    ∃ events', events' <+: [.key .mgr {} (char 'g'), .key .mgr {} (char 'x')] ∧
      Typed keymap unsorted events' ((chord ['g', 'x'] "mine").toSeq .mgr) :=
  seq_typed (w := idle) ⟨rfl, rfl⟩ (by decide)

end Router

end Yazi.Core
