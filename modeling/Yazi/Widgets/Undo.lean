import Yazi.Base.History
import Yazi.Base.Run
import Yazi.Widgets.Safety

/-!
The versions of an input are a linear history of its values.

An edit is what an action that begins or ends in normal mode makes of the value, if it is another
one: an insertion ends with the escape. A version is tagged for each edit, except for two.
-/
namespace Yazi.Widgets
open Base

/-! ### Versions -/

namespace InputSnaps

/-- The values of the versions are those of a history, the current version being its present. -/
structure Records (h : History (List Char)) (s : InputSnaps) : Prop where
  values : s.versions.map (·.value) = h.all
  idx : s.idx = h.past.length
  idle : ∀ v ∈ s.versions, v.op = .none ∧ v.mode ≠ .replace

variable {h : History (List Char)} {s : InputSnaps} (w : Widths)

/-- The current snapshot is of no matter. -/
theorem Records.current (records : s.Records h) (current : InputSnap) :
    ({ s with current } : InputSnaps).Records h := ⟨records.values, records.idx, records.idle⟩

theorem Records.getElem? (records : s.Records h) (n : Nat) :
    (s.versions[n]?).map (·.value) = h.all[n]? := by
  rw [← records.values, List.getElem?_map]

theorem Records.tag (records : s.Records h) (op : s.current.op = .none)
    (mode : s.current.mode ≠ .replace) (limit : Nat) :
    (s.tag w limit).1.Records (h.record s.current.value) := by
  have last := records.getElem? s.idx
  rw [records.idx, History.getElem?_all] at last
  obtain ⟨version, found, value⟩ := Option.map_eq_some_iff.mp last
  rw [← records.idx] at found
  -- the last version keeps its value, and takes over the rest
  let synced := s.versions.set s.idx ({ s.current with value := version.value }.resize w limit)
  have values : synced.map (·.value) = h.all := by
    have value : (s.versions.map (·.value))[s.idx]? = some version.value := by
      rw [List.getElem?_map, found]
      rfl
    obtain ⟨bound, same⟩ := List.getElem?_eq_some_iff.mp value
    rw [List.map_set, InputSnap.resize_value, ← records.values, ← same, List.set_getElem_self]
  have idle : ∀ v ∈ synced, v.op = .none ∧ v.mode ≠ .replace := by
    intro v member
    rcases List.mem_or_eq_of_mem_set member with old | rfl
    · exact records.idle v old
    · exact ⟨op, mode⟩
  rw [InputSnaps.tag, found]
  dsimp only
  split
  · next same =>
    rw [← same, value, History.record_self, ← value]
    exact ⟨values, records.idx, idle⟩
  · next other =>
    have other' : s.current.value ≠ h.present := fun same => other (value.trans same.symm)
    constructor
    · rw [List.map_append, List.map_take, History.all_record other', ← values, ← records.idx]
      rfl
    · rw [History.record_of_ne other', records.idx]
      rfl
    · intro v member
      rcases List.mem_append.mp member with old | new
      · exact idle v (List.mem_of_mem_take old)
      · rw [List.mem_singleton.mp new]
        exact ⟨op, mode⟩

end InputSnaps

/-! ### What an action has left -/

namespace Input
open InputSnap
variable {w : Widths} {i t : Input}

theorem flushTrigger_some (flushed : i.flushTrigger = some t) : t = i := by
  rw [flushTrigger] at flushed
  split at flushed
  · obtain ⟨_, -, same⟩ := Option.map_eq_some_iff.mp flushed
    exact same.symm
  · exact (Option.some.inj flushed).symm

theorem flushAll_some (flushed : i.flushAll = some t) : t.snaps = i.snaps := by
  rw [flushTrigger_some flushed]

theorem tagged_some (tagged : i.tagged w = some t) : t.snaps = (i.snaps.tag w i.limit).1 := by
  rw [Input.tagged] at tagged
  dsimp only at tagged
  split at tagged
  · exact flushAll_some tagged
  · rw [← Option.some.inj tagged]

theorem splice_some {snap : InputSnap} {s e : Nat} {other value : List Char}
    (spliced : snap.splice s e other = some value) :
    value = snap.value.take s ++ other ++ snap.value.drop e := by
  obtain ⟨_, -, same⟩ := Option.map_eq_some_iff.mp spliced
  exact same.symm

theorem handleOp_some {cursor : Nat} {inclusive : Bool}
    (handled : i.handleOp w cursor inclusive = some t) :
    t.snaps = settled w i (operated i.snap cursor inclusive) := by
  cases op : i.snap.op with
  | none | select _ =>
    have idle : i.snap.op.isPending = false := by rw [op]; rfl
    rw [handleOp_idle w idle] at handled
    rw [← Option.some.inj handled, settled, idle]
    rfl
  | delete _ insert start =>
    simp only [handleOp, op, Option.bind_eq_bind, Option.bind_eq_some_iff] at handled
    obtain ⟨value, spliced, tagged⟩ := handled
    rw [tagged_some tagged, splice_some spliced, List.append_nil, settled, op]
    simp [operated, op, InputOp.isPending]
    rfl
  | yank start =>
    simp only [handleOp, op, Option.bind_eq_bind, Option.bind_eq_some_iff] at handled
    obtain ⟨_, -, tagged⟩ := handled
    rw [tagged_some tagged, settled, op]
    simp [operated, op, InputOp.isPending]
    rfl

theorem move_some {step : MoveOptStep} (moved : i.move w step false = some t) :
    ∃ offset, t.snaps =
      { settled w i (operated i.snap (step.add i.value i.snap.cursor) false) with
        current := { operated i.snap (step.add i.value i.snap.cursor) false with offset } } := by
  simp only [move, Bool.false_eq_true, false_and, if_false, Option.bind_eq_bind,
    Option.bind_eq_some_iff] at moved
  obtain ⟨h, handled, moved⟩ := moved
  have snaps := handleOp_some handled
  have current : h.snap = operated i.snap (step.add i.value i.snap.cursor) false := by
    rw [snap, snaps, settled_current]
  rw [← snaps, ← current]
  split at moved
  · rw [← Option.some.inj moved]
    exact ⟨0, rfl⟩
  · obtain ⟨offset, -, moved⟩ := Option.bind_eq_some_iff.mp moved
    refine ⟨offset, ?_⟩
    split at moved
    · rw [flushTrigger_some moved]
      rfl
    · rw [← Option.some.inj moved]
      rfl

/-- With nothing to carry out, a move keeps everything but the cursor and the offset. -/
theorem moved_idle {step : MoveOptStep} (moved : i.move w step false = some t)
    (idle : i.snap.op.isPending = false) :
    t.value = i.value ∧ t.mode = i.mode ∧ t.snap.op = i.snap.op ∧
      t.snaps = { i.snaps with current := t.snap } := by
  obtain ⟨offset, snaps⟩ := move_some moved
  rw [operated_idle idle, settled, idle] at snaps
  rw [value, mode, snap, snaps]
  exact ⟨rfl, rfl, rfl, rfl⟩

/-- What an action makes of the history, when it is neither an undo nor a redo. -/
def edited (i t : Input) (h : History (List Char)) : History (List Char) :=
  if i.mode = .normal ∨ t.mode = .normal then h.record t.value else h

structure Consistent (h : History (List Char)) (i : Input) : Prop where
  records : i.snaps.Records h
  idle : i.snap.op = .none ∨ i.mode = .normal
  present : i.mode = .normal → i.value = h.present

/-- What an edit leaves. -/
structure Tagged (h : History (List Char)) (t : Input) : Prop where
  records : t.snaps.Records (h.record t.value)
  op : t.snap.op = .none
  mode : t.mode ≠ .replace

section
variable {h : History (List Char)}

theorem Consistent.op {i : Input} (consistent : Consistent h i) (mode : i.mode ≠ .normal) :
    i.snap.op = .none := consistent.idle.resolve_right mode

/-- An action that keeps the value. -/
theorem Consistent.quiet (consistent : Consistent h i) (value : t.value = i.value)
    (versions : t.snaps = { i.snaps with current := t.snap })
    (idle : t.snap.op = .none ∨ t.mode = .normal) (mode : t.mode = .normal → i.mode = .normal) :
    Consistent (edited i t h) t := by
  have records : t.snaps.Records h := by
    rw [versions]
    exact consistent.records.current _
  have same : edited i t h = h := by
    rw [edited]
    split
    · next normal =>
      rw [value, consistent.present (normal.elim id mode), History.record_self]
    · rfl
  rw [same]
  exact ⟨records, idle, fun normal => value.trans (consistent.present (mode normal))⟩

/-- An action on the way, outside of normal mode. -/
theorem Consistent.within (consistent : Consistent h i) (mode : i.mode ≠ .normal)
    (versions : t.snaps = { i.snaps with current := t.snap }) (op : t.snap.op = .none)
    (mode' : t.mode = i.mode) : Consistent (edited i t h) t := by
  have away : ¬(i.mode = .normal ∨ t.mode = .normal) := by
    rw [mode']
    exact fun normal => mode (normal.elim id id)
  rw [edited, if_neg away]
  constructor
  · rw [versions]
    exact consistent.records.current _
  · exact .inl op
  · exact fun normal => absurd (.inr normal) away

theorem Tagged.consistent (tagged : Tagged h t) (normal : i.mode = .normal ∨ t.mode = .normal) :
    Consistent (edited i t h) t := by
  rw [edited, if_pos normal]
  exact ⟨tagged.records, .inl tagged.op, fun _ => (History.record_present ..).symm⟩

theorem tagged_of (current : InputSnap) (limit : Nat) (records : i.snaps.Records h)
    (snaps : t.snaps = (InputSnaps.tag w limit { i.snaps with current }).1)
    (op : current.op = .none) (mode : current.mode ≠ .replace) : Tagged h t := by
  have same : t.snap = current := by
    rw [snap, snaps, InputSnaps.tag_current]
  refine ⟨?_, ?_, ?_⟩
  · rw [value, same, snaps]
    exact (records.current current).tag w op mode limit
  · rw [same]
    exact op
  · rw [Input.mode, same]
    exact mode

/-- A move after an edit. -/
theorem Tagged.moved {n : Int} {m : Input} (tagged : Tagged h m) (moved : m.moveBy w n = some t) :
    Tagged h t := by
  obtain ⟨value, mode, op, snaps⟩ := moved_idle moved (by rw [tagged.op]; rfl)
  refine ⟨?_, op.trans tagged.op, ?_⟩
  · rw [value, snaps]
    exact tagged.records.current _
  · rw [mode]
    exact tagged.mode

theorem operated_mode {snap : InputSnap} (mode : snap.mode = .normal) (cursor : Nat)
    (inclusive : Bool) : (operated snap cursor inclusive).mode ≠ .replace := by
  cases op : snap.op with
  | none | select _ | yank _ =>
    simp [operated, op, clamp, mode]
  | delete _ insert _ =>
    cases insert <;> simp [operated, op, clamp]

/-- An operation that is carried out is an edit. -/
theorem tagged_of_handleOp {cursor : Nat} {inclusive : Bool}
    (handled : i.handleOp w cursor inclusive = some t) (records : i.snaps.Records h)
    (pending : i.snap.op.isPending = true) (mode : i.snap.mode = .normal) : Tagged h t := by
  have snaps := handleOp_some handled
  rw [settled, if_pos pending] at snaps
  exact tagged_of _ _ records snaps (operated_op pending ..) (operated_mode mode _ _)

theorem tagged_of_move {step : MoveOptStep} (moved : i.move w step false = some t)
    (records : i.snaps.Records h) (pending : i.snap.op.isPending = true)
    (mode : i.snap.mode = .normal) : Tagged h t := by
  obtain ⟨offset, snaps⟩ := move_some moved
  rw [settled, if_pos pending] at snaps
  have tagged : Tagged h { i with
      snaps := (InputSnaps.tag w i.limit { i.snaps with
        current := operated i.snap (step.add i.value i.snap.cursor) false }).1 } :=
    tagged_of _ _ records rfl (operated_op pending ..) (operated_mode mode _ _)
  have same : t.snap = { operated i.snap (step.add i.value i.snap.cursor) false with offset } := by
    rw [snap, snaps]
  refine ⟨?_, ?_, ?_⟩
  · rw [value, same, snaps]
    have records := tagged.records.current { operated i.snap (step.add i.value i.snap.cursor) false with offset }
    rw [value, snap, InputSnaps.tag_current] at records
    exact records
  · rw [same]
    exact operated_op pending ..
  · rw [Input.mode, same]
    exact operated_mode mode _ _

theorem Consistent.move {step : MoveOptStep} (consistent : Consistent h i)
    (moved : i.move w step false = some t) : Consistent (edited i t h) t := by
  cases pending : i.snap.op.isPending with
  | false =>
    obtain ⟨value, mode, op, snaps⟩ := moved_idle moved pending
    apply consistent.quiet value snaps
    · rw [op, mode]
      exact consistent.idle
    · exact fun normal => mode ▸ normal
  | true =>
    have mode : i.mode = .normal := consistent.idle.resolve_left fun none => by
      rw [none] at pending
      cases pending
    exact (tagged_of_move moved consistent.records pending mode).consistent (.inl mode)

/-! ### Each action -/

/-- The tag at the end of an escape. -/
theorem left_mode {m : Input} (records : i.snaps.Records h)
    (versions : m.snaps = { i.snaps with current := m.snap }) (op : m.snap.op = .none)
    (mode : m.mode = .normal) (tag : ({ m with snaps := (m.snaps.tag w m.limit).1 } : Input) = t) :
    Tagged h t ∧ t.mode = .normal := by
  constructor
  · apply tagged_of (i := i) (w := w) m.snap m.limit records _ op
    · rw [show m.snap.mode = .normal from mode]
      decide
    · rw [← tag, ← versions]
  · rw [← tag, Input.mode, snap, InputSnaps.tag_current]
    exact mode

/-- To leave a mode is the end of an edit. -/
theorem escaped (escaped : i.escape w = some t) (records : i.snaps.Records h)
    (idle : i.snap.op = .none ∨ i.mode = .normal) : Tagged h t ∧ t.mode = .normal := by
  cases mode : i.mode with
  | normal =>
    simp only [escape, mode, Option.bind_eq_bind, Option.bind_some] at escaped
    exact left_mode (m := i.put { i.snap with op := .none }) records rfl rfl mode
      (Option.some.inj escaped)
  | insert =>
    simp only [escape, mode, Option.bind_eq_bind, Option.bind_eq_some_iff] at escaped
    obtain ⟨m, left, tag⟩ := escaped
    have op : i.snap.op = .none := idle.resolve_right (by rw [mode]; decide)
    obtain ⟨-, mode', op', snaps⟩ := moved_idle left (by rw [put_snap, op]; rfl)
    exact left_mode records snaps (op'.trans op) mode' (Option.some.inj tag)
  | replace =>
    simp only [escape, mode, Option.bind_eq_bind, Option.bind_some] at escaped
    exact left_mode (m := i.put { i.snap with mode := .normal }) records rfl
      (idle.resolve_right (by rw [mode]; decide)) rfl (Option.some.inj escaped)

/-- Where the history is as after an edit, whatever has been selected since. -/
theorem Tagged.selected {m : Input} (tagged : Tagged h m) (value : t.value = m.value)
    (versions : t.snaps = { m.snaps with current := t.snap }) (mode : t.mode = .normal) :
    Consistent (edited i t h) t := by
  rw [edited, if_pos (.inr mode)]
  refine ⟨?_, .inr mode, fun _ => (History.record_present ..).symm⟩
  rw [value, versions]
  exact tagged.records.current _

theorem Consistent.visual (consistent : Consistent h i) (done : i.visual w = some t) :
    Consistent (edited i t h) t := by
  -- what is selected has no part in the history
  have begun : ∀ {m : Input}, m.mode = .normal → m.visual w = some t →
      t.value = m.value ∧ t.snaps = { m.snaps with current := t.snap } ∧ t.mode = .normal := by
    intro m mode done
    simp only [Input.visual, mode, ne_eq, not_true_eq_false, if_false, Option.bind_eq_bind,
      Option.bind_some] at done
    split at done
    · cases done
      exact ⟨rfl, rfl, mode⟩
    · cases done
      split
      · exact ⟨rfl, rfl, mode⟩
      · exact ⟨rfl, rfl, mode⟩
  by_cases normal : i.mode = .normal
  · obtain ⟨value, versions, mode⟩ := begun normal done
    exact consistent.quiet value versions (.inr mode) fun _ => normal
  · have left : ∃ m, i.escape w = some m ∧ m.visual w = some t := by
      cases left : i.escape w with
      | none => simp [Input.visual, normal, left] at done
      | some m =>
        have after := (escaped left consistent.records consistent.idle).2
        refine ⟨m, rfl, ?_⟩
        simpa [Input.visual, normal, left, after] using done
    obtain ⟨m, left, done⟩ := left
    obtain ⟨tagged, normal⟩ := escaped left consistent.records consistent.idle
    obtain ⟨value, versions, mode⟩ := begun normal done
    exact tagged.selected value versions mode

theorem Consistent.insert (consistent : Consistent h i) {append : Bool}
    (done : i.insert w append = some t) : Consistent (edited i t h) t := by
  rw [Input.insert] at done
  split at done
  · next mode =>
    cases append with
    | false =>
      cases done
      exact consistent.quiet rfl rfl (.inl rfl) fun _ => mode
    | true =>
      obtain ⟨value, -, op, snaps⟩ := moved_idle done rfl
      exact consistent.quiet value snaps (.inl op) fun _ => mode
  · cases done
    exact consistent.quiet rfl rfl consistent.idle id

theorem inserted {s : List Char} (done : i.insertStr w s = some t) (op : i.snap.op = .none) :
    t.mode = i.mode ∧ t.snap.op = .none ∧ t.snaps = { i.snaps with current := t.snap } := by
  simp only [insertStr, Option.bind_eq_bind, Option.bind_eq_some_iff] at done
  obtain ⟨value, -, m, moved, flushed⟩ := done
  obtain ⟨-, mode, op', snaps⟩ := moved_idle moved (by rw [put_snap, op]; rfl)
  have same := flushAll_some flushed
  have current : t.snap = m.snap := congrArg InputSnaps.current same
  rw [Input.mode, current, same]
  exact ⟨mode, op'.trans op, snaps⟩

theorem Consistent.feed (consistent : Consistent h i) {s : List Char}
    (done : i.feed w s = some t) : Consistent (edited i t h) t := by
  rw [Input.feed] at done
  cases mode : i.mode with
  | normal =>
    rw [mode] at done
    cases done
    exact consistent.quiet rfl rfl consistent.idle id
  | insert =>
    rw [mode] at done
    have away : i.mode ≠ .normal := by rw [mode]; decide
    obtain ⟨mode', op, snaps⟩ := inserted done (consistent.op away)
    exact consistent.within away snaps op mode'
  | replace =>
    rw [mode] at done
    have away : i.mode ≠ .normal := by rw [mode]; decide
    simp only [replaceStr, Option.bind_eq_bind, Option.bind_eq_some_iff] at done
    obtain ⟨value, -, tag⟩ := done
    have snaps := tagged_some tag
    have tagged : Tagged h t :=
      tagged_of { i.snap with mode := .normal, value } i.limit consistent.records snaps
        (consistent.op away) (by rintro ⟨⟩)
    have normal : t.mode = .normal := by
      rw [Input.mode, snap, snaps, InputSnaps.tag_current]
      rfl
    exact tagged.consistent (.inr normal)

/-- An operation on what is selected, or asked for twice. -/
theorem Consistent.operate (consistent : Consistent h i) {op : InputOp}
    (pending : op.isPending = true) (mode : i.mode = .normal) {cursor : Nat} {inclusive : Bool}
    (done : (((i.put { i.snap with op }).handleOp w cursor inclusive).bind
      fun i => i.moveBy w 0) = some t) : Consistent (edited i t h) t := by
  obtain ⟨m, handled, moved⟩ := Option.bind_eq_some_iff.mp done
  have tagged : Tagged h m := tagged_of_handleOp handled (consistent.records.current _) pending mode
  exact (tagged.moved moved).consistent (.inl mode)

theorem Consistent.twice (consistent : Consistent h i) {op : InputOp}
    (pending : op.isPending = true) (mode : i.mode = .normal) {n : Int}
    (done : (i.put { i.snap with op }).moveBy w n = some t) : Consistent (edited i t h) t :=
  (tagged_of_move done (consistent.records.current _) pending mode).consistent (.inl mode)

theorem Consistent.delete (consistent : Consistent h i) (mode : i.mode = .normal)
    {cut insert : Bool} (done : i.delete w cut insert = some t) :
    Consistent (edited i t h) t := by
  rw [Input.delete] at done
  split at done
  · cases done
    exact consistent.quiet rfl rfl (.inr mode) fun _ => mode
  · exact consistent.operate rfl mode done
  · exact consistent.twice rfl mode done
  · cases done
    exact consistent.quiet rfl rfl consistent.idle id

theorem Consistent.yank (consistent : Consistent h i) (mode : i.mode = .normal)
    (done : i.yank w = some t) : Consistent (edited i t h) t := by
  rw [Input.yank] at done
  split at done
  · cases done
    exact consistent.quiet rfl rfl (.inr mode) fun _ => mode
  · exact consistent.operate rfl mode done
  · exact consistent.twice rfl mode done
  · cases done
    exact consistent.quiet rfl rfl consistent.idle id

theorem Consistent.casefy (consistent : Consistent h i) (mode : i.mode = .normal) {upper : Bool}
    (done : i.casefy w upper = some t) : Consistent (edited i t h) t := by
  rw [Input.casefy] at done
  split at done
  · simp only [Option.bind_eq_bind, Option.bind_eq_some_iff] at done
    obtain ⟨_, -, value, -, m, tag, moved⟩ := done
    have snaps := tagged_some tag
    have tagged : Tagged h m := by
      apply tagged_of _ _ consistent.records snaps rfl
      rw [show i.snap.mode = .normal from mode]
      decide
    exact (tagged.moved moved).consistent (.inl mode)
  · cases done
    exact consistent.quiet rfl rfl consistent.idle id

/-- The deletion of what is selected is an edit of its own. -/
def twofold (i : Input) (clipboard : List Char) : Bool :=
  i.mode = .normal ∧ i.snap.op ≠ .none ∧ clipboard ≠ []

theorem Consistent.paste (consistent : Consistent h i) (mode : i.mode = .normal) {before : Bool}
    {clipboard : List Char} (fine : i.twofold clipboard = false)
    (done : i.paste w before clipboard = some t) : Consistent (edited i t h) t := by
  cases begins : i.snap.op.start with
  | none =>
    simp only [Input.paste, begins, Option.bind_eq_bind, Option.bind_some] at done
    split at done
    · cases done
      exact consistent.quiet rfl rfl consistent.idle id
    · simp only [Option.bind_eq_some_iff] at done
      obtain ⟨m, entered, n, put, left⟩ := done
      have kept : m.snaps = { i.snaps with current := m.snap } ∧ m.snap.op = .none := by
        rw [Input.insert, if_pos mode] at entered
        cases before with
        | false =>
          obtain ⟨-, -, op, snaps⟩ := moved_idle entered rfl
          exact ⟨snaps, op⟩
        | true =>
          cases entered
          exact ⟨rfl, rfl⟩
      obtain ⟨snaps, op⟩ := kept
      obtain ⟨-, op', snaps'⟩ := inserted put op
      have records : n.snaps.Records h := by
        rw [snaps', snaps]
        exact consistent.records.current _
      exact (escaped left records (.inl op')).1.consistent (.inl mode)
  | some start =>
    have empty : clipboard = [] := by
      by_contra some
      have selected : i.snap.op ≠ .none := by
        intro none
        rw [none] at begins
        cases begins
      simp [twofold, mode, selected, some] at fine
    simp only [Input.paste, begins, Option.bind_eq_bind, Option.bind_eq_some_iff] at done
    obtain ⟨m, handled, done⟩ := done
    rw [if_pos empty] at done
    have tagged : Tagged h t := by
      rw [← Option.some.inj done]
      exact tagged_of_handleOp handled (consistent.records.current _) rfl mode
    exact tagged.consistent (.inl mode)

/-- A change of the value in another mode, and the move after it. -/
theorem Consistent.removed (consistent : Consistent h i) (away : i.mode ≠ .normal)
    (current : InputSnap) (op : current.op = i.snap.op) (mode' : current.mode = i.snap.mode)
    {n : Int} (done : (((i.put current).moveBy w n).bind fun i => i.flushAll) = some t) :
    Consistent (edited i t h) t := by
  have idle := consistent.op away
  obtain ⟨m, moved, flushed⟩ := Option.bind_eq_some_iff.mp done
  obtain ⟨-, kept, op', snaps⟩ := moved_idle moved (by rw [put_snap, op, idle]; rfl)
  have same := flushAll_some flushed
  have now : t.snap = m.snap := congrArg InputSnaps.current same
  apply consistent.within away
  · rw [same, now]
    exact snaps
  · rw [now]
    exact op'.trans (op.trans idle)
  · rw [Input.mode, now]
    exact Eq.trans kept mode'

theorem Consistent.backspace (consistent : Consistent h i) (mode : i.mode = .insert)
    {under : Bool} (done : i.backspace w under = some t) : Consistent (edited i t h) t := by
  rw [Input.backspace] at done
  split at done
  · cases done
    exact consistent.quiet rfl rfl consistent.idle id
  · split at done
    · cases done
      exact consistent.quiet rfl rfl consistent.idle id
    · obtain ⟨value, -, done⟩ := Option.bind_eq_some_iff.mp done
      have away : i.mode ≠ .normal := by rw [mode]; decide
      exact consistent.removed away { i.snap with value } rfl rfl done

theorem Consistent.killRange (consistent : Consistent h i) (mode : i.mode = .insert) {s e : Nat}
    (done : i.killRange w s e = some t) : Consistent (edited i t h) t := by
  simp only [Input.killRange, Option.bind_eq_bind, Option.bind_eq_some_iff] at done
  obtain ⟨value, -, done⟩ := done
  have away : i.mode ≠ .normal := by rw [mode]; decide
  split at done
  · cases done
    exact consistent.within away rfl (consistent.op away) rfl
  · exact consistent.removed away
      { i.snap with value, cursor := bytes (i.value.take s) } rfl rfl done

theorem Consistent.kill (consistent : Consistent h i) (mode : i.mode = .insert) {kind : Kill}
    (done : i.kill w kind = some t) : Consistent (edited i t h) t := by
  unfold Input.kill at done
  cases kind with
  | all | bol | eol | backward | forward => exact consistent.killRange mode done
  | unknown =>
    cases done
    exact consistent.quiet rfl rfl consistent.idle id

theorem Consistent.backward (consistent : Consistent h i) {gait : Gait}
    (done : i.backward w gait = some t) : Consistent (edited i t h) t := by
  rw [Input.backward] at done
  split at done
  · exact consistent.move done
  · split at done
    · cases done
    · split at done
      · exact consistent.move done
      · exact consistent.move done

theorem Consistent.forward (consistent : Consistent h i) {gait : Gait} {endOfWord : Bool}
    (done : i.forward w gait endOfWord = some t) : Consistent (edited i t h) t := by
  rw [Input.forward] at done
  split at done
  · exact consistent.move done
  · split at done
    · exact consistent.move done
    · have moved : ∃ n : Int, i.moveBy w n = some t := by
        split at done
        · split at done
          · split at done
            · cases done
            · exact ⟨_, done⟩
          · exact ⟨_, done⟩
        · split at done
          · split at done
            · cases done
            · exact ⟨_, done⟩
          · exact ⟨_, done⟩
        · exact ⟨_, done⟩
      obtain ⟨n, moved⟩ := moved
      exact consistent.move moved

/-- A completion that no version is tagged for. -/
def untagged (i : Input) (opt : CompleteOpt) : Bool :=
  i.mode = .normal ∧ i.snap.op.isPending = false ∧
    i.partition.any fun (before, after) => completed before after opt ≠ i.value

theorem Consistent.complete (consistent : Consistent h i) {opt : CompleteOpt}
    (fine : i.untagged opt = false) (done : i.complete w opt = some t) :
    Consistent (edited i t h) t := by
  rw [Input.complete] at done
  obtain ⟨⟨before, after⟩, parts, done⟩ := Option.bind_eq_some_iff.mp done
  dsimp only at done
  split at done
  · cases done
    exact consistent.quiet rfl rfl consistent.idle id
  · next other =>
    by_cases mode : i.mode = .normal
    · have pending : i.snap.op.isPending = true := by
        by_contra idle
        simp [untagged, mode, idle, parts, other] at fine
      obtain ⟨m, moved, flushed⟩ := Option.bind_eq_some_iff.mp done
      have tagged : Tagged h m :=
        tagged_of_move moved (consistent.records.current _) pending mode
      have same := flushAll_some flushed
      have tagged : Tagged h t := by
        refine ⟨?_, ?_, ?_⟩
        · rw [value, snap, same]
          exact tagged.records
        · rw [snap, same]
          exact tagged.op
        · rw [Input.mode, snap, same]
          exact tagged.mode
      exact tagged.consistent (.inl mode)
    · exact consistent.removed mode
        { i.snap with value := completed before after opt } rfl rfl done

/-- A recall outside of an insertion is not an edit. -/
def unheard (i : Input) (items : List (List Char)) (step : Step) : Bool :=
  i.mode = .normal ∧ (i.recalled items step).any fun value => value ≠ i.value

theorem Consistent.recallTo (consistent : Consistent h i) {value : List Char}
    (fine : i.mode = .normal → value = i.value) {history : InputHistory}
    (done : ({ i with history } : Input).recallTo w value = some t) :
    Consistent (edited i t h) t := by
  have same := flushTrigger_some done
  have versions : t.snaps = { i.snaps with current := t.snap } := by
    rw [same]
    rfl
  have op : t.snap.op = .none := by
    rw [same]
    rfl
  have mode : t.mode = i.mode := by
    rw [same]
    rfl
  by_cases normal : i.mode = .normal
  · apply consistent.quiet _ versions (.inl op) fun _ => normal
    rw [same, ← fine normal]
    rfl
  · exact consistent.within normal versions op mode

theorem Consistent.recall (consistent : Consistent h i) {items : List (List Char)} {step : Step}
    (fine : i.unheard items step = false) (done : i.recall w items step = some t) :
    Consistent (edited i t h) t := by
  have kept : ∀ value, i.recalled items step = some value → i.mode = .normal →
      value = i.value := by
    intro value put mode
    by_contra other
    simp [unheard, mode, put, other] at fine
  rw [recalled] at kept
  rw [Input.recall] at done
  split at done
  · cases done
    exact consistent.quiet rfl rfl consistent.idle id
  · next some =>
    rw [if_neg some] at kept
    dsimp only at kept done
    split at done
    · cases done
      exact consistent.quiet rfl rfl consistent.idle id
    · next other =>
      rw [if_neg other] at kept
      split at done
      · next draft =>
        rw [if_pos draft] at kept
        exact consistent.recallTo (kept _ rfl) done
      · next listed =>
        rw [if_neg listed] at kept
        obtain ⟨item, found, done⟩ := Option.bind_eq_some_iff.mp done
        exact consistent.recallTo (kept item found) done

theorem Consistent.repos (consistent : Consistent h i) (size : Nat × Nat) :
    Consistent (edited i (i.repos w size) h) (i.repos w size) := by
  rw [Input.repos]
  split
  · exact consistent.quiet rfl rfl consistent.idle id
  · exact consistent.quiet rfl rfl consistent.idle id

/-! ### Undo and redo -/

theorem calm_of_records {s : InputSnaps} (records : s.Records h) : s.Calm :=
  fun v member => (records.idle v member).1

/-- Going to a version, which may be one of insert mode. -/
theorem Consistent.undo (consistent : Consistent h i) (mode : i.mode = .normal)
    (op : i.snap.op = .none) : ∃ t, i.undo w = some t ∧ Consistent h.undo t ∧
      t.mode = .normal ∧ t.snap.op = .none ∧ t.value = h.undo.present := by
  rw [Input.undo, if_neg (by rw [op]; exact fun other => other rfl)]
  by_cases first : h.past = []
  · have still : i.snaps.undo = none := by
      rw [InputSnaps.undo, if_pos]
      rw [consistent.records.idx, first]
      rfl
    have same : h.undo = h := by
      rw [History.undo, first]
    rw [still, same]
    exact ⟨i, rfl, consistent, mode, op, consistent.present mode⟩
  · have positive : h.past.length ≠ 0 := fun zero => first (List.length_eq_zero_iff.mp zero)
    have found := consistent.records.getElem? (h.past.length - 1)
    rw [History.getElem?_all_undo first, ← consistent.records.idx] at found
    obtain ⟨version, found, value⟩ := Option.map_eq_some_iff.mp found
    let snaps : InputSnaps := { i.snaps with idx := i.snaps.idx - 1, current := version }
    have undone : i.snaps.undo = some snaps := by
      rw [InputSnaps.undo, if_neg (by rwa [consistent.records.idx]), found]
      rfl
    have records : snaps.Records h.undo := by
      refine ⟨?_, ?_, consistent.records.idle⟩
      · rw [History.all_undo]
        exact consistent.records.values
      · change i.snaps.idx - 1 = _
        rw [consistent.records.idx]
        cases past : h.past with
        | nil => exact absurd past first
        | cons v rest =>
          rw [History.undo, past]
          rfl
    have idle := consistent.records.idle version (List.mem_of_getElem? found)
    obtain ⟨m, moved, -⟩ := moveBy_left_of_none w (i := { i with snaps }) (n := 0)
      (Int.le_refl 0) (calm_of_records records) idle.1
    obtain ⟨value', mode', op', snaps'⟩ := moved_idle moved (by
      rw [show ({ i with snaps } : Input).snap.op = .none from idle.1]
      rfl)
    have value' : m.value = h.undo.present := value'.trans value
    have op' : m.snap.op = .none := op'.trans idle.1
    have records' : m.snaps.Records h.undo := by
      rw [snaps']
      exact records.current _
    simp only [undone, moved, Option.bind_eq_bind, Option.bind_some]
    split
    · next insert =>
      obtain ⟨t, left, -, normal, op, value⟩ :=
        escape_insert w insert op' (calm_of_records records')
      have value : t.value = h.undo.present := value.trans value'
      have tagged := (escaped left records' (.inl op')).1
      refine ⟨t, left, ⟨?_, .inl op, fun _ => value⟩, normal, op, value⟩
      have records := tagged.records
      rwa [value, History.record_self] at records
    · next other =>
      have normal : m.mode = .normal := by
        have replace : m.mode ≠ .replace := by
          rw [mode']
          exact idle.2
        cases mode : m.mode with
        | normal => rfl
        | insert => exact absurd mode other
        | replace => exact absurd mode replace
      exact ⟨m, rfl, ⟨records', .inl op', fun _ => value'⟩, normal, op', value'⟩

/-- What a move of nothing deletes, with nothing to redo. -/
def strays (i : Input) : Bool :=
  match i.snap.op with
  | .delete _ _ start => i.snaps.redo.isNone && start ≠ i.snap.cursor
  | _ => false

/-- There is nothing to redo where nothing was undone. -/
theorem Consistent.redo_last (consistent : Consistent h i) (last : i.snaps.redo = none) :
    h.redo = h := by
  have found := consistent.records.getElem? (i.snaps.idx + 1)
  have absent := Option.map_eq_none_iff.mp last
  rw [absent, consistent.records.idx, History.getElem?_all_redo] at found
  rw [History.redo, List.head?_eq_none_iff.mp found.symm]

theorem Consistent.redo_none (consistent : Consistent h i) (last : i.snaps.redo = none)
    (mode : i.mode = .normal) (fine : i.strays = false) (done : i.redo w = some t) :
    Consistent h t ∧ t.value = h.present := by
  rw [Input.redo, last] at done
  have moved : i.moveBy w 0 = some t := done
  cases pending : i.snap.op.isPending with
  | false =>
    obtain ⟨value, mode', op, snaps⟩ := moved_idle moved pending
    have value := value.trans (consistent.present mode)
    refine ⟨⟨?_, ?_, fun _ => value⟩, value⟩
    · rw [snaps]
      exact consistent.records.current _
    · rw [mode']
      exact .inr mode
  | true =>
    have tagged : Tagged h t := tagged_of_move moved consistent.records pending mode
    have value : t.value = h.present := by
      obtain ⟨offset, snaps⟩ := move_some moved
      rw [value, snap, snaps, ← consistent.present mode, Input.value]
      dsimp only
      cases op : i.snap.op with
      | none | select _ =>
        rw [op] at pending
        cases pending
      | delete cut insert start =>
        have here : start = i.snap.cursor := by
          simpa [strays, op, last] using fine
        simp [operated, op, clamp, InputOp.span, here, MoveOptStep.add]
      | yank start => simp [operated, op, clamp]
    have records := tagged.records
    rw [value, History.record_self] at records
    exact ⟨⟨records, .inl tagged.op, fun _ => value⟩, value⟩

theorem Consistent.redo_some (consistent : Consistent h i) {snaps : InputSnaps}
    (next : i.snaps.redo = some snaps) : ∃ t, i.redo w = some t ∧ Consistent h.redo t ∧
      t.value = h.redo.present := by
  obtain ⟨version, found, same⟩ := Option.map_eq_some_iff.mp next
  have value := consistent.records.getElem? (i.snaps.idx + 1)
  rw [found, consistent.records.idx, History.getElem?_all_redo] at value
  obtain ⟨past, present, future⟩ := h
  cases future with
  | nil => cases value
  | cons v future =>
    have value : version.value = v := Option.some.inj value
    have records : snaps.Records (History.redo ⟨past, present, v :: future⟩) := by
      rw [← same]
      refine ⟨?_, ?_, consistent.records.idle⟩
      · rw [History.all_redo]
        exact consistent.records.values
      · exact congrArg (· + 1) consistent.records.idx
    have idle : snaps.current.op = .none := by
      rw [← same]
      exact (consistent.records.idle version (List.mem_of_getElem? found)).1
    obtain ⟨t, moved, -⟩ := moveBy_left_of_none w (i := { i with snaps }) (n := 0)
      (Int.le_refl 0) (calm_of_records records) idle
    obtain ⟨value', -, op, snaps'⟩ := moved_idle moved (by
      rw [show ({ i with snaps } : Input).snap.op = .none from idle]
      rfl)
    have value'' : t.value = v := by
      rw [value', ← value, ← same]
      rfl
    refine ⟨t, ?_, ⟨?_, .inl (op.trans idle), fun _ => value''⟩, value''⟩
    · rw [Input.redo, next]
      exact moved
    · rw [snaps']
      exact records.current _

/-! ### Runs -/

end

/-- What an action makes of the history. -/
def observe (i : Input) (a : Action) (t : Input) (h : History (List Char)) :
    History (List Char) :=
  match a with
  | .undo => if i.mode = .normal ∧ i.snap.op = .none then h.undo else h
  | .redo => if i.mode = .normal then h.redo else h
  | _ => edited i t h

/-- An input, and the history of its edits that an onlooker keeps. -/
def watch (w : Widths) (s : Input × History (List Char)) (a : Action) :
    Option (Input × History (List Char)) :=
  (s.1.act w a).map fun t => (t, observe s.1 a t s.2)

/-- The action is one edit, and a version is tagged for it. -/
def tags (s : Input × History (List Char)) : Action → Bool
  | .paste _ clipboard => !s.1.twofold clipboard
  | .complete opt => !s.1.untagged opt
  | .recall items step => !s.1.unheard items step
  | .redo => s.1.mode ≠ .normal || !s.1.strays
  | _ => true

section
variable {h : History (List Char)}

theorem act_consistent {a : Action} (consistent : Consistent h i) (fine : tags (i, h) a = true)
    (done : i.act w a = some t) : Consistent (observe i a t h) t := by
  -- what the mode does not have is not done
  have skipped : ∀ {mode : Prop} [Decidable mode] {x : Option Input},
      (if mode then x else some i) = some t → (mode → x = some t → Consistent (edited i t h) t) →
        Consistent (edited i t h) t := by
    intro mode _ x done taken
    split at done
    · next mode => exact taken mode done
    · cases done
      exact consistent.quiet rfl rfl consistent.idle id
  cases a with
  | move step inOperating =>
    by_cases idle : inOperating = true ∧ i.snap.op = .none
    · rw [act, Input.move, if_pos idle] at done
      cases done
      exact consistent.quiet rfl rfl consistent.idle id
    · have same : i.move w step inOperating = i.move w step false := by
        rw [Input.move, if_neg idle, Input.move, if_neg (by simp)]
      exact consistent.move (same.symm.trans done)
  | feed s => exact consistent.feed done
  | backward gait => exact consistent.backward done
  | forward gait endOfWord => exact consistent.forward done
  | insert append => exact skipped done fun _ => consistent.insert
  | visual => exact skipped done fun _ => consistent.visual
  | replace =>
    refine skipped done fun mode done => ?_
    rw [replace, if_pos mode] at done
    cases done
    exact consistent.quiet rfl rfl (.inl rfl) fun _ => mode
  | delete cut insert => exact skipped done fun mode => consistent.delete mode
  | yank => exact skipped done consistent.yank
  | paste before clipboard =>
    exact skipped done fun mode => consistent.paste mode (by simpa [tags] using fine)
  | undo =>
    rw [act] at done
    by_cases mode : i.mode = .normal
    · rw [if_pos mode] at done
      by_cases op : i.snap.op = .none
      · obtain ⟨u, undone, next, -⟩ := consistent.undo (w := w) mode op
        cases undone.symm.trans done
        rw [observe, if_pos ⟨mode, op⟩]
        exact next
      · rw [Input.undo, if_pos op] at done
        cases done
        rw [observe, if_neg fun both => op both.2]
        exact consistent
    · rw [if_neg mode] at done
      cases done
      rw [observe, if_neg fun both => mode both.1]
      exact consistent
  | redo =>
    rw [act] at done
    by_cases mode : i.mode = .normal
    · rw [if_pos mode] at done
      rw [observe, if_pos mode]
      cases next : i.snaps.redo with
      | none =>
        have strays : i.strays = false := by simpa [tags, mode] using fine
        rw [consistent.redo_last next]
        exact (consistent.redo_none next mode strays done).1
      | some snaps =>
        obtain ⟨u, redone, consistent, -⟩ := consistent.redo_some (w := w) next
        cases redone.symm.trans done
        exact consistent
    · rw [if_neg mode] at done
      cases done
      rw [observe, if_neg mode]
      exact consistent
  | casefy upper => exact skipped done fun mode => consistent.casefy mode
  | backspace under => exact skipped done fun mode => consistent.backspace mode
  | kill kind => exact skipped done fun mode => consistent.kill mode
  | escape =>
    obtain ⟨tagged, normal⟩ := escaped done consistent.records consistent.idle
    exact tagged.consistent (.inr normal)
  | complete opt => exact consistent.complete (by simpa [tags] using fine) done
  | «recall» items step => exact consistent.recall (by simpa [tags] using fine) done
  | repos size =>
    cases done
    exact consistent.repos size

theorem new_consistent {value : List Char} {cursor : Option Nat} {obscure completion : Bool}
    (made : Input.new w value cursor obscure completion = some i) :
    Consistent ⟨[], value, []⟩ i := by
  have records : (InputSnaps.new w value obscure).Records ⟨[], value, []⟩ := by
    refine ⟨rfl, rfl, ?_⟩
    intro version member
    rw [List.mem_singleton.mp member]
    exact ⟨rfl, nofun⟩
  unfold Input.new at made
  cases cursor with
  | none =>
    cases made
    exact ⟨records, .inl rfl, fun _ => rfl⟩
  | some cursor =>
    obtain ⟨value, -, op, snaps⟩ := moved_idle made rfl
    refine ⟨?_, .inl op, fun _ => value⟩
    rw [snaps]
    exact records.current _

end

theorem strays_of_none (idle : i.snap.op = .none) : i.strays = false := by
  rw [strays, idle]

/-- A redo with nothing pending. -/
theorem Consistent.redo {h : History (List Char)} (consistent : Consistent h i)
    (mode : i.mode = .normal) (idle : i.snap.op = .none) :
    ∃ t, i.redo w = some t ∧ t.value = h.redo.present := by
  cases next : i.snaps.redo with
  | none =>
    obtain ⟨t, moved, -⟩ := moveBy_left_of_none w (i := i) (n := 0) (Int.le_refl 0)
      (calm_of_records consistent.records) idle
    have done : i.redo w = some t := by
      rw [Input.redo, next]
      exact moved
    refine ⟨t, done, ?_⟩
    rw [consistent.redo_last next]
    exact (consistent.redo_none next mode (strays_of_none idle) done).2
  | some snaps =>
    obtain ⟨t, done, -, value⟩ := consistent.redo_some (w := w) next
    exact ⟨t, done, value⟩

/-- As long as each edit is tagged once, the versions of an input are the history of its values:
undo and redo go along it, and an edit drops what was undone. -/
theorem undo_linear {value : List Char} {cursor : Option Nat} {obscure completion : Bool}
    {labels : List Action} {i₀ i : Input} {h : History (List Char)}
    (made : Input.new w value cursor obscure completion = some i₀)
    (run : Run (restrict (watch w) tags) (i₀, ⟨[], value, []⟩) labels (i, h))
    (normal : i.mode = .normal) (idle : i.snap.op = .none) :
    i.value = h.present ∧
      (∃ t, i.act w .undo = some t ∧ t.value = h.undo.present) ∧
      (∃ t, i.act w .redo = some t ∧ t.value = h.redo.present) ∧
      (h.past ≠ [] →
        ∃ t u, i.act w .undo = some t ∧ t.act w .redo = some u ∧ u.value = i.value) ∧
      ∀ a t, a ≠ .undo → a ≠ .redo → tags (i, h) a = true → i.act w a = some t →
        t.mode = .normal → t.snap.op = .none → t.value ≠ i.value →
          (∃ u, t.act w .redo = some u ∧ u.value = t.value) ∧
          ∃ u, t.act w .undo = some u ∧ u.value = i.value := by
  have consistent : Consistent h i := by
    apply run.invariant (P := fun s => Consistent s.2 s.1)
    · rintro ⟨i, h⟩ a s consistent moved
      obtain ⟨fine, moved⟩ := restrict_eq_some moved
      obtain ⟨t, done, rfl⟩ := Option.map_eq_some_iff.mp moved
      exact act_consistent consistent fine done
    · exact new_consistent made
  have undoes : ∀ {i : Input}, i.mode = .normal → i.act w .undo = i.undo w :=
    fun mode => if_pos mode
  have redoes : ∀ {i : Input}, i.mode = .normal → i.act w .redo = i.redo w :=
    fun mode => if_pos mode
  have value := consistent.present normal
  obtain ⟨t, undone, next, normal', idle', value'⟩ := consistent.undo (w := w) normal idle
  refine ⟨value, ⟨t, (undoes normal).trans undone, value'⟩, ?_, ?_, ?_⟩
  · obtain ⟨u, redone, value⟩ := consistent.redo (w := w) normal idle
    exact ⟨u, (redoes normal).trans redone, value⟩
  · intro some
    obtain ⟨u, redone, back⟩ := next.redo (w := w) normal' idle'
    rw [History.redo_undo some] at back
    exact ⟨t, u, (undoes normal).trans undone, (redoes normal').trans redone, back.trans value.symm⟩
  · intro a t notUndo notRedo fine done normal' idle' other
    have next := act_consistent consistent fine done
    have observed : observe i a t h = edited i t h := by
      cases a with
      | undo => exact absurd rfl notUndo
      | redo => exact absurd rfl notRedo
      | _ => rfl
    rw [observed, edited, if_pos (.inl normal), History.record_of_ne (value ▸ other)] at next
    obtain ⟨u, redone, same⟩ := next.redo (w := w) normal' idle'
    obtain ⟨v, undone, -, -, -, back⟩ := next.undo (w := w) normal' idle'
    exact ⟨⟨u, (redoes normal').trans redone, same⟩, v, (undoes normal').trans undone,
      back.trans value.symm⟩

/-- Two words are deleted one by one, one deletion is undone, and another word comes in. -/
def revision : List Action :=
  [.escape, .delete true false, .move .bol false, .delete true false, .forward .fine false, .undo,
    .redo, .undo, .insert false, .feed ['x'], .escape, .undo]

def begun : Input := (Input.new cells ['a', '/', 'b'] none false true).get (by decide)

def revised : Input × History (List Char) :=
  (exec (restrict (watch cells) tags) (begun, ⟨[], ['a', '/', 'b'], []⟩) revision).get (by decide)

theorem undo_linear_revision :
    ∃ t, revised.1.act cells .redo = some t ∧ t.value = revised.2.redo.present :=
  have made : Input.new cells ['a', '/', 'b'] none false true = some begun :=
    (Option.some_get (by decide)).symm
  have run : Run (restrict (watch cells) tags) (begun, ⟨[], ['a', '/', 'b'], []⟩) revision revised :=
    run_exec (by decide)
  (undo_linear made run (by decide) (by decide)).2.2.1

/-- A completion in normal mode is lost to undo, and a paste over a selection is undone by half. -/
theorem undone_by_half :
    (exec (act cells) ((Input.new cells ['a', 'b'] none false true).get (by decide))
      [.escape, .complete ⟨[], some ['c'], false⟩, .undo]).map (·.value) = some ['c'] ∧
    (exec (act cells) ((Input.new cells ['a', 'b'] none false true).get (by decide))
      [.escape, .visual, .paste true ['c'], .undo]).map (·.value) = some ['a'] := by
  decide

end Input
end Yazi.Widgets
