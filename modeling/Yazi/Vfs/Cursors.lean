import Yazi.Fs.CursorRefinement
import Yazi.Vfs.Piped

/-!
The two cursors of a chunk.

The one that reads stands at a place of the source and serves what is there. The one that writes
is given bytes and writes them behind the caller's back, so that its task may have failed before
anybody knows.
-/
namespace Yazi.Vfs
open Yazi.Base Yazi.Shared Yazi.Fs

variable {capacity : Nat} {content dest : Bytes} {c c' : FileCursor} {place remaining : Nat}
  {polling : Option Nat}

-- ═══════════════════════════════════════════════════════════════
-- Writing
-- ═══════════════════════════════════════════════════════════════

/-- The task has failed, and nobody has asked for it yet. -/
def Spoiled (c : FileCursor) : Prop :=
  ∃ t, c.task = some t ∧
    (t.joined = some .cancelled ∨ ∃ e, t.joined = some (.finished (.error e)))

/-- The cursor has written up to a place, and accepted some bytes behind it. -/
inductive WritesAt : FileCursor → Nat → Bytes → Prop where
  | idle (place : Nat) : WritesAt ⟨place, [], 0, none⟩ place []
  | busy (offset place written : Nat) (buf : Bytes) :
      WritesAt ⟨offset, [], 0, some ⟨true, buf, place, written, none⟩⟩ place (buf.drop written)
  | finished (offset place written n : Nat) (buf : Bytes) :
      WritesAt ⟨offset, [], 0, some ⟨true, buf, place, written, some (.finished (.ok n))⟩⟩ place []

theorem pollTransfer_of_writesAt {accepted : Bytes} (writes : WritesAt c place accepted)
    (arrived : Bool) :
    c.pollTransfer arrived = (c, .pending) ∨
      accepted = [] ∧ ∃ r, c.pollTransfer arrived = (⟨place, [], 0, none⟩, .ready (.ok r)) := by
  cases writes with
  | idle => exact .inr ⟨rfl, none, rfl⟩
  | busy => exact .inl (by cases arrived <;> rfl)
  | finished offset place written n buf =>
    cases arrived with
    | false => exact .inl rfl
    | true => exact .inr ⟨rfl, _, rfl⟩

theorem pollTransfer_of_spoiled (spoiled : Spoiled c) (arrived : Bool) :
    c.pollTransfer arrived = (c, .pending) ∨
      ∃ e w, c.pollTransfer arrived = (w, .ready (.error e)) ∧ w.task = none := by
  obtain ⟨offset, buf, position, task⟩ := c
  obtain ⟨⟨writing, taken, place, written, joined⟩, ⟨⟩, failed⟩ := spoiled
  cases arrived with
  | false =>
    left
    rcases failed with ⟨⟨⟩⟩ | ⟨e, ⟨⟩⟩ <;> rfl
  | true =>
    right
    rcases failed with ⟨⟨⟩⟩ | ⟨e, ⟨⟩⟩
    · exact ⟨_, _, rfl, rfl⟩
    · exact ⟨_, _, rfl, rfl⟩

/-- Bytes are accepted as a whole, once those before them are written. -/
theorem pollWrite_of_writesAt {accepted data : Bytes} (writes : WritesAt c place accepted)
    (arrived : Bool) :
    c.pollWrite data arrived = (c, .pending) ∨
      accepted = [] ∧ ∃ w, c.pollWrite data arrived = (w, .ready (.ok data.length)) ∧
        WritesAt w place data ∧ w.task = some ⟨true, data, place, 0, none⟩ := by
  rcases pollTransfer_of_writesAt writes arrived with waits | ⟨none, r, ready⟩
  · left
    rw [FileCursor.pollWrite, waits, Poll.andThen_pending]
  · right
    refine ⟨none, _, ?_, .busy place place 0 data, rfl⟩
    rw [FileCursor.pollWrite, ready, Poll.andThen_ok]
    rfl

theorem pollWrite_of_spoiled {data : Bytes} (spoiled : Spoiled c) (arrived : Bool) :
    c.pollWrite data arrived = (c, .pending) ∨
      ∃ e w, c.pollWrite data arrived = (w, .ready (.error e)) ∧ w.task = none := by
  rcases pollTransfer_of_spoiled spoiled arrived with waits | ⟨e, w, failed, bare⟩
  · left
    rw [FileCursor.pollWrite, waits, Poll.andThen_pending]
  · right
    refine ⟨e, w, ?_, bare⟩
    rw [FileCursor.pollWrite, failed, Poll.andThen_error]

theorem pollFlush_of_writesAt {accepted : Bytes} (writes : WritesAt c place accepted)
    (arrived : Bool) :
    c.pollFlush arrived = (c, .pending) ∨
      accepted = [] ∧ c.pollFlush arrived = (⟨place, [], 0, none⟩, .ready (.ok ())) := by
  rcases pollTransfer_of_writesAt writes arrived with waits | ⟨none, r, ready⟩
  · left
    rw [FileCursor.pollFlush, waits, Poll.andThen_pending]
  · right
    refine ⟨none, ?_⟩
    rw [FileCursor.pollFlush, ready, Poll.andThen_ok]

theorem pollFlush_of_spoiled (spoiled : Spoiled c) (arrived : Bool) :
    c.pollFlush arrived = (c, .pending) ∨
      ∃ e w, c.pollFlush arrived = (w, .ready (.error e)) ∧ w.task = none := by
  rcases pollTransfer_of_spoiled spoiled arrived with waits | ⟨e, w, failed, bare⟩
  · left
    rw [FileCursor.pollFlush, waits, Poll.andThen_pending]
  · right
    refine ⟨e, w, ?_, bare⟩
    rw [FileCursor.pollFlush, failed, Poll.andThen_error]

/-- What becomes of a cursor that writes when some more bytes are written. -/
def wrote (c : FileCursor) (t : Transfer) (n : Nat) : FileCursor :=
  { c with task := some { t with
      offset := t.offset + n
      written := t.written + n
      joined :=
        if t.written + n = t.buf.length then some (.finished (.ok t.buf.length)) else none } }

/-- What is written is no more among what was accepted. -/
theorem writesAt_wrote {accepted : Bytes} (writes : WritesAt c place accepted) {t : Transfer}
    (task : c.task = some t) (going : t.joined = none) :
    t.offset = place ∧ t.buf.drop t.written = accepted ∧
      ∀ n, n ≤ accepted.length → WritesAt (wrote c t n) (place + n) (accepted.drop n) := by
  cases writes with
  | idle => cases task
  | finished =>
    cases task
    cases going
  | busy offset written buf =>
    cases task
    refine ⟨rfl, rfl, ?_⟩
    intro n fits
    rw [wrote, List.drop_drop]
    simp only
    split
    next last =>
      rw [last, List.drop_length]
      exact .finished ..
    next => exact .busy ..

/-- Only a task that runs does anything behind the caller's back. -/
theorem running_of_step {action : OpenFile.Action} {f : OpenFile}
    (background : Chunk.background action = true)
    (move : OpenFile.step capacity ⟨c, content, polling, []⟩ action = some f) :
    ∃ t, c.task = some t ∧ t.joined = none := by
  have found : ∃ t, OpenFile.running ⟨c, content, polling, []⟩ = some t := by
    cases action with
    | pollRead => cases background
    | resumeRead => cases background
    | pollWrite => cases background
    | pollFlush => cases background
    | interrupted =>
      obtain ⟨t, running, -⟩ := Option.map_eq_some_iff.mp move
      exact ⟨t, running⟩
    | failed code =>
      obtain ⟨t, running, -⟩ := Option.map_eq_some_iff.mp move
      exact ⟨t, running⟩
    | cancelled =>
      obtain ⟨t, running, -⟩ := Option.bind_eq_some_iff.mp move
      exact ⟨t, running⟩
    | readAt n =>
      obtain ⟨t, running, -⟩ := Option.bind_eq_some_iff.mp move
      exact ⟨t, running⟩
    | writeAt n =>
      obtain ⟨t, running, -⟩ := Option.bind_eq_some_iff.mp move
      exact ⟨t, running⟩
  obtain ⟨t, running⟩ := found
  exact ⟨t, OpenFile.running_eq running⟩

/-- What the task of a cursor does that writes. -/
inductive Wrote (dest : Bytes) (c : FileCursor) : FileCursor → Bytes → Prop where
  | still : Wrote dest c c dest
  | spoiled (c' : FileCursor) (spoiled : Spoiled c') : Wrote dest c c' dest
  | wrote (t : Transfer) (n : Nat) (task : c.task = some t) (going : t.joined = none)
      (fits : n ≤ (t.buf.drop t.written).length) :
      Wrote dest c (Vfs.wrote c t n) (overwrite dest t.offset ((t.buf.drop t.written).take n))

theorem wrote_of_step {action : OpenFile.Action} {f : OpenFile}
    (background : Chunk.background action = true)
    (writing : ∀ t, c.task = some t → t.joined = none → t.writing = true)
    (move : OpenFile.step capacity ⟨c, dest, none, []⟩ action = some f) :
    Wrote dest c f.cursor f.content := by
  cases action with
  | pollRead => cases background
  | resumeRead => cases background
  | pollWrite => cases background
  | pollFlush => cases background
  | interrupted =>
    obtain ⟨t, -, rfl⟩ := Option.map_eq_some_iff.mp move
    exact .still
  | failed code =>
    obtain ⟨t, -, rfl⟩ := Option.map_eq_some_iff.mp move
    exact .spoiled _ ⟨_, rfl, .inr ⟨_, rfl⟩⟩
  | cancelled =>
    obtain ⟨t, -, ended⟩ := Option.bind_eq_some_iff.mp move
    obtain ⟨-, ⟨⟩⟩ := Option.ite_none_left_eq_some.mp ended
    exact .spoiled _ ⟨_, rfl, .inl rfl⟩
  | readAt n =>
    obtain ⟨t, running, moved⟩ := Option.bind_eq_some_iff.mp move
    obtain ⟨task, going⟩ := OpenFile.running_eq running
    have writes := writing t task going
    simp [OpenFile.readAt, writes] at moved
  | writeAt n =>
    obtain ⟨t, running, moved⟩ := Option.bind_eq_some_iff.mp move
    obtain ⟨task, going⟩ := OpenFile.running_eq running
    have writes := writing t task going
    simp only [OpenFile.writeAt, writes, if_true, Option.map_eq_some_iff] at moved
    obtain ⟨next, stepped, rfl⟩ := moved
    obtain ⟨fits, stepped⟩ := Option.ite_none_right_eq_some.mp stepped
    rw [← List.length_drop] at fits
    by_cases stuck : t.stuck n = true
    · -- The file takes nothing, and the loop gives up.
      rw [if_pos stuck] at stepped
      cases stepped
      have nothing : n = 0 := (of_decide_eq_true stuck).1
      subst nothing
      have same : overwrite dest t.offset ((t.buf.drop t.written).take 0) = dest := rfl
      simp only [same]
      exact .spoiled _ ⟨_, rfl, .inr ⟨_, rfl⟩⟩
    · rw [if_neg stuck] at stepped
      cases stepped
      exact .wrote t n task going fits

-- ═══════════════════════════════════════════════════════════════
-- Reading
-- ═══════════════════════════════════════════════════════════════

/-- The cursor only reads, and its caller has been served up to a place. -/
structure ReadsAt (capacity : Nat) (content : Bytes) (c : FileCursor) (polling : Option Nat)
    (place : Nat) : Prop where
  coherent (events) : OpenFile.Coherent capacity ⟨c, content, polling, events⟩
  logical : c.logical = place
  reads : ∀ t, c.task = some t → t.writing = false

theorem readsAt_make (capacity : Nat) (content : Bytes) (place : Nat) :
    ReadsAt capacity content (.make place) none place where
  coherent _ := ⟨FileCursor.coherent_bare place, nofun⟩
  logical := rfl
  reads := nofun

/-- It stands for a plain file at that place. -/
theorem ReadsAt.plain (readsAt : ReadsAt capacity content c polling place) :
    OpenFile.plain ⟨c, content, polling, []⟩ = ⟨content, place, []⟩ := by
  have nothing : c.outstanding = [] := by
    rw [FileCursor.outstanding]
    cases task : c.task with
    | none => rfl
    | some t =>
      have quiet := readsAt.reads t task
      simp [quiet]
  rw [OpenFile.plain, nothing, readsAt.logical]

/-- The transfer is waited for, or is over. -/
theorem pollTransfer_task (c : FileCursor) (arrived : Bool) :
    c.pollTransfer arrived = (c, .pending) ∨
      ∃ w result, c.pollTransfer arrived = (w, .ready result) ∧ w.task = none := by
  rw [FileCursor.pollTransfer]
  split
  next free => exact .inr ⟨_, _, rfl, free⟩
  next =>
    split
    · exact .inr ⟨_, _, rfl, rfl⟩
    · exact .inr ⟨_, _, rfl, rfl⟩
    · exact .inr ⟨_, _, rfl, rfl⟩
    · exact .inl rfl

theorem pollFlush_task (c : FileCursor) (arrived : Bool) :
    c.pollFlush arrived = (c, .pending) ∨
      ∃ w result, c.pollFlush arrived = (w, .ready result) ∧ w.task = none := by
  rw [FileCursor.pollFlush]
  rcases pollTransfer_task c arrived with waits | ⟨w, result, ready, free⟩
  · left
    rw [waits, Poll.andThen_pending]
  · right
    rw [ready]
    cases result with
    | error e => exact ⟨w, _, rfl, free⟩
    | ok => exact ⟨w, _, rfl, free⟩

/-- What a caller is told who has some room, and what the cursor does then. -/
structure Served (remaining : Nat) (before : FileCursor)
    (polled : FileCursor × Poll (Except IoError (Option Bytes))) : Prop where
  task : ∀ t, polled.1.task = some t → t.writing = false ∨ before.task = some t
  bytes : ∀ bytes, polled.2 = .ready (.ok (some bytes)) →
    bytes.length ≤ remaining ∧ polled.1.task = none

theorem served_serve {w : FileCursor} (free : w.task = none) :
    Served remaining c (w.serve remaining) where
  task := by
    intro t task
    cases free.symm.trans task
  bytes := by
    rintro _ ⟨⟩
    refine ⟨?_, free⟩
    rw [List.length_take]
    exact Nat.min_le_left ..

theorem served_pending : Served remaining c (c, .pending) where
  task := fun _ task => .inr task
  bytes := nofun

theorem served_error {w : FileCursor} {e : IoError} (free : w.task = none) :
    Served remaining c (w, .ready (.error e)) where
  task := by
    intro t task
    cases free.symm.trans task
  bytes := nofun

theorem served_pollRead (c : FileCursor) (capacity remaining : Nat) (arrived : Bool) :
    Served remaining c (c.pollRead capacity remaining arrived) := by
  rw [FileCursor.pollRead]
  rcases pollTransfer_task c arrived with waits | ⟨w, result, ready, free⟩
  · rw [waits, Poll.andThen_pending]
    exact served_pending
  · have none : ∀ t, w.task = some t → t.writing = false ∨ c.task = some t := by
      intro t task
      cases free.symm.trans task
    rw [ready]
    cases result with
    | error e => exact served_error free
    | ok completed =>
      rw [Poll.andThen_ok]
      split
      · exact ⟨none, by rintro _ ⟨⟩; exact ⟨Nat.zero_le _, free⟩⟩
      · split
        · exact ⟨none, by rintro _ ⟨⟩; exact ⟨Nat.zero_le _, free⟩⟩
        · split
          · exact ⟨by rintro _ ⟨⟩; exact .inl rfl, by rintro _ ⟨⟩⟩
          · exact served_serve free

theorem served_resumeRead (c : FileCursor) (remaining : Nat) (arrived : Bool) :
    Served remaining c (c.resumeRead remaining arrived) := by
  rw [FileCursor.resumeRead]
  rcases pollTransfer_task c arrived with waits | ⟨w, result, ready, free⟩
  · rw [waits, Poll.andThen_pending]
    exact served_pending
  · rw [ready]
    cases result with
    | error e => exact served_error free
    | ok completed => exact served_serve free

/-- What is served is what is there, and the cursor moves on by as much. -/
theorem readsAt_polled {polled : FileCursor × Poll (Except IoError (Option Bytes))}
    (readsAt : ReadsAt capacity content c polling place) (served : Served remaining c polled)
    (moves : OpenFile.Moves capacity ⟨c, content, polling, []⟩
      (OpenFile.afterRead ⟨c, content, polling, []⟩ capacity remaining polled)
      (OpenFile.readEvents capacity remaining polled.2)) :
    (∀ bytes, polled.2 = .ready (.ok (some bytes)) →
      ReadsAt capacity content polled.1 none (place + bytes.length) ∧
        bytes = slice content place bytes.length) ∧
    ((∀ bytes, polled.2 ≠ .ready (.ok (some bytes))) →
      ReadsAt capacity content polled.1 (OpenFile.waiting remaining polled.2) place) := by
  obtain ⟨after, result⟩ := polled
  obtain ⟨coherent, -, moved⟩ := moves
  rw [readsAt.plain] at moved
  have reads : ∀ t, after.task = some t → t.writing = false := by
    intro t task
    rcases served.task t task with quiet | before
    · exact quiet
    · exact readsAt.reads t before
  constructor
  · rintro bytes ⟨⟩
    cases bytes with
    | nil =>
      simp only [OpenFile.readEvents] at moved
      split at moved
      · obtain ⟨t, move, ⟨⟩⟩ := Option.bind_eq_some_iff.mp moved
        obtain ⟨-, same⟩ := Option.ite_none_right_eq_some.mp move
        exact ⟨⟨fun _ => ⟨coherent.cursor, coherent.polling⟩,
          congrArg PlainFile.cursor (Option.some.inj same).symm, reads⟩, rfl⟩
      · obtain ⟨t, move, ⟨⟩⟩ := Option.bind_eq_some_iff.mp moved
        have same := (OpenFile.plain_read rfl).symm.trans move
        exact ⟨⟨fun _ => ⟨coherent.cursor, coherent.polling⟩,
          congrArg PlainFile.cursor (Option.some.inj same).symm, reads⟩, rfl⟩
    | cons byte bytes =>
      obtain ⟨t, move, ⟨⟩⟩ := Option.bind_eq_some_iff.mp moved
      obtain ⟨⟨-, here⟩, same⟩ := Option.ite_none_right_eq_some.mp move
      exact ⟨⟨fun _ => ⟨coherent.cursor, coherent.polling⟩,
        congrArg PlainFile.cursor (Option.some.inj same).symm, reads⟩, here⟩
  · intro nothing
    have none : OpenFile.readEvents capacity remaining result = [] := by
      rw [OpenFile.readEvents]
      · exact fun same => nothing [] same
      · exact fun bytes same => nothing bytes same
    have moved : exec PlainFile.step ⟨content, place, []⟩ [] = some _ := none ▸ moved
    exact ⟨fun _ => ⟨coherent.cursor, coherent.polling⟩,
      (congrArg PlainFile.cursor (Option.some.inj moved)).symm, reads⟩

theorem pollRead_of_spoiled (spoiled : Spoiled c) (remaining : Nat) (arrived : Bool) :
    c.pollRead capacity remaining arrived = (c, .pending) ∨
      ∃ e w, c.pollRead capacity remaining arrived = (w, .ready (.error e)) := by
  rcases pollTransfer_of_spoiled spoiled arrived with waits | ⟨e, w, failed, -⟩
  · left
    rw [FileCursor.pollRead, waits, Poll.andThen_pending]
  · right
    refine ⟨e, w, ?_⟩
    rw [FileCursor.pollRead, failed, Poll.andThen_error]

theorem resumeRead_of_spoiled (spoiled : Spoiled c) (remaining : Nat) (arrived : Bool) :
    c.resumeRead remaining arrived = (c, .pending) ∨
      ∃ e w, c.resumeRead remaining arrived = (w, .ready (.error e)) := by
  rcases pollTransfer_of_spoiled spoiled arrived with waits | ⟨e, w, failed, -⟩
  · left
    rw [FileCursor.resumeRead, waits, Poll.andThen_pending]
  · right
    refine ⟨e, w, ?_⟩
    rw [FileCursor.resumeRead, failed, Poll.andThen_error]

/-- What the task of a cursor that reads does behind the caller's back does not move the caller. -/
theorem readsAt_step {action : OpenFile.Action} {f : OpenFile}
    (background : Chunk.background action = true)
    (readsAt : ReadsAt capacity content c polling place)
    (move : OpenFile.step capacity ⟨c, content, polling, []⟩ action = some f) :
    ReadsAt capacity content f.cursor polling place := by
  have coherent := readsAt.coherent []
  have keeps : ∀ {t f}, OpenFile.running ⟨c, content, polling, []⟩ = some t →
      OpenFile.Moves capacity ⟨c, content, polling, []⟩ f [] → f.polling = polling →
      f.content = content → (∀ u, f.cursor.task = some u → u.writing = t.writing) →
      ReadsAt capacity content f.cursor polling place := by
    intro t f running moves waits same quiet
    obtain ⟨kept, -, moved⟩ := moves
    rw [readsAt.plain] at moved
    refine ⟨fun _ => ?_, ?_, ?_⟩
    · subst waits same
      exact ⟨kept.cursor, kept.polling⟩
    · exact (congrArg PlainFile.cursor (Option.some.inj moved)).symm
    · intro u here
      rw [quiet u here]
      exact readsAt.reads t (OpenFile.running_eq running).1
  have joins : ∀ {t joined}, OpenFile.running ⟨c, content, polling, []⟩ = some t →
      (∀ n, joined ≠ .finished (.ok n)) → (joined = .cancelled → t.written = 0) →
      ReadsAt capacity content (OpenFile.joinWith ⟨c, content, polling, []⟩ t joined).cursor
        polling place := by
    intro t joined running unread unbegun
    have reads := readsAt.reads t (OpenFile.running_eq running).1
    have silent : OpenFile.failEvents t = [] := by simp [OpenFile.failEvents, reads]
    have moves := OpenFile.moves_join coherent running unread unbegun
    rw [silent] at moves
    refine keeps running moves rfl rfl ?_
    rintro u ⟨⟩
    rfl
  cases action with
  | pollRead => cases background
  | resumeRead => cases background
  | pollWrite => cases background
  | pollFlush => cases background
  | interrupted =>
    obtain ⟨t, running, rfl⟩ := Option.map_eq_some_iff.mp move
    refine keeps running ⟨coherent, rfl, rfl⟩ rfl rfl ?_
    intro u here
    cases (OpenFile.running_eq running).1.symm.trans here
    rfl
  | failed code =>
    obtain ⟨t, running, rfl⟩ := Option.map_eq_some_iff.mp move
    exact joins running (by rintro _ ⟨⟩) (by rintro ⟨⟩)
  | cancelled =>
    obtain ⟨t, running, ended⟩ := Option.bind_eq_some_iff.mp move
    obtain ⟨unbegun, ⟨⟩⟩ := Option.ite_none_left_eq_some.mp ended
    have none : t.written = 0 := by simpa [Transfer.begun] using unbegun
    exact joins running (by rintro _ ⟨⟩) fun _ => none
  | readAt n =>
    obtain ⟨t, running, moved⟩ := Option.bind_eq_some_iff.mp move
    have moves := OpenFile.moves_readAt coherent running moved
    rw [OpenFile.readAt, readsAt.reads t (OpenFile.running_eq running).1] at moved
    obtain ⟨next, read, rfl⟩ := Option.map_eq_some_iff.mp moved
    refine keeps running moves rfl rfl ?_
    rintro u ⟨⟩
    obtain ⟨-, ⟨⟩⟩ := Option.ite_none_right_eq_some.mp read
    rfl
  | writeAt n =>
    obtain ⟨t, running, moved⟩ := Option.bind_eq_some_iff.mp move
    have reads := readsAt.reads t (OpenFile.running_eq running).1
    simp [OpenFile.writeAt, reads] at moved

end Yazi.Vfs
