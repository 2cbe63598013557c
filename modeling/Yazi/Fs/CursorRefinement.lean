import Yazi.Fs.FileCursor

/-!
The cursor over a file against a plain one.

The plain cursor stands behind what was read ahead, before what is being read, and at the place
up to which was written. What a write has accepted and not written yet is still to be written.
-/
namespace Yazi.Fs
open Yazi.Base Yazi.Shared

namespace FileCursor

/-- Where the plain cursor stands. -/
def logical (c : FileCursor) : Nat :=
  match c.task with
  | none => c.offset - c.unread
  | some t => if t.writing then t.offset else c.offset

/-- What is still to be written. -/
def outstanding (c : FileCursor) : Bytes :=
  match c.task with
  | none => []
  | some t => if t.writing ∧ t.joined.isNone then t.buf.drop t.written else []

/-- A read that found nothing has found the end of the file, or was for nothing. -/
def Ended (capacity : Nat) (content : Bytes) (n place : Nat) : Prop :=
  n = 0 → capacity = 0 ∨ content.length ≤ place

/-- The buffer is a part of the file that ends at the offset, and a task has moved on as far as
it has read or written. -/
inductive Coherent (capacity : Nat) (content : Bytes) : FileCursor → Prop where
  | idle {offset position : Nat} {buf : Bytes} (inside : position ≤ buf.length)
      (ahead : buf.length - position ≤ offset)
      (window : buf.drop position =
        slice content (offset - (buf.length - position)) (buf.length - position)) :
      Coherent capacity content ⟨offset, buf, position, none⟩
  | reading {offset : Nat} {t : Transfer} (reads : t.writing = false)
      (room : t.buf.length = capacity) (moved : t.offset = offset + t.received)
      (bound : t.received ≤ t.buf.length)
      (window : t.buf.take t.received = slice content offset t.received)
      (ended : ∀ n, t.joined = some (.finished (.ok n)) → Ended capacity content n offset) :
      Coherent capacity content ⟨offset, [], 0, some t⟩
  | writing {offset : Nat} {t : Transfer} (writes : t.writing = true)
      (moved : t.offset = offset + t.written) (bound : t.written ≤ t.buf.length)
      (unbegun : t.joined = some .cancelled → t.written = 0) :
      Coherent capacity content ⟨offset, [], 0, some t⟩

variable {capacity remaining : Nat} {content data : Bytes} {c : FileCursor} {arrived : Bool}

/-- A cursor without a buffer. -/
theorem coherent_bare (offset : Nat) : Coherent capacity content ⟨offset, [], 0, none⟩ :=
  .idle (Nat.le_refl 0) (Nat.zero_le offset) rfl

/-- Never is more to be taken back than the offset. -/
theorem Coherent.unread_le (coherent : Coherent capacity content c) : c.unread ≤ c.offset := by
  cases coherent with
  | idle _ ahead _ => exact ahead
  | reading => exact Nat.zero_le _
  | writing => exact Nat.zero_le _

/-- What a task has left behind when it is over, and that the plain cursor has not moved. -/
structure Settled (capacity : Nat) (content : Bytes) (before after : FileCursor)
    (result : Except IoError (Option (Nat × Bool))) : Prop where
  free : after.task = none
  coherent : Coherent capacity content after
  logical : after.logical = before.logical
  nothing : before.outstanding = []
  ended : ∀ n, result = .ok (some (n, false)) →
    after.position = 0 ∧ after.buf.length = n ∧ Ended capacity content n after.logical
  read : ∀ completed t, before.task = some t → t.writing = false → result = .ok completed →
    ∃ n, completed = some (n, false)

/-- Nothing has been read, and the cursor stands at the offset. -/
theorem settled_bare {before : FileCursor} {result : Except IoError (Option (Nat × Bool))}
    (nothing : before.outstanding = []) (unread : ∀ n, result ≠ .ok (some (n, false)))
    (error : ∀ completed t, before.task = some t → t.writing = false → result ≠ .ok completed) :
    Settled capacity content before ⟨before.logical, [], 0, none⟩ result where
  free := rfl
  coherent := coherent_bare before.logical
  logical := rfl
  nothing := nothing
  ended := fun n same => absurd same (unread n)
  read := fun completed t task reads same => absurd same (error completed t task reads)

/-- What has been read is in the buffer, and the cursor stands before it. -/
theorem settled_read {offset n written : Nat} {buf : Bytes}
    (coherent : Coherent capacity content
      ⟨offset, [], 0, some ⟨false, buf, offset + n, written, some (.finished (.ok n))⟩⟩) :
    Settled capacity content
      ⟨offset, [], 0, some ⟨false, buf, offset + n, written, some (.finished (.ok n))⟩⟩
      ⟨offset + n, buf.take n, 0, none⟩ (.ok (some (n, false))) := by
  cases coherent with
  | writing writes => cases writes
  | reading _ _ _ bound window ended =>
    have length : (buf.take n).length = n := List.length_take_of_le bound
    have back : offset + n - ((buf.take n).length - 0) = offset := by
      rw [length, Nat.sub_zero, Nat.add_sub_cancel]
    constructor
    · rfl
    · apply Coherent.idle (Nat.zero_le _)
      · rw [length]
        exact Nat.le_add_left n offset
      · rw [back, length]
        exact window
    · exact back
    · rfl
    · rintro _ ⟨⟩
      refine ⟨rfl, length, ?_⟩
      change Ended capacity content n (offset + n - ((buf.take n).length - 0))
      rw [back]
      exact ended n rfl
    · rintro completed t - - ⟨⟩
      exact ⟨n, rfl⟩

/-- A task that is not over is waited for. Otherwise its buffer is there, and its offset. -/
theorem pollTransfer_cases (coherent : Coherent capacity content c) (arrived : Bool) :
    c.pollTransfer arrived = (c, .pending) ∨
    ∃ after result, c.pollTransfer arrived = (after, .ready result) ∧
      Settled capacity content c after result := by
  cases coherent with
  | idle inside ahead window =>
    refine .inr ⟨_, _, rfl, rfl, .idle inside ahead window, rfl, rfl, ?_, ?_⟩
    · intro n same
      cases same
    · intro completed t task
      cases task
  | @reading offset t reads room moved bound window ended =>
    obtain ⟨writing, buf, place, written, joined⟩ := t
    cases reads
    cases arrived with
    | false => exact .inl rfl
    | true =>
      match joined with
      | none => exact .inl rfl
      | some .cancelled => exact .inr ⟨_, _, rfl, settled_bare rfl nofun nofun⟩
      | some (.finished (.error e)) =>
        cases moved
        exact .inr ⟨_, _, rfl, settled_bare rfl nofun nofun⟩
      | some (.finished (.ok n)) =>
        obtain rfl : place = offset + n := moved
        exact .inr ⟨_, _, rfl, settled_read (.reading rfl room rfl bound window ended)⟩
  | @writing offset t writes moved bound unbegun =>
    obtain ⟨writing, buf, place, written, joined⟩ := t
    cases writes
    cases arrived with
    | false => exact .inl rfl
    | true =>
      match joined with
      | none => exact .inl rfl
      | some .cancelled =>
        cases unbegun rfl
        cases moved
        exact .inr ⟨_, _, rfl, settled_bare rfl nofun nofun⟩
      | some (.finished (.error e)) => exact .inr ⟨_, _, rfl, settled_bare rfl nofun nofun⟩
      | some (.finished (.ok n)) =>
        refine .inr ⟨_, _, rfl, settled_bare rfl nofun ?_⟩
        rintro completed t ⟨⟩ ⟨⟩

/-- The plain cursor moves on by what is taken out of the buffer. -/
theorem coherent_advance {offset position n : Nat} {buf : Bytes}
    (coherent : Coherent capacity content ⟨offset, buf, position, none⟩)
    (enough : n ≤ buf.length - position) :
    Coherent capacity content ⟨offset, buf, position + n, none⟩ ∧
      (FileCursor.mk offset buf (position + n) none).logical =
        (FileCursor.mk offset buf position none).logical + n := by
  cases coherent with
  | idle inside ahead window =>
    have rest : buf.length - (position + n) = buf.length - position - n := Nat.sub_add_eq ..
    have place : offset - (buf.length - position - n) = offset - (buf.length - position) + n := by
      omega
    constructor
    · apply Coherent.idle
      · omega
      · omega
      · rw [← List.drop_drop, window, slice_drop, rest, place]
    · change offset - (buf.length - (position + n)) = offset - (buf.length - position) + n
      rw [rest, place]

/-- What is served comes from the file, at the place of the plain cursor. -/
theorem serve_spec (coherent : Coherent capacity content c) (free : c.task = none)
    (remaining : Nat) :
    ∃ bytes after, c.serve remaining = (after, .ready (.ok (some bytes))) ∧ after.task = none ∧
      Coherent capacity content after ∧ bytes = slice content c.logical bytes.length ∧
      after.logical = c.logical + bytes.length ∧
      (bytes = [] → remaining = 0 ∨ c.position = c.buf.length) := by
  obtain ⟨offset, buf, position, task⟩ := c
  cases free
  have count : ((buf.drop position).take remaining).length =
      min remaining (buf.length - position) := by
    rw [List.length_take, List.length_drop]
  obtain ⟨kept, moved⟩ := coherent_advance coherent
    (n := ((buf.drop position).take remaining).length) (by omega)
  cases coherent with
  | idle inside ahead window =>
    refine ⟨(buf.drop position).take remaining, _, rfl, rfl, kept, ?_, moved, ?_⟩
    · change _ = slice content (offset - (buf.length - position)) _
      rw [count, window, slice_take]
    · intro empty
      rw [empty, List.length_nil] at count
      change remaining = 0 ∨ position = buf.length
      omega

end FileCursor

namespace OpenFile

variable {capacity remaining : Nat} {s t : OpenFile} {arrived : Bool}

/-- The plain file that a file with its cursor stands for. -/
def plain (s : OpenFile) : PlainFile UInt8 :=
  ⟨s.content, s.cursor.logical, s.cursor.outstanding⟩

structure Coherent (capacity : Nat) (s : OpenFile) : Prop where
  cursor : s.cursor.Coherent capacity s.content
  /-- A call that goes on waits for a read. -/
  polling : s.polling.isSome → ∃ t, s.cursor.task = some t ∧ t.writing = false

/-- What has been reported is what happened to the plain file. -/
def Follows (content : Bytes) (offset : Nat) (s : OpenFile) : Prop :=
  exec PlainFile.step ⟨content, offset, []⟩ s.events = some s.plain

/-- A step reports what happens to the plain file in it. -/
def Moves (capacity : Nat) (s t : OpenFile) (events : List (PlainFile.Event UInt8)) : Prop :=
  t.Coherent capacity ∧ t.events = s.events ++ events ∧
    exec PlainFile.step s.plain events = some t.plain

theorem coherent_make (content : Bytes) (offset : Nat) :
    (make content offset).Coherent capacity where
  cursor := FileCursor.coherent_bare offset
  polling := nofun

/-- The plain file reads at its cursor, while nothing is to be written. -/
theorem plain_read {content bytes : Bytes} {place : Nat}
    (here : bytes = slice content place bytes.length) :
    PlainFile.step ⟨content, place, []⟩ (.read bytes) =
      some ⟨content, place + bytes.length, []⟩ :=
  if_pos ⟨rfl, here⟩

/-- What a reader is told of bytes that were served, or of their lack. -/
theorem exec_readEvents {content bytes : Bytes} {place : Nat}
    (here : bytes = slice content place bytes.length)
    (ended : bytes = [] → remaining = 0 ∨ capacity = 0 ∨ content.length ≤ place) :
    exec PlainFile.step ⟨content, place, []⟩
        (readEvents capacity remaining (.ready (.ok (some bytes)))) =
      some ⟨content, place + bytes.length, []⟩ := by
  cases bytes with
  | nil =>
    simp only [readEvents]
    split
    next asked =>
      have last : content.length ≤ place := by
        rcases ended rfl with none | none | last
        · omega
        · omega
        · exact last
      have report : PlainFile.step ⟨content, place, []⟩ .eof = some ⟨content, place, []⟩ :=
        if_pos ⟨rfl, last⟩
      simp [exec, report]
    next => simp only [exec, plain_read here, Option.bind_some]
  | cons byte bytes => simp only [readEvents, exec, plain_read here, Option.bind_some]

/-- Waiting for a task, or learning that it has failed, moves nothing. -/
theorem plain_settled {after : FileCursor} {result : Except IoError (Option (Nat × Bool))}
    (settled : s.cursor.Settled capacity s.content after result) :
    s.plain = ⟨s.content, after.logical, []⟩ := by
  rw [plain, settled.nothing, settled.logical]

theorem plain_free {content : Bytes} {c : FileCursor} {polling : Option Nat}
    {events : List (PlainFile.Event UInt8)} (free : c.task = none) :
    plain ⟨c, content, polling, events⟩ = ⟨content, c.logical, []⟩ := by
  rw [plain, FileCursor.outstanding, free]

/-- A call that serves its caller reads from the plain file. -/
theorem moves_serve {after : FileCursor} {completed : Option (Nat × Bool)}
    (settled : s.cursor.Settled capacity s.content after (.ok completed))
    (ended : after.position = after.buf.length → capacity = 0 ∨ s.content.length ≤ after.logical) :
    Moves capacity s (s.afterRead capacity remaining (after.serve remaining))
      (readEvents capacity remaining (after.serve remaining).2) := by
  obtain ⟨bytes, served, result, free, coherent, here, moved, nothing⟩ :=
    FileCursor.serve_spec settled.coherent settled.free remaining
  rw [result]
  refine ⟨⟨coherent, nofun⟩, rfl, ?_⟩
  rw [plain_settled settled, afterRead, plain_free free, moved]
  apply exec_readEvents here
  intro empty
  rcases nothing empty with none | used
  · exact .inl none
  · exact .inr (ended used)

/-- A read of the file is spawned where nothing is unread. -/
theorem spawn_read {after : FileCursor} {content : Bytes}
    (coherent : after.Coherent capacity content) (free : after.task = none)
    (used : after.position = after.buf.length) :
    FileCursor.Coherent capacity content
        (FileCursor.spawn { after with buf := FileCursor.resize capacity after.buf } false) ∧
      (FileCursor.spawn { after with buf := FileCursor.resize capacity after.buf } false).logical =
        after.logical := by
  obtain ⟨offset, buf, position, task⟩ := after
  cases free
  obtain rfl : position = buf.length := used
  constructor
  · refine .reading rfl ?_ rfl (Nat.zero_le _) rfl nofun
    change (buf.take capacity ++ List.replicate (capacity - buf.length) 0).length = capacity
    rw [List.length_append, List.length_take, List.length_replicate]
    omega
  · change offset = offset - (buf.length - buf.length)
    omega

theorem moves_pollRead (coherent : s.Coherent capacity) (remaining : Nat) (arrived : Bool) :
    Moves capacity s (s.afterRead capacity remaining (s.cursor.pollRead capacity remaining arrived))
      (readEvents capacity remaining (s.cursor.pollRead capacity remaining arrived).2) := by
  rw [FileCursor.pollRead]
  rcases FileCursor.pollTransfer_cases coherent.cursor arrived with
    pending | ⟨after, result, ready, settled⟩
  · rw [pending, Poll.andThen_pending]
    exact ⟨⟨coherent.cursor, nofun⟩, rfl, rfl⟩
  · rw [ready]
    cases result with
    | error e =>
      rw [Poll.andThen_error]
      refine ⟨⟨settled.coherent, nofun⟩, rfl, ?_⟩
      rw [plain_settled settled, afterRead, plain_free settled.free]
      rfl
    | ok completed =>
      rw [Poll.andThen_ok]
      split
      next full =>
        -- The caller has no room, and is given nothing.
        refine ⟨⟨settled.coherent, nofun⟩, rfl, ?_⟩
        rw [plain_settled settled, afterRead, plain_free settled.free]
        exact exec_readEvents rfl fun _ => .inl full
      next =>
        split
        next last =>
          -- The read that is over has found the end.
          refine ⟨⟨settled.coherent, nofun⟩, rfl, ?_⟩
          rw [plain_settled settled, afterRead, plain_free settled.free]
          obtain ⟨-, -, ended⟩ := settled.ended 0 (congrArg Except.ok last)
          exact exec_readEvents rfl fun _ => .inr (ended rfl)
        next =>
          split
          next used =>
            obtain ⟨kept, place⟩ := spawn_read settled.coherent settled.free used
            refine ⟨⟨kept, fun _ => ⟨_, rfl, rfl⟩⟩, rfl, ?_⟩
            rw [plain_settled settled, ← place]
            rfl
          next unused => exact moves_serve settled fun used => absurd used unused

theorem moves_resumeRead (coherent : s.Coherent capacity) (waiting : s.polling.isSome)
    (remaining : Nat) (arrived : Bool) :
    Moves capacity s (s.afterRead capacity remaining (s.cursor.resumeRead remaining arrived))
      (readEvents capacity remaining (s.cursor.resumeRead remaining arrived).2) := by
  obtain ⟨t, task, reads⟩ := coherent.polling waiting
  rw [FileCursor.resumeRead]
  rcases FileCursor.pollTransfer_cases coherent.cursor arrived with
    pending | ⟨after, result, ready, settled⟩
  · rw [pending, Poll.andThen_pending]
    exact ⟨⟨coherent.cursor, nofun⟩, rfl, rfl⟩
  · rw [ready]
    cases result with
    | error e =>
      rw [Poll.andThen_error]
      refine ⟨⟨settled.coherent, nofun⟩, rfl, ?_⟩
      rw [plain_settled settled, afterRead, plain_free settled.free]
      rfl
    | ok completed =>
      obtain ⟨n, rfl⟩ := settled.read completed t task reads rfl
      obtain ⟨start, length, ended⟩ := settled.ended n rfl
      rw [Poll.andThen_ok]
      apply moves_serve settled
      intro used
      exact ended (length.symm.trans (used.symm.trans start))

theorem moves_pollWrite (coherent : s.Coherent capacity) (idle : s.polling = none) (data : Bytes)
    (arrived : Bool) :
    Moves capacity s (s.afterWrite data (s.cursor.pollWrite data arrived))
      (writeEvents data (s.cursor.pollWrite data arrived).2) := by
  rw [FileCursor.pollWrite]
  rcases FileCursor.pollTransfer_cases coherent.cursor arrived with
    pending | ⟨after, result, ready, settled⟩
  · rw [pending, Poll.andThen_pending]
    exact ⟨⟨coherent.cursor, coherent.polling⟩, rfl, rfl⟩
  · rw [ready]
    cases result with
    | error e =>
      rw [Poll.andThen_error]
      refine ⟨⟨settled.coherent, ?_⟩, rfl, ?_⟩
      · intro waiting
        rw [afterWrite, idle] at waiting
        cases waiting
      · rw [plain_settled settled, afterWrite, plain_free settled.free]
        rfl
    | ok completed =>
      rw [Poll.andThen_ok]
      refine ⟨⟨.writing rfl rfl (Nat.zero_le _) nofun, ?_⟩, rfl, ?_⟩
      · intro waiting
        rw [afterWrite, idle] at waiting
        cases waiting
      · rw [plain_settled settled, FileCursor.logical, settled.free, writeEvents, List.take_length]
        rfl

theorem moves_pollFlush (coherent : s.Coherent capacity) (idle : s.polling = none)
    (arrived : Bool) :
    Moves capacity s (s.afterFlush (s.cursor.pollFlush arrived))
      (flushEvents (s.cursor.pollFlush arrived).2) := by
  rw [FileCursor.pollFlush]
  rcases FileCursor.pollTransfer_cases coherent.cursor arrived with
    pending | ⟨after, result, ready, settled⟩
  · rw [pending, Poll.andThen_pending]
    exact ⟨⟨coherent.cursor, coherent.polling⟩, rfl, rfl⟩
  · have apart : ∀ polled, (s.afterFlush (after, polled)).Coherent capacity := by
      refine fun polled => ⟨settled.coherent, fun waiting => ?_⟩
      rw [afterFlush, idle] at waiting
      cases waiting
    rw [ready]
    cases result with
    | error e =>
      rw [Poll.andThen_error]
      refine ⟨apart _, rfl, ?_⟩
      rw [plain_settled settled, afterFlush, plain_free settled.free]
      rfl
    | ok completed =>
      rw [Poll.andThen_ok]
      refine ⟨apart _, rfl, ?_⟩
      have flushed : PlainFile.step (⟨s.content, after.logical, []⟩ : PlainFile UInt8) .flush =
          some ⟨s.content, after.logical, []⟩ := by rw [PlainFile.step, if_pos rfl]
      rw [plain_settled settled, afterFlush, plain_free settled.free]
      simp [flushEvents, exec, flushed]

/-- The task that runs is that of the cursor, which has no buffer meanwhile. -/
theorem running_eq {task : Transfer} (running : s.running = some task) :
    s.cursor.task = some task ∧ task.joined = none := by
  obtain ⟨here, alone⟩ := Option.filter_eq_some_iff.mp running
  exact ⟨here, Option.isNone_iff_eq_none.mp alone⟩

/-- A task that ends otherwise than by its last read or write keeps its place. What a write has
not written then is lost. -/
theorem moves_join (coherent : s.Coherent capacity) {task : Transfer} {joined : Joined}
    (running : s.running = some task) (unread : ∀ n, joined ≠ .finished (.ok n))
    (unbegun : joined = .cancelled → task.written = 0) :
    Moves capacity s (s.joinWith task joined) (failEvents task) := by
  obtain ⟨cursor, content, polling, events⟩ := s
  obtain ⟨here, going⟩ := running_eq running
  obtain ⟨kept, waits⟩ := coherent
  obtain ⟨writing, buf, place, written, ended⟩ := task
  cases going
  cases kept with
  | idle => cases here
  | reading reads room moved bound window ended =>
    cases here
    cases reads
    have none : (Transfer.mk false buf place written (some joined)).received = 0 := by
      cases joined with
      | cancelled => rfl
      | finished result =>
        cases result with
        | error => rfl
        | ok n => exact absurd rfl (unread n)
    refine ⟨⟨.reading rfl room ?_ ?_ ?_ ?_, fun _ => ⟨_, rfl, rfl⟩⟩, rfl, rfl⟩
    · rw [none]
      exact moved
    · rw [none]
      exact Nat.zero_le _
    · rw [none]
      rfl
    · rintro n ⟨⟩
      exact absurd rfl (unread n)
  | writing writes moved bound =>
    cases here
    cases writes
    refine ⟨⟨.writing rfl moved bound ?_, fun waiting => ?_⟩, rfl, rfl⟩
    · rintro ⟨⟩
      exact unbegun rfl
    · obtain ⟨task, ⟨⟩, ⟨⟩⟩ := waits waiting

theorem moves_readAt (coherent : s.Coherent capacity) {task : Transfer} {n : Nat}
    (running : s.running = some task) (move : s.readAt n task = some t) :
    Moves capacity s t [] := by
  obtain ⟨cursor, content, polling, events⟩ := s
  obtain ⟨here, going⟩ := running_eq running
  obtain ⟨kept, waits⟩ := coherent
  obtain ⟨writing, buf, place, written, ended⟩ := task
  cases going
  cases kept with
  | idle => cases here
  | writing writes =>
    cases here
    cases writes
    cases move
  | reading reads room moved bound window =>
    cases here
    cases reads
    simp only [readAt, Transfer.readAt, Bool.false_eq_true, ↓reduceIte, Option.map_eq_some_iff,
      Option.ite_none_right_eq_some] at move
    obtain ⟨next, ⟨⟨fits, there, last⟩, ⟨⟩⟩, rfl⟩ := move
    obtain rfl : place = _ := moved
    have fits : n ≤ buf.length := fits
    have room : buf.length = capacity := room
    have length : (slice content place n).length = n := by
      rw [slice, List.length_take, List.length_drop]
      omega
    refine ⟨⟨.reading rfl ?_ rfl ?_ ?_ ?_, fun _ => ⟨_, rfl, rfl⟩⟩, (List.append_nil _).symm, rfl⟩
    · change (slice content place n ++ buf.drop n).length = capacity
      rw [List.length_append, length, List.length_drop]
      omega
    · change n ≤ (slice content place n ++ buf.drop n).length
      rw [List.length_append, length]
      exact Nat.le_add_right n _
    · exact List.take_left' length
    · rintro _ ⟨⟩ none
      rcases last none with empty | last
      · exact .inl (room.symm.trans (congrArg List.length empty))
      · exact .inr last

/-- What is still to be written after some more bytes: nothing when these were the last. -/
theorem outstanding_advance (offset place written n : Nat) (buf : Bytes) :
    (FileCursor.mk offset [] 0 (some ⟨true, buf, place, written + n,
      if written + n = buf.length then some (.finished (.ok buf.length)) else none⟩)).outstanding =
    buf.drop (written + n) := by
  split
  next last =>
    rw [last, List.drop_length]
    rfl
  next => rfl

theorem moves_writeAt (coherent : s.Coherent capacity) {task : Transfer} {n : Nat}
    (running : s.running = some task) (move : s.writeAt n task = some t) :
    Moves capacity s t [if task.stuck n then .fail else .commit n] := by
  obtain ⟨cursor, content, polling, events⟩ := s
  obtain ⟨here, going⟩ := running_eq running
  obtain ⟨kept, waits⟩ := coherent
  obtain ⟨writing, buf, place, written, ended⟩ := task
  cases going
  cases kept with
  | idle => cases here
  | reading reads =>
    cases here
    cases reads
    cases move
  | writing writes moved bound =>
    cases here
    cases writes
    have moved : place = _ + written := moved
    have bound : written ≤ buf.length := bound
    simp only [writeAt, Transfer.writeAt, ↓reduceIte, Option.map_eq_some_iff,
      Option.ite_none_right_eq_some] at move
    obtain ⟨next, ⟨fits, moves⟩, rfl⟩ := move
    by_cases stuck : (Transfer.mk true buf place written none).stuck n = true
    · -- The file takes nothing, and the loop gives up.
      rw [if_pos stuck] at moves ⊢
      cases moves
      have nothing : n = 0 := (of_decide_eq_true stuck).1
      cases nothing
      refine ⟨⟨.writing rfl moved bound nofun, ?_⟩, rfl, ?_⟩
      · intro waiting
        obtain ⟨task, ⟨⟩, ⟨⟩⟩ := waits waiting
      · rfl
    · rw [if_neg stuck] at moves ⊢
      cases moves
      refine ⟨⟨.writing rfl ?_ ?_ ?_, ?_⟩, rfl, ?_⟩
      · change place + n = _ + (written + n)
        rw [moved, Nat.add_assoc]
      · change written + n ≤ buf.length
        omega
      · intro cancelled
        dsimp only at cancelled
        split at cancelled
        · cases cancelled
        · cases cancelled
      · intro waiting
        obtain ⟨task, ⟨⟩, ⟨⟩⟩ := waits waiting
      · have committed : n ≤ (buf.drop written).length := by
          rw [List.length_drop]
          exact fits
        change (PlainFile.step ⟨content, place, buf.drop written⟩ (.commit n)).bind _ = _
        rw [PlainFile.step, if_pos committed, List.drop_drop, ← outstanding_advance]
        rfl

/-- Every step of the calls and of the file is one of the plain file, or none. -/
theorem step_moves {action : Action} (coherent : s.Coherent capacity)
    (move : step capacity s action = some t) : ∃ events, Moves capacity s t events := by
  cases action with
  | pollRead remaining arrived =>
    obtain ⟨-, ⟨⟩⟩ := Option.ite_none_left_eq_some.mp move
    exact ⟨_, moves_pollRead coherent remaining arrived⟩
  | resumeRead arrived =>
    obtain ⟨remaining, waiting, rfl⟩ := Option.map_eq_some_iff.mp move
    exact ⟨_, moves_resumeRead coherent (waiting ▸ rfl) remaining arrived⟩
  | pollWrite data arrived =>
    obtain ⟨idle, ⟨⟩⟩ := Option.ite_none_left_eq_some.mp move
    exact ⟨_, moves_pollWrite coherent (Option.not_isSome_iff_eq_none.mp idle) data arrived⟩
  | pollFlush arrived =>
    obtain ⟨idle, ⟨⟩⟩ := Option.ite_none_left_eq_some.mp move
    exact ⟨_, moves_pollFlush coherent (Option.not_isSome_iff_eq_none.mp idle) arrived⟩
  | readAt n =>
    obtain ⟨task, running, move⟩ := Option.bind_eq_some_iff.mp move
    exact ⟨_, moves_readAt coherent running move⟩
  | writeAt n =>
    obtain ⟨task, running, move⟩ := Option.bind_eq_some_iff.mp move
    exact ⟨_, moves_writeAt coherent running move⟩
  | interrupted =>
    obtain ⟨task, running, rfl⟩ := Option.map_eq_some_iff.mp move
    exact ⟨[], coherent, (List.append_nil _).symm, rfl⟩
  | failed code =>
    obtain ⟨task, running, rfl⟩ := Option.map_eq_some_iff.mp move
    exact ⟨_, moves_join coherent running nofun nofun⟩
  | cancelled =>
    obtain ⟨task, running, move⟩ := Option.bind_eq_some_iff.mp move
    obtain ⟨unbegun, ⟨⟩⟩ := Option.ite_none_left_eq_some.mp move
    have none : task.written = 0 := by
      simpa [Transfer.begun] using unbegun
    exact ⟨_, moves_join coherent running nofun fun _ => none⟩

theorem follows_step {content : Bytes} {offset : Nat} {events : List (PlainFile.Event UInt8)}
    (follows : s.Follows content offset) (moves : Moves capacity s t events) :
    t.Follows content offset := by
  obtain ⟨-, reported, moved⟩ := moves
  rw [Follows] at follows ⊢
  rw [reported, exec_append, follows]
  exact moved

theorem run_coherent {content : Bytes} {offset : Nat} {actions : List Action}
    (run : Run (step capacity) (make content offset) actions s) :
    s.Coherent capacity ∧ s.Follows content offset := by
  apply run.invariant (P := fun s => s.Coherent capacity ∧ s.Follows content offset)
  · rintro s action t ⟨coherent, follows⟩ move
    obtain ⟨events, moves⟩ := step_moves coherent move
    exact ⟨moves.1, follows_step follows moves⟩
  · exact ⟨coherent_make content offset, rfl⟩

/-- Whatever the calls and the file do, what is reported is what a plain file with one cursor
does: it is read and written there. What is read between two writes is one piece of the file, of
which nothing is missing and nothing comes twice. Nothing is taken back from before the start. -/
theorem refines_plain_file {content : Bytes} {offset : Nat} {actions : List Action}
    (run : Run (step capacity) (make content offset) actions s) :
    exec PlainFile.step ⟨content, offset, []⟩ s.events = some s.plain ∧
      (∀ before reads rest, s.events = before ++ reads ++ rest →
        (∀ event ∈ reads, event.reads = true) →
        ∃ f, exec PlainFile.step ⟨content, offset, []⟩ before = some f ∧
          reads.flatMap PlainFile.Event.bytes =
            slice f.content f.cursor (reads.flatMap PlainFile.Event.bytes).length) ∧
      s.cursor.unread ≤ s.cursor.offset := by
  obtain ⟨coherent, follows⟩ := run_coherent run
  refine ⟨follows, ?_, coherent.cursor.unread_le⟩
  intro before reads rest whole quiet
  rw [Follows, whole, List.append_assoc, exec_append] at follows
  obtain ⟨f, first, follows⟩ := Option.bind_eq_some_iff.mp follows
  rw [exec_append] at follows
  obtain ⟨g, middle, -⟩ := Option.bind_eq_some_iff.mp follows
  exact ⟨f, first, PlainFile.exec_reads quiet middle⟩

/-- A file of five bytes is read, of which the caller takes two, and then written. -/
def sampleActions : List Action :=
  [.pollRead 2 false, .readAt 3, .resumeRead true, .pollWrite [9, 9] false, .writeAt 1, .writeAt 1,
    .pollFlush true, .pollRead 4 true, .resumeRead false, .readAt 1, .pollRead 4 true]

theorem refines_plain_file_sample :
    exec PlainFile.step (⟨[1, 2, 3, 4, 5], 0, []⟩ : PlainFile UInt8)
        [.read [1, 2], .accept [9, 9], .commit 1, .commit 1, .flush, .read [5]] =
      some ⟨[1, 2, 9, 9, 5], 5, []⟩ := by
  have enabled : (exec (step 8) (make [1, 2, 3, 4, 5] 0) sampleActions).isSome = true := by decide
  exact (refines_plain_file (run_exec enabled)).1

end OpenFile

end Yazi.Fs
