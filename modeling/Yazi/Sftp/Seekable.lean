import Yazi.Base.PlainFile
import Yazi.Sftp.File

/-!
A remote file against a plain seekable one.

The plain file has a cursor and at most one seek under way, whose target was fixed when it
started. What the calls on the remote file return is a history, and the plain file either can
return the same, one after the other, or it cannot. It can wherever each read and each write
is finished with the cursor where it was started.
-/
namespace Yazi.Sftp
open Base Shared

/-! ### The plain file -/

/-- Where a seek goes. The end is that of the file when it is asked for. -/
inductive Target where
  | position (n : UInt64)
  | fromEnd (n : Int)

def Target.resolve (size : UInt64) : Target → Option UInt64
  | .position n => some n
  | .fromEnd n => checkedAddSigned size n

structure Plain where
  cursor : UInt64
  seeking : Option Target

/-- What a finished call reports to its caller. -/
inductive Event where
  /-- The bytes read, and the content they were read from. -/
  | read (bytes content : Bytes)
  /-- There was room, and nothing was read from that content. -/
  | eof (content : Bytes)
  /-- So many bytes were written at an offset. -/
  | write (offset : UInt64) (count : Nat)
  | startSeek (position : SeekFrom)
  /-- The position that was reached, in a file with that content. -/
  | seek (content : Bytes) (position : UInt64)
  | seekFailed
  /-- The position while no seek is under way. -/
  | position (n : UInt64)

namespace Plain

def target (p : Plain) : SeekFrom → Option Target
  | .start n => some (.position n)
  | .current n => (checkedAddSigned p.cursor n).map .position
  | .fromEnd n => some (.fromEnd n)

/-- What the plain file can report next. -/
def step (p : Plain) : Event → Option Plain
  | .read bytes content =>
    if bytes = (content.drop p.cursor.toNat).take bytes.length then
      some { p with cursor := advance p.cursor bytes.length }
    else none
  | .eof content => if content.length ≤ p.cursor.toNat then some p else none
  | .write offset count =>
    if count = 0 ∨ offset = p.cursor then some { p with cursor := advance p.cursor count } else none
  | .startSeek position =>
    match p.seeking, p.target position with
    | none, some target => some { p with seeking := some target }
    | _, _ => none
  | .seek content position =>
    match p.seeking with
    | some target =>
      if target.resolve (UInt64.ofNat content.length) = some position then some ⟨position, none⟩
      else none
    | none => none
  | .seekFailed => if p.seeking.isSome then some { p with seeking := none } else none
  | .position n => if p.seeking.isNone ∧ n = p.cursor then some p else none

end Plain

/-! ### The remote file -/

/-- Nothing can be read: nothing was asked for, or the file ends before the offset. -/
def ReadRx.exhausted (rx : ReadRx) (content : Bytes) : Bool :=
  rx.max = 0 || content.length ≤ rx.offset.toNat

structure Remote where
  file : File
  content : Bytes
  events : List Event

namespace Remote

def make (content : Bytes) (offset : UInt64) : Remote := ⟨File.make offset, content, []⟩

/-- Data that a server returns are bytes of the file, at the offset asked for, and there are some
unless the file ends there. -/
def honestRead (content : Bytes) (rx : ReadRx) : Answer → Bool
  | .ok (.data data) =>
    data.data = (content.drop rx.offset.toNat).take data.data.length &&
      (!data.data.isEmpty || rx.exhausted content)
  | .ok (.status status) => !status.isEof || rx.exhausted content
  | _ => true

/-- A size that a server returns is that of the file. -/
def honestSize (content : Bytes) : Answer → Bool
  | .ok (.attrs reply) => reply.attrs.size.all fun size => size = UInt64.ofNat content.length
  | _ => true

/-- The server reads, and its response is on its way. -/
def serveRead (r : Remote) (answer : Answer) : Option Remote :=
  match r.file.readRx with
  | some rx =>
    if rx.answer.isNone ∧ honestRead r.content rx answer then
      some { r with file.readRx := some { rx with answer := some (answer, r.content) } }
    else none
  | none => none

/-- A write that succeeds has changed the file. -/
def serveWrite (r : Remote) (answer : Answer) : Option Remote :=
  match r.file.writeRx with
  | some rx =>
    if rx.answer.isNone then
      some { r with
        file.writeRx := some { rx with answer := some answer }
        content := match File.statusResult answer with
          | .ok () => overwrite r.content rx.offset.toNat rx.data
          | .error _ => r.content }
    else none
  | none => none

def serveStat (r : Remote) (answer : Answer) : Option Remote :=
  match r.file.seekRx with
  | some (.blocking n none) =>
    if honestSize r.content answer then
      some { r with file.seekRx := some (.blocking n (some (answer, r.content))) }
    else none
  | _ => none

def serveFlush (r : Remote) (answer : Answer) : Option Remote :=
  match r.file.flushRx with
  | some none => some { r with file.flushRx := some (some answer) }
  | _ => none

/-! Each call, with what it reports. -/

/-- A caller takes no bytes for the end of the file, unless it has no room. -/
def readEvent (remaining : Nat) (content bytes : Bytes) : Event :=
  if bytes.isEmpty && remaining ≠ 0 then .eof content else .read bytes content

def readEvents (r : Remote) (remaining : Nat) : Poll (Except Error Bytes) → List Event
  | .ready (.ok bytes) =>
    match r.file.readRx with
    | some ⟨_, _, some (_, content)⟩ => [readEvent remaining content bytes]
    | _ => []
  | _ => []

def writeEvents (f : File) : Poll (Except Error Nat) → List Event
  | .ready (.ok count) =>
    match f.writeRx with
    | some rx => [.write rx.offset count]
    | none => []
  | _ => []

def startEvents (position : SeekFrom) : Except Error Unit → List Event
  | .ok () => [.startSeek position]
  | .error _ => []

/-- The content whose size a seek was answered with, if it asked for one. -/
def seekContent : SeekState → Bytes
  | .blocking _ (some (_, content)) => content
  | _ => []

def seekEvents (f : File) : Poll (Except Error UInt64) → List Event
  | .ready (.ok n) =>
    match f.seekRx with
    | some state => [.seek (seekContent state) n]
    | none => [.position n]
  | .ready (.error _) => [.seekFailed]
  | .pending => []

inductive Action where
  | pollRead (remaining : Nat) (sent : Except Error Unit) (arrived : Bool)
  | pollWrite (buf : Bytes) (sent : Except Error Unit) (arrived : Bool)
  | startSeek (position : SeekFrom) (sent : Except Error Unit)
  | pollComplete (arrived elapsed : Bool)
  | pollFlush (written : Bool) (sent : Except Error Unit) (arrived elapsed : Bool)
  | serveRead (answer : Answer)
  | serveWrite (answer : Answer)
  | serveStat (answer : Answer)
  | serveFlush (answer : Answer)
  /-- Somebody else changes the file. -/
  | change (content : Bytes)

/-- What a call leaves, with what it reports. -/
def after {α : Type} (r : Remote) (polled : File × α) (events : α → List Event) : Remote :=
  ⟨polled.1, r.content, r.events ++ events polled.2⟩

/-- A flush reports the write that it finishes. -/
def afterFlush (r : Remote) (written : Bool) (flushed : File) : Remote :=
  ⟨flushed, r.content, r.events ++ writeEvents r.file (r.file.flushWrite written).2⟩

def step (r : Remote) : Action → Option Remote
  | .pollRead remaining sent arrived =>
    some (r.after (r.file.pollRead remaining sent arrived) (r.readEvents remaining))
  | .pollWrite buf sent arrived =>
    some (r.after (r.file.pollWrite buf sent arrived) (writeEvents r.file))
  | .startSeek position sent =>
    some (r.after (r.file.startSeek position sent) (startEvents position))
  | .pollComplete arrived elapsed =>
    some (r.after (r.file.pollComplete arrived elapsed) (seekEvents r.file))
  | .pollFlush written sent arrived elapsed =>
    some (r.afterFlush written (r.file.pollFlush written sent arrived elapsed).1)
  | .serveRead answer => r.serveRead answer
  | .serveWrite answer => r.serveWrite answer
  | .serveStat answer => r.serveStat answer
  | .serveFlush answer => r.serveFlush answer
  | .change content => some { r with content }

/-! ### The refinement -/

end Remote

def SeekState.target : SeekState → Target
  | .nonBlocking n => .position n
  | .blocking n _ => .fromEnd n

def File.plain (f : File) : Plain := ⟨f.cursor, f.seekRx.map SeekState.target⟩

namespace Remote

variable {r t : Remote} {offset : UInt64}

/-- The plain file can report what the remote one has, and is left with the same cursor. -/
def Follows (offset : UInt64) (r : Remote) : Prop :=
  exec Plain.step ⟨offset, none⟩ r.events = some r.file.plain

/-- The responses that have arrived are those of an honest server. -/
structure Honest (r : Remote) : Prop where
  read : ∀ rx answer content, r.file.readRx = some rx → rx.answer = some (answer, content) →
    honestRead content rx answer = true
  size : ∀ n answer content, r.file.seekRx = some (.blocking n (some (answer, content))) →
    honestSize content answer = true

/-- As many bytes are the same at two places. -/
def sameBytes (content : Bytes) (i j : UInt64) (count : Nat) : Bool :=
  (content.drop i.toNat).take count = (content.drop j.toNat).take count

/-- A write that succeeds finds the cursor where it was sent, or it writes nothing. -/
def writeInPlace (r : Remote) (arrived : Bool) : Bool :=
  match r.file.writeRx with
  | some ⟨offset, data, some answer⟩ =>
    !arrived || !(File.statusResult answer).isOk || data.isEmpty || offset == r.file.cursor
  | _ => true

/-- A caller with room is told the end of the file only where the cursor is at the end. -/
def endInPlace (r : Remote) (remaining : Nat) (content : Bytes) : Bool :=
  remaining = 0 || content.length ≤ r.file.cursor.toNat

/-- A read that returns data finds the cursor where it was sent, or the file holds the same
bytes at both places; and one that returns none finds it at the end. -/
def readInPlace (r : Remote) (remaining : Nat) (arrived : Bool) : Bool :=
  match r.file.readRx with
  | some ⟨offset, _, some (.ok (.data data), content)⟩ =>
    !arrived || if data.data.isEmpty then r.endInPlace remaining content
      else sameBytes content offset r.file.cursor (min remaining data.data.length)
  | some ⟨_, _, some (.ok (.status status), content)⟩ =>
    !arrived || !status.isEof || r.endInPlace remaining content
  | _ => true

def inPlace (r : Remote) : Action → Bool
  | .pollRead remaining _ arrived => r.readInPlace remaining arrived
  | .pollWrite _ _ arrived => r.writeInPlace arrived
  | .pollFlush written _ _ _ => r.writeInPlace written
  | _ => true

theorem follows_make (content : Bytes) (offset : UInt64) : (make content offset).Follows offset := rfl

theorem honest_make (content : Bytes) (offset : UInt64) : (make content offset).Honest where
  read := fun _ _ _ none => nomatch none
  size := fun _ _ _ none => nomatch none

/-! Every call either finishes something, with an event, or leaves the plain file as it is. -/

/-- One more event. -/
theorem follows_event {file : File} {content : Bytes} {event : Event}
    (follows : r.Follows offset) :
    Follows offset ⟨file, content, r.events ++ [event]⟩ ↔
      r.file.plain.step event = some file.plain := by
  rw [Follows] at follows ⊢
  rw [exec_append, follows]
  simp [exec]

/-- No event. -/
theorem follows_nothing {file : File} {content : Bytes} (follows : r.Follows offset)
    (same : file.plain = r.file.plain) :
    Follows offset ⟨file, content, r.events ++ []⟩ := by
  rw [Follows] at follows ⊢
  rw [List.append_nil, follows, same]

end Remote

namespace File

variable {f : File} {remaining : Nat} {sent : Except Error Unit} {arrived elapsed : Bool}

/-- A read that is not finished waits for its response, or its request was not sent. -/
theorem pollRead_cases (f : File) (remaining : Nat) (sent : Except Error Unit) (arrived : Bool) :
    (∃ rx answer content, f.readRx = some rx ∧ rx.answer = some (answer, content) ∧
      arrived = true ∧ f.pollRead remaining sent arrived =
        (f.finishRead (readResult remaining answer), .ready (readResult remaining answer))) ∨
    ∃ readRx result, f.pollRead remaining sent arrived = ({ f with readRx }, result) ∧
      (∀ bytes, result ≠ .ready (.ok bytes)) ∧
      (∀ rx, readRx = some rx → f.readRx = some rx ∨ rx.answer = none) ∧
      ∀ rx, f.readRx = some rx → arrived = false ∨ rx.answer = none := by
  obtain ⟨cursor, readRx, seekRx, writeRx, flushRx⟩ := f
  cases readRx with
  | none =>
    right
    cases sent with
    | error e => exact ⟨none, _, rfl, by simp, by simp, by simp⟩
    | ok =>
      refine ⟨some ⟨cursor, min remaining chunkSize, none⟩, .pending, ?_, by simp, ?_, by simp⟩
      · cases arrived <;> rfl
      · rintro rx ⟨⟩
        exact .inr rfl
  | some rx =>
    obtain ⟨offset, max, answer⟩ := rx
    cases arrived with
    | false =>
      exact .inr ⟨_, _, rfl, by simp, fun rx same => .inl same, fun rx same => .inl rfl⟩
    | true =>
      cases answer with
      | none =>
        refine .inr ⟨_, _, rfl, by simp, fun rx same => .inl same, ?_⟩
        rintro rx ⟨⟩
        exact .inr rfl
      | some answer => exact .inl ⟨_, answer.1, answer.2, rfl, rfl, rfl, rfl⟩

theorem pollWrite_cases (f : File) (buf : Bytes) (sent : Except Error Unit) (arrived : Bool) :
    (∃ rx answer, f.writeRx = some rx ∧ rx.answer = some answer ∧ arrived = true ∧
      f.pollWrite buf sent arrived =
        ((f.finishWrite rx answer).1, .ready (f.finishWrite rx answer).2)) ∨
    ∃ writeRx result, f.pollWrite buf sent arrived = ({ f with writeRx }, result) ∧
      (∀ count, result ≠ .ready (.ok count)) ∧
      ∀ rx, f.writeRx = some rx → arrived = false ∨ rx.answer = none := by
  obtain ⟨cursor, readRx, seekRx, writeRx, flushRx⟩ := f
  cases writeRx with
  | none =>
    right
    cases sent with
    | error e => exact ⟨none, _, rfl, by simp, by simp⟩
    | ok =>
      refine ⟨some ⟨cursor, buf.take chunkSize, none⟩, .pending, ?_, by simp, by simp⟩
      cases arrived <;> rfl
  | some rx =>
    obtain ⟨offset, data, answer⟩ := rx
    cases arrived with
    | false => exact .inr ⟨_, _, rfl, by simp, fun rx same => .inl rfl⟩
    | true =>
      cases answer with
      | none =>
        refine .inr ⟨_, _, rfl, by simp, ?_⟩
        rintro rx ⟨⟩
        exact .inr rfl
      | some answer => exact .inl ⟨_, answer, rfl, rfl, rfl, rfl⟩

/-- Waiting for the flush moves nothing. -/
theorem pollFsync_fields (f : File) (sent : Except Error Unit) (arrived elapsed : Bool) :
    ∃ flushRx, (f.pollFsync sent arrived elapsed).1 = { f with flushRx } := by
  simp only [pollFsync]
  split
  · exact ⟨f.flushRx, rfl⟩
  · split
    · exact ⟨f.flushRx, rfl⟩
    · exact ⟨some none, rfl⟩
  · split
    · exact ⟨none, rfl⟩
    · split
      · exact ⟨none, rfl⟩
      · exact ⟨f.flushRx, rfl⟩

theorem pollFlush_fields (f : File) (written : Bool) (sent : Except Error Unit)
    (arrived elapsed : Bool) : ∃ flushRx,
      (f.pollFlush written sent arrived elapsed).1 = { (f.flushWrite written).1 with flushRx } := by
  simp only [pollFlush]
  split
  · next g flushed => exact ⟨g.flushRx, by rw [flushed]⟩
  · next g _ flushed => exact ⟨g.flushRx, by rw [flushed]⟩
  · next g _ flushed =>
    rw [flushed]
    exact pollFsync_fields g sent arrived elapsed

end File

namespace Remote

variable {r t : Remote} {offset : UInt64} {remaining : Nat} {sent : Except Error Unit}
  {arrived elapsed : Bool} {buf : Bytes}

/-- No bytes are returned at the end of the file, or to a caller without room. -/
private theorem end_step {p : Plain} {content : Bytes} :
    p.step (readEvent remaining content []) = some p ↔
      (remaining = 0 || content.length ≤ p.cursor.toNat) = true := by
  by_cases room : remaining = 0
  · simp [readEvent, room, Plain.step]
  · simp [readEvent, room, Plain.step]

/-- What an honest server has read at an offset is what the plain file reads at its cursor,
where the bytes are the same. -/
private theorem read_step {p : Plain} {data : Responses.Data} {content : Bytes} {rx : ReadRx}
    (honest : honestRead content rx (.ok (.data data)) = true) (some : data.data.isEmpty = false) :
    p.step (readEvent remaining content (data.data.take remaining)) =
        Option.some { p with cursor := advance p.cursor (data.data.take remaining).length } ↔
      sameBytes content rx.offset p.cursor (min remaining data.data.length) = true := by
  have bytes : data.data = (content.drop rx.offset.toNat).take data.data.length :=
    of_decide_eq_true (Bool.and_eq_true_iff.mp honest).1
  have taken : data.data.take remaining =
      (content.drop rx.offset.toNat).take (min remaining data.data.length) := by
    rw [← List.take_take, ← bytes]
  have room : ((data.data.take remaining).isEmpty && decide (remaining ≠ 0)) = false := by
    cases there : data.data with
    | nil => simp [there] at some
    | cons byte bytes => cases remaining <;> simp
  simp only [readEvent, room, Bool.false_eq_true, if_false, Plain.step, sameBytes,
    decide_eq_true_eq, List.length_take, ← taken]
  constructor
  · intro step
    by_contra other
    rw [if_neg other] at step
    cases step
  · intro same
    rw [if_pos same]

private theorem finishRead_nil (f : File) : (f.finishRead (.ok [])).plain = f.plain := by
  simp [File.finishRead, File.plain]

private theorem kept_read (honest : r.Honest) (follows : r.Follows offset)
    (move : step r (.pollRead remaining sent arrived) = some t) :
    t.Follows offset ↔ r.readInPlace remaining arrived = true := by
  obtain rfl := Option.some.inj move
  rcases r.file.pollRead_cases remaining sent arrived with
    ⟨⟨place, max, _⟩, answer, content, there, rfl, rfl, result⟩ |
    ⟨readRx, result, polled, other, -, waits⟩
  · have truth := honest.read _ answer content there rfl
    simp only [after, result, readEvents, readInPlace, there]
    -- Which packet it is decides what the read returns.
    cases answer with
    | error e => exact iff_of_true (follows_nothing follows rfl) rfl
    | ok packet =>
      cases packet with
      | data data =>
        simp only [File.readResult, Bool.not_true, Bool.false_or]
        rw [follows_event follows]
        cases there : data.data.isEmpty with
        | true =>
          have nothing := List.isEmpty_iff.mp there
          simp only [nothing, List.take_nil, finishRead_nil, if_true]
          exact end_step
        | false => exact read_step truth there
      | status status =>
        simp only [File.readResult, Bool.not_true, Bool.false_or]
        cases status.isEof with
        | true =>
          simp only [if_true, Bool.not_true, Bool.false_or]
          rw [follows_event follows, finishRead_nil]
          exact end_step
        | false => exact iff_of_true (follows_nothing follows rfl) rfl
      | _ => exact iff_of_true (follows_nothing follows rfl) rfl
  · have none : r.readEvents remaining result = [] := by simp only [readEvents]
    simp only [after, polled, none]
    refine iff_of_true (follows_nothing follows rfl) ?_
    simp only [readInPlace]
    split
    · next there =>
      have idle := (waits _ there).resolve_right (by simp)
      rw [idle]
      rfl
    · next there =>
      have idle := (waits _ there).resolve_right (by simp)
      rw [idle]
      rfl
    · rfl

/-- What a write leaves and reports, in the plain file too where the write is in its place. -/
private theorem kept_write (follows : r.Follows offset) :
    Follows offset (r.after (r.file.pollWrite buf sent arrived) (writeEvents r.file)) ↔
      r.writeInPlace arrived = true := by
  rcases r.file.pollWrite_cases buf sent arrived with
    ⟨⟨place, data, _⟩, answer, there, rfl, rfl, result⟩ | ⟨writeRx, result, polled, other, waits⟩
  · simp only [after, result, writeInPlace, there, File.finishWrite]
    cases status : File.statusResult answer with
    | error e => exact iff_of_true (follows_nothing follows rfl) rfl
    | ok =>
      simp only [writeEvents, there]
      rw [follows_event follows]
      simp only [Plain.step, File.plain, Bool.not_true, Bool.false_or, Except.isOk, Except.toBool,
        Bool.or_eq_true, List.isEmpty_iff, List.length_eq_zero_iff, beq_iff_eq,
        ite_eq_left_iff, reduceCtorEq, imp_false, Decidable.not_not]
  · have none : writeEvents r.file result = [] := by simp only [writeEvents]
    simp only [after, polled, none]
    refine iff_of_true (follows_nothing follows rfl) ?_
    simp only [writeInPlace]
    split
    · next there =>
      have idle := (waits _ there).resolve_right nofun
      rw [idle]
      rfl
    · rfl

/-- A flush is the write that it finishes, as far as the cursor is concerned. -/
private theorem kept_flush {flushed : File} {written : Bool} (follows : r.Follows offset)
    (fields : ∃ flushRx, flushed = { (r.file.flushWrite written).1 with flushRx }) :
    Follows offset (r.afterFlush written flushed) ↔ r.writeInPlace written = true := by
  obtain ⟨flushRx, rfl⟩ := fields
  cases there : r.file.writeRx with
  | none =>
    simp only [afterFlush, File.flushWrite, there, writeInPlace, writeEvents]
    exact iff_of_true (follows_nothing follows rfl) trivial
  | some rx =>
    have polled : r.file.flushWrite written = r.file.pollWrite [] (.ok ()) written := by
      rw [File.flushWrite, there]
      rfl
    rw [← kept_write follows, afterFlush, polled]
    rfl

private theorem kept_start (follows : r.Follows offset) (position : SeekFrom) :
    Follows offset (r.after (r.file.startSeek position sent) (startEvents position)) := by
  simp only [after, File.startSeek]
  split
  · exact follows_nothing follows rfl
  · next idle =>
    have seeking : r.file.plain.seeking = none := by rw [File.plain, idle]; rfl
    cases position with
    | start n =>
      refine (follows_event follows).mpr ?_
      simp only [Plain.step, seeking]
      rfl
    | current n =>
      simp only [File.seekState]
      cases there : checkedAddSigned r.file.cursor n with
      | none => exact follows_nothing follows rfl
      | some position =>
        have target : r.file.plain.target (.current n) = some (.position position) := by
          rw [Plain.target, File.plain, there]
          rfl
        refine (follows_event follows).mpr ?_
        simp only [Plain.step, seeking, target]
        rfl
    | fromEnd n =>
      simp only [File.seekState]
      cases sent with
      | error e => exact follows_nothing follows rfl
      | ok =>
        refine (follows_event follows).mpr ?_
        simp only [Plain.step, seeking]
        rfl

/-- The size that an honest server returns is that of the content. -/
private theorem endResult_ok {n : Int} {answer : Answer} {content : Bytes} {position : UInt64}
    (honest : honestSize content answer = true)
    (ok : File.endResult n answer = .ok position) :
    (Target.fromEnd n).resolve (UInt64.ofNat content.length) = some position := by
  simp only [File.endResult] at ok
  split at ok
  · cases ok
  · next size sized =>
    have same : size = UInt64.ofNat content.length := by
      simp only [File.sizeResult] at sized
      split at sized
      · next reply =>
        split at sized
        · next size' there =>
          cases sized
          simpa [honestSize, there] using honest
        · cases sized
      · cases sized
      · cases sized
    split at ok
    · next position' there =>
      cases ok
      rw [Target.resolve, ← same, there]
    · cases ok

/-- A seek ends at the place that the size of the content gives. -/
private theorem kept_complete (honest : r.Honest) (follows : r.Follows offset) :
    Follows offset (r.after (r.file.pollComplete arrived elapsed) (seekEvents r.file)) := by
  simp only [after, File.pollComplete]
  cases there : r.file.seekRx with
  | none =>
    simp only [seekEvents, there]
    refine (follows_event follows).mpr ?_
    simp [Plain.step, File.plain, there]
  | some state =>
    have seeking : r.file.plain.seeking = some state.target := by rw [File.plain, there]; rfl
    have failed : ∀ e, Follows offset
        ⟨r.file.finishSeek (.error e), r.content, r.events ++ [.seekFailed]⟩ := by
      intro e
      refine (follows_event follows).mpr ?_
      simp only [Plain.step, seeking]
      rfl
    have moved : ∀ content position,
        state.target.resolve (UInt64.ofNat content.length) = some position →
        Follows offset ⟨r.file.finishSeek (.ok position), r.content,
          r.events ++ [.seek content position]⟩ := by
      intro content position reached
      refine (follows_event follows).mpr ?_
      simp only [Plain.step, seeking, reached, if_true]
      rfl
    cases state with
    | nonBlocking n =>
      simp only [File.SeekState.poll, seekEvents, there]
      exact moved _ n rfl
    | blocking n answer =>
      simp only [File.SeekState.poll]
      split
      · next pending =>
        split at pending
        · cases pending
        · exact follows_nothing follows rfl
      · next result finished =>
        split at finished
        · next answer content arrival =>
          cases finished
          rw [File.pollRx_ready arrival] at there
          have truth := honest.size n answer content there
          cases ending : File.endResult n answer with
          | error e =>
            simp only [seekEvents]
            exact failed e
          | ok position =>
            simp only [seekEvents, there]
            exact moved content position (endResult_ok truth ending)
        · split at finished
          · cases finished
            simp only [seekEvents]
            exact failed _
          · cases finished

/-! ### Runs -/

/-- No response is there that was not there before. -/
private theorem Honest.of_fewer (honest : r.Honest)
    (reads : ∀ rx, t.file.readRx = some rx → r.file.readRx = some rx ∨ rx.answer = none)
    (seeks : ∀ n answer, t.file.seekRx = some (.blocking n (some answer)) →
      r.file.seekRx = some (.blocking n (some answer))) : t.Honest where
  read := by
    intro rx answer content there arrived
    rcases reads rx there with same | none
    · exact honest.read rx answer content same arrived
    · rw [none] at arrived
      cases arrived
  size := fun n answer content there => honest.size n answer content (seeks n _ there)

/-- The receivers of reads and seeks are the same. -/
private theorem Honest.of_same (honest : r.Honest) (reads : t.file.readRx = r.file.readRx)
    (seeks : t.file.seekRx = r.file.seekRx) : t.Honest :=
  honest.of_fewer (fun _ there => .inl (reads ▸ there)) fun _ _ there => seeks ▸ there

private theorem pollWrite_fields (f : File) (buf : Bytes) (sent : Except Error Unit)
    (arrived : Bool) : (f.pollWrite buf sent arrived).1.readRx = f.readRx ∧
      (f.pollWrite buf sent arrived).1.seekRx = f.seekRx := by
  rcases f.pollWrite_cases buf sent arrived with
    ⟨rx, answer, -, -, -, result⟩ | ⟨writeRx, result, polled, -, -⟩
  · rw [result, File.finishWrite]
    split <;> exact ⟨rfl, rfl⟩
  · rw [polled]
    exact ⟨rfl, rfl⟩

private theorem honest_read (honest : r.Honest)
    (move : step r (.pollRead remaining sent arrived) = some t) : t.Honest := by
  obtain rfl := Option.some.inj move
  rcases r.file.pollRead_cases remaining sent arrived with
    ⟨rx, answer, content, -, -, -, result⟩ | ⟨readRx, result, polled, -, rxs, -⟩
  · simp only [after, result, File.finishRead]
    split <;> exact honest.of_fewer (by simp) fun _ _ there => there
  · simp only [after, polled]
    exact honest.of_fewer rxs fun _ _ there => there

private theorem honest_start (honest : r.Honest) (position : SeekFrom) :
    Honest (r.after (r.file.startSeek position sent) (startEvents position)) := by
  simp only [after, File.startSeek]
  split
  · exact honest.of_same rfl rfl
  · split
    · exact honest.of_same rfl rfl
    · next state started =>
      refine honest.of_fewer (fun _ there => .inl there) fun n answer there => ?_
      cases there
      -- A seek that has just started has no response.
      simp only [File.seekState] at started
      split at started
      · cases started
      · split at started <;> cases started
      · split at started <;> cases started

private theorem honest_complete (honest : r.Honest) :
    Honest (r.after (r.file.pollComplete arrived elapsed) (seekEvents r.file)) := by
  simp only [after, File.pollComplete]
  split
  · exact honest.of_same rfl rfl
  · split
    · exact honest.of_same rfl rfl
    · simp only [File.finishSeek]
      split <;> exact honest.of_fewer (fun _ there => .inl there) (by simp)

theorem honest_step {a : Action} (honest : r.Honest) (move : step r a = some t) : t.Honest := by
  cases a with
  | pollRead => exact honest_read honest move
  | pollWrite =>
    obtain rfl := Option.some.inj move
    exact honest.of_same (pollWrite_fields ..).1 (pollWrite_fields ..).2
  | startSeek position =>
    obtain rfl := Option.some.inj move
    exact honest_start honest position
  | pollComplete =>
    obtain rfl := Option.some.inj move
    exact honest_complete honest
  | pollFlush written sent arrived elapsed =>
    obtain rfl := Option.some.inj move
    obtain ⟨flushRx, flushed⟩ := r.file.pollFlush_fields written sent arrived elapsed
    have fields : (r.file.flushWrite written).1.readRx = r.file.readRx ∧
        (r.file.flushWrite written).1.seekRx = r.file.seekRx := by
      simp only [File.flushWrite]
      split
      · exact pollWrite_fields ..
      · exact ⟨rfl, rfl⟩
    simp only [afterFlush, flushed]
    exact honest.of_same fields.1 fields.2
  | serveRead answer =>
    simp only [step, serveRead] at move
    split at move
    · next rx there =>
      split at move
      · next served =>
        cases move
        refine ⟨?_, fun n answer content there => honest.size n answer content there⟩
        rintro rx' answer' content ⟨⟩ ⟨⟩
        exact served.2
      · cases move
    · cases move
  | serveWrite answer =>
    simp only [step, serveWrite] at move
    split at move
    · split at move
      · cases move
        exact honest.of_same rfl rfl
      · cases move
    · cases move
  | serveStat answer =>
    simp only [step, serveStat] at move
    split at move
    · split at move
      · next truth =>
        cases move
        refine ⟨fun rx answer content there => honest.read rx answer content there, ?_⟩
        rintro n answer content ⟨⟩
        exact truth
      · cases move
    · cases move
  | serveFlush answer =>
    simp only [step, serveFlush] at move
    split at move
    · cases move
      exact honest.of_same rfl rfl
    · cases move
  | change content =>
    cases move
    exact honest.of_same rfl rfl

/-- What the server does is no event, and leaves the cursor and the target of the seek. -/
private theorem follows_server (follows : r.Follows offset) (events : t.events = r.events)
    (same : t.file.plain = r.file.plain) : t.Follows offset := by
  rw [Follows] at follows ⊢
  rw [events, follows, same]

theorem kept_step {a : Action} (honest : r.Honest) (follows : r.Follows offset)
    (move : step r a = some t) : t.Follows offset ↔ r.inPlace a = true := by
  cases a with
  | pollRead => exact kept_read honest follows move
  | pollWrite =>
    obtain rfl := Option.some.inj move
    exact kept_write follows
  | startSeek position =>
    obtain rfl := Option.some.inj move
    exact iff_of_true (kept_start follows position) rfl
  | pollComplete =>
    obtain rfl := Option.some.inj move
    exact iff_of_true (kept_complete honest follows) rfl
  | pollFlush written sent arrived elapsed =>
    obtain rfl := Option.some.inj move
    exact kept_flush follows (File.pollFlush_fields ..)
  | serveRead answer =>
    refine iff_of_true ?_ rfl
    simp only [step, serveRead] at move
    split at move
    · split at move
      · cases move
        exact follows_server follows rfl rfl
      · cases move
    · cases move
  | serveWrite answer =>
    refine iff_of_true ?_ rfl
    simp only [step, serveWrite] at move
    split at move
    · split at move
      · cases move
        exact follows_server follows rfl rfl
      · cases move
    · cases move
  | serveStat answer =>
    refine iff_of_true ?_ rfl
    simp only [step, serveStat] at move
    split at move
    · next n there =>
      split at move
      · cases move
        exact follows_server follows rfl (by simp [File.plain, there, SeekState.target])
      · cases move
    · cases move
  | serveFlush answer =>
    refine iff_of_true ?_ rfl
    simp only [step, serveFlush] at move
    split at move
    · cases move
      exact follows_server follows rfl rfl
    · cases move
  | change content =>
    cases move
    exact iff_of_true (follows_server follows rfl rfl) rfl

def ok : Except Error Unit := .ok ()

def atEnd : Answer := .ok (.status { Status.connectionLost 0 with code := .eof })

/-- The end of the file is stale in the same way. -/
example :
    let acts : List Action := [.pollRead 1 ok true, .serveRead atEnd, .startSeek (.start 0) ok,
      .pollComplete true false]
    (exec step (make [1, 2, 3] 3) acts).map
      (fun r => (r.file.cursor, r.inPlace (.pollRead 1 ok true))) = some (0, false) := rfl

end Remote

end Yazi.Sftp
