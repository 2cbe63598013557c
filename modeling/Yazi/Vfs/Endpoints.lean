import Yazi.Vfs.Cursors

/-!
The two ends of a chunk, whatever files they are.

What a writer has accepted is still ahead of it: on its way to the file, or in the buffer. A
writer that has lost something says so before it accepts the end of the copy.
-/
namespace Yazi.Vfs
open Yazi.Base Yazi.Shared Yazi.Fs

variable {capacity : Nat} {content dest : Bytes}

-- ═══════════════════════════════════════════════════════════════
-- A file that answers when it likes
-- ═══════════════════════════════════════════════════════════════

namespace RwFile
variable {f : RwFile} {data : Bytes}

/-- What comes of a write. -/
inductive Took (data : Bytes) (f : RwFile) : RwFile × Poll (Except IoError Nat) → Prop where
  | waits : Took data f (f, .pending)
  | fails (e : IoError) : Took data f (f.failed, .ready (.error e))
  | sends (n : Nat) (free : f.free = true) (fits : n ≤ data.length) :
      Took data f ({ f with sent := data.take n, owed := some n }, .pending)
  | answered (n : Nat) (owed : f.owed = some n) (quiet : f.quiet = true) :
      Took data f ({ f with owed := none }, .ready (.ok n))
  | takes (n : Nat) (free : f.free = true) (fits : n ≤ data.length) :
      Took data f ({ f with sent := data.take n }, .ready (.ok n))

theorem took_of_pollWrite {answer : Answer} {polled : RwFile × Poll (Except IoError Nat)}
    (move : f.pollWrite data answer = some polled) : Took data f polled := by
  cases answer with
  | pending =>
    cases move
    exact .waits
  | failed e =>
    cases move
    exact .fails e
  | send n =>
    obtain ⟨⟨free, fits⟩, ⟨⟩⟩ := Option.ite_none_right_eq_some.mp move
    exact .sends n free fits
  | answered =>
    cases owed : f.owed with
    | none => simp [pollWrite, owed] at move
    | some n =>
      simp only [pollWrite, owed] at move
      obtain ⟨quiet, ⟨⟩⟩ := Option.ite_none_right_eq_some.mp move
      exact .answered n owed quiet
  | take n =>
    obtain ⟨⟨free, fits⟩, ⟨⟩⟩ := Option.ite_none_right_eq_some.mp move
    exact .takes n free fits
  | done => cases move

/-- What comes of a shutdown. -/
inductive Shut (f : RwFile) : RwFile × Poll (Except IoError Unit) → Prop where
  | waits : Shut f (f, .pending)
  | fails (e : IoError) : Shut f (f.failed, .ready (.error e))
  | done (quiet : f.quiet = true) : Shut f ({ f with owed := none }, .ready (.ok ()))

theorem shut_of_pollShutdown {answer : Answer} {polled : RwFile × Poll (Except IoError Unit)}
    (move : f.pollShutdown answer = some polled) : Shut f polled := by
  cases answer with
  | pending =>
    cases move
    exact .waits
  | failed e =>
    cases move
    exact .fails e
  | done =>
    obtain ⟨quiet, ⟨⟩⟩ := Option.ite_none_right_eq_some.mp move
    exact .done quiet
  | send n => cases move
  | answered => cases move
  | take n => cases move

theorem quiet_iff : f.quiet = true ↔ f.sent = [] ∧ f.lost = false := by
  simp [quiet]

theorem free_iff : f.free = true ↔ (f.sent = [] ∧ f.lost = false) ∧ f.owed = none := by
  simp [free, quiet_iff]

/-- What is on its way, with what of the bytes at hand was not sent. -/
def ahead (f : RwFile) (data : Bytes) : Bytes := f.sent ++ data.drop (f.owed.getD 0)

/-- What a write makes of the bytes ahead. -/
inductive Went (data : Bytes) (f : RwFile) : RwFile × Poll (Except IoError Nat) → Prop where
  | waits {f' : RwFile} (whole : f'.lost = false) (place : f'.place = f.place)
      (bound : f'.owed.getD 0 ≤ data.length) (same : f'.ahead data = f.ahead data) :
      Went data f (f', .pending)
  | took {f' : RwFile} {n : Nat} (whole : f'.lost = false) (place : f'.place = f.place)
      (unowed : f'.owed = none) (fits : n ≤ data.length)
      (same : f'.sent ++ data.drop n = f.ahead data) : Went data f (f', .ready (.ok n))
  | fails {e : IoError} : Went data f (f.failed, .ready (.error e))

theorem Took.went {polled : RwFile × Poll (Except IoError Nat)} (took : Took data f polled)
    (whole : f.lost = false) (bound : f.owed.getD 0 ≤ data.length) : Went data f polled := by
  cases took with
  | waits => exact .waits whole rfl bound rfl
  | fails e => exact .fails
  | sends n free fits =>
    obtain ⟨⟨none, -⟩, unowed⟩ := free_iff.mp free
    refine .waits whole rfl fits ?_
    rw [ahead, ahead, none, unowed]
    exact List.take_append_drop n data
  | answered n owed quiet =>
    rw [owed] at bound
    refine .took whole rfl rfl bound ?_
    rw [ahead, owed]
    rfl
  | takes n free fits =>
    obtain ⟨⟨none, -⟩, unowed⟩ := free_iff.mp free
    refine .took whole rfl unowed fits ?_
    rw [ahead, none, unowed]
    exact List.take_append_drop n data

/-- What was lost is neither answered nor followed by anything else. -/
theorem Took.of_lost {polled : RwFile × Poll (Except IoError Nat)} (took : Took data f polled)
    (lost : f.lost = true) :
    polled = (f, .pending) ∨ ∃ e, polled = (f.failed, .ready (.error e)) := by
  have loud : f.quiet = false := by simp [quiet, lost]
  have busy : f.free = false := by simp [free, loud]
  cases took with
  | waits => exact .inl rfl
  | fails e => exact .inr ⟨e, rfl⟩
  | sends n free => cases busy.symm.trans free
  | answered n owed quiet => cases loud.symm.trans quiet
  | takes n free => cases busy.symm.trans free

/-- What is on its way stays in a range. -/
def Confined (lo hi : Nat) (f : RwFile) : Prop := lo ≤ f.place ∧ f.place + f.sent.length ≤ hi

/-- What is carried out behind the caller's back. -/
inductive Stepped (dest : Bytes) (f : RwFile) : RwFile × Bytes → Prop where
  | wrote (n : Nat) (some : 0 < n) (fits : n ≤ f.sent.length) :
      Stepped dest f ({ f with place := f.place + n, sent := f.sent.drop n },
        overwrite dest f.place (f.sent.take n))
  | lost (busy : f.sent ≠ []) : Stepped dest f ({ f with sent := [], lost := true }, dest)

theorem stepped_of_step {action : Action} {moved : RwFile × Bytes}
    (move : f.step dest action = some moved) : Stepped dest f moved := by
  cases action with
  | commit n =>
    obtain ⟨⟨some, fits⟩, ⟨⟩⟩ := Option.ite_none_right_eq_some.mp move
    exact .wrote n some fits
  | lose =>
    obtain ⟨busy, ⟨⟩⟩ := Option.ite_none_left_eq_some.mp move
    exact .lost (by simpa using busy)

end RwFile

-- ═══════════════════════════════════════════════════════════════
-- Writing
-- ═══════════════════════════════════════════════════════════════

/-- What of the buffer the file has not got. -/
def BufWriter.rest (w : BufWriter) : Bytes := w.buf.drop w.written

namespace Writer

/-- Something went wrong, and nobody has asked for it yet. -/
def Spoiled : Writer → Prop
  | .local c => Vfs.Spoiled c
  | .buffered w => w.file.lost = true

/-- All before a place is written, and some bytes behind it were accepted. -/
inductive WritesAt : Writer → Nat → Bytes → Prop where
  | «local» {c : FileCursor} {place : Nat} {ahead : Bytes} (writes : Vfs.WritesAt c place ahead) :
      WritesAt (.local c) place ahead
  | buffered {w : BufWriter} {place : Nat} {ahead : Bytes} (whole : w.file.lost = false)
      (here : w.file.place = place) (inside : w.written ≤ w.buf.length)
      (bound : w.file.owed.getD 0 ≤ w.rest.length) (same : w.file.ahead w.rest = ahead) :
      WritesAt (.buffered w) place ahead

/-- Nothing is on its way. -/
def Still : Writer → Prop
  | .local c => c.task = none
  | .buffered w => w.file.sent = [] ∧ w.file.lost = false

/-- What is on its way stays in a range. -/
def Confined (lo hi : Nat) : Writer → Prop
  | .local c => ∀ t, c.task = some t → t.joined = none → t.writing = true ∧
      lo ≤ t.offset ∧ t.offset + (t.buf.drop t.written).length ≤ hi
  | .buffered w => w.file.Confined lo hi

/-- No more is on its way than was. -/
def Kept (w w' : Writer) : Prop := ∀ lo hi, w.Confined lo hi → w'.Confined lo hi

theorem Kept.refl (w : Writer) : w.Kept w := fun _ _ confined => confined

theorem kept_of_free {w : Writer} {c : FileCursor} (free : c.task = none) : w.Kept (.local c) := by
  intro lo hi _ t task
  cases free.symm.trans task

theorem kept_of_file {w w' : BufWriter} (place : w'.file.place = w.file.place)
    (less : w'.file.sent.length ≤ w.file.sent.length) : Kept (.buffered w) (.buffered w') := by
  rintro lo hi ⟨first, last⟩
  refine ⟨place ▸ first, ?_⟩
  rw [place]
  omega

theorem WritesAt.confined {w : Writer} {place : Nat} {ahead : Bytes} {lo hi : Nat}
    (writes : w.WritesAt place ahead) (first : lo ≤ place) (last : place + ahead.length ≤ hi) :
    w.Confined lo hi := by
  cases writes with
  | buffered _ here _ _ same =>
    subst here same
    rw [RwFile.ahead, List.length_append] at last
    exact ⟨first, by omega⟩
  | «local» writes =>
    intro t task going
    obtain ⟨rfl, same, -⟩ := writesAt_wrote writes task going
    refine ⟨?_, first, ?_⟩
    · cases writes with
      | idle => cases task
      | busy => exact congrArg Transfer.writing (Option.some.inj task.symm)
      | finished => exact congrArg Transfer.writing (Option.some.inj task.symm)
    · rw [same]
      exact last

/-- Where no request waits for its answer, the buffer is ahead as far as it is not written. -/
theorem writesAt_unowed {file : RwFile} {buf ahead : Bytes} {written place : Nat}
    (whole : file.lost = false) (here : file.place = place) (unowed : file.owed = none)
    (inside : written ≤ buf.length) (same : file.sent ++ buf.drop written = ahead) :
    WritesAt (.buffered ⟨file, buf, written⟩) place ahead := by
  refine .buffered whole here inside ?_ ?_
  · rw [unowed]
    exact Nat.zero_le _
  · rw [RwFile.ahead, unowed]
    exact same

theorem make_writesAt (remote : Bool) (offset : Nat) : (make remote offset).WritesAt offset [] := by
  cases remote with
  | false => exact .local (.idle offset)
  | true => exact .buffered rfl rfl (Nat.le_refl 0) (Nat.le_refl 0) rfl

/-- What comes of a call: it waits, or goes on, or is done, or has failed. -/
inductive Polled {α : Type} (w : Writer) (P : Writer → Prop) (Q : α → Writer → Prop) :
    Writer × Poll (Except IoError (Option α)) → Prop where
  | pending {w' : Writer} (waits : P w') : Polled w P Q (w', .pending)
  | onward {w' : Writer} (goes : P w') : Polled w P Q (w', .ready (.ok none))
  | ended {w' : Writer} {a : α} (ends : Q a w') : Polled w P Q (w', .ready (.ok (some a)))
  | failed {w' : Writer} {e : IoError} (kept : w.Kept w') : Polled w P Q (w', .ready (.error e))

variable {α : Type} {w : BufWriter} {place : Nat} {ahead : Bytes} {Q : α → Writer → Prop}

/-- A round of `flush_buf`, after which the call goes on. -/
def flushed (polled : BufWriter × Poll (Except IoError Unit)) :
    Writer × Poll (Except IoError (Option α)) :=
  buffered' (Poll.andThen polled fun w _ => (w, .ready (.ok none)))

theorem flushBuf_of_writesAt (writes : WritesAt (.buffered w) place ahead)
    {answer : RwFile.Answer} {polled : BufWriter × Poll (Except IoError Unit)}
    (move : w.flushBuf answer = some polled) :
    Polled (.buffered w) (WritesAt · place ahead) Q (flushed polled) := by
  cases writes with | buffered whole here inside bound same =>
  obtain ⟨⟨file, result⟩, wrote, rfl⟩ := Option.map_eq_some_iff.mp move
  cases (RwFile.took_of_pollWrite wrote).went whole bound with
  | waits whole kept bound still =>
    exact .pending (.buffered whole (kept.trans here) inside bound (still.trans same))
  | fails => exact .failed (kept_of_file rfl (Nat.le_refl _))
  | @took _ n whole kept unowed fits still =>
    change file.sent ++ w.rest.drop n = w.file.ahead w.rest at still
    -- A file that takes nothing ends the round with an error.
    by_cases zero : n = 0
    · have lengths := congrArg List.length still
      simp only [zero, RwFile.ahead, List.length_append, List.length_drop] at lengths
      have less : file.sent.length ≤ w.file.sent.length := by omega
      simp only [zero, ↓reduceIte]
      exact .failed (kept_of_file kept less)
    · have rest : w.rest.drop n = w.buf.drop (w.written + n) := List.drop_drop ..
      rw [rest] at still
      rw [List.length_drop] at fits
      -- A buffer that is written is emptied, and else its rest waits for the next round.
      by_cases all : w.written + n = w.buf.length
      · simp only [zero, all, ↓reduceIte]
        rw [all, List.drop_length] at still
        exact .onward (writesAt_unowed whole (kept.trans here) unowed (Nat.le_refl 0)
          (still.trans same))
      · simp only [zero, all, ↓reduceIte]
        exact .onward (writesAt_unowed whole (kept.trans here) unowed (by omega)
          (still.trans same))

/-- What was lost comes to light before the buffer is emptied. -/
theorem flushBuf_of_spoiled (spoiled : Spoiled (.buffered w)) {answer : RwFile.Answer}
    {polled : BufWriter × Poll (Except IoError Unit)} (move : w.flushBuf answer = some polled) :
    Polled (.buffered w) (fun w' => w'.Spoiled ∧ Kept (.buffered w) w') Q (flushed polled) := by
  obtain ⟨taken, wrote, rfl⟩ := Option.map_eq_some_iff.mp move
  rcases (RwFile.took_of_pollWrite wrote).of_lost spoiled with rfl | ⟨e, rfl⟩
  · exact .pending ⟨spoiled, Kept.refl _⟩
  · exact .failed (kept_of_file rfl (Nat.le_refl _))

/-- Bytes that fit into the buffer are put there, or a round of `flush_buf` makes room. -/
theorem pollWrite_buffered {data : Bytes} (small : data.length < capacity)
    {met : Met RwFile.Answer} {polled : Writer × Poll (Except IoError (Option Nat))}
    (move : pollWrite capacity data (.buffered w) met = some polled) :
    polled = (.buffered { w with buf := w.buf ++ data }, .ready (.ok (some data.length))) ∨
      ∃ answer flush, w.flushBuf answer = some flush ∧ polled = flushed flush := by
  cases met with
  | task => cases move
  | nothing =>
    obtain ⟨polled, wrote, rfl⟩ := Option.map_eq_some_iff.mp move
    obtain ⟨-, ⟨⟩⟩ := Option.ite_none_left_eq_some.mp wrote
    exact .inl rfl
  | file answer =>
    obtain ⟨polled, wrote, rfl⟩ := Option.map_eq_some_iff.mp move
    -- The buffer is larger than what is ever written at once, and never written past.
    simp only [BufWriter.pollWrite, if_neg (Nat.not_le.mpr small)] at wrote
    obtain ⟨-, wrote⟩ := Option.ite_none_right_eq_some.mp wrote
    obtain ⟨flush, round, rfl⟩ := Option.map_eq_some_iff.mp wrote
    exact .inr ⟨answer, flush, round, rfl⟩

/-- The buffer is emptied before the file is shut down. -/
theorem pollShutdown_buffered {met : Met RwFile.Answer}
    {polled : Writer × Poll (Except IoError (Option Unit))}
    (move : pollShutdown (.buffered w) met = some polled) :
    (∃ answer flush, w.flushBuf answer = some flush ∧ polled = flushed flush) ∨
      w.buf = [] ∧ ∃ file result, w.file.Shut (file, result) ∧ polled = buffered'
        (Poll.andThen ({ w with file }, result) fun w _ => (w, .ready (.ok (some ())))) := by
  cases met with
  | task => cases move
  | nothing => cases move
  | file answer =>
    obtain ⟨polled, shut, rfl⟩ := Option.map_eq_some_iff.mp move
    rw [BufWriter.pollShutdown] at shut
    split at shut
    · obtain ⟨flush, round, rfl⟩ := Option.map_eq_some_iff.mp shut
      exact .inl ⟨answer, flush, round, rfl⟩
    next empty =>
      obtain ⟨⟨file, result⟩, ends, rfl⟩ := Option.map_eq_some_iff.mp shut
      exact .inr ⟨not_not.mp empty, file, result, RwFile.shut_of_pollShutdown ends, rfl⟩

theorem pollWrite_local {c : FileCursor} {data : Bytes} {met : Met RwFile.Answer}
    {polled : Writer × Poll (Except IoError (Option Nat))}
    (move : pollWrite capacity data (.local c) met = some polled) :
    ∃ arrived, polled = local' (c.pollWrite data arrived) := by
  cases met with
  | nothing => cases move
  | file => cases move
  | task arrived => exact ⟨arrived, (Option.some.inj move).symm⟩

theorem pollShutdown_local {c : FileCursor} {met : Met RwFile.Answer}
    {polled : Writer × Poll (Except IoError (Option Unit))}
    (move : pollShutdown (.local c) met = some polled) :
    ∃ arrived, polled = local' (c.pollFlush arrived) := by
  cases met with
  | nothing => cases move
  | file => cases move
  | task arrived => exact ⟨arrived, (Option.some.inj move).symm⟩

/-- A writer accepts bytes as a whole, behind those before. -/
theorem pollWrite_of_writesAt {w : Writer} {data : Bytes} (writes : w.WritesAt place ahead)
    (small : data.length < capacity) {met : Met RwFile.Answer}
    {polled : Writer × Poll (Except IoError (Option Nat))}
    (move : w.pollWrite capacity data met = some polled) :
    Polled w (WritesAt · place ahead)
      (fun n w' => n = data.length ∧ w'.WritesAt place (ahead ++ data)) polled := by
  cases writes with
  | «local» writes =>
    obtain ⟨arrived, rfl⟩ := pollWrite_local move
    rcases Vfs.pollWrite_of_writesAt writes arrived with waits | ⟨none, w, ready, next, -⟩
    · rw [waits]
      exact .pending (.local writes)
    · rw [ready, none]
      exact .ended ⟨rfl, .local next⟩
  | @buffered w _ _ whole here inside bound same =>
    rcases pollWrite_buffered small move with rfl | ⟨answer, flush, round, rfl⟩
    · have rest : BufWriter.rest { w with buf := w.buf ++ data } = w.rest ++ data :=
        List.drop_append_of_le_length inside
      refine .ended ⟨rfl, .buffered whole here ?_ ?_ ?_⟩
      · change w.written ≤ (w.buf ++ data).length
        rw [List.length_append]
        omega
      · rw [rest, List.length_append]
        change w.file.owed.getD 0 ≤ _
        omega
      · rw [rest, ← same, RwFile.ahead, RwFile.ahead, List.append_assoc,
          List.drop_append_of_le_length bound]
    · exact flushBuf_of_writesAt (.buffered whole here inside bound same) round

theorem pollWrite_of_spoiled {w : Writer} {data : Bytes} (spoiled : w.Spoiled)
    (small : data.length < capacity) {met : Met RwFile.Answer}
    {polled : Writer × Poll (Except IoError (Option Nat))}
    (move : w.pollWrite capacity data met = some polled) :
    Polled w (fun w' => w'.Spoiled ∧ w.Kept w')
      (fun n w' => n = data.length ∧ w'.Spoiled ∧ w.Kept w') polled := by
  cases w with
  | «local» c =>
    obtain ⟨arrived, rfl⟩ := pollWrite_local move
    rcases Vfs.pollWrite_of_spoiled spoiled arrived with waits | ⟨e, w, failed, free⟩
    · rw [waits]
      exact .pending ⟨spoiled, Kept.refl _⟩
    · rw [failed]
      exact .failed (kept_of_free free)
  | buffered w =>
    rcases pollWrite_buffered small move with rfl | ⟨answer, flush, round, rfl⟩
    -- The buffer may still have room, and the loss comes to light later.
    · exact .ended ⟨rfl, spoiled, kept_of_file rfl (Nat.le_refl _)⟩
    · exact flushBuf_of_spoiled spoiled round

/-- A writer is shut down when nothing is ahead of it any more. -/
theorem pollShutdown_of_writesAt {w : Writer} (writes : w.WritesAt place ahead)
    {met : Met RwFile.Answer} {polled : Writer × Poll (Except IoError (Option Unit))}
    (move : w.pollShutdown met = some polled) :
    Polled w (WritesAt · place ahead) (fun _ w' => ahead = [] ∧ w'.Still ∧ w.Kept w') polled := by
  cases writes with
  | «local» writes =>
    obtain ⟨arrived, rfl⟩ := pollShutdown_local move
    rcases Vfs.pollFlush_of_writesAt writes arrived with waits | ⟨none, ready⟩
    · rw [waits]
      exact .pending (.local writes)
    · rw [ready]
      exact .ended ⟨none, rfl, kept_of_free rfl⟩
  | @buffered w _ _ whole here inside bound same =>
    rcases pollShutdown_buffered move with
      ⟨answer, flush, round, rfl⟩ | ⟨empty, file, result, shut, rfl⟩
    · exact flushBuf_of_writesAt (.buffered whole here inside bound same) round
    · cases shut with
      | waits => exact .pending (.buffered whole here inside bound same)
      | fails e => exact .failed (kept_of_file rfl (Nat.le_refl _))
      | done quiet =>
        obtain ⟨none, -⟩ := RwFile.quiet_iff.mp quiet
        refine .ended ⟨?_, ⟨none, whole⟩, kept_of_file rfl (Nat.le_refl _)⟩
        rw [← same, RwFile.ahead, none, BufWriter.rest, empty, List.drop_nil, List.drop_nil,
          List.append_nil]

theorem pollShutdown_of_spoiled {w : Writer} (spoiled : w.Spoiled) {met : Met RwFile.Answer}
    {polled : Writer × Poll (Except IoError (Option Unit))}
    (move : w.pollShutdown met = some polled) :
    Polled w (fun w' => w'.Spoiled ∧ w.Kept w') (fun _ _ => False) polled := by
  cases w with
  | «local» c =>
    obtain ⟨arrived, rfl⟩ := pollShutdown_local move
    rcases Vfs.pollFlush_of_spoiled spoiled arrived with waits | ⟨e, w, failed, free⟩
    · rw [waits]
      exact .pending ⟨spoiled, Kept.refl _⟩
    · rw [failed]
      exact .failed (kept_of_free free)
  | buffered w =>
    rcases pollShutdown_buffered move with
      ⟨answer, flush, round, rfl⟩ | ⟨-, file, result, shut, rfl⟩
    · exact flushBuf_of_spoiled spoiled round
    · cases shut with
      | waits => exact .pending ⟨spoiled, Kept.refl _⟩
      | fails e => exact .failed (kept_of_file rfl (Nat.le_refl _))
      -- A file that has lost something does not shut down well.
      | done quiet => cases spoiled.symm.trans (RwFile.quiet_iff.mp quiet).2

/-- A copy that has failed sends nothing more. -/
theorem kept_abort {w : Writer} {met : Met RwFile.Answer}
    {polled : Writer × Poll (Except IoError Unit)} (move : w.abort met = some polled) :
    w.Kept polled.1 := by
  cases w with
  | «local» c =>
    cases met with
    | nothing => cases move
    | file => cases move
    | task arrived =>
      rcases pollFlush_task c arrived with waits | ⟨w, result, ready, free⟩
      · simp only [abort, waits] at move
        cases move
        exact Kept.refl _
      · simp only [abort, ready] at move
        cases move
        exact kept_of_free free
  | buffered w =>
    cases met with
    | task => cases move
    | nothing => cases move
    | file answer =>
      obtain ⟨file, ends, rfl⟩ := Option.map_eq_some_iff.mp move
      cases RwFile.shut_of_pollShutdown ends with
      | waits => exact Kept.refl _
      | fails e => exact kept_of_file rfl (Nat.le_refl _)
      | done quiet => exact kept_of_file rfl (Nat.le_refl _)

/-- A file that answers with an error ends the call. -/
theorem failed_of_flushBuf {e : IoError} {polled : BufWriter × Poll (Except IoError Unit)}
    (move : w.flushBuf (.failed e) = some polled) :
    ∃ w', flushed (α := α) polled = (w', .ready (.error e)) := by
  cases move
  exact ⟨_, rfl⟩

theorem failed_of_pollWrite {w : Writer} {data : Bytes} {e : IoError}
    {polled : Writer × Poll (Except IoError (Option Nat))}
    (move : w.pollWrite capacity data (.file (.failed e)) = some polled) :
    ∃ w', polled = (w', .ready (.error e)) := by
  cases w with
  | «local» => cases move
  | buffered w =>
    obtain ⟨polled, wrote, rfl⟩ := Option.map_eq_some_iff.mp move
    simp only [BufWriter.pollWrite] at wrote
    split at wrote
    · obtain ⟨flush, flushed, rfl⟩ := Option.map_eq_some_iff.mp wrote
      exact failed_of_flushBuf flushed
    · obtain ⟨-, wrote⟩ := Option.ite_none_right_eq_some.mp wrote
      cases wrote
      exact ⟨_, rfl⟩

theorem failed_of_pollShutdown {w : Writer} {e : IoError}
    {polled : Writer × Poll (Except IoError (Option Unit))}
    (move : w.pollShutdown (.file (.failed e)) = some polled) :
    ∃ w', polled = (w', .ready (.error e)) := by
  cases w with
  | «local» => cases move
  | buffered w =>
    obtain ⟨polled, shut, rfl⟩ := Option.map_eq_some_iff.mp move
    rw [BufWriter.pollShutdown] at shut
    split at shut
    · obtain ⟨flush, flushed, rfl⟩ := Option.map_eq_some_iff.mp shut
      exact failed_of_flushBuf flushed
    · cases shut
      exact ⟨_, rfl⟩

/-- What is carried out behind the caller's back, of which some bytes may be lost. -/
inductive Wrote (dest : Bytes) (w : Writer) : Writer → Bytes → Prop where
  | still : Wrote dest w w dest
  | spoiled {w' : Writer} (spoiled : w'.Spoiled) (kept : w.Kept w') : Wrote dest w w' dest
  | wrote {w' : Writer} {place : Nat} {sent : Bytes}
      (confined : ∀ lo hi, w.Confined lo hi →
        lo ≤ place ∧ place + sent.length ≤ hi ∧ w'.Confined lo hi)
      (onward : ∀ written ahead, w.WritesAt written ahead → written = place ∧
        ∃ n, n ≤ ahead.length ∧ sent = ahead.take n ∧ w'.WritesAt (place + n) (ahead.drop n))
      (ails : w.Spoiled → w'.Spoiled) : Wrote dest w w' (overwrite dest place sent)

theorem wrote_of_task {c c' : FileCursor} {dest' : Bytes} (wrote : Vfs.Wrote dest c c' dest') :
    Wrote dest (.local c) (.local c') dest' := by
  cases wrote with
  | still => exact .still
  | spoiled _ spoiled =>
    refine .spoiled spoiled ?_
    intro lo hi _ t task going
    obtain ⟨u, same, ended⟩ := spoiled
    cases task.symm.trans same
    simp [going] at ended
  | wrote t n task going fits =>
    have length : ((t.buf.drop t.written).take n).length = n := List.length_take_of_le fits
    refine .wrote ?_ ?_ ?_
    · intro lo hi confined
      obtain ⟨writing, first, last⟩ := confined t task going
      refine ⟨first, by omega, ?_⟩
      rintro u ⟨⟩ -
      refine ⟨writing, Nat.le_trans first (Nat.le_add_right ..), ?_⟩
      change t.offset + n + (t.buf.drop (t.written + n)).length ≤ hi
      rw [← List.drop_drop, List.length_drop]
      omega
    · rintro written ahead (writes | _)
      obtain ⟨rfl, rfl, onward⟩ := writesAt_wrote writes task going
      exact ⟨rfl, n, fits, rfl, .local (onward n fits)⟩
    · rintro ⟨u, same, ended⟩
      cases task.symm.trans same
      simp [going] at ended

theorem wrote_of_file {w : BufWriter} {moved : RwFile × Bytes}
    (stepped : w.file.Stepped dest moved) :
    Wrote dest (.buffered w) (.buffered { w with file := moved.1 }) moved.2 := by
  cases stepped with
  | lost busy => exact .spoiled rfl (kept_of_file rfl (Nat.zero_le _))
  | wrote n some fits =>
    have length : (w.file.sent.take n).length = n := List.length_take_of_le fits
    refine .wrote ?_ ?_ ?_
    · rintro lo hi ⟨first, last⟩
      refine ⟨first, by omega, Nat.le_trans first (Nat.le_add_right ..), ?_⟩
      change w.file.place + n + (w.file.sent.drop n).length ≤ hi
      rw [List.length_drop]
      omega
    · intro written ahead writes
      cases writes with | buffered whole here inside bound same =>
      refine ⟨here.symm, n, ?_, ?_, .buffered whole rfl inside bound ?_⟩
      · rw [← same, RwFile.ahead, List.length_append]
        omega
      · rw [← same, RwFile.ahead, List.take_append_of_le_length fits]
      · rw [← same, RwFile.ahead, RwFile.ahead, List.drop_append_of_le_length fits]
        rfl
    · exact id

theorem not_still_of_task {c : FileCursor} {t : Transfer} (task : c.task = some t) :
    ¬Still (.local c) := by
  intro still
  cases still.symm.trans task

theorem not_still_of_file {w : BufWriter} {moved : RwFile × Bytes}
    (stepped : w.file.Stepped dest moved) : ¬Still (.buffered w) := by
  rintro ⟨none, -⟩
  cases stepped with
  | lost busy => exact busy none
  | wrote n some fits =>
    rw [none, List.length_nil] at fits
    omega

theorem not_still_of_spoiled {w : Writer} (spoiled : w.Spoiled) : ¬w.Still := by
  cases w with
  | «local» c =>
    obtain ⟨t, task, -⟩ := spoiled
    exact not_still_of_task task
  | buffered w =>
    rintro ⟨-, whole⟩
    cases spoiled.symm.trans whole

end Writer

-- ═══════════════════════════════════════════════════════════════
-- Reading
-- ═══════════════════════════════════════════════════════════════

namespace Reader
variable {place : Nat}

/-- A failed read that nobody has asked for yet. -/
def Spoiled : Reader → Prop
  | .local c _ => Vfs.Spoiled c
  | .buffered _ => False

/-- The caller was served up to a place. -/
inductive ReadsAt (capacity : Nat) (content : Bytes) : Reader → Nat → Prop where
  | «local» {c : FileCursor} {polling : Option Nat} {place : Nat}
      (reads : Vfs.ReadsAt capacity content c polling place) :
      ReadsAt capacity content (.local c polling) place
  | buffered {r : BufReader} {place : Nat} (inside : r.position ≤ r.buf.length)
      (ahead : place + (r.buf.length - r.position) = r.offset)
      (window : r.buf.drop r.position = slice content place (r.buf.length - r.position)) :
      ReadsAt capacity content (.buffered r) place

theorem make_readsAt (capacity : Nat) (content : Bytes) (remote : Bool) (offset : Nat) :
    ReadsAt capacity content (make remote offset) offset := by
  cases remote with
  | false => exact .local (readsAt_make capacity content offset)
  | true => exact .buffered (Nat.le_refl 0) rfl rfl

/-- What comes of a call, whose caller has some room. -/
inductive Served (capacity : Nat) (content : Bytes) (place room : Nat) :
    Reader × Poll (Except IoError (Option Bytes)) → Prop where
  | pending {r : Reader} (reads : r.ReadsAt capacity content place) (idle : r.polling = none) :
      Served capacity content place room (r, .pending)
  | onward {r : Reader} (reads : r.ReadsAt capacity content place)
      (asks : ∀ n, r.polling = some n → n = room) :
      Served capacity content place room (r, .ready (.ok none))
  | bytes {r : Reader} {bytes : Bytes}
      (reads : r.ReadsAt capacity content (place + bytes.length))
      (here : bytes = slice content place bytes.length) (fits : bytes.length ≤ room)
      (free : r.task = none) (idle : r.polling = none) :
      Served capacity content place room (r, .ready (.ok (some bytes)))
  | failed {r : Reader} {e : IoError} : Served capacity content place room (r, .ready (.error e))

theorem served_of_task {c : FileCursor} {polling : Option Nat} {room : Nat}
    {polled : FileCursor × Poll (Except IoError (Option Bytes))}
    (reads : Vfs.ReadsAt capacity content c polling place) (served : Vfs.Served room c polled)
    (moves : OpenFile.Moves capacity ⟨c, content, polling, []⟩
      (OpenFile.afterRead ⟨c, content, polling, []⟩ capacity room polled)
      (OpenFile.readEvents capacity room polled.2)) :
    Served capacity content place room
      (.local polled.1 (OpenFile.waiting room polled.2), polled.2) := by
  obtain ⟨told, waits⟩ := readsAt_polled reads served moves
  obtain ⟨reader, result⟩ := polled
  rcases result with _ | e | _ | bytes
  · exact .pending (.local (waits fun bytes same => by cases same)) rfl
  · exact .failed
  · refine .onward (.local (waits fun bytes same => by cases same)) ?_
    rintro n ⟨⟩
    rfl
  · obtain ⟨reads, here⟩ := told bytes rfl
    obtain ⟨fits, free⟩ := served.bytes bytes rfl
    exact .bytes (.local reads) here fits free rfl

/-- The caller is served from the buffer. -/
theorem served_serve {r : BufReader} {room : Nat}
    (reads : ReadsAt capacity content (.buffered r) place) :
    Served capacity content place room
      (buffered' ((r.serve room).1, .ready (.ok (r.serve room).2))) := by
  cases reads with | buffered inside ahead window =>
  have length : ((r.buf.drop r.position).take room).length =
      min room (r.buf.length - r.position) := by
    rw [List.length_take, List.length_drop]
  refine .bytes (.buffered ?_ ?_ ?_) ?_ ?_ rfl rfl
  · change r.position + ((r.buf.drop r.position).take room).length ≤ r.buf.length
    omega
  · change place + ((r.buf.drop r.position).take room).length +
      (r.buf.length - (r.position + ((r.buf.drop r.position).take room).length)) = r.offset
    omega
  · change r.buf.drop (r.position + ((r.buf.drop r.position).take room).length) =
      slice content (place + ((r.buf.drop r.position).take room).length)
        (r.buf.length - (r.position + ((r.buf.drop r.position).take room).length))
    rw [← List.drop_drop, window, slice_drop, Nat.sub_sub]
  · change (r.buf.drop r.position).take room =
      slice content place ((r.buf.drop r.position).take room).length
    rw [length, window, slice_take]
  · change ((r.buf.drop r.position).take room).length ≤ room
    omega

/-- What a file gives to fill a buffer that is used up. -/
theorem readsAt_filled {r : BufReader} {n room : Nat}
    (reads : ReadsAt capacity content (.buffered r) place) (used : ¬r.position < r.buf.length)
    (given : readable content r.offset room n = true) :
    ReadsAt capacity content (.buffered ⟨r.offset + n, slice content r.offset n, 0⟩) place ∧
      (slice content r.offset n).length = n ∧ place = r.offset ∧ n ≤ room := by
  cases reads with | buffered inside ahead window =>
  obtain ⟨fits, there, -⟩ := of_decide_eq_true given
  -- A buffer that is used up ends where the caller stands.
  have here : place = r.offset := by omega
  have length : (slice content r.offset n).length = n := by
    rw [slice, List.length_take, List.length_drop]
    omega
  subst here
  refine ⟨.buffered (Nat.zero_le _) ?_ ?_, length, rfl, fits⟩
  · rw [length]
    rfl
  · rw [length]
    rfl

theorem served_buffered {r : BufReader} {room : Nat}
    (reads : ReadsAt capacity content (.buffered r) place)
    {answer : Option (Poll (Except IoError Nat))}
    {polled : BufReader × Poll (Except IoError Bytes)}
    (move : r.pollRead capacity content room answer = some polled) :
    Served capacity content place room (buffered' polled) := by
  cases answer with
  | none =>
    obtain ⟨-, ⟨⟩⟩ := Option.ite_none_right_eq_some.mp move
    exact served_serve reads
  | some answer =>
    obtain ⟨used, move⟩ := Option.ite_none_left_eq_some.mp move
    rcases answer with _ | e | n
    · cases move
      exact .pending reads rfl
    · cases move
      exact .failed
    · dsimp only at move
      split at move
      · obtain ⟨given, ⟨⟩⟩ := Option.ite_none_right_eq_some.mp move
        obtain ⟨-, length, rfl, fits⟩ := readsAt_filled reads used given
        refine .bytes (.buffered (Nat.le_refl 0) ?_ rfl) ?_ ?_ rfl rfl
        · rw [length]
          rfl
        · rw [length]
        · rw [length]
          exact fits
      · obtain ⟨given, ⟨⟩⟩ := Option.ite_none_right_eq_some.mp move
        exact served_serve (readsAt_filled reads used given).1

/-- The room that the caller of a poll has. -/
def room (r : Reader) (remaining : Nat) : Nat := r.polling.getD remaining

theorem pollRead_served {r : Reader} {remaining : Nat}
    (reads : r.ReadsAt capacity content place) {met : Met (Poll (Except IoError Nat))}
    {polled : Reader × Poll (Except IoError (Option Bytes))}
    (move : r.pollRead capacity content remaining met = some polled) :
    Served capacity content place (r.room remaining) polled := by
  cases reads with
  | @«local» c polling _ reads =>
    cases met with
    | nothing => cases polling <;> cases move
    | file => cases polling <;> cases move
    | task arrived =>
      cases polling with
      | none =>
        cases move
        exact served_of_task reads (served_pollRead ..)
          (OpenFile.moves_pollRead (reads.coherent []) remaining arrived)
      | some remaining =>
        cases move
        exact served_of_task reads (served_resumeRead ..)
          (OpenFile.moves_resumeRead (reads.coherent []) rfl remaining arrived)
  | buffered inside ahead window =>
    cases met with
    | task => cases move
    | nothing =>
      obtain ⟨polled, read, rfl⟩ := Option.map_eq_some_iff.mp move
      exact served_buffered (.buffered inside ahead window) read
    | file answer =>
      obtain ⟨polled, read, rfl⟩ := Option.map_eq_some_iff.mp move
      exact served_buffered (.buffered inside ahead window) read

theorem pollRead_of_spoiled {r : Reader} {remaining : Nat} (spoiled : r.Spoiled)
    {met : Met (Poll (Except IoError Nat))} {polled : Reader × Poll (Except IoError (Option Bytes))}
    (move : r.pollRead capacity content remaining met = some polled) :
    (polled.2 = .pending ∧ polled.1.Spoiled) ∨ ∃ e, polled.2 = .ready (.error e) := by
  cases r with
  | buffered => cases spoiled
  | «local» c polling =>
    cases met with
    | nothing => cases polling <;> cases move
    | file => cases polling <;> cases move
    | task arrived =>
      cases polling with
      | none =>
        have told : c.pollRead capacity remaining arrived = (c, .pending) ∨
            ∃ e w, c.pollRead capacity remaining arrived = (w, .ready (.error e)) :=
          Vfs.pollRead_of_spoiled spoiled remaining arrived
        rcases told with waits | ⟨e, w, failed⟩
        · simp only [pollRead, waits] at move
          cases move
          exact .inl ⟨rfl, spoiled⟩
        · simp only [pollRead, failed] at move
          cases move
          exact .inr ⟨e, rfl⟩
      | some remaining =>
        rcases resumeRead_of_spoiled spoiled remaining arrived with waits | ⟨e, w, failed⟩
        · simp only [pollRead, waits] at move
          cases move
          exact .inl ⟨rfl, spoiled⟩
        · simp only [pollRead, failed] at move
          cases move
          exact .inr ⟨e, rfl⟩

theorem failed_of_pollRead {r : Reader} {remaining : Nat} {e : IoError}
    {polled : Reader × Poll (Except IoError (Option Bytes))}
    (move : r.pollRead capacity content remaining (.file (.ready (.error e))) = some polled) :
    polled.2 = .ready (.error e) := by
  cases r with
  | «local» c polling => cases polling <;> cases move
  | buffered r =>
    obtain ⟨polled, read, rfl⟩ := Option.map_eq_some_iff.mp move
    obtain ⟨-, ⟨⟩⟩ := Option.ite_none_left_eq_some.mp read
    rfl

end Reader
end Yazi.Vfs
