import Mathlib
import Yazi.Fs.Copier

/-!
What the copier of Linux leaves behind when it succeeds.

Between two calls the destination is what the source begins with, up to the one place that both
offsets and the count of written bytes stand for. A zero answer ends the loop at that place, which
is the end of the source unless a call was asked that cannot read it.
-/
namespace Yazi.Fs.Copier
open Yazi.Base Yazi.Shared

variable {src : Source} {c c' : Copier}

-- ═══════════════════════════════════════════════════════════════
-- What is reported
-- ═══════════════════════════════════════════════════════════════

/-- What was sent is what was reported, and no more than was written. -/
structure Tallied (c : Copier) : Prop where
  sum : c.sent.sum = c.reported
  le : c.reported ≤ c.written

@[simp] theorem report_offset (due : Bool) (c : Copier) : (c.report due).offset = c.offset := by
  rw [report]
  split <;> rfl

@[simp] theorem report_dest (due : Bool) (c : Copier) : (c.report due).dest = c.dest := by
  rw [report]
  split <;> rfl

@[simp] theorem report_cursor (due : Bool) (c : Copier) : (c.report due).cursor = c.cursor := by
  rw [report]
  split <;> rfl

@[simp] theorem report_written (due : Bool) (c : Copier) : (c.report due).written = c.written := by
  rw [report]
  split <;> rfl

theorem Tallied.report (tallied : Tallied c) (due : Bool) : Tallied (c.report due) := by
  rw [Copier.report]
  split
  next more =>
    constructor
    · simp only [List.sum_append, List.sum_singleton, tallied.sum]
      omega
    · exact Nat.le_refl _
  · exact tallied

theorem Tallied.advance (tallied : Tallied c) (bytes : Nat) (due : Bool) :
    Tallied (c.advance bytes due) := by
  apply Tallied.report
  exact ⟨tallied.sum, Nat.le_add_right_of_le tallied.le⟩

theorem Tallied.transfer (tallied : Tallied c) (n : Nat) (due : Bool) :
    Tallied ((c.transfer src n).advance n due) :=
  Tallied.advance (c := c.transfer src n) ⟨tallied.sum, tallied.le⟩ n due

theorem Tallied.enter (tallied : Tallied c) (phase : Phase) : Tallied { c with phase } :=
  ⟨tallied.sum, tallied.le⟩

theorem total_sent (sent : List Nat) (rest : List (Except CopyError Nat)) (n : Nat) :
    (sent.map Except.ok ++ rest).foldlM tally n = rest.foldlM tally (n + sent.sum) := by
  induction sent generalizing n with
  | nil => rfl
  | cons m sent ih =>
    rw [List.map_cons, List.cons_append, List.foldlM_cons, List.sum_cons, ← Nat.add_assoc]
    exact ih (n + m)

/-- The increments and the remainder sum to what was written. -/
theorem total_messages (tallied : Tallied c) (finished : c.phase = .ended (.ok ())) :
    total c.messages = .ok c.written := by
  have rest := Nat.add_sub_cancel' tallied.le
  rw [total, messages, finished, total_sent, tallied.sum, Nat.zero_add]
  simp only
  split
  next none =>
    rw [remaining] at none
    have all : c.reported = c.written := by omega
    rw [all]
    rfl
  next =>
    rw [← rest]
    rfl

-- ═══════════════════════════════════════════════════════════════
-- Where the files stand
-- ═══════════════════════════════════════════════════════════════

/-- Both files stand at one place, and what is before it was copied. -/
structure Level (src : Source) (c : Copier) : Prop where
  cursor : c.cursor = c.written
  offset : c.offset = c.written
  le : c.written ≤ src.content.length
  dest : c.dest = src.content.take c.written

theorem put_dest {n : Nat} {data : Bytes} (cursor : c.cursor = c.written)
    (dest : c.dest = src.content.take c.written) (le : c.written ≤ src.content.length)
    (here : data = slice src.content c.written n) :
    (c.put data).dest = src.content.take (c.written + n) := by
  have length : c.dest.length = c.written := by
    rw [dest, List.length_take]
    omega
  have place : c.cursor = c.dest.length := cursor.trans length.symm
  rw [put, place, overwrite_end, dest, here, slice, List.take_add]

theorem amount_le (reads : Bool) (limit more : Nat) (c : Copier) :
    c.amount src reads limit more ≤ src.content.length - c.offset := by
  rw [amount]
  split
  · exact Nat.min_le_right ..
  · exact Nat.zero_le _

/-- A call that can read the file moves nothing only at its end. -/
theorem amount_eq_zero {limit more : Nat} (some_ : 0 < limit) :
    c.amount src true limit more = 0 ↔ src.content.length ≤ c.offset := by
  rw [amount, if_pos rfl]
  omega

theorem Level.transfer (level : Level src c) {n : Nat} (le : n ≤ src.content.length - c.offset)
    (due : Bool) : Level src ((c.transfer src n).advance n due) := by
  have length : (slice src.content c.offset n).length = n := by
    rw [slice, List.length_take, List.length_drop]
    omega
  have offset := level.offset
  have room := level.le
  constructor
  · simp [advance, Copier.transfer, put, level.cursor, length]
  · simp [advance, Copier.transfer, put, level.offset]
  · simp only [advance, Copier.transfer, put, report_written]
    omega
  · simp only [advance, Copier.transfer, report_dest, report_written]
    exact put_dest level.cursor level.dest level.le (by rw [offset])

theorem Level.enter (level : Level src c) (phase : Phase) : Level src { c with phase } :=
  ⟨level.cursor, level.offset, level.le, level.dest⟩

/-- The part of the invariant that depends on the phase. -/
def Placed (src : Source) (c : Copier) : Prop :=
  match c.phase with
  | .copyRange start _ => Level src c ∧ start ≤ c.written ∧ (src.byRange = false → c.written = start)
  | .copySendfile _ => Level src c
  | .reading => Level src c
  | .writing buffer => c.cursor = c.written ∧ c.written + buffer.length = c.offset ∧
      c.offset ≤ src.content.length ∧ buffer = slice src.content c.written buffer.length ∧
      c.dest = src.content.take c.written
  | .setPermissions _ => Level src c
  | .ended (.ok ()) => c.dest = src.content.take c.written ∧ c.written ≤ src.content.length
  | .ended (.error _) => True
  | _ => c.offset = 0 ∧ c.cursor = 0 ∧ c.written = 0

structure Sound (src : Source) (c : Copier) : Prop where
  tallied : Tallied c
  placed : Placed src c

theorem sound_fail (tallied : Tallied c) (e : CopyError) : Sound src (c.fail e) :=
  ⟨⟨tallied.sum, tallied.le⟩, trivial⟩

theorem sound_finish (tallied : Tallied c) (level : Level src c) : Sound src c.finish :=
  ⟨⟨tallied.sum, tallied.le⟩, level.dest, level.le⟩

theorem sound_startSendfile (tallied : Tallied c) (level : Level src c) :
    Sound src c.startSendfile := by
  rw [startSendfile]
  split
  · exact ⟨tallied.enter _, level.enter _⟩
  · exact ⟨tallied.enter _, level.enter _⟩

theorem sound_startRange (tallied : Tallied c) (level : Level src c) : Sound src c.startRange := by
  rw [startRange]
  split
  · exact sound_startSendfile tallied level
  · exact ⟨tallied.enter _, level.enter _, Nat.le_refl _, fun _ => rfl⟩

-- ═══════════════════════════════════════════════════════════════
-- One round of each loop
-- ═══════════════════════════════════════════════════════════════

/-- The copier is sound, and if it succeeded then with the whole source, exactly on a condition. -/
def Ends (src : Source) (c : Copier) (ok : Bool) : Prop :=
  Sound src c ∧ ((c.phase = .ended (.ok ()) → c.written = src.content.length) ↔ ok = true)

/-- Nothing is over yet. -/
theorem Ends.going (sound : Sound src c) (going : c.phase ≠ .ended (.ok ())) : Ends src c true :=
  ⟨sound, iff_of_true (fun finished => absurd finished going) rfl⟩

theorem ends_fail (tallied : Tallied c) (e : CopyError) : Ends src (c.fail e) true :=
  .going (sound_fail tallied e) nofun

theorem ends_startSendfile (tallied : Tallied c) (level : Level src c) :
    Ends src c.startSendfile true := by
  apply Ends.going (sound_startSendfile tallied level)
  rw [startSendfile]
  split <;> nofun

theorem ends_startRange (tallied : Tallied c) (level : Level src c) :
    Ends src c.startRange true := by
  apply Ends.going (sound_startRange tallied level)
  rw [startRange]
  split
  · rw [startSendfile]
    split <;> nofun
  · nofun

theorem ends_onCopyRange {start : Nat} {avail : Avail} (turn : Turn) (tallied : Tallied c)
    (level : Level src c) (begun : start ≤ c.written)
    (blind : src.byRange = false → c.written = start) :
    Ends src (c.onCopyRange src start avail turn) true := by
  rw [onCopyRange]
  split
  · exact ends_fail tallied _
  split
  · next more _ =>
    -- What was found out of the call changes neither file.
    obtain ⟨s, same, tallied', level', kept⟩ : ∃ s,
        (if avail = .unprobed then { c with copyRange := .available } else c) = s ∧
          Tallied s ∧ Level src s ∧ s.written = c.written := by
      refine ⟨_, rfl, ?_⟩
      split
      · exact ⟨⟨tallied.sum, tallied.le⟩, ⟨level.cursor, level.offset, level.le, level.dest⟩, rfl⟩
      · exact ⟨tallied, level, rfl⟩
    simp only [same]
    split
    · next zero =>
      split
      · next moved =>
        have reads : src.byRange = true := by
          by_contra blinded
          have still := blind (Bool.eq_false_iff.mpr blinded)
          omega
        rw [reads, amount_eq_zero (by decide)] at zero
        refine ⟨sound_finish tallied' level', iff_of_true (fun _ => ?_) rfl⟩
        have offset := level'.offset
        have le := level'.le
        change s.written = _
        omega
      · exact ends_startSendfile tallied' level'
    · next some_ =>
      have reads : src.byRange = true := by
        by_contra blinded
        rw [amount, if_neg blinded] at some_
        exact some_ rfl
      have next := level'.transfer (amount_le src.byRange copyChunk more s) turn.due
      apply Ends.going
      · refine ⟨(tallied'.transfer _ _).enter _, next.enter _, ?_, ?_⟩
        · simp only [advance, report_written, transfer, put]
          omega
        · simp [reads]
      · nofun
  · next e _ =>
    split
    · exact ends_startSendfile tallied level
    split
    · split
      · next s stored =>
        simp only [copyRangeFallback, Option.map_eq_some_iff] at stored
        obtain ⟨asks, -, rfl⟩ := stored
        split
        · exact ends_startSendfile ⟨tallied.sum, tallied.le⟩
            ⟨level.cursor, level.offset, level.le, level.dest⟩
        · exact ends_startSendfile tallied level
      · exact ends_fail tallied _
    · exact ends_fail tallied _

theorem ends_onCopySendfile {start : Nat} (turn : Turn) (tallied : Tallied c)
    (level : Level src c) :
    Ends src (c.onCopySendfile src start turn)
      (turn.closed || match turn.reply with
        | .moved _ => src.bySendfile || decide (src.content.length ≤ c.offset)
        | .failed _ => true) := by
  have offset := level.offset
  have le := level.le
  rw [onCopySendfile]
  cases closed : turn.closed with
  | true =>
    rw [if_pos rfl, Bool.true_or]
    exact ends_fail tallied _
  | false =>
  rw [if_neg (by simp), Bool.false_or]
  cases turn.reply with
  | moved more =>
    simp only
    split
    · next zero =>
      refine ⟨sound_finish tallied level, ?_⟩
      cases reads : src.bySendfile with
      | true =>
        rw [reads, amount_eq_zero (by decide)] at zero
        refine iff_of_true (fun _ => ?_) (Bool.true_or _)
        change c.written = _
        omega
      | false =>
        -- The call cannot read the file: it is over wherever it was asked.
        rw [Bool.false_or, decide_eq_true_iff]
        constructor
        · intro whole
          have all : c.written = src.content.length := whole rfl
          omega
        · intro past _
          change c.written = _
          omega
    · next some_ =>
      have reads : src.bySendfile = true := by
        by_contra blinded
        rw [amount, if_neg blinded] at some_
        exact some_ rfl
      rw [reads, Bool.true_or]
      have next := level.transfer (amount_le true copyChunk more c) turn.due
      exact .going ⟨(tallied.transfer _ _).enter _, next.enter _⟩ nofun
  | failed e =>
    simp only
    have reading : Ends src { c with phase := .reading } true :=
      .going ⟨tallied.enter _, level.enter _⟩ nofun
    split
    · exact reading
    split
    · split
      · exact .going ⟨⟨tallied.sum, tallied.le⟩,
          ⟨level.cursor, level.offset, level.le, level.dest⟩⟩ nofun
      split
      · exact reading
      · exact ends_fail tallied _
    · exact ends_fail tallied _

theorem ends_onRead (turn : Turn) (going : c.phase = .reading) (tallied : Tallied c)
    (level : Level src c) : Ends src (c.onRead src turn) true := by
  have offset := level.offset
  have le := level.le
  rw [onRead]
  split
  · exact ends_fail tallied _
  split
  · next more _ =>
    have least : c.amount src true bufferSize more ≤ src.content.length - c.offset :=
      amount_le true bufferSize more c
    simp only
    split
    · next zero =>
      rw [amount_eq_zero (by decide)] at zero
      refine ⟨sound_finish tallied level, iff_of_true (fun _ => ?_) rfl⟩
      change c.written = _
      omega
    · have length : (slice src.content c.offset (c.amount src true bufferSize more)).length =
          c.amount src true bufferSize more := by
        rw [slice, List.length_take, List.length_drop]
        omega
      refine .going ⟨⟨tallied.sum, tallied.le⟩, level.cursor, ?_, ?_, ?_, level.dest⟩
        (by rintro ⟨⟩)
      · simp only [length]
        omega
      · simp only
        omega
      · simp only
        rw [length, offset]
  · exact .going ⟨tallied, by rw [Placed, going]; exact level⟩ (by rw [going]; rintro ⟨⟩)
  · exact ends_fail tallied _

theorem ends_onWrite {buffer : Bytes} (turn : Turn) (going : c.phase = .writing buffer)
    (tallied : Tallied c) (placed : Placed src c) :
    Ends src (c.onWrite buffer turn) true := by
  rw [onWrite]
  split
  · exact ends_fail tallied _
  split
  · next more _ =>
    simp only
    split
    · exact ends_fail tallied _
    · next some_ =>
      rw [Placed, going] at placed
      obtain ⟨cursor, whole, le, here, dest⟩ := placed
      obtain ⟨n, bound, taken⟩ : ∃ n, n ≤ buffer.length ∧ min more buffer.length = n :=
        ⟨_, Nat.min_le_right .., rfl⟩
      rw [taken]
      have length : (buffer.take n).length = n := by
        rw [List.length_take]
        omega
      have piece : buffer.take n = slice src.content c.written n := by
        rw [here, slice_take, Nat.min_eq_left bound]
      have rest : buffer.drop n = slice src.content (c.written + n) (buffer.length - n) := by
        conv_lhs => rw [here, slice_drop]
      have dest' := put_dest cursor dest (by omega) piece
      have tallied' : Tallied ((c.put (buffer.take n)).advance n turn.due) :=
        Tallied.advance (c := c.put (buffer.take n)) ⟨tallied.sum, tallied.le⟩ n turn.due
      by_cases all : buffer.drop n = []
      · have equal : buffer.length ≤ n := by
          have none := congrArg List.length all
          rw [List.length_drop, List.length_nil] at none
          omega
        rw [if_pos all]
        refine .going ⟨tallied'.enter _, ?_, ?_, ?_, ?_⟩ nofun
        · simp only [advance, report_cursor, report_written, put, length]
          omega
        · simp only [advance, report_offset, report_written, put]
          omega
        · simp only [advance, report_written, put]
          omega
        · simp only [advance, report_dest, report_written]
          exact dest'
      · rw [if_neg all]
        refine .going ⟨tallied'.enter _, ?_, ?_, ?_, ?_, ?_⟩ nofun
        · simp only [advance, report_cursor, report_written, put, length]
          omega
        · simp only [advance, report_offset, report_written, put, List.length_drop]
          omega
        · simp only [advance, report_offset, put]
          exact le
        · simp only [advance, report_written, put, List.length_drop]
          exact rest
        · simp only [advance, report_dest, report_written]
          exact dest'
  · exact .going ⟨tallied, placed⟩ (by rw [going]; nofun)
  · exact ends_fail tallied _

-- ═══════════════════════════════════════════════════════════════
-- A step
-- ═══════════════════════════════════════════════════════════════

/-- A call that cannot read the file is not answered before its end with zero as if it were over. -/
def ok (src : Source) (c : Copier) (answer : Answer) : Bool :=
  match c.phase, answer with
  | .copySendfile _, .sendfile turn =>
    turn.closed || match turn.reply with
      | .moved _ => src.bySendfile || decide (src.content.length ≤ c.offset)
      | .failed _ => true
  | _, _ => true

/-- What other copiers store is not part of the files. -/
theorem placed_store (placed : Placed src c) (copyRange : Avail) (sendfile : Bool) :
    Placed src { c with copyRange, sendfile } := by
  have level : Level src c → Level src { c with copyRange, sendfile } := fun level =>
    ⟨level.cursor, level.offset, level.le, level.dest⟩
  obtain ⟨phase, offset, dest, cursor, written, reported, sent, _, _⟩ := c
  cases phase with
  | copyRange start avail => exact ⟨level placed.1, placed.2⟩
  | copySendfile start => exact level placed
  | reading => exact level placed
  | setPermissions len => exact level placed
  | ended result => cases result <;> exact placed
  | _ => exact placed

theorem ends_attempt {closed : Bool} {error : Option Errno} {next : Phase} (sound : Sound src c)
    (going : c.phase ≠ .ended (.ok ())) (goes : next ≠ .ended (.ok ()))
    (opened : Placed src { c with phase := next }) :
    Ends src (c.attempt closed error next) true := by
  unfold attempt
  split
  · exact ends_fail sound.tallied _
  split
  · exact .going ⟨sound.tallied.enter _, opened⟩ goes
  · exact .going sound going
  · exact ends_fail sound.tallied _

/-- Where the copier was not over, every step keeps it sound, and over only at the end of the
source unless it took a zero answer for that. -/
theorem ends_step {answer : Answer} (sound : Sound src c)
    (whole : c.phase = .ended (.ok ()) → c.written = src.content.length)
    (move : c.step src answer = some c') : Ends src c' (ok src c answer) := by
  obtain ⟨tallied, placed⟩ := sound
  unfold step at move
  split at move
  next copyRange sendfile =>
    cases move
    have fine : ok src c (.store copyRange sendfile) = true := by
      unfold ok
      split <;> simp_all
    rw [fine]
    exact ⟨⟨⟨tallied.sum, tallied.le⟩, placed_store placed _ _⟩, iff_of_true whole rfl⟩
  next closed going =>
    cases move
    simp only [ok, going]
    rw [Placed, going] at placed
    split
    · exact ends_fail tallied _
    · exact .going ⟨tallied.enter _, placed⟩ nofun
  next closed error going =>
    cases move
    simp only [ok, going]
    exact ends_attempt ⟨tallied, placed⟩ (by rw [going]; nofun) nofun
      (by rw [Placed, going] at placed; exact placed)
  next e going =>
    cases move
    simp only [ok, going]
    exact ends_fail tallied _
  next isFile len going =>
    cases move
    simp only [ok, going]
    rw [Placed, going] at placed
    split
    · exact .going ⟨tallied.enter _, placed⟩ nofun
    · exact ends_fail tallied _
  next len closed error going =>
    cases move
    simp only [ok, going]
    exact ends_attempt ⟨tallied, placed⟩ (by rw [going]; nofun) nofun
      (by rw [Placed, going] at placed; exact placed)
  next e going =>
    cases move
    simp only [ok, going]
    exact ends_fail tallied _
  next len going =>
    cases move
    simp only [ok, going]
    rw [Placed, going] at placed
    obtain ⟨offset, cursor, written⟩ := placed
    refine .going ⟨⟨tallied.sum, tallied.le⟩, ?_, ?_, ?_, ?_⟩ nofun
    · simp only [cursor, written]
    · simp only [offset, written]
    · simp only [written]
      exact Nat.zero_le _
    · simp only [written, List.take_zero]
  next len error going =>
    cases move
    simp only [ok, going]
    rw [Placed, going] at placed
    split
    · exact ends_fail tallied _
    split
    · exact .going ⟨tallied.enter _, placed.enter _⟩ nofun
    · exact ends_startRange tallied placed
  next start avail turn going =>
    cases move
    simp only [ok, going]
    rw [Placed, going] at placed
    exact ends_onCopyRange turn tallied placed.1 placed.2.1 placed.2.2
  next start turn going =>
    cases move
    simp only [ok, going]
    rw [Placed, going] at placed
    exact ends_onCopySendfile turn tallied placed
  next turn going =>
    cases move
    simp only [ok, going]
    have level : Level src c := by
      rw [Placed, going] at placed
      exact placed
    exact ends_onRead turn going tallied level
  next buffer turn going =>
    cases move
    simp only [ok, going]
    exact ends_onWrite turn going tallied placed
  next => cases move

-- ═══════════════════════════════════════════════════════════════
-- Runs
-- ═══════════════════════════════════════════════════════════════

/-- The bytes are moved. -/
def Phase.copying : Phase → Bool
  | .copyRange .. | .copySendfile .. | .reading | .writing _ => true
  | _ => false

/-- The destination is what was copied so far, neither more nor less; and where the copier
succeeded it is the source, and what is reported sums to its length. -/
def Copied (src : Source) (c : Copier) : Prop :=
  (c.phase.copying = true → c.dest = src.content.take c.written) ∧
    (c.phase = .ended (.ok ()) →
      c.dest = src.content ∧ total c.messages = .ok src.content.length)

theorem copied_iff (sound : Sound src c) :
    Copied src c ↔ (c.phase = .ended (.ok ()) → c.written = src.content.length) := by
  obtain ⟨tallied, placed⟩ := sound
  constructor
  · intro copied finished
    have same := (copied.2 finished).2
    rw [total_messages tallied finished] at same
    exact Except.ok.inj same
  · intro whole
    refine ⟨fun copying => ?_, fun finished => ?_⟩
    · rw [Placed] at placed
      cases going : c.phase with
      | copyRange start avail =>
        rw [going] at placed
        exact placed.1.dest
      | copySendfile start =>
        rw [going] at placed
        exact placed.dest
      | reading =>
        rw [going] at placed
        exact placed.dest
      | writing buffer =>
        rw [going] at placed
        exact placed.2.2.2.2
      | _ => simp [going, Phase.copying] at copying
    · rw [Placed, finished] at placed
      rw [total_messages tallied finished, whole finished]
      refine ⟨?_, rfl⟩
      rw [placed.1, whole finished, List.take_length]

theorem sound_step {answer : Answer} (sound : Sound src c) (move : c.step src answer = some c') :
    Sound src c' := by
  by_cases finished : c.phase = .ended (.ok ())
  · cases answer with
    | store copyRange sendfile =>
      have same : c.step src (.store copyRange sendfile) = some { c with copyRange, sendfile } := by
        unfold step
        split <;> simp_all
      cases same.symm.trans move
      exact ⟨⟨sound.tallied.sum, sound.tallied.le⟩, placed_store sound.placed _ _⟩
    | _ => simp [step, finished] at move
  · exact (ends_step sound (fun ended => absurd ended finished) move).1

/-- A copier that was just spawned, whatever was at the destination and is known of the calls. -/
def spawn (prior : Bytes) (copyRange : Avail) (sendfile : Bool) : Copier :=
  { dest := prior, copyRange, sendfile }

/-- In every run, the destination is the source whenever the copier succeeded, and what is
reported sums to its length, if and only if `sendfile` never answers with zero before the end of
the source. -/
theorem copied_throughout_iff (src : Source) (prior : Bytes) (copyRange : Avail) (sendfile : Bool)
    {answers : List Answer} {c : Copier}
    (run : Run (step src) (spawn prior copyRange sendfile) answers c) :
    Throughout (step src) (Copied src) (spawn prior copyRange sendfile) answers ↔
      Run (restrict (step src) (ok src)) (spawn prior copyRange sendfile) answers c := by
  have initial : Sound src (spawn prior copyRange sendfile) :=
    ⟨⟨rfl, Nat.le_refl _⟩, rfl, rfl, rfl⟩
  apply throughout_iff (fun _ _ _ => sound_step) ?_ run initial
  · exact (copied_iff initial).mpr nofun
  · intro c answer c' sound copied move
    have ends := ends_step sound ((copied_iff sound).mp copied) move
    rw [copied_iff ends.1]
    exact ends.2

/-- A file is opened for either side. -/
def opened (len : Nat) : List Answer :=
  [.check false, .openSrc false (some .again), .openSrc false none, .fileMeta (.ok (true, len)),
    .openDist false none, .setLen none, .setPermissions (some .perm)]

/-- Each way copies one byte of three, and two of them stop in the middle. -/
def handedOver : List Answer :=
  opened 3 ++
    [.copyFileRange { reply := .moved 0, due := true }, .copyFileRange { reply := .failed .overflow },
      .store .available true, .sendfile { reply := .moved 0 },
      .sendfile { reply := .failed .overflow }, .read { reply := .failed .intr },
      .read { reply := .moved 9 }, .write { reply := .failed .intr }, .write { reply := .moved 1 },
      .read { reply := .moved 0 }]

theorem copied_throughout_handedOver :
    let src : Source := ⟨text "abc", true, true⟩
    ∃ c, exec (step src) (spawn (text "old") .unprobed true) handedOver = some c ∧
      c.dest = text "abc" ∧ c.messages = [.ok 1, .ok 2] ∧
      Throughout (step src) (Copied src) (spawn (text "old") .unprobed true) handedOver := by
  intro src
  let c : Copier :=
    { phase := .ended (.ok ()), offset := 3, dest := text "abc", cursor := 3, written := 3,
      reported := 1, sent := [1], copyRange := .available, sendfile := true }
  have run : exec (step ⟨text "abc", true, true⟩) (spawn (text "old") .unprobed true) handedOver =
      some c := by decide +kernel
  have fine : exec (restrict (step ⟨text "abc", true, true⟩) (ok ⟨text "abc", true, true⟩))
      (spawn (text "old") .unprobed true) handedOver = some c := by decide +kernel
  exact ⟨c, run, rfl, by decide +kernel,
    (copied_throughout_iff src _ _ _ (run_of_exec run)).mpr (run_of_exec fine)⟩

/-- Neither call can read the file, and the second is taken to be at its end. -/
theorem unread_copied : ¬∀ (src : Source) (prior : Bytes) (copyRange : Avail) (sendfile : Bool)
    (answers : List Answer) (c : Copier), Run (step src) (spawn prior copyRange sendfile) answers c →
      Throughout (step src) (Copied src) (spawn prior copyRange sendfile) answers := by
  intro all
  have run : exec (step ⟨text "abc", false, false⟩) (spawn [] .unprobed true)
      (opened 4096 ++ [.copyFileRange { reply := .moved 8 }, .sendfile { reply := .moved 8 }]) =
        some { phase := .ended (.ok ()), dest := [], copyRange := .available, sendfile := true } := by
    decide +kernel
  have copied := all ⟨text "abc", false, false⟩ [] .unprobed true _ _ (run_of_exec run) _ [] _
    (List.append_nil _).symm (run_of_exec run)
  exact absurd (copied.2 rfl).1 (by decide)

end Yazi.Fs.Copier
