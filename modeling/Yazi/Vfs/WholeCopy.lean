import Yazi.Vfs.Chunks
import Yazi.Vfs.Sequential

/-!
A copy that succeeds is a copy.

Every chunk that ends well has brought its range over, and the ranges make up the source. A chunk
that fails cannot end well any more, nor can the copy then.
-/
namespace Yazi.Vfs
open Yazi.Base Yazi.Shared Yazi.Fs

-- ═══════════════════════════════════════════════════════════════
-- Failures
-- ═══════════════════════════════════════════════════════════════

def Chunk.Action.fatal : Chunk.Action → Bool
  | .pollRead (.file (.ready (.error _))) | .pollWrite (.file (.failed _))
  | .pollShutdown (.file (.failed _)) => true
  | .reader (.failed _) | .reader .cancelled | .writer (.failed _) | .writer .cancelled => true
  | .remote .lose => true
  | _ => false

def ProgressiveCopier.Action.fatal : ProgressiveCopier.Action → Bool
  | .open (some _) _ | .metadata (some _) | .create (some _) _ | .setLen (some _)
  | .start (some _) => true
  | .chunk _ action => action.fatal
  | .sequential action => action.fatal
  | _ => false

namespace Chunk
variable {sizes : Sizes} {src : Source} {dest : Bytes} {c : Chunk}

/-- The chunk has failed, or will learn that it has. -/
inductive Doomed (c : Chunk) : Prop where
  | broken (broken : c.broken = true)
  | writer (spoiled : c.writer.Spoiled)
  | reader (phase : c.phase = .reading) (spoiled : c.reader.Spoiled)

theorem not_running_of_spoiled {w : FileCursor} {t : Transfer} (spoiled : Spoiled w)
    (task : w.task = some t) : t.joined ≠ none := by
  obtain ⟨u, same, ended⟩ := spoiled
  cases task.symm.trans same
  rcases ended with cancelled | ⟨e, failed⟩
  · simp [cancelled]
  · simp [failed]

theorem busy_of_spoiled {r : Reader} (spoiled : r.Spoiled) : r.task.isSome = true := by
  cases r with
  | «local» c polling =>
    obtain ⟨t, task, -⟩ := spoiled
    exact Option.isSome_iff_exists.mpr ⟨t, task⟩
  | buffered => cases spoiled

theorem writer_served (c : Chunk) (polled : Reader × Poll (Except IoError (Option Bytes))) :
    (c.served polled).writer = c.writer := by
  simp only [served]
  split
  · rfl
  · rfl
  · rfl
  · split
    · rfl
    · rfl

theorem writer_wrote (c : Chunk) (n : Nat) (rest : Bytes)
    (polled : Writer × Poll (Except IoError (Option Nat))) :
    (c.wrote n rest polled).1.writer = polled.1 := by
  simp only [wrote]
  split
  · rfl
  · rfl
  · rfl
  · split
    · rfl
    · split
      · rfl
      · rfl

theorem doomed_pollRead {moved : Chunk × Bytes × Nat} {met : Met (Poll (Except IoError Nat))}
    (sound : c.Sound sizes src dest) (doomed : c.Doomed)
    (move : c.step sizes src dest (.pollRead met) = some moved) : moved.1.Doomed := by
  cases phase : c.phase with
  | reading =>
    have held := sound.phase
    simp only [PhaseSound, phase] at held
    simp only [step, phase] at move
    split at move
    next used =>
      cases met with
      | nothing =>
        cases move
        cases doomed with
        | broken broken => simp [Chunk.broken, phase] at broken
        | writer spoiled => exact .writer spoiled
        | reader _ spoiled =>
          have := held.2.1 (busy_of_spoiled spoiled)
          omega
      | task => cases move
      | file => cases move
    next more =>
      obtain ⟨polled, read, rfl⟩ := Option.map_eq_some_iff.mp move
      cases doomed with
      | broken broken => simp [Chunk.broken, phase] at broken
      | writer spoiled => exact .writer (by rw [writer_served]; exact spoiled)
      | reader _ spoiled =>
        obtain ⟨reader, result⟩ := polled
        rcases Reader.pollRead_of_spoiled spoiled read with ⟨rfl, still⟩ | ⟨e, rfl⟩
        · exact .reader phase still
        · exact .broken rfl
  | _ => simp [step, phase] at move

theorem doomed_pollWrite {moved : Chunk × Bytes × Nat} {met : Met RwFile.Answer}
    (sound : c.Sound sizes src dest) (doomed : c.Doomed)
    (move : c.step sizes src dest (.pollWrite met) = some moved) : moved.1.Doomed := by
  cases phase : c.phase with
  | writing n rest =>
    have held := sound.phase
    simp only [PhaseSound, phase] at held
    simp only [step, phase, Option.map_eq_some_iff] at move
    obtain ⟨polled, write, rfl⟩ := move
    cases doomed with
    | broken broken => simp [Chunk.broken, phase] at broken
    | reader reading => cases phase.symm.trans reading
    | writer spoiled =>
      have small := Nat.lt_of_le_of_lt held.2.small sizes.buffer_lt
      cases Writer.pollWrite_of_spoiled spoiled small write with
      | pending waits => exact .writer waits.1
      | onward goes => exact .writer goes.1
      | ended ends => exact .writer (by rw [writer_wrote]; exact ends.2.1)
      | failed => exact .broken rfl
  | _ => simp [step, phase] at move

theorem doomed_pollShutdown {moved : Chunk × Bytes × Nat} {met : Met RwFile.Answer}
    (doomed : c.Doomed) (move : c.step sizes src dest (.pollShutdown met) = some moved) :
    moved.1.Doomed := by
  cases phase : c.phase with
  | flushing =>
    simp only [step, phase, Option.map_eq_some_iff] at move
    obtain ⟨polled, shuts, rfl⟩ := move
    cases doomed with
    | broken broken => simp [Chunk.broken, phase] at broken
    | reader reading => cases phase.symm.trans reading
    | writer spoiled =>
      cases Writer.pollShutdown_of_spoiled spoiled shuts with
      | pending waits => exact .writer waits.1
      | onward goes => exact .writer goes.1
      | ended ends => cases ends
      | failed => exact .broken rfl
  | aborting e =>
    simp only [step, phase, Option.map_eq_some_iff] at move
    obtain ⟨⟨writer, result⟩, -, rfl⟩ := move
    cases result with
    | pending => exact .broken rfl
    | ready => exact .broken rfl
  | _ => simp [step, phase] at move

theorem doomed_step {moved : Chunk × Bytes × Nat} {action : Action}
    (sound : c.Sound sizes src dest) (doomed : c.Doomed)
    (move : c.step sizes src dest action = some moved) : moved.1.Doomed := by
  cases action with
  | pollRead met => exact doomed_pollRead sound doomed move
  | pollWrite met => exact doomed_pollWrite sound doomed move
  | pollShutdown met => exact doomed_pollShutdown doomed move
  | reader action =>
    rw [step] at move
    split at move
    next cursor polling is =>
      obtain ⟨background, move⟩ := Option.ite_none_right_eq_some.mp move
      obtain ⟨f, read, rfl⟩ := Option.map_eq_some_iff.mp move
      obtain ⟨t, task, going⟩ := running_of_step background read
      cases doomed with
      | broken broken => exact .broken broken
      | writer spoiled => exact .writer spoiled
      | reader _ spoiled =>
        rw [is] at spoiled
        exact absurd going (not_running_of_spoiled spoiled task)
    next => cases move
  | writer action =>
    rw [step] at move
    split at move
    next cursor is =>
      obtain ⟨background, move⟩ := Option.ite_none_right_eq_some.mp move
      obtain ⟨f, written, rfl⟩ := Option.map_eq_some_iff.mp move
      obtain ⟨t, task, going⟩ := running_of_step background written
      cases doomed with
      | broken broken => exact .broken broken
      | writer spoiled =>
        rw [is] at spoiled
        exact absurd going (not_running_of_spoiled spoiled task)
      | reader phase spoiled => exact .reader phase spoiled
    next => cases move
  | remote action =>
    rw [step] at move
    split at move
    next => cases move
    next w is =>
      obtain ⟨moved, stepped, rfl⟩ := Option.map_eq_some_iff.mp move
      cases doomed with
      | broken broken => exact .broken broken
      | reader phase spoiled => exact .reader phase spoiled
      | writer spoiled =>
        rw [is] at spoiled
        cases RwFile.stepped_of_step stepped with
        | wrote => exact .writer spoiled
        | lost => exact .writer rfl

/-- A task that fails spoils its cursor. -/
theorem spoiled_of_step {capacity : Nat} {content : Bytes} {w : FileCursor}
    {polling : Option Nat} {action : OpenFile.Action} {f : OpenFile}
    (fails : (∃ code, action = .failed code) ∨ action = .cancelled)
    (move : OpenFile.step capacity ⟨w, content, polling, []⟩ action = some f) :
    Spoiled f.cursor := by
  rcases fails with ⟨code, rfl⟩ | rfl
  · obtain ⟨t, -, rfl⟩ := Option.map_eq_some_iff.mp move
    exact ⟨_, rfl, .inr ⟨_, rfl⟩⟩
  · obtain ⟨t, -, ended⟩ := Option.bind_eq_some_iff.mp move
    obtain ⟨-, ⟨⟩⟩ := Option.ite_none_left_eq_some.mp ended
    exact ⟨_, rfl, .inl rfl⟩

/-- A file that answers with an error makes the chunk fail. -/
theorem broken_of_pollRead {moved : Chunk × Bytes × Nat} {e : IoError}
    (move : c.step sizes src dest (.pollRead (.file (.ready (.error e)))) = some moved) :
    moved.1.broken = true := by
  cases phase : c.phase with
  | reading =>
    simp only [step, phase] at move
    split at move
    · cases move
    · obtain ⟨⟨reader, result⟩, read, rfl⟩ := Option.map_eq_some_iff.mp move
      cases Reader.failed_of_pollRead read
      rfl
  | _ => simp [step, phase] at move

theorem broken_of_pollWrite {moved : Chunk × Bytes × Nat} {e : IoError}
    (move : c.step sizes src dest (.pollWrite (.file (.failed e))) = some moved) :
    moved.1.broken = true := by
  cases phase : c.phase with
  | writing n rest =>
    simp only [step, phase, Option.map_eq_some_iff] at move
    obtain ⟨polled, write, rfl⟩ := move
    obtain ⟨w, rfl⟩ := Writer.failed_of_pollWrite write
    rfl
  | _ => simp [step, phase] at move

theorem broken_of_pollShutdown {moved : Chunk × Bytes × Nat} {e : IoError}
    (move : c.step sizes src dest (.pollShutdown (.file (.failed e))) = some moved) :
    moved.1.broken = true := by
  cases phase : c.phase with
  | flushing =>
    simp only [step, phase, Option.map_eq_some_iff] at move
    obtain ⟨polled, shuts, rfl⟩ := move
    obtain ⟨w, rfl⟩ := Writer.failed_of_pollShutdown shuts
    rfl
  | aborting e =>
    simp only [step, phase, Option.map_eq_some_iff] at move
    obtain ⟨⟨writer, result⟩, -, rfl⟩ := move
    cases result with
    | pending => rfl
    | ready => rfl
  | _ => simp [step, phase] at move

theorem doomed_of_fatal {moved : Chunk × Bytes × Nat} {action : Action}
    (sound : c.Sound sizes src dest) (fatal : action.fatal = true)
    (move : c.step sizes src dest action = some moved) : moved.1.Doomed := by
  match action with
  | .pollRead (.file (.ready (.error e))) => exact .broken (broken_of_pollRead move)
  | .pollWrite (.file (.failed e)) => exact .broken (broken_of_pollWrite move)
  | .pollShutdown (.file (.failed e)) => exact .broken (broken_of_pollShutdown move)
  | .writer action =>
    rw [step] at move
    split at move
    next cursor is =>
      obtain ⟨background, move⟩ := Option.ite_none_right_eq_some.mp move
      obtain ⟨f, written, rfl⟩ := Option.map_eq_some_iff.mp move
      refine .writer (spoiled_of_step ?_ written)
      cases action with
      | failed code => exact .inl ⟨code, rfl⟩
      | cancelled => exact .inr rfl
      | _ => cases fatal
    next => cases move
  | .remote .lose =>
    rw [step] at move
    split at move
    next => cases move
    next w is =>
      obtain ⟨moved, stepped, rfl⟩ := Option.map_eq_some_iff.mp move
      obtain ⟨-, ⟨⟩⟩ := Option.ite_none_left_eq_some.mp stepped
      exact .writer rfl
  | .reader action =>
    rw [step] at move
    split at move
    next cursor polling is =>
      obtain ⟨background, move⟩ := Option.ite_none_right_eq_some.mp move
      obtain ⟨f, read, rfl⟩ := Option.map_eq_some_iff.mp move
      obtain ⟨t, task, -⟩ := running_of_step background read
      have spoiled : Spoiled f.cursor := by
        refine spoiled_of_step ?_ read
        cases action with
        | failed code => exact .inl ⟨code, rfl⟩
        | cancelled => exact .inr rfl
        | _ => cases fatal
      -- A task reads only while the chunk waits for it, or has failed already.
      have busy : c.reader.task ≠ none := by
        rw [is]
        exact Option.ne_none_iff_exists'.mpr ⟨t, task⟩
      have held := sound.phase
      rw [PhaseSound] at held
      split at held
      next phase => exact .reader phase spoiled
      next => exact absurd held.2.bare busy
      next => exact absurd held.2 busy
      next phase => exact .broken (by simp [broken, phase])
      next phase => exact .broken (by simp [broken, phase])
      next => exact absurd held.bare busy
    next => cases move

/-- What is doomed does not succeed. -/
theorem not_done_of_doomed (sound : c.Sound sizes src dest) (doomed : c.Doomed) :
    c.phase ≠ .ended (.ok ()) := by
  intro phase
  have held := sound.phase
  simp only [PhaseSound, phase] at held
  cases doomed with
  | broken broken => simp [Chunk.broken, phase] at broken
  | reader reading => cases phase.symm.trans reading
  | writer spoiled => exact Writer.not_still_of_spoiled spoiled held.still

end Chunk

-- ═══════════════════════════════════════════════════════════════
-- The copy
-- ═══════════════════════════════════════════════════════════════

namespace ProgressiveCopier
variable {sizes : Sizes} {src : Source} {prior : Bytes} {remote : Bool} {c d : ProgressiveCopier}

/-- What was reported and what is still to be. -/
def total (c : ProgressiveCopier) : Nat := c.sent.sum + c.acc

/-- The chunks that were begun, each in its place. -/
def Chunked (sizes : Sizes) (src : Source) (chunks : List Chunk) (dest : Bytes) : Prop :=
  ∀ i chunk, chunks[i]? = some chunk → chunk.index = i ∧ i < sizes.count src.len ∧
    dest.length = src.len ∧ chunk.Sound sizes src dest

/-- As long as no chunk has failed, what was counted is reported, or will be. -/
def Tallied (sizes : Sizes) (src : Source) (c : ProgressiveCopier) : Prop :=
  (∀ chunk ∈ c.chunks, chunk.broken = false) →
    c.total = (c.chunks.map (Chunk.counted sizes src)).sum

/-- The source is in the destination, as far as it was to be copied. -/
structure Whole (src : Source) (c : ProgressiveCopier) : Prop where
  sequential : c.chunks = [] → c.dest = src.content ∧ c.total = src.content.length
  chunked : c.chunks ≠ [] →
    src.len ≤ src.content.length ∧ c.dest = src.content.take src.len ∧ c.total = src.len

def PhaseSound (sizes : Sizes) (src : Source) (c : ProgressiveCopier) : Prop :=
  match c.phase with
  | .opening | .statting | .creating _ => c.chunks = [] ∧ c.total = 0
  | .sizing => c.chunks = [] ∧ c.total = 0 ∧ src.len ≠ 0
  | .running => Tallied sizes src c ∧ c.dest.length = src.len ∧ src.len ≠ 0
  | .sequential s => c.chunks = [] ∧ s.Sound src c.dest c.total ∧ ∀ result, s.phase ≠ .ended result
  | .reporting (.ok ()) => Whole src c
  | .ended (.ok ()) => Whole src c ∧ c.acc = 0
  | .reporting (.error _) | .ended (.error _) | .dropped => True

structure Sound (sizes : Sizes) (src : Source) (c : ProgressiveCopier) : Prop where
  chunked : Chunked sizes src c.chunks c.dest
  phase : PhaseSound sizes src c

theorem report_total (c : ProgressiveCopier) : c.report.total = c.total := by
  rw [report, total]
  split
  · simp [total]
  · rfl

theorem report_acc (c : ProgressiveCopier) : c.report.acc = 0 := by
  rw [report]
  split
  · rfl
  next none => exact Nat.eq_zero_of_not_pos none

theorem report_rest (c : ProgressiveCopier) :
    c.report.chunks = c.chunks ∧ c.report.dest = c.dest ∧ c.report.phase = c.phase := by
  rw [report]
  split
  · exact ⟨rfl, rfl, rfl⟩
  · exact ⟨rfl, rfl, rfl⟩

/-- A chunk moves, and the others stay as they were, wherever it writes. -/
theorem chunked_set {i : Nat} {chunk : Chunk} {moved : Chunk × Bytes × Nat}
    (chunked : Chunked sizes src c.chunks c.dest) (here : c.chunks[i]? = some chunk)
    (kept : Chunk.Kept sizes src c.dest chunk moved) :
    Chunked sizes src (c.chunks.set i moved.1) moved.2.1 := by
  intro j other found
  obtain ⟨same, inside, room, sound⟩ := chunked i chunk here
  have length : moved.2.1.length = src.len := kept.length.trans room
  rw [List.getElem?_set] at found
  split at found
  next equal =>
    cases equal
    obtain ⟨-, ⟨⟩⟩ := Option.ite_none_right_eq_some.mp found
    exact ⟨kept.index.trans same, inside, length, kept.sound⟩
  next other =>
    obtain ⟨index, inside, -, sound⟩ := chunked j _ found
    refine ⟨index, inside, length, sound.frame ?_⟩
    intro pos within
    apply kept.frame
    intro both
    rw [same] at both
    rw [index] at within
    exact other (sizes.within_disjoint both within)

theorem sum_map_set {α : Type} (f : α → Nat) {l : List α} {i : Nat} {a b : α} {n : Nat}
    (here : l[i]? = some a) (more : f b = f a + n) :
    ((l.set i b).map f).sum = (l.map f).sum + n := by
  induction l generalizing i with
  | nil => cases here
  | cons head tail ih =>
    cases i with
    | zero =>
      cases here
      simp only [List.set_cons_zero, List.map_cons, List.sum_cons, more]
      omega
    | succ i =>
      simp only [List.set_cons_succ, List.map_cons, List.sum_cons, ih here]
      omega

/-- The count goes on with the chunk. -/
theorem tallied_set {i : Nat} {chunk : Chunk} {moved : Chunk × Bytes × Nat}
    (tallied : Tallied sizes src c) (here : c.chunks[i]? = some chunk)
    (kept : Chunk.Kept sizes src c.dest chunk moved) :
    Tallied sizes src (c.afterChunk i moved) := by
  intro whole
  obtain ⟨inside, rfl⟩ := List.getElem?_eq_some_iff.mp here
  obtain ⟨before, more⟩ := kept.counted (whole moved.1 (List.mem_set inside moved.1))
  have others : ∀ chunk ∈ c.chunks, chunk.broken = false := by
    intro chunk member
    obtain ⟨j, bound, rfl⟩ := List.getElem_of_mem member
    by_cases equal : i = j
    · cases equal
      exact before
    · apply whole
      have still : (c.chunks.set i moved.1)[j]? = some c.chunks[j] := by
        rw [List.getElem?_set_ne equal, List.getElem?_eq_getElem bound]
      exact List.mem_of_getElem? still
  change c.sent.sum + (c.acc + moved.2.2) = ((c.chunks.set i moved.1).map _).sum
  rw [sum_map_set _ here more, ← tallied others, total, Nat.add_assoc]

/-- The sizes of the first chunks. -/
theorem sum_take (sizes : Sizes) (len count : Nat) :
    ((List.range count).map (sizes.take len)).sum = min (count * sizes.perChunk) len := by
  induction count with
  | zero => simp
  | succ count ih =>
    rw [List.range_succ, List.map_append, List.sum_append, ih, List.map_singleton,
      List.sum_singleton, Sizes.take, Sizes.offset, Nat.add_one_mul]
    omega

/-- Where all chunks have ended well, the whole is in the destination. -/
theorem whole_of_finish (chunked : Chunked sizes src c.chunks c.dest)
    (tallied : Tallied sizes src c) (room : c.dest.length = src.len) (filled : src.len ≠ 0)
    (count : c.chunks.length = sizes.count src.len)
    (all : ∀ chunk ∈ c.chunks, Chunk.succeeded chunk = true) : Whole src c := by
  have ended : ∀ chunk ∈ c.chunks, chunk.phase = .ended (.ok ()) := by
    intro chunk member
    have good := all chunk member
    rw [Chunk.succeeded] at good
    split at good
    next phase => exact phase
    next => cases good
  have done : ∀ (i : Nat) (chunk : Chunk), c.chunks[i]? = some chunk →
      chunk.Done sizes src c.dest := by
    intro i chunk here
    have held := (chunked i chunk here).2.2.2.phase
    rw [Chunk.PhaseSound, ended chunk (List.mem_of_getElem? here)] at held
    exact held
  -- Each place is in a chunk, which has it in the destination.
  have reached : ∀ pos, pos < src.len →
      pos < src.content.length ∧ c.dest[pos]? = src.content[pos]? := by
    intro pos inside
    obtain ⟨i, ⟨begun, within⟩, -⟩ := (sizes.partition src.len pos).mpr inside
    obtain ⟨chunk, here⟩ : ∃ chunk, c.chunks[i]? = some chunk :=
      ⟨_, List.getElem?_eq_getElem (count ▸ begun)⟩
    obtain ⟨rfl, -, -, -⟩ := chunked i chunk here
    have part := done _ chunk here
    exact ⟨Nat.lt_of_lt_of_le within.2 part.inside, part.same pos within⟩
  have full : src.len ≤ src.content.length := by
    have last := (reached (src.len - 1) (by omega)).1
    omega
  -- There are enough chunks for the whole length.
  have covers : src.len ≤ sizes.count src.len * sizes.perChunk := by
    by_contra short
    exact Nat.lt_irrefl _ (sizes.lt_count_iff.mpr (Nat.lt_of_not_le short))
  have begun : c.chunks ≠ [] := by
    intro none
    rw [none, List.length_nil] at count
    rw [← count, Nat.zero_mul] at covers
    omega
  refine ⟨fun none => absurd none begun, fun _ => ⟨full, ?_, ?_⟩⟩
  · apply List.ext_getElem?
    intro pos
    by_cases inside : pos < src.len
    · rw [(reached pos inside).2, List.getElem?_take_of_lt inside]
    · rw [List.getElem?_eq_none (by omega), List.getElem?_take_eq_none (by omega)]
  · have sizes_of : c.chunks.map (Chunk.counted sizes src) =
        (List.range (sizes.count src.len)).map (sizes.take src.len) := by
      apply List.ext_getElem
      · simp [count]
      · intro i bound _
        have bound : i < c.chunks.length := by simpa using bound
        have here := List.getElem?_eq_getElem bound
        have phase := ended _ (List.getElem_mem bound)
        have limit := (done i _ here).limit
        have index := (chunked i _ here).1
        simp [Chunk.counted, phase, Chunk.copied, limit, index]
    have none : ∀ chunk ∈ c.chunks, chunk.broken = false := by
      intro chunk member
      simp [Chunk.broken, ended chunk member]
    rw [tallied none, sizes_of, sum_take, Nat.min_eq_right covers]

/-- A task that goes on when its cursor is gone stays in its chunk. -/
theorem behind_step {i : Nat} {action : Chunk.Action}
    (chunked : Chunked sizes src c.chunks c.dest)
    (move : c.behind sizes src i action = some d) :
    Chunked sizes src d.chunks d.dest ∧ d.phase = c.phase ∧
      ∀ pos, ¬sizes.Within src.len i pos → d.dest[pos]? = c.dest[pos]? := by
  obtain ⟨-, move⟩ := Option.ite_none_right_eq_some.mp move
  obtain ⟨chunk, here, move⟩ := Option.bind_eq_some_iff.mp move
  obtain ⟨moved, stepped, rfl⟩ := Option.map_eq_some_iff.mp move
  obtain ⟨rfl, inside, room, sound⟩ := chunked i chunk here
  have kept := Chunk.kept_step inside room sound stepped
  exact ⟨chunked_set chunked here kept, rfl, kept.frame⟩

/-- The copy goes on after a step of a chunk, unless the chunk has failed. -/
theorem phase_afterChunk (c : ProgressiveCopier) (i : Nat) (moved : Chunk × Bytes × Nat) :
    (∃ e, moved.1.phase = .ended (.error e) ∧
      (c.afterChunk i moved).phase = .reporting (.error e)) ∨
    (c.afterChunk i moved).phase = c.phase := by
  rw [afterChunk]
  dsimp only
  split
  next e failed => exact .inl ⟨e, failed, rfl⟩
  next => exact .inr rfl

theorem sound_chunk {i : Nat} {chunk : Chunk} {moved : Chunk × Bytes × Nat}
    (sound : Sound sizes src c) (phase : c.phase = .running) (here : c.chunks[i]? = some chunk)
    (kept : Chunk.Kept sizes src c.dest chunk moved) : Sound sizes src (c.afterChunk i moved) := by
  have held := sound.phase
  simp only [PhaseSound, phase] at held
  obtain ⟨tallied, room, filled⟩ := held
  refine ⟨chunked_set sound.chunked here kept, ?_⟩
  rcases phase_afterChunk c i moved with ⟨e, -, failed⟩ | same
  · simp only [PhaseSound, failed]
  · simp only [PhaseSound, same, phase]
    exact ⟨tallied_set tallied here kept, kept.length.trans room, filled⟩

theorem phase_afterSequential (c : ProgressiveCopier) (moved : Sequential × Bytes × Nat) :
    (∃ result, moved.1.phase = .ended result ∧
      (c.afterSequential moved).phase = .reporting result) ∨
    (∀ result, moved.1.phase ≠ .ended result) ∧
      (c.afterSequential moved).phase = .sequential moved.1 := by
  rw [afterSequential]
  dsimp only
  split
  next result ended => exact .inl ⟨result, ended, rfl⟩
  next alive => exact .inr ⟨alive, rfl⟩

theorem sound_sequential {s : Sequential} {moved : Sequential × Bytes × Nat}
    {action : Sequential.Action} (sound : Sound sizes src c) (phase : c.phase = .sequential s)
    (move : s.step sizes src c.dest action = some moved) :
    Sound sizes src (c.afterSequential moved) := by
  have held := sound.phase
  simp only [PhaseSound, phase] at held
  obtain ⟨none, copying, alive⟩ := held
  have onward := Sequential.sound_step alive copying move
  have total : (c.afterSequential moved).total = c.total + moved.2.2 := (Nat.add_assoc ..).symm
  refine ⟨?_, ?_⟩
  · intro i chunk here
    rw [afterSequential] at here
    dsimp only at here
    rw [none] at here
    cases here
  · rcases phase_afterSequential c moved with ⟨result, ended, reports⟩ | ⟨alive, goes⟩
    · simp only [Sequential.Sound, ended] at onward
      simp only [PhaseSound, reports]
      cases result with
      | error e => trivial
      | ok =>
        exact ⟨fun _ => ⟨onward.1, total.trans onward.2⟩, fun some => absurd none some⟩
    · simp only [PhaseSound, goes]
      exact ⟨none, total ▸ onward, alive⟩

theorem whole_report (whole : Whole src c) : Whole src c.report := by
  obtain ⟨chunks, dest, -⟩ := report_rest c
  constructor
  · rw [chunks, dest, report_total]
    exact whole.sequential
  · rw [chunks, dest, report_total]
    exact whole.chunked

theorem sound_report (sound : Sound sizes src c) : Sound sizes src c.report := by
  obtain ⟨chunks, dest, phase⟩ := report_rest c
  have held := sound.phase
  refine ⟨?_, ?_⟩
  · rw [chunks, dest]
    exact sound.chunked
  · rw [PhaseSound] at held ⊢
    rw [phase, chunks, dest, report_total, Tallied, report_total, chunks]
    split
    next is => simpa only [is] using held
    next is => simpa only [is] using held
    next is => simpa only [is] using held
    next is => simpa only [is] using held
    next is => simpa only [is, Tallied] using held
    next is => simpa only [is] using held
    next is =>
      simp only [is] at held
      exact whole_report held
    next is =>
      simp only [is] at held
      exact ⟨whole_report held.1, report_acc c⟩
    · trivial
    · trivial
    · trivial

theorem sound_start (sound : Sound sizes src c) (phase : c.phase = .running)
    (more : c.chunks.length < sizes.count src.len) :
    Sound sizes src
      { c with chunks := c.chunks ++ [.make sizes src c.remote c.chunks.length] } := by
  have held := sound.phase
  simp only [PhaseSound, phase] at held
  obtain ⟨tallied, room, filled⟩ := held
  refine ⟨?_, ?_⟩
  · intro i chunk here
    by_cases begun : i < c.chunks.length
    · rw [List.getElem?_append_left begun] at here
      exact sound.chunked i chunk here
    · rw [List.getElem?_append_right (Nat.le_of_not_lt begun)] at here
      rw [List.getElem?_singleton] at here
      obtain ⟨last, ⟨⟩⟩ := Option.ite_none_right_eq_some.mp here
      have place : c.chunks.length = i := by omega
      exact ⟨place, place ▸ more, room, Chunk.sound_make c.remote _⟩
  · simp only [PhaseSound, phase]
    refine ⟨?_, room, filled⟩
    intro whole
    have before := tallied fun chunk member => whole chunk (List.mem_append_left _ member)
    have none : (Chunk.make sizes src c.remote c.chunks.length).counted sizes src = 0 :=
      Nat.sub_self _
    change c.total = ((c.chunks ++ [Chunk.make sizes src c.remote c.chunks.length]).map _).sum
    rw [List.map_append, List.sum_append, List.map_singleton, List.sum_singleton, none, before,
      Nat.add_zero]

theorem sound_step {action : Action} (sound : Sound sizes src c)
    (move : c.step sizes src action = some d) : Sound sizes src d := by
  have held := sound.phase
  have chunked := sound.chunked
  have bare : c.chunks = [] → ∀ dest, Chunked sizes src c.chunks dest := by
    intro none dest i chunk here
    rw [none] at here
    cases here
  unfold step at move
  split at move
  -- A task that is left behind.
  iterate 3
    next phase =>
      obtain ⟨chunked, same, -⟩ := behind_step chunked move
      refine ⟨chunked, ?_⟩
      simp only [PhaseSound, same, phase]
  · cases move
  · cases move
  · cases move
    exact ⟨chunked, trivial⟩
  next result phase =>
    cases move
    obtain ⟨reported, still⟩ := sound_report sound
    obtain ⟨-, -, same⟩ := report_rest c
    refine ⟨reported, ?_⟩
    simp only [PhaseSound, same, phase] at still
    cases result with
    | error e => trivial
    | ok => exact ⟨⟨still.sequential, still.chunked⟩, report_acc c⟩
  · cases move
    exact sound_report sound
  · cases move
    exact ⟨chunked, trivial⟩
  next random phase =>
    cases move
    simp only [PhaseSound, phase] at held
    refine ⟨chunked, ?_⟩
    cases random with
    | true => exact held
    | false => exact held
  · cases move
    exact ⟨chunked, trivial⟩
  next phase =>
    cases move
    simp only [PhaseSound, phase] at held
    exact ⟨chunked, held⟩
  · cases move
    exact ⟨chunked, trivial⟩
  next random random' phase =>
    cases move
    simp only [PhaseSound, phase] at held
    obtain ⟨none, total⟩ := held
    have made : Sequential.make.Sound src [] c.total := total ▸ Sequential.sound_make
    refine ⟨bare none _, ?_⟩
    rw [PhaseSound]
    dsimp only
    by_cases able : (random && random') = true
    · rw [if_pos able]
      by_cases empty : src.len = 0
      · rw [if_pos empty]
        exact ⟨none, made, nofun⟩
      · rw [if_neg empty]
        exact ⟨none, total, empty⟩
    · rw [if_neg able]
      exact ⟨none, made, nofun⟩
  · cases move
    exact ⟨chunked, trivial⟩
  next phase =>
    cases move
    simp only [PhaseSound, phase] at held
    obtain ⟨none, total, filled⟩ := held
    refine ⟨bare none _, ?_, List.length_replicate, filled⟩
    intro _
    change c.total = (c.chunks.map (Chunk.counted sizes src)).sum
    rw [none, total]
    rfl
  next error phase =>
    obtain ⟨⟨more, -⟩, move⟩ := Option.ite_none_right_eq_some.mp move
    simp only [PhaseSound, phase] at held
    cases error with
    | some e =>
      cases move
      exact ⟨chunked, trivial⟩
    | none =>
      cases move
      exact sound_start sound phase more
  next i action phase =>
    obtain ⟨chunk, here, move⟩ := Option.bind_eq_some_iff.mp move
    obtain ⟨moved, stepped, rfl⟩ := Option.map_eq_some_iff.mp move
    obtain ⟨rfl, inside, room, whole⟩ := chunked i chunk here
    exact sound_chunk sound phase here (Chunk.kept_step inside room whole stepped)
  next phase =>
    obtain ⟨⟨count, all⟩, ⟨⟩⟩ := Option.ite_none_right_eq_some.mp move
    simp only [PhaseSound, phase] at held
    obtain ⟨tallied, room, filled⟩ := held
    have whole := whole_of_finish chunked tallied room filled count (List.all_eq_true.mp all)
    exact ⟨chunked, whole.sequential, whole.chunked⟩
  next s action phase =>
    obtain ⟨moved, stepped, rfl⟩ := Option.map_eq_some_iff.mp move
    exact sound_sequential sound phase stepped
  · cases move

/-- The copy has failed, or will learn that it has. -/
def Doomed (c : ProgressiveCopier) : Prop :=
  match c.phase with
  | .running => ∃ chunk ∈ c.chunks, chunk.Doomed
  | .sequential s => s.Doomed
  | .reporting (.error _) | .ended (.error _) | .dropped => True
  | _ => False

/-- A chunk that is doomed dooms the copy. -/
theorem doomed_afterChunk {i : Nat} {moved : Chunk × Bytes × Nat}
    (phase : c.phase = .running) (doomed : ∃ other ∈ c.chunks.set i moved.1, other.Doomed) :
    (c.afterChunk i moved).Doomed := by
  rcases phase_afterChunk c i moved with ⟨e, -, failed⟩ | same
  · simp only [Doomed, failed]
  · simp only [Doomed, same, phase]
    exact doomed

theorem doomed_afterSequential {moved : Sequential × Bytes × Nat} (doomed : moved.1.Doomed) :
    (c.afterSequential moved).Doomed := by
  rcases phase_afterSequential c moved with ⟨result, ended, reports⟩ | ⟨alive, goes⟩
  · rcases doomed with ⟨-, alive⟩ | ⟨e, shutting | failed⟩
    · exact absurd ended (alive result)
    · cases shutting.symm.trans ended
    · cases failed.symm.trans ended
      simp only [Doomed, reports]
  · simp only [Doomed, goes]
    exact doomed

theorem doomed_step {action : Action} (sound : Sound sizes src c) (doomed : c.Doomed)
    (move : c.step sizes src action = some d) : d.Doomed := by
  have chunked := sound.chunked
  unfold step at move
  split at move
  iterate 3
    next phase =>
      obtain ⟨-, same, -⟩ := behind_step chunked move
      simp only [Doomed, same, phase]
  · cases move
  · cases move
  · cases move
    trivial
  next result phase =>
    cases move
    simp only [Doomed, phase] at doomed
    cases result with
    | error e => trivial
    | ok => cases doomed
  · cases move
    obtain ⟨chunks, -, phase⟩ := report_rest c
    rw [Doomed] at doomed ⊢
    rw [phase, chunks]
    exact doomed
  · cases move
    trivial
  next phase =>
    simp only [Doomed, phase] at doomed
  · cases move
    trivial
  next phase =>
    simp only [Doomed, phase] at doomed
  · cases move
    trivial
  next phase =>
    simp only [Doomed, phase] at doomed
  · cases move
    trivial
  next phase =>
    simp only [Doomed, phase] at doomed
  next error phase =>
    obtain ⟨-, move⟩ := Option.ite_none_right_eq_some.mp move
    simp only [Doomed, phase] at doomed
    obtain ⟨chunk, member, doomed⟩ := doomed
    cases error with
    | some e =>
      cases move
      trivial
    | none =>
      cases move
      simp only [Doomed, phase]
      exact ⟨chunk, List.mem_append_left _ member, doomed⟩
  next i action phase =>
    obtain ⟨chunk, here, move⟩ := Option.bind_eq_some_iff.mp move
    obtain ⟨moved, stepped, rfl⟩ := Option.map_eq_some_iff.mp move
    simp only [Doomed, phase] at doomed
    obtain ⟨other, member, doomed⟩ := doomed
    obtain ⟨j, bound, rfl⟩ := List.getElem_of_mem member
    apply doomed_afterChunk phase
    by_cases equal : i = j
    · subst equal
      cases (List.getElem?_eq_getElem bound).symm.trans here
      refine ⟨moved.1, List.mem_set bound moved.1, ?_⟩
      exact Chunk.doomed_step (chunked i _ here).2.2.2 doomed stepped
    · refine ⟨c.chunks[j], ?_, doomed⟩
      have still : (c.chunks.set i moved.1)[j]? = some c.chunks[j] := by
        rw [List.getElem?_set_ne equal, List.getElem?_eq_getElem bound]
      exact List.mem_of_getElem? still
  next phase =>
    obtain ⟨⟨-, all⟩, -⟩ := Option.ite_none_right_eq_some.mp move
    simp only [Doomed, phase] at doomed
    obtain ⟨chunk, member, doomed⟩ := doomed
    obtain ⟨i, here⟩ := List.getElem?_of_mem member
    have good := List.all_eq_true.mp all chunk member
    rw [Chunk.succeeded] at good
    split at good
    next ended => exact absurd ended (Chunk.not_done_of_doomed (chunked i _ here).2.2.2 doomed)
    next => cases good
  next s action phase =>
    obtain ⟨moved, stepped, rfl⟩ := Option.map_eq_some_iff.mp move
    simp only [Doomed, phase] at doomed
    have held := sound.phase
    simp only [PhaseSound, phase] at held
    exact doomed_afterSequential (Sequential.doomed_step held.2.2 doomed stepped)
  · cases move

theorem doomed_of_fatal {action : Action} (sound : Sound sizes src c)
    (fatal : action.fatal = true) (move : c.step sizes src action = some d) : d.Doomed := by
  have chunked := sound.chunked
  unfold step at move
  split at move
  iterate 3
    next phase =>
      obtain ⟨-, same, -⟩ := behind_step chunked move
      simp only [Doomed, same, phase]
  · cases move
  · cases move
  · cases fatal
  · cases fatal
  · cases fatal
  · cases move
    trivial
  · cases fatal
  · cases move
    trivial
  · cases fatal
  · cases move
    trivial
  · cases fatal
  · cases move
    trivial
  · cases fatal
  next error phase =>
    obtain ⟨-, move⟩ := Option.ite_none_right_eq_some.mp move
    cases error with
    | some e =>
      cases move
      trivial
    | none => cases fatal
  next i action phase =>
    obtain ⟨chunk, here, move⟩ := Option.bind_eq_some_iff.mp move
    obtain ⟨moved, stepped, rfl⟩ := Option.map_eq_some_iff.mp move
    have doomed := Chunk.doomed_of_fatal (chunked i chunk here).2.2.2 fatal stepped
    obtain ⟨bound, -⟩ := List.getElem?_eq_some_iff.mp here
    exact doomed_afterChunk phase ⟨moved.1, List.mem_set bound moved.1, doomed⟩
  · cases fatal
  next s action phase =>
    obtain ⟨moved, stepped, rfl⟩ := Option.map_eq_some_iff.mp move
    have held := sound.phase
    simp only [PhaseSound, phase] at held
    exact doomed_afterSequential (Sequential.doomed_of_fatal held.2.2 fatal stepped)
  · cases move

/-- From a failure on there is no success. -/
theorem doomed_of_mem {actions : List Action} (sound : Sound sizes src c)
    (run : Run (step sizes src) c actions d) (fatal : ∃ action ∈ actions, action.fatal = true) :
    d.Doomed := by
  induction run with
  | nil => simp at fatal
  | @cons c next d action actions move run ih =>
    obtain ⟨action', member, fails⟩ := fatal
    have onward := sound_step sound move
    rcases List.mem_cons.mp member with rfl | later
    · have doomed := doomed_of_fatal sound fails move
      apply (run.invariant (P := fun c => Sound sizes src c ∧ c.Doomed) ?_ ⟨onward, doomed⟩).2
      rintro s a t ⟨sound, doomed⟩ move
      exact ⟨sound_step sound move, doomed_step sound doomed move⟩
    · exact ih onward ⟨action', later, fails⟩

theorem sound_make (prior : Bytes) (remote : Bool) : Sound sizes src (make prior remote) where
  chunked := by simp [Chunked, make]
  phase := ⟨rfl, rfl⟩

theorem sound_run {actions : List Action}
    (run : Run (step sizes src) (make prior remote) actions c) : Sound sizes src c := by
  apply run.invariant
  · exact fun s a t sound move => sound_step sound move
  · exact sound_make prior remote

/-- A chunk takes a step of its own, or what it has left behind goes on. -/
theorem step_chunk {i : Nat} {action : Chunk.Action}
    (move : c.step sizes src (.chunk i action) = some d) :
    c.behind sizes src i action = some d ∨ (c.chunks[i]?.bind fun chunk =>
      (chunk.step sizes src c.dest action).map (c.afterChunk i)) = some d := by
  cases phase : c.phase with
  | running =>
    simp only [step, phase] at move
    exact .inr move
  | dropped =>
    simp only [step, phase] at move
    exact .inl move
  | reporting result =>
    cases result with
    | error e =>
      simp only [step, phase] at move
      exact .inl move
    | ok => simp [step, phase] at move
  | ended result =>
    cases result with
    | error e =>
      simp only [step, phase] at move
      exact .inl move
    | ok => simp [step, phase] at move
  | _ => simp [step, phase] at move

/-- What a step of a chunk leaves alone. -/
theorem chunk_frame {i : Nat} {action : Chunk.Action} (sound : Sound sizes src c)
    (move : c.step sizes src (.chunk i action) = some d) :
    ∀ pos, ¬sizes.Within src.len i pos → d.dest[pos]? = c.dest[pos]? := by
  rcases step_chunk move with behind | move
  · exact (behind_step sound.chunked behind).2.2
  · obtain ⟨chunk, here, move⟩ := Option.bind_eq_some_iff.mp move
    obtain ⟨moved, stepped, rfl⟩ := Option.map_eq_some_iff.mp move
    obtain ⟨rfl, inside, room, whole⟩ := sound.chunked i chunk here
    exact (Chunk.kept_step inside room whole stepped).frame

/-- However the chunks take turns, and however little is read and written at once: a copy that
ends well has brought over the source as far as its metadata said, or the whole of it where it
was copied from its start to its end, and has reported as many bytes. Each place up to there is in
one chunk, and a chunk writes at no other. Where the source ends early or something fails, the
copy does not end well. -/
theorem copied_whole {actions : List Action}
    (run : Run (step sizes src) (make prior remote) actions c) :
    (c.phase = .ended (.ok ()) →
        (c.chunks = [] → c.dest = src.content ∧ c.sent.sum = src.content.length) ∧
        (c.chunks ≠ [] → c.dest = src.content.take src.len ∧ c.sent.sum = src.len) ∧
        (src.content.length ≤ src.len →
          c.dest = src.content ∧ c.sent.sum = src.content.length)) ∧
      (∀ pos, (∃! i, i < sizes.count src.len ∧ sizes.Within src.len i pos) ↔ pos < src.len) ∧
      (∀ i action d, c.step sizes src (.chunk i action) = some d →
        ∀ pos, ¬sizes.Within src.len i pos → d.dest[pos]? = c.dest[pos]?) ∧
      (c.chunks ≠ [] → src.content.length < src.len → c.phase ≠ .ended (.ok ())) ∧
      ((∃ action ∈ actions, action.fatal = true) → c.phase ≠ .ended (.ok ())) := by
  have sound := sound_run run
  have whole : c.phase = .ended (.ok ()) → Whole src c ∧ c.sent.sum = c.total := by
    intro phase
    have held := sound.phase
    simp only [PhaseSound, phase] at held
    refine ⟨held.1, ?_⟩
    rw [total, held.2, Nat.add_zero]
  refine ⟨?_, sizes.partition src.len, fun i action d => chunk_frame sound, ?_, ?_⟩
  · intro phase
    obtain ⟨⟨sequential, chunked⟩, sum⟩ := whole phase
    rw [sum]
    refine ⟨sequential, fun begun => (chunked begun).2, ?_⟩
    intro less
    by_cases none : c.chunks = []
    · exact sequential none
    · obtain ⟨enough, same, count⟩ := chunked none
      have all : src.content.length = src.len := Nat.le_antisymm less enough
      rw [← all, List.take_length] at same
      exact ⟨same, count.trans all.symm⟩
  · intro begun short phase
    have enough := ((whole phase).1.chunked begun).1
    omega
  · intro fatal phase
    have doomed := doomed_of_mem (sound_make prior remote) run fatal
    simp only [Doomed, phase] at doomed

/-- Three bytes in two chunks, from the disk to a service. The first is read byte by byte. -/
def sampleSizes : Sizes := ⟨2, 4, 5, by decide, by decide, by decide⟩

def sampleSource : Source := ⟨[1, 2, 3], 3, false⟩

def sampleActions : List Action :=
  [.open none true, .metadata none, .create none true, .setLen none, .start none, .start none,
    .chunk 0 (.pollRead (.task false)), .chunk 1 (.pollRead (.task false)),
    .chunk 0 (.reader (.readAt 1)), .chunk 0 (.pollRead (.task true)),
    .chunk 0 (.pollWrite .nothing), .chunk 1 (.reader (.readAt 1)),
    .chunk 1 (.pollRead (.task true)), .chunk 1 (.pollWrite .nothing),
    .chunk 1 (.pollRead .nothing), .chunk 1 (.pollShutdown (.file (.send 1))), .report,
    .chunk 0 (.pollRead (.task false)), .chunk 0 (.reader (.readAt 2)),
    .chunk 0 (.pollRead (.task true)), .chunk 0 (.pollWrite .nothing),
    .chunk 1 (.remote (.commit 1)), .chunk 1 (.pollShutdown (.file .answered)),
    .chunk 1 (.pollShutdown (.file .done)), .chunk 0 (.pollRead .nothing),
    .chunk 0 (.pollShutdown (.file (.take 2))), .chunk 0 (.remote (.commit 1)),
    .chunk 0 (.remote (.commit 1)), .chunk 0 (.pollShutdown (.file .done)), .finish, .report]

theorem copied_whole_sample :
    ∃ c, Run (step sampleSizes sampleSource) (make [9] true) sampleActions c ∧
      c.dest = [1, 2, 3] ∧ c.sent.sum = 3 := by
  have enabled :
      (exec (step sampleSizes sampleSource) (make [9] true) sampleActions).isSome = true := by
    decide +kernel
  exact ⟨_, run_exec enabled, ((copied_whole (run_exec enabled)).1 rfl).2.2 (by decide)⟩

/-- Three bytes of a service whose metadata said two. -/
def outgrownSource : Source := ⟨[1, 2, 3], 2, true⟩

def outgrownActions : List Action :=
  [.open none true, .metadata none, .create none true, .setLen none, .start none,
    .chunk 0 (.pollRead (.file (.ready (.ok 3)))), .chunk 0 (.pollWrite (.task false)),
    .chunk 0 (.pollRead .nothing), .chunk 0 (.writer (.writeAt 2)),
    .chunk 0 (.pollShutdown (.task true)), .finish, .report]

theorem outgrown_cut :
    ∃ c, Run (step sampleSizes outgrownSource) (make [] false) outgrownActions c ∧
      c.phase = .ended (.ok ()) ∧ c.dest ≠ outgrownSource.content := by
  have enabled :
      (exec (step sampleSizes outgrownSource) (make [] false) outgrownActions).isSome = true := by
    decide +kernel
  have cut : ((exec (step sampleSizes outgrownSource) (make [] false) outgrownActions).get
      enabled).dest = [1, 2] := rfl
  refine ⟨_, run_exec enabled, rfl, ?_⟩
  rw [cut]
  decide

end ProgressiveCopier
end Yazi.Vfs
