import Yazi.Vfs.Endpoints

/-!
A chunk of a copy.

What a chunk has read is on its way to the same place in the destination, unless its writer has
failed and will say so. Whatever becomes of the chunk, it writes inside its range only.
-/
namespace Yazi.Vfs
open Yazi.Base Yazi.Shared Yazi.Fs

-- ═══════════════════════════════════════════════════════════════
-- Ranges
-- ═══════════════════════════════════════════════════════════════

namespace Sizes
variable (sizes : Sizes) {len i pos : Nat}

/-- A place is in a chunk. -/
def Within (len i pos : Nat) : Prop :=
  sizes.offset i ≤ pos ∧ pos < sizes.offset i + sizes.take len i

theorem lt_count_iff : i < sizes.count len ↔ sizes.offset i < len := by
  rw [count, offset, Nat.lt_iff_add_one_le, Nat.le_div_iff_mul_le sizes.perChunk_pos,
    Nat.add_one_mul]
  have := sizes.perChunk_pos
  omega

theorem take_pos (inside : i < sizes.count len) : 0 < sizes.take len i := by
  have := sizes.lt_count_iff.mp inside
  have := sizes.perChunk_pos
  rw [take]
  omega

theorem end_le (inside : i < sizes.count len) : sizes.offset i + sizes.take len i ≤ len := by
  have := sizes.lt_count_iff.mp inside
  rw [take]
  omega

/-- A place is in the chunk that its quotient names, and in no other. -/
theorem within_iff : sizes.Within len i pos ↔ pos < len ∧ i = pos / sizes.perChunk := by
  have euclid := Nat.div_add_mod pos sizes.perChunk
  have below := Nat.mod_lt pos sizes.perChunk_pos
  rw [Within, offset, take, offset]
  constructor
  · rintro ⟨first, last⟩
    refine ⟨by omega, ?_⟩
    symm
    rw [Nat.div_eq_iff sizes.perChunk_pos]
    omega
  · rintro ⟨inside, rfl⟩
    rw [Nat.mul_comm]
    omega

/-- The chunks divide the source among them. -/
theorem partition (len pos : Nat) :
    (∃! i, i < sizes.count len ∧ sizes.Within len i pos) ↔ pos < len := by
  constructor
  · rintro ⟨i, ⟨-, within⟩, -⟩
    exact (sizes.within_iff.mp within).1
  · intro inside
    have within := sizes.within_iff.mpr ⟨inside, rfl⟩
    refine ⟨pos / sizes.perChunk, ⟨?_, within⟩, ?_⟩
    · rw [lt_count_iff]
      exact Nat.lt_of_le_of_lt within.1 inside
    · rintro j ⟨-, within⟩
      exact (sizes.within_iff.mp within).2

theorem within_disjoint {j : Nat} (first : sizes.Within len i pos)
    (second : sizes.Within len j pos) : i = j :=
  (sizes.within_iff.mp first).2.trans (sizes.within_iff.mp second).2.symm

end Sizes

-- ═══════════════════════════════════════════════════════════════
-- What holds of a chunk
-- ═══════════════════════════════════════════════════════════════

namespace Chunk
variable (sizes : Sizes) (src : Source) (dest : Bytes) (c : Chunk)

/-- How much was read of the chunk. -/
def copied : Nat := sizes.take src.len c.index - c.limit

/-- How much of that was counted. -/
def counted : Nat :=
  match c.phase with
  | .writing n _ => c.copied sizes src - n
  | _ => c.copied sizes src

def broken : Bool :=
  match c.phase with
  | .aborting _ | .ended (.error _) => true
  | _ => false

/-- What is on its way to the destination stays inside the chunk. -/
def Confined : Prop :=
  c.writer.Confined (sizes.offset c.index) (sizes.offset c.index + sizes.take src.len c.index)

/-- What was read is on its way, with the rest at hand. -/
def Bears (rest : Bytes) : Prop :=
  c.writer.Spoiled ∨ ∃ written ahead, c.writer.WritesAt written ahead ∧
    Piped src.content dest (sizes.offset c.index) (c.copied sizes src) written (ahead ++ rest)

structure Carries (rest : Bytes) : Prop where
  reads : c.reader.ReadsAt sizes.capacity src.content (sizes.offset c.index + c.copied sizes src)
  writes : c.Bears sizes src dest rest

/-- The chunk is in the destination. -/
structure Done : Prop where
  bare : c.reader.task = none
  still : c.writer.Still
  limit : c.limit = 0
  inside : sizes.offset c.index + sizes.take src.len c.index ≤ src.content.length
  same : ∀ pos, sizes.Within src.len c.index pos → dest[pos]? = src.content[pos]?

/-- The rest of what was read. -/
structure Rest (n : Nat) (rest : Bytes) : Prop where
  bare : c.reader.task = none
  idle : c.reader.polling = none
  more : rest ≠ []
  small : rest.length ≤ sizes.buffer
  counts : n ≤ c.copied sizes src

def PhaseSound : Prop :=
  match c.phase with
  | .reading => c.Carries sizes src dest [] ∧ (c.reader.task.isSome → 0 < c.limit) ∧
      ∀ room, c.reader.polling = some room → 0 < room ∧ room ≤ min sizes.buffer c.limit
  | .writing n rest => c.Carries sizes src dest rest ∧ c.Rest sizes src n rest
  | .flushing => c.Carries sizes src dest [] ∧ c.reader.task = none
  | .aborting _ | .ended (.error _) => True
  | .ended (.ok ()) => c.Done sizes src dest

structure Sound : Prop where
  limit : c.limit ≤ sizes.take src.len c.index
  confined : c.Confined sizes src
  phase : c.PhaseSound sizes src dest

variable {sizes src dest c}

theorem copied_le (sizes : Sizes) (src : Source) (c : Chunk) :
    c.copied sizes src ≤ sizes.take src.len c.index := Nat.sub_le ..

theorem confined_of_writesAt {w : Writer} {written : Nat} {ahead rest : Bytes}
    (writes : w.WritesAt written ahead)
    (piped : Piped src.content dest (sizes.offset c.index) (c.copied sizes src) written
      (ahead ++ rest)) : Confined sizes src { c with writer := w } := by
  have place := piped.place
  have inside := copied_le sizes src c
  rw [List.length_append] at place
  apply writes.confined piped.start
  change written + ahead.length ≤ sizes.offset c.index + sizes.take src.len c.index
  omega

theorem sound_make (remote : Bool) (i : Nat) : (make sizes src remote i).Sound sizes src dest := by
  have none : (make sizes src remote i).copied sizes src = 0 := Nat.sub_self _
  have writes := Writer.make_writesAt remote (sizes.offset i)
  have piped : Piped src.content dest (sizes.offset i) ((make sizes src remote i).copied sizes src)
      (sizes.offset i) ([] ++ []) := by
    rw [none]
    exact piped_start ..
  have confined : Confined sizes src (make sizes src remote i) :=
    confined_of_writesAt (c := make sizes src remote i) writes piped
  refine ⟨Nat.le_refl _, confined, ⟨⟨?_, .inr ⟨_, [], writes, piped⟩⟩, ?_, ?_⟩⟩
  · rw [none]
    exact Reader.make_readsAt ..
  · intro busy
    rw [make, Reader.make] at busy
    split at busy
    · cases busy
    · cases busy
  · intro room asks
    rw [make, Reader.make] at asks
    split at asks
    · cases asks
    · cases asks

/-- A write elsewhere. -/
theorem Sound.frame (sound : c.Sound sizes src dest) {dest' : Bytes}
    (same : ∀ pos, sizes.Within src.len c.index pos → dest'[pos]? = dest[pos]?) :
    c.Sound sizes src dest' := by
  have carried : ∀ {rest}, c.Carries sizes src dest rest → c.Carries sizes src dest' rest := by
    rintro rest ⟨reads, writes⟩
    refine ⟨reads, writes.imp_right ?_⟩
    rintro ⟨written, ahead, writesAt, piped⟩
    refine ⟨written, ahead, writesAt, piped.frame fun pos first below => same pos ⟨first, ?_⟩⟩
    have place := piped.place
    have inside := copied_le sizes src c
    omega
  refine ⟨sound.limit, sound.confined, ?_⟩
  have phase := sound.phase
  rw [PhaseSound] at phase ⊢
  split
  next is => simp only [is] at phase; exact ⟨carried phase.1, phase.2⟩
  next is => simp only [is] at phase; exact ⟨carried phase.1, phase.2⟩
  next is => simp only [is] at phase; exact ⟨carried phase.1, phase.2⟩
  next => trivial
  next => trivial
  next is =>
    simp only [is] at phase
    exact { phase with same := fun pos within => (same pos within).trans (phase.same pos within) }

-- ═══════════════════════════════════════════════════════════════
-- A step
-- ═══════════════════════════════════════════════════════════════

/-- What a step leaves alone, and how the count goes on. -/
structure Kept (sizes : Sizes) (src : Source) (dest : Bytes) (c : Chunk)
    (moved : Chunk × Bytes × Nat) : Prop where
  sound : moved.1.Sound sizes src moved.2.1
  index : moved.1.index = c.index
  frame : ∀ pos, ¬sizes.Within src.len c.index pos → moved.2.1[pos]? = dest[pos]?
  length : moved.2.1.length = dest.length
  counted : moved.1.broken = false →
    c.broken = false ∧ moved.1.counted sizes src = c.counted sizes src + moved.2.2

/-- A step that writes nothing. -/
theorem kept_of_sound {c' : Chunk} {n : Nat} (sound : c'.Sound sizes src dest)
    (index : c'.index = c.index) (counted : c'.broken = false →
      c.broken = false ∧ c'.counted sizes src = c.counted sizes src + n) :
    Kept sizes src dest c (c', dest, n) where
  sound := sound
  index := index
  frame := fun _ _ => rfl
  length := rfl
  counted := counted

/-- The bytes that are served go to the writer. -/
theorem kept_served {room : Nat} {polled : Reader × Poll (Except IoError (Option Bytes))}
    (sound : c.Sound sizes src dest) (phase : c.phase = .reading)
    (carries : c.Carries sizes src dest []) (asked : 0 < room)
    (fits : room ≤ min sizes.buffer c.limit)
    (served : Reader.Served sizes.capacity src.content
      (sizes.offset c.index + c.copied sizes src) room polled) :
    Kept sizes src dest c (c.served polled, dest, 0) := by
  have whole : c.broken = false := by rw [broken, phase]
  have count : c.counted sizes src = c.copied sizes src := by rw [counted, phase]
  have here := sound.limit
  -- The call is not over, and the chunk stays as it is.
  have waits : ∀ {reader : Reader}, reader.ReadsAt sizes.capacity src.content
      (sizes.offset c.index + c.copied sizes src) →
      (∀ n, reader.polling = some n → n = room) →
      Kept sizes src dest c ({ c with reader }, dest, 0) := by
    intro reader reads asks
    refine kept_of_sound ⟨here, sound.confined, ?_⟩ rfl fun _ => ⟨whole, rfl⟩
    rw [PhaseSound]
    simp only [phase]
    refine ⟨⟨reads, carries.writes⟩, fun _ => by omega, ?_⟩
    intro n polling
    rw [asks n polling]
    exact ⟨asked, fits⟩
  cases served with
  | pending reads idle => exact waits reads fun n asks => by cases idle.symm.trans asks
  | onward reads asks => exact waits reads asks
  | failed => exact kept_of_sound ⟨here, sound.confined, trivial⟩ rfl fun h => by cases h
  | @bytes reader bytes reads same less free idle =>
    rw [served]
    dsimp only
    by_cases last : bytes = []
    · subst last
      rw [if_pos rfl]
      exact kept_of_sound ⟨here, sound.confined, ⟨reads, carries.writes⟩, free⟩ rfl
        fun _ => ⟨whole, count.symm⟩
    · rw [if_neg last]
      have more : sizes.take src.len c.index - (c.limit - bytes.length) =
          c.copied sizes src + bytes.length := by
        rw [copied]
        omega
      have some : 0 < bytes.length := List.length_pos_of_ne_nil last
      -- What is served is there.
      have inside : sizes.offset c.index + (c.copied sizes src + bytes.length) ≤
          src.content.length := by
        have length := congrArg List.length same
        rw [slice, List.length_take, List.length_drop] at length
        omega
      refine kept_of_sound ⟨Nat.le_trans (Nat.sub_le ..) here, sound.confined, ⟨?_, ?_⟩,
        free, idle, last, by omega, ?_⟩ rfl fun _ => ⟨whole, ?_⟩
      · rw [copied, more, ← Nat.add_assoc]
        exact reads
      · refine carries.writes.imp_right ?_
        rintro ⟨written, ahead, writesAt, piped⟩
        refine ⟨written, ahead, writesAt, ?_⟩
        rw [copied, more]
        rw [List.append_nil] at piped
        exact piped.read same inside
      · rw [copied, more]
        exact Nat.le_add_left ..
      · rw [counted, count]
        simp only
        rw [copied, more, Nat.add_sub_cancel, Nat.add_zero]

/-- A write waits with its bytes, or brings them all on their way. -/
theorem bears_pollWrite {rest : Bytes} (bears : c.Bears sizes src dest rest)
    (confined : c.Confined sizes src) (small : rest.length ≤ sizes.buffer)
    {met : Met RwFile.Answer} {polled : Writer × Poll (Except IoError (Option Nat))}
    (move : c.writer.pollWrite sizes.capacity rest met = some polled) :
    Writer.Polled c.writer
      (fun w => Bears sizes src dest { c with writer := w } rest ∧
        Confined sizes src { c with writer := w })
      (fun n w => n = rest.length ∧ Bears sizes src dest { c with writer := w } [] ∧
        Confined sizes src { c with writer := w }) polled := by
  have small : rest.length < sizes.capacity := Nat.lt_of_le_of_lt small sizes.buffer_lt
  rcases bears with spoiled | ⟨written, ahead, writesAt, piped⟩
  · cases Writer.pollWrite_of_spoiled spoiled small move with
    | pending waits => exact .pending ⟨.inl waits.1, waits.2 _ _ confined⟩
    | onward goes => exact .onward ⟨.inl goes.1, goes.2 _ _ confined⟩
    | ended ends => exact .ended ⟨ends.1, .inl ends.2.1, ends.2.2 _ _ confined⟩
    | failed kept => exact .failed kept
  · cases Writer.pollWrite_of_writesAt writesAt small move with
    | pending waits =>
      exact .pending ⟨.inr ⟨written, ahead, waits, piped⟩, confined_of_writesAt waits piped⟩
    | onward goes =>
      exact .onward ⟨.inr ⟨written, ahead, goes, piped⟩, confined_of_writesAt goes piped⟩
    | ended ends =>
      rw [← List.append_nil (ahead ++ rest)] at piped
      exact .ended ⟨ends.1, .inr ⟨written, _, ends.2, piped⟩, confined_of_writesAt ends.2 piped⟩
    | failed kept => exact .failed kept

/-- A writer that is not over, or has failed. -/
theorem kept_writer {w : Writer} (sound : Sound sizes src dest { c with writer := w }) :
    Kept sizes src dest c ({ c with writer := w }, dest, 0) :=
  kept_of_sound sound rfl fun whole => ⟨whole, rfl⟩

theorem kept_pollWrite {moved : Chunk × Bytes × Nat} {n : Nat} {rest : Bytes}
    {met : Met RwFile.Answer} (sound : c.Sound sizes src dest) (phase : c.phase = .writing n rest)
    (move : c.step sizes src dest (.pollWrite met) = some moved) :
    Kept sizes src dest c moved := by
  have held := sound.phase
  simp only [PhaseSound, phase] at held
  obtain ⟨carries, hand⟩ := held
  have here := sound.limit
  simp only [step, phase, Option.map_eq_some_iff] at move
  obtain ⟨polled, write, rfl⟩ := move
  have waits : ∀ {w : Writer}, Bears sizes src dest { c with writer := w } rest ∧
      Confined sizes src { c with writer := w } →
      Kept sizes src dest c ({ c with writer := w }, dest, 0) := by
    rintro w ⟨bears, confined⟩
    refine kept_writer ⟨here, confined, ?_⟩
    simp only [PhaseSound, phase]
    exact ⟨⟨carries.reads, bears⟩, hand.bare, hand.idle, hand.more, hand.small, hand.counts⟩
  cases bears_pollWrite carries.writes sound.confined hand.small write with
  | pending goes => exact waits goes
  | onward goes => exact waits goes
  | failed kept =>
    exact kept_of_sound ⟨here, kept _ _ sound.confined, trivial⟩ rfl fun h => by cases h
  | @ended w k ends =>
    obtain ⟨rfl, bears, confined⟩ := ends
    -- All is accepted at once, and counted.
    have some : rest.length ≠ 0 := by simpa using hand.more
    simp only [wrote, if_neg some, List.drop_length, ↓reduceIte]
    refine kept_of_sound ⟨here, confined, ⟨carries.reads, bears⟩, ?_, ?_⟩ rfl fun _ => ⟨?_, ?_⟩
    · simp [hand.bare]
    · simp [hand.idle]
    · rw [broken, phase]
    · simp only [counted, phase]
      exact (Nat.sub_add_cancel hand.counts).symm

/-- The end of a copy waits until everything is written. -/
theorem bears_pollShutdown (bears : c.Bears sizes src dest []) (confined : c.Confined sizes src)
    {met : Met RwFile.Answer} {polled : Writer × Poll (Except IoError (Option Unit))}
    (move : c.writer.pollShutdown met = some polled) :
    Writer.Polled c.writer
      (fun w => Bears sizes src dest { c with writer := w } [] ∧
        Confined sizes src { c with writer := w })
      (fun _ w => w.Still ∧ Confined sizes src { c with writer := w } ∧ ∃ written,
        Piped src.content dest (sizes.offset c.index) (c.copied sizes src) written []) polled := by
  rcases bears with spoiled | ⟨written, ahead, writesAt, piped⟩
  · cases Writer.pollShutdown_of_spoiled spoiled move with
    | pending waits => exact .pending ⟨.inl waits.1, waits.2 _ _ confined⟩
    | onward goes => exact .onward ⟨.inl goes.1, goes.2 _ _ confined⟩
    | ended ends => cases ends
    | failed kept => exact .failed kept
  · cases Writer.pollShutdown_of_writesAt writesAt move with
    | pending waits =>
      exact .pending ⟨.inr ⟨written, ahead, waits, piped⟩, confined_of_writesAt waits piped⟩
    | onward goes =>
      exact .onward ⟨.inr ⟨written, ahead, goes, piped⟩, confined_of_writesAt goes piped⟩
    | ended ends =>
      obtain ⟨rfl, still, kept⟩ := ends
      exact .ended ⟨still, kept _ _ confined, written, piped⟩
    | failed kept => exact .failed kept

theorem kept_flushing {moved : Chunk × Bytes × Nat} {met : Met RwFile.Answer}
    (inside : c.index < sizes.count src.len) (sound : c.Sound sizes src dest)
    (phase : c.phase = .flushing)
    (move : c.step sizes src dest (.pollShutdown met) = some moved) :
    Kept sizes src dest c moved := by
  have held := sound.phase
  simp only [PhaseSound, phase] at held
  obtain ⟨carries, bare⟩ := held
  have here := sound.limit
  simp only [step, phase, Option.map_eq_some_iff] at move
  obtain ⟨polled, shuts, rfl⟩ := move
  have waits : ∀ {w : Writer}, Bears sizes src dest { c with writer := w } [] ∧
      Confined sizes src { c with writer := w } →
      Kept sizes src dest c ({ c with writer := w }, dest, 0) := by
    rintro w ⟨bears, confined⟩
    refine kept_writer ⟨here, confined, ?_⟩
    simp only [PhaseSound, phase]
    exact ⟨⟨carries.reads, bears⟩, bare⟩
  cases bears_pollShutdown carries.writes sound.confined shuts with
  | pending goes => exact waits goes
  | onward goes => exact waits goes
  | failed kept =>
    exact kept_of_sound ⟨here, kept _ _ sound.confined, trivial⟩ rfl fun h => by cases h
  | ended ends =>
    obtain ⟨still, confined, written, piped⟩ := ends
    rw [shut]
    dsimp only
    split
    next short => exact kept_of_sound ⟨here, confined, trivial⟩ rfl fun h => by cases h
    next full =>
      -- All was read, and none of it is ahead of the writer any more.
      have size := sizes.take_pos inside
      have all : c.copied sizes src = sizes.take src.len c.index := not_not.mp full
      have place := piped.place
      rw [all, List.length_nil] at place
      have used : c.limit = 0 := by
        rw [copied] at all
        omega
      refine kept_of_sound ⟨here, confined, bare, still, used, ?_, ?_⟩ rfl fun _ => ⟨?_, ?_⟩
      · have inside := piped.inside
        rw [all] at inside
        exact inside size
      · rintro pos ⟨first, last⟩
        exact piped.done pos first (Nat.lt_of_lt_of_eq last place.symm)
      · rw [broken, phase]
      · simp only [counted, phase]
        rfl

theorem kept_aborting {moved : Chunk × Bytes × Nat} {e : ChunkError} {met : Met RwFile.Answer}
    (sound : c.Sound sizes src dest) (phase : c.phase = .aborting e)
    (move : c.step sizes src dest (.pollShutdown met) = some moved) :
    Kept sizes src dest c moved := by
  simp only [step, phase, Option.map_eq_some_iff] at move
  obtain ⟨⟨writer, result⟩, aborted, rfl⟩ := move
  have confined : Confined sizes src { c with writer } :=
    Writer.kept_abort aborted _ _ sound.confined
  cases result with
  | pending =>
    refine kept_of_sound ⟨sound.limit, ?_, trivial⟩ rfl fun h => by cases h
    exact confined
  | ready result =>
    refine kept_of_sound ⟨sound.limit, ?_, trivial⟩ rfl fun h => by cases h
    exact confined

theorem kept_reader {moved : Chunk × Bytes × Nat} {action : OpenFile.Action}
    (sound : c.Sound sizes src dest) (move : c.step sizes src dest (.reader action) = some moved) :
    Kept sizes src dest c moved := by
  rw [step] at move
  split at move
  next cursor polling is =>
    obtain ⟨background, move⟩ := Option.ite_none_right_eq_some.mp move
    obtain ⟨f, read, rfl⟩ := Option.map_eq_some_iff.mp move
    obtain ⟨t, task, going⟩ := running_of_step background read
    have some : c.reader.task = some t := by rw [is]; exact task
    have busy : c.reader.task ≠ none := by simp [some]
    have carried : ∀ {rest}, c.Carries sizes src dest rest →
        Carries sizes src dest { c with reader := .local f.cursor polling } rest := by
      rintro rest ⟨reads, writes⟩
      refine ⟨?_, writes⟩
      rw [is] at reads
      cases reads with
      | «local» reads => exact .local (readsAt_step background reads read)
    refine kept_of_sound ⟨sound.limit, sound.confined, ?_⟩ rfl fun whole => ⟨whole, rfl⟩
    have held := sound.phase
    rw [PhaseSound] at held ⊢
    dsimp only
    split
    next phase =>
      simp only [phase] at held
      refine ⟨carried held.1, fun _ => held.2.1 (by rw [some]; rfl), ?_⟩
      intro room asks
      exact held.2.2 room (by rw [is]; exact asks)
    next phase =>
      simp only [phase] at held
      exact absurd held.2.bare busy
    next phase =>
      simp only [phase] at held
      exact absurd held.2 busy
    next => trivial
    next => trivial
    next phase =>
      simp only [phase] at held
      exact absurd held.bare busy
  next => cases move

/-- What is carried out behind the caller's back is in the chunk. -/
theorem kept_wrote {w : Writer} {dest' : Bytes} (inside : c.index < sizes.count src.len)
    (room : dest.length = src.len) (sound : c.Sound sizes src dest) (busy : ¬c.writer.Still)
    (writes : c.writer.Wrote dest w dest') :
    Kept sizes src dest c ({ c with writer := w }, dest', 0) := by
  -- The phase stays sound when what was read is still on its way.
  have onward {dest' : Bytes} (confined : Confined sizes src { c with writer := w })
      (bears : ∀ {rest}, c.Bears sizes src dest rest →
        Bears sizes src dest' { c with writer := w } rest) :
      Sound sizes src dest' { c with writer := w } := by
    have held := sound.phase
    refine ⟨sound.limit, confined, ?_⟩
    rw [PhaseSound] at held ⊢
    dsimp only
    split
    next is =>
      simp only [is] at held
      exact ⟨⟨held.1.reads, bears held.1.writes⟩, held.2⟩
    next is =>
      simp only [is] at held
      exact ⟨⟨held.1.reads, bears held.1.writes⟩, held.2.bare, held.2.idle, held.2.more,
        held.2.small, held.2.counts⟩
    next is =>
      simp only [is] at held
      exact ⟨⟨held.1.reads, bears held.1.writes⟩, held.2⟩
    next => trivial
    next => trivial
    next is =>
      simp only [is] at held
      exact absurd held.still busy
  cases writes with
  | still => exact kept_writer sound
  | spoiled spoiled kept =>
    exact kept_writer (onward (kept _ _ sound.confined) fun _ => .inl spoiled)
  | @wrote _ place sent confined moves ails =>
    obtain ⟨first, last, stays⟩ := confined _ _ sound.confined
    have ends := sizes.end_le inside
    have there : place ≤ dest.length := by omega
    constructor
    · refine onward stays ?_
      rintro rest (spoiled | ⟨written, ahead, writesAt, piped⟩)
      · exact .inl (ails spoiled)
      · obtain ⟨rfl, n, fits, rfl, next⟩ := moves written ahead writesAt
        have enough : n ≤ (ahead ++ rest).length := by
          rw [List.length_append]
          omega
        have onward := piped.commit enough there
        rw [List.take_append_of_le_length fits, List.drop_append_of_le_length fits] at onward
        exact .inr ⟨_, _, next, onward⟩
    · rfl
    · intro pos outside
      rw [getElem?_overwrite there, if_neg]
      rintro ⟨after, before⟩
      exact outside ⟨Nat.le_trans first after, by omega⟩
    · apply length_overwrite
      omega
    · exact fun whole => ⟨whole, rfl⟩

/-- Whatever a chunk does, it stays sound, and in its range. -/
theorem kept_step {moved : Chunk × Bytes × Nat} {action : Action}
    (inside : c.index < sizes.count src.len) (room : dest.length = src.len)
    (sound : c.Sound sizes src dest) (move : c.step sizes src dest action = some moved) :
    Kept sizes src dest c moved := by
  have held := sound.phase
  cases action with
  | pollRead met =>
    cases phase : c.phase with
    | reading =>
      simp only [step, phase] at move
      simp only [PhaseSound, phase] at held
      obtain ⟨carries, waits, asks⟩ := held
      split at move
      next used =>
        -- The limit is used up, and nothing is read ahead of it.
        have free : c.reader.task = none := by
          by_contra some
          have := waits (Option.isSome_iff_ne_none.mpr some)
          omega
        cases met with
        | nothing =>
          cases move
          refine kept_of_sound ⟨sound.limit, sound.confined, ⟨carries.reads, carries.writes⟩, free⟩
            rfl fun _ => ⟨?_, ?_⟩
          · rw [broken, phase]
          · simp only [counted, phase]
            rfl
        | task => cases move
        | file => cases move
      next more =>
        obtain ⟨polled, read, rfl⟩ := Option.map_eq_some_iff.mp move
        have served := Reader.pollRead_served carries.reads read
        -- A call that goes on has the room it was made with.
        have room : 0 < c.reader.room (min sizes.buffer c.limit) ∧
            c.reader.room (min sizes.buffer c.limit) ≤ min sizes.buffer c.limit := by
          rw [Reader.room]
          cases polling : c.reader.polling with
          | some room => exact asks room polling
          | none =>
            have := sizes.buffer_pos
            rw [Option.getD_none]
            omega
        exact kept_served sound phase carries room.1 room.2 served
    | _ => simp [step, phase] at move
  | pollWrite met =>
    cases phase : c.phase with
    | writing n rest => exact kept_pollWrite sound phase move
    | _ => simp [step, phase] at move
  | pollShutdown met =>
    cases phase : c.phase with
    | flushing => exact kept_flushing inside sound phase move
    | aborting e => exact kept_aborting sound phase move
    | _ => simp [step, phase] at move
  | reader action => exact kept_reader sound move
  | writer action =>
    rw [step] at move
    split at move
    next cursor is =>
      obtain ⟨background, move⟩ := Option.ite_none_right_eq_some.mp move
      obtain ⟨f, written, rfl⟩ := Option.map_eq_some_iff.mp move
      obtain ⟨t, task, -⟩ := running_of_step background written
      have confined := sound.confined
      rw [Confined, is] at confined
      have wrote := Writer.wrote_of_task
        (wrote_of_step background (fun t task going => (confined t task going).1) written)
      rw [← is] at wrote
      exact kept_wrote inside room sound (is ▸ Writer.not_still_of_task task) wrote
    next => cases move
  | remote action =>
    rw [step] at move
    split at move
    next => cases move
    next w is =>
      obtain ⟨moved, stepped, rfl⟩ := Option.map_eq_some_iff.mp move
      have stepped := RwFile.stepped_of_step stepped
      have wrote := Writer.wrote_of_file stepped
      rw [← is] at wrote
      exact kept_wrote inside room sound (is ▸ Writer.not_still_of_file stepped) wrote

end Chunk
end Yazi.Vfs
