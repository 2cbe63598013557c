import Yazi.Vfs.RwFile

/-!
The copier that reports its progress: a file is copied in chunks that run side by side.

Every chunk has a cursor of its own over the source and one over the destination, and moves bytes
from the one to the other until its limit is used up. Where a file cannot be read or written at
any place, or has no length, it is copied from its start to its end instead.
-/
namespace Yazi.Vfs
open Yazi.Base Yazi.Shared Yazi.Fs

/-- The constants of the code. -/
structure Sizes where
  perChunk : Nat
  buffer : Nat
  /-- Of a cursor that reads ahead, or gathers what is to be written. -/
  capacity : Nat
  perChunk_pos : 0 < perChunk
  buffer_pos : 0 < buffer
  buffer_lt : buffer < capacity

def Sizes.real : Sizes :=
  ⟨8 * 1024 * 1024, 128 * 1024, 512 * 1024, by decide, by decide, by decide⟩

structure Source where
  content : Bytes
  /-- As its metadata said. -/
  len : Nat
  /-- It is no file on the disk. -/
  remote : Bool

inductive ChunkError where
  | io (e : IoError)
  | short (i copied take : Nat)
  deriving DecidableEq

def ChunkError.message : ChunkError → Option String
  | io _ => none
  | short i copied take =>
    some ("short copy for chunk " ++ toString i ++ ": copied " ++ toString copied ++
      " bytes, expected " ++ toString take)

namespace Sizes
variable (sizes : Sizes) (len : Nat)

/-- `u64::div_ceil` -/
def count : Nat := (len + sizes.perChunk - 1) / sizes.perChunk

def offset (i : Nat) : Nat := i * sizes.perChunk

def take (i : Nat) : Nat := min sizes.perChunk (len - sizes.offset i)

end Sizes

/-! ### A chunk -/

inductive Chunk.Phase where
  | reading
  /-- Of so many bytes the rest is still to be written. -/
  | writing (n : Nat) (rest : Bytes)
  | flushing
  | aborting (e : ChunkError)
  | ended (result : Except ChunkError Unit)

structure Chunk where
  index : Nat
  /-- What may still be read. -/
  limit : Nat
  reader : Reader
  writer : Writer
  phase : Chunk.Phase

namespace Chunk

inductive Action where
  | pollRead (met : Met (Poll (Except IoError Nat)))
  | pollWrite (met : Met RwFile.Answer)
  | pollShutdown (met : Met RwFile.Answer)
  /-- What a task does behind the back of a local cursor. -/
  | reader (action : OpenFile.Action)
  | writer (action : OpenFile.Action)
  /-- What becomes of the bytes on their way to another file. -/
  | remote (action : RwFile.Action)

def background : OpenFile.Action → Bool
  | .readAt _ | .writeAt _ | .interrupted | .failed _ | .cancelled => true
  | .pollRead .. | .resumeRead _ | .pollWrite .. | .pollFlush _ => false

/-- What goes on when the cursors are gone. -/
def Action.behind : Action → Bool
  | .writer _ | .remote _ => true
  | _ => false

def make (sizes : Sizes) (src : Source) (remote : Bool) (i : Nat) : Chunk :=
  ⟨i, sizes.take src.len i, .make src.remote (sizes.offset i), .make remote (sizes.offset i),
    .reading⟩

/-- What comes of a read: the bytes to write, or the end. -/
def served (c : Chunk) (polled : Reader × Poll (Except IoError (Option Bytes))) : Chunk :=
  let c := { c with reader := polled.1 }
  match polled.2 with
  | .pending | .ready (.ok none) => c
  | .ready (.error e) => { c with phase := .aborting (.io e) }
  | .ready (.ok (some bytes)) =>
    if bytes = [] then { c with phase := .flushing }
    else
      { c with limit := c.limit - bytes.length, phase := .writing bytes.length bytes }

/-- What comes of a write of the rest of so many bytes, and how many are counted. -/
def wrote (c : Chunk) (n : Nat) (rest : Bytes)
    (polled : Writer × Poll (Except IoError (Option Nat))) : Chunk × Nat :=
  let c := { c with writer := polled.1 }
  match polled.2 with
  | .pending | .ready (.ok none) => (c, 0)
  | .ready (.error e) => ({ c with phase := .aborting (.io e) }, 0)
  | .ready (.ok (some k)) =>
    if k = 0 then ({ c with phase := .aborting (.io .writeZero) }, 0)
    else if rest.drop k = [] then ({ c with phase := .reading }, n)
    else ({ c with phase := .writing n (rest.drop k) }, 0)

/-- What comes of the end of a copy that went well. -/
def shut (sizes : Sizes) (len : Nat) (c : Chunk)
    (polled : Writer × Poll (Except IoError (Option Unit))) : Chunk :=
  let c := { c with writer := polled.1 }
  match polled.2 with
  | .pending | .ready (.ok none) => c
  | .ready (.error e) => { c with phase := .ended (.error (.io e)) }
  | .ready (.ok (some ())) =>
    let take := sizes.take len c.index
    let copied := take - c.limit
    { c with
      phase := .ended (if copied ≠ take then .error (.short c.index copied take) else .ok ()) }

/-- A step of `ProgressiveCopier::map`, with what it makes of the destination and how many bytes
it counts. -/
def step (sizes : Sizes) (src : Source) (dest : Bytes) (c : Chunk) :
    Action → Option (Chunk × Bytes × Nat)
  | .pollRead met =>
    match c.phase with
    | .reading =>
      -- `Take` does not ask any more when its limit is used up.
      if c.limit = 0 then
        match met with
        | .nothing => some ({ c with phase := .flushing }, dest, 0)
        | _ => none
      else
        let room := min sizes.buffer c.limit
        (c.reader.pollRead sizes.capacity src.content room met).map fun polled =>
          (c.served polled, dest, 0)
    | _ => none
  | .pollWrite met =>
    match c.phase with
    | .writing n rest =>
      (c.writer.pollWrite sizes.capacity rest met).map fun polled =>
        let (c, counted) := c.wrote n rest polled
        (c, dest, counted)
    | _ => none
  | .pollShutdown met =>
    match c.phase with
    | .flushing =>
      (c.writer.pollShutdown met).map fun polled => (c.shut sizes src.len polled, dest, 0)
    | .aborting e =>
      (c.writer.abort met).map fun (writer, polled) =>
        match polled with
        | .pending => ({ c with writer }, dest, 0)
        | .ready _ => ({ c with writer, phase := .ended (.error e) }, dest, 0)
    | _ => none
  | .reader action =>
    match c.reader with
    | .local cursor polling =>
      if background action then
        (OpenFile.step sizes.capacity ⟨cursor, src.content, polling, []⟩ action).map fun f =>
          ({ c with reader := .local f.cursor polling }, dest, 0)
      else none
    | .buffered _ => none
  | .writer action =>
    match c.writer with
    | .local cursor =>
      if background action then
        (OpenFile.step sizes.capacity ⟨cursor, dest, none, []⟩ action).map fun f =>
          ({ c with writer := .local f.cursor }, f.content, 0)
      else none
    | .buffered _ => none
  | .remote action =>
    match c.writer with
    | .local _ => none
    | .buffered w =>
      (w.file.step dest action).map fun (file, dest) =>
        ({ c with writer := .buffered { w with file } }, dest, 0)

end Chunk

/-! ### A copy from the start to the end -/

inductive Sequential.Phase where
  | reading
  | writing (n : Nat) (rest : Bytes)
  | shutting (result : Except ChunkError Unit)
  | ended (result : Except ChunkError Unit)

/-- `ProgressiveCopier::work_sequential` -/
structure Sequential where
  cursor : Nat
  dist : RwFile
  phase : Sequential.Phase

namespace Sequential

inductive Action where
  | read (result : Except IoError Nat)
  | write (answer : RwFile.Answer)
  | behind (action : RwFile.Action)
  | shutdown (answer : RwFile.Answer)

def make : Sequential := ⟨0, .make 0, .reading⟩

/-- `Result::and` -/
def both (result : Except ChunkError Unit) (shutdown : Except IoError Unit) :
    Except ChunkError Unit :=
  match result, shutdown with
  | .error e, _ => .error e
  | .ok (), .error e => .error (.io e)
  | .ok (), .ok () => .ok ()

/-- What comes of a write of the rest of so many bytes, and how many are counted. -/
def wrote (s : Sequential) (n : Nat) (rest : Bytes) (polled : RwFile × Poll (Except IoError Nat)) :
    Sequential × Nat :=
  let s := { s with dist := polled.1 }
  match polled.2 with
  | .pending => (s, 0)
  | .ready (.error e) => ({ s with phase := .shutting (.error (.io e)) }, 0)
  | .ready (.ok k) =>
    if k = 0 then ({ s with phase := .shutting (.error (.io .writeZero)) }, 0)
    else if rest.drop k = [] then ({ s with phase := .reading }, n)
    else ({ s with phase := .writing n (rest.drop k) }, 0)

def step (sizes : Sizes) (src : Source) (dest : Bytes) (s : Sequential) :
    Action → Option (Sequential × Bytes × Nat)
  | .read result =>
    match s.phase, result with
    | .reading, .error e => some ({ s with phase := .shutting (.error (.io e)) }, dest, 0)
    | .reading, .ok n =>
      if readable src.content s.cursor sizes.buffer n then
        if n = 0 then some ({ s with phase := .shutting (.ok ()) }, dest, 0)
        else
          some
            ({ s with
              cursor := s.cursor + n
              phase := .writing n (slice src.content s.cursor n) }, dest, 0)
      else none
    | _, _ => none
  | .write answer =>
    match s.phase with
    | .writing n rest =>
      (s.dist.pollWrite rest answer).map fun polled =>
        let (s, counted) := s.wrote n rest polled
        (s, dest, counted)
    | _ => none
  | .behind action =>
    (s.dist.step dest action).map fun (dist, dest) => ({ s with dist }, dest, 0)
  | .shutdown answer =>
    match s.phase with
    | .shutting result =>
      (s.dist.pollShutdown answer).map fun (dist, polled) =>
        match polled with
        | .pending => ({ s with dist }, dest, 0)
        | .ready shutdown => ({ s with dist, phase := .ended (both result shutdown) }, dest, 0)
    | _ => none

end Sequential

/-! ### The copier -/

inductive ProgressiveCopier.Phase where
  | opening
  | statting
  | creating (random : Bool)
  | sizing
  | running
  | sequential (s : Sequential)
  | reporting (result : Except ChunkError Unit)
  | ended (result : Except ChunkError Unit)
  /-- Nobody waits for it any more. -/
  | dropped

structure ProgressiveCopier where
  phase : ProgressiveCopier.Phase := .opening
  /-- The chunks that were begun, in their order. -/
  chunks : List Chunk := []
  dest : Bytes
  /-- The destination is no file on the disk. -/
  remote : Bool
  /-- What is still to be reported. -/
  acc : Nat := 0
  sent : List Nat := []

namespace ProgressiveCopier

inductive Action where
  | open (error : Option IoError) (random : Bool)
  | metadata (error : Option IoError)
  | create (error : Option IoError) (random : Bool)
  | setLen (error : Option IoError)
  /-- A chunk is begun, or its cursors cannot be had. -/
  | start (error : Option IoError)
  | chunk (i : Nat) (action : Chunk.Action)
  | finish
  | sequential (action : Sequential.Action)
  | report
  | closed

/-- `ProgressiveCopier::report` -/
def report (c : ProgressiveCopier) : ProgressiveCopier :=
  if 0 < c.acc then { c with sent := c.sent ++ [c.acc], acc := 0 } else c

def fail (c : ProgressiveCopier) (e : IoError) : ProgressiveCopier :=
  { c with phase := .ended (.error (.io e)) }

def Chunk.over (c : Chunk) : Bool :=
  match c.phase with
  | .ended _ => true
  | _ => false

def Chunk.succeeded (c : Chunk) : Bool :=
  match c.phase with
  | .ended (.ok ()) => true
  | _ => false

/-- As many chunks as run at once. -/
def concurrency : Nat := 4

/-- The first chunk that fails ends the others. -/
def afterChunk (c : ProgressiveCopier) (i : Nat) (moved : Chunk × Bytes × Nat) :
    ProgressiveCopier :=
  { c with
    chunks := c.chunks.set i moved.1
    dest := moved.2.1
    acc := c.acc + moved.2.2
    phase := match moved.1.phase with
      | .ended (.error e) => .reporting (.error e)
      | _ => c.phase }

def afterSequential (c : ProgressiveCopier) (moved : Sequential × Bytes × Nat) :
    ProgressiveCopier :=
  { c with
    dest := moved.2.1
    acc := c.acc + moved.2.2
    phase := match moved.1.phase with
      | .ended result => .reporting result
      | _ => .sequential moved.1 }

/-- What is on its way is written, or lost, when its cursor is gone. -/
def behind (sizes : Sizes) (src : Source) (c : ProgressiveCopier) (i : Nat)
    (action : Chunk.Action) : Option ProgressiveCopier :=
  if action.behind then
    c.chunks[i]?.bind fun chunk =>
      (chunk.step sizes src c.dest action).map fun moved =>
        { c with chunks := c.chunks.set i moved.1, dest := moved.2.1 }
  else none

/-- A step of `ProgressiveCopier::watch` and of the work in it. -/
def step (sizes : Sizes) (src : Source) (c : ProgressiveCopier) (action : Action) :
    Option ProgressiveCopier :=
  match c.phase, action with
  | .reporting (.error _), .chunk i action => c.behind sizes src i action
  | .ended (.error _), .chunk i action => c.behind sizes src i action
  | .dropped, .chunk i action => c.behind sizes src i action
  | .ended _, _ => none
  | .dropped, _ => none
  | _, .closed => some { c with phase := .dropped }
  | .reporting result, .report => some { c.report with phase := .ended result }
  | _, .report => some c.report
  | .opening, .open (some e) _ => some (c.fail e)
  | .opening, .open none random =>
    some { c with phase := if random then .statting else .creating false }
  | .statting, .metadata (some e) => some (c.fail e)
  | .statting, .metadata none => some { c with phase := .creating true }
  | .creating _, .create (some e) _ => some (c.fail e)
  | .creating random, .create none random' =>
    some
      { c with
        dest := []
        phase := if random && random' then
          if src.len = 0 then .sequential .make else .sizing
        else .sequential .make }
  | .sizing, .setLen (some e) => some { c with phase := .reporting (.error (.io e)) }
  | .sizing, .setLen none => some { c with dest := List.replicate src.len 0, phase := .running }
  | .running, .start error =>
    if c.chunks.length < sizes.count src.len ∧ c.chunks.countP (!Chunk.over ·) < concurrency then
      match error with
      | some e => some { c with phase := .reporting (.error (.io e)) }
      | none => some { c with chunks := c.chunks ++ [.make sizes src c.remote c.chunks.length] }
    else none
  | .running, .chunk i action =>
    c.chunks[i]?.bind fun chunk => (chunk.step sizes src c.dest action).map (c.afterChunk i)
  | .running, .finish =>
    if c.chunks.length = sizes.count src.len ∧ c.chunks.all Chunk.succeeded then
      some { c with phase := .reporting (.ok ()) }
    else none
  | .sequential s, .sequential action => (s.step sizes src c.dest action).map c.afterSequential
  | _, _ => none

def make (prior : Bytes) (remote : Bool) : ProgressiveCopier := { dest := prior, remote }

end ProgressiveCopier
end Yazi.Vfs
