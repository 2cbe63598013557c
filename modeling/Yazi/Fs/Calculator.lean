import Mathlib.Data.List.Basic
import Yazi.Base.Run

/-!
# The size of a directory, in chunks

The calculator goes through a directory with a queue of directories that are still to be opened
and of listings that are half read. It does so in chunks, each on a blocking thread, that end
after some entries or some time, and hands out what each chunk has added up. Nothing changes on
the disk meanwhile, so a path stands for what is there.
-/
namespace Yazi.Fs
open Yazi.Base

/-- What a listing yields. Links are not followed, so they are entries that are no directories. -/
inductive Dirent where
  /-- The listing fails here. -/
  | broken
  /-- `file_type` fails. -/
  | untyped
  /-- No directory, with its length if `metadata` succeeds. -/
  | file (len : Option UInt64)
  | dir (entries : List Dirent)
  /-- A directory that cannot be read. -/
  | locked

namespace Dirent

def isDir : Dirent → Bool
  | dir _ | locked => true
  | broken | untyped | file _ => false

/-- `std::fs::read_dir` of the path. -/
def readDir : Dirent → Option (List Dirent)
  | dir entries => some entries
  | broken | untyped | file _ | locked => none

/-- The lengths of all entries that are no directories, added up. -/
def total : Dirent → Nat
  | file (some len) => len.toNat
  | dir entries => totals entries
  | broken | untyped | file none | locked => 0
where
  totals : List Dirent → Nat
    | [] => 0
    | entry :: entries => total entry + totals entries

/-- How often the loop turns for an entry and what it leads to. -/
def work : Dirent → Nat
  | dir entries => 2 + works entries
  | locked => 2
  | broken | untyped | file _ => 1
where
  works : List Dirent → Nat
    | [] => 0
    | entry :: entries => work entry + works entries

end Dirent

namespace SizeCalculator

/-- `Either<PathBuf, std::fs::ReadDir>` -/
inductive Task where
  | left (path : Dirent)
  | right (listing : List Dirent)

/-- The entries that are left to read. -/
def Task.entries : Task → List Dirent
  | left path => path.readDir.getD []
  | right listing => listing

/-- `*front = match std::fs::read_dir(p) { .. }` -/
def Task.read : Task → Option (List Dirent)
  | left path => path.readDir
  | right listing => some listing

/-- The most entries of a chunk. -/
def limit : Nat := 5000

/-- The loop of `next_chunk`, with so many turns left. `inTime` is what the clock says before each
turn. -/
def turns (inTime : Nat → Bool) : Nat → List Task → UInt64 → List Task × Option UInt64
  | 0, buf, size => (buf, some size)
  | left + 1, buf, size =>
    if !inTime (limit - (left + 1)) then (buf, some size)
    else
      match buf with
      | [] => ([], none)
      | front :: rest =>
        match front.read with
        | none | some [] =>
          -- `pop_and_continue!`
          if rest.isEmpty then ([], some size) else turns inTime left rest size
        | some (entry :: listing) =>
          match entry with
          | .broken | .untyped => turns inTime left (.right listing :: rest) size
          | .file len => turns inTime left (.right listing :: rest) (size + len.getD 0)
          | .dir _ | .locked =>
            turns inTime left (.right listing :: rest ++ [.left entry]) size

def nextChunk (inTime : Nat → Bool) (buf : List Task) : List Task × Option UInt64 :=
  turns inTime limit buf 0

end SizeCalculator

open SizeCalculator in
/-- `Pending` is split by whether the blocking thread is done. -/
inductive SizeCalculator where
  | idle (buf : List Task) (size : Option UInt64)
  | pending (buf : List Task)
  | done (buf : List Task) (size : Option UInt64)

namespace SizeCalculator

/-- `SizeCalculator::new`: a directory has its first chunk at once. `none` is an error. -/
def new (inTime : Nat → Bool) : Dirent → Option SizeCalculator
  | .file (some len) => some (.idle [] (some len))
  | .dir entries =>
    let (buf, size) := nextChunk inTime [.right entries]
    some (.idle buf size)
  | .broken | .untyped | .file none | .locked => none

/-- The calculator and what `next` has returned so far. -/
structure State where
  calculator : SizeCalculator
  answers : List (Option UInt64) := []

inductive Label where
  /-- `next` is polled. A call that is given up leaves everything as it is. -/
  | poll
  /-- The blocking thread takes its chunk. -/
  | run (inTime : Nat → Bool)

/-- A poll of `next` that does not have to wait for the blocking thread. -/
def answer (s : State) (buf : List Task) : Option UInt64 → State
  | some size => ⟨.idle buf none, s.answers ++ [some size]⟩
  | none =>
    if buf.isEmpty then ⟨.idle buf none, s.answers ++ [none]⟩
    else { s with calculator := .pending buf }

def step (s : State) : Label → Option State
  | .poll =>
    match s.calculator with
    | .idle buf size | .done buf size => some (answer s buf size)
    | .pending _ => some s
  | .run inTime =>
    match s.calculator with
    | .pending buf =>
      let (buf, size) := nextChunk inTime buf
      some { s with calculator := .done buf size }
    | .idle .. | .done .. => none

/-- The values before the first `None`. -/
def yielded (s : State) : List UInt64 := (s.answers.takeWhile Option.isSome).filterMap id

/-- `SizeCalculator::total` -/
def total (s : State) : UInt64 := (yielded s).foldl (· + ·) 0

end SizeCalculator
end Yazi.Fs
