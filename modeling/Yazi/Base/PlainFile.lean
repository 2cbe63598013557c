import Mathlib.Data.List.Basic
import Yazi.Base.Run

/-!
# A plain file with one cursor

What is read is read at the cursor. What is written is accepted first and committed at the
cursor piece by piece, or dropped when it fails; nothing is read meanwhile.
-/
namespace Yazi.Base

variable {β : Type}

/-- As many elements as there are, from a position on. -/
def slice (content : List β) (start count : Nat) : List β := (content.drop start).take count

theorem slice_append (content : List β) (start first second : Nat) :
    slice content start first ++ slice content (start + first) second =
      slice content start (first + second) := by
  rw [slice, slice, slice, ← List.drop_drop, ← List.take_add]

theorem slice_take (content : List β) (start count n : Nat) :
    (slice content start count).take n = slice content start (min n count) := by
  rw [slice, slice, List.take_take]

theorem slice_drop (content : List β) (start count n : Nat) :
    (slice content start count).drop n = slice content (start + n) (count - n) := by
  rw [slice, slice, List.drop_take, List.drop_drop]

/-- The elements at a position are replaced, and a gap before it is filled. Nothing is filled
for no elements. -/
def overwrite [Inhabited β] (content : List β) (start : Nat) (data : List β) : List β :=
  if data.isEmpty then content
  else (content ++ List.replicate (start - content.length) default).take start ++ data ++
    content.drop (start + data.length)

/-- At its end a file grows. -/
theorem overwrite_end [Inhabited β] (content data : List β) :
    overwrite content content.length data = content ++ data := by
  rw [overwrite]
  split
  next empty =>
    have none : data = [] := by simpa using empty
    rw [none, List.append_nil]
  next =>
    rw [Nat.sub_self, List.replicate_zero, List.append_nil, List.take_length,
      List.drop_eq_nil_of_le (Nat.le_add_right ..), List.append_nil]

structure PlainFile (β : Type) where
  content : List β
  cursor : Nat
  accepted : List β

namespace PlainFile

inductive Event (β : Type) where
  | read (bytes : List β)
  /-- The end of the file is reported. -/
  | eof
  | accept (data : List β)
  /-- So much of what was accepted is written. -/
  | commit (count : Nat)
  /-- The rest of what was accepted is not written. -/
  | fail
  /-- All that was accepted is reported to be written. -/
  | flush

variable [DecidableEq β] [Inhabited β]

def step (f : PlainFile β) : Event β → Option (PlainFile β)
  | .read bytes =>
    if f.accepted = [] ∧ bytes = slice f.content f.cursor bytes.length then
      some { f with cursor := f.cursor + bytes.length }
    else none
  | .eof => if f.accepted = [] ∧ f.content.length ≤ f.cursor then some f else none
  | .accept data => if f.accepted = [] then some { f with accepted := data } else none
  | .commit count =>
    if count ≤ f.accepted.length then
      some
        { content := overwrite f.content f.cursor (f.accepted.take count)
          cursor := f.cursor + count
          accepted := f.accepted.drop count }
    else none
  | .fail => some { f with accepted := [] }
  | .flush => if f.accepted = [] then some f else none

/-- What has been read. -/
def Event.bytes : Event β → List β
  | .read bytes => bytes
  | _ => []

/-- Nothing is written with it. -/
def Event.reads : Event β → Bool
  | .read _ => true
  | .eof => true
  | .flush => true
  | _ => false

theorem step_reads {f g : PlainFile β} {event : Event β} (reads : event.reads = true)
    (move : f.step event = some g) :
    event.bytes = slice f.content f.cursor event.bytes.length ∧
      g.content = f.content ∧ g.cursor = f.cursor + event.bytes.length := by
  cases event with
  | read bytes =>
    simp only [step, Option.ite_none_right_eq_some] at move
    obtain ⟨⟨-, here⟩, ⟨⟩⟩ := move
    exact ⟨here, rfl, rfl⟩
  | eof | flush =>
    simp only [step, Option.ite_none_right_eq_some] at move
    obtain ⟨-, ⟨⟩⟩ := move
    exact ⟨rfl, rfl, rfl⟩
  | accept data => cases reads
  | commit count => cases reads
  | fail => cases reads

/-- Reads that follow each other return neighbouring parts of the file. -/
theorem exec_reads {f g : PlainFile β} {events : List (Event β)}
    (reads : ∀ event ∈ events, event.reads = true) (moves : exec step f events = some g) :
    events.flatMap Event.bytes =
      slice f.content f.cursor (events.flatMap Event.bytes).length := by
  induction events generalizing f with
  | nil => simp [slice]
  | cons event events ih =>
    obtain ⟨next, move, rest⟩ := Option.bind_eq_some_iff.mp moves
    obtain ⟨here, content, cursor⟩ := step_reads (reads event (List.mem_cons_self ..)) move
    have more := ih (fun event member => reads event (List.mem_cons_of_mem _ member)) rest
    rw [content, cursor] at more
    rw [List.flatMap_cons, List.length_append, ← slice_append, ← here, ← more]

end PlainFile

end Yazi.Base
