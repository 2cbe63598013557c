import Mathlib
import Yazi.Vfs.ProgressiveCopier

/-!
Moving a part of one file to the same place in another.

What was read is partly written, and the rest is on its way or still at hand, in this order. The
part that is written equals the source, and writes elsewhere leave it alone.
-/
namespace Yazi.Vfs
open Yazi.Base Yazi.Shared Yazi.Fs

-- ═══════════════════════════════════════════════════════════════
-- Writes position by position
-- ═══════════════════════════════════════════════════════════════

/-- Inside the file, a write changes what it is about and nothing else. -/
theorem getElem?_overwrite {content data : Bytes} {start : Nat} (inside : start ≤ content.length)
    (pos : Nat) : (overwrite content start data)[pos]? =
      if start ≤ pos ∧ pos < start + data.length then data[pos - start]? else content[pos]? := by
  have gapless : start - content.length = 0 := by omega
  have front : (content.take start).length = start := by
    rw [List.length_take]
    omega
  rw [overwrite]
  split
  next empty =>
    have none : data.length = 0 := by simpa using empty
    rw [if_neg (by omega)]
  next =>
    rw [gapless, List.replicate_zero, List.append_nil, List.append_assoc]
    by_cases before : pos < start
    · rw [if_neg (by omega), List.getElem?_append_left (by omega), List.getElem?_take_of_lt before]
    rw [List.getElem?_append_right (by omega), front]
    by_cases within : pos < start + data.length
    · rw [if_pos ⟨by omega, within⟩, List.getElem?_append_left (by omega)]
    · rw [if_neg (by omega), List.getElem?_append_right (by omega), List.getElem?_drop]
      congr 1
      omega

theorem length_overwrite {content data : Bytes} {start : Nat}
    (inside : start + data.length ≤ content.length) :
    (overwrite content start data).length = content.length := by
  have gapless : start - content.length = 0 := by omega
  rw [overwrite]
  split
  · rfl
  · simp only [gapless, List.replicate_zero, List.append_nil, List.length_append, List.length_take,
      List.length_drop]
    omega

theorem getElem?_slice {content : Bytes} {start count pos : Nat} :
    (slice content start count)[pos]? = if pos < count then content[start + pos]? else none := by
  rw [slice]
  split
  next inside => rw [List.getElem?_take_of_lt inside, List.getElem?_drop]
  next outside => rw [List.getElem?_eq_none]; rw [List.length_take]; omega

theorem length_slice {content : Bytes} {start count : Nat}
    (inside : start + count ≤ content.length) : (slice content start count).length = count := by
  rw [slice, List.length_take, List.length_drop]
  omega

-- ═══════════════════════════════════════════════════════════════
-- A part on its way
-- ═══════════════════════════════════════════════════════════════

/-- From an offset on so many bytes were read, of which some are still ahead of what is written. -/
structure Piped (content dest : Bytes) (offset count written : Nat) (ahead : Bytes) : Prop where
  start : offset ≤ written
  place : written + ahead.length = offset + count
  inside : 0 < count → offset + count ≤ content.length
  held : ahead = slice content written ahead.length
  done : ∀ pos, offset ≤ pos → pos < written → dest[pos]? = content[pos]?

variable {content dest ahead : Bytes} {offset count written : Nat}

theorem piped_start (content dest : Bytes) (offset : Nat) :
    Piped content dest offset 0 offset [] where
  start := Nat.le_refl _
  place := rfl
  inside := nofun
  held := by simp [slice]
  done := by omega

theorem Piped.read (piped : Piped content dest offset count written ahead) {bytes : Bytes}
    (here : bytes = slice content (offset + count) bytes.length)
    (more : offset + (count + bytes.length) ≤ content.length) :
    Piped content dest offset (count + bytes.length) written (ahead ++ bytes) where
  start := piped.start
  place := by
    have place := piped.place
    rw [List.length_append]
    omega
  inside := fun _ => more
  held := by
    rw [List.length_append, ← slice_append, ← piped.held, piped.place, ← here]
  done := piped.done

theorem Piped.commit (piped : Piped content dest offset count written ahead) {n : Nat}
    (enough : n ≤ ahead.length) (room : written ≤ dest.length) :
    Piped content (overwrite dest written (ahead.take n)) offset count (written + n)
      (ahead.drop n) := by
  have here := piped.held
  have front : (ahead.take n).length = n := by
    rw [List.length_take]
    omega
  have place := piped.place
  have begun := piped.start
  refine ⟨by omega, ?_, piped.inside, ?_, ?_⟩
  · rw [List.length_drop]
    omega
  · rw [List.length_drop]
    conv_lhs => rw [here, slice_drop]
  · intro pos from_ below
    rw [getElem?_overwrite room, front]
    split
    next inside =>
      have index : written + (pos - written) = pos := by omega
      rw [here, slice_take, Nat.min_eq_left enough, getElem?_slice, if_pos (by omega), index]
    next outside => exact piped.done pos from_ (by omega)

/-- A write elsewhere. -/
theorem Piped.frame (piped : Piped content dest offset count written ahead) {dest' : Bytes}
    (same : ∀ pos, offset ≤ pos → pos < written → dest'[pos]? = dest[pos]?) :
    Piped content dest' offset count written ahead :=
  ⟨piped.start, piped.place, piped.inside, piped.held,
    fun pos from_ below => (same pos from_ below).trans (piped.done pos from_ below)⟩

end Yazi.Vfs
