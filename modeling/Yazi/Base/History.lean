import Mathlib.Data.List.Basic

/-!
# Linear histories

A history is a present value between the past ones, the latest first, and the ones that were
undone, the next first. Recording another value drops what was undone.
-/
namespace Yazi.Base

structure History (α : Type) where
  past : List α
  present : α
  future : List α
  deriving DecidableEq, Repr

namespace History

variable {α : Type}

def undo (h : History α) : History α :=
  match h.past with
  | [] => h
  | v :: past => ⟨past, v, h.present :: h.future⟩

def redo (h : History α) : History α :=
  match h.future with
  | [] => h
  | v :: future => ⟨h.present :: h.past, v, future⟩

def record [DecidableEq α] (h : History α) (v : α) : History α :=
  if v = h.present then h else ⟨h.present :: h.past, v, []⟩

/-- All values, the earliest first. -/
def all (h : History α) : List α := h.past.reverse ++ h.present :: h.future

@[simp] theorem record_present [DecidableEq α] (h : History α) (v : α) :
    (h.record v).present = v := by
  rw [record]
  split
  · next same => exact same.symm
  · rfl

theorem record_self [DecidableEq α] (h : History α) : h.record h.present = h := if_pos rfl

theorem record_of_ne [DecidableEq α] {h : History α} {v : α} (other : v ≠ h.present) :
    h.record v = ⟨h.present :: h.past, v, []⟩ := if_neg other

theorem redo_undo {h : History α} (some : h.past ≠ []) : h.undo.redo = h := by
  obtain ⟨past, present, future⟩ := h
  cases past with
  | nil => exact absurd rfl some
  | cons v past => rfl

@[simp] theorem all_undo (h : History α) : h.undo.all = h.all := by
  obtain ⟨past, present, future⟩ := h
  cases past with
  | nil => rfl
  | cons v past => simp [undo, all]

@[simp] theorem all_redo (h : History α) : h.redo.all = h.all := by
  obtain ⟨past, present, future⟩ := h
  cases future with
  | nil => rfl
  | cons v future => simp [redo, all]

theorem getElem?_all (h : History α) : h.all[h.past.length]? = some h.present := by
  rw [all, ← h.past.length_reverse, List.getElem?_append_right (Nat.le_refl _), Nat.sub_self]
  rfl

/-- One before the present is what was there last. -/
theorem getElem?_all_undo {h : History α} (some : h.past ≠ []) :
    h.all[h.past.length - 1]? = Option.some h.undo.present := by
  obtain ⟨past, present, future⟩ := h
  cases past with
  | nil => exact absurd rfl some
  | cons v past =>
    have at' := getElem?_all (undo ⟨v :: past, present, future⟩)
    rw [all_undo] at at'
    exact at'

/-- One behind it is what was undone last. -/
theorem getElem?_all_redo (h : History α) : h.all[h.past.length + 1]? = h.future.head? := by
  rw [all, ← h.past.length_reverse, List.getElem?_append_right (Nat.le_add_right ..),
    Nat.add_sub_cancel_left, List.getElem?_cons_succ, List.head?_eq_getElem?]

/-- What is behind the present makes room for another value. -/
theorem take_all (h : History α) :
    h.all.take (h.past.length + 1) = (h.present :: h.past).reverse := by
  have short : h.past.reverse.length ≤ h.past.length + 1 := by
    rw [List.length_reverse]
    exact Nat.le_succ _
  rw [all, List.take_append, List.take_of_length_le short, List.length_reverse,
    Nat.add_sub_cancel_left, List.reverse_cons]
  rfl

theorem all_record [DecidableEq α] {h : History α} {v : α} (other : v ≠ h.present) :
    (h.record v).all = h.all.take (h.past.length + 1) ++ [v] := by
  rw [record_of_ne other, take_all]
  rfl

end History
end Yazi.Base
