import Yazi.Base.Keyed

/-!
# An index of two levels

Each pair of keys has a list of values. A list that becomes empty is taken out, and so is a
level that becomes empty with it.
-/
namespace Yazi.Base

abbrev Index (τ κ ν : Type) := Assoc τ (Assoc κ (List ν))

namespace Index

variable {τ κ ν : Type} [BEq τ] [BEq κ]

/-- The values of a pair of keys. -/
def find (m : Index τ κ ν) (t : τ) (k : κ) : List ν :=
  (((m.get? t).bind (·.get? k)).getD [])

/-- Add a value at the end of its list. -/
def enrol (m : Index τ κ ν) (t : τ) (k : κ) (v : ν) : Index τ κ ν :=
  let level := (m.get? t).getD []
  m.insert t (level.insert k ((level.get? k).getD [] ++ [v]))

/-- Take the values that equal `v` out of their list. -/
def strike [BEq ν] (m : Index τ κ ν) (t : τ) (k : κ) (v : ν) : Index τ κ ν :=
  match m.get? t with
  | none => m
  | some level =>
    let level :=
      match level.get? k with
      | none => level
      | some values =>
        let values := values.filter (· != v)
        if values.isEmpty then level.erase k else level.insert k values
    if level.isEmpty then m.erase t else m.insert t level

/-- No level and no list is empty. -/
def Trim (m : Index τ κ ν) : Prop :=
  ∀ t level, m.get? t = some level → level ≠ [] ∧ ∀ k values, level.get? k = some values → values ≠ []

@[simp] theorem find_nil (t : τ) (k : κ) : find ([] : Index τ κ ν) t k = [] := rfl

theorem trim_nil : Trim ([] : Index τ κ ν) := nofun

private theorem insert_ne_nil (m : Assoc κ ν) (k : κ) (v : ν) : m.insert k v ≠ [] := by
  cases m with
  | nil => exact List.cons_ne_nil _ _
  | cons entry m =>
    simp only [Assoc.insert]
    split <;> exact List.cons_ne_nil _ _

variable [EquivBEq τ] [EquivBEq κ]

theorem find_enrol (m : Index τ κ ν) (t t' : τ) (k k' : κ) (v : ν) :
    (m.enrol t k v).find t' k' =
      if (t' == t) = true ∧ (k' == k) = true then m.find t' k' ++ [v] else m.find t' k' := by
  simp only [find, enrol, Assoc.get?_insert]
  by_cases same : (t' == t) = true
  · rw [if_pos same, Option.bind_some, Assoc.get?_insert, Assoc.get?_congr m same]
    by_cases key : (k' == k) = true
    · rw [if_pos key, if_pos ⟨same, key⟩]
      cases m.get? t with
      | none => rfl
      | some level =>
        have congr := Assoc.get?_congr level key
        simp only [Option.getD_some, Option.bind_some, congr]
    · rw [if_neg key, if_neg fun both => key both.2]
      cases m.get? t <;> rfl
  · rw [if_neg same, if_neg fun both => same both.1]

theorem Trim.enrol {m : Index τ κ ν} (trim : m.Trim) (t : τ) (k : κ) (v : ν) :
    (m.enrol t k v).Trim := by
  intro t' level found
  simp only [Index.enrol, Assoc.get?_insert] at found
  split at found
  · cases found
    refine ⟨insert_ne_nil _ _ _, fun k' values here => ?_⟩
    rw [Assoc.get?_insert] at here
    split at here
    · cases here
      simp
    · cases old : m.get? t with
      | none =>
        rw [old] at here
        cases here
      | some level =>
        rw [old] at here
        exact (trim t level old).2 k' values here
  · exact trim t' level found

variable [BEq ν]

/-- What a level is after a value was taken out. -/
private def remain (level : Assoc κ (List ν)) (k : κ) (v : ν) : Assoc κ (List ν) :=
  match level.get? k with
  | none => level
  | some values =>
    let values := values.filter (· != v)
    if values.isEmpty then level.erase k else level.insert k values

private theorem find_remain (level : Assoc κ (List ν)) (k k' : κ) (v : ν) :
    ((remain level k v).get? k').getD [] =
      if (k' == k) = true then ((level.get? k').getD []).filter (· != v)
      else (level.get? k').getD [] := by
  rw [remain]
  split
  · next none =>
    split
    · next same => rw [Assoc.get?_congr level same, none]; rfl
    · rfl
  · next values found =>
    dsimp only
    split
    · next empty =>
      rw [Assoc.get?_erase, BEq.comm]
      split
      · next same =>
        rw [Assoc.get?_congr level same, found, Option.getD_some, List.isEmpty_iff.mp empty]
        rfl
      · rfl
    · rw [Assoc.get?_insert]
      split
      · next same => rw [Assoc.get?_congr level same, found]; rfl
      · rfl

omit [EquivBEq τ] [EquivBEq κ] in
private theorem strike_eq (m : Index τ κ ν) (t : τ) (k : κ) (v : ν) :
    m.strike t k v = match m.get? t with
      | none => m
      | some level =>
        if (remain level k v).isEmpty then m.erase t else m.insert t (remain level k v) := rfl

theorem find_strike (m : Index τ κ ν) (t t' : τ) (k k' : κ) (v : ν) :
    (m.strike t k v).find t' k' =
      if (t' == t) = true ∧ (k' == k) = true then (m.find t' k').filter (· != v)
      else m.find t' k' := by
  rw [strike_eq]
  split
  · next none =>
    split
    · next both => rw [find, Assoc.get?_congr m both.1, none]; rfl
    · rfl
  · next level found =>
    have inside (here : (t' == t) = true) : m.find t' k' = (level.get? k').getD [] := by
      rw [find, Assoc.get?_congr m here, found, Option.bind_some]
    by_cases here : (t' == t) = true
    · have changed : ((remain level k v).get? k').getD [] =
          if (t' == t) = true ∧ (k' == k) = true then (m.find t' k').filter (· != v)
          else m.find t' k' := by
        rw [find_remain, inside here]
        simp only [here, true_and]
      rw [← changed]
      split
      · next empty =>
        rw [find, Assoc.get?_erase, BEq.comm, if_pos here, List.isEmpty_iff.mp empty]
        rfl
      · rw [find, Assoc.get?_insert, if_pos here, Option.bind_some]
    · have apart : ¬((t' == t) = true ∧ (k' == k) = true) := fun both => here both.1
      rw [if_neg apart]
      split
      · rw [find, Assoc.get?_erase, BEq.comm, if_neg here, find]
      · rw [find, Assoc.get?_insert, if_neg here, find]

theorem Trim.strike {m : Index τ κ ν} (trim : m.Trim) (t : τ) (k : κ) (v : ν) :
    (m.strike t k v).Trim := by
  rw [strike_eq]
  split
  · exact trim
  · next level found =>
    obtain ⟨some, full⟩ := trim t level found
    intro t' level' found'
    split at found'
    · rw [Assoc.get?_erase] at found'
      split at found'
      · cases found'
      · exact trim t' level' found'
    · next left =>
      rw [Assoc.get?_insert] at found'
      split at found'
      · cases found'
        refine ⟨fun none => left (List.isEmpty_iff.mpr none), fun k' values here => ?_⟩
        rw [remain] at here
        split at here
        · exact full k' values here
        · dsimp only at here
          split at here
          · rw [Assoc.get?_erase] at here
            split at here
            · cases here
            · exact full k' values here
          · next more =>
            rw [Assoc.get?_insert] at here
            split at here
            · cases here
              exact fun none => more (List.isEmpty_iff.mpr none)
            · exact full k' values here
      · exact trim t' level' found'

end Index

end Yazi.Base
