import Mathlib.Data.List.Basic

/-!
# Maps as association lists

The keys are compared by a Boolean equality that need only be an equivalence. As in a
hash map, replacing a value keeps the key that is there.
-/
namespace Yazi.Base

abbrev Assoc (κ ν : Type) := List (κ × ν)

namespace Assoc

variable {κ ν : Type} [BEq κ]

def get? (m : Assoc κ ν) (k : κ) : Option ν := m.lookup k

def insert : Assoc κ ν → κ → ν → Assoc κ ν
  | [], k, v => [(k, v)]
  | (k', v') :: m, k, v => if k == k' then (k', v) :: m else (k', v') :: insert m k v

def erase (m : Assoc κ ν) (k : κ) : Assoc κ ν := m.filter fun entry => !(k == entry.1)

def retain (m : Assoc κ ν) (keep : κ → Bool) : Assoc κ ν := m.filter fun entry => keep entry.1

def keys (m : Assoc κ ν) : List κ := m.map (·.1)

@[simp] theorem get?_nil (k : κ) : get? ([] : Assoc κ ν) k = none := rfl

theorem get?_cons (k k' : κ) (v : ν) (m : Assoc κ ν) :
    get? ((k', v) :: m) k = if k == k' then some v else get? m k := by
  simp only [get?, List.lookup_cons]
  cases k == k' <;> rfl

theorem mem_of_get? {m : Assoc κ ν} {k : κ} {v : ν} (found : get? m k = some v) :
    ∃ k', (k', v) ∈ m ∧ (k == k') = true := by
  induction m with
  | nil => cases found
  | cons entry m ih =>
    obtain ⟨k', v'⟩ := entry
    rw [get?_cons] at found
    split at found
    · next same =>
      cases found
      exact ⟨k', List.mem_cons_self .., same⟩
    · obtain ⟨k'', member, same⟩ := ih found
      exact ⟨k'', List.mem_cons_of_mem _ member, same⟩

variable [EquivBEq κ]

theorem get?_congr (m : Assoc κ ν) {k k' : κ} (same : (k == k') = true) : get? m k = get? m k' := by
  induction m with
  | nil => rfl
  | cons entry m ih => rw [get?_cons, get?_cons, ih, BEq.congr_left same]

theorem get?_insert (m : Assoc κ ν) (k k' : κ) (v : ν) :
    get? (m.insert k v) k' = if k' == k then some v else get? m k' := by
  induction m with
  | nil => exact get?_cons ..
  | cons entry m ih =>
    obtain ⟨key, old⟩ := entry
    simp only [insert]
    split
    · next same =>
      -- The replaced entry keeps its own key, which equals the new one.
      rw [get?_cons, get?_cons, BEq.congr_right same]
      split <;> rfl
    · next different =>
      rw [get?_cons, get?_cons, ih]
      split
      · next here =>
        have other : ¬(k' == k) = true := fun same =>
          different (BEq.trans (BEq.symm same) here)
        simp [other]
      · rfl

@[simp] theorem get?_insert_self (m : Assoc κ ν) (k : κ) (v : ν) :
    get? (m.insert k v) k = some v := by simp [get?_insert]

theorem insert_insert (m : Assoc κ ν) (k : κ) (v w : ν) :
    (m.insert k v).insert k w = m.insert k w := by
  induction m with
  | nil => simp [insert]
  | cons entry m ih =>
    obtain ⟨key, old⟩ := entry
    simp only [insert]
    split
    · next same => simp [insert, same]
    · next different => simp [insert, different, ih]

omit [EquivBEq κ] in
theorem get?_retain (m : Assoc κ ν) {keep : κ → Bool}
    (congr : ∀ a b, (a == b) = true → keep a = keep b) (k : κ) :
    get? (m.retain keep) k = if keep k then get? m k else none := by
  induction m with
  | nil => simp [retain]
  | cons entry m ih =>
    obtain ⟨key, old⟩ := entry
    simp only [retain, List.filter_cons] at ih ⊢
    split
    · next kept =>
      rw [get?_cons, get?_cons, ih]
      split
      · next here => rw [congr k key here, if_pos kept]
      · rfl
    · next dropped =>
      rw [ih, get?_cons]
      split
      · next kept =>
        have other : ¬(k == key) = true := fun same => dropped (congr k key same ▸ kept)
        rw [if_neg other]
      · rfl

theorem get?_erase (m : Assoc κ ν) (k k' : κ) :
    get? (m.erase k) k' = if k == k' then none else get? m k' := by
  have congr : ∀ a b : κ, (a == b) = true → (!(k == a)) = !(k == b) := fun a b same => by
    rw [BEq.congr_right same]
  rw [show m.erase k = m.retain fun key => !(k == key) from rfl, get?_retain m congr]
  cases k == k' <;> rfl

end Assoc
end Yazi.Base
