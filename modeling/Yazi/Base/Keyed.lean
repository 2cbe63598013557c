import Mathlib.Data.List.Forall2
import Mathlib.Data.List.Nodup
import Mathlib.Data.List.Perm.Basic
import Yazi.Base.Assoc

/-!
Lists whose elements have keys: dropping and replacing the first element of each key.

Both work through the list once and use up a key when they meet it, so a second element of
the key stays. What is left is counted key by key.
-/
namespace Yazi.Base

namespace Assoc

variable {κ ν : Type} [BEq κ]

/-- The values, in the order of the entries. -/
def values (m : Assoc κ ν) : List ν := m.map (·.2)

/-- No key occurs twice. -/
def Distinct (m : Assoc κ ν) : Prop := m.Pairwise fun a b => (a.1 == b.1) = false

instance (m : Assoc κ ν) : Decidable m.Distinct := inferInstanceAs (Decidable (List.Pairwise ..))

theorem Distinct.erase {m : Assoc κ ν} (distinct : m.Distinct) (k : κ) : (m.erase k).Distinct :=
  distinct.sublist List.filter_sublist

theorem Distinct.filter {m : Assoc κ ν} (distinct : m.Distinct) (p : κ × ν → Bool) :
    Assoc.Distinct (List.filter p m) :=
  distinct.sublist List.filter_sublist

theorem mem_of_get?_lawful [LawfulBEq κ] {m : Assoc κ ν} {k : κ} {v : ν}
    (found : m.get? k = some v) : (k, v) ∈ m := by
  obtain ⟨key, member, same⟩ := mem_of_get? found
  rwa [eq_of_beq same]

theorem get?_of_mem [EquivBEq κ] {m : Assoc κ ν} (distinct : m.Distinct) {entry : κ × ν}
    (member : entry ∈ m) : m.get? entry.1 = some entry.2 := by
  induction m with
  | nil => cases member
  | cons head m ih =>
    obtain ⟨apart, distinct⟩ := List.pairwise_cons.mp distinct
    rw [get?_cons]
    rcases List.mem_cons.mp member with rfl | member
    · simp
    · have other := apart entry member
      rw [BEq.comm] at other
      simpa [other] using ih distinct member

omit [BEq κ] in
theorem mem_keys {m : Assoc κ ν} {k : κ} {v : ν} (member : (k, v) ∈ m) : k ∈ m.keys :=
  List.mem_map_of_mem member

omit [BEq κ] in
/-- A key that occurs once has one value. -/
theorem value_unique {m : Assoc κ ν} (nodup : m.keys.Nodup) {k : κ} {v w : ν}
    (first : (k, v) ∈ m) (second : (k, w) ∈ m) : v = w := by
  have same := List.inj_on_of_nodup_map nodup first second rfl
  exact (Prod.mk.inj same).2

theorem get?_eq_find? (m : Assoc κ ν) (k : κ) :
    m.get? k = (m.find? fun entry => k == entry.1).map (·.2) := by
  induction m with
  | nil => rfl
  | cons entry m ih =>
    obtain ⟨key, v⟩ := entry
    rw [get?_cons, List.find?_cons, ih]
    cases k == key <;> rfl

theorem keys_insert (m : Assoc κ ν) (k : κ) (v : ν) :
    (m.insert k v).keys = if m.keys.contains k then m.keys else m.keys ++ [k] := by
  induction m with
  | nil => rfl
  | cons entry m ih =>
    obtain ⟨key, w⟩ := entry
    simp only [insert, keys, List.map_cons, List.contains_cons] at ih ⊢
    cases k == key with
    | true => rfl
    | false =>
      simp only [Bool.false_eq_true, if_false, List.map_cons, Bool.false_or, ih]
      exact apply_ite (key :: ·) ..

theorem contains_keys (m : Assoc κ ν) (k : κ) :
    m.keys.contains k = (m.get? k).isSome := by
  induction m with
  | nil => rfl
  | cons entry m ih =>
    obtain ⟨key, v⟩ := entry
    rw [get?_cons]
    simp only [keys, List.map_cons, List.contains_cons] at ih ⊢
    cases k == key <;> simp [ih]

theorem keys_erase (m : Assoc κ ν) (k : κ) :
    (m.erase k).keys = m.keys.filter fun key => !(k == key) := by
  simp only [erase, keys, List.filter_map]
  rfl

theorem erase_of_get?_eq_none {m : Assoc κ ν} {k : κ} (absent : m.get? k = none) :
    m.erase k = m := by
  induction m with
  | nil => rfl
  | cons entry m ih =>
    obtain ⟨key, v⟩ := entry
    rw [get?_cons] at absent
    split at absent
    · cases absent
    · next other =>
      have rest := ih absent
      simp only [erase, List.filter_cons] at rest ⊢
      simp [other, rest]

/-- A new key goes to the end. -/
theorem insert_of_new {m : Assoc κ ν} {k : κ} (v : ν)
    (new : ∀ entry ∈ m, (k == entry.1) = false) : m.insert k v = m ++ [(k, v)] := by
  induction m with
  | nil => rfl
  | cons entry m ih =>
    simp only [insert, new entry (List.mem_cons_self ..), Bool.false_eq_true, if_false]
    rw [ih fun entry member => new entry (List.mem_cons_of_mem _ member)]
    rfl

variable [EquivBEq κ]

theorem mem_insert {m : Assoc κ ν} {k : κ} {v : ν} {entry : κ × ν}
    (member : entry ∈ m.insert k v) : entry ∈ m ∨ (k == entry.1) = true ∧ entry.2 = v := by
  induction m with
  | nil =>
    cases List.mem_singleton.mp member
    exact .inr ⟨BEq.rfl, rfl⟩
  | cons head m ih =>
    simp only [insert] at member
    split at member
    · next same =>
      rcases List.mem_cons.mp member with rfl | member
      · exact .inr ⟨same, rfl⟩
      · exact .inl (List.mem_cons_of_mem _ member)
    · rcases List.mem_cons.mp member with rfl | member
      · exact .inl (List.mem_cons_self ..)
      · rcases ih member with old | new
        · exact .inl (List.mem_cons_of_mem _ old)
        · exact .inr new

theorem Distinct.insert {m : Assoc κ ν} (distinct : m.Distinct) (k : κ) (v : ν) :
    (m.insert k v).Distinct := by
  induction m with
  | nil => exact List.pairwise_singleton ..
  | cons head m ih =>
    obtain ⟨apart, distinct⟩ := List.pairwise_cons.mp distinct
    simp only [Assoc.insert]
    split
    · exact List.pairwise_cons.mpr ⟨apart, distinct⟩
    · next other =>
      refine List.pairwise_cons.mpr ⟨fun entry member => ?_, ih distinct⟩
      rcases mem_insert member with old | ⟨same, -⟩
      · exact apart entry old
      · rw [← BEq.congr_right same, BEq.comm]
        exact Bool.eq_false_iff.mpr other

omit [EquivBEq κ] in
/-- Replacing a value by one that is the same under `f` is not seen through `f`. -/
theorem values_insert_map {β : Type} {m : Assoc κ ν} {k : κ} {v w : ν} (f : ν → β)
    (found : m.get? k = some v) (same : f w = f v) : (m.insert k w).values.map f = m.values.map f := by
  induction m with
  | nil => cases found
  | cons entry m ih =>
    obtain ⟨key, u⟩ := entry
    rw [get?_cons] at found
    simp only [insert]
    split at found
    · next here =>
      cases found
      rw [if_pos here]
      exact congrArg (· :: (values m).map f) same
    · next other =>
      rw [if_neg other]
      exact congrArg (f u :: ·) (ih found)

/-- Taking a key out takes out its value. -/
theorem values_erase {m : Assoc κ ν} (distinct : m.Distinct) {k : κ} {v : ν}
    (found : m.get? k = some v) : m.values.Perm (v :: (m.erase k).values) := by
  induction m with
  | nil => cases found
  | cons entry m ih =>
    obtain ⟨key, w⟩ := entry
    obtain ⟨apart, distinct⟩ := List.pairwise_cons.mp distinct
    rw [get?_cons] at found
    split at found
    · next here =>
      cases found
      -- No other entry has the key, so the others all stay.
      have absent : Assoc.get? m k = none := by
        cases other : Assoc.get? m k with
        | none => rfl
        | some u =>
          obtain ⟨key', member, same⟩ := mem_of_get? other
          have differ := apart _ member
          rw [BEq.trans (BEq.symm here) same] at differ
          cases differ
      have rest := erase_of_get?_eq_none absent
      simp only [erase, values, List.filter_cons, here] at rest ⊢
      simp [rest]
    · next other =>
      have rest := ih distinct found
      have kept : (!(k == key)) = true := by simpa using other
      simp only [erase, values, List.filter_cons, kept, if_true, List.map_cons] at rest ⊢
      exact (rest.cons w).trans (.swap ..)

end Assoc

namespace Keyed

variable {κ α : Type} [BEq κ] (key : α → κ)

/-- No key occurs twice. -/
def Distinct (l : List α) : Prop := l.Pairwise fun a b => (key a == key b) = false

instance (l : List α) : Decidable (Distinct key l) := inferInstanceAs (Decidable (List.Pairwise ..))

/-- How many elements have the key. -/
def count (k : κ) (l : List α) : Nat := l.countP fun a => key a == k

/-- Without the first element of each of the keys. -/
def drop (keys : List κ) : List α → List α
  | [] => []
  | a :: l =>
    if keys.contains (key a) then drop (keys.filter fun k => !(key a == k)) l
    else a :: drop keys l

/-- The first element of each key of the map, replaced by what the map holds. -/
def substitute (src : Assoc κ α) : List α → List α
  | [] => []
  | a :: l =>
    match src.get? (key a) with
    | some b => b :: substitute (src.erase (key a)) l
    | none => a :: substitute src l

/-- The elements that `substitute` replaces, each with what it puts there. -/
def replaced (src : Assoc κ α) : List α → List (α × α)
  | [] => []
  | a :: l =>
    match src.get? (key a) with
    | some b => (a, b) :: replaced (src.erase (key a)) l
    | none => replaced src l

/-- What `substitute` does not use. -/
def unused (src : Assoc κ α) : List α → Assoc κ α
  | [] => src
  | a :: l =>
    match src.get? (key a) with
    | some _ => unused (src.erase (key a)) l
    | none => unused src l

variable {key}

@[simp] theorem drop_nil (l : List α) : drop key [] l = l := by
  induction l with
  | nil => rfl
  | cons a l ih => rw [drop, if_neg (by simp), ih]

@[simp] theorem substitute_nil (l : List α) : substitute key [] l = l := by
  induction l with
  | nil => rfl
  | cons a l ih => rw [substitute, Assoc.get?_nil, ih]

@[simp] theorem replaced_nil (l : List α) : replaced key [] l = [] := by
  induction l with
  | nil => rfl
  | cons a l ih => rw [replaced, Assoc.get?_nil, ih]

@[simp] theorem unused_nil (l : List α) : unused key [] l = [] := by
  induction l with
  | nil => rfl
  | cons a l ih => rw [unused, Assoc.get?_nil, ih]

/-- Every element stays or is replaced. -/
theorem substitute_forall₂ (src : Assoc κ α) (l : List α) :
    List.Forall₂ (fun a b => b = a ∨ (a, b) ∈ replaced key src l) l (substitute key src l) := by
  induction l generalizing src with
  | nil => exact .nil
  | cons a l ih =>
    simp only [substitute, replaced]
    cases src.get? (key a) with
    | none => exact .cons (.inl rfl) (ih src)
    | some b =>
      refine .cons (.inr (List.mem_cons_self ..)) ((ih _).imp fun old new kept => ?_)
      exact kept.imp_right (List.mem_cons_of_mem _)

theorem drop_sublist (keys : List κ) (l : List α) : (drop key keys l).Sublist l := by
  induction l generalizing keys with
  | nil => exact .refl _
  | cons a l ih =>
    simp only [drop]
    split
    · exact (ih _).cons a
    · exact (ih _).cons_cons a

/-- Dropping leaves a list alone that has none of the keys. -/
theorem drop_eq_self {keys : List κ} {l : List α} :
    drop key keys l = l ↔ ∀ a ∈ l, keys.contains (key a) = false := by
  induction l with
  | nil => simp [drop]
  | cons a l ih =>
    simp only [drop, List.forall_mem_cons]
    cases met : keys.contains (key a) with
    | true =>
      have shorter : (drop key (keys.filter fun k => !(key a == k)) l).length ≤ l.length :=
        (drop_sublist ..).length_le
      simp only [if_true, Bool.true_eq_false, false_and, iff_false]
      intro whole
      rw [whole, List.length_cons] at shorter
      omega
    | false => simp [ih]

theorem filter_drop {p : α → Bool} {keys : List κ}
    (outside : ∀ a, keys.contains (key a) = true → p a = false) (l : List α) :
    (drop key keys l).filter p = l.filter p := by
  induction l generalizing keys with
  | nil => rfl
  | cons a l ih =>
    simp only [drop]
    split
    · next met =>
      rw [List.filter_cons, if_neg (by simp [outside a met])]
      apply ih
      intro b member
      apply outside b
      simp only [List.contains_iff_exists_mem_beq, List.mem_filter] at member ⊢
      obtain ⟨k, ⟨inside, -⟩, same⟩ := member
      exact ⟨k, inside, same⟩
    · rw [List.filter_cons, List.filter_cons, ih outside]

variable [EquivBEq κ]

theorem Distinct.perm {l m : List α} (distinct : Distinct key l) (perm : l.Perm m) :
    Distinct key m :=
  List.Pairwise.perm distinct perm fun {a b} differ => by
    rw [BEq.comm, differ]

theorem contains_congr {keys : List κ} {a b : κ} (same : (a == b) = true) :
    keys.contains a = keys.contains b := by
  induction keys with
  | nil => rfl
  | cons k keys ih => rw [List.contains_cons, List.contains_cons, ih, BEq.congr_left same]

theorem count_drop (k : κ) (keys : List κ) (l : List α) :
    count key k (drop key keys l) = count key k l - (keys.contains k).toNat := by
  induction l generalizing keys with
  | nil => simp [drop, count]
  | cons a l ih =>
    simp only [drop]
    cases here : key a == k with
    | true =>
      have same : keys.contains (key a) = keys.contains k := contains_congr here
      split
      · next met =>
        have gone : (keys.filter fun k' => !(key a == k')).contains k = false := by
          simp only [Bool.eq_false_iff, ne_eq, List.contains_iff_exists_mem_beq, List.mem_filter]
          rintro ⟨k', ⟨-, apart⟩, equal⟩
          rw [BEq.trans here equal] at apart
          cases apart
        rw [ih, gone]
        rw [same] at met
        simp [count, here, met]
      · next other =>
        rw [same] at other
        have rest := ih keys
        simp only [count, List.countP_cons, here, other] at rest ⊢
        simp [rest]
    | false =>
      split
      · have kept : (keys.filter fun k' => !(key a == k')).contains k = keys.contains k := by
          apply Bool.eq_iff_iff.mpr
          simp only [List.contains_iff_exists_mem_beq, List.mem_filter]
          constructor
          · rintro ⟨k', ⟨member, -⟩, equal⟩
            exact ⟨k', member, equal⟩
          · rintro ⟨k', member, equal⟩
            refine ⟨k', ⟨member, ?_⟩, equal⟩
            rw [← BEq.congr_right equal, here]
            rfl
        rw [ih, kept]
        simp [count, here]
      · have rest := ih keys
        simp only [count, List.countP_cons, here] at rest ⊢
        simpa using rest

/-- Replacing and appending the rest keeps every value and drops what it replaces. -/
theorem substitute_perm {src : Assoc κ α} (distinct : src.Distinct) (l : List α) :
    (substitute key src l ++ (unused key src l).values).Perm
      (drop key src.keys l ++ src.values) := by
  induction l generalizing src with
  | nil => exact .refl _
  | cons a l ih =>
    simp only [substitute, unused, drop, Assoc.contains_keys]
    cases found : src.get? (key a) with
    | none => exact (ih distinct).cons a
    | some b =>
      have rest := ih (distinct.erase (key a))
      rw [Assoc.keys_erase] at rest
      simp only [Option.isSome_some, if_true, List.cons_append]
      -- The value that `b` takes the place of is the one that the key gives up.
      refine (rest.cons b).trans (List.perm_middle.symm.trans ?_)
      exact (Assoc.values_erase distinct found).symm.append_left _

omit [EquivBEq κ] in
theorem unused_eq (src : Assoc κ α) (l : List α) :
    unused key src l = List.filter (fun entry => !l.any fun a => key a == entry.1) src := by
  induction l generalizing src with
  | nil => simp [unused]
  | cons a l ih =>
    simp only [unused, List.any_cons, Bool.not_or]
    cases found : src.get? (key a) with
    | some b =>
      simp only [ih, Assoc.erase, List.filter_filter]
      simp only [Bool.and_comm]
    | none =>
      have whole := Assoc.erase_of_get?_eq_none found
      simp only [ih]
      conv_lhs => rw [← whole, Assoc.erase, List.filter_filter]
      simp only [Bool.and_comm]

/-- The entries of the map whose keys the list has. -/
def used (key : α → κ) (src : Assoc κ α) (l : List α) : Assoc κ α :=
  List.filter (fun entry => l.any fun a => key a == entry.1) src

variable (key) in
/-- A side that replaces: what it keeps, and the values that find a place. -/
theorem substitute_used {src : Assoc κ α} (distinct : src.Distinct) (l : List α) :
    (substitute key src l).Perm (drop key src.keys l ++ (used key src l).values) := by
  have whole : (substitute key src l ++ (unused key src l).values).Perm
      (drop key src.keys l ++ src.values) := substitute_perm distinct l
  have halves : ((used key src l).values ++ (unused key src l).values).Perm src.values := by
    rw [unused_eq]
    simp only [Assoc.values, ← List.map_append]
    exact (List.filter_append_perm _ _).map _
  refine (List.perm_append_right_iff (unused key src l).values).mp (whole.trans ?_)
  rw [List.append_assoc]
  exact (halves.symm).append_left _

omit [EquivBEq κ] in
theorem distinct_append {l m : List α} :
    Distinct key (l ++ m) ↔
      Distinct key l ∧ Distinct key m ∧ ∀ a ∈ l, ∀ b ∈ m, (key a == key b) = false :=
  List.pairwise_append

/-- The values of a map stand under their keys, so they are as distinct as these. -/
theorem distinct_values {m : Assoc κ α} (distinct : m.Distinct)
    (under : ∀ entry ∈ m, (entry.1 == key entry.2) = true) : Distinct key m.values := by
  refine List.pairwise_map.mpr (distinct.imp_of_mem fun {a b} here there apart => ?_)
  rw [← BEq.congr_left (under a here), ← BEq.congr_right (under b there), apart]

theorem count_le_one {l : List α} (distinct : Distinct key l) (k : κ) : count key k l ≤ 1 := by
  induction l with
  | nil => simp [count]
  | cons a l ih =>
    obtain ⟨apart, distinct⟩ := List.pairwise_cons.mp distinct
    simp only [count, List.countP_cons] at ih ⊢
    split
    · next here =>
      have none : List.countP (fun a => key a == k) l = 0 := by
        rw [List.countP_eq_zero]
        intro b member same
        have differ := apart b member
        rw [BEq.trans here (BEq.symm same)] at differ
        cases differ
      omega
    · have bound := ih distinct
      omega

theorem count_pos {l : List α} {a : α} (member : a ∈ l) : 0 < count key (key a) l :=
  List.countP_pos_iff.mpr ⟨a, member, BEq.rfl⟩

/-- A dropped key is gone from a list that has it once. -/
theorem not_mem_drop {keys : List κ} {l : List α} (distinct : Distinct key l) {a : α}
    (member : a ∈ drop key keys l) : keys.contains (key a) = false := by
  by_contra met
  have bound := count_le_one distinct (key a)
  have left : 0 < count key (key a) (drop key keys l) := count_pos member
  rw [count_drop, Bool.not_eq_false _ |>.mp met] at left
  simp only [Bool.toNat_true] at left
  omega

end Keyed

/-! ### Elementwise related lists -/

section related
variable {α β : Type} {R : α → β → Prop} {l : List α} {m : List β}

theorem pairwise_of_forall₂ {P : α → α → Prop} {Q : β → β → Prop} (related : List.Forall₂ R l m)
    (pairs : l.Pairwise P) (transfer : ∀ a b c d, R a c → R b d → P a b → Q c d) :
    m.Pairwise Q := by
  obtain ⟨length, each⟩ := List.forall₂_iff_get.mp related
  rw [List.pairwise_iff_getElem] at pairs ⊢
  intro i j hi hj less
  exact transfer _ _ _ _ (each i (length ▸ hi) hi) (each j (length ▸ hj) hj)
    (pairs i j (length ▸ hi) (length ▸ hj) less)

theorem exists_of_forall₂ (related : List.Forall₂ R l m) {b : β} (member : b ∈ m) :
    ∃ a ∈ l, R a b := by
  obtain ⟨length, each⟩ := List.forall₂_iff_get.mp related
  obtain ⟨i, bound, rfl⟩ := List.getElem_of_mem member
  exact ⟨l.get ⟨i, length ▸ bound⟩, List.get_mem .., each i (length ▸ bound) bound⟩

end related

/-! ### Swap removal -/

section swap
variable {α : Type} (p : α → Bool)

/-- Takes out the first element that is asked for, and puts the last one in its place. -/
def swapRemove : List α → Option (List α)
  | [] => none
  | a :: l =>
    if p a then some (match l.getLast? with
      | none => []
      | some last => last :: l.dropLast)
    else (swapRemove l).map (a :: ·)

variable {p}

theorem swapRemove_perm {l rest : List α} (removed : swapRemove p l = some rest) :
    ∃ a, p a = true ∧ l.Perm (a :: rest) := by
  induction l generalizing rest with
  | nil => cases removed
  | cons a l ih =>
    simp only [swapRemove] at removed
    split at removed
    · next asked =>
      cases removed
      refine ⟨a, asked, .cons a ?_⟩
      cases present : l.getLast? with
      | none => rw [List.getLast?_eq_none_iff.mp present]
      | some last =>
        obtain ⟨lead, rfl⟩ := List.getLast?_eq_some_iff.mp present
        rw [List.dropLast_concat]
        exact List.perm_append_singleton ..
    · obtain ⟨rest, found, rfl⟩ := Option.map_eq_some_iff.mp removed
      obtain ⟨b, asked, perm⟩ := ih found
      exact ⟨b, asked, (perm.cons a).trans (.swap ..)⟩

end swap

end Yazi.Base
