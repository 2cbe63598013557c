import Yazi.Actor.BulkOrder
import Yazi.Base.Lines
import Yazi.Fs.Root
import Yazi.Shared.Utf8

/-!
The names of a bulk rename, edited as a text.

The names are written one a line and read back by lines. What is planned is what the user changed,
as long as the names survive that.
-/
namespace Yazi.Actor

open Yazi.Base
open Yazi.Shared
open Yazi.Fs

def newline : UInt8 := 0x0a

def carriage : UInt8 := 0x0d

/-- The names that are written: `none` where writing a url panics. -/
def oldNames (floats : Floats) (selected : List Url) : Option (List Bytes) :=
  selected.mapM fun url => skipUrl floats url (maxCommonRoot selected)

/-- `old.join("\n")`. -/
def written (names : List Bytes) : Bytes := Lines.join newline names

/-- `Tuple::new` for each, with its place. -/
def tuples (names : List Bytes) : List Tuple := names.zipIdx.map fun e => ⟨e.2, e.1⟩

/-- What comes of the text that is read back. -/
inductive Edit where
  /-- The text is no UTF-8. -/
  | invalid
  /-- The names are too few. -/
  | mismatch (new old : Nat)
  | plan (pairs : List Pair)
  deriving DecidableEq

/-- `BulkRename::act` from the text that is read, and the first half of `BulkRename::do`. -/
def edit (old : List Bytes) (text : Bytes) : Edit :=
  if Utf8.isUtf8 text then
    let new := (Lines.lines newline carriage text).take old.length
    if old.length ≠ new.length then .mismatch new.length old.length
    else .plan (((tuples old).zip (tuples new)).filter fun p => p.1 != p.2)
  else .invalid

/-- The edit is refused, or it plans just these renames, in this order. -/
def Plans (old : List Bytes) (text : Bytes) (todo : List Pair) : Prop :=
  edit old text = .invalid ∨ (∃ new, edit old text = .mismatch new old.length) ∨
    edit old text = .plan todo ∧
      prioritizedPaths (todo.map Prod.fst) (todo.map Prod.snd) = some todo

/-- The text of these names is refused, or gives them back. -/
def Survives (names : List Bytes) : Prop :=
  ¬Utf8.isUtf8 (written names) = true ∨ Lines.Kept newline carriage names

/-! ### What is changed -/

/-- The changes, counted from a place. -/
def changesFrom : Nat → List Bytes → List Bytes → List Pair
  | k, o :: old, n :: new =>
    if o = n then changesFrom (k + 1) old new
    else (⟨k, o⟩, ⟨k, n⟩) :: changesFrom (k + 1) old new
  | _, _, _ => []

private theorem changes_eq (k : Nat) (old new : List Bytes) :
    ((((old.zipIdx k).map fun e => (⟨e.2, e.1⟩ : Tuple)).zip
        ((new.zipIdx k).map fun e => ⟨e.2, e.1⟩)).filter fun p => p.1 != p.2) =
      changesFrom k old new := by
  induction old generalizing k new with
  | nil => rfl
  | cons o old ih =>
    cases new with
    | nil => rfl
    | cons n new =>
      rw [List.zipIdx_cons, List.zipIdx_cons, List.map_cons, List.map_cons, List.zip_cons_cons,
        List.filter_cons, ih, changesFrom]
      have compared : ((⟨k, o⟩ : Tuple) != ⟨k, n⟩) = !decide (o = n) := rfl
      rw [compared]
      by_cases same : o = n
      · rw [if_pos same, decide_eq_true same]
        rfl
      · rw [if_neg same, decide_eq_false same]
        rfl

private theorem le_of_mem_changesFrom {k : Nat} {old new : List Bytes} {p : Pair}
    (member : p ∈ changesFrom k old new) : k ≤ p.1.index := by
  induction old generalizing k new with
  | nil => cases member
  | cons o old ih =>
    cases new with
    | nil => cases member
    | cons n new =>
      rw [changesFrom] at member
      split at member
      · exact Nat.le_of_succ_le (ih member)
      · rcases List.mem_cons.mp member with rfl | later
        · exact Nat.le_refl _
        · exact Nat.le_of_succ_le (ih later)

/-- The changes tell the new names. -/
theorem changesFrom_inj {k : Nat} {old new new' : List Bytes} (length : new.length = old.length)
    (length' : new'.length = old.length) :
    changesFrom k old new = changesFrom k old new' ↔ new = new' := by
  refine ⟨fun same => ?_, fun same => same ▸ rfl⟩
  induction old generalizing k new new' with
  | nil => rw [List.eq_nil_of_length_eq_zero length, List.eq_nil_of_length_eq_zero length']
  | cons o old ih =>
    cases new with
    | nil => cases length
    | cons n new =>
      cases new' with
      | nil => cases length'
      | cons n' new' =>
        have next := @ih (k + 1) new new' (Nat.succ.inj length) (Nat.succ.inj length')
        -- A change here is not found later.
        have apart {m : Bytes} {l : List Bytes} (found : (⟨k, o⟩, ⟨k, m⟩) ∈ changesFrom (k + 1) old l) :
            False := Nat.not_succ_le_self k (le_of_mem_changesFrom found)
        rw [changesFrom, changesFrom] at same
        by_cases one : o = n <;> by_cases other : o = n'
        · rw [if_pos one, if_pos other] at same
          rw [next same, ← one, ← other]
        · rw [if_pos one, if_neg other] at same
          exact (apart (same ▸ List.mem_cons_self)).elim
        · rw [if_neg one, if_pos other] at same
          exact (apart (same.symm ▸ List.mem_cons_self)).elim
        · rw [if_neg one, if_neg other] at same
          obtain ⟨head, tail⟩ := List.cons.inj same
          rw [next tail]
          cases head
          rfl

@[simp] theorem changesFrom_self (k : Nat) (old : List Bytes) : changesFrom k old old = [] := by
  induction old generalizing k with
  | nil => rfl
  | cons o old ih => rw [changesFrom, if_pos rfl, ih]

theorem changesFrom_set {k i : Nat} {old : List Bytes} (inside : i < old.length) {m : Bytes}
    (other : m ≠ old[i]) :
    changesFrom k old (old.set i m) = [(⟨k + i, old[i]⟩, ⟨k + i, m⟩)] := by
  induction old generalizing k i with
  | nil => cases inside
  | cons o old ih =>
    cases i with
    | zero =>
      have other' : o ≠ m := fun same => other same.symm
      rw [List.set_cons_zero, changesFrom, if_neg other', changesFrom_self]
      rfl
    | succ i =>
      have found := ih (k := k + 1) (Nat.lt_of_succ_lt_succ inside) other
      rw [List.set_cons_succ, changesFrom, if_pos rfl, found, Nat.add_right_comm]
      rfl

/-! ### The edited text -/

theorem plans_iff {old edited : List Bytes} (length : edited.length = old.length)
    {todo : List Pair} (changes : changesFrom 0 old edited = todo)
    (ordered : prioritizedPaths (todo.map Prod.fst) (todo.map Prod.snd) = some todo) :
    Plans old (written edited) todo ↔ Survives edited := by
  have taken := @Lines.take_lines_iff _ _ newline carriage edited
  rw [length] at taken
  rw [Survives, ← taken, Plans, edit]
  by_cases valid : Utf8.isUtf8 (written edited) = true
  · rw [if_pos valid]
    change _ ↔ ¬Utf8.isUtf8 (written edited) = true ∨
      ((Lines.lines newline carriage (written edited)).take old.length).length ≠ old.length ∨
        (Lines.lines newline carriage (written edited)).take old.length = edited
    generalize (Lines.lines newline carriage (written edited)).take old.length = new
    by_cases enough : new.length = old.length
    · have same : changesFrom 0 old new = todo ↔ new = edited := by
        rw [← changes]
        exact changesFrom_inj enough length
      have whole : ((tuples old).zip (tuples new)).filter (fun p => p.1 != p.2) =
          changesFrom 0 old new := changes_eq 0 old new
      simp [valid, enough, whole, same, ordered]
    · have few : old.length ≠ new.length := fun same => enough same.symm
      simp [valid, enough, few]
  · rw [if_neg valid]
    exact iff_of_true (.inl rfl) (.inl valid)

/-- A single pair has nothing to wait for. -/
theorem prioritizedPaths_single (p : Pair) : prioritizedPaths [p.1] [p.2] = some [p] := by
  obtain ⟨sorted, given, arranged⟩ := prioritizedPaths_arranged (List.pairwise_singleton _ p)
  rw [List.perm_singleton.mp arranged.perm] at given
  exact given

private theorem oldNames_total {inventory : Inventory} (floats : Floats) {selected : List Url}
    (wellFormed : ∀ url ∈ selected, url.WellFormed inventory) :
    ∃ old, oldNames floats selected = some old := by
  have each : ∀ urls : List Url, (∀ url ∈ urls, url.WellFormed inventory) →
      ∃ old, (urls.mapM fun url => skipUrl floats url (maxCommonRoot selected)) = some old := by
    intro urls
    induction urls with
    | nil => exact fun _ => ⟨[], rfl⟩
    | cons url urls ih =>
      intro sound
      obtain ⟨name, first, -⟩ := @Url.tryReplace_rest inventory floats url
        (sound url List.mem_cons_self) (maxCommonRoot selected)
      obtain ⟨names, others⟩ := ih fun other member => sound other (List.mem_cons_of_mem _ member)
      have first : skipUrl floats url (maxCommonRoot selected) = some name := first
      exact ⟨name :: names, by rw [List.mapM_cons, first, others]; rfl⟩
  exact each selected wellFormed

/-- A text as it was written plans nothing, and one with another name plans this change alone,
unless it is refused, just when its names survive. -/
theorem edit_plans {inventory : Inventory} (floats : Floats) {selected : List Url}
    (wellFormed : ∀ url ∈ selected, url.WellFormed inventory) :
    ∃ old, oldNames floats selected = some old ∧
      (Plans old (written old) [] ↔ Survives old) ∧
      ∀ i (inside : i < old.length) (m : Bytes), m ≠ old[i] →
        (Plans old (written (old.set i m)) [(⟨i, old[i]⟩, ⟨i, m⟩)] ↔ Survives (old.set i m)) := by
  obtain ⟨old, names⟩ := oldNames_total floats wellFormed
  refine ⟨old, names, plans_iff rfl (changesFrom_self 0 old) rfl, fun i inside m other => ?_⟩
  refine plans_iff (List.length_set ..) ?_ (prioritizedPaths_single _)
  rw [changesFrom_set inside other, Nat.zero_add]

/-! ### A final return -/

/-- The files `x` with a return at its end, and `y`. -/
def returned : List Url := [Url.regular (text "/x\r"), Url.regular (text "/y")]

private theorem wellFormed_returned : ∀ url ∈ returned, url.WellFormed hubStock := by
  have regular (path : Bytes) : (Url.regular path).WellFormed hubStock :=
    ⟨⟨⟨trivial, fun _ => rfl, rfl⟩, trivial, AuthKind.noConfusion⟩, rfl,
      fun other => absurd rfl other⟩
  intro url member
  rw [returned, List.mem_cons, List.mem_singleton] at member
  rcases member with rfl | rfl
  · exact regular _
  · exact regular _

theorem edit_plans_returned :
    ∃ old, oldNames Floats.bits returned = some old ∧
      (Plans old (written old) [] ↔ Survives old) ∧
      ∀ i (inside : i < old.length) (m : Bytes), m ≠ old[i] →
        (Plans old (written (old.set i m)) [(⟨i, old[i]⟩, ⟨i, m⟩)] ↔ Survives (old.set i m)) :=
  edit_plans Floats.bits wellFormed_returned

/-- The return at the end of a name is lost, and the file renamed, though nothing was changed. -/
theorem edit_loses_return :
    ¬∀ selected : List Url, (∀ url ∈ selected, url.WellFormed hubStock) →
      ∀ old, oldNames Floats.bits selected = some old → Plans old (written old) [] := by
  intro claim
  have names : oldNames Floats.bits returned = some [text "x\r", text "y"] := rfl
  have lost : edit [text "x\r", text "y"] (written [text "x\r", text "y"]) =
      .plan [(⟨0, text "x\r"⟩, ⟨0, text "x"⟩)] := by decide
  rcases claim returned wellFormed_returned _ names with invalid | ⟨new, few⟩ | ⟨kept, -⟩
  · rw [lost] at invalid
    cases invalid
  · rw [lost] at few
    cases few
  · rw [lost] at kept
    cases kept

end Yazi.Actor
