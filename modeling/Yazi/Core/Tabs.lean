import Mathlib.Data.List.Perm.Basic
import Yazi.Base.Run
import Yazi.Widgets.Scrollable

/-!
The tabs: opening and closing them, and going from one to another.

Plugins are told which tab is active whenever it may have changed.
-/
namespace Yazi.Core
open Base Base.Machine Widgets.Scroll

/-- `Tabs`; a tab is known by its id. -/
structure Tabs where
  cursor : Nat
  items : List Nat

def maxTabs : Nat := 9

/-- The tabs with the ids given out, the tabs that were shut down, and what was published. -/
structure Tabbed extends Tabs where
  fresh : Nat
  shut : List Nat
  published : List Nat

namespace Tabbed

/-- `Tabs::default` -/
def start : Tabbed where
  cursor := 0
  items := [0]
  fresh := 1
  shut := []
  published := []

def active (s : Tabbed) : Option Nat := s.items[s.cursor]?

/-- `Tabs::set_idx`: `none` where indexing the active tab panics. -/
def setIdx (s : Tabbed) (idx : Nat) : Option Tabbed :=
  (s.items[idx]?).map fun id => { s with cursor := idx, published := s.published ++ [id] }

/-- The actor `tab_create`. -/
def tabCreate (s : Tabbed) : Option Tabbed :=
  if s.items.length ≥ maxTabs then some s
  else if s.cursor + 1 ≤ s.items.length then
    setIdx { s with items := s.items.insertIdx (s.cursor + 1) s.fresh, fresh := s.fresh + 1 }
      (s.cursor + 1)
  else none

/-- The actor `tab_close`. -/
def tabClose (s : Tabbed) (idx : Nat) : Option Tabbed :=
  if s.items.length < 2 ∨ idx ≥ s.items.length then some s
  else
    let items := s.items.eraseIdx idx
    setIdx { s with items, shut := s.shut ++ s.items[idx]?.toList }
      (if idx < s.cursor then s.cursor - 1 else min s.cursor (items.length - 1))

/-- `rem_euclid` by the number of the tabs, which must not be zero. -/
def turned (s : Tabbed) (step : Int64) : Option Nat :=
  if s.items.length = 0 then none
  else some (saturatingAddUnsigned step.toInt s.cursor % asIsize s.items.length).toNat

/-- The actor `tab_switch`. -/
def tabSwitch (s : Tabbed) (step : Int64) (relative : Bool) : Option Tabbed :=
  (if relative then s.turned step else some (step.toInt % 2 ^ 64).toNat).bind fun idx =>
    if idx = s.cursor ∨ idx ≥ s.items.length then some s else s.setIdx idx

/-- `<[T]>::swap` -/
def swap (items : List Nat) (i j : Nat) : Option (List Nat) :=
  (items[i]?).bind fun a => (items[j]?).map fun b => (items.set i b).set j a

/-- The actor `tab_swap`. -/
def tabSwap (s : Tabbed) (step : Step) : Option Tabbed :=
  (step.add s.cursor s.items.length 0 0 0).bind fun new =>
    if new = s.cursor then some s
    else (swap s.items s.cursor new).bind fun items => setIdx { s with items } new

inductive Call where
  | create
  | close (idx : Nat)
  | switch (step : Int64) (relative : Bool)
  | swap (step : Step)

def step (s : Tabbed) : Call → Option Tabbed
  | .create => s.tabCreate
  | .close idx => s.tabClose idx
  | .switch step relative => s.tabSwitch step relative
  | .swap step => s.tabSwap step

/-- The cursor is on a tab, no tab is lost or there twice, and the plugins know the active one. -/
structure Inv (s : Tabbed) : Prop where
  inside : s.cursor < s.items.length
  few : s.items.length ≤ maxTabs
  whole : (s.items ++ s.shut).Perm (List.range s.fresh)
  told : ∀ id, s.published.getLast? = some id → s.active = some id

/-- What a call does to the tabs, and which tab is active then. -/
def Does (s t : Tabbed) : Call → Prop
  | .create =>
    if s.items.length = maxTabs then t = s
    else t.items.eraseIdx (s.cursor + 1) = s.items ∧ t.active = some s.fresh
  | .close idx =>
    if s.items.length = 1 ∨ s.items.length ≤ idx then t = s
    else t.items = s.items.eraseIdx idx ∧
      t.active = if idx = s.cursor then (s.items[idx + 1]?).or s.items[idx - 1]? else s.active
  | .switch step relative =>
    t.items = s.items ∧ t.active =
      if relative then s.items[(min (step.toInt + s.cursor) (2 ^ 63 - 1) % s.items.length).toNat]?
      else if step.toInt < 0 then s.active else (s.items[step.toInt.toNat]?).or s.active
  | .swap step =>
    step.add s.cursor s.items.length 0 0 0 = some t.cursor ∧ t.active = s.active ∧
      t.items[s.cursor]? = s.items[t.cursor]? ∧
      ∀ i, i ≠ s.cursor → i ≠ t.cursor → t.items[i]? = s.items[i]?

variable {s t : Tabbed}

theorem setIdx_spec {idx : Nat} (inside : idx < s.items.length) (few : s.items.length ≤ maxTabs)
    (whole : (s.items ++ s.shut).Perm (List.range s.fresh)) :
    ∃ t, s.setIdx idx = some t ∧ t.Inv ∧ t.items = s.items ∧ t.cursor = idx := by
  rw [setIdx, List.getElem?_eq_getElem inside, Option.map_some]
  refine ⟨_, rfl, ⟨inside, few, whole, fun id last => ?_⟩, rfl, rfl⟩
  dsimp only at last
  rw [List.getLast?_concat] at last
  exact (List.getElem?_eq_getElem inside).trans last

theorem create_does (inv : s.Inv) : ∃ t, s.tabCreate = some t ∧ t.Inv ∧ s.Does t .create := by
  have few := inv.few
  rw [tabCreate]
  split
  · next full =>
    exact ⟨s, rfl, inv, by rw [Does, if_pos (Nat.le_antisymm few full)]⟩
  · next room =>
    have inside := inv.inside
    rw [if_pos (show s.cursor + 1 ≤ s.items.length from inside)]
    have grown : (s.items.insertIdx (s.cursor + 1) s.fresh).length = s.items.length + 1 :=
      List.length_insertIdx_of_le_length inside s.fresh
    obtain ⟨t, done, kept, items, cursor⟩ := @setIdx_spec
      { s with items := s.items.insertIdx (s.cursor + 1) s.fresh, fresh := s.fresh + 1 } (s.cursor + 1)
      (by dsimp only; omega) (by dsimp only; omega) (by
        rw [List.range_succ]
        refine ((List.perm_insertIdx s.fresh s.items inside).append_right s.shut).trans ?_
        exact (inv.whole.cons s.fresh).trans (List.perm_append_singleton ..).symm)
    refine ⟨t, done, kept, ?_⟩
    rw [Does, if_neg (by omega), active, cursor, items]
    exact ⟨List.eraseIdx_insertIdx_self _, by
      rw [List.getElem?_insertIdx_self, if_pos (show s.cursor + 1 ≤ s.items.length from inside)]⟩

theorem close_does (inv : s.Inv) (idx : Nat) :
    ∃ t, s.tabClose idx = some t ∧ t.Inv ∧ s.Does t (.close idx) := by
  have inside := inv.inside
  have few := inv.few
  rw [tabClose]
  split
  · next early =>
    exact ⟨s, rfl, inv, by rw [Does, if_pos (by omega)]⟩
  · next proper =>
    have there : idx < s.items.length := by omega
    have shrunk : (s.items.eraseIdx idx).length = s.items.length - 1 := List.length_eraseIdx_of_lt there
    obtain ⟨t, done, kept, items, cursor⟩ := @setIdx_spec
      { s with items := s.items.eraseIdx idx, shut := s.shut ++ s.items[idx]?.toList }
      (if idx < s.cursor then s.cursor - 1 else min s.cursor ((s.items.eraseIdx idx).length - 1))
      (by dsimp only; split <;> omega) (by dsimp only; omega) (by
        rw [List.getElem?_eq_getElem there, Option.toList_some]
        refine .trans ?_ inv.whole
        rw [← List.append_assoc]
        refine (List.perm_append_singleton ..).trans ?_
        exact (List.getElem_cons_eraseIdx_perm there).append_right s.shut)
    refine ⟨t, done, kept, ?_⟩
    rw [Does, if_neg (by omega), active, cursor, items]
    refine ⟨rfl, ?_⟩
    rw [List.getElem?_eraseIdx, shrunk]
    by_cases same : idx = s.cursor
    · subst same
      rw [if_pos rfl, if_neg (Nat.lt_irrefl _)]
      by_cases last : s.cursor + 1 = s.items.length
      · rw [if_pos (by omega), List.getElem?_eq_none (Nat.le_of_eq last.symm), Option.none_or]
        congr 1
        omega
      · rw [if_neg (by omega), List.getElem?_eq_getElem (show s.cursor + 1 < s.items.length by omega),
          Option.some_or, ← List.getElem?_eq_getElem]
        congr 1
        omega
    · rw [if_neg same, active]
      by_cases before : idx < s.cursor
      · rw [if_pos before, if_neg (by omega)]
        congr 1
        omega
      · rw [if_neg before, if_pos (by omega)]
        congr 1
        omega

/-- Going to a place, or nowhere if there is no tab. -/
theorem goto_does (inv : s.Inv) (idx : Nat) :
    ∃ t, (if idx = s.cursor ∨ idx ≥ s.items.length then some s else s.setIdx idx) = some t ∧ t.Inv ∧
      t.items = s.items ∧ t.active = (s.items[idx]?).or s.active := by
  split
  · next stays =>
    refine ⟨s, rfl, inv, rfl, ?_⟩
    rcases stays with rfl | outside
    · exact (Option.or_self ..).symm
    · rw [List.getElem?_eq_none outside, Option.none_or]
  · next goes =>
    have inside : idx < s.items.length := by omega
    obtain ⟨t, done, kept, items, cursor⟩ := setIdx_spec inside inv.few inv.whole
    refine ⟨t, done, kept, items, ?_⟩
    rw [active, cursor, items, List.getElem?_eq_getElem inside, Option.some_or]

theorem switch_does (inv : s.Inv) (step : Int64) (relative : Bool) :
    ∃ t, s.tabSwitch step relative = some t ∧ t.Inv ∧ s.Does t (.switch step relative) := by
  have inside := inv.inside
  have few : s.items.length ≤ 9 := inv.few
  rw [tabSwitch]
  cases relative with
  | true =>
    rw [if_pos rfl, turned, if_neg (by omega), Option.bind_some, asIsize_eq (by omega),
      saturatingAddUnsigned]
    obtain ⟨t, done, kept, items, active⟩ := goto_does inv
      (min (step.toInt + s.cursor) (2 ^ 63 - 1) % s.items.length).toNat
    refine ⟨t, done, kept, items, ?_⟩
    have low := Int.emod_nonneg (min (step.toInt + s.cursor) (2 ^ 63 - 1))
      (show (s.items.length : Int) ≠ 0 by omega)
    have high := Int.emod_lt_of_pos (min (step.toInt + s.cursor) (2 ^ 63 - 1))
      (show (0 : Int) < s.items.length by omega)
    rw [if_pos rfl, active, List.getElem?_eq_getElem (by omega), Option.some_or]
  | false =>
    rw [if_neg Bool.false_ne_true, Option.bind_some]
    obtain ⟨t, done, kept, items, active⟩ := goto_does inv (step.toInt % 2 ^ 64).toNat
    refine ⟨t, done, kept, items, ?_⟩
    have low := step.le_toInt
    have high := step.toInt_lt
    rw [if_neg Bool.false_ne_true, active]
    split
    · next negative =>
      -- As an unsigned number it is far too large.
      rw [List.getElem?_eq_none (by omega), Option.none_or]
    · next positive => rw [Int.emod_eq_of_lt (by omega) (by omega)]

/-- Every step has a target among so few tabs. -/
theorem add_isSome (step : Step) {pos len : Nat} (some : len ≠ 0) (few : len ≤ 9) :
    ∃ n, step.add pos len 0 0 0 = Option.some n := by
  have small : len < 2 ^ 16 := by omega
  simp only [Step.add, if_neg some]
  cases step with
  | top => exact ⟨_, rfl⟩
  | bot => exact ⟨_, rfl⟩
  | prev => exact ⟨_, rfl⟩
  | next => exact ⟨_, rfl⟩
  | offset n => exact ⟨_, rfl⟩
  | percent n =>
    dsimp only
    split
    · exact ⟨_, rfl⟩
    · rw [isize_mul (by decide)]
      exact ⟨_, rfl⟩
  | vp n =>
    dsimp only
    rw [if_pos trivial, isize_mul small]
    exact ⟨_, rfl⟩

theorem swap_does (inv : s.Inv) (step : Step) :
    ∃ t, s.tabSwap step = some t ∧ t.Inv ∧ s.Does t (.swap step) := by
  have inside := inv.inside
  obtain ⟨new, added⟩ := @add_isSome step s.cursor _ (Nat.ne_of_gt (Nat.zero_lt_of_lt inside)) inv.few
  have there := Step.add_lt added (Nat.ne_of_gt (Nat.zero_lt_of_lt inside))
  rw [tabSwap, added, Option.bind_some]
  split
  · next stays => exact ⟨s, rfl, inv, stays ▸ added, rfl, rfl, fun _ _ _ => rfl⟩
  · next moves =>
    rw [swap, List.getElem?_eq_getElem inside, Option.bind_some, List.getElem?_eq_getElem there,
      Option.map_some, Option.bind_some]
    have perm := List.set_set_perm inside there
    obtain ⟨t, done, kept, items, cursor⟩ := @setIdx_spec
      { s with items := (s.items.set s.cursor s.items[new]).set new s.items[s.cursor] } new
      (by simpa using there) (by simpa using inv.few) ((perm.append_right s.shut).trans inv.whole)
    refine ⟨t, done, kept, cursor ▸ added, ?_, ?_, fun i other other' => ?_⟩
    · rw [active, active, cursor, items, List.getElem?_set_self (by simpa using there),
        List.getElem?_eq_getElem inside]
    · rw [cursor, items, List.getElem?_set_ne moves, List.getElem?_set_self inside,
        List.getElem?_eq_getElem there]
    · rw [cursor] at other'
      rw [items, List.getElem?_set_ne (Ne.symm other'), List.getElem?_set_ne (Ne.symm other)]

theorem step_does (inv : s.Inv) (call : Call) : ∃ t, s.step call = some t ∧ t.Inv ∧ s.Does t call := by
  cases call with
  | create => exact create_does inv
  | close idx => exact close_does inv idx
  | switch step relative => exact switch_does inv step relative
  | swap step => exact swap_does inv step

theorem inv_start : start.Inv where
  inside := by decide
  few := by decide
  whole := .refl _
  told := fun _ none => by cases none

/-- However tabs are opened, closed, switched and swapped, nothing panics and no tab is lost, and the
next call does what it should. -/
theorem tabs_kept (calls : List Call) (call : Call) :
    ∃ s t, exec step start calls = some s ∧ s.Inv ∧ s.step call = some t ∧ s.Does t call := by
  have kept {s : Tabbed} (inv : s.Inv) : ∃ t, exec step s calls = some t ∧ t.Inv := by
    induction calls generalizing s with
    | nil => exact ⟨s, rfl, inv⟩
    | cons call calls ih =>
      obtain ⟨t, done, inv, -⟩ := step_does inv call
      obtain ⟨u, reached, inv⟩ := ih inv
      exact ⟨u, by rw [exec, done, Option.bind_some, reached], inv⟩
  obtain ⟨s, reached, inv⟩ := kept inv_start
  obtain ⟨t, done, -, does⟩ := step_does inv call
  exact ⟨s, t, reached, inv, done, does⟩

example : (exec step start [.create, .create, .close 0]).map (fun s => (s.items, s.cursor, s.published)) =
    some ([1, 2], 1, [1, 2, 2]) := by decide

end Tabbed
end Yazi.Core
