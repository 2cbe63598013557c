import Yazi.Base.Machine
import Yazi.Base.Run
import Yazi.Base.Stutter
import Yazi.Core.Selected
import Yazi.Shared.Pair

/-!
The directories a tab was in: a list with a cursor.
-/
namespace Yazi.Core

open Yazi.Base Yazi.Base.Machine Yazi.Shared

/-- `Backstack`. An operation is `none` where an index is out of bounds, a subtraction falls
below zero or `expect` panics. -/
structure Backstack where
  cursor : Nat
  stack : List UrlEq
  deriving DecidableEq

namespace Backstack

/-- `Backstack::default`. -/
def default : Backstack := ⟨0, []⟩

def push (s : Backstack) (url : UrlEq) : Option Backstack :=
  if s.stack = [] then some { s with stack := [url] }
  else do
    let current ← s.stack[s.cursor]?
    if current == url then return s
    let cursor := s.cursor + 1
    let stack := s.stack.take cursor ++ [url]
    -- Only 30 urls before the cursor are kept.
    if stack.length > 60 then
      let start := cursor - 30
      return ⟨← checkedSub cursor start, stack.drop start⟩
    return ⟨cursor, stack⟩

def dedup (s : Backstack) : Option Backstack :=
  if s.cursor < s.stack.length then do
    let cursor ← checkedSub s.cursor (repeats (s.stack.take (s.cursor + 1)))
    return ⟨cursor, squash s.stack⟩
  else return s

def replace (s : Backstack) (url : UrlEq) : Option Backstack :=
  match s.stack[s.cursor]? with
  | none => some s
  | some current =>
    if current == url then some s else dedup { s with stack := s.stack.set s.cursor url }

def current (s : Backstack) : Option UrlEq := s.stack[s.cursor]?

def shiftBackward (s : Backstack) : Option (Backstack × Option UrlEq) :=
  if s.cursor > 0 then do
    let url ← s.stack[s.cursor - 1]?
    return ({ s with cursor := s.cursor - 1 }, some url)
  else return (s, none)

def shiftForward (s : Backstack) : Option (Backstack × Option UrlEq) :=
  if s.cursor + 1 ≥ s.stack.length then return (s, none)
  else do
    let url ← s.stack[s.cursor + 1]?
    return ({ s with cursor := s.cursor + 1 }, some url)

/-- `Backstack::matches_keys`: the url or one above it has one of the keys. -/
def matchesKeys (trail : UrlEq) (keys : List PathDyn) (url : Url) : Option Bool :=
  match url.pair with
  | none => none
  | some pair =>
    if pair.any fun (t, k) => (⟨t⟩ : UrlEq) == trail && keys.contains k then some true
    else
      match _above : url.parent with
      | none => some false
      | some up => matchesKeys trail keys up
termination_by url.components.length
decreasing_by exact Url.length_parent ‹_›

/-- The `retain` of `remove_keys`: `old` is the cursor after it, `cursor` counts down to the
entry that was current. -/
def sweep (trail : UrlEq) (keys : List PathDyn) :
    List UrlEq → Nat → Nat → Option (Nat × List UrlEq)
  | [], old, _ => some (old, [])
  | entry :: rest, old, cursor => do
    let rm ← matchesKeys trail keys entry.url
    let old ← checkedSub old (rm && cursor > 0).toNat
    let (old, kept) ← sweep trail keys rest old (cursor - 1)
    return (old, if rm then kept else entry :: kept)

def removeKeys (s : Backstack) (trail : UrlEq) (keys : List PathDyn) : Option Backstack := do
  let (old, stack) ← sweep trail keys s.stack s.cursor s.cursor
  dedup ⟨min old (stack.length - 1), stack⟩

inductive Call where
  | push (url : UrlEq)
  | replace (url : UrlEq)
  | shiftBackward
  | shiftForward
  | removeKeys (trail : UrlEq) (keys : List PathDyn)

def step (s : Backstack) : Call → Option Backstack
  | .push url => s.push url
  | .replace url => s.replace url
  | .shiftBackward => s.shiftBackward.map (·.1)
  | .shiftForward => s.shiftForward.map (·.1)
  | .removeKeys trail keys => s.removeKeys trail keys

/-- A url that is added is framed. -/
def Call.Framed : Call → Prop
  | .push url | .replace url => url.url.Framed
  | .shiftBackward | .shiftForward | .removeKeys .. => True

/-! ### Invariants -/

/-- The cursor is in the list, the list is short, and no url repeats the one before it. -/
structure Inv (s : Backstack) : Prop where
  inside : s.stack = [] ∧ s.cursor = 0 ∨ s.cursor < s.stack.length
  bounded : s.stack.length ≤ 60
  squashed : Squashed s.stack
  framed : ∀ entry ∈ s.stack, entry.url.Framed

theorem inv_default : default.Inv where
  inside := .inl ⟨rfl, rfl⟩
  bounded := Nat.zero_le _
  squashed := .nil
  framed := nofun

/-- The current url, wherever the list goes, up to equality. -/
def Keeps (s t : Backstack) : Prop :=
  ∀ y, s.current = some y → ∃ x, t.current = some x ∧ (x == y) = true

theorem Inv.current {s : Backstack} (inv : s.Inv) (present : s.stack ≠ []) :
    ∃ url, s.stack[s.cursor]? = some url :=
  ⟨_, List.getElem?_eq_getElem (inv.inside.resolve_left fun both => present both.1)⟩

theorem push_inv {s : Backstack} (inv : s.Inv) {url : UrlEq} (framed : url.url.Framed) :
    ∃ t, s.push url = some t ∧ t.Inv := by
  by_cases empty : s.stack = []
  · have first : s.cursor = 0 := by
      rcases inv.inside with both | inside
      · exact both.2
      · simp [empty] at inside
    refine ⟨{ s with stack := [url] }, by simp [push, empty], .inr ?_, ?_, .singleton url, ?_⟩
    · simp [first]
    · simp
    · simpa using framed
  · obtain ⟨current, here⟩ := inv.current empty
    have inside := inv.inside.resolve_left fun both => empty both.1
    rw [push, if_neg empty, here]
    dsimp only [Option.bind_eq_bind, Option.bind_some]
    split
    · exact ⟨s, rfl, inv⟩
    · next other =>
      have different : (url == current) = false := by
        rw [BEq.comm]
        exact Bool.eq_false_iff.mpr other
      have count : (s.stack.take (s.cursor + 1)).length = s.cursor + 1 :=
        List.length_take_of_le inside
      have last : (s.stack.take (s.cursor + 1)).getLast? = some current := by
        rw [List.getLast?_eq_getElem?, count, Nat.add_sub_cancel, List.getElem?_take_of_lt (Nat.lt_succ_self _), here]
      have squashed : Squashed (s.stack.take (s.cursor + 1) ++ [url]) := by
        refine (inv.squashed.take _).append (.singleton url) ?_
        rintro x member y first
        cases last.symm.trans member
        cases first
        exact different
      have each : ∀ entry ∈ s.stack.take (s.cursor + 1) ++ [url], entry.url.Framed := by
        intro entry member
        rcases List.mem_append.mp member with old | new
        · exact inv.framed entry (List.mem_of_mem_take old)
        · exact List.mem_singleton.mp new ▸ framed
      have length : (s.stack.take (s.cursor + 1) ++ [url]).length = s.cursor + 2 := by
        rw [List.length_append, count, List.length_singleton]
      split
      · next long =>
        have start : s.cursor + 1 - 30 ≤ s.cursor + 1 := Nat.sub_le ..
        rw [checkedSub_eq start]
        refine ⟨_, rfl, .inr ?_, ?_, squashed.drop _, fun entry member => each entry (List.mem_of_mem_drop member)⟩
        · rw [List.length_drop, length]
          dsimp only
          omega
        · rw [List.length_drop, length]
          have bounded := inv.bounded
          omega
      · next short =>
        refine ⟨_, rfl, .inr ?_, Nat.le_of_not_lt short, squashed, each⟩
        rw [length]
        exact Nat.lt_succ_self _

theorem dedup_inv {s : Backstack} (inside : s.stack = [] ∧ s.cursor = 0 ∨ s.cursor < s.stack.length)
    (bounded : s.stack.length ≤ 60) (framed : ∀ entry ∈ s.stack, entry.url.Framed) :
    ∃ t, s.dedup = some t ∧ t.Inv ∧ s.Keeps t := by
  rcases inside with ⟨empty, first⟩ | inside
  · refine ⟨s, by simp [dedup, empty], ⟨.inl ⟨empty, first⟩, bounded, ?_, framed⟩, ?_⟩
    · rw [Squashed, empty]
      exact .nil
    · exact fun y here => ⟨y, here, BEq.refl y⟩
  · have here := List.getElem?_eq_getElem inside
    obtain ⟨few, x, found, -⟩ := getElem?_squash here
    refine ⟨⟨s.cursor - repeats (s.stack.take (s.cursor + 1)), squash s.stack⟩, ?_, ?_, ?_⟩
    · simp only [dedup, if_pos inside, checkedSub_eq few]
      rfl
    · refine ⟨.inr (List.getElem?_eq_some_iff.mp found).1, ?_, squashed_squash _, ?_⟩
      · exact (squash_sublist s.stack).length_le.trans bounded
      · intro entry member
        exact framed entry ((squash_sublist s.stack).mem member)
    · intro y current
      obtain ⟨-, x, found, same⟩ := getElem?_squash current
      exact ⟨x, found, same⟩

theorem replace_inv {s : Backstack} (inv : s.Inv) {url : UrlEq} (framed : url.url.Framed) :
    ∃ t, s.replace url = some t ∧ t.Inv := by
  rw [replace]
  cases here : s.stack[s.cursor]? with
  | none => exact ⟨s, rfl, inv⟩
  | some current =>
    dsimp only
    split
    · exact ⟨s, rfl, inv⟩
    · obtain ⟨inside, -⟩ := List.getElem?_eq_some_iff.mp here
      have each : ∀ entry ∈ s.stack.set s.cursor url, entry.url.Framed := by
        intro entry member
        rcases List.mem_or_eq_of_mem_set member with old | rfl
        · exact inv.framed entry old
        · exact framed
      have length : (s.stack.set s.cursor url).length = s.stack.length := List.length_set
      obtain ⟨t, done, inv, -⟩ :=
        @dedup_inv { s with stack := s.stack.set s.cursor url } (.inr (length.symm ▸ inside))
          (length.symm ▸ inv.bounded) each
      exact ⟨t, done, inv⟩

theorem matchesKeys_total {trail : UrlEq} {keys : List PathDyn} {url : Url} (framed : url.Framed) :
    ∃ found, matchesKeys trail keys url = some found := by
  fun_induction matchesKeys trail keys url with
  | case1 url fails =>
    obtain ⟨pair, found⟩ := framed.pair
    cases fails.symm.trans found
  | case2 => exact ⟨true, rfl⟩
  | case3 => exact ⟨false, rfl⟩
  | case4 url pair found other up above ih => exact ih (framed.parent above)

/-- The entry is removed. -/
def hit (trail : UrlEq) (keys : List PathDyn) (entry : UrlEq) : Bool :=
  matchesKeys trail keys entry.url = some true

theorem sweep_spec {trail : UrlEq} {keys : List PathDyn} {stack : List UrlEq} {old cursor : Nat}
    (framed : ∀ entry ∈ stack, entry.url.Framed)
    (room : (stack.take cursor).countP (hit trail keys) ≤ old) :
    sweep trail keys stack old cursor =
      some (old - (stack.take cursor).countP (hit trail keys),
        stack.filter fun entry => !hit trail keys entry) := by
  induction stack generalizing old cursor with
  | nil => simp [sweep]
  | cons entry rest ih =>
    obtain ⟨rm, found⟩ : ∃ rm, matchesKeys trail keys entry.url = some rm :=
      matchesKeys_total (framed entry (List.mem_cons_self ..))
    have removed : hit trail keys entry = rm := by
      rw [hit, found]
      cases rm <;> rfl
    -- The entry counts when it is removed and stands before the cursor.
    have count : ((entry :: rest).take cursor).countP (hit trail keys) =
        (rm && decide (cursor > 0)).toNat + (rest.take (cursor - 1)).countP (hit trail keys) := by
      cases cursor with
      | zero => simp
      | succ cursor =>
        rw [List.take_succ_cons, List.countP_cons, removed, Nat.add_comm]
        cases rm <;> simp
    rw [count] at room ⊢
    have here : (rm && decide (cursor > 0)).toNat ≤ old := by omega
    have after := @ih (old - (rm && decide (cursor > 0)).toNat) (cursor - 1)
      (fun e member => framed e (List.mem_cons_of_mem _ member)) (by omega)
    simp only [sweep, found, Option.bind_eq_bind, Option.bind_some, checkedSub_eq here, after]
    rw [List.filter_cons, removed, Nat.sub_sub]
    cases rm <;> rfl

theorem removeKeys_inv {s : Backstack} (inv : s.Inv) (trail : UrlEq) (keys : List PathDyn) :
    ∃ t, s.removeKeys trail keys = some t ∧ t.Inv ∧ ∀ url, s.current = some url →
      matchesKeys trail keys url.url = some false → ∃ url', t.current = some url' ∧
        (url' == url) = true := by
  have before : (s.stack.take s.cursor).countP (hit trail keys) ≤ s.cursor :=
    List.countP_le_length.trans (List.length_take_le _ _)
  have swept := sweep_spec inv.framed before
  let keep : UrlEq → Bool := fun entry => !hit trail keys entry
  let old := s.cursor - (s.stack.take s.cursor).countP (hit trail keys)
  have inside : s.stack.filter keep = [] ∧ min old ((s.stack.filter keep).length - 1) = 0 ∨
      min old ((s.stack.filter keep).length - 1) < (s.stack.filter keep).length := by
    rcases List.eq_nil_or_concat (s.stack.filter keep) with none | ⟨_, _, some⟩
    · rw [none]
      exact .inl ⟨rfl, Nat.min_zero _⟩
    · rw [some, List.length_concat]
      exact .inr (by omega)
  obtain ⟨t, done, inv', keeps⟩ := @dedup_inv ⟨min old _, s.stack.filter keep⟩ inside
    ((List.length_filter_le ..).trans inv.bounded)
    (fun entry member => inv.framed entry (List.mem_of_mem_filter member))
  refine ⟨t, ?_, inv', ?_⟩
  · rw [removeKeys, swept]
    exact done
  · intro url current survives
    have kept : keep url = true := by
      simp only [keep, hit, survives]
      rfl
    obtain ⟨within, -⟩ := List.getElem?_eq_some_iff.mp current
    have place := getElem?_filter_countP current kept
    have total := countP_take (hit trail keys) within.le
    have same : (s.stack.take s.cursor).countP keep = old := by
      simp only [keep, old]
      omega
    rw [same] at place
    apply keeps
    obtain ⟨small, -⟩ := List.getElem?_eq_some_iff.mp place
    have least : min old ((s.stack.filter keep).length - 1) = old := by omega
    rw [Backstack.current]
    exact least.symm ▸ place

theorem step_inv {s : Backstack} (inv : s.Inv) {call : Call} (framed : call.Framed) :
    ∃ t, s.step call = some t ∧ t.Inv := by
  cases call with
  | push url => exact push_inv inv framed
  | replace url => exact replace_inv inv framed
  | shiftBackward =>
    by_cases first : s.cursor > 0
    · rcases inv.inside with empty | inside
      · exact absurd empty.2 (Nat.ne_of_gt first)
      · have less : s.cursor - 1 < s.stack.length := by omega
        refine ⟨{ s with cursor := s.cursor - 1 }, ?_, .inr less, inv.bounded, inv.squashed, inv.framed⟩
        simp [step, shiftBackward, first, less]
    · exact ⟨s, by simp [step, shiftBackward, first], inv⟩
  | shiftForward =>
    by_cases last : s.cursor + 1 ≥ s.stack.length
    · exact ⟨s, by simp [step, shiftForward, last], inv⟩
    · have more : s.cursor + 1 < s.stack.length := Nat.lt_of_not_le last
      refine ⟨{ s with cursor := s.cursor + 1 }, ?_, .inr more, inv.bounded, inv.squashed, inv.framed⟩
      simp [step, shiftForward, last, more]
  | removeKeys trail keys =>
    obtain ⟨t, done, inv, -⟩ := removeKeys_inv inv trail keys
    exact ⟨t, done, inv⟩

theorem exec_inv {calls : List Call} (framed : ∀ call ∈ calls, call.Framed) {s : Backstack}
    (inv : s.Inv) : ∃ t, exec step s calls = some t ∧ t.Inv := by
  induction calls generalizing s with
  | nil => exact ⟨s, rfl, inv⟩
  | cons call calls ih =>
    obtain ⟨t, done, inv⟩ := step_inv inv (framed call (List.mem_cons_self ..))
    obtain ⟨u, reached, inv⟩ := ih (fun call member => framed call (List.mem_cons_of_mem _ member)) inv
    exact ⟨u, by rw [exec, done, Option.bind_some, reached], inv⟩

/-- No call fails, and after any of them the cursor is in the list, the list is short and
without repetitions, and removing entries does not leave the current one unless it is removed. -/
theorem backstack_consistent {calls : List Call} (framed : ∀ call ∈ calls, call.Framed) :
    ∃ s, exec step default calls = some s ∧ (s.stack = [] ∨ s.cursor < s.stack.length) ∧
      s.stack.length ≤ 60 ∧ Squashed s.stack ∧
      ∀ trail keys, ∃ t, s.removeKeys trail keys = some t ∧ ∀ url, s.current = some url →
        matchesKeys trail keys url.url = some false →
          ∃ url', t.current = some url' ∧ (url' == url) = true := by
  obtain ⟨s, reached, inv⟩ := exec_inv framed inv_default
  refine ⟨s, reached, inv.inside.imp_left And.left, inv.bounded, inv.squashed, fun trail keys => ?_⟩
  obtain ⟨t, done, -, keeps⟩ := removeKeys_inv inv trail keys
  exact ⟨t, done, keeps⟩

/-- Two directories, the first of them entered again. -/
def returned : List Call :=
  [.push ⟨.regular (text "/a")⟩, .push ⟨.regular (text "/b")⟩, .push ⟨.regular (text "/a")⟩]

theorem backstack_consistent_returned :
    ∃ s, exec step default returned = some s ∧ (s.stack = [] ∨ s.cursor < s.stack.length) ∧
      s.stack.length ≤ 60 ∧ Squashed s.stack ∧
      ∀ trail keys, ∃ t, s.removeKeys trail keys = some t ∧ ∀ url, s.current = some url →
        matchesKeys trail keys url.url = some false →
          ∃ url', t.current = some url' ∧ (url' == url) = true := by
  apply backstack_consistent
  intro call member
  simp only [returned, List.mem_cons, List.not_mem_nil, or_false] at member
  rcases member with rfl | rfl | rfl <;> exact Url.framed_regular _

end Backstack

end Yazi.Core
