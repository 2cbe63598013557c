import Mathlib.Order.Bounds.Basic
import Yazi.Shared.Replace

/-!
What a list of urls has in common.

The root counts the leading components of the parents, the authority first. Each url of the list is
rebuilt from it and from what it has behind it.
-/
namespace Yazi.Fs

open Yazi.Shared

/-- Authorities are compared by covariance. -/
def agrees : Url.Component → Url.Component → Bool
  | .auth a, .auth b => a.covariant b
  | a, b => a = b

/-- How many leading components agree. -/
def agreed (a b : List Url.Component) : Nat :=
  ((a.zip b).takeWhile fun pair => agrees pair.1 pair.2).length

/-- The loop over the other urls. -/
def commonFrom (first : List Url.Component) : Nat → List Url → Nat
  | common, [] => common
  | common, url :: rest =>
    match url.parent with
    | none => 0
    | some parent =>
      let common := min (agreed first parent.parts) common
      if common = 0 then 0 else commonFrom first common rest

def maxCommonRoot : List Url → Nat
  | [] => 0
  | [url] => url.parts.length - 1
  | url :: rest =>
    match url.parent with
    | none => 0
    | some first => commonFrom first.parts first.parts.length rest

/-- `skip_url`: `none` where writing the url panics. -/
def skipUrl (floats : Floats) (url : Url) (n : Nat) : Option Bytes :=
  (Url.Components.start url).strandFrom floats n

/-! ### The root -/

theorem le_agreed_iff {n : Nat} {a b : List Url.Component} :
    n ≤ agreed a b ↔ n ≤ a.length ∧ n ≤ b.length ∧
      List.Forall₂ (fun x y => agrees x y = true) (a.take n) (b.take n) := by
  rw [agreed]
  induction a generalizing b n with
  | nil =>
    rw [List.zip_nil_left, List.takeWhile_nil, List.length_nil]
    constructor
    · intro none
      obtain rfl : n = 0 := Nat.le_zero.mp none
      exact ⟨Nat.le_refl _, Nat.zero_le _, .nil⟩
    · exact And.left
  | cons x a ih =>
    cases n with
    | zero => exact iff_of_true (Nat.zero_le _) ⟨Nat.zero_le _, Nat.zero_le _, .nil⟩
    | succ n =>
      cases b with
      | nil => exact iff_of_false (Nat.not_succ_le_zero n) fun all => absurd all.2.1 (Nat.not_succ_le_zero n)
      | cons y b =>
        rw [List.zip_cons_cons, List.takeWhile_cons, List.take_succ_cons, List.take_succ_cons,
          List.forall₂_cons, List.length_cons, List.length_cons]
        by_cases same : agrees x y = true
        · rw [if_pos same, List.length_cons, Nat.succ_le_succ_iff, Nat.succ_le_succ_iff,
            Nat.succ_le_succ_iff, ih]
          simp only [same, true_and]
        · rw [if_neg same]
          exact iff_of_false (Nat.not_succ_le_zero n) fun all => same all.2.2.1

/-- The parents of the urls have so many leading components of the first one. -/
def Common (first : List Url.Component) (urls : List Url) (n : Nat) : Prop :=
  n ≤ first.length ∧ ∀ url ∈ urls, ∃ parent, url.parent = some parent ∧ n ≤ parent.parts.length ∧
    List.Forall₂ (fun x y => agrees x y = true) (first.take n) (parent.parts.take n)

private theorem commonFrom_zero (first : List Url.Component) (urls : List Url) :
    commonFrom first 0 urls = 0 := by
  cases urls with
  | nil => rfl
  | cons url rest =>
    rw [commonFrom]
    cases url.parent with
    | none => rfl
    | some parent =>
      dsimp only
      rw [Nat.min_zero, if_pos rfl]

/-- The loop goes on, as nothing more is in common with nothing. -/
private theorem commonFrom_cons {first : List Url.Component} {common : Nat} {url parent : Url}
    (rest : List Url) (above : url.parent = some parent) :
    commonFrom first common (url :: rest) =
      commonFrom first (min (agreed first parent.parts) common) rest := by
  rw [commonFrom, above]
  dsimp only
  split
  · next none => rw [none, commonFrom_zero]
  · rfl

private theorem commonFrom_none {first : List Url.Component} {urls : List Url} {common : Nat}
    (top : ∃ url ∈ urls, url.parent = none) : commonFrom first common urls = 0 := by
  induction urls generalizing common with
  | nil =>
    obtain ⟨url, member, -⟩ := top
    cases member
  | cons url rest ih =>
    cases above : url.parent with
    | none =>
      rw [commonFrom, above]
    | some parent =>
      rw [commonFrom_cons rest above]
      apply ih
      obtain ⟨other, member, none⟩ := top
      rcases List.mem_cons.mp member with rfl | later
      · rw [above] at none
        cases none
      · exact ⟨other, later, none⟩

private theorem le_commonFrom_iff {first : List Url.Component} {urls : List Url} {common n : Nat}
    (below : ∀ url ∈ urls, url.parent ≠ none) :
    n ≤ commonFrom first common urls ↔ n ≤ common ∧ ∀ url ∈ urls, ∃ parent,
      url.parent = some parent ∧ n ≤ agreed first parent.parts := by
  induction urls generalizing common with
  | nil => exact ⟨fun few => ⟨few, nofun⟩, And.left⟩
  | cons url rest ih =>
    obtain ⟨parent, above⟩ := Option.ne_none_iff_exists'.mp (below url List.mem_cons_self)
    rw [commonFrom_cons rest above, ih fun other member => below other (List.mem_cons_of_mem _ member),
      Nat.le_min, List.forall_mem_cons]
    constructor
    · rintro ⟨⟨here, few⟩, others⟩
      exact ⟨few, ⟨parent, above, here⟩, others⟩
    · rintro ⟨few, ⟨parent', above', here⟩, others⟩
      rw [above] at above'
      cases above'
      exact ⟨⟨here, few⟩, others⟩

/-- What the root of a list of urls is: all but the last component of a single url; nothing where
a url has no parent; else the most components that the parents have in common. -/
def Rooted (n : Nat) : List Url → Prop
  | [] => n = 0
  | [url] => n + 1 = url.parts.length
  | url :: rest =>
    match url.parent with
    | none => n = 0
    | some first =>
      if ∃ other ∈ rest, other.parent = none then n = 0
      else IsGreatest {n | Common first.parts rest n} n

theorem maxCommonRoot_rooted (urls : List Url) : Rooted (maxCommonRoot urls) urls := by
  match urls with
  | [] => rfl
  | [url] => rfl
  | url :: other :: rest =>
    rw [maxCommonRoot, Rooted]
    · cases above : url.parent with
      | none => rfl
      | some first =>
        dsimp only
        split
        · next top => exact commonFrom_none top
        · next parents =>
          have below : ∀ url ∈ other :: rest, url.parent ≠ none := fun url member top =>
            parents ⟨url, member, top⟩
          have common {n : Nat} : n ≤ commonFrom first.parts first.parts.length (other :: rest) ↔
              Common first.parts (other :: rest) n := by
            rw [le_commonFrom_iff below, Common]
            refine and_congr_right fun few => forall₂_congr fun url member => ?_
            simp only [le_agreed_iff, few, true_and]
          exact ⟨common.mp (Nat.le_refl _), fun n members => common.mpr members⟩
    · exact nofun
    · exact nofun

/-- The root is what the urls have in common, and each of them is rebuilt from it. -/
theorem maxCommonRoot_rebuilds {inventory : Inventory} {floats : Floats} {urls : List Url}
    (wellFormed : ∀ url ∈ urls, url.WellFormed inventory) :
    Rooted (maxCommonRoot urls) urls ∧
      ∀ url ∈ urls, ∃ rest, skipUrl floats url (maxCommonRoot urls) = some rest ∧
        ((if maxCommonRoot urls = 0 then rest.length < 2 ^ 64 ∧ url.Plain ∧
              (url.isRegular = true → ¬text "://" <:+: rest)
            else ¬text "://" <:+: rest) →
          ∃ back, url.tryReplace inventory floats (maxCommonRoot urls) rest = .ok (some back) ∧
            Url.Rebuilt url back) :=
  ⟨maxCommonRoot_rooted urls, fun url member => Url.tryReplace_rest (wellFormed url member) _⟩

/-! ### Hubs of different depth -/

/-- Every custom scheme is a hub, whatever its domain. -/
def hubStock : Inventory
  | .custom key, domain => some (.mk .hub (.custom key) domain .none .none)
  | _, _ => none

def hubScheme : Scheme := .custom ⟨text "hub", by decide⟩

def hubAuth (domain : String) (parent : Parent) : Auth := .mk .hub hubScheme (text domain) parent .none

/-- `hub://root/@/`. -/
def hubTop : Url := .os (Loc.bare (text "/")) (hubAuth "root" .none)

/-- `hub://a/@root/a`. -/
def hubChild : Url := .os (Loc.bare (text "/a")) (hubAuth "a" (.some (hubAuth "root" .none)))

/-- `hub://b/@a,root/a/b`. -/
def hubGrandchild : Url :=
  .os (Loc.bare (text "/a/b")) (hubAuth "b" (.some (hubAuth "a" (.some (hubAuth "root" .none)))))

private theorem registered_hub (domain : String) :
    Registered hubStock .hub hubScheme (text domain) := by
  refine ⟨?_, nofun, rfl⟩
  simp only [hubScheme, Scheme.Proper]
  decide

private theorem wellFormed_hubs :
    ∀ url ∈ [hubChild, hubGrandchild], url.WellFormed hubStock := by
  intro url member
  rw [List.mem_cons, List.mem_singleton] at member
  have admitted (path : String) : (Loc.bare (text path)).Admitted := Loc.admitted_bare _
  rcases member with rfl | rfl
  · exact ⟨⟨registered_hub "a", ⟨rfl, rfl, rfl, trivial⟩, nofun⟩, rfl, fun _ => admitted "/a"⟩
  · exact ⟨⟨registered_hub "b", ⟨rfl, rfl, rfl, rfl, rfl, rfl, trivial⟩, nofun⟩, rfl,
      fun _ => admitted "/a/b"⟩

/-- The parents of two hubs at different depths have different authorities, though one lies above
both. -/
theorem maxCommonRoot_misses :
    ¬∀ urls : List Url, urls ≠ [] → (∀ url ∈ urls, url.WellFormed hubStock) →
      ∀ root : Url, (∀ url ∈ urls, Relation.TransGen (fun url up => url.parent = some up) url root) →
        root.parts.length ≤ maxCommonRoot urls := by
  intro claim
  have first : hubChild.parent = some hubTop := rfl
  have second : hubGrandchild.parent = some hubChild := rfl
  have few := claim [hubChild, hubGrandchild] (List.cons_ne_nil _ _) wellFormed_hubs hubTop (by
    intro url member
    rw [List.mem_cons, List.mem_singleton] at member
    rcases member with rfl | rfl
    · exact .single first
    · exact .head second (.single first))
  revert few
  decide

theorem maxCommonRoot_rebuilds_hubs :
    ∃ rest back,
      skipUrl Floats.bits hubGrandchild (maxCommonRoot [hubChild, hubGrandchild]) = some rest ∧
        hubGrandchild.tryReplace hubStock Floats.bits (maxCommonRoot [hubChild, hubGrandchild]) rest =
          .ok (some back) ∧ Url.Rebuilt hubGrandchild back := by
  obtain ⟨-, each⟩ := @maxCommonRoot_rebuilds hubStock Floats.bits _ wellFormed_hubs
  obtain ⟨rest, written, rebuilds⟩ := each hubGrandchild (by simp)
  have apart : maxCommonRoot [hubChild, hubGrandchild] = 0 := by decide
  have whole : skipUrl Floats.bits hubGrandchild 0 = some (text "hub://b/@a,root//a/b") := rfl
  have same := written
  rw [apart, whole] at same
  obtain ⟨back, made, rebuilt⟩ := rebuilds (by
    rw [if_pos apart, ← Option.some.inj same]
    exact ⟨by decide, trivial, nofun⟩)
  exact ⟨rest, back, written, made, rebuilt⟩

end Yazi.Fs
