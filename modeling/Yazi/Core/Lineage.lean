import Yazi.Core.Selected
import Yazi.Shared.Covariance

/-!
The ancestors of covariant urls, and with them the counts of the selection.
-/
namespace Yazi.Core
open Yazi.Base Yazi.Shared

/-- Every ancestor of one is covariant with the ancestor of the other at the same height. -/
def Aligned (u v : Url) : Prop :=
  List.Forall₂ (fun a b : UrlCov => (a == b) = true) (lineage.ancestors ⟨u⟩) (lineage.ancestors ⟨v⟩)

private theorem parent_mk (u : Url) : lineage.parent ⟨u⟩ = u.parent.map UrlCov.mk := rfl

private theorem aligned_iff (u v : Url) (left : u.Valid) (right : v.Valid)
    (same : u.covariant v = true) : Aligned u v ↔ ¬u.Apart v := by
  have every : ∀ k : UrlCov, k.url.Valid → ∀ v : Url, v.Valid → k.url.covariant v = true →
      (Aligned k.url v ↔ ¬k.url.Apart v) := by
    intro k
    induction k using lineage.induct with
    | step k ih =>
      intro left v right same
      have border := Url.agree_iff left right same
      have reaches := Url.apart_of_border (Url.covariant_iff.mp same).2.1
      rw [Aligned, lineage.ancestors_eq, lineage.ancestors_eq, parent_mk, parent_mk]
      cases above : k.url.parent with
      | none =>
        have near : ¬k.url.Apart v := Url.not_apart_of_top left same above
        have agree := border.mpr (mt reaches near)
        rw [Url.Agree, above] at agree
        cases above' : v.parent with
        | none => exact iff_of_true .nil near
        | some vp =>
          rw [above'] at agree
          cases agree
      | some up =>
        by_cases agree : k.url.Agree v
        · rw [Url.Agree, above] at agree
          cases above' : v.parent with
          | none =>
            rw [above'] at agree
            cases agree
          | some vp =>
            rw [above', Option.rel_some_some] at agree
            have next := ih ⟨up⟩ (congrArg (Option.map UrlCov.mk) above) (left.parent above) vp
              (right.parent above') agree
            rw [← Url.apart_parent left right same above above' agree, ← next]
            exact List.forall₂_cons.trans (and_iff_right agree)
        · have far := reaches (not_not.mp (mt border.mpr agree))
          refine iff_of_false (fun aligned => ?_) (not_not.mpr far)
          cases above' : v.parent with
          | none =>
            rw [above'] at aligned
            cases aligned
          | some vp =>
            rw [above'] at aligned
            have head := (List.forall₂_cons.mp aligned).1
            rw [Url.Agree, above, above', Option.rel_some_some] at agree
            exact agree head
  exact every ⟨u⟩ left v right same

/-- The parents of covariant urls are covariant unless one url is at the portal of a mount that
the other is inside of; all their ancestors are unless the urls are in mounts that begin at
different places. -/
theorem covariant_parents_iff (u v : Url) (left : u.Valid) (right : v.Valid)
    (same : u.covariant v = true) :
    (u.Agree v ↔ ¬u.Border v) ∧ (Aligned u v ↔ ¬u.Apart v) :=
  ⟨Url.agree_iff left right same, aligned_iff u v left right same⟩

/-- A view of a local directory, and the directory. -/
def view : Url :=
  .os (Loc.zeroed (text "/a/b"))
    (.mk .view (.custom ⟨text "find", by decide⟩) [] .none (.some AuthOf.default .nil))

theorem covariant_parents_view :
    (view.Valid ∧ (Url.regular (text "/a/b")).Valid ∧
        view.covariant (Url.regular (text "/a/b")) = true) ∧
      (view.Agree (Url.regular (text "/a/b")) ↔ ¬view.Border (Url.regular (text "/a/b"))) ∧
        (Aligned view (Url.regular (text "/a/b")) ↔ ¬view.Apart (Url.regular (text "/a/b"))) := by
  have default : (AuthOf.default : Auth).Valid := ⟨rfl, trivial, trivial⟩
  have admits : Loc.withPorts (text "/a/b") 0 0 = .ok (Loc.zeroed (text "/a/b")) := rfl
  have left : view.Valid := ⟨⟨rfl, trivial, default⟩, rfl, fun _ => Loc.admitted_of_withPorts admits⟩
  have right : (Url.regular (text "/a/b")).Valid := ⟨default, rfl, nofun⟩
  have same : view.covariant (Url.regular (text "/a/b")) = true := by decide
  exact ⟨⟨left, right, same⟩, covariant_parents_iff _ _ left right same⟩

/-- A mount at this location. -/
def mountAt (loc : Loc) : Url := .os loc (.mk .mount (.custom ⟨text "zip", by decide⟩) [] .none .none)

/-- Above the mount at `/m/x` lies the local `/m`, above the entry `x` of the mount at `/m` lies
that mount. -/
theorem covariant_parents_differ :
    (mountAt (Loc.zeroed (text "/m/x"))).Valid ∧ (mountAt (Loc.bare (text "/m/x"))).Valid ∧
      (mountAt (Loc.zeroed (text "/m/x"))).covariant (mountAt (Loc.bare (text "/m/x"))) = true ∧
        ¬(mountAt (Loc.zeroed (text "/m/x"))).Agree (mountAt (Loc.bare (text "/m/x"))) := by
  have valid : ∀ loc, (mountAt loc).Valid := fun _ => ⟨⟨rfl, trivial, trivial⟩, rfl, nofun⟩
  refine ⟨valid _, valid _, by decide, fun agree => ?_⟩
  have noBorder := (Url.agree_iff (valid _) (valid _) (by decide)).mp agree
  exact noBorder ⟨rfl, by decide, by decide⟩

/-- A selection keeps its counts on urls none of which is at the border of another's mount. -/
theorem uniform_of_not_border {U : UrlCov → Prop} (valid : ∀ k, U k → k.url.Valid)
    (closed : ∀ k p, U k → lineage.parent k = some p → U p)
    (near : ∀ k l, U k → U l → (k == l) = true → ¬k.url.Border l.url) : lineage.Uniform U where
  closed := closed
  agrees k l left right same := by
    have agree := (Url.agree_iff (valid k left) (valid l right) same).mpr (near k l left right same)
    rw [Url.Agree] at agree
    change Option.Rel _ (k.url.parent.map UrlCov.mk) (l.url.parent.map UrlCov.mk)
    revert agree
    generalize k.url.parent = p, l.url.parent = q
    intro agree
    cases agree with
    | none => exact .none
    | some covariant => exact .some covariant

end Yazi.Core
