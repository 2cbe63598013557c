import Yazi.Shared.Pair

/-!
The authorities of a hub, one above the other.
-/
namespace Yazi.Shared

namespace AuthOf

variable {L N : Type}

/-- The authority and those above it. -/
def levels : AuthOf L N → List (AuthOf L N)
  | .mk kind scheme domain .none view => [.mk kind scheme domain .none view]
  | .mk kind scheme domain (.some parent) view =>
    .mk kind scheme domain (.some parent) view :: parent.levels

/-- Puts an authority below another one. -/
def graft (parent auth : AuthOf L N) : AuthOf L N := auth.withParent (.some parent)

@[simp] theorem levels_graft (parent auth : AuthOf L N) :
    (graft parent auth).levels = graft parent auth :: parent.levels := by
  cases auth
  rfl

theorem parentDepth_graft (parent auth : AuthOf L N) :
    (graft parent auth).parentDepth = parent.parentDepth + 1 := by
  cases auth
  rfl

theorem length_levels : (auth : AuthOf L N) → auth.levels.length = auth.parentDepth + 1
  | .mk _ _ _ .none _ => rfl
  | .mk _ _ _ (.some parent) _ => congrArg Nat.succ (length_levels parent)

theorem self_mem_levels (auth : AuthOf L N) : auth ∈ auth.levels := by
  obtain ⟨kind, scheme, domain, parent, view⟩ := auth
  cases parent <;> exact List.mem_cons_self

/-- The outermost level, and the others from there. -/
theorem levels_eq : (auth : AuthOf L N) →
    ∃ root inner, auth.levels.reverse = root :: inner ∧ root.levels = [root] ∧
      inner.foldl graft root = auth
  | .mk kind scheme domain .none view => ⟨_, [], rfl, rfl, rfl⟩
  | .mk kind scheme domain (.some parent) view => by
    obtain ⟨root, inner, split, single, grown⟩ := levels_eq parent
    refine ⟨root, inner ++ [.mk kind scheme domain (.some parent) view], ?_, single, ?_⟩
    · rw [levels, List.reverse_cons, split, List.cons_append]
    · rw [List.foldl_append, grown]
      rfl

theorem kind_graft (parent auth : AuthOf L N) :
    (graft parent auth).kind = auth.kind ∧ (graft parent auth).view = auth.view ∧
      (graft parent auth).domain = auth.domain := by
  cases auth
  exact ⟨rfl, rfl, rfl⟩

/-- Every level is grafted onto the one above, and keeps its domain. -/
theorem levels_foldl_graft (root : AuthOf L N) (inner : List (AuthOf L N)) :
    ∃ grown, (inner.foldl graft root).levels.reverse = root.levels.reverse ++ grown ∧
      (∀ up ∈ grown, ∃ auth ∈ inner, ∃ parent, up = graft parent auth) ∧
      grown.map domain = inner.map domain := by
  induction inner generalizing root with
  | nil => exact ⟨[], by rw [List.foldl_nil, List.append_nil], nofun, rfl⟩
  | cons auth inner ih =>
    obtain ⟨grown, split, grafted, same⟩ := ih (graft root auth)
    refine ⟨graft root auth :: grown, ?_, fun up member => ?_, ?_⟩
    · rw [List.foldl_cons, split, levels_graft, List.reverse_cons, List.append_assoc,
        List.singleton_append]
    · rcases List.mem_cons.mp member with rfl | later
      · exact ⟨auth, List.mem_cons_self, root, rfl⟩
      · obtain ⟨other, among, parent, found⟩ := grafted up later
        exact ⟨other, List.mem_cons_of_mem _ among, parent, found⟩
    · rw [List.map_cons, List.map_cons, same, (kind_graft root auth).2.2]

theorem parentDepth_foldl_graft (root : AuthOf L N) (inner : List (AuthOf L N)) :
    (inner.foldl graft root).parentDepth = root.parentDepth + inner.length := by
  induction inner generalizing root with
  | nil => rfl
  | cons auth inner ih =>
    rw [List.foldl_cons, ih, parentDepth_graft, List.length_cons]
    omega

end AuthOf

/-! ### Sturdy urls -/

namespace Url

/-- What a url must have so that nothing fails: every level of a hub is one, and there is one for
each component that takes one. -/
structure Sturdy (url : Url) : Prop where
  valid : url.auth.validate = .ok ()
  paths : url.auth.pathKind = .ok url.pathKind
  ported : url.kind ≠ .regular → url.loc.Admitted
  deep : url.kind = .hub → url.auth.parentDepth = Path.authDepth url.loc.inner
  levels : url.kind = .hub → ∀ level ∈ url.auth.levels, level.kind = .hub ∧ level.view = .none

private theorem levels_of_chain {scheme : Scheme} :
    ∀ {parent : Parent} {n : Nat}, parent.Chain .hub scheme n → ∀ scheme' domain,
      (AuthOf.mk .hub scheme' domain parent .none).parentDepth = n ∧
        ∀ level ∈ (AuthOf.mk .hub scheme' domain parent .none).levels,
          level.kind = .hub ∧ level.view = .none
  | .none, 0, _, _, _ => ⟨rfl, fun _ member => List.mem_singleton.mp member ▸ ⟨rfl, rfl⟩⟩
  | .some (.mk _ scheme' domain _ _), _ + 1, chain, _, _ => by
    obtain ⟨rfl, -, rfl, rest⟩ := chain
    obtain ⟨depth, levels⟩ := levels_of_chain rest scheme' domain
    refine ⟨congrArg Nat.succ depth, fun level member => ?_⟩
    rcases List.mem_cons.mp member with rfl | above
    · exact ⟨rfl, rfl⟩
    · exact levels level above

/-- Well-formed urls are sturdy. -/
theorem sturdy_of_wellFormed {inventory : Inventory} {url : Url} (sound : url.WellFormed inventory) :
    Sturdy url := by
  have each : url.auth.WellFormed inventory url.loc.inner ∧ url.auth.pathKind = .ok url.pathKind ∧
      (url.auth.kind ≠ .regular → url.loc.Admitted) := by
    cases url <;> exact sound
  obtain ⟨auth, paths, ported⟩ := each
  have hubs : url.auth.kind = .hub → url.auth.parentDepth = Path.authDepth url.loc.inner ∧
      ∀ level ∈ url.auth.levels, level.kind = .hub ∧ level.view = .none := by
    intro hub
    revert auth hub
    cases url.auth with
    | mk kind scheme domain parent view =>
      rintro ⟨-, chain, shown⟩ hub
      obtain rfl : kind = .hub := hub
      rw [if_pos rfl] at chain
      cases view with
      | some source data => cases shown.1
      | none => exact levels_of_chain chain scheme domain
  refine ⟨?_, paths, ported, fun hub => (hubs hub).1, fun hub => (hubs hub).2⟩
  have valid := (framed_of_wellFormed sound).valid.1
  revert valid
  cases url.auth
  exact And.left

/-- A regular path is one of the system. -/
theorem Sturdy.os_of_regular {url : Url} (sturdy : Sturdy url) (regular : url.kind = .regular) :
    url.pathKind = .os := by
  have kind : url.auth.kind = .regular := regular
  have view : url.auth.view = .none := by
    have valid := sturdy.valid
    cases present : url.auth.view with
    | none => rfl
    | some source data =>
      rw [AuthOf.validate, kind, present] at valid
      cases valid
  have paths := sturdy.paths
  rw [AuthOf.pathKind, AuthOf.physical, view, kind] at paths
  exact (Except.ok.inj paths).symm

end Url

end Yazi.Shared
