import Yazi.Shared.Covariance
import Yazi.Shared.Join

/-!
A url as a directory and the key of an entry in it.
-/
namespace Yazi.Shared

/-! ### Paths and authorities -/

/-- A component without an authority is the first one. -/
theorem Path.hasAuth_of_mem_tail {p : Bytes} {c : Path.Component}
    (member : c ∈ (Path.components p).tail) : c.hasAuth = true := by
  simp only [Path.components] at member
  split at member
  · cases member
  · cases parts : Path.segments p with
    | nil =>
      rw [parts] at member
      cases member
    | cons s rest =>
      rw [parts] at member
      obtain ⟨t, -, found⟩ := List.mem_filterMap.mp member
      simp only [Path.inner] at found
      split at found
      · cases found
      · split at found <;> cases found <;> rfl

/-- Above a path is a component less that has an authority, unless there is no more. -/
theorem Path.authDepth_parent {p q : Bytes} (above : Path.parent p = some q) :
    Path.authDepth q ≤ Path.authDepth p - 1 := by
  obtain ⟨shorter, -, -⟩ := Path.components_parent above
  rw [Path.authDepth, Path.authDepth, shorter]
  rcases List.eq_nil_or_concat (Path.components p) with none | ⟨front, last, whole⟩
  · simp [none]
  · rw [whole, List.concat_eq_append, List.dropLast_concat, List.countP_append, List.countP_singleton]
    cases front with
    | nil => simp
    | cons c front =>
      have more : last ∈ (Path.components p).tail := by simp [whole]
      rw [Path.hasAuth_of_mem_tail more, if_pos rfl, Nat.add_sub_cancel]

theorem AuthOf.parentAt_of_le {L N : Type} {auth : AuthOf L N} {depth : Nat}
    (deep : depth ≤ auth.parentDepth) : ∃ up, auth.parentAt depth = some up := by
  induction depth generalizing auth with
  | zero => exact ⟨auth, rfl⟩
  | succ depth ih =>
    obtain ⟨kind, scheme, domain, parent, view⟩ := auth
    cases parent with
    | none => cases deep
    | some up => exact ih (Nat.le_of_succ_le_succ deep)

/-- The URI is not shorter than the URN when it does not have fewer components. -/
theorem Loc.ordered_iff {loc : Loc} :
    loc.Ordered ↔ (Path.components loc.urn).length ≤ (Path.components loc.uri).length := by
  obtain ⟨n, uri⟩ := loc.uriBoundary
  obtain ⟨m, urn⟩ := loc.urnBoundary
  obtain ⟨after, before⟩ := Loc.drop_boundary uri
  obtain ⟨after', before'⟩ := Loc.drop_boundary urn
  rw [Loc.Ordered, Loc.base, Loc.trail, Loc.uri, Loc.urn, before, before', after, after',
    Path.components_skip, Path.components_skip, List.length_drop, List.length_drop]
  constructor
  · intro lead
    have shorter := lead.length_le
    rw [List.length_take, List.length_take] at shorter
    omega
  · intro shorter
    rcases Nat.lt_or_ge m n with order | order
    on_goal 2 => exact List.take_prefix_take_left order
    · have both : (Path.components loc.inner).length ≤ m := by omega
      rw [List.take_of_length_le both]
      exact List.take_prefix ..

namespace Url

/-- `Url::trail`: `none` where `expect` panics. -/
def trail (url : Url) : Option Url :=
  match url with
  | .os loc auth =>
    if auth.kind = .view ∨ auth.kind = .mount then
      if loc.uri = [] then some (.os (Loc.zeroed loc.trail) auth)
      else (Loc.new loc.trail loc.base loc.base).map (.os · auth)
    else if auth.kind = .hub then
      (auth.parentAt (Path.authDepth loc.urn)).map (.os (Loc.bare loc.trail) ·)
    else some (.os (Loc.bare loc.trail) auth)
  | .unix loc auth =>
    if auth.kind = .view then
      if loc.uri = [] then some (.unix (Loc.zeroed loc.trail) auth)
      else (Loc.new loc.trail loc.base loc.base).map (.unix · auth)
    else some (.unix (Loc.bare loc.trail) auth)

/-- `Url::pair`: an entry without key is in no directory. -/
def pair (url : Url) : Option (Option (Url × PathDyn)) :=
  if url.key.isEmpty then some none else url.trail.map fun trail => some (trail, url.key)

/-- The ports of a view or a mount are in order, and a hub has an authority above for every
component. -/
structure Framed (url : Url) : Prop where
  valid : url.Valid
  ordered : url.kind = .view ∨ url.kind = .mount → url.loc.uri ≠ [] → url.loc.Ordered
  deep : url.kind = .hub → Path.authDepth url.loc.inner ≤ url.auth.parentDepth

/-- Nothing fails in a framed url. -/
theorem Framed.trail {url : Url} (framed : url.Framed) : ∃ trail, url.trail = some trail := by
  have found {loc : Loc} (ordered : loc.Ordered) : ∃ up, Loc.new loc.trail loc.base loc.base = some up := by
    have starts : Path.startsWith (Loc.bare loc.trail).inner loc.base = true := by
      rw [Path.startsWith, List.isPrefixOf_iff_prefix]
      exact ordered.trans (Eq.symm (Loc.components_bare loc.trail) ▸ List.prefix_rfl)
    exact ⟨_, if_pos ⟨starts, starts⟩⟩
  cases url with
  | os loc auth =>
    simp only [Url.trail]
    split
    · next kinds =>
      split
      · exact ⟨_, rfl⟩
      · next item =>
        have ordered : loc.Ordered := framed.ordered kinds item
        obtain ⟨up, made⟩ := found ordered
        exact ⟨.os up auth, by rw [made]; rfl⟩
    · split
      · next hub =>
        have fewer : Path.authDepth loc.urn ≤ Path.authDepth loc.inner := by
          obtain ⟨n, boundary⟩ := loc.urnBoundary
          rw [Path.authDepth, Loc.urn, (Loc.drop_boundary boundary).1, Path.components_skip]
          exact (List.drop_sublist n _).countP_le
        have deep : Path.authDepth loc.inner ≤ auth.parentDepth := framed.deep hub
        obtain ⟨up, made⟩ := AuthOf.parentAt_of_le (fewer.trans deep)
        exact ⟨.os (Loc.bare loc.trail) up, by rw [made]; rfl⟩
      · exact ⟨_, rfl⟩
  | unix loc auth =>
    simp only [Url.trail]
    split
    · next kind =>
      split
      · exact ⟨_, rfl⟩
      · next item =>
        have ordered : loc.Ordered := framed.ordered (.inl kind) item
        obtain ⟨up, made⟩ := found ordered
        exact ⟨.unix up auth, by rw [made]; rfl⟩
    · exact ⟨_, rfl⟩

private theorem framed_of_plain {url : Url} (valid : url.Valid)
    (plain : url.kind ≠ .view ∧ url.kind ≠ .mount ∧ url.kind ≠ .hub) : url.Framed where
  valid := valid
  ordered kinds := absurd kinds (not_or.mpr ⟨plain.1, plain.2.1⟩)
  deep hub := absurd hub plain.2.2

/-- The parent of a view item is ordered. -/
private theorem ordered_ascend {loc up : Loc} (above : loc.ascend = some up) : up.Ordered := by
  simp only [Loc.ascend, Option.bind_eq_bind, Option.bind_eq_some_iff] at above
  obtain ⟨path, -, admits⟩ := above
  cases result : Loc.withPorts path ((Path.components loc.uri).length - 1)
      ((Path.components loc.urn).length - 1) with
  | error e =>
    rw [result] at admits
    cases admits
  | ok up' =>
    rw [result] at admits
    cases admits
    obtain ⟨uri, urn⟩ := Loc.length_withPorts result
    rw [Loc.ordered_iff, uri, urn]
    exact Loc.le_of_withPorts result

/-- A location that floats over a base has no longer URN than a name. -/
private theorem ordered_floated {path base : Bytes} {up : Loc} (floats : Loc.floated path base = some up)
    (item : up.uri ≠ []) : up.Ordered := by
  have some : Path.components up.uri ≠ [] := by simpa using item
  have short : (Path.components up.urn).length ≤ 1 := by
    rw [Loc.floated] at floats
    split at floats <;> cases floats
    exact (Loc.length_bare path).2 ▸ Bool.toNat_le _
  exact Loc.ordered_iff.mpr (short.trans (List.length_pos_iff.mpr some))

theorem Framed.parent {url up : Url} (framed : url.Framed) (above : url.parent = some up) :
    up.Framed := by
  have valid := framed.valid.parent above
  by_cases portal : url.kind = .view ∧ url.loc.uri = []
  · -- Above a view is a url of its source.
    obtain ⟨source, data, shows, -, -, kinds, -⟩ := framed.valid.1.source_of_view portal.1
    have plain : source.kind ≠ .view ∧ source.kind ≠ .mount ∧ source.kind ≠ .hub := by
      rcases kinds with kind | kind <;> rw [kind] <;> decide
    rw [parent_portal portal.1 portal.2 shows plain] at above
    obtain ⟨path, -, rfl⟩ := Option.map_eq_some_iff.mp above
    exact framed_of_plain valid (by rwa [kind, rebuild_auth])
  · rw [Url.parent, if_neg fun both => portal ⟨of_decide_eq_true both.1, both.2⟩] at above
    by_cases plain : url.kind ≠ .view ∧ url.kind ≠ .mount ∧ url.kind ≠ .hub
    · rw [above_plain plain] at above
      obtain ⟨path, -, rfl⟩ := Option.map_eq_some_iff.mp above
      exact framed_of_plain valid (by rwa [kind, rebuild_auth])
    · cases url with
      | unix loc auth =>
        simp only [Url.above] at above
        split at above
        · next kind =>
          obtain ⟨up, ascends, rfl⟩ := Option.map_eq_some_iff.mp above
          have other : auth.kind ≠ .hub := by rw [kind]; decide
          exact ⟨valid, fun _ _ => ordered_ascend ascends, fun hub => absurd hub other⟩
        · next other =>
          -- No mount and no hub is remote.
          have of : auth.pathKind = .ok .unix := framed.valid.2.1
          have same : auth.physical = auth := AuthOf.Valid.physical_eq framed.valid.1 other
          rw [AuthOf.pathKind, same] at of
          refine absurd ⟨other, fun isMount => ?_, fun isHub => ?_⟩ plain
          · rw [show auth.kind = .mount from isMount] at of
            cases of
          · rw [show auth.kind = .hub from isHub] at of
            cases of
      | os loc auth =>
        simp only [Url.above] at above
        split at above
        · next kind =>
          obtain ⟨up, ascends, rfl⟩ := Option.map_eq_some_iff.mp above
          have other : auth.kind ≠ .hub := by rw [kind]; decide
          exact ⟨valid, fun _ _ => ordered_ascend ascends, fun hub => absurd hub other⟩
        · next kind =>
          have other : auth.kind ≠ .hub := by rw [kind]; decide
          split at above
          · obtain ⟨path, -, rfl⟩ := Option.map_eq_some_iff.mp above
            exact framed_of_plain valid ⟨AuthKind.noConfusion, AuthKind.noConfusion, AuthKind.noConfusion⟩
          · split at above
            · obtain ⟨path, -, rfl⟩ := Option.map_eq_some_iff.mp above
              refine ⟨valid, fun _ item => absurd ?_ item, fun hub => absurd hub other⟩
              exact List.drop_eq_nil_iff.mpr (Nat.le_refl _)
            · obtain ⟨path, -, floats⟩ := Option.bind_eq_some_iff.mp above
              obtain ⟨up, made, rfl⟩ := Option.map_eq_some_iff.mp floats
              exact ⟨valid, fun _ item => ordered_floated made item, fun hub => absurd hub other⟩
        · next kind =>
          have deep : Path.authDepth loc.inner ≤ auth.parentDepth := framed.deep kind
          obtain ⟨isHub, scheme, domain, parent, view⟩ := auth
          cases parent with
          | none => cases above
          | some parent =>
            obtain ⟨path, parents, rfl⟩ := Option.map_eq_some_iff.mp above
            have same : parent.kind = isHub := framed.valid.1.2.1.1
            have hub : parent.kind = .hub := same.trans kind
            have fewer := Path.authDepth_parent parents
            refine ⟨valid, fun kinds => ?_, fun _ => ?_⟩
            · rcases kinds with other | other <;> cases hub.symm.trans other
            · have depth : (AuthOf.mk isHub scheme domain (.some parent) view).parentDepth =
                  parent.parentDepth + 1 := rfl
              change Path.authDepth (Path.trim path) ≤ parent.parentDepth
              rw [Path.authDepth, Path.components_trim]
              rw [Path.authDepth] at fewer
              omega
        · next noView noMount noHub =>
          exact absurd ⟨noView, noMount, noHub⟩ plain

theorem Framed.pair {url : Url} (framed : url.Framed) : ∃ pair, url.pair = some pair := by
  obtain ⟨trail, found⟩ := framed.trail
  rw [Url.pair, found]
  split <;> exact ⟨_, rfl⟩

/-! ### Well-formed urls -/

theorem framed_regular (path : Bytes) : (Url.regular path).Framed where
  valid := ⟨⟨rfl, trivial, trivial⟩, rfl, nofun⟩
  ordered := nofun
  deep := nofun

private theorem chain_valid {kind : AuthKind} {scheme : Scheme} (other : kind ≠ .view) :
    ∀ {parent : Parent} {n : Nat}, parent.Chain kind scheme n → parent.Valid kind
  | .none, _, _ => trivial
  | .some (.mk kind' scheme' domain parent view), n + 1, chain => by
    obtain ⟨rfl, -, rfl, rest⟩ := chain
    refine ⟨rfl, ?_, chain_valid other rest, trivial⟩
    cases kind' <;> first | rfl | exact absurd rfl other

private theorem chain_depth {kind : AuthKind} {scheme : Scheme} :
    ∀ {parent : Parent} {n : Nat}, parent.Chain kind scheme n →
      ∀ kind' scheme' domain view, (AuthOf.mk kind' scheme' domain parent view).parentDepth = n
  | .none, 0, _, _, _, _, _ => rfl
  | .some (.mk _ _ _ _ _), _ + 1, chain, _, _, _, _ =>
    congrArg Nat.succ (chain_depth chain.2.2.2 _ _ _ _)

private theorem valid_of_wellFormed {inventory : Inventory} :
    ∀ (auth : Auth) {path : Bytes}, auth.WellFormed inventory path → auth.Valid
  | .mk kind scheme domain parent .none, path, sound => by
    obtain ⟨-, chain, other⟩ := sound
    refine ⟨?_, chain_valid other chain, trivial⟩
    cases kind <;> first | rfl | exact absurd rfl other
  | .mk kind scheme domain parent (.some source data), path, sound => by
    obtain ⟨-, chain, rfl, kinds, inner, -⟩ := sound
    refine ⟨?_, ?_, valid_of_wellFormed source inner⟩
    · exact if_pos (kinds.imp_left decide_eq_true)
    · cases parent with
      | none => trivial
      | some parent =>
        obtain ⟨kind, scheme, domain, parent, view⟩ := parent
        cases chain

/-- Well-formed urls are framed. -/
theorem framed_of_wellFormed {inventory : Inventory} {url : Url} (sound : url.WellFormed inventory) :
    url.Framed := by
  have each : url.auth.WellFormed inventory url.loc.inner ∧ url.auth.pathKind = .ok url.pathKind ∧
      (url.auth.kind ≠ .regular → url.loc.Admitted) := by
    cases url <;> exact sound
  obtain ⟨auth, path, ports⟩ := each
  have valid := valid_of_wellFormed url.auth auth
  refine ⟨⟨valid, path, fun isView => ports ?_⟩, fun kinds _ => ?_, fun hub => ?_⟩
  · rw [show url.auth.kind = .view from isView]
    decide
  · have other : url.auth.kind ≠ .regular := by
      rcases kinds with kind | kind <;> rw [show url.auth.kind = _ from kind] <;> decide
    exact Loc.ordered_iff.mpr (Loc.le_of_withPorts (ports other).withPorts)
  · have isHub : url.auth.kind = .hub := hub
    revert auth isHub
    cases url.auth with
    | mk kind scheme domain parent view =>
      intro auth isHub
      obtain ⟨-, chain, -⟩ := auth
      rw [if_pos (show kind = .hub from isHub)] at chain
      exact Nat.le_of_eq (chain_depth chain kind scheme domain view).symm

end Url

end Yazi.Shared
