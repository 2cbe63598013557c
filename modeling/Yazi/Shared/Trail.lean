import Yazi.Shared.Ascent

/-!
The directory that lists a url.

A url is an entry of its trail, under its key. Apart from hubs, whose entries are known by their
domains, the trail and the key make up the url.
-/
namespace Yazi.Shared

/-- The authorities above a valid one are valid and of its kind. -/
theorem AuthOf.Valid.parentAt {auth up : Auth} {depth : Nat} (valid : auth.Valid)
    (found : auth.parentAt depth = some up) : up.Valid ∧ up.kind = auth.kind := by
  induction depth generalizing auth with
  | zero =>
    cases found
    exact ⟨valid, rfl⟩
  | succ depth ih =>
    obtain ⟨kind, scheme, domain, parent, view⟩ := auth
    cases parent with
    | none => cases found
    | some above =>
      obtain ⟨-, ⟨same, inner⟩, -⟩ := valid
      obtain ⟨valid, kind'⟩ := ih inner found
      exact ⟨valid, kind'.trans same⟩

namespace Url

theorem Sound.isFramed {url : Url} (sound : url.Sound) : url.Framed where
  valid := sound.valid
  ordered _ _ := Loc.ordered_iff.mpr (Loc.le_of_withPorts sound.ported.withPorts)
  deep hub := Nat.le_of_eq (sound.deep hub).symm

theorem sound_regular (path : Bytes) : (regular path).Sound :=
  ⟨(framed_regular path).valid, Loc.admitted_bare path, fun hub => by cases hub⟩

theorem shape_eq_iff {a b : Url} : a.shape = b.shape ↔
    a.pathKind = b.pathKind ∧ a.components = b.components ∧
      Auth.shape a.auth = Auth.shape b.auth := by
  cases a <;> cases b <;>
    simp [shape, UrlOf.map, pathKind, components, auth, Url.loc, Auth.shape]

/-- What the trail has of a url. -/
structure Trails (url trail : Url) : Prop where
  pathKind : trail.pathKind = url.pathKind
  components : trail.components = Path.components url.loc.trail
  auth : url.kind ≠ .hub → trail.auth = url.auth
  above : url.kind = .hub →
    url.auth.parentAt (Path.authDepth url.loc.urn) = some trail.auth

theorem trail_spec {url trail : Url} (valid : url.Valid) (found : url.trail = some trail) :
    Trails url trail := by
  cases url with
  | os loc auth =>
    simp only [Url.trail] at found
    split at found
    · next kinds =>
      have other : auth.kind ≠ .hub := by rcases kinds with kind | kind <;> rw [kind] <;> decide
      split at found
      · cases found
        exact ⟨rfl, Loc.components_zeroed _, fun _ => rfl, fun hub => absurd hub other⟩
      · obtain ⟨up, made, rfl⟩ := Option.map_eq_some_iff.mp found
        exact ⟨rfl, (Loc.components_new made).1, fun _ => rfl, fun hub => absurd hub other⟩
    · split at found
      · next hub =>
        obtain ⟨up, above, rfl⟩ := Option.map_eq_some_iff.mp found
        exact ⟨rfl, Loc.components_bare _, fun other => absurd hub other, fun _ => above⟩
      · next other =>
        cases found
        exact ⟨rfl, Loc.components_bare _, fun _ => rfl, fun hub => absurd hub other⟩
  | unix loc auth =>
    -- A hub has a path of the system.
    have other : auth.kind ≠ .hub := by
      intro hub
      have of : auth.pathKind = .ok .unix := valid.2.1
      have same : auth.physical = auth :=
        AuthOf.Valid.physical_eq valid.1 (by
          rw [hub]
          decide)
      rw [AuthOf.pathKind, same, hub] at of
      cases of
    simp only [Url.trail] at found
    split at found
    · split at found
      · cases found
        exact ⟨rfl, Loc.components_zeroed _, fun _ => rfl, fun hub => absurd hub other⟩
      · obtain ⟨up, made, rfl⟩ := Option.map_eq_some_iff.mp found
        exact ⟨rfl, (Loc.components_new made).1, fun _ => rfl, fun hub => absurd hub other⟩
    · cases found
      exact ⟨rfl, Loc.components_bare _, fun _ => rfl, fun hub => absurd hub other⟩

/-- What is covariant with a url of a hub is the same url, up to the ports. -/
theorem hub_of_covariant {url other : Url} (sound : url.Sound) (sound' : other.Sound)
    (hub : other.kind = .hub) (same : url.covariant other = true) :
    url.kind = .hub ∧ url.shape = other.shape := by
  obtain ⟨pathKind, components, auths⟩ := covariant_iff.mp same
  have natural (auth : Auth) : (Auth.shape auth).kind = auth.kind := by
    cases auth
    rfl
  have physical : other.auth.physical = other.auth :=
    sound'.valid.1.physical_eq (by rw [show other.auth.kind = .hub from hub]; decide)
  rw [physical] at auths
  have source : url.auth.physical.kind = .hub := by rw [← natural, auths, natural]; exact hub
  have plain : url.auth.kind ≠ .view := by
    intro isView
    obtain ⟨source', data, -, equal, -, kinds, -⟩ := sound.valid.1.source_of_view isView
    rw [equal] at source
    rcases kinds with kind | kind <;> rw [kind] at source <;> cases source
  rw [sound.valid.1.physical_eq plain] at auths source
  exact ⟨source, shape_eq_iff.mpr ⟨pathKind, components, auths⟩⟩

/-! ### Children -/

/-- `is_child`, for urls whose pair does not fail. -/
def isChild (url cwd : Url) : Bool := url.pair.join.any fun pair => pair.1.shape = cwd.shape

theorem isChild_iff {url cwd : Url} : url.isChild cwd = true ↔
    url.key.isEmpty = false ∧ ∃ trail, url.trail = some trail ∧ trail.shape = cwd.shape := by
  rw [isChild, pair]
  split
  · next empty => simp [empty]
  · next some =>
    rw [Bool.not_eq_true] at some
    cases url.trail <;> simp [some]

section children
variable {url other cwd : Url} (sound : url.Sound) (child : url.isChild cwd = true)
include sound child

/-- A child continues the path of the directory, and has its authority unless that is a hub. -/
theorem child_spec : url.pathKind = cwd.pathKind ∧ url.kind = cwd.kind ∧
    url.components = cwd.components ++ Path.components url.loc.urn ∧
      (url.kind ≠ .hub → Auth.shape url.auth = Auth.shape cwd.auth) := by
  obtain ⟨-, trail, found, same⟩ := isChild_iff.mp child
  obtain ⟨pathKind, components, auth, above⟩ := trail_spec sound.valid found
  obtain ⟨pathKind', components', auth'⟩ := shape_eq_iff.mp same
  have natural (auth : Auth) : (Auth.shape auth).kind = auth.kind := by
    cases auth
    rfl
  have kind : trail.kind = url.kind := by
    by_cases hub : url.kind = .hub
    · exact (sound.valid.1.parentAt (above hub)).2
    · rw [Url.kind, auth hub, Url.kind]
  refine ⟨pathKind.symm.trans pathKind', ?_, ?_, fun other => ?_⟩
  · rw [← kind, Url.kind, ← natural, auth', natural, Url.kind]
  · rw [← components', components]
    exact url.loc.components_trail_urn.symm
  · rw [← auth other, auth']

variable (sound' : other.Sound) (child' : other.isChild cwd = true)
include sound' child'

/-- Outside of hubs, the key tells the children of a directory apart. -/
theorem shape_of_key (plain : url.kind ≠ .hub) (same : (url.key == other.key) = true) :
    url.shape = other.shape := by
  obtain ⟨pathKind, kind, components, auth⟩ := child_spec sound child
  obtain ⟨pathKind', kind', components', auth'⟩ := child_spec sound' child'
  have plain' : other.kind ≠ .hub := by rwa [kind', ← kind]
  rw [key, key, if_neg plain, if_neg plain', PathDyn.beq_iff] at same
  have urn : Path.components url.loc.urn = Path.components other.loc.urn := same.2
  refine shape_eq_iff.mpr ⟨pathKind.trans pathKind'.symm, ?_, ?_⟩
  · rw [components, components', urn]
  · rw [auth plain, auth' plain']

/-- Covariant children have the same key. -/
theorem key_of_covariant (same : url.covariant other = true) : (url.key == other.key) = true := by
  obtain ⟨pathKind, kind, components, -⟩ := child_spec sound child
  obtain ⟨pathKind', kind', components', -⟩ := child_spec sound' child'
  obtain ⟨-, paths, auths⟩ := covariant_iff.mp same
  by_cases hub : url.kind = .hub
  · have hub' : other.kind = .hub := by rw [kind', ← kind, hub]
    have physical {u : Url} (sound : u.Sound) (hub : u.kind = .hub) : u.auth.physical = u.auth :=
      sound.valid.1.physical_eq (by rw [show u.auth.kind = .hub from hub]; decide)
    have domain (auth : Auth) : (Auth.shape auth).domain = auth.domain := by
      cases auth
      rfl
    rw [physical sound hub, physical sound' hub'] at auths
    rw [key, key, if_pos hub, if_pos hub', ← domain, auths, domain]
    exact BEq.rfl
  · have hub' : other.kind ≠ .hub := by rwa [kind', ← kind]
    rw [components, components', List.append_cancel_left_eq] at paths
    rw [key, key, if_neg hub, if_neg hub', PathDyn.beq_iff]
    exact ⟨pathKind.trans pathKind'.symm, paths⟩

omit sound' child' in
/-- Outside of hubs, a child has a parent. -/
theorem parent_of_child (plain : url.kind ≠ .hub) : url.parent.isSome = true := by
  obtain ⟨some, -⟩ := isChild_iff.mp child
  rw [key, if_neg plain] at some
  have present : Path.components url.loc.urn ≠ [] := by
    rw [ne_eq, Path.components_eq_nil]
    intro none
    rw [urn, PathDyn.isEmpty, none] at some
    cases some
  cases above : url.parent with
  | some up => rfl
  | none =>
    have top := parent_spec sound.valid
    rw [above] at top
    rcases top with single | alone
    · -- The only component would be the root, which the ports of a location leave out.
      have rootless := Loc.hasRoot_urn sound.ported.withPorts
      have whole := url.loc.components_trail_urn
      have inner : url.loc.components = Path.components (Path.trim url.loc.inner) :=
        (Path.components_trim _).symm
      rcases Path.parent_eq_none.mp single with empty | root
      · rw [inner, empty, Path.components_nil, List.append_eq_nil_iff] at whole
        exact absurd whole.2 present
      · rw [inner, root, Path.components_slash] at whole
        rcases List.append_eq_singleton_iff.mp whole with ⟨-, urn⟩ | ⟨-, urn⟩
        · have rooted := (Path.hasRoot_iff url.loc.urn).mpr (by rw [urn]; rfl)
          rw [rootless] at rooted
          cases rooted
        · exact absurd urn present
    · -- Only a hub ends.
      by_cases isView : url.auth.kind = .view
      · obtain ⟨source, data, -, physical, -, kinds, -⟩ := sound.valid.1.source_of_view isView
        rw [physical, AuthOf.higher] at alone
        rcases kinds with kind | kind <;> rw [kind] at alone <;> cases alone
      · rw [sound.valid.1.physical_eq isView, AuthOf.higher] at alone
        split at alone
        · cases alone
        · next hub => exact absurd hub plain
        · cases alone

end children

end Url

end Yazi.Shared
