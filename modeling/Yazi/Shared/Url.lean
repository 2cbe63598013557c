import Yazi.Shared.Auth

/-!
Urls: a path with its authority. The parent of a url lies one component above it, and may
belong to another authority.
-/
namespace Yazi.Shared

/-- `PathDyn`: equal when of one kind and with equal components. -/
structure PathDyn where
  kind : PathKind
  bytes : Bytes
  deriving DecidableEq, Repr

namespace PathDyn

def isEmpty (path : PathDyn) : Bool := path.bytes.isEmpty

def components (path : PathDyn) : List Path.Component := Path.components path.bytes

/-- On Unix. -/
def isHidden (path : PathDyn) : Bool := (Path.name path.bytes).any (·.head? == some Path.dot)

instance : BEq PathDyn := ⟨fun a b => a.kind = b.kind ∧ a.components = b.components⟩

theorem beq_iff {a b : PathDyn} :
    (a == b) = true ↔ a.kind = b.kind ∧ a.components = b.components := by
  simp [BEq.beq]

instance : EquivBEq PathDyn where
  rfl := beq_iff.mpr ⟨rfl, rfl⟩
  symm same := beq_iff.mpr ⟨(beq_iff.mp same).1.symm, (beq_iff.mp same).2.symm⟩
  trans left right := beq_iff.mpr
    ⟨(beq_iff.mp left).1.trans (beq_iff.mp right).1,
      (beq_iff.mp left).2.trans (beq_iff.mp right).2⟩

theorem isEmpty_congr {a b : PathDyn} (same : (a == b) = true) : a.isEmpty = b.isEmpty := by
  have none : ∀ p : PathDyn, p.isEmpty = true ↔ p.components = [] := by
    intro p
    simp [isEmpty, components, Path.components_eq_nil]
  have shape := (beq_iff.mp same).2
  exact Bool.eq_iff_iff.mpr (by rw [none, none, shape])

end PathDyn

namespace Url

def loc : Url → Loc
  | .os loc _ => loc
  | .unix loc _ => loc

def auth : Url → Auth
  | .os _ auth => auth
  | .unix _ auth => auth

def pathKind : Url → PathKind
  | .os .. => .os
  | .unix .. => .unix

def kind (url : Url) : AuthKind := url.auth.kind

def isRegular (url : Url) : Bool := url.auth.isRegular

def isView (url : Url) : Bool := url.kind = .view

def components (url : Url) : List Path.Component := url.loc.components

def name (url : Url) : Option Bytes := Path.name url.loc.inner

def uri (url : Url) : PathDyn := ⟨url.pathKind, url.loc.uri⟩

def urn (url : Url) : PathDyn := ⟨url.pathKind, url.loc.urn⟩

/-- `Url::key`: a hub names its entries by the domain. -/
def key (url : Url) : PathDyn :=
  if url.kind = .hub then ⟨.unix, url.auth.domain⟩ else url.urn

def regular (path : Bytes) : Url := .os (Loc.bare path) AuthOf.default

/-- The same variant over another path. -/
def rebuild (url : Url) (loc : Loc) (auth : Auth) : Url :=
  match url with
  | .os .. => .os loc auth
  | .unix .. => .unix loc auth

def physical (url : Url) : Url :=
  match url.auth.view with
  | .none => url
  | .some source _ => url.rebuild (Loc.bare url.loc.inner) source

/-- `Loc::saturated`. -/
def saturated (path : Bytes) : AuthKind → Loc
  | .regular | .hub | .scope | .sftp => Loc.bare path
  | .view | .mount => Loc.zeroed path

/-- `Url::base`: `none` where the parents of a hub are too few. -/
def base (url : Url) : Option Url :=
  match url with
  | .os loc auth =>
    if auth.kind = .hub then
      (auth.parentAt (Path.authDepth loc.uri)).map (.os (Loc.bare loc.base) ·)
    else some (.os (saturated loc.base auth.kind) auth)
  | .unix loc auth => some (.unix (saturated loc.base auth.kind) auth)

/-- `Url::parent` of a url that is no view portal. -/
def above : Url → Option Url
  | .os loc auth =>
    match auth.kind with
    | .view => loc.ascend.map (.os · auth)
    | .mount =>
      if loc.uri = [] then loc.parent.map regular
      else if (Path.components loc.uri).length ≤ 1 then
        loc.parent.map fun path => .os (Loc.zeroed path) auth
      else loc.parent.bind fun path => (Loc.floated path loc.base).map (.os · auth)
    | .hub =>
      match auth.parent with
      | .none => none
      | .some parent => loc.parent.map fun path => .os (Loc.bare path) parent
    | _ => loc.parent.map fun path => .os (Loc.bare path) auth
  | .unix loc auth =>
    if auth.kind = .view then loc.ascend.map (.unix · auth)
    else loc.parent.map fun path => .unix (Loc.bare path) auth

/-- `Url::parent`: above a view portal lies the parent of the directory it shows. That is no
portal again, since the source of a view is regular or remote. -/
def parent (url : Url) : Option Url :=
  if url.isView ∧ url.loc.uri = [] then url.base.bind fun base => base.physical.above
  else url.above

/-- What the derived equality of urls compares. -/
def shape (url : Url) : UrlOf (List Path.Component) UInt64 := url.map Loc.components Number.value

/-- `Url::covariant`: of one path and one physical authority. -/
def covariant (a b : Url) : Bool :=
  a.pathKind = b.pathKind ∧ a.components = b.components ∧ a.auth.covariant b.auth

/-! ### Parents -/

/-- A mount item lies below its base, so its parent floats over the same base. -/
theorem floated_parent {loc : Loc} {path : Bytes} (above : loc.parent = some path)
    (item : loc.uri ≠ []) : (Loc.floated path loc.base).isSome = true := by
  obtain ⟨lead, -, -⟩ := Path.components_parent above
  have below : Path.components loc.uri ≠ [] := by simpa using item
  have start : (Path.components loc.base).isPrefixOf (Loc.bare path).components = true := by
    rw [List.isPrefixOf_iff_prefix, Loc.components_bare, lead]
    change _ <+: loc.components.dropLast
    rw [← loc.components_base_uri, List.dropLast_append_of_ne_nil below]
    exact List.prefix_append ..
  rw [Loc.floated, if_pos start]
  rfl

private theorem components_ascend {loc up : Loc} (above : loc.ascend = some up) :
    up.components = loc.components.dropLast ∧ loc.components ≠ [] := by
  simp only [Loc.ascend, Option.bind_eq_bind, Option.bind_eq_some_iff] at above
  obtain ⟨path, parent, admits⟩ := above
  cases result : Loc.withPorts path ((Path.components loc.uri).length - 1)
      ((Path.components loc.urn).length - 1) with
  | error e =>
    rw [result] at admits
    cases admits
  | ok up' =>
    rw [result] at admits
    cases admits
    obtain ⟨shorter, -, nonempty⟩ := Path.components_parent parent
    refine ⟨?_, nonempty⟩
    rw [Loc.components, Loc.inner_withPorts result, Path.components_trim, shorter, Loc.components]

private theorem components_lift {loc : Loc} {up : Url} (make : Loc → Url) (path : Bytes → Loc)
    (keeps : ∀ l, (make l).components = l.components)
    (same : ∀ p, (path p).components = Path.components p)
    (found : loc.parent.map (fun p => make (path p)) = some up) :
    up.components = loc.components.dropLast ∧ loc.components ≠ [] := by
  obtain ⟨p, parent, rfl⟩ := Option.map_eq_some_iff.mp found
  obtain ⟨shorter, -, nonempty⟩ := Path.components_parent parent
  exact ⟨by rw [keeps, same, shorter, Loc.components], nonempty⟩

/-- The parent lacks the last component. -/
theorem components_above {url up : Url} (above : url.above = some up) :
    up.components = url.components.dropLast ∧ url.components ≠ [] := by
  cases url with
  | unix loc auth =>
    simp only [Url.above] at above
    split at above
    · obtain ⟨up, ascends, rfl⟩ := Option.map_eq_some_iff.mp above
      exact components_ascend ascends
    · exact components_lift (.unix · auth) Loc.bare (fun _ => rfl) Loc.components_bare above
  | os loc auth =>
    simp only [Url.above] at above
    split at above
    · obtain ⟨up, ascends, rfl⟩ := Option.map_eq_some_iff.mp above
      exact components_ascend ascends
    · split at above
      · exact components_lift (.os · AuthOf.default) Loc.bare (fun _ => rfl) Loc.components_bare above
      · split at above
        · exact components_lift (.os · auth) Loc.zeroed (fun _ => rfl) Loc.components_zeroed above
        · obtain ⟨path, parent, item⟩ := Option.bind_eq_some_iff.mp above
          obtain ⟨up, floats, rfl⟩ := Option.map_eq_some_iff.mp item
          obtain ⟨shorter, -, nonempty⟩ := Path.components_parent parent
          refine ⟨?_, nonempty⟩
          change up.components = _
          rw [Loc.components_floated floats, shorter]
          rfl
    · split at above
      · cases above
      · next parent _ =>
        exact components_lift (.os · parent) Loc.bare (fun _ => rfl) Loc.components_bare above
    · exact components_lift (.os · auth) Loc.bare (fun _ => rfl) Loc.components_bare above

@[simp] theorem components_physical (url : Url) : url.physical.components = url.components := by
  simp only [physical]
  split
  · rfl
  · cases url <;> exact Loc.components_bare _

private theorem components_base {url low : Url} (found : url.base = some low)
    (portal : url.loc.uri = []) : low.components = url.components := by
  have whole : ∀ loc : Loc, loc.uri = [] → Path.components loc.base = loc.components := by
    intro loc none
    rw [← loc.components_base_uri, none, Path.components_nil, List.append_nil]
  have same : ∀ p kind, (saturated p kind).components = Path.components p := by
    intro p kind
    cases kind <;> exact Loc.components_bare p
  cases url with
  | unix loc auth =>
    cases found
    exact (same ..).trans (whole loc portal)
  | os loc auth =>
    simp only [Url.base] at found
    split at found
    · obtain ⟨parent, -, rfl⟩ := Option.map_eq_some_iff.mp found
      exact (Loc.components_bare _).trans (whole loc portal)
    · cases found
      exact (same ..).trans (whole loc portal)

theorem components_parent {url up : Url} (above : url.parent = some up) :
    up.components = url.components.dropLast ∧ url.components ≠ [] := by
  simp only [parent] at above
  split at above
  · next portal =>
    obtain ⟨low, found, above⟩ := Option.bind_eq_some_iff.mp above
    have same := components_base found portal.2
    have shorter := components_above above
    rwa [components_physical, same] at shorter
  · exact components_above above

/-- Going up ends at a url without parent. -/
theorem length_parent {url up : Url} (above : url.parent = some up) :
    up.components.length < url.components.length := by
  obtain ⟨shorter, nonempty⟩ := components_parent above
  have positive := List.length_pos_iff.mpr nonempty
  rw [shorter, List.length_dropLast]
  omega

end Url

/-- A url up to covariance: the key of the selection. -/
structure UrlCov where
  url : Url
  deriving DecidableEq

namespace UrlCov

instance : BEq UrlCov := ⟨fun a b => a.url.covariant b.url⟩

theorem beq_iff {a b : UrlCov} : (a == b) = true ↔
    a.url.pathKind = b.url.pathKind ∧ a.url.components = b.url.components ∧
      Auth.shape a.url.auth.physical = Auth.shape b.url.auth.physical := by
  simp [BEq.beq, Url.covariant, Auth.covariant]

instance : EquivBEq UrlCov where
  rfl := beq_iff.mpr ⟨rfl, rfl, rfl⟩
  symm same := by
    obtain ⟨kind, path, auth⟩ := beq_iff.mp same
    exact beq_iff.mpr ⟨kind.symm, path.symm, auth.symm⟩
  trans left right := by
    obtain ⟨kind, path, auth⟩ := beq_iff.mp left
    obtain ⟨kind', path', auth'⟩ := beq_iff.mp right
    exact beq_iff.mpr ⟨kind.trans kind', path.trans path', auth.trans auth'⟩

end UrlCov

end Yazi.Shared
