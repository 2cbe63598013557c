import Yazi.Shared.WellFormed

/-!
What lies above covariant urls.

Covariance looks through views and ignores the ports, but the parent of a mount depends on them:
above the mount itself lies the local directory that holds it, above anything in it lies the
mount again.
-/
namespace Yazi.Shared

/-! ### Locations -/

namespace Loc

private theorem components_mark {p : Bytes} (count : Nat) :
    Path.components (p.drop (p.length - mark p count)) =
      (Path.components p).drop ((Path.components p).length - count) := by
  obtain ⟨after, -⟩ := drop_boundary (mark_eq p count)
  rw [after, Path.components_skip]

theorem hasRoot_urn {p : Bytes} {uri urn : Nat} {loc : Loc}
    (admits : withPorts p uri urn = .ok loc) : Path.hasRoot loc.urn = false := by
  simp only [withPorts] at admits
  split at admits
  · cases admits
  · split at admits
    · cases admits
      simp [Loc.urn, zeroed, Path.hasRoot]
    · split at admits
      · cases admits
      · split at admits <;> cases admits
        next rootless => simpa using rootless

/-- The components of the URN are the last ones. -/
private theorem components_urn (loc : Loc) :
    ∃ n, Path.components loc.urn = loc.components.drop n := by
  obtain ⟨n, boundary⟩ := loc.urnBoundary
  obtain ⟨after, -⟩ := drop_boundary boundary
  exact ⟨n, by rw [Loc.urn, after, Path.components_skip, Loc.components]⟩

/-- With one component less in the path and in its suffixes, there is still a location. -/
theorem Admitted.ascends {loc : Loc} (admitted : loc.Admitted) {path : Bytes}
    (above : loc.parent = some path) : ∃ up, loc.ascend = some up := by
  have admits := admitted.withPorts
  obtain ⟨shorter, trimmed, nonempty⟩ := Path.components_parent above
  have order : (Path.components loc.urn).length ≤ (Path.components loc.uri).length :=
    le_of_withPorts admits
  have whole := congrArg List.length loc.components_base_uri
  rw [List.length_append] at whole
  have less : (Path.components path).length = loc.components.length - 1 := by
    rw [shorter, List.length_dropLast]
    rfl
  rw [ascend, above]
  change ∃ up, (Loc.withPorts path ((Path.components loc.uri).length - 1)
    ((Path.components loc.urn).length - 1)).toOption = some up
  rw [Loc.withPorts, if_neg (by omega)]
  split
  · exact ⟨_, rfl⟩
  · next deep =>
    rw [components_bare, if_neg (by omega)]
    dsimp only
    split
    · next root =>
      -- The root is in the URN of the parent only if it is in the URN.
      have inner : (bare path).inner = path := trimmed
      have suffix : (Path.components ((bare path).inner.drop ((bare path).inner.length -
          mark (bare path).inner ((Path.components loc.urn).length - 1)))).head? = some .rootDir :=
        (Path.hasRoot_iff _).mp root
      rw [inner, components_mark] at suffix
      have all : (Path.components path).length - ((Path.components loc.urn).length - 1) = 0 := by
        by_contra some
        obtain ⟨k, skip⟩ := Nat.exists_eq_succ_of_ne_zero some
        rw [skip, ← List.drop_tail] at suffix
        exact Path.rootDir_not_mem_tail path
          (List.mem_of_mem_drop (List.mem_of_mem_head? (Option.mem_def.mpr suffix)))
      rw [all, List.drop_zero, shorter] at suffix
      obtain ⟨n, marked⟩ := loc.components_urn
      have length := congrArg List.length marked
      rw [List.length_drop] at length
      have none : n = 0 := by omega
      rw [none, List.drop_zero] at marked
      have rootless := hasRoot_urn admits
      have rooted : Path.hasRoot loc.urn = true := by
        rw [Path.hasRoot_iff, marked]
        cases parts : loc.components with
        | nil => exact absurd parts nonempty
        | cons c cs =>
          have same : Path.components loc.inner = c :: cs := parts
          rw [same] at suffix
          cases cs with
          | nil => cases suffix
          | cons c' cs => exact suffix
      rw [rootless] at rooted
      cases rooted
    · exact ⟨_, rfl⟩

end Loc

/-! ### Urls -/

mutual

/-- Every authority that is part of this one passes `validate`, and those above are of its
kind. -/
def AuthOf.Valid : Auth → Prop
  | .mk kind scheme domain parent view =>
    (AuthOf.mk kind scheme domain parent view).validate = .ok () ∧ parent.Valid kind ∧ view.Valid

def ParentOf.Valid : Parent → AuthKind → Prop
  | .none, _ => True
  | .some auth, kind => auth.kind = kind ∧ auth.Valid

def ViewBoxOf.Valid : ViewBox → Prop
  | .none => True
  | .some source _ => source.Valid

end

/-- What is checked of a url: its authority, the kind of its path, and the ports of a view. -/
def Url.Valid (url : Url) : Prop :=
  url.auth.Valid ∧ url.auth.pathKind = .ok url.pathKind ∧ (url.kind = .view → url.loc.Admitted)

namespace AuthOf.Valid

variable {auth : Auth}

theorem view_eq_none (valid : auth.Valid) (other : auth.kind ≠ .view) : auth.view = .none := by
  obtain ⟨kind, scheme, domain, parent, view⟩ := auth
  obtain ⟨checked, -, -⟩ := valid
  change kind ≠ .view at other
  cases view with
  | none => rfl
  | some source data => cases kind <;> first | cases checked | exact absurd rfl other

theorem physical_eq (valid : auth.Valid) (other : auth.kind ≠ .view) : auth.physical = auth := by
  rw [AuthOf.physical, valid.view_eq_none other]

/-- A view shows a simple source. -/
theorem source_of_view (valid : auth.Valid) (isView : auth.kind = .view) :
    ∃ source data, auth.view = .some source data ∧ auth.physical = source ∧ source.Valid ∧
      (source.kind = .regular ∨ source.kind = .sftp) ∧ source.physical = source := by
  obtain ⟨kind, scheme, domain, parent, view⟩ := auth
  obtain ⟨checked, -, inner⟩ := valid
  change kind = .view at isView
  subst isView
  cases view with
  | none => cases checked
  | some source data =>
    have kinds : source.kind = .regular ∨ source.kind = .sftp := by
      by_contra neither
      have fails : (if source.isRegular = true ∨ source.kind = .sftp then Except.ok ()
          else .error "View source must be Regular or Sftp" : Except String Unit) = .ok () := checked
      rw [if_neg (by simpa [AuthOf.isRegular] using neither)] at fails
      cases fails
    have other : source.kind ≠ .view := by rcases kinds with kind | kind <;> rw [kind] <;> decide
    have valid : source.Valid := inner
    exact ⟨source, data, rfl, rfl, valid, kinds, valid.physical_eq other⟩

end AuthOf.Valid

/-- The physical authority above a url with this one, at the portal of a mount or not. -/
def AuthOf.higher {L N : Type} (auth : AuthOf L N) (portal : Bool) : Option (AuthOf L N) :=
  match auth.kind with
  | .mount => some (if portal then AuthOf.default else auth)
  | .hub =>
    match auth.parent with
    | .none => none
    | .some parent => some parent
  | _ => some auth

namespace Url

/-- The url stands for the mount or the view itself. -/
def portal (url : Url) : Bool := url.loc.uri = []

/-- What lies above the url is another url with a path one component shorter, whose physical
authority is `higher`. -/
private def Above (url up : Url) : Prop :=
  up.Valid ∧ up.pathKind = url.pathKind ∧
    url.auth.physical.higher url.portal = some up.auth.physical

private def Tops (url : Url) : Prop :=
  url.loc.parent = none ∨ url.auth.physical.higher url.portal = none

/-- The parent is as `Above` says, and misses only at the top. -/
private def ParentSpec (url : Url) (parent : Option Url) : Prop :=
  match parent with
  | none => url.Tops
  | some up => url.Above up ∧ ¬url.Tops

theorem rebuild_loc (url : Url) (loc : Loc) (auth : Auth) :
    (url.rebuild loc auth).loc = loc := by
  cases url <;> rfl

theorem rebuild_auth (url : Url) (loc : Loc) (auth : Auth) :
    (url.rebuild loc auth).auth = auth := by
  cases url <;> rfl

private theorem rebuild_pathKind (url : Url) (loc : Loc) (auth : Auth) :
    (url.rebuild loc auth).pathKind = url.pathKind := by
  cases url <;> rfl

/-- Where the authority stays, the parent is found by the path. -/
private theorem spec_stays {url : Url} {make : Bytes → Loc} {auth : Auth}
    (higher : url.auth.physical.higher url.portal = some auth.physical)
    (valid : auth.Valid) (of : auth.pathKind = .ok url.pathKind) (other : auth.kind ≠ .view) :
    ParentSpec url (url.loc.parent.map fun path => url.rebuild (make path) auth) := by
  cases above : url.loc.parent with
  | none => exact .inl above
  | some path =>
    refine ⟨⟨⟨?_, ?_, ?_⟩, rebuild_pathKind _ _ _, ?_⟩, ?_⟩
    · rw [rebuild_auth]
      exact valid
    · rw [rebuild_auth, rebuild_pathKind]
      exact of
    · rw [Url.kind, rebuild_auth]
      exact fun isView => absurd isView other
    · rw [rebuild_auth]
      exact higher
    · rintro (none | none)
      · rw [above] at none
        cases none
      · rw [higher] at none
        cases none

/-- The parent of a view item is a view item, or the view. -/
private theorem spec_item {url : Url} (valid : url.Valid) (isView : url.kind = .view) :
    ParentSpec url (url.loc.ascend.map fun loc => url.rebuild loc url.auth) := by
  obtain ⟨source, data, shows, physical, -, kinds, same⟩ := valid.1.source_of_view isView
  have higher : url.auth.physical.higher url.portal = some source := by
    rw [physical, AuthOf.higher]
    rcases kinds with kind | kind <;> rw [kind]
  cases above : url.loc.parent with
  | none =>
    have none : url.loc.ascend = none := by
      rw [Loc.ascend, above]
      rfl
    rw [none]
    exact .inl above
  | some path =>
    obtain ⟨up, found⟩ := (valid.2.2 isView).ascends above
    rw [found]
    refine ⟨⟨⟨?_, ?_, ?_⟩, rebuild_pathKind _ _ _, ?_⟩, ?_⟩
    · rw [rebuild_auth]
      exact valid.1
    · rw [rebuild_auth, rebuild_pathKind]
      exact valid.2.1
    · intro _
      rw [rebuild_loc]
      rw [Loc.ascend, above] at found
      change (Loc.withPorts path _ _).toOption = some up at found
      cases admits : Loc.withPorts path ((Path.components url.loc.uri).length - 1)
          ((Path.components url.loc.urn).length - 1) with
      | error e =>
        rw [admits] at found
        cases found
      | ok up' =>
        rw [admits] at found
        cases found
        exact Loc.admitted_of_withPorts admits
    · rw [rebuild_auth, higher, physical]
    · rintro (none | none)
      · rw [above] at none
        cases none
      · rw [higher] at none
        cases none

/-- A url of a plain kind keeps its authority. -/
theorem above_plain {url : Url} (plain : url.kind ≠ .view ∧ url.kind ≠ .mount ∧ url.kind ≠ .hub) :
    url.above = url.loc.parent.map fun path => url.rebuild (Loc.bare path) url.auth := by
  obtain ⟨noView, noMount, noHub⟩ := plain
  cases url with
  | os loc auth =>
    change auth.kind ≠ _ at noView noMount noHub
    simp only [above]
    cases kind : auth.kind with
    | view => exact absurd kind noView
    | mount => exact absurd kind noMount
    | hub => exact absurd kind noHub
    | regular | scope | sftp => rfl
  | unix loc auth => exact if_neg noView

private theorem higher_plain {auth : Auth}
    (plain : auth.kind ≠ .mount ∧ auth.kind ≠ .hub) (portal : Bool) :
    auth.higher portal = some auth := by
  obtain ⟨noMount, noHub⟩ := plain
  rw [AuthOf.higher]
  cases kind : auth.kind with
  | mount => exact absurd kind noMount
  | hub => exact absurd kind noHub
  | regular | view | scope | sftp => rfl

/-- Above the portal of a view lies the parent of the directory it shows. -/
theorem parent_portal {url : Url} {source : Auth} {data : Wire} (isView : url.kind = .view)
    (portal : url.loc.uri = []) (shows : url.auth.view = .some source data)
    (plain : source.kind ≠ .view ∧ source.kind ≠ .mount ∧ source.kind ≠ .hub) :
    url.parent = url.loc.parent.map fun path => url.rebuild (Loc.bare path) source := by
  have base : url.loc.base = url.loc.inner := by
    rw [Loc.uri, List.drop_eq_nil_iff] at portal
    rw [Loc.base, List.take_of_length_le portal]
  have parent : (sourceLoc url.loc).parent = url.loc.parent := by
    have inner : (sourceLoc url.loc).inner = url.loc.inner := by
      change Path.trim (Path.trim url.loc.base) = _
      rw [base, url.loc.trimmed, url.loc.trimmed]
    rw [Loc.parent, Loc.parent, inner]
  have shown := physical_base isView shows
  have step : (url.base.bind fun base => base.physical.above) =
      (url.base.map Url.physical).bind above := by
    cases url.base <;> rfl
  rw [Url.parent, if_pos ⟨decide_eq_true isView, portal⟩, step, shown, Option.bind_some,
    above_plain (by rwa [kind, rebuild_auth]), rebuild_loc, rebuild_auth, parent]
  cases url <;> rfl

private theorem spec_portal {url : Url} (valid : url.Valid) (isView : url.kind = .view)
    (portal : url.loc.uri = []) : ParentSpec url url.parent := by
  obtain ⟨source, data, shows, physical, sound, kinds, same⟩ := valid.1.source_of_view isView
  have plain : source.kind ≠ .view ∧ source.kind ≠ .mount ∧ source.kind ≠ .hub := by
    rcases kinds with kind | kind <;> rw [kind] <;> decide
  rw [parent_portal isView portal shows plain]
  refine spec_stays ?_ sound ?_ plain.1
  · rw [physical, same, higher_plain plain.2]
  · rw [AuthOf.pathKind, same, ← physical]
    exact valid.2.1

private theorem spec_mount {loc : Loc} {auth : Auth} (valid : Url.Valid (.os loc auth))
    (isMount : auth.kind = .mount) :
    ParentSpec (.os loc auth) (Url.above (.os loc auth)) := by
  have other : auth.kind ≠ .view := by rw [isMount]; decide
  have physical : auth.physical = auth := valid.1.physical_eq other
  have higher : auth.physical.higher (Url.portal (.os loc auth)) =
      some (if (Url.portal (.os loc auth)) then AuthOf.default else auth) := by
    rw [physical, AuthOf.higher, isMount]
  simp only [above, isMount]
  split
  · next portal =>
    have default : (AuthOf.default : Auth).Valid := ⟨rfl, trivial, trivial⟩
    refine spec_stays ?_ default
      rfl (by decide)
    exact higher.trans (congrArg some (if_pos (decide_eq_true portal)))
  · next item =>
    have stays : auth.physical.higher (Url.portal (.os loc auth)) = some auth.physical := by
      rw [higher, physical]
      exact congrArg some (if_neg fun isPortal => item (of_decide_eq_true isPortal))
    split
    · exact spec_stays stays valid.1 valid.2.1 other
    · have floats : (loc.parent.bind fun path => (Loc.floated path loc.base).map (UrlOf.os · auth)) =
          loc.parent.map fun path =>
            Url.rebuild (.os loc auth) ((Loc.floated path loc.base).getD (Loc.bare path)) auth := by
        cases above : loc.parent with
        | none => rfl
        | some path =>
          obtain ⟨up, found⟩ := Option.isSome_iff_exists.mp (floated_parent above item)
          rw [Option.bind_some, Option.map_some, found]
          rfl
      rw [floats]
      exact spec_stays stays valid.1 valid.2.1 other

private theorem spec_hub {loc : Loc} {auth : Auth} (valid : Url.Valid (.os loc auth))
    (isHub : auth.kind = .hub) :
    ParentSpec (.os loc auth) (Url.above (.os loc auth)) := by
  have other : auth.kind ≠ .view := by rw [isHub]; decide
  have physical : auth.physical = auth := valid.1.physical_eq other
  simp only [above, isHub]
  obtain ⟨kind, scheme, domain, parent, view⟩ := auth
  change kind = .hub at isHub
  subst isHub
  cases parent with
  | none =>
    refine .inr ?_
    exact congrArg (AuthOf.higher · _) physical
  | some up =>
    obtain ⟨hub, sound⟩ := valid.1.2.1
    have physicalUp : up.physical = up := sound.physical_eq (by rw [hub]; decide)
    refine spec_stays ?_ sound ?_
      (by rw [hub]; decide)
    · rw [physicalUp]
      exact congrArg (AuthOf.higher · _) physical
    · rw [AuthOf.pathKind, physicalUp, hub]
      rfl

theorem parent_spec {url : Url} (valid : url.Valid) : ParentSpec url url.parent := by
  by_cases isView : url.kind = .view
  · by_cases portal : url.loc.uri = []
    · exact spec_portal valid isView portal
    · rw [parent, if_neg fun both => portal both.2]
      have item : url.above = url.loc.ascend.map fun loc => url.rebuild loc url.auth := by
        cases url with
        | os loc auth =>
          have kind : auth.kind = .view := isView
          simp only [above, kind]
          rfl
        | unix loc auth => exact if_pos isView
      rw [item]
      exact spec_item valid isView
  · have plainView : url.auth.physical = url.auth := valid.1.physical_eq isView
    rw [parent, if_neg fun both => isView (of_decide_eq_true both.1)]
    by_cases special : url.kind = .mount ∨ url.kind = .hub
    · cases url with
      | os loc auth =>
        rcases special with isMount | isHub
        · exact spec_mount valid isMount
        · exact spec_hub valid isHub
      | unix loc auth =>
        have of : auth.pathKind = .ok .unix := valid.2.1
        change auth.physical = auth at plainView
        change auth.kind = .mount ∨ auth.kind = .hub at special
        rw [AuthOf.pathKind, plainView] at of
        rcases special with kind | kind <;> rw [kind] at of <;> cases of
    · rw [not_or] at special
      rw [above_plain ⟨isView, special⟩]
      refine spec_stays ?_ valid.1 valid.2.1 isView
      rw [plainView, higher_plain special]

/-! ### Covariant urls -/

/-- Both urls are at the top, or their parents are covariant. -/
def Agree (u v : Url) : Prop :=
  Option.Rel (fun a b => a.covariant b = true) u.parent v.parent

/-- One of two mounts is at its portal, the other below, and there is something above. -/
def Border (u v : Url) : Prop :=
  u.kind = .mount ∧ u.portal ≠ v.portal ∧ u.loc.parent ≠ none

theorem covariant_iff {u v : Url} : u.covariant v = true ↔
    u.pathKind = v.pathKind ∧ u.components = v.components ∧
      Auth.shape u.auth.physical = Auth.shape v.auth.physical := by
  simp [covariant, Auth.covariant]

private theorem parent_none_congr {u v : Url} (same : u.components = v.components) :
    u.loc.parent = none ↔ v.loc.parent = none := by
  have congr := Path.parent_isNone_congr same
  rw [← Option.isNone_iff_eq_none, ← Option.isNone_iff_eq_none, Loc.parent, Loc.parent, congr]

/-- The parents agree where the authorities above do. -/
private theorem agree_iff_higher {u v : Url} (left : u.Valid) (right : v.Valid)
    (same : u.covariant v = true) :
    Agree u v ↔ u.loc.parent = none ∨
      (u.auth.physical.higher u.portal).map Auth.shape =
        (v.auth.physical.higher v.portal).map Auth.shape := by
  obtain ⟨kinds, paths, -⟩ := covariant_iff.mp same
  have tops := parent_none_congr paths
  have first := parent_spec left
  have second := parent_spec right
  rw [Agree]
  cases above : u.parent with
  | none =>
    rw [above] at first
    cases above' : v.parent with
    | none =>
      rw [above'] at second
      refine iff_of_true .none ?_
      rcases first with top | none
      · exact .inl top
      · rcases second with top | none'
        · exact .inl (tops.mpr top)
        · exact .inr (by rw [none, none'])
    | some vp =>
      rw [above'] at second
      obtain ⟨⟨-, -, higher⟩, below⟩ := second
      refine iff_of_false nofun ?_
      rintro (top | shapes)
      · exact below (.inl (tops.mp top))
      · rcases first with top | none
        · exact below (.inl (tops.mp top))
        · rw [none, higher] at shapes
          cases shapes
  | some up =>
    rw [above] at first
    obtain ⟨⟨-, kindUp, higher⟩, below⟩ := first
    have noTop : u.loc.parent ≠ none := fun top => below (.inl top)
    cases above' : v.parent with
    | none =>
      rw [above'] at second
      refine iff_of_false nofun ?_
      rintro (top | shapes)
      · exact noTop top
      · rcases second with top | none
        · exact noTop (tops.mpr top)
        · rw [none, higher] at shapes
          cases shapes
    | some vp =>
      rw [above'] at second
      obtain ⟨⟨-, kindVp, higher'⟩, -⟩ := second
      have longer := (components_parent above).1
      have longer' := (components_parent above').1
      rw [Option.rel_some_some, covariant_iff, higher, higher', Option.map_some, Option.map_some,
        Option.some_inj, kindUp, kindVp, longer, longer', paths, or_iff_right noTop]
      exact ⟨fun all => all.2.2, fun shapes => ⟨kinds, rfl, shapes⟩⟩

private theorem kind_shape (auth : Auth) : (Auth.shape auth).kind = auth.kind := by
  cases auth
  rfl

private theorem higher_shape (auth : Auth) (portal : Bool) :
    (Auth.shape auth).higher portal = (auth.higher portal).map Auth.shape := by
  obtain ⟨kind, scheme, domain, parent, view⟩ := auth
  cases kind with
  | mount => cases portal <;> rfl
  | hub => cases parent <;> rfl
  | regular | scope | sftp | view => rfl

/-- What is above a mount tells whether it was left. -/
private theorem higher_eq_iff {L N : Type} (auth : AuthOf L N) (p q : Bool) :
    auth.higher p = auth.higher q ↔ auth.kind ≠ .mount ∨ p = q := by
  obtain ⟨kind, scheme, domain, parent, view⟩ := auth
  cases kind with
  | mount => cases p <;> cases q <;> simp [AuthOf.higher, AuthOf.kind, AuthOf.default]
  | hub => exact iff_of_true rfl (.inl nofun)
  | regular | scope | sftp | view => exact iff_of_true rfl (.inl nofun)

/-- Only a mount has a mount as its physical authority. -/
private theorem Valid.kind_mount {url : Url} (valid : url.Valid) :
    url.auth.physical.kind = .mount ↔ url.kind = .mount := by
  by_cases isView : url.kind = .view
  · obtain ⟨source, data, -, physical, -, kinds, -⟩ := valid.1.source_of_view isView
    rw [physical, isView]
    rcases kinds with kind | kind <;> rw [kind] <;> simp
  · rw [valid.1.physical_eq isView, kind]

/-- Parents of covariant urls agree away from the border of a mount. -/
theorem agree_iff {u v : Url} (left : u.Valid) (right : v.Valid) (same : u.covariant v = true) :
    Agree u v ↔ ¬Border u v := by
  obtain ⟨-, -, shapes⟩ := covariant_iff.mp same
  have mount : (Auth.shape v.auth.physical).kind = .mount ↔ u.kind = .mount := by
    rw [← shapes, kind_shape, left.kind_mount]
  rw [agree_iff_higher left right same, ← higher_shape, ← higher_shape, shapes, higher_eq_iff,
    ne_eq, mount, Border]
  tauto

/-! ### Chains of parents -/

theorem Valid.parent {url up : Url} (valid : url.Valid) (above : url.parent = some up) : up.Valid := by
  have spec := parent_spec valid
  rw [above] at spec
  exact spec.1.1

/-- Two mounts that begin at different places, one below the other, with something above the
lower one. -/
def Apart (u v : Url) : Prop :=
  u.kind = .mount ∧ Path.components u.loc.base ≠ Path.components v.loc.base ∧
    (Path.parent u.loc.base ≠ none ∨ Path.parent v.loc.base ≠ none)

private theorem base_of_portal {loc : Loc} (portal : loc.uri = []) :
    Path.components loc.base = loc.components := by
  rw [← loc.components_base_uri, portal, Path.components_nil, List.append_nil]

private theorem parent_congr {p q : Bytes} (same : Path.components p = Path.components q) :
    Path.parent p = none ↔ Path.parent q = none := by
  rw [← Option.isNone_iff_eq_none, ← Option.isNone_iff_eq_none, Path.parent_isNone_congr same]

private theorem parent_eq_none_iff (p : Bytes) :
    Path.parent p = none ↔ Path.components p <+: [.rootDir] := by
  simp only [Path.parent]
  split
  · next none => simp [none]
  · next root => simp [root]
  · next other more =>
    refine iff_of_false (by rintro ⟨⟩) fun lead => ?_
    rcases List.prefix_cons_iff.mp lead with none | ⟨rest, split, short⟩
    · exact other none
    · rw [List.prefix_nil.mp short] at split
      exact more split

/-- Where the path has no parent, neither has its base. -/
private theorem base_top {loc : Loc} (top : loc.parent = none) : Path.parent loc.base = none := by
  rw [parent_eq_none_iff]
  have lead : Path.components loc.base <+: Path.components loc.inner := by
    change _ <+: loc.components
    rw [← loc.components_base_uri]
    exact List.prefix_append ..
  exact lead.trans ((parent_eq_none_iff _).mp top)

theorem apart_of_border {u v : Url} (same : u.components = v.components)
    (border : Border u v) : Apart u v := by
  obtain ⟨isMount, portals, below⟩ := border
  -- The base of the one at its portal is its path, the base of the other is shorter.
  have shorter : ∀ {a b : Url}, a.components = b.components → a.loc.uri = [] → b.loc.uri ≠ [] →
      Path.components a.loc.base ≠ Path.components b.loc.base := by
    intro a b paths portal item bases
    have left := base_of_portal portal
    have right := b.loc.components_base_uri
    have whole : a.loc.components = b.loc.components := paths
    rw [← bases, left, whole] at right
    have none : Path.components b.loc.uri = [] := by simpa using right
    exact item (Path.components_eq_nil.mp none)
  have reaches : ∀ {a : Url}, a.loc.uri = [] → a.loc.parent ≠ none → Path.parent a.loc.base ≠ none := by
    intro a portal below
    rwa [ne_eq, parent_congr (base_of_portal portal)]
  by_cases first : u.loc.uri = []
  · have second : v.loc.uri ≠ [] := fun second => portals (by simp [portal, first, second])
    exact ⟨isMount, shorter same first second, .inl (reaches first below)⟩
  · have second : v.loc.uri = [] := by
      by_contra second
      exact portals (by simp [portal, first, second])
    have below' : v.loc.parent ≠ none := fun top => below ((parent_none_congr same).mpr top)
    exact ⟨isMount, (shorter same.symm second first).symm, .inr (reaches second below')⟩

private theorem higher_mount {auth up : Auth} (valid : auth.Valid) {portal : Bool}
    (higher : auth.higher portal = some up) (isMount : up.kind = .mount) :
    auth.kind = .mount ∧ portal = false := by
  obtain ⟨kind, scheme, domain, parent, view⟩ := auth
  cases kind with
  | mount =>
    cases portal with
    | true =>
      cases higher
      cases isMount
    | false => exact ⟨rfl, rfl⟩
  | hub =>
    cases parent with
    | none => cases higher
    | some parent =>
      cases higher
      have hub : up.kind = .hub := valid.2.1.1
      rw [hub] at isMount
      cases isMount
  | regular | scope | sftp | view =>
    cases higher
    cases isMount

private theorem Valid.physical {url : Url} (valid : url.Valid) : url.auth.physical.Valid := by
  by_cases isView : url.kind = .view
  · obtain ⟨source, data, -, physical, sound, -⟩ := valid.1.source_of_view isView
    rwa [physical]
  · rw [valid.1.physical_eq isView]
    exact valid.1

/-- A mount lies above something in it only, and begins at the same place. -/
private theorem Valid.mount_of_parent {url up : Url} (valid : url.Valid)
    (above : url.parent = some up) (isMount : up.kind = .mount) :
    url.kind = .mount ∧ url.loc.uri ≠ [] ∧
      Path.components up.loc.base = Path.components url.loc.base := by
  have spec := parent_spec valid
  rw [above] at spec
  obtain ⟨⟨sound, -, higher⟩, -⟩ := spec
  obtain ⟨kind, item⟩ := higher_mount valid.physical higher (sound.kind_mount.mpr isMount)
  rw [valid.kind_mount] at kind
  have item : url.loc.uri ≠ [] := fun none => by simp [portal, none] at item
  refine ⟨kind, item, ?_⟩
  cases url with
  | unix loc auth =>
    have of := valid.2.1
    rw [AuthOf.pathKind, valid.kind_mount.mpr kind] at of
    cases of
  | os loc auth =>
    have mount : auth.kind = .mount := kind
    have start := loc.components_base_uri
    have below : loc.uri ≠ [] := item
    have stays : Url.above (.os loc auth) = some up := by
      rwa [Url.parent, if_neg fun both => item both.2] at above
    have entries : Path.components loc.uri ≠ [] := by simpa using below
    have shorter : ∀ path, loc.parent = some path →
        Path.components path = Path.components loc.base ++ (Path.components loc.uri).dropLast := by
      intro path found
      rw [(Path.components_parent found).1]
      change loc.components.dropLast = _
      rw [← start, List.dropLast_append_of_ne_nil entries]
    simp only [Url.above, mount, if_neg below] at stays
    split at stays
    · next one =>
      obtain ⟨path, found, rfl⟩ := Option.map_eq_some_iff.mp stays
      have last : (Path.components loc.uri).dropLast = [] :=
        List.eq_nil_of_length_eq_zero (by rw [List.length_dropLast]; omega)
      have whole : (Loc.zeroed path).base = Path.trim path := List.take_of_length_le (Nat.le_refl _)
      change Path.components (Loc.zeroed path).base = Path.components loc.base
      rw [whole, Path.components_trim, shorter path found, last, List.append_nil]
    · obtain ⟨path, found, floats⟩ := Option.bind_eq_some_iff.mp stays
      obtain ⟨up, admits, rfl⟩ := Option.map_eq_some_iff.mp floats
      change Path.components up.base = Path.components loc.base
      simp only [Loc.floated] at admits
      split at admits <;> cases admits
      refine (Loc.drop_boundary (n := (Path.components loc.base).length) rfl).2.trans ?_
      change (Path.components (Path.trim path)).take _ = _
      rw [Path.components_trim, shorter path found, List.take_left]

/-- Whether two mounts lie apart is the same at every level below both. -/
theorem apart_parent {u v up vp : Url} (left : u.Valid) (right : v.Valid)
    (same : u.covariant v = true) (above : u.parent = some up) (above' : v.parent = some vp)
    (agree : up.covariant vp = true) : Apart up vp ↔ Apart u v := by
  obtain ⟨-, paths, shapes⟩ := covariant_iff.mp same
  have mounts : u.kind = .mount ↔ v.kind = .mount := by
    rw [← left.kind_mount, ← right.kind_mount, ← kind_shape, shapes, kind_shape]
  by_cases isMount : u.kind = .mount
  · have agreed : Agree u v := by
      rw [Agree, above, above', Option.rel_some_some]
      exact agree
    have noBorder := (agree_iff left right same).mp agreed
    have spec := parent_spec left
    rw [above] at spec
    have noTop : u.loc.parent ≠ none := fun top => spec.2 (.inl top)
    have portals : u.portal = v.portal := by
      by_contra other
      exact noBorder ⟨isMount, other, noTop⟩
    by_cases portal : u.loc.uri = []
    · have portal' : v.loc.uri = [] := by simpa [Url.portal, portal] using portals
      have whole : Path.components u.loc.base = Path.components v.loc.base := by
        rw [base_of_portal portal, base_of_portal portal']
        exact paths
      refine iff_of_false (fun apart => ?_) fun apart => apart.2.1 whole
      exact (left.mount_of_parent above apart.1).2.1 portal
    · have stays : ∀ {a ap : Url}, a.Valid → a.parent = some ap → a.kind = .mount →
          a.loc.uri ≠ [] → ap.kind = .mount := by
        intro a ap valid found kind item
        have spec := parent_spec valid
        rw [found] at spec
        obtain ⟨⟨sound, -, higher⟩, -⟩ := spec
        have mount := valid.kind_mount.mpr kind
        rw [AuthOf.higher, mount, Url.portal, decide_eq_false item] at higher
        rw [← sound.kind_mount, ← Option.some.inj higher]
        exact mount
      have portal' : v.loc.uri ≠ [] := by
        intro none
        simp [Url.portal, portal, none] at portals
      have first := stays left above isMount portal
      have second := stays right above' (mounts.mp isMount) portal'
      have base := (left.mount_of_parent above first).2.2
      have base' := (right.mount_of_parent above' second).2.2
      rw [Apart, Apart, base, base', ne_eq, ne_eq, ne_eq, ne_eq, parent_congr base,
        parent_congr base', iff_true_intro first, iff_true_intro isMount]
  · refine iff_of_false (fun apart => ?_) fun apart => isMount apart.1
    exact isMount (left.mount_of_parent above apart.1).1

theorem not_apart_of_top {u v : Url} (left : u.Valid)
    (same : u.covariant v = true) (top : u.parent = none) : ¬Apart u v := by
  rintro ⟨isMount, -, reaches⟩
  have mount := left.kind_mount.mpr isMount
  have spec := parent_spec left
  rw [top] at spec
  rcases spec with none | none
  · have none' := (parent_none_congr (covariant_iff.mp same).2.1).mp none
    rcases reaches with below | below
    · exact below (base_top none)
    · exact below (base_top none')
  · rw [AuthOf.higher, mount] at none
    cases none

end Url

end Yazi.Shared
