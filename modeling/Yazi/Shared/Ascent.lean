import Yazi.Shared.Pair
import Yazi.Shared.Ports

/-!
Going down by a name, and up again.

Joining a name and going to the parent lead back to the same directory. Its ports are those that
the kind of the url gives to a directory, whatever they were before.
-/
namespace Yazi.Shared

/-! ### Paths and locations -/

namespace Path

/-- Above a path that ends in a name are the components before it. -/
theorem parent_of_concat {p s : Bytes} {cs : List Component}
    (ends : components p = cs ++ [.normal s]) :
    ∃ q, parent p = some q ∧ components q = cs := by
  cases above : parent p with
  | some q =>
    refine ⟨q, rfl, ?_⟩
    rw [(components_parent above).1, ends, List.dropLast_concat]
  | none =>
    rw [← components_trim] at ends
    rcases parent_eq_none.mp above with empty | root
    · rw [empty] at ends
      simp at ends
    · rw [root, components_slash] at ends
      cases cs with
      | nil => cases ends
      | cons c cs => simp at ends

end Path

namespace Loc

/-- The URN is the components that the trail lacks. -/
theorem components_trail_urn (loc : Loc) :
    Path.components loc.trail ++ Path.components loc.urn = loc.components := by
  obtain ⟨n, boundary⟩ := loc.urnBoundary
  obtain ⟨after, before⟩ := drop_boundary boundary
  rw [trail, urn, before, after, Path.components_skip, List.take_append_drop, components]

theorem base_prefix (loc : Loc) : Path.components loc.base <+: loc.components :=
  ⟨_, loc.components_base_uri⟩

theorem trail_prefix (loc : Loc) : Path.components loc.trail <+: loc.components :=
  ⟨_, loc.components_trail_urn⟩

/-- A location that floats over a base has the rest of the path as its URI. -/
theorem floated_spec {path base : Bytes} (lead : Path.components base <+: Path.components path) :
    ∃ loc, floated path base = some loc ∧ loc.components = Path.components path ∧
      (Path.components loc.uri).length =
        (Path.components path).length - (Path.components base).length ∧
      (Path.components loc.urn).length = (Path.name path).isSome.toNat := by
  have starts : (Path.components base).isPrefixOf (bare path).components = true := by
    rw [List.isPrefixOf_iff_prefix, components_bare]
    exact lead
  refine ⟨_, if_pos starts, components_bare path, ?_, (length_bare path).2⟩
  have skipped := (drop_boundary (p := (bare path).inner) (n := (Path.components base).length) rfl).1
  have inner : Path.components (bare path).inner = Path.components path := components_bare path
  change (Path.components (List.drop _ _)).length = _
  rw [skipped, Path.components_skip, inner, List.length_drop]

/-- A new location has what follows the base and the trail as its URI and its URN. -/
theorem new_spec {path base trail : Bytes} (lead : Path.components base <+: Path.components path)
    (lead' : Path.components trail <+: Path.components path) :
    ∃ loc, new path base trail = some loc ∧ loc.components = Path.components path ∧
      (Path.components loc.uri).length =
        (Path.components path).length - (Path.components base).length ∧
      (Path.components loc.urn).length =
        (Path.components path).length - (Path.components trail).length := by
  have inner : Path.components (bare path).inner = Path.components path := components_bare path
  have starts : Path.startsWith (bare path).inner base ∧ Path.startsWith (bare path).inner trail := by
    simp only [Path.startsWith, inner, List.isPrefixOf_iff_prefix]
    exact ⟨lead, lead'⟩
  have made : ∃ loc, new path base trail = some loc := ⟨_, if_pos starts⟩
  obtain ⟨loc, made⟩ := made
  obtain ⟨whole, base', trail'⟩ := components_new made
  have uri := congrArg List.length loc.components_base_uri
  have urn := congrArg List.length loc.components_trail_urn
  rw [List.length_append, base', whole] at uri
  rw [List.length_append, trail', whole] at urn
  exact ⟨loc, made, whole, by omega, by omega⟩

/-- Below a path, ports can be one more. -/
theorem Fits.concat {cs : List Path.Component} {uri urn uri' urn' : Nat} (fits : Fits cs uri urn)
    (s : Bytes) (order : urn' ≤ uri') (room : uri' ≤ cs.length + 1) (more : urn' ≤ urn + 1) :
    Fits (cs ++ [.normal s]) uri' urn' := by
  have ordered := fits.order
  have within := fits.room
  refine ⟨order, by rwa [List.length_append], fun whole root => ?_⟩
  rw [List.length_append, List.length_singleton] at whole
  cases cs with
  | nil => cases root
  | cons c cs => exact fits.rootless (by omega) root

end Loc

namespace Url

/-- What a well-formed url has: a valid authority, ports on component borders, in order and within
the path, and in a hub as many authorities above it as the path is deep. -/
structure Sound (url : Url) : Prop where
  valid : url.Valid
  ported : url.loc.Admitted
  deep : url.kind = .hub → url.auth.parentDepth = Path.authDepth url.loc.inner

/-- The ports that the kind of a url gives to it as a directory. -/
def directoryPorts (url : Url) : Nat × Nat :=
  let name := (Path.name url.loc.inner).isSome.toNat
  let (uri, urn) := Spec.retrievePorts url
  match url.kind with
  | .view => (uri, urn)
  | .mount => (uri, if uri = 0 then 0 else name)
  | .regular | .hub | .scope | .sftp => (name, name)

/-! ### Going down -/

/-- The ports of an entry of a directory with these ports. -/
def entryPorts (kind : AuthKind) (ports : Nat × Nat) : Nat × Nat :=
  match kind with
  | .view => (ports.1 + 1, ports.2 + 1)
  | .mount => (ports.1 + 1, 1)
  | .regular | .hub | .scope | .sftp => (1, 1)

/-- A url with a name joined to it. -/
structure Entry (url up : Url) (s : Bytes) : Prop where
  pathKind : up.pathKind = url.pathKind
  components : up.components = url.components ++ [.normal s]
  auth : up.auth = if url.kind = .hub then url.auth.child else url.auth
  ports : Spec.ports up.loc = entryPorts url.kind (Spec.ports url.loc)

theorem Entry.kind {url up : Url} {s : Bytes} (entry : Entry url up s) : up.kind = url.kind := by
  rw [Url.kind, entry.auth]
  split <;> rfl

section join
variable (loc : Loc) {n s : Bytes} (single : Path.components n = [.normal s])
include single

private theorem components_joined :
    Path.components (Path.push loc.inner n) = loc.components ++ [.normal s] := by
  have plain : Path.Plain (Path.components n) := by
    rw [single]
    exact fun c member => ⟨s, List.mem_singleton.mp member⟩
  rw [Path.components_push plain, single, Loc.components]

private theorem starts_base : Path.components loc.base <+: Path.components (Path.push loc.inner n) := by
  rw [components_joined loc single]
  exact loc.base_prefix.trans (List.prefix_append ..)

private theorem starts_trail :
    Path.components loc.trail <+: Path.components (Path.push loc.inner n) := by
  rw [components_joined loc single]
  exact loc.trail_prefix.trans (List.prefix_append ..)

private theorem new_joined : ∃ up, Loc.new (Path.push loc.inner n) loc.base loc.trail = some up ∧
    up.components = loc.components ++ [.normal s] ∧
    Spec.ports up = entryPorts .view (Spec.ports loc) := by
  obtain ⟨up, made, whole, uri, urn⟩ := Loc.new_spec (starts_base loc single) (starts_trail loc single)
  have base := congrArg List.length loc.components_base_uri
  have trail := congrArg List.length loc.components_trail_urn
  rw [List.length_append] at base trail
  rw [components_joined loc single, List.length_append, List.length_singleton] at uri urn
  refine ⟨up, made, whole.trans (components_joined loc single), Prod.ext ?_ ?_⟩
  · change (Path.components up.uri).length = (Path.components loc.uri).length + 1
    omega
  · change (Path.components up.urn).length = (Path.components loc.urn).length + 1
    omega

private theorem floated_joined : ∃ up, Loc.floated (Path.push loc.inner n) loc.base = some up ∧
    up.components = loc.components ++ [.normal s] ∧
    Spec.ports up = entryPorts .mount (Spec.ports loc) := by
  obtain ⟨up, made, whole, uri, urn⟩ := Loc.floated_spec (starts_base loc single)
  have base := congrArg List.length loc.components_base_uri
  rw [List.length_append] at base
  rw [components_joined loc single, List.length_append, List.length_singleton] at uri
  rw [(Path.name_of_components (components_joined loc single)).1] at urn
  refine ⟨up, made, whole.trans (components_joined loc single), Prod.ext ?_ urn⟩
  change (Path.components up.uri).length = (Path.components loc.uri).length + 1
  omega

private theorem bare_joined :
    (Loc.bare (Path.push loc.inner n)).components = loc.components ++ [.normal s] ∧
      Spec.ports (Loc.bare (Path.push loc.inner n)) = (1, 1) := by
  obtain ⟨uri, urn⟩ := Loc.length_bare (Path.push loc.inner n)
  rw [(Path.name_of_components (components_joined loc single)).1] at uri urn
  exact ⟨(Loc.components_bare _).trans (components_joined loc single), Prod.ext uri urn⟩

/-- Joining a name works. -/
theorem join_name {url : Url} (valid : url.Valid) : ∃ up, url.join n = some up ∧ Entry url up s := by
  obtain ⟨whole, ports⟩ := bare_joined url.loc single
  have starts : Path.startsWith (Path.push url.loc.inner n) url.loc.base = true ∧
      Path.startsWith (Path.push url.loc.inner n) url.loc.trail = true :=
    ⟨List.isPrefixOf_iff_prefix.mpr (starts_base url.loc single),
      List.isPrefixOf_iff_prefix.mpr (starts_trail url.loc single)⟩
  have stays (other : url.kind ≠ .hub) :
      url.auth = if url.kind = .hub then url.auth.child else url.auth := (if_neg other).symm
  cases url with
  | os loc auth =>
    change auth.kind ≠ .hub → _ at stays
    simp only [join]
    cases isKind : auth.kind with
    | view =>
      have kind : Url.kind (.os loc auth) = .view := isKind
      obtain ⟨up, made, whole, ports⟩ := new_joined loc single
      rw [if_pos ⟨rfl, starts.2⟩, made]
      refine ⟨.os up auth, rfl, rfl, whole, stays (by simp [isKind]), ?_⟩
      rw [kind]
      exact ports
    | mount =>
      have kind : Url.kind (.os loc auth) = .mount := isKind
      obtain ⟨up, made, whole, ports⟩ := floated_joined loc single
      rw [if_neg (by simp), if_pos ⟨rfl, starts.1⟩, made]
      refine ⟨.os up auth, rfl, rfl, whole, stays (by simp [isKind]), ?_⟩
      rw [kind]
      exact ports
    | hub =>
      have kind : Url.kind (.os loc auth) = .hub := isKind
      refine ⟨_, rfl, rfl, whole, ?_, ?_⟩
      · rw [if_pos kind, single]
        rfl
      · rw [kind]
        exact ports
    | regular | scope | sftp =>
      have kind : Url.kind (.os loc auth) = _ := isKind
      refine ⟨_, rfl, rfl, whole, stays (by simp [isKind]), ?_⟩
      rw [kind]
      exact ports
  | unix loc auth =>
    change auth.kind ≠ .hub → _ at stays
    simp only [join]
    by_cases isView : auth.kind = .view
    · have kind : Url.kind (.unix loc auth) = .view := isView
      obtain ⟨up, made, whole, ports⟩ := new_joined loc single
      rw [if_pos ⟨isView, starts.2⟩, made]
      refine ⟨.unix up auth, rfl, rfl, whole, stays (by simp [isView]), ?_⟩
      rw [kind]
      exact ports
    · -- Neither a mount nor a hub has such a path.
      have paths : auth.kind.pathKind = .ok .unix := by
        have paths := valid.2.1
        rwa [AuthOf.pathKind, valid.1.physical_eq isView] at paths
      rw [if_neg fun both => isView both.1, if_neg isView]
      refine ⟨_, rfl, rfl, whole, stays ?_, ?_⟩
      · intro hub
        rw [hub] at paths
        cases paths
      · refine ports.trans ?_
        change (1, 1) = entryPorts auth.kind _
        cases isKind : auth.kind with
        | view => exact absurd isKind isView
        | mount =>
          rw [isKind] at paths
          cases paths
        | regular | hub | scope | sftp => rfl

end join

/-- An entry of a well-formed url is well-formed. -/
theorem Entry.sound {url up : Url} {s : Bytes} (entry : Entry url up s) (sound : url.Sound) :
    up.Sound := by
  have whole : up.loc.components = url.loc.components ++ [.normal s] := entry.components
  have ported : up.loc.Admitted := by
    have fits := Loc.admitted_iff.mp sound.ported
    have order := fits.order
    have room := fits.room
    rw [Loc.admitted_iff, whole]
    change Loc.Fits _ (Spec.ports up.loc).1 (Spec.ports up.loc).2
    rw [entry.ports]
    cases url.kind with
    | view => exact fits.concat s (Nat.succ_le_succ order) (Nat.succ_le_succ room) (Nat.le_refl _)
    | mount => exact fits.concat s (Nat.le_add_left ..) (Nat.succ_le_succ room) (Nat.le_add_left ..)
    | regular | hub | scope | sftp =>
      exact fits.concat s (Nat.le_refl _) (Nat.le_add_left ..) (Nat.le_add_left ..)
  have paths := sound.valid.2.1
  by_cases hub : url.kind = .hub
  · have auth : up.auth = url.auth.child := entry.auth.trans (if_pos hub)
    have isHub : url.auth.kind = .hub := hub
    have other : url.auth.kind ≠ .view := by rw [isHub]; decide
    refine ⟨⟨?_, ?_, fun isView => ?_⟩, ported, fun _ => ?_⟩
    · rw [auth, AuthOf.child, isHub]
      exact ⟨rfl, ⟨isHub, sound.valid.1⟩, trivial⟩
    · rw [AuthOf.pathKind, sound.valid.1.physical_eq other] at paths
      rw [auth, entry.pathKind, ← paths]
      rfl
    · rw [entry.kind, hub] at isView
      cases isView
    · have depth : url.auth.child.parentDepth = url.auth.parentDepth + 1 := rfl
      have count := congrArg (List.countP (·.hasAuth)) whole
      rw [List.countP_append] at count
      rw [auth, depth, sound.deep hub]
      exact count.symm
  · have auth : up.auth = url.auth := entry.auth.trans (if_neg hub)
    refine ⟨⟨auth ▸ sound.valid.1, ?_, fun _ => ported⟩, ported, fun isHub => ?_⟩
    · rw [auth, entry.pathKind, paths]
    · rw [entry.kind] at isHub
      exact absurd isHub hub

/-! ### Going up -/

private theorem ports_bare {p q : Bytes} (named : Path.name q = Path.name p) :
    Spec.ports (Loc.bare q) = ((Path.name p).isSome.toNat, (Path.name p).isSome.toNat) := by
  rw [← named]
  exact Prod.ext (Loc.length_bare q).1 (Loc.length_bare q).2

section ascend
variable {loc item : Loc} {q : Bytes} (above : item.parent = some q)
  (rest : Path.components q = loc.components)
include above rest

private theorem ascend_entry (admitted : loc.Admitted)
    (ports : Spec.ports item = entryPorts .view (Spec.ports loc)) :
    ∃ back, item.ascend = some back ∧ back.components = loc.components ∧
      Spec.ports back = Spec.ports loc := by
  have uri := congrArg Prod.fst ports
  have urn := congrArg Prod.snd ports
  change (Path.components item.uri).length = (Path.components loc.uri).length + 1 at uri
  change (Path.components item.urn).length = (Path.components loc.urn).length + 1 at urn
  have fits := Loc.admitted_iff.mp admitted
  rw [← rest] at fits
  obtain ⟨back, admits⟩ := Loc.withPorts_iff.mpr fits
  refine ⟨back, ?_, ?_, Prod.ext (Loc.length_withPorts admits).1 (Loc.length_withPorts admits).2⟩
  · rw [Loc.ascend, above, uri, urn]
    change (Loc.withPorts q _ _).toOption = _
    rw [Nat.add_sub_cancel, Nat.add_sub_cancel, admits]
    rfl
  · rw [Loc.components, Loc.inner_withPorts admits, Path.components_trim, rest]

private theorem float_entry (whole : item.components.length = loc.components.length + 1)
    (ports : Spec.ports item = entryPorts .mount (Spec.ports loc)) :
    ∃ back, Loc.floated q item.base = some back ∧ back.components = loc.components ∧
      Spec.ports back = ((Spec.ports loc).1, (Path.name q).isSome.toNat) := by
  have uri := congrArg Prod.fst ports
  change (Path.components item.uri).length = (Path.components loc.uri).length + 1 at uri
  have shorter := (Path.components_parent above).1
  have outer := item.components_base_uri
  have length := congrArg List.length outer
  have length' := congrArg List.length loc.components_base_uri
  rw [List.length_append] at length length'
  have lead : Path.components item.base <+: Path.components q := by
    have some : Path.components item.uri ≠ [] := by
      intro none
      rw [none] at uri
      cases uri
    rw [shorter]
    change _ <+: item.components.dropLast
    rw [← outer, List.dropLast_append_of_ne_nil some]
    exact List.prefix_append ..
  obtain ⟨back, floats, same, uri', urn'⟩ := Loc.floated_spec lead
  refine ⟨back, floats, same.trans rest, Prod.ext ?_ urn'⟩
  change (Path.components back.uri).length = (Path.components loc.uri).length
  rw [uri', rest]
  omega

end ascend

/-- A directory, with the ports that its kind gives to it. -/
structure Directory (url back : Url) : Prop where
  pathKind : back.pathKind = url.pathKind
  auth : back.auth = url.auth
  components : back.components = url.components
  ports : Spec.retrievePorts back = url.directoryPorts

private theorem directory_of {url back : Url} (pathKind : back.pathKind = url.pathKind)
    (auth : back.auth = url.auth) (same : Path.components back.loc.inner = url.loc.components)
    (counts : Spec.ports back.loc = url.directoryPorts) : Directory url back := by
  refine ⟨pathKind, auth, same, ?_⟩
  cases back with
  | unix back a => exact counts
  | os back a =>
    cases url with
    | unix loc a' => cases pathKind
    | os loc a' =>
      change a = a' at auth
      subst auth
      by_cases regular : a.kind = .regular
      · have named : Path.name back.inner = Path.name loc.inner := Path.name_congr same
        have given : directoryPorts (.os loc a) =
            ((Path.name loc.inner).isSome.toNat, (Path.name loc.inner).isSome.toNat) := by
          have kind : Url.kind (.os loc a) = .regular := regular
          simp only [directoryPorts, kind, Url.loc]
        rw [given, ← named]
        exact if_pos (decide_eq_true regular)
      · rw [← counts]
        exact if_neg fun yes => regular (of_decide_eq_true yes)

/-- A location's own ports, but for a regular url. -/
private theorem retrievePorts_of {url : Url} (other : url.kind ≠ .regular) :
    Spec.retrievePorts url = Spec.ports url.loc := by
  cases url with
  | unix loc a => rfl
  | os loc a => exact if_neg fun yes => other (of_decide_eq_true yes)

private theorem ports_zeroed (p : Bytes) : Spec.ports (Loc.zeroed p) = (0, 0) := by
  simp only [Spec.ports, Loc.zeroed, Loc.uri, Loc.urn, Nat.sub_zero, List.drop_length,
    Path.components_nil, List.length_nil]

/-- The parent of an entry of a mount floats over the base, unless it is the base. -/
private theorem mount_parent {loc item : Loc} {auth : Auth} {q s : Bytes}
    (above : item.parent = some q) (rest : Path.components q = loc.components)
    (isMount : auth.kind = .mount) (nonempty : item.uri ≠ [])
    (whole : item.components = loc.components ++ [.normal s])
    (ports : Spec.ports item = entryPorts .mount (Spec.ports loc)) :
    ∃ back, Url.above (.os item auth) = some back ∧ Directory (.os loc auth) back := by
  have kind : Url.kind (.os loc auth) = .mount := isMount
  have own : Spec.retrievePorts (.os loc auth) = Spec.ports loc :=
    retrievePorts_of (by rw [kind]; decide)
  have length := congrArg List.length whole
  have uri := congrArg Prod.fst ports
  rw [List.length_append] at length
  change (Path.components item.uri).length = (Path.components loc.uri).length + 1 at uri
  simp only [Url.above, isMount, above]
  rw [if_neg nonempty, uri]
  by_cases portal : (Path.components loc.uri).length = 0
  · rw [if_pos (Nat.le_of_eq (congrArg (· + 1) portal))]
    refine ⟨.os (Loc.zeroed q) auth, rfl, directory_of rfl rfl ?_ ?_⟩
    · exact (Loc.components_zeroed q).trans rest
    · have none : (Spec.ports loc).1 = 0 := portal
      refine (ports_zeroed q).trans ?_
      simp only [directoryPorts, kind, own, none, if_true]
  · rw [if_neg fun few => portal (Nat.le_zero.mp (Nat.le_of_succ_le_succ few))]
    obtain ⟨back, floats, same, counts⟩ := float_entry above rest length ports
    rw [Option.bind_some, floats]
    refine ⟨.os back auth, rfl, directory_of rfl rfl same (counts.trans ?_)⟩
    have some : (Spec.ports loc).1 ≠ 0 := portal
    rw [Path.name_congr (rest.trans rfl : Path.components q = Path.components loc.inner)]
    simp only [directoryPorts, kind, own, if_neg some, Url.loc]

/-- The parent of an entry is the directory. -/
theorem Entry.parent {url up : Url} {s : Bytes} (entry : Entry url up s) (sound : url.Sound) :
    ∃ back, up.parent = some back ∧ Directory url back := by
  have whole : Path.components up.loc.inner = url.loc.components ++ [.normal s] := entry.components
  obtain ⟨q, above, rest⟩ := Path.parent_of_concat whole
  have named : Path.name q = Path.name url.loc.inner := Path.name_congr rest
  have item : up.loc.uri ≠ [] := by
    intro none
    have ports := congrArg Prod.fst entry.ports
    change (Path.components up.loc.uri).length = _ at ports
    rw [none, Path.components_nil, List.length_nil] at ports
    cases kind : url.kind <;> rw [kind] at ports <;> cases ports
  have isAbove : up.parent = up.above := if_neg fun both => item both.2
  rw [isAbove]
  have inner : Path.components (Loc.bare q).inner = url.loc.components :=
    (Loc.components_bare q).trans rest
  have bare := ports_bare named
  obtain ⟨pathKind, -, auth, ports⟩ := entry
  by_cases plain : url.kind ≠ .view ∧ url.kind ≠ .mount ∧ url.kind ≠ .hub
  · rw [if_neg plain.2.2] at auth
    have plain' : up.kind ≠ .view ∧ up.kind ≠ .mount ∧ up.kind ≠ .hub := by
      rwa [Url.kind, auth]
    have above : up.loc.parent = some q := above
    rw [above_plain plain', above]
    refine ⟨_, rfl, directory_of ?_ ?_ ?_ ?_⟩
    · rw [← pathKind]
      cases up <;> rfl
    · rw [rebuild_auth, auth]
    · rwa [rebuild_loc]
    · rw [rebuild_loc, bare, directoryPorts]
      cases kind : url.kind with
      | view => exact absurd kind plain.1
      | mount => exact absurd kind plain.2.1
      | hub => exact absurd kind plain.2.2
      | regular | scope | sftp => rfl
  · have ports' (other : url.kind ≠ .regular) : Spec.ports url.loc = Spec.retrievePorts url :=
      (retrievePorts_of other).symm
    cases url with
    | unix loc a =>
      -- Neither a mount nor a hub has such a path.
      have isView : a.kind = .view := by
        by_contra other
        have paths : a.kind.pathKind = .ok .unix := by
          have paths := sound.valid.2.1
          rwa [AuthOf.pathKind, sound.valid.1.physical_eq other] at paths
        refine plain ⟨other, fun mount => ?_, fun hub => ?_⟩
        · rw [show a.kind = .mount from mount] at paths
          cases paths
        · rw [show a.kind = .hub from hub] at paths
          cases paths
      have kind : Url.kind (.unix loc a) = .view := isView
      rw [kind] at auth ports ports'
      cases up with
      | os loc' a' => cases pathKind
      | unix loc' a' =>
        obtain rfl : a' = a := auth
        obtain ⟨back, ascends, same, counts⟩ := ascend_entry above rest sound.ported ports
        refine ⟨.unix back a', ?_, directory_of rfl rfl same ?_⟩
        · have ascends : loc'.ascend = some back := ascends
          simp only [Url.above]
          rw [if_pos isView, ascends]
          rfl
        · refine counts.trans ((ports' fun mount => by cases mount).trans ?_)
          simp only [directoryPorts, kind]
    | os loc a =>
      cases up with
      | unix loc' a' => cases pathKind
      | os loc' a' =>
        change a' = if a.kind = .hub then a.child else a at auth
        cases isKind : a.kind with
        | view =>
          have kind : Url.kind (.os loc a) = .view := isKind
          rw [kind] at ports ports'
          rw [isKind, if_neg (by decide)] at auth
          subst auth
          obtain ⟨back, ascends, same, counts⟩ := ascend_entry above rest sound.ported ports
          have ascends : loc'.ascend = some back := ascends
          simp only [Url.above, isKind, ascends]
          refine ⟨.os back a', rfl, directory_of rfl rfl same ?_⟩
          refine counts.trans ((ports' fun mount => by cases mount).trans ?_)
          simp only [directoryPorts, kind]
        | mount =>
          have kind : Url.kind (.os loc a) = .mount := isKind
          rw [kind] at ports
          rw [isKind, if_neg (by decide)] at auth
          subst auth
          exact mount_parent above rest isKind item whole ports
        | hub =>
          have kind : Url.kind (.os loc a) = .hub := isKind
          rw [isKind, if_pos rfl] at auth
          subst auth
          have above : loc'.parent = some q := above
          have child : a.child.kind = .hub := isKind
          simp only [Url.above, child, above]
          refine ⟨.os (Loc.bare q) a, rfl, directory_of rfl rfl inner (bare.trans ?_)⟩
          simp only [directoryPorts, kind]
        | regular | scope | sftp =>
          refine absurd ?_ plain
          have kind : Url.kind (.os loc a) = _ := isKind
          rw [kind]
          decide

/-! ### All the way up -/

private theorem admitted_zeroed (p : Bytes) : (Loc.zeroed p).Admitted := by
  refine Loc.admitted_iff.mpr ?_
  have none := ports_zeroed p
  refine ⟨?_, ?_, fun whole => ?_⟩
  · exact (congrArg Prod.snd none).le.trans (Nat.zero_le _)
  · exact (congrArg Prod.fst none).le.trans (Nat.zero_le _)
  · have empty : (Loc.zeroed p).components = [] :=
      List.eq_nil_of_length_eq_zero (whole.symm.trans (congrArg Prod.snd none))
    rw [empty]
    rintro ⟨⟩

private theorem admitted_floated {item up : Loc} {q : Bytes} (above : item.parent = some q)
    (floats : Loc.floated q item.base = some up) (deep : ¬(Path.components item.uri).length ≤ 1) :
    up.Admitted := by
  have shorter := congrArg List.length (Path.components_parent above).1
  have outer := congrArg List.length item.components_base_uri
  rw [List.length_dropLast] at shorter
  rw [List.length_append] at outer
  have lead : Path.components item.base <+: Path.components q := by
    rw [Loc.floated] at floats
    split at floats
    · next starts => exact List.isPrefixOf_iff_prefix.mp (Loc.components_bare q ▸ starts)
    · cases floats
  obtain ⟨other, floats', same, uri, urn⟩ := Loc.floated_spec lead
  rw [floats] at floats'
  cases floats'
  have named := Loc.fits_name q
  change _ = item.components.length - 1 at shorter
  rw [Loc.admitted_iff, same, uri, urn]
  exact ⟨(Bool.toNat_le _).trans (by omega), Nat.sub_le .., named.rootless⟩

private theorem depth_parent {p q : Bytes} (above : Path.parent p = some q)
    (deep : Path.authDepth p ≠ 0) : Path.authDepth p = Path.authDepth q + 1 := by
  obtain ⟨shorter, -, -⟩ := Path.components_parent above
  rcases List.eq_nil_or_concat (Path.components p) with none | ⟨front, last, whole⟩
  · rw [Path.authDepth, none] at deep
    exact absurd rfl deep
  · rw [List.concat_eq_append] at whole
    rw [whole, List.dropLast_concat] at shorter
    have count : Path.authDepth p = Path.authDepth q + last.hasAuth.toNat := by
      rw [Path.authDepth, Path.authDepth, shorter, whole, List.countP_append, List.countP_singleton]
      cases last.hasAuth <;> rfl
    have some : last.hasAuth = true := by
      cases front with
      | nil =>
        by_contra other
        rw [Bool.not_eq_true] at other
        rw [count, Path.authDepth, shorter, other] at deep
        exact deep rfl
      | cons c front =>
        have member : last ∈ (Path.components p).tail := by
          rw [whole]
          exact List.mem_append_right front List.mem_cons_self
        exact Path.hasAuth_of_mem_tail member
    rw [count, some]
    rfl

private theorem admitted_ascend {loc up : Loc} (ascends : loc.ascend = some up) : up.Admitted := by
  obtain ⟨path, -, made⟩ := Option.bind_eq_some_iff.mp ascends
  cases admits : Loc.withPorts path ((Path.components loc.uri).length - 1)
      ((Path.components loc.urn).length - 1) with
  | error e =>
    simp only [admits] at made
    cases made
  | ok found =>
    simp only [admits] at made
    cases made
    exact Loc.admitted_of_withPorts admits

private theorem sound_of_plain {url : Url} {p : Bytes} (valid : url.Valid) (bare : url.loc = Loc.bare p)
    (other : url.kind ≠ .hub) : url.Sound :=
  ⟨valid, bare ▸ Loc.admitted_bare p, fun hub => absurd hub other⟩

/-- The parent of a well-formed url is well-formed. -/
theorem Sound.parent {url up : Url} (sound : url.Sound) (above : url.parent = some up) :
    up.Sound := by
  have valid := sound.valid.parent above
  by_cases portal : url.kind = .view ∧ url.loc.uri = []
  · -- Above a view is a url of its source.
    obtain ⟨source, data, shows, -, -, kinds, -⟩ := sound.valid.1.source_of_view portal.1
    have plain : source.kind ≠ .view ∧ source.kind ≠ .mount ∧ source.kind ≠ .hub := by
      rcases kinds with kind | kind <;> rw [kind] <;> decide
    rw [parent_portal portal.1 portal.2 shows plain] at above
    obtain ⟨path, -, rfl⟩ := Option.map_eq_some_iff.mp above
    exact sound_of_plain valid (rebuild_loc ..) (by rw [kind, rebuild_auth]; exact plain.2.2)
  · rw [Url.parent, if_neg fun both => portal ⟨of_decide_eq_true both.1, both.2⟩] at above
    by_cases plain : url.kind ≠ .view ∧ url.kind ≠ .mount ∧ url.kind ≠ .hub
    · rw [above_plain plain] at above
      obtain ⟨path, -, rfl⟩ := Option.map_eq_some_iff.mp above
      exact sound_of_plain valid (rebuild_loc ..) (by rw [kind, rebuild_auth]; exact plain.2.2)
    · cases url with
      | unix loc auth =>
        simp only [Url.above] at above
        split at above
        · next kind =>
          obtain ⟨up, ascends, rfl⟩ := Option.map_eq_some_iff.mp above
          have other : auth.kind ≠ .hub := by rw [kind]; decide
          exact ⟨valid, admitted_ascend ascends, fun hub => absurd hub other⟩
        · next other =>
          obtain ⟨path, -, rfl⟩ := Option.map_eq_some_iff.mp above
          refine sound_of_plain valid rfl fun hub => ?_
          have paths : auth.kind.pathKind = .ok .unix := by
            have paths := sound.valid.2.1
            rwa [AuthOf.pathKind, sound.valid.1.physical_eq other] at paths
          rw [show auth.kind = .hub from hub] at paths
          cases paths
      | os loc auth =>
        simp only [Url.above] at above
        split at above
        · next kind =>
          obtain ⟨up, ascends, rfl⟩ := Option.map_eq_some_iff.mp above
          have other : auth.kind ≠ .hub := by rw [kind]; decide
          exact ⟨valid, admitted_ascend ascends, fun hub => absurd hub other⟩
        · next kind =>
          have other : auth.kind ≠ .hub := by rw [kind]; decide
          split at above
          · obtain ⟨path, -, rfl⟩ := Option.map_eq_some_iff.mp above
            exact sound_of_plain valid rfl fun hub => by cases hub
          · split at above
            · obtain ⟨path, -, rfl⟩ := Option.map_eq_some_iff.mp above
              exact ⟨valid, admitted_zeroed path, fun hub => absurd hub other⟩
            · next deep =>
              obtain ⟨path, parents, floats⟩ := Option.bind_eq_some_iff.mp above
              obtain ⟨up, made, rfl⟩ := Option.map_eq_some_iff.mp floats
              exact ⟨valid, admitted_floated parents made deep, fun hub => absurd hub other⟩
        · next kind =>
          have deep : auth.parentDepth = Path.authDepth loc.inner := sound.deep kind
          obtain ⟨isHub, scheme, domain, parent, view⟩ := auth
          cases parent with
          | none => cases above
          | some parent =>
            obtain ⟨path, parents, rfl⟩ := Option.map_eq_some_iff.mp above
            have depth : (AuthOf.mk isHub scheme domain (.some parent) view).parentDepth =
                parent.parentDepth + 1 := rfl
            have fewer := depth_parent parents (by omega)
            refine ⟨valid, Loc.admitted_bare path, fun _ => ?_⟩
            change parent.parentDepth = Path.authDepth (Path.trim path)
            rw [Path.authDepth, Path.components_trim, ← Path.authDepth]
            omega
        · next noView noMount noHub =>
          exact absurd ⟨noView, noMount, noHub⟩ plain

/-- The urls above one, each well-formed and shorter than the one below it, up to the top. -/
inductive Ascent : Url → List Url → Prop
  | top {url : Url} : url.parent = none → Ascent url []
  | up {url up : Url} {ups : List Url} : url.parent = some up → up.Sound →
    up.components.length < url.components.length → Ascent up ups → Ascent url (up :: ups)

/-- From any url the way up ends. -/
theorem Sound.ascent {url : Url} (sound : url.Sound) : ∃ ups, Ascent url ups := by
  induction length : url.components.length using Nat.strong_induction_on generalizing url with
  | _ length' ih =>
    cases above : url.parent with
    | none => exact ⟨[], .top above⟩
    | some up =>
      have shorter := length_parent above
      have sound' := sound.parent above
      obtain ⟨ups, ascent⟩ := ih up.components.length (length ▸ shorter) sound' rfl
      exact ⟨up :: ups, .up above sound' shorter ascent⟩

theorem join_parent {url : Url} (sound : url.Sound) {n s : Bytes}
    (single : Path.components n = [.normal s]) :
    (∃ up back, url.join n = some up ∧ up.Sound ∧ up.parent = some back ∧
        Directory url back) ∧
      ∃ ups, Ascent url ups := by
  obtain ⟨up, joined, entry⟩ := join_name single sound.valid
  obtain ⟨back, above, directory⟩ := entry.parent sound
  exact ⟨⟨up, back, joined, entry.sound sound, above, directory⟩, sound.ascent⟩

/-- `sftp://vps:2//a/b/c`. -/
private def nested : Url :=
  match Loc.withPorts (text "/a/b/c") 2 1 with
  | .ok loc => .unix loc (.mk .sftp .sftp (text "vps") .none .none)
  | .error _ => regular []

private theorem sound_nested : nested.Sound := by
  have admits : Loc.withPorts (text "/a/b/c") 2 1 = .ok nested.loc := rfl
  have ported := Loc.admitted_of_withPorts admits
  exact ⟨⟨⟨rfl, trivial, trivial⟩, rfl, nofun⟩, ported, nofun⟩

theorem join_parent_nested :
    (∃ up back, nested.join (text "d") = some up ∧ up.Sound ∧ up.parent = some back ∧
        Directory nested back) ∧
      ∃ ups, Ascent nested ups :=
  join_parent sound_nested (s := text "d") (by decide)

/-- A remote url takes the ports of its name on the way back. -/
theorem join_parent_renumbers :
    ¬∀ (url : Url), url.Sound → ∀ n s : Bytes, Path.components n = [.normal s] →
      (∃ up back, url.join n = some up ∧ up.Sound ∧ up.parent = some back ∧
          back.auth = url.auth ∧ back.components = url.components ∧
          Spec.retrievePorts back = Spec.retrievePorts url) ∧
        ∃ ups, Ascent url ups := by
  intro claim
  obtain ⟨⟨up, back, joined, -, above, -, -, ports⟩, -⟩ :=
    claim nested sound_nested (text "d") (text "d") (by decide)
  have joined' : nested.join (text "d") =
      some (.unix (Loc.bare (text "/a/b/c/d")) (.mk .sftp .sftp (text "vps") .none .none)) := rfl
  rw [joined'] at joined
  cases joined
  have above' : Url.parent (.unix (Loc.bare (text "/a/b/c/d"))
      (.mk .sftp .sftp (text "vps") .none .none)) =
      some (.unix (Loc.bare (text "/a/b/c")) (.mk .sftp .sftp (text "vps") .none .none)) := rfl
  rw [above'] at above
  cases above
  revert ports
  decide

end Url
end Yazi.Shared
