import Yazi.Base.Ends
import Yazi.Shared.Assemble
import Yazi.Shared.Levels
import Yazi.Shared.Ports

/-!
The components of a url, taken from both ends.

The authority comes before the path. What is left denotes a url of its own at any time: its ports
count what is left of the URI and the URN, and a hub has the authority of its last component.
-/
namespace Yazi.Shared

open Yazi.Base

/-! ### Ports -/

/-- The ports that are read from a sturdy url fit its path. -/
theorem Url.Sturdy.fits {url : Url} (sturdy : url.Sturdy) :
    Loc.Fits url.components (Spec.retrievePorts url).1 (Spec.retrievePorts url).2 := by
  by_cases regular : url.kind = .regular
  · have same : Spec.retrievePorts url = ((Path.name url.loc.inner).isSome.toNat,
        (Path.name url.loc.inner).isSome.toNat) := by
      have os := sturdy.os_of_regular regular
      cases url with
      | os loc auth => exact if_pos (decide_eq_true regular)
      | unix loc auth => cases os
    rw [same]
    exact Loc.fits_name _
  · have same : Spec.retrievePorts url = Spec.ports url.loc := by
      cases url with
      | os loc auth => exact if_neg fun is => regular (of_decide_eq_true is)
      | unix loc auth => rfl
    rw [same]
    exact (sturdy.ported regular).fits

namespace AuthOf

variable {L N : Type}

/-- The levels are counted from the innermost one. -/
theorem parentAt_eq (auth : AuthOf L N) (depth : Nat) : auth.parentAt depth = auth.levels[depth]? := by
  induction depth generalizing auth with
  | zero =>
    obtain ⟨kind, scheme, domain, parent, view⟩ := auth
    cases parent <;> rfl
  | succ depth ih =>
    obtain ⟨kind, scheme, domain, parent, view⟩ := auth
    cases parent with
    | none => rfl
    | some up => exact ih up

end AuthOf

/-! ### The iterator -/

/-- `url::Component`. -/
inductive Url.Component where
  | auth (auth : Auth)
  | inner (component : Path.Component)
  deriving DecidableEq

namespace Url

def Component.downgrade : Component → Option Path.Component
  | .auth _ => none
  | .inner c => some c

/-- `url::Components`. The path is what the components of the path are left of. -/
structure Components where
  inner : Bytes
  whole : Url
  authYields : Nat
  backYields : Nat
  authYielded : Bool

namespace Components

/-- `Components::from`. -/
def start (url : Url) : Components := ⟨url.loc.inner, url, 0, 0, false⟩

def next (s : Components) : Option Component × Components :=
  if s.authYielded then
    match Path.components s.inner with
    | [] => (none, s)
    | c :: _ => (some (.inner c), { s with inner := Path.skip 1 s.inner })
  else (some (.auth s.whole.auth), { s with authYielded := true })

def nextBack (s : Components) : Option Component × Components :=
  match (Path.components s.inner).getLast? with
  | some c =>
    (some (.inner c),
      { s with
        inner := (Path.parent s.inner).getD []
        authYields := s.authYields + c.hasAuth.toNat
        backYields := s.backYields + 1 })
  | none =>
    if s.authYielded then (none, s) else (some (.auth s.whole.auth), { s with authYielded := true })

def take (s : Components) : End → Option Component × Components
  | .front => s.next
  | .back => s.nextBack

def ports (s : Components) : Nat × Nat :=
  let left := (Path.components s.inner).length
  let (uri, urn) := Spec.retrievePorts s.whole
  (min (uri - s.backYields) left, min (urn - s.backYields) left)

/-- `Components::url`: `none` where `unwrap` or `expect` panics. -/
def url (s : Components) : Option Url :=
  (Loc.withPorts s.inner s.ports.1 s.ports.2).toOption.bind fun loc =>
    match s.whole with
    | .os _ auth =>
      if auth.kind = .hub then (auth.parentAt s.authYields).map (.os loc ·) else some (.os loc auth)
    | .unix _ auth => some (.unix loc auth)

end Components

/-- The authority, then the components of the path. -/
def parts (url : Url) : List Component := .auth url.auth :: url.components.map .inner

namespace Components

/-- What is left, and how much was taken at the back. -/
structure Left (url : Url) (s : Components) (front rest back : List Path.Component) : Prop where
  whole : s.whole = url
  split : url.components = front ++ rest ++ back
  inner : Path.components s.inner = rest
  backYields : s.backYields = back.length
  authYields : s.authYields = back.countP (·.hasAuth)
  fresh : s.authYielded = false → front = []

/-- The iterator has what the list has. -/
def Related (url : Url) (s : Components) (parts : List Component) : Prop :=
  ∃ front rest back, Left url s front rest back ∧
    parts = (if s.authYielded then [] else [.auth url.auth]) ++ rest.map .inner

theorem related_start (url : Url) : Related url (start url) url.parts := by
  refine ⟨[], url.components, [], ⟨rfl, ?_, rfl, rfl, rfl, fun _ => rfl⟩, rfl⟩
  rw [List.nil_append, List.append_nil]

private theorem related_next {url : Url} {s : Components} {parts : List Component}
    (related : Related url s parts) :
    s.next.1 = parts.head? ∧ Related url s.next.2 parts.tail := by
  obtain ⟨front, rest, back, left, rfl⟩ := related
  rw [next]
  by_cases yielded : s.authYielded = true
  · rw [if_pos yielded, if_pos yielded, List.nil_append, left.inner]
    cases rest with
    | nil => exact ⟨rfl, front, [], back, left, by rw [if_pos yielded]; rfl⟩
    | cons c rest =>
      refine ⟨rfl, front ++ [c], rest, back, ?_, by rw [if_pos yielded]; rfl⟩
      refine ⟨left.whole, ?_, ?_, left.backYields, left.authYields, ?_⟩
      · rw [left.split]
        simp only [List.append_assoc, List.cons_append, List.nil_append]
      · rw [Path.components_skip, left.inner, List.drop_one, List.tail_cons]
      · exact fun fresh => absurd yielded (by rw [fresh]; exact Bool.false_ne_true)
  · rw [if_neg yielded, if_neg yielded, left.whole]
    refine ⟨rfl, front, rest, back, ?_, rfl⟩
    exact ⟨rfl, left.split, left.inner, left.backYields, left.authYields, nofun⟩

private theorem components_back (p : Bytes) :
    Path.components ((Path.parent p).getD []) = (Path.components p).dropLast := by
  cases above : Path.parent p with
  | some q => exact (Path.components_parent above).1
  | none =>
    rw [Option.getD_none, Path.components_nil, ← Path.components_trim p]
    rcases Path.parent_eq_none.mp above with empty | root
    · rw [empty]
      rfl
    · rw [root, Path.components_slash]
      rfl

private theorem related_nextBack {url : Url} {s : Components} {parts : List Component}
    (related : Related url s parts) :
    s.nextBack.1 = parts.getLast? ∧ Related url s.nextBack.2 parts.dropLast := by
  obtain ⟨front, rest, back, left, rfl⟩ := related
  rw [nextBack, left.inner]
  rcases List.eq_nil_or_concat' rest with rfl | ⟨rest, c, rfl⟩
  · -- Nothing of the path is left, at most the authority.
    rw [List.getLast?_nil, List.map_nil, List.append_nil]
    by_cases yielded : s.authYielded = true
    · rw [if_pos yielded]
      exact ⟨by simp [yielded], front, [], back, left, by simp [yielded]⟩
    · simp only [yielded, left.whole]
      refine ⟨rfl, front, [], back, ?_, rfl⟩
      exact ⟨rfl, left.split, left.inner, left.backYields, left.authYields, nofun⟩
  · rw [List.getLast?_concat, List.map_append, ← List.append_assoc, List.map_singleton,
      List.getLast?_concat, List.dropLast_concat]
    refine ⟨rfl, front, rest, c :: back, ⟨left.whole, ?_, ?_, ?_, ?_, left.fresh⟩, rfl⟩
    · rw [left.split]
      simp only [List.append_assoc, List.singleton_append]
    · rw [components_back, left.inner, List.dropLast_concat]
    · exact congrArg Nat.succ left.backYields
    · change s.authYields + c.hasAuth.toNat = _
      rw [List.countP_cons, left.authYields]
      cases c.hasAuth <;> rfl

theorem related_take {url : Url} {s : Components} {parts : List Component} (call : End)
    (related : Related url s parts) :
    (s.take call).1 = (Ends.pop parts call).1 ∧ Related url (s.take call).2 (Ends.pop parts call).2 := by
  cases call with
  | front => exact related_next related
  | back => exact related_nextBack related

/-! ### What is left -/

/-- How many of the last components of the path are left. -/
def remaining (total region : Nat) (front rest : List Path.Component) : Nat :=
  (List.range' front.length rest.length).countP (total - region ≤ ·)

private theorem countP_range' (n start length : Nat) :
    (List.range' start length).countP (n ≤ ·) = length - (n - start) := by
  induction length generalizing start with
  | zero => exact (Nat.zero_sub _).symm
  | succ length ih =>
    rw [List.range'_succ, List.countP_cons, ih]
    by_cases reached : n ≤ start
    · rw [if_pos (decide_eq_true reached)]
      omega
    · rw [if_neg (by simpa using reached)]
      omega

theorem remaining_eq {total region : Nat} {front rest back : List Path.Component}
    (split : total = (front ++ rest ++ back).length) :
    remaining total region front rest = min (region - back.length) rest.length := by
  rw [List.length_append, List.length_append] at split
  rw [remaining, countP_range']
  omega

/-- What is left of a region fits what is left of the path. -/
private theorem fits_left {cs front rest back : List Path.Component} {uri urn : Nat}
    (fits : Loc.Fits cs uri urn) (split : cs = front ++ rest ++ back)
    (rootless : front ≠ [] → rest.head? ≠ some .rootDir) :
    Loc.Fits rest (min (uri - back.length) rest.length) (min (urn - back.length) rest.length) := by
  have order := fits.order
  refine ⟨by omega, Nat.min_le_right _ _, fun whole root => ?_⟩
  have none : front = [] := by
    by_contra some
    exact rootless some root
  have present : 0 < rest.length := by
    cases rest with
    | nil => cases root
    | cons c rest => exact Nat.succ_pos _
  -- All of it is in the URN, so all of the path was.
  have room := fits.room
  rw [split, none, List.nil_append, List.length_append] at room
  refine fits.rootless ?_ ?_
  · rw [split, none, List.nil_append, List.length_append]
    omega
  · rw [split, none, List.nil_append, List.head?_append, root]
    rfl

/-- The url of what is left: the rest of the path, what is left of the ports and, in a hub, the
authority of the last component that is left. -/
def Denotes (url : Url) (front rest : List Path.Component) (u : Url) : Prop :=
  u.pathKind = url.pathKind ∧ u.components = rest ∧
    Spec.ports u.loc =
      (remaining url.components.length (Spec.retrievePorts url).1 front rest,
        remaining url.components.length (Spec.retrievePorts url).2 front rest) ∧
    (url.kind ≠ .hub → u.auth = url.auth) ∧
    (url.kind = .hub →
      url.auth.levels.reverse[(front ++ rest).countP (·.hasAuth)]? = some u.auth)

theorem url_of_left {url : Url} (sturdy : url.Sturdy) {s : Components}
    {front rest back : List Path.Component} (left : Left url s front rest back) :
    ∃ u, s.url = some u ∧ Denotes url front rest u := by
  have fits := sturdy.fits
  have rootless : front ≠ [] → rest.head? ≠ some .rootDir := by
    intro present root
    obtain ⟨c, front, rfl⟩ := List.exists_cons_of_ne_nil present
    have later : Path.Component.rootDir ∈ url.components.tail := by
      rw [left.split, List.cons_append, List.cons_append, List.tail_cons]
      exact List.mem_append_left _ (List.mem_append_right _ (List.mem_of_mem_head? root))
    exact Path.rootDir_not_mem_tail _ later
  have ports : s.ports =
      (remaining url.components.length (Spec.retrievePorts url).1 front rest,
        remaining url.components.length (Spec.retrievePorts url).2 front rest) := by
    have length := congrArg List.length left.split
    rw [remaining_eq length, remaining_eq length, Components.ports, left.whole, left.inner,
      left.backYields]
  have fits' := fits_left fits left.split rootless
  rw [← left.inner] at fits'
  obtain ⟨loc, admits⟩ := Loc.withPorts_iff.mpr fits'
  have admits' : Loc.withPorts s.inner s.ports.1 s.ports.2 = .ok loc := by
    rw [Components.ports, left.whole, left.backYields]
    exact admits
  obtain ⟨uri, urn⟩ := Loc.length_withPorts admits'
  have inner : loc.components = rest := by
    rw [Loc.components, Loc.inner_withPorts admits', Path.components_trim, left.inner]
  have ports' : Spec.ports loc = s.ports := Prod.ext uri urn
  simp only [Denotes]
  rw [← ports, ← ports']
  cases url with
  | unix start auth =>
    refine ⟨.unix loc auth, ?_, rfl, inner, rfl, fun _ => rfl, fun hub => ?_⟩
    · rw [Components.url, admits', left.whole]
      rfl
    · -- A hub has a path of the system.
      have paths := sturdy.paths
      have hub' : auth.kind = .hub := hub
      have view := (sturdy.levels hub auth auth.self_mem_levels).2
      rw [AuthOf.pathKind, AuthOf.physical, Url.auth, view, hub'] at paths
      cases paths
  | os start auth =>
    by_cases hub : auth.kind = .hub
    · have deep : auth.parentDepth = (start.components).countP (·.hasAuth) := sturdy.deep hub
      have split : start.components = front ++ rest ++ back := left.split
      have total := congrArg (List.countP (·.hasAuth)) split
      rw [@List.countP_append _ _ (front ++ rest)] at total
      have enough : (front ++ rest).countP (·.hasAuth) < auth.levels.length := by
        rw [auth.length_levels]
        omega
      have level : auth.levels.reverse[(front ++ rest).countP (·.hasAuth)]? =
          auth.parentAt s.authYields := by
        rw [List.getElem?_reverse enough, AuthOf.parentAt_eq, auth.length_levels, left.authYields]
        congr 1
        omega
      obtain ⟨up, found⟩ := @AuthOf.parentAt_of_le _ _ auth s.authYields
        (by rw [left.authYields]; omega)
      refine ⟨.os loc up, ?_, rfl, inner, rfl, fun other => absurd hub other, fun _ => ?_⟩
      · rw [Components.url, admits', left.whole]
        change (if auth.kind = .hub then _ else _) = _
        rw [if_pos hub, found]
        rfl
      · exact level.trans found
    · refine ⟨.os loc auth, ?_, rfl, inner, rfl, fun _ => rfl, fun other => absurd other hub⟩
      rw [Components.url, admits', left.whole]
      exact if_neg hub

end Components

/-! ### Results -/

private theorem downgrade_inner (cs : List Path.Component) :
    (cs.map Component.inner).filterMap Component.downgrade = cs := by
  rw [List.filterMap_map]
  exact List.filterMap_some

private theorem downgrade_parts (url : Url) :
    url.parts.filterMap Component.downgrade = url.components :=
  downgrade_inner url.components

/-- Collected again, the components are those of the url, and its ports fit them. -/
def Collects (url : Url) : Prop :=
  ∃ loc, Loc.withPorts (Path.fromComponents (url.parts.filterMap Component.downgrade))
      (Spec.retrievePorts url).1 (Spec.retrievePorts url).2 = .ok loc ∧
    (url.rebuild loc url.auth).shape = url.shape ∧
    Spec.retrievePorts (url.rebuild loc url.auth) = Spec.retrievePorts url

private theorem collected {url : Url} (sturdy : url.Sturdy) : Collects url := by
  rw [Collects, downgrade_parts]
  have same : Path.components (Path.fromComponents url.components) = url.components :=
    Path.components_fromComponents (Path.proper_components _)
  have fits := sturdy.fits
  rw [← same] at fits
  obtain ⟨loc, admits⟩ := Loc.withPorts_iff.mpr fits
  have inner : loc.components = url.components := by
    rw [Loc.components, Loc.inner_withPorts admits, Path.components_trim, same]
  have ports : Spec.ports loc = Spec.retrievePorts url :=
    Prod.ext (Loc.length_withPorts admits).1 (Loc.length_withPorts admits).2
  refine ⟨loc, admits, ?_, ?_⟩
  · cases url with
    | os old auth => exact congrArg (UrlOf.os · (Auth.shape auth)) inner
    | unix old auth => exact congrArg (UrlOf.unix · (Auth.shape auth)) inner
  · cases url with
    | os old auth =>
      have named : Path.name loc.inner = Path.name old.inner := Path.name_congr inner
      simp only [rebuild, Spec.retrievePorts, Url.auth] at ports ⊢
      by_cases regular : auth.isRegular = true
      · rw [if_pos regular, if_pos regular, named]
      · rw [if_neg regular] at ports ⊢
        rwa [if_neg regular]
    | unix old auth => exact ports

/-- Whatever is taken from the two ends, the iterator yields the components in their order, and
what is left denotes a url. What is taken from the front alone is the whole url. -/
theorem components_url {inventory : Inventory} (url : Url) (sound : url.WellFormed inventory)
    (calls : List End) :
    (Ends.run Components.take (Components.start url) calls).1 =
        (Ends.run Ends.pop url.parts calls).1 ∧
      (∃ front rest back u, url.components = front ++ rest ++ back ∧
        (Ends.run Ends.pop url.parts calls).2.filterMap Component.downgrade = rest ∧
        (Ends.run Components.take (Components.start url) calls).2.url = some u ∧
        Components.Denotes url front rest u) ∧
      (Ends.run Components.take (Components.start url)
          (List.replicate url.parts.length .front)).1 = url.parts.map some ∧
      Collects url := by
  have sturdy := sturdy_of_wellFormed sound
  have simulates (calls : List End) := Ends.run_simulates
    (fun s parts call => (Components.related_take call : Components.Related url s parts → _))
    (Components.related_start url) calls
  obtain ⟨same, front, rest, back, left, parts⟩ := simulates calls
  obtain ⟨u, whole, denotes⟩ := Components.url_of_left sturdy left
  refine ⟨same, ⟨front, rest, back, u, left.split, ?_, whole, denotes⟩, ?_, collected sturdy⟩
  · rw [parts, List.filterMap_append, downgrade_inner]
    split <;> rfl
  · rw [(simulates _).1, Ends.run_front]

/-- Only remote hosts are registered. -/
def remotes : Inventory
  | .sftp, domain => some (.mk .sftp .sftp domain .none .none)
  | _, _ => none

/-- `sftp://vps:2//a/b/c`. -/
def remote : Url :=
  match Loc.withPorts (text "/a/b/c") 2 1 with
  | .ok loc => .unix loc (.mk .sftp .sftp (text "vps") .none .none)
  | .error _ => regular []

private theorem wellFormed_remote : remote.WellFormed remotes := by
  have admits : Loc.withPorts (text "/a/b/c") 2 1 = .ok remote.loc := rfl
  exact ⟨⟨⟨trivial, nofun, rfl⟩, trivial, nofun⟩, rfl, fun _ => Loc.admitted_of_withPorts admits⟩

theorem components_url_remote :
    (Ends.run Components.take (Components.start remote) [.back, .front]).1 =
        (Ends.run Ends.pop remote.parts [.back, .front]).1 ∧
      (∃ front rest back u, remote.components = front ++ rest ++ back ∧
        (Ends.run Ends.pop remote.parts [.back, .front]).2.filterMap Component.downgrade = rest ∧
        (Ends.run Components.take (Components.start remote) [.back, .front]).2.url = some u ∧
        Components.Denotes remote front rest u) ∧
      (Ends.run Components.take (Components.start remote)
          (List.replicate remote.parts.length .front)).1 = remote.parts.map some ∧
      Collects remote :=
  components_url remote wellFormed_remote [.back, .front]

end Url
end Yazi.Shared
