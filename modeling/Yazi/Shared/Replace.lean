import Yazi.Shared.Ascent
import Yazi.Shared.Components
import Yazi.Shared.RoundTrip

/-!
A url without its first components, and the url put together again.

The rest is read as a url when it looks like one. Otherwise it goes on where the components end
that were dropped, and the url gets its ports and its authorities back.
-/
namespace Yazi.Shared

/-! ### Maps -/

section map
variable {L M K N O R : Type} (f : L → M) (g : N → O) (f' : M → K) (g' : O → R)

mutual

theorem AuthOf.map_map : (a : AuthOf L N) → (a.map f g).map f' g' = a.map (f' ∘ f) (g' ∘ g)
  | .mk _ _ _ parent view => by
    rw [AuthOf.map, AuthOf.map, AuthOf.map, ParentOf.map_map parent, ViewBoxOf.map_map view]

theorem ParentOf.map_map : (p : ParentOf L N) → (p.map f g).map f' g' = p.map (f' ∘ f) (g' ∘ g)
  | .none => rfl
  | .some auth => by rw [ParentOf.map, ParentOf.map, ParentOf.map, AuthOf.map_map auth]

theorem ViewBoxOf.map_map : (v : ViewBoxOf L N) → (v.map f g).map f' g' = v.map (f' ∘ f) (g' ∘ g)
  | .none => rfl
  | .some source data => by
    rw [ViewBoxOf.map, ViewBoxOf.map, ViewBoxOf.map, AuthOf.map_map source, WireOf.map_map data]

theorem WireOf.map_map : (w : WireOf L N) → (w.map f g).map f' g' = w.map (f' ∘ f) (g' ∘ g)
  | .nil | .boolean _ | .integer _ | .number _ | .string _ | .id _ | .bytes _ => rfl
  | .list values => by rw [WireOf.map, WireOf.map, WireOf.map, WiresOf.map_map values]
  | .dict entries => by rw [WireOf.map, WireOf.map, WireOf.map, DictOf.map_map entries]
  | .url url => by rw [WireOf.map, WireOf.map, WireOf.map, UrlOf.map_map url]

theorem WiresOf.map_map : (ws : WiresOf L N) → (ws.map f g).map f' g' = ws.map (f' ∘ f) (g' ∘ g)
  | .nil => rfl
  | .cons value rest => by
    rw [WiresOf.map, WiresOf.map, WiresOf.map, WireOf.map_map value, WiresOf.map_map rest]

theorem DictOf.map_map : (es : DictOf L N) → (es.map f g).map f' g' = es.map (f' ∘ f) (g' ∘ g)
  | .nil => rfl
  | .cons _ value rest => by
    rw [DictOf.map, DictOf.map, DictOf.map, WireOf.map_map value, DictOf.map_map rest]

theorem UrlOf.map_map : (u : UrlOf L N) → (u.map f g).map f' g' = u.map (f' ∘ f) (g' ∘ g)
  | .os _ auth => by rw [UrlOf.map, UrlOf.map, UrlOf.map, AuthOf.map_map auth]; rfl
  | .unix _ auth => by rw [UrlOf.map, UrlOf.map, UrlOf.map, AuthOf.map_map auth]; rfl

end

end map

/-! ### The rest -/

namespace Url.Components
variable (floats : Floats)

/-- `Components::strand`: `none` where writing panics. -/
def strand (s : Components) : Option Bytes :=
  if s.whole.isRegular ∨ s.authYielded then some s.inner
  else s.url.bind fun url => (url.auth.encodeSpec floats url.loc).map (· ++ s.inner)

/-- `Components::next` so many times, then what is left, or nothing when all are taken. -/
def strandFrom : Nat → Components → Option Bytes
  | 0, s => s.strand floats
  | n + 1, s =>
    match s.next with
    | (none, _) => some []
    | (some _, s) => strandFrom n s

end Url.Components

/-! ### Replacing it -/

namespace Url

/-- The url with this text in place of all but its first components: `none` where `expect`
panics. -/
def replaced (url : Url) (take : Nat) (rep : Bytes) : Option Url :=
  let path := Path.push (Path.fromComponents (url.components.take (take - 1))) rep
  let onward := Path.startsWith path url.loc.trail
  match url with
  | .os loc auth =>
    if (auth.kind = .view ∨ auth.kind = .mount) ∧ onward then
      (Loc.new path loc.base loc.trail).map (.os · auth)
    else if auth.kind = .hub ∧ onward then
      (auth.withParentDepth (Path.authDepth path)).bind fun auth =>
        (Loc.new path loc.base loc.trail).map (.os · auth)
    else if auth.kind = .hub then
      (auth.withParentDepth (Path.authDepth path)).map (.os (saturated path auth.kind) ·)
    else some (.os (saturated path auth.kind) auth)
  | .unix loc auth =>
    if onward then (Loc.new path loc.base loc.trail).map (.unix · auth)
    else some (.unix (saturated path auth.kind) auth)

/-- `Url::try_replace`. -/
def tryReplace (inventory : Inventory) (floats : Floats) (url : Url) (take : Nat) (rep : Bytes) :
    Except Error (Option Url) :=
  if take = 0 then (decode inventory floats rep).map some
  else do
    let parsed ← ParsedSpec.parse rep
    if 0 < parsed.skip then (decode inventory floats rep).map some
    else .ok (url.replaced take rep)

/-! ### Both -/

/-- The same url, as equality of urls and their ports see it. -/
structure Rebuilt (url back : Url) : Prop where
  shape : back.shape = url.shape
  ports : Spec.retrievePorts back = Spec.retrievePorts url

private theorem components_rejoined {p rep : Bytes} {k : Nat}
    (rest : Path.components rep = (Path.components p).drop k) :
    Path.components (Path.push (Path.fromComponents ((Path.components p).take k)) rep) =
      Path.components p := by
  have proper := Path.proper_components p
  have before := Path.components_fromComponents
    (Path.proper_append_left ((List.take_append_drop k (Path.components p)).symm ▸ proper))
  by_cases empty : Path.fromComponents ((Path.components p).take k) = []
  · have none : (Path.components p).take k = [] := by
      rw [← before, empty, Path.components_nil]
    rw [empty, Path.push_nil, rest]
    conv_rhs => rw [← List.take_append_drop k (Path.components p), none, List.nil_append]
  · have some : (Path.components p).take k ≠ [] := by
      rw [← before]
      exact Path.components_ne_nil empty
    have later : ∀ c ∈ (Path.components p).drop k, c ∈ (Path.components p).tail := by
      intro c member
      cases k with
      | zero => exact absurd rfl some
      | succ k =>
        rw [← List.drop_tail] at member
        exact List.mem_of_mem_drop member
    have inner : ∀ c ∈ Path.components rep, c.Inner := by
      intro c member
      rw [rest] at member
      cases whole : Path.components p with
      | nil =>
        rw [whole, List.drop_nil] at member
        cases member
      | cons d ds =>
        rw [whole] at proper
        have among := later c member
        rw [whole] at among
        exact proper.2 c among
    have relative : Path.hasRoot rep = false := by
      rw [Bool.eq_false_iff, ne_eq, Path.hasRoot_iff]
      intro root
      exact (inner _ (List.mem_of_mem_head? root)).1 List.mem_cons_self
    rw [Path.components_push_relative empty relative, before, Path.filter_inner inner, rest,
      List.take_append_drop]

/-- What begins where the base and the trail end has the ports again. -/
private theorem new_rejoined {loc : Loc} {path : Bytes}
    (whole : Path.components path = loc.components) :
    ∃ up, Loc.new path loc.base loc.trail = some up ∧ up.components = loc.components ∧
      Spec.ports up = Spec.ports loc := by
  obtain ⟨up, made, same, uri, urn⟩ :=
    Loc.new_spec (whole ▸ loc.base_prefix) (whole ▸ loc.trail_prefix)
  have base := congrArg List.length loc.components_base_uri
  have trail := congrArg List.length loc.components_trail_urn
  rw [List.length_append] at base trail
  rw [whole] at same uri urn
  refine ⟨up, made, same, Prod.ext ?_ ?_⟩
  · change (Path.components up.uri).length = (Path.components loc.uri).length
    omega
  · change (Path.components up.urn).length = (Path.components loc.urn).length
    omega

/-- A url with no view in its authority has a path of the kind of its authority. -/
private theorem pathKind_of_validate {auth : Auth} {kind : PathKind} (valid : auth.validate = .ok ())
    (paths : auth.pathKind = .ok kind) (other : auth.kind ≠ .view) :
    auth.kind.pathKind = .ok kind := by
  obtain ⟨isKind, scheme, domain, parent, view⟩ := auth
  cases view with
  | none => exact paths
  | some source data =>
    change isKind ≠ .view at other
    cases isKind <;> first | exact absurd rfl other | cases valid

private theorem rebuilt_os {loc up : Loc} {auth : Auth} (same : up.components = loc.components)
    (ports : auth.kind ≠ .regular → Spec.ports up = Spec.ports loc) :
    Rebuilt (.os loc auth) (.os up auth) := by
  refine ⟨?_, ?_⟩
  · rw [Url.shape, Url.shape, UrlOf.map, UrlOf.map, same]
  · by_cases regular : auth.isRegular = true
    · rw [Spec.retrievePorts, Spec.retrievePorts, if_pos regular, if_pos regular,
        Path.name_congr (same : Path.components up.inner = Path.components loc.inner)]
    · rw [Spec.retrievePorts, Spec.retrievePorts, if_neg regular, if_neg regular]
      exact ports fun yes => regular (decide_eq_true yes)

theorem replaced_spec {url : Url} (sturdy : url.Sturdy) {take : Nat} {rep : Bytes}
    (rest : Path.components rep = url.components.drop (take - 1)) :
    ∃ back, url.replaced take rep = some back ∧ Rebuilt url back := by
  have whole : Path.components
      (Path.push (Path.fromComponents (url.components.take (take - 1))) rep) =
        url.loc.components := components_rejoined rest
  have starts : Path.startsWith
      (Path.push (Path.fromComponents (url.components.take (take - 1))) rep) url.loc.trail = true := by
    rw [Path.startsWith, List.isPrefixOf_iff_prefix, whole]
    exact url.loc.trail_prefix
  obtain ⟨up, made, same, ports⟩ := new_rejoined whole
  simp only [replaced]
  rw [starts]
  generalize Path.push (Path.fromComponents (url.components.take (take - 1))) rep = path at whole made
  cases url with
  | unix loc auth =>
    change (Loc.new path loc.base loc.trail) = some up at made
    dsimp only
    rw [if_pos rfl, made]
    refine ⟨.unix up auth, rfl, ?_, ports⟩
    rw [Url.shape, Url.shape, UrlOf.map, UrlOf.map, same]
    rfl
  | os loc auth =>
    change (Loc.new path loc.base loc.trail) = some up at made
    dsimp only
    by_cases floats : auth.kind = .view ∨ auth.kind = .mount
    · rw [if_pos ⟨floats, rfl⟩, made]
      exact ⟨.os up auth, rfl, rebuilt_os same fun _ => ports⟩
    · rw [if_neg fun both => floats both.1]
      by_cases hub : auth.kind = .hub
      · have deep : auth.parentDepth = Path.authDepth path := by
          rw [Path.authDepth, whole]
          exact sturdy.deep hub
        have stays : auth.withParentDepth (Path.authDepth path) = some auth := if_pos deep
        rw [if_pos ⟨hub, rfl⟩, stays, Option.bind_some, made]
        exact ⟨.os up auth, rfl, rebuilt_os same fun _ => ports⟩
      · rw [if_neg fun both => hub both.1, if_neg hub]
        have paths := pathKind_of_validate sturdy.valid sturdy.paths fun view => floats (.inl view)
        change auth.kind.pathKind = .ok .os at paths
        have regular : auth.kind = .regular := by
          cases kind : auth.kind with
          | regular => rfl
          | view | mount => exact absurd (by simp [kind]) floats
          | hub => exact absurd kind hub
          | scope | sftp =>
            rw [kind] at paths
            cases paths
        refine ⟨_, rfl, rebuilt_os ?_ fun other => absurd regular other⟩
        rw [regular, saturated, Loc.components_bare, whole]
        rfl

/-! ### The rest of a url -/

section rest
variable (floats : Floats)

private theorem strandFrom_yielded (n : Nat) {s : Components} (yielded : s.authYielded = true) :
    ∃ rest, s.strandFrom floats n = some rest ∧
      Path.components rest = (Path.components s.inner).drop n := by
  induction n generalizing s with
  | zero => exact ⟨s.inner, if_pos (.inr yielded), rfl⟩
  | succ n ih =>
    rw [Components.strandFrom, Components.next, if_pos yielded]
    cases parts : Path.components s.inner with
    | nil => exact ⟨[], rfl, rfl⟩
    | cons c cs =>
      obtain ⟨rest, found, split⟩ := ih (s := { s with inner := Path.skip 1 s.inner }) yielded
      refine ⟨rest, found, split.trans ?_⟩
      rw [Path.components_skip, parts, List.drop_drop, Nat.add_comm]

/-- Behind the authority and some components of the path are the others. -/
theorem strandFrom_succ (url : Url) (n : Nat) :
    ∃ rest, (Components.start url).strandFrom floats (n + 1) = some rest ∧
      Path.components rest = url.components.drop n :=
  strandFrom_yielded floats n (s := { Components.start url with authYielded := true }) rfl

/-- The whole url is what is written of it. -/
theorem strandFrom_zero {url : Url} (sturdy : url.Sturdy) :
    (Components.start url).strandFrom floats 0 =
      if url.isRegular then some url.loc.inner
      else (url.auth.encodeSpec floats url.loc).map (· ++ url.loc.inner) := by
  rw [Components.strandFrom, Components.strand]
  by_cases regular : url.isRegular = true
  · rw [if_pos regular, if_pos (.inl regular)]
    rfl
  · have other : url.kind ≠ .regular := fun yes => regular (decide_eq_true yes)
    have own : Spec.retrievePorts url = Spec.ports url.loc := by
      cases url with
      | os loc auth => exact if_neg regular
      | unix loc auth => rfl
    have fits := Loc.admitted_iff.mp (sturdy.ported other)
    have order := fits.order
    have room := fits.room
    have ports : (Components.start url).ports = Spec.ports url.loc := by
      change (min ((Spec.retrievePorts url).1 - 0) _, min ((Spec.retrievePorts url).2 - 0) _) = _
      rw [own]
      refine Prod.ext (Nat.min_eq_left ?_) (Nat.min_eq_left ?_)
      · exact room
      · exact order.trans room
    have admits := (sturdy.ported other).withPorts
    have same : (Components.start url).url = some url := by
      rw [Components.url, ports]
      change (Loc.withPorts url.loc.inner _ _).toOption.bind _ = _
      rw [admits]
      cases url with
      | os loc auth =>
        change (if auth.kind = .hub then (auth.parentAt 0).map (UrlOf.os loc ·)
          else some (UrlOf.os loc auth)) = some (UrlOf.os loc auth)
        rw [AuthOf.parentAt]
        split <;> rfl
      | unix loc auth => rfl
    rw [if_neg regular, if_neg (by simp [Components.start, regular]), same]
    rfl

end rest

/-- Urls with the same bytes are equal. -/
theorem shape_of_sameUrl {a b : Url} (same : SameUrl a b) : a.shape = b.shape := by
  have natural (url : Url) : (url.map Loc.inner id).map Path.components Number.value = url.shape :=
    UrlOf.map_map ..
  rw [← natural a, ← natural b, same]

/-- What follows the first components rebuilds the url in their place. -/
theorem tryReplace_rest {inventory : Inventory} {floats : Floats} {url : Url}
    (wellFormed : url.WellFormed inventory) (take : Nat) :
    ∃ rest, (Components.start url).strandFrom floats take = some rest ∧
      ((if take = 0 then rest.length < 2 ^ 64 ∧ url.Plain ∧
          (url.isRegular = true → ¬text "://" <:+: rest)
        else ¬text "://" <:+: rest) →
      ∃ back, url.tryReplace inventory floats take rest = .ok (some back) ∧ Rebuilt url back) := by
  have sturdy := sturdy_of_wellFormed wellFormed
  cases take with
  | zero =>
    have total : ∃ t, (if url.isRegular then some url.loc.inner
        else (url.auth.encodeSpec floats url.loc).map (· ++ url.loc.inner)) = some t := by
      split
      · exact ⟨_, rfl⟩
      · have auth : url.auth.WellFormed inventory url.loc.inner := by
          cases url <;> exact wellFormed.1
        obtain ⟨spec, written⟩ := AuthOf.encodeSpec_total floats url.auth _ auth url.loc
        exact ⟨_, by rw [written]; rfl⟩
    obtain ⟨t, written⟩ := total
    refine ⟨t, (strandFrom_zero floats sturdy).trans written, ?_⟩
    rw [if_pos rfl]
    rintro ⟨fits, plain, clean⟩
    have clean' : url.isRegular = true → ¬text "://" <:+: url.loc.inner := by
      intro regular
      rw [if_pos regular] at written
      exact Option.some.inj written ▸ clean regular
    obtain ⟨back, reads, same, ports⟩ :=
      (strand_recovers_iff wellFormed written fits).mpr ⟨plain, clean'⟩
    refine ⟨back, ?_, shape_of_sameUrl same, ports⟩
    rw [tryReplace, if_pos rfl, reads]
    rfl
  | succ n =>
    obtain ⟨rest, found, split⟩ := strandFrom_succ floats url n
    refine ⟨rest, found, fun clean => ?_⟩
    rw [if_neg (Nat.succ_ne_zero n)] at clean
    obtain ⟨back, made, rebuilt⟩ := @replaced_spec url sturdy (n + 1) _ split
    refine ⟨back, ?_, rebuilt⟩
    rw [tryReplace, if_neg (Nat.succ_ne_zero n), Spec.parsed_path clean, made]
    rfl

end Url

end Yazi.Shared
