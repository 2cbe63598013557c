import Yazi.Shared.Url

/-!
Joining a url with a path below it.

The path grows by the components of the other, a hub gets an authority for each of them, and the
ports follow from where the url begins.
-/
namespace Yazi.Shared

/-! ### Paths -/

namespace Path

/-- `Path::join`. -/
def push (p q : Bytes) : Bytes :=
  if q.head? = some slash then q
  else if p = [] ∨ p.getLast? = some slash then p ++ q
  else p ++ slash :: q

def startsWith (p base : Bytes) : Bool := (components base).isPrefixOf (components p)

/-- Only names, which can stand anywhere in a path. -/
def Plain (cs : List Component) : Prop := ∀ c ∈ cs, ∃ name, c = .normal name

private theorem body_of_plain {q : Bytes} (plain : Plain (components q)) : body q = components q := by
  by_cases empty : q = []
  · subst empty
    rfl
  · cases parts : segments q with
    | nil => exact absurd parts (segments_ne_nil q)
    | cons s rest =>
      simp only [components, if_neg empty, parts] at plain ⊢
      obtain ⟨name, proper⟩ := plain _ List.mem_cons_self
      have found : inner s = some (first s) := by
        simp only [first] at proper ⊢
        simp only [inner]
        split at proper
        · cases proper
        · split at proper
          · cases proper
          · split at proper
            · cases proper
            · next h1 h2 h3 => simp [h1, h2, h3]
      rw [body, parts, List.filterMap_cons_some found]

theorem components_push {p q : Bytes} (plain : Plain (components q)) :
    components (push p q) = components p ++ components q := by
  have relative : q.head? ≠ some slash := by
    intro root
    have rooted := (hasRoot_iff q).mp (by simpa [hasRoot] using root)
    obtain ⟨name, proper⟩ := plain _ (List.mem_of_mem_head? (Option.mem_def.mpr rooted))
    cases proper
  rw [push, if_neg relative]
  by_cases empty : p = []
  · simp [empty]
  · by_cases ends : p.getLast? = some slash
    · rw [if_pos (.inr ends)]
      obtain ⟨lead, rfl⟩ := List.getLast?_eq_some_iff.mp ends
      have whole : lead ++ [slash] ++ q = lead ++ slash :: q := by simp
      rw [whole]
      by_cases root : lead = []
      · subst root
        simp [components_slash_cons, body_of_plain plain]
      · rw [components_append root, components_append root, body_nil, List.append_nil,
          body_of_plain plain]
    · rw [if_neg (by simp [empty, ends]), components_append empty, body_of_plain plain]

/-- The name of a path that ends in a name. -/
theorem name_of_components {p s : Bytes} {cs : List Component}
    (ends : components p = cs ++ [.normal s]) :
    name p = some s ∧ components s = [.normal s] := by
  have nonempty : trim p ≠ [] := by
    rw [ne_eq, trim_eq_nil]
    rintro rfl
    simp at ends
  have more : trim p ≠ [slash] := by
    intro root
    rw [← components_trim, root, components_slash] at ends
    cases cs with
    | nil => cases ends
    | cons c cs => cases cs <;> cases ends
  obtain ⟨c, split, found⟩ := components_trimmed (trim_trim p) nonempty more
  rw [components_trim, ends] at split
  obtain ⟨-, same⟩ := List.append_inj' split rfl
  obtain rfl : Component.normal s = c := by simpa using same
  obtain ⟨present, -⟩ := last_trimmed (trim_trim p) nonempty more
  have clean := slash_not_mem_last (trim p)
  have proper : last (trim p) = s ∧ first s = .normal s := by
    split at found
    · simp only [first] at found
      split at found
      · cases found
      · split at found
        · cases found
        · split at found
          · cases found
          · next h1 h2 h3 =>
            cases found
            simp [first, h1, h2, h3]
    · simp only [inner] at found
      split at found
      · cases found
      · next h1 =>
        split at found
        · cases found
        · next h2 =>
          rw [not_or] at h1
          cases found
          simp [first, h1, h2]
  obtain ⟨rfl, single⟩ := proper
  refine ⟨?_, ?_⟩
  · rw [name, if_neg]
    rintro (none | current | up)
    · exact present none
    · rw [current] at single
      cases single
    · rw [up] at single
      cases single
  · rw [components_of_not_mem present clean, single]

/-- The name of a path is its last component. -/
theorem components_of_name {p s : Bytes} (named : name p = some s) :
    components p = (components p).dropLast ++ [.normal s] := by
  simp only [name] at named
  split at named
  · cases named
  · next proper =>
    cases named
    rw [not_or, not_or] at proper
    have nonempty : trim p ≠ [] := by
      intro none
      rw [none] at proper
      exact proper.1 rfl
    have more : trim p ≠ [slash] := by
      intro root
      rw [root] at proper
      exact proper.1 (by decide)
    obtain ⟨c, split, found⟩ := components_trimmed (trim_trim p) nonempty more
    have same : c = .normal (last (trim p)) := by
      split at found
      · rw [first, if_neg proper.1, if_neg proper.2.1, if_neg proper.2.2] at found
        exact found
      · rw [inner, if_neg (not_or.mpr ⟨proper.1, proper.2.1⟩), if_neg proper.2.2] at found
        exact found
    rw [components_trim, same] at split
    rw [split, List.dropLast_concat]

theorem name_congr {p q : Bytes} (same : components p = components q) : name p = name q := by
  have half {p q : Bytes} (same : components p = components q) {s : Bytes}
      (named : name p = some s) : name q = some s := by
    have ends := components_of_name named
    rw [same] at ends
    exact (name_of_components ends).1
  cases named : name p with
  | some s => exact (half same named).symm
  | none =>
    cases other : name q with
    | none => rfl
    | some s =>
      rw [half same.symm other] at named
      cases named

end Path

/-! ### Locations -/

namespace Loc

/-- `Loc::new`: `none` where `expect` panics, as the path does not start with both. -/
def new (path base trail : Bytes) : Option Loc :=
  if Path.startsWith (bare path).inner base ∧ Path.startsWith (bare path).inner trail then
    some { bare path with
      uriLen := (Path.skip (Path.components base).length (bare path).inner).length
      urnLen := (Path.skip (Path.components trail).length (bare path).inner).length
      uriBoundary := skip_boundary path base
      urnBoundary := skip_boundary path trail }
  else none

/-- The URI is not shorter than the URN. -/
def Ordered (loc : Loc) : Prop := Path.components loc.base <+: Path.components loc.trail

theorem components_new {path base trail : Bytes} {loc : Loc} (made : new path base trail = some loc) :
    loc.components = Path.components path ∧ Path.components loc.base = Path.components base ∧
      Path.components loc.trail = Path.components trail := by
  simp only [new] at made
  split at made <;> cases made
  next starts =>
  obtain ⟨lead, lead'⟩ := starts
  rw [Path.startsWith, List.isPrefixOf_iff_prefix] at lead lead'
  refine ⟨components_bare path, ?_, ?_⟩
  · exact (drop_boundary (n := (Path.components base).length) rfl).2.trans
      (List.prefix_iff_eq_take.mp lead).symm
  · exact (drop_boundary (n := (Path.components trail).length) rfl).2.trans
      (List.prefix_iff_eq_take.mp lead').symm

end Loc

/-! ### Authorities -/

namespace AuthOf

variable {L N : Type}

def child (auth : AuthOf L N) : AuthOf L N := .mk auth.kind auth.scheme [] (.some auth) .none

/-- `AuthArc::descend`. -/
def descend (auth : AuthOf L N) (components : List Path.Component) : AuthOf L N :=
  components.foldl
    (fun auth c =>
      match c with
      | .rootDir => .mk auth.kind auth.scheme [] .none .none
      | c => if c.hasAuth then auth.child else auth)
    auth

theorem descend_append (auth : AuthOf L N) (cs ds : List Path.Component) :
    auth.descend (cs ++ ds) = (auth.descend cs).descend ds :=
  List.foldl_append

theorem kind_descend (auth : AuthOf L N) (cs : List Path.Component) :
    (auth.descend cs).kind = auth.kind := by
  induction cs generalizing auth with
  | nil => rfl
  | cons c cs ih =>
    refine (ih _).trans ?_
    cases c <;> rfl

end AuthOf

/-! ### Urls -/

/-- `Url::try_join` on Unix, where no conversion fails: `none` where `expect` panics. -/
def Url.join (url : Url) (path : Bytes) : Option Url :=
  match url with
  | .os loc auth =>
    let joined := Path.push loc.inner path
    if auth.kind = .view ∧ Path.startsWith joined loc.trail then
      (Loc.new joined loc.base loc.trail).map (.os · auth)
    else if auth.kind = .mount ∧ Path.startsWith joined loc.base then
      (Loc.floated joined loc.base).map (.os · auth)
    else if auth.kind = .view ∨ auth.kind = .mount then some (.os (Loc.zeroed joined) auth)
    else if auth.kind = .hub then
      some (.os (Loc.bare joined) (auth.descend (Path.components path)))
    else some (.os (Loc.bare joined) auth)
  | .unix loc auth =>
    let joined := Path.push loc.inner path
    if auth.kind = .view ∧ Path.startsWith joined loc.trail then
      (Loc.new joined loc.base loc.trail).map (.unix · auth)
    else if auth.kind = .view then some (.unix (Loc.zeroed joined) auth)
    else some (.unix (Loc.bare joined) auth)

/-- The url below by so many components. -/
def UrlOf.extend {N : Type} (path : List Path.Component) :
    UrlOf (List Path.Component) N → UrlOf (List Path.Component) N
  | .os start auth => .os (start ++ path) (if auth.kind = .hub then auth.descend path else auth)
  | .unix start auth => .unix (start ++ path) auth

theorem UrlOf.extend_append {N : Type} (url : UrlOf (List Path.Component) N)
    (cs ds : List Path.Component) : url.extend (cs ++ ds) = (url.extend cs).extend ds := by
  cases url with
  | os start auth =>
    by_cases hub : auth.kind = .hub
    · have below : (auth.descend cs).kind = .hub := (auth.kind_descend cs).trans hub
      simp only [extend, if_pos hub, if_pos below, AuthOf.descend_append, List.append_assoc]
    · simp only [extend, if_neg hub, List.append_assoc]
  | unix start auth => simp only [extend, List.append_assoc]

namespace Url

/-- Where a view begins is not below where its entries begin. -/
def Ordered (url : Url) : Prop := url.kind = .view → url.loc.Ordered

private theorem map_descend {L M N O : Type} (f : L → M) (g : N → O) (auth : AuthOf L N)
    (cs : List Path.Component) : (auth.descend cs).map f g = (auth.map f g).descend cs := by
  induction cs generalizing auth with
  | nil => rfl
  | cons c cs ih =>
    refine (ih _).trans ?_
    cases auth
    cases c <;> rfl

private theorem kind_map {L M N O : Type} (f : L → M) (g : N → O) (auth : AuthOf L N) :
    (auth.map f g).kind = auth.kind := by
  cases auth
  rfl

private theorem ordered_zeroed (path : Bytes) : (Loc.zeroed path).Ordered := List.prefix_refl _

/-- The location of a view entry that was joined. -/
private theorem new_of_startsWith {loc : Loc} (ordered : loc.Ordered) {joined : Bytes}
    (starts : Path.startsWith joined loc.trail = true) :
    ∃ up, Loc.new joined loc.base loc.trail = some up ∧ up.Ordered ∧
      up.components = Path.components joined := by
  have trail : Path.components loc.trail <+: Path.components joined :=
    List.isPrefixOf_iff_prefix.mp starts
  have both : Path.startsWith (Loc.bare joined).inner loc.base ∧
      Path.startsWith (Loc.bare joined).inner loc.trail := by
    have same : Path.components (Loc.bare joined).inner = Path.components joined :=
      Loc.components_bare joined
    simp only [Path.startsWith, same, List.isPrefixOf_iff_prefix]
    exact ⟨ordered.trans trail, trail⟩
  have made : ∃ up, Loc.new joined loc.base loc.trail = some up := ⟨_, if_pos both⟩
  obtain ⟨up, made⟩ := made
  obtain ⟨whole, base, trail⟩ := Loc.components_new made
  refine ⟨up, made, ?_, whole⟩
  rw [Loc.Ordered, base, trail]
  exact ordered

/-- Joining with names works, and only adds them. -/
theorem join_spec {url : Url} (ordered : url.Ordered) {path : Bytes}
    (plain : Path.Plain (Path.components path)) :
    ∃ up, url.join path = some up ∧ up.Ordered ∧ up.shape = url.shape.extend (Path.components path) := by
  cases url with
  | os loc auth =>
    have joined : Path.components (Path.push loc.inner path) =
        loc.components ++ Path.components path := Path.components_push plain
    have stays : ∀ {up : Loc}, auth.kind ≠ .hub → up.components = loc.components ++ Path.components path →
        shape (.os up auth) = (shape (.os loc auth)).extend (Path.components path) := by
      intro up other same
      simp only [shape, UrlOf.map, UrlOf.extend, kind_map, if_neg other, same]
    simp only [join]
    split
    · next both =>
      obtain ⟨isView, starts⟩ := both
      have sorted : loc.Ordered := ordered isView
      obtain ⟨up, made, sorted, whole⟩ := new_of_startsWith sorted starts
      rw [made]
      exact ⟨.os up auth, rfl, fun _ => sorted, stays (by rw [isView]; decide) (whole.trans joined)⟩
    · split
      · next both =>
        obtain ⟨isMount, starts⟩ := both
        have floats : ∃ up, Loc.floated (Path.push loc.inner path) loc.base = some up := by
          refine ⟨_, if_pos ?_⟩
          rw [Loc.components_bare]
          exact starts
        obtain ⟨up, made⟩ := floats
        rw [made]
        refine ⟨.os up auth, rfl, fun isView => ?_, stays (by rw [isMount]; decide) ?_⟩
        · have kind : auth.kind = .view := isView
          rw [isMount] at kind
          cases kind
        · exact (Loc.components_floated made).trans joined
      · split
        · next kinds =>
          refine ⟨_, rfl, fun _ => ordered_zeroed _, stays ?_ ((Loc.components_zeroed _).trans joined)⟩
          rcases kinds with kind | kind <;> rw [kind] <;> decide
        · next others =>
          rw [not_or] at others
          split
          · next hub =>
            refine ⟨_, rfl, fun isView => ?_, ?_⟩
            · have kind : (auth.descend (Path.components path)).kind = .view := isView
              rw [AuthOf.kind_descend] at kind
              exact absurd kind others.1
            · simp only [shape, UrlOf.map, UrlOf.extend, kind_map, if_pos hub, map_descend,
                Loc.components_bare, joined]
          · next other =>
            exact ⟨_, rfl, fun isView => absurd isView others.1,
              stays other ((Loc.components_bare _).trans joined)⟩
  | unix loc auth =>
    have joined : Path.components (Path.push loc.inner path) =
        loc.components ++ Path.components path := Path.components_push plain
    have stays : ∀ {up : Loc}, up.components = loc.components ++ Path.components path →
        shape (.unix up auth) = (shape (.unix loc auth)).extend (Path.components path) := by
      intro up same
      simp only [shape, UrlOf.map, UrlOf.extend, same]
    simp only [join]
    split
    · next both =>
      obtain ⟨isView, starts⟩ := both
      have sorted : loc.Ordered := ordered isView
      obtain ⟨up, made, sorted, whole⟩ := new_of_startsWith sorted starts
      rw [made]
      exact ⟨.unix up auth, rfl, fun _ => sorted, stays (whole.trans joined)⟩
    · split
      · exact ⟨_, rfl, fun _ => ordered_zeroed _, stays ((Loc.components_zeroed _).trans joined)⟩
      · next other =>
        exact ⟨_, rfl, fun isView => absurd isView other,
          stays ((Loc.components_bare _).trans joined)⟩

end Url

end Yazi.Shared
