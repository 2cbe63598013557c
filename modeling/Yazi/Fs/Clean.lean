import Yazi.Shared.Header
import Yazi.Shared.Levels
import Yazi.Shared.Ports
import Yazi.Shared.Resolve

/-!
Cleaning a url.

Its path is resolved lexically. What is left keeps its place in the URI and the URN, and in a hub
its authority.
-/
namespace Yazi.Fs

open Yazi.Shared
open Yazi.Shared.Path (Component)
open Yazi.Shared.Url (Sturdy)

/-- A component with its position and, in a hub, its authority. -/
structure Piece (α : Type) where
  position : Nat
  component : Component
  auth : Option α
  deriving DecidableEq, Repr

/-- What the loop of `clean_path_impl` keeps. The next authority to be popped comes first. -/
structure Cleaning where
  auths : List Auth
  out : List (Piece Auth)
  uriCount : Nat
  urnCount : Nat

namespace Cleaning

section loop
variable (base trail : Nat)

/-- `push!`. -/
def push (s : Cleaning) (piece : Piece Auth) : Cleaning :=
  { s with
    out := s.out ++ [piece]
    uriCount := if base ≤ piece.position then s.uriCount + 1 else s.uriCount
    urnCount := if trail ≤ piece.position then s.urnCount + 1 else s.urnCount }

/-- `pop!`. -/
def pop (s : Cleaning) : Cleaning :=
  match s.out.getLast? with
  | none => s
  | some piece =>
    { s with
      out := s.out.dropLast
      uriCount := if base ≤ piece.position then s.uriCount - 1 else s.uriCount
      urnCount := if trail ≤ piece.position then s.urnCount - 1 else s.urnCount }

/-- The authority of a component and those that are left: `none` where `unwrap` panics. -/
def take (hub : Bool) (auths : List Auth) (c : Component) : Option (Option Auth × List Auth) :=
  if hub && c.hasAuth then
    match auths with
    | [] => none
    | auth :: rest => some (some auth, rest)
  else some (none, auths)

/-- The `match` of the loop. -/
def place (s : Cleaning) (piece : Piece Auth) : Cleaning :=
  match piece.component with
  | .curDir => s
  | .parentDir =>
    match s.out.getLast?.map Piece.component with
    | some .rootDir => s
    | some (.normal _) => s.pop base trail
    | none | some .curDir | some .parentDir => s.push base trail piece
  | .rootDir | .normal _ => s.push base trail piece

/-- The loop, from a position on. -/
def run (hub : Bool) : Nat → List Component → Cleaning → Option Cleaning
  | _, [], s => some s
  | i, c :: cs, s =>
    (take hub s.auths c).bind fun (auth, auths) =>
      run hub (i + 1) cs ({ s with auths }.place base trail ⟨i, c, auth⟩)

end loop

end Cleaning

/-- `clean_path_impl`. -/
def cleanPathImpl (path : PathDyn) (base trail : Nat) (auth : Option Auth) :
    Option (PathDyn × Nat × Nat × Option Auth) :=
  let auths := (auth.map AuthOf.levels).getD []
  let root := auths.getLast?
  let auths := auths.dropLast.reverse
  (Cleaning.run base trail root.isSome 0 path.components ⟨auths, [], 0, 0⟩).map fun s =>
    let bytes :=
      if s.out = [] then [Path.dot] else Path.fromComponents (s.out.map Piece.component)
    let auth := root.map fun root => (s.out.filterMap Piece.auth).foldl AuthOf.graft root
    (⟨path.kind, bytes⟩, s.uriCount, s.urnCount, auth)

/-- `clean_url`: `none` where `expect` or `unwrap` panics. -/
def cleanUrl (url : Url) : Option Url :=
  let depth := url.components.length
  let base := depth - url.uri.components.length
  let trail := depth - url.urn.components.length
  let hub := if url.kind = .hub then some url.auth else none
  (cleanPathImpl ⟨url.pathKind, url.loc.inner⟩ base trail hub).bind fun (path, uri, urn, auth) =>
    (Spec.toUrl ⟨auth.getD url.auth, uri, urn⟩ path).toOption

/-- The location of a path in a url of some kind. -/
def Located (kind : AuthKind) (bytes : Bytes) (uri urn : Nat) (loc : Loc) : Prop :=
  if kind = .regular then loc = Loc.bare bytes else Loc.withPorts bytes uri urn = .ok loc

/-- The conversion works where nothing is amiss. -/
theorem toUrl_eq {spec : Spec} {url : Url} {bytes : Bytes} {loc : Loc}
    (valid : spec.auth.validate = .ok ()) (paths : spec.auth.pathKind = .ok url.pathKind)
    (deep : spec.auth.kind = .hub → spec.auth.parentDepth = Path.authDepth bytes)
    (located : Located spec.auth.kind bytes spec.uri spec.urn loc) :
    Spec.toUrl spec ⟨url.pathKind, bytes⟩ = .ok (url.rebuild loc spec.auth) := by
  have checked : Spec.validateAuthPath spec.auth ⟨url.pathKind, bytes⟩ = .ok () := by
    have same : ensure (url.pathKind = url.pathKind) "URL path kind does not match Auth kind" =
        .ok () := if_pos rfl
    rw [Spec.validateAuthPath, valid, paths]
    change (ensure (url.pathKind = url.pathKind) _ >>= _) = _
    rw [same]
    change (if spec.auth.kind = .hub then _ else _) = _
    split
    · next hub => exact if_pos (deep hub)
    · rfl
  rw [Located] at located
  rw [Spec.toUrl, checked]
  by_cases regular : spec.auth.kind = .regular
  · rw [if_pos regular] at located
    subst located
    have isRegular : spec.auth.isRegular = true := decide_eq_true regular
    cases url with
    | os old auth =>
      simp only [Url.pathKind, isRegular]
      rfl
    | unix old auth =>
      -- A regular path is no path of this kind.
      have view : spec.auth.view = .none := by
        cases present : spec.auth.view with
        | none => rfl
        | some source data =>
          rw [AuthOf.validate, regular, present] at valid
          cases valid
      rw [AuthOf.pathKind, AuthOf.physical, view, regular] at paths
      cases paths
  · rw [if_neg regular] at located
    have irregular : spec.auth.isRegular = false := decide_eq_false regular
    cases url with
    | os old auth =>
      simp only [Url.pathKind, irregular, located]
      rfl
    | unix old auth =>
      simp only [Url.pathKind, located]
      rfl

/-! ### The loop -/

namespace Piece

variable {α β : Type}

def map (f : α → β) (piece : Piece α) : Piece β :=
  ⟨piece.position, piece.component, piece.auth.map f⟩

/-- The components from a position on, where a hub has an authority for each that takes one. -/
def dress (hub : Bool) : Nat → List Component → List α → List (Piece α)
  | _, [], _ => []
  | i, c :: cs, auths =>
    if hub && c.hasAuth then ⟨i, c, auths.head?⟩ :: dress hub (i + 1) cs auths.tail
    else ⟨i, c, none⟩ :: dress hub (i + 1) cs auths

theorem dress_cons (hub : Bool) (i : Nat) (c : Component) (cs : List Component) (auths : List α) :
    dress hub i (c :: cs) auths =
      if hub && c.hasAuth then ⟨i, c, auths.head?⟩ :: dress hub (i + 1) cs auths.tail
      else ⟨i, c, none⟩ :: dress hub (i + 1) cs auths :=
  rfl

@[simp] theorem component_dress (hub : Bool) (i : Nat) (cs : List Component) (auths : List α) :
    (dress hub i cs auths).map component = cs := by
  induction cs generalizing i auths with
  | nil => rfl
  | cons c cs ih =>
    simp only [dress_cons]
    split <;> rw [List.map_cons, ih]

/-- So many of the components stand at a position or behind it. -/
theorem countP_dress (hub : Bool) (i : Nat) (cs : List Component) (auths : List α) (n : Nat) :
    (dress hub i cs auths).countP (n ≤ ·.position) = cs.length - (n - i) := by
  induction cs generalizing i auths with
  | nil => exact (Nat.zero_sub _).symm
  | cons c cs ih =>
    have head (piece : Piece α) (rest : List (Piece α)) (at_i : piece.position = i)
        (tail : rest.countP (n ≤ ·.position) = cs.length - (n - (i + 1))) :
        (piece :: rest).countP (n ≤ ·.position) = (c :: cs).length - (n - i) := by
      rw [List.countP_cons, tail, at_i, List.length_cons]
      by_cases reached : n ≤ i
      · rw [if_pos (decide_eq_true reached)]
        omega
      · rw [if_neg (by simpa using reached)]
        omega
    simp only [dress_cons]
    split
    · exact head _ _ rfl (ih _ _)
    · exact head _ _ rfl (ih _ _)

/-- In a hub every component that takes an authority has one. -/
theorem auth_dress {i : Nat} {cs : List Component} {auths : List α}
    (enough : cs.countP (·.hasAuth) ≤ auths.length) :
    ∀ piece ∈ dress true i cs auths, piece.auth.isSome = piece.component.hasAuth := by
  induction cs generalizing i auths with
  | nil => exact fun _ member => absurd member List.not_mem_nil
  | cons c cs ih =>
    rw [List.countP_cons] at enough
    intro piece member
    by_cases takes : c.hasAuth = true
    · rw [dress_cons, if_pos (by simpa using takes)] at member
      rw [if_pos takes] at enough
      cases auths with
      | nil => simp at enough
      | cons auth auths =>
        rw [List.length_cons] at enough
        rcases List.mem_cons.mp member with rfl | rest
        · exact takes.symm
        · exact ih (Nat.le_of_succ_le_succ enough) piece rest
    · rw [dress_cons, if_neg (by simpa using takes)] at member
      rw [if_neg takes] at enough
      rcases List.mem_cons.mp member with rfl | rest
      · exact (Bool.eq_false_iff.mpr takes).symm
      · exact ih enough piece rest

/-- Together they have all the authorities. -/
theorem filterMap_dress {i : Nat} {cs : List Component} {auths : List α}
    (enough : cs.countP (·.hasAuth) = auths.length) :
    (dress true i cs auths).filterMap auth = auths := by
  induction cs generalizing i auths with
  | nil => exact (List.eq_nil_of_length_eq_zero enough.symm).symm
  | cons c cs ih =>
    rw [List.countP_cons] at enough
    by_cases takes : c.hasAuth = true
    · rw [if_pos takes] at enough
      cases auths with
      | nil => simp at enough
      | cons auth auths =>
        rw [List.length_cons] at enough
        rw [dress_cons, if_pos (by simpa using takes), List.head?_cons, List.tail_cons]
        exact congrArg (auth :: ·) (ih (Nat.succ.inj enough))
    · rw [if_neg takes] at enough
      rw [dress_cons, if_neg (by simpa using takes), List.filterMap_cons_none rfl, ih enough]

theorem mem_of_mem_dress {hub : Bool} {i : Nat} {cs : List Component} {auths : List α}
    {piece : Piece α} (member : piece ∈ dress hub i cs auths) {a : α} (has : piece.auth = some a) :
    a ∈ auths := by
  induction cs generalizing i auths with
  | nil => cases member
  | cons c cs ih =>
    rw [dress_cons] at member
    split at member
    · rcases List.mem_cons.mp member with rfl | rest
      · exact List.mem_of_mem_head? has
      · exact List.mem_of_mem_tail (ih rest)
    · rcases List.mem_cons.mp member with rfl | rest
      · cases has
      · exact ih rest

/-- Where each component that takes one has an authority, there are as many. -/
theorem length_filterMap_auth {pieces : List (Piece α)}
    (whole : ∀ piece ∈ pieces, piece.auth.isSome = piece.component.hasAuth) :
    (pieces.filterMap auth).length = (pieces.map component).countP (·.hasAuth) := by
  induction pieces with
  | nil => rfl
  | cons piece pieces ih =>
    have rest := ih fun other member => whole other (List.mem_cons_of_mem _ member)
    have head := whole piece List.mem_cons_self
    rw [List.map_cons, List.countP_cons, ← rest, ← head]
    cases has : piece.auth with
    | none => rw [List.filterMap_cons_none has]; rfl
    | some a => rw [List.filterMap_cons_some has]; rfl

theorem position_root {hub : Bool} {i : Nat} {cs : List Component} {auths : List α}
    (rootless : .rootDir ∉ cs.tail) {piece : Piece α} (member : piece ∈ dress hub i cs auths)
    (root : piece.component = .rootDir) : piece.position = i ∧ cs.head? = some .rootDir := by
  cases cs with
  | nil => cases member
  | cons c cs =>
    have later {j : Nat} {others : List α} (member : piece ∈ dress hub j cs others) : False := by
      apply rootless
      rw [List.tail_cons, ← component_dress hub j cs others, ← root]
      exact List.mem_map_of_mem member
    rw [dress_cons] at member
    split at member
    · rcases List.mem_cons.mp member with rfl | rest
      · exact ⟨rfl, congrArg some root⟩
      · exact (later rest).elim
    · rcases List.mem_cons.mp member with rfl | rest
      · exact ⟨rfl, congrArg some root⟩
      · exact (later rest).elim

/-- The authorities of the components come back when these are all that is left. -/
theorem dress_component {β γ : Type} (f : α → γ) (g : β → γ) {pieces : List (Piece β)}
    (whole : ∀ piece ∈ pieces, piece.auth.isSome = piece.component.hasAuth) (i : Nat)
    {auths : List α} (same : auths.map f = (pieces.filterMap auth).map g) :
    (dress true i (pieces.map component) auths).map (fun piece => (piece.component, piece.auth.map f)) =
      pieces.map fun piece => (piece.component, piece.auth.map g) := by
  induction pieces generalizing i auths with
  | nil => rfl
  | cons piece pieces ih =>
    have others : ∀ other ∈ pieces, other.auth.isSome = other.component.hasAuth :=
      fun other member => whole other (List.mem_cons_of_mem _ member)
    have rest {auths : List α} := @ih others (i + 1) auths
    have head := whole piece List.mem_cons_self
    rw [List.map_cons, List.map_cons, dress_cons, Bool.true_and, ← head]
    cases has : piece.auth with
    | none =>
      rw [List.filterMap_cons_none has] at same
      rw [if_neg (by simp), List.map_cons, rest same]
      rfl
    | some b =>
      rw [List.filterMap_cons_some has, List.map_cons] at same
      cases auths with
      | nil => cases same
      | cons a auths =>
        obtain ⟨first, later⟩ := List.cons.inj same
        rw [Option.isSome_some, if_pos rfl, List.map_cons, List.tail_cons, rest later, List.head?_cons,
          Option.map_some, first]
        rfl

theorem dress_plain (i : Nat) (cs : List Component) (auths : List α) :
    dress false i cs auths = dress false i cs [] := by
  induction cs generalizing i with
  | nil => rfl
  | cons c cs ih => exact congrArg (⟨i, c, none⟩ :: ·) (ih (i + 1))

end Piece

namespace Cleaning

variable {base trail : Nat}

/-- The counters say how many kept components stand in the URI and in the URN. -/
def Counted (base trail : Nat) (s : Cleaning) : Prop :=
  s.uriCount = s.out.countP (base ≤ ·.position) ∧ s.urnCount = s.out.countP (trail ≤ ·.position)

@[simp] theorem auths_place (s : Cleaning) (piece : Piece Auth) :
    (s.place base trail piece).auths = s.auths := by
  simp only [place, push, pop]
  split
  · rfl
  · split
    · rfl
    · split <;> rfl
    · rfl
    · rfl
    · rfl
  · rfl
  · rfl

/-- The loop resolves the path. -/
theorem out_place (s : Cleaning) (piece : Piece Auth)
    (starts : piece.component = .rootDir → s.out = []) :
    (s.place base trail piece).out = Path.turn Piece.component s.out piece := by
  simp only [place, Path.turn]
  cases read : piece.component with
  | curDir => rfl
  | rootDir => rw [push, starts read, List.nil_append]
  | normal name => rfl
  | parentDir =>
    dsimp only
    cases ends : s.out.getLast? with
    | none => rfl
    | some last =>
      rw [Option.map_some]
      cases last.component with
      | normal name => simp only [pop, ends]
      | rootDir | curDir | parentDir => rfl

private theorem counted_push {s : Cleaning} (counted : s.Counted base trail) (piece : Piece Auth) :
    (s.push base trail piece).Counted base trail := by
  obtain ⟨uri, urn⟩ := counted
  constructor
  · rw [push, uri, List.countP_append, List.countP_singleton]
    by_cases within : base ≤ piece.position <;> simp [within]
  · rw [push, urn, List.countP_append, List.countP_singleton]
    by_cases within : trail ≤ piece.position <;> simp [within]

private theorem counted_pop {s : Cleaning} (counted : s.Counted base trail) :
    (s.pop base trail).Counted base trail := by
  obtain ⟨uri, urn⟩ := counted
  rcases List.eq_nil_or_concat s.out with none | ⟨lead, piece, whole⟩
  · rw [pop, none]
    exact ⟨uri, urn⟩
  · rw [List.concat_eq_append] at whole
    have last : s.out.getLast? = some piece := by rw [whole, List.getLast?_concat]
    rw [whole, List.countP_append, List.countP_singleton] at uri urn
    rw [pop, last]
    constructor
    · dsimp only
      rw [uri, whole, List.dropLast_concat]
      by_cases within : base ≤ piece.position <;> simp [within]
    · dsimp only
      rw [urn, whole, List.dropLast_concat]
      by_cases within : trail ≤ piece.position <;> simp [within]

theorem counted_place {s : Cleaning} (counted : s.Counted base trail) (piece : Piece Auth) :
    (s.place base trail piece).Counted base trail := by
  simp only [place]
  cases piece.component with
  | curDir => exact counted
  | rootDir => exact counted_push counted piece
  | normal name => exact counted_push counted piece
  | parentDir =>
    dsimp only
    cases s.out.getLast?.map Piece.component with
    | none => exact counted_push counted piece
    | some last =>
      cases last with
      | rootDir => exact counted
      | normal name => exact counted_pop counted
      | curDir | parentDir => exact counted_push counted piece

private theorem take_some {hub : Bool} {c : Component} (takes : (hub && c.hasAuth) = true)
    (auth : Auth) (others : List Auth) : take hub (auth :: others) c = some (some auth, others) :=
  if_pos takes

private theorem take_none {hub : Bool} {c : Component} (takes : ¬(hub && c.hasAuth) = true)
    (auths : List Auth) : take hub auths c = some (none, auths) :=
  if_neg takes

/-- Nothing fails in the loop where no authority is missing. -/
theorem run_eq (hub : Bool) (i : Nat) (cs : List Component) (s : Cleaning)
    (starts : .rootDir ∉ cs ∨ s.out = [] ∧ .rootDir ∉ cs.tail)
    (enough : hub = true → cs.countP (·.hasAuth) ≤ s.auths.length)
    (counted : s.Counted base trail) :
    ∃ t, run base trail hub i cs s = some t ∧ t.Counted base trail ∧
      t.out = (Piece.dress hub i cs s.auths).foldl (Path.turn Piece.component) s.out := by
  induction cs generalizing i s with
  | nil => exact ⟨s, rfl, counted, rfl⟩
  | cons c cs ih =>
    have rest : .rootDir ∉ cs := by
      rcases starts with none | ⟨-, none⟩
      · exact fun member => none (List.mem_cons_of_mem _ member)
      · exact none
    have lead (auth : Option Auth) (auths : List Auth) : (⟨i, c, auth⟩ : Piece Auth).component =
        .rootDir → ({ s with auths } : Cleaning).out = [] := by
      rintro rfl
      rcases starts with none | ⟨empty, -⟩
      · exact absurd List.mem_cons_self none
      · exact empty
    have turned (auth : Option Auth) (auths : List Auth)
        (enough : hub = true → cs.countP (·.hasAuth) ≤ auths.length) :
        ∃ t, run base trail hub (i + 1) cs ({ s with auths }.place base trail ⟨i, c, auth⟩) = some t ∧
          t.Counted base trail ∧ t.out = (Piece.dress hub (i + 1) cs auths).foldl
            (Path.turn Piece.component) (Path.turn Piece.component s.out ⟨i, c, auth⟩) := by
      have same : Counted base trail { s with auths } := counted
      obtain ⟨t, ran, counted', out⟩ := ih (i + 1) ({ s with auths }.place base trail ⟨i, c, auth⟩)
        (.inl rest) (by rwa [auths_place]) (counted_place same _)
      rw [out_place _ _ (lead auth auths), auths_place] at out
      exact ⟨t, ran, counted', out⟩
    rw [List.countP_cons] at enough
    by_cases takes : (hub && c.hasAuth) = true
    · obtain ⟨isHub, has⟩ := Bool.and_eq_true_iff.mp takes
      rw [if_pos has] at enough
      cases auths : s.auths with
      | nil =>
        have none := enough isHub
        rw [auths] at none
        cases none
      | cons auth others =>
        rw [auths] at enough
        rw [run, auths, take_some takes, Piece.dress_cons, if_pos takes, List.head?_cons,
          List.tail_cons, Option.bind_some, List.foldl_cons]
        exact turned (some auth) others fun isHub => Nat.le_of_succ_le_succ (enough isHub)
    · rw [run, take_none takes, Piece.dress_cons, if_neg takes, Option.bind_some, List.foldl_cons]
      refine turned none s.auths fun isHub => ?_
      have enough' := enough isHub
      omega

end Cleaning

/-! ### Urls -/

/-- The components of a url with their authorities. -/
def pieces (url : Url) : List (Piece Auth) :=
  Piece.dress (url.kind = .hub) 0 url.components url.auth.levels.reverse.tail

/-- The components that survive. -/
def kept (url : Url) : List (Piece Auth) := Path.resolve Piece.component (pieces url)

/-- Where the URI begins. -/
def uriStart (url : Url) : Nat := url.components.length - url.uri.components.length

def urnStart (url : Url) : Nat := url.components.length - url.urn.components.length

/-- The text of the cleaned path. -/
def cleanedPath (url : Url) : Bytes :=
  if kept url = [] then [Path.dot] else Path.fromComponents ((kept url).map Piece.component)

def cleanedAuth (url : Url) : Auth :=
  if url.kind = .hub then
    ((kept url).filterMap Piece.auth).foldl AuthOf.graft (url.auth.levels.getLast?.getD url.auth)
  else url.auth

/-- What is handed on to the conversion. -/
def cleanedSpec (url : Url) : Spec :=
  ⟨cleanedAuth url, (kept url).countP (uriStart url ≤ ·.position),
    (kept url).countP (urnStart url ≤ ·.position)⟩

section sturdy
variable {url : Url}

private theorem split_levels (auth : Auth) :
    ∃ root inner, auth.levels.reverse = root :: inner ∧ auth.levels.getLast? = some root ∧
      auth.levels.dropLast.reverse = inner ∧ root.levels = [root] ∧
      inner.foldl AuthOf.graft root = auth ∧ inner.length = auth.parentDepth := by
  obtain ⟨root, inner, split, single, grown⟩ := auth.levels_eq
  have whole : auth.levels = inner.reverse ++ [root] := by
    rw [← List.reverse_reverse auth.levels, split, List.reverse_cons]
  have count := auth.length_levels
  rw [whole, List.length_append, List.length_reverse, List.length_singleton] at count
  refine ⟨root, inner, split, ?_, ?_, single, grown, Nat.succ.inj count⟩
  · rw [whole, List.getLast?_concat]
  · rw [whole, List.dropLast_concat, List.reverse_reverse]

/-- Nothing fails before the conversion. -/
theorem cleanUrl_eq (sturdy : Sturdy url) :
    cleanUrl url = (Spec.toUrl (cleanedSpec url) ⟨url.pathKind, cleanedPath url⟩).toOption := by
  have rootless := Path.rootDir_not_mem_tail url.loc.inner
  by_cases hub : url.kind = .hub
  · obtain ⟨root, inner, split, last, rest, -, -, count⟩ := split_levels url.auth
    have enough : url.components.countP (·.hasAuth) ≤ inner.length := by
      rw [count, sturdy.deep hub]
      exact Nat.le_refl _
    obtain ⟨t, ran, ⟨uri, urn⟩, out⟩ := Cleaning.run_eq true 0 url.components ⟨inner, [], 0, 0⟩
      (.inr ⟨rfl, rootless⟩) (fun _ => enough)
      (show Cleaning.Counted (uriStart url) (urnStart url) _ from ⟨rfl, rfl⟩)
    have out' : t.out = kept url := by
      rw [out, kept, pieces, hub, split]
      rfl
    have impl : cleanPathImpl ⟨url.pathKind, url.loc.inner⟩ (uriStart url) (urnStart url)
        (some url.auth) = some (⟨url.pathKind, cleanedPath url⟩, (cleanedSpec url).uri,
          (cleanedSpec url).urn, some (cleanedAuth url)) := by
      have ran' : Cleaning.run (uriStart url) (urnStart url) true 0 (Path.components url.loc.inner)
        ⟨inner, [], 0, 0⟩ = some t := ran
      simp only [cleanPathImpl, Option.map_some, Option.getD_some, last, rest, PathDyn.components,
        Option.isSome_some, ran', uri, urn, out', cleanedPath, cleanedSpec, cleanedAuth, if_pos hub]
    rw [cleanUrl, if_pos hub]
    change ((cleanPathImpl _ (uriStart url) (urnStart url) _).bind _) = _
    rw [impl]
    rfl
  · obtain ⟨t, ran, ⟨uri, urn⟩, out⟩ := Cleaning.run_eq false 0 url.components ⟨[], [], 0, 0⟩
      (.inr ⟨rfl, rootless⟩) (fun hub => by cases hub)
      (show Cleaning.Counted (uriStart url) (urnStart url) _ from ⟨rfl, rfl⟩)
    have out' : t.out = kept url := by
      rw [out, kept, pieces, decide_eq_false hub,
        Piece.dress_plain _ _ url.auth.levels.reverse.tail]
      rfl
    have impl : cleanPathImpl ⟨url.pathKind, url.loc.inner⟩ (uriStart url) (urnStart url) none =
        some (⟨url.pathKind, cleanedPath url⟩, (cleanedSpec url).uri, (cleanedSpec url).urn,
          none) := by
      have ran' : Cleaning.run (uriStart url) (urnStart url) false 0 (Path.components url.loc.inner)
        ⟨[], [], 0, 0⟩ = some t := ran
      simp only [cleanPathImpl, Option.map_none, Option.getD_none, List.getLast?_nil,
        List.dropLast_nil, List.reverse_nil, PathDyn.components, Option.isSome_none, ran', uri, urn,
        out', cleanedPath, cleanedSpec, Option.map_some]
    have auth : (cleanedSpec url).auth = url.auth := if_neg hub
    rw [cleanUrl, if_neg hub]
    change ((cleanPathImpl _ (uriStart url) (urnStart url) _).bind _) = _
    rw [impl, Option.bind_some]
    dsimp only [Option.getD_none]
    rw [← auth]

@[simp] theorem component_pieces (url : Url) : (pieces url).map Piece.component = url.components :=
  Piece.component_dress ..

theorem tidy_kept (url : Url) : Path.Tidy ((kept url).map Piece.component) :=
  Path.tidy_resolve (pieces url)

/-- Some path has the components that survive. -/
theorem proper_kept (url : Url) : Path.Proper ((kept url).map Piece.component) := by
  have among : ∀ c ∈ (kept url).map Piece.component, c ∈ url.components := by
    intro c member
    obtain ⟨piece, survives, rfl⟩ := List.mem_map.mp member
    rw [← component_pieces]
    exact List.mem_map_of_mem (Path.mem_resolve survives)
  have proper (c : Component) (member : c ∈ url.components) (name : c ≠ .rootDir)
      (other : c ≠ .curDir) : c.Inner := by
    have all := Path.proper_components url.loc.inner
    cases whole : url.components with
    | nil =>
      rw [whole] at member
      cases member
    | cons d ds =>
      rw [show Path.components url.loc.inner = d :: ds from whole] at all
      rw [whole] at member
      rcases List.mem_cons.mp member with rfl | rest
      · rcases all.1 with rfl | rfl | inner
        · exact absurd rfl name
        · exact absurd rfl other
        · exact inner
      · exact all.2 c rest
  obtain ⟨lead, names, whole, plain, starts⟩ := tidy_kept url
  rw [whole] at among ⊢
  have named : ∀ c ∈ names, c.Inner := by
    intro c member
    obtain ⟨s, rfl⟩ := plain c member
    exact proper _ (among _ (List.mem_append_right _ member)) nofun nofun
  rcases starts with rfl | ups
  · exact ⟨.inl rfl, named⟩
  · apply Path.proper_of_inner
    intro c member
    rcases List.mem_append.mp member with up | name
    · rw [ups c up]
      exact Component.inner_parentDir
    · exact named c name

theorem components_cleanedPath (url : Url) : Path.components (cleanedPath url) =
    if kept url = [] then [.curDir] else (kept url).map Piece.component := by
  rw [cleanedPath]
  split
  · decide
  · exact Path.components_fromComponents (proper_kept url)

/-- The ports of the surviving components fit the cleaned path. -/
theorem fits_cleaned (sturdy : Sturdy url) (other : url.kind ≠ .regular) :
    Loc.Fits (Path.components (cleanedPath url)) (cleanedSpec url).uri (cleanedSpec url).urn := by
  have fits := (sturdy.ported other).fits
  have later : uriStart url ≤ urnStart url := Nat.sub_le_sub_left fits.order _
  have order : (cleanedSpec url).urn ≤ (cleanedSpec url).uri := by
    apply List.countP_mono_left
    intro piece _ within
    exact decide_eq_true (Nat.le_trans later (of_decide_eq_true within))
  rw [components_cleanedPath]
  split
  · next none =>
    have zero (p : Piece Auth → Bool) : (kept url).countP p = 0 := by rw [none, List.countP_nil]
    rw [cleanedSpec, zero, zero]
    exact ⟨Nat.le_refl _, Nat.zero_le _, nofun⟩
  · refine ⟨order, ?_, fun long starts => ?_⟩
    · rw [List.length_map]
      exact List.countP_le_length
    · -- The root would have to stand in the URN.
      rw [List.length_map] at long
      have all := List.countP_eq_length.mp long
      cases whole : kept url with
      | nil =>
        rw [whole] at starts
        cases starts
      | cons piece rest =>
        rw [whole, List.map_cons, List.head?_cons] at starts
        have survives : piece ∈ kept url := by rw [whole]; exact List.mem_cons_self
        obtain ⟨first, root⟩ := Piece.position_root (Path.rootDir_not_mem_tail url.loc.inner)
          (Path.mem_resolve survives) (Option.some.inj starts)
        have within : urnStart url ≤ piece.position := of_decide_eq_true (all piece survives)
        rw [first, urnStart] at within
        refine fits.rootless ?_ root
        have few := Nat.le_trans fits.order fits.room
        change url.components.length - (Path.components url.loc.urn).length ≤ 0 at within
        change (Path.components url.loc.urn).length ≤ url.components.length at few
        change (Path.components url.loc.urn).length = url.components.length
        omega

/-- The levels of the cleaned hub are those of the surviving components. -/
theorem levels_cleanedAuth (hub : url.kind = .hub) :
    ∃ root inner grown, url.auth.levels.reverse = root :: inner ∧
      (cleanedAuth url).levels.reverse = root :: grown ∧
      (∀ up ∈ grown, ∃ auth ∈ (kept url).filterMap Piece.auth, ∃ parent,
        up = AuthOf.graft parent auth) ∧
      grown.map AuthOf.domain = ((kept url).filterMap Piece.auth).map AuthOf.domain := by
  obtain ⟨root, inner, split, last, -, single, -, -⟩ := split_levels url.auth
  obtain ⟨grown, levels, grafted, same⟩ := AuthOf.levels_foldl_graft root ((kept url).filterMap Piece.auth)
  refine ⟨root, inner, grown, split, ?_, grafted, same⟩
  rw [cleanedAuth, if_pos hub, last, Option.getD_some, levels, single]
  rfl

/-- In a hub every surviving component that takes an authority has one. -/
theorem auth_kept (sturdy : Sturdy url) (hub : url.kind = .hub) :
    ∀ piece ∈ kept url, piece.auth.isSome = piece.component.hasAuth := by
  obtain ⟨root, inner, split, -, -, -, -, count⟩ := split_levels url.auth
  have enough : url.components.countP (·.hasAuth) ≤ inner.length := by
    rw [count, sturdy.deep hub]
    exact Nat.le_refl _
  intro piece survives
  have member := Path.mem_resolve survives
  rw [pieces, hub, split] at member
  exact Piece.auth_dress enough piece member

private theorem depth_cleanedAuth (sturdy : Sturdy url) (hub : url.kind = .hub) :
    (cleanedAuth url).parentDepth = Path.authDepth (cleanedPath url) := by
  obtain ⟨root, inner, -, last, -, single, -, -⟩ := split_levels url.auth
  have none : root.parentDepth = 0 := by
    have count := root.length_levels
    rw [single] at count
    exact (Nat.succ.inj count).symm
  have depth : Path.authDepth (cleanedPath url) =
      ((kept url).map Piece.component).countP (·.hasAuth) := by
    rw [Path.authDepth, components_cleanedPath]
    split
    · next empty =>
      rw [empty]
      rfl
    · rfl
  rw [cleanedAuth, if_pos hub, last, Option.getD_some, AuthOf.parentDepth_foldl_graft, none,
    Nat.zero_add, depth, Piece.length_filterMap_auth (auth_kept sturdy hub)]

/-- The cleaned authority is as sturdy as the one before. -/
theorem sturdy_cleanedAuth (sturdy : Sturdy url) :
    (cleanedAuth url).kind = url.kind ∧ (cleanedAuth url).validate = .ok () ∧
      (cleanedAuth url).pathKind = .ok url.pathKind ∧
      (url.kind = .hub → (cleanedAuth url).parentDepth = Path.authDepth (cleanedPath url) ∧
        ∀ level ∈ (cleanedAuth url).levels, level.kind = .hub ∧ level.view = .none) := by
  by_cases hub : url.kind = .hub
  · obtain ⟨root, inner, grown, split, levels, grafted, -⟩ := levels_cleanedAuth hub
    have among : ∀ auth ∈ root :: inner, auth.kind = .hub ∧ auth.view = .none := by
      intro auth member
      exact sturdy.levels hub auth (List.mem_reverse.mp (split ▸ member))
    have each : ∀ level ∈ (cleanedAuth url).levels, level.kind = .hub ∧ level.view = .none := by
      intro level member
      rw [← List.mem_reverse, levels] at member
      rcases List.mem_cons.mp member with rfl | up
      · exact among _ List.mem_cons_self
      · obtain ⟨auth, survives, parent, rfl⟩ := grafted level up
        obtain ⟨piece, kept, has⟩ := List.mem_filterMap.mp survives
        have member' := Piece.mem_of_mem_dress (Path.mem_resolve kept) has
        rw [split] at member'
        obtain ⟨isHub, none⟩ := among auth (List.mem_cons_of_mem _ member')
        obtain ⟨kind, view, -⟩ := AuthOf.kind_graft parent auth
        exact ⟨kind.trans isHub, view.trans none⟩
    obtain ⟨kind, view⟩ := each _ (cleanedAuth url).self_mem_levels
    obtain ⟨-, view'⟩ := sturdy.levels hub _ url.auth.self_mem_levels
    have paths := sturdy.paths
    rw [AuthOf.pathKind, AuthOf.physical, view', show url.auth.kind = .hub from hub] at paths
    refine ⟨kind.trans hub.symm, ?_, ?_, fun _ => ⟨depth_cleanedAuth sturdy hub, each⟩⟩
    · rw [AuthOf.validate, kind, view]
    · rw [AuthOf.pathKind, AuthOf.physical, view, kind]
      exact paths
  · rw [cleanedAuth, if_neg hub]
    exact ⟨rfl, sturdy.valid, sturdy.paths, fun isHub => absurd isHub hub⟩

/-- Cleaning works, and this is what it gives. -/
theorem cleanUrl_of_sturdy (sturdy : Sturdy url) :
    ∃ loc, cleanUrl url = some (url.rebuild loc (cleanedAuth url)) ∧
      Located url.kind (cleanedPath url) (cleanedSpec url).uri (cleanedSpec url).urn loc := by
  obtain ⟨kind, valid, paths, deep⟩ := sturdy_cleanedAuth sturdy
  have located : ∃ loc, Located url.kind (cleanedPath url) (cleanedSpec url).uri
      (cleanedSpec url).urn loc := by
    by_cases regular : url.kind = .regular
    · exact ⟨_, by rw [Located, if_pos regular]⟩
    · obtain ⟨loc, made⟩ := Loc.withPorts_iff.mpr (fits_cleaned sturdy regular)
      exact ⟨loc, by rw [Located, if_neg regular]; exact made⟩
  obtain ⟨loc, located⟩ := located
  refine ⟨loc, ?_, located⟩
  have converts : Spec.toUrl (cleanedSpec url) ⟨url.pathKind, cleanedPath url⟩ =
      .ok (url.rebuild loc (cleanedAuth url)) :=
    toUrl_eq valid paths (fun hub => (deep (kind ▸ hub)).1) (by rwa [← kind] at located)
  rw [cleanUrl_eq sturdy, converts]
  rfl

private theorem components_of_located {kind : AuthKind} {bytes : Bytes} {uri urn : Nat} {loc : Loc}
    (located : Located kind bytes uri urn loc) : loc.components = Path.components bytes := by
  rw [Located] at located
  split at located
  · rw [located, Loc.components_bare]
  · rw [Loc.components, Loc.inner_withPorts located, Path.components_trim]

section cleaned
variable {clean : Url}

/-- All that a cleaned url has survives. -/
private theorem kept_clean (same : clean.components = Path.components (cleanedPath url)) :
    kept clean = if kept url = [] then [] else pieces clean := by
  rw [components_cleanedPath] at same
  split
  · next none =>
    rw [if_pos none] at same
    rw [kept, pieces, same, Piece.dress_cons, Component.hasAuth, Bool.and_false]
    rfl
  · next some =>
    rw [if_neg some] at same
    refine Path.resolve_tidy ?_
    rw [component_pieces, same]
    exact tidy_kept url

private theorem cleanedPath_clean (same : clean.components = Path.components (cleanedPath url)) :
    cleanedPath clean = cleanedPath url := by
  have whole := kept_clean same
  rw [components_cleanedPath] at same
  by_cases none : kept url = []
  · rw [if_pos none] at whole
    rw [cleanedPath, if_pos whole, cleanedPath, if_pos none]
  · rw [if_neg none] at whole same
    have some : kept clean ≠ [] := by
      intro empty
      have survives : (pieces clean).map Piece.component = (kept url).map Piece.component := by
        rw [component_pieces, same]
      rw [← whole, empty] at survives
      exact none (List.map_eq_nil_iff.mp survives.symm)
    rw [cleanedPath, if_neg some, whole, component_pieces, same, cleanedPath, if_neg none]

/-- Its ports are the same again. -/
private theorem ports_clean (same : clean.components = Path.components (cleanedPath url))
    {uri : Nat} (room : uri ≤ clean.components.length) (none : kept url = [] → uri = 0) :
    (kept clean).countP (clean.components.length - uri ≤ ·.position) = uri := by
  rw [kept_clean same]
  split
  · next empty => rw [none empty, List.countP_nil]
  · rw [pieces, Piece.countP_dress]
    omega

private theorem cleanedAuth_clean (kind : clean.kind = url.kind)
    (auth : clean.auth = cleanedAuth url) (sturdy : Sturdy clean)
    (same : clean.components = Path.components (cleanedPath url)) :
    cleanedAuth clean = cleanedAuth url := by
  by_cases hub : url.kind = .hub
  · have isHub : clean.kind = .hub := kind.trans hub
    obtain ⟨root, inner, split, last, -, -, grown, count⟩ := split_levels clean.auth
    have enough : clean.components.countP (·.hasAuth) = inner.length := by
      rw [count, sturdy.deep isHub]
      rfl
    rw [cleanedAuth, if_pos isHub, last, Option.getD_some, ← auth]
    refine Eq.trans ?_ grown
    congr 1
    rw [kept_clean same]
    split
    · next empty =>
      -- Then the path is `.`, and no level is left but the outermost.
      rw [components_cleanedPath, if_pos empty] at same
      rw [same] at enough
      exact (List.eq_nil_of_length_eq_zero enough.symm).symm
    · rw [pieces, isHub, split]
      exact Piece.filterMap_dress enough
  · rw [cleanedAuth, if_neg (by rwa [kind]), auth]

end cleaned

end sturdy

/-- What a cleaned url is. -/
structure Cleaned (url clean : Url) : Prop where
  /-- Cleaning it again changes nothing. -/
  again : cleanUrl clean = some clean
  /-- The survivors are the root and names, or a run of `..` and names. -/
  tidy : Path.Tidy ((kept url).map Piece.component)
  /-- The path is what survives, and `.` where nothing does. -/
  path : clean.components =
    if kept url = [] then [.curDir] else (kept url).map Piece.component
  kind : clean.kind = url.kind ∧ clean.pathKind = url.pathKind
  /-- Only a hub has other authorities than before. -/
  auth : url.kind ≠ .hub → clean.auth = url.auth
  /-- In a hub each survivor keeps its domain. -/
  domains : url.kind = .hub → kept url ≠ [] →
    (pieces clean).map (fun piece => (piece.component, piece.auth.map AuthOf.domain)) =
      (kept url).map fun piece => (piece.component, piece.auth.map AuthOf.domain)
  outermost : url.kind = .hub → clean.auth.levels.getLast? = url.auth.levels.getLast?
  /-- The ports count the survivors of the URI and of the URN. -/
  ports : url.kind ≠ .regular →
    clean.uri.components.length = (kept url).countP (uriStart url ≤ ·.position) ∧
      clean.urn.components.length = (kept url).countP (urnStart url ≤ ·.position)
  /-- A regular url has the ports of its path. -/
  regular : url.kind = .regular → clean.loc = Loc.bare clean.loc.inner

theorem cleanUrl_cleaned {inventory : Inventory} (url : Url) (sound : url.WellFormed inventory) :
    ∃ clean, cleanUrl url = some clean ∧ Cleaned url clean := by
  have sturdy := Url.sturdy_of_wellFormed sound
  obtain ⟨loc, cleans, located⟩ := cleanUrl_of_sturdy sturdy
  obtain ⟨kind, valid, paths, deep⟩ := sturdy_cleanedAuth sturdy
  obtain ⟨clean, rebuilt⟩ : ∃ clean, url.rebuild loc (cleanedAuth url) = clean := ⟨_, rfl⟩
  have isLoc : clean.loc = loc := by rw [← rebuilt]; cases url <;> rfl
  have isAuth : clean.auth = cleanedAuth url := by rw [← rebuilt]; cases url <;> rfl
  have isPath : clean.pathKind = url.pathKind := by rw [← rebuilt]; cases url <;> rfl
  have isKind : clean.kind = url.kind := by rw [Url.kind, isAuth, kind]
  have same : clean.components = Path.components (cleanedPath url) := by
    rw [Url.components, isLoc, components_of_located located]
  have sturdy' : Sturdy clean := by
    refine ⟨isAuth ▸ valid, ?_, fun other => ?_, fun hub => ?_, fun hub => ?_⟩
    · rw [isAuth, isPath, paths]
    · rw [isKind] at other
      rw [Located, if_neg other] at located
      rw [isLoc]
      exact Loc.admitted_of_withPorts located
    · rw [isAuth, (deep (isKind ▸ hub)).1, Path.authDepth, Path.authDepth, ← same]
      rfl
    · rw [isAuth]
      exact (deep (isKind ▸ hub)).2
  rw [rebuilt] at cleans
  have none {p : Piece Auth → Bool} : kept url = [] → (kept url).countP p = 0 := by
    intro empty
    rw [empty, List.countP_nil]
  have ports : url.kind ≠ .regular →
      clean.uri.components.length = (kept url).countP (uriStart url ≤ ·.position) ∧
        clean.urn.components.length = (kept url).countP (urnStart url ≤ ·.position) := by
    intro other
    rw [Located, if_neg other] at located
    have lengths := Loc.length_withPorts located
    rwa [← isLoc] at lengths
  have again : cleanUrl clean = some clean := by
    obtain ⟨loc', cleans', located'⟩ := cleanUrl_of_sturdy sturdy'
    have isLoc' : loc' = loc := by
      rw [Located, isKind, cleanedPath_clean same] at located'
      rw [Located] at located
      split at located
      · next regular =>
        rw [if_pos regular] at located'
        rw [located, located']
      · next other =>
        obtain ⟨uri, urn⟩ := ports other
        have fits := (sturdy'.ported (isKind ▸ other)).fits
        have uri' : (cleanedSpec clean).uri = (cleanedSpec url).uri := by
          change (kept clean).countP (clean.components.length - _ ≤ ·.position) = _
          rw [uri]
          exact ports_clean same (uri ▸ fits.room) none
        have urn' : (cleanedSpec clean).urn = (cleanedSpec url).urn := by
          change (kept clean).countP (clean.components.length - _ ≤ ·.position) = _
          rw [urn]
          exact ports_clean same (urn ▸ Nat.le_trans fits.order fits.room) none
        rw [if_neg other, uri', urn', located] at located'
        exact (Except.ok.inj located').symm
    rw [cleans', isLoc', cleanedAuth_clean isKind isAuth sturdy' same, ← rebuilt]
    cases url <;> rfl
  refine ⟨clean, cleans, again, tidy_kept url, ?_, ⟨isKind, isPath⟩, ?_, ?_, ?_, ports, ?_⟩
  · rw [same, components_cleanedPath]
  · intro other
    rw [isAuth, cleanedAuth, if_neg other]
  · intro hub some
    obtain ⟨root, inner, grown, -, levels, -, domains⟩ := levels_cleanedAuth hub
    have comps : clean.components = (kept url).map Piece.component := by
      rw [same, components_cleanedPath, if_neg some]
    rw [pieces, isKind, hub, comps, isAuth, levels, List.tail_cons]
    exact Piece.dress_component _ _ (auth_kept sturdy hub) 0 domains
  · intro hub
    obtain ⟨root, inner, grown, split, levels, -, -⟩ := levels_cleanedAuth hub
    rw [isAuth, ← List.head?_reverse, ← List.head?_reverse, split, levels]
    rfl
  · intro regular
    rw [Located, if_pos regular] at located
    rw [isLoc, located]
    exact (Loc.bare_trim _).symm

/-! ### A hub -/

def testHub : Scheme := .custom ⟨text "test-hub", by decide⟩

def hubs : Inventory := fun scheme domain => some (.mk .hub scheme domain .none .none)

def level (domain : String) (parent : Parent) : Auth :=
  .mk .hub testHub (text domain) parent .none

/-- `test-hub://bar/@dotdot,foo,root/foo/../bar`. -/
def hubUrl : Url :=
  .os (Loc.bare (text "foo/../bar"))
    (level "bar" (.some (level "dotdot" (.some (level "foo" (.some (level "root" .none)))))))

private theorem wellFormed_hubUrl : hubUrl.WellFormed hubs := by
  have proper : testHub.Proper := by
    simp only [testHub, Scheme.Proper]
    decide
  have depth : Path.authDepth (Loc.bare (text "foo/../bar")).inner = 3 := by decide
  have admits : Loc.withPorts (text "foo/../bar") 1 1 = .ok (Loc.bare (text "foo/../bar")) := rfl
  refine ⟨⟨⟨proper, nofun, rfl⟩, ?_, nofun⟩, rfl, fun _ => Loc.admitted_of_withPorts admits⟩
  rw [if_pos rfl, depth]
  exact ⟨rfl, rfl, rfl, rfl, rfl, rfl, rfl, rfl, rfl, trivial⟩

theorem cleanUrl_cleaned_hub : ∃ clean, cleanUrl hubUrl = some clean ∧ Cleaned hubUrl clean :=
  cleanUrl_cleaned hubUrl wellFormed_hubUrl

/-- Where nothing survives, a `.` is left, and a regular url counts its name anew. -/
theorem cleanUrl_nothing :
    (∃ clean, cleanUrl (Url.regular (text "a/..")) = some clean ∧ .curDir ∈ clean.components) ∧
      ∃ clean, cleanUrl (Url.regular (text "a/b/..")) = some clean ∧
        clean.uri.components.length ≠
          (kept (Url.regular (text "a/b/.."))).countP
            (uriStart (Url.regular (text "a/b/..")) ≤ ·.position) := by
  constructor
  · exact ⟨_, rfl, by decide⟩
  · exact ⟨_, rfl, by decide⟩

end Yazi.Fs
