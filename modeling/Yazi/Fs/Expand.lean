import Yazi.Shared.Assemble
import Yazi.Shared.Levels
import Yazi.Shared.Ports
import Yazi.Shared.Utf8

/-!
Expanding the environment variables in a url.

The base, the rest and the URN of the path are expanded each on its own and joined again. How many
components each of them gives is counted on the way.
-/
namespace Yazi.Fs

open Yazi.Shared
open Yazi.Shared.Path (Component)

/-! ### Variables -/

namespace Variable

def dollar : UInt8 := 0x24

def opening : UInt8 := 0x7b

def closing : UInt8 := 0x7d

section regex
variable (digit : Bytes → Bool)

/-- `[a-zA-Z\d_]`, where the digits are those of Unicode. -/
def word (c : Bytes) : Bool :=
  digit c || match c with
    | [b] => (0x61 ≤ b ∧ b ≤ 0x7a) || (0x41 ≤ b ∧ b ≤ 0x5a) || b = 0x5f
    | _ => false

/-- The longest run of characters of a class; the first bytes are known to belong to it. -/
def span (of : Bytes → Bool) : Nat → Bytes → Bytes
  | _, [] => []
  | n + 1, b :: rest => b :: span of n rest
  | 0, b :: rest =>
    match Utf8.charLen (b :: rest) with
    | 0 => []
    | n + 1 => if of ((b :: rest).take (n + 1)) then b :: span of n rest else []

/-- The name behind a `$`, and how many bytes belong to the match. -/
def capture (rest : Bytes) : Option (Bytes × Nat) :=
  if rest.head? = some opening then
    let name := span (· ≠ [closing]) 0 rest.tail
    if name ≠ [] ∧ rest.tail[name.length]? = some closing then some (name, name.length + 2)
    else none
  else
    let name := span (word digit) 0 rest
    if name ≠ [] then some (name, name.length) else none

variable (env : Bytes → Option Bytes)

/-- What stands in for a match. -/
def value (name whole : Bytes) : Bytes :=
  if Utf8.isUtf8 name then (env name).getD whole else whole

/-- `replace_all`; the first bytes belong to the match before. -/
def replace : Nat → Bytes → Bytes
  | _, [] => []
  | n + 1, _ :: rest => replace n rest
  | 0, b :: rest =>
    if b = dollar then
      match capture digit rest with
      | none => b :: replace 0 rest
      | some (name, n) => value env name (b :: rest.take n) ++ replace n rest
    else b :: replace 0 rest

/-- Nothing matches: the path is borrowed. -/
def absent : Bytes → Bool
  | [] => true
  | b :: rest => !(b = dollar && (capture digit rest).isSome) && absent rest

/-- `expand_variables` on Unix. -/
def expand (p : Bytes) : Bytes := replace digit env 0 p

end regex

end Variable

/-! ### Urls -/

section expand
variable (digit : Bytes → Bool) (env : Bytes → Option Bytes)

/-- The middle of `Loc::triple`. -/
def rest (loc : Loc) : Bytes := loc.trail.drop (loc.inner.length - loc.uriLen)

/-- The path of `expand_url_impl`, after the base, after the rest, and whole. -/
def expandedPaths (loc : Loc) : Bytes × Bytes × Bytes :=
  let base := Path.push [] (Variable.expand digit env loc.base)
  let trail := Path.push base (Variable.expand digit env (rest loc))
  (base, trail, Path.push trail (Variable.expand digit env loc.urn))

/-- The ports of `expand_url_impl` on Unix: `none` where a subtraction overflows. -/
def expandedPorts (loc : Loc) : Option (Nat × Nat) :=
  let (base, trail, full) := expandedPaths digit env loc
  let count (p : Bytes) : Nat := (Path.components p).length
  let uri :=
    if Path.hasRoot (Variable.expand digit env loc.urn) ||
        Path.hasRoot (Variable.expand digit env (rest loc)) then some (count full)
    else if count base ≤ count full then some (count full - count base)
    else none
  let urn :=
    if Path.hasRoot (Variable.expand digit env loc.urn) then
      some ((Path.components full).reverse.takeWhile (· ≠ .rootDir)).length
    else if count trail ≤ count full then some (count full - count trail)
    else none
  uri.bind fun uri => urn.map fun urn => (uri, urn)

/-- All of the path is borrowed. -/
def unexpanded (loc : Loc) : Bool :=
  Variable.absent digit loc.base && Variable.absent digit (rest loc) &&
    Variable.absent digit loc.urn

/-- `expand_url_impl`: `none` where `unwrap` or `expect` panics. -/
def expandUrl (url : Url) : Option Url :=
  if unexpanded digit url.loc then some url
  else
    let path := (expandedPaths digit env url.loc).2.2
    (expandedPorts digit env url.loc).bind fun (uri, urn) =>
      if url.auth.isRegular then some (Url.regular path)
      else
        (if url.kind = .hub then url.auth.withParentDepth (Path.authDepth path)
          else some url.auth).bind fun auth =>
          (Loc.withPorts path uri urn).toOption.map fun loc => url.rebuild loc auth

end expand

/-! ### What the variables leave -/

namespace Variable

section regex
variable {digit : Bytes → Bool} {env : Bytes → Option Bytes}

/-- A path without variables stays as it is. -/
theorem expand_of_absent {p : Bytes} (none : absent digit p = true) : expand digit env p = p := by
  induction p with
  | nil => rfl
  | cons b rest ih =>
    rw [absent, Bool.and_eq_true] at none
    obtain ⟨first, later⟩ := none
    have same : replace digit env 0 rest = rest := ih later
    rw [expand, replace, same]
    by_cases dollars : b = dollar
    · have missed : capture digit rest = Option.none := by simpa [dollars] using first
      rw [if_pos dollars, missed]
    · rw [if_neg dollars]

end regex

end Variable

/-! ### Levels -/

private theorem depth_grown (auth : Auth) (n : Nat) (parent : Parent) :
    (auth.withParent ((List.range n).foldl
      (fun parent _ => .some (.mk auth.kind auth.scheme [] parent .none)) parent)).parentDepth =
        (auth.withParent parent).parentDepth + n := by
  induction n with
  | zero => rfl
  | succ n ih =>
    rw [List.range_succ, List.foldl_append, List.foldl_cons, List.foldl_nil]
    refine congrArg Nat.succ (Eq.trans ?_ ih)
    generalize (List.range n).foldl _ parent = grown
    cases grown <;> rfl

private theorem depth_parent {L N : Type} (auth other : AuthOf L N) :
    (auth.withParent other.parent).parentDepth = other.parentDepth := by
  obtain ⟨kind, scheme, domain, parent, view⟩ := other
  cases parent <;> rfl

private theorem depth_parentAt {L N : Type} {auth up : AuthOf L N} {n : Nat}
    (above : auth.parentAt n = some up) : up.parentDepth + n = auth.parentDepth := by
  induction n generalizing auth with
  | zero =>
    cases above
    rfl
  | succ n ih =>
    obtain ⟨kind, scheme, domain, parent, view⟩ := auth
    cases parent with
    | none => cases above
    | some parent => exact congrArg Nat.succ (ih above)

/-- The authority has as many levels above it as asked for. -/
theorem withParentDepth_spec (auth : Auth) (depth : Nat) :
    ∃ up, auth.withParentDepth depth = some up ∧ up.parentDepth = depth ∧ up.kind = auth.kind := by
  rw [AuthOf.withParentDepth]
  by_cases same : auth.parentDepth = depth
  · exact ⟨auth, if_pos same, same, rfl⟩
  · rw [if_neg same]
    by_cases fewer : auth.parentDepth < depth
    · refine ⟨_, by rw [if_pos fewer, Option.map_some], ?_, ?_⟩
      · rw [depth_grown, depth_parent]
        omega
      · rfl
    · obtain ⟨up, above⟩ := AuthOf.parentAt_of_le (Nat.sub_le auth.parentDepth depth)
      have rest := depth_parentAt above
      refine ⟨_, by rw [if_neg fewer, above, Option.map_some, Option.map_some], ?_, ?_⟩
      · rw [depth_grown, depth_parent]
        omega
      · rfl

/-! ### Ports -/

/-- The regions of the joined path, by the expanded regions. -/
structure Regions (front middle back : Bytes) (up : Loc) : Prop where
  /-- An absolute URN replaces what stands before it, and the root stays outside of it. -/
  urn : Path.hasRoot back = true → Path.components up.base = [] ∧
    Path.components up.uri = Path.components back ∧
      Path.components up.urn = (Path.components back).tail
  /-- An absolute rest replaces the base. -/
  rest : Path.hasRoot back = false → Path.hasRoot middle = true → Path.components up.base = [] ∧
    Path.components up.uri = Path.components middle ++ Path.added middle back ∧
      Path.components up.urn = Path.added middle back
  /-- Otherwise each region is what it adds to the path before it. -/
  relative : Path.hasRoot back = false → Path.hasRoot middle = false →
    Path.components up.base = Path.components front ∧
      Path.components up.uri =
        Path.added front middle ++ Path.added (Path.push front middle) back ∧
      Path.components up.urn = Path.added (Path.push front middle) back

section ports
variable (digit : Bytes → Bool) (env : Bytes → Option Bytes) (loc : Loc)

/-- No subtraction overflows, the ports fit, and they part the path into its regions. -/
theorem expandedPorts_spec : ∃ uri urn up, expandedPorts digit env loc = some (uri, urn) ∧
    Loc.withPorts (expandedPaths digit env loc).2.2 uri urn = .ok up ∧
      Regions (Variable.expand digit env loc.base) (Variable.expand digit env (rest loc))
        (Variable.expand digit env loc.urn) up := by
  generalize fronts : Variable.expand digit env loc.base = front
  generalize middles : Variable.expand digit env (rest loc) = middle
  generalize backs : Variable.expand digit env loc.urn = back
  have paths : expandedPaths digit env loc =
      (front, Path.push front middle, Path.push (Path.push front middle) back) := by
    rw [expandedPaths, fronts, middles, backs, Path.push_nil]
  rw [expandedPorts, paths]
  dsimp only
  rw [middles, backs]
  have whole := Path.components_push_eq (Path.push front middle) back
  have lead := Path.components_push_eq front middle
  by_cases urn : Path.hasRoot back = true
  · rw [if_pos urn] at whole
    obtain ⟨names, starts⟩ : ∃ names, Path.components back = .rootDir :: names :=
      List.head?_eq_some_iff.mp ((Path.hasRoot_iff back).mp urn)
    have later : .rootDir ∉ names := by
      have tail := Path.rootDir_not_mem_tail back
      rwa [starts] at tail
    have parts : Path.components (Path.push (Path.push front middle) back) =
        [] ++ [.rootDir] ++ names := whole.trans starts
    obtain ⟨up, admits, base, uri, inner⟩ := Loc.withPorts_of_split parts nofun
    have behind : ((Path.components (Path.push (Path.push front middle) back)).reverse.takeWhile
        (· ≠ .rootDir)).length = names.length := by
      rw [parts, List.nil_append, List.singleton_append, List.reverse_cons,
        List.takeWhile_append_of_pos]
      · simp
      · intro c member
        simp only [ne_eq, decide_not, Bool.not_eq_true', decide_eq_false_iff_not]
        rintro rfl
        exact later (List.mem_reverse.mp member)
    refine ⟨_, _, up, ?_, admits, fun _ => ⟨base, ?_, ?_⟩, fun no => ?_, fun no => ?_⟩
    · rw [urn, Bool.true_or, if_pos rfl, if_pos rfl, Option.bind_some, Option.map_some, behind,
        parts, List.nil_append, List.length_append]
    · rw [uri, starts, List.singleton_append]
    · rw [inner, starts, List.tail_cons]
    · rw [urn] at no
      cases no
    · rw [urn] at no
      cases no
  · rw [if_neg urn] at whole
    have relative : Path.hasRoot back = false := Bool.eq_false_iff.mpr urn
    have short : (Path.components (Path.push front middle)).length ≤
        (Path.components (Path.push (Path.push front middle) back)).length := by
      rw [whole, List.length_append]
      exact Nat.le_add_right _ _
    by_cases rest : Path.hasRoot middle = true
    · have trail : Path.push front middle = middle := Path.push_of_root rest
      have parts : Path.components (Path.push (Path.push front middle) back) =
          [] ++ Path.components middle ++ Path.added middle back := by
        rw [whole, trail, List.nil_append]
      have rootless : ([] : List Component) = [] → Path.components middle = [] →
          (Path.added middle back).head? ≠ some .rootDir := by
        intro _ none
        rw [Path.hasRoot_iff, none] at rest
        cases rest
      obtain ⟨up, admits, base, uri, inner⟩ := Loc.withPorts_of_split parts rootless
      refine ⟨_, _, up, ?_, admits, fun yes => absurd yes urn, fun _ _ => ⟨base, uri, inner⟩,
        fun _ no => ?_⟩
      · rw [rest, Bool.or_true, if_pos rfl, if_neg urn, if_pos short, Option.bind_some,
          Option.map_some, parts, trail, List.nil_append, List.length_append, Nat.add_sub_cancel_left]
      · rw [rest] at no
        cases no
    · rw [if_neg rest] at lead
      have parts : Path.components (Path.push (Path.push front middle) back) =
          Path.components front ++ Path.added front middle ++
            Path.added (Path.push front middle) back := by
        rw [whole, lead]
      have rootless : Path.components front = [] → Path.added front middle = [] →
          (Path.added (Path.push front middle) back).head? ≠ some .rootDir := fun _ _ root =>
        Path.rootDir_not_mem_added relative _ (List.mem_of_mem_head? root)
      obtain ⟨up, admits, base, uri, inner⟩ := Loc.withPorts_of_split parts rootless
      have shorter : (Path.components front).length ≤
          (Path.components (Path.push (Path.push front middle) back)).length := by
        rw [parts, List.length_append, List.length_append, Nat.add_assoc]
        exact Nat.le_add_right _ _
      have neither : ¬(Path.hasRoot back || Path.hasRoot middle) = true := by
        rw [Bool.or_eq_true, not_or]
        exact ⟨urn, rest⟩
      have uriPort : (Path.components (Path.push (Path.push front middle) back)).length -
          (Path.components front).length = (Path.added front middle).length +
            (Path.added (Path.push front middle) back).length := by
        rw [parts, List.length_append, List.length_append]
        omega
      have urnPort : (Path.components (Path.push (Path.push front middle) back)).length -
          (Path.components (Path.push front middle)).length =
            (Path.added (Path.push front middle) back).length := by
        rw [whole, List.length_append, Nat.add_sub_cancel_left]
      refine ⟨_, _, up, ?_, admits, fun yes => absurd yes urn, fun _ yes => absurd yes rest,
        fun _ _ => ⟨base, uri, inner⟩⟩
      rw [if_neg neither, if_pos shorter, if_neg urn, if_pos short, Option.bind_some,
        Option.map_some, uriPort, urnPort]

end ports

/-! ### Result -/

section result
variable {digit : Bytes → Bool} {env : Bytes → Option Bytes}

/-- What an expanded url is. -/
structure Expanded (digit : Bytes → Bool) (env : Bytes → Option Bytes) (url up : Url) : Prop where
  /-- Without variables every region is its own expansion, and nothing changes. -/
  same : unexpanded digit url.loc = true → up = url ∧
    Variable.expand digit env url.loc.base = url.loc.base ∧
      Variable.expand digit env (rest url.loc) = rest url.loc ∧
        Variable.expand digit env url.loc.urn = url.loc.urn
  kind : up.kind = url.kind ∧ up.pathKind = url.pathKind
  /-- The URN is the end of the URI. -/
  suffix : Path.components up.loc.urn <:+ Path.components up.loc.uri
  regions : unexpanded digit url.loc = false → url.kind ≠ .regular →
    Regions (Variable.expand digit env url.loc.base) (Variable.expand digit env (rest url.loc))
      (Variable.expand digit env url.loc.urn) up.loc
  /-- A regular url has the regions of its path. -/
  regular : unexpanded digit url.loc = false → url.kind = .regular →
    up = Url.regular (expandedPaths digit env url.loc).2.2
  /-- A hub has an authority above for every component that takes one. -/
  levels : up.kind = .hub → up.auth.parentDepth = Path.authDepth up.loc.inner

/-- Expanding works with any variables. -/
theorem expandUrl_expanded {inventory : Inventory} (url : Url) (sound : url.WellFormed inventory)
    (bare : url.kind = .regular → url.loc = Loc.bare url.loc.inner) :
    ∃ up, expandUrl digit env url = some up ∧ Expanded digit env url up := by
  have sturdy := Url.sturdy_of_wellFormed sound
  rw [expandUrl]
  by_cases none : unexpanded digit url.loc = true
  · rw [if_pos none]
    have absents := none
    rw [unexpanded, Bool.and_eq_true, Bool.and_eq_true] at absents
    obtain ⟨⟨base, middle⟩, urn⟩ := absents
    have same : Variable.expand digit env url.loc.base = url.loc.base :=
      Variable.expand_of_absent base
    refine ⟨url, rfl, fun _ => ⟨rfl, same, Variable.expand_of_absent middle,
      Variable.expand_of_absent urn⟩, ⟨rfl, rfl⟩, ?_, fun some => ?_, fun some => ?_, sturdy.deep⟩
    · by_cases regular : url.kind = .regular
      · rw [bare regular]
        exact List.suffix_rfl
      · exact Loc.urn_suffix (sturdy.ported regular).fits.order
    · rw [none] at some
      cases some
    · rw [none] at some
      cases some
  · rw [if_neg none]
    obtain ⟨uri, urn, loc, ports, admits, regions⟩ :=
      expandedPorts_spec digit env url.loc
    rw [ports, Option.bind_some]
    dsimp only
    by_cases regular : url.kind = .regular
    · have isRegular : url.auth.isRegular = true := decide_eq_true regular
      rw [if_pos isRegular]
      refine ⟨_, rfl, fun same => absurd same none, ⟨regular.symm, (sturdy.os_of_regular regular).symm⟩,
        List.suffix_rfl, fun _ other => absurd regular other, fun _ _ => rfl, nofun⟩
    · have irregular : ¬url.auth.isRegular = true := by
        rw [Bool.not_eq_true]
        exact decide_eq_false regular
      rw [if_neg irregular]
      obtain ⟨auth, found, kind, depth⟩ : ∃ auth, (if url.kind = .hub then
          url.auth.withParentDepth (Path.authDepth (expandedPaths digit env url.loc).2.2)
        else some url.auth) = some auth ∧ auth.kind = url.kind ∧ (url.kind = .hub →
          auth.parentDepth = Path.authDepth (expandedPaths digit env url.loc).2.2) := by
        by_cases hub : url.kind = .hub
        · obtain ⟨auth, found, depth, kind⟩ := withParentDepth_spec url.auth
            (Path.authDepth (expandedPaths digit env url.loc).2.2)
          exact ⟨auth, by rw [if_pos hub, found], kind, fun _ => depth⟩
        · exact ⟨url.auth, if_neg hub, rfl, fun isHub => absurd isHub hub⟩
      rw [found, Option.bind_some, admits]
      obtain ⟨up, rebuilt⟩ : ∃ up, url.rebuild loc auth = up := ⟨_, rfl⟩
      have isLoc : up.loc = loc := by rw [← rebuilt]; cases url <;> rfl
      have isAuth : up.auth = auth := by rw [← rebuilt]; cases url <;> rfl
      have isPath : up.pathKind = url.pathKind := by rw [← rebuilt]; cases url <;> rfl
      have isKind : up.kind = url.kind := by rw [Url.kind, isAuth, kind]
      refine ⟨up, congrArg some rebuilt, fun same => absurd same none, ⟨isKind, isPath⟩, ?_,
        fun _ _ => isLoc ▸ regions, fun _ same => absurd same regular, fun hub => ?_⟩
      · rw [isLoc]
        exact Loc.urn_suffix (Loc.admitted_of_withPorts admits).fits.order
      · rw [isAuth, depth (isKind ▸ hub), isLoc, Path.authDepth, Path.authDepth,
          Loc.inner_withPorts admits, Path.components_trim]

end result

/-! ### Cases -/

def digits (c : Bytes) : Bool := c.all fun b => 0x30 ≤ b ∧ b ≤ 0x39

def environment (name : Bytes) : Option Bytes :=
  if name = text "ABS" then some (text "/tmp/downloads")
  else if name = text "BAR_BAZ" then some (text "bar/baz")
  else if name = text "DOT" then some (text ".")
  else if name = text "EMPTY" then some []
  else none

def sevenZip : Scheme := .custom ⟨text "test-mount", by decide⟩

def mounts : Inventory := fun scheme domain => some (.mk .mount scheme domain .none .none)

/-- `test-mount://7z:1:1/` with a path that ends in a name. -/
def mountUrl (path : Bytes) : Url :=
  .os (Loc.bare path) (.mk .mount sevenZip (text "7z") .none .none)

/-- `test-hub://a1/@root/` with a path of one name. -/
def rootedHub (path : Bytes) : Url :=
  .os (Loc.bare path) (.mk .hub sevenZip (text "a1")
    (.some (.mk .hub sevenZip (text "root") .none .none)) .none)

private theorem wellFormed_mountUrl : (mountUrl (text "/tmp/$BAR_BAZ")).WellFormed mounts := by
  have proper : sevenZip.Proper := by
    simp only [sevenZip, Scheme.Proper]
    decide
  have admits : Loc.withPorts (text "/tmp/$BAR_BAZ") 1 1 = .ok (Loc.bare (text "/tmp/$BAR_BAZ")) :=
    rfl
  exact ⟨⟨⟨proper, nofun, rfl⟩, trivial, nofun⟩, rfl, fun _ => Loc.admitted_of_withPorts admits⟩

theorem expandUrl_expanded_mount :
    ∃ up, expandUrl digits environment (mountUrl (text "/tmp/$BAR_BAZ")) = some up ∧
      Expanded digits environment (mountUrl (text "/tmp/$BAR_BAZ")) up :=
  expandUrl_expanded (mountUrl (text "/tmp/$BAR_BAZ")) wellFormed_mountUrl nofun

/-- An absolute variable drops the base, a `.` behind another component is none, a regular url has
another name at its end, and the root takes no authority. -/
theorem expandUrl_shifts :
    (∃ up, expandUrl digits environment (mountUrl (text "/$ABS")) = some up ∧
      Path.components up.loc.base ≠
        Path.components (Variable.expand digits environment (Loc.bare (text "/$ABS")).base)) ∧
    (∃ up, expandUrl digits environment (mountUrl (text "/$DOT")) = some up ∧
      Path.components up.loc.urn ≠
        Path.components (Variable.expand digits environment (Loc.bare (text "/$DOT")).urn)) ∧
    (∃ up, expandUrl digits environment (Url.regular (text "a/$EMPTY")) = some up ∧
      Path.components up.loc.urn ≠
        Path.components (Variable.expand digits environment (Loc.bare (text "a/$EMPTY")).urn)) ∧
    ∃ up, expandUrl digits environment (rootedHub (text "/$HOME")) = some up ∧
      up.auth.parentDepth ≠ up.components.length := by
  refine ⟨⟨_, rfl, by decide⟩, ⟨_, rfl, by decide⟩, ⟨_, rfl, by decide⟩, ⟨_, rfl, by decide⟩⟩

end Yazi.Fs
