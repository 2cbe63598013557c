import Yazi.Shared.Path

/-!
A path with two marked suffixes: its URI and its URN.

The marks are byte lengths and fall on component boundaries.
-/
namespace Yazi.Shared

/-- `Loc`: the lengths of the URI and the URN, counted from the end of the path. -/
structure Loc where
  inner : Bytes
  uriLen : Nat
  urnLen : Nat
  trimmed : Path.trim inner = inner
  uriBoundary : ∃ n, uriLen = (Path.skip n inner).length
  urnBoundary : ∃ n, urnLen = (Path.skip n inner).length
  deriving DecidableEq

namespace Loc

open Yazi.Shared.Path

def components (loc : Loc) : List Component := Path.components loc.inner

def base (loc : Loc) : Bytes := loc.inner.take (loc.inner.length - loc.uriLen)

def trail (loc : Loc) : Bytes := loc.inner.take (loc.inner.length - loc.urnLen)

def uri (loc : Loc) : Bytes := loc.inner.drop (loc.inner.length - loc.uriLen)

def urn (loc : Loc) : Bytes := loc.inner.drop (loc.inner.length - loc.urnLen)

theorem zero_boundary (p : Bytes) : ∃ n, 0 = (skip n p).length :=
  ⟨_, by rw [skip_length, List.length_nil]⟩

theorem name_boundary (p : Bytes) :
    ∃ n, ((name p).getD []).length = (skip n (trim p)).length := by
  cases present : name p with
  | none => exact zero_boundary _
  | some s =>
    simp only [name] at present
    split at present
    · cases present
    · next proper =>
      cases present
      rw [not_or] at proper
      have nonempty : trim p ≠ [] := by
        intro none
        simp [none, last] at proper
      have more : trim p ≠ [slash] := by
        intro root
        rw [root] at proper
        exact proper.1 (by decide)
      exact ⟨_, by rw [skip_front (trim_trim p) nonempty more, Option.getD_some]⟩

/-- `Loc::bare`: the URI and the URN are the name. -/
def bare (path : Bytes) : Loc where
  inner := trim path
  uriLen := ((name path).getD []).length
  urnLen := ((name path).getD []).length
  trimmed := trim_trim path
  uriBoundary := name_boundary path
  urnBoundary := name_boundary path

def zeroed (path : Bytes) : Loc :=
  { bare path with
    uriLen := 0, urnLen := 0
    uriBoundary := zero_boundary _, urnBoundary := zero_boundary _ }

theorem skip_boundary (path base : Bytes) :
    ∃ n, (skip (Path.components base).length (bare path).inner).length =
      (skip n (bare path).inner).length :=
  ⟨_, rfl⟩

/-- `Loc::floated`: `none` where `expect` panics, as the path does not start with the base. -/
def floated (path base : Bytes) : Option Loc :=
  if (Path.components base).isPrefixOf (bare path).components then
    some { bare path with
      uriLen := (skip (Path.components base).length (bare path).inner).length
      uriBoundary := skip_boundary path base }
  else none

/-- The bytes of the last `count` components. -/
def mark (p : Bytes) (count : Nat) : Nat :=
  if count = 0 then 0 else (skip ((Path.components p).length - count) p).length

theorem mark_eq (p : Bytes) (count : Nat) :
    mark p count = (skip ((Path.components p).length - count) p).length := by
  simp only [mark]
  split
  · next none => rw [none, Nat.sub_zero, skip_length, List.length_nil]
  · rfl

/-- `Loc::with`: the ports count components. -/
def withPorts (path : Bytes) (uri urn : Nat) : Except String Loc :=
  if urn > uri then .error "URN cannot be longer than URI"
  else if uri = 0 then .ok (zeroed path)
  else
    let count := (bare path).components.length
    if count < uri then .error "URI exceeds the entire URL"
    else
      let loc : Loc :=
        { bare path with
          uriLen := mark (bare path).inner uri
          urnLen := mark (bare path).inner urn
          uriBoundary := ⟨_, mark_eq ..⟩
          urnBoundary := ⟨_, mark_eq ..⟩ }
      if hasRoot loc.urn then .error "URN cannot include a root directory" else .ok loc

def parent (loc : Loc) : Option Bytes := Path.parent loc.inner

/-- `Loc::ascend`. -/
def ascend (loc : Loc) : Option Loc := do
  let path ← loc.parent
  let uri := (Path.components loc.uri).length - 1
  let urn := (Path.components loc.urn).length - 1
  (withPorts path uri urn).toOption

@[simp] theorem components_bare (p : Bytes) : (bare p).components = Path.components p :=
  components_trim p

@[simp] theorem components_zeroed (p : Bytes) : (zeroed p).components = Path.components p :=
  components_trim p

theorem components_floated {p base : Bytes} {loc : Loc} (floats : floated p base = some loc) :
    loc.components = Path.components p := by
  simp only [floated] at floats
  split at floats <;> cases floats
  exact components_bare p

theorem inner_withPorts {p : Bytes} {uri urn : Nat} {loc : Loc}
    (admits : withPorts p uri urn = .ok loc) : loc.inner = trim p := by
  simp only [withPorts] at admits
  split at admits
  · cases admits
  · split at admits
    · cases admits
      rfl
    · split at admits
      · cases admits
      · split at admits <;> cases admits
        rfl

/-- A marked suffix is what `skip` leaves. -/
theorem drop_boundary {p : Bytes} {len n : Nat} (boundary : len = (skip n p).length) :
    p.drop (p.length - len) = skip n p ∧
      Path.components (p.take (p.length - len)) = (Path.components p).take n := by
  obtain ⟨lead, split, before, -⟩ := skip_split n p
  have length : p.length - len = lead.length := by
    have total := congrArg List.length split
    rw [List.length_append] at total
    omega
  rw [length]
  constructor
  · conv_lhs => rw [split, List.drop_left]
  · conv_lhs => rw [split, List.take_left]
    exact before

/-- The URI is the components that the base lacks. -/
theorem components_base_uri (loc : Loc) :
    Path.components loc.base ++ Path.components loc.uri = loc.components := by
  obtain ⟨n, boundary⟩ := loc.uriBoundary
  obtain ⟨after, before⟩ := drop_boundary boundary
  rw [base, uri, before, after, components_skip, List.take_append_drop, components]

/-! ### Ports -/

theorem bare_trim (p : Bytes) : bare (trim p) = bare p := by
  have same : name (trim p) = name p := by simp only [name, trim_trim]
  simp only [bare, trim_trim, same]

theorem withPorts_trim (p : Bytes) (uri urn : Nat) :
    withPorts (trim p) uri urn = withPorts p uri urn := by
  simp only [withPorts, zeroed, bare_trim]

private theorem length_mark {p : Bytes} {count : Nat} (few : count ≤ (Path.components p).length) :
    (Path.components (p.drop (p.length - mark p count))).length = count := by
  obtain ⟨after, -⟩ := drop_boundary (mark_eq p count)
  rw [after, components_skip, List.length_drop]
  omega

/-- The ports are the numbers of components that the suffixes have. -/
theorem length_withPorts {p : Bytes} {uri urn : Nat} {loc : Loc}
    (admits : withPorts p uri urn = .ok loc) :
    (Path.components loc.uri).length = uri ∧ (Path.components loc.urn).length = urn := by
  simp only [withPorts] at admits
  split at admits
  · cases admits
  · next order =>
    split at admits
    · next zero =>
      cases admits
      obtain rfl : urn = 0 := by omega
      simp [Loc.uri, Loc.urn, zeroed, zero]
    · split at admits
      · cases admits
      · next room =>
        split at admits <;> cases admits
        have count : uri ≤ (Path.components (bare p).inner).length := Nat.not_lt.mp room
        exact ⟨length_mark count, length_mark (Nat.le_trans (Nat.not_lt.mp order) count)⟩

theorem le_of_withPorts {p : Bytes} {uri urn : Nat} {loc : Loc}
    (admits : withPorts p uri urn = .ok loc) : urn ≤ uri := by
  simp only [withPorts] at admits
  split at admits
  · cases admits
  · omega

/-- A name is one component. -/
theorem length_bare (p : Bytes) :
    (Path.components (bare p).uri).length = (name p).isSome.toNat ∧
      (Path.components (bare p).urn).length = (name p).isSome.toNat := by
  have suffix : (trim p).drop ((trim p).length - ((name p).getD []).length) = (name p).getD [] := by
    cases present : name p with
    | none => simp
    | some s =>
      have found : s = last (trim p) := by
        simp only [name] at present
        split at present <;> cases present
        rfl
      subst found
      have length : (trim p).length - (last (trim p)).length = (front (trim p)).length := by
        have total := congrArg List.length (front_append_last (trim p))
        rw [List.length_append] at total
        omega
      have rest : (front (trim p) ++ last (trim p)).drop (front (trim p)).length = last (trim p) :=
        List.drop_left
      rw [front_append_last] at rest
      rw [Option.getD_some, length, rest]
  have count : (Path.components ((name p).getD [])).length = (name p).isSome.toNat := by
    cases present : name p with
    | none => rfl
    | some s =>
      simp only [name] at present
      split at present
      · cases present
      · next proper =>
        cases present
        rw [not_or] at proper
        rw [Option.getD_some, components_of_not_mem proper.1 (slash_not_mem_last _)]
        rfl
  have uri : (bare p).uri = (name p).getD [] := suffix
  have urn : (bare p).urn = (name p).getD [] := suffix
  rw [uri, urn]
  exact ⟨count, count⟩

end Loc

end Yazi.Shared
