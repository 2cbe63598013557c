import Yazi.Shared.Join
import Yazi.Shared.WellFormed

/-!
Which ports a path takes.

The URN is not longer than the URI, the URI not longer than the path, and the root belongs to
neither the URN nor, with it, to a URI that ends there.
-/
namespace Yazi.Shared.Loc

/-- The ports fit so many components. -/
structure Fits (cs : List Path.Component) (uri urn : Nat) : Prop where
  order : urn ≤ uri
  room : uri ≤ cs.length
  rootless : urn = cs.length → cs.head? ≠ some .rootDir

private theorem hasRoot_skip (n : Nat) (p : Bytes) :
    Path.hasRoot (Path.skip n p) = true ↔ n = 0 ∧ Path.hasRoot p = true := by
  constructor
  · intro root
    have starts := (Path.hasRoot_iff _).mp root
    rw [Path.components_skip] at starts
    cases n with
    | zero => exact ⟨rfl, root⟩
    | succ n =>
      have member := List.mem_of_mem_head? starts
      rw [← List.drop_tail] at member
      exact absurd (List.mem_of_mem_drop member) (Path.rootDir_not_mem_tail p)
  · rintro ⟨rfl, root⟩
    exact root

private theorem hasRoot_mark (p : Bytes) (count : Nat) :
    Path.hasRoot (p.drop (p.length - mark p count)) = true ↔
      (Path.components p).length ≤ count ∧ Path.hasRoot p = true := by
  rw [(drop_boundary (mark_eq p count)).1, hasRoot_skip, Nat.sub_eq_zero_iff_le]

theorem withPorts_iff {p : Bytes} {uri urn : Nat} :
    (∃ loc, withPorts p uri urn = .ok loc) ↔ Fits (Path.components p) uri urn := by
  have inner : Path.components (bare p).inner = Path.components p := components_bare p
  have root : Path.hasRoot (bare p).inner = true ↔ (Path.components p).head? = some .rootDir := by
    rw [Path.hasRoot_iff, inner]
  simp only [withPorts]
  by_cases order : urn > uri
  · rw [if_pos order]
    refine iff_of_false ?_ fun fits => absurd fits.order (Nat.not_le.mpr order)
    rintro ⟨_, ⟨⟩⟩
  · rw [if_neg order]
    have order' : urn ≤ uri := Nat.not_lt.mp order
    by_cases zero : uri = 0
    · rw [if_pos zero]
      refine iff_of_true ⟨_, rfl⟩ ⟨order', by omega, fun none => ?_⟩
      have empty : Path.components p = [] := List.eq_nil_of_length_eq_zero (by omega)
      rw [empty]
      rintro ⟨⟩
    · rw [if_neg zero, components_bare]
      by_cases room : (Path.components p).length < uri
      · rw [if_pos room]
        refine iff_of_false ?_ fun fits => absurd fits.room (Nat.not_le.mpr room)
        rintro ⟨_, ⟨⟩⟩
      · rw [if_neg room]
        have room' : uri ≤ (Path.components p).length := Nat.not_lt.mp room
        have rooted := hasRoot_mark (bare p).inner urn
        rw [root, inner] at rooted
        by_cases whole : Path.hasRoot ((bare p).inner.drop
            ((bare p).inner.length - mark (bare p).inner urn)) = true
        · rw [Loc.urn, if_pos whole]
          obtain ⟨long, starts⟩ := rooted.mp whole
          refine iff_of_false ?_ fun fits => fits.rootless (by omega) starts
          rintro ⟨_, ⟨⟩⟩
        · rw [Loc.urn, if_neg whole]
          refine iff_of_true ⟨_, rfl⟩ ⟨order', room', fun long starts => ?_⟩
          exact whole (rooted.mpr ⟨by omega, starts⟩)

/-- The ports of a location that ports give. -/
theorem Admitted.fits {loc : Loc} (admitted : loc.Admitted) :
    Fits loc.components (Path.components loc.uri).length (Path.components loc.urn).length := by
  obtain ⟨uri, urn, admits⟩ := admitted
  obtain ⟨uriLength, urnLength⟩ := length_withPorts admits
  rw [uriLength, urnLength]
  exact withPorts_iff.mp ⟨loc, admits⟩

/-- A boundary is told by the number of components behind it. -/
private theorem boundary_eq {p : Bytes} {len n : Nat} (boundary : len = (Path.skip n p).length) :
    len = (Path.skip ((Path.components p).length -
      (Path.components (p.drop (p.length - len))).length) p).length := by
  have count : (Path.components (p.drop (p.length - len))).length =
      (Path.components p).length - n := by
    rw [(drop_boundary boundary).1, Path.components_skip, List.length_drop]
  rw [count]
  rcases Nat.le_total n (Path.components p).length with few | many
  · rw [Nat.sub_sub_self few, ← boundary]
  · have nothing : Path.skip n p = [] := by
      rw [← Path.components_eq_nil, Path.components_skip, List.drop_eq_nil_iff]
      exact many
    rw [Nat.sub_eq_zero_of_le many, Nat.sub_zero, Path.skip_length, boundary, nothing]

/-- A location is told by its path and its ports. -/
theorem eq_of_ports {a b : Loc} (path : a.inner = b.inner)
    (uri : (Path.components a.uri).length = (Path.components b.uri).length)
    (urn : (Path.components a.urn).length = (Path.components b.urn).length) : a = b := by
  have length {l : Loc} {len count : Nat} (boundary : ∃ n, len = (Path.skip n l.inner).length)
      (marks : (Path.components (l.inner.drop (l.inner.length - len))).length = count) :
      len = (Path.skip ((Path.components l.inner).length - count) l.inner).length := by
    obtain ⟨n, boundary⟩ := boundary
    rw [← marks]
    exact boundary_eq boundary
  have uriLen : a.uriLen = b.uriLen := by
    rw [length a.uriBoundary uri, length b.uriBoundary rfl, path]
    rfl
  have urnLen : a.urnLen = b.urnLen := by
    rw [length a.urnBoundary urn, length b.urnBoundary rfl, path]
    rfl
  cases a
  cases b
  cases path
  cases uriLen
  cases urnLen
  rfl

/-- A location whose ports fit is one that they give. -/
theorem admitted_iff {loc : Loc} : loc.Admitted ↔
    Fits loc.components (Path.components loc.uri).length (Path.components loc.urn).length := by
  refine ⟨Admitted.fits, fun fits => ?_⟩
  obtain ⟨other, admits⟩ := withPorts_iff.mpr fits
  obtain ⟨uri, urn⟩ := length_withPorts admits
  have same : other = loc := by
    refine eq_of_ports ?_ uri urn
    rw [inner_withPorts admits, loc.trimmed]
  exact ⟨_, _, same ▸ admits⟩

/-- The name of a path can be its URI and its URN. -/
theorem fits_name (p : Bytes) :
    Fits (Path.components p) (Path.name p).isSome.toNat (Path.name p).isSome.toNat := by
  cases named : Path.name p with
  | none =>
    refine ⟨Nat.le_refl _, Nat.zero_le _, fun empty => ?_⟩
    rw [List.eq_nil_of_length_eq_zero empty.symm]
    exact nofun
  | some s =>
    have ends := Path.components_of_name named
    have length := congrArg List.length ends
    rw [List.length_append, List.length_singleton] at length
    refine ⟨Nat.le_refl _, ?_, fun single => ?_⟩
    · change 1 ≤ _
      omega
    · change 1 = _ at single
      have none : (Path.components p).dropLast = [] := List.eq_nil_of_length_eq_zero (by omega)
      rw [ends, none]
      exact nofun

theorem admitted_bare (p : Bytes) : (bare p).Admitted := by
  rw [admitted_iff, (length_bare p).1, (length_bare p).2, components_bare]
  exact fits_name p

/-- The ports say where the components part. -/
theorem split_withPorts {p : Bytes} {loc : Loc} {base rest urn : List Path.Component}
    (parts : Path.components p = base ++ rest ++ urn)
    (admits : withPorts p (rest.length + urn.length) urn.length = .ok loc) :
    Path.components loc.base = base ∧ Path.components loc.uri = rest ++ urn ∧
      Path.components loc.urn = urn := by
  obtain ⟨uriLength, urnLength⟩ := length_withPorts admits
  have whole : loc.components = base ++ rest ++ urn := by
    rw [components, inner_withPorts admits, Path.components_trim, parts]
  have outer := components_base_uri loc
  rw [whole, List.append_assoc] at outer
  obtain ⟨before, after⟩ := List.append_inj' outer (by rw [uriLength, List.length_append])
  obtain ⟨n, boundary⟩ := loc.urnBoundary
  obtain ⟨skipped, -⟩ := drop_boundary boundary
  have inner : Path.components loc.urn = (base ++ rest ++ urn).drop n := by
    rw [Loc.urn, skipped, Path.components_skip, ← whole, components]
  refine ⟨before, after, ?_⟩
  have suffix : Path.components loc.urn <:+ base ++ rest ++ urn := inner ▸ List.drop_suffix ..
  have suffix' : urn <:+ base ++ rest ++ urn := List.suffix_append ..
  exact (List.suffix_of_suffix_length_le suffix suffix' urnLength.le).eq_of_length urnLength

theorem withPorts_of_split {p : Bytes} {base rest urn : List Path.Component}
    (parts : Path.components p = base ++ rest ++ urn)
    (rootless : base = [] → rest = [] → urn.head? ≠ some .rootDir) :
    ∃ loc, withPorts p (rest.length + urn.length) urn.length = .ok loc ∧
      Path.components loc.base = base ∧ Path.components loc.uri = rest ++ urn ∧
        Path.components loc.urn = urn := by
  have fits : Fits (Path.components p) (rest.length + urn.length) urn.length := by
    refine ⟨by omega, by rw [parts]; simp only [List.length_append]; omega, fun long => ?_⟩
    rw [parts, List.length_append, List.length_append] at long
    have noBase : base = [] := List.eq_nil_of_length_eq_zero (by omega)
    have noRest : rest = [] := List.eq_nil_of_length_eq_zero (by omega)
    rw [parts, noBase, noRest]
    exact rootless noBase noRest
  obtain ⟨loc, admits⟩ := withPorts_iff.mpr fits
  exact ⟨loc, admits, split_withPorts parts admits⟩

/-- The URN is the end of the URI. -/
theorem urn_suffix {loc : Loc}
    (order : (Path.components loc.urn).length ≤ (Path.components loc.uri).length) :
    Path.components loc.urn <:+ Path.components loc.uri := by
  have suffix {len n : Nat} (boundary : len = (Path.skip n loc.inner).length) :
      Path.components (loc.inner.drop (loc.inner.length - len)) <:+ loc.components := by
    rw [(drop_boundary boundary).1, Path.components_skip, components]
    exact List.drop_suffix ..
  obtain ⟨n, uri⟩ := loc.uriBoundary
  obtain ⟨m, urn⟩ := loc.urnBoundary
  exact List.suffix_of_suffix_length_le (suffix urn) (suffix uri) order

end Yazi.Shared.Loc
