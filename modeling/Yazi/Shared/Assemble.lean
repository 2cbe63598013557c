import Yazi.Shared.Join

/-!
Paths from their components.

A path that is put together from the components of another reads as these components again, and
one that is pushed onto another adds its own, but for a leading `.`.
-/
namespace Yazi.Shared.Path

/-- `Component::as_os_str`. -/
def Component.bytes : Component → Bytes
  | .rootDir => [slash]
  | .curDir => [dot]
  | .parentDir => [dot, dot]
  | .normal s => s

/-- `PathBufDyn::from_components` on Unix, where no conversion fails. -/
def fromComponents (cs : List Component) : Bytes := cs.foldl (fun p c => push p c.bytes) []

/-- A component that can stand after another one. -/
def Component.Inner (c : Component) : Prop := slash ∉ c.bytes ∧ inner c.bytes = some c

/-- Components that some path has. -/
def Proper : List Component → Prop
  | [] => True
  | c :: cs => (c = .rootDir ∨ c = .curDir ∨ c.Inner) ∧ ∀ d ∈ cs, d.Inner

theorem inner_ne_curDir (s : Bytes) : inner s ≠ some .curDir := by
  simp only [inner]
  split
  · rintro ⟨⟩
  · split <;> rintro ⟨⟩

theorem Component.inner_parentDir : Component.parentDir.Inner := by
  constructor
  · decide
  · decide

private theorem inner_of_inner {s : Bytes} {c : Component} (clean : slash ∉ s)
    (found : inner s = some c) : c.Inner := by
  by_cases filler : s = [] ∨ s = [dot]
  · rw [inner, if_pos filler] at found
    cases found
  · by_cases up : s = [dot, dot]
    · rw [inner, if_neg filler, if_pos up] at found
      cases found
      exact Component.inner_parentDir
    · rw [inner, if_neg filler, if_neg up] at found
      cases found
      exact ⟨clean, by rw [Component.bytes, inner, if_neg filler, if_neg up]⟩

private theorem first_proper {s : Bytes} (clean : slash ∉ s) :
    first s = .rootDir ∨ first s = .curDir ∨ (first s).Inner := by
  cases found : inner s with
  | some c =>
    rw [first_of_inner found]
    exact .inr (.inr (inner_of_inner clean found))
  | none =>
    by_cases empty : s = []
    · left
      rw [first, if_pos empty]
    · by_cases current : s = [dot]
      · right; left
        rw [first, if_neg empty, if_pos current]
      · rw [inner, if_neg (not_or.mpr ⟨empty, current⟩)] at found
        split at found <;> cases found

theorem proper_components (p : Bytes) : Proper (components p) := by
  by_cases empty : p = []
  · subst empty
    trivial
  · cases parts : segments p with
    | nil => exact absurd parts (segments_ne_nil p)
    | cons s rest =>
      have clean : ∀ t ∈ s :: rest, slash ∉ t := parts ▸ clean_segments p
      simp only [components, if_neg empty, parts]
      constructor
      · exact first_proper (clean s List.mem_cons_self)
      · intro c member
        obtain ⟨t, among, found⟩ := List.mem_filterMap.mp member
        exact inner_of_inner (clean t (List.mem_cons_of_mem _ among)) found

/-- After a separator a leading `.` counts for nothing. -/
theorem body_eq_filter {q : Bytes} (relative : hasRoot q = false) :
    body q = (components q).filter (· ≠ .curDir) := by
  by_cases empty : q = []
  · subst empty
    rfl
  · cases parts : segments q with
    | nil => exact absurd parts (segments_ne_nil q)
    | cons s rest =>
      have others : (rest.filterMap inner).filter (· ≠ .curDir) = rest.filterMap inner := by
        apply List.filter_eq_self.mpr
        intro c member
        obtain ⟨t, -, found⟩ := List.mem_filterMap.mp member
        have other : c ≠ .curDir := by
          rintro rfl
          exact inner_ne_curDir t found
        simpa using other
      have present : s ≠ [] := by
        rintro rfl
        have rooted : (components q).head? = some .rootDir := by
          simp [components, empty, parts, first]
        rw [(hasRoot_iff q).mpr rooted] at relative
        cases relative
      simp only [components, if_neg empty, parts, body, List.filter_cons, others]
      cases found : inner s with
      | some c =>
        have other : c ≠ .curDir := by
          rintro rfl
          exact inner_ne_curDir s found
        rw [List.filterMap_cons_some found, first_of_inner found, if_pos (by simpa using other)]
      | none =>
        have current : s = [dot] := by
          by_contra more
          rw [inner, if_neg (not_or.mpr ⟨present, more⟩)] at found
          split at found <;> cases found
        rw [List.filterMap_cons_none found, current]
        rfl

theorem push_of_root {p q : Bytes} (root : hasRoot q = true) : push p q = q := by
  rw [push, if_pos (by simpa [hasRoot] using root)]

theorem push_nil (q : Bytes) : push [] q = q := by
  rw [push]
  split
  · rfl
  · rw [if_pos (.inl rfl), List.nil_append]

/-- What a relative path adds to another one. -/
theorem components_push_relative {p q : Bytes} (nonempty : p ≠ []) (relative : hasRoot q = false) :
    components (push p q) = components p ++ (components q).filter (· ≠ .curDir) := by
  have apart : q.head? ≠ some slash := by simpa [hasRoot] using relative
  rw [push, if_neg apart, ← body_eq_filter relative]
  by_cases ends : p.getLast? = some slash
  · rw [if_pos (.inr ends)]
    obtain ⟨lead, rfl⟩ := List.getLast?_eq_some_iff.mp ends
    rw [List.append_assoc, List.singleton_append]
    by_cases root : lead = []
    · subst root
      simp [components_slash_cons]
    · rw [components_append root, components_append root, body_nil, List.append_nil]
  · rw [if_neg (not_or.mpr ⟨nonempty, ends⟩), components_append nonempty]

/-- The components that a relative path adds to another one. -/
def added (p q : Bytes) : List Component :=
  if p = [] then components q else (components q).filter (· ≠ .curDir)

theorem components_push_eq (p q : Bytes) :
    components (push p q) = if hasRoot q then components q else components p ++ added p q := by
  by_cases root : hasRoot q = true
  · rw [push_of_root root, if_pos root]
  · rw [if_neg root, added]
    split
    · next empty => rw [empty, push_nil, components_nil, List.nil_append]
    · next nonempty => exact components_push_relative nonempty (Bool.eq_false_iff.mpr root)

theorem rootDir_not_mem {q : Bytes} (relative : hasRoot q = false) : .rootDir ∉ components q := by
  intro member
  have later := rootDir_not_mem_tail q
  have starts : (components q).head? ≠ some .rootDir := by
    rw [ne_eq, ← hasRoot_iff, relative]
    exact nofun
  cases whole : components q with
  | nil =>
    rw [whole] at member
    cases member
  | cons c cs =>
    rw [whole] at member later starts
    rcases List.mem_cons.mp member with rfl | rest
    · exact starts rfl
    · exact later rest

theorem rootDir_not_mem_added {q : Bytes} (relative : hasRoot q = false) (p : Bytes) :
    .rootDir ∉ added p q := by
  rw [added]
  split
  · exact rootDir_not_mem relative
  · exact fun member => rootDir_not_mem relative (List.mem_of_mem_filter member)

theorem Component.Inner.relative {c : Component} (other : c.Inner) : hasRoot c.bytes = false := by
  rw [Bool.eq_false_iff, ne_eq, hasRoot, beq_iff_eq]
  intro root
  exact other.1 (List.mem_of_mem_head? root)

theorem Component.Inner.components_bytes {c : Component} (other : c.Inner) :
    components c.bytes = [c] := by
  have present : c.bytes ≠ [] := by
    intro empty
    have found := other.2
    rw [empty] at found
    cases found
  rw [components_of_not_mem present other.1, first_of_inner other.2]

theorem Component.Inner.ne_curDir {c : Component} (other : c.Inner) : c ≠ .curDir := by
  rintro rfl
  exact inner_ne_curDir _ other.2

theorem filter_inner {cs : List Component} (inner : ∀ c ∈ cs, c.Inner) :
    cs.filter (· ≠ .curDir) = cs := by
  apply List.filter_eq_self.mpr
  intro c member
  simpa using (inner c member).ne_curDir

theorem components_push_inner {p : Bytes} {c : Component} (nonempty : p ≠ []) (other : c.Inner) :
    components (push p c.bytes) = components p ++ [c] := by
  have kept : [c].filter (· ≠ .curDir) = [c] := filter_inner (by simpa using other)
  rw [components_push_relative nonempty other.relative, other.components_bytes, kept]

@[simp] theorem fromComponents_nil : fromComponents [] = [] := rfl

theorem fromComponents_concat (cs : List Component) (c : Component) :
    fromComponents (cs ++ [c]) = push (fromComponents cs) c.bytes := by
  rw [fromComponents, List.foldl_append]
  rfl

theorem proper_of_inner {cs : List Component} (inner : ∀ c ∈ cs, c.Inner) : Proper cs := by
  cases cs with
  | nil => trivial
  | cons c cs =>
    exact ⟨.inr (.inr (inner c List.mem_cons_self)),
      fun d member => inner d (List.mem_cons_of_mem _ member)⟩

theorem proper_append_left {cs ds : List Component} (proper : Proper (cs ++ ds)) : Proper cs := by
  cases cs with
  | nil => trivial
  | cons c cs => exact ⟨proper.1, fun d member => proper.2 d (List.mem_append_left _ member)⟩

/-- A path that is put together has the components it is put together from. -/
theorem components_fromComponents {cs : List Component} (proper : Proper cs) :
    components (fromComponents cs) = cs := by
  induction cs using List.reverseRecOn with
  | nil => rfl
  | append_singleton cs c ih =>
    have before := ih (proper_append_left proper)
    rw [fromComponents_concat]
    cases cs with
    | nil =>
      rw [fromComponents_nil, push_nil, List.nil_append]
      rcases proper.1 with rfl | rfl | other
      · decide
      · decide
      · exact other.components_bytes
    | cons d ds =>
      have nonempty : fromComponents (d :: ds) ≠ [] := by
        intro empty
        rw [empty] at before
        cases before
      have other : c.Inner := proper.2 c (List.mem_append_right _ List.mem_cons_self)
      rw [components_push_inner nonempty other, before]

/-- A path that begins with neither the root nor a `.` goes on where another one ends. -/
theorem components_push_fromComponents {p : Bytes} (nonempty : p ≠ []) {cs : List Component}
    (inner : ∀ c ∈ cs, c.Inner) :
    components (push p (fromComponents cs)) = components p ++ cs := by
  have same := components_fromComponents (proper_of_inner inner)
  have relative : hasRoot (fromComponents cs) = false := by
    rw [Bool.eq_false_iff, ne_eq, hasRoot_iff, same]
    intro root
    exact (inner _ (List.mem_of_mem_head? root)).1 List.mem_cons_self
  rw [components_push_relative nonempty relative, same, filter_inner inner]

end Yazi.Shared.Path
