import Yazi.Shared.Resolve

/-!
The way from one path to another.

It goes up by what the one has beyond the common directories, and down by what the other has.
-/
namespace Yazi.Fs

open Yazi.Shared
open Yazi.Shared.Path (Component Plain)

/-- `path_relative_to`: "Paths must be both absolute or both relative: {from:?} and {to:?}". -/
structure RelativeError where
  start : PathDyn
  goal : PathDyn
  deriving DecidableEq, Repr

/-- The loop of `path_relative_to_impl` on Unix: what is left of both where they part, or `none`
where the goal is returned as it is. -/
def part : List Component → List Component → Option (List Component × List Component)
  | .rootDir :: fs, .rootDir :: ts => part fs ts
  | .rootDir :: _, _ => none
  | _, .rootDir :: _ => none
  | [], [] => some ([], [])
  | f :: fs, t :: ts => if f = t then part fs ts else some (f :: fs, t :: ts)
  | fs, ts => some (fs, ts)

/-- `path_relative_to_impl`. -/
def pathRelativeTo (start goal : PathDyn) : Except RelativeError PathDyn :=
  if Path.hasRoot start.bytes ≠ Path.hasRoot goal.bytes then
    if Path.hasRoot goal.bytes then .ok goal else .error ⟨start, goal⟩
  else if start == goal then .ok ⟨start.kind, [Path.dot]⟩
  else
    match part start.components goal.components with
    | none => .ok goal
    | some (fs, ts) =>
      let dots := fs.map fun _ => .parentDir
      .ok ⟨start.kind, Path.fromComponents (dots ++ ts)⟩

@[simp] theorem part_names (s t : Bytes) (fs ts : List Component) :
    part (.normal s :: fs) (.normal t :: ts) =
      if s = t then part fs ts else some (.normal s :: fs, .normal t :: ts) := by
  simp [part]

/-- Two walks down part after the names that they share. -/
theorem part_plain {fs ts : List Component} (down : Plain fs) (down' : Plain ts) :
    ∃ shared fs' ts', part fs ts = some (fs', ts') ∧ fs = shared ++ fs' ∧ ts = shared ++ ts' := by
  induction fs generalizing ts with
  | nil =>
    refine ⟨[], [], ts, ?_, rfl, rfl⟩
    cases ts with
    | nil => rfl
    | cons t ts =>
      obtain ⟨name, rfl⟩ := down' t List.mem_cons_self
      rfl
  | cons f fs ih =>
    obtain ⟨name, rfl⟩ := down f List.mem_cons_self
    cases ts with
    | nil => exact ⟨[], _, [], rfl, rfl, rfl⟩
    | cons t ts =>
      obtain ⟨other, rfl⟩ := down' t List.mem_cons_self
      by_cases same : name = other
      · subst same
        obtain ⟨shared, fs', ts', parts, rfl, rfl⟩ := ih
          (fun c member => down c (List.mem_cons_of_mem _ member))
          (fun c member => down' c (List.mem_cons_of_mem _ member))
        exact ⟨.normal name :: shared, fs', ts', by rw [part_names, if_pos rfl, parts], rfl, rfl⟩
      · refine ⟨[], _, _, ?_, rfl, rfl⟩
        rw [part_names, if_neg same]

/-- An absolute path that never goes up is the root and names. -/
theorem plain_of_root {p : Bytes} (root : Path.hasRoot p = true)
    (down : .parentDir ∉ Path.components p) :
    ∃ names, Path.components p = .rootDir :: names ∧ Plain names ∧ ∀ c ∈ names, c.Inner := by
  have proper := Path.proper_components p
  have starts := (Path.hasRoot_iff p).mp root
  cases whole : Path.components p with
  | nil =>
    rw [whole] at starts
    cases starts
  | cons c names =>
    rw [whole] at starts proper down
    obtain rfl : c = .rootDir := by simpa using starts
    refine ⟨names, rfl, ?_, proper.2⟩
    intro c member
    have other := proper.2 c member
    cases c with
    | rootDir => exact absurd List.mem_cons_self other.1
    | curDir => exact absurd rfl other.ne_curDir
    | parentDir => exact absurd (List.mem_cons_of_mem _ member) down
    | normal name => exact ⟨name, rfl⟩

/-- The way is relative, leads from the start to the goal, and is `.` just where they are the
same. -/
theorem pathRelativeTo_leads (start goal : PathDyn)
    (root : Path.hasRoot start.bytes = true) (root' : Path.hasRoot goal.bytes = true)
    (down : .parentDir ∉ start.components) (down' : .parentDir ∉ goal.components) :
    ∃ way, pathRelativeTo start goal = .ok way ∧ way.kind = start.kind ∧
      Path.hasRoot way.bytes = false ∧
      Path.resolve id (Path.components (Path.push start.bytes way.bytes)) = goal.components ∧
      (way.bytes = [Path.dot] ↔ (start == goal) = true) := by
  obtain ⟨fs, starts, plain, inner⟩ := plain_of_root root down
  obtain ⟨ts, ends, plain', inner'⟩ := plain_of_root root' down'
  have both : ¬Path.hasRoot start.bytes ≠ Path.hasRoot goal.bytes := by rw [root, root']; simp
  have nonempty : start.bytes ≠ [] := by
    intro empty
    rw [empty] at root
    cases root
  rw [pathRelativeTo, if_neg both]
  by_cases same : (start == goal) = true
  · rw [if_pos same]
    refine ⟨_, rfl, rfl, rfl, ?_, by simp [same]⟩
    have stays : Path.components (Path.push start.bytes [Path.dot]) = start.components := by
      rw [Path.components_push_relative nonempty (by decide)]
      exact List.append_nil _
    rw [stays, (PathDyn.beq_iff.mp same).2, PathDyn.components, ends, Path.resolve, List.foldl_cons,
      Path.foldl_turn_names plain']
    rfl
  · obtain ⟨shared, fs', ts', parts, rfl, rfl⟩ := part_plain plain plain'
    have parted : part start.components goal.components = some (fs', ts') := by
      rw [PathDyn.components, PathDyn.components, starts, ends, part, parts]
    have dots : (fs'.map fun _ => Component.parentDir) = .replicate fs'.length .parentDir :=
      List.map_const' ..
    have proper : ∀ c ∈ List.replicate fs'.length .parentDir ++ ts', c.Inner := by
      intro c member
      rcases List.mem_append.mp member with up | below
      · rw [List.eq_of_mem_replicate up]
        exact Component.inner_parentDir
      · exact inner' c (List.mem_append_right _ below)
    have whole := Path.components_fromComponents (Path.proper_of_inner proper)
    refine ⟨⟨start.kind, Path.fromComponents (.replicate fs'.length .parentDir ++ ts')⟩, ?_, rfl,
      ?_, ?_, ?_⟩
    · rw [if_neg same, parted]
      simp only [dots]
    · rw [← Bool.not_eq_true, Path.hasRoot_iff, whole]
      intro top
      exact (proper .rootDir (List.mem_of_mem_head? top)).1 List.mem_cons_self
    · rw [Path.components_push_fromComponents nonempty proper, starts, PathDyn.components, ends,
        ← List.append_assoc, Path.resolve, List.foldl_append, List.foldl_append]
      have go : (Component.rootDir :: (shared ++ fs')).foldl (Path.turn id) [] =
          (.rootDir :: shared) ++ fs' :=
        Path.foldl_turn_names plain _
      rw [go, Path.foldl_turn_up plain.of_append_right,
        Path.foldl_turn_names plain'.of_append_right]
      rfl
    · have other : Path.fromComponents (.replicate fs'.length .parentDir ++ ts') ≠ [Path.dot] := by
        intro current
        rw [current] at whole
        exact (proper .curDir (whole ▸ List.mem_cons_self)).ne_curDir rfl
      exact iff_of_false other same

theorem pathRelativeTo_leads_aside :
    ∃ way, pathRelativeTo ⟨.os, text "/a/b/d"⟩ ⟨.os, text "/a//./c/"⟩ = .ok way ∧ way.kind = .os ∧
      Path.hasRoot way.bytes = false ∧
      Path.resolve id (Path.components (Path.push (text "/a/b/d") way.bytes)) =
        Path.components (text "/a/c") ∧
      (way.bytes = [Path.dot] ↔ (PathDyn.mk .os (text "/a/b/d") == ⟨.os, text "/a//./c/"⟩) = true) :=
  pathRelativeTo_leads ⟨.os, text "/a/b/d"⟩ ⟨.os, text "/a//./c/"⟩ (by decide) (by decide)
    (by decide) (by decide)

end Yazi.Fs
