import Yazi.Shared.Assemble

/-!
Lexical resolution of paths.

A path is read as a walk over directories: a name goes down, `..` goes back up and stays where
nothing is above, and `.` goes nowhere. What is read may carry more than the component.
-/
namespace Yazi.Shared.Path

section resolve
variable {α β : Type} (key : α → Component)

/-- Where a component leads from a directory, without asking the file system. -/
def turn (dir : List α) (a : α) : List α :=
  match key a with
  | .rootDir => [a]
  | .curDir => dir
  | .parentDir =>
    match dir.getLast?.map key with
    | some .rootDir => dir
    | some (.normal _) => dir.dropLast
    | _ => dir ++ [a]
  | .normal _ => dir ++ [a]

/-- What is left of a path once every `..` has taken its name along. -/
def resolve (as : List α) : List α := as.foldl (turn key) []

/-- The root and names, or a run of `..` and names. -/
def Tidy (cs : List Component) : Prop :=
  ∃ lead names, cs = lead ++ names ∧ Plain names ∧
    (lead = [.rootDir] ∨ ∀ c ∈ lead, c = .parentDir)

variable {key}

theorem turn_normal (dir : List α) {a : α} {s : Bytes} (name : key a = .normal s) :
    turn key dir a = dir ++ [a] := by
  rw [turn, name]

theorem turn_up {dir : List α} {a b : α} {s : Bytes} (name : key b = .normal s)
    (up : key a = .parentDir) : turn key (dir ++ [b]) a = dir := by
  simp only [turn, up, List.getLast?_concat, Option.map_some, name, List.dropLast_concat]

theorem Plain.of_append_left {cs ds : List Component} (plain : Plain (cs ++ ds)) : Plain cs :=
  fun c member => plain c (List.mem_append_left _ member)

theorem Plain.of_append_right {cs ds : List Component} (plain : Plain (cs ++ ds)) : Plain ds :=
  fun c member => plain c (List.mem_append_right _ member)

/-- Names lead down. -/
theorem foldl_turn_plain {as : List α} (plain : Plain (as.map key)) (dir : List α) :
    as.foldl (turn key) dir = dir ++ as := by
  induction as generalizing dir with
  | nil => rw [List.foldl_nil, List.append_nil]
  | cons a as ih =>
    obtain ⟨s, name⟩ := plain (key a) List.mem_cons_self
    have rest : Plain (as.map key) := fun c member => plain c (List.mem_cons_of_mem _ member)
    rw [List.foldl_cons, turn_normal dir name, ih rest, List.append_assoc, List.singleton_append]

theorem foldl_turn_names {names : List Component} (plain : Plain names) (dir : List Component) :
    names.foldl (turn id) dir = dir ++ names :=
  foldl_turn_plain (by rwa [List.map_id]) dir

/-- As many `..` as there are names lead back. -/
theorem foldl_turn_up {names : List Component} (plain : Plain names) (dir : List Component) :
    (List.replicate names.length .parentDir).foldl (turn id) (dir ++ names) = dir := by
  induction names using List.reverseRecOn with
  | nil => rw [List.length_nil, List.replicate_zero, List.foldl_nil, List.append_nil]
  | append_singleton names c ih =>
    obtain ⟨s, rfl⟩ := plain c (List.mem_append_right _ List.mem_cons_self)
    have back : turn id (dir ++ names ++ [.normal s]) .parentDir = dir ++ names :=
      turn_up rfl rfl
    rw [List.length_append, List.length_singleton, List.replicate_succ, List.foldl_cons,
      ← List.append_assoc, back, ih plain.of_append_left]

/-- What is left is among what was read. -/
theorem mem_turn {dir : List α} {a b : α} (member : b ∈ turn key dir a) : b ∈ dir ∨ b = a := by
  simp only [turn] at member
  have grown : b ∈ dir ++ [a] → b ∈ dir ∨ b = a := by simp
  split at member
  · exact .inr (List.mem_singleton.mp member)
  · exact .inl member
  · split at member
    · exact .inl member
    · exact .inl (List.mem_of_mem_dropLast member)
    · exact grown member
  · exact grown member

theorem mem_foldl_turn {as dir : List α} {b : α} (member : b ∈ as.foldl (turn key) dir) :
    b ∈ dir ∨ b ∈ as := by
  induction as generalizing dir with
  | nil => exact .inl member
  | cons a as ih =>
    rcases ih member with before | after
    · rcases mem_turn before with old | rfl
      · exact .inl old
      · exact .inr List.mem_cons_self
    · exact .inr (List.mem_cons_of_mem _ after)

theorem mem_resolve {as : List α} {b : α} (member : b ∈ resolve key as) : b ∈ as :=
  (mem_foldl_turn member).resolve_left List.not_mem_nil

private theorem tidy_concat {cs : List Component} (tidy : Tidy cs) (s : Bytes) :
    Tidy (cs ++ [.normal s]) := by
  obtain ⟨lead, names, rfl, plain, starts⟩ := tidy
  refine ⟨lead, names ++ [.normal s], List.append_assoc .., ?_, starts⟩
  intro c member
  rcases List.mem_append.mp member with old | new
  · exact plain c old
  · exact ⟨s, List.mem_singleton.mp new⟩

/-- One component keeps a tidy path tidy. -/
theorem tidy_turn {dir : List α} (tidy : Tidy (dir.map key)) (a : α) :
    Tidy ((turn key dir a).map key) := by
  simp only [turn]
  cases read : key a with
  | rootDir => exact ⟨[.rootDir], [], by simp [read], nofun, .inl rfl⟩
  | curDir => exact tidy
  | normal s =>
    simp only [List.map_append, List.map_singleton, read]
    exact tidy_concat tidy s
  | parentDir =>
    dsimp only
    obtain ⟨lead, names, whole, plain, starts⟩ := tidy
    rcases List.eq_nil_or_concat names with rfl | ⟨names, c, rfl⟩
    · rw [List.append_nil] at whole
      rcases starts with root | ups
      · have last : dir.getLast?.map key = some .rootDir := by
          rw [← List.getLast?_map, whole, root]
          rfl
        rw [last]
        exact ⟨[.rootDir], [], by simp [whole, root], nofun, .inl rfl⟩
      · have climbs : Tidy ((dir ++ [a]).map key) := by
          refine ⟨lead ++ [.parentDir], [], by simp [whole, read], nofun, .inr ?_⟩
          intro c member
          rcases List.mem_append.mp member with old | new
          · exact ups c old
          · exact List.mem_singleton.mp new
        have last : dir.getLast?.map key = lead.getLast? := by rw [← List.getLast?_map, whole]
        rw [last]
        cases ends : lead.getLast? with
        | none => exact climbs
        | some c =>
          rw [ups c (List.mem_of_getLast? ends)]
          exact climbs
    · rw [List.concat_eq_append] at whole plain
      obtain ⟨s, rfl⟩ := plain c (List.mem_append_right _ List.mem_cons_self)
      have last : dir.getLast?.map key = some (.normal s) := by
        rw [← List.getLast?_map, whole, ← List.append_assoc, List.getLast?_concat]
      rw [last]
      refine ⟨lead, names, ?_, plain.of_append_left, starts⟩
      dsimp only
      rw [List.map_dropLast, whole, ← List.append_assoc, List.dropLast_concat]

theorem tidy_resolve (as : List α) : Tidy ((resolve key as).map key) := by
  have each (dir : List α) (tidy : Tidy (dir.map key)) :
      Tidy ((as.foldl (turn key) dir).map key) := by
    induction as generalizing dir with
    | nil => exact tidy
    | cons a as ih => exact ih _ (tidy_turn tidy a)
  exact each [] ⟨[], [], rfl, nofun, .inr nofun⟩

private theorem foldl_turn_ups {as : List α} (ups : ∀ a ∈ as, key a = .parentDir) {dir : List α}
    (below : ∀ a ∈ dir, key a = .parentDir) : as.foldl (turn key) dir = dir ++ as := by
  induction as generalizing dir with
  | nil => rw [List.foldl_nil, List.append_nil]
  | cons a as ih =>
    have up : turn key dir a = dir ++ [a] := by
      simp only [turn, ups a List.mem_cons_self]
      cases ends : dir.getLast? with
      | none => rfl
      | some b => simp only [Option.map_some, below b (List.mem_of_getLast? ends)]
    have below' : ∀ b ∈ dir ++ [a], key b = .parentDir := by
      intro b member
      rcases List.mem_append.mp member with old | new
      · exact below b old
      · rw [List.mem_singleton.mp new]
        exact ups a List.mem_cons_self
    rw [List.foldl_cons, up, ih (fun b member => ups b (List.mem_cons_of_mem _ member)) below',
      List.append_assoc, List.singleton_append]

/-- Nothing of a tidy path is left out. -/
theorem resolve_tidy {as : List α} (tidy : Tidy (as.map key)) : resolve key as = as := by
  obtain ⟨lead, names, whole, plain, starts⟩ := tidy
  obtain ⟨front, back, rfl, rfl, rfl⟩ := List.map_eq_append_iff.mp whole
  rw [resolve, List.foldl_append]
  have first : front.foldl (turn key) [] = front := by
    rcases starts with root | ups
    · obtain ⟨a, rfl, read⟩ := List.map_eq_singleton_iff.mp root
      simp only [List.foldl_cons, List.foldl_nil, turn, read]
    · have ups' : ∀ a ∈ front, key a = .parentDir :=
        fun a member => ups (key a) (List.mem_map_of_mem member)
      exact foldl_turn_ups ups' nofun
  rw [first, foldl_turn_plain plain]

end resolve

end Yazi.Shared.Path
