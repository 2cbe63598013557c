import Yazi.Fs.Freedesktop

/-!
# Where the items of the trash lie

An id names something that was trashed, or something below a trashed directory. Only the trashed
directory itself is checked not to be a link, so what an id below it leads to lies in the trash
unless a link on the way leads to a directory outside.
-/
namespace Yazi.Fs.Freedesktop
open Yazi.Base Yazi.Shared

/-! ### Segments -/

/-- The segments that count. -/
def steps (p : Bytes) : List (Segment Bytes) := (segs p).filter (· ≠ .here)

/-- What a component is to the kernel. -/
def step : Path.Component → Option (Segment Bytes)
  | .rootDir | .curDir => none
  | .parentDir => some .up
  | .normal n => some (.name n)

private theorem step_inner (s : Bytes) :
    [segment s].filter (· ≠ .here) = ((Path.inner s).bind step).toList := by
  by_cases empty : s = [] ∨ s = [Path.dot]
  · simp [segment, Path.inner, empty]
  · by_cases up : s = [Path.dot, Path.dot]
    · simp [segment, Path.inner, up, step]
    · simp [segment, Path.inner, empty, up, step]

private theorem step_first (s : Bytes) :
    [segment s].filter (· ≠ .here) = (step (Path.first s)).toList := by
  by_cases empty : s = []
  · simp [segment, Path.first, empty, step]
  · by_cases dot : s = [Path.dot]
    · simp [segment, Path.first, dot, step]
    · by_cases up : s = [Path.dot, Path.dot]
      · simp [segment, Path.first, up, step]
      · simp [segment, Path.first, empty, dot, up, step]

private theorem steps_body (ss : List Bytes) :
    (ss.map segment).filter (· ≠ .here) = (ss.filterMap Path.inner).filterMap step := by
  induction ss with
  | nil => rfl
  | cons s ss ih =>
    have head := step_inner s
    rw [List.map_cons, ← List.singleton_append, List.filter_append, head, ih]
    cases inner : Path.inner s with
    | none => simp [inner]
    | some c => cases taken : step c <;> simp [inner, taken]

/-- The segments that count are told by the components. -/
theorem steps_eq (p : Bytes) : steps p = (Path.components p).filterMap step := by
  by_cases empty : p = []
  · subst empty
    decide
  · unfold steps segs
    simp only [Path.components, if_neg empty]
    cases parts : Path.segments p with
    | nil => exact absurd parts (Path.segments_ne_nil p)
    | cons s ss =>
      have head := step_first s
      have tail := steps_body ss
      rw [List.map_cons, ← List.singleton_append, List.filter_append, head, tail]
      cases taken : step (Path.first s) <;> simp [taken]

theorem up_not_mem {p : Bytes} (checked : hasParentComponent p = false) : .up ∉ segs p := by
  intro member
  have counted : .up ∈ steps p := List.mem_filter.mpr ⟨member, by simp⟩
  rw [steps_eq] at counted
  obtain ⟨c, component, taken⟩ := List.mem_filterMap.mp counted
  cases c with
  | parentDir =>
    rw [hasParentComponent, List.contains_eq_mem, decide_eq_false_iff_not] at checked
    exact checked component
  | rootDir => cases taken
  | curDir => cases taken
  | normal n => cases taken

theorem segs_ne_nil (p : Bytes) : segs p ≠ [] := by
  simp [segs, Path.segments_ne_nil]

theorem segs_slash (p q : Bytes) : segs (p ++ Path.slash :: q) = segs p ++ segs q := by
  simp [segs, Path.segments_append]

theorem segs_push {p q : Bytes} (relative : Path.hasRoot q = false) (nonempty : p ≠ [])
    (ends : p.getLast? ≠ some Path.slash) : segs (Path.push p q) = segs p ++ segs q := by
  have head : q.head? ≠ some Path.slash := by simpa [Path.hasRoot] using relative
  rw [Path.push, if_neg head, if_neg (by simp [nonempty, ends]), segs_slash]

theorem steps_push (p : Bytes) {q : Bytes} (relative : Path.hasRoot q = false) :
    steps (Path.push p q) = steps p ++ steps q := by
  have head : q.head? ≠ some Path.slash := by simpa [Path.hasRoot] using relative
  by_cases nonempty : p = []
  · subst nonempty
    rw [Path.push, if_neg head, if_pos (.inl rfl)]
    rfl
  · by_cases ends : p.getLast? = some Path.slash
    · obtain ⟨lead, rfl⟩ := List.getLast?_eq_some_iff.mp ends
      rw [Path.push, if_neg head, if_pos (.inr ends)]
      have whole : lead ++ [Path.slash] ++ q = lead ++ Path.slash :: q := by simp
      have last : steps (lead ++ [Path.slash]) = steps lead := by
        simp [steps, segs_slash, show segs [] = [.here] from rfl]
      rw [whole, last, steps, segs_slash, List.filter_append]
      rfl
    · rw [steps, segs_push relative nonempty ends, List.filter_append]
      rfl

theorem hasRoot_push {p q : Bytes} (relative : Path.hasRoot q = false) :
    Path.hasRoot (Path.push p q) = Path.hasRoot p := by
  have head : q.head? ≠ some Path.slash := by simpa [Path.hasRoot] using relative
  rw [Path.push, if_neg head]
  cases p with
  | nil => simpa [Path.hasRoot] using relative
  | cons b p =>
    split
    · rfl
    · rfl

theorem push_ne_nil {p q : Bytes} (nonempty : p ≠ [] ∨ q ≠ []) : Path.push p q ≠ [] := by
  unfold Path.push
  split
  · next root =>
    rintro rfl
    cases root
  · split
    · rcases nonempty with left | right
      · simp [left]
      · simp [right]
    · simp

/-! ### What a path leads to -/

namespace World

variable (w : World)

theorem start_push {p q : Bytes} (relative : Path.hasRoot q = false) :
    w.start (Path.push p q) = w.start p := by
  unfold start
  rw [hasRoot_push relative]

theorem follow_of_ne_nil {p : Bytes} (nonempty : p ≠ []) :
    w.follow p = w.fs.walk maxLinks (w.start p) (segs p) := if_neg nonempty

theorem locate_of_ne_nil {p : Bytes} (nonempty : p ≠ []) :
    w.locate p = w.fs.locate maxLinks (w.start p) (segs p) := if_neg nonempty

/-- A directory that is found without following a link at the end is the one that is opened. -/
theorem follow_of_isDir {p : Bytes} (isDir : w.isDir p = .ok true) :
    ∃ place i left, w.locate p = some place ∧ place.node w.fs = some i ∧ w.fs.isDir i = true ∧
      w.follow p = some (i, left) := by
  unfold World.isDir at isDir
  split at isDir
  · next i found =>
    obtain ⟨place, located, node⟩ := Option.bind_eq_some_iff.mp found
    have dir : w.fs.isDir i = true := by simpa using isDir
    have nonempty : p ≠ [] := by
      rintro rfl
      cases located
    rw [locate_of_ne_nil w nonempty] at located
    obtain ⟨left, walked⟩ := Links.walk_of_locate located node dir
    exact ⟨place, i, left, by rw [locate_of_ne_nil w nonempty, located], node, dir,
      by rw [follow_of_ne_nil w nonempty, walked]⟩
  · cases isDir

theorem isDir_of_locate {p : Bytes} {place : Links.Place Bytes} {i : Nat}
    (located : w.locate p = some place) (node : place.node w.fs = some i) :
    w.isDir p = .ok (w.fs.isDir i) := by
  simp [World.isDir, located, node]

theorem locate_of_isDir {p : Bytes} {kind : Bool} (isDir : w.isDir p = .ok kind) :
    ∃ place, w.locate p = some place := by
  unfold World.isDir at isDir
  split at isDir
  · next i found =>
    obtain ⟨place, located, _⟩ := Option.bind_eq_some_iff.mp found
    exact ⟨place, located⟩
  · cases isDir

/-- A name below a directory leads to an entry of it. -/
theorem locate_push {p n : Bytes} {i j left : Nat} (opened : w.follow p = some (i, left))
    (isDir : w.fs.isDir i = true) (found : w.fs.entry i n = some j) :
    w.locate (Path.push p n) = some ⟨i, some n⟩ := by
  obtain ⟨name, clean⟩ := w.named i n j found
  have nonempty : p ≠ [] := by
    rintro rfl
    cases opened
  have relative : Path.hasRoot n = false := by
    cases n with
    | nil => rfl
    | cons b n =>
      have other : b ≠ Path.slash := fun same => clean (by simp [same])
      simpa [Path.hasRoot] using other
  have whole : w.fs.locate left i (segs n) = some ⟨i, some n⟩ := by
    simp [segs, Path.segments_of_not_mem clean, name, Links.locate, isDir, found]
  rw [locate_of_ne_nil w (push_ne_nil (.inl nonempty)), start_push w relative]
  rw [follow_of_ne_nil w nonempty] at opened
  by_cases ends : p.getLast? = some Path.slash
  · obtain ⟨lead, rfl⟩ := List.getLast?_eq_some_iff.mp ends
    have head : n.head? ≠ some Path.slash := by simpa [Path.hasRoot] using relative
    have joined : Path.push (lead ++ [Path.slash]) n = lead ++ Path.slash :: n := by
      rw [Path.push, if_neg head, if_pos (.inr ends)]
      simp
    rw [segs_slash, show segs [] = [.here] from rfl, Links.walk_append] at opened
    obtain ⟨⟨k, kept⟩, walked, last⟩ := Option.bind_eq_some_iff.mp opened
    dsimp only at last
    cases dir : w.fs.isDir k with
    | false =>
      rw [Links.walk_not_dir dir] at last
      cases last
    | true =>
      rw [Links.walk_here dir, Links.walk_nil] at last
      cases last
      rw [joined, segs_slash, Links.locate_append _ _ _ (segs_ne_nil n), walked]
      exact whole
  · rw [segs_push relative nonempty ends, Links.locate_append _ _ _ (segs_ne_nil n), opened]
    exact whole

end World

/-! ### Items -/

theorem name_proper {p s : Bytes} (named : Path.name p = some s) : s ≠ [] ∧ Path.slash ∉ s := by
  have clean := Path.slash_not_mem_last (Path.trim p)
  unfold Path.name at named
  dsimp only at named
  split at named
  · cases named
  · next proper =>
    cases named
    exact ⟨fun empty => proper (.inl empty), clean⟩

/-- An item is called by a proper name. -/
theorem stem_proper {info stem : Bytes} (called : TrashInfo.stemOf info = some stem) :
    stem ≠ [] ∧ Path.slash ∉ stem ∧ segment stem = .name stem := by
  obtain ⟨found, other⟩ := Option.filter_eq_some_iff.mp called
  obtain ⟨s, named, cut⟩ := Option.map_eq_some_iff.mp found
  obtain ⟨nonempty, clean⟩ := name_proper named
  have proper : stem ≠ [] ∧ Path.slash ∉ stem := by
    dsimp only at cut
    split at cut
    · exact cut ▸ ⟨nonempty, clean⟩
    · next long =>
      subst cut
      constructor
      · intro empty
        have short := congrArg List.length empty
        rw [List.length_dropLast, List.length_nil] at short
        omega
      · intro member
        exact clean ((List.rdropWhile_prefix _ s).subset (List.dropLast_subset _ member))
  refine ⟨proper.1, proper.2, ?_⟩
  simp only [ne_eq, decide_eq_true_eq] at other
  rw [segment, if_neg (by simp [proper.1, other.1]), if_neg other.2]

theorem hasRoot_of_clean {s : Bytes} (clean : Path.slash ∉ s) : Path.hasRoot s = false := by
  cases s with
  | nil => rfl
  | cons b s =>
    have other : b ≠ Path.slash := fun same => clean (by simp [same])
    simpa [Path.hasRoot] using other

/-- A path that ends in a name does not end in a separator. -/
theorem push_clean (p : Bytes) {stem : Bytes} (nonempty : stem ≠ []) (clean : Path.slash ∉ stem) :
    (Path.push p stem).getLast? ≠ some Path.slash := by
  have relative : stem.head? ≠ some Path.slash := by
    simpa [Path.hasRoot] using hasRoot_of_clean clean
  have ends : ∀ lead : Bytes, (lead ++ stem).getLast? ≠ some Path.slash := by
    intro lead same
    rw [List.getLast?_append_of_ne_nil _ nonempty] at same
    exact clean (List.mem_of_getLast? same)
  rw [Path.push, if_neg relative]
  split
  · exact ends p
  · rw [← List.singleton_append, ← List.append_assoc]
    exact ends _

private theorem relative_files : Path.hasRoot (text "files") = false := rfl

theorem backing_ne_nil (root : Bytes) {stem : Bytes} (nonempty : stem ≠ []) :
    TrashInfo.backingOf root stem ≠ [] := push_ne_nil (.inr nonempty)

theorem segs_backing {root stem : Bytes} (clean : Path.slash ∉ stem)
    (name : segment stem = .name stem) :
    segs (TrashInfo.backingOf root stem) = segs (Path.push root (text "files")) ++ [.name stem] := by
  have files : text "files" ≠ [] := by decide
  have last : (Path.push root (text "files")).getLast? ≠ some Path.slash :=
    push_clean root files (by decide)
  rw [TrashInfo.backingOf, segs_push (hasRoot_of_clean clean) (push_ne_nil (.inr files)) last]
  simp [segs, Path.segments_of_not_mem clean, name]

/-- Where an item lies is told by the components of the folder. -/
theorem locate_backing (w : World) {a b stem : Bytes} (same : Path.components a = Path.components b)
    (nonempty : stem ≠ []) (clean : Path.slash ∉ stem) (name : segment stem = .name stem) :
    w.locate (TrashInfo.backingOf a stem) = w.locate (TrashInfo.backingOf b stem) := by
  have rooted : w.start (TrashInfo.backingOf a stem) = w.start (TrashInfo.backingOf b stem) := by
    unfold World.start TrashInfo.backingOf
    rw [hasRoot_push (hasRoot_of_clean clean), hasRoot_push (hasRoot_of_clean clean),
      hasRoot_push relative_files, hasRoot_push relative_files]
    have roots : Path.hasRoot a = Path.hasRoot b :=
      Bool.eq_iff_iff.mpr (by rw [Path.hasRoot_iff, Path.hasRoot_iff, same])
    rw [roots]
  have counted : steps (Path.push a (text "files")) = steps (Path.push b (text "files")) := by
    rw [steps_push _ relative_files, steps_push _ relative_files, steps_eq a, steps_eq b, same]
  rw [w.locate_of_ne_nil (backing_ne_nil a nonempty),
    w.locate_of_ne_nil (backing_ne_nil b nonempty), segs_backing clean name,
    segs_backing clean name, rooted, ← Links.locate_names,
    ← Links.locate_names _ _ (segs (Path.push b (text "files")))]
  exact congrArg (fun path => w.fs.locate maxLinks _ (path ++ [.name stem])) counted

/-! ### Containment -/

/-- The directories in the items that are called so, of all trash folders. -/
def World.Trashed (w : World) (stem : Bytes) (d : Nat) : Prop :=
  ∃ folder ∈ w.folders, ∃ item i, w.locate (TrashInfo.backingOf folder stem) = some item ∧
    item.node w.fs = some i ∧ w.fs.isDir i = true ∧ w.fs.Below i d

/-- What the entry leads to is an item called so, or lies in one. -/
def Contained (w : World) (top : Bytes) (e : TrashEntry) : Prop :=
  ∃ stem place, TrashInfo.stemOf top = some stem ∧ w.locate e.backing = some place ∧
    ((∃ folder ∈ w.folders, w.locate (TrashInfo.backingOf folder stem) = some place) ∨
      w.Trashed stem place.dir)

/-- The entries that come of the ids of an item. -/
inductive Resolved (w : World) (top : Bytes) : TrashEntry → Prop where
  | entry {rel id e} : TrashId.new top rel = .ok id → entry w id = .ok e → Resolved w top e
  | child {e children c} : Resolved w top e → list w e = .ok children → c ∈ children →
    Resolved w top c

/-- No link met from the trashed directory leads to a directory outside. -/
def Tight (w : World) (top : Bytes) : Prop :=
  ∀ info stem i left, TrashInfo.parse w top = .ok info → w.hasFolder info.root = true →
    TrashInfo.stemOf top = some stem → w.isDir info.backing = .ok true →
    w.follow info.backing = some (i, left) → w.fs.Sealed (w.Trashed stem) left i

theorem World.Trashed.closed {w : World} {stem : Bytes} :
    ∀ d n i, w.Trashed stem d → w.fs.entry d n = some i → w.fs.isDir i = true →
      w.Trashed stem i := by
  rintro d n i ⟨folder, member, item, k, located, node, isDir, below⟩ found dir
  exact ⟨folder, member, item, k, located, node, isDir, below.tail ⟨dir, n, found⟩⟩

theorem parse_spec {w : World} {top : Bytes} {info : TrashInfo}
    (parsed : TrashInfo.parse w top = .ok info) :
    top ≠ [] ∧ ∃ stem, TrashInfo.stemOf top = some stem ∧
      info.backing = TrashInfo.backingOf info.root stem := by
  unfold TrashInfo.parse at parsed
  split at parsed
  · cases parsed
  · next extension =>
    have nonempty : top ≠ [] := by
      rintro rfl
      exact extension (by decide)
    split at parsed
    · cases parsed
    · next root _ =>
      split at parsed
      · cases parsed
      · next stem called =>
        split at parsed
        · cases parsed
        · split at parsed
          · cases parsed
          · cases parsed
            exact ⟨nonempty, stem, called, rfl⟩

theorem new_spec {w : World} {id : TrashId} {backing : Bytes} {original : Option Bytes}
    {e : TrashEntry} (made : TrashEntry.new w id backing original = .ok e) :
    e.id = id ∧ e.backing = backing ∧ w.isDir backing = .ok e.isDir := by
  unfold TrashEntry.new at made
  dsimp only at made
  split at made
  · cases made
  · cases kind : w.isDir backing with
    | error _ =>
      rw [kind] at made
      cases made
    | ok isDir =>
      rw [kind] at made
      cases made
      exact ⟨rfl, rfl, rfl⟩

theorem id_spec {top rel : Bytes} {id : TrashId} (made : TrashId.new top rel = .ok id) :
    id = ⟨top, rel⟩ ∧ Path.hasRoot rel = false ∧ hasParentComponent rel = false := by
  unfold TrashId.new at made
  split at made
  · cases made
  · next relative =>
    split at made
    · cases made
    · next down =>
      cases made
      simp only [not_or, Bool.not_eq_true] at relative down
      exact ⟨rfl, relative.2, down⟩

/-- An entry is an item, or lies below one that is a directory. -/
theorem entry_spec {w : World} {id : TrashId} {e : TrashEntry} (resolved : entry w id = .ok e) :
    ∃ info, TrashInfo.parse w id.top = .ok info ∧ w.hasFolder info.root = true ∧
      w.isDir e.backing = .ok e.isDir ∧
      (e.backing = info.backing ∨
        w.isDir info.backing = .ok true ∧ e.backing = Path.push info.backing id.rel) := by
  unfold entry at resolved
  split at resolved
  · cases resolved
  · next info parsed =>
    refine ⟨info, parsed, ?_⟩
    split at resolved
    · cases resolved
    · next folder =>
      refine ⟨by simpa using folder, ?_⟩
      split at resolved
      · split at resolved
        · cases resolved
        · cases resolved
        · next isDir =>
          obtain ⟨_, backing, kind⟩ := new_spec resolved
          exact ⟨backing ▸ kind, .inr ⟨isDir, backing⟩⟩
      · obtain ⟨_, backing, kind⟩ := new_spec resolved
        exact ⟨backing ▸ kind, .inl backing⟩

theorem child_spec {w : World} {e c : TrashEntry} {n : Bytes} (made : e.child w n = .ok c) :
    c.backing = Path.push e.backing n ∧ w.isDir c.backing = .ok c.isDir := by
  unfold TrashEntry.child at made
  split at made
  · cases made
  · obtain ⟨_, backing, kind⟩ := new_spec made
    exact ⟨backing, backing ▸ kind⟩

private theorem exists_of_mapM {α β ε : Type} {f : α → Except ε β} {as : List α} {bs : List β}
    (all : as.mapM f = .ok bs) : ∀ b ∈ bs, ∃ a ∈ as, f a = .ok b := by
  induction as generalizing bs with
  | nil =>
    cases all
    exact nofun
  | cons a as ih =>
    rw [List.mapM_cons] at all
    cases head : f a with
    | error _ =>
      rw [head] at all
      cases all
    | ok b =>
      cases tail : as.mapM f with
      | error _ =>
        rw [head, tail] at all
        cases all
      | ok bs' =>
        rw [head, tail] at all
        cases all
        intro c member
        rcases List.mem_cons.mp member with new | old
        · exact ⟨a, List.mem_cons_self, new ▸ head⟩
        · obtain ⟨a', member, made⟩ := ih tail c old
          exact ⟨a', List.mem_cons_of_mem _ member, made⟩

/-- What is listed are entries of the directory that is opened. -/
theorem list_spec {w : World} {e : TrashEntry} {children : List TrashEntry}
    (listed : list w e = .ok children) :
    e.isDir = true ∧ ∀ c ∈ children, ∃ n i j left, w.follow e.backing = some (i, left) ∧
      w.fs.isDir i = true ∧ w.fs.entry i n = some j ∧ e.child w n = .ok c := by
  unfold list at listed
  split at listed
  · cases listed
  · next isDir =>
    split at listed
    · cases listed
    · next names read =>
      refine ⟨by simpa using isDir, fun c member => ?_⟩
      obtain ⟨n, name, made⟩ := exists_of_mapM listed c member
      unfold World.readDir at read
      split at read
      · cases read
      · next i left opened =>
        split at read
        · next entries node =>
          cases read
          obtain ⟨isDir, j, found⟩ := Links.entry_of_key node name
          exact ⟨n, i, j, left, opened, isDir, found, made⟩
        · cases read

theorem Resolved.isDir {w : World} {top : Bytes} {e : TrashEntry} (resolved : Resolved w top e) :
    w.isDir e.backing = .ok e.isDir := by
  cases resolved with
  | entry _ found =>
    obtain ⟨_, _, _, kind, _⟩ := entry_spec found
    exact kind
  | child _ listed member =>
    obtain ⟨_, _, _, _, _, _, _, made⟩ := (list_spec listed).2 _ member
    exact (child_spec made).2

/-- What is listed of an entry in the trash is in the trash. -/
theorem Contained.child {w : World} {top : Bytes} {e c : TrashEntry} {children : List TrashEntry}
    (contained : Contained w top e) (kind : w.isDir e.backing = .ok e.isDir)
    (listed : list w e = .ok children) (member : c ∈ children) : Contained w top c := by
  obtain ⟨isDir, all⟩ := list_spec listed
  obtain ⟨n, i, j, left, opened, open', found, made⟩ := all c member
  rw [isDir] at kind
  obtain ⟨stem, place, called, located, lies⟩ := contained
  obtain ⟨place', i', left', located', node, dir, followed⟩ := w.follow_of_isDir kind
  rw [located] at located'
  cases located'
  rw [opened] at followed
  cases followed
  have within : w.Trashed stem i := by
    rcases lies with ⟨folder, known, item⟩ | lies
    · exact ⟨folder, known, place, i, item, node, dir, .refl⟩
    · obtain ⟨d, name⟩ := place
      cases name with
      | none =>
        cases node
        exact lies
      | some m => exact lies.closed d m i node dir
  refine ⟨stem, ⟨i, some n⟩, called, ?_, .inr within⟩
  rw [(child_spec made).1]
  exact w.locate_push opened open' found

theorem folder_of_root {w : World} {root : Bytes} (known : w.hasFolder root = true) :
    ∃ folder ∈ w.folders, Path.components folder = Path.components root := by
  obtain ⟨folder, member, same⟩ := List.any_eq_true.mp known
  exact ⟨folder, member, of_decide_eq_true same⟩

/-- A path below a trashed directory is followed from there. -/
theorem locate_rel (w : World) {root stem rel : Bytes} {i left : Nat} (nonempty : stem ≠ [])
    (clean : Path.slash ∉ stem) (relative : Path.hasRoot rel = false)
    (opened : w.follow (TrashInfo.backingOf root stem) = some (i, left)) :
    w.locate (Path.push (TrashInfo.backingOf root stem) rel) = w.fs.locate left i (segs rel) := by
  have proper := backing_ne_nil root nonempty
  have ends : (TrashInfo.backingOf root stem).getLast? ≠ some Path.slash :=
    push_clean _ nonempty clean
  rw [w.follow_of_ne_nil proper] at opened
  rw [w.locate_of_ne_nil (push_ne_nil (.inl proper)), w.start_push relative,
    segs_push relative proper ends, Links.locate_append _ _ _ (segs_ne_nil rel), opened]
  rfl

/-- Where nothing leads out, an id leads to something in the trash. -/
theorem contained_entry {w : World} {top rel : Bytes} {id : TrashId} {e : TrashEntry}
    (tight : Tight w top) (made : TrashId.new top rel = .ok id) (resolved : entry w id = .ok e) :
    Contained w top e := by
  obtain ⟨rfl, relative, down⟩ := id_spec made
  obtain ⟨info, parsed, known, kind, backing⟩ := entry_spec resolved
  obtain ⟨_, stem, called, item⟩ := parse_spec parsed
  obtain ⟨nonempty, clean, name⟩ := stem_proper called
  obtain ⟨folder, member, same⟩ := folder_of_root known
  have moved := locate_backing w same nonempty clean name
  rcases backing with backing | ⟨isDir, backing⟩
  · obtain ⟨place, located⟩ := w.locate_of_isDir kind
    refine ⟨stem, place, called, located, .inl ⟨folder, member, ?_⟩⟩
    rw [moved, ← item, ← backing, located]
  · obtain ⟨place, located⟩ := w.locate_of_isDir kind
    obtain ⟨top', i, left, found, node, dir, opened⟩ := w.follow_of_isDir isDir
    have within : w.Trashed stem i :=
      ⟨folder, member, top', i, by rw [moved, ← item, found], node, dir, .refl⟩
    have followed : w.fs.locate left i (segs rel) = some place := by
      rw [item] at opened
      rw [← locate_rel w nonempty clean relative opened, ← item, ← backing, located]
    exact ⟨stem, place, called, located,
      .inr ((tight info stem i left parsed known called isDir opened).locate
        World.Trashed.closed within (up_not_mem down) followed)⟩

/-- Names one below the other, and the last of them as a directory. -/
theorem rel_of_names (w : World) {names : List Bytes} (nonempty : names ≠ [])
    (real : ∀ n ∈ names, ∃ a b, w.fs.entry a n = some b) :
    let rel := Path.join (names ++ [[Path.dot]])
    segs rel = names.map .name ++ [.here] ∧ Path.components rel = names.map .normal := by
  dsimp only
  have proper : ∀ n ∈ names, segment n = .name n ∧ Path.slash ∉ n := by
    intro n member
    obtain ⟨a, b, found⟩ := real n member
    exact w.named a n b found
  have clean : ∀ s ∈ names ++ [[Path.dot]], Path.slash ∉ s := by
    intro s member
    rcases List.mem_append.mp member with name | dot
    · exact (proper s name).2
    · rw [List.mem_singleton.mp dot]
      decide
  have split : Path.segments (Path.join (names ++ [[Path.dot]])) = names ++ [[Path.dot]] :=
    Path.segments_join clean (by simp)
  constructor
  · rw [segs, split, List.map_append]
    refine congrArg₂ (· ++ ·) ?_ rfl
    exact List.map_congr_left fun n member => (proper n member).1
  · obtain ⟨n, more, rfl⟩ := List.exists_cons_of_ne_nil nonempty
    have whole : Path.join (n :: more ++ [[Path.dot]]) ≠ [] := by
      intro empty
      have length := congrArg List.length split
      rw [empty] at length
      simp [Path.segments] at length
    have first : Path.first n = .normal n := by
      have name := (proper n List.mem_cons_self).1
      unfold segment at name
      unfold Path.first
      grind
    have inner : ∀ m ∈ n :: more, Path.inner m = some (.normal m) := by
      intro m member
      have name := (proper m member).1
      unfold segment at name
      unfold Path.inner
      grind
    have body : more.filterMap Path.inner = more.map .normal := by
      rw [← List.filterMap_eq_map]
      exact List.filterMap_congr fun m member => inner m (List.mem_cons_of_mem _ member)
    have joined : Path.components (Path.join (n :: (more ++ [[Path.dot]]))) = _ :=
      Path.components_join clean whole
    rw [List.cons_append, joined, first, List.filterMap_append, body]
    simp [Path.inner]

theorem tight_of_contained {w : World} {top : Bytes}
    (all : ∀ e, Resolved w top e → Contained w top e) : Tight w top := by
  intro info stem i left parsed known called isDir opened
  by_contra open'
  obtain ⟨names, j, nonempty, real, located, dir, out⟩ := Links.exists_locate_outside open'
  obtain ⟨proper, stem', called', item⟩ := parse_spec parsed
  rw [called] at called'
  cases called'
  obtain ⟨filled, clean, name⟩ := stem_proper called
  obtain ⟨segments, components⟩ := rel_of_names w nonempty real
  generalize Path.join (names ++ [[Path.dot]]) = rel at segments components
  have relative : Path.hasRoot rel = false := by
    rw [← Bool.not_eq_true, Path.hasRoot_iff, components]
    obtain ⟨n, more, rfl⟩ := List.exists_cons_of_ne_nil nonempty
    simp
  have down : hasParentComponent rel = false := by
    simp [hasParentComponent, components]
  have some' : rel ≠ [] := by
    rintro rfl
    exact nonempty (by simpa using components.symm)
  obtain ⟨m, ends⟩ : ∃ m, Path.name rel = some m ∧ m ≠ [] := by
    obtain ⟨front, m, rfl⟩ : ∃ front m, names = front ++ [m] :=
      ⟨_, _, (List.dropLast_append_getLast nonempty).symm⟩
    rw [List.map_append] at components
    have named := (Path.name_of_components components).1
    exact ⟨m, named, (name_proper named).1⟩
  have made : TrashId.new top rel = .ok ⟨top, rel⟩ := by
    simp [TrashId.new, proper, relative, down]
  have found : w.locate (Path.push info.backing rel) = some ⟨j, none⟩ := by
    rw [item] at opened ⊢
    rw [locate_rel w filled clean relative opened, segments, located]
  have resolved : entry w ⟨top, rel⟩ = .ok ⟨⟨top, rel⟩, true,
      some (Path.push info.original rel), Path.push info.backing rel⟩ := by
    have kind : w.isDir (Path.push info.backing rel) = .ok true := by
      rw [w.isDir_of_locate found rfl, dir]
    simp [entry, parsed, known, TrashId.hasRel, some', isDir, TrashEntry.new, ends.1, ends.2, kind,
      Option.filter, Except.map]
  obtain ⟨stem', place, called', located', lies⟩ := all _ (.entry made resolved)
  rw [called] at called'
  cases called'
  dsimp only at located'
  rw [found] at located'
  cases located'
  rcases lies with ⟨folder, _, same⟩ | lies
  · rw [w.locate_of_ne_nil (backing_ne_nil folder filled), segs_backing clean name] at same
    cases Links.name_of_locate same
  · exact out lies

/-- What the ids of an item lead to lies in the trash, and so does what is listed of it, if and
only if no link met from the trashed directory leads to a directory outside. -/
theorem contained_iff (w : World) (top : Bytes) :
    (∀ e, Resolved w top e → Contained w top e) ↔ Tight w top := by
  constructor
  · exact tight_of_contained
  · intro tight e resolved
    induction resolved with
    | entry made found => exact contained_entry tight made found
    | child resolved listed member ih => exact ih.child resolved.isDir listed member

/-! ### A link in a trashed directory -/

/-- `/T` is a trash folder with the directory `x` in it, and `x/link` leads to `/home`. -/
private def linked : Links Bytes where
  node
    | 0 => .dir [(text "T", 1), (text "home", 6)]
    | 1 => .dir [(text "info", 2), (text "files", 3)]
    | 2 => .dir [(text "x.trashinfo", 4)]
    | 3 => .dir [(text "x", 5)]
    | 5 => .dir [(text "link", 7)]
    | 6 => .dir [(text "secret", 8)]
    | 7 => .link true [.name (text "home")]
    | _ => .file
  parent
    | 2 => 1
    | 3 => 1
    | 5 => 3
    | _ => 0
  root := 0

private theorem linked_named :
    ∀ d, ∀ e ∈ linked.entries d, segment e.1 = .name e.1 ∧ Path.slash ∉ e.1
  | 0 | 1 | 2 | 3 | 5 | 6 => by decide
  | 4 | 7 | _ + 8 => nofun

private def world : World where
  fs := linked
  content := fun _ => text "[Trash Info]\nPath=/home/x\n"
  cwd := 0
  uid := text "0"
  folders := [text "/T"]
  named d _ _ found := linked_named d _ (Links.mem_of_entry found)

private theorem world_below {d : Nat} (below : world.fs.Below 5 d) : d = 5 := by
  induction below with
  | refl => rfl
  | tail _ step ih =>
    subst ih
    obtain ⟨isDir, n, found⟩ := step
    have member : (n, _) ∈ [(text "link", 7)] := Links.mem_of_entry found
    cases List.mem_singleton.mp member
    cases isDir

private def secret : TrashEntry where
  id := ⟨text "/T/info/x.trashinfo", text "link/secret"⟩
  isDir := false
  original := some (text "/home/x/link/secret")
  backing := text "/T/files/x/link/secret"

private theorem secret_located : world.locate secret.backing = some ⟨6, some (text "secret")⟩ := by
  decide +kernel

private theorem item_located :
    world.locate (TrashInfo.backingOf (text "/T") (text "x")) = some ⟨3, some (text "x")⟩ := by
  decide +kernel

/-- The id `link/secret` of `x` leads out of the trash. -/
theorem secret_resolved :
    ¬∀ (w : World) (top rel : Bytes) (id : TrashId) (e : TrashEntry),
      TrashId.new top rel = .ok id → entry w id = .ok e → Contained w top e := by
  intro all
  have made : TrashId.new secret.id.top secret.id.rel = .ok secret.id := by decide +kernel
  have resolved : entry world secret.id = .ok secret := by decide +kernel
  obtain ⟨stem, place, called, located, lies⟩ := all world _ _ _ _ made resolved
  have known : TrashInfo.stemOf secret.id.top = some (text "x") := by decide +kernel
  rw [known] at called
  cases called
  rw [secret_located] at located
  cases located
  rcases lies with ⟨folder, member, item⟩ | ⟨folder, member, item, i, found, node, _, below⟩
  · cases List.mem_singleton.mp member
    rw [item_located] at item
    cases item
  · cases List.mem_singleton.mp member
    rw [item_located] at found
    cases found
    have same : i = 5 := by
      have entry : Links.Place.node world.fs ⟨3, some (text "x")⟩ = some 5 := by decide +kernel
      rw [entry] at node
      cases node
      rfl
    subst same
    cases world_below below

end Yazi.Fs.Freedesktop
