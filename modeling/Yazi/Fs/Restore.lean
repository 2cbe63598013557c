import Yazi.Fs.Trash

/-!
What a restore leaves behind, whichever calls fail.

Each entry is restored by itself, and the first error ends the whole. An entry that fails before
its target is reserved has only created missing directories above it; one that is done has moved
everything. In between are the failures of the rename and of the removal of the info file.
-/
namespace Yazi.Fs.Trash
open Base Shared

variable {fails : Call → Bool}

/-! ### One entry -/

/-- Nothing but missing directories above the target was created. -/
def Grown (files files' : Files) (dst : Path) : Prop :=
  ∀ p, files'.get? p = files.get? p ∨
    files.get? p = none ∧ files'.get? p = some .dir ∧ p <+: dst ∧ p ≠ dst

theorem Grown.refl (files : Files) (dst : Path) : Grown files files dst := fun _ => .inl rfl

theorem Grown.kept {files files' : Files} {dst p : Path} {node : Node}
    (grown : Grown files files' dst) (found : files.get? p = some node) :
    files'.get? p = some node := by
  rcases grown p with same | ⟨absent, -⟩
  · exact same.trans found
  · rw [absent] at found
    cases found

private theorem createDirAll_spec (fails : Call → Bool) (files : Files) (rest done : Path) :
    (∀ p, (createDirAll fails files done rest).2.get? p = files.get? p ∨
      files.get? p = none ∧ (createDirAll fails files done rest).2.get? p = some .dir ∧
        p <+: done ++ rest) ∧
    ((createDirAll fails files done rest).1 = .ok () → ∀ p, done <+: p → p ≠ done →
      p <+: done ++ rest → (createDirAll fails files done rest).2.get? p = some .dir) := by
  induction rest generalizing files done with
  | nil =>
    refine ⟨fun p => .inl rfl, fun _ p above other below => ?_⟩
    rw [List.append_nil] at below
    exact absurd (above.eq_of_length_le below.length_le).symm other
  | cons name rest ih =>
    have whole : done ++ name :: rest = (done ++ [name]) ++ rest := by simp
    -- a path from here down is the next one, or below that
    have next : ∀ p, done <+: p → p ≠ done → p <+: done ++ name :: rest → done ++ [name] <+: p := by
      rintro p ⟨q, rfl⟩ other below
      cases q with
      | nil => simp at other
      | cons name' q =>
        rw [List.prefix_append_right_inj, List.cons_prefix_cons] at below
        exact below.1 ▸ ⟨q, by simp⟩
    rw [createDirAll]
    split
    · next isDir =>
      obtain ⟨grown, made⟩ := ih files (done ++ [name])
      rw [whole]
      refine ⟨grown, fun ok p above other below => ?_⟩
      by_cases here : p = done ++ [name]
      · rcases grown p with same | ⟨absent, -⟩
        · rw [same, here, isDir]
        · rw [here, isDir] at absent
          cases absent
      · exact made ok p (next p above other (whole ▸ below)) here below
    · exact ⟨fun p => .inl rfl, nofun⟩
    · next absent =>
      split
      · exact ⟨fun p => .inl rfl, nofun⟩
      · obtain ⟨grown, made⟩ := ih (files.insert (done ++ [name]) .dir) (done ++ [name])
        rw [whole]
        have here : ((files.insert (done ++ [name]) .dir).get? (done ++ [name])) = some .dir :=
          Assoc.get?_insert_self ..
        constructor
        · intro p
          by_cases same : p = done ++ [name]
          · subst same
            refine .inr ⟨absent, ?_, List.prefix_append ..⟩
            rcases grown (done ++ [name]) with kept | ⟨none, -⟩
            · exact kept.trans here
            · rw [here] at none
              cases none
          · have before := Assoc.get?_insert files (done ++ [name]) p .dir
            rw [if_neg (by simpa using same)] at before
            rw [← before]
            exact grown p
        · intro ok p above other below
          by_cases same : p = done ++ [name]
          · subst same
            rcases grown (done ++ [name]) with kept | ⟨none, -⟩
            · exact kept.trans here
            · rw [here] at none
              cases none
          · exact made ok p (next p above other (whole ▸ below)) same below

private theorem above_of_dropLast {p dst : Path} (named : dst ≠ []) (below : p <+: dst.dropLast) :
    p <+: dst ∧ p ≠ dst := by
  refine ⟨below.trans (List.dropLast_prefix dst), ?_⟩
  rintro rfl
  have shorter := below.length_le
  rw [List.length_dropLast] at shorter
  have positive := List.length_pos_iff.mpr named
  omega

private theorem dropLast_of_above {p dst : Path} (below : p <+: dst) (other : p ≠ dst) :
    p <+: dst.dropLast := by
  obtain ⟨q, rfl⟩ := below
  have some : q ≠ [] := by
    rintro rfl
    simp at other
  rw [List.dropLast_append_of_ne_nil some]
  exact List.prefix_append ..

private theorem create_eq_ok {files files' : Files} {isDir : Bool} {path : Path}
    (created : create fails files isDir path = .ok files') : files.get? path = none ∧
      files' = files.insert path (if isDir then .dir else .leaf []) := by
  rw [create] at created
  by_cases present : (files.get? path).isSome = true
  · simp [present] at created
  by_cases failed : fails (if isDir then .createDir path else .createNew path) = true
  · simp [present, failed] at created
  simp only [present, failed, Bool.false_eq_true, if_false, Except.ok.injEq] at created
  exact ⟨by simpa using present, created.symm⟩

/-- What is created for an item to replace. -/
def placeholder : Node → Node
  | .dir => .dir
  | .leaf _ => .leaf []

/-- The target is reserved: it was not there, and all that is above it is. -/
structure Reserved (src dst : Path) (files files' : Files) (node : Node) : Prop where
  source : files.get? src = some node
  absent : files.get? dst = none
  grown : ∀ p, p ≠ dst → files'.get? p = files.get? p ∨
    files.get? p = none ∧ files'.get? p = some .dir ∧ p <+: dst
  parents : ∀ p, p ≠ [] → p <+: dst → p ≠ dst → files'.get? p = some .dir
  held : files'.get? dst = some (placeholder node)

theorem reserve_spec (src : Path) {dst : Path} (named : dst ≠ []) (files : Files) :
    (∃ e, (reserve fails src dst files).1 = .error e ∧ Grown files (reserve fails src dst files).2 dst) ∨
    ∃ node, (reserve fails src dst files).1 = .ok () ∧
      Reserved src dst files (reserve fails src dst files).2 node := by
  rw [reserve]
  split
  · exact .inl ⟨_, rfl, .refl files dst⟩
  next node asked =>
  have source : files.get? src = some node := by
    rw [symlinkMetadata] at asked
    split at asked
    · split at asked
      · cases asked
      · cases asked
        assumption
    · cases asked
  obtain ⟨grown, made⟩ := createDirAll_spec fails files dst.dropLast []
  have grown : Grown files (createDirAll fails files [] dst.dropLast).2 dst := by
    intro p
    rcases grown p with same | ⟨absent, isDir, below⟩
    · exact .inl same
    · exact .inr ⟨absent, isDir, above_of_dropLast named below⟩
  split
  · next e files' result =>
    rw [result] at grown
    exact .inl ⟨e, rfl, grown⟩
  next files' result =>
  rw [result] at grown made
  split
  · next e created => exact .inl ⟨e, rfl, grown⟩
  next files'' created =>
  refine .inr ⟨node, rfl, ?_⟩
  obtain ⟨absent, rfl⟩ := create_eq_ok created
  refine ⟨source, ?_, fun p other => ?_, fun p some below other => ?_, ?_⟩
  · rcases grown dst with same | ⟨none, -⟩
    · rw [← same, absent]
    · exact none
  · rw [Assoc.get?_insert, if_neg (by simpa using other)]
    rcases grown p with same | ⟨none, isDir, below, -⟩
    · exact .inl same
    · exact .inr ⟨none, isDir, below⟩
  · rw [Assoc.get?_insert, if_neg (by simpa using other)]
    exact made rfl p List.nil_prefix some (dropLast_of_above below other)
  · rw [Assoc.get?_insert_self]
    cases node <;> rfl

/-- What was at the source is at the target, and nowhere else. -/
structure Moved (src dst : Path) (files files' : Files) : Prop where
  bare : ∀ q, files.get? (dst ++ q) = none
  apart : Tree.Apart src dst
  parents : ∀ p, p ≠ [] → p <+: dst → p ≠ dst → files'.get? p = some .dir
  there : ∀ q, files'.get? (dst ++ q) = files.get? (src ++ q)
  gone : ∀ q, files'.get? (src ++ q) = none
  grown : ∀ p, ¬dst <+: p → ¬src <+: p → files'.get? p = files.get? p ∨
    files.get? p = none ∧ files'.get? p = some .dir ∧ p <+: dst

private theorem rename_eq_ok {src dst : Path} {files files' : Files}
    (renamed : rename fails files src dst = .ok files') :
    files.bare dst = true ∧ Tree.Apart src dst ∧ files' = files.move src dst := by
  by_cases allowed : replaceable files src dst = true ∧ ¬src <+: dst ∧ ¬dst <+: src ∧
      fails (.rename src dst) = false
  · rw [rename, if_pos allowed] at renamed
    obtain ⟨fits, below, above, -⟩ := allowed
    refine ⟨?_, ⟨below, above⟩, (Except.ok.inj renamed).symm⟩
    simp only [replaceable] at fits
    split at fits
    · exact fits
    · exact fits
    · cases fits
  · rw [rename, if_neg allowed] at renamed
    cases renamed

theorem rename_spec {src dst : Path} {files files' files'' : Files} {node : Node}
    (reserved : Reserved src dst files files' node)
    (renamed : rename fails files' src dst = .ok files'') : Moved src dst files files'' := by
  obtain ⟨bare, apart, rfl⟩ := rename_eq_ok renamed
  -- the reserved target has nothing below it
  have unheld : ∀ q, files.get? (dst ++ q) = none := by
    intro q
    by_contra held
    obtain ⟨n, found⟩ := Option.ne_none_iff_exists'.mp held
    have other : dst ++ q ≠ dst := by
      intro same
      rw [same, reserved.absent] at found
      cases found
    rcases reserved.grown _ other with same | ⟨none, -⟩
    · exact other (Tree.bare_iff bare (same.trans found) (List.prefix_append ..))
    · rw [none] at found
      cases found
  refine ⟨unheld, apart, fun p some below other => ?_, fun q => ?_, fun q => ?_, fun p out out' => ?_⟩
  · have outside : ¬dst <+: p := fun h => other (below.eq_of_length_le h.length_le)
    have elsewhere : ¬src <+: p := fun h => apart.1 (h.trans below)
    rw [Tree.get?_move _ apart, if_neg outside, if_neg elsewhere]
    exact reserved.parents p some below other
  · rw [Tree.get?_move _ apart, if_pos (List.prefix_append ..), List.drop_left]
    have other : src ++ q ≠ dst := by
      rintro rfl
      exact apart.1 (List.prefix_append ..)
    rcases reserved.grown _ other with same | ⟨-, -, under⟩
    · exact same
    · exact absurd ((List.prefix_append src q).trans under) apart.1
  · have outside : ¬dst <+: src ++ q := apart.not_both (List.prefix_append ..)
    rw [Tree.get?_move _ apart, if_neg outside, if_pos (List.prefix_append ..)]
  · rw [Tree.get?_move _ apart, if_neg out, if_neg out']
    refine reserved.grown p ?_
    rintro rfl
    exact out (List.prefix_refl p)

/-- The rename over a target that was reserved fails, or the removal of an info file that is
still there. -/
def spoils (fails : Call → Bool) (entry : TrashEntry) (files : Files) : Bool :=
  match entry.original with
  | none => false
  | some dst =>
    match reserve fails entry.backing dst files with
    | (.error _, _) => false
    | (.ok _, files) =>
      match rename fails files entry.backing dst with
      | .error _ => true
      | .ok files =>
        !entry.hasRel && (files.get? entry.top).isSome &&
          !(removeFile fails files entry.top).toBool

/-- No step on the way is spoiled. -/
def smooth (fails : Call → Bool) : List TrashEntry → Files → Bool
  | [], _ => true
  | entry :: rest, files =>
    !spoils fails entry files &&
      match restoreEntry fails entry files with
      | (.ok _, files) => smooth fails rest files
      | (.error _, _) => true

/-- The entry is done: it was moved, and its info file is gone if it has one of its own. -/
def Settled (entry : TrashEntry) (dst : Path) (files files' : Files) : Prop :=
  ∃ between, Moved entry.backing dst files between ∧ ∀ p, files'.get? p =
    if entry.hasRel = false ∧ p = entry.top then none else between.get? p

/-- The entry is left in between. -/
def Broken (entry : TrashEntry) (dst : Path) (files files' : Files) : Prop :=
  (∃ node, Reserved entry.backing dst files files' node) ∨
    Moved entry.backing dst files files' ∧ entry.hasRel = false ∧
      (files'.get? entry.top).isSome = true

theorem restoreEntry_spec (fails : Call → Bool) {entry : TrashEntry} {dst : Path} (original : entry.original = some dst)
    (named : dst ≠ []) (files : Files) :
    (spoils fails entry files = false ∧ (∃ e, (restoreEntry fails entry files).1 = .error e) ∧
      Grown files (restoreEntry fails entry files).2 dst) ∨
    (spoils fails entry files = false ∧ Settled entry dst files (restoreEntry fails entry files).2) ∨
    (spoils fails entry files = true ∧ (∃ e, (restoreEntry fails entry files).1 = .error e) ∧
      Broken entry dst files (restoreEntry fails entry files).2) := by
  simp only [spoils, restoreEntry, restoreItem, original]
  rcases reserve_spec entry.backing named files with ⟨e, failed, grown⟩ | ⟨node, made, reserved⟩
  · cases result : reserve fails entry.backing dst files with | mk r files' =>
    rw [result] at failed grown
    obtain rfl : r = _ := failed
    exact .inl ⟨rfl, ⟨e, rfl⟩, grown⟩
  cases result : reserve fails entry.backing dst files with | mk r files' =>
  rw [result] at made reserved
  obtain rfl : r = _ := made
  dsimp only at reserved ⊢
  cases renamed : rename fails files' entry.backing dst with
  | error e => exact .inr (.inr ⟨rfl, ⟨e, rfl⟩, .inl ⟨node, reserved⟩⟩)
  | ok files'' =>
    have moved := rename_spec reserved renamed
    dsimp only
    cases child : entry.hasRel with
    | true => exact .inr (.inl ⟨rfl, files'', moved, by simp [child]⟩)
    | false =>
      cases info : files''.get? entry.top with
      | none =>
        have lost : removeFile fails files'' entry.top = .error (.io (.removeFile entry.top)) := by
          simp [removeFile, info]
        refine .inr (.inl ⟨by simp, files'', moved, fun p => ?_⟩)
        simp only [lost, Bool.false_eq_true, if_false]
        split
        · next here => rw [here.2, info]
        · rfl
      | some node' =>
        cases removed : removeFile fails files'' entry.top with
        | error e =>
          refine .inr (.inr ⟨rfl, ⟨e, rfl⟩, .inr ⟨moved, child, ?_⟩⟩)
          exact Option.isSome_of_eq_some info
        | ok last =>
          refine .inr (.inl ⟨rfl, files'', moved, fun p => ?_⟩)
          have erased : last = files''.erase entry.top := by
            rw [removeFile, info] at removed
            split at removed
            · split at removed
              · cases removed
              · exact (Except.ok.inj removed).symm
            · cases removed
          simp only [Bool.false_eq_true, if_false, child, true_and, erased, Assoc.get?_erase]
          by_cases here : p = entry.top
          · simp [here]
          · simp [here, Ne.symm here]

/-! ### The trash -/

/-- The trash folders are there, none in another, and an info file says what its item is. -/
structure Laid (items : List TrashInfo) (files : Files) : Prop where
  parsed : ∀ i ∈ items, ∀ j ∈ items, i.info = j.info → i = j
  roots : ∀ i ∈ items, ∀ j ∈ items, i.root <+: j.root → i.root = j.root
  there : ∀ i ∈ items, ∀ p, p ≠ [] → p <+: i.root → files.get? p = some .dir

/-- Entries of items that are there, whose original locations have names and are not in a trash
folder. -/
structure Handed (items : List TrashInfo) (files : Files) (entry : TrashEntry) : Prop where
  item : ∃ i ∈ items, entry = i.entry entry.rel
  backing : (files.get? entry.backing).isSome = true
  original : ∃ dst, entry.original = some dst ∧ dst ≠ [] ∧ ∀ i ∈ items, ¬i.root <+: dst

section layout
variable {items : List TrashInfo} {files : Files} {entry other : TrashEntry}

/-- The path is in a trash folder. -/
def Inside (items : List TrashInfo) (p : Path) : Prop := ∃ i ∈ items, i.root <+: p

theorem Handed.inside (handed : Handed items files entry) (q : Path) :
    Inside items (entry.backing ++ q) := by
  obtain ⟨i, member, shape⟩ := handed.item
  refine ⟨i, member, [text "files", i.stem] ++ entry.rel ++ q, ?_⟩
  rw [shape]
  simp [TrashInfo.entry, TrashInfo.backing]

theorem Handed.inside_top (handed : Handed items files entry) : Inside items entry.top := by
  obtain ⟨i, member, shape⟩ := handed.item
  rw [shape]
  exact ⟨i, member, List.prefix_append ..⟩

/-- Backings that have a path in common are backings of one item. -/
theorem covers_of_backing (laid : Laid items files) (first : Handed items files entry)
    (second : Handed items files other) {p : Path} (here : entry.backing <+: p)
    (there : other.backing <+: p) : entry.covers other = true ∨ other.covers entry = true := by
  obtain ⟨i, left, shape⟩ := first.item
  obtain ⟨j, right, shape'⟩ := second.item
  have same : i.root = j.root := by
    have above : i.root <+: p := by
      refine List.IsPrefix.trans ?_ here
      rw [shape]
      simp [TrashInfo.entry, TrashInfo.backing]
    have above' : j.root <+: p := by
      refine List.IsPrefix.trans ?_ there
      rw [shape']
      simp [TrashInfo.entry, TrashInfo.backing]
    rcases List.prefix_or_prefix_of_prefix above above' with h | h
    · exact laid.roots i left j right h
    · exact (laid.roots j right i left h).symm
  have compare : entry.backing <+: other.backing ∨ other.backing <+: entry.backing :=
    List.prefix_or_prefix_of_prefix here there
  rw [shape, shape'] at compare
  simp only [TrashInfo.entry, TrashInfo.backing, same, List.append_assoc, List.prefix_append_right_inj,
    List.cons_append, List.cons_prefix_cons, true_and, List.nil_append] at compare
  have item : i = j := by
    apply laid.parsed i left j right
    rcases compare with ⟨stem, -⟩ | ⟨stem, -⟩ <;> simp [TrashInfo.info, same, stem]
  subst item
  have top : entry.top = other.top := by rw [shape, shape']; rfl
  rcases compare with ⟨-, below⟩ | ⟨-, below⟩
  · exact .inl (by simp [TrashEntry.covers, top, below])
  · exact .inr (by simp [TrashEntry.covers, top, below])

/-- An info file is in no backing. -/
theorem top_not_below (laid : Laid items files) (first : Handed items files entry)
    (second : Handed items files other) (q : Path) : other.top ≠ entry.backing ++ q := by
  obtain ⟨i, left, shape⟩ := first.item
  obtain ⟨j, right, shape'⟩ := second.item
  intro equal
  have whole : j.root ++ [text "info", j.stem ++ text ".trashinfo"] =
      i.root ++ ([text "files", i.stem] ++ (entry.rel ++ q)) := by
    rw [shape, shape'] at equal
    simpa [TrashInfo.entry, TrashInfo.info, TrashInfo.backing] using equal
  have same : i.root = j.root := by
    have above : i.root <+: j.root ++ [text "info", j.stem ++ text ".trashinfo"] :=
      whole ▸ List.prefix_append ..
    rcases List.prefix_or_prefix_of_prefix above (List.prefix_append ..) with h | h
    · exact laid.roots i left j right h
    · exact (laid.roots j right i left h).symm
  rw [same, List.append_cancel_left_eq] at whole
  have names : text "info" = text "files" := by
    simpa using congrArg List.head? whole
  exact absurd names (by decide)

/-- An entry that another covers lies in it, in the trash and where it was. -/
theorem parts_of_covers (laid : Laid items files) (first : Handed items files entry)
    (second : Handed items files other) (covers : entry.covers other = true) :
    ∃ s dst, other.rel = entry.rel ++ s ∧ other.backing = entry.backing ++ s ∧
      entry.original = some dst ∧ other.original = some (dst ++ s) := by
  obtain ⟨i, left, shape⟩ := first.item
  obtain ⟨j, right, shape'⟩ := second.item
  obtain ⟨top, s, rel⟩ := of_decide_eq_true covers
  have item : i = j := by
    rw [shape, shape'] at top
    exact laid.parsed i left j right top
  subst item
  refine ⟨s, i.original ++ entry.rel, rel.symm, ?_, ?_, ?_⟩
  · rw [shape', shape, ← rel]
    simp [TrashInfo.entry]
  · rw [shape]
    rfl
  · rw [shape', ← rel]
    simp [TrashInfo.entry]

/-- What an entry takes from the trash is below a trash folder. -/
theorem not_above_root (laid : Laid items files) (handed : Handed items files entry) {i : TrashInfo}
    (member : i ∈ items) {p : Path} (below : p <+: i.root) :
    ¬entry.backing <+: p ∧ p ≠ entry.top := by
  obtain ⟨j, right, shape⟩ := handed.item
  have deeper : ∀ names : Path, names ≠ [] → ¬j.root ++ names <+: i.root := by
    intro names some h
    have same := laid.roots j right i member ((List.prefix_append ..).trans h)
    have longer := h.length_le
    have positive := List.length_pos_iff.mpr some
    rw [same, List.length_append] at longer
    omega
  constructor
  · intro h
    refine deeper ([text "files", j.stem] ++ entry.rel) (by simp) ?_
    rw [shape] at h
    simpa [TrashInfo.entry, TrashInfo.backing] using h.trans below
  · rintro rfl
    rw [shape] at below
    exact deeper _ (by simp) below

theorem not_inside_of_above (handed : Handed items files entry) {dst p : Path}
    (original : entry.original = some dst) (above : p <+: dst) : ¬Inside items p := by
  obtain ⟨_, same, -, outside⟩ := handed.original
  cases original.symm.trans same
  rintro ⟨i, member, below⟩
  exact outside i member (below.trans above)

end layout

/-! ### What holds in the end -/

section outcome
variable (files files' : Files)

/-- It is in the trash as it was. -/
structure Whole (entry : TrashEntry) : Prop where
  backing : ∀ q node, files.get? (entry.backing ++ q) = some node →
    files'.get? (entry.backing ++ q) = some node
  info : ∀ node, files.get? entry.top = some node → files'.get? entry.top = some node

/-- It is at its original location, and gone from the trash. -/
structure Restored (entry : TrashEntry) : Prop where
  there : ∃ dst, entry.original = some dst ∧ ∀ q node,
    files.get? (entry.backing ++ q) = some node → files'.get? (dst ++ q) = some node
  gone : ∀ q, files'.get? (entry.backing ++ q) = none
  info : entry.hasRel = false → files'.get? entry.top = none

/-- Whatever is at the path was there before, belongs to what was restored before, or is a
directory that was missing above the location of such an entry. -/
def Untouched (before : List TrashEntry) (p : Path) : Prop :=
  files'.get? p = files.get? p ∨
    (∃ entry ∈ before, ∃ dst q, entry.original = some dst ∧ p = dst ++ q ∧
      files'.get? p = files.get? (entry.backing ++ q)) ∨
    files.get? p = none ∧ files'.get? p = some .dir ∧
      ∃ entry ∈ before, ∃ dst, entry.original = some dst ∧ p <+: dst ∧ p ≠ dst

/-- Of the entries that were handed to a restore, those in `kept` were tried, in this order. -/
structure Atomic (entries kept : List TrashEntry) : Prop where
  each : ∀ before entry after, kept = before ++ entry :: after →
    ∀ other ∈ entries, entry.covers other = true →
      (Whole files files' other ∧
        ∀ dst, other.original = some dst → Untouched files files' before dst) ∨
      Restored files files' other
  all : ∀ other ∈ entries, ∃ entry ∈ kept, entry.covers other = true
  unchanged : ∀ p node,
    (∀ entry ∈ entries, ¬entry.backing <+: p ∧ (entry.hasRel = false → p ≠ entry.top)) →
      files.get? p = some node → files'.get? p = some node

/-- The entries that are done were restored, and nothing else happened. -/
structure After (items : List TrashInfo) (done : List TrashEntry) : Prop where
  restored : ∀ entry ∈ done, Restored files files' entry
  kept : ∀ p node,
    (∀ entry ∈ done, ¬entry.backing <+: p ∧ (entry.hasRel = false → p ≠ entry.top)) →
      files.get? p = some node → files'.get? p = some node
  new : ∀ p node, files'.get? p = some node → files.get? p = some node ∨
    (∃ entry ∈ done, ∃ dst q, entry.original = some dst ∧ p = dst ++ q ∧
      files.get? (entry.backing ++ q) = some node) ∨
    files.get? p = none ∧ node = .dir ∧
      ∃ entry ∈ done, ∃ dst, entry.original = some dst ∧ p <+: dst ∧ p ≠ dst
  parents : ∀ entry ∈ done, ∀ dst, entry.original = some dst →
    ∀ p, p ≠ [] → p <+: dst → p ≠ dst → files'.get? p = some .dir
  outside : ∀ entry ∈ done, ∀ dst, entry.original = some dst → ∀ q, ¬Inside items (dst ++ q)

end outcome

section after
variable {items : List TrashInfo} {files files' files'' : Files} {done : List TrashEntry}
  {entry : TrashEntry} {dst : Path}

theorem after_nil : After files files items [] where
  restored := nofun
  kept := fun _ _ _ found => found
  new := fun _ _ found => .inl found
  parents := nofun
  outside := nofun

/-- The trash folders stay. -/
theorem After.root (after : After files files' items done) (laid : Laid items files)
    (handed : ∀ entry ∈ done, Handed items files entry) {i : TrashInfo} (member : i ∈ items)
    {p : Path} (named : p ≠ []) (below : p <+: i.root) : files'.get? p = some .dir := by
  refine after.kept p .dir (fun entry old => ?_) (laid.there i member p named below)
  obtain ⟨elsewhere, other⟩ := not_above_root laid (handed entry old) member below
  exact ⟨elsewhere, fun _ => other⟩

/-- Nothing in a trash folder is new. -/
theorem After.old (after : After files files' items done)
    (handed : ∀ entry ∈ done, Handed items files entry) {p : Path} {node : Node}
    (inside : Inside items p) (found : files'.get? p = some node) : files.get? p = some node := by
  rcases after.new p node found with old | ⟨entry, member, dst, q, original, rfl, -⟩ |
    ⟨-, -, entry, member, dst, original, above, -⟩
  · exact old
  · exact absurd inside (after.outside entry member dst original q)
  · exact absurd inside (not_inside_of_above (handed entry member) original above)

theorem after_settled (after : After files files' items done) (laid : Laid items files)
    (handed : ∀ entry ∈ done, Handed items files entry) (here : Handed items files entry)
    (apart : ∀ other ∈ done, ¬other.covers entry = true ∧ ¬entry.covers other = true)
    (original : entry.original = some dst) (settled : Settled entry dst files' files'') :
    After files files'' items (done ++ [entry]) := by
  obtain ⟨between, moved, last⟩ := settled
  have named : dst ≠ [] := by
    obtain ⟨_, same, named, -⟩ := here.original
    cases original.symm.trans same
    exact named
  -- below the target nothing is in a trash folder, since those are there
  have outside : ∀ q, ¬Inside items (dst ++ q) := by
    rintro q ⟨i, member, below⟩
    rcases List.prefix_or_prefix_of_prefix below (List.prefix_append dst q) with h | h
    · exact not_inside_of_above here original (List.prefix_refl dst) ⟨i, member, h⟩
    · have isDir := after.root laid handed member named h
      have absent := moved.bare []
      rw [List.append_nil, isDir] at absent
      cases absent
  have within : ∀ p, Inside items p → ¬dst <+: p ∧ ¬p <+: dst := by
    refine fun p inside => ⟨fun h => ?_, fun h => not_inside_of_above here original h inside⟩
    rw [Tree.eq_append_drop h] at inside
    exact outside _ inside
  have within_src : ∀ p, entry.backing <+: p → Inside items p := by
    intro p below
    rw [Tree.eq_append_drop below]
    exact here.inside _
  -- what stays, what stays away, and what is not in the trash
  have stays : ∀ p node, files'.get? p = some node → ¬entry.backing <+: p →
      (entry.hasRel = false → p ≠ entry.top) → files''.get? p = some node := by
    intro p node found elsewhere other
    rw [last, if_neg (fun h => other h.1 h.2)]
    have unheld : ¬dst <+: p := by
      intro below
      have absent := moved.bare (p.drop dst.length)
      rw [← Tree.eq_append_drop below, found] at absent
      cases absent
    rcases moved.grown p unheld elsewhere with same | ⟨absent, -⟩
    · exact same.trans found
    · rw [absent] at found
      cases found
  have stays_away : ∀ p, Inside items p → files'.get? p = none → files''.get? p = none := by
    intro p inside absent
    rw [last]
    split
    · rfl
    by_cases below : entry.backing <+: p
    · rw [Tree.eq_append_drop below]
      exact moved.gone _
    · rcases moved.grown p (within p inside).1 below with same | ⟨-, -, above⟩
      · exact same.trans absent
      · exact absurd above (within p inside).2
  have free : ∀ p, ¬Inside items p → files''.get? p = between.get? p := by
    intro p elsewhere
    rw [last, if_neg]
    rintro ⟨-, rfl⟩
    exact elsewhere here.inside_top
  have free_stays : ∀ p node, ¬Inside items p → files'.get? p = some node →
      files''.get? p = some node := by
    intro p node elsewhere found
    refine stays p node found (fun below => elsewhere (within_src p below)) fun _ same => ?_
    exact elsewhere (same ▸ here.inside_top)
  refine ⟨fun other member => ?_, fun p node elsewhere found => ?_, fun p node found => ?_,
    fun other member dst' original' p named' below strict => ?_, fun other member dst' original' => ?_⟩
  · rcases List.mem_append.mp member with old | new
    · obtain ⟨⟨dst', original', there⟩, gone, info⟩ := after.restored other old
      refine ⟨⟨dst', original', fun q node found => ?_⟩, fun q => ?_, fun top => ?_⟩
      · exact free_stays _ node (after.outside other old dst' original' q) (there q node found)
      · exact stays_away _ ((handed other old).inside q) (gone q)
      · exact stays_away _ (handed other old).inside_top (info top)
    · obtain rfl := List.mem_singleton.mp new
      refine ⟨⟨dst, original, fun q node found => ?_⟩, fun q => ?_, fun top => ?_⟩
      · rw [free _ (outside q), moved.there]
        refine after.kept _ node (fun j old => ⟨fun below => ?_, fun _ => ?_⟩) found
        · rcases covers_of_backing laid (handed j old) here below (List.prefix_append ..) with h | h
          · exact (apart j old).1 h
          · exact (apart j old).2 h
        · exact (top_not_below laid here (handed j old) q).symm
      · rw [last, moved.gone, ite_self]
      · rw [last, if_pos ⟨top, rfl⟩]
  · have before := after.kept p node (fun j old => elsewhere j (List.mem_append_left _ old)) found
    obtain ⟨apart', other⟩ := elsewhere entry (List.mem_append_right _ List.mem_cons_self)
    exact stays p node before apart' other
  · rw [last] at found
    split at found
    · cases found
    by_cases below : dst <+: p
    · rw [Tree.eq_append_drop below, moved.there] at found
      have old := after.old handed (here.inside _) found
      exact .inr (.inl ⟨entry, List.mem_append_right _ List.mem_cons_self, dst, _, original,
        Tree.eq_append_drop below, old⟩)
    have elsewhere : ¬entry.backing <+: p := by
      intro h
      rw [Tree.eq_append_drop h, moved.gone] at found
      cases found
    rcases moved.grown p below elsewhere with same | ⟨absent, isDir, above⟩
    · rcases after.new p node (same ▸ found) with old | ⟨j, old, h⟩ | ⟨none, isDir, j, old, h⟩
      · exact .inl old
      · exact .inr (.inl ⟨j, List.mem_append_left _ old, h⟩)
      · exact .inr (.inr ⟨none, isDir, j, List.mem_append_left _ old, h⟩)
    · rw [isDir] at found
      cases found
      have strict : p ≠ dst := by
        rintro rfl
        exact below (List.prefix_refl p)
      refine .inr (.inr ⟨?_, rfl, entry, List.mem_append_right _ List.mem_cons_self, dst, original,
        above, strict⟩)
      by_contra held
      obtain ⟨n, there⟩ := Option.ne_none_iff_exists'.mp held
      have free : ¬Inside items p := not_inside_of_above here original above
      have before := after.kept p n (fun j old => ⟨fun h => free ?_, fun _ same => free ?_⟩) there
      · rw [absent] at before
        cases before
      · rw [Tree.eq_append_drop h]
        exact (handed j old).inside _
      · exact same ▸ (handed j old).inside_top
  · rcases List.mem_append.mp member with old | new
    · exact free_stays p _ (not_inside_of_above (handed other old) original' below)
        (after.parents other old dst' original' p named' below strict)
    · obtain rfl := List.mem_singleton.mp new
      cases original.symm.trans original'
      rw [free p (not_inside_of_above here original below)]
      exact moved.parents p named' below strict
  · rcases List.mem_append.mp member with old | new
    · exact after.outside other old dst' original'
    · obtain rfl := List.mem_singleton.mp new
      cases original.symm.trans original'
      exact outside

/-- Neither entry comes with the other. -/
def Unrelated (first second : TrashEntry) : Prop :=
  ¬first.covers second = true ∧ ¬second.covers first = true

/-- A restore that is not spoiled ends with an entry that was not begun, or with the last; one that
is spoiled, with an entry in between. -/
theorem restore_spec (fails : Call → Bool) (rest : List TrashEntry) (after : After files files' items done)
    (laid : Laid items files) (handed : ∀ entry ∈ done ++ rest, Handed items files entry)
    (pairwise : (done ++ rest).Pairwise Unrelated) :
    (smooth fails rest files' = true ∧ ∃ (done' rest' : List TrashEntry) (last : Files),
      done ++ rest = done' ++ rest' ∧ After files last items done' ∧
      ((restore fails rest files').2 = last ∨ ∃ entry rest'' dst, rest' = entry :: rest'' ∧
        entry.original = some dst ∧ Grown last (restore fails rest files').2 dst)) ∨
    smooth fails rest files' = false ∧
      ∃ (done' : List TrashEntry) (entry : TrashEntry) (rest' : List TrashEntry) (dst : Path)
        (last : Files), done ++ rest = done' ++ entry :: rest' ∧ entry.original = some dst ∧
      After files last items done' ∧ Broken entry dst last (restore fails rest files').2 := by
  induction rest generalizing done files' with
  | nil => exact .inl ⟨rfl, done, [], files', rfl, after, .inl rfl⟩
  | cons entry rest ih =>
    have handedDone : ∀ other ∈ done, Handed items files other :=
      fun other old => handed other (List.mem_append_left _ old)
    have here := handed entry (List.mem_append_right _ List.mem_cons_self)
    obtain ⟨dst, original, named, -⟩ := here.original
    have apart : ∀ other ∈ done, ¬other.covers entry = true ∧ ¬entry.covers other = true :=
      fun other old => (List.pairwise_append.mp pairwise).2.2 other old entry List.mem_cons_self
    rw [smooth, restore]
    rcases restoreEntry_spec fails original named files' with
      ⟨calm, ⟨e, failed⟩, grown⟩ | ⟨calm, settled⟩ | ⟨spoiled, ⟨e, failed⟩, broken⟩
    · cases result : restoreEntry fails entry files' with | mk r last =>
      rw [result] at failed grown
      obtain rfl : r = _ := failed
      exact .inl ⟨by simp [calm], done, entry :: rest, files', rfl, after,
        .inr ⟨entry, rest, dst, rfl, original, grown⟩⟩
    · have next := after_settled after laid handedDone here apart original settled
      have whole : done ++ entry :: rest = (done ++ [entry]) ++ rest := by simp
      cases result : restoreEntry fails entry files' with | mk r last =>
      rw [result] at next
      cases r with
      | error e =>
        exact .inl ⟨by simp [calm], done ++ [entry], rest, last, whole, next, .inl rfl⟩
      | ok _ =>
        rw [whole] at handed pairwise ⊢
        simpa [calm] using ih next handed pairwise
    · cases result : restoreEntry fails entry files' with | mk r last =>
      rw [result] at failed broken
      obtain rfl : r = _ := failed
      exact .inr ⟨by simp [spoiled], done, entry, rest, dst, files', rfl, original, after, broken⟩

end after

/-! ### The entries that are kept -/

section retain
variable {first second third : TrashEntry}

theorem covers_refl (entry : TrashEntry) : entry.covers entry = true := by
  simp [TrashEntry.covers]

theorem covers_trans (above : first.covers second = true) (below : second.covers third = true) :
    first.covers third = true := by
  obtain ⟨top, rel⟩ := of_decide_eq_true above
  obtain ⟨top', rel'⟩ := of_decide_eq_true below
  simp [TrashEntry.covers, top, top', rel.trans rel']

/-- Of two entries that cover a third, one covers the other. -/
theorem covers_total (left : first.covers third = true) (right : second.covers third = true) :
    first.covers second = true ∨ second.covers first = true := by
  obtain ⟨top, rel⟩ := of_decide_eq_true left
  obtain ⟨top', rel'⟩ := of_decide_eq_true right
  have same : first.top = second.top := top.trans top'.symm
  rcases List.prefix_or_prefix_of_prefix rel rel' with h | h
  · exact .inl (by simp [TrashEntry.covers, same, h])
  · exact .inr (by simp [TrashEntry.covers, same, h])

theorem retain_sublist (seen l : List TrashEntry) : (retain seen l).Sublist l := by
  induction l generalizing seen with
  | nil => exact .slnil
  | cons entry l ih =>
    rw [retain]
    split
    · exact (ih seen).cons _
    · exact (ih (seen ++ [entry])).cons_cons _

theorem not_covered_of_retain {seen l : List TrashEntry} {entry : TrashEntry}
    (member : entry ∈ retain seen l) : ∀ other ∈ seen, ¬other.covers entry = true := by
  induction l generalizing seen with
  | nil => cases member
  | cons head l ih =>
    rw [retain] at member
    split at member
    · exact ih member
    · next fresh =>
      rcases List.mem_cons.mp member with rfl | member
      · exact fun other old covers => fresh (List.any_eq_true.mpr ⟨other, old, covers⟩)
      · exact fun other old => ih member other (List.mem_append_left _ old)

theorem covered_of_retain (seen : List TrashEntry) {l : List TrashEntry} {entry : TrashEntry}
    (member : entry ∈ l) :
    ∃ other ∈ seen ++ retain seen l, other.covers entry = true := by
  induction l generalizing seen with
  | nil => cases member
  | cons head l ih =>
    rw [retain]
    split
    · next covered =>
      rcases List.mem_cons.mp member with rfl | member
      · obtain ⟨other, old, covers⟩ := List.any_eq_true.mp covered
        exact ⟨other, List.mem_append_left _ old, covers⟩
      · exact ih seen member
    · rcases List.mem_cons.mp member with rfl | member
      · exact ⟨entry, List.mem_append_right _ List.mem_cons_self, covers_refl entry⟩
      · obtain ⟨other, there, covers⟩ := ih (seen ++ [head]) member
        exact ⟨other, by simpa using there, covers⟩

/-- Where the shorter paths come first, no entry that is kept covers another. -/
theorem retain_unrelated (seen : List TrashEntry) {l : List TrashEntry}
    (sorted : l.Pairwise fun a b => a.rel.length ≤ b.rel.length) :
    (retain seen l).Pairwise Unrelated := by
  induction l generalizing seen with
  | nil => exact .nil
  | cons entry l ih =>
    obtain ⟨first, sorted⟩ := List.pairwise_cons.mp sorted
    rw [retain]
    split
    · exact ih seen sorted
    · refine List.pairwise_cons.mpr ⟨fun other member => ?_, ih _ sorted⟩
      have fresh := not_covered_of_retain member entry (List.mem_append_right _ List.mem_cons_self)
      refine ⟨fresh, fun covers => fresh ?_⟩
      -- one that is not shorter and covers it has the same path
      obtain ⟨top, rel⟩ := of_decide_eq_true covers
      have same := rel.eq_of_length_le (first other ((retain_sublist _ _).subset member))
      simp [TrashEntry.covers, top, same]

end retain

/-! ### The whole restore -/

section restoration
variable {items : List TrashInfo} {files last final : Files} {entries done rest : List TrashEntry}

theorem restored_of_covers (laid : Laid items files) {entry other : TrashEntry}
    (first : Handed items files entry) (second : Handed items files other)
    (covers : entry.covers other = true) (restored : Restored files final entry) :
    Restored files final other := by
  obtain ⟨s, dst, rel, backing, original, original'⟩ := parts_of_covers laid first second covers
  obtain ⟨⟨_, same, there⟩, gone, info⟩ := restored
  cases original.symm.trans same
  refine ⟨⟨dst ++ s, original', fun q node found => ?_⟩, fun q => ?_, fun top => ?_⟩
  · rw [backing, List.append_assoc] at found
    rw [List.append_assoc]
    exact there _ node found
  · rw [backing, List.append_assoc]
    exact gone _
  · -- an entry without a path is covered by its like only
    have none : other.rel = [] := by simpa [TrashEntry.hasRel] using top
    rw [rel] at none
    have own : entry.hasRel = false := by
      simp [TrashEntry.hasRel, (List.append_eq_nil_iff.mp none).1]
    rw [← (of_decide_eq_true covers).1]
    exact info own

/-- Missing directories above a target do not spoil what was restored. -/
theorem Restored.grown {entry next : TrashEntry} {dst : Path} (restored : Restored files last entry)
    (here : Handed items files entry) (target : Handed items files next)
    (original : next.original = some dst) (grown : Grown last final dst) :
    Restored files final entry := by
  have gone : ∀ p, Inside items p → last.get? p = none → final.get? p = none := by
    intro p inside absent
    rcases grown p with same | ⟨-, -, above, -⟩
    · exact same.trans absent
    · exact absurd inside (not_inside_of_above target original above)
  obtain ⟨dst', own, there⟩ := restored.there
  refine ⟨⟨dst', own, fun q node found => grown.kept (there q node found)⟩, fun q => ?_, fun top => ?_⟩
  · exact gone _ (here.inside q) (restored.gone q)
  · exact gone _ here.inside_top (restored.info top)

/-- An entry that none of those that are done has to do with is where it was. -/
theorem After.whole (after : After files last items done) (laid : Laid items files)
    (handed : ∀ entry ∈ done, Handed items files entry) {other : TrashEntry}
    (here : Handed items files other) (apart : ∀ entry ∈ done, Unrelated entry other) :
    Whole files last other where
  backing := by
    intro q node found
    refine after.kept _ node (fun entry old => ⟨fun below => ?_, fun _ => ?_⟩) found
    · rcases covers_of_backing laid (handed entry old) here below (List.prefix_append ..) with h | h
      · exact (apart entry old).1 h
      · exact (apart entry old).2 h
    · exact (top_not_below laid here (handed entry old) q).symm
  info := by
    intro node found
    refine after.kept _ node (fun entry old => ⟨fun ⟨q, below⟩ => ?_, fun top same => ?_⟩) found
    · exact top_not_below laid (handed entry old) here q below.symm
    · have none : entry.rel = [] := by simpa [TrashEntry.hasRel] using top
      exact (apart entry old).1 (by simp [TrashEntry.covers, none, same])

theorem After.free (after : After files last items done)
    (handed : ∀ entry ∈ done, Handed items files entry) {p : Path} {node : Node}
    (outside : ¬Inside items p) (found : files.get? p = some node) : last.get? p = some node := by
  refine after.kept p node (fun entry old => ⟨fun below => outside ?_, fun _ same => outside ?_⟩) found
  · rw [Tree.eq_append_drop below]
    exact (handed entry old).inside _
  · exact same ▸ (handed entry old).inside_top

/-- Where nothing was reserved, whatever is there belongs to what was done. -/
theorem After.untouched (after : After files last items done)
    (handed : ∀ entry ∈ done, Handed items files entry) {before : List TrashEntry}
    (sub : done ⊆ before) {p : Path} (outside : ¬Inside items p)
    (same : final.get? p = last.get? p) : Untouched files final before p := by
  rw [Untouched, same]
  cases found : last.get? p with
  | none =>
    cases old : files.get? p with
    | none => exact .inl rfl
    | some node =>
      rw [after.free handed outside old] at found
      cases found
  | some node =>
    rcases after.new p node found with old | ⟨entry, member, dst, q, original, shape, there⟩ |
      ⟨absent, rfl, entry, member, above⟩
    · exact .inl old.symm
    · exact .inr (.inl ⟨entry, sub member, dst, q, original, shape, there.symm⟩)
    · exact .inr (.inr ⟨absent, rfl, entry, sub member, above⟩)

/-- An entry that was not begun leaves nothing behind but missing directories. -/
theorem untouched_of_grown (after : After files last items done)
    (handed : ∀ entry ∈ done, Handed items files entry) {before : List TrashEntry}
    (sub : done ⊆ before) {next : TrashEntry} {dst p : Path} (original : next.original = some dst)
    (grown : Grown last final dst) (outside : ¬Inside items p)
    (place : next ∈ before ∨ dst <+: p) : Untouched files final before p := by
  rcases grown p with same | ⟨absent, isDir, above, strict⟩
  · exact after.untouched handed sub outside same
  · rcases place with member | below
    · refine .inr (.inr ⟨?_, isDir, next, member, dst, original, above, strict⟩)
      by_contra held
      obtain ⟨node, found⟩ := Option.ne_none_iff_exists'.mp held
      rw [after.free handed outside found] at absent
      cases absent
    · exact absurd (above.eq_of_length_le below.length_le) strict

theorem Broken.not_atomic {entry : TrashEntry} {dst : Path} (broken : Broken entry dst last final)
    (after : After files last items done) (handed : ∀ entry ∈ done, Handed items files entry)
    (here : Handed items files entry) (original : entry.original = some dst) :
    ¬((Whole files final entry ∧
        ∀ dst, entry.original = some dst → Untouched files final done dst) ∨
      Restored files final entry) := by
  have free : ¬Inside items dst := not_inside_of_above here original (List.prefix_refl dst)
  have named : dst ≠ [] := by
    obtain ⟨_, same, named, -⟩ := here.original
    cases original.symm.trans same
    exact named
  rcases broken with ⟨node, reserved⟩ | ⟨moved, own, info⟩
  · rintro (⟨-, untouched⟩ | restored)
    · -- the reserved target was not there before
      have absent := reserved.absent
      have held := reserved.held
      rcases untouched dst original with same | ⟨other, member, dst', q, original', shape, same⟩ |
        ⟨-, -, other, member, dst', original', above, strict⟩
      · rw [after.free handed free (same.symm.trans held)] at absent
        cases absent
      · obtain ⟨_, own, there⟩ := (after.restored other member).there
        cases original'.symm.trans own
        rw [shape, there q _ (same.symm.trans held)] at absent
        cases absent
      · rw [after.parents other member dst' original' dst named above strict] at absent
        cases absent
    · have gone := restored.gone []
      rw [List.append_nil] at gone
      have inside := here.inside []
      rw [List.append_nil] at inside
      have other : entry.backing ≠ dst := fun same => free (same ▸ inside)
      rcases reserved.grown _ other with same | ⟨absent, -⟩
      · rw [same, reserved.source] at gone
        cases gone
      · rw [reserved.source] at absent
        cases absent
  · rintro (⟨whole, -⟩ | restored)
    · obtain ⟨node, found⟩ := Option.isSome_iff_exists.mp here.backing
      have there := whole.backing [] node (by rwa [List.append_nil])
      rw [moved.gone] at there
      cases there
    · rw [restored.info own] at info
      cases info

private theorem split_cases {l before after : List TrashEntry} {entry : TrashEntry}
    (left : l = before ++ entry :: after) (right : l = done ++ rest) :
    entry ∈ done ∨ ∃ more, before = done ++ more ∧ rest = more ++ entry :: after := by
  rcases List.append_eq_append_iff.mp (left.symm.trans right) with ⟨more, shape, shape'⟩ | ⟨more, h⟩
  · cases more with
    | nil => exact .inr ⟨[], by simpa using shape.symm, shape'.symm⟩
    | cons head more =>
      cases (List.cons.inj shape').1
      exact .inl (shape ▸ List.mem_append_right _ List.mem_cons_self)
  · exact .inr ⟨more, h⟩

/-- An entry that is not done is in the trash, and nothing is where it was. -/
private theorem pending_atomic (after : After files last items done) (laid : Laid items files)
    (handed : ∀ entry ∈ done, Handed items files entry) {entry other : TrashEntry}
    {more later : List TrashEntry} (shape : rest = more ++ entry :: later)
    (apart : ∀ e ∈ done, Unrelated e entry) (covers : entry.covers other = true)
    (here : Handed items files other) (first : Handed items files entry)
    (ended : final = last ∨ ∃ next rest' dst, rest = next :: rest' ∧ next.original = some dst ∧
      Grown last final dst) :
    Whole files final other ∧
      ∀ dst, other.original = some dst → Untouched files final (done ++ more) dst := by
  have separate : ∀ e ∈ done, Unrelated e other := by
    refine fun e old => ⟨fun above => ?_, fun above => ?_⟩
    · rcases covers_total above covers with h | h
      · exact (apart e old).1 h
      · exact (apart e old).2 h
    · exact (apart e old).2 (covers_trans covers above)
  have whole := after.whole laid handed here separate
  have sub : done ⊆ done ++ more := List.subset_append_left ..
  rcases ended with rfl | ⟨next, rest', dst', begins, original', grown⟩
  · refine ⟨whole, fun dst original => after.untouched handed sub ?_ rfl⟩
    exact not_inside_of_above here original (List.prefix_refl dst)
  · refine ⟨⟨fun q node found => grown.kept (whole.backing q node found),
      fun node found => grown.kept (whole.info node found)⟩, fun dst original => ?_⟩
    refine untouched_of_grown after handed sub original' grown
      (not_inside_of_above here original (List.prefix_refl dst)) ?_
    rw [shape] at begins
    cases more with
    | nil =>
      obtain ⟨s, dst'', -, -, own, own'⟩ := parts_of_covers laid first here covers
      cases (List.cons.inj begins).1
      cases original'.symm.trans own
      cases original.symm.trans own'
      exact .inr (List.prefix_append ..)
    | cons head more =>
      cases (List.cons.inj begins).1
      exact .inl (List.mem_append_right _ List.mem_cons_self)

/-- Whichever calls fail: restoring is atomic for each entry, and changes nothing that was there
before, if and only if no rename over a reserved target fails and no info file that is there fails
to be removed. -/
theorem restore_atomic {fails : Call → Bool} {sorted : List TrashEntry} (laid : Laid items files)
    (handed : ∀ entry ∈ entries, Handed items files entry) (order : sorted.Perm entries)
    (ascending : sorted.Pairwise fun a b => a.rel.length ≤ b.rel.length) :
    Atomic files (restore fails (retain [] sorted) files).2 entries (retain [] sorted) ↔
      smooth fails (retain [] sorted) files = true := by
  have sub : retain [] sorted ⊆ entries :=
    fun _ member => order.subset ((retain_sublist _ _).subset member)
  have apart := retain_unrelated [] ascending
  have all : ∀ other ∈ entries, ∃ entry ∈ retain [] sorted, entry.covers other = true :=
    fun other member => by simpa using covered_of_retain [] (order.mem_iff.mpr member)
  generalize retain [] sorted = kept at sub apart all ⊢
  have ends := restore_spec fails kept after_nil laid
    (fun entry member => handed entry (sub member)) apart
  rw [List.nil_append] at ends
  rcases ends with ⟨calm, done, rest, last, shape, after, ended⟩ |
    ⟨spoiled, done, entry, rest, dst, last, shape, original, after, broken⟩
  · refine iff_of_true ⟨?_, all, ?_⟩ calm
    · intro before entry later split other member covers
      have handedDone : ∀ e ∈ done, Handed items files e :=
        fun e old => handed e (sub (shape ▸ List.mem_append_left _ old))
      have first : Handed items files entry :=
        handed entry (sub (split ▸ List.mem_append_right _ List.mem_cons_self))
      rcases split_cases split shape with old | ⟨more, rfl, shape'⟩
      · refine .inr (restored_of_covers laid first (handed other member) covers ?_)
        have restored := after.restored entry old
        rcases ended with same | ⟨next, rest', dst, rfl, original, grown⟩
        · exact same ▸ restored
        · have target : Handed items files next :=
            handed next (sub (shape ▸ List.mem_append_right _ List.mem_cons_self))
          exact restored.grown first target original grown
      · refine .inl (pending_atomic after laid handedDone shape' (fun e old => ?_) covers
          (handed other member) first ended)
        rw [split] at apart
        exact (List.pairwise_append.mp apart).2.2 e (List.mem_append_left _ old) entry
          List.mem_cons_self
    · intro p node elsewhere found
      have there := after.kept p node
        (fun e old => elsewhere e (sub (shape ▸ List.mem_append_left _ old))) found
      rcases ended with same | ⟨next, rest', dst, -, -, grown⟩
      · exact same ▸ there
      · exact grown.kept there
  · refine iff_of_false (fun atomic => ?_) (by simp [spoiled])
    have member : entry ∈ kept := shape ▸ List.mem_append_right _ List.mem_cons_self
    refine broken.not_atomic after (fun e old => handed e (sub (shape ▸ List.mem_append_left _ old)))
      (handed entry (sub member)) original ?_
    exact atomic.each done entry rest shape entry (sub member) (covers_refl entry)

end restoration

/-! ### A file and a directory -/

def root : Path := [text "T"]

/-- The file `a` of `/h`. -/
def itemA : TrashInfo := ⟨root, text "a", [text "h", text "a"]⟩

/-- The directory `d` of `/h`. -/
def itemD : TrashInfo := ⟨root, text "d", [text "h", text "d"]⟩

/-- Both are in the trash, and `x` in the directory. -/
def trashed : Files :=
  [(root, .dir), (root ++ [text "info"], .dir), (root ++ [text "files"], .dir),
    (itemA.info, .leaf (text "Path=/h/a")), (itemA.backing, .leaf (text "1")),
    (itemD.info, .leaf (text "Path=/h/d")), (itemD.backing, .dir),
    (itemD.backing ++ [text "x"], .leaf (text "2"))]

/-- The file, `x`, and `x` again. -/
def handedOver : List TrashEntry := [itemA.entry [], itemD.entry [text "x"], itemD.entry [text "x"]]

private theorem laid_trashed : Laid [itemA, itemD] trashed where
  parsed := by decide
  roots := by decide
  there := by
    intro i member p named below
    have above : i.root = root := by
      rcases List.mem_cons.mp member with rfl | member
      · rfl
      · rw [List.mem_singleton.mp member]
        rfl
    obtain rfl : p = root := by
      rw [above] at below
      exact below.eq_of_length_le (List.length_pos_iff.mpr named)
    decide

private theorem handed_trashed : ∀ entry ∈ handedOver, Handed [itemA, itemD] trashed entry := by
  intro entry member
  rcases List.mem_cons.mp member with rfl | member
  · exact ⟨⟨itemA, by decide, rfl⟩, by decide, _, rfl, by decide, by decide⟩
  · obtain rfl : entry = itemD.entry [text "x"] := by simpa using member
    exact ⟨⟨itemD, by decide, rfl⟩, by decide, _, rfl, by decide, by decide⟩

theorem restore_atomic_trashed : Atomic trashed
    (restore (fun _ => false) (retain [] handedOver) trashed).2 handedOver (retain [] handedOver) :=
  (restore_atomic laid_trashed handed_trashed (.refl _) (by decide)).mpr (by decide)

/-- As if `/h` were on another file system. -/
def crossing : Call → Bool
  | .rename .. => true
  | _ => false

/-- The placeholder stays, and the file in the trash as well. -/
theorem restore_crossing : ¬Atomic trashed
    (restore crossing (retain [] [itemA.entry []]) trashed).2 [itemA.entry []]
    (retain [] [itemA.entry []]) := by
  intro atomic
  rcases atomic.each [] (itemA.entry []) [] rfl _ List.mem_cons_self (by decide) with
    ⟨-, untouched⟩ | restored
  · rcases untouched _ rfl with same | ⟨entry, member, -⟩ | ⟨-, -, entry, member, -⟩
    · exact absurd same (by decide)
    · cases member
    · cases member
  · exact absurd (restored.gone []) (by decide)

end Yazi.Fs.Trash
