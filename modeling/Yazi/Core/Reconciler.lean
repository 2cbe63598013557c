import Yazi.Core.Enumeration
import Yazi.Core.History
import Yazi.Core.Loading
import Yazi.Fs.Root
import Yazi.Shared.Trail

/-!
Keeping the selected and the yanked files in step with what is read of their directories.

A listing of a directory tells which of its children are still there. The others are taken out,
and those that are there are put in again, as the listing has them.
-/
namespace Yazi.Core
open Yazi.Base Yazi.Shared Yazi.Fs

/-- The yanked files: an `IndexSet` up to covariance. -/
structure Yanked where
  files : List FileCov
  revision : Nat
  distinct : files.Pairwise fun a b => (a == b) = false

namespace Yanked

def urls (s : Yanked) : List Url := s.files.map (·.file.url)

def removeMany (s : Yanked) (urls : List Url) : Yanked :=
  if urls.isEmpty then s
  else
    let files := s.files.filter fun f => !urls.any fun url => f.url == ⟨url⟩
    { files
      revision := s.revision + if s.files.length = files.length then 0 else 1
      distinct := s.distinct.sublist List.filter_sublist }

/-- `IndexSet::replace`: in the place of the equal one, or at the end. -/
def replace (file : FileCov) : List FileCov → List FileCov
  | [] => [file]
  | old :: files => if old == file then file :: files else old :: replace file files

theorem mem_replace {file f : FileCov} {files : List FileCov} (member : f ∈ replace file files) :
    f = file ∨ f ∈ files := by
  induction files with
  | nil => exact .inl (List.mem_singleton.mp member)
  | cons old files ih =>
    rw [replace] at member
    split at member
    · exact (List.mem_cons.mp member).imp_right (List.mem_cons_of_mem _)
    · rcases List.mem_cons.mp member with rfl | member
      · exact .inr List.mem_cons_self
      · exact (ih member).imp_right (List.mem_cons_of_mem _)

theorem replace_stays {file f : FileCov} {files : List FileCov} (member : f ∈ files) :
    f ∈ replace file files ∨ (f == file) = true := by
  induction files with
  | nil => cases member
  | cons old files ih =>
    rw [replace]
    split
    · next same =>
      rcases List.mem_cons.mp member with rfl | member
      · exact .inr same
      · exact .inl (List.mem_cons_of_mem _ member)
    · rcases List.mem_cons.mp member with rfl | member
      · exact .inl List.mem_cons_self
      · exact (ih member).imp_left (List.mem_cons_of_mem _)

theorem holds_replace {file : FileCov} {files : List FileCov} : file ∈ replace file files := by
  induction files with
  | nil => exact List.mem_cons_self
  | cons old files ih =>
    rw [replace]
    split
    · exact List.mem_cons_self
    · exact List.mem_cons_of_mem _ ih

theorem distinct_replace {file : FileCov} {files : List FileCov}
    (distinct : files.Pairwise fun a b => (a == b) = false) :
    (replace file files).Pairwise fun a b => (a == b) = false := by
  induction files with
  | nil => exact List.pairwise_singleton ..
  | cons old files ih =>
    obtain ⟨apart, distinct⟩ := List.pairwise_cons.mp distinct
    rw [replace]
    split
    · next same =>
      refine List.pairwise_cons.mpr ⟨fun other member => ?_, distinct⟩
      rw [← BEq.congr_left same]
      exact apart other member
    · next differ =>
      refine List.pairwise_cons.mpr ⟨fun other member => ?_, ih distinct⟩
      rcases mem_replace member with rfl | member
      · exact (Bool.not_eq_true _).mp differ
      · exact apart other member

/-- Covariant files among the yanked ones are one. -/
theorem eq_of_covariant {s : Yanked} {a b : FileCov} (left : a ∈ s.files) (right : b ∈ s.files)
    (same : (a == b) = true) : a = b := by
  by_contra differ
  have sym : Std.Symm fun a b : FileCov => (a == b) = false :=
    ⟨fun a b apart => by rw [BEq.comm]; exact apart⟩
  exact Bool.false_ne_true ((s.distinct.forall left right differ).symm.trans same)

theorem mem_removeMany {s : Yanked} {asked : List Url} (inside : ∀ url ∈ asked, url ∈ s.urls)
    {f : FileCov} : f ∈ (s.removeMany asked).files ↔ f ∈ s.files ∧ f.file.url ∉ asked := by
  rw [removeMany]
  split
  · next none =>
    rw [List.isEmpty_iff.mp none]
    simp
  · refine List.mem_filter.trans (and_congr_right fun member => ?_)
    rw [Bool.not_eq_true', ← Bool.not_eq_true, List.any_eq_true]
    refine not_congr ⟨?_, fun listed => ⟨_, listed, BEq.rfl⟩⟩
    rintro ⟨url, listed, same⟩
    obtain ⟨g, there, rfl⟩ := List.mem_map.mp (inside url listed)
    rwa [eq_of_covariant member there same]

def upsert (s : Yanked) (file : File) : Yanked where
  files := replace ⟨file⟩ s.files
  revision := s.revision + if s.files.contains ⟨file⟩ then 0 else 1
  distinct := distinct_replace s.distinct

end Yanked

/-! ### Patches -/

/-- What goes, and what is put in its place or anew. -/
structure Patch where
  removal : List Url
  files : List File

namespace Patch

def fromScan (cwd : Url) (tracked : Assoc PathDyn (Option File)) (authoritative : Bool) :
    List Url → Patch
  | [] => ⟨[], []⟩
  | url :: urls =>
    let me := fromScan cwd tracked authoritative urls
    if url.isChild cwd then
      match (tracked.get? url.key).join with
      | some file =>
        if file.url.shape = url.shape then { me with files := file :: me.files }
        else if authoritative then ⟨url :: me.removal, file :: me.files⟩
        else me
      | none => if authoritative then { me with removal := url :: me.removal } else me
    else me

def fromDelete (cwd : Url) (keys : List PathDyn) (urls : List Url) : Patch where
  removal := urls.filter fun url => url.isChild cwd && keys.contains url.key
  files := []

def fromUpdate (cwd : Url) (files : FileMap) : List Url → Patch
  | [] => ⟨[], []⟩
  | url :: urls =>
    let me := fromUpdate cwd files urls
    if url.isChild cwd then
      match (files.get? url.key).filter fun file => !file.key.isEmpty with
      | some file =>
        ⟨if file.url.shape = url.shape then me.removal else url :: me.removal, file :: me.files⟩
      | none => me
    else me

/-- `upsert` for each file, each at its own time. -/
def upsertAll (ambient : Nat → Ambient) : Nat → Selected → List File → Selected
  | _, s, [] => s
  | i, s, file :: files => upsertAll ambient (i + 1) (s.upsert (ambient i) file) files

def applySelected (patch : Patch) (ambient : Nat → Ambient) (s : Selected) : Option Selected :=
  (s.removeMany (ambient 0) patch.removal).map fun (s, _) => upsertAll ambient 1 s patch.files

def applyYanked (patch : Patch) (s : Yanked) : Yanked :=
  patch.files.foldl Yanked.upsert (s.removeMany patch.removal)

end Patch

/-! ### The reconciler -/

structure Reconciler (Err : Type) where
  current : Folder Err
  parent : Option (Folder Err)
  history : History Err
  selected : Selected
  yanked : Yanked

namespace Reconciler

variable {Err : Type}

/-- The urls that are looked through. -/
def urls (s : Reconciler Err) : List Url := s.selected.urls.map UrlCov.url ++ s.yanked.urls

def folder (s : Reconciler Err) (cwd : Url) : Option (Folder Err) :=
  (s.current :: s.parent.toList ++ (s.history.get ⟨cwd⟩).toList).find? fun f =>
    f.file.url.shape = cwd.shape

/-- Both patches are applied; `none` where a url has no pair or a count is missing. -/
def patch (s : Reconciler Err) (ambient : Nat → Ambient) (make : List Url → Patch) :
    Option (Reconciler Err) :=
  if s.urls.all (·.pair.isSome) then
    ((make (s.selected.urls.map UrlCov.url)).applySelected ambient s.selected).map fun selected =>
      { s with selected, yanked := (make s.yanked.urls).applyYanked s.yanked }
  else none

/-- The keys of the children, with no files yet. -/
def track (cwd : Url) (urls : List Url) : Assoc PathDyn (Option File) :=
  (urls.filter (·.isChild cwd)).foldl (fun tracked url => tracked.insert url.key none) []

/-- The last file of each key that is tracked. -/
def fill (tracked : Assoc PathDyn (Option File)) (files : Files) : Assoc PathDyn (Option File) :=
  files.foldl (fun tracked file =>
    if (tracked.get? file.key).isSome then tracked.insert file.key (some file) else tracked) tracked

def scan (s : Reconciler Err) (ambient : Nat → Ambient) (cwd : Url) (files : Files)
    (authoritative : Bool) : Option (Reconciler Err) :=
  let tracked := track cwd s.urls
  if tracked.isEmpty then if s.urls.all (·.pair.isSome) then some s else none
  else s.patch ambient (Patch.fromScan cwd (fill tracked files) authoritative)

/-- `url` is the directory of the operations without a file of their own. -/
def apply (s : Reconciler Err) (ambient : Nat → Ambient) (url : Url) (op : FilesOp Err) :
    Option (Reconciler Err) :=
  match op with
  | .full file files => s.scan ambient file.url files true
  | .done file ticket =>
    match s.folder file.url with
    | some f =>
      if f.stage.isLoading ∧ f.entries.ticket = ticket then
        s.scan ambient file.url f.entries.all true
      else some s
    | none => some s
  | .create files => s.scan ambient url files false
  | .delete keys => s.patch ambient (Patch.fromDelete url keys)
  | .update files | .upsert files => s.patch ambient (Patch.fromUpdate url files)
  | _ => some s

/-! ### What a listing has -/

/-- What `found` says of the children among the urls. -/
structure Lookup (cwd : Url) (urls : List Url) (files : Files) (found : Url → Option File) : Prop where
  hit : ∀ url ∈ urls, url.isChild cwd = true → ∀ file, found url = some file →
    file ∈ files ∧ (file.key == url.key) = true
  miss : ∀ url ∈ urls, url.isChild cwd = true → found url = none →
    ∀ file ∈ files, (file.key == url.key) = false
  congr : ∀ a b, (a.key == b.key) = true → found a = found b

private theorem get?_track (cwd : Url) (urls : List Url) (key : PathDyn) :
    (track cwd urls).get? key =
      if (urls.filter (·.isChild cwd)).any (key == ·.key) then some none else none := by
  have any (urls : List Url) : ∀ tracked : Assoc PathDyn (Option File),
      (urls.foldl (fun tracked url => tracked.insert url.key none) tracked).get? key =
        if urls.any (key == ·.key) then some none else tracked.get? key := by
    induction urls with
    | nil =>
      intro tracked
      rfl
    | cons url urls ih =>
      intro tracked
      rw [List.foldl_cons, ih, Assoc.get?_insert, List.any_cons]
      cases key == url.key <;> simp
  exact any _ []

private theorem fill_spec (files : Files) {key : PathDyn} {w : Option File} :
    ∀ {tracked : Assoc PathDyn (Option File)}, tracked.get? key = some w →
      ∃ v, (fill tracked files).get? key = some v ∧
        (v = none → w = none ∧ ∀ file ∈ files, (file.key == key) = false) ∧
        ∀ file, v = some file → w = some file ∨ file ∈ files ∧ (file.key == key) = true := by
  induction files generalizing w with
  | nil =>
    intro tracked here
    exact ⟨w, here, fun none => ⟨none, by simp⟩, fun _ some => .inl some⟩
  | cons first files ih =>
    intro tracked here
    rw [fill, List.foldl_cons, ← fill]
    cases same : key == first.key with
    | true =>
      have present : (tracked.get? first.key).isSome = true := by
        rw [← Assoc.get?_congr tracked same, here]
        rfl
      have now : (tracked.insert first.key (some first)).get? key = some (some first) := by
        rw [Assoc.get?_insert, if_pos same]
      obtain ⟨v, filled, none, some⟩ := ih now
      rw [if_pos present]
      refine ⟨v, filled, fun nothing => ?_, fun file found => .inr ?_⟩
      · obtain ⟨other, -⟩ := none nothing
        cases other
      · rcases some file found with first' | ⟨member, key'⟩
        · cases first'
          exact ⟨List.mem_cons_self, by rw [BEq.comm]; exact same⟩
        · exact ⟨List.mem_cons_of_mem _ member, key'⟩
    | false =>
      have still : (if (tracked.get? first.key).isSome then tracked.insert first.key (some first)
          else tracked).get? key = some w := by
        split
        · rw [Assoc.get?_insert, if_neg (by simp [same]), here]
        · exact here
      obtain ⟨v, filled, none, some⟩ := ih still
      refine ⟨v, filled, fun nothing => ?_, fun file found => ?_⟩
      · obtain ⟨before, others⟩ := none nothing
        refine ⟨before, List.forall_mem_cons.mpr ⟨?_, others⟩⟩
        rw [BEq.comm]
        exact same
      · exact (some file found).imp_right fun both => ⟨List.mem_cons_of_mem _ both.1, both.2⟩

private theorem lookup (cwd : Url) (urls : List Url) (files : Files) :
    Lookup cwd urls files fun url => ((fill (track cwd urls) files).get? url.key).join := by
  have tracked : ∀ url ∈ urls, url.isChild cwd = true →
      (track cwd urls).get? url.key = some none := by
    intro url member child
    rw [get?_track, if_pos]
    exact List.any_eq_true.mpr ⟨url, List.mem_filter.mpr ⟨member, child⟩, BEq.rfl⟩
  refine ⟨fun url member child file found => ?_, fun url member child nothing => ?_,
    fun a b same => ?_⟩
  · obtain ⟨v, filled, -, some⟩ := fill_spec files (tracked url member child)
    rw [filled, Option.join_some] at found
    rcases some file found with other | both
    · cases other
    · exact both
  · obtain ⟨v, filled, none, -⟩ := fill_spec files (tracked url member child)
    rw [filled, Option.join_some] at nothing
    exact (none nothing).2
  · rw [Assoc.get?_congr _ same]

/-- The urls that a scan takes out, and the files that it puts in. -/
private theorem mem_fromScan (cwd : Url) (tracked : Assoc PathDyn (Option File)) (urls : List Url) :
    (∀ url, url ∈ (Patch.fromScan cwd tracked true urls).removal ↔ url ∈ urls ∧
      url.isChild cwd = true ∧
        ∀ file, (tracked.get? url.key).join = some file → file.url.shape ≠ url.shape) ∧
    ∀ file, file ∈ (Patch.fromScan cwd tracked true urls).files ↔ ∃ url ∈ urls,
      url.isChild cwd = true ∧ (tracked.get? url.key).join = some file := by
  induction urls with
  | nil => simp [Patch.fromScan]
  | cons first urls ih =>
    obtain ⟨removal, files⟩ := ih
    have among (P : Url → Prop) : (∃ url ∈ first :: urls, P url) ↔ P first ∨ ∃ url ∈ urls, P url := by
      simp
    simp only [Patch.fromScan]
    by_cases child : first.isChild cwd = true
    · rw [if_pos child]
      cases found : (tracked.get? first.key).join with
      | none =>
        dsimp only
        rw [if_pos trivial]
        constructor
        · intro url
          rw [List.mem_cons, removal, List.mem_cons, or_and_right]
          refine or_congr_left ⟨?_, And.left⟩
          rintro rfl
          exact ⟨rfl, child, by simp [found]⟩
        · intro file
          rw [files, among, found]
          simp
      | some file =>
        dsimp only
        by_cases same : file.url.shape = first.shape
        · rw [if_pos same]
          constructor
          · intro url
            rw [removal, List.mem_cons, or_and_right]
            refine (or_iff_right ?_).symm
            rintro ⟨rfl, -, differ⟩
            exact differ file found same
          · intro file'
            rw [List.mem_cons, files, among, found, Option.some_inj, iff_true_intro child, true_and]
            exact or_congr_left eq_comm
        · rw [if_neg same, if_pos trivial]
          constructor
          · intro url
            rw [List.mem_cons, removal, List.mem_cons, or_and_right]
            refine or_congr_left ⟨?_, And.left⟩
            rintro rfl
            refine ⟨rfl, child, fun file' found' => ?_⟩
            rw [found] at found'
            cases found'
            exact same
          · intro file'
            rw [List.mem_cons, files, among, found, Option.some_inj, iff_true_intro child, true_and]
            exact or_congr_left eq_comm
    · rw [if_neg child]
      constructor
      · intro url
        rw [removal, List.mem_cons, or_and_right]
        refine (or_iff_right ?_).symm
        rintro ⟨rfl, other, -⟩
        exact child other
      · intro file
        rw [files, among]
        simp [child]

end Reconciler

/-! ### The selected files -/

namespace Selected

variable {U : UrlCov → Prop} {s t : Selected}

/-- A selected url lies above this one, or below it. -/
def Conflicts (s : Selected) (url : UrlCov) : Prop :=
  ∃ other ∈ s.urls, lineage.isAbove other url = true ∨ lineage.isAbove url other = true

theorem mem_urls {entry : FileCov × Nat} (member : entry ∈ s.inner) : entry.1.url ∈ s.urls :=
  List.mem_map_of_mem (List.mem_map_of_mem member)

theorem entry_of_url {url : UrlCov} (member : url ∈ s.urls) :
    ∃ entry ∈ s.inner, entry.1.url = url := by
  rw [urls_eq] at member
  exact List.mem_map.mp member

/-- Covariant urls of a selection are one. -/
theorem eq_of_covariant (distinct : s.inner.Distinct) {a b : FileCov × Nat} (left : a ∈ s.inner)
    (right : b ∈ s.inner) (same : (a.1.url == b.1.url) = true) : a = b := by
  by_contra differ
  have sym : Std.Symm fun a b : FileCov × Nat => (a.1 == b.1) = false :=
    ⟨fun a b apart => by rw [BEq.comm]; exact apart⟩
  exact Bool.false_ne_true ((distinct.forall left right differ).symm.trans same)

section replaceKey
variable {file : File} {inner : Assoc FileCov Nat} {entry : FileCov × Nat}

theorem replaceKey_stays (member : entry ∈ inner) :
    entry ∈ replaceKey file inner ∨ (entry.1.url == ⟨file.url⟩) = true := by
  induction inner with
  | nil => cases member
  | cons first inner ih =>
    obtain ⟨key, time⟩ := first
    rw [replaceKey]
    split
    · next same =>
      rcases List.mem_cons.mp member with rfl | member
      · exact .inr same
      · exact .inl (List.mem_cons_of_mem _ member)
    · rcases List.mem_cons.mp member with rfl | member
      · exact .inl List.mem_cons_self
      · exact (ih member).imp_left (List.mem_cons_of_mem _)

theorem of_replaceKey (member : entry ∈ replaceKey file inner) : entry ∈ inner ∨ entry.1 = ⟨file⟩ := by
  induction inner with
  | nil => cases member
  | cons first inner ih =>
    obtain ⟨key, time⟩ := first
    rw [replaceKey] at member
    split at member
    · rcases List.mem_cons.mp member with rfl | member
      · exact .inr rfl
      · exact .inl (List.mem_cons_of_mem _ member)
    · rcases List.mem_cons.mp member with rfl | member
      · exact .inl List.mem_cons_self
      · exact (ih member).imp_left (List.mem_cons_of_mem _)

theorem replaceKey_holds (member : entry ∈ inner) (same : (entry.1.url == ⟨file.url⟩) = true) :
    ⟨file⟩ ∈ (replaceKey file inner).keys := by
  induction inner with
  | nil => cases member
  | cons first inner ih =>
    obtain ⟨key, time⟩ := first
    rw [replaceKey]
    split
    · exact List.mem_cons_self
    · next differ =>
      rcases List.mem_cons.mp member with rfl | member
      · exact absurd same differ
      · exact List.mem_cons_of_mem _ (ih member)

end replaceKey

/-- What putting in a file changes: it takes the place of a covariant one, or comes to the others
unless it lies above or below one of them. -/
theorem upsert_spec (inv : s.Inv U) (ambient : Ambient) (file : File) :
    (∀ entry ∈ s.inner, entry ∈ (s.upsert ambient file).inner ∨
      (entry.1.url == ⟨file.url⟩) = true ∧ ⟨file⟩ ∈ (s.upsert ambient file).inner.keys) ∧
    (∀ entry ∈ (s.upsert ambient file).inner, entry ∈ s.inner ∨ entry.1 = ⟨file⟩) ∧
    (⟨file⟩ ∈ (s.upsert ambient file).inner.keys ∨
      (s.upsert ambient file).Conflicts ⟨file.url⟩ ∧ s.contains ⟨file.url⟩ = false) := by
  rw [upsert]
  cases known : s.contains ⟨file.url⟩ with
  | true =>
    rw [if_pos rfl]
    obtain ⟨other, listed, same⟩ := contains_iff.mp known
    obtain ⟨old, member, rfl⟩ := entry_of_url listed
    have holds : ⟨file⟩ ∈ (replaceKey file s.inner).keys :=
      replaceKey_holds member (by rw [BEq.comm]; exact same)
    refine ⟨fun entry member => ?_, fun entry member => of_replaceKey member, .inl holds⟩
    exact (replaceKey_stays member).imp_right fun same => ⟨same, holds⟩
  | false =>
    rw [if_neg Bool.false_ne_true]
    by_cases free : (s.parents.get? ⟨file.url⟩).isNone = true
    · have fit : [file].filter (fun file => (s.parents.get? ⟨file.url⟩).isNone) = [file] :=
        List.filter_eq_self.mpr fun other member => by rwa [List.mem_singleton.mp member]
      simp only [add, addSame, fit]
      split
      · next above =>
        obtain ⟨c, chain, held⟩ := List.any_eq_true.mp above
        obtain ⟨other, listed, same⟩ := contains_iff.mp held
        refine ⟨fun entry member => .inl member, fun entry member => .inl member, .inr ⟨?_, trivial⟩⟩
        exact ⟨other, listed, .inl (List.any_eq_true.mpr ⟨c, chain, same⟩)⟩
      · have grown : extend s.inner (ambient.clock 0) [file] =
            s.inner ++ [(⟨file⟩, ambient.clock 0)] := by
          refine Assoc.insert_of_new _ fun entry member => ?_
          have absent := List.contains_eq_any_beq.symm.trans known
          rw [List.any_eq_false] at absent
          exact (Bool.not_eq_true _).mp (absent _ (mem_urls member))
        dsimp only
        rw [grown]
        refine ⟨fun entry member => .inl (List.mem_append_left _ member), fun entry member => ?_,
          .inl ?_⟩
        · refine (List.mem_append.mp member).imp_right fun last => ?_
          rw [List.mem_singleton.mp last]
        · rw [Assoc.keys, List.map_append]
          exact List.mem_append_right _ List.mem_cons_self
    · have fit : [file].filter (fun file => (s.parents.get? ⟨file.url⟩).isNone) = [] :=
        List.filter_eq_nil_iff.mpr fun other member => by rwa [List.mem_singleton.mp member]
      simp only [add, addSame, fit]
      refine ⟨fun entry member => .inl member, fun entry member => .inl member,
        .inr ⟨?_, trivial⟩⟩
      have below := mt (parents_isNone inv ⟨file.url⟩).mpr free
      push Not at below
      obtain ⟨other, listed, lies⟩ := below
      exact ⟨other, listed, .inr (by simpa using lies)⟩

/-- A conflict stays one while the selected urls are replaced by covariant ones. -/
theorem Conflicts.carry {url : UrlCov} (uniform : lineage.Uniform U) (inv : s.Inv U)
    (inv' : t.Inv U) (kept : ∀ a ∈ s.urls, ∃ b ∈ t.urls, (a == b) = true)
    (conflict : s.Conflicts url) : t.Conflicts url := by
  obtain ⟨other, listed, lies⟩ := conflict
  obtain ⟨other', listed', same⟩ := kept other listed
  refine ⟨other', listed', ?_⟩
  rw [← lineage.isAbove_congr same,
    ← lineage.above_agrees uniform (inv.known _ listed) (inv'.known _ listed') same]
  exact lies

/-- What a removal of many leaves, when it is asked for selected urls. -/
theorem mem_removeMany {ambient : Ambient} {asked : List Url} {n : Nat}
    (distinct : s.inner.Distinct) (inside : ∀ url ∈ asked, ⟨url⟩ ∈ s.urls)
    (removed : s.removeMany ambient asked = some (t, n)) {entry : FileCov × Nat} :
    entry ∈ t.inner ↔ entry ∈ s.inner ∧
      (entry.1.file.url ∈ asked → entry.1.file.url.parent.isSome = false) := by
  obtain ⟨after, m, -, inner, perm, none⟩ := removeMany_eq distinct removed
  have left : entry ∈ t.inner ↔ entry ∈ s.survivors asked := by
    rw [inner]
    split
    · next zero =>
      have whole : s.survivors asked = s.inner :=
        List.filter_eq_self.mpr fun entry member => by rw [none.mp zero entry member]; rfl
      rw [whole]
    · exact ((ambient.sort_perm _).trans perm).mem_iff
  rw [left, survivors, List.mem_filter]
  refine and_congr_right fun member => ?_
  rw [Bool.not_eq_true', ← Bool.not_eq_true, asks, List.any_eq_true]
  constructor
  · intro free listed
    by_contra some
    rw [Bool.not_eq_false] at some
    exact free ⟨_, List.mem_filter.mpr ⟨listed, some⟩, BEq.rfl⟩
  · rintro top ⟨url, listed, same⟩
    obtain ⟨listed, some⟩ := List.mem_filter.mp listed
    -- Only one entry is covariant with the url, and has it.
    obtain ⟨other, there, equal⟩ := entry_of_url (inside url listed)
    rw [← equal] at same
    cases eq_of_covariant distinct member there same
    have url' : entry.1.file.url = url := congrArg UrlCov.url equal
    rw [← url', top (by rwa [url'])] at some
    cases some

end Selected

/-! ### Putting in files -/

/-- The urls are one, up to covariance. -/
def Covers (file other : File) : Prop := ((⟨other.url⟩ : UrlCov) == ⟨file.url⟩) = true

/-- What putting in files makes of a collection: each takes the place of what it covers, or comes
to the others, unless it is refused. -/
structure Upserted {α : Type} (file : α → File) (refused : File → Prop) (files : List File)
    (old new : List α) : Prop where
  stays : ∀ e ∈ old, e ∈ new ∨ ∃ f ∈ files, Covers f (file e) ∧ ∃ e' ∈ new, file e' = f
  source : ∀ e ∈ new, e ∈ old ∨ file e ∈ files
  held : ∀ f ∈ files, (∃ e ∈ new, file e = f) ∨ refused f ∧ ∀ e ∈ old, ¬ Covers f (file e)

namespace Upserted

variable {α : Type} {file : α → File} {refused refused' : File → Prop} {f : File}
  {files : List File} {old mid new : List α}

/-- One file after another, when covariant ones are the same. -/
theorem cons (first : Upserted file refused [f] old mid)
    (rest : Upserted file refused' files mid new) (coherent : ∀ g ∈ files, Covers g f → g = f)
    (carry : refused f → refused' f) : Upserted file refused' (f :: files) old new := by
  have after : (∃ e ∈ mid, file e = f) → ∃ e ∈ new, file e = f := by
    rintro ⟨e, member, rfl⟩
    rcases rest.stays e member with stays | ⟨g, listed, covers, e', member', same⟩
    · exact ⟨e, stays, rfl⟩
    · exact ⟨e', member', same.trans (coherent g listed covers)⟩
  refine ⟨fun e member => ?_, fun e member => ?_, fun g listed => ?_⟩
  · rcases first.stays e member with stays | ⟨g, listed, covers, here⟩
    · refine (rest.stays e stays).imp_right ?_
      rintro ⟨g, listed, covers⟩
      exact ⟨g, List.mem_cons_of_mem _ listed, covers⟩
    · cases List.mem_singleton.mp listed
      exact .inr ⟨f, List.mem_cons_self, covers, after here⟩
  · rcases rest.source e member with middle | given
    · refine (first.source e middle).imp_right fun single => ?_
      rw [List.mem_singleton.mp single]
      exact List.mem_cons_self
    · exact .inr (List.mem_cons_of_mem _ given)
  · rcases List.mem_cons.mp listed with rfl | listed
    · rcases first.held g List.mem_cons_self with here | ⟨no, none⟩
      · exact .inl (after here)
      · exact .inr ⟨carry no, none⟩
    · refine (rest.held g listed).imp_right fun out => ⟨out.1, fun e member covers => ?_⟩
      rcases first.stays e member with stays | ⟨f', single, covers', e', member', same⟩
      · exact out.2 e stays covers
      · -- What covers it now is covered by the later file as well.
        refine out.2 e' member' ?_
        rw [same]
        exact BEq.trans (BEq.symm covers') covers

theorem nil : Upserted file refused [] old old :=
  ⟨fun _ member => .inl member, fun _ member => .inl member, by simp⟩

end Upserted

namespace Patch

theorem upserted_yanked {files : List File} (coherent : ∀ f ∈ files, ∀ g ∈ files, Covers g f → g = f)
    (s : Yanked) :
    Upserted FileCov.file (fun _ => False) files s.files (files.foldl Yanked.upsert s).files := by
  induction files generalizing s with
  | nil => exact .nil
  | cons f files ih =>
    have one : Upserted FileCov.file (fun _ => False) [f] s.files (s.upsert f).files :=
      ⟨fun e member => (Yanked.replace_stays member).imp_right fun covers =>
          ⟨f, List.mem_cons_self, covers, ⟨f⟩, Yanked.holds_replace, rfl⟩,
        fun e member => (Yanked.mem_replace member).symm.imp_right fun same => by
          rw [same]
          exact List.mem_cons_self,
        fun g single => by
          rw [List.mem_singleton.mp single]
          exact .inl ⟨⟨f⟩, Yanked.holds_replace, rfl⟩⟩
    refine one.cons (ih ?_ _) ?_ id
    · exact fun f left g right =>
        coherent f (List.mem_cons_of_mem _ left) g (List.mem_cons_of_mem _ right)
    · exact fun g listed => coherent f List.mem_cons_self g (List.mem_cons_of_mem _ listed)

def selectedFile (entry : FileCov × Nat) : File := entry.1.file

section selected
variable {U : UrlCov → Prop} (uniform : lineage.Uniform U)
include uniform

theorem upserted_selected {ambient : Nat → Ambient} {files : List File}
    (coherent : ∀ f ∈ files, ∀ g ∈ files, Covers g f → g = f)
    (known : ∀ f ∈ files, U ⟨f.url⟩) {s : Selected} (inv : s.Inv U) (i : Nat) :
    (upsertAll ambient i s files).Inv U ∧
      Upserted selectedFile (fun f => (upsertAll ambient i s files).Conflicts ⟨f.url⟩) files
        s.inner (upsertAll ambient i s files).inner := by
  induction files generalizing s i with
  | nil => exact ⟨inv, .nil⟩
  | cons f files ih =>
    have step := @Selected.step_inv U s (ambient i, .upsert f) uniform inv (by
      intro url member
      rw [List.mem_singleton.mp member]
      exact known f List.mem_cons_self)
    obtain ⟨mid, moved, inv'⟩ := step
    cases moved
    obtain ⟨inv'', rest⟩ := ih
      (fun f left g right =>
        coherent f (List.mem_cons_of_mem _ left) g (List.mem_cons_of_mem _ right))
      (fun f listed => known f (List.mem_cons_of_mem _ listed)) inv' (i + 1)
    obtain ⟨stays, source, held⟩ := Selected.upsert_spec inv (ambient i) f
    have entry {inner : Assoc FileCov Nat} (listed : ⟨f⟩ ∈ inner.keys) :
        ∃ e ∈ inner, selectedFile e = f := by
      obtain ⟨e, member, key⟩ := List.mem_map.mp listed
      exact ⟨e, member, congrArg FileCov.file key⟩
    have one : Upserted selectedFile (fun f => (s.upsert (ambient i) f).Conflicts ⟨f.url⟩) [f]
        s.inner (s.upsert (ambient i) f).inner := by
      refine ⟨fun e member => ?_, fun e member => ?_, fun g single => ?_⟩
      · exact (stays e member).imp_right fun both =>
          ⟨f, List.mem_cons_self, both.1, entry both.2⟩
      · refine (source e member).imp_right fun key => ?_
        rw [selectedFile, key]
        exact List.mem_cons_self
      · cases List.mem_singleton.mp single
        refine held.imp entry fun both => ⟨both.1, fun e member covers => ?_⟩
        have present : s.contains ⟨f.url⟩ = true :=
          Selected.contains_iff.mpr ⟨_, Selected.mem_urls member, BEq.symm covers⟩
        rw [both.2] at present
        cases present
    refine ⟨inv'', one.cons rest (fun g listed => ?_) (.carry uniform inv' inv'' fun a listed => ?_)⟩
    · exact coherent f List.mem_cons_self g (List.mem_cons_of_mem _ listed)
    · obtain ⟨e, member, rfl⟩ := Selected.entry_of_url listed
      rcases rest.stays e member with stays | ⟨g, -, covers, e', member', rfl⟩
      · exact ⟨_, Selected.mem_urls stays, BEq.rfl⟩
      · exact ⟨_, Selected.mem_urls member', covers⟩

end selected
end Patch

/-! ### Reconciliation -/

/-- What a listing of a directory makes of a collection of files: its children go with their keys,
and are held as the listing has them. -/
structure Reconciled {α : Type} (file : α → File) (asked : Url → Prop) (refused : File → Prop)
    (cwd : Url) (listing : Files) (old new : List α) : Prop where
  untouched : ∀ e ∈ old, (file e).url.isChild cwd = false → e ∈ new ∨
    (file e).url.kind = .hub ∧ ∃ f ∈ listing, f.url.shape = (file e).url.shape ∧
      ∃ e' ∈ new, file e' = f
  gone : ∀ e ∈ old, (file e).url.isChild cwd = true → asked (file e).url →
    (∀ f ∈ listing, (f.key == (file e).key) = false) → ∀ e' ∈ new, ¬ Covers (file e') (file e)
  kept : ∀ e ∈ old, (file e).url.isChild cwd = true →
    (∃ f ∈ listing, (f.key == (file e).key) = true) →
    ∃ f ∈ listing, (f.key == (file e).key) = true ∧
      ((file e).url.kind ≠ .hub → f.url.shape = (file e).url.shape) ∧
      ((∃ e' ∈ new, file e' = f) ∨
        (file e).url.kind = .hub ∧ f.url.shape ≠ (file e).url.shape ∧ refused f)
  source : ∀ e' ∈ new, e' ∈ old ∨ file e' ∈ listing ∧
    ∃ e ∈ old, (file e).url.isChild cwd = true ∧ ((file e').key == (file e).key) = true

namespace Reconciled

variable {α : Type} {file : α → File} {asked : Url → Prop} {refused : File → Prop} {cwd : Url}
  {listing : Files} {old mid new : List α}

theorem childless (none : ∀ e ∈ old, (file e).url.isChild cwd = false) :
    Reconciled file asked refused cwd listing old old where
  untouched _ member _ := .inl member
  gone e member child := by
    rw [none e member] at child
    cases child
  kept e member child := by
    rw [none e member] at child
    cases child
  source _ member := .inl member

/-- The key of a child is not empty. -/
theorem key_of_hit {url : Url} {f : File} (child : url.isChild cwd = true)
    (same : (f.key == url.key) = true) : f.key.isEmpty = false := by
  rw [PathDyn.isEmpty_congr same]
  exact (Url.isChild_iff.mp child).1

section scan
variable {urls : List Url} {found : Url → Option File} {removal : List Url} {files : List File}

/-- Taking out, then putting in. -/
theorem of_scan (sound : ∀ e ∈ old, (file e).url.Sound)
    (distinct : ∀ a ∈ old, ∀ b ∈ old, Covers (file a) (file b) → a = b)
    (listed : ∀ f ∈ listing, f.key.isEmpty = false → f.url.Sound ∧ f.url.isChild cwd = true)
    (lookup : Reconciler.Lookup cwd urls listing found) (inside : ∀ e ∈ old, (file e).url ∈ urls)
    (takes : ∀ e ∈ old, (file e).url ∈ removal ↔ (file e).url.isChild cwd = true ∧
      ∀ f, found (file e).url = some f → f.url.shape ≠ (file e).url.shape)
    (puts : ∀ f, f ∈ files ↔
      ∃ e ∈ old, (file e).url.isChild cwd = true ∧ found (file e).url = some f)
    (taken : ∀ e, e ∈ mid ↔ e ∈ old ∧ ((file e).url ∈ removal → ¬ asked (file e).url))
    (put : Upserted file refused files mid new) :
    Reconciled file asked refused cwd listing old new := by
  have covers {f g : File} (shape : f.url.shape = g.url.shape) : Covers f g :=
    UrlEq.covariant (a := ⟨g.url⟩) (b := ⟨f.url⟩) (UrlEq.beq_iff.mpr shape.symm)
  -- A file that is found for a child has its key, and outside of hubs its url.
  have hit {e : α} (member : e ∈ old) (child : (file e).url.isChild cwd = true) {f : File}
      (some : found (file e).url = some f) : f ∈ listing ∧ (f.key == (file e).key) = true ∧
        (f.url.Sound ∧ f.url.isChild cwd = true) ∧
          ((file e).url.kind ≠ .hub → f.url.shape = (file e).url.shape) := by
    obtain ⟨given, same⟩ := lookup.hit _ (inside e member) child f some
    obtain ⟨sound', child'⟩ := listed f given (key_of_hit child same)
    refine ⟨given, same, ⟨sound', child'⟩, fun plain => ?_⟩
    refine Url.shape_of_key sound' child' (sound e member) child ?_ same
    rwa [(Url.child_spec sound' child').2.1, ← (Url.child_spec (sound e member) child).2.1]
  refine ⟨fun e member other => ?_, fun e member child gone none e' member' covered => ?_,
    fun e member child some => ?_, fun e' member => ?_⟩
  · have stays : e ∈ mid := by
      refine (taken e).mpr ⟨member, fun out => ?_⟩
      rw [((takes e member).mp out).1] at other
      cases other
    refine (put.stays e stays).imp_right ?_
    rintro ⟨f, given, covered, here⟩
    obtain ⟨c, member', child, some⟩ := (puts f).mp given
    obtain ⟨given, -, ⟨sound', child'⟩, shape⟩ := hit member' child some
    by_cases hub : (file c).url.kind = .hub
    · have hub' : f.url.kind = .hub := by
        rw [(Url.child_spec sound' child').2.1, ← (Url.child_spec (sound c member') child).2.1, hub]
      obtain ⟨hub'', shape'⟩ := Url.hub_of_covariant (sound e member) sound' hub' covered
      exact ⟨hub'', f, given, shape'.symm, here⟩
    · -- Outside of hubs it would be the child itself.
      have same := distinct c member' e member (BEq.trans covered (covers (shape hub).symm))
      rw [same, other] at child
      cases child
  · rcases put.source e' member' with before | given
    · obtain ⟨before, stays⟩ := (taken e').mp before
      have same := distinct e' before e member covered
      rw [same] at stays
      refine stays ((takes e member).mpr ⟨child, fun f some => ?_⟩) gone
      obtain ⟨given, same, -⟩ := hit member child some
      rw [none f given] at same
      cases same
    · obtain ⟨c, member'', child', some⟩ := (puts _).mp given
      obtain ⟨given, -, ⟨sound', child'⟩, -⟩ := hit member'' child' some
      have same := Url.key_of_covariant sound' child' (sound e member) child (BEq.symm covered)
      rw [show ((file e').url.key == (file e).url.key) = false from none _ given] at same
      cases same
  · cases found' : found (file e).url with
    | none =>
      obtain ⟨f, given, same⟩ := some
      have absent : (f.key == (file e).key) = false :=
        lookup.miss _ (inside e member) child found' f given
      rw [absent] at same
      cases same
    | some f =>
      obtain ⟨given, same, -, shape⟩ := hit member child found'
      refine ⟨f, given, same, shape, ?_⟩
      refine (put.held f ((puts f).mpr ⟨e, member, child, found'⟩)).imp_right fun out => ?_
      have moved : f.url.shape ≠ (file e).url.shape := by
        intro same
        refine out.2 e ((taken e).mpr ⟨member, fun gone => ?_⟩) (covers same)
        exact absurd same (((takes e member).mp gone).2 f found')
      exact ⟨by_contra fun plain => moved (shape plain), moved, out.1⟩
  · rcases put.source e' member with before | given
    · exact .inl ((taken e').mp before).1
    · obtain ⟨c, member', child, some⟩ := (puts _).mp given
      obtain ⟨given, same, -⟩ := hit member' child some
      exact .inr ⟨given, c, member', child, same⟩

end scan

/-- Files without a key do not matter. -/
theorem of_perm {files : Files} (perm : files.Perm (Entries.listed listing))
    (reconciled : Reconciled file asked refused cwd files old new) :
    Reconciled file asked refused cwd listing old new := by
  have sub {f : File} (member : f ∈ files) : f ∈ listing :=
    (List.mem_filter.mp (perm.mem_iff.mp member)).1
  obtain ⟨untouched, gone, kept, source⟩ := reconciled
  refine ⟨fun e member other => ?_, fun e member child asked none => ?_,
    fun e member child some => ?_, fun e member => ?_⟩
  · refine (untouched e member other).imp_right ?_
    rintro ⟨hub, f, given, rest⟩
    exact ⟨hub, f, sub given, rest⟩
  · exact gone e member child asked fun f given => none f (sub given)
  · obtain ⟨f, given, same⟩ := some
    have given' : f ∈ files :=
      perm.mem_iff.mpr (List.mem_filter.mpr ⟨given, by rw [key_of_hit child same]; rfl⟩)
    obtain ⟨g, listed, rest⟩ := kept e member child ⟨f, given', same⟩
    exact ⟨g, sub listed, rest⟩
  · exact (source e member).imp_right fun both => ⟨sub both.1, both.2⟩

end Reconciled

namespace Reconciler

variable {Err : Type} {s : Reconciler Err}

/-- The operation delivers a listing of a directory: whole, or in the parts of a load that it
closes, or as the folder has it that is loading. -/
inductive Delivers [DecidableEq Err] (regex : Regex) (s : Reconciler Err) :
    FilesOp Err → Url → Files → Prop
  | full (file : File) (files : Files) : Delivers regex s (.full file files) file.url files
  | parts (file : File) {showHidden : Bool} {url : Url} {labels : List (Delivery Err)}
      {loading : Loading Err} {ticket : Nat} {listing : Files}
      (run : Run (Loading.step regex) (Loading.new showHidden url) labels loading)
      (sent : loading.loads.get? ticket = some ⟨.started, listing⟩)
      (current : loading.folder.entries.ticket = ticket)
      (found : s.folder file.url = some loading.folder) :
      Delivers regex s (.done file ticket) file.url listing
  | held (file : File) {folder : Folder Err} (loading : folder.stage.isLoading = true)
      (found : s.folder file.url = some folder) :
      Delivers regex s (.done file folder.entries.ticket) file.url folder.entries.all

theorem apply_of_delivers [DecidableEq Err] {regex : Regex} {op : FilesOp Err} {cwd : Url}
    {listing : Files} (delivers : Delivers regex s op cwd listing) (ambient : Nat → Ambient)
    (url : Url) : ∃ files, s.apply ambient url op = s.scan ambient cwd files true ∧
      (files = listing ∨ files.Perm (Entries.listed listing)) := by
  cases delivers with
  | full => exact ⟨_, rfl, .inl rfl⟩
  | @parts file _ _ _ loading ticket listing run sent current found =>
    have inv := Loading.inv_run run
    subst current
    have source := Loading.source_of_ticket inv sent
    obtain ⟨-, load, known, -, stage⟩ := inv.current _ source
    rw [sent] at known
    cases known
    have perm := inv.files
    rw [Loading.sourced, source] at perm
    simp only [sent, Option.map_some, Option.getD_some] at perm
    refine ⟨loading.folder.entries.all, ?_, .inr perm⟩
    simp only [apply, found]
    rw [if_pos ⟨by rw [stage rfl]; rfl, trivial⟩]
  | held file loading found =>
    refine ⟨_, ?_, .inl rfl⟩
    simp only [apply, found]
    rw [if_pos ⟨loading, trivial⟩]

section scan
variable {U : UrlCov → Prop} {cwd : Url} {files : Files}

/-- The children of a directory with one covariant url among them are one file. -/
theorem coherent {urls : List Url} {found : Url → Option File} {puts : List File}
    (lookup : Lookup cwd urls files found)
    (listed : ∀ f ∈ files, f.key.isEmpty = false → f.url.Sound ∧ f.url.isChild cwd = true)
    (given : ∀ f ∈ puts, ∃ url ∈ urls, url.isChild cwd = true ∧ found url = some f) :
    ∀ f ∈ puts, ∀ g ∈ puts, Covers g f → g = f := by
  intro f left g right covered
  obtain ⟨a, inside, child, some⟩ := given f left
  obtain ⟨b, inside', child', some'⟩ := given g right
  obtain ⟨member, key⟩ := lookup.hit a inside child f some
  obtain ⟨member', key'⟩ := lookup.hit b inside' child' g some'
  obtain ⟨sound, isChild⟩ := listed f member (Reconciled.key_of_hit child key)
  obtain ⟨sound', isChild'⟩ := listed g member' (Reconciled.key_of_hit child' key')
  have same := Url.key_of_covariant sound' isChild' sound isChild (BEq.symm covered)
  have equal := lookup.congr a b (BEq.trans (BEq.symm key) (BEq.trans (BEq.symm same) key'))
  rw [some, some'] at equal
  exact (Option.some.inj equal).symm

theorem scan_reconciled (uniform : lineage.Uniform U) (sound : ∀ url, U ⟨url⟩ → url.Sound)
    (inv : s.selected.Inv U) (yanked : ∀ url ∈ s.yanked.urls, U ⟨url⟩)
    (within : ∀ file ∈ files, file.key.isEmpty = false →
      U ⟨file.url⟩ ∧ file.url.isChild cwd = true)
    (ambient : Nat → Ambient) :
    ∃ selected yanked, s.scan ambient cwd files true = some { s with selected, yanked } ∧
      selected.Inv U ∧
      Reconciled Patch.selectedFile (·.parent.isSome = true)
        (fun f => selected.Conflicts ⟨f.url⟩) cwd files s.selected.inner selected.inner ∧
      Reconciled FileCov.file (fun _ => True) (fun _ => False) cwd files
        s.yanked.files yanked.files := by
  have known : ∀ url ∈ s.urls, U ⟨url⟩ := by
    intro url member
    rcases List.mem_append.mp member with member | member
    · obtain ⟨u, listed, rfl⟩ := List.mem_map.mp member
      exact inv.known u listed
    · exact yanked url member
  have pairs : s.urls.all (·.pair.isSome) = true := by
    refine List.all_eq_true.mpr fun url member => ?_
    obtain ⟨pair, found⟩ := (sound url (known url member)).isFramed.pair
    rw [found]
    rfl
  have left : ∀ e ∈ s.selected.inner, (Patch.selectedFile e).url ∈ s.urls := fun e member =>
    List.mem_append_left _ (List.mem_map_of_mem (Selected.mem_urls member))
  have right : ∀ e ∈ s.yanked.files, e.file.url ∈ s.urls := fun e member =>
    List.mem_append_right _ (List.mem_map_of_mem member)
  rw [scan]
  by_cases empty : (track cwd s.urls).isEmpty = true
  · have childless : ∀ url ∈ s.urls, url.isChild cwd = false := by
      intro url member
      by_contra child
      rw [Bool.not_eq_false] at child
      have here := get?_track cwd s.urls url.key
      rw [List.isEmpty_iff.mp empty, if_pos] at here
      · cases here
      · exact List.any_eq_true.mpr ⟨url, List.mem_filter.mpr ⟨member, child⟩, BEq.rfl⟩
    rw [if_pos empty, if_pos pairs]
    exact ⟨_, _, rfl, inv, .childless fun e member => childless _ (left e member),
      .childless fun e member => childless _ (right e member)⟩
  · have lookup := lookup cwd s.urls files
    have listed : ∀ f ∈ files, f.key.isEmpty = false → f.url.Sound ∧ f.url.isChild cwd = true :=
      fun f member key => ⟨sound _ (within f member key).1, (within f member key).2⟩
    rw [if_neg empty, patch, if_pos pairs]
    generalize filled : fill (track cwd s.urls) files = tracked
    rw [filled] at lookup
    obtain ⟨out, put⟩ := mem_fromScan cwd tracked (s.selected.urls.map UrlCov.url)
    obtain ⟨out', put'⟩ := mem_fromScan cwd tracked s.yanked.urls
    generalize Patch.fromScan cwd tracked true (s.selected.urls.map UrlCov.url) = chosen at *
    generalize Patch.fromScan cwd tracked true s.yanked.urls = cut at *
    have inside : ∀ url ∈ chosen.removal, ⟨url⟩ ∈ s.selected.urls := by
      intro url member
      obtain ⟨u, there, rfl⟩ := List.mem_map.mp ((out url).mp member).1
      exact there
    obtain ⟨⟨mid, n⟩, removed, inv'⟩ : ∃ after,
        s.selected.removeMany (ambient 0) chosen.removal = some after ∧ after.1.Inv U :=
      Selected.inv_removeMany uniform inv fun url member => inv.known _ (inside url member)
    have given : ∀ f ∈ chosen.files, ∃ url ∈ s.urls, url.isChild cwd = true ∧
        (tracked.get? url.key).join = some f := by
      intro f member
      obtain ⟨url, inside, rest⟩ := (put f).mp member
      exact ⟨url, List.mem_append_left _ inside, rest⟩
    have given' : ∀ f ∈ cut.files, ∃ url ∈ s.urls, url.isChild cwd = true ∧
        (tracked.get? url.key).join = some f := by
      intro f member
      obtain ⟨url, inside, rest⟩ := (put' f).mp member
      exact ⟨url, List.mem_append_right _ inside, rest⟩
    have listed' : ∀ f ∈ chosen.files, U ⟨f.url⟩ := by
      intro f member
      obtain ⟨url, inside, child, some⟩ := given f member
      obtain ⟨member, key⟩ := lookup.hit url inside child f some
      exact (within f member (Reconciled.key_of_hit child key)).1
    obtain ⟨inv'', selected⟩ := @Patch.upserted_selected U uniform ambient _
      (coherent lookup listed given) listed' _ inv' 1
    have yanked' := Patch.upserted_yanked (coherent lookup listed given')
      (s.yanked.removeMany cut.removal)
    refine ⟨_, cut.applyYanked s.yanked, by rw [Patch.applySelected, removed]; rfl, inv'', ?_, ?_⟩
    · refine .of_scan (fun e member => sound _ (inv.known _ (Selected.mem_urls member)))
        (fun a here b there covered =>
          Selected.eq_of_covariant inv.distinct here there (BEq.symm covered))
        listed lookup left (fun e member => (out _).trans (and_iff_right ?_))
        (fun f => (put f).trans ?_) (fun e => ?_) selected
      · exact List.mem_map_of_mem (Selected.mem_urls member)
      · rw [Selected.urls_eq, List.map_map]
        simp only [List.mem_map, exists_exists_and_eq_and]
        rfl
      · rw [Selected.mem_removeMany inv.distinct inside removed]
        simp only [Bool.not_eq_true]
        rfl
    · refine .of_scan (fun e member => sound _ (yanked _ (List.mem_map_of_mem member)))
        (fun a here b there covered => ?_)
        listed lookup right (fun e member => (out' _).trans (and_iff_right ?_))
        (fun f => (put' f).trans ?_) (fun e => ?_) yanked'
      · exact Yanked.eq_of_covariant here there (BEq.symm covered)
      · exact List.mem_map_of_mem member
      · simp only [Yanked.urls, List.mem_map, exists_exists_and_eq_and]
      · rw [Yanked.mem_removeMany fun url member => ((out' url).mp member).1]
        simp only [not_true_eq_false]

end scan

section samples
open Selected (ambient localFile)

/-- What is held, with `/d` as the current directory. -/
private def holding (selected : Selected) : Reconciler Unit where
  current := Folder.new false (Url.regular (text "/d"))
  parent := none
  history := History.default
  selected := selected
  yanked := ⟨[⟨localFile "/d/b"⟩, ⟨localFile "/e/b"⟩], 0, by decide⟩

private def choosing : List (Ambient × SelectedOp) :=
  [(ambient, .addMany [localFile "/d/a", localFile "/d/b", localFile "/e/a"])]

/-- `hub://a/@root/` with a name. -/
private def hubEntry (path : String) : File :=
  File.fromDummy (.os (Loc.bare (text path)) (hubAuth "a" (.some (hubAuth "root" .none)))) none

/-- `hub://c/@a,root/b/c`. -/
private def hubInner : File :=
  File.fromDummy (.os (Loc.bare (text "/b/c"))
    (hubAuth "c" (.some (hubAuth "a" (.some (hubAuth "root" .none)))))) none

private def choosingInHub : List (Ambient × SelectedOp) :=
  [(ambient, .add (hubEntry "/a")), (ambient, .add hubInner)]

end samples

end Reconciler

end Yazi.Core
