import Mathlib.Data.List.Sort
import Yazi.Base.Hierarchy
import Yazi.Base.Run
import Yazi.Fs.File

/-!
The selected files of a tab.

No selected file lies below another one. To tell quickly whether a file is above a selected one,
the number of selected files below each directory is kept.
-/
namespace Yazi.Core
open Yazi.Base Yazi.Shared Yazi.Fs

/-- Urls up to covariance, under their parents. -/
def lineage : Hierarchy UrlCov where
  parent u := u.url.parent.map UrlCov.mk
  rank u := u.url.components.length
  descends u p parent := by
    obtain ⟨up, above, rfl⟩ := Option.map_eq_some_iff.mp parent
    exact Url.length_parent above
  rank_congr a b same := congrArg List.length (UrlCov.beq_iff.mp same).2.1

/-- A file, compared by the covariance of its url. -/
structure FileCov where
  file : File
  deriving DecidableEq

namespace FileCov

def url (f : FileCov) : UrlCov := ⟨f.file.url⟩

instance : BEq FileCov := ⟨fun a b => a.url == b.url⟩

instance : EquivBEq FileCov where
  rfl {a} := (BEq.rfl : (a.url == a.url) = true)
  symm {a b} same := (BEq.symm same : (b.url == a.url) = true)
  trans {a _ c} left right := (BEq.trans left right : (a.url == c.url) = true)

end FileCov

/-- A url up to its derived equality, which ignores the ports. -/
structure UrlEq where
  url : Url
  deriving DecidableEq

namespace UrlEq

instance : BEq UrlEq := ⟨fun a b => a.url.shape = b.url.shape⟩

theorem beq_iff {a b : UrlEq} : (a == b) = true ↔ a.url.shape = b.url.shape := by
  simp [BEq.beq]

instance : EquivBEq UrlEq where
  rfl := beq_iff.mpr rfl
  symm same := beq_iff.mpr (beq_iff.mp same).symm
  trans left right := beq_iff.mpr ((beq_iff.mp left).trans (beq_iff.mp right))

/-- Equal urls are covariant. -/
theorem covariant {a b : UrlEq} (same : (a == b) = true) :
    ((⟨a.url⟩ : UrlCov) == ⟨b.url⟩) = true := by
  have shape := beq_iff.mp same
  apply UrlCov.beq_iff.mpr
  obtain ⟨a⟩ := a
  obtain ⟨b⟩ := b
  cases a <;> cases b <;> simp only [Url.shape, UrlOf.map, UrlOf.os.injEq, UrlOf.unix.injEq,
    reduceCtorEq] at shape
  all_goals
    refine ⟨rfl, shape.1, ?_⟩
    exact Auth.shape_physical shape.2

end UrlEq

/-- Puts an item into the group of its parent. -/
def enrol {α : Type} (url : α → Url) (grouped : Assoc UrlEq (List α)) (item : α) :
    Assoc UrlEq (List α) :=
  match (url item).parent with
  | none => grouped
  | some p => grouped.insert ⟨p⟩ ((grouped.get? ⟨p⟩).getD [] ++ [item])

/-- The items with a parent, by their parents. -/
def group {α : Type} (url : α → Url) (items : List α) : Assoc UrlEq (List α) :=
  items.foldl (enrol url) []

/-- What a call takes from outside: readings of the clock, the order of a hash map, and the
unstable sort by timestamps. -/
structure Ambient where
  clock : Nat → Nat
  arrange : List (List Url) → List (List Url)
  sort : Assoc FileCov Nat → Assoc FileCov Nat
  arrange_perm : ∀ groups, (arrange groups).Perm groups
  sort_perm : ∀ entries, (sort entries).Perm entries
  sort_sorted : ∀ entries, (sort entries).Pairwise fun a b => a.2 ≤ b.2

structure Selected where
  inner : Assoc FileCov Nat
  parents : Assoc UrlCov Nat

namespace Selected

def empty : Selected := ⟨[], []⟩

def urls (s : Selected) : List UrlCov := s.inner.keys.map FileCov.url

def contains (s : Selected) (url : UrlCov) : Bool := s.urls.contains url

/-- `IndexMap::extend` with consecutive timestamps. -/
def extend (inner : Assoc FileCov Nat) (now : Nat) : List File → Assoc FileCov Nat
  | [] => inner
  | file :: files => extend (inner.insert ⟨file⟩ now) (now + 1) files

def addSame (s : Selected) (now : Nat) (files : List File) : Selected × Nat :=
  -- If it has appeared as a parent
  let files := files.filter fun file => (s.parents.get? ⟨file.url⟩).isNone
  match files with
  | [] => (s, 0)
  | first :: _ =>
    -- If it has appeared as a child
    if (lineage.ancestors ⟨first.url⟩).any s.contains then (s, 0)
    else
      let inner := extend s.inner now files
      let parents :=
        match inner[s.inner.length]? with
        | none => s.parents
        | some (first, _) =>
          s.parents.raise (inner.length - s.inner.length) (lineage.ancestors first.url)
      (⟨inner, parents⟩, files.length)

def add (s : Selected) (ambient : Ambient) (file : File) : Selected × Bool :=
  let (s, added) := s.addSame (ambient.clock 0) [file]
  (s, added = 1)

/-- `addSame` for each group, each at its own time. -/
def addGroups (clock : Nat → Nat) : Nat → Selected → List (List File) → Selected × Nat
  | _, s, [] => (s, 0)
  | i, s, files :: groups =>
    let (s, added) := s.addSame (clock i) files
    let (s, rest) := addGroups clock (i + 1) s groups
    (s, added + rest)

def addMany (s : Selected) (ambient : Ambient) (files : List File) : Selected × Nat :=
  addGroups ambient.clock 0 s (group File.url files).values

/-- Swap-removes each url that is there: the rest, and how many were. -/
def takeOut (inner : Assoc FileCov Nat) : List Url → Assoc FileCov Nat × Nat
  | [] => (inner, 0)
  | url :: urls =>
    match swapRemove (fun entry => entry.1.url == ⟨url⟩) inner with
    | some rest =>
      let (rest, count) := takeOut rest urls
      (rest, count + 1)
    | none => takeOut inner urls

/-- `none` where a count is missing or too small. -/
def removeSame (s : Selected) (urls : List Url) : Option (Selected × Nat) :=
  match urls with
  | [] => some (s, 0)
  | first :: _ =>
    let (inner, count) := takeOut s.inner urls
    if count = 0 then some ({ s with inner }, 0)
    else (s.parents.lower count (lineage.ancestors ⟨first⟩)).map fun parents =>
      (⟨inner, parents⟩, count)

def remove (s : Selected) (url : Url) : Option (Selected × Bool) :=
  (s.removeSame [url]).map fun (s, removed) => (s, removed = 1)

def removeGroups : Selected → List (List Url) → Option (Selected × Nat)
  | s, [] => some (s, 0)
  | s, urls :: groups => do
    let (s, removed) ← s.removeSame urls
    let (s, rest) ← removeGroups s groups
    return (s, removed + rest)

def removeMany (s : Selected) (ambient : Ambient) (urls : List Url) : Option (Selected × Nat) := do
  let (s, affected) ← removeGroups s (ambient.arrange (group id urls).values)
  if affected > 0 then return ({ s with inner := ambient.sort s.inner }, affected)
  else return (s, affected)

def clear (_ : Selected) : Selected := empty

/-- Puts the file in the place of the one with its url. -/
def replaceKey (file : File) : Assoc FileCov Nat → Assoc FileCov Nat
  | [] => []
  | (key, time) :: inner =>
    if key.url == ⟨file.url⟩ then (⟨file⟩, time) :: inner
    else (key, time) :: replaceKey file inner

def upsert (s : Selected) (ambient : Ambient) (file : File) : Selected :=
  if s.contains ⟨file.url⟩ then { s with inner := replaceKey file s.inner }
  else (s.add ambient file).1

end Selected

inductive SelectedOp where
  | add (file : File)
  | addMany (files : List File)
  | remove (url : Url)
  | removeMany (urls : List Url)
  | clear
  | upsert (file : File)

def SelectedOp.urls : SelectedOp → List Url
  | .add file | .upsert file => [file.url]
  | .addMany files => files.map File.url
  | .remove url => [url]
  | .removeMany urls => urls
  | .clear => []

/-- No successor where the code panics. -/
def Selected.step (s : Selected) : Ambient × SelectedOp → Option Selected
  | (ambient, .add file) => some (s.add ambient file).1
  | (ambient, .addMany files) => some (s.addMany ambient files).1
  | (_, .remove url) => (s.remove url).map Prod.fst
  | (ambient, .removeMany urls) => (s.removeMany ambient urls).map Prod.fst
  | (_, .clear) => some s.clear
  | (ambient, .upsert file) => some (s.upsert ambient file)

/-! ### What the loops do -/

/-- A group is not empty, and its items have the parent that it stands for. -/
def Grouped {α : Type} (url : α → Url) (items : List α) (grouped : Assoc UrlEq (List α)) : Prop :=
  ∀ entry ∈ grouped, entry.2 ≠ [] ∧ ∀ item ∈ entry.2,
    item ∈ items ∧ ∃ p, (url item).parent = some p ∧ ((⟨p⟩ : UrlEq) == entry.1) = true

theorem grouped_enrol {α : Type} {url : α → Url} {items : List α} {item : α}
    {grouped : Assoc UrlEq (List α)} (spec : Grouped url items grouped) :
    Grouped url (items ++ [item]) (enrol url grouped item) := by
  have kept : Grouped url (items ++ [item]) grouped := by
    intro entry member
    obtain ⟨given, each⟩ := spec entry member
    exact ⟨given, fun x inside => ⟨List.mem_append_left _ (each x inside).1, (each x inside).2⟩⟩
  simp only [enrol]
  cases parent : (url item).parent with
  | none => exact kept
  | some p =>
    intro entry member
    rcases Assoc.mem_insert member with old | ⟨same, values⟩
    · exact kept entry old
    · rw [values]
      refine ⟨by simp, fun x inside => ?_⟩
      rcases List.mem_append.mp inside with before | new
      · -- What the group held has the same parent.
        cases found : grouped.get? ⟨p⟩ with
        | none => simp [found] at before
        | some xs =>
          rw [found] at before
          obtain ⟨key, there, same'⟩ := Assoc.mem_of_get? found
          obtain ⟨listed, q, above, equal⟩ := (kept _ there).2 x before
          exact ⟨listed, q, above, BEq.trans (BEq.trans equal (BEq.symm same')) same⟩
      · rw [List.mem_singleton.mp new]
        exact ⟨by simp, p, parent, same⟩

theorem grouped_group {α : Type} (url : α → Url) (items : List α) :
    Grouped url items (group url items) := by
  have any : ∀ (rest sofar : List α) (grouped : Assoc UrlEq (List α)),
      Grouped url sofar grouped → Grouped url (sofar ++ rest) (rest.foldl (enrol url) grouped) := by
    intro rest
    induction rest with
    | nil =>
      intro sofar grouped spec
      rwa [List.append_nil]
    | cons item rest ih =>
      intro sofar grouped spec
      have next := ih (sofar ++ [item]) _ (grouped_enrol spec)
      rwa [List.append_assoc] at next
  exact any items [] [] (by simp [Grouped])

namespace Selected

theorem extend_spec (inner : Assoc FileCov Nat) (now : Nat) (files : List File) :
    (inner.Distinct → (extend inner now files).Distinct) ∧
      ∃ fresh, (extend inner now files).keys = inner.keys ++ fresh ∧
        ∀ f ∈ fresh, f.file ∈ files ∧ inner.keys.contains f = false := by
  induction files generalizing inner now with
  | nil => exact ⟨id, [], by simp [extend]⟩
  | cons file files ih =>
    obtain ⟨distinct, fresh, keys, new⟩ := ih (inner.insert ⟨file⟩ now) (now + 1)
    refine ⟨fun apart => distinct (apart.insert ..), ?_⟩
    rw [Assoc.keys_insert] at keys new
    split at keys
    · next known =>
      rw [if_pos known] at new
      exact ⟨fresh, keys, fun f member => ⟨List.mem_cons_of_mem _ (new f member).1, (new f member).2⟩⟩
    · next unknown =>
      rw [if_neg unknown] at new
      refine ⟨⟨file⟩ :: fresh, by rw [extend, keys]; simp, ?_⟩
      intro f member
      rcases List.mem_cons.mp member with rfl | member
      · exact ⟨List.mem_cons_self .., by simpa using unknown⟩
      · obtain ⟨given, absent⟩ := new f member
        rw [List.contains_append, Bool.or_eq_false_iff] at absent
        exact ⟨List.mem_cons_of_mem _ given, absent.1⟩

theorem takeOut_spec (inner : Assoc FileCov Nat) (urls : List Url) :
    ∃ taken : Assoc FileCov Nat, inner.Perm (taken ++ (takeOut inner urls).1) ∧
      taken.length = (takeOut inner urls).2 ∧
      ∀ entry ∈ taken, ∃ url ∈ urls, (entry.1.url == ⟨url⟩) = true := by
  induction urls generalizing inner with
  | nil => exact ⟨[], .refl _, rfl, by simp⟩
  | cons url urls ih =>
    simp only [takeOut]
    cases removed : swapRemove (fun entry => entry.1.url == ⟨url⟩) inner with
    | none =>
      obtain ⟨taken, perm, length, asked⟩ := ih inner
      refine ⟨taken, perm, length, fun entry member => ?_⟩
      obtain ⟨url', inside, same⟩ := asked entry member
      exact ⟨url', List.mem_cons_of_mem _ inside, same⟩
    | some rest =>
      obtain ⟨entry, same, perm⟩ := swapRemove_perm removed
      obtain ⟨taken, perm', length, asked⟩ := ih rest
      refine ⟨entry :: taken, perm.trans (perm'.cons entry), congrArg Nat.succ length, ?_⟩
      intro other member
      rcases List.mem_cons.mp member with rfl | member
      · exact ⟨url, List.mem_cons_self .., same⟩
      · obtain ⟨url', inside, same'⟩ := asked other member
        exact ⟨url', List.mem_cons_of_mem _ inside, same'⟩

/-! ### What holds throughout -/

variable {U : UrlCov → Prop}

/-- The counts are those of the selected urls, and none of these lies below another. -/
structure Inv (U : UrlCov → Prop) (s : Selected) : Prop where
  distinct : s.inner.Distinct
  known : ∀ url ∈ s.urls, U url
  tallied : lineage.Tallied s.parents s.urls
  apart : ∀ a ∈ s.urls, ∀ b ∈ s.urls, lineage.isAbove a b = false

theorem inv_empty : empty.Inv U :=
  ⟨.nil, by simp [urls, empty, Assoc.keys], fun _ => rfl, by simp [urls, empty, Assoc.keys]⟩

/-- The urls have the same ancestors. -/
def Siblings (urls : List Url) : Prop :=
  ∀ x ∈ urls, ∀ y ∈ urls, ∀ a, lineage.isAbove a ⟨x⟩ = lineage.isAbove a ⟨y⟩

theorem contains_iff {s : Selected} {url : UrlCov} :
    s.contains url = true ↔ ∃ other ∈ s.urls, (url == other) = true :=
  List.contains_iff_exists_mem_beq

/-- A url has a count exactly if it is above a selected one. -/
theorem parents_isNone {s : Selected} (inv : s.Inv U) (url : UrlCov) :
    (s.parents.get? url).isNone = true ↔ ∀ below ∈ s.urls, lineage.isAbove url below = false := by
  rw [inv.tallied url]
  have zero : lineage.tally url s.urls = 0 ↔
      ∀ below ∈ s.urls, lineage.isAbove url below = false := by
    simp only [Hierarchy.tally, List.countP_eq_zero, Bool.not_eq_true]
  split
  · next none => simpa using zero.mp none
  · next some => simpa using (not_congr zero).mp some

/-- Urls with one chain of ancestors are selected. -/
private theorem inv_grown {s : Selected} {inner : Assoc FileCov Nat} {fresh : List FileCov}
    {k : UrlCov} (inv : s.Inv U) (distinct : inner.Distinct)
    (urls : inner.keys.map FileCov.url = s.urls ++ fresh.map FileCov.url) (given : fresh ≠ [])
    (known : ∀ f ∈ fresh, U f.url) (alike : lineage.Alike k (fresh.map FileCov.url))
    (outer : ∀ f ∈ fresh, ∀ below ∈ s.urls, lineage.isAbove f.url below = false)
    (free : ∀ above ∈ s.urls, lineage.isAbove above k = false) :
    Inv U ⟨inner, s.parents.raise fresh.length (lineage.ancestors k)⟩ := by
  have split : ∀ url ∈ inner.keys.map FileCov.url, url ∈ s.urls ∨ ∃ f ∈ fresh, f.url = url := by
    intro url member
    rw [urls] at member
    exact (List.mem_append.mp member).imp id List.mem_map.mp
  refine ⟨distinct, ?_, ?_, ?_⟩
  · intro url member
    rcases split url member with old | ⟨f, new, rfl⟩
    · exact inv.known url old
    · exact known f new
  · have raised := Hierarchy.tallied_raise inv.tallied alike (by simpa using given)
    rw [List.length_map, ← urls] at raised
    exact raised
  · intro a left b right
    rcases split a left with old | ⟨f, new, rfl⟩ <;> rcases split b right with old' | ⟨g, new', rfl⟩
    · exact inv.apart a old b old'
    · rw [alike _ (List.mem_map_of_mem new')]
      exact free a old
    · exact outer f new b old'
    · -- Both are new, so they have the same ancestors, and neither is its own.
      rw [alike _ (List.mem_map_of_mem new'), ← alike _ (List.mem_map_of_mem new)]
      exact lineage.isAbove_self _

theorem inv_addSame {s : Selected} {now : Nat} {files : List File} (inv : s.Inv U)
    (siblings : Siblings (files.map File.url)) (known : ∀ file ∈ files, U ⟨file.url⟩) :
    (s.addSame now files).1.Inv U := by
  simp only [addSame]
  have kept : ∀ file ∈ files.filter fun file => (s.parents.get? ⟨file.url⟩).isNone,
      file ∈ files ∧ ∀ below ∈ s.urls, lineage.isAbove ⟨file.url⟩ below = false := by
    intro file member
    obtain ⟨given, free⟩ := List.mem_filter.mp member
    exact ⟨given, (parents_isNone inv _).mp free⟩
  generalize files.filter (fun file => (s.parents.get? ⟨file.url⟩).isNone) = fit at *
  have alike : ∀ x ∈ fit, ∀ y ∈ fit, ∀ a,
      lineage.isAbove a ⟨x.url⟩ = lineage.isAbove a ⟨y.url⟩ := fun x left y right =>
    siblings _ (List.mem_map_of_mem (kept x left).1) _ (List.mem_map_of_mem (kept y right).1)
  cases fit with
  | nil => exact inv
  | cons first others =>
    simp only
    split
    · exact inv
    · next free =>
      obtain ⟨distinct, fresh, keys, new⟩ := extend_spec s.inner now (first :: others)
      have next : (extend s.inner now (first :: others))[s.inner.length]?.map Prod.fst =
          fresh.head? := by
        rw [← List.getElem?_map]
        change (extend s.inner now (first :: others)).keys[s.inner.length]? = _
        have length : s.inner.keys.length = s.inner.length := List.length_map _
        rw [keys, ← length, List.getElem?_append_right (Nat.le_refl _), Nat.sub_self,
          List.head?_eq_getElem?]
      have grown : (extend s.inner now (first :: others)).length - s.inner.length =
          fresh.length := by
        have length := congrArg List.length keys
        simp only [Assoc.keys, List.length_map, List.length_append] at length
        omega
      have urls : (extend s.inner now (first :: others)).keys.map FileCov.url =
          s.urls ++ fresh.map FileCov.url := by
        rw [keys, List.map_append]
        rfl
      rw [grown]
      generalize extend s.inner now (first :: others) = inner at *
      cases fresh with
      | nil =>
        -- All files were selected before.
        cases here : inner[s.inner.length]? with
        | some entry => simp [here] at next
        | none =>
          rw [List.map_nil, List.append_nil] at urls
          exact ⟨distinct inv.distinct, fun url member => inv.known url (urls ▸ member),
            by rw [Selected.urls, urls]; exact inv.tallied,
            fun a left b right => inv.apart a (urls ▸ left) b (urls ▸ right)⟩
      | cons f fresh =>
        cases here : inner[s.inner.length]? with
        | none => simp [here] at next
        | some entry =>
          obtain ⟨f', time⟩ := entry
          simp only [here, Option.map_some, List.head?_cons, Option.some.injEq] at next
          subst next
          have inside : ∀ g ∈ f' :: fresh, g.file ∈ first :: others := fun g member =>
            (new g member).1
          have here' := List.mem_cons_self (a := f') (l := fresh)
          apply inv_grown inv (distinct inv.distinct) urls (by simp)
          · intro g member
            exact known _ (kept _ (inside g member)).1
          · intro url member a
            obtain ⟨g, there, rfl⟩ := List.mem_map.mp member
            exact alike _ (inside g there) _ (inside f' here') a
          · intro g member
            exact (kept _ (inside g member)).2
          · intro above member
            have same := alike _ (inside f' here') first (List.mem_cons_self ..) above
            by_contra lies
            rw [Bool.not_eq_false] at lies
            have lies' : lineage.isAbove above ⟨first.url⟩ = true := same ▸ lies
            obtain ⟨c, chain, equal⟩ := List.any_eq_true.mp lies'
            exact free (List.any_eq_true.mpr
              ⟨c, chain, contains_iff.mpr ⟨above, member, equal⟩⟩)

/-- Fewer urls are selected, in any order. -/
private theorem inv_shrunk {s : Selected} {inner taken : Assoc FileCov Nat}
    {parents : Assoc UrlCov Nat} (inv : s.Inv U) (perm : s.inner.Perm (taken ++ inner))
    (tallied : lineage.Tallied parents (inner.keys.map FileCov.url)) : Inv U ⟨inner, parents⟩ := by
  have inside : ∀ url ∈ inner.keys.map FileCov.url, url ∈ s.urls := by
    intro url member
    obtain ⟨f, there, rfl⟩ := List.mem_map.mp member
    obtain ⟨entry, listed, rfl⟩ := List.mem_map.mp there
    have old := perm.symm.subset (List.mem_append_right taken listed)
    exact List.mem_map_of_mem (List.mem_map_of_mem old)
  refine ⟨?_, fun url member => inv.known url (inside url member), tallied,
    fun a left b right => inv.apart a (inside a left) b (inside b right)⟩
  have whole : Assoc.Distinct (taken ++ inner) :=
    List.Pairwise.perm inv.distinct perm fun {a b} differ => by rw [BEq.comm, differ]
  exact (List.pairwise_append.mp whole).2.1

theorem inv_removeSame {s : Selected} {urls : List Url} (uniform : lineage.Uniform U)
    (inv : s.Inv U) (siblings : Siblings urls) (known : ∀ url ∈ urls, U ⟨url⟩) :
    ∃ after, s.removeSame urls = some after ∧ after.1.Inv U := by
  cases urls with
  | nil => exact ⟨_, rfl, inv⟩
  | cons first others =>
    obtain ⟨taken, perm, length, asked⟩ := takeOut_spec s.inner (first :: others)
    simp only [removeSame]
    generalize takeOut s.inner (first :: others) = out at *
    obtain ⟨rest, count⟩ := out
    simp only at perm length ⊢
    have urls : s.urls.Perm (taken.keys.map FileCov.url ++ rest.keys.map FileCov.url) := by
      have mapped := (perm.map Prod.fst).map FileCov.url
      rwa [List.map_append, List.map_append] at mapped
    have tallied := inv.tallied.perm urls
    split
    · next none =>
      have nil : taken = [] := List.length_eq_zero_iff.mp (length.trans none)
      subst nil
      exact ⟨_, rfl, inv_shrunk inv perm (inv.tallied.perm urls)⟩
    · next some =>
      -- What was taken out is covariant with urls of one chain of ancestors.
      have alike : lineage.Alike ⟨first⟩ (taken.keys.map FileCov.url) := by
        intro url member a
        obtain ⟨f, there, rfl⟩ := List.mem_map.mp member
        obtain ⟨entry, inside, rfl⟩ := List.mem_map.mp there
        obtain ⟨url, given, same⟩ := asked entry inside
        have selected : entry.1.url ∈ s.urls :=
          urls.symm.subset (List.mem_append_left _ (List.mem_map_of_mem there))
        rw [lineage.above_agrees uniform (inv.known _ selected) (known url given) same]
        exact siblings url given first (List.mem_cons_self ..) a
      have given : taken.keys.map FileCov.url ≠ [] := by
        intro nil
        simp only [Assoc.keys, List.map_eq_nil_iff] at nil
        rw [nil] at length
        exact some length.symm
      obtain ⟨parents, lowered, after⟩ := Hierarchy.tallied_lower tallied alike given
      simp only [Assoc.keys, List.length_map, length] at lowered
      rw [lowered]
      exact ⟨_, rfl, inv_shrunk inv perm after⟩

/-- The members of a group have one parent, up to its derived equality. -/
private theorem siblings_group {α : Type} {url : α → Url} {items : List α} {key : UrlEq}
    {members : List α} (uniform : lineage.Uniform U) (known : ∀ item ∈ items, U ⟨url item⟩)
    (listed : (key, members) ∈ group url items) : Siblings (members.map url) := by
  obtain ⟨-, each⟩ := grouped_group url items _ listed
  have parent : ∀ x ∈ members.map url, ∃ p, U ⟨p⟩ ∧ ((⟨p⟩ : UrlEq) == key) = true ∧
      ∀ a, lineage.isAbove a ⟨x⟩ = (⟨p⟩ == a || lineage.isAbove a ⟨p⟩) := by
    intro x member
    obtain ⟨item, inside, rfl⟩ := List.mem_map.mp member
    obtain ⟨given, p, above, same⟩ := each item inside
    have lifted : lineage.parent ⟨url item⟩ = some ⟨p⟩ := congrArg (Option.map UrlCov.mk) above
    refine ⟨p, uniform.closed _ _ (known item given) lifted, same, fun a => ?_⟩
    rw [Hierarchy.isAbove_eq, lifted]
  intro x left y right a
  obtain ⟨p, known, same, above⟩ := parent x left
  obtain ⟨q, known', same', above'⟩ := parent y right
  have equal : ((⟨p⟩ : UrlCov) == ⟨q⟩) = true :=
    UrlEq.covariant (BEq.trans same (BEq.symm same'))
  rw [above, above', BEq.congr_left equal, lineage.above_agrees uniform known known' equal]

private theorem siblings_singleton (url : Url) : Siblings [url] := by
  intro x left y right a
  rw [List.mem_singleton.mp left, List.mem_singleton.mp right]

theorem inv_addGroups {clock : Nat → Nat} {i : Nat} {s : Selected} {groups : List (List File)}
    (inv : s.Inv U) (siblings : ∀ files ∈ groups, Siblings (files.map File.url))
    (known : ∀ files ∈ groups, ∀ file ∈ files, U ⟨file.url⟩) :
    (addGroups clock i s groups).1.Inv U := by
  induction groups generalizing s i with
  | nil => exact inv
  | cons files groups ih =>
    rw [List.forall_mem_cons] at siblings known
    exact ih (inv_addSame inv siblings.1 known.1) siblings.2 known.2

theorem inv_removeGroups {s : Selected} {groups : List (List Url)} (uniform : lineage.Uniform U)
    (inv : s.Inv U) (siblings : ∀ urls ∈ groups, Siblings urls)
    (known : ∀ urls ∈ groups, ∀ url ∈ urls, U ⟨url⟩) :
    ∃ after, removeGroups s groups = some after ∧ after.1.Inv U := by
  induction groups generalizing s with
  | nil => exact ⟨_, rfl, inv⟩
  | cons urls groups ih =>
    rw [List.forall_mem_cons] at siblings known
    obtain ⟨⟨middle, removed⟩, first, inv⟩ := inv_removeSame uniform inv siblings.1 known.1
    obtain ⟨after, rest, inv⟩ := ih inv siblings.2 known.2
    exact ⟨(after.1, removed + after.2), by simp [removeGroups, first, rest], inv⟩

/-- The groups of urls are siblings. -/
private theorem groups_known {α : Type} {url : α → Url} {items : List α}
    (uniform : lineage.Uniform U) (known : ∀ item ∈ items, U ⟨url item⟩) :
    ∀ members ∈ (group url items).values,
      Siblings (members.map url) ∧ ∀ item ∈ members, U ⟨url item⟩ := by
  intro members listed
  obtain ⟨⟨key, members'⟩, inside, rfl⟩ := List.mem_map.mp listed
  refine ⟨siblings_group uniform known inside, fun item member => ?_⟩
  exact known item ((grouped_group url items _ inside).2 item member).1

theorem inv_removeMany {s : Selected} {ambient : Ambient} {urls : List Url}
    (uniform : lineage.Uniform U) (inv : s.Inv U) (known : ∀ url ∈ urls, U ⟨url⟩) :
    ∃ after, s.removeMany ambient urls = some after ∧ after.1.Inv U := by
  have groups : ∀ members ∈ (group id urls).values,
      Siblings (members.map id) ∧ ∀ url ∈ members, U ⟨id url⟩ := groups_known uniform known
  have arranged : ∀ members ∈ ambient.arrange (group id urls).values,
      Siblings members ∧ ∀ url ∈ members, U ⟨url⟩ := by
    intro members listed
    obtain ⟨siblings, known⟩ := groups members ((ambient.arrange_perm _).subset listed)
    rw [List.map_id] at siblings
    exact ⟨siblings, known⟩
  obtain ⟨⟨after, affected⟩, removed, inv⟩ := inv_removeGroups uniform inv
    (fun members listed => (arranged members listed).1) fun members listed =>
      (arranged members listed).2
  simp only [removeMany, removed, Option.bind_eq_bind, Option.bind_some]
  split
  · refine ⟨_, rfl, @inv_shrunk U after (ambient.sort after.inner) [] after.parents inv
      (ambient.sort_perm _).symm ?_⟩
    exact inv.tallied.perm (((ambient.sort_perm _).map _).map _).symm
  · exact ⟨_, rfl, inv⟩

/-- A key that is replaced is covariant with the old one. -/
private theorem replaceKey_spec {file : File} {inner : Assoc FileCov Nat} (given : U ⟨file.url⟩)
    (known : ∀ f ∈ inner.keys, U f.url) :
    List.Forall₂ (fun old new : FileCov => U old.url ∧ U new.url ∧ (old.url == new.url) = true)
      inner.keys (replaceKey file inner).keys := by
  induction inner with
  | nil => exact .nil
  | cons entry inner ih =>
    obtain ⟨key, time⟩ := entry
    obtain ⟨here, there⟩ := List.forall_mem_cons.mp known
    simp only [replaceKey]
    split
    · next same =>
      refine .cons ⟨here, given, same⟩ ?_
      exact List.forall₂_same.mpr fun f member => ⟨there f member, there f member, BEq.rfl⟩
    · exact .cons ⟨here, here, BEq.rfl⟩ (ih there)

theorem inv_replaceKey {s : Selected} {file : File} (uniform : lineage.Uniform U) (inv : s.Inv U)
    (given : U ⟨file.url⟩) : Inv U { s with inner := replaceKey file s.inner } := by
  have old : ∀ f ∈ s.inner.keys, U f.url := fun f member =>
    inv.known _ (List.mem_map_of_mem member)
  have replaced := replaceKey_spec given old
  have urls : List.Forall₂ (fun a b => U a ∧ U b ∧ (a == b) = true) s.urls
      (Selected.urls { s with inner := replaceKey file s.inner }) := by
    rw [Selected.urls, Selected.urls, List.forall₂_map_left_iff, List.forall₂_map_right_iff]
    exact replaced
  have above : ∀ {a b}, U a → U b → (a == b) = true → ∀ c,
      lineage.isAbove c a = lineage.isAbove c b := fun left right same =>
    lineage.above_agrees uniform left right same
  refine ⟨?_, ?_, ?_, ?_⟩
  · have pairs : s.inner.keys.Pairwise fun a b => (a == b) = false :=
      List.pairwise_map.mpr inv.distinct
    have apart := pairwise_of_forall₂ replaced pairs
      (fun a b c d left right (differ : (a.url == b.url) = false) =>
        (by rw [← BEq.congr_left left.2.2, ← BEq.congr_right right.2.2, differ] :
          (c.url == d.url) = false))
    exact List.pairwise_map.mp apart
  · intro url member
    obtain ⟨a, -, -, known, -⟩ := exists_of_forall₂ urls member
    exact known
  · intro a
    rw [inv.tallied a, Hierarchy.tally_congr (urls.imp fun a b related =>
      above related.1 related.2.1 related.2.2)]
  · intro a left b right
    obtain ⟨a', left', -, -, same⟩ := exists_of_forall₂ urls left
    obtain ⟨b', right', known, known', same'⟩ := exists_of_forall₂ urls right
    rw [← above known known' same', ← lineage.isAbove_congr same]
    exact inv.apart a' left' b' right'

theorem step_inv {s : Selected} {label : Ambient × SelectedOp} (uniform : lineage.Uniform U)
    (inv : s.Inv U) (known : ∀ url ∈ label.2.urls, U ⟨url⟩) :
    ∃ after, s.step label = some after ∧ after.Inv U := by
  obtain ⟨ambient, op⟩ := label
  have added : ∀ file : File, U ⟨file.url⟩ → (s.add ambient file).1.Inv U := fun file known =>
    inv_addSame inv (siblings_singleton file.url) (by simpa using known)
  cases op with
  | add file => exact ⟨_, rfl, added file (known _ (List.mem_cons_self ..))⟩
  | addMany files =>
    have groups := groups_known uniform fun file member =>
      known _ (List.mem_map_of_mem member)
    exact ⟨_, rfl, inv_addGroups inv (fun members listed => (groups members listed).1)
      fun members listed => (groups members listed).2⟩
  | remove url =>
    obtain ⟨after, removed, inv⟩ := inv_removeSame uniform inv (siblings_singleton url) known
    exact ⟨after.1, by simp [step, remove, removed], inv⟩
  | removeMany urls =>
    obtain ⟨after, removed, inv⟩ := inv_removeMany uniform inv known
    exact ⟨after.1, congrArg (Option.map Prod.fst) removed, inv⟩
  | clear => exact ⟨_, rfl, inv_empty⟩
  | upsert file =>
    refine ⟨_, rfl, ?_⟩
    simp only [upsert]
    split
    · exact inv_replaceKey uniform inv (known _ (List.mem_cons_self ..))
    · exact added file (known _ (List.mem_cons_self ..))

/-- Over every run: the counts are exact, no selected url lies below another, and no operation
on urls of the set can panic. -/
theorem selected_consistent {s : Selected} {labels : List (Ambient × SelectedOp)}
    (uniform : lineage.Uniform U) (run : Run step empty labels s)
    (known : ∀ label ∈ labels, ∀ url ∈ label.2.urls, U ⟨url⟩) :
    (∀ url, s.parents.get? url =
        if lineage.tally url s.urls = 0 then none else some (lineage.tally url s.urls)) ∧
      (∀ a ∈ s.urls, ∀ b ∈ s.urls, lineage.isAbove a b = false) ∧
      ∀ label : Ambient × SelectedOp, (∀ url ∈ label.2.urls, U ⟨url⟩) →
        (s.step label).isSome = true := by
  have inv : s.Inv U := by
    refine run.invariant_of_labels (fun s label t member inv move => ?_) inv_empty
    obtain ⟨after, moved, inv⟩ := step_inv uniform inv (known label member)
    rw [move] at moved
    cases moved
    exact inv
  refine ⟨inv.tallied, inv.apart, fun label known => ?_⟩
  obtain ⟨after, moved, -⟩ := step_inv uniform inv known
  rw [moved]
  rfl

/-- The urls of the local file system are uniform. -/
theorem uniform_regular : lineage.Uniform fun u => ∃ path, u.url = Url.regular path where
  closed u p regular above := by
    obtain ⟨path, shape⟩ := regular
    obtain ⟨up, parent, rfl⟩ := Option.map_eq_some_iff.mp above
    rw [shape] at parent
    obtain ⟨path', -, rfl⟩ := Option.map_eq_some_iff.mp parent
    exact ⟨path', rfl⟩
  agrees u v left right same := by
    obtain ⟨u⟩ := u
    obtain ⟨v⟩ := v
    obtain ⟨p, shape⟩ := left
    obtain ⟨q, shape'⟩ := right
    simp only at shape shape'
    subst shape shape'
    have path : Path.components (Path.trim p) = Path.components (Path.trim q) :=
      (UrlCov.beq_iff.mp same).2.1
    have parent : ∀ p, lineage.parent ⟨Url.regular p⟩ =
        (Path.parent (Path.trim p)).map fun up => ⟨Url.regular up⟩ := fun p => by
      change Option.map UrlCov.mk ((Path.parent (Path.trim p)).map Url.regular) = _
      rw [Option.map_map]
      rfl
    have whether := Path.parent_isNone_congr path
    rw [parent, parent]
    cases above : Path.parent (Path.trim p) <;> cases above' : Path.parent (Path.trim q) <;>
      rw [above, above'] at whether
    · exact .none
    · cases whether
    · cases whether
    · refine .some (UrlCov.beq_iff.mpr ⟨rfl, ?_, rfl⟩)
      have left := (Path.components_parent above).1
      have right := (Path.components_parent above').1
      rw [Url.components, Url.components]
      exact (Loc.components_bare _).trans ((left.trans (path ▸ right.symm)).trans
        (Loc.components_bare _).symm)

def localFile (path : String) : File := File.fromDummy (Url.regular (text path)) none

/-- The insertion sort, groups in their order, and a clock that counts. -/
def ambient : Ambient where
  clock := id
  arrange := id
  sort := List.insertionSort fun a b => a.2 ≤ b.2
  arrange_perm _ := .refl _
  sort_perm entries := List.perm_insertionSort _ entries
  sort_sorted entries := List.pairwise_insertionSort _ entries

/-- Siblings of two directories are selected, and some of them deselected again. -/
theorem selected_consistent_siblings :
    ∃ s, Run step empty [(ambient, .addMany [localFile "/a/x", localFile "/a/y", localFile "/b/z"]),
        (ambient, .add (localFile "/a")), (ambient, .removeMany [(localFile "/a/x").url]),
        (ambient, .upsert (localFile "/a/y"))] s ∧
      (∀ url, s.parents.get? url =
        if lineage.tally url s.urls = 0 then none else some (lineage.tally url s.urls)) ∧
      ∀ a ∈ s.urls, ∀ b ∈ s.urls, lineage.isAbove a b = false := by
  have run : Run step empty [(ambient, .addMany [localFile "/a/x", localFile "/a/y", localFile "/b/z"]),
      (ambient, .add (localFile "/a")), (ambient, .removeMany [(localFile "/a/x").url]),
      (ambient, .upsert (localFile "/a/y"))] _ := run_exec (by decide)
  have consistent := selected_consistent uniform_regular run (by
    simp only [List.forall_mem_cons, SelectedOp.urls, List.map_cons, List.map_nil]
    exact ⟨⟨⟨_, rfl⟩, ⟨_, rfl⟩, ⟨_, rfl⟩, by simp⟩, ⟨⟨_, rfl⟩, by simp⟩, ⟨⟨_, rfl⟩, by simp⟩,
      ⟨⟨_, rfl⟩, by simp⟩, by simp⟩)
  exact ⟨_, run, consistent.1, consistent.2.1⟩

end Selected

end Yazi.Core
