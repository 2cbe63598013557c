import Yazi.Base.Enumeration
import Yazi.Core.Selected

/-!
The order in which the selected urls are enumerated.

The entries are added at the end, taken out by swap removal, and sorted by their timestamps at the
end of a removal of many.
-/
namespace Yazi.Core
open Yazi.Base Yazi.Shared Yazi.Fs

namespace Selected

variable {s t : Selected}

/-- The url that an entry enumerates. -/
def entryUrl (entry : FileCov × Nat) : UrlCov := entry.1.url

theorem urls_eq (s : Selected) : s.urls = s.inner.map entryUrl :=
  List.map_map

/-! ### No url is selected twice -/

theorem ne_of_distinct {a b : FileCov × Nat} (differ : (a.1 == b.1) = false) :
    entryUrl a ≠ entryUrl b := by
  intro same
  have equal : (entryUrl a == entryUrl b) = true := by rw [same]; exact BEq.rfl
  exact Bool.false_ne_true (differ.symm.trans equal)

theorem nodup_urls (distinct : s.inner.Distinct) : s.urls.Nodup := by
  rw [urls_eq, List.Nodup, List.pairwise_map]
  exact distinct.imp ne_of_distinct

theorem distinct_perm {inner inner' : Assoc FileCov Nat} (distinct : inner.Distinct)
    (perm : inner.Perm inner') : inner'.Distinct :=
  List.Pairwise.perm distinct perm fun {a b} differ => by rw [BEq.comm, differ]

theorem distinct_takeOut {inner : Assoc FileCov Nat} (distinct : inner.Distinct) (asked : List Url) :
    (takeOut inner asked).1.Distinct := by
  obtain ⟨taken, perm, -, -⟩ := takeOut_spec inner asked
  exact (List.pairwise_append.mp (distinct_perm distinct perm)).2.1

theorem distinct_addSame (distinct : s.inner.Distinct) (now : Nat) (files : List File) :
    (s.addSame now files).1.inner.Distinct := by
  rw [addSame]
  split
  · exact distinct
  · dsimp only
    split
    · exact distinct
    · exact (extend_spec ..).1 distinct

theorem distinct_addGroups (distinct : s.inner.Distinct) (clock : Nat → Nat) (i : Nat)
    (groups : List (List File)) : (addGroups clock i s groups).1.inner.Distinct := by
  induction groups generalizing s i with
  | nil => exact distinct
  | cons files groups ih => exact ih (distinct_addSame distinct _ files) (i + 1)

theorem distinct_removeSame {asked : List Url} {n : Nat} (distinct : s.inner.Distinct)
    (removed : s.removeSame asked = some (t, n)) : t.inner.Distinct := by
  cases asked with
  | nil =>
    cases removed
    exact distinct
  | cons first others =>
    have rest := distinct_takeOut distinct (first :: others)
    rw [removeSame] at removed
    dsimp only at removed
    split at removed
    · cases removed
      exact rest
    · obtain ⟨parents, -, made⟩ := Option.map_eq_some_iff.mp removed
      cases made
      exact rest

theorem distinct_removeGroups {groups : List (List Url)} {n : Nat} (distinct : s.inner.Distinct)
    (removed : removeGroups s groups = some (t, n)) : t.inner.Distinct := by
  induction groups generalizing s n with
  | nil =>
    cases removed
    exact distinct
  | cons asked groups ih =>
    simp only [removeGroups, Option.bind_eq_bind, Option.pure_def, Option.bind_eq_some_iff,
      Option.some.injEq] at removed
    obtain ⟨⟨middle, m⟩, first, ⟨after, k⟩, rest, made⟩ := removed
    cases made
    exact ih (distinct_removeSame distinct first) rest

theorem distinct_removeMany {ambient : Ambient} {asked : List Url} {n : Nat}
    (distinct : s.inner.Distinct) (removed : s.removeMany ambient asked = some (t, n)) :
    t.inner.Distinct := by
  simp only [removeMany, Option.bind_eq_bind, Option.bind_eq_some_iff] at removed
  obtain ⟨⟨after, m⟩, groups, made⟩ := removed
  have rest := distinct_removeGroups distinct groups
  split at made
  · cases made
    exact distinct_perm rest (ambient.sort_perm _).symm
  · cases made
    exact rest

/-- What stands in the place of a key is equal to it. -/
theorem mem_replaceKey {file : File} {inner : Assoc FileCov Nat} {entry : FileCov × Nat}
    (member : entry ∈ replaceKey file inner) : ∃ old ∈ inner, (old.1 == entry.1) = true := by
  induction inner with
  | nil => cases member
  | cons head inner ih =>
    obtain ⟨key, time⟩ := head
    rw [replaceKey] at member
    split at member
    · next same =>
      rcases List.mem_cons.mp member with rfl | member
      · exact ⟨(key, time), List.mem_cons_self, same⟩
      · exact ⟨entry, List.mem_cons_of_mem _ member, BEq.rfl⟩
    · rcases List.mem_cons.mp member with rfl | member
      · exact ⟨(key, time), List.mem_cons_self, BEq.rfl⟩
      · obtain ⟨old, there, same⟩ := ih member
        exact ⟨old, List.mem_cons_of_mem _ there, same⟩

theorem distinct_replaceKey {inner : Assoc FileCov Nat} (distinct : inner.Distinct) (file : File) :
    (replaceKey file inner).Distinct := by
  induction inner with
  | nil => exact .nil
  | cons entry inner ih =>
    obtain ⟨key, time⟩ := entry
    obtain ⟨apart, distinct⟩ := List.pairwise_cons.mp distinct
    rw [replaceKey]
    split
    · next same =>
      refine List.pairwise_cons.mpr ⟨fun other member => ?_, distinct⟩
      have equal : (key == (⟨file⟩ : FileCov)) = true := same
      rw [← BEq.congr_left equal]
      exact apart other member
    · refine List.pairwise_cons.mpr ⟨fun other member => ?_, ih distinct⟩
      obtain ⟨old, there, same⟩ := mem_replaceKey member
      rw [← BEq.congr_right same]
      exact apart old there

theorem distinct_step {label : Ambient × SelectedOp} (distinct : s.inner.Distinct)
    (move : s.step label = some t) : t.inner.Distinct := by
  obtain ⟨ambient, op⟩ := label
  cases op with
  | add file =>
    cases move
    exact distinct_addSame distinct _ [file]
  | addMany files =>
    cases move
    exact distinct_addGroups distinct _ 0 _
  | remove url =>
    obtain ⟨⟨after, b⟩, removed, rfl⟩ := Option.map_eq_some_iff.mp move
    obtain ⟨⟨after', n⟩, same, made⟩ := Option.map_eq_some_iff.mp removed
    cases made
    exact distinct_removeSame distinct same
  | removeMany asked =>
    obtain ⟨⟨after, n⟩, removed, rfl⟩ := Option.map_eq_some_iff.mp move
    exact distinct_removeMany distinct removed
  | clear =>
    cases move
    exact .nil
  | upsert file =>
    cases move
    rw [upsert]
    split
    · exact distinct_replaceKey distinct file
    · exact distinct_addSame distinct _ [file]

theorem distinct_run {labels : List (Ambient × SelectedOp)} (run : Run step empty labels s) :
    s.inner.Distinct :=
  run.invariant (fun _ _ _ => distinct_step) .nil

/-! ### Taking out one url -/

/-- The url does not stand before the last two. -/
def NearEnd (s : Selected) (url : Url) : Prop :=
  ∀ u ∈ s.urls.dropLast.dropLast, (u == ⟨url⟩) = false

instance (url : Url) : Decidable (s.NearEnd url) :=
  inferInstanceAs (Decidable (∀ u ∈ s.urls.dropLast.dropLast, (u == ⟨url⟩) = false))

theorem map_rotated {α β : Type} (f : α → β) (l : List α) : (rotated l).map f = rotated (l.map f) := by
  rcases l.eq_nil_or_concat with rfl | ⟨lead, last, rfl⟩
  · rfl
  · rw [List.concat_eq_append, rotated_concat, List.map_append, List.map_singleton, rotated_concat,
      List.map_cons]

theorem takeOut_cons (inner : Assoc FileCov Nat) (url : Url) (asked : List Url) :
    takeOut inner (url :: asked) =
      match swapRemove (entryUrl · == ⟨url⟩) inner with
      | some rest => ((takeOut rest asked).1, (takeOut rest asked).2 + 1)
      | none => takeOut inner asked :=
  rfl

theorem removeSame_inner {asked : List Url} {n : Nat} (removed : s.removeSame asked = some (t, n)) :
    (t.inner, n) = takeOut s.inner asked := by
  cases asked with
  | nil =>
    cases removed
    rfl
  | cons first others =>
    simp only [removeSame] at removed
    split at removed
    · next none =>
      cases removed
      rw [← none]
    · obtain ⟨parents, -, made⟩ := Option.map_eq_some_iff.mp removed
      cases made
      rfl

/-- Taking out one url keeps the order exactly near the end. -/
theorem remove_sublist_iff (distinct : s.inner.Distinct) {url : Url} {b : Bool}
    (removed : s.remove url = some (t, b)) : t.urls.Sublist s.urls ↔ s.NearEnd url := by
  obtain ⟨⟨after, n⟩, same, made⟩ := Option.map_eq_some_iff.mp removed
  cases made
  have inner := congrArg Prod.fst (removeSame_inner same)
  have nodup := nodup_urls distinct
  rw [takeOut_cons] at inner
  change t.inner = _ at inner
  rw [NearEnd, urls_eq t, inner, urls_eq s]
  rw [urls_eq s] at nodup
  cases found : swapRemove (entryUrl · == ⟨url⟩) s.inner with
  | none =>
    refine iff_of_true (List.Sublist.refl _) fun u member => ?_
    obtain ⟨entry, listed, rfl⟩ :=
      List.mem_map.mp (List.mem_of_mem_dropLast (List.mem_of_mem_dropLast member))
    exact swapRemove_eq_none.mp found entry listed
  | some rest =>
    obtain ⟨before, entry, after, split, asked, rfl⟩ := swapRemove_eq_some found
    rw [split] at nodup distinct ⊢
    rw [List.map_append, List.map_cons] at nodup ⊢
    dsimp only [takeOut]
    rw [List.map_append, map_rotated, rotated_sublist_iff nodup, List.length_map]
    constructor
    · intro short u member
      -- At most one follows, so the first two places from the end cover the url.
      have front : u ∈ before.map entryUrl := by
        rcases after with _ | ⟨last, _ | ⟨other, after⟩⟩
        · rw [List.map_nil, List.dropLast_concat] at member
          exact List.mem_of_mem_dropLast member
        · rw [List.map_cons, List.map_nil, List.append_cons, List.dropLast_concat,
            List.dropLast_concat] at member
          exact member
        · exact absurd short (by simp)
      obtain ⟨earlier, there, rfl⟩ := List.mem_map.mp front
      have apart := (List.pairwise_append.mp distinct).2.2 earlier there entry List.mem_cons_self
      rw [← BEq.congr_right asked]
      exact apart
    · intro near
      by_contra long
      have inside : entryUrl entry ∈
          (before.map entryUrl ++ entryUrl entry :: after.map entryUrl).dropLast.dropLast := by
        rcases after with _ | ⟨last, _ | ⟨other, after⟩⟩
        · exact absurd (Nat.zero_le 1) long
        · exact absurd (Nat.le_refl 1) long
        · simp
      exact Bool.false_ne_true ((near _ inside).symm.trans asked)

/-! ### Taking out many -/

/-- The entry is one of those asked for. -/
def asks (asked : List Url) (entry : FileCov × Nat) : Bool :=
  asked.any fun url => entryUrl entry == ⟨url⟩

theorem asks_append (asked more : List Url) (entry : FileCov × Nat) :
    asks (asked ++ more) entry = (asks asked entry || asks more entry) :=
  List.any_append

theorem asks_congr {asked asked' : List Url} (same : ∀ url, url ∈ asked ↔ url ∈ asked')
    (entry : FileCov × Nat) : asks asked entry = asks asked' entry := by
  rw [asks, asks, Bool.eq_iff_iff, List.any_eq_true, List.any_eq_true]
  simp only [same]

/-- Taking out leaves what was not asked for; when nothing was, everything stays in its place. -/
theorem takeOut_perm {inner : Assoc FileCov Nat} (distinct : inner.Distinct) (asked : List Url) :
    (takeOut inner asked).1.Perm (inner.filter (!asks asked ·)) ∧
      ((takeOut inner asked).2 = 0 → (takeOut inner asked).1 = inner) ∧
      ((takeOut inner asked).2 = 0 ↔ ∀ entry ∈ inner, asks asked entry = false) := by
  induction asked generalizing inner with
  | nil =>
    have whole : inner.filter (!asks [] ·) = inner := List.filter_eq_self.mpr fun _ _ => rfl
    rw [whole]
    exact ⟨.refl _, fun _ => rfl, iff_of_true rfl fun _ _ => rfl⟩
  | cons url asked ih =>
    rw [takeOut_cons]
    cases found : swapRemove (entryUrl · == ⟨url⟩) inner with
    | none =>
      have others := swapRemove_eq_none.mp found
      have same : ∀ entry ∈ inner, asks (url :: asked) entry = asks asked entry := by
        intro entry member
        rw [asks, List.any_cons, others entry member, Bool.false_or]
        rfl
      obtain ⟨perm, kept, zero⟩ := ih distinct
      refine ⟨?_, kept, zero.trans (forall₂_congr fun entry member => by rw [same entry member])⟩
      rw [List.filter_congr fun entry member => by rw [same entry member]]
      exact perm
    | some rest =>
      obtain ⟨before, entry, after, rfl, here, rfl⟩ := swapRemove_eq_some found
      have shuffled : (before ++ rotated after).Perm (before ++ after) := by
        refine List.Perm.append_left before ?_
        rcases after.eq_nil_or_concat with rfl | ⟨lead, last, rfl⟩
        · exact .refl _
        · rw [List.concat_eq_append, rotated_concat]
          exact (List.perm_append_singleton last lead).symm
      have apart : ∀ other ∈ before ++ after, (entryUrl other == ⟨url⟩) = false := by
        have whole := distinct_perm distinct List.perm_middle
        intro other member
        have differ := (List.pairwise_cons.mp whole).1 other member
        rw [← BEq.congr_right here, BEq.comm]
        exact differ
      have rest := (List.pairwise_cons.mp (distinct_perm distinct List.perm_middle)).2
      obtain ⟨perm, -, -⟩ := ih (distinct_perm rest shuffled.symm)
      have taken : asks (url :: asked) entry = true := by
        rw [asks, List.any_cons, here, Bool.true_or]
      have same : ∀ other ∈ before ++ after, asks asked other = asks (url :: asked) other := by
        intro other member
        rw [asks, asks, List.any_cons, apart other member, Bool.false_or]
      refine ⟨?_, nofun, iff_of_false (Nat.succ_ne_zero _) fun all => ?_⟩
      · refine perm.trans ((shuffled.filter _).trans ?_)
        rw [List.filter_congr fun other member => by rw [same other member]]
        rw [List.filter_append, List.filter_append, List.filter_cons_of_neg (by simp [taken])]
      · have untouched := all entry (by simp)
        exact Bool.false_ne_true (untouched.symm.trans taken)

theorem removeGroups_perm {groups : List (List Url)} {n : Nat} (distinct : s.inner.Distinct)
    (removed : removeGroups s groups = some (t, n)) :
    t.inner.Perm (s.inner.filter (!asks groups.flatten ·)) ∧ (n = 0 → t.inner = s.inner) ∧
      (n = 0 ↔ ∀ entry ∈ s.inner, asks groups.flatten entry = false) := by
  induction groups generalizing s n with
  | nil =>
    cases removed
    have whole : t.inner.filter (!asks [].flatten ·) = t.inner :=
      List.filter_eq_self.mpr fun _ _ => rfl
    rw [whole]
    exact ⟨.refl _, fun _ => rfl, iff_of_true rfl fun _ _ => rfl⟩
  | cons asked groups ih =>
    simp only [removeGroups, Option.bind_eq_bind, Option.pure_def, Option.bind_eq_some_iff,
      Option.some.injEq] at removed
    obtain ⟨⟨middle, m⟩, first, ⟨after, k⟩, rest, made⟩ := removed
    cases made
    have taken := removeSame_inner first
    obtain ⟨perm, kept, zero⟩ := takeOut_perm distinct asked
    rw [← taken] at perm kept zero
    dsimp only at perm kept zero
    obtain ⟨perm', kept', zero'⟩ := ih (distinct_removeSame distinct first) rest
    refine ⟨?_, ?_, ?_⟩
    · refine perm'.trans ((perm.filter _).trans ?_)
      rw [List.filter_filter]
      refine .of_eq (List.filter_congr fun entry _ => ?_)
      rw [List.flatten_cons, asks_append, Bool.not_or, Bool.and_comm]
    · intro none
      obtain ⟨rfl, rfl⟩ := Nat.add_eq_zero_iff.mp none
      exact (kept' rfl).trans (kept rfl)
    · rw [Nat.add_eq_zero_iff, zero, zero']
      simp only [List.flatten_cons, asks_append, Bool.or_eq_false_iff]
      constructor
      · rintro ⟨here, there⟩ entry member
        refine ⟨here entry member, there entry ?_⟩
        rw [kept (zero.mpr here)]
        exact member
      · intro all
        refine ⟨fun entry member => (all entry member).1, fun entry member => ?_⟩
        exact (all entry (List.mem_of_mem_filter (perm.mem_iff.mp member))).2

theorem mem_flatten_insert {α : Type} {grouped : Assoc UrlEq (List α)} {key : UrlEq} {item x : α} :
    x ∈ (grouped.insert key ((grouped.get? key).getD [] ++ [item])).values.flatten ↔
      x ∈ grouped.values.flatten ∨ x = item := by
  induction grouped with
  | nil => simp [Assoc.insert, Assoc.values]
  | cons entry grouped ih =>
    obtain ⟨key', items⟩ := entry
    rw [Assoc.insert, Assoc.get?_cons]
    split
    · simp only [Assoc.values, Option.getD_some, List.map_cons, List.flatten_cons, List.mem_append,
        List.mem_singleton]
      tauto
    · simp only [Assoc.values, List.map_cons, List.flatten_cons, List.mem_append] at ih ⊢
      rw [ih]
      tauto

/-- A group holds what has a parent. -/
theorem mem_group {α : Type} {url : α → Url} {items : List α} {x : α} :
    x ∈ (group url items).values.flatten ↔ x ∈ items ∧ (url x).parent.isSome := by
  have any (items : List α) : ∀ grouped : Assoc UrlEq (List α),
      x ∈ (items.foldl (enrol url) grouped).values.flatten ↔
        x ∈ grouped.values.flatten ∨ x ∈ items ∧ (url x).parent.isSome := by
    induction items with
    | nil => simp
    | cons item items ih =>
      intro grouped
      rw [List.foldl_cons, ih, enrol]
      cases parent : (url item).parent with
      | none =>
        simp only [List.mem_cons]
        constructor
        · rintro (old | ⟨member, has⟩)
          · exact .inl old
          · exact .inr ⟨.inr member, has⟩
        · rintro (old | ⟨rfl | member, has⟩)
          · exact .inl old
          · rw [parent] at has
            cases has
          · exact .inr ⟨member, has⟩
      | some p =>
        rw [mem_flatten_insert, List.mem_cons]
        constructor
        · rintro ((old | rfl) | ⟨member, has⟩)
          · exact .inl old
          · exact .inr ⟨.inl rfl, by rw [parent]; rfl⟩
          · exact .inr ⟨.inr member, has⟩
        · rintro (old | ⟨rfl | member, has⟩)
          · exact .inl (.inl old)
          · exact .inl (.inr rfl)
          · exact .inr ⟨member, has⟩
  rw [group, any]
  simp [Assoc.values]

/-- The urls that a removal of many looks for: those with a parent. -/
def wanted (asked : List Url) : List Url :=
  asked.filter (·.parent.isSome)

/-- The entries that are not asked for. -/
def survivors (s : Selected) (asked : List Url) : Assoc FileCov Nat :=
  s.inner.filter (!asks (wanted asked) ·)

/-- Nothing that is asked for is selected, or the timestamps of what survives increase. -/
def Stamped (s : Selected) (asked : List Url) : Prop :=
  (∀ entry ∈ s.inner, asks (wanted asked) entry = false) ∨
    (s.survivors asked).Pairwise fun a b => a.2 < b.2

/-- What the sort of a removal of many starts from. -/
theorem removeMany_eq {ambient : Ambient} {asked : List Url} {n : Nat} (distinct : s.inner.Distinct)
    (removed : s.removeMany ambient asked = some (t, n)) :
    ∃ after m, removeGroups s (ambient.arrange (group id asked).values) = some (after, m) ∧
      t.inner = (if m = 0 then s.inner else ambient.sort after.inner) ∧
      after.inner.Perm (s.survivors asked) ∧
      (m = 0 ↔ ∀ entry ∈ s.inner, asks (wanted asked) entry = false) := by
  simp only [removeMany, Option.bind_eq_bind, Option.bind_eq_some_iff] at removed
  obtain ⟨⟨after, m⟩, groups, made⟩ := removed
  obtain ⟨perm, kept, zero⟩ := removeGroups_perm distinct groups
  have same : ∀ entry, asks (ambient.arrange (group id asked).values).flatten entry =
      asks (wanted asked) entry := by
    apply asks_congr
    intro url
    rw [(ambient.arrange_perm _).flatten.mem_iff, mem_group, wanted, List.mem_filter]
    rfl
  simp only [same] at perm zero
  refine ⟨after, m, groups, ?_, perm, zero⟩
  split at made
  · next some =>
    cases made
    rw [if_neg (Nat.pos_iff_ne_zero.mp some)]
  · next none =>
    cases made
    have none : m = 0 := Nat.eq_zero_of_not_pos none
    rw [if_pos none, kept none]

/-- Entries with the same urls are the same. -/
theorem eq_of_urls {l m whole : Assoc FileCov Nat} (nodup : (whole.map entryUrl).Nodup)
    (left : l ⊆ whole) (right : m ⊆ whole) (same : l.map entryUrl = m.map entryUrl) : l = m := by
  induction l generalizing m with
  | nil => exact (List.map_eq_nil_iff.mp same.symm).symm
  | cons a l ih =>
    cases m with
    | nil => cases same
    | cons b m =>
      obtain ⟨head, tail⟩ := List.cons.inj same
      obtain ⟨here, left⟩ := List.cons_subset.mp left
      obtain ⟨there, right⟩ := List.cons_subset.mp right
      rw [List.inj_on_of_nodup_map nodup here there head, ih left right tail]

/-- A sort by timestamps after some preparation of the entries. -/
def sortedAfter (ambient : Ambient) (prepare : Assoc FileCov Nat → Assoc FileCov Nat)
    (perm : ∀ entries, (prepare entries).Perm entries) : Ambient :=
  { ambient with
    sort := fun entries => (prepare entries).insertionSort (·.2 ≤ ·.2)
    sort_perm := fun entries => (List.perm_insertionSort _ _).trans (perm entries)
    sort_sorted := fun entries => by
      have total : Std.Total fun a b : FileCov × Nat => a.2 ≤ b.2 := ⟨fun _ _ => Nat.le_total _ _⟩
      have transitive : IsTrans (FileCov × Nat) fun a b => a.2 ≤ b.2 := ⟨fun _ _ _ => Nat.le_trans⟩
      exact List.pairwise_insertionSort _ _ }

/-- A removal of many keeps the order, whatever sort there is, exactly when the timestamps tell
it. -/
theorem removeMany_sublist_iff {ambient : Ambient} {asked : List Url} {n : Nat}
    (distinct : s.inner.Distinct) (removed : s.removeMany ambient asked = some (t, n)) :
    (∀ ambient' : Ambient, ambient'.arrange = ambient.arrange →
      ∀ t n, s.removeMany ambient' asked = some (t, n) → t.urls.Sublist s.urls) ↔
      s.Stamped asked := by
  have nodup := nodup_urls distinct
  constructor
  · intro keeps
    obtain ⟨after, m, groups, -, perm, zero⟩ := removeMany_eq distinct removed
    rw [Stamped, ← zero]
    refine or_iff_not_imp_left.mpr fun some => ?_
    have inside : s.survivors asked ⊆ s.inner := List.filter_sublist.subset
    -- Any sort would have to put the survivors back where they were.
    have restored (ambient' : Ambient) (same : ambient'.arrange = ambient.arrange) :
        ambient'.sort after.inner = s.survivors asked := by
      have goes : s.removeMany ambient' asked =
          Option.some ({ after with inner := ambient'.sort after.inner }, m) := by
        simp only [removeMany, same, groups, Option.bind_eq_bind, Option.bind_some]
        rw [if_pos (Nat.pos_iff_ne_zero.mpr some)]
        rfl
      have kept := keeps ambient' same _ _ goes
      have sides := (ambient'.sort_perm after.inner).trans perm
      rw [urls_eq, urls_eq] at kept
      rw [urls_eq] at nodup
      have outside : ambient'.sort after.inner ⊆ s.inner :=
        fun _ member => inside (sides.subset member)
      refine eq_of_urls nodup outside inside ?_
      exact eq_of_sublists_perm nodup kept (List.filter_sublist.map entryUrl) (sides.map entryUrl)
    apply stamps_of_eq (fun entry : FileCov × Nat => entry.2) _ perm
    · exact restored (sortedAfter ambient id fun _ => .refl _) rfl
    · exact restored (sortedAfter ambient List.reverse List.reverse_perm) rfl
    · rw [urls_eq] at nodup
      exact (List.Nodup.of_map entryUrl nodup).sublist List.filter_sublist
  · intro stamped ambient' _ t n removed
    obtain ⟨after, m, -, inner, perm, zero⟩ := removeMany_eq distinct removed
    rw [urls_eq, urls_eq, inner]
    split
    · exact .refl _
    · next some =>
      have increasing := stamped.resolve_left fun none => some (zero.mpr none)
      have sorted := eq_of_stamps (fun entry : FileCov × Nat => entry.2)
        ((ambient'.sort_perm _).trans perm) increasing (ambient'.sort_sorted _)
      rw [sorted]
      exact List.filter_sublist.map entryUrl

/-! ### Adding -/

/-- The urls of files, in the order in which they first occur. -/
def firstUrls (files : List File) : List UrlCov :=
  firsts (files.map fun file => ⟨file.url⟩)

theorem sublist_firsts_cons {file : File} {files : List File} {fresh : List FileCov}
    (sub : (fresh.map FileCov.url).Sublist (firstUrls files))
    (apart : ∀ f ∈ fresh, f.url ≠ ⟨file.url⟩) :
    (fresh.map FileCov.url).Sublist ((firstUrls files).filter (· ≠ ⟨file.url⟩)) := by
  have whole : (fresh.map FileCov.url).filter (· ≠ ⟨file.url⟩) = fresh.map FileCov.url := by
    rw [List.filter_eq_self]
    intro u member
    obtain ⟨f, inside, rfl⟩ := List.mem_map.mp member
    exact decide_eq_true (apart f inside)
  rw [← whole]
  exact sub.filter _

/-- What is new is added at the end, in the order of the files. -/
theorem extend_keys (inner : Assoc FileCov Nat) (now : Nat) (files : List File) :
    ∃ fresh, (extend inner now files).keys = inner.keys ++ fresh ∧
      (fresh.map FileCov.url).Sublist (firstUrls files) ∧
      ∀ f ∈ fresh, inner.keys.contains f = false := by
  induction files generalizing inner now with
  | nil => exact ⟨[], (List.append_nil _).symm, .slnil, by simp⟩
  | cons file files ih =>
    obtain ⟨fresh, keys, sub, new⟩ := ih (inner.insert ⟨file⟩ now) (now + 1)
    rw [Assoc.keys_insert] at keys new
    split at keys
    · next known =>
      rw [if_pos known] at new
      have apart : ∀ f ∈ fresh, f.url ≠ ⟨file.url⟩ := by
        intro f member same
        have equal : (f == (⟨file⟩ : FileCov)) = true := by
          change (f.url == ⟨file.url⟩) = true
          rw [same]
          exact BEq.rfl
        obtain ⟨g, listed, match'⟩ := List.contains_iff_exists_mem_beq.mp known
        have found := List.contains_iff_exists_mem_beq.mpr ⟨g, listed, BEq.trans equal match'⟩
        exact Bool.false_ne_true ((new f member).symm.trans found)
      exact ⟨fresh, keys, .cons _ (sublist_firsts_cons sub apart), new⟩
    · next unknown =>
      rw [if_neg unknown] at new
      have old : ∀ f ∈ fresh, inner.keys.contains f = false ∧ (f == (⟨file⟩ : FileCov)) = false := by
        intro f member
        have outside := new f member
        rw [List.contains_append, Bool.or_eq_false_iff, List.contains_cons, List.contains_nil,
          Bool.or_false] at outside
        exact outside
      have apart : ∀ f ∈ fresh, f.url ≠ ⟨file.url⟩ := by
        intro f member same
        have equal : (f.url == (⟨file.url⟩ : UrlCov)) = true := by
          rw [same]
          exact BEq.rfl
        exact Bool.false_ne_true ((old f member).2.symm.trans equal)
      refine ⟨⟨file⟩ :: fresh, ?_, .cons_cons _ (sublist_firsts_cons sub apart), ?_⟩
      · rw [extend, keys, List.append_assoc]
        rfl
      · intro f member
        rcases List.mem_cons.mp member with rfl | member
        · exact (Bool.not_eq_true _).mp unknown
        · exact (old f member).1

/-- A call of `addSame` adds at the end, in the order of its files. -/
theorem addSame_urls (s : Selected) (now : Nat) (files : List File) :
    ∃ fresh : List UrlCov, (s.addSame now files).1.urls = s.urls ++ fresh ∧
      fresh.Sublist (firstUrls files) := by
  have stays : ∃ fresh, s.urls = s.urls ++ fresh ∧ fresh.Sublist (firstUrls files) :=
    ⟨[], (List.append_nil _).symm, List.nil_sublist _⟩
  have fit : firstUrls (files.filter fun file => (s.parents.get? ⟨file.url⟩).isNone) =
      (firstUrls files).filter fun u => (s.parents.get? u).isNone := by
    rw [firstUrls, firstUrls, ← firsts_filter, List.filter_map]
    rfl
  simp only [addSame]
  split
  · exact stays
  · next first others here =>
    split
    · exact stays
    · obtain ⟨fresh, keys, sub, -⟩ := extend_keys s.inner now (first :: others)
      rw [← here, fit] at sub
      refine ⟨fresh.map FileCov.url, ?_, sub.trans List.filter_sublist⟩
      rw [urls, here, keys, List.map_append]
      rfl

theorem addGroups_urls (s : Selected) (clock : Nat → Nat) (i : Nat) (groups : List (List File)) :
    ∃ fresh : List UrlCov, (addGroups clock i s groups).1.urls = s.urls ++ fresh ∧
      fresh.Sublist (groups.flatMap firstUrls) := by
  induction groups generalizing s i with
  | nil => exact ⟨[], (List.append_nil _).symm, .slnil⟩
  | cons files groups ih =>
    obtain ⟨fresh, first, sub⟩ := addSame_urls s (clock i) files
    obtain ⟨fresh', rest, sub'⟩ := ih (s.addSame (clock i) files).1 (i + 1)
    refine ⟨fresh ++ fresh', ?_, sub.append sub'⟩
    rw [first, List.append_assoc] at rest
    exact rest

/-- The urls have equal parents. -/
def SameDir (a b : Url) : Prop :=
  ∃ p q, a.parent = some p ∧ b.parent = some q ∧ ((⟨p⟩ : UrlEq) == ⟨q⟩) = true

/-- The files of a directory come one after another. -/
def Consecutive (files : List File) : Prop :=
  ∀ f g h : File, List.Sublist [f, g, h] files → SameDir f.url h.url → g.url.parent.isSome →
    SameDir f.url g.url

theorem flatten_insert {grouped : Assoc UrlEq (List File)} {key : UrlEq} {item : File}
    (last : ∀ before entry after, grouped = before ++ entry :: after →
      (key == entry.1) = true → after = []) :
    (grouped.insert key ((grouped.get? key).getD [] ++ [item])).values.flatten =
      grouped.values.flatten ++ [item] := by
  induction grouped with
  | nil => simp [Assoc.insert, Assoc.values]
  | cons entry grouped ih =>
    obtain ⟨key', items⟩ := entry
    rw [Assoc.insert, Assoc.get?_cons]
    split
    · next same =>
      obtain rfl := last [] (key', items) grouped rfl same
      simp [Assoc.values]
    · have tail := ih fun before entry after split =>
        last ((key', items) :: before) entry after (by rw [split, List.cons_append])
      simp only [Assoc.values, List.map_cons, List.flatten_cons] at tail ⊢
      rw [tail, List.append_assoc]

theorem distinct_enrol {grouped : Assoc UrlEq (List File)} (distinct : grouped.Distinct)
    (item : File) : (enrol File.url grouped item).Distinct := by
  rw [enrol]
  split
  · exact distinct
  · exact distinct.insert ..

/-- The group of a directory that comes again is the last one. -/
theorem flatten_enrol {before rest : List File} {item : File} {grouped : Assoc UrlEq (List File)}
    (consecutive : Consecutive (before ++ item :: rest)) (distinct : grouped.Distinct)
    (spec : Grouped File.url before grouped)
    (flat : grouped.values.flatten = before.filter (·.url.parent.isSome)) :
    (enrol File.url grouped item).values.flatten =
      (before ++ [item]).filter (·.url.parent.isSome) := by
  rw [enrol, List.filter_append, ← flat]
  cases parent : item.url.parent with
  | none => simp [parent]
  | some p =>
    rw [List.filter_cons_of_pos (by rw [parent]; rfl), List.filter_nil]
    apply flatten_insert
    intro earlier entry after split same
    rcases after.eq_nil_or_concat with rfl | ⟨lead, final, rfl⟩
    · rfl
    exfalso
    rw [List.concat_eq_append] at split
    subst split
    -- A file of the group, one of the last group, and the item.
    obtain ⟨given, each⟩ := spec entry (by simp)
    obtain ⟨given', each'⟩ := spec final (by simp)
    obtain ⟨f, inside⟩ := List.exists_mem_of_ne_nil _ given
    obtain ⟨g, inside'⟩ := List.exists_mem_of_ne_nil _ given'
    obtain ⟨-, q, above, equal⟩ := each f inside
    obtain ⟨-, r, above', equal'⟩ := each' g inside'
    have ordered : List.Sublist [f, g] before := by
      refine List.Sublist.trans ?_ (List.filter_sublist (p := (·.url.parent.isSome)))
      rw [← flat, Assoc.values, List.map_append, List.map_cons, List.map_append, List.map_singleton,
        List.flatten_append, List.flatten_cons, List.flatten_append, List.flatten_singleton]
      refine List.Sublist.trans ?_ (List.sublist_append_right _ _)
      refine (List.singleton_sublist.mpr inside).append ?_
      exact (List.singleton_sublist.mpr inside').trans (List.sublist_append_right _ _)
    have three : List.Sublist [f, g, item] (before ++ item :: rest) :=
      ordered.append (.cons_cons item (List.nil_sublist rest))
    have first : SameDir f.url item.url :=
      ⟨q, p, above, parent, BEq.trans equal (BEq.symm same)⟩
    obtain ⟨q', r', aboveF, aboveG, between⟩ := consecutive f g item three first (by rw [above']; rfl)
    cases above.symm.trans aboveF
    cases above'.symm.trans aboveG
    have apart : (entry.1 == final.1) = false :=
      (List.pairwise_cons.mp (List.pairwise_append.mp distinct).2.1).1 final (by simp)
    exact Bool.false_ne_true
      (apart.symm.trans (BEq.trans (BEq.symm equal) (BEq.trans between equal')))

theorem flatten_group {files : List File} (consecutive : Consecutive files) :
    (group File.url files).Distinct ∧
      (group File.url files).values.flatten = files.filter (·.url.parent.isSome) := by
  have any (rest : List File) : ∀ (before : List File) (grouped : Assoc UrlEq (List File)),
      Consecutive (before ++ rest) → grouped.Distinct → Grouped File.url before grouped →
      grouped.values.flatten = before.filter (·.url.parent.isSome) →
      (rest.foldl (enrol File.url) grouped).Distinct ∧
        (rest.foldl (enrol File.url) grouped).values.flatten =
          (before ++ rest).filter (·.url.parent.isSome) := by
    induction rest with
    | nil =>
      intro before grouped _ distinct _ flat
      rw [List.append_nil]
      exact ⟨distinct, flat⟩
    | cons item rest ih =>
      intro before grouped consecutive distinct spec flat
      have next := ih (before ++ [item]) _ (by rwa [List.append_assoc]) (distinct_enrol distinct item)
        (grouped_enrol spec) (flatten_enrol consecutive distinct spec flat)
      rwa [List.append_assoc] at next
  exact any files [] [] consecutive .nil nofun rfl

/-- No url is in two groups. -/
theorem firstUrls_flatten {grouped : Assoc UrlEq (List File)} {files : List File}
    (distinct : grouped.Distinct) (spec : Grouped File.url files grouped) :
    firstUrls grouped.values.flatten = grouped.values.flatMap firstUrls := by
  induction grouped with
  | nil => rfl
  | cons entry grouped ih =>
    obtain ⟨apart, distinct⟩ := List.pairwise_cons.mp distinct
    have tail := ih distinct fun other member => spec other (List.mem_cons_of_mem _ member)
    have disjoint : ∀ u ∈ entry.2.map fun file => (⟨file.url⟩ : UrlCov),
        u ∉ (Assoc.values grouped).flatten.map fun file => (⟨file.url⟩ : UrlCov) := by
      intro u left right
      obtain ⟨f, inside, rfl⟩ := List.mem_map.mp left
      obtain ⟨g, member, same⟩ := List.mem_map.mp right
      obtain ⟨items, listed, inside'⟩ := List.mem_flatten.mp member
      obtain ⟨other, there, rfl⟩ := List.mem_map.mp listed
      obtain ⟨-, p, above, equal⟩ := (spec entry List.mem_cons_self).2 f inside
      obtain ⟨-, q, above', equal'⟩ := (spec other (List.mem_cons_of_mem _ there)).2 g inside'
      rw [UrlCov.mk.inj same, above] at above'
      cases above'
      exact Bool.false_ne_true
        ((apart other there).symm.trans (BEq.trans (BEq.symm equal) equal'))
    have split : firstUrls (entry.2 ++ (Assoc.values grouped).flatten) =
        firstUrls entry.2 ++ firstUrls (Assoc.values grouped).flatten := by
      rw [firstUrls, List.map_append]
      exact firsts_append_of_disjoint disjoint
    rw [Assoc.values, List.map_cons, List.flatten_cons, List.flatMap_cons]
    exact split.trans (congrArg _ tail)

/-- A call of `addMany` adds at the end, in the order of its files. -/
theorem addMany_urls (s : Selected) (ambient : Ambient) {files : List File}
    (consecutive : Consecutive files) :
    ∃ fresh : List UrlCov, (s.addMany ambient files).1.urls = s.urls ++ fresh ∧
      fresh.Sublist (firstUrls files) := by
  obtain ⟨fresh, added, sub⟩ := addGroups_urls s ambient.clock 0 (group File.url files).values
  obtain ⟨distinct, flat⟩ := flatten_group consecutive
  rw [← firstUrls_flatten distinct (grouped_group File.url files), flat] at sub
  have fewer : firstUrls (files.filter (·.url.parent.isSome)) =
      (firstUrls files).filter (·.url.parent.isSome) := by
    rw [firstUrls, firstUrls, ← firsts_filter, List.filter_map]
    rfl
  rw [fewer] at sub
  exact ⟨fresh, added, sub.trans List.filter_sublist⟩

/-! ### Whole runs -/

def filesOf : SelectedOp → List File
  | .add file => [file]
  | .addMany files => files
  | _ => []

/-- The operation adds, and what it adds comes directory by directory. -/
def Adds : SelectedOp → Prop
  | .add _ => True
  | .addMany files => Consecutive files
  | _ => False

/-- The urls that a call selects, in the order in which it names them. -/
def added (s t : Selected) (files : List File) : List UrlCov :=
  (firstUrls files).filter fun u => among t.urls u && !among s.urls u

/-- A step that writes down what it adds. -/
def loggedStep (c : Selected × List UrlCov) (label : Ambient × SelectedOp) :
    Option (Selected × List UrlCov) :=
  (c.1.step label).map fun t => (t, c.2 ++ added c.1 t (filesOf label.2))

theorem step_urls {label : Ambient × SelectedOp} (adds : Adds label.2) (move : s.step label = some t) :
    ∃ fresh : List UrlCov, t.urls = s.urls ++ fresh ∧ fresh.Sublist (firstUrls (filesOf label.2)) := by
  obtain ⟨ambient, op⟩ := label
  cases op with
  | add file =>
    cases move
    exact addSame_urls s _ [file]
  | addMany files =>
    cases move
    exact addMany_urls s ambient adds
  | _ => exact adds.elim

theorem logged_step {c d : Selected × List UrlCov} {label : Ambient × SelectedOp}
    (adds : Adds label.2) (logged : c.1.inner.Distinct ∧ c.1.urls = c.2)
    (move : loggedStep c label = some d) : d.1.inner.Distinct ∧ d.1.urls = d.2 := by
  obtain ⟨s, log⟩ := c
  obtain ⟨distinct, same⟩ := logged
  obtain rfl : s.urls = log := same
  obtain ⟨t, moved, rfl⟩ := Option.map_eq_some_iff.mp move
  have distinct' := distinct_step distinct moved
  obtain ⟨fresh, urls, sub⟩ := step_urls adds moved
  have nodup := nodup_urls distinct'
  rw [urls] at nodup
  refine ⟨distinct', ?_⟩
  dsimp only
  rw [urls, List.append_cancel_left_eq, eq_filter_of_sublist (nodup_firsts _) sub, added, firstUrls]
  -- What is fresh is what is selected now and was not before.
  apply List.filter_congr
  intro u _
  rw [Bool.eq_iff_iff, Bool.and_eq_true, Bool.not_eq_true', ← Bool.not_eq_true, among_iff, among_iff,
    among_iff, urls, List.mem_append]
  constructor
  · intro new
    exact ⟨.inr new, fun old => (List.nodup_append.mp nodup).2.2 u old u new rfl⟩
  · rintro ⟨old | new, outside⟩
    · exact absurd old outside
    · exact new

/-- What a selection that was reached enumerates: the removal of one url keeps the order exactly
near the end, a removal of many exactly when the timestamps tell it, and what is added comes behind
in the order in which it is added. -/
theorem order_kept_iff {labels : List (Ambient × SelectedOp)} (run : Run step empty labels s) :
    (∀ url t b, s.remove url = some (t, b) → (t.urls.Sublist s.urls ↔ s.NearEnd url)) ∧
      (∀ ambient asked t n, s.removeMany ambient asked = some (t, n) →
        ((∀ ambient' : Ambient, ambient'.arrange = ambient.arrange →
          ∀ t n, s.removeMany ambient' asked = some (t, n) → t.urls.Sublist s.urls) ↔
          s.Stamped asked)) ∧
      ∀ calls : List (Ambient × SelectedOp), (∀ call ∈ calls, Adds call.2) →
        ∀ t log, Run loggedStep (s, s.urls) calls (t, log) → t.urls = log := by
  have distinct := distinct_run run
  refine ⟨fun url t b removed => remove_sublist_iff distinct removed,
    fun ambient asked t n removed => removeMany_sublist_iff distinct removed, ?_⟩
  intro calls adds t log adding
  have logged := adding.invariant_of_labels
    (fun c label d member logged move => logged_step (adds label member) logged move)
    (⟨distinct, rfl⟩ : s.inner.Distinct ∧ s.urls = s.urls)
  exact logged.2

private def adding : List (Ambient × SelectedOp) :=
  [(ambient, .addMany [localFile "/d/a", localFile "/d/b", localFile "/d/c"])]

/-- Of three urls, the second is taken out, and the others stay in order. -/
theorem order_kept_iff_sample :
    ∃ s, Run step empty adding s ∧
      ∀ t b, s.remove (localFile "/d/b").url = some (t, b) → t.urls.Sublist s.urls := by
  have run : Run step empty adding _ := run_exec (by decide)
  refine ⟨_, run, fun t b removed => ?_⟩
  exact ((order_kept_iff run).1 _ t b removed).mpr (by decide)

/-- Of three urls, the first is taken out, and the last comes to stand in its place. -/
theorem order_lost :
    ¬ ∀ (labels : List (Ambient × SelectedOp)) (s : Selected), Run step empty labels s →
      ∀ url t b, s.remove url = some (t, b) → t.urls.Sublist s.urls := by
  intro keeps
  have run : Run step empty adding _ := run_exec (by decide)
  have kept := keeps adding _ run (localFile "/d/a").url _ _ rfl
  revert kept
  decide

end Selected
end Yazi.Core
