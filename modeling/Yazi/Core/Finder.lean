import Yazi.Base.Around
import Yazi.Core.Viewport

/-!
Finding files by name: from one that matches to the next, and the numbers that are shown beside
them.
-/
namespace Yazi.Core
open Base Base.Machine Shared Fs Widgets.Scroll

/-- What the numbers were given for: the url of the folder and the revision of its entries. -/
structure FinderLock where
  cwd : Url
  revision : Nat

structure Finder where
  filter : Filter
  matched : Assoc PathDyn UInt8
  lock : FinderLock

namespace Finder

variable (regex : Regex)

def new (s : Bytes) (case : FilterCase) : Option Finder :=
  (Filter.new regex s case).map fun filter => ⟨filter, [], ⟨.regular [], 0⟩⟩

def isHit (f : Finder) (file : File) : Bool :=
  file.url.name.any fun name => f.filter.isMatch regex ⟨file.url.pathKind, name⟩

/-- The loops of `prev` and `next`: the first position that is a hit, from the cursor. -/
def search (f : Finder) (entries : Files) (cursor : Nat) (incl : Bool) (position : Nat → Nat) :
    Option Int :=
  let first := if incl then 0 else 1
  ((List.range' first (entries.length - first)).map position).findSome? fun (idx : Nat) =>
    if entries[idx]?.any (f.isHit regex) then some ((idx : Int) - cursor) else none

def prev (f : Finder) (entries : Files) (cursor : Nat) (incl : Bool) : Option Int :=
  f.search regex entries cursor incl fun i => (cursor + entries.length - i) % entries.length

def next (f : Finder) (entries : Files) (cursor : Nat) (incl : Bool) : Option Int :=
  f.search regex entries cursor incl fun i => (cursor + i) % entries.length

/-- `FinderLock::eq` -/
def locks {Err : Type} (lock : FinderLock) (folder : Folder Err) : Bool :=
  lock.revision = folder.entries.revision ∧ lock.cwd.shape = folder.file.url.shape

/-- The loop of `catchup`. -/
def number (f : Finder) : UInt8 → Assoc PathDyn UInt8 → Files → Assoc PathDyn UInt8
  | _, matched, [] => matched
  | i, matched, file :: files =>
    if f.isHit regex file then
      let matched := matched.insert file.key i
      if matched.length > 99 then matched else number f (i + 1) matched files
    else number f i matched files

variable {Err : Type}

def catchup (f : Finder) (folder : Folder Err) : Finder :=
  if locks f.lock folder then f
  else { f with
    matched := f.number regex 0 [] folder.entries.items
    lock := ⟨folder.file.url, folder.entries.revision⟩ }

def matchedIdx (f : Finder) (folder : Folder Err) (key : PathDyn) : Option UInt8 :=
  if locks f.lock folder then f.matched.get? key else none

/-! ### The search -/

variable {regex}

private theorem findSome?_offset (hit : Nat → Bool) (cursor : Nat) (l : List Nat) :
    l.findSome? (fun (idx : Nat) => if hit idx then some ((idx : Int) - cursor) else none) =
      (l.find? hit).map fun (idx : Nat) => (idx : Int) - cursor := by
  induction l with
  | nil => rfl
  | cons i l ih =>
    rw [List.findSome?_cons, List.find?_cons]
    cases hit i with
    | true => rfl
    | false => exact ih

/-- Whether the entry at a position is a hit. -/
def hitAt (regex : Regex) (f : Finder) (entries : Files) (i : Nat) : Bool :=
  entries[i]?.any (f.isHit regex)

/-- The positions of the hits. -/
def hits (regex : Regex) (f : Finder) (entries : Files) : List Nat :=
  Around.hits (f.hitAt regex entries) entries.length

variable {f : Finder} {entries : Files} {cursor k : Nat}

theorem search_eq (incl : Bool) (position : Nat → Nat) :
    f.search regex entries cursor incl position =
      (((List.range' (if incl then 0 else 1) (entries.length - if incl then 0 else 1)).map position).find?
        (f.hitAt regex entries)).map fun (idx : Nat) => (idx : Int) - cursor :=
  findSome?_offset ..

theorem next_others (inside : cursor < entries.length) :
    f.next regex entries cursor false =
      ((Around.ahead entries.length cursor).find? (f.hitAt regex entries)).map
        fun (idx : Nat) => (idx : Int) - cursor := by
  rw [next, search_eq, if_neg Bool.false_ne_true, Around.map_forward inside]

theorem prev_others (inside : cursor < entries.length) :
    f.prev regex entries cursor false =
      ((Around.ahead entries.length cursor).reverse.find? (f.hitAt regex entries)).map
        fun (idx : Nat) => (idx : Int) - cursor := by
  rw [prev, search_eq, if_neg Bool.false_ne_true, Around.map_backward inside]

theorem next_all (inside : cursor < entries.length) :
    f.next regex entries cursor true =
      ((cursor :: Around.ahead entries.length cursor).find? (f.hitAt regex entries)).map
        fun (idx : Nat) => (idx : Int) - cursor := by
  obtain ⟨n, length⟩ := Nat.exists_eq_succ_of_ne_zero (Nat.ne_of_gt (Nat.zero_lt_of_lt inside))
  rw [next, search_eq, if_pos rfl, Nat.sub_zero, ← Around.map_forward inside, length, List.range'_succ,
    List.map_cons, Nat.add_zero, Nat.mod_eq_of_lt (by omega)]
  rfl

theorem prev_all (inside : cursor < entries.length) :
    f.prev regex entries cursor true =
      ((cursor :: (Around.ahead entries.length cursor).reverse).find? (f.hitAt regex entries)).map
        fun (idx : Nat) => (idx : Int) - cursor := by
  obtain ⟨n, length⟩ := Nat.exists_eq_succ_of_ne_zero (Nat.ne_of_gt (Nat.zero_lt_of_lt inside))
  rw [prev, search_eq, if_pos rfl, Nat.sub_zero, ← Around.map_backward inside, length, List.range'_succ,
    List.map_cons, Nat.sub_zero, Nat.add_mod_right, Nat.mod_eq_of_lt (by omega)]
  rfl

theorem hits_inside {i : Nat} (member : i ∈ f.hits regex entries) : i < entries.length :=
  List.mem_range.mp (List.mem_of_mem_filter member)

private theorem search_nil (nothing : f.hits regex entries = []) (incl : Bool) {position : Nat → Nat}
    (inside : 0 < entries.length → ∀ i, position i < entries.length) :
    f.search regex entries cursor incl position = none := by
  rw [search_eq, Option.map_eq_none_iff, List.find?_eq_none]
  intro i member hit
  obtain ⟨j, among, rfl⟩ := List.mem_map.mp member
  have some : 0 < entries.length := by
    have := List.mem_range'_1.mp among
    omega
  have found : position j ∈ f.hits regex entries :=
    List.mem_filter.mpr ⟨List.mem_range.mpr (inside some j), hit⟩
  rw [nothing] at found
  cases found

/-- Nothing is found where nothing is a hit. -/
theorem next_nil (nothing : f.hits regex entries = []) (incl : Bool) :
    f.next regex entries cursor incl = none :=
  search_nil nothing incl fun some _ => Nat.mod_lt _ some

theorem prev_nil (nothing : f.hits regex entries = []) (incl : Bool) :
    f.prev regex entries cursor incl = none :=
  search_nil nothing incl fun some _ => Nat.mod_lt _ some

/-! ### The numbers -/

/-- The hits in the order of the entries, and the numbers they get from a number on. -/
def numbered (n : Nat) (files : Files) : Assoc PathDyn UInt8 :=
  (files.zipIdx n).map fun entry => (entry.1.key, UInt8.ofNat entry.2)

theorem number_spec {n : Nat} {matched : Assoc PathDyn UInt8} {files : Files}
    (length : matched.length = n) (few : n < 100)
    (new : ∀ file ∈ files, ∀ entry ∈ matched, (file.key == entry.1) = false)
    (distinct : Keyed.Distinct File.key files) :
    f.number regex (UInt8.ofNat n) matched files =
      matched ++ numbered n ((files.filter (f.isHit regex)).take (100 - n)) := by
  induction files generalizing n matched with
  | nil => rw [List.filter_nil, List.take_nil, numbered, List.zipIdx_nil, List.map_nil,
      List.append_nil, number]
  | cons file files ih =>
    obtain ⟨apart, distinct⟩ := List.pairwise_cons.mp distinct
    rw [number, List.filter_cons]
    cases f.isHit regex file with
    | false =>
      exact ih length few (fun file member => new file (List.mem_cons_of_mem _ member)) distinct
    | true =>
      have inserted := Assoc.insert_of_new (UInt8.ofNat n) (new file (List.mem_cons_self ..))
      simp only [if_true, inserted, List.length_append, List.length_singleton, length]
      obtain ⟨m, left⟩ := Nat.exists_eq_succ_of_ne_zero (show 100 - n ≠ 0 by omega)
      rw [left, List.take_succ_cons, numbered, List.zipIdx_cons, List.map_cons]
      split
      · next full =>
        rw [show m = 0 by omega, List.take_zero, List.zipIdx_nil, List.map_nil]
      · next room =>
        have next : UInt8.ofNat n + 1 = UInt8.ofNat (n + 1) := by
          rw [UInt8.ofNat_add]
          rfl
        rw [next, ih (by rw [List.length_append, length]; rfl) (by omega) ?_ distinct,
          show 100 - (n + 1) = m by omega, List.append_assoc]
        · rfl
        · intro other member entry among
          rcases List.mem_append.mp among with old | new'
          · exact new other (List.mem_cons_of_mem _ member) entry old
          · rw [List.mem_singleton.mp new', BEq.comm]
            exact apart other member

private theorem keys_numbered (n : Nat) (files : Files) :
    (numbered n files).map (·.1) = files.map File.key := by
  have keys := congrArg (List.map File.key) (List.zipIdx_map_fst n files)
  rw [List.map_map] at keys
  rw [numbered, List.map_map]
  exact keys

private theorem same_of_key {l : Files} (distinct : Keyed.Distinct File.key l) {a b : File}
    (first : a ∈ l) (second : b ∈ l) (same : (a.key == b.key) = true) : a = b := by
  refine List.Pairwise.forall_of_forall_of_flip (R := fun a b => (a.key == b.key) = true → a = b)
    (fun _ _ _ => rfl) (distinct.imp fun {x y} differ same => ?_)
    (distinct.imp fun {x y} differ same => ?_) first second same
  · rw [differ] at same
    cases same
  · rw [BEq.comm, differ] at same
    cases same

private theorem filter_at {α : Type} {p : α → Bool} {l : List α} {i : Nat} {a : α}
    (here : l[i]? = some a) (hit : p a = true) : (l.filter p)[(l.take i).countP p]? = some a := by
  obtain ⟨inside, same⟩ := List.getElem?_eq_some_iff.mp here
  have whole : l.filter p = (l.take i).filter p ++ a :: (l.drop (i + 1)).filter p := by
    conv_lhs => rw [← List.take_append_drop i l, List.drop_eq_getElem_cons inside, same]
    rw [List.filter_append, List.filter_cons, if_pos hit]
  rw [whole, List.countP_eq_length_filter, List.getElem?_append_right (Nat.le_refl _), Nat.sub_self]
  rfl

variable {folder : Folder Err}

theorem hits_catchup : (f.catchup regex folder).hits regex entries = f.hits regex entries := by
  rw [catchup]
  split <;> rfl

theorem locks_catchup : locks (f.catchup regex folder).lock folder = true := by
  rw [catchup]
  split
  · next same => exact same
  · simp [locks]

/-- The finder is not caught up twice. -/
theorem catchup_catchup :
    (f.catchup regex folder).catchup regex folder = f.catchup regex folder := by
  rw [catchup, if_pos locks_catchup]

/-- The number beside a file counts the hits before it, up to a hundred. -/
theorem matchedIdx_catchup (distinct : Keyed.Distinct File.key folder.entries.items)
    (behind : locks f.lock folder = false) {i : Nat} {file : File}
    (here : folder.entries.items[i]? = some file) :
    (f.catchup regex folder).matchedIdx folder file.key =
      if f.isHit regex file ∧ (folder.entries.items.take i).countP (f.isHit regex) < 100 then
        some (UInt8.ofNat ((folder.entries.items.take i).countP (f.isHit regex)))
      else none := by
  rw [matchedIdx, if_pos locks_catchup, catchup, if_neg (by rw [behind]; exact Bool.false_ne_true)]
  have numbers := @number_spec regex f 0 [] folder.entries.items rfl (by decide)
    (fun _ _ entry none => absurd none (List.not_mem_nil (a := entry))) distinct
  have sub : ((folder.entries.items.filter (f.isHit regex)).take 100).Sublist folder.entries.items :=
    (List.take_sublist ..).trans List.filter_sublist
  have apart : (numbered 0 ((folder.entries.items.filter (f.isHit regex)).take 100)).Distinct := by
    have keys : (((folder.entries.items.filter (f.isHit regex)).take 100).map File.key).Pairwise
        fun a b => (a == b) = false := List.pairwise_map.mpr (List.Pairwise.sublist sub distinct)
    rw [← keys_numbered 0] at keys
    exact List.pairwise_map.mp keys
  change Assoc.get? (f.number regex (UInt8.ofNat 0) [] folder.entries.items) file.key = _
  rw [numbers, List.nil_append, Nat.sub_zero]
  split
  · next here' =>
    have place := filter_at here here'.1
    have entry : (file.key, UInt8.ofNat ((folder.entries.items.take i).countP (f.isHit regex))) ∈
        numbered 0 ((folder.entries.items.filter (f.isHit regex)).take 100) := by
      refine List.mem_of_getElem? (i := (folder.entries.items.take i).countP (f.isHit regex)) ?_
      rw [numbered, List.getElem?_map, List.getElem?_zipIdx, List.getElem?_take_of_lt here'.2, place,
        Nat.zero_add]
      rfl
    exact Assoc.get?_of_mem apart entry
  · next no =>
    cases found : Assoc.get? (numbered 0 ((folder.entries.items.filter (f.isHit regex)).take 100))
        file.key with
    | none => rfl
    | some v =>
      -- The entry that is found is of the file itself, which is then a hit, and too late a one.
      obtain ⟨key, member, same⟩ := Assoc.mem_of_get? found
      have among : key ∈ ((folder.entries.items.filter (f.isHit regex)).take 100).map File.key := by
        rw [← keys_numbered 0]
        exact List.mem_map_of_mem member
      obtain ⟨other, early, rfl⟩ := List.mem_map.mp among
      obtain rfl := same_of_key distinct (List.mem_of_getElem? here) (sub.subset early) same
      have hit := (List.mem_filter.mp (List.mem_of_mem_take early)).2
      have far : 100 ≤ (folder.entries.items.take i).countP (f.isHit regex) :=
        Nat.le_of_not_lt fun few => no ⟨hit, few⟩
      have late : file ∈ (folder.entries.items.filter (f.isHit regex)).drop 100 := by
        refine List.mem_of_getElem?
          (i := (folder.entries.items.take i).countP (f.isHit regex) - 100) ?_
        rw [List.getElem?_drop, Nat.add_sub_cancel' far]
        exact filter_at here hit
      have halves := List.Pairwise.sublist (List.filter_sublist (p := f.isHit regex)) distinct
      rw [← List.take_append_drop 100 (folder.entries.items.filter (f.isHit regex))] at halves
      have differ := (List.pairwise_append.mp halves).2.2 file early file late
      rw [BEq.rfl] at differ
      cases differ

end Finder

/-- A tab, with its finder. -/
structure Finding (Err : Type) where
  pane : Pane Err
  finder : Option Finder

namespace Finding

variable {Err : Type} (regex : Regex) (layout : Layout)

/-- The actor `arrow`. -/
def arrow (pane : Pane Err) (offset : Int) : Option (Pane Err) :=
  (isize offset).bind fun offset =>
    (pane.arrow layout (.offset (.ofInt offset))).map fun (pane, moved) =>
      if moved then pane.retrace else pane

/-- The actor `find_do`; a query that is no pattern changes nothing. -/
def findDo (t : Finding Err) (query : Bytes) (previous : Bool) (case : FilterCase) :
    Option (Finding Err) :=
  if query = [] then some { t with finder := none }
  else
    match Finder.new regex query case with
    | none => some t
    | some finder =>
      if t.finder.any fun f => f.filter.eq finder.filter then some t
      else
        let items := t.pane.items
        let step :=
          if previous then finder.prev regex items t.pane.cursor true
          else finder.next regex items t.pane.cursor true
        match step with
        | some step => (arrow layout t.pane step).map fun pane => ⟨pane, some finder⟩
        | none => some { t with finder := some finder }

/-- The actor `find_arrow`. -/
def findArrow (t : Finding Err) (previous : Bool) : Option (Finding Err) :=
  match t.finder with
  | none => some t
  | some finder =>
    let finder := finder.catchup regex t.pane.folder
    let items := t.pane.items
    let offset :=
      if previous then finder.prev regex items t.pane.cursor false
      else finder.next regex items t.pane.cursor false
    match offset with
    | some offset => (arrow layout t.pane offset).map fun pane => ⟨pane, some finder⟩
    | none => some { t with finder := some finder }

/-! ### Around the hits -/

/-- Some number of hits away from where it began, or there is none and it stays. -/
def On (hits : List Nat) (start : Nat) (moved : Int) (cursor : Nat) : Prop :=
  if hits = [] then cursor = start else ∃ j : Nat, hits[j]? = some cursor ∧ (j : Int) = moved % hits.length

variable {regex layout}

theorem arrow_lands {pane : Pane Err} (positive : 0 < layout.limit) (inv : pane.Inv layout)
    {target : Nat} (inside : target < pane.items.length) :
    ∃ after, arrow layout pane ((target : Int) - pane.cursor) = some after ∧ after.Inv layout ∧
      after.folder = pane.folder ∧ after.cursor = target := by
  obtain ⟨small, -⟩ := inv.small
  have short := inv.short
  obtain ⟨t, b, done, shown, folder, stays⟩ := Pane.arrow_offset positive inv
    (show (pane.cursor : Int) + (Int64.ofInt (target - pane.cursor)).toInt = target by
      rw [Int64.toInt_ofInt_of_le (by omega) (by omega)]
      omega) inside
  have items : t.items = pane.items := congrArg (fun folder : Folder Err => folder.entries.items) folder
  have kept : t.Inv layout := ⟨shown, by rw [items]; exact short, by rw [items]; exact inv.named⟩
  rw [arrow, isize_eq (by omega) (by omega), Option.bind_some, done, Option.map_some]
  dsimp only
  cases b with
  | false => exact ⟨t, rfl, kept, folder, stays⟩
  | true => exact ⟨t.retrace, rfl, ⟨⟨shown.empty, shown.shown⟩, kept.short, kept.named⟩, folder, stays⟩

/-- A press goes to the next hit, or to the one before, round. -/
theorem findArrow_on {t : Finding Err} (positive : 0 < layout.limit) (inv : t.pane.Inv layout)
    {finder : Finder} (has : t.finder = some finder) {start : Nat} {moved : Int}
    (on : On (finder.hits regex t.pane.items) start moved t.pane.cursor) (previous : Bool) :
    ∃ pane, t.findArrow regex layout previous =
        some ⟨pane, some (finder.catchup regex t.pane.folder)⟩ ∧
      pane.Inv layout ∧ pane.folder = t.pane.folder ∧
      On (finder.hits regex t.pane.items) start (if previous then moved - 1 else moved + 1)
        pane.cursor := by
  have same : (finder.catchup regex t.pane.folder).hits regex t.pane.items =
    finder.hits regex t.pane.items := Finder.hits_catchup
  rw [findArrow, has]
  dsimp only
  generalize finder.catchup regex t.pane.folder = caught at same ⊢
  rw [← same] at on ⊢
  by_cases nothing : caught.hits regex t.pane.items = []
  · rw [On, if_pos nothing] at on
    rw [Finder.prev_nil nothing, Finder.next_nil nothing, ite_self]
    refine ⟨t.pane, rfl, inv, rfl, ?_⟩
    rw [On, if_pos nothing]
    exact on
  · rw [On, if_neg nothing] at on
    obtain ⟨j, here, place⟩ := on
    have few := (List.getElem?_eq_some_iff.mp here).1
    have inside := Finder.hits_inside (List.mem_of_getElem? here)
    generalize sized : (caught.hits regex t.pane.items).length = m at place few
    rw [Finder.prev_others inside, Finder.next_others inside]
    by_cases alone : m = 1
    · obtain ⟨forth, back⟩ := Around.find?_alone here (sized.trans alone)
      rw [forth, back, ite_self]
      refine ⟨t.pane, rfl, inv, rfl, ?_⟩
      rw [On, if_neg nothing, sized, alone]
      exact ⟨j, here, by rw [show j = 0 by omega, Int.natCast_one, Int.emod_one]; rfl⟩
    · -- Where the press leads to, and that the cursor lands there.
      have lands {n : Nat} (low : n < m) :
          ∃ target, (caught.hits regex t.pane.items)[n]? = some target ∧ ∃ after,
            arrow layout t.pane ((target : Int) - t.pane.cursor) = some after ∧ after.Inv layout ∧
              after.folder = t.pane.folder ∧ after.cursor = target := by
        have there := List.getElem?_eq_getElem (sized.symm ▸ low)
        exact ⟨_, there, arrow_lands positive inv (Finder.hits_inside (List.mem_of_getElem? there))⟩
      have some : 0 < m := by omega
      have others : 1 < (Around.hits (caught.hitAt regex t.pane.items) t.pane.items.length).length :=
        sized.symm ▸ (by omega : 1 < m)
      cases previous with
      | false =>
        obtain ⟨target, there, after, done, kept, folder, stays⟩ := lands (Nat.mod_lt (j + 1) some)
        have found := Around.head?_forward here others
        rw [show (Around.hits (caught.hitAt regex t.pane.items) t.pane.items.length).length = m from sized]
          at found
        rw [if_neg Bool.false_ne_true, found.trans there, Option.map_some]
        dsimp only
        rw [done]
        refine ⟨after, rfl, kept, folder, ?_⟩
        rw [On, if_neg nothing, stays, if_neg Bool.false_ne_true]
        refine ⟨_, there, ?_⟩
        rw [sized, Int.natCast_emod, Int.natCast_add, place, Int.natCast_one, Int.emod_add_emod]
      | true =>
        obtain ⟨target, there, after, done, kept, folder, stays⟩ := lands (Nat.mod_lt (j + m - 1) some)
        have found := Around.head?_backward here others
        rw [show (Around.hits (caught.hitAt regex t.pane.items) t.pane.items.length).length = m from sized]
          at found
        rw [if_pos rfl, found.trans there, Option.map_some]
        dsimp only
        rw [done]
        refine ⟨after, rfl, kept, folder, ?_⟩
        rw [On, if_neg nothing, stays, if_pos rfl]
        refine ⟨_, there, ?_⟩
        rw [sized, Int.natCast_emod, show ((j + m - 1 : Nat) : Int) = j + (m - 1) by omega, place,
          Int.emod_add_emod, show moved + ((m : Int) - 1) = moved - 1 + m by omega, Int.add_emod_right]

/-- How far presses go. -/
def travelled (presses : List Bool) : Int := presses.countP (! ·) - presses.countP id

theorem exec_findArrow {t : Finding Err} (positive : 0 < layout.limit) (inv : t.pane.Inv layout)
    {finder : Finder} (has : t.finder = some finder) {start : Nat} {moved : Int}
    (on : On (finder.hits regex t.pane.items) start moved t.pane.cursor) (presses : List Bool) :
    ∃ u, exec (findArrow regex layout) t presses = some u ∧ u.pane.Inv layout ∧
      u.pane.folder = t.pane.folder ∧
      On (finder.hits regex t.pane.items) start (moved + travelled presses) u.pane.cursor ∧
      (presses ≠ [] → u.finder = some (finder.catchup regex t.pane.folder)) := by
  induction presses generalizing t finder moved with
  | nil => exact ⟨t, rfl, inv, rfl, by rwa [show travelled [] = 0 from rfl, Int.add_zero],
      fun some => absurd rfl some⟩
  | cons previous presses ih =>
    obtain ⟨pane, done, kept, folder, on⟩ := findArrow_on positive inv has on previous
    have items : pane.items = t.pane.items :=
      congrArg (fun folder : Folder Err => folder.entries.items) folder
    rw [← @Finder.hits_catchup regex Err finder _ t.pane.folder, ← items] at on
    obtain ⟨u, reached, inv, folder', on, caught⟩ := ih (t := ⟨pane, _⟩) kept rfl on
    refine ⟨u, by rw [exec, done, Option.bind_some, reached], inv, folder'.trans folder, ?_, fun _ => ?_⟩
    · rw [Finder.hits_catchup] at on
      dsimp only at on
      rw [items] at on
      have sum : (if previous then moved - 1 else moved + 1) + travelled presses =
          moved + travelled (previous :: presses) := by
        cases previous <;> simp [travelled] <;> omega
      rwa [sum] at on
    · by_cases last : presses = []
      · subst last
        cases reached
        rfl
      · have twice := caught last
        dsimp only at twice
        rwa [folder, Finder.catchup_catchup] at twice

/-- How many hits stand before the cursor, or the place before it when searching backward. -/
def landing (hits : List Nat) (previous : Bool) (cursor : Nat) : Int :=
  if previous then (hits.countP (· ≤ cursor) : Int) - 1 else hits.countP (· < cursor)

/-- A query goes to the first hit from the cursor on, the cursor included. -/
theorem findDo_on {t : Finding Err} (positive : 0 < layout.limit) (inv : t.pane.Inv layout)
    {query : Bytes} (proper : query ≠ []) {case : FilterCase} {finder : Finder}
    (accepted : Finder.new regex query case = some finder)
    (other : (t.finder.any fun f => f.filter.eq finder.filter) = false) (previous : Bool) :
    ∃ pane, t.findDo regex layout query previous case = some ⟨pane, some finder⟩ ∧
      pane.Inv layout ∧ pane.folder = t.pane.folder ∧
      On (finder.hits regex t.pane.items) t.pane.cursor
        (landing (finder.hits regex t.pane.items) previous t.pane.cursor) pane.cursor := by
  rw [findDo, if_neg proper, accepted]
  dsimp only
  rw [other, if_neg Bool.false_ne_true]
  by_cases nothing : finder.hits regex t.pane.items = []
  · rw [Finder.prev_nil nothing, Finder.next_nil nothing, ite_self]
    refine ⟨t.pane, rfl, inv, rfl, ?_⟩
    rw [On, if_pos nothing]
  · obtain ⟨first, among⟩ := List.exists_mem_of_ne_nil _ nothing
    have some : t.pane.items ≠ [] :=
      List.ne_nil_of_length_pos (Nat.zero_lt_of_lt (Finder.hits_inside among))
    have inside := (inv.shown.shown some).1
    have room : 0 < (finder.hits regex t.pane.items).length := List.length_pos_of_mem among
    have lands {n : Nat} (low : n < (finder.hits regex t.pane.items).length) :
        ∃ target, (finder.hits regex t.pane.items)[n]? = Option.some target ∧ ∃ after,
          arrow layout t.pane ((target : Int) - t.pane.cursor) = Option.some after ∧
            after.Inv layout ∧ after.folder = t.pane.folder ∧ after.cursor = target := by
      have there := List.getElem?_eq_getElem low
      exact ⟨_, there, arrow_lands positive inv (Finder.hits_inside (List.mem_of_getElem? there))⟩
    rw [Finder.prev_all inside, Finder.next_all inside]
    cases previous with
    | false =>
      obtain ⟨target, there, after, done, kept, folder, stays⟩ := lands
        (Nat.mod_lt ((finder.hits regex t.pane.items).countP (· < t.pane.cursor)) room)
      have found := Around.head?_from (finder.hitAt regex t.pane.items) inside
      rw [if_neg Bool.false_ne_true, found.trans there, Option.map_some]
      dsimp only
      rw [done]
      refine ⟨after, rfl, kept, folder, ?_⟩
      rw [On, if_neg nothing, stays, landing, if_neg Bool.false_ne_true]
      exact ⟨_, there, Int.natCast_emod ..⟩
    | true =>
      obtain ⟨target, there, after, done, kept, folder, stays⟩ := lands
        (Nat.mod_lt ((finder.hits regex t.pane.items).countP (· ≤ t.pane.cursor) +
          (finder.hits regex t.pane.items).length - 1) room)
      have found := Around.head?_upto (finder.hitAt regex t.pane.items) inside
      rw [if_pos rfl, found.trans there, Option.map_some]
      dsimp only
      rw [done]
      refine ⟨after, rfl, kept, folder, ?_⟩
      rw [On, if_neg nothing, stays, landing, if_pos rfl]
      refine ⟨_, there, ?_⟩
      rw [Int.natCast_emod]
      generalize (finder.hits regex t.pane.items).countP (· ≤ t.pane.cursor) = count
      generalize (finder.hits regex t.pane.items).length = m at room ⊢
      rw [show ((count + m - 1 : Nat) : Int) = count - 1 + m by omega, Int.add_emod_right]

/-- After a query, each press goes one hit on or back, round the list, and the numbers that are
shown count the hits of the list. -/
theorem find_round {t : Finding Err} (positive : 0 < layout.limit) (inv : t.pane.Inv layout)
    (distinct : Keyed.Distinct File.key t.pane.items)
    (located : (Url.regular []).shape ≠ t.pane.folder.file.url.shape)
    {query : Bytes} (proper : query ≠ []) {case : FilterCase} {finder : Finder}
    (accepted : Finder.new regex query case = some finder)
    (other : (t.finder.any fun f => f.filter.eq finder.filter) = false) (previous : Bool)
    (presses : List Bool) :
    ∃ u f, (t.findDo regex layout query previous case).bind (exec (findArrow regex layout) · presses) =
        some u ∧
      u.pane.Shown layout ∧ u.pane.folder = t.pane.folder ∧
      On (finder.hits regex t.pane.items) t.pane.cursor
        (landing (finder.hits regex t.pane.items) previous t.pane.cursor + travelled presses)
        u.pane.cursor ∧
      u.finder = some f ∧
      (presses ≠ [] → ∀ (i : Nat) (file : File), t.pane.items[i]? = some file →
        f.matchedIdx u.pane.folder file.key =
          if finder.isHit regex file ∧ (t.pane.items.take i).countP (finder.isHit regex) < 100 then
            some (UInt8.ofNat ((t.pane.items.take i).countP (finder.isHit regex)))
          else none) := by
  obtain ⟨pane, done, kept, folder, on⟩ := findDo_on positive inv proper accepted other previous
  have items : pane.items = t.pane.items :=
    congrArg (fun folder : Folder Err => folder.entries.items) folder
  rw [← items] at on
  obtain ⟨u, reached, inv, folder', on, caught⟩ :=
    exec_findArrow (t := ⟨pane, some finder⟩) positive kept rfl on presses
  dsimp only at folder' on caught
  rw [items] at on
  rw [done, Option.bind_some]
  by_cases last : presses = []
  · subst last
    cases reached
    exact ⟨_, finder, rfl, inv.shown, folder, on, rfl, fun some => absurd rfl some⟩
  · refine ⟨u, finder.catchup regex t.pane.folder, reached, inv.shown, folder'.trans folder, on, ?_,
      fun _ i file here => ?_⟩
    · rw [caught last, folder]
    · have behind : Finder.locks finder.lock t.pane.folder = false := by
        obtain ⟨filter, -, rfl⟩ := Option.map_eq_some_iff.mp accepted
        simp only [Finder.locks, located, and_false, decide_false]
      rw [folder', folder]
      exact Finder.matchedIdx_catchup distinct behind here

/-- Three files, the cursor at the second of them. -/
def lettered : Finding Unit where
  pane := {
    folder := {
      file := .fromDummy (.regular (text "/d")) (some .dir)
      entries := { Entries.new false with items := [
        .fromDummy (.regular (text "/d/a")) none, .fromDummy (.regular (text "/d/b")) none,
        .fromDummy (.regular (text "/d/ab")) none] }
      stage := .loaded }
    offset := 0
    cursor := 1
    page := 0
    trace := none }
  finder := none

theorem find_round_lettered :
    ∃ u f, (lettered.findDo .literal ⟨5, 2⟩ (text "a") false .sensitive).bind
        (exec (findArrow .literal ⟨5, 2⟩) · [false, true, true]) = some u ∧
      u.pane.cursor = 0 ∧ u.finder = some f ∧
      f.matchedIdx u.pane.folder ⟨.os, text "ab"⟩ = some 1 := by
  have shown : lettered.pane.Shown ⟨5, 2⟩ :=
    ⟨fun none => absurd none (List.cons_ne_nil _ _), fun _ => by decide⟩
  obtain ⟨u, f, reached, -, -, on, has, numbers⟩ := @find_round Unit .literal ⟨5, 2⟩ lettered (by decide)
    ⟨shown, by decide, by unfold Pane.Named; decide⟩ (by decide) (by decide) (text "a") (by decide)
    .sensitive ⟨⟨text "a", false⟩, [], ⟨.regular [], 0⟩⟩ rfl rfl false [false, true, true]
  refine ⟨u, f, reached, ?_, has, ?_⟩
  · have found : Finder.hits .literal ⟨⟨text "a", false⟩, [], ⟨.regular [], 0⟩⟩ lettered.pane.items =
      [0, 2] := by decide
    rw [found, On, if_neg (List.cons_ne_nil _ _)] at on
    obtain ⟨j, here, place⟩ := on
    have first : j = 0 := Int.natCast_eq_zero.mp (place.trans (by decide))
    rw [first] at here
    exact (Option.some_inj.mp here).symm
  · have key : (File.fromDummy (.regular (text "/d/ab")) none).key = ⟨.os, text "ab"⟩ := by decide
    have number := numbers (List.cons_ne_nil _ _) 2 (.fromDummy (.regular (text "/d/ab")) none) rfl
    rw [key] at number
    exact number.trans (by decide)

end Finding
end Yazi.Core
