import Yazi.Base.Index
import Yazi.Base.Run
import Yazi.Core.Folder
import Yazi.Core.Selected
import Yazi.Shared.Pair

/-!
The folders a tab has read, and where to find them by the directory they are in.

A folder is filed under the pair that its url has when it comes in. The url that it is stored
under does not change later, so the same pair takes it out again.
-/
namespace Yazi.Core

open Yazi.Base Yazi.Shared Yazi.Fs

/-- A `HashSet` of keys. -/
structure KeySet where
  items : List PathDyn
  distinct : items.Pairwise fun a b => (a == b) = false

/-- `History`. An operation is `none` where it panics. -/
structure History (Err : Type) where
  entries : Assoc UrlEq (Folder Err)
  indices : Index UrlEq PathDyn UrlEq

namespace History

variable {Err : Type}

/-- `History::default`. -/
def default : History Err := ⟨[], []⟩

/-- The url of a folder. -/
def url (folder : Folder Err) : UrlEq := ⟨folder.file.url⟩

def get (s : History Err) (url : UrlEq) : Option (Folder Err) := s.entries.get? url

/-- What is written through `get_mut`. -/
def getMut (s : History Err) (url : UrlEq) (f : Folder Err → Folder Err) : History Err :=
  match s.entries.get? url with
  | none => s
  | some folder => { s with entries := s.entries.insert url (f folder) }

def unindex (s : History Err) (url : UrlEq) : Option (History Err) :=
  url.url.pair.map fun
    | none => s
    | some (trail, key) => { s with indices := s.indices.strike ⟨trail⟩ key url }

def remove (s : History Err) (url : UrlEq) : Option (History Err × Option (Folder Err)) :=
  match s.entries.find? fun entry => url == entry.1 with
  | none => some (s, none)
  | some (url, folder) =>
    (unindex { s with entries := s.entries.erase url } url).map (·, some folder)

/-- The folder is filed under the pair of its url. -/
def index (s : History Err) (url : UrlEq) : Option (History Err) :=
  url.url.pair.map fun
    | none => s
    | some (trail, key) => { s with indices := s.indices.enrol ⟨trail⟩ key url }

def insert (s : History Err) (folder : Folder Err) : Option (History Err × Option (Folder Err)) := do
  let (s, _) ← s.remove (url folder)
  let s ← s.index (url folder)
  let s := { s with entries := s.entries.insert (url folder) folder }
  if s.entries.length > 100 then
    match s.entries with
    | [] => none
    | (url, folder) :: entries => (unindex { s with entries } url).map (·, some folder)
  else some (s, none)

/-- `History::ensure`: the folder that it returns is in the map. -/
def ensure (s : History Err) (showHidden : Bool) (url : UrlEq) :
    Option (History Err × Option (Folder Err)) := do
  let (s, evicted) ←
    if (s.entries.get? url).isSome then some (s, none) else s.insert (Folder.new showHidden url.url)
  let _ ← s.entries.get? url
  return (s, evicted)

def removeOr (s : History Err) (showHidden : Bool) (url : UrlEq) :
    Option (History Err × Folder Err) :=
  (s.remove url).map fun (s, folder) => (s, folder.getD (Folder.new showHidden url.url))

/-- The urls that `for_each_mut` goes through. -/
def matching (s : History Err) (trail : UrlEq) (keys : KeySet) : List UrlEq :=
  keys.items.flatMap fun key => s.indices.find trail key

/-- One round of `for_each_mut`. -/
def visit {σ : Type} (f : σ → Folder Err → σ × Folder Err) (state : σ × History Err) (url : UrlEq) :
    σ × History Err :=
  match state.2.entries.get? url with
  | none => state
  | some folder =>
    ((f state.1 folder).1, { state.2 with entries := state.2.entries.insert url (f state.1 folder).2 })

/-- `History::for_each_mut`, where the callback has a state. -/
def forEachMut {σ : Type} (s : History Err) (trail : UrlEq) (keys : KeySet)
    (f : σ → Folder Err → σ × Folder Err) (state : σ) : σ × History Err :=
  (s.matching trail keys).foldl (visit f) (state, s)

/-- What may be done with a history. A callback may depend on the folders that it was called
with before. -/
inductive Call (Err : Type) where
  | insert (folder : Folder Err)
  | ensure (showHidden : Bool) (url : UrlEq)
  | removeOr (showHidden : Bool) (url : UrlEq)
  | getMut (url : UrlEq) (f : Folder Err → Folder Err)
  | forEachMut (trail : UrlEq) (keys : KeySet) (f : List (Folder Err) → Folder Err → Folder Err)

def step (s : History Err) : Call Err → Option (History Err)
  | .insert folder => (s.insert folder).map (·.1)
  | .ensure showHidden url => (s.ensure showHidden url).map (·.1)
  | .removeOr showHidden url => (s.removeOr showHidden url).map (·.1)
  | .getMut url f => some (s.getMut url f)
  | .forEachMut trail keys f =>
    some (s.forEachMut trail keys (fun seen folder => (seen ++ [folder], f seen folder)) []).2

/-- A folder that comes in has a framed url. -/
def Call.Framed : Call Err → Prop
  | .insert folder => folder.file.url.Framed
  | .ensure _ url => url.url.Framed
  | .removeOr .. | .getMut .. | .forEachMut .. => True

/-- The url has this pair. -/
def belongs (url trail : UrlEq) (key : PathDyn) : Bool :=
  url.url.pair.join.any fun (t, k) => trail == ⟨t⟩ && key == k

/-- The url has a pair of the directory with one of the keys. -/
def matched (url trail : UrlEq) (keys : KeySet) : Bool :=
  keys.items.any fun key => belongs url trail key

/-! ### The index -/

/-- No url is stored twice, and each is filed under its pair and nowhere else. -/
structure Inv (s : History Err) : Prop where
  distinct : s.entries.keys.Pairwise fun a b => (a == b) = false
  framed : ∀ url ∈ s.entries.keys, url.url.Framed
  indexed : ∀ trail key url,
    url ∈ s.indices.find trail key ↔ url ∈ s.entries.keys ∧ belongs url trail key = true
  once : ∀ trail key, (s.indices.find trail key).Pairwise fun a b => (a == b) = false
  trim : s.indices.Trim

theorem inv_default : (default : History Err).Inv where
  distinct := .nil
  framed := nofun
  indexed trail key url := by simp [default, Assoc.keys]
  once _ _ := .nil
  trim := Index.trim_nil

private theorem mem_filter_ne {values : List UrlEq} {v url : UrlEq} :
    url ∈ values.filter (· != v) ↔ url ∈ values ∧ (url == v) = false := by
  rw [List.mem_filter, bne, Bool.not_eq_true']

/-- Two stored urls that are equal are one. -/
private theorem eq_of_stored {keys : List UrlEq}
    (distinct : keys.Pairwise fun a b => (a == b) = false) {u v : UrlEq} (left : u ∈ keys)
    (right : v ∈ keys) (same : (u == v) = true) : u = v := by
  have symm : Std.Symm fun a b : UrlEq => (a == b) = false :=
    ⟨fun a b differ => by rw [BEq.comm, differ]⟩
  by_contra different
  have apart := distinct.forall left right different
  rw [same] at apart
  cases apart

/-- Taking a stored url out of the map and out of the index. -/
theorem unindex_inv {s : History Err} (inv : s.Inv) {url : UrlEq} (stored : url ∈ s.entries.keys)
    {entries : Assoc UrlEq (Folder Err)}
    (rest : entries.keys = s.entries.keys.filter fun u => !(url == u)) :
    ∃ t, unindex { s with entries } url = some t ∧ t.entries = entries ∧ t.Inv := by
  have distinct : entries.keys.Pairwise fun a b => (a == b) = false :=
    rest ▸ inv.distinct.sublist List.filter_sublist
  have framed : ∀ u ∈ entries.keys, u.url.Framed := fun u member =>
    inv.framed u (List.mem_of_mem_filter (rest ▸ member))
  have left : ∀ u, u ∈ entries.keys ↔ u ∈ s.entries.keys ∧ (u == url) = false := by
    intro u
    rw [rest, List.mem_filter, Bool.not_eq_true', BEq.comm]
  -- Where the url was not filed, nothing has to go.
  have apart {trail : UrlEq} {key : PathDyn} (other : belongs url trail key = false) (u : UrlEq) :
      u ∈ s.indices.find trail key ↔ u ∈ entries.keys ∧ belongs u trail key = true := by
    rw [inv.indexed, left]
    refine ⟨fun ⟨member, filed⟩ => ⟨⟨member, ?_⟩, filed⟩, fun ⟨⟨member, _⟩, filed⟩ => ⟨member, filed⟩⟩
    by_contra equal
    rw [eq_of_stored inv.distinct member stored (Bool.not_eq_false _ ▸ equal), other] at filed
    cases filed
  obtain ⟨pair, found⟩ := (inv.framed url stored).pair
  rw [unindex, found, Option.map_some]
  cases pair with
  | none =>
    refine ⟨{ s with entries }, rfl, rfl, distinct, framed, fun trail key => apart ?_, inv.once, inv.trim⟩
    rw [belongs, found]
    rfl
  | some pair =>
    obtain ⟨trail', key'⟩ := pair
    refine ⟨_, rfl, rfl, distinct, framed, fun trail key u => ?_, fun trail key => ?_, ?_⟩
    · rw [Index.find_strike]
      split
      · rw [mem_filter_ne, inv.indexed, left]
        exact and_right_comm
      · next other =>
        refine apart ?_ u
        rw [belongs, found]
        exact Bool.eq_false_iff.mpr fun both => other (Bool.and_eq_true_iff.mp both)
    · rw [Index.find_strike]
      split
      · exact (inv.once trail key).sublist List.filter_sublist
      · exact inv.once trail key
    · exact Index.Trim.strike inv.trim ⟨trail'⟩ key' url

theorem remove_inv {s : History Err} (inv : s.Inv) (url : UrlEq) :
    ∃ t, s.remove url = some (t, s.entries.get? url) ∧ t.entries = s.entries.erase url ∧ t.Inv := by
  rw [remove, Assoc.get?_eq_find?]
  cases found : s.entries.find? fun entry => url == entry.1 with
  | none =>
    refine ⟨s, rfl, (Assoc.erase_of_get?_eq_none ?_).symm, inv⟩
    rw [Assoc.get?_eq_find?, found]
    rfl
  | some entry =>
    obtain ⟨key, folder⟩ := entry
    have same : (url == key) = true := by simpa using List.find?_some found
    have stored : key ∈ s.entries.keys := Assoc.mem_keys (List.mem_of_find?_eq_some found)
    have rest : (s.entries.erase key).keys = s.entries.keys.filter fun u => !(key == u) :=
      Assoc.keys_erase ..
    have erased : s.entries.erase key = s.entries.erase url := by
      apply List.filter_congr
      intro entry _
      rw [BEq.congr_left same]
    obtain ⟨t, done, entries, inv⟩ := unindex_inv inv stored rest
    refine ⟨t, ?_, entries.trans erased, inv⟩
    dsimp only
    rw [done]
    rfl

/-- A new url is stored at the end. -/
theorem index_inv {s : History Err} (inv : s.Inv) {folder : Folder Err}
    (framed : folder.file.url.Framed) (new : s.entries.get? (url folder) = none) :
    ∃ t, s.index (url folder) = some t ∧ t.entries = s.entries ∧
      Inv { t with entries := s.entries ++ [(url folder, folder)] } := by
  have absent : ∀ u ∈ s.entries.keys, (url folder == u) = false := by
    have missing := Assoc.contains_keys s.entries (url folder)
    rw [new, Option.isSome_none, List.contains_eq_any_beq, List.any_eq_false] at missing
    exact fun u member => Bool.eq_false_iff.mpr (missing u member)
  obtain ⟨pair, found⟩ : ∃ pair, (url folder).url.pair = some pair := framed.pair
  have keys : Assoc.keys (s.entries ++ [(url folder, folder)]) = s.entries.keys ++ [url folder] := by
    simp [Assoc.keys]
  have distinct : (s.entries.keys ++ [url folder]).Pairwise fun a b => (a == b) = false := by
    refine List.pairwise_append.mpr ⟨inv.distinct, List.pairwise_singleton .., ?_⟩
    intro u member v last
    rw [List.mem_singleton.mp last, BEq.comm]
    exact absent u member
  have framed : ∀ u ∈ s.entries.keys ++ [url folder], u.url.Framed := by
    intro u member
    rcases List.mem_append.mp member with old | last
    · exact inv.framed u old
    · exact List.mem_singleton.mp last ▸ framed
  -- Where the url is not filed, nothing is added.
  have apart {trail : UrlEq} {key : PathDyn} (other : belongs (url folder) trail key = false)
      (u : UrlEq) : u ∈ s.indices.find trail key ↔
        u ∈ s.entries.keys ++ [url folder] ∧ belongs u trail key = true := by
    rw [inv.indexed, List.mem_append, List.mem_singleton]
    constructor
    · rintro ⟨member, filed⟩
      exact ⟨.inl member, filed⟩
    · rintro ⟨member | rfl, filed⟩
      · exact ⟨member, filed⟩
      · rw [other] at filed
        cases filed
  rw [index, found, Option.map_some]
  cases pair with
  | none =>
    refine ⟨s, rfl, rfl, keys ▸ distinct, keys ▸ framed, fun trail key => keys ▸ apart ?_, inv.once,
      inv.trim⟩
    rw [belongs, found]
    rfl
  | some pair =>
    obtain ⟨trail', key'⟩ := pair
    refine ⟨_, rfl, rfl, keys ▸ distinct, keys ▸ framed, fun trail key u => ?_, fun trail key => ?_,
      Index.Trim.enrol inv.trim ⟨trail'⟩ key' (url folder)⟩
    · rw [Index.find_enrol]
      have here : belongs (url folder) trail key = (trail == ⟨trail'⟩ && key == key') := by
        rw [belongs, found]
        rfl
      split
      · next both =>
        have filed : belongs (url folder) trail key = true :=
          here.trans (Bool.and_eq_true_iff.mpr both)
        rw [keys, List.mem_append, List.mem_append, inv.indexed, or_and_right, List.mem_singleton]
        refine or_congr_right ⟨?_, And.left⟩
        rintro rfl
        exact ⟨rfl, filed⟩
      · next other =>
        rw [keys]
        refine apart (here.trans ?_) u
        exact Bool.eq_false_iff.mpr fun both => other (Bool.and_eq_true_iff.mp both)
    · rw [Index.find_enrol]
      split
      · refine List.pairwise_append.mpr ⟨inv.once trail key, List.pairwise_singleton .., ?_⟩
        intro u member v last
        rw [List.mem_singleton.mp last, BEq.comm]
        exact absent u ((inv.indexed trail key u).mp member).1
      · exact inv.once trail key

theorem insert_inv {s : History Err} (inv : s.Inv) (bounded : s.entries.length ≤ 100)
    {folder : Folder Err} (framed : folder.file.url.Framed) :
    ∃ t, t.Inv ∧ t.entries.length ≤ 100 ∧
      ((s.insert folder = some (t, none) ∧
          t.entries = s.entries.erase (url folder) ++ [(url folder, folder)]) ∨
        ∃ oldest, s.insert folder = some (t, some oldest.2) ∧
          s.entries.erase (url folder) ++ [(url folder, folder)] = oldest :: t.entries ∧
            t.entries.length = 100) := by
  obtain ⟨first, removed, entries, inv⟩ := remove_inv inv (url folder)
  have new : first.entries.get? (url folder) = none := by
    rw [entries, Assoc.get?_erase, if_pos (BEq.refl _)]
  obtain ⟨second, filed, same, inv⟩ := index_inv inv framed new
  have few : first.entries.length ≤ 100 := by
    rw [entries]
    exact (List.length_filter_le ..).trans bounded
  have last : second.entries.insert (url folder) folder =
      second.entries ++ [(url folder, folder)] := by
    apply Assoc.insert_of_new
    intro entry member
    rw [same, entries] at member
    exact Bool.not_eq_true' _ ▸ (List.mem_filter.mp member).2
  have count : (second.entries ++ [(url folder, folder)]).length = first.entries.length + 1 := by
    rw [same, List.length_append, List.length_singleton]
  rw [← same] at inv
  rw [← entries, ← same]
  simp only [insert, removed, filed, last, Option.bind_eq_bind, Option.bind_some]
  split
  · next many =>
    cases whole : second.entries ++ [(url folder, folder)] with
    | nil =>
      rw [whole] at count
      cases count
    | cons oldest rest =>
      rw [whole] at inv count many
      have others : Assoc.keys rest =
          (Assoc.keys (oldest :: rest)).filter fun u => !(oldest.1 == u) := by
        have apart := (List.pairwise_cons.mp inv.distinct).1
        rw [Assoc.keys, Assoc.keys, List.map_cons, List.filter_cons, BEq.refl, if_neg (by decide)]
        refine (List.filter_eq_self.mpr fun u member => ?_).symm
        rw [apart u member]
        rfl
      obtain ⟨t, done, evicted, inv⟩ := unindex_inv inv (List.mem_cons_self ..) others
      have length : t.entries.length = 100 := by
        rw [evicted]
        simp only [List.length_cons] at count many
        omega
      refine ⟨t, inv, Nat.le_of_eq length, .inr ⟨oldest, ?_, by rw [evicted], length⟩⟩
      dsimp only at done ⊢
      rw [done]
      rfl
  · next few =>
    exact ⟨_, inv, Nat.le_of_not_lt few, .inl ⟨rfl, rfl⟩⟩

/-! ### Callbacks -/

/-- The invariant speaks of the urls only. -/
theorem Inv.of_keys {s t : History Err} (inv : s.Inv) (keys : t.entries.keys = s.entries.keys)
    (indices : t.indices = s.indices) : t.Inv where
  distinct := keys ▸ inv.distinct
  framed := keys ▸ inv.framed
  indexed := keys ▸ indices ▸ inv.indexed
  once := indices ▸ inv.once
  trim := indices ▸ inv.trim

theorem keys_insert_stored {entries : Assoc UrlEq (Folder Err)} {url : UrlEq} {old : Folder Err}
    (stored : entries.get? url = some old) (folder : Folder Err) :
    (entries.insert url folder).keys = entries.keys := by
  rw [Assoc.keys_insert, Assoc.contains_keys, stored]
  rfl

theorem getMut_keys (s : History Err) (url : UrlEq) (f : Folder Err → Folder Err) :
    (s.getMut url f).entries.keys = s.entries.keys ∧ (s.getMut url f).indices = s.indices := by
  rw [getMut]
  cases stored : s.entries.get? url with
  | none => exact ⟨rfl, rfl⟩
  | some folder => exact ⟨keys_insert_stored stored _, rfl⟩

theorem visit_keys {σ : Type} (f : σ → Folder Err → σ × Folder Err) (urls : List UrlEq)
    (state : σ × History Err) :
    (urls.foldl (visit f) state).2.entries.keys = state.2.entries.keys ∧
      (urls.foldl (visit f) state).2.indices = state.2.indices := by
  induction urls generalizing state with
  | nil => exact ⟨rfl, rfl⟩
  | cons url urls ih =>
    have one : (visit f state url).2.entries.keys = state.2.entries.keys ∧
        (visit f state url).2.indices = state.2.indices := by
      rw [visit]
      cases stored : state.2.entries.get? url with
      | none => exact ⟨rfl, rfl⟩
      | some folder => exact ⟨keys_insert_stored stored _, rfl⟩
    obtain ⟨keys, indices⟩ := ih (visit f state url)
    exact ⟨keys.trans one.1, indices.trans one.2⟩

/-- Different urls are visited one after the other, each as it was before. -/
theorem visit_distinct {σ : Type} (f : σ → Folder Err → σ × Folder Err) {urls : List UrlEq}
    (distinct : urls.Pairwise fun a b => (a == b) = false) (state : σ) (s : History Err) :
    (urls.foldl (visit f) (state, s)).1 =
      (urls.filterMap fun url => s.entries.get? url).foldl (fun state folder => (f state folder).1)
        state := by
  induction urls generalizing state s with
  | nil => rfl
  | cons url urls ih =>
    obtain ⟨apart, distinct⟩ := List.pairwise_cons.mp distinct
    rw [List.foldl_cons, visit]
    cases stored : s.entries.get? url with
    | none =>
      rw [List.filterMap_cons_none stored]
      exact ih distinct state s
    | some folder =>
      rw [List.filterMap_cons_some stored, List.foldl_cons, ih distinct]
      congr 1
      apply List.filterMap_congr
      intro other member
      rw [Assoc.get?_insert, BEq.comm, apart other member]
      rfl

theorem visit_changes (f : Folder Err → Folder Err) {urls : List UrlEq}
    (distinct : urls.Pairwise fun a b => (a == b) = false) (s : History Err) (url : UrlEq) :
    (urls.foldl (visit fun _ folder => ((), f folder)) ((), s)).2.entries.get? url =
      (s.entries.get? url).map (if urls.contains url then f else id) := by
  induction urls generalizing s with
  | nil => simp
  | cons first urls ih =>
    obtain ⟨apart, distinct⟩ := List.pairwise_cons.mp distinct
    rw [List.foldl_cons, visit, List.contains_cons]
    cases stored : s.entries.get? first with
    | none =>
      rw [ih distinct s]
      cases same : url == first with
      | true => rw [Assoc.get?_congr _ same, stored]; rfl
      | false => rfl
    | some folder =>
      rw [ih distinct, Assoc.get?_insert]
      cases same : url == first with
      | true =>
        have later : urls.contains url = false := by
          rw [List.contains_eq_any_beq, List.any_eq_false]
          intro other member
          rw [BEq.congr_left same, apart other member]
          exact Bool.false_ne_true
        rw [later, Assoc.get?_congr _ same, stored]
        rfl
      | false => rfl

theorem mem_matching {s : History Err} (inv : s.Inv) {trail : UrlEq} {keys : KeySet} {url : UrlEq} :
    url ∈ s.matching trail keys ↔ url ∈ s.entries.keys ∧ matched url trail keys = true := by
  rw [matching, List.mem_flatMap, matched, List.any_eq_true]
  constructor
  · rintro ⟨key, member, filed⟩
    obtain ⟨stored, here⟩ := (inv.indexed trail key url).mp filed
    exact ⟨stored, key, member, here⟩
  · rintro ⟨stored, key, member, here⟩
    exact ⟨key, member, (inv.indexed trail key url).mpr ⟨stored, here⟩⟩

/-- A url has one key. -/
theorem belongs_unique {url trail : UrlEq} {a b : PathDyn} (first : belongs url trail a = true)
    (second : belongs url trail b = true) : (a == b) = true := by
  rw [belongs] at first second
  cases found : url.url.pair.join with
  | none =>
    rw [found] at first
    cases first
  | some pair =>
    rw [found] at first second
    obtain ⟨-, left⟩ := Bool.and_eq_true_iff.mp first
    obtain ⟨-, right⟩ := Bool.and_eq_true_iff.mp second
    exact BEq.trans left (BEq.symm right)

theorem matching_distinct {s : History Err} (inv : s.Inv) (trail : UrlEq) (keys : KeySet) :
    (s.matching trail keys).Pairwise fun a b => (a == b) = false := by
  rw [matching, List.pairwise_flatMap]
  refine ⟨fun key _ => inv.once trail key, keys.distinct.imp fun {a b} apart => ?_⟩
  intro x first y second
  obtain ⟨stored, here⟩ := (inv.indexed trail a x).mp first
  obtain ⟨stored', here'⟩ := (inv.indexed trail b y).mp second
  refine Bool.eq_false_iff.mpr fun same => ?_
  obtain rfl := eq_of_stored inv.distinct stored stored' same
  rw [belongs_unique here here'] at apart
  cases apart

/-- The folders that `for_each_mut` meets are those with a matching pair. -/
theorem matching_perm {s : History Err} (inv : s.Inv) (trail : UrlEq) (keys : KeySet) :
    ((s.matching trail keys).filterMap fun url => s.entries.get? url).Perm
      ((s.entries.filter fun entry => matched entry.1 trail keys).map (·.2)) := by
  have nodup {urls : List UrlEq} (distinct : urls.Pairwise fun a b => (a == b) = false) :
      urls.Nodup := by
    refine distinct.imp fun {a b} apart same => ?_
    rw [same, BEq.refl] at apart
    cases apart
  have same : (s.matching trail keys).Perm
      ((s.entries.filter fun entry => matched entry.1 trail keys).map (·.1)) := by
    refine (List.perm_ext_iff_of_nodup (nodup (matching_distinct inv trail keys)) ?_).mpr fun url => ?_
    · exact nodup (inv.distinct.sublist (List.filter_sublist.map Prod.fst))
    · rw [mem_matching inv, List.mem_map, Assoc.keys, List.mem_map]
      constructor
      · rintro ⟨⟨entry, member, rfl⟩, here⟩
        exact ⟨entry, List.mem_filter.mpr ⟨member, here⟩, rfl⟩
      · rintro ⟨entry, member, rfl⟩
        obtain ⟨member, here⟩ := List.mem_filter.mp member
        exact ⟨⟨entry, member, rfl⟩, here⟩
  have values : ((s.entries.filter fun entry => matched entry.1 trail keys).map (·.1)).filterMap
      (fun url => s.entries.get? url) =
        (s.entries.filter fun entry => matched entry.1 trail keys).map (·.2) := by
    have each : ∀ entry ∈ s.entries.filter fun entry => matched entry.1 trail keys,
        s.entries.get? entry.1 = some entry.2 := fun entry member =>
      Assoc.get?_of_mem (List.pairwise_map.mp inv.distinct) (List.mem_of_mem_filter member)
    rw [List.filterMap_map, ← List.filterMap_eq_map]
    exact List.filterMap_congr each
  exact values ▸ same.filterMap _

/-! ### Runs -/

/-- The urls that a call stores anew. -/
def stores (s : History Err) : Call Err → List UrlEq
  | .insert folder => [url folder]
  | .ensure _ url => if (s.entries.get? url).isSome then [] else [url]
  | .removeOr .. | .getMut .. | .forEachMut .. => []

/-- The urls that the calls store anew, one after the other. -/
def log (s : History Err) : List (Call Err) → List UrlEq
  | [] => []
  | call :: calls =>
    s.stores call ++ match s.step call with
      | none => []
      | some t => t.log calls

/-- A url that is stored again is the newest. -/
def renew (order : List UrlEq) (url : UrlEq) : List UrlEq := (order.filter fun u => !(url == u)) ++ [url]

/-- The urls in the order in which they were stored last. -/
def byAge (urls : List UrlEq) : List UrlEq := urls.foldl renew []

/-- The callback leaves the url of a folder. -/
def Call.Keeps : Call Err → Prop
  | .getMut _ f => ∀ folder, url (f folder) = url folder
  | .forEachMut _ _ f => ∀ seen folder, url (f seen folder) = url folder
  | .insert _ | .ensure .. | .removeOr .. => True

/-- Each folder is stored under its own url. -/
def Filed (s : History Err) : Prop := ∀ entry ∈ s.entries, url entry.2 = entry.1

theorem renew_sublist {first rest : List UrlEq} (older : first.Sublist rest) (url : UrlEq) :
    (renew first url).Sublist (renew rest url) :=
  (older.filter _).append (List.Sublist.refl _)

private theorem keys_concat (s : History Err) (folder : Folder Err) :
    Assoc.keys (s.entries.erase (url folder) ++ [(url folder, folder)]) =
      renew s.entries.keys (url folder) := by
  rw [renew, ← Assoc.keys_erase]
  exact List.map_append

private theorem keys_sublist {s t : History Err} {folder : Folder Err}
    (less : t.entries.Sublist (s.entries.erase (url folder) ++ [(url folder, folder)])) :
    t.entries.keys.Sublist (renew s.entries.keys (url folder)) := by
  rw [← keys_concat]
  exact less.map Prod.fst

/-- A folder that comes in is stored as the newest. -/
theorem insert_stores {s : History Err} (inv : s.Inv) (bounded : s.entries.length ≤ 100)
    {folder : Folder Err} (framed : folder.file.url.Framed) :
    ∃ t evicted, s.insert folder = some (t, evicted) ∧ t.Inv ∧ t.entries.length ≤ 100 ∧
      t.entries.Sublist (s.entries.erase (url folder) ++ [(url folder, folder)]) ∧
        (url folder, folder) ∈ t.entries := by
  obtain ⟨t, inv, few, ⟨done, entries⟩ | ⟨oldest, done, whole, full⟩⟩ :=
    insert_inv inv bounded framed
  · refine ⟨t, none, done, inv, few, ?_, ?_⟩
    · rw [entries]
    · rw [entries]
      exact List.mem_append_right _ (List.mem_singleton_self _)
  · refine ⟨t, some oldest.2, done, inv, few, ?_, ?_⟩
    · rw [whole]
      exact List.sublist_cons_self ..
    · -- Only one folder goes, and it is not the last.
      have last := congrArg List.getLast? whole
      rw [List.getLast?_append, List.getLast?_singleton] at last
      cases others : t.entries with
      | nil =>
        rw [others] at full
        cases full
      | cons second rest =>
        rw [others, List.getLast?_cons_cons] at last
        exact List.mem_of_getLast? last.symm

/-- A step keeps the invariant and the order. -/
theorem step_inv {s : History Err} (inv : s.Inv) (bounded : s.entries.length ≤ 100)
    {call : Call Err} (framed : call.Framed) :
    ∃ t, s.step call = some t ∧ t.Inv ∧ t.entries.length ≤ 100 ∧
      t.entries.keys.Sublist ((s.stores call).foldl renew s.entries.keys) := by
  have of_keys {t : History Err} (keys : t.entries.keys = s.entries.keys) (indices : t.indices = s.indices) :
      t.Inv ∧ t.entries.length ≤ 100 ∧ t.entries.keys.Sublist s.entries.keys := by
    refine ⟨inv.of_keys keys indices, ?_, keys ▸ List.Sublist.refl _⟩
    have length := congrArg List.length keys
    rw [Assoc.keys, Assoc.keys, List.length_map, List.length_map] at length
    exact length ▸ bounded
  cases call with
  | insert folder =>
    obtain ⟨t, evicted, done, inv, few, order, -⟩ := insert_stores inv bounded framed
    exact ⟨t, by rw [step, done]; rfl, inv, few, keys_sublist order⟩
  | ensure showHidden url =>
    by_cases stored : (s.entries.get? url).isSome = true
    · obtain ⟨folder, found⟩ := Option.isSome_iff_exists.mp stored
      refine ⟨s, by simp [step, ensure, found], ?_⟩
      rw [stores, if_pos stored]
      exact of_keys rfl rfl
    · obtain ⟨t, evicted, done, inv, few, order, here⟩ :=
        @insert_stores _ s inv bounded (Folder.new showHidden url.url) framed
      have found : t.entries.get? url = some (Folder.new showHidden url.url) :=
        Assoc.get?_of_mem (List.pairwise_map.mp inv.distinct) here
      refine ⟨t, by simp [step, ensure, stored, done, found], inv, few, ?_⟩
      rw [stores, if_neg stored]
      exact keys_sublist order
  | removeOr showHidden url =>
    obtain ⟨t, done, entries, inv⟩ := remove_inv inv url
    refine ⟨t, by simp [step, removeOr, done], inv, ?_, ?_⟩
    · rw [entries]
      exact (List.length_filter_le ..).trans bounded
    · rw [entries, Assoc.keys_erase]
      exact List.filter_sublist
  | getMut url f =>
    obtain ⟨keys, indices⟩ := s.getMut_keys url f
    exact ⟨_, rfl, of_keys keys indices⟩
  | forEachMut trail keys f =>
    obtain ⟨keys, indices⟩ := visit_keys (fun seen folder => (seen ++ [folder], f seen folder))
      (s.matching trail keys) ([], s)
    exact ⟨_, rfl, of_keys keys indices⟩

theorem exec_inv {calls : List (Call Err)} (framed : ∀ call ∈ calls, call.Framed) {s : History Err}
    (inv : s.Inv) (bounded : s.entries.length ≤ 100) {order : List UrlEq}
    (older : s.entries.keys.Sublist order) :
    ∃ t, exec step s calls = some t ∧ t.Inv ∧ t.entries.length ≤ 100 ∧
      t.entries.keys.Sublist ((s.log calls).foldl renew order) := by
  induction calls generalizing s order with
  | nil => exact ⟨s, rfl, inv, bounded, older⟩
  | cons call calls ih =>
    obtain ⟨t, done, inv, bounded, newer⟩ := step_inv inv bounded (framed call (List.mem_cons_self ..))
    have monotone : ∀ (urls : List UrlEq) {first rest : List UrlEq}, first.Sublist rest →
        (urls.foldl renew first).Sublist (urls.foldl renew rest) := by
      intro urls
      induction urls with
      | nil => exact id
      | cons url urls ih => exact fun older => ih (renew_sublist older url)
    obtain ⟨u, reached, inv, bounded, last⟩ :=
      ih (fun call member => framed call (List.mem_cons_of_mem _ member)) inv bounded
        (newer.trans (monotone (s.stores call) older))
    refine ⟨u, by rw [exec, done, Option.bind_some, reached], inv, bounded, ?_⟩
    rw [log, done, List.foldl_append]
    exact last

private theorem filed_insert {s : History Err} (inv : s.Inv) (filed : s.Filed) {key : UrlEq}
    {old new : Folder Err} (stored : s.entries.get? key = some old) (keeps : url new = url old) :
    ∀ entry ∈ s.entries.insert key new, url entry.2 = entry.1 := by
  obtain ⟨own, member, same⟩ := Assoc.mem_of_get? stored
  intro entry here
  rcases Assoc.mem_insert here with earlier | ⟨same', value⟩
  · exact filed entry earlier
  · have present : entry.1 ∈ s.entries.keys := by
      rw [← keys_insert_stored stored new]
      exact Assoc.mem_keys here
    have one := eq_of_stored inv.distinct (Assoc.mem_keys member) present
      (BEq.trans (BEq.symm same) same')
    rw [value, keeps, filed _ member, one]

private theorem filed_visit {f : List (Folder Err) → Folder Err → Folder Err}
    (keeps : ∀ seen folder, url (f seen folder) = url folder) (urls : List UrlEq)
    (state : List (Folder Err) × History Err) (inv : state.2.Inv) (filed : state.2.Filed) :
    (urls.foldl (visit fun seen folder => (seen ++ [folder], f seen folder)) state).2.Filed := by
  induction urls generalizing state with
  | nil => exact filed
  | cons key urls ih =>
    rw [List.foldl_cons]
    obtain ⟨keys, indices⟩ :=
      visit_keys (fun seen folder => (seen ++ [folder], f seen folder)) [key] state
    apply ih _ (inv.of_keys keys indices)
    change (visit (fun seen folder => (seen ++ [folder], f seen folder)) state key).2.Filed
    rw [visit]
    cases stored : state.2.entries.get? key with
    | none => exact filed
    | some folder => exact filed_insert inv filed stored (keeps ..)

private theorem filed_insert_sublist {s t : History Err} (filed : s.Filed) {folder : Folder Err}
    (less : t.entries.Sublist (s.entries.erase (url folder) ++ [(url folder, folder)])) : t.Filed := by
  intro entry member
  rcases List.mem_append.mp (less.mem member) with old | new
  · exact filed entry (List.mem_of_mem_filter old)
  · rw [List.mem_singleton.mp new]

theorem step_filed {s t : History Err} (inv : s.Inv) (bounded : s.entries.length ≤ 100)
    (filed : s.Filed) {call : Call Err} (framed : call.Framed) (keeps : call.Keeps)
    (move : s.step call = some t) : t.Filed := by
  cases call with
  | insert folder =>
    obtain ⟨t', evicted, done, -, -, less, -⟩ := insert_stores inv bounded framed
    rw [step, done] at move
    cases move
    exact filed_insert_sublist filed less
  | ensure showHidden key =>
    by_cases stored : (s.entries.get? key).isSome = true
    · obtain ⟨folder, found⟩ := Option.isSome_iff_exists.mp stored
      simp only [step, ensure, found, Option.isSome_some, if_true, Option.bind_eq_bind,
        Option.bind_some] at move
      cases move
      exact filed
    · obtain ⟨t', evicted, done, -, -, less, -⟩ :=
        @insert_stores _ s inv bounded (Folder.new showHidden key.url) framed
      simp only [step, ensure, if_neg stored, done, Option.bind_eq_bind, Option.bind_some] at move
      cases found : t'.entries.get? key with
      | none =>
        rw [found] at move
        cases move
      | some folder =>
        rw [found] at move
        cases move
        exact filed_insert_sublist filed less
  | removeOr showHidden key =>
    obtain ⟨t', done, entries, -⟩ := remove_inv inv key
    rw [step, removeOr, done] at move
    cases move
    intro entry member
    rw [entries] at member
    exact filed entry (List.mem_of_mem_filter member)
  | getMut key f =>
    cases move
    rw [getMut]
    cases stored : s.entries.get? key with
    | none => exact filed
    | some folder => exact filed_insert inv filed stored (keeps folder)
  | forEachMut trail keys f =>
    cases move
    exact filed_visit keeps (s.matching trail keys) ([], s) inv filed

theorem exec_filed {calls : List (Call Err)} (framed : ∀ call ∈ calls, call.Framed)
    (keeps : ∀ call ∈ calls, call.Keeps) {s t : History Err} (inv : s.Inv)
    (bounded : s.entries.length ≤ 100) (filed : s.Filed) (reached : exec step s calls = some t) :
    t.Filed := by
  induction calls generalizing s with
  | nil =>
    cases reached
    exact filed
  | cons call calls ih =>
    have first := framed call (List.mem_cons_self ..)
    obtain ⟨next, done, inv', bounded', -⟩ := step_inv inv bounded first
    rw [exec, done, Option.bind_some] at reached
    exact ih (fun call member => framed call (List.mem_cons_of_mem _ member))
      (fun call member => keeps call (List.mem_cons_of_mem _ member)) inv' bounded'
      (step_filed inv bounded filed first (keeps call (List.mem_cons_self ..)) done) reached

/-! ### Consistency -/

/-- A pair leads to the stored urls that have it, to each of them once, and nothing empty is left
in the index. -/
def Indexed (s : History Err) : Prop :=
  (∀ trail key,
    (∀ url, url ∈ s.indices.find trail key ↔ url ∈ s.entries.keys ∧ belongs url trail key = true) ∧
      (s.indices.find trail key).Pairwise fun a b => (a == b) = false) ∧ s.indices.Trim

/-- There are at most 100 folders, the oldest first, and where another one is too many it is the
first that goes. -/
def Ages (s : History Err) (order : List UrlEq) : Prop :=
  s.entries.length ≤ 100 ∧ s.entries.keys.Sublist order ∧
    ∀ folder : Folder Err, folder.file.url.Framed →
      let all := s.entries.erase (url folder) ++ [(url folder, folder)]
      ∃ t, if all.length ≤ 100 then s.insert folder = some (t, none) ∧ t.entries = all
        else ∃ oldest, s.insert folder = some (t, some oldest.2) ∧ all = oldest :: t.entries

/-- `for_each_mut` calls back for the folders with a matching pair, once for each as it is stored,
and nothing else changes. -/
def Visits (s : History Err) : Prop :=
  ∀ trail keys,
    (∃ order : List (Folder Err), order.Perm ((s.entries.filter fun entry => matched entry.1 trail keys).map (·.2)) ∧
      ∀ (σ : Type) (f : σ → Folder Err → σ × Folder Err) (state : σ),
        (s.forEachMut trail keys f state).1 = order.foldl (fun state folder => (f state folder).1) state) ∧
    ∀ (f : Folder Err → Folder Err) (url : UrlEq), url ∈ s.entries.keys →
      (s.forEachMut trail keys (fun _ folder => ((), f folder)) ()).2.entries.get? url =
        (s.entries.get? url).map (if matched url trail keys then f else id)

theorem ages_of_inv {s : History Err} (inv : s.Inv) (bounded : s.entries.length ≤ 100)
    {order : List UrlEq} (older : s.entries.keys.Sublist order) : s.Ages order := by
  refine ⟨bounded, older, fun folder framed => ?_⟩
  obtain ⟨t, -, few, ⟨done, entries⟩ | ⟨oldest, done, whole, full⟩⟩ := insert_inv inv bounded framed
  · refine ⟨t, ?_⟩
    rw [if_pos (entries ▸ few)]
    exact ⟨done, entries⟩
  · refine ⟨t, ?_⟩
    rw [if_neg (by rw [whole, List.length_cons, full]; decide)]
    exact ⟨oldest, done, whole⟩

theorem visits_of_inv {s : History Err} (inv : s.Inv) : s.Visits := by
  intro trail keys
  have distinct := matching_distinct inv trail keys
  refine ⟨⟨_, matching_perm inv trail keys, fun σ f state => visit_distinct f distinct state s⟩, ?_⟩
  intro f url stored
  rw [forEachMut, visit_changes f distinct]
  have same : (s.matching trail keys).contains url = matched url trail keys := by
    rw [List.contains_eq_any_beq, Bool.eq_iff_iff, List.any_eq_true]
    constructor
    · rintro ⟨other, member, equal⟩
      obtain ⟨stored', here⟩ := (mem_matching inv).mp member
      exact eq_of_stored inv.distinct stored stored' equal ▸ here
    · exact fun here => ⟨url, (mem_matching inv).mpr ⟨stored, here⟩, BEq.refl url⟩
  rw [same]

/-- After any calls, none of which fails, the index is consistent with the folders. -/
theorem history_consistent {calls : List (Call Err)} (framed : ∀ call ∈ calls, call.Framed) :
    ∃ s, exec step default calls = some s ∧ s.Indexed ∧ s.Ages (byAge (log default calls)) ∧
      s.Visits ∧ ((∀ call ∈ calls, call.Keeps) → s.Filed) := by
  obtain ⟨s, reached, inv, bounded, order⟩ :=
    exec_inv framed inv_default (Nat.zero_le 100) (List.Sublist.refl [])
  have filed : (default : History Err).Filed := fun entry member => absurd member List.not_mem_nil
  refine ⟨s, reached, ⟨fun trail key => ⟨inv.indexed trail key, inv.once trail key⟩, inv.trim⟩,
    ages_of_inv inv bounded order, visits_of_inv inv, fun keeps => ?_⟩
  exact exec_filed framed keeps inv_default (Nat.zero_le 100) filed reached

/-- Two folders of one directory; the first is looked at and taken out again. -/
def opened : List (Call Unit) :=
  [.insert (Folder.new false (.regular (text "/a"))), .insert (Folder.new false (.regular (text "/b"))),
    .getMut ⟨.regular (text "/a")⟩ id, .removeOr false ⟨.regular (text "/a")⟩]

theorem history_consistent_opened :
    ∃ s, exec step default opened = some s ∧ s.Indexed ∧ s.Ages (byAge (log default opened)) ∧
      s.Visits ∧ ((∀ call ∈ opened, call.Keeps) → s.Filed) := by
  apply history_consistent
  intro call member
  simp only [opened, List.mem_cons, List.not_mem_nil, or_false] at member
  rcases member with rfl | rfl | rfl | rfl
  · exact Url.framed_regular _
  · exact Url.framed_regular _
  · trivial
  · trivial

end History

end Yazi.Core
