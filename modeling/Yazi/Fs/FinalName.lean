import Yazi.Fs.Casefold

/-!
# When the stored name is the right one

An entry on the mount of the directory is found by its inode. The full scan is right as well,
unless it stops too early: it takes the first name of a file with one link for the only one, but
the file may be mounted on another entry of the directory, which then shows the same inode.
-/
namespace Yazi.Fs.Casefold
open Yazi.Shared

variable {d : Directory} {name : Bytes} {stat : Stat} {e : Entry}

/-! ### The loop of the full scan -/

/-- What the loop does at an entry. -/
theorem resolve_cons {x : Entry} (member : x ∈ d.entries) (names : List Bytes)
    (found : Option Bytes) :
    resolve d stat (x.name :: names) found =
      match x.stat with
      | .ok s =>
        if s.ino ≠ stat.ino ∨ s.dev ≠ stat.dev then resolve d stat names found
        else if found.isSome then .error .ambiguous
        else if stat.single then .ok x.name
        else resolve d stat names (some x.name)
      | .error .noent => resolve d stat names found
      | .error (.other code) => .error (.errno code) := by
  cases known : x.stat with
  | ok s => simp only [resolve, statat_entry member, known]
  | error e => cases e <;> simp only [resolve, statat_entry member, known]

theorem resolve_passed {x : Entry} (member : x ∈ d.entries) (passed : x.passed stat = true)
    (names : List Bytes) (found : Option Bytes) :
    resolve d stat (x.name :: names) found = resolve d stat names found := by
  rw [resolve_cons member]
  unfold Entry.passed at passed
  split
  · next s same =>
    rw [same] at passed
    simp only [Bool.not_eq_true', Bool.and_eq_false_iff, beq_eq_false_iff_ne] at passed
    exact if_pos passed
  · rfl
  · next code same =>
    rw [same] at passed
    cases passed

theorem resolve_shows {x : Entry} (member : x ∈ d.entries) (shows' : x.shows stat = true)
    (names : List Bytes) (found : Option Bytes) :
    resolve d stat (x.name :: names) found =
      if found.isSome then .error .ambiguous
      else if stat.single then .ok x.name
      else resolve d stat names (some x.name) := by
  rw [resolve_cons member]
  unfold Entry.shows at shows'
  split at shows'
  · next s same =>
    simp only [Bool.and_eq_true, beq_iff_eq] at shows'
    rw [same]
    exact if_neg (by simp [shows'])
  · cases shows'

/-- An entry that neither shows the inode nor is passed makes the scan fail. -/
theorem resolve_fails {x : Entry} (member : x ∈ d.entries) (hidden : x.shows stat = false)
    (stuck : x.passed stat = false) (names : List Bytes) (found : Option Bytes) :
    ∃ code, resolve d stat (x.name :: names) found = .error (.errno code) := by
  rw [resolve_cons member]
  unfold Entry.shows at hidden
  unfold Entry.passed at stuck
  split
  · next s same =>
    rw [same] at hidden stuck
    rw [Bool.not_eq_false'] at stuck
    exact absurd stuck (Bool.eq_false_iff.mp hidden)
  · next same =>
    rw [same] at stuck
    cases stuck
  · next code same => exact ⟨code, rfl⟩

/-- With several links, the names that show the inode are counted up to two. -/
theorem resolve_many (many : stat.single = false) {es : List Entry}
    (inside : ∀ x ∈ es, x ∈ d.entries) (found : Option Bytes) :
    ((∃ code, resolve d stat (es.map Entry.name) found = .error (.errno code)) ∧
      ∃ x ∈ es, x.shows stat = false ∧ x.passed stat = false) ∨
    resolve d stat (es.map Entry.name) found =
      match found.toList ++ (es.filter fun x => x.shows stat).map Entry.name with
      | [] => .error .notFound
      | [n] => .ok n
      | _ => .error .ambiguous := by
  induction es generalizing found with
  | nil =>
    right
    cases found <;> rfl
  | cons x es ih =>
    have member := inside x (List.mem_cons_self ..)
    have later : (∃ y ∈ es, y.shows stat = false ∧ y.passed stat = false) →
        ∃ y ∈ x :: es, y.shows stat = false ∧ y.passed stat = false :=
      fun ⟨y, inner, stuck⟩ => ⟨y, List.mem_cons_of_mem x inner, stuck⟩
    have rest := fun found =>
      (ih (fun y inner => inside y (List.mem_cons_of_mem _ inner)) found).imp_left
        (And.imp_right later)
    rw [List.map_cons]
    cases shown : x.shows stat with
    | true =>
      rw [resolve_shows member shown, many, List.filter_cons_of_pos (by simpa using shown)]
      cases found with
      | none => exact rest (some x.name)
      | some n => exact .inr rfl
    | false =>
      rw [List.filter_cons_of_neg (by simp [shown])]
      cases passed : x.passed stat with
      | true =>
        rw [resolve_passed member passed]
        exact rest found
      | false =>
        exact .inl ⟨resolve_fails member shown passed _ found, x, List.mem_cons_self .., shown, passed⟩

/-- The first name that shows the inode, none before it failing. -/
def First (stat : Stat) (es : List Entry) (x : Entry) : Prop :=
  ∃ before after, es = before ++ x :: after ∧ x.shows stat = true ∧
    ∀ y ∈ before, y.passed stat = true

/-- With one link, the scan stops at the first name that shows the inode. -/
theorem resolve_one (one : stat.single = true) {es : List Entry}
    (inside : ∀ x ∈ es, x ∈ d.entries) :
    (∀ n, resolve d stat (es.map Entry.name) none = .ok n ↔
      ∃ x, First stat es x ∧ n = x.name) ∧
    resolve d stat (es.map Entry.name) none ≠ .error .ambiguous := by
  induction es with
  | nil =>
    refine ⟨fun n => ⟨nofun, ?_⟩, nofun⟩
    rintro ⟨x, ⟨before, after, whole, -⟩, -⟩
    exact absurd whole.symm (List.append_ne_nil_of_right_ne_nil before (List.cons_ne_nil x after))
  | cons x es ih =>
    have member := inside x (List.mem_cons_self ..)
    have rest := ih fun y later => inside y (List.mem_cons_of_mem _ later)
    rw [List.map_cons]
    cases shown : x.shows stat with
    | true =>
      rw [resolve_shows member shown, one]
      refine ⟨fun n => ⟨?_, ?_⟩, nofun⟩
      · intro same
        cases same
        exact ⟨x, ⟨[], es, rfl, shown, nofun⟩, rfl⟩
      · rintro ⟨y, ⟨before, after, whole, -, passed⟩, rfl⟩
        cases before with
        | nil =>
          cases whole
          rfl
        | cons z before =>
          cases whole
          -- What shows the inode is not passed.
          have both := passed _ (List.mem_cons_self ..)
          unfold Entry.passed at both
          unfold Entry.shows at shown
          split at both <;> simp_all
    | false =>
      cases passed : x.passed stat with
      | true =>
        rw [resolve_passed member passed]
        refine ⟨fun n => (rest.1 n).trans ⟨?_, ?_⟩, rest.2⟩
        · rintro ⟨y, ⟨before, after, whole, shows', all⟩, same⟩
          refine ⟨y, ⟨x :: before, after, congrArg (x :: ·) whole, shows', ?_⟩, same⟩
          intro z inner
          rcases List.mem_cons.mp inner with rfl | inner
          · exact passed
          · exact all z inner
        · rintro ⟨y, ⟨before, after, whole, shows', all⟩, same⟩
          cases before with
          | nil =>
            cases whole
            rw [shown] at shows'
            cases shows'
          | cons z before =>
            cases whole
            exact ⟨y, ⟨before, after, rfl, shows', fun w inner =>
              all w (List.mem_cons_of_mem _ inner)⟩, same⟩
      | false =>
        obtain ⟨code, fails⟩ := resolve_fails member shown passed (es.map Entry.name) none
        rw [fails]
        refine ⟨fun n => ⟨nofun, ?_⟩, nofun⟩
        rintro ⟨y, ⟨before, after, whole, shows', all⟩, -⟩
        cases before with
        | nil =>
          cases whole
          rw [shown] at shows'
          cases shows'
        | cons z before =>
          cases whole
          rw [all _ (List.mem_cons_self ..)] at passed
          cases passed

/-! ### A name that leads to an entry -/

/-- The name leads to the entry, and this is what `statat` says of it. -/
structure Leads (d : Directory) (name : Bytes) (e : Entry) (stat : Stat) : Prop where
  lookup : d.lookup name = some e
  stat : e.stat = .ok stat

theorem Leads.member (leads : Leads d name e stat) : e ∈ d.entries :=
  mem_entries.mpr (d.found name e leads.lookup)

theorem plain_entries {x : Entry} (member : x ∈ d.entries) : x.name ∉ dots :=
  (mem_entries.mp member).2

/-- An exact name is that of the entry. -/
theorem Leads.of_exact (leads : Leads d name e stat) {x : Entry} (member : x ∈ d.entries)
    (same : x.name = name) : x = e := by
  obtain ⟨inside, plain⟩ := mem_entries.mp member
  have found := d.stored x inside plain
  rw [same, leads.lookup] at found
  exact (Option.some.inj found).symm

theorem Leads.shows (leads : Leads d name e stat) : e.shows stat = true := by
  simp [Entry.shows, leads.stat]

theorem Leads.own (leads : Leads d name e stat) (here : e.mounted = false) :
    stat.dev = d.dev ∧ stat.ino = e.ino :=
  d.own e (mem_entries.mp leads.member).1 here stat leads.stat

/-- A file with one link is the only one of its inode in the listing. -/
theorem Leads.alone (leads : Leads d name e stat) (here : e.mounted = false)
    (one : stat.single = true) : ∀ x ∈ d.entries, x.ino = stat.ino → x = e := by
  intro x member same
  simp only [Stat.single, Bool.and_eq_true, beq_iff_eq] at one
  have inode := (leads.own here).2
  exact d.links e (mem_entries.mp leads.member).1 here stat leads.stat one.2 one.1 x
    (mem_entries.mp member).1 (same.trans inode)

/-- The name leads to an inode, in the listing or through what is mounted there. -/
def Names (d : Directory) (stat : Stat) (x : Entry) : Prop :=
  d.dev = stat.dev ∧ x.ino = stat.ino ∨ x.shows stat = true

/-- No entry has the exact name, and two of them lead to the inode. -/
def Ambiguous (d : Directory) (name : Bytes) (stat : Stat) : Prop :=
  (∀ x ∈ d.entries, x.name ≠ name) ∧
    ∃ x ∈ d.entries, ∃ y ∈ d.entries, x ≠ y ∧ Names d stat x ∧ Names d stat y

theorem two_of_filter {p : Entry → Bool} {a b : Bytes} {more : List Bytes}
    (found : (d.entries.filter p).map Entry.name = a :: b :: more) :
    ∃ x ∈ d.entries, ∃ y ∈ d.entries, x ≠ y ∧ p x = true ∧ p y = true := by
  have distinct : (d.entries.filter p).Nodup :=
    ((List.Nodup.of_map _ d.distinct).filter _).filter _
  match hits : d.entries.filter p with
  | [] => rw [hits] at found; cases found
  | [x] => rw [hits] at found; cases found
  | x :: y :: rest =>
    rw [hits] at distinct
    have memberX : x ∈ d.entries.filter p := hits ▸ List.mem_cons_self ..
    have memberY : y ∈ d.entries.filter p := hits ▸ List.mem_cons_of_mem _ (List.mem_cons_self ..)
    refine ⟨x, List.mem_of_mem_filter memberX, y, List.mem_of_mem_filter memberY, ?_,
      List.of_mem_filter memberX, List.of_mem_filter memberY⟩
    rintro rfl
    exact (List.nodup_cons.mp distinct).1 (List.mem_cons_self ..)

/-- A single hit is the entry itself. -/
theorem one_of_filter {p : Entry → Bool} {n : Bytes} (member : e ∈ d.entries) (hit : p e = true)
    (found : (d.entries.filter p).map Entry.name = [n]) : n = e.name := by
  have inside : e.name ∈ (d.entries.filter p).map Entry.name :=
    List.mem_map_of_mem (List.mem_filter.mpr ⟨member, hit⟩)
  rw [found, List.mem_singleton] at inside
  exact inside.symm

theorem scanFast_eq (leads : Leads d name e stat) (here : e.mounted = false) :
    (scanFast d name stat = .ok e.name ∧
      ((∃ x ∈ d.entries, x.name = name) ∨ stat.single = true)) ∨
    stat.single = false ∧ (∀ x ∈ d.entries, x.name ≠ name) ∧ scanFast d name stat =
      match (d.entries.filter fun x => x.ino = stat.ino).map Entry.name with
      | [] => .error .notFound
      | [n] => .ok n
      | _ => .error .ambiguous := by
  have inode := (leads.own here).2
  rw [scanFast, visit_entries]
  change (_ = _ ∧ _) ∨ _
  by_cases present : ∃ x ∈ d.entries, x.name = name
  · obtain ⟨x, member, same⟩ := present
    left
    have whole := leads.of_exact member same
    have names := visit_fast_exact (fun x => plain_entries) member same
      (fun one y inside equal => (leads.alone here one y inside equal).trans whole.symm) []
    rw [show (List.filter (fun e => e.name ∉ dots) d.listing) = d.entries from rfl, names]
    exact ⟨congrArg _ (whole ▸ same).symm, .inl ⟨x, member, same⟩⟩
  · have other : ∀ x ∈ d.entries, x.name ≠ name := fun x member same => present ⟨x, member, same⟩
    cases one : stat.single with
    | true =>
      left
      have names := visit_fast_single one (fun x => plain_entries) other leads.member inode.symm
        (leads.alone here one)
      rw [show (List.filter (fun e => e.name ∉ dots) d.listing) = d.entries from rfl, names]
      exact ⟨rfl, .inr rfl⟩
    | false =>
      right
      have names := visit_fast_many one [] (fun x => plain_entries) other
      rw [show (List.filter (fun e => e.name ∉ dots) d.listing) = d.entries from rfl, names,
        List.nil_append]
      exact ⟨rfl, other, rfl⟩

theorem scanFull_exact (present : ∃ x ∈ d.entries, x.name = name) :
    scanFull d name stat = .ok name := by
  have seen := visit_full_exact (fun x => plain_entries) present (false, [])
  rw [scanFull, visit_entries, ← Directory.entries]
  split
  · rfl
  · next wrong =>
    rw [wrong] at seen
    cases seen

theorem scanFull_other (other : ∀ x ∈ d.entries, x.name ≠ name) :
    scanFull d name stat = resolve d stat (d.entries.map Entry.name) none := by
  have names := visit_full_other (fun x => plain_entries) other []
  rw [scanFull, visit_entries, ← Directory.entries, names, List.nil_append]

/-! ### The two scans -/

/-- Nothing is mounted on an entry, and every name is still there. -/
def Plain (d : Directory) : Prop :=
  ∀ x ∈ d.entries, x.mounted = false ∧ ∃ s, x.stat = .ok s

/-- Without mounts, an entry shows the inode that the listing says. -/
theorem Leads.shows_plain (leads : Leads d name e stat) (plain : Plain d) {x : Entry}
    (member : x ∈ d.entries) : x.shows stat = decide (x.ino = stat.ino) := by
  obtain ⟨here, s, ok⟩ := plain x member
  obtain ⟨dev, ino⟩ := d.own x (mem_entries.mp member).1 here s ok
  have same := (leads.own (plain e leads.member).1).1
  rw [Entry.shows, ok, ← ino]
  change (s.ino == stat.ino && s.dev == stat.dev) = _
  rw [dev, same, BEq.rfl, Bool.and_true]
  rfl

theorem scanFast_eq_scanFull (leads : Leads d name e stat) (plain : Plain d) :
    scanFast d name stat = scanFull d name stat := by
  have here := (plain e leads.member).1
  rcases scanFast_eq leads here with ⟨fast, sure⟩ | ⟨many, other, fast⟩
  · rw [fast]
    by_cases present : ∃ x ∈ d.entries, x.name = name
    · obtain ⟨x, member, same⟩ := present
      rw [scanFull_exact ⟨x, member, same⟩, ← leads.of_exact member same, same]
    · have one := sure.resolve_left present
      have other : ∀ x ∈ d.entries, x.name ≠ name := fun x member same => present ⟨x, member, same⟩
      rw [scanFull_other other]
      symm
      rw [(resolve_one one fun _ => id).1]
      -- The entry is the first of its inode, since it is the only one.
      obtain ⟨before, after, whole⟩ := List.append_of_mem leads.member
      refine ⟨e, ⟨before, after, whole, leads.shows, fun y early => ?_⟩, rfl⟩
      have member : y ∈ d.entries := whole ▸ List.mem_append_left _ early
      have different : y ≠ e := by
        rintro rfl
        have distinct : d.entries.Nodup := (List.Nodup.of_map _ d.distinct).filter _
        rw [whole, List.nodup_append] at distinct
        exact distinct.2.2 y early y (List.mem_cons_self ..) rfl
      have hidden : y.shows stat = false := by
        rw [leads.shows_plain plain member, decide_eq_false_iff_not]
        exact fun same => different (leads.alone here one y member same)
      obtain ⟨-, s, ok⟩ := plain y member
      simp only [Entry.passed, Entry.shows, ok] at hidden ⊢
      rw [hidden]
      rfl
  · rw [fast, scanFull_other other]
    have hits : (d.entries.filter fun x => decide (x.ino = stat.ino)) =
        d.entries.filter fun x => x.shows stat :=
      List.filter_congr fun x member => (leads.shows_plain plain member).symm
    rcases resolve_many many (fun _ => id) none with ⟨-, x, member, hidden, stuck⟩ | resolved
    · obtain ⟨-, s, ok⟩ := plain x member
      simp only [Entry.shows, Entry.passed, ok] at hidden stuck
      rw [hidden] at stuck
      cases stuck
    · rw [resolved, hits]
      rfl

/-! ### The stored name -/

/-- The full scan is made for a file with one link, no entry has the exact name, and the first one
that shows the file is another entry than the one the name leads to. -/
def Misled (d : Directory) (name : Bytes) (e : Entry) (stat : Stat) : Prop :=
  d.caseSensitive ≠ some true ∧ d.isSameMount e = false ∧ (∀ x ∈ d.entries, x.name ≠ name) ∧
    stat.single = true ∧ ∃ x, First stat d.entries x ∧ x ≠ e

theorem finalName_eq (leads : Leads d name e stat) :
    finalName d name =
      if d.caseSensitive = some true then .ok name
      else if d.isSameMount e then scanFast d name stat
      else scanFull d name stat := by
  rw [finalName, leads.lookup]
  dsimp only
  rw [leads.stat]

theorem first_member {es : List Entry} {x : Entry} (first : First stat es x) : x ∈ es := by
  obtain ⟨before, after, rfl, -⟩ := first
  simp

/-- What the fast scan says is right. -/
theorem scanFast_right (leads : Leads d name e stat) (here : e.mounted = false) :
    (∀ n, scanFast d name stat = .ok n → n = e.name) ∧
      (scanFast d name stat = .error .ambiguous → Ambiguous d name stat) := by
  obtain ⟨dev, ino⟩ := leads.own here
  rcases scanFast_eq leads here with ⟨fast, -⟩ | ⟨-, other, fast⟩
  · rw [fast]
    exact ⟨fun n same => (Except.ok.inj same).symm, nofun⟩
  · rw [fast]
    split
    · exact ⟨nofun, nofun⟩
    · next n hits =>
      refine ⟨fun m same => ?_, nofun⟩
      cases same
      exact one_of_filter leads.member (decide_eq_true ino.symm) hits
    · next names many single =>
      refine ⟨nofun, fun _ => ⟨other, ?_⟩⟩
      match hits : (d.entries.filter fun x => decide (x.ino = stat.ino)).map Entry.name with
      | [] => exact absurd hits many
      | [n] => exact absurd hits (single n)
      | a :: b :: more =>
        obtain ⟨x, memberX, y, memberY, different, inoX, inoY⟩ := two_of_filter hits
        exact ⟨x, memberX, y, memberY, different, .inl ⟨dev.symm, of_decide_eq_true inoX⟩,
          .inl ⟨dev.symm, of_decide_eq_true inoY⟩⟩

/-- The full scan says what is right, unless another entry is the first to show the file. -/
theorem scanFull_right (leads : Leads d name e stat) :
    ((∀ n, scanFull d name stat = .ok n → n = e.name) ↔
      ¬((∀ x ∈ d.entries, x.name ≠ name) ∧ stat.single = true ∧
        ∃ x, First stat d.entries x ∧ x ≠ e)) ∧
      (scanFull d name stat = .error .ambiguous → Ambiguous d name stat) := by
  by_cases present : ∃ x ∈ d.entries, x.name = name
  · rw [scanFull_exact present]
    obtain ⟨x, member, same⟩ := present
    refine ⟨⟨fun _ none => none.1 x member same, fun _ n equal => ?_⟩, nofun⟩
    cases equal
    rw [← same, leads.of_exact member same]
  · have other : ∀ x ∈ d.entries, x.name ≠ name := fun x member same => present ⟨x, member, same⟩
    rw [scanFull_other other]
    cases one : stat.single with
    | true =>
      obtain ⟨found, never⟩ := resolve_one one fun _ (member : _ ∈ d.entries) => member
      refine ⟨⟨?_, ?_⟩, fun wrong => absurd wrong never⟩
      · rintro right ⟨-, -, x, first, different⟩
        have name_eq := right x.name ((found x.name).mpr ⟨x, first, rfl⟩)
        exact different (entry_unique (first_member first) leads.member name_eq)
      · intro sure n same
        obtain ⟨x, first, rfl⟩ := (found n).mp same
        by_contra different
        exact sure ⟨other, rfl, x, first, fun whole => different (congrArg Entry.name whole)⟩
    | false =>
      rcases resolve_many one (fun _ (member : _ ∈ d.entries) => member) none with
        ⟨⟨code, fails⟩, -⟩ | resolved
      · rw [fails]
        exact ⟨⟨fun _ none => absurd none.2.1 nofun, fun _ => nofun⟩, nofun⟩
      · rw [resolved, Option.toList_none, List.nil_append]
        split
        · exact ⟨⟨fun _ none => absurd none.2.1 nofun, fun _ => nofun⟩, nofun⟩
        · next n hits =>
          refine ⟨⟨fun _ none => absurd none.2.1 nofun, fun _ m same => ?_⟩, nofun⟩
          cases same
          exact one_of_filter leads.member leads.shows hits
        · next names many single =>
          refine ⟨⟨fun _ none => absurd none.2.1 nofun, fun _ => nofun⟩, fun _ => ⟨other, ?_⟩⟩
          match hits : (d.entries.filter fun x => x.shows stat).map Entry.name with
          | [] => exact absurd hits many
          | [n] => exact absurd hits (single n)
          | a :: b :: more =>
            obtain ⟨x, memberX, y, memberY, different, showsX, showsY⟩ := two_of_filter hits
            exact ⟨x, memberX, y, memberY, different, .inr showsX, .inr showsY⟩

/-- A file with one link, and an entry that it is mounted on. -/
def alone : Stat := ⟨1, 10, 1, true⟩

def original : Entry := ⟨text "a", 10, false, .ok alone⟩

def covered : Entry := ⟨text "b", 11, true, .ok alone⟩

/-- A directory that folds case and has both. -/
def bound : Directory where
  dev := 1
  listing := [original, covered]
  caseSensitive := some false
  mountIds := true
  lookup n :=
    if n = text "a" ∨ n = text "A" then some original
    else if n = text "b" ∨ n = text "B" then some covered
    else none
  distinct := by decide
  own e member here s ok := by
    rcases List.mem_pair.mp member with rfl | rfl
    · cases ok
      exact ⟨rfl, rfl⟩
    · cases here
  links e member here s ok file one x inside ino := by
    rcases List.mem_pair.mp member with rfl | rfl
    · rcases List.mem_pair.mp inside with rfl | rfl
      · rfl
      · cases ino
    · cases here
  stored e member plain := by
    rcases List.mem_pair.mp member with rfl | rfl
    · decide
    · decide
  found n e found := by
    split at found
    · cases found
      decide
    · split at found
      · cases found
        decide
      · cases found
  sensitive := nofun

end Yazi.Fs.Casefold
