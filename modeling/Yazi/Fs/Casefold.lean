import Mathlib.Data.List.Nodup
import Yazi.Shared.Path

/-!
# The stored name of a file

A directory may find an entry under a name that is not exactly the stored one. The stored name is
found by a scan of the directory: a fast one that compares the inodes of the listing, where the
entry lies on the mount of the directory, and otherwise a full one that looks up every name.
-/
namespace Yazi.Fs.Casefold
open Yazi.Shared

inductive Errno where
  | noent
  | other (code : Nat)
deriving DecidableEq, Repr

structure Stat where
  dev : Nat
  ino : Nat
  nlink : Nat
  isFile : Bool
deriving DecidableEq, Repr

/-- An entry of the listing: `ino` is the inode of the listing, `stat` what `statat` says of the
name, which is about the root of what is mounted there if anything is. -/
structure Entry where
  name : Bytes
  ino : Nat
  mounted : Bool
  stat : Except Errno Stat
deriving DecidableEq, Repr

/-- What the visitor of a scan is not shown. -/
def dots : List Bytes := [text ".", text ".."]

/-- A directory, its names in the order of the listing and how it finds entries. -/
structure Directory where
  dev : Nat
  listing : List Entry
  /-- `Casefold::case_sensitive`, of a file system that may not tell. -/
  caseSensitive : Option Bool
  /-- Whether `statx` tells mounts apart. -/
  mountIds : Bool
  lookup : Bytes → Option Entry
  distinct : (listing.map Entry.name).Nodup
  /-- On the mount of the directory, both inodes are the same. -/
  own : ∀ e ∈ listing, e.mounted = false → ∀ s, e.stat = .ok s → s.dev = dev ∧ s.ino = e.ino
  /-- A file with one link has one entry. -/
  links : ∀ e ∈ listing, e.mounted = false → ∀ s, e.stat = .ok s → s.isFile = true → s.nlink = 1 →
    ∀ x ∈ listing, x.ino = e.ino → x = e
  stored : ∀ e ∈ listing, e.name ∉ dots → lookup e.name = some e
  found : ∀ n e, lookup n = some e → e ∈ listing ∧ e.name ∉ dots
  sensitive : caseSensitive = some true → ∀ n e, lookup n = some e → e.name = n

inductive Error where
  | notFound
  /-- "Cannot determine the filename among multiple hardlinks" -/
  | ambiguous
  | errno (code : Nat)
deriving DecidableEq, Repr

/-- `Scanner::visit` -/
def visit {σ : Type} (visitor : σ → Bytes → Nat → σ × Bool) : σ → List Entry → σ
  | s, [] => s
  | s, entry :: rest =>
    if entry.name ∈ dots then visit visitor s rest
    else
      match visitor s entry.name entry.ino with
      | (s, true) => visit visitor s rest
      | (s, false) => s

/-- A regular file with one link. -/
def Stat.single (s : Stat) : Bool := s.nlink == 1 && s.isFile

/-- The visitor of `scan_fast` -/
def fast (name : Bytes) (stat : Stat) (names : List Bytes) (n : Bytes) (ino : Nat) :
    List Bytes × Bool :=
  if n = name then ([n], false)
  else if ino = stat.ino then (names ++ [n], !stat.single)
  else (names, true)

def scanFast (d : Directory) (name : Bytes) (stat : Stat) : Except Error Bytes :=
  match visit (fast name stat) [] d.listing with
  | [] => .error .notFound
  | [n] => .ok n
  | _ => .error .ambiguous

def Directory.statat (d : Directory) (name : Bytes) : Except Errno Stat :=
  match d.lookup name with
  | some e => e.stat
  | none => .error .noent

/-- The loop of `scan_full` over the names it has collected. -/
def resolve (d : Directory) (stat : Stat) : List Bytes → Option Bytes → Except Error Bytes
  | [], none => .error .notFound
  | [], some n => .ok n
  | n :: names, found =>
    match d.statat n with
    | .ok s =>
      if s.ino ≠ stat.ino ∨ s.dev ≠ stat.dev then resolve d stat names found
      else if found.isSome then .error .ambiguous
      else if stat.single then .ok n
      else resolve d stat names (some n)
    | .error .noent => resolve d stat names found
    | .error (.other code) => .error (.errno code)

/-- The visitor of `scan_full` -/
def full (name : Bytes) (seen : Bool × List Bytes) (n : Bytes) (_ : Nat) :
    (Bool × List Bytes) × Bool :=
  if n = name then ((true, seen.2), false) else ((seen.1, seen.2 ++ [n]), true)

def scanFull (d : Directory) (name : Bytes) (stat : Stat) : Except Error Bytes :=
  match visit (full name) (false, []) d.listing with
  | (true, _) => .ok name
  | (false, names) => resolve d stat names none

/-- `Casefold::is_same_mount` -/
def Directory.isSameMount (d : Directory) (e : Entry) : Bool := d.mountIds && !e.mounted

/-- `Casefold::final_name`, of a name in the directory. -/
def finalName (d : Directory) (name : Bytes) : Except Error Bytes :=
  match d.lookup name with
  | none => .error .notFound
  | some e =>
    match e.stat with
    | .error .noent => .error .notFound
    | .error (.other code) => .error (.errno code)
    | .ok stat =>
      if d.caseSensitive = some true then .ok name
      else if d.isSameMount e then scanFast d name stat
      else scanFull d name stat

/-- `Casefold::match_name_case` -/
def matchNameCase (d : Directory) (name : Bytes) : Except Error Bool :=
  (finalName d name).map (· == name)

/-! ### What the scans find -/

variable {d : Directory} {name : Bytes} {stat : Stat}

/-- The entries that a scan is shown. -/
def Directory.entries (d : Directory) : List Entry := d.listing.filter fun e => e.name ∉ dots

/-- The name leads to the inode. -/
def Entry.shows (e : Entry) (stat : Stat) : Bool :=
  match e.stat with
  | .ok s => s.ino == stat.ino && s.dev == stat.dev
  | .error _ => false

/-- The full scan goes on after this name. -/
def Entry.passed (e : Entry) (stat : Stat) : Bool :=
  match e.stat with
  | .ok s => !(s.ino == stat.ino && s.dev == stat.dev)
  | .error .noent => true
  | .error (.other _) => false

theorem visit_entries {σ : Type} (visitor : σ → Bytes → Nat → σ × Bool) (s : σ)
    (listing : List Entry) :
    visit visitor s listing = visit visitor s (listing.filter fun e => e.name ∉ dots) := by
  induction listing generalizing s with
  | nil => rfl
  | cons e rest ih =>
    by_cases dot : e.name ∈ dots
    · rw [List.filter_cons_of_neg (by simpa using dot), visit, if_pos dot, ih]
    · rw [List.filter_cons_of_pos (by simpa using dot), visit, visit, if_neg dot, if_neg dot]
      split
      · exact ih _
      · rfl

theorem mem_entries {e : Entry} : e ∈ d.entries ↔ e ∈ d.listing ∧ e.name ∉ dots := by
  simp [Directory.entries]

theorem statat_entry {e : Entry} (member : e ∈ d.entries) : d.statat e.name = e.stat := by
  obtain ⟨inside, plain⟩ := mem_entries.mp member
  rw [Directory.statat, d.stored e inside plain]

theorem entry_unique {x y : Entry} (memberX : x ∈ d.entries) (memberY : y ∈ d.entries)
    (same : x.name = y.name) : x = y :=
  List.inj_on_of_nodup_map d.distinct (mem_entries.mp memberX).1 (mem_entries.mp memberY).1 same

/-! #### The visitors -/

theorem visit_cons {σ : Type} (visitor : σ → Bytes → Nat → σ × Bool) (s : σ) {e : Entry}
    (plain : e.name ∉ dots) (rest : List Entry) :
    visit visitor s (e :: rest) = if (visitor s e.name e.ino).2 then
      visit visitor (visitor s e.name e.ino).1 rest else (visitor s e.name e.ino).1 := by
  rw [visit, if_neg plain]
  split
  · next same => simp [same]
  · next same => simp [same]

theorem visit_fast_many (many : stat.single = false) (acc : List Bytes) {es : List Entry}
    (plain : ∀ x ∈ es, x.name ∉ dots) (other : ∀ x ∈ es, x.name ≠ name) :
    visit (fast name stat) acc es =
      acc ++ (es.filter fun x => x.ino = stat.ino).map Entry.name := by
  induction es generalizing acc with
  | nil => exact (List.append_nil _).symm
  | cons e es ih =>
    have rest := fun acc => ih acc (fun x member => plain x (List.mem_cons_of_mem _ member))
      (fun x member => other x (List.mem_cons_of_mem _ member))
    rw [visit_cons _ _ (plain e (List.mem_cons_self ..)), fast,
      if_neg (other e (List.mem_cons_self ..))]
    by_cases here : e.ino = stat.ino
    · rw [if_pos here, many, List.filter_cons_of_pos (by simpa using here)]
      simp [rest]
    · rw [if_neg here, List.filter_cons_of_neg (by simpa using here)]
      simp [rest]

/-- The scan stops at the exact name, if the inode of the file does not stop it before. -/
theorem visit_fast_exact {es : List Entry} (plain : ∀ x ∈ es, x.name ∉ dots) {e : Entry}
    (member : e ∈ es) (exact_name : e.name = name)
    (alone : stat.single = true → ∀ x ∈ es, x.ino = stat.ino → x = e) (acc : List Bytes) :
    visit (fast name stat) acc es = [name] := by
  induction es generalizing acc with
  | nil => cases member
  | cons x es ih =>
    rw [visit_cons _ _ (plain x (List.mem_cons_self ..)), fast]
    by_cases here : x.name = name
    · rw [if_pos here, here]
      rfl
    · have later : e ∈ es := by
        rcases List.mem_cons.mp member with rfl | later
        · exact absurd exact_name here
        · exact later
      have rest := fun acc => ih (fun x member => plain x (List.mem_cons_of_mem _ member)) later
        (fun one x member => alone one x (List.mem_cons_of_mem _ member)) acc
      rw [if_neg here]
      by_cases same : x.ino = stat.ino
      · have many : stat.single = false := by
          by_contra one
          have whole := alone (eq_true_of_ne_false one) x (List.mem_cons_self ..) same
          exact here (whole ▸ exact_name)
        rw [if_pos same, many]
        exact rest _
      · rw [if_neg same]
        exact rest _

/-- The only entry of an inode is found. -/
theorem visit_fast_single (one : stat.single = true) {es : List Entry}
    (plain : ∀ x ∈ es, x.name ∉ dots) (other : ∀ x ∈ es, x.name ≠ name) {e : Entry}
    (member : e ∈ es) (ino : e.ino = stat.ino) (alone : ∀ x ∈ es, x.ino = stat.ino → x = e) :
    visit (fast name stat) [] es = [e.name] := by
  induction es with
  | nil => cases member
  | cons x es ih =>
    rw [visit_cons _ _ (plain x (List.mem_cons_self ..)), fast,
      if_neg (other x (List.mem_cons_self ..))]
    by_cases same : x.ino = stat.ino
    · rw [if_pos same, one, alone x (List.mem_cons_self ..) same]
      rfl
    · have later : e ∈ es := by
        rcases List.mem_cons.mp member with rfl | later
        · exact absurd ino same
        · exact later
      rw [if_neg same]
      exact ih (fun x member => plain x (List.mem_cons_of_mem _ member))
        (fun x member => other x (List.mem_cons_of_mem _ member)) later
        (fun x member => alone x (List.mem_cons_of_mem _ member))

theorem visit_full_exact {es : List Entry} (plain : ∀ x ∈ es, x.name ∉ dots)
    (present : ∃ x ∈ es, x.name = name) (seen : Bool × List Bytes) :
    (visit (full name) seen es).1 = true := by
  induction es generalizing seen with
  | nil =>
    obtain ⟨x, member, -⟩ := present
    cases member
  | cons x es ih =>
    rw [visit_cons _ _ (plain x (List.mem_cons_self ..)), full]
    by_cases here : x.name = name
    · rw [if_pos here]
      rfl
    · rw [if_neg here]
      obtain ⟨y, member, same⟩ := present
      rcases List.mem_cons.mp member with rfl | member
      · exact absurd same here
      · exact ih (fun x member => plain x (List.mem_cons_of_mem _ member)) ⟨y, member, same⟩ _

theorem visit_full_other {es : List Entry} (plain : ∀ x ∈ es, x.name ∉ dots)
    (other : ∀ x ∈ es, x.name ≠ name) (acc : List Bytes) :
    visit (full name) (false, acc) es = (false, acc ++ es.map Entry.name) := by
  induction es generalizing acc with
  | nil => rw [List.map_nil, List.append_nil]; rfl
  | cons x es ih =>
    rw [visit_cons _ _ (plain x (List.mem_cons_self ..)), full,
      if_neg (other x (List.mem_cons_self ..))]
    have rest := ih (fun x member => plain x (List.mem_cons_of_mem _ member))
      (fun x member => other x (List.mem_cons_of_mem _ member)) (acc ++ [x.name])
    simpa using rest

end Yazi.Fs.Casefold
