import Mathlib.Logic.Relation
import Yazi.Base.Keyed

/-!
# Paths through directories with links

A path is followed segment by segment. A link on the way is replaced by its target, of which only
so many are followed in all. Where a path leads is a place: an entry of a directory, which is not
followed, or a directory itself, where the path ends in a segment that is no name.

A directory is sealed when no link met from it by names leads to a directory outside. Then every
path from it that does not go up stays inside, and otherwise some path gets out.
-/
namespace Yazi.Base

inductive Segment (κ : Type) where
  /-- An empty segment, or `.` -/
  | here
  /-- `..` -/
  | up
  | name (n : κ)
deriving DecidableEq, Repr

inductive LinkNode (κ : Type) where
  | dir (entries : Assoc κ Nat)
  | link (absolute : Bool) (target : List (Segment κ))
  | file
deriving Repr

structure Links (κ : Type) where
  node : Nat → LinkNode κ
  /-- Of a directory. -/
  parent : Nat → Nat
  root : Nat

namespace Links

variable {κ : Type} [DecidableEq κ] (fs : Links κ)

def isDir (i : Nat) : Bool :=
  match fs.node i with
  | .dir _ => true
  | _ => false

def entries (i : Nat) : Assoc κ Nat :=
  match fs.node i with
  | .dir entries => entries
  | _ => []

def entry (d : Nat) (n : κ) : Option Nat := (fs.entries d).get? n

/-- Follows a path from a directory, with so many links left; `again` goes on after a link. -/
def walkWith (again : Nat → List (Segment κ) → Option (Nat × Nat)) (left : Nat) :
    Nat → List (Segment κ) → Option (Nat × Nat)
  | d, [] => some (d, left)
  | d, segment :: rest =>
    if fs.isDir d then
      match segment with
      | .here => walkWith again left d rest
      | .up => walkWith again left (fs.parent d) rest
      | .name n =>
        match fs.entry d n with
        | none => none
        | some i =>
          match fs.node i with
          | .link absolute target => again (if absolute then fs.root else d) (target ++ rest)
          | _ => walkWith again left i rest
    else none

/-- What a path leads to, and how many links are left. -/
def walk : Nat → Nat → List (Segment κ) → Option (Nat × Nat)
  | 0 => fs.walkWith (fun _ _ => none) 0
  | left + 1 => fs.walkWith (walk left) (left + 1)

/-- An entry of a directory, or the directory itself. -/
structure Place (κ : Type) where
  dir : Nat
  name : Option κ
deriving DecidableEq, Repr

def Place.node (fs : Links κ) (place : Place κ) : Option Nat :=
  match place.name with
  | none => some place.dir
  | some n => fs.entry place.dir n

/-- Where a path leads if a link at its end is not followed. -/
def locate (left d : Nat) (path : List (Segment κ)) : Option (Place κ) :=
  match path.getLast? with
  | none => none
  | some last =>
    match fs.walk left d path.dropLast with
    | none => none
    | some (i, _) =>
      if fs.isDir i then
        match last with
        | .here => some ⟨i, none⟩
        | .up => some ⟨fs.parent i, none⟩
        | .name n => if (fs.entry i n).isSome then some ⟨i, some n⟩ else none
      else none

/-! ### Walks -/

variable {fs} {left left' rest d i : Nat} {path : List (Segment κ)} {n : κ}

theorem mem_of_entry (found : fs.entry d n = some i) : (n, i) ∈ fs.entries d :=
  Assoc.mem_of_get?_lawful found

theorem entry_of_key {entries : Assoc κ Nat} (node : fs.node i = .dir entries)
    (key : n ∈ entries.keys) : fs.isDir i = true ∧ ∃ j, fs.entry i n = some j := by
  have known : entries.keys.contains n = true := List.contains_iff_mem.mpr key
  rw [Assoc.contains_keys] at known
  obtain ⟨j, found⟩ := Option.isSome_iff_exists.mp known
  exact ⟨by simp [isDir, node], j, by simp [entry, Links.entries, node, found]⟩

@[simp] theorem walk_nil (left d : Nat) : fs.walk left d [] = some (d, left) := by
  cases left <;> rfl

theorem walk_segment (left d : Nat) (segment : Segment κ) (path : List (Segment κ)) :
    fs.walk left d (segment :: path) =
      if fs.isDir d then
        match segment with
        | .here => fs.walk left d path
        | .up => fs.walk left (fs.parent d) path
        | .name n =>
          match fs.entry d n with
          | none => none
          | some i =>
            match fs.node i, left with
            | .link _ _, 0 => none
            | .link absolute target, left + 1 =>
              fs.walk left (if absolute then fs.root else d) (target ++ path)
            | _, _ => fs.walk left i path
      else none := by
  cases segment with
  | here | up => cases left <;> rfl
  | name n =>
    cases found : fs.entry d n with
    | none => cases left <;> simp [walk, walkWith, found]
    | some i => cases node : fs.node i <;> cases left <;> simp [walk, walkWith, found, node]

theorem walk_not_dir (outside : fs.isDir d = false) (left : Nat) (segment : Segment κ)
    (path : List (Segment κ)) : fs.walk left d (segment :: path) = none := by
  simp [walk_segment, outside]

theorem walk_here (inside : fs.isDir d = true) (left : Nat) (path : List (Segment κ)) :
    fs.walk left d (.here :: path) = fs.walk left d path := by
  simp [walk_segment, inside]

theorem walk_up (inside : fs.isDir d = true) (left : Nat) (path : List (Segment κ)) :
    fs.walk left d (.up :: path) = fs.walk left (fs.parent d) path := by
  simp [walk_segment, inside]

theorem walk_absent (absent : fs.entry d n = none) (left : Nat) (path : List (Segment κ)) :
    fs.walk left d (.name n :: path) = none := by
  simp [walk_segment, absent]

theorem walk_plain (inside : fs.isDir d = true) (found : fs.entry d n = some i)
    (plain : ∀ absolute target, fs.node i ≠ .link absolute target) (left : Nat)
    (path : List (Segment κ)) : fs.walk left d (.name n :: path) = fs.walk left i path := by
  cases node : fs.node i with
  | link absolute target => exact absurd node (plain absolute target)
  | dir _ => simp [walk_segment, inside, found, node]
  | file => simp [walk_segment, inside, found, node]

theorem walk_link (inside : fs.isDir d = true) (found : fs.entry d n = some i) {absolute : Bool}
    {target : List (Segment κ)} (node : fs.node i = .link absolute target) (left : Nat)
    (path : List (Segment κ)) :
    fs.walk (left + 1) d (.name n :: path) =
      fs.walk left (if absolute then fs.root else d) (target ++ path) := by
  simp [walk_segment, inside, found, node]

theorem walk_link_zero (found : fs.entry d n = some i) {absolute : Bool}
    {target : List (Segment κ)} (node : fs.node i = .link absolute target)
    (path : List (Segment κ)) : fs.walk 0 d (.name n :: path) = none := by
  simp [walk_segment, found, node]

/-- The cases of a first segment. -/
theorem walk_cases {P : Nat → Nat → List (Segment κ) → Prop}
    (nil : ∀ left d, P left d [])
    (outside : ∀ left d segment path, fs.isDir d = false → P left d (segment :: path))
    (here : ∀ left d path, fs.isDir d = true → P left d path → P left d (.here :: path))
    (up : ∀ left d path, fs.isDir d = true → P left (fs.parent d) path →
      P left d (.up :: path))
    (absent : ∀ left d n path, fs.isDir d = true → fs.entry d n = none →
      P left d (.name n :: path))
    (plain : ∀ left d n i path, fs.isDir d = true → fs.entry d n = some i →
      (∀ absolute target, fs.node i ≠ .link absolute target) → P left i path →
      P left d (.name n :: path))
    (loop : ∀ d n i absolute target path, fs.isDir d = true → fs.entry d n = some i →
      fs.node i = .link absolute target → P 0 d (.name n :: path))
    (link : ∀ left d n i absolute target path, fs.isDir d = true → fs.entry d n = some i →
      fs.node i = .link absolute target →
      P left (if absolute then fs.root else d) (target ++ path) →
      P (left + 1) d (.name n :: path))
    (left d : Nat) (path : List (Segment κ)) : P left d path := by
  induction left generalizing d path with
  | zero =>
    induction path generalizing d with
    | nil => exact nil 0 d
    | cons segment path ih =>
      cases inside : fs.isDir d with
      | false => exact outside 0 d segment path inside
      | true =>
        cases segment with
        | here => exact here 0 d path inside (ih d)
        | up => exact up 0 d path inside (ih _)
        | name n =>
          cases found : fs.entry d n with
          | none => exact absent 0 d n path inside found
          | some i =>
            cases node : fs.node i with
            | link absolute target => exact loop d n i absolute target path inside found node
            | dir _ => exact plain 0 d n i path inside found (by simp [node]) (ih i)
            | file => exact plain 0 d n i path inside found (by simp [node]) (ih i)
  | succ left outer =>
    induction path generalizing d with
    | nil => exact nil (left + 1) d
    | cons segment path ih =>
      cases inside : fs.isDir d with
      | false => exact outside (left + 1) d segment path inside
      | true =>
        cases segment with
        | here => exact here (left + 1) d path inside (ih d)
        | up => exact up (left + 1) d path inside (ih _)
        | name n =>
          cases found : fs.entry d n with
          | none => exact absent (left + 1) d n path inside found
          | some i =>
            cases node : fs.node i with
            | link absolute target =>
              exact link left d n i absolute target path inside found node (outer _ _)
            | dir _ => exact plain (left + 1) d n i path inside found (by simp [node]) (ih i)
            | file => exact plain (left + 1) d n i path inside found (by simp [node]) (ih i)

/-- A path is followed part by part. -/
theorem walk_append (left d : Nat) (a b : List (Segment κ)) :
    fs.walk left d (a ++ b) = (fs.walk left d a).bind fun (i, rest) => fs.walk rest i b := by
  revert left d a
  apply walk_cases
  · intro left d
    simp
  · intro left d segment path outside
    rw [List.cons_append, walk_not_dir outside, walk_not_dir outside, Option.bind_none]
  · intro left d path inside ih
    rw [List.cons_append, walk_here inside, walk_here inside, ih]
  · intro left d path inside ih
    rw [List.cons_append, walk_up inside, walk_up inside, ih]
  · intro left d n path inside absent
    rw [List.cons_append, walk_absent absent, walk_absent absent, Option.bind_none]
  · intro left d n i path inside found plain ih
    rw [List.cons_append, walk_plain inside found plain, walk_plain inside found plain, ih]
  · intro d n i absolute target path inside found node
    rw [List.cons_append, walk_link_zero found node, walk_link_zero found node, Option.bind_none]
  · intro left d n i absolute target path inside found node ih
    rw [List.cons_append, walk_link inside found node, walk_link inside found node, ← ih,
      List.append_assoc]

theorem walk_cons (left d : Nat) (segment : Segment κ) (path : List (Segment κ)) :
    fs.walk left d (segment :: path) =
      (fs.walk left d [segment]).bind fun (i, rest) => fs.walk rest i path :=
  walk_append left d [segment] path

/-- Where a path leads to a directory, segments that are no names count for nothing. -/
theorem walk_names (isDir : fs.isDir i = true) (left d : Nat) (path : List (Segment κ)) :
    fs.walk left d (path.filter (· ≠ .here)) = some (i, rest) ↔
      fs.walk left d path = some (i, rest) := by
  induction path generalizing left d with
  | nil => rfl
  | cons segment path ih =>
    by_cases here : segment = .here
    · subst here
      rw [List.filter_cons_of_neg (by simp)]
      cases inside : fs.isDir d with
      | true => rw [walk_here inside, ih]
      | false =>
        rw [walk_not_dir inside]
        refine ⟨fun reached => ?_, nofun⟩
        cases names : path.filter (· ≠ .here) with
        | nil =>
          rw [names, walk_nil] at reached
          cases reached
          rw [isDir] at inside
          cases inside
        | cons segment more =>
          rw [names, walk_not_dir inside] at reached
          cases reached
    · rw [List.filter_cons_of_pos (by simpa using here), walk_cons left d segment path,
        walk_cons left d segment (path.filter _)]
      cases fs.walk left d [segment] with
      | none => rfl
      | some reached => exact ih reached.2 reached.1

/-! ### Trees -/

/-- The directories in a tree, its top among them. -/
abbrev Below (fs : Links κ) (top : Nat) : Nat → Prop :=
  Relation.ReflTransGen (fun d i => fs.isDir i = true ∧ ∃ n, fs.entry d n = some i) top

/-- A link in a directory leads to a directory, with so many links left. -/
def LeadsTo (fs : Links κ) (left d : Nat) (n : κ) (i : Nat) : Prop :=
  (∃ j absolute target, fs.entry d n = some j ∧ fs.node j = .link absolute target) ∧
    fs.isDir i = true ∧ ∃ rest, fs.walk left d [.name n] = some (i, rest)

/-- The links met by names from a directory lead to no directory outside. -/
def Sealed (fs : Links κ) (inside : Nat → Prop) (left top : Nat) : Prop :=
  ∀ names : List κ, ∀ d rest n i, fs.walk left top (names.map .name) = some (d, rest) →
    fs.LeadsTo rest d n i → inside i

variable {top : Nat} {inside : Nat → Prop}

/-- The names of a path that leads somewhere stand in directories. -/
theorem entries_of_walk {names : List κ} (reached : fs.walk left d (names.map .name) = some (i, rest)) :
    ∀ n ∈ names, ∃ a b, fs.entry a n = some b := by
  induction names generalizing left d with
  | nil => exact nofun
  | cons m names ih =>
    rw [List.map_cons, walk_cons] at reached
    obtain ⟨⟨j, kept⟩, first, reached⟩ := Option.bind_eq_some_iff.mp reached
    intro n member
    rcases List.mem_cons.mp member with new | old
    · subst new
      cases found : fs.entry d n with
      | some b => exact ⟨d, b, found⟩
      | none =>
        rw [walk_absent found] at first
        cases first
    · exact ih reached n old

/-- A path that does not go up stays inside, where nothing leads out. -/
theorem Sealed.walk (tight : fs.Sealed inside left top)
    (closed : ∀ d n i, inside d → fs.entry d n = some i → fs.isDir i = true → inside i)
    {path : List (Segment κ)} (down : .up ∉ path) {names : List κ}
    (here : fs.walk left top (names.map .name) = some (d, left')) (within : inside d)
    (reached : fs.walk left' d path = some (i, rest)) (isDir : fs.isDir i = true) : inside i := by
  induction path generalizing d left' names with
  | nil =>
    rw [walk_nil] at reached
    cases reached
    exact within
  | cons segment path ih =>
    have deeper : .up ∉ path := fun member => down (List.mem_cons_of_mem _ member)
    rw [walk_cons] at reached
    obtain ⟨⟨j, kept⟩, first, onward⟩ := Option.bind_eq_some_iff.mp reached
    dsimp only at onward
    have dir : fs.isDir j = true := by
      cases path with
      | nil =>
        rw [walk_nil] at onward
        cases onward
        exact isDir
      | cons segment path =>
        by_contra outside
        rw [walk_not_dir (Bool.eq_false_iff.mpr outside)] at onward
        cases onward
    have open' : fs.isDir d = true := by
      by_contra outside
      rw [walk_not_dir (Bool.eq_false_iff.mpr outside)] at first
      cases first
    cases segment with
    | up => exact absurd (List.mem_cons_self ..) down
    | here =>
      rw [walk_here open', walk_nil] at first
      cases first
      exact ih deeper here within onward
    | name n =>
      have longer : fs.walk left top ((names ++ [n]).map .name) = some (j, kept) := by
        rw [List.map_append, walk_append, here]
        exact first
      refine ih deeper longer ?_ onward
      cases found : fs.entry d n with
      | none =>
        rw [walk_absent found] at first
        cases first
      | some b =>
        cases node : fs.node b with
        | link absolute target =>
          exact tight names d left' n j here ⟨⟨b, absolute, target, found, node⟩, dir, kept, first⟩
        | dir entries =>
          rw [walk_plain open' found (by simp [node]), walk_nil] at first
          cases first
          exact closed d n _ within found dir
        | file =>
          rw [walk_plain open' found (by simp [node]), walk_nil] at first
          cases first
          exact closed d n _ within found dir

/-- Where a path from the top leads is inside, where nothing leads out. -/
theorem Sealed.locate (tight : fs.Sealed inside left top)
    (closed : ∀ d n i, inside d → fs.entry d n = some i → fs.isDir i = true → inside i)
    (within : inside top) {path : List (Segment κ)} (down : .up ∉ path) {place : Place κ}
    (found : fs.locate left top path = some place) : inside place.dir := by
  unfold Links.locate at found
  split at found
  · cases found
  · next last ends =>
    split at found
    · cases found
    · next i rest reached =>
      split at found
      · next isDir =>
        have deeper : .up ∉ path.dropLast := fun member => down (List.dropLast_subset _ member)
        have here : fs.walk left top (([] : List κ).map .name) = some (top, left) := walk_nil ..
        have below : inside i := tight.walk closed deeper here within reached isDir
        cases last with
        | up =>
          have member : .up ∈ path := List.mem_of_getLast? ends
          exact absurd member down
        | here =>
          cases found
          exact below
        | name n =>
          dsimp only at found
          split at found
          · cases found
            exact below
          · cases found
      · cases found

/-- Where something leads out, a path of names with an empty segment at its end gets there. -/
theorem exists_locate_outside (open' : ¬fs.Sealed inside left top) :
    ∃ names : List κ, ∃ i, names ≠ [] ∧ (∀ n ∈ names, ∃ a b, fs.entry a n = some b) ∧
      fs.locate left top (names.map .name ++ [.here]) = some ⟨i, none⟩ ∧ fs.isDir i = true ∧
      ¬inside i := by
  simp only [Sealed, not_forall] at open'
  obtain ⟨names, d, rest, n, i, walked, ⟨_, isDir, kept, reached⟩, out⟩ := open'
  have whole : fs.walk left top ((names ++ [n]).map .name) = some (i, kept) := by
    rw [List.map_append, walk_append, walked]
    exact reached
  refine ⟨names ++ [n], i, by simp, entries_of_walk whole, ?_, isDir, out⟩
  rw [Links.locate, List.getLast?_append, List.dropLast_concat]
  dsimp only [List.getLast?_singleton, Option.or_some]
  rw [whole]
  simp [isDir]

/-! ### Places -/

/-- Of a path in two parts the first is followed. -/
theorem locate_append (left d : Nat) (a : List (Segment κ)) {b : List (Segment κ)} (more : b ≠ []) :
    fs.locate left d (a ++ b) = (fs.walk left d a).bind fun (i, rest) => fs.locate rest i b := by
  obtain ⟨front, last, rfl⟩ : ∃ front last, b = front ++ [last] :=
    ⟨_, _, (List.dropLast_append_getLast more).symm⟩
  have split : (a ++ (front ++ [last])).dropLast = a ++ front := by
    rw [← List.append_assoc, List.dropLast_concat]
  have ends : (a ++ (front ++ [last])).getLast? = some last := by
    rw [← List.append_assoc, List.getLast?_concat]
  simp only [locate, split, ends, walk_append]
  cases fs.walk left d a with
  | none => rfl
  | some reached =>
    dsimp only [Option.bind_some]
    rw [List.getLast?_concat, List.dropLast_concat]

/-- What a path leads to is followed to, where it is a directory. -/
theorem walk_of_locate {path : List (Segment κ)} {place : Place κ}
    (found : fs.locate left d path = some place) (node : place.node fs = some i)
    (isDir : fs.isDir i = true) : ∃ rest, fs.walk left d path = some (i, rest) := by
  unfold locate at found
  split at found
  · cases found
  · next last ends =>
    obtain ⟨front, rfl⟩ := List.getLast?_eq_some_iff.mp ends
    rw [List.dropLast_concat] at found
    split at found
    · cases found
    · next j rest reached =>
      split at found
      · next open' =>
        refine ⟨rest, ?_⟩
        rw [walk_append, reached, Option.bind_some]
        cases last with
        | here =>
          cases found
          cases node
          exact (walk_here open' ..).trans (walk_nil ..)
        | up =>
          cases found
          cases node
          exact (walk_up open' ..).trans (walk_nil ..)
        | name n =>
          dsimp only at found
          split at found
          · cases found
            have plain : ∀ absolute target, fs.node i ≠ .link absolute target := by
              intro absolute target link
              simp [Links.isDir, link] at isDir
            exact (walk_plain open' node plain ..).trans (walk_nil ..)
          · cases found
      · cases found

/-- A path that ends in a name leads to an entry called so. -/
theorem name_of_locate {path : List (Segment κ)} {place : Place κ}
    (found : fs.locate left d (path ++ [.name n]) = some place) : place.name = some n := by
  rw [locate, List.getLast?_concat] at found
  dsimp only at found
  split at found
  · cases found
  · split at found
    · split at found
      · cases found
        rfl
      · cases found
    · cases found

/-- Where a name leads, segments before it that are no names count for nothing. -/
theorem locate_names (left d : Nat) (path : List (Segment κ)) (n : κ) :
    fs.locate left d (path.filter (· ≠ .here) ++ [.name n]) =
      fs.locate left d (path ++ [.name n]) := by
  simp only [locate, List.getLast?_concat, List.dropLast_concat]
  cases plain : fs.walk left d path with
  | some reached =>
    by_cases isDir : fs.isDir reached.1 = true
    · rw [(walk_names isDir left d path).mpr plain]
    · cases short : fs.walk left d (path.filter (· ≠ .here)) with
      | none => simp [isDir]
      | some other =>
        by_cases otherDir : fs.isDir other.1 = true
        · rw [(walk_names otherDir left d path).mp short] at plain
          cases plain
          exact absurd otherDir isDir
        · simp [isDir, otherDir]
  | none =>
    cases short : fs.walk left d (path.filter (· ≠ .here)) with
    | none => rfl
    | some other =>
      by_cases otherDir : fs.isDir other.1 = true
      · rw [(walk_names otherDir left d path).mp short] at plain
        cases plain
      · simp [otherDir]

end Links
end Yazi.Base
