import Yazi.Shared.Numeral
import Yazi.Shared.Shell

/-!
Putting file names into a command line.

A placeholder of the template names files of a tab, or the yanked ones. Their names are quoted, so
the shell takes each as one word.
-/
namespace Yazi.Fs
open Yazi.Shared

/-- The names of a file, and what its parents have for them. -/
structure Names (N : Type) where
  osStr : N
  contentPath : N
  parentOsStr : Option N
  contentParent : Option N

/-- The trait of what is named. -/
structure Splatable (N : Type) where
  tab : Nat
  selected : Nat → Option Nat → List (Names N)
  hovered : Nat → Option (Names N)
  yanked : Option Nat → List (Names N)

namespace Splatter

variable (src : Splatable Bytes)

def cue (s : Bytes) : Bytes := Shell.escapeOsBytes s

def accumulate (sum : Nat) : Bytes → Option Nat × Bytes
  | [] => (some sum, [])
  | b :: it =>
    if Decimal.isDigit b then
      if sum * 10 + (b.toNat - 0x30) < 2 ^ 64 then accumulate (sum * 10 + (b.toNat - 0x30)) it
      else (none, it)
    else (some sum, b :: it)

/-- `none` also where the number is too large; then its last digits are left. -/
def consumeDigit : Bytes → Option Nat × Bytes
  | [] => (none, [])
  | b :: it => if Decimal.isDigit b then accumulate (b.toNat - 0x30) it else (none, b :: it)

/-- The loop that `visit_selected`, `visit_dirname` and `visit_yanked` share. -/
def visitFiles (files : Option Nat → List (Names Bytes)) (name : Names Bytes → Bytes) (it : Bytes) :
    Bytes × Bytes :=
  let (idx, rest) := consumeDigit it
  match files idx with
  | [] => (if idx.isSome then cue [] else [], rest)
  | first :: others => ([0x20].intercalate ((first :: others).map fun file => cue (name file)), rest)

def visitSelected (tab : Nat) (upper : Bool) (it : Bytes) : Bytes × Bytes :=
  visitFiles (src.selected tab) (fun file => if upper then file.osStr else file.contentPath) it

def visitHovered (tab : Nat) (upper : Bool) (it : Bytes) : Bytes × Bytes :=
  let name (file : Names Bytes) := if upper then file.osStr else file.contentPath
  (cue (((src.hovered tab).map name).getD []), it)

def visitDirname (tab : Nat) (upper : Bool) (it : Bytes) : Bytes × Bytes :=
  visitFiles (src.selected tab)
    (fun file => (if upper then file.parentOsStr else file.contentParent).getD []) it

def visitYanked (upper : Bool) (it : Bytes) : Bytes × Bytes :=
  visitFiles src.yanked (fun file => if upper then file.osStr else file.contentPath) it

/-- `usize::saturating_add` of one. -/
def tabUp (tab : Nat) : Nat := min (tab + 1) (2 ^ 64 - 1)

/-- After a `%`: what is written for it, and what is left of the template. -/
def visit : Nat → Bytes → Bytes × Bytes
  | _, [] => ([0x25], [])
  | tab, c :: it =>
    if c = 0x73 ∨ c = 0x53 then visitSelected src tab (c = 0x53) it
    else if c = 0x68 ∨ c = 0x48 then visitHovered src tab (c = 0x48) it
    else if c = 0x64 ∨ c = 0x44 then visitDirname src tab (c = 0x44) it
    else if c = 0x74 then visit (tabUp tab) it
    else if c = 0x54 then visit (tab - 1) it
    else if c = 0x79 ∨ c = 0x59 then visitYanked src (c = 0x59) it
    else if c = 0x25 then ([c], it)
    else ([0x25, c], it)

theorem accumulate_length (sum : Nat) (it : Bytes) : (accumulate sum it).2.length ≤ it.length := by
  induction it generalizing sum with
  | nil => exact Nat.le_refl _
  | cons b it ih =>
    rw [accumulate]
    split
    · split
      · exact Nat.le_succ_of_le (ih _)
      · exact Nat.le_succ _
    · exact Nat.le_refl _

theorem visitFiles_length (files : Option Nat → List (Names Bytes)) (name : Names Bytes → Bytes)
    (it : Bytes) : (visitFiles files name it).2.length ≤ it.length := by
  have consumed : (consumeDigit it).2.length ≤ it.length := by
    cases it with
    | nil => exact Nat.le_refl _
    | cons b it =>
      rw [consumeDigit]
      split
      · exact Nat.le_succ_of_le (accumulate_length _ _)
      · exact Nat.le_refl _
  rw [visitFiles]
  dsimp only
  split <;> exact consumed

theorem visit_length (tab : Nat) (it : Bytes) : (visit src tab it).2.length ≤ it.length := by
  induction it generalizing tab with
  | nil => exact Nat.le_refl _
  | cons c it ih =>
    rw [visit]
    refine Nat.le_trans ?_ (Nat.le_succ it.length)
    split
    · exact visitFiles_length _ _ it
    · split
      · exact Nat.le_refl _
      · split
        · exact visitFiles_length _ _ it
        · split
          · exact ih _
          · split
            · exact ih _
            · split
              · exact visitFiles_length _ _ it
              · split <;> exact Nat.le_refl _

def splat : Bytes → Bytes
  | [] => []
  | cur :: it =>
    if cur = 0x25 ∧ it ≠ [] then (visit src src.tab it).1 ++ splat (visit src src.tab it).2
    else cur :: splat it
termination_by it => it.length
decreasing_by
  · exact Nat.lt_succ_of_le (visit_length ..)
  · exact Nat.lt_succ_self _

end Splatter

/-! ### The files of the manager -/

structure TabSnap (N : Type) where
  selected : List (Names N)
  hovered : Option (Names N)

structure MgrSnap (N : Type) where
  tab : Nat
  tabs : List (TabSnap N)
  yanked : List (Names N)

namespace MgrSnap

variable {N : Type} (s : MgrSnap N)

/-- `skip` and `take`, for an index from one on. -/
def pick {α : Type} (idx : Option Nat) (files : List α) : List α :=
  match idx.bind fun i => if i = 0 then none else some (i - 1) with
  | none => files
  | some i => (files.drop i).take 1

/-- Tabs are counted from one. -/
def tabAt (tab : Nat) : Option (TabSnap N) := if tab = 0 then none else s.tabs[tab - 1]?

def chosen (tab : Nat) : List (Names N) :=
  match s.tabAt tab with
  | none => []
  | some t => if t.selected.isEmpty then t.hovered.toList else t.selected

def splatable : Splatable N where
  tab := s.tab + 1
  selected tab idx := pick idx (s.chosen tab)
  hovered tab := (s.tabAt tab).bind TabSnap.hovered
  yanked idx := pick idx s.yanked

end MgrSnap

/-! ### Names that are texts -/

def Names.map {N M : Type} (f : N → M) (names : Names N) : Names M :=
  ⟨f names.osStr, f names.contentPath, names.parentOsStr.map f, names.contentParent.map f⟩

def TabSnap.map {N M : Type} (f : N → M) (t : TabSnap N) : TabSnap M :=
  ⟨t.selected.map (Names.map f), t.hovered.map (Names.map f)⟩

def MgrSnap.map {N M : Type} (f : N → M) (s : MgrSnap N) : MgrSnap M :=
  ⟨s.tab, s.tabs.map (TabSnap.map f), s.yanked.map (Names.map f)⟩

/-! ### Templates -/

inductive Listed where
  | selected
  | dirname
  | yanked
  deriving DecidableEq, Repr

/-- A part of a template: a word that stands for itself, or a placeholder in the tab that is reached
by going up (`true`) and down. -/
inductive Item where
  | word (w : List Char)
  | listed (tabs : List Bool) (kind : Listed) (upper : Bool) (digits : Bytes)
  | hovered (tabs : List Bool) (upper : Bool)
  deriving DecidableEq, Repr

namespace Item

def letter : Listed → Bool → UInt8
  | .selected, upper => if upper then 0x53 else 0x73
  | .dirname, upper => if upper then 0x44 else 0x64
  | .yanked, upper => if upper then 0x59 else 0x79

/-- A `%` is doubled. -/
def double (b : Bytes) : Bytes := b.flatMap fun c => if c = 0x25 then [c, c] else [c]

def shifts (tabs : List Bool) : Bytes := tabs.map fun up => if up then 0x74 else 0x54

def write : Item → Bytes
  | word w => double (Shell.escapeOsBytes (Shell.utf8 w))
  | listed tabs kind upper digits => 0x25 :: shifts tabs ++ letter kind upper :: digits
  | hovered tabs upper => 0x25 :: shifts tabs ++ [if upper then 0x48 else 0x68]

def value (digits : Bytes) : Nat := digits.foldl (fun n d => n * 10 + (d.toNat - 0x30)) 0

/-- What is written as an index is one, and a `usize`. -/
def Sound : Item → Prop
  | listed _ _ _ digits => (∀ b ∈ digits, Decimal.isDigit b = true) ∧ value digits < 2 ^ 64
  | _ => True

def shiftTab (tab : Nat) (tabs : List Bool) : Nat :=
  tabs.foldl (fun tab up => if up then Splatter.tabUp tab else tab - 1) tab

def files {N : Type} (s : MgrSnap N) (tab : Nat) : Listed → List (Names N)
  | .selected | .dirname => s.chosen tab
  | .yanked => s.yanked

def nameOf {N : Type} (default : N) (kind : Listed) (upper : Bool) (file : Names N) : N :=
  match kind with
  | .selected | .yanked => if upper then file.osStr else file.contentPath
  | .dirname => (if upper then file.parentOsStr else file.contentParent).getD default

/-- What an index of a placeholder leaves of the names: one from one on is that of one file, and
nothing is an empty word. -/
def indexed {N : Type} (default : N) (names : List N) : Option Nat → List N
  | none => names
  | some 0 => if names.isEmpty then [default] else names
  | some (n + 1) => [names[n]?.getD default]

def index (digits : Bytes) : Option Nat := if digits = [] then none else some (value digits)

/-- The words that a part stands for. -/
def args {N : Type} (default : N) (text : List Char → N) (s : MgrSnap N) : Item → List N
  | word w => [text w]
  | listed tabs kind upper digits =>
    let names := (files s (shiftTab (s.tab + 1) tabs) kind).map (nameOf default kind upper)
    indexed default names (index digits)
  | hovered tabs upper =>
    let file := (s.tabAt (shiftTab (s.tab + 1) tabs)).bind TabSnap.hovered
    [(file.map fun file => if upper then file.osStr else file.contentPath).getD default]

end Item

/-! ### What is written for a template -/

namespace Splatter

/-- No digit follows. -/
def Ends (rest : Bytes) : Prop := ∀ b ∈ rest.head?, Decimal.isDigit b = false

theorem accumulate_digits {digits rest : Bytes} (ends : Ends rest)
    (all : ∀ b ∈ digits, Decimal.isDigit b = true) {n : Nat}
    (fits : digits.foldl (fun n d => n * 10 + (d.toNat - 0x30)) n < 2 ^ 64) :
    accumulate n (digits ++ rest) =
      (some (digits.foldl (fun n d => n * 10 + (d.toNat - 0x30)) n), rest) := by
  have grows (digits : Bytes) (n : Nat) :
      n ≤ digits.foldl (fun n d => n * 10 + (d.toNat - 0x30)) n := by
    induction digits generalizing n with
    | nil => exact Nat.le_refl _
    | cons d digits ih =>
      have step : n ≤ n * 10 + (d.toNat - 0x30) := by omega
      exact Nat.le_trans step (ih _)
  induction digits generalizing n with
  | nil =>
    cases rest with
    | nil => rfl
    | cons b rest =>
      have other := ends b rfl
      rw [List.nil_append, accumulate, if_neg (by rw [other]; exact Bool.false_ne_true)]
      rfl
  | cons d digits ih =>
    obtain ⟨digit, others⟩ := List.forall_mem_cons.mp all
    rw [List.cons_append, accumulate, if_pos digit, if_pos (Nat.lt_of_le_of_lt (grows digits _) fits),
      ih others fits]
    rfl

theorem consumeDigit_digits {digits rest : Bytes} (ends : Ends rest)
    (all : ∀ b ∈ digits, Decimal.isDigit b = true) (fits : Item.value digits < 2 ^ 64) :
    consumeDigit (digits ++ rest) = (Item.index digits, rest) := by
  cases digits with
  | nil =>
    cases rest with
    | nil => rfl
    | cons b rest =>
      have other := ends b rfl
      rw [List.nil_append, consumeDigit, if_neg (by rw [other]; exact Bool.false_ne_true)]
      rfl
  | cons d digits =>
    obtain ⟨digit, others⟩ := List.forall_mem_cons.mp all
    have first : 0 * 10 + (d.toNat - 0x30) = d.toNat - 0x30 := by rw [Nat.zero_mul, Nat.zero_add]
    rw [Item.value, List.foldl_cons, first] at fits
    rw [List.cons_append, consumeDigit, if_pos digit, accumulate_digits ends others fits,
      Item.index, if_neg (List.cons_ne_nil _ _), Item.value, List.foldl_cons, first]

variable {N : Type} {src : Splatable Bytes}

theorem visit_shifts (tabs : List Bool) (tab : Nat) (it : Bytes) :
    visit src tab (Item.shifts tabs ++ it) = visit src (Item.shiftTab tab tabs) it := by
  induction tabs generalizing tab with
  | nil => rfl
  | cons up tabs ih =>
    rw [Item.shifts, List.map_cons, List.cons_append, ← Item.shifts]
    cases up with
    | true =>
      rw [Item.shiftTab, List.foldl_cons, ← Item.shiftTab, if_pos rfl, if_pos rfl, ← ih]
      rfl
    | false =>
      rw [Item.shiftTab, List.foldl_cons, ← Item.shiftTab, if_neg Bool.false_ne_true,
        if_neg Bool.false_ne_true, ← ih]
      rfl

theorem indexed_eq (default : N) (names : List N) (idx : Option Nat) :
    Item.indexed default names idx =
      if MgrSnap.pick idx names = [] then if idx.isSome then [default] else []
      else MgrSnap.pick idx names := by
  cases idx with
  | none =>
    simp only [Item.indexed, MgrSnap.pick, Option.bind_none, Option.isSome_none,
      Bool.false_eq_true, if_false]
    by_cases empty : names = []
    · rw [if_pos empty, empty]
    · rw [if_neg empty]
  | some n =>
    cases n with
    | zero =>
      simp only [Item.indexed, MgrSnap.pick, Option.bind_some, if_true, List.isEmpty_iff,
        Option.isSome_some]
    | succ n =>
      simp only [Item.indexed, MgrSnap.pick, Option.bind_some, Nat.succ_ne_zero, if_false,
        Nat.add_sub_cancel, Option.isSome_some, if_true]
      cases found : names[n]? with
      | none =>
        rw [List.drop_eq_nil_of_le (List.getElem?_eq_none_iff.mp found)]
        rfl
      | some name =>
        obtain ⟨inside, rfl⟩ := List.getElem?_eq_some_iff.mp found
        rw [List.drop_eq_getElem_cons inside]
        rfl

theorem pick_map {M : Type} (f : N → M) (idx : Option Nat) (files : List N) :
    MgrSnap.pick idx (files.map f) = (MgrSnap.pick idx files).map f := by
  rw [MgrSnap.pick, MgrSnap.pick]
  split
  · rfl
  · rw [List.map_take, List.map_drop]

/-- The names of the files, quoted, as those that the index leaves. -/
theorem visitFiles_texts {files : List (Names (List Char))} {name : Names Bytes → Bytes}
    {textOf : Names (List Char) → List Char}
    (same : ∀ file, name (file.map Shell.utf8) = Shell.utf8 (textOf file)) {digits rest : Bytes}
    (ends : Ends rest) (all : ∀ b ∈ digits, Decimal.isDigit b = true)
    (fits : Item.value digits < 2 ^ 64) :
    visitFiles (fun idx => MgrSnap.pick idx (files.map (Names.map Shell.utf8))) name
        (digits ++ rest) =
      (Shell.utf8 (Shell.line (Item.indexed [] (files.map textOf) (Item.index digits))), rest) := by
  rw [visitFiles, consumeDigit_digits ends all fits]
  dsimp only
  rw [indexed_eq, pick_map, pick_map]
  simp only [List.map_eq_nil_iff]
  generalize MgrSnap.pick (Item.index digits) files = picked
  cases picked with
  | nil =>
    rw [if_pos rfl]
    cases (Item.index digits).isSome <;> rfl
  | cons first others =>
    rw [if_neg (List.cons_ne_nil _ _), Shell.utf8_line, List.map_map, List.map_cons]
    dsimp only
    rw [← List.map_cons, List.map_map]
    refine congrArg (fun names => ([0x20].intercalate names, rest)) (List.map_congr_left ?_)
    intro file _
    exact congrArg Shell.escapeOsBytes (same file)

theorem tabAt_map {M : Type} (f : N → M) (s : MgrSnap N) (tab : Nat) :
    (s.map f).tabAt tab = (s.tabAt tab).map (TabSnap.map f) := by
  rw [MgrSnap.tabAt, MgrSnap.tabAt]
  split
  · rfl
  · exact List.getElem?_map

theorem chosen_map {M : Type} (f : N → M) (s : MgrSnap N) (tab : Nat) :
    (s.map f).chosen tab = (s.chosen tab).map (Names.map f) := by
  rw [MgrSnap.chosen, MgrSnap.chosen, tabAt_map]
  cases s.tabAt tab with
  | none => rfl
  | some t =>
    simp only [Option.map_some, TabSnap.map, List.isEmpty_map]
    split
    · cases t.hovered <;> rfl
    · rfl

theorem nameOf_map (f : List Char → Bytes) (empty : f [] = []) (kind : Listed) (upper : Bool)
    (file : Names (List Char)) :
    Item.nameOf [] kind upper (file.map f) = f (Item.nameOf [] kind upper file) := by
  have parent (name : Option (List Char)) : (name.map f).getD [] = f (name.getD []) := by
    cases name with
    | none => exact empty.symm
    | some name => rfl
  cases kind with
  | selected => cases upper <;> rfl
  | yanked => cases upper <;> rfl
  | dirname => cases upper <;> exact parent _

theorem visit_letter (s : MgrSnap Bytes) (tab : Nat) (kind : Listed) (upper : Bool) (it : Bytes) :
    visit s.splatable tab (Item.letter kind upper :: it) =
      visitFiles (fun idx => MgrSnap.pick idx (Item.files s tab kind)) (Item.nameOf [] kind upper)
        it := by
  cases kind <;> cases upper <;> rfl

/-- A doubled `%` is written once. -/
theorem splat_double (b rest : Bytes) : splat src (Item.double b ++ rest) = b ++ splat src rest := by
  induction b with
  | nil => rfl
  | cons c b ih =>
    rw [Item.double, List.flatMap_cons, ← Item.double]
    split
    · next percent =>
      subst percent
      rw [List.append_assoc, List.cons_append, splat, if_pos ⟨rfl, List.cons_ne_nil _ _⟩]
      exact congrArg _ ih
    · next other =>
      rw [List.append_assoc, List.cons_append, List.nil_append, splat, if_neg fun h => other h.1, ih]
      rfl

/-- A part of a template, with no digit after it, is written as its quoted words. -/
theorem splat_item (s : MgrSnap (List Char)) {item : Item} (sound : item.Sound) {rest : Bytes}
    (ends : Ends rest) :
    splat (s.map Shell.utf8).splatable (item.write ++ rest) =
      Shell.utf8 (Shell.line (item.args [] id s)) ++ splat (s.map Shell.utf8).splatable rest := by
  cases item with
  | word w =>
    rw [Item.write, splat_double, Item.args, id, Shell.line_singleton, Shell.escape_encoded]
  | listed tabs kind upper digits =>
    obtain ⟨all, fits⟩ := sound
    have files : Item.files (s.map Shell.utf8) (Item.shiftTab (s.tab + 1) tabs) kind =
        (Item.files s (Item.shiftTab (s.tab + 1) tabs) kind).map (Names.map Shell.utf8) := by
      cases kind with
      | selected => exact chosen_map ..
      | dirname => exact chosen_map ..
      | yanked => rfl
    have visited : visit (s.map Shell.utf8).splatable (s.tab + 1)
        (Item.shifts tabs ++ Item.letter kind upper :: (digits ++ rest)) =
        (Shell.utf8 (Shell.line (Item.args [] id s (.listed tabs kind upper digits))), rest) := by
      rw [visit_shifts, visit_letter, files,
        visitFiles_texts (nameOf_map Shell.utf8 rfl kind upper) ends all fits]
      rfl
    have written : Item.write (.listed tabs kind upper digits) ++ rest =
        0x25 :: (Item.shifts tabs ++ Item.letter kind upper :: (digits ++ rest)) := by
      rw [Item.write, List.append_assoc, List.cons_append, List.cons_append]
    rw [written, splat, if_pos ⟨rfl, by simp⟩]
    exact congrArg (fun visited : Bytes × Bytes => visited.1 ++ splat _ visited.2) visited
  | hovered tabs upper =>
    have visited : visit (s.map Shell.utf8).splatable (s.tab + 1)
        (Item.shifts tabs ++ (if upper then 0x48 else 0x68) :: rest) =
        (Shell.utf8 (Shell.line (Item.args [] id s (.hovered tabs upper))), rest) := by
      have letter (tab : Nat) : visit (s.map Shell.utf8).splatable tab
          ((if upper then 0x48 else 0x68) :: rest) =
          visitHovered (s.map Shell.utf8).splatable tab upper rest := by cases upper <;> rfl
      have file : (s.map Shell.utf8).splatable.hovered (Item.shiftTab (s.tab + 1) tabs) =
          ((s.tabAt (Item.shiftTab (s.tab + 1) tabs)).bind TabSnap.hovered).map
            (Names.map Shell.utf8) := by
        have there := tabAt_map Shell.utf8 s (Item.shiftTab (s.tab + 1) tabs)
        refine (congrArg (fun t : Option (TabSnap Bytes) => t.bind TabSnap.hovered) there).trans ?_
        cases s.tabAt (Item.shiftTab (s.tab + 1) tabs) <;> rfl
      rw [visit_shifts, letter, visitHovered, file, Item.args, Shell.line_singleton,
        ← Shell.escape_encoded]
      cases (s.tabAt (Item.shiftTab (s.tab + 1) tabs)).bind TabSnap.hovered with
      | none => rfl
      | some file => cases upper <;> rfl
    have written : Item.write (.hovered tabs upper) ++ rest =
        0x25 :: (Item.shifts tabs ++ (if upper then 0x48 else 0x68) :: rest) := by
      rw [Item.write, List.append_assoc, List.cons_append]
      rfl
    rw [written, splat, if_pos ⟨rfl, by simp⟩]
    exact congrArg (fun visited : Bytes × Bytes => visited.1 ++ splat _ visited.2) visited

theorem splat_items (s : MgrSnap (List Char)) {items : List Item}
    (sound : ∀ item ∈ items, item.Sound) :
    splat (s.map Shell.utf8).splatable ([0x20].intercalate (items.map Item.write)) =
      Shell.utf8 ([' '].intercalate (items.map fun item => Shell.line (item.args [] id s))) := by
  have done : splat (s.map Shell.utf8).splatable [] = [] := by rw [splat]
  induction items with
  | nil => exact done
  | cons item items ih =>
    obtain ⟨here, others⟩ := List.forall_mem_cons.mp sound
    cases items with
    | nil =>
      have ends : Ends [] := fun b none => absurd none (Option.not_mem_none b)
      simp only [List.map_cons, List.map_nil, List.intercalate_singleton]
      rw [← List.append_nil item.write, splat_item s here ends, done, List.append_nil]
    | cons next items =>
      simp only [List.map_cons, List.intercalate_cons_cons, List.append_assoc] at ih ⊢
      have ends (rest : Bytes) : Ends ([0x20] ++ rest) := by
        intro b first
        obtain rfl : 0x20 = b := Option.some_inj.mp first
        rfl
      have blank (rest : Bytes) :
          splat (s.map Shell.utf8).splatable ([0x20] ++ rest) =
            0x20 :: splat (s.map Shell.utf8).splatable rest := by
        rw [List.singleton_append, splat, if_neg fun h => absurd h.1 (by decide)]
      have joined (a b : List Char) :
          Shell.utf8 (a ++ ([' '] ++ b)) = Shell.utf8 a ++ 0x20 :: Shell.utf8 b := by
        rw [Shell.utf8, List.flatMap_append, List.flatMap_append]
        rfl
      rw [splat_item s here (ends _), blank, ih others, joined]

/-- Whatever the files are named, splitting what is written for a template gives the words that its
parts stand for: a name is never split, and nothing in it is special. -/
theorem splat_words (s : MgrSnap (List Char)) {items : List Item}
    (sound : ∀ item ∈ items, item.Sound) :
    ∃ command : List Char,
      splat (s.map Shell.utf8).splatable ([0x20].intercalate (items.map Item.write)) =
          Shell.utf8 command ∧
        Shell.split command false = .ok (items.flatMap (Item.args [] id s), none) := by
  refine ⟨_, splat_items s sound, ?_⟩
  have split := Shell.splitFrom_lines [] (items.map (Item.args [] id s))
  rw [List.map_map, List.nil_append, ← List.flatMap_def] at split
  exact split

private def sampleSnap : MgrSnap (List Char) :=
  let file (name : List Char) : Names (List Char) := ⟨name, name, some [' '], none⟩
  ⟨0, [⟨[file ['%', 's'], file ['\'']], none⟩, ⟨[], some (file ['a', ' ', 'b'])⟩], []⟩

private def sampleItems : List Item :=
  [.word ['%'], .listed [] .selected false [], .listed [true] .dirname true [0x31],
    .listed [] .yanked true [0x39], .hovered [true, false] false]

theorem splat_words_sample :
    ∃ command : List Char,
      splat (sampleSnap.map Shell.utf8).splatable
          ([0x20].intercalate (sampleItems.map Item.write)) = Shell.utf8 command ∧
        Shell.split command false =
          .ok ([['%'], ['%', 's'], ['\''], [' '], [], []], none) := by
  have sound : ∀ item ∈ sampleItems, item.Sound := by
    simp [sampleItems, Item.Sound]
    decide
  exact splat_words sampleSnap sound

end Splatter

end Yazi.Fs
