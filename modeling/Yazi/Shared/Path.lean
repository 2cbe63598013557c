import Mathlib.Data.List.DropRight
import Mathlib.Data.List.Infix

/-!
Unix paths as bytes: the standard library's `Path` and `typed_path::UnixPath`.

Both read a path as components. Repeated separators and inner `.` segments count for
nothing, so two spellings of a path may have the same components.
-/
namespace Yazi.Shared

abbrev Bytes := List UInt8

/-- The bytes of a text. -/
def text (s : String) : Bytes := s.toUTF8.data.toList

namespace Path

def slash : UInt8 := 0x2f

def dot : UInt8 := 0x2e

inductive Component where
  | rootDir
  | curDir
  | parentDir
  | normal (name : Bytes)
  deriving DecidableEq, Repr

/-- `Component::has_auth`. -/
def Component.hasAuth : Component → Bool
  | .normal _ => true
  | .parentDir => true
  | .rootDir | .curDir => false

/-! ### Components -/

def segments (p : Bytes) : List Bytes := p.splitOn slash

/-- The component of a segment that follows a separator. -/
def inner (s : Bytes) : Option Component :=
  if s = [] ∨ s = [dot] then none
  else if s = [dot, dot] then some .parentDir
  else some (.normal s)

/-- The component of the first segment: an empty one stands before a leading separator. -/
def first (s : Bytes) : Component :=
  if s = [] then .rootDir
  else if s = [dot] then .curDir
  else if s = [dot, dot] then .parentDir
  else .normal s

/-- The components of what follows a separator. -/
def body (q : Bytes) : List Component := (segments q).filterMap inner

def components (p : Bytes) : List Component :=
  if p = [] then []
  else match segments p with
    | [] => []
    | s :: rest => first s :: rest.filterMap inner

def hasRoot (p : Bytes) : Bool := p.head? == some slash

/-- `Components::auth_depth`. -/
def authDepth (p : Bytes) : Nat := (components p).countP (·.hasAuth)

theorem segments_append (p q : Bytes) :
    segments (p ++ slash :: q) = segments p ++ segments q :=
  List.splitOn_append_cons_self p q

theorem segments_ne_nil (p : Bytes) : segments p ≠ [] := List.splitOn_ne_nil slash p

theorem segments_of_not_mem {s : Bytes} (clean : slash ∉ s) : segments s = [s] :=
  List.splitOn_eq_singleton clean

theorem body_append (p q : Bytes) : body (p ++ slash :: q) = body p ++ body q := by
  simp only [body, segments_append, List.filterMap_append]

@[simp] theorem body_nil : body [] = [] := rfl

@[simp] theorem body_dot : body [dot] = [] := by decide

theorem body_of_not_mem {s : Bytes} (clean : slash ∉ s) : body s = (inner s).toList := by
  simp only [body, segments_of_not_mem clean, List.filterMap_cons, List.filterMap_nil]
  cases inner s <;> rfl

@[simp] theorem components_nil : components [] = [] := rfl

@[simp] theorem components_slash : components [slash] = [.rootDir] := by decide

theorem components_ne_nil {p : Bytes} (nonempty : p ≠ []) : components p ≠ [] := by
  simp only [components, if_neg nonempty]
  cases h : segments p with
  | nil => exact absurd h (segments_ne_nil p)
  | cons s rest => simp

@[simp] theorem components_eq_nil {p : Bytes} : components p = [] ↔ p = [] := by
  constructor
  · intro none
    by_contra nonempty
    exact components_ne_nil nonempty none
  · rintro rfl
    rfl

theorem components_append {p : Bytes} (nonempty : p ≠ []) (q : Bytes) :
    components (p ++ slash :: q) = components p ++ body q := by
  have whole : p ++ slash :: q ≠ [] := by simp
  simp only [components, if_neg nonempty, if_neg whole, segments_append, body]
  cases h : segments p with
  | nil => exact absurd h (segments_ne_nil p)
  | cons s rest => simp

theorem components_slash_cons (q : Bytes) : components (slash :: q) = .rootDir :: body q := by
  have split : segments (slash :: q) = [] :: segments q := segments_append [] q
  simp [components, split, first, body]

theorem components_of_not_mem {s : Bytes} (nonempty : s ≠ []) (clean : slash ∉ s) :
    components s = [first s] := by
  simp [components, nonempty, segments_of_not_mem clean]

private theorem length_segments (p : Bytes) : (segments p).length ≤ p.length + 1 := by
  induction p with
  | nil => simp [segments]
  | cons b p ih =>
    by_cases separator : b = slash
    · subst separator
      have split : segments (slash :: p) = [] :: segments p := segments_append [] p
      simpa [split] using ih
    · have split : segments (b :: p) = (segments p).modifyHead (b :: ·) := by
        simp [segments, List.splitOn_cons_eq_if_modifyHead, separator]
      rw [split, List.length_modifyHead, List.length_cons]
      omega

/-- A path has hardly more components than bytes. -/
theorem length_components (p : Bytes) : (components p).length ≤ p.length + 1 := by
  refine Nat.le_trans ?_ (length_segments p)
  simp only [components]
  split
  · exact Nat.zero_le _
  · cases segments p with
    | nil => exact Nat.le_refl _
    | cons s rest => exact Nat.succ_le_succ (List.length_filterMap_le _ _)

private theorem inner_ne_rootDir (s : Bytes) : inner s ≠ some .rootDir := by
  simp only [inner]
  split
  · exact nofun
  · split <;> exact nofun

/-- Only the first component can be the root. -/
theorem rootDir_not_mem_tail (p : Bytes) : .rootDir ∉ (components p).tail := by
  simp only [components]
  split
  · exact List.not_mem_nil
  · cases segments p with
    | nil => exact List.not_mem_nil
    | cons s rest =>
      intro member
      obtain ⟨t, -, found⟩ := List.mem_filterMap.mp member
      exact inner_ne_rootDir t found

theorem hasRoot_iff (p : Bytes) : hasRoot p = true ↔ (components p).head? = some .rootDir := by
  cases p with
  | nil => simp [hasRoot]
  | cons b rest =>
    by_cases separator : b = slash
    · subst separator
      simp [hasRoot, components_slash_cons]
    · have split : segments (b :: rest) = (segments rest).modifyHead (b :: ·) := by
        simp [segments, List.splitOn_cons_eq_if_modifyHead, separator]
      cases parts : segments rest with
      | nil => exact absurd parts (segments_ne_nil rest)
      | cons s ss =>
        have proper : first (b :: s) ≠ .rootDir := by
          rw [first, if_neg (List.cons_ne_nil b s)]
          split
          · exact nofun
          · split <;> exact nofun
        simp [hasRoot, separator, components, split, parts, proper]

/-! ### Trimming -/

/-- `trim` on the reversed bytes. -/
def trimRev : Bytes → Bytes
  | [] => []
  | b :: rest =>
    if b = slash then if rest = [] then [slash] else trimRev rest
    else if b = dot ∧ rest.head? = some slash then trimRev rest
    else b :: rest

/-- `Components::as_path`: what follows the last component is dropped. -/
def trim (p : Bytes) : Bytes := (trimRev p.reverse).reverse

private theorem components_trimRev (r : Bytes) :
    components (trimRev r).reverse = components r.reverse := by
  induction r with
  | nil => rfl
  | cons b rest ih =>
    simp only [trimRev]
    split
    · next separator =>
      subst separator
      split
      · next alone => simp [alone]
      · next more =>
        have nonempty : rest.reverse ≠ [] := by simpa using more
        rw [ih, List.reverse_cons, components_append nonempty, body_nil, List.append_nil]
    · split
      · next current =>
        obtain ⟨rfl, before⟩ := current
        cases rest with
        | nil => cases before
        | cons c rest =>
          obtain rfl : c = slash := by simpa using before
          rw [ih]
          simp only [List.reverse_cons, List.append_assoc, List.singleton_append]
          -- A final `.` after a separator is no component, just as nothing is none.
          by_cases root : rest.reverse = []
          · rw [root]
            decide
          · rw [components_append root, components_append root, body_nil, body_dot]
      · rfl

@[simp] theorem components_trim (p : Bytes) : components (trim p) = components p := by
  rw [trim, components_trimRev, List.reverse_reverse]

private theorem trimRev_trimRev (r : Bytes) : trimRev (trimRev r) = trimRev r := by
  induction r with
  | nil => rfl
  | cons b rest ih =>
    by_cases separator : b = slash
    · by_cases alone : rest = []
      · simp [trimRev, separator, alone]
      · simp [trimRev, separator, alone, ih]
    · by_cases current : b = dot ∧ rest.head? = some slash
      · rw [trimRev, if_neg separator, if_pos current, ih]
      · have stop : trimRev (b :: rest) = b :: rest := by
          rw [trimRev, if_neg separator, if_neg current]
        rw [stop, stop]

@[simp] theorem trim_trim (p : Bytes) : trim (trim p) = trim p := by
  simp only [trim, List.reverse_reverse, trimRev_trimRev]

@[simp] theorem trim_nil : trim [] = [] := rfl

theorem trim_eq_nil {p : Bytes} : trim p = [] ↔ p = [] := by
  rw [← components_eq_nil, components_trim, components_eq_nil]

/-! ### Name and parent -/

/-- The bytes up to the last separator, with it. -/
def front (p : Bytes) : Bytes := p.rdropWhile (· != slash)

/-- The bytes after the last separator. -/
def last (p : Bytes) : Bytes := p.rtakeWhile (· != slash)

/-- `Path::file_name`. -/
def name (p : Bytes) : Option Bytes :=
  let s := last (trim p)
  if s = [] ∨ s = [dot] ∨ s = [dot, dot] then none else some s

/-- `Path::extension`: what follows the last dot of the name, unless nothing stands before it. -/
def extension (p : Bytes) : Option Bytes :=
  match name p with
  | none => none
  | some s =>
    let before := s.rdropWhile (· != dot)
    if before.length ≤ 1 then none else some (s.rtakeWhile (· != dot))

/-- `Path::parent`. -/
def parent (p : Bytes) : Option Bytes :=
  match components p with
  | [] => none
  | [.rootDir] => none
  | _ => some (trim (front (trim p)))

theorem front_append_last (p : Bytes) : front p ++ last p = p :=
  List.rdropWhile_append_rtakeWhile ..

theorem slash_not_mem_last (p : Bytes) : slash ∉ last p := by
  intro member
  have other := List.mem_rtakeWhile_imp member
  simp at other

/-- What stands before the last segment is empty or ends with a separator. -/
theorem front_eq (p : Bytes) : front p = [] ∨ ∃ q, front p = q ++ [slash] := by
  rcases List.eq_nil_or_concat (front p) with none | ⟨q, b, ends⟩
  · exact .inl none
  · have nonempty : p.rdropWhile (· != slash) ≠ [] := by
      intro none
      rw [front, none] at ends
      simp at ends
    have stop := List.rdropWhile_last_not (· != slash) p nonempty
    right
    refine ⟨q, ?_⟩
    rw [ends]
    simp only [front] at ends
    simp only [ends, List.concat_eq_append, List.getLast_append_singleton, bne_iff_ne, ne_eq,
      Decidable.not_not] at stop
    rw [stop, List.concat_eq_append]

theorem length_trimRev_le (r : Bytes) : (trimRev r).length ≤ r.length := by
  induction r with
  | nil => exact Nat.le_refl _
  | cons b rest ih =>
    simp only [trimRev]
    split
    · split
      · simp
      · exact Nat.le_succ_of_le ih
    · split
      · exact Nat.le_succ_of_le ih
      · exact Nat.le_refl _

/-- Neither a separator nor a `.` of its own ends a trimmed path. -/
theorem length_trim (p : Bytes) : (trim p).length ≤ p.length := by
  have shorter := length_trimRev_le p.reverse
  rwa [List.length_reverse, ← List.length_reverse] at shorter

private theorem trimmed_concat {q : Bytes} {b : UInt8} (trimmed : trim (q ++ [b]) = q ++ [b])
    (more : q ++ [b] ≠ [slash]) : b ≠ slash ∧ ¬(b = dot ∧ q.getLast? = some slash) := by
  have fixed : trimRev (b :: q.reverse) = b :: q.reverse := by
    have reversed := congrArg List.reverse trimmed
    simpa [trim] using reversed
  have shorter := length_trimRev_le q.reverse
  constructor
  · rintro rfl
    have nonempty : q.reverse ≠ [] := by
      intro none
      simp_all
    rw [trimRev, if_pos rfl, if_neg nonempty] at fixed
    rw [fixed, List.length_cons] at shorter
    omega
  · rintro ⟨rfl, before⟩
    have current : dot = dot ∧ q.reverse.head? = some slash := ⟨rfl, by simpa using before⟩
    rw [trimRev, if_neg (by decide), if_pos current] at fixed
    rw [fixed, List.length_cons] at shorter
    omega

/-- A trimmed path ends with its last component. -/
theorem last_trimmed {p : Bytes} (trimmed : trim p = p) (nonempty : p ≠ []) (more : p ≠ [slash]) :
    last p ≠ [] ∧ (front p ≠ [] → last p ≠ [dot]) := by
  rcases List.eq_nil_or_concat p with none | ⟨q, b, rfl⟩
  · exact absurd none nonempty
  · simp only [List.concat_eq_append] at *
    obtain ⟨separator, current⟩ := trimmed_concat trimmed more
    have tail : last (q ++ [b]) = last q ++ [b] :=
      List.rtakeWhile_concat_pos _ _ _ (by simpa using separator)
    have lead : front (q ++ [b]) = front q :=
      List.rdropWhile_concat_pos _ _ _ (by simpa using separator)
    refine ⟨by simp [tail], fun leading ends => current ?_⟩
    rw [tail] at ends
    rw [lead] at leading
    obtain ⟨none, rfl⟩ : last q = [] ∧ b = dot := by
      cases before : last q <;> simp_all
    have whole : front q = q := by simpa [none] using front_append_last q
    rcases front_eq q with empty | ⟨r, ends⟩
    · exact absurd empty leading
    · rw [whole] at ends
      exact ⟨rfl, by simp [ends]⟩

/-- Every component but the last stands before the last separator. -/
theorem components_trimmed {p : Bytes} (trimmed : trim p = p) (nonempty : p ≠ [])
    (more : p ≠ [slash]) :
    ∃ c, components p = components (front p) ++ [c] ∧
      c = if front p = [] then first (last p) else (inner (last p)).getD .parentDir := by
  obtain ⟨present, other⟩ := last_trimmed trimmed nonempty more
  have clean := slash_not_mem_last p
  refine ⟨_, ?_, rfl⟩
  conv_lhs => rw [← front_append_last p]
  rcases front_eq p with none | ⟨q, ends⟩
  · simp [none, components_of_not_mem present clean]
  · have leading : front p ≠ [] := by simp [ends]
    have some : ∃ c, inner (last p) = some c := by
      simp only [inner, present, other leading, or_self, if_false]
      split <;> exact ⟨_, rfl⟩
    obtain ⟨c, found⟩ := some
    rw [if_neg leading, ends, List.append_assoc, List.singleton_append]
    by_cases root : q = []
    · simp [root, components_slash_cons, body_of_not_mem clean, found]
    · rw [components_append root, components_append root, body_of_not_mem clean, found]
      simp

/-- The last component is never the root, unless it is the only one. -/
theorem components_front {p : Bytes} (trimmed : trim p = p) (nonempty : p ≠ [])
    (more : p ≠ [slash]) :
    components (front p) = (components p).dropLast := by
  obtain ⟨c, split, -⟩ := components_trimmed trimmed nonempty more
  rw [split, List.dropLast_concat]

theorem components_eq_root {p : Bytes} (trimmed : trim p = p) :
    components p = [.rootDir] ↔ p = [slash] := by
  constructor
  · intro root
    by_contra more
    have nonempty : p ≠ [] := by
      rintro rfl
      cases root
    obtain ⟨c, split, rest⟩ := components_trimmed trimmed nonempty more
    obtain ⟨present, other⟩ := last_trimmed trimmed nonempty more
    rw [root] at split
    cases lead : components (front p) with
    | cons d ds =>
      rw [lead] at split
      simp at split
    | nil =>
      have none := components_eq_nil.mp lead
      simp only [lead, List.nil_append, List.cons.injEq, and_true] at split
      simp only [none, if_true, ← split, first, present, if_false] at rest
      split at rest
      · cases rest
      · split at rest <;> cases rest
  · rintro rfl
    rfl

theorem parent_eq_none {p : Bytes} : parent p = none ↔ trim p = [] ∨ trim p = [slash] := by
  rw [← components_eq_root (trim_trim p), components_trim, trim_eq_nil, ← components_eq_nil]
  simp only [parent]
  split
  · next none => simp [none]
  · next root => simp [root]
  · next h1 h2 =>
    constructor
    · intro h
      cases h
    · rintro (h | h)
      · exact absurd h h1
      · exact absurd h h2

theorem parent_isNone_congr {p q : Bytes} (same : components p = components q) :
    (parent p).isNone = (parent q).isNone := by
  simp only [parent, same]
  cases components q with
  | nil => rfl
  | cons c cs => cases c <;> cases cs <;> rfl

theorem components_parent {p q : Bytes} (above : parent p = some q) :
    components q = (components p).dropLast ∧ trim q = q ∧ components p ≠ [] := by
  have some : parent p ≠ none := by simp [above]
  rw [ne_eq, parent_eq_none, not_or] at some
  have found : q = trim (front (trim p)) := by
    simp only [parent] at above
    split at above <;> cases above
    rfl
  subst found
  refine ⟨?_, trim_trim _, ?_⟩
  · rw [components_trim, components_front (trim_trim p) some.1 some.2, components_trim]
  · rw [ne_eq, components_eq_nil, ← trim_eq_nil]
    exact some.1

/-! ### Prefixes -/

def join (segments : List Bytes) : Bytes := [slash].intercalate segments

/-- Drops `n` components from the segments after a separator, and what counts for none. -/
def skipBody : Nat → List Bytes → List Bytes
  | _, [] => []
  | n, s :: rest =>
    if inner s = none then skipBody n rest
    else match n with
      | 0 => s :: rest
      | n + 1 => skipBody n rest

/-- What is left of a path without its first `n` components. -/
def skip : Nat → Bytes → Bytes
  | 0, p => p
  | n + 1, p => join (skipBody n (segments p).tail)

/-- `Path::strip_prefix`. -/
def stripPrefix (p base : Bytes) : Option Bytes :=
  if (components base).isPrefixOf (components p) then
    some (skip (components base).length (trim p))
  else none

@[simp] theorem join_segments (p : Bytes) : join (segments p) = p :=
  List.intercalate_splitOn slash

theorem clean_segments (p : Bytes) : ∀ s ∈ segments p, slash ∉ s := by
  induction p with
  | nil => simp [segments]
  | cons b p ih =>
    by_cases separator : b = slash
    · subst separator
      have split : segments (slash :: p) = [] :: segments p := segments_append [] p
      simpa [split] using ih
    · have split : segments (b :: p) = (segments p).modifyHead (b :: ·) := by
        simp [segments, List.splitOn_cons_eq_if_modifyHead, separator]
      cases h : segments p with
      | nil => exact absurd h (segments_ne_nil p)
      | cons s rest =>
        rw [h] at ih split
        simp only [split, List.modifyHead_cons, List.mem_cons, forall_eq_or_imp] at ih ⊢
        refine ⟨?_, ih.2⟩
        rintro (rfl | member)
        · exact separator rfl
        · exact ih.1 member

theorem segments_join {ss : List Bytes} (clean : ∀ s ∈ ss, slash ∉ s) (nonempty : ss ≠ []) :
    segments (join ss) = ss :=
  List.splitOn_intercalate slash clean nonempty

theorem join_append {ss ts : List Bytes} (left : ss ≠ []) (right : ts ≠ []) :
    join (ss ++ ts) = join ss ++ slash :: join ts := by
  induction ss with
  | nil => exact absurd rfl left
  | cons s ss ih =>
    cases ss with
    | nil =>
      cases ts with
      | nil => exact absurd rfl right
      | cons t ts => simp [join, List.intercalate]
    | cons s' ss =>
      have tail := ih (by simp)
      simp only [join, List.intercalate, List.cons_append, List.intersperse_cons_cons,
        List.flatten_cons] at tail ⊢
      simp [tail]

theorem components_join {s : Bytes} {ss : List Bytes} (clean : ∀ t ∈ s :: ss, slash ∉ t)
    (nonempty : join (s :: ss) ≠ []) :
    components (join (s :: ss)) = first s :: ss.filterMap inner := by
  simp only [components, if_neg nonempty, segments_join clean (List.cons_ne_nil _ _)]

theorem filterMap_skipBody (n : Nat) (ss : List Bytes) :
    (skipBody n ss).filterMap inner = (ss.filterMap inner).drop n := by
  induction ss generalizing n with
  | nil => simp [skipBody]
  | cons s ss ih =>
    simp only [skipBody]
    split
    · next filler => rw [ih, List.filterMap_cons_none filler]
    · next present =>
      obtain ⟨c, found⟩ := Option.ne_none_iff_exists'.mp present
      cases n with
      | zero => rfl
      | succ n => rw [List.filterMap_cons_some found, List.drop_succ_cons]; exact ih n

/-- The dropped segments hold the dropped components. -/
theorem skipBody_split (n : Nat) (ss : List Bytes) :
    ∃ lead, ss = lead ++ skipBody n ss ∧ lead.filterMap inner = (ss.filterMap inner).take n := by
  induction ss generalizing n with
  | nil => exact ⟨[], by simp [skipBody]⟩
  | cons s ss ih =>
    simp only [skipBody]
    split
    · next filler =>
      obtain ⟨lead, split, taken⟩ := ih n
      refine ⟨s :: lead, by rw [List.cons_append, ← split], ?_⟩
      rw [List.filterMap_cons_none filler, List.filterMap_cons_none filler, taken]
    · next present =>
      obtain ⟨c, found⟩ := Option.ne_none_iff_exists'.mp present
      cases n with
      | zero => exact ⟨[], by simp⟩
      | succ n =>
        obtain ⟨lead, split, taken⟩ := ih n
        refine ⟨s :: lead, by rw [List.cons_append, ← split], ?_⟩
        rw [List.filterMap_cons_some found, List.filterMap_cons_some found, taken,
          List.take_succ_cons]

theorem skipBody_head (n : Nat) (ss : List Bytes) :
    ∀ s rest, skipBody n ss = s :: rest → inner s ≠ none := by
  induction ss generalizing n with
  | nil => simp [skipBody]
  | cons s ss ih =>
    simp only [skipBody]
    split
    · exact ih n
    · next present =>
      cases n with
      | zero =>
        rintro t rest ⟨⟩
        exact present
      | succ n => exact ih n

theorem first_of_inner {s : Bytes} {c : Component} (found : inner s = some c) : first s = c := by
  simp only [inner] at found
  split at found
  · cases found
  · next present =>
    rw [not_or] at present
    simp only [first, present.1, present.2, if_false]
    split at found <;> cases found <;> simp [*]

/-- The first `n` components, and the rest without a leading separator. -/
theorem skip_split (n : Nat) (p : Bytes) :
    ∃ lead, p = lead ++ skip n p ∧ components lead = (components p).take n ∧
      components (skip n p) = (components p).drop n := by
  cases n with
  | zero => exact ⟨[], by simp [skip]⟩
  | succ n =>
    cases shape : segments p with
    | nil => exact absurd shape (segments_ne_nil p)
    | cons s ss =>
      have clean : ∀ t ∈ s :: ss, slash ∉ t := shape ▸ clean_segments p
      have whole : join (s :: ss) = p := by rw [← shape, join_segments]
      obtain ⟨lead, split, taken⟩ := skipBody_split n ss
      simp only [skip, shape, List.tail_cons]
      by_cases nonempty : p = []
      · obtain ⟨rfl, rfl⟩ : s = [] ∧ ss = [] := by simpa [nonempty, segments] using shape.symm
        exact ⟨[], by simp [skipBody, nonempty, join]⟩
      · have all : components p = first s :: ss.filterMap inner := by
          rw [← whole] at nonempty ⊢
          exact components_join clean nonempty
        cases rest : skipBody n ss with
        | nil =>
          rw [rest, List.append_nil] at split
          subst split
          refine ⟨p, by simp [join], ?_, ?_⟩
          · rw [all, List.take_succ_cons, ← taken]
          · have dropped := filterMap_skipBody n ss
            rw [rest] at dropped
            rw [all, List.drop_succ_cons, ← dropped]
            rfl
        | cons t ts =>
          have cleanRest : ∀ u ∈ t :: ts, slash ∉ u := by
            intro u member
            refine clean u (List.mem_cons_of_mem _ ?_)
            rw [split, rest]
            exact List.mem_append_right _ member
          obtain ⟨c, found⟩ := Option.ne_none_iff_exists'.mp (skipBody_head n ss t ts rest)
          have present : join (t :: ts) ≠ [] := by
            intro none
            have same := segments_join cleanRest (List.cons_ne_nil _ _)
            rw [none] at same
            obtain ⟨rfl, -⟩ : t = [] ∧ ts = [] := by simpa [segments] using same.symm
            simp [inner] at found
          refine ⟨join (s :: lead) ++ [slash], ?_, ?_, ?_⟩
          · rw [← whole, split, rest, ← List.cons_append,
              join_append (List.cons_ne_nil _ _) (List.cons_ne_nil _ _)]
            simp
          · have cleanLead : ∀ u ∈ s :: lead, slash ∉ u := by
              intro u member
              refine clean u ?_
              rw [split]
              simp only [List.mem_cons, List.mem_append] at member ⊢
              tauto
            rw [all, List.take_succ_cons, ← taken]
            by_cases root : join (s :: lead) = []
            · have same := segments_join cleanLead (List.cons_ne_nil _ _)
              rw [root] at same
              obtain ⟨rfl, rfl⟩ : s = [] ∧ lead = [] := by simpa [segments] using same.symm
              rfl
            · rw [components_append root, components_join cleanLead root, body_nil, List.append_nil]
          · have dropped := filterMap_skipBody n ss
            rw [rest, List.filterMap_cons_some found] at dropped
            rw [components_join cleanRest present, all, List.drop_succ_cons, ← dropped,
              first_of_inner found]

theorem skip_suffix (n : Nat) (p : Bytes) : skip n p <:+ p := by
  obtain ⟨lead, split, -⟩ := skip_split n p
  exact ⟨lead, split.symm⟩

@[simp] theorem components_skip (n : Nat) (p : Bytes) :
    components (skip n p) = (components p).drop n := by
  obtain ⟨-, -, -, rest⟩ := skip_split n p
  exact rest

theorem skip_length (p : Bytes) : skip (components p).length p = [] := by
  rw [← components_eq_nil, components_skip, List.drop_length]

theorem skipBody_append (ss ts : List Bytes) :
    skipBody (ss.filterMap inner).length (ss ++ ts) = skipBody 0 ts := by
  induction ss with
  | nil => rfl
  | cons s ss ih =>
    by_cases filler : inner s = none
    · rw [List.filterMap_cons_none filler, List.cons_append, skipBody.eq_def]
      simp only [if_pos filler, ih]
    · obtain ⟨c, found⟩ := Option.ne_none_iff_exists'.mp filler
      rw [List.filterMap_cons_some found, List.cons_append, skipBody.eq_def]
      simp only [if_neg filler, List.length_cons, ih]

/-- Without all components but the last, the last one is left. -/
theorem skip_front {p : Bytes} (trimmed : trim p = p) (nonempty : p ≠ []) (more : p ≠ [slash]) :
    skip (components (front p)).length p = last p := by
  obtain ⟨present, other⟩ := last_trimmed trimmed nonempty more
  have whole := front_append_last p
  rcases front_eq p with none | ⟨q, ends⟩
  · rw [none, List.nil_append] at whole
    rw [none, components_nil, List.length_nil, skip, whole]
  · have leading : front p ≠ [] := by simp [ends]
    have split : segments p = segments q ++ [last p] := by
      conv_lhs => rw [← whole, ends, List.append_assoc, List.singleton_append]
      rw [segments_append, segments_of_not_mem (slash_not_mem_last p)]
    have some : inner (last p) ≠ none := by
      simp only [inner, present, other leading, or_self, if_false]
      split <;> simp
    cases shape : segments q with
    | nil => exact absurd shape (segments_ne_nil q)
    | cons s ss =>
      have count : (components (front p)).length = (ss.filterMap inner).length + 1 := by
        rw [ends]
        by_cases root : q = []
        · obtain ⟨rfl, rfl⟩ : s = [] ∧ ss = [] := by simpa [root, segments] using shape.symm
          simp [root]
        · rw [components_append root, body_nil, List.append_nil, components, if_neg root, shape]
          rfl
      rw [count, skip, split, shape, List.cons_append, List.tail_cons, skipBody_append]
      simp [skipBody, some, join]

end Path

end Yazi.Shared
