import Yazi.Shared.Ascent
import Yazi.Shared.Assemble

/-!
Another name for a location.

The lengths of the URI and the URN move with the length of the path, so both begin at the bytes
where they began. That is right as long as the new name begins where the old one did.
-/
namespace Yazi.Shared

/-! ### Paths -/

namespace Path

/-- `PathBuf::set_file_name`. -/
def setFileName (p s : Bytes) : Bytes :=
  push (if (name p).isSome then (parent p).getD p else p) s

/-- The byte at which the component with this index begins. -/
def begins (n : Nat) (p : Bytes) : Nat := p.length - (skip n p).length

/-- The bytes that stand before the first component of a path below another. -/
def lead (s : Bytes) : Nat := s.length - (join (skipBody 0 (segments s))).length

/-- The byte at which a relative path begins that is pushed to a path. -/
def place (q s : Bytes) : Nat :=
  if q = [] then 0
  else if body s = [] then q.length
  else q.length + (if q.getLast? = some slash then 0 else 1) + lead s

@[simp] theorem begins_zero (p : Bytes) : begins 0 p = 0 := Nat.sub_self _

theorem begins_length (p : Bytes) : begins (components p).length p = p.length := by
  rw [begins, skip_length, List.length_nil, Nat.sub_zero]

theorem skip_le (n : Nat) (p : Bytes) : (skip n p).length ≤ p.length :=
  (skip_suffix n p).length_le

private theorem skipBody_append_left {n : Nat} {ss : List Bytes} (some : skipBody n ss ≠ [])
    (ts : List Bytes) : skipBody n (ss ++ ts) = skipBody n ss ++ ts := by
  induction ss generalizing n with
  | nil => exact absurd rfl some
  | cons s ss ih =>
    simp only [List.cons_append, skipBody] at some ⊢
    by_cases filler : inner s = none
    · rw [if_pos filler] at some ⊢
      rw [if_pos filler]
      exact ih some
    · rw [if_neg filler] at some ⊢
      rw [if_neg filler]
      cases n with
      | zero => rfl
      | succ n => exact ih some

/-- What follows a path does not move its components. -/
theorem skip_append {n : Nat} {p : Bytes} (inside : n < (components p).length) (q : Bytes) :
    skip n (p ++ slash :: q) = skip n p ++ slash :: q := by
  cases n with
  | zero => rfl
  | succ n =>
    have left : components (skip (n + 1) p) ≠ [] := by
      rw [components_skip, ne_eq, List.drop_eq_nil_iff]
      exact Nat.not_le.mpr inside
    have some : skipBody n (segments p).tail ≠ [] := by
      intro none
      rw [skip, none] at left
      exact left rfl
    have tail : (segments (p ++ slash :: q)).tail = (segments p).tail ++ segments q := by
      rw [segments_append, List.tail_append_of_ne_nil (segments_ne_nil p)]
    rw [skip, tail, skipBody_append_left some, join_append some (segments_ne_nil q), join_segments]
    rfl

theorem begins_append {n : Nat} {p : Bytes} (inside : n < (components p).length) (q : Bytes) :
    begins n (p ++ slash :: q) = begins n p := by
  have shorter := skip_le n p
  rw [begins, begins, skip_append inside, List.length_append, List.length_append]
  omega

private theorem trimRev_split (r : Bytes) : ∃ z, r = z ++ trimRev r ∧
    (z = [] ∨ trimRev r = [slash] ∨ ∃ y, z = y ++ [slash]) := by
  induction r with
  | nil => exact ⟨[], rfl, .inl rfl⟩
  | cons b rest ih =>
    obtain ⟨z, split, shape⟩ := ih
    simp only [trimRev]
    by_cases separator : b = slash
    · subst separator
      rw [if_pos rfl]
      by_cases alone : rest = []
      · rw [if_pos alone]
        exact ⟨[], by rw [alone]; rfl, .inl rfl⟩
      · rw [if_neg alone]
        refine ⟨slash :: z, by rw [List.cons_append, ← split], .inr ?_⟩
        rcases shape with rfl | root | ⟨y, rfl⟩
        · exact .inr ⟨[], rfl⟩
        · exact .inl root
        · exact .inr ⟨slash :: y, rfl⟩
    · rw [if_neg separator]
      by_cases current : b = dot ∧ rest.head? = some slash
      · rw [if_pos current]
        refine ⟨b :: z, by rw [List.cons_append, ← split], .inr ?_⟩
        rcases shape with rfl | root | ⟨y, rfl⟩
        · -- Nothing is trimmed of what ends in a separator, so it is the root.
          cases rest with
          | nil => cases current.2
          | cons c rest =>
            obtain rfl : c = slash := by simpa using current.2
            by_cases alone : rest = []
            · subst alone
              exact .inl rfl
            · have shorter := length_trimRev_le rest
              have same := congrArg List.length split
              rw [trimRev, if_pos rfl, if_neg alone, List.nil_append, List.length_cons] at same
              omega
        · exact .inl root
        · exact .inr ⟨b :: y, rfl⟩
      · rw [if_neg current]
        exact ⟨[], rfl, .inl rfl⟩

/-- What is trimmed begins with a separator, unless only the root is left. -/
private theorem trim_split (p : Bytes) : ∃ z, p = trim p ++ z ∧
    (z = [] ∨ trim p = [slash] ∨ ∃ y, z = slash :: y) := by
  obtain ⟨z, split, shape⟩ := trimRev_split p.reverse
  refine ⟨z.reverse, ?_, ?_⟩
  · rw [trim, ← List.reverse_append, ← split, List.reverse_reverse]
  · rcases shape with rfl | root | ⟨y, rfl⟩
    · exact .inl rfl
    · exact .inr (.inl (by rw [trim, root]; rfl))
    · exact .inr (.inr ⟨y.reverse, by simp⟩)

theorem begins_trim {n : Nat} {p : Bytes} (inside : n < (components p).length) :
    begins n (trim p) = begins n p := by
  obtain ⟨z, split, none | root | ⟨y, rfl⟩⟩ := trim_split p
  · rw [none, List.append_nil] at split
    rw [← split]
  · rw [← components_trim, root, components_slash] at inside
    obtain rfl : n = 0 := Nat.lt_one_iff.mp inside
    rw [begins_zero, begins_zero]
  · rw [← components_trim] at inside
    conv_rhs => rw [split]
    exact (begins_append inside y).symm

/-- What is pushed to a path does not move its components. -/
theorem begins_push {n : Nat} {q s : Bytes} (relative : hasRoot s = false)
    (inside : n < (components q).length) : begins n (push q s) = begins n q := by
  have relative' : s.head? ≠ some slash := by
    intro root
    rw [hasRoot, root] at relative
    cases relative
  have nonempty : q ≠ [] := by
    rintro rfl
    cases inside
  rw [push, if_neg relative']
  split
  · next ends =>
    obtain ⟨lead, rfl⟩ := List.getLast?_eq_some_iff.mp (ends.resolve_left nonempty)
    by_cases root : lead = []
    · subst root
      rw [List.nil_append, components_slash] at inside
      obtain rfl : n = 0 := Nat.lt_one_iff.mp inside
      rw [begins_zero, begins_zero]
    · rw [components_append root, body_nil, List.append_nil] at inside
      rw [begins_append inside, List.append_assoc, List.singleton_append, begins_append inside]
  · exact begins_append inside s

/-- The components before the last one begin where they begin in the parent. -/
theorem begins_front {n : Nat} {p : Bytes} (inside : n < (components (front p)).length) :
    begins n p = begins n (trim (front p)) := by
  rw [begins_trim inside]
  have whole := front_append_last p
  rcases front_eq p with none | ⟨q, ends⟩
  · rw [none] at inside
    cases inside
  · rw [ends, List.append_assoc, List.singleton_append] at whole
    rw [ends] at inside ⊢
    conv_lhs => rw [← whole]
    by_cases root : q = []
    · subst root
      rw [List.nil_append, components_slash] at inside
      obtain rfl : n = 0 := Nat.lt_one_iff.mp inside
      rw [begins_zero, begins_zero]
    · rw [components_append root, body_nil, List.append_nil] at inside
      rw [begins_append inside, begins_append inside]

private theorem trimRev_append {y r : Bytes} (blank : body y = []) :
    trimRev (y.reverse ++ slash :: r) = trimRev (slash :: r) := by
  generalize reversed : y.reverse = w
  induction w generalizing y with
  | nil => rfl
  | cons b w ih =>
    obtain rfl : y = w.reverse ++ [b] := by
      rw [← List.reverse_inj, reversed]
      simp
    have more : w ++ slash :: r ≠ [] := by simp
    rw [List.cons_append, trimRev]
    by_cases separator : b = slash
    · subst separator
      rw [if_pos rfl, if_neg more]
      rw [body_append, body_nil, List.append_nil] at blank
      exact ih blank (List.reverse_reverse w)
    · rw [if_neg separator]
      have clean : slash ∉ last w.reverse ++ [b] := by
        rw [List.mem_append, List.mem_singleton]
        exact not_or.mpr ⟨slash_not_mem_last _, Ne.symm separator⟩
      have current : inner (last w.reverse ++ [b]) = none →
          b = dot ∧ last w.reverse = [] := by
        intro none
        simp only [inner] at none
        split at none
        · next filler =>
          rcases filler with empty | single
          · simp at empty
          · have single' : last w.reverse ++ [b] = [] ++ [dot] := single
            obtain ⟨before, same⟩ := List.append_inj' single' rfl
            exact ⟨List.singleton_inj.mp same, before⟩
        · split at none <;> cases none
      have whole := front_append_last w.reverse
      rcases front_eq w.reverse with first | ⟨f, ends⟩
      · rw [first, List.nil_append] at whole
        rw [← whole, body_of_not_mem clean, Option.toList_eq_nil_iff] at blank
        obtain ⟨rfl, none⟩ := current blank
        rw [none] at whole
        obtain rfl : w = [] := by simpa using whole.symm
        rw [if_pos ⟨rfl, rfl⟩]
        rfl
      · rw [ends] at whole
        rw [← whole, List.append_assoc, List.append_assoc, List.singleton_append, body_append,
          body_of_not_mem clean, List.append_eq_nil_iff, Option.toList_eq_nil_iff] at blank
        obtain ⟨rfl, none⟩ := current blank.2
        rw [none, List.append_nil] at whole
        have before : w = slash :: f.reverse := by
          rw [← List.reverse_inj, ← whole]
          simp
        rw [if_pos ⟨rfl, by rw [before]; rfl⟩]
        refine ih ?_ (List.reverse_reverse w)
        rw [← whole, body_append, body_nil, List.append_nil]
        exact blank.1

/-- Nothing remains of a blank path that is pushed. -/
private theorem trim_append {q s : Bytes} (blank : body s = []) :
    trim (q ++ slash :: s) = trim (q ++ [slash]) := by
  have same := trimRev_append (r := q.reverse) blank
  rw [trim, trim, List.reverse_append, List.reverse_cons, List.append_assoc,
    List.singleton_append, same, List.reverse_append]
  rfl

private theorem skip_slash (s : Bytes) : skip 1 (slash :: s) = join (skipBody 0 (segments s)) := by
  have split : segments (slash :: s) = [] :: segments s := segments_append [] s
  rw [skip, split, List.tail_cons]

private theorem skip_push {q : Bytes} (nonempty : q ≠ []) (s : Bytes) :
    skip (components q).length (q ++ slash :: s) = join (skipBody 0 (segments s)) := by
  cases shape : segments q with
  | nil => exact absurd shape (segments_ne_nil q)
  | cons t ts =>
    have count : (components q).length = (ts.filterMap inner).length + 1 := by
      simp only [components, if_neg nonempty, shape, List.length_cons]
    rw [count, skip, segments_append, shape, List.cons_append, List.tail_cons, skipBody_append]

private theorem lead_eq (s : Bytes) :
    lead s + (join (skipBody 0 (segments s))).length = s.length := by
  obtain ⟨before, split, root, -⟩ := skip_split 1 (slash :: s)
  rw [skip_slash] at split
  have some : before ≠ [] := by
    rintro rfl
    rw [components_slash_cons] at root
    cases root
  have length := congrArg List.length split
  have positive := List.length_pos_iff.mpr some
  rw [List.length_cons, List.length_append] at length
  rw [lead]
  omega

/-- A relative path that is pushed begins where it is placed. -/
theorem begins_place {q s : Bytes} (trimmed : trim q = q) (relative : hasRoot s = false) :
    begins (components q).length (trim (push q s)) = place q s := by
  have relative' : ¬s.head? = some slash := by
    intro root
    rw [hasRoot, root] at relative
    cases relative
  by_cases empty : q = []
  · rw [empty, components_nil, List.length_nil, begins_zero, place, if_pos rfl]
  · rw [place, if_neg empty]
    have below := components_push_relative empty relative
    rw [← body_eq_filter relative] at below
    have root (ends : q.getLast? = some slash) : q = [slash] := by
      obtain ⟨before, rfl⟩ := List.getLast?_eq_some_iff.mp ends
      by_contra more
      obtain ⟨present, -⟩ := last_trimmed trimmed empty more
      exact present (List.rtakeWhile_concat_neg _ _ _ (by simp))
    have total := lead_eq s
    by_cases blank : body s = []
    · rw [blank, List.append_nil] at below
      have same : trim (push q s) = q := by
        rw [push, if_neg relative']
        by_cases ends : q.getLast? = some slash
        · rw [if_pos (.inr ends), root ends]
          exact trim_append (q := []) blank
        · have more : q.reverse ≠ [] := by simpa using empty
          rw [if_neg (not_or.mpr ⟨empty, ends⟩), trim_append blank, trim, List.reverse_append]
          change (trimRev (slash :: q.reverse)).reverse = q
          rw [trimRev, if_pos rfl, if_neg more]
          exact trimmed
      rw [if_pos blank, same, begins_length]
    · rw [if_neg blank]
      have inside : (components q).length < (components (push q s)).length := by
        rw [below, List.length_append]
        exact Nat.lt_add_of_pos_right (List.length_pos_iff.mpr blank)
      rw [begins_trim inside, push, if_neg relative']
      by_cases ends : q.getLast? = some slash
      · rw [if_pos (.inr ends), if_pos ends, root ends]
        change (slash :: s).length - (skip 1 (slash :: s)).length = _
        rw [skip_slash, List.length_cons, List.length_singleton]
        omega
      · rw [if_neg (not_or.mpr ⟨empty, ends⟩), if_neg ends, begins, skip_push empty,
          List.length_append, List.length_cons]
        omega

end Path

/-! ### Lengths -/

/-- `LocBuf`: the lengths of the URI and the URN count bytes. -/
structure LocBuf where
  inner : Bytes
  uri : Nat
  urn : Nat
  deriving DecidableEq

namespace LocBuf

/-- A length moves with that of the path: `none` where the subtraction underflows. -/
def shift (old new len : Nat) : Option Nat :=
  if len = 0 then some len
  else if old < new then some (len + (new - old))
  else if old - new ≤ len then some (len - (old - new))
  else none

/-- `LocBuf::set_name`. -/
def setName (loc : LocBuf) (s : Bytes) : Option LocBuf :=
  let inner := Path.trim (Path.setFileName loc.inner s)
  let old := loc.inner.length
  let new := inner.length
  if new = old then some { loc with inner }
  else (shift old new loc.uri).bind fun uri =>
    (shift old new loc.urn).map fun urn => ⟨inner, uri, urn⟩

theorem shift_eq {old new len : Nat} (some : len ≠ 0) (short : len ≤ old) :
    shift old new len = if old - len ≤ new then .some (new - (old - len)) else none := by
  rw [shift, if_neg some]
  split
  · rw [if_pos (by omega)]
    congr 1
    omega
  · split
    · rw [if_pos (by omega)]
      congr 1
      omega
    · rw [if_neg (by omega)]

theorem setName_eq (loc : LocBuf) (s : Bytes) :
    loc.setName s =
      (shift loc.inner.length (Path.trim (Path.setFileName loc.inner s)).length loc.uri).bind
        fun uri =>
          (shift loc.inner.length (Path.trim (Path.setFileName loc.inner s)).length loc.urn).map
            fun urn => ⟨Path.trim (Path.setFileName loc.inner s), uri, urn⟩ := by
  have still (len : Nat) : shift loc.inner.length loc.inner.length len = some len := by
    simp [shift]
  simp only [setName]
  split
  · next same => rw [same, still, still]; rfl
  · rfl

end LocBuf

namespace Loc

def raw (loc : Loc) : LocBuf := ⟨loc.inner, loc.uriLen, loc.urnLen⟩

/-- An empty port stays empty, any other begins where it began: `none` where the path does not
start with what stands before it. -/
def keepPort (path before port : Bytes) : Option Nat :=
  if port = [] then some 0
  else if Path.startsWith path before then
    some ((Path.components path).length - (Path.components before).length)
  else none

/-- Another path with ports of the same kind. -/
def afresh (loc : Loc) (path : Bytes) : Option Loc :=
  (keepPort path loc.base loc.uri).bind fun uri =>
    (keepPort path loc.trail loc.urn).bind fun urn => (withPorts path uri urn).toOption

/-- What stands before a port also begins an absolute name, and has as many bytes in it. -/
def Stays (before s : Bytes) : Prop :=
  Path.startsWith s before = true ∧
    Path.begins (Path.components before).length (Path.trim s) = before.length

/-- Both ports are empty; or the name is absolute and begins with all that stands before them; or
no port consists of a name that begins at another byte than the new one. -/
def Renames (loc : Loc) (s : Bytes) : Prop :=
  loc.uri = [] ∨
    if Path.hasRoot s then
      Stays loc.base s ∧ (loc.urn = [] ∨ Stays loc.trail s ∧ loc.trail ≠ [])
    else
      Path.name loc.inner = none ∨ ((Spec.ports loc).1 ≠ 1 ∧ (Spec.ports loc).2 ≠ 1) ∨
        Path.place (Path.trim (Path.front loc.inner)) s = (Path.front loc.inner).length

instance (before s : Bytes) : Decidable (Stays before s) := inferInstanceAs (Decidable (_ ∧ _))

instance (loc : Loc) (s : Bytes) : Decidable (loc.Renames s) := inferInstanceAs (Decidable (_ ∨ _))

theorem lengths_withPorts {p : Bytes} {uri urn : Nat} {loc : Loc}
    (admits : withPorts p uri urn = .ok loc) :
    loc.uriLen = mark (Path.trim p) uri ∧ loc.urnLen = mark (Path.trim p) urn := by
  simp only [withPorts] at admits
  split at admits
  · cases admits
  · next order =>
    split at admits
    · next zero =>
      cases admits
      obtain rfl : urn = 0 := by omega
      rw [zero]
      exact ⟨rfl, rfl⟩
    · split at admits
      · cases admits
      · split at admits <;> cases admits
        exact ⟨rfl, rfl⟩

section region
variable {p : Bytes} {m : Nat} (some : m ≠ 0) (room : m ≤ (Path.components p).length)
include some room

/-- A port that is not empty, and what stands before it. -/
theorem mark_spec :
    mark p m = (Path.skip ((Path.components p).length - m) p).length ∧
      mark p m ≠ 0 ∧ mark p m ≤ p.length ∧
      (p.take (p.length - mark p m)).length = Path.begins ((Path.components p).length - m) p ∧
      Path.components (p.take (p.length - mark p m)) =
        (Path.components p).take ((Path.components p).length - m) := by
  have boundary := mark_eq p m
  obtain ⟨-, before⟩ := drop_boundary boundary
  have short := Path.skip_le ((Path.components p).length - m) p
  refine ⟨boundary, ?_, boundary ▸ short, ?_, before⟩
  · intro none
    rw [none] at boundary
    have rest := Path.components_skip ((Path.components p).length - m) p
    rw [List.eq_nil_of_length_eq_zero boundary.symm, Path.components_nil] at rest
    have length := congrArg List.length rest
    rw [List.length_nil, List.length_drop] at length
    omega
  · rw [List.length_take, boundary, Path.begins]
    omega

/-- A port is kept just when as much stands before it. -/
theorem kept_iff (path : Bytes) :
    (∃ m', keepPort path (p.take (p.length - mark p m)) (p.drop (p.length - mark p m)) = .some m' ∧
        LocBuf.shift p.length (Path.trim path).length (mark p m) =
          .some (mark (Path.trim path) m')) ↔
      Stays (p.take (p.length - mark p m)) path := by
  obtain ⟨boundary, positive, short, begins, before⟩ := mark_spec some room
  have count : (Path.components (p.take (p.length - mark p m))).length =
      (Path.components p).length - m := by
    rw [before, List.length_take, Nat.min_eq_left (Nat.sub_le ..)]
  have present : p.drop (p.length - mark p m) ≠ [] := by
    rw [ne_eq, List.drop_eq_nil_iff]
    omega
  have bytes : p.length - mark p m = Path.begins ((Path.components p).length - m) p := by
    rw [boundary, Path.begins]
  rw [keepPort, if_neg present, LocBuf.shift_eq positive short, Stays, count, begins]
  by_cases starts : Path.startsWith path (p.take (p.length - mark p m)) = true
  · rw [if_pos starts]
    have few : (Path.components p).length - m ≤ (Path.components (Path.trim path)).length := by
      rw [Path.components_trim, ← count]
      exact (List.isPrefixOf_iff_prefix.mp starts).length_le
    have marked := mark_eq (Path.trim path)
      ((Path.components (Path.trim path)).length - ((Path.components p).length - m))
    rw [Nat.sub_sub_self few, Path.components_trim] at marked
    have suffix := Path.skip_le ((Path.components p).length - m) (Path.trim path)
    rw [bytes] at starts ⊢
    generalize Path.begins ((Path.components p).length - m) p = b at starts ⊢
    rw [Path.begins]
    constructor
    · rintro ⟨m', same, moved⟩
      cases same
      rw [marked] at moved
      split at moved
      · have length := Option.some.inj moved
        exact ⟨starts, by omega⟩
      · cases moved
    · rintro ⟨-, stays⟩
      refine ⟨_, rfl, ?_⟩
      rw [marked, if_pos (by omega)]
      congr 1
      omega
  · rw [if_neg starts]
    exact iff_of_false nofun fun stays => starts stays.1

end region

/-- What is left to say of a port, once it has components. -/
private theorem kept_zero (path : Bytes) (old new : Nat) (p : Bytes) :
    ∃ m', keepPort path (p.take (p.length - mark p 0)) (p.drop (p.length - mark p 0)) = .some m' ∧
      m' = 0 ∧ LocBuf.shift old new (mark p 0) = .some (mark (Path.trim path) m') := by
  have none : p.drop (p.length - mark p 0) = [] := by
    rw [List.drop_eq_nil_iff]
    exact Nat.le_refl _
  exact ⟨0, if_pos none, rfl, rfl⟩

/-- The new value, port by port. -/
theorem setName_iff_ports {loc : Loc} {s path : Bytes} (named : path = Path.setFileName loc.inner s) :
    (∃ new, loc.raw.setName s = some new.raw ∧ loc.afresh path = some new) ↔
      ∃ uri urn, (keepPort path loc.base loc.uri = some uri ∧
          LocBuf.shift loc.inner.length (Path.trim path).length loc.uriLen =
            some (mark (Path.trim path) uri)) ∧
        (keepPort path loc.trail loc.urn = some urn ∧
          LocBuf.shift loc.inner.length (Path.trim path).length loc.urnLen =
            some (mark (Path.trim path) urn)) ∧
        Fits (Path.components path) uri urn := by
  have moves : loc.raw.setName s =
      (LocBuf.shift loc.inner.length (Path.trim path).length loc.uriLen).bind fun uri =>
        (LocBuf.shift loc.inner.length (Path.trim path).length loc.urnLen).map fun urn =>
          ⟨Path.trim path, uri, urn⟩ := by
    rw [named]
    exact LocBuf.setName_eq loc.raw s
  rw [moves]
  constructor
  · rintro ⟨new, moved, fresh⟩
    obtain ⟨uri', shifted, rest⟩ := Option.bind_eq_some_iff.mp moved
    obtain ⟨urn', shifted', same⟩ := Option.map_eq_some_iff.mp rest
    obtain ⟨uri, keeps, more⟩ := Option.bind_eq_some_iff.mp fresh
    obtain ⟨urn, keeps', made⟩ := Option.bind_eq_some_iff.mp more
    cases admits : withPorts path uri urn with
    | error e =>
      rw [admits] at made
      cases made
    | ok loc' =>
      rw [admits] at made
      cases made
      obtain ⟨uriLen, urnLen⟩ := lengths_withPorts admits
      have first : uri' = new.uriLen := congrArg LocBuf.uri same
      have second : urn' = new.urnLen := congrArg LocBuf.urn same
      refine ⟨uri, urn, ⟨keeps, ?_⟩, ⟨keeps', ?_⟩, withPorts_iff.mp ⟨new, admits⟩⟩
      · rw [← uriLen, ← first]
        exact shifted
      · rw [← urnLen, ← second]
        exact shifted'
  · rintro ⟨uri, urn, ⟨keeps, shifted⟩, ⟨keeps', shifted'⟩, fits⟩
    obtain ⟨new, admits⟩ := withPorts_iff.mpr fits
    obtain ⟨uriLen, urnLen⟩ := lengths_withPorts admits
    refine ⟨new, ?_, ?_⟩
    · rw [shifted, Option.bind_some, shifted', Option.map_some, raw, uriLen, urnLen,
        inner_withPorts admits]
    · rw [afresh, keeps, Option.bind_some, keeps', Option.bind_some, admits]
      rfl

/-! ### A relative name -/

private theorem setFileName_none {p s : Bytes} (unnamed : Path.name p = none) :
    Path.setFileName p s = Path.push p s := by
  rw [Path.setFileName, unnamed]
  rfl

private theorem setFileName_some {p n : Bytes} (trimmed : Path.trim p = p)
    (named : Path.name p = some n) (s : Bytes) :
    Path.setFileName p s = Path.push (Path.trim (Path.front p)) s ∧ p ≠ [] ∧ p ≠ [Path.slash] ∧
      Path.components p = Path.components (Path.trim (Path.front p)) ++ [.normal n] := by
  have ends := Path.components_of_name named
  obtain ⟨q, above, rest⟩ := Path.parent_of_concat ends
  have found : q = Path.trim (Path.front p) := by
    rw [Path.parent] at above
    split at above <;> cases above
    rw [trimmed]
  refine ⟨?_, ?_, ?_, ?_⟩
  · rw [Path.setFileName, named, above, ← found]
    rfl
  · rintro rfl
    cases named
  · rintro rfl
    cases named
  · rw [← found, rest]
    exact ends

section relative
variable {p s : Bytes} (trimmed : Path.trim p = p) (relative : Path.hasRoot s = false)
include relative

private theorem components_push_lead (q : Bytes) :
    Path.components q <+: Path.components (Path.push q s) := by
  by_cases empty : q = []
  · rw [empty]
    exact List.nil_prefix
  · rw [Path.components_push_relative empty relative]
    exact List.prefix_append ..

private theorem hasRoot_push {q : Bytes} (rootless : Path.hasRoot q = false) :
    Path.hasRoot (Path.push q s) = false := by
  by_cases empty : q = []
  · rw [empty, Path.push_nil]
    exact relative
  · rw [Bool.eq_false_iff, ne_eq, Path.hasRoot_iff, Path.components_push_relative empty relative,
      List.head?_append_of_ne_nil _ (Path.components_ne_nil empty), ← Path.hasRoot_iff,
      Bool.not_eq_true]
    exact rootless

include trimmed

/-- A relative name moves no port, unless it is the port. -/
private theorem stays_iff {k : Nat} (inside : k < (Path.components p).length) {before : Bytes}
    (bytes : before.length = Path.begins k p)
    (starts : Path.components before = (Path.components p).take k) :
    Stays before (Path.setFileName p s) ↔
      Path.name p = none ∨ k + 1 ≠ (Path.components p).length ∨
        Path.place (Path.trim (Path.front p)) s = (Path.front p).length := by
  have count : (Path.components before).length = k := by
    rw [starts, List.length_take, Nat.min_eq_left inside.le]
  have prefixed {q : Bytes} (lead : Path.components before <+: Path.components q) :
      Path.startsWith (Path.push q s) before = true :=
    List.isPrefixOf_iff_prefix.mpr (lead.trans (components_push_lead relative q))
  have pushed {q : Bytes} (inside : k < (Path.components q).length) :
      Path.begins k (Path.trim (Path.push q s)) = Path.begins k q := by
    have longer := (components_push_lead relative q).length_le
    rw [Path.begins_trim (inside.trans_le longer), Path.begins_push relative inside]
  rw [Stays, count, bytes]
  cases named : Path.name p with
  | none =>
    rw [setFileName_none named]
    exact iff_of_true ⟨prefixed (starts ▸ List.take_prefix ..), pushed inside⟩ (.inl rfl)
  | some n =>
    obtain ⟨placed, nonempty, more, whole⟩ := setFileName_some trimmed named s
    have length := congrArg List.length whole
    rw [List.length_append, List.length_singleton] at length
    have lead : Path.components before <+: Path.components (Path.trim (Path.front p)) := by
      rw [starts, whole, List.take_append_of_le_length (by omega)]
      exact List.take_prefix ..
    rw [placed]
    by_cases last : k + 1 = (Path.components p).length
    · have same : k = (Path.components (Path.trim (Path.front p))).length := by omega
      have at_name : Path.begins k p = (Path.front p).length := by
        have total := congrArg List.length (Path.front_append_last p)
        rw [List.length_append] at total
        rw [same, Path.begins, Path.components_trim, Path.skip_front trimmed nonempty more]
        omega
      rw [at_name]
      conv_lhs => rw [same, Path.begins_place (Path.trim_trim _) relative]
      simp [prefixed lead, last]
    · have inside' : k < (Path.components (Path.trim (Path.front p))).length := by omega
      refine iff_of_true ⟨prefixed lead, ?_⟩ (.inr (.inl last))
      rw [pushed inside']
      rw [Path.components_trim] at inside'
      exact (Path.begins_front inside').symm

private theorem hasRoot_setFileName (rootless : Path.hasRoot p = false) :
    Path.hasRoot (Path.setFileName p s) = false := by
  cases named : Path.name p with
  | none =>
    rw [setFileName_none named]
    exact hasRoot_push relative rootless
  | some n =>
    obtain ⟨placed, -, -, whole⟩ := setFileName_some trimmed named s
    rw [placed]
    refine hasRoot_push relative ?_
    rw [Bool.eq_false_iff, ne_eq, Path.hasRoot_iff] at rootless ⊢
    intro root
    apply rootless
    rw [whole, List.head?_append, root]
    rfl

end relative

private theorem eq_of_keepPort {path before port : Bytes} {m : Nat} (present : port ≠ [])
    (keeps : keepPort path before port = some m) :
    Path.startsWith path before = true ∧
      m = (Path.components path).length - (Path.components before).length := by
  rw [keepPort, if_neg present] at keeps
  split at keeps
  · next starts =>
    cases keeps
    exact ⟨starts, rfl⟩
  · cases keeps

/-- Both ports are kept just when as much stands before them, and the URN does not get the root. -/
private theorem kept_ports {loc : Loc} {u n : Nat} {path : Bytes}
    (uriLen : loc.uriLen = mark loc.inner u) (urnLen : loc.urnLen = mark loc.inner n)
    (fits : Fits loc.components u n) (some : u ≠ 0) :
    (∃ uri urn, (keepPort path loc.base loc.uri = .some uri ∧
          LocBuf.shift loc.inner.length (Path.trim path).length loc.uriLen =
            .some (mark (Path.trim path) uri)) ∧
        (keepPort path loc.trail loc.urn = .some urn ∧
          LocBuf.shift loc.inner.length (Path.trim path).length loc.urnLen =
            .some (mark (Path.trim path) urn)) ∧
        Fits (Path.components path) uri urn) ↔
      Stays loc.base path ∧
        (n = 0 ∨ Stays loc.trail path ∧ ¬(loc.trail = [] ∧ Path.hasRoot path = true)) := by
  have order := fits.order
  have room : u ≤ (Path.components loc.inner).length := fits.room
  have uriKept := kept_iff some room path
  obtain ⟨-, uriSome, uriShort, -, uriLead⟩ := mark_spec some room
  rw [← uriLen] at uriKept uriSome uriShort uriLead
  have uriCount := congrArg List.length uriLead
  rw [List.length_take, Nat.min_eq_left (Nat.sub_le ..)] at uriCount
  have uriPresent : loc.uri ≠ [] := by
    rw [uri, ne_eq, List.drop_eq_nil_iff]
    omega
  have empty {p : Bytes} (none : 0 = (Path.components p).length) :
      (Path.components p).head? ≠ .some .rootDir := by
    rw [List.eq_nil_of_length_eq_zero none.symm]
    rintro ⟨⟩
  by_cases zero : n = 0
  · obtain ⟨m, urnKeeps, isZero, urnMoves⟩ :=
      kept_zero path loc.inner.length (Path.trim path).length loc.inner
    rw [← zero, ← urnLen] at urnKeeps urnMoves
    subst isZero
    constructor
    · rintro ⟨uri, urn, first, -, -⟩
      exact ⟨uriKept.mp ⟨uri, first⟩, .inl zero⟩
    · rintro ⟨stays, -⟩
      obtain ⟨uri, keeps, moves⟩ := uriKept.mpr stays
      obtain ⟨-, rfl⟩ := eq_of_keepPort uriPresent keeps
      exact ⟨_, 0, ⟨keeps, moves⟩, ⟨urnKeeps, urnMoves⟩, Nat.zero_le _, Nat.sub_le .., empty⟩
  · have room' : n ≤ (Path.components loc.inner).length := order.trans room
    have urnKept := kept_iff zero room' path
    obtain ⟨-, urnSome, urnShort, -, urnLead⟩ := mark_spec zero room'
    rw [← urnLen] at urnKept urnSome urnShort urnLead
    have urnCount := congrArg List.length urnLead
    rw [List.length_take, Nat.min_eq_left (Nat.sub_le ..)] at urnCount
    have urnPresent : loc.urn ≠ [] := by
      rw [urn, ne_eq, List.drop_eq_nil_iff]
      omega
    have trailNone : loc.trail = [] ↔ (Path.components loc.trail).length = 0 := by
      rw [List.length_eq_zero_iff, Path.components_eq_nil]
    change (Path.components loc.trail).length = _ at urnCount
    change (Path.components loc.base).length = _ at uriCount
    constructor
    · rintro ⟨uri, urn, first, second, fits'⟩
      refine ⟨uriKept.mp ⟨uri, first⟩, .inr ⟨urnKept.mp ⟨urn, second⟩, ?_⟩⟩
      rintro ⟨none, root⟩
      obtain ⟨-, rfl⟩ := eq_of_keepPort urnPresent second.1
      refine fits'.rootless ?_ ((Path.hasRoot_iff path).mp root)
      rw [none, Path.components_nil, List.length_nil, Nat.sub_zero]
    · rintro ⟨stays, none | ⟨stays', rootless⟩⟩
      · exact absurd none zero
      · obtain ⟨uri, keeps, moves⟩ := uriKept.mpr stays
        obtain ⟨urn, keeps', moves'⟩ := urnKept.mpr stays'
        obtain ⟨-, uriIs⟩ := eq_of_keepPort uriPresent keeps
        obtain ⟨starts, urnIs⟩ := eq_of_keepPort urnPresent keeps'
        have within := (List.isPrefixOf_iff_prefix.mp starts).length_le
        change (Path.components loc.trail).length ≤ _ at within
        change uri = _ - (Path.components loc.base).length at uriIs
        change urn = _ - (Path.components loc.trail).length at urnIs
        refine ⟨uri, urn, ⟨keeps, moves⟩, ⟨keeps', moves'⟩, by omega, by omega, fun whole => ?_⟩
        rw [ne_eq, ← Path.hasRoot_iff]
        intro root
        have some := List.length_pos_iff.mpr (Path.components_ne_nil (p := path) (by
          rintro rfl
          cases root))
        exact rootless ⟨trailNone.mpr (by omega), root⟩

/-- The new value is well formed and of the same kind just when the new name begins where the old
one did. -/
theorem setName_iff {loc : Loc} (admitted : loc.Admitted) (s : Bytes) :
    (∃ new, loc.raw.setName s = some new.raw ∧
        loc.afresh (Path.setFileName loc.inner s) = some new) ↔ loc.Renames s := by
  have admits := admitted.withPorts
  obtain ⟨uriLen, urnLen⟩ := lengths_withPorts admits
  rw [loc.trimmed] at uriLen urnLen
  have fits : Fits loc.components (Spec.ports loc).1 (Spec.ports loc).2 := admitted_iff.mp admitted
  have zero {p : Bytes} : p = [] ↔ (Path.components p).length = 0 := by
    rw [List.length_eq_zero_iff, Path.components_eq_nil]
  rw [setName_iff_ports rfl, Renames]
  by_cases none : loc.uri = []
  · have order := fits.order
    have uri : (Spec.ports loc).1 = 0 := zero.mp none
    have urn : (Spec.ports loc).2 = 0 := by omega
    obtain ⟨_, uriKeeps, rfl, uriMoves⟩ :=
      kept_zero (Path.setFileName loc.inner s) loc.inner.length
        (Path.trim (Path.setFileName loc.inner s)).length loc.inner
    rw [uri] at uriLen
    rw [urn] at urnLen
    refine iff_of_true ⟨0, 0, ⟨?_, ?_⟩, ⟨?_, ?_⟩, Nat.le_refl _, Nat.zero_le _, fun empty => ?_⟩
      (.inl none)
    · rwa [Loc.base, Loc.uri, uriLen]
    · rwa [uriLen]
    · rwa [Loc.trail, Loc.urn, urnLen]
    · rwa [urnLen]
    · rw [List.eq_nil_of_length_eq_zero empty.symm]
      rintro ⟨⟩
  · have some : (Spec.ports loc).1 ≠ 0 := fun uri => none (zero.mpr uri)
    rw [kept_ports uriLen urnLen fits some]
    by_cases absolute : Path.hasRoot s = true
    · have whole : Path.setFileName loc.inner s = s := by
        rw [Path.setFileName, Path.push_of_root absolute]
      simp only [none, absolute, if_true, false_or, whole, and_true, zero (p := loc.urn)]
      rfl
    · have relative : Path.hasRoot s = false := Bool.not_eq_true _ ▸ absolute
      have room : (Spec.ports loc).1 ≤ (Path.components loc.inner).length := fits.room
      have order := fits.order
      obtain ⟨-, -, -, uriBytes, uriLead⟩ := mark_spec some room
      rw [← uriLen] at uriBytes uriLead
      have uriStays := stays_iff loc.trimmed relative (by omega) uriBytes uriLead
      change Stays loc.base _ ↔ _ at uriStays
      have only {m : Nat} (some : m ≠ 0) (few : m ≤ (Path.components loc.inner).length) :
          (Path.components loc.inner).length - m + 1 ≠ (Path.components loc.inner).length ↔
            m ≠ 1 := by omega
      rw [only some room] at uriStays
      rw [uriStays, if_neg absolute]
      simp only [none, false_or]
      by_cases zero : (Spec.ports loc).2 = 0
      · simp [zero]
      · have room' := order.trans room
        obtain ⟨-, -, -, urnBytes, urnLead⟩ := mark_spec zero room'
        rw [← urnLen] at urnBytes urnLead
        have urnStays := stays_iff loc.trimmed relative (by omega) urnBytes urnLead
        change Stays loc.trail _ ↔ _ at urnStays
        rw [only zero room'] at urnStays
        -- The root does not get into the URN: there was none in it before.
        have rootless : ¬(loc.trail = [] ∧ Path.hasRoot (Path.setFileName loc.inner s) = true) := by
          rintro ⟨empty, root⟩
          have all := congrArg List.length urnLead
          change (Path.components loc.trail).length = _ at all
          rw [empty, Path.components_nil, List.length_nil, List.length_take] at all
          have whole : (Spec.ports loc).2 = loc.components.length := by
            change _ = (Path.components loc.inner).length
            omega
          have before : Path.hasRoot loc.inner = false := by
            rw [Bool.eq_false_iff, ne_eq, Path.hasRoot_iff]
            exact fits.rootless whole
          rw [hasRoot_setFileName loc.trimmed relative before] at root
          cases root
        rw [urnStays, or_iff_right zero, and_iff_left rootless, ← or_and_left, ← and_or_right]

theorem setName_iff_bare :
    ∃ new, (bare (text "/a/b")).raw.setName (text "code") = some new.raw ∧
      (bare (text "/a/b")).afresh (Path.setFileName (text "/a/b") (text "code")) = some new :=
  (setName_iff (admitted_bare (text "/a/b")) (text "code")).mpr (by decide)

/-- No name in place of a name below a directory: two bytes go, the URI has one. -/
theorem setName_underflows :
    ¬∀ loc : Loc, loc.Admitted → ∀ s : Bytes, ∃ new, loc.raw.setName s = some new.raw ∧
      loc.afresh (Path.setFileName loc.inner s) = some new := by
  intro claim
  obtain ⟨new, moved, -⟩ := claim _ (admitted_bare (text "/a/b")) []
  have underflows : (bare (text "/a/b")).raw.setName [] = none := by decide
  rw [underflows] at moved
  cases moved

end Loc

end Yazi.Shared
