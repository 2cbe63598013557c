import Mathlib.Data.List.Find
import Yazi.Fs.File
import Yazi.Shared.Header

/-!
Rules of the configuration: own ones, ones that are put before and ones that are put after.

The first rule that matches a file is taken. A rule for every file is kept once, and one that is
put after the own rules stands in for theirs.
-/
namespace Yazi.Config
open Yazi.Shared Yazi.Fs

/-! ### Mixing -/

class Mixable (E : Type) where
  filter : E → Bool
  anyFile : E → Bool
  anyDir : E → Bool

section mixing
variable {E : Type} [Mixable E]
open Mixable

/-- What is left, and the flags after it: whether there was a rule for every file, and one for
every directory. -/
def dedup : Bool × Bool → List E → List E × (Bool × Bool)
  | flags, [] => ([], flags)
  | (file, dir), x :: it =>
    if !filter x then dedup (file, dir) it
    else if anyFile x && file then dedup (file, dir) it
    -- The flag for files is set by now, also where the rule is left out.
    else if anyDir x && dir then dedup (file || anyFile x, dir) it
    else
      let (rest, flags) := dedup (file || anyFile x, dir || anyDir x) it
      (x :: rest, flags)

def mix (a b c : List E) : List E :=
  let (before, flags) := dedup (false, false) a
  let (own, _) := dedup flags b
  let (after, (file, dir)) := dedup (false, false) c
  before ++ (own.filter fun x => !(file && anyFile x || dir && anyDir x)) ++ after

end mixing

/-! ### Rules -/

inductive PatternScheme where
  | any
  | local
  | remote
  | custom (name : KebabCasedKey)
  deriving DecidableEq

end Yazi.Config

namespace Yazi.Shared

/-- `Auth::is_local`. -/
def AuthOf.isLocal {L N : Type} : AuthOf L N → Bool
  | .mk kind _ _ _ .none => kind = .regular
  | .mk kind _ _ _ (.some source _) => kind = .regular ∨ source.isLocal

end Yazi.Shared

namespace Yazi.Config
open Yazi.Shared Yazi.Fs

def PatternScheme.matches (auth : Auth) : PatternScheme → Bool
  | any => true
  | «local» => auth.isLocal
  | remote => !auth.isLocal
  | custom name => auth.scheme.asStr = name.text

/-- The glob is that of the compiled matcher. -/
structure Pattern where
  inner : Bytes → Bool
  scheme : PatternScheme
  isDir : Bool
  isStar : Bool

namespace Pattern

def matchUrl (p : Pattern) (url : Url) (isDir : Bool) : Bool :=
  if isDir ≠ p.isDir then false
  else if !p.scheme.matches url.auth then false
  else if p.isStar then true
  else p.inner url.loc.inner

def matchMime (p : Pattern) (mime : Bytes) : Bool := p.isStar || (!mime.isEmpty && p.inner mime)

def anyFile (p : Pattern) : Bool := p.isStar && !p.isDir && p.scheme = .any

def anyDir (p : Pattern) : Bool := p.isStar && p.isDir && p.scheme = .any

end Pattern

structure Selector where
  url : Option Pattern
  mime : Option Pattern

namespace Selector

/-- A pattern is not met where there is nothing to match it with. -/
def matchWith (s : Selector) (file : Option File) (mime : Option Bytes) : Bool :=
  let wrongMime :=
    match s.mime, mime with
    | some p, some m => !p.matchMime m
    | _, _ => false
  let wrongUrl :=
    match s.url, file with
    | some p, some f => !p.matchUrl f.url f.isDir
    | _, _ => false
  let missing := s.mime.isSome && mime.isNone || s.url.isSome && file.isNone
  !(wrongMime || wrongUrl || missing)

def «matches» (s : Selector) (file : File) (mime : Bytes) : Bool :=
  s.matchWith (some file) (some mime)

end Selector

/-- `OpenRule`, `Previewer` and `Spotter`, by what they are chosen for. -/
structure Rule where
  id : Nat
  selector : Selector

namespace Rule

instance : Mixable Rule where
  filter _ := true
  anyFile rule := (rule.selector.url.map Pattern.anyFile).getD false
  anyDir rule := (rule.selector.url.map Pattern.anyDir).getD false

/-- The first rule of the list. -/
def first (rules : List Rule) (file : File) (mime : Bytes) : Option Rule :=
  rules.find? fun rule => rule.selector.matches file mime

/-- `insert` of the lists of rules, at an index that is in the list or at its end. -/
def insert (rules : List Rule) (i : Nat) (rule : Rule) : List Rule :=
  if i = rules.length then mix [] rules [rule] else mix [] (rules.take i ++ rule :: rules.drop i) []

end Rule

/-! ### What mixing keeps -/

section mixing
variable {E : Type} [Mixable E]
open Mixable

def kept (l : List E) : List E := l.filter filter

/-- Of the two kinds of rules for everything, the one for files or the one for directories. -/
def anyOf (dir : Bool) (x : E) : Bool := if dir then anyDir x else anyFile x

def seen (dir : Bool) (flags : Bool × Bool) : Bool := if dir then flags.2 else flags.1

/-- What a rule for everything says of one thing, which may be a directory. -/
structure Fits (dir : Bool) (hits : E → Bool) (l : List E) : Prop where
  all : ∀ x ∈ l, anyOf dir x = true → hits x = true
  others : ∀ x ∈ l, anyOf (!dir) x = true → hits x = false

theorem Fits.cons {dir : Bool} {hits : E → Bool} {x : E} {l : List E} (fits : Fits dir hits (x :: l)) :
    (anyOf dir x = true → hits x = true) ∧ (anyOf (!dir) x = true → hits x = false) ∧
      Fits dir hits l :=
  ⟨fits.all x List.mem_cons_self, fits.others x List.mem_cons_self,
    fun y member => fits.all y (List.mem_cons_of_mem x member),
    fun y member => fits.others y (List.mem_cons_of_mem x member)⟩

theorem Fits.append {dir : Bool} {hits : E → Bool} {l r : List E} (fits : Fits dir hits (l ++ r)) :
    Fits dir hits l ∧ Fits dir hits r :=
  ⟨⟨fun x member => fits.all x (List.mem_append_left r member),
      fun x member => fits.others x (List.mem_append_left r member)⟩,
    ⟨fun x member => fits.all x (List.mem_append_right l member),
      fun x member => fits.others x (List.mem_append_right l member)⟩⟩

/-- One step over the rules, for one kind. -/
theorem dedup_cons (dir : Bool) {hits : E → Bool} {x : E} {l : List E} (flags : Bool × Bool)
    (fits : Fits dir hits (x :: l)) :
    ∃ flags', seen dir flags' = (seen dir flags || filter x && anyOf dir x) ∧
      (dedup flags (x :: l)).2 = (dedup flags' l).2 ∧
      ((dedup flags (x :: l)).1 = (dedup flags' l).1 ∧
          (hits x = false ∨ filter x = false ∨ anyOf dir x = true ∧ seen dir flags = true) ∨
        (dedup flags (x :: l)).1 = x :: (dedup flags' l).1 ∧ filter x = true ∧
          ¬(anyOf dir x = true ∧ seen dir flags = true)) := by
  obtain ⟨file, directory⟩ := flags
  obtain ⟨all, others, -⟩ := fits.cons
  rw [dedup]
  by_cases passes : filter x = true
  · rw [if_neg (by simpa using passes)]
    by_cases again : (anyFile x && file) = true
    · rw [if_pos again]
      obtain ⟨isFile, given⟩ := Bool.and_eq_true_iff.mp again
      cases dir with
      | false => exact ⟨_, by simp [seen, given], rfl, .inl ⟨rfl, .inr (.inr ⟨isFile, given⟩)⟩⟩
      | true =>
        have wrong := others isFile
        have other : anyDir x = false := by
          by_contra both
          exact Bool.false_ne_true (wrong.symm.trans (all (Bool.not_eq_false _ ▸ both)))
        exact ⟨_, by simp [seen, anyOf, other], rfl, .inl ⟨rfl, .inl wrong⟩⟩
    · rw [if_neg again]
      by_cases again' : (anyDir x && directory) = true
      · rw [if_pos again']
        obtain ⟨isDir, given⟩ := Bool.and_eq_true_iff.mp again'
        cases dir with
        | false => exact ⟨_, by simp [seen, anyOf, passes], rfl, .inl ⟨rfl, .inl (others isDir)⟩⟩
        | true => exact ⟨_, by simp [seen, given], rfl, .inl ⟨rfl, .inr (.inr ⟨isDir, given⟩)⟩⟩
      · rw [if_neg again']
        refine ⟨(file || anyFile x, directory || anyDir x), ?_, rfl, .inr ⟨rfl, passes, ?_⟩⟩
        · cases dir <;> simp [seen, anyOf, passes]
        · cases dir with
          | false => exact fun both => again (Bool.and_eq_true_iff.mpr both)
          | true => exact fun both => again' (Bool.and_eq_true_iff.mpr both)
  · rw [if_pos (by simpa using passes)]
    have fails : filter x = false := Bool.eq_false_iff.mpr passes
    exact ⟨_, by rw [fails, Bool.false_and, Bool.or_false], rfl, .inl ⟨rfl, .inr (.inl fails)⟩⟩

theorem dedup_seen {dir : Bool} {hits : E → Bool} {l : List E} (fits : Fits dir hits l)
    (flags : Bool × Bool) :
    seen dir (dedup flags l).2 = (seen dir flags || (kept l).any (anyOf dir)) := by
  induction l generalizing flags with
  | nil => exact (Bool.or_false _).symm
  | cons x l ih =>
    obtain ⟨flags', now, same, -⟩ := dedup_cons dir flags fits
    rw [same, ih fits.cons.2.2, now, kept, kept, List.filter_cons]
    cases filter x <;> simp [Bool.or_assoc]

/-- The first rule that hits is not lost, unless it is one for everything and there was one. -/
theorem dedup_first {dir : Bool} {hits : E → Bool} {l : List E} (fits : Fits dir hits l)
    (flags : Bool × Bool) :
    (dedup flags l).1.find? hits =
      (kept l).find? fun x => hits x && !(seen dir flags && anyOf dir x) := by
  induction l generalizing flags with
  | nil => rfl
  | cons x l ih =>
    obtain ⟨flags', now, -, step⟩ := dedup_cons dir flags fits
    obtain ⟨all, -, fits'⟩ := fits.cons
    have rest := ih fits' flags'
    rw [kept, List.filter_cons, ← kept]
    rcases step with ⟨dropped, why⟩ | ⟨stays, passes, first⟩
    · have same : seen dir flags' = seen dir flags := by
        rw [now]
        rcases why with miss | fails | ⟨-, given⟩
        · have other : anyOf dir x = false := by
            by_contra hit
            exact Bool.false_ne_true (miss.symm.trans (all (Bool.not_eq_false _ ▸ hit)))
          rw [other, Bool.and_false, Bool.or_false]
        · rw [fails, Bool.false_and, Bool.or_false]
        · rw [given, Bool.true_or]
      rw [dropped, rest, same]
      rcases why with miss | fails | ⟨is, given⟩
      · split <;> simp [miss]
      · simp [fails]
      · split <;> simp [is, given]
    · rw [stays, if_pos passes]
      by_cases hit : hits x = true
      · have now : (!(seen dir flags && anyOf dir x)) = true := by
          rw [Bool.not_eq_true', Bool.and_eq_false_iff, ← Bool.not_eq_true, ← Bool.not_eq_true]
          exact not_and_or.mp fun both => first ⟨both.2, both.1⟩
        rw [List.find?_cons_of_pos hit, List.find?_cons, hit, now]
        rfl
      · have other : anyOf dir x = false := Bool.eq_false_iff.mpr fun is => hit (all is)
        have same : seen dir flags' = seen dir flags := by
          rw [now, other, Bool.and_false, Bool.or_false]
        rw [List.find?_cons_of_neg hit, rest, same, List.find?_cons, Bool.eq_false_iff.mpr hit]
        rfl

theorem dedup_plain {hits : E → Bool} {l : List E}
    (plain : ∀ x ∈ l, hits x = true → anyFile x = false ∧ anyDir x = false) (flags : Bool × Bool) :
    (dedup flags l).1.find? hits = (kept l).find? hits := by
  induction l generalizing flags with
  | nil => rfl
  | cons x l ih =>
    obtain ⟨here, others⟩ := List.forall_mem_cons.mp plain
    obtain ⟨file, dir⟩ := flags
    rw [dedup, kept, List.filter_cons, ← kept]
    cases passes : filter x with
    | false => exact ih others _
    | true =>
      by_cases hit : hits x = true
      · obtain ⟨notFile, notDir⟩ := here hit
        simp [notFile, notDir, hit]
      · rw [Bool.not_true, if_neg Bool.false_ne_true, if_pos rfl, List.find?_cons_of_neg hit]
        split
        · exact ih others _
        · split
          · exact ih others _
          · exact (List.find?_cons_of_neg hit).trans (ih others _)

theorem dedup_none (file : ∀ x : E, anyFile x = false) (dir : ∀ x : E, anyDir x = false)
    (l : List E) : dedup (false, false) l = (kept l, (false, false)) := by
  induction l with
  | nil => rfl
  | cons x l ih => cases passes : filter x <;> simp [dedup, kept, passes, file, dir, ih]

theorem mix_plain (file : ∀ x : E, anyFile x = false) (dir : ∀ x : E, anyDir x = false)
    (a b c : List E) : mix a b c = kept a ++ kept b ++ kept c := by
  rw [mix, dedup_none file dir, dedup_none file dir]
  simp [dedup_none file dir]

/-- Rules that are put before come first. One for everything that is put after takes the place of
the own ones; what else is put after comes last. -/
theorem mix_first {dir : Bool} {hits : E → Bool} {a b c : List E} (fits : Fits dir hits (a ++ b ++ c)) :
    (mix a b c).find? hits =
      (kept a ++ (kept b).filter (fun x => !((kept c).any (anyOf dir) && anyOf dir x)) ++
        kept c).find? hits := by
  obtain ⟨fits', fitsC⟩ := fits.append
  obtain ⟨fitsA, fitsB⟩ := fits'.append
  have none (dir : Bool) : seen dir (false, false) = false := by cases dir <;> rfl
  have plain {l : List E} (fits : Fits dir hits l) :
      (dedup (false, false) l).1.find? hits = (kept l).find? hits := by
    rw [dedup_first fits, none]
    simp
  have after := dedup_seen fitsC (false, false)
  rw [none, Bool.false_or] at after
  have last := plain fitsC
  rw [mix]
  generalize dedup (false, false) c = ended at after last ⊢
  obtain ⟨ended, file, directory⟩ := ended
  dsimp only at after last ⊢
  rw [List.find?_append, List.find?_append, List.find?_append, List.find?_append, plain fitsA, last,
    ← after]
  by_cases given : (kept a).any (anyOf dir) = true
  · obtain ⟨x, member, is⟩ := List.any_eq_true.mp given
    have found : ((kept a).find? hits).isSome = true := by
      rw [List.find?_isSome]
      exact ⟨x, member, fits.all x (List.mem_append_left c (List.mem_append_left b
        (List.mem_of_mem_filter member))) is⟩
    obtain ⟨y, found⟩ := Option.isSome_iff_exists.mp found
    rw [found]
    rfl
  · have before := dedup_seen fitsA (false, false)
    rw [none, Bool.false_or, Bool.eq_false_iff.mpr given] at before
    generalize (dedup (false, false) a).2 = flags at before
    simp only [List.find?_filter, Bool.decide_and, Bool.decide_eq_true]
    congr 2
    -- The rules of the other kind do not hit, so their flag is as good as unset.
    have other {x : E} (member : x ∈ b) (hit : hits x = true) : anyOf (!dir) x = false := by
      by_contra is
      exact Bool.false_ne_true ((fitsB.others x member (Bool.not_eq_false _ ▸ is)).symm.trans hit)
    have same : ∀ x ∈ b, (!(file && anyFile x || directory && anyDir x) && hits x) =
        (!(seen dir (file, directory) && anyOf dir x) && hits x) := by
      intro x member
      by_cases hit : hits x = true
      · have is := other member hit
        cases dir with
        | false => rw [show anyDir x = false from is, Bool.and_false, Bool.or_false]; rfl
        | true => rw [show anyFile x = false from is, Bool.and_false, Bool.false_or]; rfl
      · rw [Bool.eq_false_iff.mpr hit, Bool.and_false, Bool.and_false]
    refine Eq.trans ?_ (List.find?_congr fun x member => same x (List.mem_of_mem_filter member))
    cases replaced : seen dir (file, directory) with
    | true =>
      refine dedup_plain (fun x member both => ?_) flags
      rw [same x member, replaced, Bool.true_and, Bool.and_eq_true_iff, Bool.not_eq_true'] at both
      have is := other member both.2
      cases dir with
      | false => exact ⟨both.1, is⟩
      | true => exact ⟨is, both.1⟩
    | false =>
      have fits' : Fits dir (fun x => !(file && anyFile x || directory && anyDir x) && hits x) b := by
        refine ⟨fun x member is => ?_, fun x member is => ?_⟩
        · rw [same x member, replaced, fitsB.all x member is]
          rfl
        · rw [fitsB.others x member is, Bool.and_false]
      rw [dedup_first fits', before]
      simp

end mixing

namespace Rule

/-- A rule for everything is not for a media type. -/
def Plain (rule : Rule) : Prop :=
  Mixable.anyFile rule || Mixable.anyDir rule → ∀ p ∈ rule.selector.mime, p.isStar = true

theorem fits {rules : List Rule} (plain : ∀ rule ∈ rules, rule.Plain) (file : File) (mime : Bytes) :
    Fits file.isDir (fun rule => rule.selector.matches file mime) rules := by
  have hits (rule : Rule) (dir : Bool) (is : anyOf dir rule = true) :
      ∃ p, rule.selector.url = some p ∧ p.isStar = true ∧ p.isDir = dir ∧ p.scheme = .any := by
    cases given : rule.selector.url with
    | none => cases dir <;> simp [anyOf, Mixable.anyFile, Mixable.anyDir, given] at is
    | some p =>
      refine ⟨p, rfl, ?_⟩
      cases dir <;> simpa [anyOf, Mixable.anyFile, Mixable.anyDir, given, Pattern.anyFile,
        Pattern.anyDir, and_assoc] using is
  constructor
  · intro rule member is
    obtain ⟨p, url, star, dir, scheme⟩ := hits rule _ is
    have everything : (Mixable.anyFile rule || Mixable.anyDir rule) = true := by
      revert is
      cases file.isDir with
      | false => exact fun is => by rw [show Mixable.anyFile rule = true from is, Bool.true_or]
      | true => exact fun is => by rw [show Mixable.anyDir rule = true from is, Bool.or_true]
    have matched : p.matchUrl file.url file.isDir = true := by
      simp [Pattern.matchUrl, star, dir, scheme, PatternScheme.matches]
    have stars := plain rule member everything
    obtain ⟨id, url', mime'⟩ := rule
    obtain rfl : url' = some p := url
    cases mime' with
    | none => simp [Selector.matches, Selector.matchWith, matched]
    | some m => simp [Selector.matches, Selector.matchWith, matched, Pattern.matchMime, stars m rfl]
  · intro rule _ is
    obtain ⟨p, url, -, dir, -⟩ := hits rule _ is
    have other : p.matchUrl file.url file.isDir = false := by
      rw [Pattern.matchUrl, dir, if_pos (by cases file.isDir <;> decide)]
    obtain ⟨id, url', mime'⟩ := rule
    obtain rfl : url' = some p := url
    simp [Selector.matches, Selector.matchWith, other]

/-- Which rule is taken for a file, of the mixed ones: the rules that are put before come first,
and one for everything that is put after takes the place of the own ones for everything. -/
theorem first_mix {before own after : List Rule}
    (plain : ∀ rule ∈ before ++ own ++ after, rule.Plain) (file : File) (mime : Bytes) :
    first (mix before own after) file mime =
      first (before ++
        own.filter (fun rule => !(after.any (anyOf file.isDir) && anyOf file.isDir rule)) ++
          after) file mime := by
  have all (l : List Rule) : kept l = l := List.filter_true l
  have mixed := mix_first (fits plain file mime)
  rwa [all, all, all] at mixed

private def everything (id : Nat) : Rule := ⟨id, some ⟨fun _ => true, .any, false, true⟩, none⟩

private def texts (id : Nat) : Rule :=
  ⟨id, none, some ⟨fun mime => mime = text "text/plain", .any, false, false⟩⟩

private def regular : File := .fromDummy (.regular (text "/d/a")) none

theorem first_mix_sample :
    first (mix [texts 1] [everything 2, texts 3] [texts 4, everything 5]) regular
        (text "image/png") = some (everything 5) ∧
      first (mix [texts 1] [everything 2, texts 3] [texts 4, everything 5]) regular
        (text "text/plain") = some (texts 1) := by
  have plain : ∀ rule ∈ [texts 1] ++ [everything 2, texts 3] ++ [texts 4, everything 5],
      rule.Plain := by
    simp [Plain, everything, texts, Mixable.anyFile, Mixable.anyDir]
  exact ⟨(first_mix plain _ _).trans rfl, (first_mix plain _ _).trans rfl⟩

/-- At the end, a rule for everything takes the place of the ones that are there. -/
theorem first_insert {rules : List Rule} {rule : Rule} (i : Nat)
    (plain : ∀ r ∈ rule :: rules, r.Plain) (file : File) (mime : Bytes) :
    first (insert rules i rule) file mime =
      if i = rules.length ∧ anyOf file.isDir rule = true then
        (first (rules.filter fun r => !anyOf file.isDir r) file mime).or
          (first [rule] file mime)
      else first (rules.take i ++ rule :: rules.drop i) file mime := by
  have all (l : List Rule) : kept l = l := List.filter_true l
  rw [insert]
  by_cases atEnd : i = rules.length
  · have plain' : ∀ r ∈ [] ++ rules ++ [rule], r.Plain := by simpa [or_comm] using plain
    have mixed := mix_first (fits plain' file mime)
    simp only [all, List.nil_append, List.any_cons, List.any_nil, Bool.or_false] at mixed
    rw [if_pos atEnd, first, mixed, List.find?_append]
    cases everything : anyOf file.isDir rule with
    | true => simp [atEnd, first]
    | false => simp [atEnd, first]
  · have plain' : ∀ r ∈ [] ++ (rules.take i ++ rule :: rules.drop i) ++ [], r.Plain := by
      intro r member
      simp only [List.nil_append, List.append_nil, List.mem_append, List.mem_cons] at member
      rcases member with front | rfl | back
      · exact plain r (List.mem_cons_of_mem rule (List.mem_of_mem_take front))
      · exact plain r List.mem_cons_self
      · exact plain r (List.mem_cons_of_mem rule (List.mem_of_mem_drop back))
    have mixed := mix_first (fits plain' file mime)
    simp only [all, List.nil_append, List.append_nil, List.any_nil, Bool.false_and,
      Bool.not_false, List.filter_true] at mixed
    rw [if_neg atEnd, if_neg fun both => atEnd both.1, first, mixed, first]

end Rule

end Yazi.Config
