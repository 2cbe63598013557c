import Yazi.Base.Run
import Yazi.Cli.Deployed

/-!
`ya pkg`: the commands on the packages of `package.toml`, with whatever else happens to the files
in between.
-/
namespace Yazi.Cli
open Base Shared Dependency

structure Package where
  plugins : List Dependency
  flavors : List Dependency
  deriving DecidableEq

namespace Package

def all (p : Package) : List Dependency := p.plugins ++ p.flavors

def identical (p : Package) (other : Dependency) : Option Dependency :=
  p.all.find? (·.identical other)

/-- `Package::load`, of what `Package::save` wrote: which of the two a dependency is, is the table
that it is in. -/
def load (toml : Package) : Package :=
  ⟨toml.plugins.map fun d => { d with isFlavor := false },
    toml.flavors.map fun d => { d with isFlavor := true }⟩

def push (p : Package) (d : Dependency) : Package :=
  if d.isFlavor then { p with flavors := p.flavors ++ [d] } else { p with plugins := p.plugins ++ [d] }

def retain (p : Package) (dep : Dependency) : Package :=
  if dep.isFlavor then { p with flavors := p.flavors.filter fun d => !d.identical dep }
  else { p with plugins := p.plugins.filter fun d => !d.identical dep }

def get (p : Package) (flavors : Bool) (i : Nat) : Option Dependency :=
  if flavors then p.flavors[i]? else p.plugins[i]?

def set (p : Package) (flavors : Bool) (i : Nat) (d : Dependency) : Package :=
  if flavors then { p with flavors := p.flavors.set i d } else { p with plugins := p.plugins.set i d }

end Package

/-- The files, `package.toml`, and the packages of the command that runs. -/
structure Pkg where
  files : Files
  toml : Package
  package : Option Package
  deriving DecidableEq

/-- What the calls of a command meet: the ones that fail, `git`, and whether `package.toml` is
saved. -/
structure World where
  faults : List (Option Nat)
  git : Git
  saved : Bool

/-- One turn of the loop of a command, its begin or its end, or what others do to the files. -/
inductive Event where
  | edit (files : Files)
  | load
  | add (use : Bytes) (w : World)
  | delete (use : Bytes) (discard : Bool) (w : World)
  | install (flavors : Bool) (i : Nat) (discard : Bool) (w : World)
  | upgrade (flavors : Bool) (i : Nat) (discard : Bool) (w : World)
  | exit

namespace Event

/-- What is done for a package. -/
def isTurn : Event → Bool
  | add .. | delete .. | install .. | upgrade .. => true
  | _ => false

def discard : Event → Bool
  | delete _ discard _ | install _ _ discard _ | upgrade _ _ discard _ => discard
  | _ => false

end Event

namespace Pkg

variable (digest : Bytes → Bytes)

/-- `self.save().await?; r?`: after an error the command ends. -/
def turned (s : Pkg) (r : Except Error Unit) (p : Package) (files : Files) (saved : Bool) : Pkg where
  files := files
  toml := if saved then p else s.toml
  package :=
    match r with
    | .ok _ => if saved then some p else none
    | .error _ => none

def add (s : Pkg) (p : Package) (use : Bytes) (w : World) : Pkg :=
  match fromStr use with
  | .error e => s.turned (.error e) p s.files w.saved
  | .ok dep =>
    match p.identical dep with
    | some d => s.turned (.error (.alreadyExists d.isFlavor dep.name)) p s.files w.saved
    | none =>
      match outcome (Dependency.add digest w.git false) ⟨s.files, w.faults, dep⟩ with
      | (.ok _, c) => s.turned (.ok ()) (p.push c.self) c.files w.saved
      | (.error e, c) => s.turned (.error e) p c.files w.saved

def delete (s : Pkg) (p : Package) (use : Bytes) (discard : Bool) (w : World) : Pkg :=
  match fromStr use with
  | .error e => s.turned (.error e) p s.files w.saved
  | .ok dep =>
    match p.identical dep with
    | none => s.turned (.error (.unknown use)) p s.files w.saved
    | some dep =>
      match outcome (Dependency.delete digest dep discard) ⟨s.files, w.faults, dep⟩ with
      | (.ok _, c) => s.turned (.ok ()) (p.retain dep) c.files w.saved
      | (.error e, c) => s.turned (.error e) p c.files w.saved

/-- `install` or `upgrade` of one of the packages. -/
def fetch (s : Pkg) (p : Package) (how : Fetch) (flavors : Bool) (i : Nat) (discard : Bool)
    (w : World) : Option Pkg :=
  (p.get flavors i).map fun d =>
    let (r, c) := outcome (Dependency.fetch digest w.git discard how) ⟨s.files, w.faults, d⟩
    s.turned r (p.set flavors i c.self) c.files w.saved

def step (s : Pkg) : Event → Option Pkg
  | .edit files => some { s with files }
  | .load => if s.package = none then some { s with package := some s.toml.load } else none
  | .add use w => s.package.map fun p => s.add digest p use w
  | .delete use discard w => s.package.map fun p => s.delete digest p use discard w
  | .install flavors i discard w =>
    s.package.bind fun p => s.fetch digest p .install flavors i discard w
  | .upgrade flavors i discard w =>
    s.package.bind fun p => s.fetch digest p .upgrade flavors i discard w
  | .exit => s.package.map fun _ => { s with package := none }

/-- The name of the dependency that a turn is for. -/
def subject (s : Pkg) : Event → Option Bytes
  | .add use _ => (fromStr use).toOption.map (·.name)
  | .delete use _ _ => do
    let dep ← (fromStr use).toOption
    let p ← s.package
    (p.identical dep).map (·.name)
  | .install flavors i _ _ | .upgrade flavors i _ _ =>
    (s.package.bind (·.get flavors i)).map (·.name)
  | .edit _ | .load | .exit => none

/-- The dependencies that are known, on disk or in the command that runs. -/
def known (s : Pkg) : List Dependency := s.toml.all ++ s.package.elim [] Package.all

end Pkg

namespace Package

variable {p : Package} {d other : Dependency}

theorem mem_push : other ∈ (p.push d).all ↔ other ∈ p.all ∨ other = d := by
  rw [push]
  split
  · simp only [all, List.mem_append, List.mem_singleton, or_assoc]
  · simp only [all, List.mem_append, List.mem_singleton]
    exact or_right_comm

theorem mem_of_retain (member : other ∈ (p.retain d).all) : other ∈ p.all := by
  rw [retain] at member
  split at member
  · rcases List.mem_append.mp member with plugin | flavor
    · exact List.mem_append_left _ plugin
    · exact List.mem_append_right _ (List.mem_of_mem_filter flavor)
  · rcases List.mem_append.mp member with plugin | flavor
    · exact List.mem_append_left _ (List.mem_of_mem_filter plugin)
    · exact List.mem_append_right _ flavor

theorem mem_of_set {flavors : Bool} {i : Nat} (member : other ∈ (p.set flavors i d).all) :
    other ∈ p.all ∨ other = d := by
  rw [set] at member
  split at member
  · rcases List.mem_append.mp member with plugin | flavor
    · exact .inl (List.mem_append_left _ plugin)
    · exact (List.mem_or_eq_of_mem_set flavor).imp_left (List.mem_append_right _)
  · rcases List.mem_append.mp member with plugin | flavor
    · exact (List.mem_or_eq_of_mem_set plugin).imp_left (List.mem_append_left _)
    · exact .inl (List.mem_append_right _ flavor)

theorem mem_of_get {flavors : Bool} {i : Nat} (found : p.get flavors i = some d) : d ∈ p.all := by
  rw [get] at found
  split at found
  · exact List.mem_append_right _ (List.mem_of_getElem? found)
  · exact List.mem_append_left _ (List.mem_of_getElem? found)

theorem mem_of_load (member : other ∈ p.load.all) :
    ∃ d ∈ p.all, ∃ isFlavor, other = { d with isFlavor } := by
  rcases List.mem_append.mp member with plugin | flavor
  · obtain ⟨d, among, rfl⟩ := List.mem_map.mp plugin
    exact ⟨d, List.mem_append_left _ among, false, rfl⟩
  · obtain ⟨d, among, rfl⟩ := List.mem_map.mp flavor
    exact ⟨d, List.mem_append_right _ among, true, rfl⟩

end Package

namespace Pkg

variable {digest : Bytes → Bytes} {s t : Pkg} {e : Event}

/-- What a turn does: for a known dependency or a new one, and to no other. -/
structure Turn (digest : Bytes → Bytes) (s : Pkg) (e : Event) (d : Dependency) (c : Cx)
    (t : Pkg) : Prop where
  origin : d.hash = [] ∨ ∃ other ∈ s.known, d.hash = other.hash ∧ d.name = other.name
  done : Done digest s.files d e.discard c
  files : t.files = c.files
  known : ∀ other ∈ t.known, other ∈ s.known ∨ other = c.self ∧ s.subject e = some d.name

theorem mem_turned {r : Except Error Unit} {p : Package} {files : Files} {saved : Bool}
    {d : Dependency} (member : d ∈ (s.turned r p files saved).known) :
    d ∈ s.toml.all ∨ d ∈ p.all := by
  rcases List.mem_append.mp member with disk | running
  · cases saved with
    | true => exact .inr disk
    | false => exact .inl disk
  · cases r with
    | error e => exact absurd running List.not_mem_nil
    | ok _ =>
      cases saved with
      | true => exact .inr running
      | false => exact absurd running List.not_mem_nil

theorem Turn.idle {p : Package} (running : s.package = some p) (e : Event) (r : Except Error Unit)
    (saved : Bool) : ∃ d c, Turn digest s e d c (s.turned r p s.files saved) := by
  refine ⟨⟨[], [], [], [], [], [], false⟩, ⟨s.files, [], _⟩, .inl rfl, .still ⟨rfl, rfl⟩, rfl, ?_⟩
  intro other member
  rw [Pkg.known, running]
  exact .inl (List.mem_append.mpr (mem_turned member))

theorem fetch_turn {p : Package} (running : s.package = some p) {how : Fetch} {flavors : Bool} {i : Nat}
    {w : World} (subject : s.subject e = ((s.package.bind (·.get flavors i)).map (·.name)))
    (move : s.fetch digest p how flavors i e.discard w = some t) : ∃ d c, Turn digest s e d c t := by
  obtain ⟨d, found, rfl⟩ := Option.map_eq_some_iff.mp move
  rw [running, Option.bind_some, found, Option.map_some] at subject
  have among : d ∈ s.known := by
    rw [known, running]
    exact List.mem_append_right _ (Package.mem_of_get found)
  obtain ⟨isFlavor, done⟩ := done_fetch w.git e.discard how ⟨s.files, w.faults, d⟩ ⟨rfl, rfl⟩
  refine ⟨{ d with isFlavor }, _, .inr ⟨d, among, rfl, rfl⟩, done, rfl, fun other member => ?_⟩
  rcases mem_turned member with disk | running'
  · exact .inl (List.mem_append_left _ disk)
  · rcases Package.mem_of_set running' with old | new
    · rw [known, running]
      exact .inl (List.mem_append_right _ old)
    · exact .inr ⟨new, subject⟩

theorem fromStr_hash {use : Bytes} {dep : Dependency} (parsed : fromStr use = .ok dep) :
    dep.hash = [] := by
  unfold fromStr at parsed
  dsimp only at parsed
  split at parsed
  · cases parsed
  · split_ifs at parsed
    all_goals first | (cases parsed; done) | (cases parsed; rfl)

theorem delete_turn {p : Package} (running : s.package = some p) (use : Bytes) (discard : Bool)
    (w : World) :
    ∃ d c, Turn digest s (.delete use discard w) d c (s.delete digest p use discard w) := by
  unfold delete
  cases parsed : fromStr use with
  | error e => exact Turn.idle running ..
  | ok other =>
    dsimp only
    cases there : p.identical other with
    | none => exact Turn.idle running ..
    | some dep =>
      have among : dep ∈ s.known := by
        rw [known, running]
        exact List.mem_append_right _ (List.mem_of_find?_eq_some there)
      have done := @done_delete dep s.files digest discard ⟨s.files, w.faults, dep⟩ ⟨rfl, rfl⟩
      have turn {r : Except Error Unit} {c : Cx} {p' : Package}
          (done : Done digest s.files dep discard c) (into : ∀ other ∈ p'.all, other ∈ p.all) :
          ∃ d c', Turn digest s (.delete use discard w) d c' (s.turned r p' c.files w.saved) := by
        refine ⟨dep, c, .inr ⟨dep, among, rfl, rfl⟩, done, rfl, fun other member => .inl ?_⟩
        rw [known, running]
        exact List.mem_append.mpr ((mem_turned member).imp_right (into other))
      revert done
      dsimp only
      generalize outcome (Dependency.delete digest dep discard) ⟨s.files, w.faults, dep⟩ = done
      obtain ⟨r, c⟩ := done
      intro done
      cases r with
      | ok _ => exact turn done fun other => Package.mem_of_retain
      | error e => exact turn done fun other => id

theorem add_turn {p : Package} (running : s.package = some p) (use : Bytes) (w : World) :
    ∃ d c, Turn digest s (.add use w) d c (s.add digest p use w) := by
  have inside {other : Dependency} (member : other ∈ p.all) : other ∈ s.known := by
    rw [known, running]
    exact List.mem_append_right _ member
  unfold add
  cases parsed : fromStr use with
  | error e => exact Turn.idle running ..
  | ok dep =>
    dsimp only
    cases there : p.identical dep with
    | some d => exact Turn.idle running ..
    | none =>
      obtain ⟨isFlavor, done⟩ := @done_fetch dep s.files digest w.git false .add
        ⟨s.files, w.faults, dep⟩ ⟨rfl, rfl⟩
      have new : dep.hash = [] := fromStr_hash parsed
      have turn {r : Except Error Unit} {c : Cx} {p' : Package}
          (done : Done digest s.files { dep with isFlavor } false c)
          (into : ∀ other ∈ p'.all, other ∈ p.all ∨ other = c.self) :
          ∃ d c', Turn digest s (.add use w) d c' (s.turned r p' c.files w.saved) := by
        have subject : s.subject (.add use w) = some dep.name := by
          rw [Pkg.subject, parsed]
          rfl
        refine ⟨{ dep with isFlavor }, c, .inl new, done, rfl, fun other member => ?_⟩
        rcases mem_turned member with disk | running'
        · exact .inl (List.mem_append_left _ disk)
        · exact (into other running').imp inside fun new => ⟨new, subject⟩
      rw [Dependency.fetch] at done
      revert done
      dsimp only
      generalize outcome (Dependency.add digest w.git false) ⟨s.files, w.faults, dep⟩ = done
      obtain ⟨r, c⟩ := done
      intro done
      cases r with
      | ok _ => exact turn done fun other => Package.mem_push.mp
      | error e => exact turn done fun other => .inl

theorem step_turn (turn : e.isTurn = true) (move : step digest s e = some t) :
    ∃ d c, Turn digest s e d c t := by
  cases running : s.package with
  | none =>
    cases e with
    | edit | load | exit => cases turn
    | add | delete | install | upgrade => rw [step, running] at move; cases move
  | some p =>
    cases e with
    | edit files | load | exit => cases turn
    | add use w =>
      rw [step, running] at move
      cases move
      exact add_turn running use w
    | delete use discard w =>
      rw [step, running] at move
      cases move
      exact delete_turn running use discard w
    | install flavors i discard w | upgrade flavors i discard w =>
      rw [step, running] at move
      exact fetch_turn running rfl move

theorem known_idle (idle : e.isTurn = false) (move : step digest s e = some t) {other : Dependency}
    (member : other ∈ t.known) : ∃ d ∈ s.known, other.hash = d.hash ∧ other.name = d.name := by
  cases e with
  | add | delete | install | upgrade => cases idle
  | edit files =>
    cases move
    exact ⟨other, member, rfl, rfl⟩
  | load =>
    rw [step] at move
    split at move
    · cases move
      rcases List.mem_append.mp member with disk | running
      · exact ⟨other, List.mem_append_left _ disk, rfl, rfl⟩
      · obtain ⟨d, among, isFlavor, rfl⟩ := Package.mem_of_load running
        exact ⟨d, List.mem_append_left _ among, rfl, rfl⟩
    · cases move
  | exit =>
    obtain ⟨p, running, rfl⟩ := Option.map_eq_some_iff.mp move
    rcases List.mem_append.mp member with disk | none
    · exact ⟨other, List.mem_append_left _ disk, rfl, rfl⟩
    · exact absurd none List.not_mem_nil

/-! ### Runs -/

/-- Nothing was added yet. -/
def Fresh (s : Pkg) : Prop := s.known = []

/-- A turn for a dependency of that name recorded the hash, which is the one of the files that the
directory of the dependency then had. -/
def Left (digest : Bytes → Bytes) (s : Pkg) (past : List Event) (name hash : Bytes) : Prop :=
  ∃ before turn after v u, past = before ++ turn :: after ∧ Run (step digest) s before v ∧
    step digest v turn = some u ∧ v.subject turn = some name ∧
    ∃ d ∈ u.known, d.name = name ∧ d.hash = hash ∧
      hash = digest (content u.files d.isFlavor d.name)

theorem Left.more {past : List Event} {name hash : Bytes} (left : Left digest s past name hash)
    (later : List Event) : Left digest s (past ++ later) name hash := by
  obtain ⟨before, turn, after, v, u, rfl, rest⟩ := left
  exact ⟨before, turn, after ++ later, v, u, by simp, rest⟩

/-- The hashes that are known are of what turns have left. -/
def Recorded (digest : Bytes → Bytes) (s : Pkg) (past : List Event) (u : Pkg) : Prop :=
  ∀ d ∈ u.known, d.hash = [] ∨ Left digest s past d.name d.hash

theorem recorded {events : List Event} (fresh : s.Fresh) (run : Run (step digest) s events t) :
    Recorded digest s events t := by
  refine run.invariant_of_past (fun past u e v before known move => ?_) ?_
  · cases turn : e.isTurn with
    | true =>
      obtain ⟨d, c, did⟩ := step_turn turn move
      intro other member
      have kept (d : Dependency) (among : d ∈ u.known) :
          d.hash = [] ∨ Left digest s (past ++ [e]) d.name d.hash :=
        (known d among).imp_right fun left => left.more [e]
      rcases did.known other member with old | ⟨rfl, subject⟩
      · exact kept other old
      · have name : c.self.bare.name = d.bare.name := by rw [did.done.self]
        have name : c.self.name = d.name := name
        rcases did.done.hash with same | now
        · rw [same, name]
          rcases did.origin with new | ⟨d', among, hash, name⟩
          · exact .inl new
          · rw [hash, name]
            exact kept d' among
        · refine .inr ⟨past, e, [], u, v, rfl, before, move, ?_, c.self, member, rfl, rfl, ?_⟩
          · rw [subject, name]
          · rw [now, did.files, did.done.flavor, name]
    | false =>
      intro other member
      obtain ⟨d, among, hash, name⟩ := known_idle turn move member
      rw [hash, name]
      exact (known d among).imp_right fun left => left.more [e]
  · intro d member
    rw [fresh] at member
    exact absurd member List.not_mem_nil

/-- The path is in the directory. -/
def within (dir p : Path) : Bool := dir.isPrefixOf p

theorem spares_within {d : Dependency} {isFlavor : Bool} {name : Bytes}
    (other : directory isFlavor name ≠ d.target) : d.Spares (within (directory isFlavor name)) := by
  have out (rest : Path) : within (directory isFlavor name) (d.target ++ rest) = false := by
    rw [← Bool.not_eq_true, within, List.isPrefixOf_iff_prefix]
    intro inside
    have both := List.prefix_or_prefix_of_prefix inside (List.prefix_append d.target rest)
    rcases both with below | below
    · exact other (below.eq_of_length rfl)
    · exact other (below.eq_of_length rfl).symm
  exact ⟨fun file _ => out [file], fun name => out [assets, name]⟩

theorem directory_inj {isFlavor isFlavor' : Bool} {name name' : Bytes}
    (same : directory isFlavor name = directory isFlavor' name') :
    isFlavor = isFlavor' ∧ name = name' := by
  obtain ⟨kind, same⟩ := List.cons.inj same
  refine ⟨?_, (List.cons.inj same).1⟩
  cases isFlavor <;> cases isFlavor' <;> first | rfl | exact absurd kind (by decide)

/-- Without `--discard`, the files of a directory that is there are changed only if they have the
hash of what was there after an earlier turn. -/
theorem overwritten_left (hex : ∀ b, digest b ≠ []) {events : List Event} {u : Pkg} (fresh : s.Fresh)
    (run : Run (step digest) s events t) (move : step digest t e = some u) (turn : e.isTurn = true)
    (checks : e.discard = false) {isFlavor : Bool} {name : Bytes}
    (there : t.files.lookup (directory isFlavor name) ≠ .error .notFound)
    (changed : u.files.only (within (directory isFlavor name)) ≠
      t.files.only (within (directory isFlavor name))) :
    Left digest s events name (digest (content t.files isFlavor name)) := by
  obtain ⟨d, c, did⟩ := step_turn turn move
  rw [did.files] at changed
  have target : directory isFlavor name = d.target := by
    by_contra other
    exact changed (did.done.kept _ (spares_within other))
  obtain ⟨rfl, rfl⟩ := directory_inj target
  rcases did.done.checked checks with absent | hash | same
  · exact absurd absent there
  · rw [← hash]
    have some : d.hash ≠ [] := hash ▸ hex _
    rcases did.origin with new | ⟨other, among, same, name⟩
    · exact absurd new some
    · rw [same] at some ⊢
      rw [name]
      exact (recorded fresh run other among).resolve_left some
  · exact absurd (same _) changed

/-- The files that are made one after the other. -/
def disk (entries : List (Path × Node)) : Files :=
  entries.foldl (fun files e =>
    match files.make e.1 e.2 with
    | .ok done => done
    | .error _ => files) ⟨[], .nil, fun _ member => absurd member List.not_mem_nil⟩

/-- No call fails, and the repository has a plugin with this source. -/
def world (main : String) : World where
  faults := []
  git := {
    pulled := some (disk [([], .dir), ([text "LICENSE"], .file [1]),
      ([text "README.md"], .file [2]), ([text "main.lua"], .file (text main))])
    fetched := none
    checkout := fun _ => none
    revision := some [0x31] }
  saved := true

def tagged (b : Bytes) : Bytes := 0x30 :: b

def empty : Pkg := ⟨disk [([], .dir)], ⟨[], []⟩, none⟩

private def adding : List Event := [.load, .add (text "a/b") (world "1"), .exit, .load]

private def added : Pkg := (exec (step tagged) empty adding).getD empty

private def upgraded : Pkg := (step tagged added (.upgrade false 0 false (world "2"))).getD empty

theorem overwritten_left_sample :
    Left tagged empty adding (text "b.yazi") (tagged (content added.files false (text "b.yazi"))) := by
  have run : Run (step tagged) empty adding added := run_of_exec (by decide +kernel)
  have move : step tagged added (.upgrade false 0 false (world "2")) = some upgraded := by
    decide +kernel
  have fresh : empty.Fresh := rfl
  have there : added.files.lookup (directory false (text "b.yazi")) ≠ .error .notFound := by
    decide +kernel
  exact overwritten_left (fun b => List.cons_ne_nil _ b) fresh run move rfl rfl there
    (by decide +kernel)

/-- Where plugins and flavors have the files that are deployed. -/
def tracked : Path → Bool
  | [kind, _, file] =>
    kind = text "plugins" && owns false file || kind = text "flavors" && owns true file
  | [kind, _, dir, _] => (kind = text "plugins" || kind = text "flavors") && dir = assets
  | _ => false

theorem spares_untracked (d : Dependency) : d.Spares fun p => !tracked p := by
  have kind : (directory d.isFlavor d.name).head? =
      some (if d.isFlavor then text "flavors" else text "plugins") := rfl
  constructor
  · intro file own
    rw [Bool.not_eq_false', target, directory]
    cases flavor : d.isFlavor with
    | true =>
      rw [flavor] at own
      simp [tracked, own]
    | false =>
      rw [flavor] at own
      simp [tracked, own]
  · intro name
    rw [Bool.not_eq_false', target, directory]
    cases d.isFlavor <;> simp [tracked]

/-- Whatever is done for packages and whatever fails, other files stay as they are. -/
theorem untracked_kept {events : List Event} (run : Run (step digest) s events t)
    (own : ∀ e ∈ events, ∀ files, e ≠ .edit files) :
    (t.files.only fun p => !tracked p) = s.files.only fun p => !tracked p := by
  refine run.invariant_of_labels (P := fun u => (u.files.only fun p => !tracked p) =
    s.files.only fun p => !tracked p) (fun u e v member same move => ?_) rfl
  rw [← same]
  cases turn : e.isTurn with
  | true =>
    obtain ⟨d, c, did⟩ := step_turn turn move
    rw [did.files]
    exact did.done.kept _ (spares_untracked d)
  | false =>
    cases e with
    | add | delete | install | upgrade => cases turn
    | edit files => exact absurd rfl (own _ member files)
    | load =>
      rw [step] at move
      split at move
      · cases move
        rfl
      · cases move
    | exit =>
      obtain ⟨p, running, rfl⟩ := Option.map_eq_some_iff.mp move
      rfl

private def mixed : Pkg :=
  ⟨disk [([], .dir), ([text "init.lua"], .file [3])], ⟨[], []⟩, none⟩

theorem untracked_kept_sample :
    (exec (step tagged) mixed adding).map (fun s => s.files.only fun p => !tracked p) =
      some [([text "init.lua"], .file [3])] := by
  have reached : (exec (step tagged) mixed adding).isSome = true := by decide +kernel
  have own : ∀ e ∈ adding, ∀ files, e ≠ .edit files := by
    intro e member files same
    subst same
    simp [adding] at member
  rw [← Option.some_get reached, Option.map_some, untracked_kept (run_exec reached) own]
  rfl

end Pkg
end Yazi.Cli
