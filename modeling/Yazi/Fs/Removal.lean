import Mathlib
import Yazi.Fs.Remover

/-!
A removal stays in its tree and leaves nothing behind.

Directories are opened by their names in others that are open, never through a link, so that all
of them are reached from the root. A directory that is removed is bare, and each entry it once had
has been taken away before.
-/
namespace Yazi.Fs.Remover
open Yazi.Base Yazi.Shared

-- ═══════════════════════════════════════════════════════════════
-- Calls
-- ═══════════════════════════════════════════════════════════════

namespace System
variable {disk now : Disk Bytes} {d i : Nat} {name : Bytes} {removedir : Bool}
  {fault : Option Errno}

theorem openat_ok (found : openat disk d name fault = .ok i) :
    resolve disk d name = some i ∧ disk.isDir i = true := by
  unfold openat at found
  split at found
  · cases found
  · cases found
  next j here =>
    split at found
    next entries is =>
      cases found
      exact ⟨here, by rw [Disk.isDir, is]⟩
    · cases found
    · cases found

/-- What a call to unlink finds, unless it fails by itself. -/
theorem unlinkat_eq (disk : Disk Bytes) (d : Nat) (name : Bytes) (removedir : Bool) :
    unlinkat disk d name removedir none =
      if isDots name then .error .inval
      else
        match disk.entry d name with
        | none => .error .noent
        | some i =>
          match disk.inode i, removedir with
          | .dir entries, true => if entries = [] then .ok i else .error .notempty
          | .dir _, false => .error .isdir
          | _, true => .error .notdir
          | _, false => .ok i := rfl

theorem unlinkat_ok (done : unlinkat disk d name removedir fault = .ok i) :
    disk.entry d name = some i ∧ disk.Bare i := by
  cases fault with
  | some e => cases done
  | none =>
    rw [unlinkat_eq] at done
    split at done
    · cases done
    split at done
    · cases done
    next j here =>
      split at done
      next entries is =>
        split at done
        next empty =>
          cases done
          refine ⟨here, Disk.bare_of_entries ?_⟩
          rw [Disk.entries, is]
          exact empty
        · cases done
      · cases done
      · cases done
      next other =>
        cases done
        refine ⟨here, Disk.bare_of_not_dir ?_⟩
        rw [Disk.isDir]
        split
        next entries is => exact absurd is (other entries)
        next => rfl

theorem unlinkat_noent (real : fault ≠ some .noent)
    (missing : unlinkat disk d name removedir fault = .error .noent) :
    disk.entry d name = none := by
  cases fault with
  | some e =>
    cases missing
    exact absurd rfl real
  | none =>
    rw [unlinkat_eq] at missing
    split at missing
    · cases missing
    split at missing
    next absent => exact absent
    next =>
      split at missing
      · split at missing
        · cases missing
        · cases missing
      · cases missing
      · cases missing
      · cases missing

theorem resolve_shrunk (shrunk : now.Shrunk disk) (found : resolve now d name = some i) :
    resolve disk d name = some i := by
  rw [resolve] at found ⊢
  split
  next is => rwa [if_pos is] at found
  next other =>
    rw [if_neg other] at found
    split
    next is => rwa [if_pos is, shrunk.parent] at found
    next named =>
      rw [if_neg named] at found
      exact shrunk.entry d name i found

/-- A name that is none of the dots stands for an entry. -/
theorem resolve_entry (named : isDots name = false) : resolve disk d name = disk.entry d name := by
  have named : ¬(name = dot ∨ name = dotdot) := of_decide_eq_false named
  rw [resolve, if_neg fun is => named (.inl is), if_neg fun is => named (.inr is)]

end System

-- ═══════════════════════════════════════════════════════════════
-- The tree
-- ═══════════════════════════════════════════════════════════════

variable {disk now : Disk Bytes} {base : Nat} {root : Bytes} {log : List Event}

/-- A directory of the tree. -/
def Inside (disk : Disk Bytes) (base : Nat) (root : Bytes) (d : Nat) : Prop :=
  ∃ r, System.resolve disk base root = some r ∧ disk.Reached (fun _ _ => True) r d

/-- The root, or an entry of a directory of the tree. -/
def Within (disk : Disk Bytes) (base : Nat) (root : Bytes) (place : Nat × Bytes) : Prop :=
  place = (base, root) ∨ Inside disk base root place.1

/-- It was moved away. -/
def Cut (log : List Event) (d : Nat) (name : Bytes) : Prop := Event.movedAway d name ∈ log

/-- What has become of the tree. -/
structure Tidy (disk : Disk Bytes) (base : Nat) (root : Bytes) (now : Disk Bytes)
    (log : List Event) : Prop where
  shrunk : now.Shrunk disk
  settled : now.Settled disk (Cut log)
  /-- An entry that is gone has been taken away. -/
  accounted : ∀ d name i, disk.entry d name = some i →
    now.entry d name = some i ∨ ∃ e ∈ log, e.place = (d, name)
  within : ∀ e ∈ log, e.ours = true → Within disk base root e.place
  /-- A directory goes after its entries. -/
  ordered : ∀ after d name i before, log = after ++ .removed d name i :: before →
    ∀ inner j, disk.entry i inner = some j → ∃ e ∈ before, e.place = (i, inner)

theorem tidy_refl (disk : Disk Bytes) (base : Nat) (root : Bytes) : Tidy disk base root disk [] where
  shrunk := .refl disk
  settled := Disk.settled_refl disk _
  accounted := fun _ _ _ => .inl
  within := nofun
  ordered := by
    intro after d name i before whole
    cases after with
    | nil => cases whole
    | cons => cases whole

/-- One more entry goes. -/
theorem tidy_unlink (tidy : Tidy disk base root now log) {event : Event} {d : Nat} {name : Bytes}
    (place : event.place = (d, name))
    (bare : ∀ i, now.entry d name = some i → event = .movedAway d name ∨ now.Bare i)
    (within : event.ours = true → Within disk base root (d, name))
    (empty : ∀ d name i, event = .removed d name i → now.Bare i) :
    Tidy disk base root (now.unlink d name) (event :: log) where
  shrunk := tidy.shrunk.unlink d name
  settled := by
    apply tidy.settled.unlink tidy.shrunk
    · exact fun _ _ cut => List.mem_cons_of_mem _ cut
    · intro i found
      rcases bare i found with rfl | bare
      · exact .inl (List.mem_cons_self ..)
      · exact .inr bare
  accounted := by
    intro e other i before
    rw [Disk.entry_unlink]
    split
    next here =>
      obtain ⟨rfl, rfl⟩ := here
      exact .inr ⟨event, List.mem_cons_self .., place⟩
    next =>
      rcases tidy.accounted e other i before with still | ⟨cause, member, same⟩
      · exact .inl still
      · exact .inr ⟨cause, List.mem_cons_of_mem _ member, same⟩
  within := by
    intro e member ours
    rcases List.mem_cons.mp member with rfl | old
    · rw [place]
      exact within ours
    · exact tidy.within e old ours
  ordered := by
    intro after d name i before whole inner j found
    cases after with
    | nil =>
      cases whole
      -- The directory is bare now, so that all its entries have been taken away.
      rcases tidy.accounted i inner j found with still | gone
      · cases (empty d name i rfl inner).symm.trans still
      · exact gone
    | cons e after =>
      cases whole
      exact tidy.ordered after d name i before rfl inner j found

-- ═══════════════════════════════════════════════════════════════
-- The stack
-- ═══════════════════════════════════════════════════════════════

/-- All directories on the stack are in the tree, and only the last has no name in another. -/
def Stacked (disk : Disk Bytes) (base : Nat) (root : Bytes) : List Frame → Prop
  | [] => True
  | f :: rest => Inside disk base root f.inode ∧ (rest = [] → f.entry = none) ∧
      Stacked disk base root rest

/-- What a phase adds. -/
def PhaseInv (c : Remover) : Prop :=
  match c.phase with
  | .opening => c.stack = []
  | .openingChild name => System.isDots name = false
  | .removing f => c.stack = [] → f.entry = none
  | .returned (.ok ()) => c.disk.entry c.base c.root = none
  | .ended result => (c.closed = false → c.pending = 0) ∧
      (result = .ok () → c.disk.entry c.base c.root = none)
  | _ => True

structure Inv (disk : Disk Bytes) (base : Nat) (root : Bytes) (c : Remover) : Prop where
  home : c.base = base ∧ c.root = root
  tidy : Tidy disk base root c.disk c.log
  stacked : Stacked disk base root c.stack
  phase : PhaseInv c
  tally : c.sent.sum + c.pending = c.log.countP Event.ours

variable {c c' : Remover}

/-- A step that leaves the disk alone, and the count. -/
theorem Inv.keep (inv : Inv disk base root c) (same : c'.disk = c.disk) (log : c'.log = c.log)
    (home : c'.base = c.base ∧ c'.root = c.root) (stacked : Stacked disk base root c'.stack)
    (phase : PhaseInv c') (sent : c'.sent = c.sent) (pending : c'.pending = c.pending) :
    Inv disk base root c' where
  home := ⟨home.1.trans inv.home.1, home.2.trans inv.home.2⟩
  tidy := by
    rw [same, log]
    exact inv.tidy
  stacked := stacked
  phase := phase
  tally := by
    rw [sent, pending, log]
    exact inv.tally

theorem Inv.fail (inv : Inv disk base root c) (failure : Failure) :
    Inv disk base root { c with phase := .returned (.error failure) } :=
  inv.keep rfl rfl ⟨rfl, rfl⟩ inv.stacked trivial rfl rfl

theorem Inv.check (inv : Inv disk base root c) {next : Option Remover}
    (onward : ∀ d, next = some d → Inv disk base root d) (move : c.check next = some c') :
    Inv disk base root c' := by
  rw [Remover.check] at move
  split at move
  · cases move
    exact inv.fail .cancelled
  · exact onward c' move

/-- A directory that is opened is in the tree. -/
theorem Inv.opened (inv : Inv disk base root c) {i : Nat} {entry : Option Bytes}
    (inside : Inside disk base root i) (named : c.stack = [] → entry = none) :
    Inv disk base root (c.opened i entry) :=
  inv.keep rfl rfl ⟨rfl, rfl⟩ ⟨inside, named, inv.stacked⟩ trivial rfl rfl

/-- What is unlinked is counted, whether it is reported at once or later. -/
theorem unlinked_rest (c : Remover) (d : Nat) (name : Bytes) (event : Event) (due room : Bool) :
    (c.unlinked d name event due room).base = c.base ∧
      (c.unlinked d name event due room).root = c.root ∧
      (c.unlinked d name event due room).stack = c.stack ∧
      (c.unlinked d name event due room).sent.sum + (c.unlinked d name event due room).pending =
        c.sent.sum + c.pending + 1 := by
  rw [Remover.unlinked, advance]
  split
  · refine ⟨rfl, rfl, rfl, ?_⟩
    change (c.sent ++ [c.pending + 1]).sum + 0 = _
    rw [List.sum_append, List.sum_singleton, Nat.add_zero, Nat.add_assoc]
  · exact ⟨rfl, rfl, rfl, rfl⟩

theorem Inv.unlinked (inv : Inv disk base root c) {d : Nat} {name : Bytes} {event : Event}
    {due room : Bool} {phase : Phase} (ours : event.ours = true) (place : event.place = (d, name))
    (within : Within disk base root (d, name))
    (bare : ∀ i, c.disk.entry d name = some i → c.disk.Bare i)
    (empty : ∀ d name i, event = .removed d name i → c.disk.Bare i)
    (next : PhaseInv { c.unlinked d name event due room with phase }) :
    Inv disk base root { c.unlinked d name event due room with phase } := by
  obtain ⟨home, path, stack, sum⟩ := unlinked_rest c d name event due room
  constructor
  · exact ⟨home.trans inv.home.1, path.trans inv.home.2⟩
  · exact tidy_unlink inv.tidy place (fun i found => .inr (bare i found)) (fun _ => within) empty
  · change Stacked disk base root (c.unlinked d name event due room).stack
    rw [stack]
    exact inv.stacked
  · exact next
  · change (c.unlinked d name event due room).sent.sum +
      (c.unlinked d name event due room).pending = (event :: c.log).countP Event.ours
    rw [sum, inv.tally, List.countP_cons_of_pos ours]

/-- Whatever the stream gives, it is looked for in the tree. -/
theorem Inv.read (inv : Inv disk base root c) {f : Frame} {rest : List Frame}
    (top : c.stack = f :: rest) (phase : c.phase = .reading)
    (result : Option (Except Errno (Bytes × FileType))) :
    Inv disk base root (c.read f rest result) := by
  have stacked := inv.stacked
  rw [top] at stacked
  obtain ⟨inside, last, below⟩ := stacked
  match result with
  | none => exact inv.keep rfl rfl ⟨rfl, rfl⟩ below last rfl rfl
  | some (.error e) =>
    simp only [Remover.read]
    split
    · refine inv.keep rfl rfl ⟨rfl, rfl⟩ below ?_ rfl rfl
      simp only [PhaseInv, phase]
    · exact inv.fail (.os e)
  | some (.ok (name, type)) =>
    have seen : Stacked disk base root ({ f with seen := name :: f.seen } :: rest) :=
      ⟨inside, last, below⟩
    simp only [Remover.read]
    split
    · refine inv.keep rfl rfl ⟨rfl, rfl⟩ seen ?_ rfl rfl
      simp only [PhaseInv, phase]
    next named =>
      split
      · exact inv.keep rfl rfl ⟨rfl, rfl⟩ seen (show System.isDots name = false by simpa using named) rfl rfl
      · exact inv.keep rfl rfl ⟨rfl, rfl⟩ seen trivial rfl rfl

/-- A directory is opened by its name in one that is open, and is no link. -/
theorem Inv.openat {fault : Option Errno} (inv : Inv disk base root c)
    (move : c.step (.openat fault) = some c') : Inv disk base root c' := by
  have held := inv.phase
  have shrunk := inv.tidy.shrunk
  simp only [step] at move
  obtain ⟨-, move⟩ := Option.ite_none_left_eq_some.mp move
  split at move
  next phase =>
    refine inv.check ?_ move
    rintro d ⟨⟩
    split
    next i found =>
      obtain ⟨here, dir⟩ := System.openat_ok found
      have here := System.resolve_shrunk shrunk here
      rw [inv.home.1, inv.home.2] at here
      exact inv.opened ⟨i, here, .root ((shrunk.isDir i).symm.trans dir)⟩ fun _ => rfl
    · exact inv
    · exact inv.fail _
    · exact inv.keep rfl rfl ⟨rfl, rfl⟩ inv.stacked trivial rfl rfl
  next name phase =>
    simp only [PhaseInv, phase] at held
    obtain ⟨f, top, move⟩ := Option.bind_eq_some_iff.mp move
    obtain ⟨rest, whole⟩ := List.head?_eq_some_iff.mp top
    have stacked := inv.stacked
    rw [whole] at stacked
    obtain ⟨⟨r, start, reached⟩, -⟩ := stacked
    refine inv.check ?_ move
    rintro d ⟨⟩
    split
    next i found =>
      obtain ⟨here, dir⟩ := System.openat_ok found
      rw [System.resolve_entry held] at here
      have inside := reached.child (shrunk.entry _ _ _ here) trivial
        ((shrunk.isDir i).symm.trans dir)
      apply inv.opened ⟨r, start, inside⟩
      intro none
      cases none.symm.trans whole
    · exact inv
    · exact inv.keep rfl rfl ⟨rfl, rfl⟩ inv.stacked trivial rfl rfl
    · exact inv.keep rfl rfl ⟨rfl, rfl⟩ inv.stacked trivial rfl rfl
    · exact inv.keep rfl rfl ⟨rfl, rfl⟩ inv.stacked trivial rfl rfl
    · exact inv.fail _
  · cases move

/-- The place of a directory that is off the stack. -/
theorem above_within (inv : Inv disk base root c) {f : Frame}
    (last : c.stack = [] → f.entry = none) :
    Within disk base root (c.above f) ∧ (c.stack = [] → c.above f = (c.base, c.root)) := by
  have stacked := inv.stacked
  rw [above]
  cases whole : c.stack with
  | nil =>
    rw [last whole, inv.home.1, inv.home.2]
    exact ⟨.inl rfl, fun _ => rfl⟩
  | cons g rest =>
    rw [whole] at stacked
    exact ⟨.inr stacked.1, nofun⟩

theorem Inv.unlinkat {fault : Option Errno} {due room : Bool} (inv : Inv disk base root c)
    (move : c.step (.unlinkat fault due room) = some c') : Inv disk base root c' := by
  have held := inv.phase
  simp only [step] at move
  obtain ⟨real, move⟩ := Option.ite_none_left_eq_some.mp move
  have lone {d i name} (found : c.disk.entry d name = some i) (bare : c.disk.Bare i) :
      ∀ j, c.disk.entry d name = some j → c.disk.Bare j := by
    intro j here
    cases found.symm.trans here
    exact bare
  split at move
  next phase =>
    refine inv.check ?_ move
    rintro d ⟨⟩
    split
    next i done =>
      obtain ⟨found, bare⟩ := System.unlinkat_ok done
      obtain ⟨home, path, -, -⟩ :=
        unlinked_rest c c.base c.root (.unlinked c.base c.root) due room
      refine inv.unlinked rfl rfl (.inl ?_) (lone found bare) nofun ?_
      · rw [inv.home.1, inv.home.2]
      · change (c.disk.unlink c.base c.root).entry _ _ = none
        rw [home, path, Disk.entry_unlink, if_pos ⟨rfl, rfl⟩]
    · exact inv.fail _
  next name phase =>
    obtain ⟨f, top, move⟩ := Option.bind_eq_some_iff.mp move
    obtain ⟨rest, whole⟩ := List.head?_eq_some_iff.mp top
    have stacked := inv.stacked
    rw [whole] at stacked
    refine inv.check ?_ move
    rintro d ⟨⟩
    split
    next i done =>
      obtain ⟨found, bare⟩ := System.unlinkat_ok done
      exact inv.unlinked rfl rfl (.inr stacked.1) (lone found bare) nofun trivial
    · split
      · exact inv.keep rfl rfl ⟨rfl, rfl⟩ inv.stacked trivial rfl rfl
      · exact inv.fail _
  next f phase =>
    simp only [PhaseInv, phase] at held
    obtain ⟨within, last⟩ := above_within inv held
    refine inv.check ?_ move
    rintro d ⟨⟩
    split
    next i done =>
      obtain ⟨found, bare⟩ := System.unlinkat_ok done
      obtain ⟨home, path, -, -⟩ := unlinked_rest c (c.above f).1 (c.above f).2
        (.removed (c.above f).1 (c.above f).2 i) due room
      refine inv.unlinked rfl rfl within (lone found bare) ?_ ?_
      · rintro _ _ _ ⟨⟩
        exact bare
      · rw [onward]
        split
        next alone =>
          change (c.disk.unlink (c.above f).1 (c.above f).2).entry _ _ = none
          rw [home, path, last alone, Disk.entry_unlink, if_pos ⟨rfl, rfl⟩]
        next => trivial
    next e failed =>
      split
      next missing =>
        subst missing
        refine inv.keep rfl rfl ⟨rfl, rfl⟩ inv.stacked ?_ rfl rfl
        rw [onward]
        split
        next alone =>
          have gone := System.unlinkat_noent real failed
          rw [last alone] at gone
          exact gone
        next => trivial
      · exact inv.fail _
  · cases move

/-- What somebody else takes away. -/
theorem Inv.vanished (inv : Inv disk base root c) {d : Nat} {name : Bytes} {event : Event}
    (other : event.ours = false) (place : event.place = (d, name))
    (bare : ∀ i, c.disk.entry d name = some i → event = .movedAway d name ∨ c.disk.Bare i) :
    Inv disk base root { c with disk := c.disk.unlink d name, log := event :: c.log } := by
  have gone : c.disk.entry c.base c.root = none →
      (c.disk.unlink d name).entry c.base c.root = none := by
    intro none
    rw [Disk.entry_unlink, none, ite_self]
  have held := inv.phase
  constructor
  · exact inv.home
  · apply tidy_unlink inv.tidy place bare
    · intro ours
      cases other.symm.trans ours
    · rintro _ _ _ rfl
      cases other
  · exact inv.stacked
  · rw [PhaseInv] at held ⊢
    dsimp only
    split
    next is => simpa only [is] using held
    next is => simpa only [is] using held
    next is => simpa only [is] using held
    next is =>
      simp only [is] at held
      exact gone held
    next is =>
      simp only [is] at held
      exact ⟨held.1, fun good => gone (held.2 good)⟩
    next => trivial
  · change c.sent.sum + c.pending = (event :: c.log).countP Event.ours
    rw [inv.tally, List.countP_cons_of_neg (by simp [other])]

theorem Inv.step {action : Action} (inv : Inv disk base root c)
    (move : c.step action = some c') : Inv disk base root c' := by
  have held := inv.phase
  cases action with
  | openat fault => exact inv.openat move
  | unlinkat fault due room => exact inv.unlinkat move
  | statat fault =>
    simp only [Remover.step] at move
    split at move
    next e phase =>
      refine inv.check ?_ move
      rintro d ⟨⟩
      split
      · exact inv.keep rfl rfl ⟨rfl, rfl⟩ inv.stacked trivial rfl rfl
      · exact inv.fail _
    · cases move
  | next result =>
    simp only [Remover.step] at move
    split at move
    next f rest phase top =>
      obtain ⟨-, move⟩ := Option.ite_none_right_eq_some.mp move
      refine inv.check ?_ move
      rintro d ⟨⟩
      exact inv.read top phase result
    · cases move
  | deliver =>
    simp only [Remover.step] at move
    split at move
    next result phase =>
      simp only [PhaseInv, phase] at held
      have good : result = .ok () → c.disk.entry c.base c.root = none := by
        rintro rfl
        exact held
      split at move
      next asked =>
        cases move
        refine ⟨inv.home, inv.tidy, inv.stacked, ⟨fun _ => rfl, good⟩, ?_⟩
        change (c.sent ++ [c.pending]).sum + 0 = _
        rw [List.sum_append, List.sum_singleton, Nat.add_zero, inv.tally]
      next quiet =>
        cases move
        refine ⟨inv.home, inv.tidy, inv.stacked, ⟨?_, good⟩, inv.tally⟩
        intro listens
        have listens : c.closed = false := listens
        exact Nat.eq_zero_of_not_pos fun some => quiet ⟨some, by simp [listens]⟩
    · cases move
  | close =>
    simp only [Remover.step] at move
    cases move
    refine inv.keep rfl rfl ⟨rfl, rfl⟩ inv.stacked ?_ rfl rfl
    rw [PhaseInv] at held ⊢
    dsimp only
    split
    next is => simpa only [is] using held
    next is => simpa only [is] using held
    next is => simpa only [is] using held
    next is => simpa only [is] using held
    next is =>
      simp only [is] at held
      exact ⟨(fun listens => by cases listens), held.2⟩
    next => trivial
  | vanish d name moved =>
    simp only [Remover.step] at move
    obtain ⟨i, found, move⟩ := Option.bind_eq_some_iff.mp move
    split at move
    · cases move
      exact inv.vanished rfl rfl fun _ _ => .inl rfl
    · obtain ⟨empty, ⟨⟩⟩ := Option.ite_none_right_eq_some.mp move
      refine inv.vanished rfl (rfl : Event.place (.vanished d name) = (d, name)) ?_
      intro j here
      cases found.symm.trans here
      exact .inr (Disk.bare_of_entries empty)

-- ═══════════════════════════════════════════════════════════════
-- Every run
-- ═══════════════════════════════════════════════════════════════

theorem inv_make (disk : Disk Bytes) (base : Nat) (root : Bytes) :
    Inv disk base root (make disk base root) where
  home := ⟨rfl, rfl⟩
  tidy := tidy_refl disk base root
  stacked := trivial
  phase := rfl
  tally := rfl

/-- Whatever links there are in the tree, and whatever others take out of it: only the root and
entries of directories that are reached from it through directories are unlinked, and a directory
is removed when all the entries it once had are gone. Where the removal ends well the root is gone,
and nothing is left in any directory below it that was not moved away. What is reported then is how
often something was unlinked. -/
theorem removed_within {actions : List Action}
    (run : Run step (make disk base root) actions c) :
    (∀ e ∈ c.log, e.ours = true → Within disk base root e.place) ∧
      (∀ after d name i before, c.log = after ++ .removed d name i :: before →
        ∀ inner j, disk.entry i inner = some j → ∃ e ∈ before, e.place = (i, inner)) ∧
      (c.phase = .ended (.ok ()) → c.disk.entry base root = none ∧
        ∀ r d, disk.entry base root = some r → Event.movedAway base root ∉ c.log →
          disk.Reached (fun d name => Event.movedAway d name ∉ c.log) r d → c.disk.Bare d) ∧
      (∀ result, c.phase = .ended result → c.closed = false →
        c.sent.sum = c.log.countP Event.ours) := by
  have inv : Inv disk base root c := by
    apply run.invariant
    · exact fun s a t inv move => inv.step move
    · exact inv_make disk base root
  have held := inv.phase
  refine ⟨inv.tidy.within, inv.tidy.ordered, ?_, ?_⟩
  · intro phase
    simp only [PhaseInv, phase] at held
    have gone := held.2 trivial
    rw [inv.home.1, inv.home.2] at gone
    refine ⟨gone, ?_⟩
    intro r d entry kept reached
    exact Disk.bare_of_settled inv.tidy.settled reached (inv.tidy.settled _ _ _ entry gone kept)
  · intro result phase listens
    simp only [PhaseInv, phase] at held
    have tally := inv.tally
    rw [held.1 listens, Nat.add_zero] at tally
    exact tally

/-- A directory with a file, a directory, a link, and a file that goes by itself. -/
def sampleDisk : Disk Bytes where
  inode i := match i with
    | 0 => .dir [(text "t", 1)]
    | 1 => .dir [(text "a", 2), (text "d", 3), (text "l", 4), (text "x", 5)]
    | 3 => .dir [(text "y", 6)]
    | 4 => .link
    | _ => .file
  parent _ := 0

def sampleActions : List Action :=
  [.openat none, .next (some (.ok (text ".", .directory))), .next (some (.ok (text "a", .other))),
    .unlinkat none false true, .next (some (.ok (text "d", .directory))), .openat none,
    .next (some (.ok (text "y", .unknown))), .openat none, .unlinkat none true true, .next none,
    .unlinkat none false true, .next (some (.ok (text "l", .unknown))), .openat none,
    .unlinkat none false true, .vanish 1 (text "x") false, .next (some (.ok (text "x", .other))),
    .unlinkat none false true, .next none, .unlinkat none false true, .deliver]

theorem removed_within_sample :
    ∃ c, Run step (make sampleDisk 0 (text "t")) sampleActions c ∧
      c.disk.entry 0 (text "t") = none ∧ c.sent.sum = 5 := by
  have enabled : (exec step (make sampleDisk 0 (text "t")) sampleActions).isSome = true := by
    decide +kernel
  have run := run_exec enabled
  obtain ⟨-, -, ends, reports⟩ := removed_within run
  exact ⟨_, run, (ends rfl).1, reports _ rfl rfl⟩

end Yazi.Fs.Remover
