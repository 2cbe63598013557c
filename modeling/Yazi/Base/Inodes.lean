import Mathlib.Logic.Function.Basic
import Yazi.Base.Assoc

/-!
Directories whose entries name others, and taking entries away.

A directory is reached through the entries of directories only. While entries go one by one, and
with a directory only its last name when it is bare, whatever has lost its name is bare.
-/
namespace Yazi.Base

inductive Inode (κ : Type) where
  | dir (entries : Assoc κ Nat)
  | link
  | file
  deriving DecidableEq

structure Disk (κ : Type) where
  inode : Nat → Inode κ
  /-- Of a directory. -/
  parent : Nat → Nat

namespace Disk
variable {κ : Type} [DecidableEq κ]

def entries (disk : Disk κ) (d : Nat) : Assoc κ Nat :=
  match disk.inode d with
  | .dir entries => entries
  | _ => []

def entry (disk : Disk κ) (d : Nat) (name : κ) : Option Nat := (disk.entries d).get? name

def isDir (disk : Disk κ) (d : Nat) : Bool :=
  match disk.inode d with
  | .dir _ => true
  | _ => false

def unlink (disk : Disk κ) (d : Nat) (name : κ) : Disk κ :=
  match disk.inode d with
  | .dir entries => { disk with inode := Function.update disk.inode d (.dir (entries.erase name)) }
  | _ => disk

variable {disk now : Disk κ} {d i r : Nat} {name : κ}

theorem entries_unlink (disk : Disk κ) (d : Nat) (name : κ) (e : Nat) :
    (disk.unlink d name).entries e =
      if e = d then (disk.entries d).erase name else disk.entries e := by
  rw [unlink]
  split
  next entries is =>
    by_cases same : e = d
    · subst same
      simp [Disk.entries, is]
    · simp [Disk.entries, same]
  next other =>
    have none : disk.entries d = [] := by
      rw [Disk.entries]
      split
      next entries is => exact absurd is (other entries)
      next => rfl
    by_cases same : e = d
    · subst same
      rw [if_pos rfl, none]
      rfl
    · rw [if_neg same]

theorem entry_unlink (disk : Disk κ) (d : Nat) (name : κ) (e : Nat) (other : κ) :
    (disk.unlink d name).entry e other =
      if e = d ∧ other = name then none else disk.entry e other := by
  rw [entry, entries_unlink]
  by_cases same : e = d
  · subst same
    rw [if_pos rfl, Assoc.get?_erase]
    by_cases equal : other = name
    · simp [equal]
    · simp [equal, Ne.symm equal, entry]
  · simp [same, entry]

theorem isDir_unlink (disk : Disk κ) (d : Nat) (name : κ) (e : Nat) :
    (disk.unlink d name).isDir e = disk.isDir e := by
  rw [unlink]
  split
  next entries is =>
    by_cases same : e = d
    · subst same
      simp [isDir, is]
    · simp [isDir, same]
  next => rfl

theorem parent_unlink (disk : Disk κ) (d : Nat) (name : κ) :
    (disk.unlink d name).parent = disk.parent := by
  rw [unlink]
  split
  · rfl
  · rfl

/-- There are no other entries than before. -/
structure Shrunk (now disk : Disk κ) : Prop where
  entry : ∀ d name i, now.entry d name = some i → disk.entry d name = some i
  isDir : ∀ d, now.isDir d = disk.isDir d
  parent : now.parent = disk.parent

theorem Shrunk.refl (disk : Disk κ) : Shrunk disk disk := ⟨fun _ _ _ => id, fun _ => rfl, rfl⟩

theorem Shrunk.unlink (shrunk : Shrunk now disk) (d : Nat) (name : κ) :
    Shrunk (now.unlink d name) disk where
  entry := by
    intro e other i found
    rw [entry_unlink] at found
    split at found
    · cases found
    · exact shrunk.entry e other i found
  isDir e := (isDir_unlink ..).trans (shrunk.isDir e)
  parent := (parent_unlink ..).trans shrunk.parent

/-- Through directories only, by entries that meet a condition. -/
inductive Reached (disk : Disk κ) (ok : Nat → κ → Prop) (r : Nat) : Nat → Prop where
  | root : disk.isDir r = true → Reached disk ok r r
  | child {d i : Nat} {name : κ} : Reached disk ok r d → disk.entry d name = some i → ok d name →
      disk.isDir i = true → Reached disk ok r i

def Bare (disk : Disk κ) (d : Nat) : Prop := ∀ name, disk.entry d name = none

theorem bare_of_entries (empty : disk.entries d = []) : disk.Bare d := by
  intro name
  rw [entry, empty]
  rfl

theorem bare_of_not_dir (other : disk.isDir d = false) : disk.Bare d := by
  apply bare_of_entries
  rw [entries]
  split
  next entries is => simp [isDir, is] at other
  next => rfl

theorem Bare.unlink (bare : disk.Bare i) (d : Nat) (name : κ) : (disk.unlink d name).Bare i := by
  intro other
  rw [entry_unlink, bare other, ite_self]

/-- What has lost its name is bare, unless the name was cut. -/
def Settled (now disk : Disk κ) (cut : Nat → κ → Prop) : Prop :=
  ∀ d name i, disk.entry d name = some i → now.entry d name = none → ¬cut d name → now.Bare i

theorem settled_refl (disk : Disk κ) (cut : Nat → κ → Prop) : Settled disk disk cut := by
  intro d name i before after
  cases before.symm.trans after

theorem Settled.unlink {cut cut' : Nat → κ → Prop} (settled : Settled now disk cut)
    (shrunk : Shrunk now disk) (more : ∀ d name, cut d name → cut' d name)
    (bare : ∀ i, now.entry d name = some i → cut' d name ∨ now.Bare i) :
    Settled (now.unlink d name) disk cut' := by
  intro e other i before after uncut
  rw [entry_unlink] at after
  split at after
  next here =>
    obtain ⟨rfl, rfl⟩ := here
    apply Bare.unlink
    cases found : now.entry e other with
    | none => exact settled e other i before found fun cut => uncut (more e other cut)
    | some j =>
      cases before.symm.trans (shrunk.entry e other j found)
      exact (bare i found).resolve_left uncut
  next => exact (settled e other i before after fun cut => uncut (more e other cut)).unlink d name

/-- Where the root is bare, so is all that was reached from it. -/
theorem bare_of_settled {cut : Nat → κ → Prop} (settled : Settled now disk cut)
    (reached : Reached disk (fun d name => ¬cut d name) r d) (bare : now.Bare r) : now.Bare d := by
  induction reached with
  | root => exact bare
  | child _ entry uncut _ ih => exact settled _ _ _ entry (ih _) uncut

end Disk
end Yazi.Base
