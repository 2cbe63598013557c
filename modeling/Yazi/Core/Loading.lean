import Yazi.Base.Run
import Yazi.Core.Folder

/-!
Loads of a folder.

Any number of loads run at a time. Each has a ticket of its own and sends a start marker, parts,
and an end, which reach the folder in any order among the loads, and among other updates that
take tickets of their own.
-/
namespace Yazi.Core
open Yazi.Base Yazi.Shared Yazi.Fs

inductive Phase where
  | waiting
  | started
  | finished
  deriving DecidableEq, Repr

/-- How far a load got, and the files of the parts that it delivered. -/
structure Load where
  phase : Phase
  files : Files
  deriving DecidableEq

/-- Where the files of a folder come from. -/
inductive Source where
  | none
  | load (ticket : Nat)
  | full (files : Files)
  deriving DecidableEq

/-- `next` is the counter of `FILES_TICKET`. `source` only records, for the folder does not know
it: the load whose start marker was taken last, or the full update after it. -/
structure Loading (Err : Type) where
  folder : Folder Err
  next : Nat
  loads : Assoc Nat Load
  source : Source
  deriving DecidableEq

inductive Delivery (Err : Type) where
  /-- A load of this folder gets a ticket. -/
  | begin
  /-- Another folder does. -/
  | elsewhere
  | start (ticket : Nat)
  | part (ticket : Nat) (files : Files)
  | done (ticket : Nat) (file : File)
  | full (file : File) (files : Files)
  | fail (err : Err)

/-- A message of the load protocol that the folder does not take. -/
def Delivery.stale {Err : Type} (folder : Folder Err) : Delivery Err → Bool
  | .start ticket => folder.outdated ticket
  | .part ticket _ | .done ticket _ => ticket ≠ folder.entries.ticket
  | _ => false

namespace Loading

variable {Err : Type}

def new (showHidden : Bool) (url : Url) : Loading Err where
  folder := Folder.new showHidden url
  next := 1
  loads := []
  source := .none

/-- The files that the source has delivered. -/
def sourced (s : Loading Err) : Files :=
  match s.source with
  | .none => []
  | .load ticket => ((s.loads.get? ticket).map Load.files).getD []
  | .full files => files

section step
variable [DecidableEq Err] (regex : Regex)

def deliver (s : Loading Err) (op : FilesOp Err) : Folder Err :=
  (s.folder.update regex s.next op).1

def step (s : Loading Err) : Delivery Err → Option (Loading Err)
  | .begin =>
    some { s with next := s.next + 1, loads := s.loads.insert s.next ⟨.waiting, []⟩ }
  | .elsewhere => some { s with next := s.next + 1 }
  | .start ticket =>
    match s.loads.get? ticket with
    | some ⟨.waiting, _⟩ =>
      some { s with
        folder := s.deliver regex (.part [] ticket)
        loads := s.loads.insert ticket ⟨.started, []⟩
        source := if s.folder.outdated ticket then s.source else .load ticket }
    | _ => none
  | .part ticket files =>
    match s.loads.get? ticket with
    | some ⟨.started, sent⟩ =>
      if files.isEmpty then none
      else some { s with
        folder := s.deliver regex (.part files ticket)
        loads := s.loads.insert ticket ⟨.started, sent ++ files⟩ }
    | _ => none
  | .done ticket file =>
    match s.loads.get? ticket with
    | some ⟨.started, sent⟩ =>
      some { s with
        folder := s.deliver regex (.done file ticket)
        loads := s.loads.insert ticket ⟨.finished, sent⟩ }
    | _ => none
  | .full file files =>
    some { s with
      folder := s.deliver regex (.full file files), next := s.next + 1, source := .full files }
  | .fail err =>
    some { s with folder := s.deliver regex (.fail err), next := s.next + 1, source := .none }

end step

/-! ### What holds throughout -/

/-- The load of the current ticket is the source, and its phase shows in the stage. -/
structure Inv (s : Loading Err) : Prop where
  issued : ∀ ticket load, s.loads.get? ticket = some load → ticket < s.next
  bound : s.folder.entries.ticket < s.next
  files : s.folder.entries.all.Perm (Entries.listed s.sourced)
  current : ∀ ticket, s.source = .load ticket → ticket = s.folder.entries.ticket ∧
    ∃ load, s.loads.get? ticket = some load ∧ load.phase ≠ .waiting ∧
      (load.phase = .started → s.folder.stage = .loading)
  foreign : (∀ ticket, s.source ≠ .load ticket) → s.loads.get? s.folder.entries.ticket = none

variable {regex : Regex} {s t : Loading Err} {ticket : Nat}

/-- No load but the source has the ticket of the entries. -/
theorem source_of_ticket (inv : s.Inv) {load : Load}
    (known : s.loads.get? s.folder.entries.ticket = some load) :
    s.source = .load s.folder.entries.ticket := by
  cases source : s.source with
  | load ticket => rw [(inv.current ticket source).1]
  | none =>
    have absent := inv.foreign (by simp [source])
    rw [known] at absent
    cases absent
  | full files =>
    have absent := inv.foreign (by simp [source])
    rw [known] at absent
    cases absent

private theorem inv_new {showHidden : Bool} {url : Url} : (new showHidden url : Loading Err).Inv where
  issued _ _ known := by cases known
  bound := Nat.zero_lt_one
  files := .refl _
  current _ source := by cases source
  foreign _ := rfl

/-- A load that is not the source gets on without changing the folder. -/
private theorem inv_stale {load next : Load} (inv : s.Inv) (known : s.loads.get? ticket = some load)
    (other : s.source ≠ .load ticket) : Inv { s with loads := s.loads.insert ticket next } where
  issued a load' found := by
    rw [Assoc.get?_insert] at found
    split at found
    · next same =>
      rw [eq_of_beq same]
      exact inv.issued _ _ known
    · exact inv.issued _ _ found
  bound := inv.bound
  files := by
    have same : sourced { s with loads := s.loads.insert ticket next } = s.sourced := by
      simp only [sourced]
      split
      · rfl
      · next a source =>
        rw [Assoc.get?_insert, if_neg]
        intro same
        rw [eq_of_beq same] at source
        exact other source
      · rfl
    rw [same]
    exact inv.files
  current a source := by
    obtain ⟨here, load', found, rest⟩ := inv.current a source
    refine ⟨here, load', ?_, rest⟩
    rw [Assoc.get?_insert, if_neg]
    · exact found
    · intro same
      rw [eq_of_beq same] at source
      exact other source
  foreign none := by
    have absent := inv.foreign none
    rw [Assoc.get?_insert, if_neg]
    · exact absent
    · intro same
      rw [eq_of_beq same, known] at absent
      cases absent

/-- The source gets on, and the folder with it. -/
private theorem inv_advance {load next : Load} {folder : Folder Err} (inv : s.Inv)
    (known : s.loads.get? s.folder.entries.ticket = some load)
    (same : folder.entries.ticket = s.folder.entries.ticket)
    (files : folder.entries.all.Perm (Entries.listed next.files)) (phase : next.phase ≠ .waiting)
    (stage : next.phase = .started → folder.stage = .loading) :
    Inv { s with folder, loads := s.loads.insert s.folder.entries.ticket next } := by
  have source := source_of_ticket inv known
  refine ⟨?_, by rw [same]; exact inv.bound, ?_, ?_, ?_⟩
  · intro ticket load' found
    rw [Assoc.get?_insert] at found
    split at found
    · next here =>
      rw [eq_of_beq here]
      exact inv.bound
    · exact inv.issued _ _ found
  · simp only [sourced, source, Assoc.get?_insert_self]
    exact files
  · intro ticket source'
    rw [source] at source'
    cases source'
    exact ⟨same.symm, next, Assoc.get?_insert_self .., phase, stage⟩
  · intro none
    exact absurd source (none _)

/-- Tickets that are taken now are new to the loads. -/
private theorem unused_next (inv : s.Inv) : s.loads.get? s.next = none := by
  cases known : s.loads.get? s.next with
  | none => rfl
  | some load => exact absurd (inv.issued _ _ known) (Nat.lt_irrefl _)

private theorem inv_begin (inv : s.Inv) :
    Inv { s with next := s.next + 1, loads := s.loads.insert s.next ⟨.waiting, []⟩ } := by
  have different : s.folder.entries.ticket ≠ s.next := Nat.ne_of_lt inv.bound
  obtain ⟨issued, bound, files, current, foreign⟩ := inv
  refine ⟨?_, Nat.lt_succ_of_lt bound, ?_, ?_, ?_⟩
  · intro ticket load found
    rw [Assoc.get?_insert] at found
    split at found
    · next same =>
      rw [eq_of_beq same]
      exact Nat.lt_succ_self _
    · exact Nat.lt_succ_of_lt (issued _ _ found)
  · have same : sourced { s with next := s.next + 1, loads := s.loads.insert s.next ⟨.waiting, []⟩ } =
        s.sourced := by
      simp only [sourced]
      cases source : s.source with
      | load ticket =>
        have here := (current ticket source).1
        simp only [Assoc.get?_insert, here, beq_iff_eq, different, if_false]
      | none => rfl
      | full => rfl
    rw [same]
    exact files
  · intro ticket source
    obtain ⟨here, load, found, rest⟩ := current ticket source
    refine ⟨here, load, ?_, rest⟩
    rw [Assoc.get?_insert, if_neg (by simpa [here] using different)]
    exact found
  · intro none
    rw [Assoc.get?_insert, if_neg (by simpa using different)]
    exact foreign none

private theorem inv_elsewhere (inv : s.Inv) : Inv { s with next := s.next + 1 } :=
  ⟨fun ticket load found => Nat.lt_succ_of_lt (inv.issued ticket load found),
    Nat.lt_succ_of_lt inv.bound, inv.files, inv.current, inv.foreign⟩

section updates
variable [DecidableEq Err]

private theorem inv_full {file : File} {files : Files} (inv : s.Inv) :
    Inv { s with
      folder := s.deliver regex (.full file files), next := s.next + 1, source := .full files } where
  issued ticket load found := Nat.lt_succ_of_lt (inv.issued ticket load found)
  bound := Nat.lt_succ_self _
  files := Entries.splitFiles_perm regex s.folder.entries files
  current _ source := by cases source
  foreign _ := unused_next inv

private theorem inv_fail {err : Err} (inv : s.Inv) :
    Inv { s with folder := s.deliver regex (.fail err), next := s.next + 1, source := .none } where
  issued ticket load found := Nat.lt_succ_of_lt (inv.issued ticket load found)
  bound := Nat.lt_succ_self _
  files := .refl _
  current _ source := by cases source
  foreign _ := unused_next inv

private theorem inv_start {load : Load} (inv : s.Inv) (known : s.loads.get? ticket = some load)
    (waiting : load.phase = .waiting) :
    Inv { s with
      folder := s.deliver regex (.part [] ticket)
      loads := s.loads.insert ticket ⟨.started, []⟩
      source := if s.folder.outdated ticket then s.source else .load ticket } := by
  rw [deliver, Folder.update_start]
  split
  · apply inv_stale inv known
    intro source
    obtain ⟨-, load', found, phase, -⟩ := inv.current ticket source
    rw [known] at found
    cases found
    exact phase waiting
  · -- The marker is taken: no files are left, and its load is the source.
    refine ⟨?_, ?_, ?_, ?_, ?_⟩
    · intro a load' found
      rw [Assoc.get?_insert] at found
      split at found
      · next same =>
        rw [eq_of_beq same]
        exact inv.issued _ _ known
      · exact inv.issued _ _ found
    · exact inv.issued _ _ known
    · simp [sourced, Entries.updatePart, Entries.all, Entries.listed]
    · intro a source
      cases source
      exact ⟨rfl, ⟨.started, []⟩, Assoc.get?_insert_self .., by simp, fun _ => rfl⟩
    · intro none
      exact absurd rfl (none ticket)

private theorem inv_part {files sent : Files} (inv : s.Inv)
    (known : s.loads.get? ticket = some ⟨.started, sent⟩) (given : files.isEmpty = false) :
    Inv { s with
      folder := s.deliver regex (.part files ticket)
      loads := s.loads.insert ticket ⟨.started, sent ++ files⟩ } := by
  by_cases now : ticket = s.folder.entries.ticket
  · subst now
    have source := source_of_ticket inv known
    obtain ⟨-, load, found, -, stage⟩ := inv.current _ source
    rw [known] at found
    cases found
    have loading : s.folder.stage.isLoaded = false := by rw [stage rfl]; rfl
    rw [deliver, Folder.update_part_current given loading]
    refine inv_advance inv known ?_ ?_ (by simp) fun _ => rfl
    · simp [Entries.updatePart, given]
    · have before : s.folder.entries.all.Perm (Entries.listed sent) := by
        simpa [sourced, source, known] using inv.files
      have after := Entries.updatePart_all regex s.folder.entries given
      have union : Entries.listed (sent ++ files) = Entries.listed sent ++ Entries.listed files :=
        List.filter_append ..
      rw [union]
      exact after.trans (before.append_right _)
  · rw [deliver, Folder.update_part_stale given now]
    apply inv_stale inv known
    intro source
    exact now (inv.current ticket source).1

private theorem inv_done {file : File} {sent : Files} (inv : s.Inv)
    (known : s.loads.get? ticket = some ⟨.started, sent⟩) :
    Inv { s with
      folder := s.deliver regex (.done file ticket)
      loads := s.loads.insert ticket ⟨.finished, sent⟩ } := by
  by_cases now : ticket = s.folder.entries.ticket
  · subst now
    have source := source_of_ticket inv known
    obtain ⟨-, load, found, -, stage⟩ := inv.current _ source
    rw [known] at found
    cases found
    have loading : s.folder.stage.isLoaded = false := by rw [stage rfl]; rfl
    rw [deliver, Folder.update_done_current loading]
    refine inv_advance inv known rfl ?_ (by simp) nofun
    simpa [sourced, source, known] using inv.files
  · rw [deliver, Folder.update_done_stale now]
    apply inv_stale inv known
    intro source
    exact now (inv.current ticket source).1

theorem inv_step {label : Delivery Err} (inv : s.Inv) (move : s.step regex label = some t) :
    t.Inv := by
  cases label with
  | begin =>
    cases move
    exact inv_begin inv
  | elsewhere =>
    cases move
    exact inv_elsewhere inv
  | start ticket =>
    simp only [step] at move
    split at move <;> cases move
    next known => exact inv_start inv known rfl
  | part ticket files =>
    simp only [step] at move
    split at move
    · next known =>
      split at move <;> cases move
      next given => exact inv_part inv known (by simpa using given)
    · cases move
  | done ticket file =>
    simp only [step] at move
    split at move <;> cases move
    next known => exact inv_done inv known
  | full file files =>
    cases move
    exact inv_full inv
  | fail err =>
    cases move
    exact inv_fail inv

theorem inv_run {showHidden : Bool} {url : Url} {labels : List (Delivery Err)}
    (run : Run (step regex) (new showHidden url) labels s) : s.Inv :=
  run.invariant (fun _ _ _ inv move => inv_step inv move) inv_new

/-- The entries hold what their source has delivered; a load that makes the folder loaded has
delivered exactly these; and stale messages change nothing. -/
theorem load_protocol {showHidden : Bool} {url : Url} {labels : List (Delivery Err)}
    (run : Run (step regex) (new showHidden url) labels s) :
    s.folder.entries.all.Perm (Entries.listed s.sourced) ∧
      (∀ ticket file t, s.step regex (.done ticket file) = some t →
        s.folder.stage.isLoaded = false → t.folder.stage.isLoaded = true →
        ∃ load, s.loads.get? ticket = some load ∧
          t.folder.entries.all.Perm (Entries.listed load.files)) ∧
      ∀ label t, label.stale s.folder = true → s.step regex label = some t →
        t.folder = s.folder ∧ t.source = s.source := by
  have inv := inv_run run
  refine ⟨inv.files, ?_, ?_⟩
  · intro ticket file t move before after
    simp only [step] at move
    split at move <;> cases move
    next sent known =>
    by_cases now : ticket = s.folder.entries.ticket
    · subst now
      refine ⟨_, known, ?_⟩
      rw [deliver, Folder.update_done_current before]
      simpa [sourced, source_of_ticket inv known, known] using inv.files
    · -- The folder would not have become loaded.
      rw [deliver, Folder.update_done_stale now, before] at after
      cases after
  · intro label t stale move
    cases label with
    | start ticket =>
      simp only [Delivery.stale] at stale
      simp only [step] at move
      split at move <;> cases move
      simp only [deliver, Folder.update_start, stale, if_true, and_self]
    | part ticket files =>
      simp only [Delivery.stale, ne_eq, decide_not, Bool.not_eq_true', decide_eq_false_iff_not]
        at stale
      simp only [step] at move
      split at move
      · split at move <;> cases move
        next given =>
        exact ⟨Folder.update_part_stale (by simpa using given) stale, rfl⟩
      · cases move
    | done ticket file =>
      simp only [Delivery.stale, ne_eq, decide_not, Bool.not_eq_true', decide_eq_false_iff_not]
        at stale
      simp only [step] at move
      split at move <;> cases move
      exact ⟨Folder.update_done_stale stale, rfl⟩
    | begin => cases stale
    | elsewhere => cases stale
    | full file files => cases stale
    | fail err => cases stale

end updates

private def entry (name : String) : File := File.fromDummy (Url.regular (text name)) none

/-- Two loads of one folder, the second of which overtakes the first. -/
theorem load_protocol_overtaking :
    let labels : List (Delivery Unit) :=
      [.begin, .elsewhere, .begin, .start 1, .part 1 [entry "/d/a"], .start 3,
        .part 1 [entry "/d/b"], .part 3 [entry "/d/c", entry "/d/.e"], .done 1 (entry "/d")]
    ∃ s, Run (step .literal) (new false (Url.regular (text "/d"))) labels s ∧
      s.folder.entries.all.Perm (Entries.listed s.sourced) ∧
      ∃ t load, s.step .literal (.done 3 (entry "/d")) = some t ∧
        s.loads.get? 3 = some load ∧ t.folder.entries.all.Perm (Entries.listed load.files) := by
  intro labels
  have run : Run (step .literal) (new false (Url.regular (text "/d"))) labels _ :=
    run_exec (by decide)
  obtain ⟨files, loaded, -⟩ := load_protocol run
  obtain ⟨load, known, exact⟩ := loaded 3 (entry "/d") _ rfl (by decide) (by decide)
  exact ⟨_, run, files, _, load, rfl, known, exact⟩

/-- While the folder is loading, the start marker of an older load is taken. -/
theorem older_load_taken :
    (∃ s, Run (step .literal) (new false (Url.regular (text "/d")) : Loading Unit)
        [.begin, .begin, .start 2, .part 2 [entry "/d/b"], .start 1, .part 1 [entry "/d/a"]] s ∧
      s.folder.entries.all = [entry "/d/a"] ∧ entry "/d/a" ∉ ((s.loads.get? 2).map Load.files).getD []) ∧
    ∃ s, Run (step .literal) (new false (Url.regular (text "/d")) : Loading Unit)
        [.begin, .begin, .start 2, .part 2 [entry "/d/b"], .done 2 (entry "/d"), .start 1] s ∧
      s.folder.entries.all = [entry "/d/b"] ∧ entry "/d/b" ∉ ((s.loads.get? 1).map Load.files).getD [] :=
  ⟨⟨_, run_exec (by decide), by decide, by decide⟩, _, run_exec (by decide), by decide, by decide⟩

end Loading
end Yazi.Core
