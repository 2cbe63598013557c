import Yazi.Watcher.Flights

/-!
No request is lost, and no directory is read by two runs at once.

A request that cannot start a run at once leaves its flags in the entry, where they stay
until the `Done` of the run in flight starts the next one.
-/
namespace Yazi.Watcher
open Yazi.Base

namespace Refresher

variable {Url Stat : Type} [DecidableEq Url] [DecidableEq Stat] {urls : Urls Url}
  {s t : Refresher Url Stat}

/-! ### Requests -/

/-- A run that may not be skipped was started for the directory, with no older ticket. -/
def Served (s : Refresher Url Stat) (url : Url) (since : Nat) : Prop :=
  ∃ run ∈ s.started, run.file.url = url ∧ since ≤ run.busy ∧ run.force = true

/-- The directory has a run in flight, and its entry asks for another one that may not be
skipped. -/
structure Owed (s : Refresher Url Stat) (url : Url) (run : Entry Url Stat) : Prop where
  flying : run ∈ s.flying
  keyed : run.file.url = url
  asks : ∃ entry, s.entries.get? url = some entry ∧ entry.busy = run.busy ∧ run.busy ≠ 0 ∧
    entry.dirty = true ∧ entry.force = true

section spawn
omit [DecidableEq Stat]

private theorem spawn_started (s : Refresher Url Stat) (key : Url) (entry : Entry Url Stat) :
    s.started ⊆ (s.spawn key entry).started ∧ s.ticket ≤ (s.spawn key entry).ticket := by
  simp only [spawn]
  split
  · exact ⟨List.Subset.refl _, Nat.le_refl _⟩
  · exact ⟨List.subset_cons_self .., Nat.le_succ _⟩

private theorem spawn_flying (s : Refresher Url Stat) (key : Url) (entry : Entry Url Stat) :
    s.flying ⊆ (s.spawn key entry).flying := by
  simp only [spawn]
  split
  · exact List.Subset.refl _
  · exact List.subset_cons_self ..

private theorem get?_spawn_other (s : Refresher Url Stat) {key url : Url}
    (different : url ≠ key) (entry : Entry Url Stat) :
    (s.spawn key entry).entries.get? url = s.entries.get? url := by
  simp only [spawn]
  split <;> rw [Assoc.get?_insert, if_neg (by simpa using different)]

private theorem spawn_busy (s : Refresher Url Stat) (key : Url) {entry : Entry Url Stat}
    (busy : entry.busy ≠ 0) :
    s.spawn key entry = { s with entries := s.entries.insert key entry } := by
  simp [spawn, busy]

/-- A dirty entry without a run gets one, with the flags of the entry. -/
private theorem served_spawn (s : Refresher Url Stat) {key : Url} {entry : Entry Url Stat}
    (keyed : entry.file.url = key) (idle : entry.busy = 0) (dirty : entry.dirty = true)
    (force : entry.force = true) : (s.spawn key entry).Served key s.ticket := by
  simp only [spawn, idle, dirty, Bool.not_true, bne_self_eq_false, Bool.or_self,
    Bool.false_eq_true, if_false]
  exact ⟨_, List.mem_cons_self .., keyed, Nat.le_refl _, force⟩

private theorem owed_spawn_other {url key : Url} {run : Entry Url Stat} (owed : s.Owed url run)
    (different : url ≠ key) (entry : Entry Url Stat) : (s.spawn key entry).Owed url run :=
  ⟨spawn_flying _ _ _ owed.flying, owed.keyed, by
    rw [get?_spawn_other s different]
    exact owed.asks⟩

/-- While a run is in flight, no request takes back what an earlier one asked for. -/
private theorem owed_spawn_same {url : Url} {run entry : Entry Url Stat} (owed : s.Owed url run)
    (busy : entry.busy = run.busy) (dirty : entry.dirty = true) (force : entry.force = true) :
    (s.spawn url entry).Owed url run := by
  obtain ⟨flying, keyed, old, -, -, nonzero, -, -⟩ := owed
  rw [spawn_busy s url (busy ▸ nonzero)]
  exact ⟨flying, keyed, entry, Assoc.get?_insert_self .., busy, nonzero, dirty, force⟩

private theorem owed_insert {url : Url} {run : Entry Url Stat} (owed : s.Owed url run)
    {key : Url} {entry old : Entry Url Stat} (inside : s.entries.get? key = some old)
    (same : entry.busy = old.busy ∧ entry.dirty = old.dirty ∧ entry.force = old.force) :
    Owed { s with entries := s.entries.insert key entry } url run := by
  refine ⟨owed.flying, owed.keyed, ?_⟩
  obtain ⟨found, there, busy, nonzero, dirty, force⟩ := owed.asks
  rw [Assoc.get?_insert]
  split
  · next here =>
    rw [eq_of_beq here, inside] at there
    cases there
    exact ⟨entry, rfl, same.1.trans busy, nonzero, same.2.1.trans dirty, same.2.2.trans force⟩
  · exact ⟨found, there, busy, nonzero, dirty, force⟩

private theorem owed_sync {url : Url} {run : Entry Url Stat} {files : Files Url Stat}
    (owed : s.Owed url run) (registered : ((s.sync files).entries.get? url).isSome = true) :
    (s.sync files).Owed url run := by
  obtain ⟨flying, keyed, entry, inside, rest⟩ := owed
  obtain ⟨kept, found⟩ := Option.isSome_iff_exists.mp registered
  have wanted := (sync_cases found).1
  exact ⟨List.mem_filter.mpr ⟨flying, by rw [keyed]; exact wanted⟩, keyed, entry,
    sync_kept wanted inside, rest⟩

private theorem owed_load {url : Url} {run : Entry Url Stat} (owed : s.Owed url run)
    (file : File Url Stat) : (s.handle urls (.load file)).Owed url run := by
  simp only [handle]
  by_cases same : url = file.url
  · obtain ⟨entry, inside, busy, nonzero, -⟩ := owed.asks
    rw [← same, inside]
    have taken : (entry.busy != 0) = true := by simp [busy, nonzero]
    simp only [taken, if_true]
    exact owed_insert owed inside ⟨rfl, rfl, rfl⟩
  · split
    · next entry inside =>
      split
      · exact owed_insert owed inside ⟨rfl, rfl, rfl⟩
      · exact owed_spawn_other owed same _
    · exact owed_spawn_other owed same _

private theorem owed_refresh {url : Url} {run : Entry Url Stat} (owed : s.Owed url run)
    (file : File Url Stat) (force : Bool) : (s.handle urls (.refresh file force)).Owed url run := by
  simp only [handle]
  by_cases same : url = file.url
  · obtain ⟨entry, inside, busy, nonzero, dirty, forced⟩ := owed.asks
    rw [← same, inside]
    dsimp only
    split
    · exact owed_insert owed inside ⟨rfl, rfl, rfl⟩
    · exact owed_spawn_same owed busy rfl (by simp [forced])
  · split
    · next entry inside =>
      split
      · exact owed_insert owed inside ⟨rfl, rfl, rfl⟩
      · exact owed_spawn_other owed same _
    · exact owed_spawn_other owed same _

private theorem owed_tick {url : Url} {run : Entry Url Stat} (owed : s.Owed url run) (key : Url) :
    (s.tick key).Owed url run := by
  simp only [tick]
  split
  · exact owed
  · next entry inside =>
    by_cases same : url = key
    · subst same
      obtain ⟨found, there, busy, -, -, force⟩ := owed.asks
      rw [inside] at there
      cases there
      exact owed_spawn_same owed busy rfl force
    · exact owed_spawn_other owed same _

end spawn

/-- The `Done` of the run in flight starts the run that is owed; any other changes nothing here. -/
private theorem owed_done {url : Url} {run other prev : Entry Url Stat}
    {result : Except IoError (RefreshResponse Url Stat)} (inv : s.Inv) (owed : s.Owed url run)
    (listed : other ∈ s.flying ++ s.aborted) (same : prev.file.url = other.file.url)
    (busy : prev.busy = other.busy) :
    ((s.reported other).handle urls (.done prev result)).Owed url run ∨
      ((s.reported other).handle urls (.done prev result)).Served url s.ticket := by
  by_cases current : s.Current other
  · obtain ⟨here, -⟩ := flying_of_current inv current listed
    obtain ⟨entry, inside, ticket⟩ := current
    obtain ⟨emitted, after, handled, keyed, dirty, force⟩ :=
      done_current urls result inv inside ticket same busy
    rw [handled]
    by_cases mine : other.file.url = url
    · right
      obtain ⟨found, there, -, -, dirty', force'⟩ := owed.asks
      rw [mine] at inside
      rw [inside] at there
      cases there
      rw [mine]
      exact served_spawn _ (keyed.trans mine) rfl (dirty.trans dirty') (force force')
    · left
      have nodup : s.flying.Nodup := List.Nodup.of_map _ inv.single
      have kept : run ∈ s.flying.erase other := by
        refine nodup.mem_erase_iff.mpr ⟨?_, owed.flying⟩
        rintro rfl
        exact mine owed.keyed
      have owed : Owed { s.reported other with emitted } url run := ⟨kept, owed.keyed, owed.asks⟩
      exact owed_spawn_other owed (Ne.symm mine) _
  · left
    rw [done_superseded current same busy]
    obtain ⟨-, flying⟩ := inv_reported inv current
    exact ⟨by rw [flying]; exact owed.flying, owed.keyed, owed.asks⟩

omit [DecidableEq Stat] in
private theorem started_handle (s : Refresher Url Stat) (op : Op Url Stat) :
    s.started ⊆ (s.handle urls op).started ∧ s.ticket ≤ (s.handle urls op).ticket := by
  have same : s.started ⊆ s.started ∧ s.ticket ≤ s.ticket := ⟨List.Subset.refl _, Nat.le_refl _⟩
  cases op with
  | sync files => exact same
  | load file =>
    simp only [handle]
    repeat' split
    all_goals first | exact same | exact spawn_started ..
  | refresh file force =>
    simp only [handle]
    repeat' split
    all_goals first | exact same | exact spawn_started ..
  | done prev result =>
    simp only [handle]
    split
    · exact same
    · next entry _ =>
      split
      · exact same
      · have kept : (s.respond urls prev entry result).1.started = s.started ∧
            (s.respond urls prev entry result).1.ticket = s.ticket := by
          simp only [respond]
          repeat' split
          all_goals exact ⟨rfl, rfl⟩
        obtain ⟨started, ticket⟩ := spawn_started (s.respond urls prev entry result).1 prev.file.url
          { (s.respond urls prev entry result).2 with busy := 0 }
        exact ⟨kept.1 ▸ started, kept.2 ▸ ticket⟩

omit [DecidableEq Stat] in
private theorem tick_started (s : Refresher Url Stat) (order : List Url) :
    s.started ⊆ (order.foldl tick s).started ∧ s.ticket ≤ (order.foldl tick s).ticket := by
  induction order generalizing s with
  | nil => exact ⟨List.Subset.refl _, Nat.le_refl _⟩
  | cons url order ih =>
    have first : s.started ⊆ (s.tick url).started ∧ s.ticket ≤ (s.tick url).ticket := by
      simp only [tick]
      split
      · exact ⟨List.Subset.refl _, Nat.le_refl _⟩
      · exact spawn_started ..
    obtain ⟨started, ticket⟩ := ih (s.tick url)
    exact ⟨List.Subset.trans first.1 started, Nat.le_trans first.2 ticket⟩

private theorem step_started {label : Label Url Stat} (move : s.step urls label = some t) :
    s.started ⊆ t.started ∧ s.ticket ≤ t.ticket := by
  cases label with
  | sync | load | refresh =>
    cases move
    exact started_handle ..
  | chunk run files =>
    simp only [step] at move
    split at move <;> cases move
    exact ⟨List.Subset.refl _, Nat.le_refl _⟩
  | done run answer timeless read =>
    simp only [step] at move
    split at move <;> cases move
    exact started_handle (s.reported run) _
  | tick order =>
    simp only [step] at move
    split at move <;> cases move
    exact tick_started s order
  | next =>
    cases move
    exact ⟨List.Subset.refl _, Nat.le_succ _⟩

private theorem owed_step {label : Label Url Stat} {url : Url} {run : Entry Url Stat}
    (inv : s.Inv) (owed : s.Owed url run) (move : s.step urls label = some t)
    (registered : (t.entries.get? url).isSome = true) :
    t.Owed url run ∨ t.Served url s.ticket := by
  cases label with
  | sync files =>
    cases move
    exact .inl (owed_sync owed registered)
  | load file =>
    cases move
    exact .inl (owed_load owed file)
  | refresh file force =>
    cases move
    exact .inl (owed_refresh owed file force)
  | chunk run files =>
    simp only [step] at move
    split at move <;> cases move
    exact .inl ⟨owed.flying, owed.keyed, owed.asks⟩
  | done other answer timeless read =>
    simp only [step] at move
    split at move
    · next listed =>
      cases move
      obtain ⟨same, busy⟩ := refresh_same other answer timeless read
      exact owed_done inv owed listed same busy
    · cases move
  | tick order =>
    simp only [step] at move
    split at move <;> cases move
    clear * - owed
    left
    induction order generalizing s with
    | nil => exact owed
    | cons key order ih => exact ih (owed_tick owed key)
  | next =>
    cases move
    exact .inl ⟨owed.flying, owed.keyed, owed.asks⟩

/-! ### Every run of the refresher -/

/-- Whether a directory is registered after a step. -/
def stays (urls : Urls Url) (url : Url) (s : Refresher Url Stat) (label : Label Url Stat) : Bool :=
  (s.step urls label).any fun t => (t.entries.get? url).isSome

private theorem owed_run {labels : List (Label Url Stat)} {url : Url} {run : Entry Url Stat}
    {since : Nat} (path : Run (restrict (step urls) (stays urls url)) s labels t) (inv : s.Inv)
    (old : since ≤ s.ticket) (start : s.Owed url run ∨ s.Served url since) :
    t.Owed url run ∨ t.Served url since := by
  have held : t.Inv ∧ since ≤ t.ticket ∧ (t.Owed url run ∨ t.Served url since) := by
    refine path.invariant
      (P := fun s => s.Inv ∧ since ≤ s.ticket ∧ (s.Owed url run ∨ s.Served url since)) ?_
      ⟨inv, old, start⟩
    rintro s label t ⟨inv, old, start⟩ move
    obtain ⟨registered, move⟩ := restrict_eq_some move
    obtain ⟨started, ticket⟩ := step_started move
    refine ⟨inv_step inv move, Nat.le_trans old ticket, ?_⟩
    simp only [stays, move, Option.any_some] at registered
    rcases start with owed | ⟨run, member, rest⟩
    · refine (owed_step inv owed move registered).imp (fun owed => owed) ?_
      rintro ⟨run, member, keyed, young, force⟩
      exact ⟨run, member, keyed, Nat.le_trans old young, force⟩
    · exact .inr ⟨run, started member, rest⟩
  exact held.2.2

/-- A load that finds no run in flight, and a forced refresh. -/
inductive Asks (s : Refresher Url Stat) (file : File Url Stat) : Label Url Stat → Prop where
  | load (idle : ∀ entry, s.entries.get? file.url = some entry → entry.busy = 0) :
      Asks s file (.load file)
  | refresh : Asks s file (.refresh file true)

private theorem asked {file : File Url Stat} {label : Label Url Stat} (inv : s.Inv)
    (request : Asks s file label) (move : s.step urls label = some t) :
    (∃ run ∈ s.flying, t.Owed file.url run) ∨ t.Served file.url s.ticket := by
  cases request with
  | load idle =>
    cases move
    right
    simp only [handle]
    split
    · next entry inside =>
      have zero := idle entry inside
      rw [if_neg (by simp [zero])]
      exact served_spawn s rfl zero rfl rfl
    · exact served_spawn s rfl rfl rfl rfl
  | refresh =>
    cases move
    simp only [handle]
    split
    · next entry inside =>
      simp only [Bool.not_true, Bool.false_and, Bool.false_eq_true, if_false, Bool.or_true]
      by_cases zero : entry.busy = 0
      · exact .inr (served_spawn s rfl zero rfl rfl)
      · left
        obtain ⟨run, member, keyed⟩ := inv.busy _ entry inside zero
        obtain ⟨found, there, busy⟩ := inv.held run member
        rw [keyed, inside] at there
        cases there
        refine ⟨run, member, ?_⟩
        rw [spawn_busy]
        · exact ⟨member, keyed, _, Assoc.get?_insert_self .., busy, busy ▸ zero, rfl, rfl⟩
        · exact zero
    · exact .inr (served_spawn s rfl rfl rfl rfl)

/-- No directory is read by two runs at once; the `Done` of a superseded run changes nothing; and
after a load that finds no run in flight, or a forced refresh, of a directory that stays
registered, a run that is not skipped was started, or the run that was in flight at the request
has not reported yet. Of a load that finds a run in flight only the file is kept. -/
theorem no_request_lost {labels : List (Label Url Stat)}
    (run : Run (step urls) ({} : Refresher Url Stat) labels s) :
    (s.flying.map (·.file.url)).Nodup ∧
      (∀ run answer timeless read, run ∈ s.flying ++ s.aborted → ¬s.Current run →
        s.step urls (.done run answer timeless read) =
          some { s with aborted := s.aborted.erase run }) ∧
      (∀ file label t, Asks s file label → s.step urls label = some t →
        ∀ rest u, Run (restrict (step urls) (stays urls file.url)) t rest u →
          (∃ run ∈ u.started, run.file.url = file.url ∧ s.ticket ≤ run.busy ∧
            ∀ answer timeless read, (run.refresh answer timeless read).2 ≠ .ok .skip) ∨
          ∃ run ∈ s.flying, run.file.url = file.url ∧ run ∈ u.flying) ∧
      ∀ file entry, s.entries.get? file.url = some entry → entry.busy ≠ 0 →
        s.step urls (.load file) =
          some { s with entries := s.entries.insert file.url { entry with file } } := by
  have inv := inv_run run
  refine ⟨inv.single, ?_, ?_, fun file entry listed busy => ?_⟩
  · intro run answer timeless read listed stale
    obtain ⟨url, busy⟩ := refresh_same run answer timeless read
    simp only [step, if_pos listed]
    refine congrArg some ((done_superseded stale url busy).trans ?_)
    obtain ⟨-, flying⟩ := inv_reported inv stale
    simp only [reported] at flying ⊢
    rw [flying]
  · intro file label t request move rest u path
    have ticket := (step_started move).2
    rcases asked inv request move with ⟨run, member, owed⟩ | served
    · rcases owed_run path (inv_step inv move) ticket (.inl owed) with owed | served
      · exact .inr ⟨run, member, owed.keyed, owed.flying⟩
      · obtain ⟨run, member, keyed, young, force⟩ := served
        exact .inl ⟨run, member, keyed, young, refresh_force force⟩
    · obtain ⟨run, member, keyed, young, force⟩ := served
      have kept : t.started ⊆ u.started := path.invariant (P := fun v => t.started ⊆ v.started)
        (fun _ _ _ kept move => List.Subset.trans kept (step_started (restrict_eq_some move).2).1)
        (List.Subset.refl _)
      exact .inl ⟨run, kept member, keyed, young, refresh_force force⟩
  · simp only [step, handle, listed]
    rw [if_pos (by simpa using busy)]

/-! ### A remote directory -/

def remoteUrls : Urls Nat := { isLocal := fun _ => false, pair := fun _ => none }

def remoteDir : File Nat Nat := { url := 7, stat := 0, isDir := true }

theorem no_request_lost_after_refresh :
    ∃ labels s, Run (step remoteUrls) ({} : Refresher Nat Nat) labels s ∧
      ∃ run ∈ s.started, 2 ≤ run.busy ∧
        ∀ answer timeless read, (run.refresh answer timeless read).2 ≠ .ok .skip := by
  let first : Entry Nat Nat := { file := remoteDir, busy := 1, dirty := true, report := true }
  let s : Refresher Nat Nat := step remoteUrls {} (.refresh remoteDir false) |>.get rfl
  let t : Refresher Nat Nat := s.step remoteUrls (.refresh remoteDir true) |>.get rfl
  have run : Run (step remoteUrls) {} [.refresh remoteDir false] s := run_exec rfl
  have later : Run (restrict (step remoteUrls) (stays remoteUrls remoteDir.url)) t
      [.done first (.ok none) false (.ok [])] _ := run_exec rfl
  have request : step remoteUrls s (.refresh remoteDir true) = some t := rfl
  refine ⟨_, _, run.append (.cons request later.of_restrict), ?_⟩
  rcases (no_request_lost run).2.2.1 remoteDir _ t .refresh request _ _ later with
    ⟨next, member, -, young, full⟩ | ⟨old, here, -, still⟩
  · exact ⟨next, member, young, full⟩
  · -- The first run has reported, so it is not the one in flight.
    have one : old.busy = 1 := by
      cases here with
      | head => rfl
      | tail _ none => cases none
    have two : old.busy = 2 := by
      cases still with
      | head => rfl
      | tail _ none => cases none
    omega

/-- A load arrives while the first, unforced run is in flight: only its file is kept. The run is
skipped, and so is every run that the timer starts for the unchanged directory. -/
theorem load_absorbed :
    ¬ ∀ (labels rest : List (Label Nat Nat)) (s t u : Refresher Nat Nat) (file : File Nat Nat),
      Run (step remoteUrls) {} labels s → s.step remoteUrls (.load file) = some t →
      Run (restrict (step remoteUrls) (stays remoteUrls file.url)) t rest u →
      (∃ run ∈ u.started, run.file.url = file.url ∧ s.ticket ≤ run.busy ∧
        ∀ answer timeless read, (run.refresh answer timeless read).2 ≠ .ok .skip) ∨
      ∃ run ∈ s.flying, run.file.url = file.url ∧ run ∈ u.flying := by
  intro followed
  let first : Entry Nat Nat := { file := remoteDir, busy := 1, dirty := true, report := true }
  let second : Entry Nat Nat := { file := remoteDir, busy := 2, dirty := true }
  let s : Refresher Nat Nat := step remoteUrls {} (.refresh remoteDir false) |>.get rfl
  let t : Refresher Nat Nat := s.step remoteUrls (.load remoteDir) |>.get rfl
  have run : Run (step remoteUrls) {} [.refresh remoteDir false] s := run_exec rfl
  let skips : List (Label Nat Nat) :=
    [.done first (.ok none) false (.ok []), .tick [7], .done second (.ok none) false (.ok [])]
  have outcome : (exec (restrict (step remoteUrls) (stays remoteUrls remoteDir.url)) t skips).map
      (fun u => (u.started, u.flying)) = some ([second, first], []) := by decide
  obtain ⟨u, reached, same⟩ := Option.map_eq_some_iff.mp outcome
  obtain ⟨started, flying⟩ := Prod.mk.inj same
  rcases followed _ _ s t u remoteDir run rfl (run_of_exec reached) with
    ⟨next, member, -, young, full⟩ | ⟨_, -, -, still⟩
  · rw [started] at member
    cases member with
    | head => exact full (.ok none) false (.ok []) rfl
    | tail _ member =>
      cases member with
      | head => exact absurd young (by decide)
      | tail _ none => cases none
  · rw [flying] at still
    cases still

end Refresher
end Yazi.Watcher
