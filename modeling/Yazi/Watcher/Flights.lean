import Mathlib.Data.List.Nodup
import Yazi.Watcher.Refresher

/-! The invariant that ties every run in flight to the entry that holds its handle. -/
namespace Yazi.Watcher
open Yazi.Base

variable {Url Stat : Type} [DecidableEq Url]

structure Refresher.Inv (s : Refresher Url Stat) : Prop where
  keyed : ∀ url entry, s.entries.get? url = some entry → entry.file.url = url
  positive : 0 < s.ticket
  held : ∀ run ∈ s.flying, ∃ entry, s.entries.get? run.file.url = some entry ∧
    entry.busy = run.busy
  busy : ∀ url entry, s.entries.get? url = some entry → entry.busy ≠ 0 →
    ∃ run ∈ s.flying, run.file.url = url
  single : (s.flying.map (·.file.url)).Nodup
  issued : ∀ run ∈ s.flying ++ s.aborted, 0 < run.busy ∧ run.busy < s.ticket
  stray : ∀ run ∈ s.aborted, ∀ entry, s.entries.get? run.file.url = some entry →
    entry.busy ≠ run.busy

namespace Refresher

variable {urls : Urls Url} {s t : Refresher Url Stat}

/-- An entry may be put under its url when it agrees with the run in flight there, if any. -/
structure Fits (s : Refresher Url Stat) (key : Url) (entry : Entry Url Stat) : Prop where
  keyed : entry.file.url = key
  busy : entry.busy ≠ 0 → ∃ old, s.entries.get? key = some old ∧ old.busy = entry.busy
  idle : entry.busy = 0 → ∀ run ∈ s.flying, run.file.url ≠ key

private theorem inv_insert (inv : s.Inv) {key : Url} {entry : Entry Url Stat}
    (fits : s.Fits key entry) : Inv { s with entries := s.entries.insert key entry } := by
  obtain ⟨keyed, positive, held, busy, single, issued, stray⟩ := inv
  refine ⟨?_, positive, ?_, ?_, single, issued, ?_⟩
  · intro url found inside
    rw [Assoc.get?_insert] at inside
    split at inside
    · next same =>
      cases inside
      rw [fits.keyed, eq_of_beq same]
    · exact keyed url found inside
  · intro run member
    rw [Assoc.get?_insert]
    split
    · next same =>
      refine ⟨entry, rfl, ?_⟩
      have here : run.file.url = key := eq_of_beq same
      obtain ⟨old, inside, ticket⟩ := held run member
      by_cases zero : entry.busy = 0
      · exact absurd here (fits.idle zero run member)
      · obtain ⟨old', inside', ticket'⟩ := fits.busy zero
        rw [here, inside'] at inside
        cases inside
        exact ticket'.symm.trans ticket
    · exact held run member
  · intro url found inside nonzero
    rw [Assoc.get?_insert] at inside
    split at inside
    · next same =>
      cases inside
      obtain ⟨old, inside, ticket⟩ := fits.busy nonzero
      rw [eq_of_beq same]
      exact busy key old inside (ticket ▸ nonzero)
    · exact busy url found inside nonzero
  · intro run member found inside
    rw [Assoc.get?_insert] at inside
    split at inside
    · next same =>
      cases inside
      by_cases zero : entry.busy = 0
      · have positive := (issued run (List.mem_append_right _ member)).1
        omega
      · obtain ⟨old, inside, ticket⟩ := fits.busy zero
        rw [← ticket]
        exact stray run member old (by rw [eq_of_beq same, inside])
    · exact stray run member found inside

theorem inv_spawn (inv : s.Inv) {key : Url} {entry : Entry Url Stat} (fits : s.Fits key entry) :
    (s.spawn key entry).Inv := by
  simp only [spawn]
  split
  · exact inv_insert inv fits
  · next starting =>
    simp only [Bool.or_eq_true, Bool.not_eq_true', bne_iff_ne, not_or, not_not] at starting
    have idle := fits.idle starting.2
    have cleared : s.Fits key { file := entry.file } :=
      ⟨fits.keyed, fun zero => absurd rfl zero, fun _ => idle⟩
    have replaced := inv_insert inv cleared
    obtain ⟨keyed, positive, held, busy, single, issued, stray⟩ := replaced
    have ticket : s.ticket ≠ 0 := Nat.ne_of_gt positive
    refine ⟨?_, Nat.succ_pos _, ?_, ?_, ?_, ?_, ?_⟩
    · intro url found inside
      rw [Assoc.get?_insert] at inside
      split at inside
      · next same =>
        cases inside
        rw [eq_of_beq same]
        exact fits.keyed
      · next other => exact keyed url found (by rw [Assoc.get?_insert, if_neg other]; exact inside)
    · intro run member
      rcases List.mem_cons.mp member with rfl | member
      · refine ⟨{ file := entry.file, busy := s.ticket }, ?_, rfl⟩
        simp only [fits.keyed, Assoc.get?_insert_self]
      · have other : ¬(run.file.url == key) = true := fun same =>
          idle run member (eq_of_beq same)
        obtain ⟨found, inside, same⟩ := held run member
        rw [Assoc.get?_insert, if_neg other] at inside ⊢
        exact ⟨found, inside, same⟩
    · intro url found inside nonzero
      rw [Assoc.get?_insert] at inside
      split at inside
      · next same =>
        exact ⟨_, List.mem_cons_self .., fits.keyed.trans (eq_of_beq same).symm⟩
      · next other =>
        obtain ⟨run, member, same⟩ :=
          busy url found (by rw [Assoc.get?_insert, if_neg other]; exact inside) nonzero
        exact ⟨run, List.mem_cons_of_mem _ member, same⟩
    · refine List.nodup_cons.mpr ⟨?_, single⟩
      intro member
      obtain ⟨run, member, same⟩ := List.mem_map.mp member
      exact idle run member (same.trans fits.keyed)
    · intro run member
      rcases List.mem_cons.mp member with rfl | member
      · exact ⟨Nat.pos_of_ne_zero ticket, Nat.lt_succ_self _⟩
      · obtain ⟨above, below⟩ := issued run member
        exact ⟨above, Nat.lt_succ_of_lt below⟩
    · intro run member found inside
      have below := (issued run (List.mem_append_right _ member)).2
      rw [Assoc.get?_insert] at inside
      split at inside
      · cases inside
        exact Nat.ne_of_gt below
      · next other =>
        exact stray run member found (by rw [Assoc.get?_insert, if_neg other]; exact inside)

/-- A file and flags do not matter for where an entry fits. -/
theorem fits_of_get? (inv : s.Inv) {key : Url} {old entry : Entry Url Stat}
    (inside : s.entries.get? key = some old) (keyed : entry.file.url = key)
    (same : entry.busy = old.busy) : s.Fits key entry := by
  refine ⟨keyed, fun _ => ⟨old, inside, same.symm⟩, ?_⟩
  rintro zero run member rfl
  obtain ⟨found, inside', ticket⟩ := inv.held run member
  rw [inside] at inside'
  cases inside'
  have positive := (inv.issued run (List.mem_append_left _ member)).1
  omega

private theorem fits_new (inv : s.Inv) {key : Url} {entry : Entry Url Stat}
    (outside : s.entries.get? key = none) (keyed : entry.file.url = key) (zero : entry.busy = 0) :
    s.Fits key entry := by
  refine ⟨keyed, fun nonzero => absurd zero nonzero, ?_⟩
  rintro _ run member rfl
  obtain ⟨found, inside, _⟩ := inv.held run member
  rw [outside] at inside
  cases inside

/-! ### Sync -/

private def register (entries : Assoc Url (Entry Url Stat)) (file : File Url Stat) :
    Assoc Url (Entry Url Stat) :=
  if (entries.get? file.url).isSome then entries else entries.insert file.url { file }

private theorem registered_kept {files : Files Url Stat} {entries : Assoc Url (Entry Url Stat)}
    {url : Url} {entry : Entry Url Stat} (inside : entries.get? url = some entry) :
    (files.foldl register entries).get? url = some entry := by
  induction files generalizing entries with
  | nil => exact inside
  | cons file files ih =>
    apply ih
    simp only [register]
    split
    · exact inside
    · next missing =>
      rw [Assoc.get?_insert]
      split
      · next same =>
        rw [← eq_of_beq same, inside] at missing
        exact absurd rfl missing
      · exact inside

private theorem registered_cases {files : Files Url Stat} {entries : Assoc Url (Entry Url Stat)}
    {url : Url} {entry : Entry Url Stat}
    (inside : (files.foldl register entries).get? url = some entry) :
    entries.get? url = some entry ∨
      (entries.get? url = none ∧ entry.busy = 0 ∧ entry.file.url = url ∧
        ∃ file ∈ files, file.url = url) := by
  induction files generalizing entries with
  | nil => exact .inl inside
  | cons file files ih =>
    have widen : ∀ {P : File Url Stat → Prop}, (∃ file ∈ files, P file) →
        ∃ found ∈ file :: files, P found := fun ⟨found, member, holds⟩ =>
      ⟨found, List.mem_cons_of_mem _ member, holds⟩
    have later := ih inside
    simp only [register] at later
    split at later
    · exact later.imp id fun ⟨outside, zero, keyed, listed⟩ => ⟨outside, zero, keyed, widen listed⟩
    · next missing =>
      rw [Assoc.get?_insert] at later
      split at later
      · next same =>
        have here : url = file.url := eq_of_beq same
        subst here
        rcases later with new | ⟨never, -⟩
        · cases new
          exact .inr ⟨by simpa using missing, rfl, rfl, file, List.mem_cons_self .., rfl⟩
        · cases never
      · exact later.imp id fun ⟨outside, zero, keyed, listed⟩ =>
          ⟨outside, zero, keyed, widen listed⟩

private theorem get?_wanted (s : Refresher Url Stat) (files : Files Url Stat) (url : Url) :
    (s.entries.retain fun url => files.any (·.url == url)).get? url =
      if files.any (·.url == url) then s.entries.get? url else none := by
  refine Assoc.get?_retain _ ?_ url
  intro a b same
  rw [eq_of_beq same]

theorem sync_kept {files : Files Url Stat} {url : Url} {entry : Entry Url Stat}
    (wanted : files.any (·.url == url) = true) (inside : s.entries.get? url = some entry) :
    (s.sync files).entries.get? url = some entry :=
  registered_kept (by rw [get?_wanted, if_pos wanted, inside])

/-- An entry after `sync` was there before, or is new and idle. -/
theorem sync_cases {files : Files Url Stat} {url : Url} {entry : Entry Url Stat}
    (inside : (s.sync files).entries.get? url = some entry) :
    files.any (·.url == url) = true ∧ (s.entries.get? url = some entry ∨
      (s.entries.get? url = none ∧ entry.busy = 0 ∧ entry.file.url = url)) := by
  rcases registered_cases inside with old | ⟨outside, zero, keyed, file, member, same⟩
  · rw [get?_wanted] at old
    split at old
    · next wanted => exact ⟨wanted, .inl old⟩
    · cases old
  · have wanted : files.any (·.url == url) = true :=
      List.any_eq_true.mpr ⟨file, member, by simp [same]⟩
    rw [get?_wanted, if_pos wanted] at outside
    exact ⟨wanted, .inr ⟨outside, zero, keyed⟩⟩

private theorem inv_sync (inv : s.Inv) (files : Files Url Stat) : (s.sync files).Inv := by
  obtain ⟨keyed, positive, held, busy, single, issued, stray⟩ := inv
  refine ⟨?_, positive, ?_, ?_, ?_, ?_, ?_⟩
  · intro url entry inside
    rcases sync_cases inside with ⟨-, old | ⟨-, -, new⟩⟩
    · exact keyed url entry old
    · exact new
  · intro run member
    obtain ⟨member, wanted⟩ := List.mem_filter.mp member
    obtain ⟨entry, inside, same⟩ := held run member
    exact ⟨entry, sync_kept wanted inside, same⟩
  · intro url entry inside nonzero
    rcases sync_cases inside with ⟨wanted, old | ⟨-, zero, -⟩⟩
    · obtain ⟨run, member, rfl⟩ := busy url entry old nonzero
      exact ⟨run, List.mem_filter.mpr ⟨member, wanted⟩, rfl⟩
    · exact absurd zero nonzero
  · exact (List.filter_sublist.map _).nodup single
  · intro run member
    refine issued run ?_
    simp only [sync, List.mem_append, List.mem_filter] at member ⊢
    tauto
  · intro run member entry inside
    rcases sync_cases inside with ⟨wanted, old | ⟨outside, zero, -⟩⟩
    · rcases List.mem_append.mp member with dropped | member
      · obtain ⟨-, unwanted⟩ := List.mem_filter.mp dropped
        simp [wanted] at unwanted
      · exact stray run member entry old
    · have listed : run ∈ s.flying ++ s.aborted := by
        rcases List.mem_append.mp member with dropped | member
        · exact List.mem_append_left _ (List.mem_filter.mp dropped).1
        · exact List.mem_append_right _ member
      have above := (issued run listed).1
      omega

/-! ### Requests and the timer -/

private theorem inv_load (inv : s.Inv) (file : File Url Stat) :
    (s.handle urls (.load file)).Inv := by
  simp only [handle]
  split
  · next entry inside =>
    split
    · exact inv_insert inv (fits_of_get? inv inside rfl rfl)
    · exact inv_spawn inv (fits_of_get? inv inside rfl rfl)
  · next outside => exact inv_spawn inv (fits_new inv outside rfl rfl)

private theorem inv_refresh (inv : s.Inv) (file : File Url Stat) (force : Bool) :
    (s.handle urls (.refresh file force)).Inv := by
  simp only [handle]
  split
  · next entry inside =>
    split
    · exact inv_insert inv (fits_of_get? inv inside rfl rfl)
    · exact inv_spawn inv (fits_of_get? inv inside rfl rfl)
  · next outside => exact inv_spawn inv (fits_new inv outside rfl rfl)

private theorem inv_tick (inv : s.Inv) (url : Url) : (s.tick url).Inv := by
  simp only [tick]
  split
  · exact inv
  · next entry inside =>
    exact inv_spawn inv (fits_of_get? inv inside (inv.keyed url entry inside) rfl)

/-! ### The end of a run -/

/-- A run that must not be skipped is not skipped. -/
theorem refresh_force {run : Entry Url Stat} (force : run.force = true)
    (answer : Except IoError (Option (File Url Stat))) (timeless : Bool)
    (read : Except IoError (Files Url Stat)) :
    (run.refresh answer timeless read).2 ≠ .ok .skip := by
  simp only [Entry.refresh]
  split
  · nofun
  · simp only [force, Bool.not_true, Bool.and_false, Bool.false_eq_true, if_false]
    split <;> cases read <;> simp [Except.map]

/-- A run reports under the url and the ticket it was started with. -/
theorem refresh_same (run : Entry Url Stat) (answer : Except IoError (Option (File Url Stat)))
    (timeless : Bool) (read : Except IoError (Files Url Stat)) :
    (run.refresh answer timeless read).1.file.url = run.file.url ∧
      (run.refresh answer timeless read).1.busy = run.busy := by
  have same : ∀ found, revalidate run.file answer timeless = .ok found →
      (found.getD run.file).url = run.file.url := by
    intro found valid
    simp only [revalidate] at valid
    repeat' split at valid
    all_goals cases valid
    -- The one file that is not the old one was compared with it.
    · next kept _ => exact not_not.mp kept
    · rfl
    · rfl
  simp only [Entry.refresh]
  split
  · exact ⟨rfl, rfl⟩
  · next found valid => (repeat' split) <;> exact ⟨same found valid, rfl⟩

variable (urls) in
omit [DecidableEq Url] in
/-- An accepted `Done` keeps the flags of the entry, except that an error forces the next run. -/
private theorem respond_spec (s : Refresher Url Stat) {prev entry : Entry Url Stat}
    (result : Except IoError (RefreshResponse Url Stat)) (keyed : entry.file.url = prev.file.url) :
    ∃ emitted after, s.respond urls prev entry result = ({ s with emitted }, after) ∧
      after.file.url = prev.file.url ∧ after.dirty = entry.dirty ∧
      (entry.force = true → after.force = true) := by
  simp only [respond]
  repeat' split
  all_goals exact ⟨_, _, rfl, by first | rfl | exact keyed, rfl, by first | exact id | exact fun _ => rfl⟩

variable [DecidableEq Stat]

/-- The runs in flight and aborted, once one of them reported. -/
def reported (s : Refresher Url Stat) (run : Entry Url Stat) : Refresher Url Stat :=
  { s with flying := s.flying.erase run, aborted := s.aborted.erase run }

/-- Whether a run is the one whose handle its entry holds. -/
def Current (s : Refresher Url Stat) (run : Entry Url Stat) : Prop :=
  ∃ entry, s.entries.get? run.file.url = some entry ∧ entry.busy = run.busy

/-- The `Done` of a superseded run. -/
theorem done_superseded {run prev : Entry Url Stat}
    {result : Except IoError (RefreshResponse Url Stat)} (stale : ¬s.Current run)
    (url : prev.file.url = run.file.url) (busy : prev.busy = run.busy) :
    (s.reported run).handle urls (.done prev result) = s.reported run := by
  simp only [handle, reported, url]
  split
  · rfl
  · next entry inside =>
    rw [if_pos]
    simp only [bne_iff_ne, ne_eq, busy]
    exact fun same => stale ⟨entry, inside, same⟩

variable (urls) in
/-- The `Done` of the current run frees its entry and serves what arrived in the meantime. -/
theorem done_current {run prev : Entry Url Stat} {entry : Entry Url Stat}
    (result : Except IoError (RefreshResponse Url Stat)) (inv : s.Inv)
    (inside : s.entries.get? run.file.url = some entry) (same : entry.busy = run.busy)
    (url : prev.file.url = run.file.url) (busy : prev.busy = run.busy) :
    ∃ emitted, ∃ after : Entry Url Stat, (s.reported run).handle urls (.done prev result) =
        ({ s.reported run with emitted } : Refresher Url Stat).spawn run.file.url
          { after with busy := 0 } ∧
      after.file.url = run.file.url ∧ after.dirty = entry.dirty ∧
      (entry.force = true → after.force = true) := by
  have keyed : entry.file.url = prev.file.url := (inv.keyed _ _ inside).trans url.symm
  obtain ⟨emitted, after, answer, file, dirty, force⟩ :=
    respond_spec urls (s.reported run) result keyed
  refine ⟨emitted, after, ?_, file.trans url, dirty, force⟩
  have found : (s.reported run).entries.get? prev.file.url = some entry := by
    rw [url]
    exact inside
  simp only [handle, found]
  rw [if_neg (by simp [same, busy]), answer, url]

omit [DecidableEq Stat] in
theorem flying_of_current {run : Entry Url Stat} (inv : s.Inv) (current : s.Current run)
    (listed : run ∈ s.flying ++ s.aborted) : run ∈ s.flying ∧ run ∉ s.aborted := by
  obtain ⟨entry, inside, same⟩ := current
  have kept : run ∉ s.aborted := fun dropped => inv.stray run dropped entry inside same
  exact ⟨(List.mem_append.mp listed).resolve_right kept, kept⟩

omit [DecidableEq Stat] in
private theorem eq_of_url {run other : Entry Url Stat} (inv : s.Inv) (here : run ∈ s.flying)
    (there : other ∈ s.flying) (same : run.file.url = other.file.url) : run = other :=
  List.inj_on_of_nodup_map inv.single here there same

/-- The entry of a run that reported may be freed. -/
private theorem inv_free {run : Entry Url Stat} {entry : Entry Url Stat} (inv : s.Inv)
    (current : s.Current run) (listed : run ∈ s.flying ++ s.aborted)
    (keyed : entry.file.url = run.file.url) (zero : entry.busy = 0) :
    Inv { s.reported run with entries := s.entries.insert run.file.url entry } := by
  obtain ⟨here, -⟩ := flying_of_current inv current listed
  have nodup : s.flying.Nodup := List.Nodup.of_map _ inv.single
  have others : ∀ other ∈ s.flying.erase run, other ∈ s.flying ∧ other.file.url ≠ run.file.url := by
    intro other member
    obtain ⟨different, member⟩ := nodup.mem_erase_iff.mp member
    exact ⟨member, fun same => different (eq_of_url inv member here same)⟩
  have lookup : ∀ url found, (s.entries.insert run.file.url entry).get? url = some found →
      (url = run.file.url ∧ found = entry) ∨
        (url ≠ run.file.url ∧ s.entries.get? url = some found) := by
    intro url found inside
    rw [Assoc.get?_insert] at inside
    split at inside
    · next same => exact .inl ⟨eq_of_beq same, by simpa [eq_comm] using inside⟩
    · next other => exact .inr ⟨by simpa using other, inside⟩
  refine ⟨?_, inv.positive, ?_, ?_, ?_, ?_, ?_⟩
  · intro url found inside
    rcases lookup url found inside with ⟨rfl, rfl⟩ | ⟨-, inside⟩
    · exact keyed
    · exact inv.keyed url found inside
  · intro other member
    obtain ⟨member, different⟩ := others other member
    obtain ⟨found, inside, same⟩ := inv.held other member
    refine ⟨found, ?_, same⟩
    rw [Assoc.get?_insert, if_neg (by simpa using different)]
    exact inside
  · intro url found inside nonzero
    rcases lookup url found inside with ⟨-, rfl⟩ | ⟨different, inside⟩
    · exact absurd zero nonzero
    · obtain ⟨other, member, rfl⟩ := inv.busy url found inside nonzero
      refine ⟨other, nodup.mem_erase_iff.mpr ⟨?_, member⟩, rfl⟩
      rintro rfl
      exact different rfl
  · exact (List.erase_sublist.map _).nodup inv.single
  · intro other member
    refine inv.issued other ?_
    rcases List.mem_append.mp member with flying | aborted
    · exact List.mem_append_left _ (List.mem_of_mem_erase flying)
    · exact List.mem_append_right _ (List.mem_of_mem_erase aborted)
  · intro other member found inside
    have member := List.mem_of_mem_erase member
    have above := (inv.issued other (List.mem_append_right _ member)).1
    rcases lookup _ found inside with ⟨-, rfl⟩ | ⟨-, inside⟩
    · omega
    · exact inv.stray other member found inside

omit [DecidableEq Stat] in
private theorem spawn_insert (s : Refresher Url Stat) (key : Url) (old entry : Entry Url Stat) :
    ({ s with entries := s.entries.insert key old } : Refresher Url Stat).spawn key entry =
      s.spawn key entry := by
  simp only [spawn, Assoc.insert_insert]

omit [DecidableEq Stat] in
private theorem inv_emitted (inv : s.Inv) (emitted : List (FilesOp Url Stat)) :
    Inv { s with emitted } :=
  ⟨inv.keyed, inv.positive, inv.held, inv.busy, inv.single, inv.issued, inv.stray⟩

/-- An aborted run that reported is forgotten. -/
theorem inv_reported {run : Entry Url Stat} (inv : s.Inv) (stale : ¬s.Current run) :
    (s.reported run).Inv ∧ (s.reported run).flying = s.flying := by
  have same : s.flying.erase run = s.flying :=
    List.erase_of_not_mem fun member => stale (inv.held run member)
  refine ⟨⟨inv.keyed, inv.positive, ?_, ?_, ?_, ?_, ?_⟩, same⟩
  · simp only [reported, same]
    exact inv.held
  · simp only [reported, same]
    exact inv.busy
  · simp only [reported, same]
    exact inv.single
  · simp only [reported, same]
    intro other member
    refine inv.issued other ?_
    rcases List.mem_append.mp member with flying | aborted
    · exact List.mem_append_left _ flying
    · exact List.mem_append_right _ (List.mem_of_mem_erase aborted)
  · intro other member
    exact inv.stray other (List.mem_of_mem_erase member)

private theorem inv_done {run prev : Entry Url Stat}
    {result : Except IoError (RefreshResponse Url Stat)} (inv : s.Inv)
    (listed : run ∈ s.flying ++ s.aborted) (url : prev.file.url = run.file.url)
    (busy : prev.busy = run.busy) :
    ((s.reported run).handle urls (.done prev result)).Inv := by
  by_cases current : s.Current run
  · obtain ⟨entry, inside, same⟩ := current
    obtain ⟨emitted, after, handled, keyed, -⟩ :=
      done_current urls result inv inside same url busy
    rw [handled, ← spawn_insert _ _ { after with busy := 0 }]
    have free : Inv { s.reported run with
        entries := s.entries.insert run.file.url { after with busy := 0 } } :=
      inv_free inv ⟨entry, inside, same⟩ listed keyed rfl
    exact inv_spawn (inv_emitted free emitted)
      (fits_of_get? (inv_emitted free emitted) (Assoc.get?_insert_self ..) keyed rfl)
  · rw [done_superseded current url busy]
    exact (inv_reported inv current).1

/-! ### Runs of the refresher -/

theorem inv_step {label : Label Url Stat} (inv : s.Inv) (move : s.step urls label = some t) :
    t.Inv := by
  cases label with
  | sync files =>
    cases move
    exact inv_sync inv files
  | load file =>
    cases move
    exact inv_load inv file
  | refresh file force =>
    cases move
    exact inv_refresh inv file force
  | chunk run files =>
    simp only [step] at move
    split at move <;> cases move
    exact inv_emitted inv _
  | done run answer timeless read =>
    simp only [step] at move
    split at move
    · next listed =>
      cases move
      obtain ⟨url, busy⟩ := refresh_same run answer timeless read
      exact inv_done inv listed url busy
    · cases move
  | tick order =>
    simp only [step] at move
    split at move <;> cases move
    clear * - inv
    induction order generalizing s with
    | nil => exact inv
    | cons url order ih => exact ih (inv_tick inv url)
  | next =>
    cases move
    obtain ⟨keyed, positive, held, busy, single, issued, stray⟩ := inv
    refine ⟨keyed, Nat.succ_pos _, held, busy, single, fun run listed => ?_, stray⟩
    exact ⟨(issued run listed).1, Nat.lt_succ_of_lt (issued run listed).2⟩

omit [DecidableEq Stat] in
theorem inv_new : ({} : Refresher Url Stat).Inv :=
  ⟨nofun, Nat.one_pos, nofun, nofun, List.nodup_nil, nofun, nofun⟩

theorem inv_run {labels : List (Label Url Stat)}
    (run : Run (step urls) ({} : Refresher Url Stat) labels s) : s.Inv :=
  run.invariant (P := Inv) (fun _ _ _ inv move => inv_step inv move) inv_new

end Refresher
end Yazi.Watcher
