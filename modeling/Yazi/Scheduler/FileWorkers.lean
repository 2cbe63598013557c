import Yazi.Scheduler.FileQueue

/-!
When all file workers wait for jobs that only they could do.

Each worker that waits is at a move that waits, and of these a run has only those that were
submitted. So there is always a worker left as long as they are fewer than the workers; and if
they are not, then each worker may take one of them first.
-/
namespace Yazi.Scheduler.FileQueue
open Base Fs

namespace State

/-! ### Enough workers -/

/-- What the worker still has to do contains a wait. -/
def pending (w : Option Work) : Bool := w.any fun work => work.rest.any Action.isWait

@[simp] theorem pending_none : pending none = false := rfl

@[simp] theorem pending_some (work : Work) :
    pending (some work) = work.rest.any Action.isWait := rfl

/-- The waits that are still to come. -/
def risk (s : State) : Nat := s.queue.countP (·.2.waits) + s.workers.countP pending

/-- What a worker does besides waiting is to queue jobs that do not wait. -/
structure Tame (s : State) : Prop where
  rest : ∀ work, some work ∈ s.workers → ∀ a ∈ work.rest, a.isWait = false → a.Plain

theorem isWait_of_plain {a : Action} (plain : a.Plain) : a.isWait = false := by
  cases a with
  | requeue priority job => rfl
  | wait chan => exact plain.elim

theorem any_isWait_body (chan : Chan) (job : FileIn) :
    (job.body chan).any Action.isWait = job.waits := by
  cases waits : job.waits with
  | false =>
    rw [List.any_eq_false]
    intro a member
    simp [isWait_of_plain (FileIn.plain_body chan waits a member)]
  | true =>
    obtain ⟨before, after, shape, -⟩ := FileIn.body_of_waits chan waits
    simp [shape, Action.isWait]

theorem plain_of_body (chan : Chan) (job : FileIn) :
    ∀ a ∈ job.body chan, a.isWait = false → a.Plain := by
  intro a member other
  cases waits : job.waits with
  | false => exact FileIn.plain_body chan waits a member
  | true =>
    obtain ⟨before, after, shape, first, last, -⟩ := FileIn.body_of_waits chan waits
    rw [shape] at member
    rcases List.mem_append.mp member with early | late
    · exact first a early
    · rcases List.mem_cons.mp late with rfl | late
      · cases other
      · exact last a late

private theorem working_eq_some {s : State} {worker : Nat} {work : Work}
    (found : s.working worker = some work) : s.workers[worker]? = some (some work) := by
  rw [working] at found
  exact Option.join_eq_some_iff.mp found

private theorem countP_set_of {workers : List (Option Work)} {worker : Nat} {w : Option Work}
    (found : workers[worker]? = some w) (w' : Option Work) :
    (workers.set worker w').countP pending + (pending w).toNat =
      workers.countP pending + (pending w').toNat := by
  obtain ⟨inside, rfl⟩ := List.getElem?_eq_some_iff.mp found
  have counted : (pending workers[worker]).toNat ≤ workers.countP pending := by
    cases waits : pending workers[worker] with
    | false => exact Nat.zero_le _
    | true => exact List.countP_pos_iff.mpr ⟨_, List.getElem_mem inside, waits⟩
  rw [List.countP_set inside]
  cases old : pending workers[worker] <;> cases new : pending w' <;>
    simp only [old, Bool.toNat_true, Bool.toNat_false] at counted ⊢ <;> simp <;> omega

private theorem mem_set {workers : List (Option Work)} {worker : Nat} {w : Option Work}
    {work : Work} (member : some work ∈ workers.set worker w) : some work ∈ workers ∨ w = some work := by
  rcases List.mem_or_eq_of_mem_set member with old | rfl
  · exact .inl old
  · exact .inr rfl

private theorem countP_erase_of {queue : List (Nat × FileIn)} {priority : Nat} {job : FileIn}
    (member : (priority, job) ∈ queue) :
    (queue.erase (priority, job)).countP (·.2.waits) + job.waits.toNat =
      queue.countP (·.2.waits) := by
  rw [(List.perm_cons_erase member).countP_eq, List.countP_cons]
  cases job.waits <;> rfl

/-- Only a task that is submitted adds to the waits. -/
theorem step_risk {s t : State} {a : Label} (tame : s.Tame) (move : s.step a = some t) :
    t.Tame ∧ t.workers.length = s.workers.length ∧
      t.risk ≤ s.risk + (submitted [a]).countP FileIn.waits := by
  cases a with
  | submit task =>
    simp only [step] at move
    split at move
    · cases move
      refine ⟨⟨tame.rest⟩, rfl, ?_⟩
      simp only [risk, submitted, List.countP_append, List.countP_cons, List.countP_nil,
        List.filterMap_cons, List.filterMap_nil]
      omega
    · cases move
  | take worker priority job =>
    simp only [step] at move
    split at move
    · next enabled =>
      cases move
      simp only [Bool.and_eq_true, idle, first, decide_eq_true_eq] at enabled
      obtain ⟨free, queued, -⟩ := enabled
      refine ⟨⟨fun work member => ?_⟩, List.length_set, ?_⟩
      · rcases mem_set member with old | new
        · exact tame.rest work old
        · cases new
          exact plain_of_body s.chans job
      · have taken := countP_erase_of queued
        have begun := countP_set_of free (some ⟨job, job.body s.chans⟩)
        simp only [pending_none, pending_some, any_isWait_body, Bool.toNat_false] at begun
        simp only [risk, submitted, List.filterMap_cons, List.filterMap_nil, List.countP_nil]
        omega
    · cases move
  | discard worker priority job =>
    simp only [step] at move
    split at move
    · cases move
      refine ⟨⟨tame.rest⟩, rfl, ?_⟩
      have fewer := List.Sublist.countP_le (p := fun e : Nat × FileIn => e.2.waits)
        (List.erase_sublist (a := (priority, job)) (l := s.queue))
      simp only [risk, submitted, List.filterMap_cons, List.filterMap_nil, List.countP_nil]
      omega
    · cases move
  | act worker =>
    obtain ⟨⟨job, rest⟩, found, move⟩ := Option.bind_eq_some_iff.mp move
    have here := working_eq_some found
    have tameHere := tame.rest _ (List.mem_of_getElem? here)
    -- whatever it does next, the rest of its work stays as it was
    have tameNext : ∀ a rest', rest = a :: rest' →
        ∀ work, some work ∈ s.workers.set worker (some ⟨job, rest'⟩) →
          ∀ a ∈ work.rest, a.isWait = false → a.Plain := by
      rintro a rest' rfl work member
      rcases mem_set member with old | new
      · exact tame.rest work old
      · cases new
        exact fun b later => tameHere b (List.mem_cons_of_mem _ later)
    simp only [risk, submitted, List.filterMap_cons, List.filterMap_nil, List.countP_nil]
    split at move
    · cases move
    · next priority job' rest' shape =>
      obtain rfl : rest = _ := shape
      cases move
      refine ⟨⟨tameNext _ _ rfl⟩, List.length_set, ?_⟩
      have patient : job'.waits = false := tameHere _ List.mem_cons_self rfl
      have next := countP_set_of here (some ⟨job, rest'⟩)
      simp only [pending_some, List.any_cons, Action.isWait, Bool.false_or] at next
      simp only [List.countP_append, List.countP_cons, List.countP_nil, patient,
        Bool.false_eq_true, if_false]
      omega
    · next chan rest' shape =>
      obtain rfl : rest = _ := shape
      split at move
      · cases move
      · cases move
        refine ⟨⟨tameNext _ _ rfl⟩, List.length_set, ?_⟩
        have next := countP_set_of here (some ⟨job, rest'⟩)
        simp only [pending_some, List.any_cons, Action.isWait, Bool.true_or, Bool.toNat_true]
          at next
        have least := Bool.toNat_le (rest'.any Action.isWait)
        dsimp only
        omega
  | leave worker =>
    obtain ⟨work, found, rfl⟩ := Option.map_eq_some_iff.mp move
    refine ⟨⟨fun work' member => ?_⟩, List.length_set, ?_⟩
    · rcases mem_set member with old | new
      · exact tame.rest work' old
      · cases new
    · have left := countP_set_of (working_eq_some found) none
      simp only [risk, submitted, List.filterMap_cons, List.filterMap_nil, List.countP_nil]
      simp only [pending_none, Bool.toNat_false] at left
      omega

theorem run_risk {s t : State} {labels : List Label} (run : Run step s labels t)
    (tame : s.Tame) : t.Tame ∧ t.workers.length = s.workers.length ∧
      t.risk ≤ s.risk + (submitted labels).countP FileIn.waits := by
  induction run with
  | nil => exact ⟨tame, rfl, Nat.le_add_right ..⟩
  | @cons s t u a labels move _ ih =>
    obtain ⟨tame, same, first⟩ := step_risk tame move
    obtain ⟨tame, same', rest⟩ := ih tame
    refine ⟨tame, same'.trans same, ?_⟩
    have all : submitted (a :: labels) = submitted [a] ++ submitted labels :=
      List.filterMap_append (l := [a])
    rw [all, List.countP_append]
    omega

theorem make_tame (n : Nat) : (make n).Tame where
  rest := by
    intro work member
    cases List.eq_of_mem_replicate member

theorem make_risk (n : Nat) : (make n).risk = 0 := by
  simp [make, risk, List.countP_replicate]

theorem pending_of_waiting {s : State} {w : Option Work} (waiting : s.waiting w = true) :
    pending w = true := by
  cases w with
  | none => cases waiting
  | some work =>
    obtain ⟨job, rest⟩ := work
    cases rest with
    | nil => cases waiting
    | cons a rest =>
      cases a with
      | requeue priority job => cases waiting
      | wait chan => rfl

theorem workers_le_risk {s : State} (stuck : s.Stuck) : s.workers.length ≤ s.risk := by
  have all : s.workers.countP pending = s.workers.length :=
    List.countP_eq_length.mpr fun w member => pending_of_waiting (stuck w member)
  simp only [risk]
  omega

/-! ### Too few workers -/

theorem submitted_append (first rest : List Label) :
    submitted (first ++ rest) = submitted first ++ submitted rest := List.filterMap_append

theorem run_submit {tasks : List FileIn} (s : State) (proper : ∀ task ∈ tasks, task.isTask = true) :
    Run step s (tasks.map .submit) { s with queue := s.queue ++ tasks.map (low, ·) } := by
  induction tasks generalizing s with
  | nil =>
    rw [List.map_nil, List.map_nil, List.append_nil]
    exact .nil s
  | cons task tasks ih =>
    have first : s.step (.submit task) = some { s with queue := s.queue ++ [(low, task)] } := by
      simp [step, proper task List.mem_cons_self]
    have rest := ih { s with queue := s.queue ++ [(low, task)] }
      fun task member => proper task (List.mem_cons_of_mem _ member)
    rw [List.append_assoc] at rest
    exact .cons first rest

/-- As long as only tasks are queued, idle workers may take any of them. -/
theorem run_take (chosen : List FileIn) {s : State} (front : List (Option Work))
    (workers : s.workers = front ++ List.replicate chosen.length none)
    (flat : ∀ e ∈ s.queue, e.1 = low) (queued : (chosen.map (low, ·)).Subperm s.queue) :
    ∃ (labels : List Label) (works : List Work) (t : State), Run step s labels t ∧
      submitted labels = [] ∧
      t.workers = front ++ works.map some ∧ works.length = chosen.length ∧
      ∀ work ∈ works, ∃ chan, work.job ∈ chosen ∧ work.rest = work.job.body chan := by
  induction chosen generalizing s front with
  | nil => exact ⟨[], [], s, .nil s, rfl, workers, rfl, nofun⟩
  | cons job chosen ih =>
    have here : (low, job) ∈ s.queue := queued.subset List.mem_cons_self
    have idle : s.idle front.length = true := by
      simp [State.idle, workers, List.replicate_succ]
    have best : s.first low job = true := by
      simp only [first, decide_eq_true_eq]
      exact ⟨here, List.all_eq_true.mpr fun e member => by simp [flat e member]⟩
    have taken : s.step (.take front.length low job) = some { s with
        queue := s.queue.erase (low, job)
        workers := front ++ some ⟨job, job.body s.chans⟩ :: List.replicate chosen.length none
        chans := s.chans + 1 } := by
      simp [step, idle, best, workers, List.replicate_succ]
    obtain ⟨labels, works, t, run, quiet, shape, count, each⟩ := ih
      (s := { s with
        queue := s.queue.erase (low, job)
        workers := front ++ some ⟨job, job.body s.chans⟩ :: List.replicate chosen.length none
        chans := s.chans + 1 })
      (front ++ [some ⟨job, job.body s.chans⟩]) (by simp)
      (fun e member => flat e (List.mem_of_mem_erase member))
      (by simpa using queued.erase (low, job))
    refine ⟨.take front.length low job :: labels, ⟨job, job.body s.chans⟩ :: works, t,
      .cons taken run, quiet, by simpa using shape, by simp [count], ?_⟩
    rintro work (_ | ⟨_, member⟩)
    · exact ⟨s.chans, List.mem_cons_self, rfl⟩
    · obtain ⟨chan, among, rest⟩ := each work member
      exact ⟨chan, List.mem_cons_of_mem _ among, rest⟩

/-- A worker that gets to its wait, after it has queued a job that it waits for. -/
def Arrived (queue : List (Nat × FileIn)) (work : Work) : Prop :=
  ∃ chan rest, work.rest = .wait chan :: rest ∧ ∃ e ∈ queue, e.2.drop = some chan

theorem Arrived.mono {queue queue' : List (Nat × FileIn)} {work : Work}
    (arrived : Arrived queue work) (more : queue ⊆ queue') : Arrived queue' work := by
  obtain ⟨chan, rest, shape, e, member, same⟩ := arrived
  exact ⟨chan, rest, shape, e, more member, same⟩

theorem waiting_of_arrived {s : State} {work : Work} (arrived : Arrived s.queue work) :
    s.waiting (some work) = true := by
  obtain ⟨chan, rest, shape, e, member, same⟩ := arrived
  obtain ⟨job, _⟩ := work
  obtain rfl := shape
  have queued : s.queue.any (·.2.drop = some chan) = true :=
    List.any_eq_true.mpr ⟨e, member, by simpa using same⟩
  simp [waiting, held, queued]

/-- A worker does what comes before its wait. -/
theorem run_act {before rest : List Action} {s : State} {job : FileIn} {front back : List (Option Work)}
    (plain : ∀ a ∈ before, a.Plain) (workers : s.workers = front ++ some ⟨job, before ++ rest⟩ :: back) :
    ∃ (labels : List Label) (t : State), Run step s labels t ∧ submitted labels = [] ∧
      t.workers = front ++ some ⟨job, rest⟩ :: back ∧ s.queue ⊆ t.queue ∧
      ∀ priority job', .requeue priority job' ∈ before → (priority, job') ∈ t.queue := by
  induction before generalizing s with
  | nil => exact ⟨[], s, .nil s, rfl, workers, List.Subset.refl _, nofun⟩
  | cons a before ih =>
    cases a with
    | wait chan => exact (plain _ List.mem_cons_self).elim
    | requeue priority job' =>
      have moved : s.step (.act front.length) = some { s with
          queue := s.queue ++ [(priority, job')]
          workers := front ++ some ⟨job, before ++ rest⟩ :: back } := by
        simp [step, working, workers]
      obtain ⟨labels, t, run, quiet, shape, more, each⟩ := ih
        (s := { s with
          queue := s.queue ++ [(priority, job')]
          workers := front ++ some ⟨job, before ++ rest⟩ :: back })
        (fun a member => plain a (List.mem_cons_of_mem _ member)) rfl
      refine ⟨.act front.length :: labels, t, .cons moved run, quiet, shape,
        fun e member => more (List.mem_append_left _ member), ?_⟩
      rintro priority' job'' (_ | ⟨_, member⟩)
      · exact more (List.mem_append_right _ List.mem_cons_self)
      · exact each priority' job'' member

/-- Workers at moves that wait all get to their waits. -/
theorem run_arrive (works front : List Work) {s : State}
    (workers : s.workers = front.map some ++ works.map some)
    (arrived : ∀ work ∈ front, Arrived s.queue work)
    (begun : ∀ work ∈ works, ∃ chan, work.job.waits = true ∧ work.rest = work.job.body chan) :
    ∃ (labels : List Label) (t : State), Run step s labels t ∧ submitted labels = [] ∧ t.Stuck := by
  induction works generalizing s front with
  | nil =>
    refine ⟨[], s, .nil s, rfl, fun w member => ?_⟩
    rw [workers, List.map_nil, List.append_nil] at member
    obtain ⟨work, among, rfl⟩ := List.mem_map.mp member
    exact waiting_of_arrived (arrived work among)
  | cons work works ih =>
    obtain ⟨chan, waits, rest⟩ := begun work List.mem_cons_self
    obtain ⟨before, after, shape, plain, -, priority, job, listed, holds⟩ :=
      FileIn.body_of_waits chan waits
    obtain ⟨job', _⟩ := work
    obtain rfl := rest.trans shape
    obtain ⟨labels, t, run, quiet, there, more, each⟩ := run_act plain workers
    have arrivedNext : ∀ work ∈ front ++ [⟨job', .wait chan :: after⟩], Arrived t.queue work := by
      intro work member
      rcases List.mem_append.mp member with old | new
      · exact (arrived work old).mono more
      · obtain rfl := List.mem_singleton.mp new
        exact ⟨chan, after, rfl, _, each priority job listed, holds⟩
    obtain ⟨labels', u, run', quiet', stuck⟩ := ih
      (front ++ [⟨job', .wait chan :: after⟩]) (s := t) (by simpa using there) arrivedNext
      (fun work member => begun work (List.mem_cons_of_mem _ member))
    refine ⟨labels ++ labels', u, run.append run', ?_, stuck⟩
    rw [submitted_append, quiet, quiet', List.append_nil]

theorem exists_stuck {workers : Nat} {tasks : List FileIn}
    (proper : ∀ task ∈ tasks, task.isTask = true)
    (many : workers ≤ tasks.countP FileIn.waits) :
    ∃ labels s, Run step (make workers) labels s ∧ submitted labels = tasks ∧ s.Stuck := by
  -- each worker takes one of the moves that wait
  have enough : ((tasks.filter FileIn.waits).take workers).length = workers := by
    rw [List.length_take, ← List.countP_eq_length_filter]
    omega
  have among : ((tasks.filter FileIn.waits).take workers).Sublist tasks :=
    (List.take_sublist ..).trans List.filter_sublist
  obtain ⟨labels, works, t, run, quiet, there, -, each⟩ := run_take
    ((tasks.filter FileIn.waits).take workers)
    (s := { make workers with queue := (make workers).queue ++ tasks.map (low, ·) }) []
    (by rw [enough]; rfl)
    (by
      intro e member
      obtain ⟨task, -, rfl⟩ := List.mem_map.mp member
      rfl)
    (among.map _).subperm
  obtain ⟨labels', u, run', quiet', stuck⟩ := run_arrive works [] there nofun
    (fun work member => by
      obtain ⟨chan, chosen, rest⟩ := each work member
      exact ⟨chan, (List.mem_filter.mp (List.mem_of_mem_take chosen)).2, rest⟩)
  refine ⟨tasks.map .submit ++ (labels ++ labels'), u,
    (run_submit (make workers) proper).append (run.append run'), ?_, stuck⟩
  have first : submitted (tasks.map .submit) = tasks := by
    rw [submitted, List.filterMap_map]
    exact List.filterMap_some
  rw [submitted_append, submitted_append, first, quiet, quiet', List.append_nil, List.append_nil]

end State

/-- Whatever the order of events: there is always a worker that does not wait if and only if
there are fewer moves that wait than workers. -/
theorem file_workers_never_stuck {workers : Nat} {tasks : List FileIn}
    (proper : ∀ task ∈ tasks, task.isTask = true) :
    (∀ labels s, Run State.step (State.make workers) labels s → submitted labels = tasks →
      ¬s.Stuck ∧ (s.queue ≠ [] → ∃ w ∈ s.workers, s.waiting w = false)) ↔
        tasks.countP FileIn.waits < workers := by
  constructor
  · intro never
    by_contra many
    obtain ⟨labels, s, run, all, stuck⟩ := State.exists_stuck proper (Nat.le_of_not_lt many)
    exact (never labels s run all).1 stuck
  · rintro few labels s run rfl
    obtain ⟨-, same, risk⟩ := State.run_risk run (State.make_tame workers)
    rw [State.make_risk, Nat.zero_add] at risk
    have count : s.workers.length = workers := same.trans (List.length_replicate ..)
    have free : ¬s.Stuck := by
      intro stuck
      have most := State.workers_le_risk stuck
      omega
    refine ⟨free, fun _ => ?_⟩
    by_contra none
    apply free
    intro w member
    by_contra other
    exact none ⟨w, member, eq_false_of_ne_true other⟩

/-- A symlink to a file, as following it shows it. -/
def linked : Stat where
  kind := StatKind.follow
  mode := 0x8000
  len := 1
  btime := none
  ctime := none
  mtime := none

theorem file_workers_never_stuck_two :
    [FileIn.move 0 true true [linked], .copy 1 true [linked]].countP FileIn.waits = 1 ∧
      ∀ labels s, Run State.step (State.make 2) labels s →
        submitted labels = [.move 0 true true [linked], .copy 1 true [linked]] →
          ¬s.Stuck ∧ (s.queue ≠ [] → ∃ w ∈ s.workers, s.waiting w = false) :=
  ⟨by decide, (file_workers_never_stuck (by decide)).mpr (by decide)⟩

/-- The only worker waits for the link that it has queued itself. -/
theorem only_worker_stuck : ∃ labels s, Run State.step (State.make 1) labels s ∧
    submitted labels = [.move 0 true true [linked]] ∧ s.queue = [(low, .moveDo 0 (some 0))] ∧
      ∀ w ∈ s.workers, s.waiting w = true := by
  refine ⟨[.submit (.move 0 true true [linked]), .take 0 low (.move 0 true true [linked]), .act 0], _,
    run_exec (by decide : (exec State.step (State.make 1)
      [.submit (.move 0 true true [linked]), .take 0 low (.move 0 true true [linked]),
        .act 0]).isSome = true), rfl, ?_⟩
  decide

end Yazi.Scheduler.FileQueue
