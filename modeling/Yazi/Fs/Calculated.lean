import Mathlib
import Yazi.Fs.Calculator

/-!
# The total does not depend on the chunks

A turn of the loop takes what it adds to the size off what the queue has left, and takes one off
the turns that are left. So whatever ends a chunk, the values handed out, the size not yet handed
out and what is left in the queue make up the total, and chunks that get to a turn are few.
-/
namespace Yazi.Fs.SizeCalculator
open Yazi.Base

/-! ### Turns -/

/-- The lengths that are left in a queue, and the turns it takes. -/
def remaining (buf : List Task) : Nat := (buf.map fun task => Dirent.total.totals task.entries).sum

def work (buf : List Task) : Nat := (buf.map fun task => 1 + Dirent.work.works task.entries).sum

@[simp] theorem remaining_nil : remaining [] = 0 := rfl

@[simp] theorem remaining_cons (task : Task) (buf : List Task) :
    remaining (task :: buf) = Dirent.total.totals task.entries + remaining buf := rfl

@[simp] theorem remaining_append (a b : List Task) :
    remaining (a ++ b) = remaining a + remaining b := by simp [remaining]

@[simp] theorem work_nil : work [] = 0 := rfl

@[simp] theorem work_cons (task : Task) (buf : List Task) :
    work (task :: buf) = 1 + Dirent.work.works task.entries + work buf := rfl

@[simp] theorem work_append (a b : List Task) : work (a ++ b) = work a + work b := by simp [work]

theorem Task.entries_of_read {task : Task} {entries : List Dirent}
    (read : task.read = some entries) : task.entries = entries := by
  cases task with
  | left path =>
    change path.readDir = some entries at read
    rw [Task.entries, read, Option.getD_some]
  | right listing => exact Option.some.inj read

theorem Task.entries_of_not_read {task : Task} (read : task.read = none) : task.entries = [] := by
  cases task with
  | left path =>
    change path.readDir = none at read
    rw [Task.entries, read, Option.getD_none]
  | right listing => cases read

/-- A directory in the queue stands for what is below it. -/
theorem total_of_isDir {entry : Dirent} (isDir : entry.isDir = true) :
    Dirent.total.totals (Task.left entry).entries = entry.total ∧
      1 + (1 + Dirent.work.works (Task.left entry).entries) = entry.work := by
  cases entry with
  | broken | untyped | file _ => cases isDir
  | dir entries =>
    refine ⟨by rw [Dirent.total]; rfl, ?_⟩
    rw [Dirent.work, Task.entries, Dirent.readDir, Option.getD_some]
    omega
  | locked => exact ⟨by rw [Dirent.total]; rfl, by rw [Dirent.work]; rfl⟩

/-- What is in a queue, before and after some turns: the size has grown by what the queue has
lost, and there is less to do if there was a turn at all. -/
structure Counted (a : Nat) (buf : List Task) (started : Bool)
    (result : List Task × Option UInt64) : Prop where
  sum : ∃ b, result.2 = some (.ofNat b) ∧ b + remaining result.1 = a + remaining buf
  fewer : work result.1 + started.toNat ≤ work buf

/-- A turn, and then others. -/
theorem Counted.after {a b : Nat} {buf next : List Task} {started : Bool}
    {result : List Task × Option UInt64} (counted : Counted b next started result)
    (same : b + remaining next = a + remaining buf) (fewer : work next < work buf) :
    Counted a buf true result := by
  obtain ⟨⟨c, size, sum⟩, less⟩ := counted
  refine ⟨⟨c, size, sum.trans same⟩, ?_⟩
  rw [Bool.toNat_true]
  omega

theorem turns_counted (inTime : Nat → Bool) (left : Nat) {buf : List Task} (filled : buf ≠ [])
    (a : Nat) : Counted a buf (decide (0 < left) && inTime (limit - left))
      (turns inTime left buf (.ofNat a)) := by
  induction left generalizing buf a with
  | zero => exact ⟨⟨a, rfl, rfl⟩, Nat.le_refl _⟩
  | succ left ih =>
    unfold turns
    split
    · next late =>
      rw [Bool.not_eq_true'] at late
      rw [late, Bool.and_false]
      exact ⟨⟨a, rfl, rfl⟩, Nat.le_refl _⟩
    · next early =>
      rw [Bool.not_eq_true', Bool.not_eq_false] at early
      rw [early, Bool.and_true, decide_eq_true (Nat.succ_pos left)]
      match buf with
      | [] => exact absurd rfl filled
      | front :: rest =>
        dsimp only
        have popped : front.entries = [] → Counted a (front :: rest) true
            (if rest.isEmpty then ([], some (.ofNat a))
              else turns inTime left rest (.ofNat a)) := by
          intro empty
          have nothing : remaining (front :: rest) = remaining rest ∧
              work (front :: rest) = 1 + work rest := by
            simp [empty, Dirent.total.totals, Dirent.work.works]
          split
          · next last =>
            rw [List.isEmpty_iff] at last
            subst last
            refine ⟨⟨a, rfl, by rw [nothing.1]⟩, ?_⟩
            rw [nothing.2]
            exact Nat.le_refl 1
          · next more =>
            refine (ih (fun none => more (List.isEmpty_iff.mpr none)) a).after ?_ ?_
            · rw [nothing.1]
            · omega
        split
        · next closed => exact popped (Task.entries_of_not_read closed)
        · next finished => exact popped (Task.entries_of_read finished)
        · next entry listing read =>
          have entries := Task.entries_of_read read
          have whole : remaining (front :: rest) =
              entry.total + Dirent.total.totals listing + remaining rest := by
            simp [entries, Dirent.total.totals]
          have turned : work (front :: rest) =
              1 + (entry.work + Dirent.work.works listing) + work rest := by
            simp [entries, Dirent.work.works]
          have kept : remaining (.right listing :: rest) =
              Dirent.total.totals listing + remaining rest := rfl
          have next : work (.right listing :: rest) =
              1 + Dirent.work.works listing + work rest := rfl
          -- A directory that is found goes to the end of the queue.
          have found : entry.isDir = true → Counted a (front :: rest) true
              (turns inTime left (.right listing :: rest ++ [.left entry]) (.ofNat a)) := by
            intro isDir
            obtain ⟨total, turn⟩ := total_of_isDir isDir
            refine (ih (by simp) a).after ?_ ?_
            · rw [whole, remaining_append, kept, remaining_cons, total, remaining_nil]
              omega
            · rw [turned, work_append, next, work_cons, work_nil]
              omega
          cases entry with
          | broken | untyped =>
            refine (ih (by simp) a).after ?_ ?_
            · rw [whole, kept, Dirent.total]
              omega
            · rw [turned, next, Dirent.work]
              omega
          | file len =>
            have grown : UInt64.ofNat a + len.getD 0 = .ofNat (a + (Dirent.file len).total) := by
              rw [UInt64.ofNat_add]
              cases len with
              | none => rfl
              | some len => rw [Dirent.total, UInt64.ofNat_toNat, Option.getD_some]
            dsimp only
            rw [grown]
            refine (ih (by simp) _).after ?_ ?_
            · rw [whole, kept]
              omega
            · rw [turned, next, Dirent.work]
              omega
          | dir _ | locked => exact found rfl

theorem nextChunk_counted (inTime : Nat → Bool) {buf : List Task} (filled : buf ≠ []) :
    Counted 0 buf (inTime 0) (nextChunk inTime buf) := by
  have counted := turns_counted inTime limit filled 0
  rw [Nat.sub_self] at counted
  exact counted

/-! ### Calls of `next` -/

def queue : SizeCalculator → List Task
  | .idle buf _ | .pending buf | .done buf _ => buf

/-- The size that is not yet handed out. -/
def held : SizeCalculator → Option UInt64
  | .idle _ size | .done _ size => size
  | .pending _ => none

def isEnd : SizeCalculator → Bool
  | .idle [] none => true
  | _ => false

/-- Each answer is what some chunk added up, and after the first `None` there is nothing else. -/
structure Inv (whole : Nat) (s : State) : Prop where
  counted : ∃ (chunks : List Nat) (rest nones : Nat),
    s.answers = chunks.map (fun n => some (.ofNat n)) ++ List.replicate nones none ∧
    (0 < nones → isEnd s.calculator = true) ∧
    (held s.calculator = some (.ofNat rest) ∨ held s.calculator = none ∧ rest = 0) ∧
    chunks.sum + rest + remaining (queue s.calculator) = whole
  filled : ∀ buf, s.calculator = .pending buf → buf ≠ []

theorem inv_answer {whole : Nat} {s : State} (inv : Inv whole s) {buf : List Task}
    {size : Option UInt64} (here : s.calculator = .idle buf size ∨ s.calculator = .done buf size) :
    Inv whole (answer s buf size) := by
  obtain ⟨⟨chunks, rest, nones, answers, ended, handed, sum⟩, -⟩ := inv
  have size_eq : held s.calculator = size := by rcases here with here | here <;> rw [here] <;> rfl
  have buf_eq : queue s.calculator = buf := by rcases here with here | here <;> rw [here] <;> rfl
  -- An end has nothing in its queue and nothing to hand out.
  have finished : isEnd s.calculator = true → buf = [] ∧ size = none := by
    intro last
    rcases here with here | here
    · rw [here] at last
      unfold isEnd at last
      split at last
      · next same =>
        cases same
        exact ⟨rfl, rfl⟩
      · cases last
    · rw [here] at last
      cases last
  rw [size_eq] at handed
  rw [buf_eq] at sum
  unfold answer
  split
  · next value =>
    rcases handed with same | ⟨none, -⟩
    · have first : nones = 0 := by
        by_contra some
        cases (finished (ended (Nat.pos_of_ne_zero some))).2
      cases same
      subst first
      refine ⟨⟨chunks ++ [rest], 0, 0, ?_, fun some => absurd some (Nat.lt_irrefl 0), .inr ⟨rfl, rfl⟩,
        ?_⟩, nofun⟩
      · simp [answers]
      · rw [List.sum_append, List.sum_singleton]
        exact sum
    · cases none
  · rcases handed with some | ⟨-, rfl⟩
    · cases some
    · split
      · next empty =>
        rw [List.isEmpty_iff] at empty
        subst empty
        refine ⟨⟨chunks, 0, nones + 1, ?_, fun _ => rfl, .inr ⟨rfl, rfl⟩, sum⟩, nofun⟩
        rw [answers, List.replicate_succ', List.append_assoc]
      · next more =>
        have first : nones = 0 := by
          by_contra some
          exact more (List.isEmpty_iff.mpr (finished (ended (Nat.pos_of_ne_zero some))).1)
        subst first
        refine ⟨⟨chunks, 0, 0, answers, fun some => absurd some (Nat.lt_irrefl 0), .inr ⟨rfl, rfl⟩,
          sum⟩, fun other same => ?_⟩
        cases same
        exact fun none => more (List.isEmpty_iff.mpr none)

theorem poll_cases {s t : State} (move : step s .poll = some t) :
    (∃ buf, s.calculator = .pending buf ∧ t = s) ∨ ∃ buf size,
      (s.calculator = .idle buf size ∨ s.calculator = .done buf size) ∧ t = answer s buf size := by
  cases here : s.calculator with
  | idle buf size =>
    rw [step, here] at move
    exact .inr ⟨buf, size, .inl rfl, (Option.some.inj move).symm⟩
  | pending buf =>
    rw [step, here] at move
    exact .inl ⟨buf, rfl, (Option.some.inj move).symm⟩
  | done buf size =>
    rw [step, here] at move
    exact .inr ⟨buf, size, .inr rfl, (Option.some.inj move).symm⟩

theorem run_cases {s t : State} {inTime : Nat → Bool} (move : step s (.run inTime) = some t) :
    ∃ buf, s.calculator = .pending buf ∧
      t = ⟨.done (nextChunk inTime buf).1 (nextChunk inTime buf).2, s.answers⟩ := by
  cases here : s.calculator with
  | idle buf size | done buf size =>
    rw [step, here] at move
    cases move
  | pending buf =>
    rw [step, here] at move
    exact ⟨buf, rfl, (Option.some.inj move).symm⟩

theorem inv_step {whole : Nat} {s t : State} {label : Label} (inv : Inv whole s)
    (move : step s label = some t) : Inv whole t := by
  cases label with
  | poll =>
    obtain ⟨buf, -, rfl⟩ | ⟨buf, size, here, rfl⟩ := poll_cases move
    · exact inv
    · exact inv_answer inv here
  | run inTime =>
    obtain ⟨buf, here, rfl⟩ := run_cases move
    obtain ⟨⟨chunks, rest, nones, answers, ended, handed, sum⟩, filled⟩ := inv
    obtain ⟨⟨b, grown, moved⟩, -⟩ := nextChunk_counted inTime (filled buf here)
    rw [here] at ended handed sum
    refine ⟨⟨chunks, b, nones, answers, fun positive => ?_, .inl grown, ?_⟩, nofun⟩
    · cases ended positive
    · rcases handed with wrong | ⟨-, rfl⟩
      · cases wrong
      · change chunks.sum + b + remaining (nextChunk inTime buf).1 = whole
        change chunks.sum + 0 + remaining buf = whole at sum
        omega

theorem inv_new {inTime : Nat → Bool} {root : Dirent} {calculator : SizeCalculator}
    (made : new inTime root = some calculator) : Inv root.total ⟨calculator, []⟩ := by
  cases root with
  | broken | untyped | locked => cases made
  | file len =>
    cases len with
    | none => cases made
    | some len =>
      cases made
      refine ⟨⟨[], len.toNat, 0, rfl, fun some => absurd some (Nat.lt_irrefl 0), .inl ?_, ?_⟩, nofun⟩
      · exact congrArg some UInt64.ofNat_toNat.symm
      · simp [queue, Dirent.total]
  | dir entries =>
    cases made
    obtain ⟨⟨b, size, sum⟩, -⟩ :=
      nextChunk_counted inTime (List.cons_ne_nil (Task.right entries) [])
    refine ⟨⟨[], b, 0, rfl, fun some => absurd some (Nat.lt_irrefl 0), .inl size, ?_⟩, nofun⟩
    change 0 + b + remaining (nextChunk inTime [.right entries]).1 = _
    rw [Nat.zero_add, sum, Dirent.total]
    simp [Task.entries]

/-- What was yielded when the end is reached. -/
theorem yielded_of_inv {whole : Nat} {s : State} (inv : Inv whole s) (ended : none ∈ s.answers) :
    ∃ chunks : List Nat, yielded s = chunks.map UInt64.ofNat ∧ chunks.sum = whole := by
  obtain ⟨⟨chunks, rest, nones, answers, last, handed, sum⟩, -⟩ := inv
  have positive : 0 < nones := by
    by_contra zero
    rw [answers, Nat.eq_zero_of_not_pos zero, List.replicate_zero, List.append_nil] at ended
    obtain ⟨n, -, wrong⟩ := List.mem_map.mp ended
    cases wrong
  refine ⟨chunks, ?_, ?_⟩
  · have values : ∀ a ∈ chunks.map (fun n => some (UInt64.ofNat n)), Option.isSome a = true := by
      intro a member
      obtain ⟨n, -, rfl⟩ := List.mem_map.mp member
      rfl
    have none_first : (List.replicate nones (none : Option UInt64)).takeWhile Option.isSome = [] := by
      cases nones with
      | zero => rfl
      | succ _ => rfl
    rw [yielded, answers, List.takeWhile_append_of_pos values, none_first, List.append_nil,
      List.filterMap_map]
    exact congrFun (List.filterMap_eq_map (f := UInt64.ofNat)) chunks
  · have finished := last positive
    unfold isEnd at finished
    split at finished
    · next here =>
      rw [here] at handed sum
      rcases handed with wrong | ⟨-, rfl⟩
      · cases wrong
      · simpa [queue] using sum
    · cases finished

/-! ### The end -/

/-- A chunk whose time is over before it begins. -/
def starved : Label → Bool
  | .poll => false
  | .run inTime => !inTime 0

/-- What was handed out, or is about to be. -/
def spent (s : State) : Nat := s.answers.countP Option.isSome + (held s.calculator).isSome.toNat

theorem spent_answer {s : State} {buf : List Task} {size : Option UInt64}
    (handed : held s.calculator = size) :
    spent (answer s buf size) = spent s ∧ queue (answer s buf size).calculator = buf := by
  unfold answer
  split
  · refine ⟨?_, rfl⟩
    rw [spent, spent, handed]
    simp [held]
  · split
    · refine ⟨?_, rfl⟩
      rw [spent, spent, handed]
      simp [held]
    · refine ⟨?_, rfl⟩
      rw [spent, spent, handed]
      rfl

/-- A chunk has less to do afterwards, or it was starved. -/
theorem run_fewer {whole : Nat} {s t : State} {inTime : Nat → Bool} (inv : Inv whole s)
    (move : step s (.run inTime) = some t) :
    work (queue t.calculator) + 1 ≤
      work (queue s.calculator) + (starved (.run inTime)).toNat := by
  obtain ⟨buf, here, rfl⟩ := run_cases move
  have fewer := (nextChunk_counted inTime (inv.filled buf here)).fewer
  rw [here]
  change work (nextChunk inTime buf).1 + 1 ≤ work buf + (!inTime 0).toNat
  cases early : inTime 0 <;>
    simp only [early, Bool.toNat_false, Bool.toNat_true, Bool.not_false, Bool.not_true]
      at fewer ⊢ <;>
    omega

/-- Polling leaves the queue as it is. -/
theorem poll_spent {s t : State} (move : step s .poll = some t) :
    spent t = spent s ∧ queue t.calculator = queue s.calculator := by
  obtain ⟨buf, -, rfl⟩ | ⟨buf, size, here, rfl⟩ := poll_cases move
  · exact ⟨rfl, rfl⟩
  · have handed : held s.calculator = size ∧ queue s.calculator = buf := by
      rcases here with here | here <;> rw [here] <;> exact ⟨rfl, rfl⟩
    rw [handed.2]
    exact spent_answer handed.1

theorem spent_step {whole : Nat} {s t : State} {label : Label} (inv : Inv whole s)
    (move : step s label = some t) :
    spent t + work (queue t.calculator) ≤
      spent s + work (queue s.calculator) + (starved label).toNat := by
  cases label with
  | poll =>
    rw [(poll_spent move).1, (poll_spent move).2]
    exact Nat.le_refl _
  | run inTime =>
    have fewer := run_fewer inv move
    obtain ⟨buf, here, rfl⟩ := run_cases move
    have most := Bool.toNat_le (nextChunk inTime buf).2.isSome
    have one : spent ⟨.done (nextChunk inTime buf).1 (nextChunk inTime buf).2, s.answers⟩ ≤
        spent s + 1 := by
      change _ + (nextChunk inTime buf).2.isSome.toNat ≤ _
      simp only [spent]
      omega
    omega

theorem spent_run {whole : Nat} {s t : State} {labels : List Label} (inv : Inv whole s)
    (run : Run step s labels t) :
    spent t + work (queue t.calculator) ≤
      spent s + work (queue s.calculator) + labels.countP starved := by
  induction run with
  | nil => exact Nat.le_refl _
  | cons move _ ih =>
    have first := spent_step inv move
    have rest := ih (inv_step inv move)
    rw [List.countP_cons]
    cases kind : starved _ <;> simp only [kind, Bool.toNat_false, Bool.toNat_true] at first <;>
      simp <;> omega

def isRun : Label → Bool
  | .poll => false
  | .run _ => true

/-- As many chunks are taken as there is less to do, and the starved ones. -/
theorem chunks_run {whole : Nat} {s t : State} {labels : List Label} (inv : Inv whole s)
    (run : Run step s labels t) :
    work (queue t.calculator) + labels.countP isRun ≤
      work (queue s.calculator) + labels.countP starved := by
  induction run with
  | nil => exact Nat.le_refl _
  | @cons s t u label labels move _ ih =>
    have rest := ih (inv_step inv move)
    rw [List.countP_cons, List.countP_cons]
    cases label with
    | poll =>
      rw [(poll_spent move).2] at rest
      exact rest
    | run inTime =>
      have fewer := run_fewer inv move
      cases kind : starved (.run inTime) <;>
        simp only [kind, isRun, Bool.toNat_false, Bool.toNat_true, Bool.false_eq_true, if_true,
          if_false] at fewer ⊢ <;>
        omega

/-- The caller polls while the blocking thread is not done. -/
def waits (s : State) : Label → Bool
  | .poll => match s.calculator with
    | .pending _ => true
    | .idle .. | .done .. => false
  | .run _ => false

/-- What is left to do besides the queue. -/
def phase : SizeCalculator → Nat
  | .pending _ => 0
  | .idle _ none | .done _ none => 1
  | .idle _ (some _) | .done _ (some _) => 2

/-- A chunk is taken, handed out, and followed by another: these are three steps. -/
def stepsLeft (s : State) : Nat := 3 * work (queue s.calculator) + phase s.calculator

theorem stepsLeft_step {whole : Nat} {s t : State} {label : Label} (inv : Inv whole s)
    (move : step s label = some t) (fed : starved label = false) :
    none ∈ t.answers ∨
      if waits s label then stepsLeft t ≤ stepsLeft s else stepsLeft t < stepsLeft s := by
  cases label with
  | poll =>
    obtain ⟨buf, here, rfl⟩ | ⟨buf, size, here, rfl⟩ := poll_cases move
    · right
      rw [waits, here, if_pos rfl]
    · have moves : waits s .poll = false ∧ stepsLeft s = 3 * work buf + phase (.idle buf size) := by
        rcases here with here | here <;> rw [waits, stepsLeft, here]
        · exact ⟨rfl, rfl⟩
        · cases size <;> exact ⟨rfl, rfl⟩
      rw [moves.1, if_neg Bool.false_ne_true, moves.2]
      cases size with
      | some n => exact .inr (Nat.lt_succ_self _)
      | none =>
        cases buf with
        | nil => exact .inl (List.mem_append_right _ (List.mem_singleton_self none))
        | cons task buf => exact .inr (Nat.lt_succ_self _)
  | run inTime =>
    right
    have fewer := run_fewer inv move
    obtain ⟨buf, here, rfl⟩ := run_cases move
    have most : phase (.done (nextChunk inTime buf).1 (nextChunk inTime buf).2) ≤ 2 := by
      cases (nextChunk inTime buf).2 <;> simp [phase]
    rw [fed, Bool.toNat_false] at fewer
    rw [waits, if_neg Bool.false_ne_true, stepsLeft, stepsLeft, here]
    rw [here] at fewer
    simp only [phase] at fewer most ⊢
    omega

/-- The end is reached as long as the calls go on, with chunks that get to a turn. -/
theorem ends_of_endless {whole : Nat} {states : Nat → State} {labels : Nat → Label}
    (inv : Inv whole (states 0)) (run : Endless step states labels)
    (fair : ∀ i, ∃ j, i ≤ j ∧ waits (states j) (labels j) = false)
    (fed : ∃ n, ∀ i, n ≤ i → starved (labels i) = false) : ∃ i, none ∈ (states i).answers :=
  run.reaches stepsLeft (fun _ _ _ => inv_step) (fun _ _ _ => stepsLeft_step) inv fair fed

/-- From a queue that is not empty, chunks that get to their turns lead to the end. -/
theorem ends_pending (n : Nat) {buf : List Task} (filled : buf ≠ []) (small : work buf ≤ n)
    (answers : List (Option UInt64)) :
    ∃ labels t, Run step ⟨.pending buf, answers⟩ labels t ∧ none ∈ t.answers := by
  induction n generalizing buf answers with
  | zero =>
    cases buf with
    | nil => exact absurd rfl filled
    | cons task buf =>
      rw [work_cons] at small
      omega
  | succ n ih =>
    obtain ⟨⟨b, size, -⟩, fewer⟩ := nextChunk_counted (fun _ => true) filled
    rw [Bool.toNat_true] at fewer
    have first : step ⟨.pending buf, answers⟩ (.run fun _ => true) =
        some ⟨.done (nextChunk (fun _ => true) buf).1 (some (.ofNat b)), answers⟩ := by
      rw [← size]
      rfl
    have second : ∀ rest, step ⟨.done rest (some (.ofNat b)), answers⟩ .poll =
        some ⟨.idle rest none, answers ++ [some (.ofNat b)]⟩ := fun _ => rfl
    cases left : (nextChunk (fun _ => true) buf).1 with
    | nil =>
      rw [left] at first
      refine ⟨_, _, .cons first (.cons (second []) (.cons (a := .poll) rfl (.nil _))), ?_⟩
      exact List.mem_append_right _ (List.mem_singleton_self none)
    | cons task rest =>
      rw [left] at first fewer
      obtain ⟨labels, t, run, ended⟩ :=
        ih (List.cons_ne_nil task rest) (by omega) (answers ++ [some (.ofNat b)])
      exact ⟨_, t, .cons first (.cons (second (task :: rest)) (.cons (a := .poll) rfl run)), ended⟩

theorem ends {whole : Nat} {s : State} (inv : Inv whole s) :
    ∃ labels t, Run step s labels t ∧ none ∈ t.answers := by
  obtain ⟨calculator, answers⟩ := s
  -- A poll leads from a queue without a size to the end or to the next chunk.
  have idle : ∀ buf answers, ∃ labels t,
      Run step ⟨.idle buf none, answers⟩ labels t ∧ none ∈ t.answers := by
    intro buf answers
    cases buf with
    | nil =>
      refine ⟨_, _, .cons (a := .poll) rfl (.nil _), ?_⟩
      exact List.mem_append_right _ (List.mem_singleton_self none)
    | cons task rest =>
      obtain ⟨labels, t, run, ended⟩ :=
        ends_pending _ (List.cons_ne_nil task rest) (Nat.le_refl _) answers
      exact ⟨_, t, .cons (a := .poll) rfl run, ended⟩
  cases calculator with
  | pending buf => exact ends_pending _ (inv.filled buf rfl) (Nat.le_refl _) answers
  | idle buf size =>
    cases size with
    | none => exact idle buf answers
    | some n =>
      obtain ⟨labels, t, run, ended⟩ := idle buf (answers ++ [some n])
      exact ⟨_, t, .cons (a := .poll) rfl run, ended⟩
  | done buf size =>
    cases size with
    | none =>
      cases buf with
      | nil =>
        refine ⟨_, _, .cons (a := .poll) rfl (.nil _), ?_⟩
        exact List.mem_append_right _ (List.mem_singleton_self none)
      | cons task rest =>
        obtain ⟨labels, t, run, ended⟩ :=
          ends_pending _ (List.cons_ne_nil task rest) (Nat.le_refl _) answers
        exact ⟨_, t, .cons (a := .poll) rfl run, ended⟩
    | some n =>
      obtain ⟨labels, t, run, ended⟩ := idle buf (answers ++ [some n])
      exact ⟨_, t, .cons (a := .poll) rfl run, ended⟩

theorem spent_new {inTime : Nat → Bool} {root : Dirent} {calculator : SizeCalculator}
    (made : new inTime root = some calculator) :
    spent ⟨calculator, []⟩ + work (queue calculator) ≤ root.work := by
  cases root with
  | broken | untyped | locked => cases made
  | file len =>
    cases len with
    | none => cases made
    | some len =>
      cases made
      exact Nat.le_refl 1
  | dir entries =>
    cases made
    have fewer := (nextChunk_counted inTime (List.cons_ne_nil (Task.right entries) [])).fewer
    have most := Bool.toNat_le (nextChunk inTime [.right entries]).2.isSome
    change 0 + (nextChunk inTime [.right entries]).2.isSome.toNat +
      work (nextChunk inTime [.right entries]).1 ≤ _
    rw [work_cons, work_nil] at fewer
    change _ ≤ 1 + Dirent.work.works entries + 0 at fewer
    rw [Dirent.work]
    omega

/-! ### However the chunks are cut -/

/-- The values before the first `None` add up to the lengths of all entries, as numbers of the
machine and, where these are large enough, exactly. There are no more of them than there is work,
and no more chunks, those without a turn apart; and however the calls go on, they come to an end,
unless the chunks never get to a turn or the caller waits for a thread that is never done. -/
theorem total_of_run {inTime : Nat → Bool} {root : Dirent} {calculator : SizeCalculator}
    (made : new inTime root = some calculator) {labels : List Label} {s : State}
    (run : Run step ⟨calculator, []⟩ labels s) :
    (none ∈ s.answers → total s = .ofNat root.total ∧
      (root.total < 2 ^ 64 → ((yielded s).map UInt64.toNat).sum = root.total)) ∧
    s.answers.countP Option.isSome ≤ root.work + labels.countP starved ∧
    labels.countP isRun ≤ root.work + labels.countP starved ∧
    (∃ more t, Run step s more t ∧ none ∈ t.answers) ∧
    ∀ states more, states 0 = s → Endless step states more →
      (∀ i, ∃ j, i ≤ j ∧ waits (states j) (more j) = false) →
      (∃ n, ∀ i, n ≤ i → starved (more i) = false) → ∃ i, none ∈ (states i).answers := by
  have inv := run.invariant (fun _ _ _ inv move => inv_step inv move) (inv_new made)
  refine ⟨fun ended => ?_, ?_, ?_, ends inv, fun states more first endless fair fed => ?_⟩
  · obtain ⟨chunks, values, sum⟩ := yielded_of_inv inv ended
    constructor
    · have fold : ∀ (chunks : List Nat) (n : Nat),
          (chunks.map UInt64.ofNat).foldl (· + ·) (.ofNat n) = .ofNat (n + chunks.sum) := by
        intro chunks
        induction chunks with
        | nil => exact fun n => rfl
        | cons chunk chunks ih =>
          intro n
          rw [List.map_cons, List.foldl_cons, ← UInt64.ofNat_add, ih, List.sum_cons,
            Nat.add_assoc]
      rw [total, values, ← sum]
      simpa using fold chunks 0
    · intro small
      rw [values, List.map_map]
      have each : ∀ chunk ∈ chunks, (UInt64.toNat ∘ UInt64.ofNat) chunk = chunk := by
        intro chunk member
        have below := List.le_sum_of_mem member
        rw [Function.comp_apply, UInt64.toNat_ofNat', Nat.mod_eq_of_lt (by omega)]
      rw [List.map_congr_left each, List.map_id', sum]
  · have few := spent_run (inv_new made) run
    have start := spent_new made
    simp only [spent] at few start
    omega
  · have few := chunks_run (inv_new made) run
    have start := spent_new made
    simp only [spent] at few start
    omega
  · exact ends_of_endless (first ▸ inv) endless fair fed

/-- Two directories, one of them locked, and an entry that cannot be read. -/
def sample : Dirent :=
  .dir [.dir [.file (some 5), .broken], .file (some 3), .locked, .dir [.dir [], .file (some 4)]]

/-- The first chunk has two turns, the next one none, then come three, and all that are left. -/
def cuts : List Label :=
  [.poll, .poll, .run fun _ => false, .poll, .poll, .run (· < 3), .poll, .poll, .run fun _ => true,
    .poll, .poll]

private theorem cuts_end : ((new (· < 2) sample).bind fun calculator =>
    exec step ⟨calculator, []⟩ cuts).any (fun s => none ∈ s.answers) = true := by
  decide +kernel

theorem total_of_run_sample : ∃ calculator s, new (· < 2) sample = some calculator ∧
    Run step ⟨calculator, []⟩ cuts s ∧ total s = 12 := by
  obtain ⟨s, reached, ended⟩ := (Option.any_eq_true _ _).mp cuts_end
  obtain ⟨calculator, made, moved⟩ := Option.bind_eq_some_iff.mp reached
  have run := run_of_exec moved
  refine ⟨calculator, s, made, run, ?_⟩
  rw [((total_of_run made run).1 (of_decide_eq_true ended)).1]
  rfl

end Yazi.Fs.SizeCalculator
