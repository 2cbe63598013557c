import Yazi.Shared.Infix

/-!
Which strings are taken for conditions. The trial evaluation of the postfix form only counts
operands: an operator finds as many as it needs when its scope ends, wherever before that they
stand.
-/
namespace Yazi.Shared.Condition

/-! ### Operands are counted -/

/-- How many operands are there after an operation. -/
def heightOp (op : ConditionOp) (n : Nat) : Option Nat :=
  match op, n with
  | .or, n + 2 | .and, n + 2 | .not, n + 1 => some (n + 1)
  | .term _, n => some (n + 1)
  | _, _ => none

def height (ops : List ConditionOp) (n : Nat) : Option Nat :=
  match ops with
  | [] => some n
  | op :: ops => (heightOp op n).bind (height ops)

theorem height_append (ops more : List ConditionOp) (n : Nat) :
    height (ops ++ more) n = (height ops n).bind (height more) := by
  induction ops generalizing n with
  | nil => rfl
  | cons op ops ih =>
    rw [List.cons_append, height, height]
    cases heightOp op n with
    | none => rfl
    | some next => exact ih next

theorem length_evalOp (f : List Char → Bool) (op : ConditionOp) (stack : List Bool) :
    (evalOp f op stack).map List.length = heightOp op stack.length := by
  rcases stack with _ | ⟨b, _ | ⟨a, stack⟩⟩ <;> cases op <;> rfl

/-- The valuation has no part in whether an evaluation goes through. -/
theorem length_evalLoop (f : List Char → Bool) (ops : List ConditionOp) (stack : List Bool) :
    (evalLoop f ops stack).map List.length = height ops stack.length := by
  induction ops generalizing stack with
  | nil => rfl
  | cons op ops ih =>
    rw [evalLoop, height, ← length_evalOp f]
    cases evalOp f op stack with
    | none => rfl
    | some next => exact ih next

theorem eval_isSome (cond : Condition) (f : List Char → Bool) :
    (cond.eval f).isSome ↔ height cond.ops 0 = some 1 := by
  have counted := length_evalLoop f cond.ops []
  rw [List.length_nil] at counted
  rw [eval, ← counted]
  rcases evalLoop f cond.ops [] with _ | (_ | ⟨b, _ | ⟨a, stack⟩⟩) <;> simp

/-- A string is accepted when the count of its postfix form comes to one. -/
theorem accepted_iff (s : List Char) :
    (∃ cond, fromStr s = .ok cond) ↔ height (build s).ops 0 = some 1 := by
  rw [← eval_isSome _ fun _ => true, fromStr]
  cases (build s).eval fun _ => true <;> simp

theorem eq_build {s : List Char} {cond : Condition} (ok : fromStr s = .ok cond) :
    cond = build s := by
  rw [fromStr] at ok
  split at ok
  · cases ok
  · exact (Except.ok.inj ok).symm

/-! ### The grammar of accepted strings -/

inductive Part where
  | items (negated : Bool)
  | rank (rank : Rank)
deriving DecidableEq, Repr

/-- `Loose part n ts m`: the tokens read as a part where `n` operands are at hand, and leave `m`.
Of the grammar of expressions only the scopes of the operators are left: the items of a factor
are terms, groups and `!` in any number and order, a `!` wants one operand at the end of its
factor, and `&` and `|` want two at the end of the part to their right. -/
inductive Loose : Part → Nat → List Token → Nat → Prop where
  | nil {n : Nat} : Loose (.items false) n [] n
  | term {b : Bool} {n m : Nat} {ts : List Token} (s : List Char) : Loose (.items b) n ts m →
      Loose (.items b) n (ts ++ [.term s]) (m + 1)
  | not {b : Bool} {n m : Nat} {ts : List Token} : Loose (.items b) n ts m →
      Loose (.items true) n (ts ++ [.not]) m
  | group {b : Bool} {n m k : Nat} {ts us : List Token} : Loose (.items b) n ts m →
      Loose (.rank .or) m us k → Loose (.items b) n (ts ++ .left :: us ++ [.right]) k
  | items {b : Bool} {n m : Nat} {ts : List Token} : Loose (.items b) n ts m →
      (b = true → 0 < m) → Loose (.rank .not) n ts m
  | factor {n m : Nat} {ts : List Token} : Loose (.rank .not) n ts m → Loose (.rank .and) n ts m
  | and {n m k : Nat} {ts us : List Token} : Loose (.rank .and) n ts m →
      Loose (.rank .not) m us (k + 2) → Loose (.rank .and) n (ts ++ .and :: us) (k + 1)
  | summand {n m : Nat} {ts : List Token} : Loose (.rank .and) n ts m → Loose (.rank .or) n ts m
  | or {n m k : Nat} {ts us : List Token} : Loose (.rank .or) n ts m →
      Loose (.rank .and) m us (k + 2) → Loose (.rank .or) n (ts ++ .or :: us) (k + 1)

/-- Loose parts with stray closing parentheses between them. -/
inductive Strays : List Token → Nat → Prop where
  | part {n : Nat} {ts : List Token} : Loose (.rank .or) 0 ts n → Strays ts n
  | stray {n m : Nat} {ts us : List Token} : Strays ts n → Loose (.rank .or) n us m →
      Strays (ts ++ .right :: us) m

/-- Every operator finds its operands somewhere before the end of its scope, one operand is left,
and no parenthesis is left open. -/
def LooselyFormed (s : List Char) : Prop :=
  ∃ ts, Written ts s ∧ Strays ts 1

/-! ### Loose strings are accepted -/

/-- What the shunting yard does with the tokens of a loose part. -/
def Counts : Part → Nat → List Token → Nat → Prop
  | .items b, n, ts, m => ∀ stack, ∃ output k, (0 < k → b = true) ∧
      Stacks .not ts stack output (List.replicate k .not) ∧ height output n = some m
  | .rank rank, n, ts, m => ∀ stack, rank.Rests stack → ∃ output pending,
      Stacks rank ts stack output pending ∧ height (output ++ pending) n = some m

theorem Stacks.item {ts us : List Token} {stack output output' pending pending' : List ConditionOp}
    (left : Stacks .not ts stack output pending)
    (right : Stacks .not us (pending ++ stack) output' pending') :
    Stacks .not (ts ++ us) stack (output ++ output') (pending' ++ pending) := by
  constructor
  · intro op member
    exact (List.mem_append.mp member).elim (right.holds op) (left.holds op)
  · intro vs out
    rw [List.append_assoc, left.shunts, right.shunts, List.append_assoc, List.append_assoc]

theorem height_nots {k n : Nat} (there : 0 < k → 0 < n) :
    height (List.replicate k .not) n = some n := by
  induction k with
  | zero => rfl
  | succ k ih =>
    obtain ⟨m, rfl⟩ := Nat.exists_eq_succ_of_ne_zero (Nat.pos_iff_ne_zero.mp (there (by omega)))
    rw [List.replicate_succ, height, heightOp]
    exact ih fun _ => Nat.succ_pos m

theorem counts_of_loose {part : Part} {n m : Nat} {ts : List Token} (loose : Loose part n ts m) :
    Counts part n ts m := by
  induction loose with
  | nil => exact fun stack => ⟨[], 0, nofun, ⟨nofun, fun _ _ => by simp⟩, rfl⟩
  | term s _ ih =>
    intro stack
    obtain ⟨output, k, only, stacked, count⟩ := ih stack
    have pushed : Stacks .not [.term s] (List.replicate k .not ++ stack) [.term s] [] :=
      ⟨nofun, fun _ _ => rfl⟩
    refine ⟨output ++ [.term s], k, only, stacked.item pushed, ?_⟩
    rw [height_append, count]
    rfl
  | not _ ih =>
    intro stack
    obtain ⟨output, k, -, stacked, count⟩ := ih stack
    have pushed : Stacks .not [.not] (List.replicate k .not ++ stack) [] [.not] :=
      ⟨by decide, fun us out => by rw [List.append_nil]; rfl⟩
    refine ⟨output, k + 1, fun _ => rfl, ?_, count⟩
    have both := stacked.item pushed
    rwa [List.append_nil] at both
  | group _ _ ihItems ihGroup =>
    intro stack
    obtain ⟨output, k, only, stacked, count⟩ := ihItems stack
    have opened : Rank.or.Rests (.leftParen :: (List.replicate k .not ++ stack)) := by
      rintro top ⟨⟩
      rfl
    obtain ⟨output', pending, inner, more⟩ := ihGroup _ opened
    refine ⟨output ++ (output' ++ pending), k, only, ?_, ?_⟩
    · rw [List.append_assoc]
      exact stacked.item inner.group
    · rw [height_append, count]
      exact more
  | items _ there ih =>
    intro stack _
    obtain ⟨output, k, only, stacked, count⟩ := ih stack
    refine ⟨output, _, stacked, ?_⟩
    rw [height_append, count]
    exact height_nots fun some => there (only some)
  | factor _ ih =>
    intro stack _
    obtain ⟨output, pending, stacked, count⟩ := ih stack (Rank.rests_not stack)
    exact ⟨output, pending, stacked.mono (by decide), count⟩
  | and _ _ ihLeft ihRight =>
    intro stack rests
    obtain ⟨output, pending, left, first⟩ := ihLeft stack rests
    obtain ⟨output', pending', right, second⟩ := ihRight _ (Rank.rests_not (.and :: stack))
    refine ⟨_, _, left.and rests right, ?_⟩
    rw [List.append_assoc, ← List.append_assoc output' pending', height_append, first]
    rw [Option.bind_some, height_append, second]
    rfl
  | summand _ ih =>
    intro stack rests
    obtain ⟨output, pending, stacked, count⟩ := ih stack rests.and
    exact ⟨output, pending, stacked.mono (by decide), count⟩
  | or _ _ ihLeft ihRight =>
    intro stack rests
    have barred : Rank.and.Rests (.or :: stack) := by
      rintro top ⟨⟩
      rfl
    obtain ⟨output, pending, left, first⟩ := ihLeft stack rests
    obtain ⟨output', pending', right, second⟩ := ihRight _ barred
    refine ⟨_, _, left.or rests right, ?_⟩
    rw [List.append_assoc, ← List.append_assoc output' pending', height_append, first]
    rw [Option.bind_some, height_append, second]
    rfl

/-- A stray closing parenthesis takes everything from the stack. -/
theorem shunt_strays {ts : List Token} {n : Nat} (strays : Strays ts n) :
    ∃ output pending, Stacks .or ts [] output pending ∧ height (output ++ pending) 0 = some n := by
  induction strays with
  | part loose => exact counts_of_loose loose [] nofun
  | stray _ loose ih =>
    obtain ⟨output, pending, stacked, count⟩ := ih
    obtain ⟨output', pending', more, next⟩ := counts_of_loose loose [] nofun
    refine ⟨output ++ pending ++ output', pending', ⟨more.holds, ?_⟩, ?_⟩
    · intro vs out
      have all : ∀ op ∈ pending, (op != .leftParen) = true :=
        fun op member => bne_iff_ne.mpr (stacked.holds op member).ne_leftParen
      rw [List.append_assoc, stacked.shunts, List.cons_append, List.append_nil, shunt]
      rw [List.takeWhile_eq_self_iff.mpr all, List.dropWhile_eq_nil_iff.mpr all, List.tail_nil]
      rw [more.shunts]
      simp only [List.append_assoc]
    · rw [List.append_assoc, height_append, count]
      exact next

/-! ### Only loose strings are accepted -/

/-- A part that has not ended: what is still on the stack for it, and the operands at hand. -/
inductive Open : Rank → Nat → List Token → List ConditionOp → Nat → Prop where
  | items {b : Bool} {n m k : Nat} {ts : List Token} : Loose (.items b) n ts m →
      (b = true → 0 < k) → Open .not n ts (List.replicate k .not) m
  | factor {n m : Nat} {ts : List Token} {pending : List ConditionOp} :
      Open .not n ts pending m → Open .and n ts pending m
  | and {n m k : Nat} {ts us : List Token} {pending : List ConditionOp} :
      Loose (.rank .and) n ts m → Open .not m us pending k →
      Open .and n (ts ++ .and :: us) (pending ++ [.and]) k
  | summand {n m : Nat} {ts : List Token} {pending : List ConditionOp} :
      Open .and n ts pending m → Open .or n ts pending m
  | or {n m k : Nat} {ts us : List Token} {pending : List ConditionOp} :
      Loose (.rank .or) n ts m → Open .and m us pending k →
      Open .or n (ts ++ .or :: us) (pending ++ [.or]) k

theorem height_binary {op : ConditionOp} {n k : Nat} (binary : op = .and ∨ op = .or)
    (counted : height [op] n = some k) : ∃ l, n = l + 2 ∧ k = l + 1 := by
  rcases n with _ | _ | l
  · rcases binary with rfl | rfl <;> cases counted
  · rcases binary with rfl | rfl <;> cases counted
  · refine ⟨l, rfl, ?_⟩
    rcases binary with rfl | rfl <;> exact (Option.some.inj counted).symm

theorem of_height_nots {k n m : Nat} (counted : height (List.replicate k .not) n = some m) :
    m = n ∧ (0 < k → 0 < n) := by
  cases k with
  | zero => exact ⟨(Option.some.inj counted).symm, nofun⟩
  | succ k =>
    cases n with
    | zero => cases counted
    | succ n =>
      rw [height_nots fun _ => Nat.succ_pos n] at counted
      exact ⟨(Option.some.inj counted).symm, fun _ => Nat.succ_pos n⟩

namespace Open
variable {rank : Rank} {n m k : Nat} {ts us : List Token} {pending : List ConditionOp}

theorem nil (n : Nat) : Open .not n [] [] n :=
  .items (k := 0) .nil nofun

theorem holds (opened : Open rank n ts pending m) : ∀ op ∈ pending, rank.Holds op := by
  induction opened with
  | items => exact fun op member => by rw [List.eq_of_mem_replicate member]; decide
  | factor _ ih | summand _ ih => exact fun op member => (ih op member).mono (by decide)
  | and _ _ ih | or _ _ ih =>
    intro op member
    rcases List.mem_append.mp member with old | new
    · exact (ih op old).mono (by decide)
    · rw [List.mem_singleton.mp new]
      decide

/-- A part ends where its operators find their operands. -/
theorem close (opened : Open rank n ts pending m) (counted : height pending m = some k) :
    Loose (.rank rank) n ts k := by
  induction opened generalizing k with
  | items loose nots =>
    obtain ⟨rfl, there⟩ := of_height_nots counted
    exact .items loose fun negated => there (nots negated)
  | factor _ ih => exact .factor (ih counted)
  | summand _ ih => exact .summand (ih counted)
  | and left _ ih =>
    rw [height_append] at counted
    obtain ⟨next, inner, last⟩ := Option.bind_eq_some_iff.mp counted
    obtain ⟨l, rfl, rfl⟩ := height_binary (.inl rfl) last
    exact .and left (ih inner)
  | or left _ ih =>
    rw [height_append] at counted
    obtain ⟨next, inner, last⟩ := Option.bind_eq_some_iff.mp counted
    obtain ⟨l, rfl, rfl⟩ := height_binary (.inr rfl) last
    exact .or left (ih inner)

/-- What extends the items of a part extends the part that has not ended. -/
theorem extend (grow : ∀ {b n ts}, Loose (.items b) n ts m → Loose (.items b) n (ts ++ us) k)
    (opened : Open rank n ts pending m) : Open rank n (ts ++ us) pending k := by
  induction opened with
  | items loose nots => exact .items (grow loose) nots
  | factor _ ih => exact .factor (ih grow)
  | summand _ ih => exact .summand (ih grow)
  | and left _ ih =>
    rw [List.append_assoc]
    exact .and left (ih grow)
  | or left _ ih =>
    rw [List.append_assoc]
    exact .or left (ih grow)

theorem not (opened : Open rank n ts pending m) : Open rank n (ts ++ [.not]) (.not :: pending) m := by
  induction opened with
  | items loose _ => exact .items (k := _ + 1) (.not loose) fun _ => Nat.succ_pos _
  | factor _ ih => exact .factor ih
  | summand _ ih => exact .summand ih
  | and left _ ih =>
    rw [List.append_assoc]
    exact .and left ih
  | or left _ ih =>
    rw [List.append_assoc]
    exact .or left ih

/-- An `&` ends the part down to the last `|`. -/
theorem and_next (opened : Open .or n ts pending m)
    (counted : height (pending.takeWhile (·.ge .and)) m = some k) :
    Open .or n (ts ++ [.and]) (.and :: pending.dropWhile (·.ge .and)) k := by
  cases opened with
  | summand inner =>
    have rests : Rank.and.Rests [] := nofun
    obtain ⟨taken, left⟩ := pop_pending (by decide) inner.holds rests
    rw [List.append_nil] at taken left
    change pending.dropWhile (·.ge .and) = [] at left
    change pending.takeWhile (·.ge .and) = pending at taken
    rw [taken] at counted
    rw [left]
    exact .summand (.and (inner.close counted) (nil k))
  | or left inner =>
    have barred : Rank.and.Rests [.or] := by
      rintro top ⟨⟩
      rfl
    obtain ⟨taken, below⟩ := pop_pending (by decide) inner.holds barred
    change List.dropWhile (ConditionOp.ge · .and) _ = _ at below
    change List.takeWhile (ConditionOp.ge · .and) _ = _ at taken
    rw [taken] at counted
    rw [below, List.append_assoc]
    exact .or left (.and (inner.close counted) (nil k))

/-- A `|` ends the whole part. -/
theorem or_next (opened : Open .or n ts pending m) (counted : height pending m = some k) :
    Open .or n (ts ++ [.or]) [.or] k :=
  .or (opened.close counted) (.factor (nil k))

end Open

/-- Tokens that were read: the parts that have not ended, with the opening parentheses between
them, are what the stack holds. -/
inductive Reads : List Token → List ConditionOp → Nat → Prop where
  | part {m : Nat} {ts : List Token} {pending : List ConditionOp} :
      Open .or 0 ts pending m → Reads ts pending m
  | stray {m k : Nat} {ts us : List Token} {pending : List ConditionOp} :
      Strays ts m → Open .or m us pending k → Reads (ts ++ .right :: us) pending k
  | group {m k : Nat} {ts us : List Token} {stack pending : List ConditionOp} :
      Reads ts stack m → Open .or m us pending k →
      Reads (ts ++ .left :: us) (pending ++ .leftParen :: stack) k

namespace Reads
variable {ts us : List Token} {stack : List ConditionOp} {m k : Nat}

/-- The innermost part is on top of the stack, and it may be replaced by one that starts in the
same place. -/
theorem innermost (reads : Reads ts stack m) :
    ∃ before inner pending rest n, ts = before ++ inner ∧ stack = pending ++ rest ∧
      Open .or n inner pending m ∧ Rank.or.Rests rest ∧
      ∀ {us pending k}, Open .or n us pending k → Reads (before ++ us) (pending ++ rest) k := by
  cases reads with
  | part opened =>
    refine ⟨[], _, _, [], 0, rfl, (List.append_nil _).symm, opened, nofun, fun other => ?_⟩
    rw [List.append_nil]
    exact .part other
  | stray strays opened =>
    refine ⟨_ ++ [.right], _, _, [], _, (List.append_assoc _ [Token.right] _).symm,
      (List.append_nil _).symm, opened, nofun, fun other => ?_⟩
    rw [List.append_nil, List.append_assoc]
    exact .stray strays other
  | group outer opened =>
    refine ⟨_ ++ [.left], _, _, .leftParen :: _, _, (List.append_assoc _ [Token.left] _).symm, rfl,
      opened, ?_, fun other => ?_⟩
    · rintro top ⟨⟩
      rfl
    · rw [List.append_assoc]
      exact .group outer other

theorem extend (grow : ∀ {b n ts}, Loose (.items b) n ts m → Loose (.items b) n (ts ++ us) k)
    (reads : Reads ts stack m) : Reads (ts ++ us) stack k := by
  obtain ⟨before, inner, pending, rest, n, rfl, rfl, opened, -, replace⟩ := reads.innermost
  rw [List.append_assoc]
  exact replace (opened.extend grow)

theorem not (reads : Reads ts stack m) : Reads (ts ++ [.not]) (.not :: stack) m := by
  obtain ⟨before, inner, pending, rest, n, rfl, rfl, opened, -, replace⟩ := reads.innermost
  rw [List.append_assoc]
  exact replace opened.not

/-- `&` looks no further than the innermost part. -/
theorem and (reads : Reads ts stack m)
    (counted : height (stack.takeWhile (·.ge .and)) m = some k) :
    Reads (ts ++ [.and]) (.and :: stack.dropWhile (·.ge .and)) k := by
  obtain ⟨before, inner, pending, rest, n, rfl, rfl, opened, rests, replace⟩ := reads.innermost
  obtain ⟨taken, left⟩ := span_stop pending rests.and
  change List.takeWhile (ConditionOp.ge · .and) _ = _ at taken
  change List.dropWhile (ConditionOp.ge · .and) _ = _ at left
  rw [taken] at counted
  rw [left, List.append_assoc]
  exact replace (opened.and_next counted)

theorem or (reads : Reads ts stack m)
    (counted : height (stack.takeWhile (·.ge .or)) m = some k) :
    Reads (ts ++ [.or]) (.or :: stack.dropWhile (·.ge .or)) k := by
  obtain ⟨before, inner, pending, rest, n, rfl, rfl, opened, rests, replace⟩ := reads.innermost
  obtain ⟨taken, left⟩ := pop_pending (by decide) opened.holds rests
  change List.takeWhile (ConditionOp.ge · .or) _ = _ at taken
  change List.dropWhile (ConditionOp.ge · .or) _ = _ at left
  rw [taken] at counted
  rw [left, List.append_assoc]
  exact replace (opened.or_next counted)

/-- A closing parenthesis ends the innermost part, or stands where none was opened. -/
theorem close (reads : Reads ts stack m)
    (counted : height (stack.takeWhile (· != .leftParen)) m = some k) :
    Reads (ts ++ [.right]) (stack.dropWhile (· != .leftParen)).tail k := by
  have all {n : Nat} {us : List Token} {pending : List ConditionOp} {m : Nat}
      (opened : Open .or n us pending m) : ∀ op ∈ pending, (op != .leftParen) = true :=
    fun op member => bne_iff_ne.mpr (opened.holds op member).ne_leftParen
  have whole : ∀ k, Open .or k [] [] k := fun k => .summand (.factor (Open.nil k))
  cases reads with
  | part opened =>
    rw [List.takeWhile_eq_self_iff.mpr (all opened)] at counted
    rw [List.dropWhile_eq_nil_iff.mpr (all opened)]
    exact .stray (.part (opened.close counted)) (whole k)
  | stray strays opened =>
    rw [List.takeWhile_eq_self_iff.mpr (all opened)] at counted
    rw [List.dropWhile_eq_nil_iff.mpr (all opened)]
    exact .stray (.stray strays (opened.close counted)) (whole k)
  | group outer opened =>
    obtain ⟨taken, left⟩ := pop_group opened.holds
    rw [taken] at counted
    rw [left, List.append_assoc]
    apply outer.extend
    intro b n ts items
    rw [← List.append_assoc]
    exact .group items (opened.close counted)

/-- At the end of the string, with no parenthesis open. -/
theorem finish (reads : Reads ts stack m) (counted : height stack m = some k) : Strays ts k := by
  cases reads with
  | part opened => exact .part (opened.close counted)
  | stray strays opened => exact .stray strays (opened.close counted)
  | group outer opened =>
    rw [height_append] at counted
    obtain ⟨next, -, broken⟩ := Option.bind_eq_some_iff.mp counted
    cases broken

end Reads

theorem shunt_output (us : List Token) (stack output : List ConditionOp) :
    ∃ more, shunt us stack output = output ++ more := by
  induction us generalizing stack output with
  | nil => exact ⟨stack, rfl⟩
  | cons t us ih =>
    cases t with
    | not | left => exact ih _ output
    | term | right | and | or =>
      obtain ⟨more, shunts⟩ := ih _ _
      exact ⟨_, shunts.trans (List.append_assoc ..)⟩

/-- What is counted to the end is counted up to any place. -/
theorem height_of_shunt {us : List Token} {stack output : List ConditionOp} {k : Nat}
    (counted : height (shunt us stack output) 0 = some k) : ∃ m, height output 0 = some m := by
  obtain ⟨more, shunts⟩ := shunt_output us stack output
  rw [shunts, height_append] at counted
  obtain ⟨m, first, -⟩ := Option.bind_eq_some_iff.mp counted
  exact ⟨m, first⟩

/-- The output was counted so far, and what was read is open. -/
theorem strays_of_shunt {ts us : List Token} {stack output : List ConditionOp} {m k : Nat}
    (reads : Reads ts stack m) (soFar : height output 0 = some m)
    (counted : height (shunt us stack output) 0 = some k) : Strays (ts ++ us) k := by
  -- What is popped is counted from the operands at hand.
  have popped {taken : List ConditionOp} {next : Nat}
      (more : height (output ++ taken) 0 = some next) : height taken m = some next := by
    rwa [height_append, soFar] at more
  induction us generalizing ts stack output m with
  | nil =>
    rw [shunt] at counted
    rw [List.append_nil]
    exact reads.finish (popped counted)
  | cons t us ih =>
    have step {stack' output' : List ConditionOp} {m' : Nat} (next : Reads (ts ++ [t]) stack' m')
        (more : height output' 0 = some m')
        (rest : height (shunt us stack' output') 0 = some k) : Strays (ts ++ t :: us) k := by
      have whole := ih next more rest fun taken => by rwa [height_append, more] at taken
      rwa [List.append_assoc] at whole
    cases t with
    | term s =>
      refine step (reads.extend (.term s)) ?_ counted
      rw [height_append, soFar]
      rfl
    | not => exact step reads.not soFar counted
    | left =>
      have opened : Open .or m [] [] m := .summand (.factor (Open.nil m))
      exact step (.group reads opened) soFar counted
    | right =>
      rw [shunt] at counted
      obtain ⟨next, taken⟩ := height_of_shunt counted
      exact step (reads.close (popped taken)) taken counted
    | and =>
      rw [shunt] at counted
      obtain ⟨next, taken⟩ := height_of_shunt counted
      exact step (reads.and (popped taken)) taken counted
    | or =>
      rw [shunt] at counted
      obtain ⟨next, taken⟩ := height_of_shunt counted
      exact step (reads.or (popped taken)) taken counted

/-! ### Acceptance -/

theorem exists_written (s : List Char) : ∃ ts, Written ts s := by
  induction length : s.length using Nat.strong_induction_on generalizing s with
  | _ n ih =>
    cases s with
    | nil => exact ⟨[], .nil⟩
    | cons c s =>
      have shorter : s.length < n := by
        rw [← length]
        exact Nat.lt_succ_self _
      by_cases blank : isAsciiWhitespace c = true
      · obtain ⟨ts, written⟩ := ih _ shorter s rfl
        exact ⟨ts, .space blank written⟩
      by_cases sign : c ∈ ['!', '&', '|', '(', ')']
      · obtain ⟨ts, written⟩ := ih _ shorter s rfl
        have named : ∃ t : Token, t.sign = some c := by
          simp only [List.mem_cons, List.not_mem_nil, or_false] at sign
          rcases sign with rfl | rfl | rfl | rfl | rfl
          exacts [⟨.not, rfl⟩, ⟨.and, rfl⟩, ⟨.or, rfl⟩, ⟨.left, rfl⟩, ⟨.right, rfl⟩]
        obtain ⟨t, named⟩ := named
        exact ⟨t :: ts, .sign named written⟩
      · have rest := (List.dropWhile_sublist (l := s) (decide <| IsTermChar ·)).length_le
        obtain ⟨ts, written⟩ := ih _ (Nat.lt_of_le_of_lt rest shorter) _ rfl
        refine ⟨.term (c :: s.takeWhile (decide <| IsTermChar ·)) :: ts, ?_⟩
        have text := Written.term (c := c) (w := s.takeWhile (decide <| IsTermChar ·)) ?_ ?_ written
        · rwa [List.cons_append, List.takeWhile_append_dropWhile] at text
        · intro d member
          rcases List.mem_cons.mp member with rfl | member
          · exact ⟨sign, by simpa using blank⟩
          · have taken := List.mem_takeWhile_imp member
            simpa using taken
        · intro d first
          have stops := List.head?_dropWhile_not (decide <| IsTermChar ·) s
          rw [Option.mem_def.mp first] at stops
          simpa using stops

/-- A string is accepted when it is loosely formed. -/
theorem accepted_iff_loose (s : List Char) :
    (∃ cond, fromStr s = .ok cond) ↔ LooselyFormed s := by
  rw [accepted_iff]
  constructor
  · intro counted
    obtain ⟨ts, written⟩ := exists_written s
    have shunts : height (shunt ts [] []) 0 = some 1 := by
      rw [← buildLoop_eq_shunt written]
      exact counted
    have opened : Open .or 0 [] [] 0 := .summand (.factor (Open.nil 0))
    exact ⟨ts, written, strays_of_shunt (.part opened) rfl shunts⟩
  · rintro ⟨ts, written, strays⟩
    obtain ⟨output, pending, stacked, counted⟩ := shunt_strays strays
    have shunts := stacked.shunts [] []
    rw [List.append_nil, List.append_nil, List.nil_append, shunt] at shunts
    have ops : (build s).ops = output ++ pending := (buildLoop_eq_shunt written [] []).trans shunts
    rw [ops]
    exact counted

/-- An accepted condition has a value for every valuation. -/
theorem eval_of_accepted {s : List Char} {cond : Condition} (ok : fromStr s = .ok cond)
    (f : List Char → Bool) : (cond.eval f).isSome := by
  rw [eval_isSome, eq_build ok]
  exact (accepted_iff s).mp ⟨cond, ok⟩

/-- The strings for which acceptance is as it should be: all but those that are loosely formed
and not well formed. -/
theorem accepts_wellFormed_iff (s : List Char) :
    (((∃ cond, fromStr s = .ok cond) ↔ WellFormed s) ∧
      ∀ cond, fromStr s = .ok cond → ∀ f, (cond.eval f).isSome) ↔
      (LooselyFormed s → WellFormed s) := by
  constructor
  · rintro ⟨same, -⟩ loose
    exact same.mp ((accepted_iff_loose s).mpr loose)
  · intro formed
    refine ⟨⟨fun accepted => formed ((accepted_iff_loose s).mp accepted), ?_⟩,
      fun cond ok f => eval_of_accepted ok f⟩
    rintro ⟨e, ts, spelled, written⟩
    refine ⟨build s, ?_⟩
    rw [fromStr]
    simp [eval_build spelled written]

/-- The last token of an expression is a term or a closing parenthesis. -/
theorem getLast_of_spelled {rank : Rank} {e : Expr} {ts : List Token} (spelled : Spelled rank e ts) :
    ∃ us t, ts = us ++ [t] ∧ t ≠ .not := by
  induction spelled with
  | term s => exact ⟨[], .term s, rfl, nofun⟩
  | paren _ _ => exact ⟨_, .right, rfl, nofun⟩
  | not _ ih =>
    obtain ⟨us, t, rfl, other⟩ := ih
    exact ⟨.not :: us, t, rfl, other⟩
  | factor _ ih | summand _ ih => exact ih
  | and _ _ _ ih | or _ _ _ ih =>
    obtain ⟨us, t, rfl, other⟩ := ih
    exact ⟨_, t, (List.append_assoc _ (_ :: us) [t]).symm, other⟩

theorem getLast_of_written {ts : List Token} {s : List Char} (written : Written ts s)
    (last : s.getLast? = some '!') : ts.getLast? = some .not := by
  induction written with
  | nil => cases last
  | @space c ts s blank written ih =>
    cases s with
    | nil =>
      cases last
      cases blank
    | cons d s => exact ih (by rwa [List.getLast?_cons_cons] at last)
  | @sign t c ts s named written ih =>
    cases s with
    | nil =>
      cases written
      cases last
      cases t <;> cases named
      rfl
    | cons d s =>
      rw [List.getLast?_cons_cons] at last
      rw [List.getLast?_cons, ih last]
      rfl
  | @term c w s ts inside _ written ih =>
    rw [List.getLast?_append] at last
    cases rest : s.getLast? with
    | none =>
      rw [rest, Option.none_or] at last
      exact absurd (inside '!' (List.mem_of_getLast? last)) (by decide)
    | some d =>
      rw [rest, Option.some_or] at last
      rw [List.getLast?_cons, ih (rest.trans last)]
      rfl

/-- `a!` is taken for a condition. -/
theorem accepts_misplaced :
    ¬ (((∃ cond, fromStr ['a', '!'] = .ok cond) ↔ WellFormed ['a', '!']) ∧
      ∀ cond, fromStr ['a', '!'] = .ok cond → ∀ f, (cond.eval f).isSome) := by
  rintro ⟨same, -⟩
  have items : Loose (.items true) 0 [.term ['a'], .not] 1 := .not (.term ['a'] .nil)
  have loose : LooselyFormed ['a', '!'] :=
    ⟨[.term ['a'], .not], .letter (by decide) (by decide) (.sign rfl .nil),
      .part (.summand (.factor (.items items fun _ => Nat.one_pos)))⟩
  obtain ⟨e, ts, spelled, written⟩ := same.mp ((accepted_iff_loose _).mpr loose)
  obtain ⟨us, t, rfl, other⟩ := getLast_of_spelled spelled
  have last := getLast_of_written written rfl
  rw [List.getLast?_concat] at last
  exact other (Option.some.inj last)

end Yazi.Shared.Condition
