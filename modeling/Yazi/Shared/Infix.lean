import Yazi.Shared.Condition

/-!
Infix expressions over terms, `!`, `&`, `|` and parentheses, how they are written, and what the
shunting yard makes of them.
-/
namespace Yazi.Shared.Condition
open ConditionOp (new)

/-! ### Expressions and their writing -/

inductive Expr where
  | term (s : List Char)
  | not (e : Expr)
  | and (a b : Expr)
  | or (a b : Expr)
deriving DecidableEq, Repr

def Expr.value (f : List Char → Bool) : Expr → Bool
  | term s => f s
  | not e => !e.value f
  | and a b => a.value f && b.value f
  | or a b => a.value f || b.value f

inductive Token where
  | term (s : List Char)
  | not
  | and
  | or
  | left
  | right
deriving DecidableEq, Repr

/-- The three levels of the grammar, the loosest first. -/
inductive Rank where
  | or
  | and
  | not
deriving DecidableEq, Repr

/-- The tokens of an expression at a level: `!` binds over `&`, and `&` over `|`. -/
inductive Spelled : Rank → Expr → List Token → Prop where
  | term (s : List Char) : Spelled .not (.term s) [.term s]
  | paren {e : Expr} {ts : List Token} : Spelled .or e ts →
      Spelled .not e (.left :: ts ++ [.right])
  | not {e : Expr} {ts : List Token} : Spelled .not e ts → Spelled .not (.not e) (.not :: ts)
  | factor {e : Expr} {ts : List Token} : Spelled .not e ts → Spelled .and e ts
  | and {a b : Expr} {ts us : List Token} : Spelled .and a ts → Spelled .not b us →
      Spelled .and (.and a b) (ts ++ .and :: us)
  | summand {e : Expr} {ts : List Token} : Spelled .and e ts → Spelled .or e ts
  | or {a b : Expr} {ts us : List Token} : Spelled .or a ts → Spelled .and b us →
      Spelled .or (.or a b) (ts ++ .or :: us)

/-- The character of a token that is not a term. -/
def Token.sign : Token → Option Char
  | term _ => none
  | not => some '!'
  | and => some '&'
  | or => some '|'
  | left => some '('
  | right => some ')'

/-- A term consists of whatever is neither a sign nor blank. -/
def IsTermChar (c : Char) : Prop :=
  c ∉ ['!', '&', '|', '(', ')'] ∧ isAsciiWhitespace c = false

instance (c : Char) : Decidable (IsTermChar c) :=
  inferInstanceAs (Decidable (_ ∧ _))

/-- The texts of a sequence of tokens: blanks stand anywhere but inside a term, and a term ends
where no character of a term follows. -/
inductive Written : List Token → List Char → Prop where
  | nil : Written [] []
  | space {c : Char} {ts : List Token} {s : List Char} : isAsciiWhitespace c = true →
      Written ts s → Written ts (c :: s)
  | sign {t : Token} {c : Char} {ts : List Token} {s : List Char} : t.sign = some c →
      Written ts s → Written (t :: ts) (c :: s)
  | term {c : Char} {w s : List Char} {ts : List Token} : (∀ d ∈ c :: w, IsTermChar d) →
      (∀ d ∈ s.head?, ¬ IsTermChar d) → Written ts s → Written (.term (c :: w) :: ts) (c :: w ++ s)

/-- A term of one character. -/
theorem Written.letter {c : Char} {s : List Char} {ts : List Token} (inside : IsTermChar c)
    (ends : s.head?.all (!IsTermChar ·) = true) (rest : Written ts s) :
    Written (.term [c] :: ts) (c :: s) := by
  refine .term (w := []) (List.forall_mem_singleton.mpr inside) ?_ rest
  intro d first
  rw [Option.mem_def.mp first] at ends
  simpa using ends

/-- The string is a text of an expression. -/
def WellFormed (s : List Char) : Prop :=
  ∃ e ts, Spelled .or e ts ∧ Written ts s

/-! ### The shunting yard on tokens -/

def Token.op : Token → ConditionOp
  | term s => .term s
  | not => .not
  | and => .and
  | or => .or
  | left => .leftParen
  | right => .rightParen

/-- `buildLoop` with the tokens already read. -/
def shunt (ts : List Token) (stack output : List ConditionOp) : List ConditionOp :=
  match ts with
  | [] => output ++ stack
  | .term s :: ts => shunt ts stack (output ++ [.term s])
  | .left :: ts => shunt ts (.leftParen :: stack) output
  | .right :: ts =>
    shunt ts (stack.dropWhile (· != .leftParen)).tail
      (output ++ stack.takeWhile (· != .leftParen))
  | .not :: ts => shunt ts (.not :: stack) output
  | .and :: ts =>
    shunt ts (.and :: stack.dropWhile (·.ge .and)) (output ++ stack.takeWhile (·.ge .and))
  | .or :: ts =>
    shunt ts (.or :: stack.dropWhile (·.ge .or)) (output ++ stack.takeWhile (·.ge .or))

theorem new_eq_space {c : Char} (blank : isAsciiWhitespace c = true) : new c = .space := by
  simp only [isAsciiWhitespace, Bool.or_eq_true, decide_eq_true_eq] at blank
  rcases blank with (((rfl | rfl) | rfl) | rfl) | rfl <;> decide

theorem new_eq_unknown_iff {c : Char} : new c = .unknown ↔ IsTermChar c := by
  unfold new IsTermChar
  constructor
  · intro unknown
    repeat' split at unknown
    all_goals simp_all
  · rintro ⟨plain, filled⟩
    simp only [List.mem_cons, List.not_mem_nil, or_false, not_or] at plain
    obtain ⟨bang, amp, bar, opens, closes⟩ := plain
    rw [if_neg bar, if_neg amp, if_neg bang, if_neg opens, if_neg closes, filled]
    rfl

theorem dropWhile_not (stack : List ConditionOp) : stack.dropWhile (·.ge .not) = stack := by
  cases stack with
  | nil => rfl
  | cons top stack => rw [List.dropWhile_cons_of_neg (by simp)]

theorem takeWhile_not (stack : List ConditionOp) : stack.takeWhile (·.ge .not) = [] := by
  cases stack with
  | nil => rfl
  | cons top stack => rw [List.takeWhile_cons_of_neg (by simp)]

section Spans
variable {α : Type} {p : α → Bool} {xs rest : List α}

/-- A span does not reach past what does not belong to it. -/
theorem span_stop (xs : List α) (stops : ∀ x ∈ rest.head?, p x = false) :
    (xs ++ rest).takeWhile p = xs.takeWhile p ∧ (xs ++ rest).dropWhile p = xs.dropWhile p ++ rest := by
  induction xs with
  | nil =>
    cases rest with
    | nil => exact ⟨rfl, rfl⟩
    | cons x rest =>
      have first : ¬ p x = true := by simp [stops x rfl]
      rw [List.nil_append, List.takeWhile_cons, List.dropWhile_cons, if_neg first, if_neg first]
      exact ⟨rfl, rfl⟩
  | cons x xs ih =>
    rw [List.cons_append, List.takeWhile_cons, List.dropWhile_cons, List.takeWhile_cons,
      List.dropWhile_cons, ih.1, ih.2]
    split <;> exact ⟨rfl, rfl⟩

theorem span_all (all : ∀ x ∈ xs, p x = true) (stops : ∀ x ∈ rest.head?, p x = false) :
    (xs ++ rest).takeWhile p = xs ∧ (xs ++ rest).dropWhile p = rest := by
  obtain ⟨taken, left⟩ := span_stop xs stops
  rw [List.takeWhile_eq_self_iff.mpr all] at taken
  rw [List.dropWhile_eq_nil_iff.mpr all] at left
  exact ⟨taken, left⟩

end Spans

/-- A term and what follows it are cut where the code cuts them. -/
theorem span_term {w s : List Char} (inside : ∀ d ∈ w, IsTermChar d)
    (ends : ∀ d ∈ s.head?, ¬ IsTermChar d) :
    (w ++ s).takeWhile (new · == .unknown) = w ∧ (w ++ s).dropWhile (new · == .unknown) = s := by
  apply span_all
  · intro d member
    exact beq_iff_eq.mpr (new_eq_unknown_iff.mpr (inside d member))
  · intro d first
    rw [beq_eq_false_iff_ne]
    exact fun unknown => ends d first (new_eq_unknown_iff.mp unknown)

/-- What the loop does with a character, by the kind of the character. -/
theorem buildLoop_cons (token : Char) (chars : List Char) (stack output : List ConditionOp) :
    buildLoop (token :: chars) stack output =
      match new token with
      | .or | .and | .not =>
        buildLoop chars (new token :: stack.dropWhile (·.ge (new token)))
          (output ++ stack.takeWhile (·.ge (new token)))
      | .leftParen => buildLoop chars (.leftParen :: stack) output
      | .rightParen =>
        buildLoop chars (stack.dropWhile (· != .leftParen)).tail
          (output ++ stack.takeWhile (· != .leftParen))
      | .unknown =>
        buildLoop (chars.dropWhile (new · == .unknown)) stack
          (output ++ [.term (token :: chars.takeWhile (new · == .unknown))])
      | _ => buildLoop chars stack output := by
  rw [buildLoop.eq_def]
  dsimp only
  split
  all_goals first
    | next kind => rw [kind]
    | next s kind => exact absurd kind (ConditionOp.new_ne_term token s)

/-- Reading a string character by character is shunting its tokens. -/
theorem buildLoop_eq_shunt {ts : List Token} {s : List Char} (written : Written ts s)
    (stack output : List ConditionOp) : buildLoop s stack output = shunt ts stack output := by
  induction written generalizing stack output with
  | nil => rw [buildLoop, shunt]
  | space blank _ ih =>
    rw [buildLoop_cons, new_eq_space blank]
    exact ih stack output
  | @sign t c ts s named _ ih =>
    rw [buildLoop_cons]
    cases t with
    | term w => cases named
    | not =>
      cases named
      rw [shunt, ← ih]
      change buildLoop s (.not :: stack.dropWhile (·.ge .not))
        (output ++ stack.takeWhile (·.ge .not)) = _
      rw [dropWhile_not, takeWhile_not, List.append_nil]
    | _ =>
      cases named
      rw [shunt, ← ih]
      rfl
  | term inside ends _ ih =>
    have first := new_eq_unknown_iff.mpr (inside _ List.mem_cons_self)
    obtain ⟨taken, left⟩ := span_term (fun d member => inside d (List.mem_cons_of_mem _ member)) ends
    rw [List.cons_append, buildLoop_cons, first, shunt, ← ih]
    dsimp only
    rw [taken, left]

/-! ### Operators at a level -/

/-- The operator of a level. -/
def Rank.op : Rank → ConditionOp
  | or => .or
  | and => .and
  | not => .not

/-- What an expression of a level leaves on the stack: operators of the level or above it. -/
def Rank.Holds (rank : Rank) (op : ConditionOp) : Prop :=
  rank.op.prec ≤ op.prec

instance (rank : Rank) (op : ConditionOp) : Decidable (rank.Holds op) :=
  inferInstanceAs (Decidable (_ ≤ _))

/-- What stands below an expression of a level: its operator takes nothing from there. -/
def Rank.Rests (rank : Rank) (stack : List ConditionOp) : Prop :=
  ∀ top ∈ stack.head?, top.ge rank.op = false

theorem Rank.Holds.ge {op : ConditionOp} : ∀ {rank : Rank}, rank.Holds op → rank ≠ .not →
    op.ge rank.op = true
  | .or, holds, _ | .and, holds, _ => by
    cases op with
    | or | and | not => first | rfl | exact absurd holds (by decide)
    | _ => exact absurd holds (by simp [Rank.Holds, Rank.op, ConditionOp.prec])
  | .not, _, other => absurd rfl other

theorem Rank.Holds.ne_leftParen {rank : Rank} {op : ConditionOp} (holds : rank.Holds op) :
    op ≠ .leftParen := by
  rintro rfl
  cases rank <;> exact absurd holds (by decide)

theorem Rank.Holds.mono {a b : Rank} {op : ConditionOp} (holds : a.Holds op)
    (le : b.op.prec ≤ a.op.prec) : b.Holds op :=
  Nat.le_trans le holds

theorem Rank.rests_not (stack : List ConditionOp) : Rank.not.Rests stack :=
  fun top _ => ConditionOp.ge_not top

/-- Where nothing is taken for `|`, nothing is taken for `&` and, in front of a term, for `|`. -/
theorem Rank.Rests.and {stack : List ConditionOp} (rests : Rank.or.Rests stack) :
    Rank.and.Rests stack := by
  intro top first
  have below := rests top first
  cases top <;> first | rfl | cases below

/-- Popping takes the operators of the level and leaves what stands below. -/
theorem pop_pending {rank : Rank} {pending stack : List ConditionOp} (binary : rank ≠ .not)
    (holds : ∀ op ∈ pending, rank.Holds op) (rests : rank.Rests stack) :
    (pending ++ stack).takeWhile (·.ge rank.op) = pending ∧
      (pending ++ stack).dropWhile (·.ge rank.op) = stack :=
  span_all (fun op member => (holds op member).ge binary) rests

/-- A closing parenthesis takes the operators down to the opening one. -/
theorem pop_group {rank : Rank} {pending stack : List ConditionOp}
    (holds : ∀ op ∈ pending, rank.Holds op) :
    (pending ++ .leftParen :: stack).takeWhile (· != .leftParen) = pending ∧
      (pending ++ .leftParen :: stack).dropWhile (· != .leftParen) = .leftParen :: stack := by
  apply span_all
  · exact fun op member => bne_iff_ne.mpr (holds op member).ne_leftParen
  · rintro top ⟨⟩
    rfl

/-! ### The value of the postfix form -/

variable {f : List Char → Bool}

theorem evalLoop_append (ops more : List ConditionOp) (stack : List Bool) :
    evalLoop f (ops ++ more) stack = (evalLoop f ops stack).bind (evalLoop f more) := by
  induction ops generalizing stack with
  | nil => rfl
  | cons op ops ih =>
    rw [List.cons_append, evalLoop, evalLoop]
    cases evalOp f op stack with
    | none => rfl
    | some next => exact ih next

/-- What the shunting yard does with tokens of a level: `output` goes to the output, and `pending`
is left on the stack, for whatever follows. -/
structure Stacks (rank : Rank) (ts : List Token) (stack output pending : List ConditionOp) :
    Prop where
  holds : ∀ op ∈ pending, rank.Holds op
  shunts : ∀ us out, shunt (ts ++ us) stack out = shunt us (pending ++ stack) (out ++ output)

namespace Stacks
variable {ts us : List Token} {stack output output' pending pending' : List ConditionOp}

theorem mono {a b : Rank} (inner : Stacks a ts stack output pending) (le : b.op.prec ≤ a.op.prec) :
    Stacks b ts stack output pending :=
  ⟨fun op member => (inner.holds op member).mono le, inner.shunts⟩

/-- A group leaves nothing on the stack. -/
theorem group (inner : Stacks .or ts (.leftParen :: stack) output pending) :
    Stacks .not (.left :: ts ++ [.right]) stack (output ++ pending) [] := by
  refine ⟨nofun, ?_⟩
  intro us out
  obtain ⟨taken, left⟩ := @pop_group _ _ stack inner.holds
  rw [List.cons_append, List.cons_append, List.append_assoc, shunt, inner.shunts]
  rw [List.singleton_append, shunt, taken, left, List.append_assoc]
  rfl

theorem and (rests : Rank.and.Rests stack) (left : Stacks .and ts stack output pending)
    (right : Stacks .not us (.and :: stack) output' pending') :
    Stacks .and (ts ++ .and :: us) stack (output ++ pending ++ output') (pending' ++ [.and]) := by
  constructor
  · intro op member
    rcases List.mem_append.mp member with old | new
    · exact (right.holds op old).mono (by decide)
    · rw [List.mem_singleton.mp new]
      decide
  · intro vs out
    obtain ⟨taken, below⟩ := pop_pending (by decide) left.holds rests
    rw [List.append_assoc, left.shunts, List.cons_append, shunt]
    change shunt (us ++ vs) (.and :: List.dropWhile (·.ge Rank.and.op) _)
      (out ++ output ++ List.takeWhile (·.ge Rank.and.op) _) = _
    rw [taken, below, right.shunts]
    simp only [List.append_assoc, List.cons_append, List.nil_append]

theorem or (rests : Rank.or.Rests stack) (left : Stacks .or ts stack output pending)
    (right : Stacks .and us (.or :: stack) output' pending') :
    Stacks .or (ts ++ .or :: us) stack (output ++ pending ++ output') (pending' ++ [.or]) := by
  constructor
  · intro op member
    rcases List.mem_append.mp member with old | new
    · exact (right.holds op old).mono (by decide)
    · rw [List.mem_singleton.mp new]
      decide
  · intro vs out
    obtain ⟨taken, below⟩ := pop_pending (by decide) left.holds rests
    rw [List.append_assoc, left.shunts, List.cons_append, shunt]
    change shunt (us ++ vs) (.or :: List.dropWhile (·.ge Rank.or.op) _)
      (out ++ output ++ List.takeWhile (·.ge Rank.or.op) _) = _
    rw [taken, below, right.shunts]
    simp only [List.append_assoc, List.cons_append, List.nil_append]

end Stacks

/-- The tokens of an expression come out as a postfix form that pushes its value. -/
theorem stacks_of_spelled {rank : Rank} {e : Expr} {ts : List Token} (spelled : Spelled rank e ts)
    {stack : List ConditionOp} (rests : rank.Rests stack) :
    ∃ output pending, Stacks rank ts stack output pending ∧
      ∀ f values, evalLoop f (output ++ pending) values = some (e.value f :: values) := by
  induction spelled generalizing stack with
  | term s => exact ⟨[.term s], [], ⟨nofun, fun _ _ => rfl⟩, fun _ _ => rfl⟩
  | paren _ ih =>
    have opened : Rank.or.Rests (.leftParen :: stack) := by
      rintro top ⟨⟩
      rfl
    obtain ⟨output, pending, inner, value⟩ := ih opened
    exact ⟨output ++ pending, [], inner.group, by simpa using value⟩
  | @not e ts _ ih =>
    obtain ⟨output, pending, inner, value⟩ := ih (Rank.rests_not (.not :: stack))
    refine ⟨output, pending ++ [.not], ⟨?_, ?_⟩, ?_⟩
    · intro op member
      rcases List.mem_append.mp member with old | new
      · exact inner.holds op old
      · rw [List.mem_singleton.mp new]
        decide
    · intro us out
      rw [List.cons_append, shunt, inner.shunts, List.append_assoc]
      rfl
    · intro f values
      rw [← List.append_assoc, evalLoop_append, value]
      rfl
  | factor _ ih =>
    obtain ⟨output, pending, inner, value⟩ := ih (Rank.rests_not stack)
    exact ⟨output, pending, inner.mono (by decide), value⟩
  | and _ _ ihLeft ihRight =>
    obtain ⟨output, pending, left, valueLeft⟩ := ihLeft rests
    obtain ⟨output', pending', right, valueRight⟩ := ihRight (Rank.rests_not (.and :: stack))
    refine ⟨_, _, left.and rests right, ?_⟩
    intro f values
    rw [List.append_assoc, ← List.append_assoc output' pending', evalLoop_append, valueLeft]
    rw [Option.bind_some, evalLoop_append, valueRight]
    simp [evalLoop, evalOp, Expr.value, Bool.and_comm]
  | summand _ ih =>
    obtain ⟨output, pending, inner, value⟩ := ih rests.and
    exact ⟨output, pending, inner.mono (by decide), value⟩
  | or _ _ ihLeft ihRight =>
    have barred : Rank.and.Rests (.or :: stack) := by
      rintro top ⟨⟩
      rfl
    obtain ⟨output, pending, left, valueLeft⟩ := ihLeft rests
    obtain ⟨output', pending', right, valueRight⟩ := ihRight barred
    refine ⟨_, _, left.or rests right, ?_⟩
    intro f values
    rw [List.append_assoc, ← List.append_assoc output' pending', evalLoop_append, valueLeft]
    rw [Option.bind_some, evalLoop_append, valueRight]
    simp [evalLoop, evalOp, Expr.value, Bool.or_comm]

/-- What is built from a text of an expression evaluates to its value. -/
theorem eval_build {e : Expr} {ts : List Token} {s : List Char} (spelled : Spelled .or e ts)
    (written : Written ts s) (f : List Char → Bool) : (build s).eval f = some (e.value f) := by
  have rests : Rank.or.Rests [] := nofun
  obtain ⟨output, pending, stacked, value⟩ := stacks_of_spelled spelled rests
  have ops : (build s).ops = output ++ pending := by
    have shunts := stacked.shunts [] []
    rw [List.append_nil, List.append_nil, List.nil_append, shunt] at shunts
    exact (buildLoop_eq_shunt written [] []).trans shunts
  rw [eval, ops, value]

/-- A condition is built from a text of an expression, and evaluates to the value of the
expression. -/
theorem eval_of_written {e : Expr} {ts : List Token} {s : List Char} (spelled : Spelled .or e ts)
    (written : Written ts s) :
    ∃ cond, fromStr s = .ok cond ∧ ∀ f, cond.eval f = some (e.value f) := by
  have evals := eval_build spelled written
  refine ⟨build s, ?_, evals⟩
  rw [fromStr]
  simp [evals]

/-- Blanks before, after and between the tokens of `!a|(b&c)`. -/
theorem eval_of_written_sample :
    ∃ cond, fromStr ['!', ' ', 'a', '|', '\t', '(', 'b', ' ', '&', 'c', ')'] = .ok cond ∧
      ∀ f, cond.eval f = some (!f ['a'] || f ['b'] && f ['c']) :=
  have spelled : Spelled .or (.or (.not (.term ['a'])) (.and (.term ['b']) (.term ['c'])))
      [.not, .term ['a'], .or, .left, .term ['b'], .and, .term ['c'], .right] :=
    .or (.summand (.factor (.not (.term _))))
      (.factor (.paren (.summand (.and (.factor (.term _)) (.term _)))))
  eval_of_written spelled
    (.sign rfl (.space rfl (.letter (by decide) (by decide)
      (.sign rfl (.space rfl (.sign rfl (.letter (by decide) (by decide)
        (.space rfl (.sign rfl (.letter (by decide) (by decide) (.sign rfl .nil)))))))))))

end Yazi.Shared.Condition
