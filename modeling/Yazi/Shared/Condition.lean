import Mathlib.Data.List.TakeDrop
import Mathlib.Data.List.TakeWhile

/-!
Conditions of icon rules: the shunting yard that brings them into postfix form, and the stack
machine that evaluates the form.
-/
namespace Yazi.Shared

/-- Only the first three and `term` are left after `build`. -/
inductive ConditionOp where
  | or
  | and
  | not
  | space
  | leftParen
  | rightParen
  | unknown
  | term (s : List Char)
deriving DecidableEq, Repr

/-- `char::is_ascii_whitespace`: not the vertical tab. -/
def isAsciiWhitespace (c : Char) : Bool :=
  c = '\t' || c = '\n' || c = '\x0c' || c = '\r' || c = ' '

namespace ConditionOp

def new (c : Char) : ConditionOp :=
  if c = '|' then .or
  else if c = '&' then .and
  else if c = '!' then .not
  else if c = '(' then .leftParen
  else if c = ')' then .rightParen
  else if isAsciiWhitespace c then .space
  else .unknown

def prec (op : ConditionOp) : Nat :=
  match op with
  | or => 1
  | and => 2
  | not => 3
  | _ => 0

def partialCmp (a b : ConditionOp) : Option Ordering :=
  match compare a.prec b.prec with
  -- Keep repeated `!` right-associative by making `! >= !` false.
  | .eq => if a = .not ∧ b = .not then none else some .eq
  | ordering => some ordering

/-- `>=`, as `PartialOrd` derives it from `partial_cmp`. -/
def ge (a b : ConditionOp) : Bool :=
  match a.partialCmp b with
  | some .eq | some .gt => true
  | _ => false

theorem new_ne_term (c : Char) (s : List Char) : new c ≠ .term s := by
  unfold new
  repeat' split
  all_goals exact ConditionOp.noConfusion

/-- Nothing on the stack is taken from it by a `!`. -/
@[simp] theorem ge_not (op : ConditionOp) : op.ge .not = false := by
  cases op <;> rfl

end ConditionOp

structure Condition where
  ops : List ConditionOp
deriving DecidableEq, Repr

namespace Condition
open ConditionOp (new)

/-- The loop of `build`. The stack has its top first. -/
def buildLoop (chars : List Char) (stack output : List ConditionOp) : List ConditionOp :=
  match chars with
  | [] => output ++ stack
  | token :: chars =>
    match kind : new token with
    | .or | .and | .not =>
      buildLoop chars (new token :: stack.dropWhile (·.ge (new token)))
        (output ++ stack.takeWhile (·.ge (new token)))
    | .space => buildLoop chars stack output
    | .leftParen => buildLoop chars (.leftParen :: stack) output
    | .rightParen =>
      buildLoop chars (stack.dropWhile (· != .leftParen)).tail
        (output ++ stack.takeWhile (· != .leftParen))
    | .unknown =>
      buildLoop (chars.dropWhile (new · == .unknown)) stack
        (output ++ [.term (token :: chars.takeWhile (new · == .unknown))])
    | .term s => absurd kind (ConditionOp.new_ne_term token s)
termination_by chars.length
decreasing_by
  all_goals simp only [List.length_cons]
  all_goals first
    | exact Nat.lt_succ_self _
    | exact Nat.lt_succ_of_le (List.dropWhile_sublist _).length_le

def build (expr : List Char) : Condition :=
  ⟨buildLoop expr [] []⟩

/-- One round of the loop of `eval`. -/
def evalOp (f : List Char → Bool) (op : ConditionOp) (stack : List Bool) : Option (List Bool) :=
  match op, stack with
  | .or, b :: a :: stack => some ((b || a) :: stack)
  | .and, b :: a :: stack => some ((b && a) :: stack)
  | .not, b :: stack => some ((!b) :: stack)
  | .term s, stack => some (f s :: stack)
  | _, _ => none

def evalLoop (f : List Char → Bool) (ops : List ConditionOp) (stack : List Bool) :
    Option (List Bool) :=
  match ops with
  | [] => some stack
  | op :: ops => (evalOp f op stack).bind (evalLoop f ops)

def eval (cond : Condition) (f : List Char → Bool) : Option Bool :=
  match evalLoop f cond.ops [] with
  | some [b] => some b
  | _ => none

def fromStr (expr : List Char) : Except String Condition :=
  let cond := build expr
  if (cond.eval fun _ => true).isNone then
    .error ("Invalid condition: " ++ String.ofList expr)
  else
    .ok cond

end Condition
end Yazi.Shared
