import Yazi.Base.Keyed
import Yazi.Shared.Shell

/-!
A command as it is written: a name, and arguments of a position or of a name of their own.

What follows `--` is one more argument, taken as it stands.
-/
namespace Yazi.Shared
open Yazi.Base

inductive DataKey where
  | integer (i : Nat)
  | string (s : List Char)
  deriving DecidableEq, Repr

inductive Data where
  | boolean (b : Bool)
  | string (s : List Char)
  deriving DecidableEq, Repr

structure Cmd where
  name : List Char
  args : Assoc DataKey Data
  deriving DecidableEq, Repr

namespace Cmd

inductive Error where
  | split (e : Shell.SplitError)
  | emptyName
  deriving DecidableEq, Repr

def Error.message : Error → String
  | split e => e.message
  | emptyName => "command name cannot be empty"

/-- `splitn(2, '=')` of what follows the dashes. -/
def option (arg : List Char) : DataKey × Data :=
  let key := arg.takeWhile (· ≠ '=')
  match arg.dropWhile (· ≠ '=') with
  | [] => (.string key, .boolean true)
  | _ :: value => (.string key, .string value)

/-- `i` is the next position. -/
def place (s : Nat × Assoc DataKey Data) (word : List Char × Bool) : Nat × Assoc DataKey Data :=
  if Shell.dashes.isPrefixOf word.1 ∧ word.2 ∧ (word.1.drop 2).isEmpty = false then
    let (key, value) := option (word.1.drop 2)
    (s.1, s.2.insert key value)
  else (s.1 + 1, s.2.insert (.integer s.1) (.string word.1))

def parseArgs (words : List (List Char)) (last : Option (List Char)) : Assoc DataKey Data :=
  ((words.map (·, true) ++ last.toList.map (·, false)).foldl place (0, [])).2

def fromStr (s : List Char) : Except Error Cmd :=
  match Shell.split s true with
  | .error e => .error (.split e)
  | .ok (words, last) =>
    match words with
    | [] => .error .emptyName
    | name :: words =>
      if name.isEmpty then .error .emptyName else .ok ⟨name, parseArgs words last⟩

/-! ### Writing commands -/

/-- An argument, as it is meant. -/
inductive Arg where
  | positional (word : List Char)
  | flag (key : List Char)
  | named (key value : List Char)

namespace Arg

def word : Arg → List Char
  | positional w => w
  | flag key => Shell.dashes ++ key
  | named key value => Shell.dashes ++ (key ++ '=' :: value)

/-- The argument is not taken for another one. -/
def Distinct : Arg → Prop
  | positional w => ¬ Shell.dashes <+: w
  | flag key => key ≠ [] ∧ '=' ∉ key
  | named key _ => '=' ∉ key

instance : (a : Arg) → Decidable a.Distinct
  | positional w => inferInstanceAs (Decidable (¬ Shell.dashes <+: w))
  | flag key => inferInstanceAs (Decidable (key ≠ [] ∧ '=' ∉ key))
  | named key _ => inferInstanceAs (Decidable ('=' ∉ key))

def position? : Arg → Option (List Char)
  | positional w => some w
  | _ => none

def value? (key : List Char) : Arg → Option Data
  | positional _ => none
  | flag k => if k = key then some (.boolean true) else none
  | named k value => if k = key then some (.string value) else none

end Arg

/-- The words are quoted; `raw` is not. -/
def commandLine (name : List Char) (args : List Arg) (raw : Option (List Char)) : List Char :=
  Shell.line (name :: args.map Arg.word) ++
    match raw with
    | none => []
    | some raw => [' ', '-', '-', ' '] ++ raw

/-! ### Reading them back -/

theorem option_flag {key : List Char} (clean : '=' ∉ key) :
    option key = (.string key, .boolean true) := by
  have all : ∀ c ∈ key, decide (c ≠ '=') = true := by
    intro c member
    refine decide_eq_true ?_
    rintro rfl
    exact clean member
  rw [option, List.takeWhile_eq_self_iff.mpr all, List.dropWhile_eq_nil_iff.mpr all]

theorem option_named {key value : List Char} (clean : '=' ∉ key) :
    option (key ++ '=' :: value) = (.string key, .string value) := by
  have all : ∀ c ∈ key, decide (c ≠ '=') = true := by
    intro c member
    refine decide_eq_true ?_
    rintro rfl
    exact clean member
  rw [option, List.takeWhile_append_of_pos all, List.dropWhile_append_of_pos all]
  simp

theorem place_positional {n : Nat} {m : Assoc DataKey Data} {w : List Char} {normal : Bool}
    (other : ¬ Shell.dashes <+: w ∨ normal = false) :
    place (n, m) (w, normal) = (n + 1, m.insert (.integer n) (.string w)) := by
  refine if_neg ?_
  rintro ⟨lead, isNormal, -⟩
  rcases other with none | no
  · exact none (List.isPrefixOf_iff_prefix.mp lead)
  · rw [no] at isNormal
    cases isNormal

theorem place_option {n : Nat} {m : Assoc DataKey Data} {arg : List Char} (some : arg ≠ []) :
    place (n, m) (Shell.dashes ++ arg, true) =
      (n, m.insert (option arg).1 (option arg).2) := by
  refine if_pos ⟨?_, rfl, ?_⟩
  · exact List.isPrefixOf_iff_prefix.mpr (List.prefix_append ..)
  · exact List.isEmpty_eq_false_iff.mpr some

/-- What is placed from `start` on: positions are counted on, and the last value of a name stays. -/
structure Placed (args : List Arg) (start done : Nat × Assoc DataKey Data) : Prop where
  count : done.1 = start.1 + (args.filterMap Arg.position?).length
  before : ∀ i < start.1, done.2.get? (.integer i) = start.2.get? (.integer i)
  positions : ∀ j, done.2.get? (.integer (start.1 + j)) =
    ((args.filterMap Arg.position?)[j]?).map .string
  values : ∀ key, done.2.get? (.string key) =
    ((args.filterMap (Arg.value? key)).getLast?).or (start.2.get? (.string key))

theorem Placed.nil {s : Nat × Assoc DataKey Data}
    (free : ∀ i ≥ s.1, s.2.get? (.integer i) = none) : Placed [] s s where
  count := rfl
  before _ _ := rfl
  positions _ := free _ (Nat.le_add_right ..)
  values _ := (Option.none_or ..).symm

theorem positions_cons (w : List Char) (args : List Arg) :
    (Arg.positional w :: args).filterMap Arg.position? = w :: args.filterMap Arg.position? :=
  rfl

theorem Placed.positional {w : List Char} {args : List Arg} {n : Nat} {m : Assoc DataKey Data}
    {done : Nat × Assoc DataKey Data}
    (rest : Placed args (n + 1, m.insert (.integer n) (.string w)) done) :
    Placed (.positional w :: args) (n, m) done where
  count := by
    rw [rest.count, positions_cons, List.length_cons, Nat.add_assoc, Nat.add_comm 1]
  before i small := by
    rw [rest.before i (Nat.lt_succ_of_lt small), Assoc.get?_insert, if_neg]
    rw [beq_iff_eq, DataKey.integer.injEq]
    exact Nat.ne_of_lt small
  positions j := by
    cases j with
    | zero =>
      rw [positions_cons, Nat.add_zero, rest.before n (Nat.lt_succ_self n)]
      exact Assoc.get?_insert_self ..
    | succ j =>
      have next := rest.positions j
      rw [Nat.add_assoc, Nat.add_comm 1] at next
      rw [positions_cons]
      exact next
  values key := by
    rw [rest.values, Assoc.get?_insert, if_neg (by simp)]
    rfl

/-- A value of a name that is placed before the others. -/
theorem Placed.option {a : Arg} {key : List Char} {value : Data} {args : List Arg} {n : Nat}
    {m : Assoc DataKey Data} {done : Nat × Assoc DataKey Data} (none : a.position? = none)
    (here : ∀ k, a.value? k = if key = k then some value else Option.none)
    (rest : Placed args (n, m.insert (.string key) value) done) : Placed (a :: args) (n, m) done where
  count := by rw [rest.count, List.filterMap_cons_none none]
  before i small := by
    rw [rest.before i small, Assoc.get?_insert, if_neg (by simp)]
  positions j := by rw [rest.positions, List.filterMap_cons_none none]
  values k := by
    rw [rest.values, Assoc.get?_insert]
    by_cases same : key = k
    · rw [List.filterMap_cons_some ((here k).trans (if_pos same)), List.getLast?_cons,
        if_pos (by rw [same]; exact BEq.rfl)]
      cases (args.filterMap (Arg.value? k)).getLast? <;> rfl
    · rw [List.filterMap_cons_none ((here k).trans (if_neg same)), if_neg]
      rw [beq_iff_eq, DataKey.string.injEq]
      exact fun equal => same equal.symm

theorem placed {args : List Arg} (distinct : ∀ a ∈ args, a.Distinct) {n : Nat}
    {m : Assoc DataKey Data} (free : ∀ i ≥ n, m.get? (.integer i) = none) :
    Placed args (n, m) ((args.map fun a => (a.word, true)).foldl place (n, m)) := by
  induction args generalizing n m with
  | nil => exact .nil free
  | cons a args ih =>
    obtain ⟨here, others⟩ := List.forall_mem_cons.mp distinct
    rw [List.map_cons, List.foldl_cons]
    have named (key : List Char) (value : Data) :
        ∀ i ≥ n, (m.insert (.string key) value).get? (.integer i) = none := by
      intro i large
      rw [Assoc.get?_insert, if_neg (by simp)]
      exact free i large
    cases a with
    | positional w =>
      rw [Arg.word, place_positional (.inl here)]
      refine .positional (ih others fun i large => ?_)
      rw [Assoc.get?_insert, if_neg]
      · exact free i (Nat.le_of_succ_le large)
      · rw [beq_iff_eq, DataKey.integer.injEq]
        exact (Nat.ne_of_lt large).symm
    | flag key =>
      rw [Arg.word, place_option here.1, option_flag here.2]
      exact .option rfl (fun k => rfl) (ih others (named _ _))
    | named key value =>
      rw [Arg.word, place_option (List.append_ne_nil_of_right_ne_nil _ (List.cons_ne_nil _ _)),
        option_named here]
      exact .option rfl (fun k => rfl) (ih others (named _ _))

theorem split_commandLine {name : List Char} {args : List Arg} {raw : Option (List Char)}
    (clean : name ≠ Shell.dashes) (distinct : ∀ a ∈ args, a.Distinct) :
    Shell.split (commandLine name args raw) true = .ok (name :: args.map Arg.word, raw) := by
  have words : ∀ w ∈ name :: args.map Arg.word, w ≠ Shell.dashes := by
    rw [List.forall_mem_cons]
    refine ⟨clean, fun w member => ?_⟩
    obtain ⟨a, listed, rfl⟩ := List.mem_map.mp member
    have here := distinct a listed
    cases a with
    | positional w =>
      rintro rfl
      exact here (List.prefix_refl _)
    | flag key => exact fun same => here.1 (by simpa [Arg.word] using same)
    | named key value => exact fun same => by simp [Arg.word] at same
  cases raw with
  | none =>
    have stop := Shell.split_line_rest (name :: args.map Arg.word)
    rw [commandLine, List.append_nil, stop, if_neg fun member => words _ member rfl]
  | some raw =>
    have joined : commandLine name args (some raw) =
        Shell.line (name :: args.map Arg.word) ++ ' ' :: '-' :: '-' :: ' ' :: raw := rfl
    rw [joined, Shell.split, Shell.splitFrom_line_append fun w member both => words w member both.1, Shell.splitFrom_go rfl,
      Shell.splitFrom_go rfl, Shell.splitFrom_flush rfl]
    rfl

/-- A command that is written with its words quoted is read back: positions count the positional
arguments, what follows `--` is the last of them, and the last value of a name is its value. -/
theorem fromStr_commandLine {name : List Char} {args : List Arg} (raw : Option (List Char))
    (given : name ≠ []) (clean : name ≠ Shell.dashes) (distinct : ∀ a ∈ args, a.Distinct) :
    ∃ cmd, fromStr (commandLine name args raw) = .ok cmd ∧ cmd.name = name ∧
      (∀ i, cmd.args.get? (.integer i) =
        ((args.filterMap Arg.position? ++ raw.toList)[i]?).map .string) ∧
      ∀ key, cmd.args.get? (.string key) = (args.filterMap (Arg.value? key)).getLast? := by
  refine ⟨⟨name, parseArgs (args.map Arg.word) raw⟩, ?_, rfl, ?_⟩
  · rw [fromStr, split_commandLine clean distinct]
    dsimp only
    rw [if_neg (by simpa using given)]
  · have placed := placed distinct (n := 0) (m := []) fun _ _ => rfl
    rw [parseArgs, List.map_map, List.foldl_append]
    generalize ended : (args.map fun a => (a.word, true)).foldl place (0, []) = done at placed
    have same : (args.map ((fun w => (w, true)) ∘ Arg.word)).foldl place (0, []) = done := ended
    rw [same]
    obtain ⟨n, m⟩ := done
    obtain ⟨count, -, positions, values⟩ := placed
    dsimp only at count positions values
    rw [Nat.zero_add] at count
    simp only [Nat.zero_add] at positions
    cases raw with
    | none => exact ⟨fun i => by rw [Option.toList_none, List.append_nil]; exact positions i,
        fun key => (values key).trans (Option.or_none ..)⟩
    | some raw =>
      have last : List.foldl place (n, m) (Option.toList (some raw) |>.map fun w => (w, false)) =
          (n + 1, m.insert (.integer n) (.string raw)) := place_positional (.inr rfl)
      rw [last]
      refine ⟨fun i => ?_, fun key => ?_⟩
      · rw [Assoc.get?_insert, Option.toList_some]
        by_cases here : i = n
        · rw [if_pos (by rw [here]; exact BEq.rfl), here, count, List.getElem?_concat_length]
          rfl
        · rw [if_neg (by simpa using here), positions]
          rcases Nat.lt_or_gt_of_ne here with less | more
          · rw [List.getElem?_append_left (by omega)]
          · rw [List.getElem?_eq_none (by omega), List.getElem?_eq_none]
            rw [List.length_append, List.length_singleton]
            omega
      · rw [Assoc.get?_insert, if_neg (by simp)]
        exact (values key).trans (Option.or_none ..)

private def sample : List Arg :=
  [.named ['k'] ['1'], .positional ['a', ' ', 'b'], .flag ['f'], .named ['k'] ['2', '=']]

theorem fromStr_commandLine_sample :
    ∃ cmd, fromStr (commandLine ['c', 'd'] sample (some ['-', '-', ' ', '\''])) = .ok cmd ∧
      cmd.name = ['c', 'd'] ∧
      (∀ i, cmd.args.get? (.integer i) =
        ((sample.filterMap Arg.position? ++ [['-', '-', ' ', '\'']])[i]?).map .string) ∧
      ∀ key, cmd.args.get? (.string key) = (sample.filterMap (Arg.value? key)).getLast? :=
  fromStr_commandLine (some _) (List.cons_ne_nil _ _) (by decide) (by decide)

end Cmd

end Yazi.Shared
