import Yazi.Shared.Path

/-!
Natural comparison of names, and the order behind it: names are compared token by token,
where a run of digits is one token and whitespace is none.
-/
namespace Yazi.Shared.Natsort

def isDigit (b : UInt8) : Bool := 0x30 ≤ b ∧ b ≤ 0x39

/-- `is_ascii_whitespace`. -/
def isSpace (b : UInt8) : Bool := b = 0x20 ∨ b = 0x09 ∨ b = 0x0a ∨ b = 0x0c ∨ b = 0x0d

def lower (b : UInt8) : UInt8 := if 0x41 ≤ b ∧ b ≤ 0x5a then b + 0x20 else b

def startsDigit (s : Bytes) : Bool := s.head?.any isDigit

/-! ### The comparison -/

/-- `compare_left`, with what it leaves of both sides. -/
def compareLeft : Bytes → Bytes → Ordering × Bytes × Bytes
  | l :: ls, r :: rs =>
    match isDigit l, isDigit r with
    | true, true =>
      match compare l r with
      | .eq => compareLeft ls rs
      | ord => (ord, l :: ls, r :: rs)
    | true, false => (.gt, l :: ls, r :: rs)
    | false, true => (.lt, l :: ls, r :: rs)
    | false, false => (.eq, l :: ls, r :: rs)
  | ls, rs =>
    (if startsDigit ls then .gt else if startsDigit rs then .lt else .eq, ls, rs)

/-- `compare_right`: the longer run is greater, else the first difference decides. -/
def compareRight : Bytes → Bytes → Ordering → Ordering × Bytes × Bytes
  | l :: ls, r :: rs, bias =>
    match isDigit l, isDigit r with
    | true, true => compareRight ls rs (if bias = .eq then compare l r else bias)
    | true, false => (.gt, l :: ls, r :: rs)
    | false, true => (.lt, l :: ls, r :: rs)
    | false, false => (bias, l :: ls, r :: rs)
  | ls, rs, bias =>
    (if startsDigit ls then .gt else if startsDigit rs then .lt else bias, ls, rs)

/-- The loop of `natsort`; every round consumes a byte of both sides. It goes on while the
two sides are equal. -/
def natsortFuel (insensitive : Bool) : Nat → Bytes → Bytes → Ordering
  | 0, _, _ => .eq
  | fuel + 1, left, right =>
    match left.dropWhile isSpace, right.dropWhile isSpace with
    | l :: ls, r :: rs =>
      if isDigit l ∧ isDigit r then
        let (ord, left, right) :=
          if l = 0x30 ∨ r = 0x30 then compareLeft (l :: ls) (r :: rs)
          else compareRight (l :: ls) (r :: rs) .eq
        ord.then (natsortFuel insensitive fuel left right)
      else
        (if insensitive then compare (lower l) (lower r) else compare l r).then
          (natsortFuel insensitive fuel ls rs)
    | _ :: _, [] => .gt
    | [], _ :: _ => .lt
    | [], [] => .eq

def natsort (left right : Bytes) (insensitive : Bool) : Ordering :=
  natsortFuel insensitive (left.length + 1) left right

/-! ### Tokens -/

inductive Token where
  | char (b : UInt8)
  | run (digits : Bytes)
  deriving DecidableEq, Repr

def tokens : Bytes → List Token
  | [] => []
  | b :: bs =>
    if isSpace b then tokens bs
    else if isDigit b then
      match startsDigit bs, tokens bs with
      | true, .run ds :: rest => .run (b :: ds) :: rest
      | _, rest => .run [b] :: rest
    else .char b :: tokens bs

namespace Token

/-- All runs stand where the digits stand among the bytes. -/
def place (insensitive : Bool) : Token → UInt8
  | .char b => if insensitive then lower b else b
  | .run _ => 0x30

/-- The length of a run without a leading zero; the others are fractions, and stand first. -/
def weight : Token → Nat
  | .char _ => 0
  | .run ds => if ds.head? = some 0x30 then 0 else ds.length

def digits : Token → Bytes
  | .char _ => []
  | .run ds => ds

def cmp (insensitive : Bool) : Token → Token → Ordering :=
  compareLex (compareOn (place insensitive)) (compareLex (compareOn weight) (compareOn digits))

instance (insensitive : Bool) : Std.TransCmp (cmp insensitive) :=
  inferInstanceAs (Std.TransCmp (compareLex _ _))

end Token

/-! ### The comparison by tokens -/

theorem tokens_space {b : UInt8} (space : isSpace b = true) (bs : Bytes) :
    tokens (b :: bs) = tokens bs := by
  simp [tokens, space]

theorem tokens_dropWhile (s : Bytes) : tokens (s.dropWhile isSpace) = tokens s := by
  induction s with
  | nil => rfl
  | cons b bs ih =>
    cases space : isSpace b with
    | true => rw [List.dropWhile_cons_of_pos space, ih, tokens_space space]
    | false => rw [List.dropWhile_cons_of_neg (by simp [space])]

theorem not_space_of_digit {b : UInt8} (digit : isDigit b = true) : isSpace b = false := by
  simp only [isDigit, isSpace, decide_eq_true_eq, decide_eq_false_iff_not, UInt8.le_iff_toNat_le,
    ← UInt8.toNat_inj] at digit ⊢
  simp only [UInt8.reduceToNat] at digit ⊢
  omega

theorem tokens_char {b : UInt8} (space : isSpace b = false) (digit : isDigit b = false)
    (bs : Bytes) : tokens (b :: bs) = .char b :: tokens bs := by
  simp [tokens, space, digit]

theorem tokens_run {b : UInt8} {bs : Bytes} (digit : isDigit b = true) :
    tokens (b :: bs) =
      .run ((b :: bs).takeWhile isDigit) :: tokens ((b :: bs).dropWhile isDigit) := by
  induction bs generalizing b with
  | nil => simp [tokens, not_space_of_digit digit, digit, startsDigit]
  | cons c cs ih =>
    rw [List.takeWhile_cons_of_pos digit, List.dropWhile_cons_of_pos digit]
    cases next : isDigit c with
    | true =>
      rw [tokens, if_neg (by simp [not_space_of_digit digit]), if_pos digit, ih next]
      simp [startsDigit, next]
    | false =>
      rw [tokens, if_neg (by simp [not_space_of_digit digit]), if_pos digit]
      simp [startsDigit, next]

/-- Runs of digits, compared from the left. -/
theorem compareLeft_eq (l r : Bytes) :
    (compareLeft l r).1 = compare (l.takeWhile isDigit) (r.takeWhile isDigit) ∧
      ((compareLeft l r).1 = .eq →
        (compareLeft l r).2 = (l.dropWhile isDigit, r.dropWhile isDigit)) := by
  induction l generalizing r with
  | nil =>
    cases r with
    | nil => exact ⟨rfl, fun _ => rfl⟩
    | cons b r => cases digit : isDigit b <;> simp [compareLeft, startsDigit, digit]
  | cons a l ih =>
    cases r with
    | nil => cases digit : isDigit a <;> simp [compareLeft, startsDigit, digit]
    | cons b r =>
      cases left : isDigit a <;> cases right : isDigit b
      · simp [compareLeft, left, right]
      · simp [compareLeft, left, right]
      · simp [compareLeft, left, right]
      · -- The first digits decide, unless they agree.
        simp only [compareLeft, left, right, List.takeWhile_cons_of_pos, List.dropWhile_cons_of_pos,
          List.compare_cons_cons]
        cases head : compare a b with
        | eq => exact ih r
        | lt => simp
        | gt => simp

private theorem compare_succ (m n : Nat) : compare (m + 1) (n + 1) = compare m n := by
  simp [Nat.compare_eq_ite_lt]

private theorem compare_zero_succ (n : Nat) : compare 0 (n + 1) = .lt := by
  simp [Nat.compare_eq_ite_lt]

private theorem compare_succ_zero (n : Nat) : compare (n + 1) 0 = .gt := by
  simp [Nat.compare_eq_ite_lt]

/-- Runs of digits, compared from the right. -/
theorem compareRight_eq (l r : Bytes) (bias : Ordering) :
    (compareRight l r bias).1 =
        (compare (l.takeWhile isDigit).length (r.takeWhile isDigit).length).then
          (bias.then (compare (l.takeWhile isDigit) (r.takeWhile isDigit))) ∧
      ((compareRight l r bias).1 = .eq →
        (compareRight l r bias).2 = (l.dropWhile isDigit, r.dropWhile isDigit)) := by
  induction l generalizing r bias with
  | nil =>
    cases r with
    | nil => simp [compareRight, startsDigit]
    | cons b r =>
      cases digit : isDigit b
      · simp [compareRight, startsDigit, digit]
      · simp [compareRight, startsDigit, digit, compare_zero_succ]
  | cons a l ih =>
    cases r with
    | nil =>
      cases digit : isDigit a
      · simp [compareRight, startsDigit, digit]
      · simp [compareRight, startsDigit, digit, compare_succ_zero]
    | cons b r =>
      cases left : isDigit a <;> cases right : isDigit b
      · simp [compareRight, left, right]
      · simp [compareRight, left, right, compare_zero_succ]
      · simp [compareRight, left, right, compare_succ_zero]
      · simp only [compareRight, left, right, List.takeWhile_cons_of_pos,
          List.dropWhile_cons_of_pos, List.compare_cons_cons, List.length_cons]
        obtain ⟨order, rest⟩ := ih r (if bias = .eq then compare a b else bias)
        refine ⟨?_, rest⟩
        rw [order, compare_succ]
        cases bias <;> simp

private theorem compare_place {a b : UInt8} (digit : isDigit a = true) (other : isDigit b = false) :
    compare a b = compare 0x30 b ∧ compare a b ≠ .eq ∧ compare b a = compare b 0x30 ∧
      compare b a ≠ .eq := by
  simp only [isDigit, decide_eq_true_eq, decide_eq_false_iff_not, UInt8.le_iff_toNat_le,
    UInt8.reduceToNat] at digit other
  simp only [UInt8.compare_eq_toNat_compare_toNat, Nat.compare_eq_ite_lt, UInt8.reduceToNat]
  grind

private theorem lower_digit {b : UInt8} (digit : isDigit b = true) : lower b = b := by
  simp only [isDigit, decide_eq_true_eq, UInt8.le_iff_toNat_le, UInt8.reduceToNat] at digit
  have small : ¬(0x41 ≤ b ∧ b ≤ 0x5a) := by
    simp only [UInt8.le_iff_toNat_le, UInt8.reduceToNat]
    omega
  rw [lower, if_neg small]

private theorem lower_other {b : UInt8} (other : isDigit b = false) : isDigit (lower b) = false := by
  simp only [lower]
  split
  · next upper =>
    simp only [UInt8.le_iff_toNat_le, UInt8.reduceToNat] at upper
    simp only [isDigit, decide_eq_false_iff_not, UInt8.le_iff_toNat_le, UInt8.reduceToNat,
      UInt8.toNat_add]
    omega
  · exact other

private theorem zero_lt_digit {b : UInt8} (digit : isDigit b = true) (nonzero : b ≠ 0x30) :
    compare 0x30 b = .lt ∧ compare b 0x30 = .gt := by
  simp only [isDigit, decide_eq_true_eq, UInt8.le_iff_toNat_le, UInt8.reduceToNat, ne_eq,
    ← UInt8.toNat_inj] at digit nonzero
  simp only [UInt8.compare_eq_toNat_compare_toNat, Nat.compare_eq_ite_lt, UInt8.reduceToNat]
  grind

/-- Two runs: a leading zero on either side makes them fractions. -/
private theorem compare_run {insensitive : Bool} {a b : UInt8} {ds es : Bytes}
    (left : isDigit a = true) (right : isDigit b = true) :
    Token.cmp insensitive (.run (a :: ds)) (.run (b :: es)) =
      if a = 0x30 ∨ b = 0x30 then compare (a :: ds) (b :: es)
      else (compare (a :: ds).length (b :: es).length).then (compare (a :: ds) (b :: es)) := by
  have same : compare (0x30 : UInt8) 0x30 = .eq := by decide
  simp only [Token.cmp, compareLex, compareOn, Token.place, Token.weight, Token.digits,
    List.head?_cons, Option.some.injEq, same, Ordering.eq_then]
  by_cases zero : a = 0x30 <;> by_cases zero' : b = 0x30
  · simp [zero, zero']
  · have less := (zero_lt_digit right zero').1
    simp [zero, zero', compare_zero_succ, List.compare_cons_cons, less]
  · have more := (zero_lt_digit left zero).2
    simp [zero, zero', compare_succ_zero, List.compare_cons_cons, more]
  · simp [zero, zero']

private theorem then_of_ne {o p : Ordering} (differ : o ≠ .eq) : o.then p = o := by
  cases o <;> first | rfl | exact absurd rfl differ

private theorem compare_char {insensitive : Bool} (a b : UInt8) :
    Token.cmp insensitive (.char a) (.char b) =
      if insensitive then compare (lower a) (lower b) else compare a b := by
  have weight : compare 0 0 = .eq := rfl
  have digits : compare ([] : Bytes) [] = .eq := rfl
  simp only [Token.cmp, compareLex, compareOn, Token.place, Token.weight, Token.digits, weight,
    digits, Ordering.then_eq]
  split <;> rfl

/-- A run and a character differ in place. -/
private theorem compare_mixed {insensitive : Bool} {a b : UInt8} {ds : Bytes}
    (digit : isDigit a = true) (other : isDigit b = false) :
    (Token.cmp insensitive (.run ds) (.char b) =
        if insensitive then compare (lower a) (lower b) else compare a b) ∧
      (Token.cmp insensitive (.char b) (.run ds) =
        if insensitive then compare (lower b) (lower a) else compare b a) ∧
      Token.cmp insensitive (.run ds) (.char b) ≠ .eq ∧
      Token.cmp insensitive (.char b) (.run ds) ≠ .eq := by
  simp only [Token.cmp, compareLex, compareOn, Token.place, lower_digit digit]
  cases insensitive with
  | false =>
    obtain ⟨less, differ, more, differ'⟩ := compare_place digit other
    simp only [Bool.false_eq_true, if_false, ← less, ← more, then_of_ne differ,
      then_of_ne differ']
    exact ⟨trivial, trivial, differ, differ'⟩
  | true =>
    obtain ⟨less, differ, more, differ'⟩ := compare_place digit (lower_other other)
    simp only [if_true, ← less, ← more, then_of_ne differ, then_of_ne differ']
    exact ⟨trivial, trivial, differ, differ'⟩

private theorem head_dropWhile {s t : Bytes} {c : UInt8} (shape : s.dropWhile isSpace = c :: t) :
    isSpace c = false := by
  have first := List.head?_dropWhile_not isSpace s
  rw [shape] at first
  simpa using first

theorem natsortFuel_eq (insensitive : Bool) {fuel : Nat} {l r : Bytes} (enough : l.length < fuel) :
    natsortFuel insensitive fuel l r =
      (tokens l).compareLex (Token.cmp insensitive) (tokens r) := by
  induction fuel generalizing l r with
  | zero => omega
  | succ fuel ih =>
    rw [← tokens_dropWhile l, ← tokens_dropWhile r, natsortFuel]
    have shorter : (l.dropWhile isSpace).length ≤ l.length :=
      (List.dropWhile_suffix isSpace).length_le
    cases left : l.dropWhile isSpace with
    | nil =>
      cases right : r.dropWhile isSpace with
      | nil => rfl
      | cons b rs =>
        cases digit : isDigit b
        · rw [tokens_char (head_dropWhile right) digit]
          rfl
        · rw [tokens_run digit]
          rfl
    | cons a ls =>
      rw [left, List.length_cons] at shorter
      cases right : r.dropWhile isSpace with
      | nil =>
        cases digit : isDigit a
        · rw [tokens_char (head_dropWhile left) digit]
          rfl
        · rw [tokens_run digit]
          rfl
      | cons b rs =>
        have rest := @ih ls rs (by omega)
        cases leftDigit : isDigit a <;> cases rightDigit : isDigit b
        · rw [tokens_char (head_dropWhile left) leftDigit,
            tokens_char (head_dropWhile right) rightDigit, List.compareLex_cons_cons, compare_char,
            ← rest]
          simp [leftDigit]
        · rw [tokens_char (head_dropWhile left) leftDigit, tokens_run rightDigit,
            List.compareLex_cons_cons]
          obtain ⟨-, order, -, differ⟩ :=
            @compare_mixed insensitive b a ((b :: rs).takeWhile isDigit) rightDigit leftDigit
          rw [then_of_ne differ]
          rw [order] at differ ⊢
          simp [leftDigit, then_of_ne differ]
        · rw [tokens_run leftDigit, tokens_char (head_dropWhile right) rightDigit,
            List.compareLex_cons_cons]
          obtain ⟨order, -, differ, -⟩ :=
            @compare_mixed insensitive a b ((a :: ls).takeWhile isDigit) leftDigit rightDigit
          rw [then_of_ne differ]
          rw [order] at differ ⊢
          simp [rightDigit, then_of_ne differ]
        · -- Both sides start a run, which the round consumes when the runs are equal.
          rw [tokens_run leftDigit, tokens_run rightDigit, List.compareLex_cons_cons,
            List.takeWhile_cons_of_pos leftDigit, List.takeWhile_cons_of_pos rightDigit,
            compare_run leftDigit rightDigit, List.dropWhile_cons_of_pos leftDigit,
            List.dropWhile_cons_of_pos rightDigit]
          have consumed : (ls.dropWhile isDigit).length ≤ ls.length :=
            (List.dropWhile_suffix isDigit).length_le
          have after := @ih (ls.dropWhile isDigit) (rs.dropWhile isDigit) (by omega)
          simp only [leftDigit, rightDigit, and_self, if_true]
          obtain ⟨order, ends⟩ := compareLeft_eq (a :: ls) (b :: rs)
          obtain ⟨order', ends'⟩ := compareRight_eq (a :: ls) (b :: rs) .eq
          simp only [List.takeWhile_cons_of_pos leftDigit, List.takeWhile_cons_of_pos rightDigit,
            List.dropWhile_cons_of_pos leftDigit, List.dropWhile_cons_of_pos rightDigit,
            Ordering.eq_then] at order ends order' ends'
          split
          · rw [order]
            cases h : compare (a :: ls.takeWhile isDigit) (b :: rs.takeWhile isDigit) with
            | eq => simp only [ends (order.trans h), after]
            | lt => rfl
            | gt => rfl
          · rw [order']
            cases h : (compare (a :: ls.takeWhile isDigit).length (b :: rs.takeWhile isDigit).length).then
                (compare (a :: ls.takeWhile isDigit) (b :: rs.takeWhile isDigit)) with
            | eq => simp only [ends' (order'.trans h), after]
            | lt => rfl
            | gt => rfl

/-- Natural comparison is the lexicographic comparison of the tokens. -/
theorem natsort_eq (l r : Bytes) (insensitive : Bool) :
    natsort l r insensitive = (tokens l).compareLex (Token.cmp insensitive) (tokens r) :=
  natsortFuel_eq insensitive (Nat.lt_succ_self _)

instance (insensitive : Bool) : Std.TransCmp (natsort · · insensitive) := by
  have same : (natsort · · insensitive) =
      fun l r => (tokens l).compareLex (Token.cmp insensitive) (tokens r) := by
    funext l r
    exact natsort_eq l r insensitive
  rw [same]
  exact {
    eq_swap {_ _} := @Std.OrientedCmp.eq_swap _ (List.compareLex (Token.cmp insensitive)) _ _ _
    isLE_trans {_ _ _} :=
      @Std.TransCmp.isLE_trans _ (List.compareLex (Token.cmp insensitive)) _ _ _ _ }

/-! ### Names that are equal -/

/-- The token without the case of its letter, where case does not count. -/
def Token.fold (insensitive : Bool) : Token → Token
  | .char b => .char (if insensitive then lower b else b)
  | .run ds => .run ds

/-- What `tokens` makes: no digit outside a run, and no empty run. -/
def Token.Proper : Token → Prop
  | .char b => isDigit b = false
  | .run ds => ds ≠ []

theorem proper_tokens (s : Bytes) : ∀ t ∈ tokens s, t.Proper := by
  induction s with
  | nil => exact nofun
  | cons b bs ih =>
    rw [tokens]
    split
    · exact ih
    split
    · split
      · next rest =>
        intro t member
        rcases List.mem_cons.mp member with rfl | member
        · exact List.cons_ne_nil _ _
        · exact ih t (by rw [rest]; exact List.mem_cons_of_mem _ member)
      · intro t member
        rcases List.mem_cons.mp member with rfl | member
        · exact List.cons_ne_nil _ _
        · exact ih t member
    · next other =>
      intro t member
      rcases List.mem_cons.mp member with rfl | member
      · exact (Bool.not_eq_true _).mp other
      · exact ih t member

/-- Proper tokens are equal for the comparison when they are equal but for the case. -/
theorem Token.cmp_eq_iff {insensitive : Bool} {t u : Token} (left : t.Proper) (right : u.Proper) :
    cmp insensitive t u = .eq ↔ t.fold insensitive = u.fold insensitive := by
  have apart {b : UInt8} {ds : Bytes} (other : isDigit b = false) :
      cmp insensitive (.run ds) (.char b) ≠ .eq ∧ cmp insensitive (.char b) (.run ds) ≠ .eq := by
    have digit : isDigit 0x30 = true := rfl
    exact (compare_mixed digit other).2.2
  cases t with
  | char a =>
    cases u with
    | char b =>
      rw [compare_char, fold, fold, Token.char.injEq]
      split <;> simp [*]
    | run es => exact iff_of_false (apart left).2 nofun
  | run ds =>
    cases u with
    | char b => exact iff_of_false (apart right).1 nofun
    | run es =>
      simp only [cmp, compareLex, compareOn, place, weight, digits, Ordering.then_eq_eq,
        Std.compare_self, true_and, Std.LawfulEqCmp.compare_eq_iff_eq, fold, Token.run.injEq]
      constructor
      · exact fun same => same.2
      · rintro rfl
        exact ⟨rfl, rfl⟩

private theorem compareLex_eq_iff {α : Type} {cmp : α → α → Ordering} {f : α → α} {ts us : List α}
    (same : ∀ t ∈ ts, ∀ u ∈ us, cmp t u = .eq ↔ f t = f u) :
    ts.compareLex cmp us = .eq ↔ ts.map f = us.map f := by
  induction ts generalizing us with
  | nil => cases us <;> simp [List.compareLex_nil_cons, List.compareLex_nil_nil]
  | cons t ts ih =>
    cases us with
    | nil => simp [List.compareLex_cons_nil]
    | cons u us =>
      have rest := @ih us fun t member u other =>
        same t (List.mem_cons_of_mem _ member) u (List.mem_cons_of_mem _ other)
      rw [List.compareLex_cons_cons, Ordering.then_eq_eq, rest,
        same t List.mem_cons_self u List.mem_cons_self, List.map_cons, List.map_cons, List.cons.injEq]

/-- Names are equal when they have the same tokens. -/
theorem natsort_eq_iff (l r : Bytes) (insensitive : Bool) :
    natsort l r insensitive = .eq ↔
      (tokens l).map (Token.fold insensitive) = (tokens r).map (Token.fold insensitive) := by
  rw [natsort_eq]
  apply compareLex_eq_iff
  intro t member u other
  exact Token.cmp_eq_iff (proper_tokens l t member) (proper_tokens r u other)

/-- Natural comparison is a total preorder, in which names are equal that have the same tokens. -/
theorem natsort_preorder (insensitive : Bool) (a b c : Bytes) :
    natsort a b insensitive = (natsort b a insensitive).swap ∧
      ((natsort a b insensitive).isLE → (natsort b c insensitive).isLE →
        (natsort a c insensitive).isLE) ∧
      (natsort a b insensitive = .lt → (natsort b c insensitive).isLE →
        natsort a c insensitive = .lt) ∧
      ((natsort a b insensitive).isLE → natsort b c insensitive = .lt →
        natsort a c insensitive = .lt) ∧
      (natsort a b insensitive = .eq → natsort b c insensitive = .eq →
        natsort a c insensitive = .eq) ∧
      (natsort a b insensitive = .eq ↔
        (tokens a).map (Token.fold insensitive) = (tokens b).map (Token.fold insensitive)) := by
  have trans : Std.TransCmp (natsort · · insensitive) := inferInstance
  refine ⟨trans.eq_swap, trans.isLE_trans, ?_, ?_, ?_, natsort_eq_iff a b insensitive⟩
  · exact fun less le => @Std.TransCmp.lt_of_lt_of_isLE _ _ trans _ _ _ less le
  · exact fun le less => @Std.TransCmp.lt_of_isLE_of_lt _ _ trans _ _ _ le less
  · rw [natsort_eq_iff, natsort_eq_iff, natsort_eq_iff]
    exact Eq.trans

example : natsort "pic02000".toUTF8.data.toList "pic05".toUTF8.data.toList true = .lt := by decide

end Yazi.Shared.Natsort
