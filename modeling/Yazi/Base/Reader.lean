import Mathlib.Logic.Basic

/-!
# Readers

A reader consumes a text from a position on, and fails or returns a value. `Reads` says what
a reader makes of the text that a writer left: it stops right behind it, whatever follows.
`Tame` bounds what a reader does on any text: it consumes no more than there is, and fails
for no other reason than the text. `Orderly` says that a reader takes what it consumes off
the front, and counts it. They speak of results through `Yields`.
-/
namespace Yazi.Base

variable {β ε α γ : Type}

/-- An error of the first kind, or a value of the second. -/
def Yields (x : Except ε α) (fails : ε → Prop) (post : α → Prop) : Prop :=
  match x with
  | .error e => fails e
  | .ok a => post a

namespace Yields

variable {x : Except ε α} {f : α → Except ε γ} {fails : ε → Prop} {post : α → Prop}
  {post' : γ → Prop}

theorem bind (first : Yields x fails post) (next : ∀ a, post a → Yields (f a) fails post') :
    Yields (x >>= f) fails post' := by
  cases x with
  | error e => exact first
  | ok a => exact next a first

theorem weaken (yields : Yields x fails post) {fails' : ε → Prop} {post' : α → Prop}
    (less : ∀ e, fails e → fails' e) (each : ∀ a, post a → post' a) : Yields x fails' post' := by
  cases x with
  | error e => exact less e yields
  | ok a => exact each a yields

theorem of_ok {a : α} (yields : Yields x fails post) (result : x = .ok a) : post a := by
  subst result
  exact yields

theorem of_error {e : ε} (yields : Yields x fails post) (result : x = .error e) : fails e := by
  subst result
  exact yields

end Yields

/-- A position in a text, with what follows it. -/
structure Cursor (β : Type) where
  pos : Nat
  rest : List β

/-- The second position is reached by consuming a first part of what follows the first. -/
def Cursor.Before (c c' : Cursor β) : Prop :=
  ∃ read, c.rest = read ++ c'.rest ∧ c'.pos = c.pos + read.length

namespace Cursor.Before

variable {c c' c'' : Cursor β}

theorem refl (c : Cursor β) : c.Before c := ⟨[], rfl, rfl⟩

theorem trans (first : c.Before c') (second : c'.Before c'') : c.Before c'' := by
  obtain ⟨read, rest, pos⟩ := first
  obtain ⟨more, rest', pos'⟩ := second
  refine ⟨read ++ more, ?_, ?_⟩
  · rw [rest, rest', List.append_assoc]
  · rw [pos', pos, List.length_append, Nat.add_assoc]

theorem length_le (before : c.Before c') : c'.rest.length ≤ c.rest.length := by
  obtain ⟨read, rest, -⟩ := before
  rw [rest, List.length_append]
  exact Nat.le_add_left ..

/-- A text that is consumed whole was counted whole. -/
theorem pos_of_rest_nil (before : c.Before c') (whole : c'.rest = []) :
    c'.pos = c.pos + c.rest.length := by
  obtain ⟨read, rest, pos⟩ := before
  rw [pos, rest, whole, List.append_nil]

end Cursor.Before

abbrev Reader (β ε α : Type) := StateT (Cursor β) (Except ε) α

namespace Reader

/-- Where positions stay below `limit`, the reader consumes the text and returns a value with
`post`, or it fails, which only a text with `fails` makes it do. -/
def Reads (limit : Nat) (p : Reader β ε α) (t : List β) (fails : Prop) (post : α → Prop) : Prop :=
  ∀ pos rest, pos + t.length + rest.length < limit →
    Yields (p ⟨pos, t ++ rest⟩) (fun _ => fails) fun (a, c) =>
      c = ⟨pos + t.length, rest⟩ ∧ post a

/-- Over any text of at most `n` symbols, the reader leaves at most `m`, and does not fail
with `bad`. -/
def Tame (bad : ε) (n m : Nat) (p : Reader β ε α) (post : α → Prop) : Prop :=
  ∀ c : Cursor β, c.rest.length ≤ n →
    Yields (p c) (· ≠ bad) fun (a, c') => c'.rest.length ≤ m ∧ post a

/-- What a writer left is read as the value, whatever follows. -/
def Returns (p : Reader β ε α) (t : List β) (a : α) : Prop :=
  ∀ limit, Reads limit p t False (· = a)

/-- On any text, the reader consumes a first part of it, and does not fail with `bad`. -/
def Orderly (bad : ε) (p : Reader β ε α) : Prop :=
  ∀ c : Cursor β, Yields (p c) (· ≠ bad) fun (_, c') => c.Before c'

/-- Performs a reader a number of times. -/
def times (p : Reader β ε α) : Nat → Reader β ε (List α)
  | 0 => pure []
  | n + 1 => do
    let a ← p
    let as ← times p n
    pure (a :: as)

theorem bind_ok {p : Reader β ε α} {f : α → Reader β ε γ} {c : Cursor β} {result : γ × Cursor β}
    (ok : (p >>= f) c = .ok result) : ∃ a c', p c = .ok (a, c') ∧ f a c' = .ok result := by
  change Except.bind (p c) _ = _ at ok
  cases first : p c with
  | error e =>
    rw [first] at ok
    cases ok
  | ok value =>
    rw [first] at ok
    exact ⟨value.1, value.2, rfl, ok⟩

/-- Performs a reader until the text ends. The reader consumes something, so it does end. -/
def untilEnd (p : Reader β ε α)
    (shrinks : ∀ c a c', p c = .ok (a, c') → c'.rest.length < c.rest.length) (c : Cursor β) :
    Except ε (List α × Cursor β) :=
  match c.rest with
  | [] => .ok ([], c)
  | _ :: _ =>
    match _result : p c with
    | .error e => .error e
    | .ok (a, c') =>
      match untilEnd p shrinks c' with
      | .error e => .error e
      | .ok (as, c'') => .ok (a :: as, c'')
termination_by c.rest.length
decreasing_by exact shrinks c a c' _result

section Reads

variable {limit : Nat} {p : Reader β ε α} {f : α → Reader β ε γ} {t t' : List β}
  {fails : Prop} {post : α → Prop} {post' : γ → Prop}

theorem Reads.pure {a : α} (holds : post a) :
    Reads limit (Pure.pure a : Reader β ε α) [] fails post :=
  fun _ _ _ => ⟨rfl, holds⟩

theorem Reads.lift {x : Except ε α} (yields : Yields x (fun _ => fails) post) :
    Reads limit (StateT.lift x : Reader β ε α) [] fails post := by
  intro pos rest _
  cases x with
  | error e => exact yields
  | ok a => exact ⟨rfl, yields⟩

theorem Reads.weaken (reads : Reads limit p t fails post) {fails' : Prop} (less : fails → fails')
    {post' : α → Prop} (each : ∀ a, post a → post' a) : Reads limit p t fails' post' :=
  fun pos rest room => (reads pos rest room).weaken (fun _ => less)
    fun _ result => ⟨result.1, each _ result.2⟩

/-- A text that is read lies below the limit. -/
theorem Reads.of_room (reads : t.length < limit → Reads limit p t fails post) :
    Reads limit p t fails post :=
  fun pos rest room => reads (by omega) pos rest room

/-- Behind what was read, the rest of the text is read. -/
theorem Reads.bind (first : Reads limit p t fails post)
    (next : ∀ a, post a → Reads limit (f a) t' fails post') :
    Reads limit (p >>= f) (t ++ t') fails post' := by
  intro pos rest room
  rw [List.length_append] at room
  have left := first pos (t' ++ rest) (by rw [List.length_append]; omega)
  rw [List.append_assoc, List.length_append, ← Nat.add_assoc]
  refine Yields.bind left ?_
  rintro ⟨a, c⟩ ⟨rfl, holds⟩
  exact next a holds (pos + t.length) rest (by omega)

/-- What follows consumes nothing. -/
theorem Reads.finish (first : Reads limit p t fails post)
    (next : ∀ a, post a → Reads limit (f a) [] fails post') :
    Reads limit (p >>= f) t fails post' := by
  have whole := first.bind next
  rwa [List.append_nil] at whole

end Reads

namespace Returns

variable {p : Reader β ε α} {f : α → Reader β ε γ} {t t' : List β} {a : α} {b : γ}

theorem pure (a : α) : Returns (Pure.pure a : Reader β ε α) [] a := fun _ => Reads.pure rfl

theorem bind (first : Returns p t a) (next : Returns (f a) t' b) :
    Returns (p >>= f) (t ++ t') b := by
  intro limit
  apply (first limit).bind
  rintro _ rfl
  exact next limit

theorem finish (first : Returns p t a) (next : Returns (f a) [] b) : Returns (p >>= f) t b := by
  have whole := first.bind next
  rwa [List.append_nil] at whole

theorem map (first : Returns p t a) (g : α → γ) : Returns (g <$> p) t (g a) := by
  rw [map_eq_pure_bind]
  exact first.finish (pure (g a))

theorem times {items : List γ} {write : γ → List β} {value : γ → α}
    (each : ∀ item ∈ items, Returns p (write item) (value item)) :
    Returns (p.times items.length) (items.flatMap write) (items.map value) := by
  induction items with
  | nil => exact pure []
  | cons item items ih =>
    have rest := ih fun item member => each item (List.mem_cons_of_mem _ member)
    exact (each item (List.mem_cons_self ..)).bind (rest.finish (pure _))

theorem result (returns : Returns p t a) (pos : Nat) (rest : List β) :
    p ⟨pos, t ++ rest⟩ = .ok (a, ⟨pos + t.length, rest⟩) := by
  have reads := returns _ pos rest (Nat.lt_succ_self _)
  revert reads
  cases p ⟨pos, t ++ rest⟩ with
  | error e => exact False.elim
  | ok value =>
    obtain ⟨value, c⟩ := value
    rintro ⟨rfl, rfl⟩
    rfl

theorem of_result (result : ∀ pos rest, p ⟨pos, t ++ rest⟩ = .ok (a, ⟨pos + t.length, rest⟩)) :
    Returns p t a := by
  intro limit pos rest _
  rw [result]
  exact ⟨rfl, rfl⟩

end Returns

section Tame

variable {bad : ε} {n m k : Nat} {p : Reader β ε α} {f : α → Reader β ε γ}
  {post : α → Prop} {post' : γ → Prop}

theorem Tame.pure {a : α} (holds : post a) : Tame bad n n (Pure.pure a : Reader β ε α) post :=
  fun _ room => ⟨room, holds⟩

theorem Tame.lift {x : Except ε α} (yields : Yields x (· ≠ bad) post) :
    Tame bad n n (StateT.lift x : Reader β ε α) post := by
  intro c room
  cases x with
  | error e => exact yields
  | ok a => exact ⟨room, yields⟩

theorem Tame.bind (first : Tame bad n m p post)
    (next : ∀ a, post a → Tame bad m k (f a) post') : Tame bad n k (p >>= f) post' :=
  fun c room => (first c room).bind fun value result => next value.1 result.2 value.2 result.1

theorem Tame.weaken (tame : Tame bad n m p post) {post' : α → Prop}
    (less : ∀ a, post a → post' a) {n' m' : Nat} (before : n' ≤ n) (after : m ≤ m') :
    Tame bad n' m' p post' :=
  fun c room => (tame c (Nat.le_trans room before)).weaken (fun _ other => other)
    fun _ result => ⟨Nat.le_trans result.1 after, less _ result.2⟩

theorem Tame.ite {c : Prop} [Decidable c] {q : Reader β ε α} (yes : Tame bad n m p post)
    (no : Tame bad n m q post) : Tame bad n m (if c then p else q) post := by
  split
  · exact yes
  · exact no

theorem Tame.times (each : Tame bad n n p fun _ => True) (count : Nat) :
    Tame bad n n (p.times count) fun _ => True := by
  induction count with
  | zero => exact Tame.pure trivial
  | succ count ih => exact each.bind fun _ _ => ih.bind fun _ _ => Tame.pure trivial

end Tame

section Orderly

variable {bad : ε} {p : Reader β ε α} {f : α → Reader β ε γ}

theorem Orderly.pure (a : α) : Orderly bad (Pure.pure a : Reader β ε α) := Cursor.Before.refl

theorem Orderly.bind (first : Orderly bad p) (next : ∀ a, Orderly bad (f a)) :
    Orderly bad (p >>= f) :=
  fun c => (first c).bind fun value before =>
    (next value.1 value.2).weaken (fun _ other => other) fun _ => before.trans

theorem Orderly.times (each : Orderly bad p) (count : Nat) : Orderly bad (p.times count) := by
  induction count with
  | zero => exact Orderly.pure _
  | succ count ih => exact each.bind fun _ => ih.bind fun _ => Orderly.pure _

theorem Orderly.untilEnd (each : Orderly bad p)
    (shrinks : ∀ c a c', p c = .ok (a, c') → c'.rest.length < c.rest.length) :
    Orderly bad (p.untilEnd shrinks) := by
  intro c
  fun_induction Reader.untilEnd p shrinks c with
  | case1 => exact Cursor.Before.refl _
  | case2 c _ _ _ e result => exact (each c).of_error result
  | case3 _ _ _ _ _ _ _ e failed ih =>
    rw [failed] at ih
    exact ih
  | case4 c _ _ _ a c' result as c'' done ih =>
    rw [done] at ih
    exact ((each c).of_ok result).trans ih

end Orderly

end Reader

end Yazi.Base
