import Mathlib.Control.Functor

/-!
Texts that encode every symbol on its own, and decoders that work from the left.
-/
namespace Yazi.Base

/-- A decoder that undoes one symbol in front of any text undoes a text of them. -/
theorem decode_flatMap {α β γ : Type} {m : Type → Type} [Functor m] [LawfulFunctor m]
    {encode : α → List β} {decode : List β → m (List γ)} {value : α → γ}
    (each : ∀ a rest, decode (encode a ++ rest) = (value a :: ·) <$> decode rest)
    (l : List α) (rest : List β) :
    decode (l.flatMap encode ++ rest) = (l.map value ++ ·) <$> decode rest := by
  induction l with
  | nil => exact (id_map _).symm
  | cons a l ih =>
    rw [List.flatMap_cons, List.append_assoc, each, ih, ← comp_map]
    rfl

/-- A symbol that no symbol's code contains is not in a text. -/
theorem not_mem_flatMap {α β : Type} {encode : α → List β} {b : β}
    (clean : ∀ a, b ∉ encode a) (l : List α) : b ∉ l.flatMap encode := by
  intro member
  obtain ⟨a, -, inside⟩ := List.mem_flatMap.mp member
  exact clean a inside

end Yazi.Base
