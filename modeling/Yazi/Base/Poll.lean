/-!
# Polled results

What a call has that may have to be made again. A call that makes others goes on with their
results as soon as they are ready.
-/
namespace Yazi.Base

inductive Poll (α : Type) where
  | pending
  | ready (a : α)
  deriving DecidableEq

namespace Poll

variable {State α β ε : Type}

/-- The state that an inner call leaves, and what is done there with its result. A call that is
not finished, or has failed, ends the outer one. -/
def andThen (polled : State × Poll (Except ε α)) (next : State → α → State × Poll (Except ε β)) :
    State × Poll (Except ε β) :=
  match polled with
  | (s, .pending) => (s, .pending)
  | (s, .ready (.error e)) => (s, .ready (.error e))
  | (s, .ready (.ok a)) => next s a

@[simp] theorem andThen_pending (s : State) (next : State → α → State × Poll (Except ε β)) :
    andThen (s, .pending) next = (s, .pending) := rfl

@[simp] theorem andThen_error (s : State) (e : ε) (next : State → α → State × Poll (Except ε β)) :
    andThen (s, .ready (.error e)) next = (s, .ready (.error e)) := rfl

@[simp] theorem andThen_ok (s : State) (a : α) (next : State → α → State × Poll (Except ε β)) :
    andThen (s, .ready (.ok a)) next = next s a := rfl

end Poll

end Yazi.Base
