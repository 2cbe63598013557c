/-!
A throttle: what so many callers hand in is passed on in groups, a group when some time has passed
since the last one, and the last group when nobody is left.
-/
namespace Yazi.Shared

structure Throttle (α : Type) where
  total : Nat
  buf : List α
  deriving DecidableEq

namespace Throttle
variable {α : Type}

def make (total : Nat) : Throttle α := ⟨total, []⟩

/-- With what is passed on, if anything is. There is no result where the counter underflows.
`elapsed` says that the interval is over. -/
def done (t : Throttle α) (data : α) (elapsed : Bool) : Option (Throttle α × Option (List α)) :=
  if t.total = 0 then none
  else
    let total := t.total - 1
    let buf := t.buf ++ [data]
    if total ≠ 0 ∧ ¬elapsed then some (⟨total, buf⟩, none) else some (⟨total, []⟩, some buf)

end Throttle
end Yazi.Shared
