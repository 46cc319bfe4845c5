/-!
# Attempts

An operation that needs a lock somebody else holds does not fail: it waits. Where that is
possible the result is an `Attempt`. What the operation has done before it came to wait
is in the state that goes with the attempt.
-/

namespace VersionedMap

/-- The result of an operation that may have to wait for a lock. -/
inductive Attempt (α : Type)
  | done (a : α)
  | waits

namespace Attempt

variable {α β σ : Type}

/-- Applies `f` to the result of a finished attempt. -/
def map (f : α → β) : Attempt α → Attempt β
  | done a => done (f a)
  | waits => waits

/-- Goes on from a finished attempt. One that waits goes no further. -/
def andThen (x : Attempt α × σ) (f : α → σ → Attempt β × σ) : Attempt β × σ :=
  match x with
  | (done a, s) => f a s
  | (waits, s) => (waits, s)

end Attempt

end VersionedMap
