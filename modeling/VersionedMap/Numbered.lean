/-!
# Things held under numbers

A session refers to what it holds by numbers of its own choosing. `Numbered α` is the
list of what is held, in ascending order of the numbers.
-/

namespace VersionedMap

/-- What is held under which number, by ascending number. -/
def Numbered (α : Type) : Type := List (Nat × α)

namespace Numbered

variable {α : Type}

/-- Nothing held. -/
def empty : Numbered α := []

/-- All that is held, by ascending number. -/
def toList (s : Numbered α) : List (Nat × α) := s

/-- What is held under `n`. -/
def get? (s : Numbered α) (n : Nat) : Option α := (s.toList.find? (·.1 == n)).map (·.2)

/-- Nothing under `n` any more. -/
def erase (s : Numbered α) (n : Nat) : Numbered α := s.toList.filter (·.1 != n)

/-- Holds `a` under `n`, in place of what was held there. -/
def set (s : Numbered α) (n : Nat) (a : α) : Numbered α :=
  s.toList.filter (·.1 < n) ++ (n, a) :: s.toList.filter (n < ·.1)

end Numbered

end VersionedMap
