/-!
# Lists with an inline first element

A bucket usually holds a single item. `Contents` keeps the first element beside the
array that takes the others, so that the usual bucket needs no array at all. It is a
list all the same, and `Contents.toList` says which: every operation is given by what it
does to that list.
-/

namespace VersionedMap

/-- A list whose first element is stored inline. -/
structure Contents (α : Type) where
  /-- The first element. -/
  slot : Option α := none
  /-- The elements after the first. -/
  overflow : Array α := #[]
  /-- The array is used only behind a first element. -/
  packed : slot = none → overflow = #[] := by simp

namespace Contents

variable {α : Type}

/-- A list without elements. -/
def empty : Contents α := {}

/-- The list that is stored. -/
def toList (c : Contents α) : List α := c.slot.toList ++ c.overflow.toList

/-- The number of elements. -/
def size (c : Contents α) : Nat := c.overflow.size + (if c.slot.isSome then 1 else 0)

/-- The first element that satisfies `p`. -/
def find? (c : Contents α) (p : α → Bool) : Option α :=
  match c.slot with
  | none => none
  | some a => if p a then some a else c.overflow.find? p

/-- Adds an element at the end. -/
def push (c : Contents α) (a : α) : Contents α :=
  match h : c.slot with
  | none => { slot := some a }
  | some b => { slot := some b, overflow := c.overflow.push a }

/-- Adds the elements of another list at the end. -/
def append (c d : Contents α) : Contents α :=
  match c.slot with
  | none => d
  | some a => { slot := some a, overflow := c.overflow ++ d.toList }

/-- Adds elements one after another. -/
def pushAll (c : Contents α) (l : List α) : Contents α := l.foldl push c

@[simp] theorem toList_empty : (empty : Contents α).toList = [] := rfl

@[simp] theorem length_toList (c : Contents α) : c.toList.length = c.size := by
  cases h : c.slot <;> simp [toList, size, h]

theorem find?_eq (c : Contents α) (p : α → Bool) : c.find? p = c.toList.find? p := by
  cases h : c.slot with
  | none => simp [find?, toList, h, c.packed h]
  | some a => cases hp : p a <;> simp [find?, toList, h, hp]

@[simp] theorem toList_push (c : Contents α) (a : α) : (c.push a).toList = c.toList ++ [a] := by
  unfold push
  split
  · next h => simp [toList, h, c.packed h]
  · next b h => simp [toList, h]

@[simp] theorem toList_append (c d : Contents α) :
    (c.append d).toList = c.toList ++ d.toList := by
  cases h : c.slot with
  | none => simp [append, toList, h, c.packed h]
  | some a => simp [append, toList, h]

@[simp] theorem toList_pushAll (c : Contents α) (l : List α) :
    (c.pushAll l).toList = c.toList ++ l := by
  induction l generalizing c with
  | nil => simp [pushAll]
  | cons a l ih => simpa [pushAll] using ih (c.push a)

end Contents

end VersionedMap
