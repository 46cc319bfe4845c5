import VersionedMap.Bucket.Write

/-!
# Mutations

The four ways in which a map changes the item for a key. A mutation runs in one bucket,
with the bucket's lock held, and says what it did to the number of items. A mutation that
finds nothing to do publishes nothing.
-/

namespace VersionedMap

/-- What a mutation did to the number of items. -/
inductive Change
  | inserted
  | removed
  | unchanged
deriving DecidableEq

/-- What runs in a locked bucket: it gives a result and tells the change. -/
abbrev Mutation (κ ν α : Type) : Type :=
  Bucket κ ν → Shared κ ν → (α × Change) × Bucket κ ν × Shared κ ν

namespace Mutation

variable {κ ν : Type}

/-- Removes the first item that answers a query. Gives its value. -/
def delete (q : Query κ) : Mutation κ ν (Option ν) := fun b s =>
  match b.find? q with
  | none => ((none, .unchanged), b, s)
  | some _ =>
    let (omitted, b, s) := b.remove q s
    ((omitted.map (·.value), .removed), b, s)

variable [DecidableEq κ]

/-- Sets the value of a key. Gives the value that was replaced. -/
def set (hash : UInt32) (k : κ) (v : ν) : Mutation κ ν (Option ν) := fun b s =>
  let (omitted, b, s) := b.replace (.exactly hash k) ⟨hash, k, v⟩ s
  ((omitted.map (·.value), if omitted.isNone then .inserted else .unchanged), b, s)

/-- Sets the value of a key that is absent. Tells whether it was. -/
def setAbsent (hash : UInt32) (k : κ) (v : ν) : Mutation κ ν Bool := fun b s =>
  match b.find? (.exactly hash k) with
  | some _ => ((false, .unchanged), b, s)
  | none => ((true, .inserted), b.add ⟨hash, k, v⟩ s)

/-- The value of a key, which is set first if it is absent; and whether it was present. -/
def getOrSet (hash : UInt32) (k : κ) (v : ν) : Mutation κ ν (ν × Bool) := fun b s =>
  match b.find? (.exactly hash k) with
  | some i => (((i.value, true), .unchanged), b, s)
  | none => (((v, false), .inserted), b.add ⟨hash, k, v⟩ s)

end Mutation

end VersionedMap
