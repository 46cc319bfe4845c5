import VersionedMap.Map.Basic

/-!
# Changing a map

Every mutation goes to the shard of its key and there to one bucket. It takes two steps:
the change in the bucket, which counts, and then, if the change has made it due, the
growth of the shard's table. Others may come between the two, so the second step looks
again whether there is still anything to do.

A mutation waits if its bucket is locked, which between operations only a view of the
whole map can be the cause of.
-/

namespace VersionedMap.Map

variable {κ ν α : Type}

/--
The first step of a mutation: the change, where a hash leads, given the hash inside the
shard. Tells also whether growth has become due there.
-/
def change (m : Map κ ν) (hash : UInt64) (f : UInt32 → Mutation κ ν α) :
    Attempt (α × Bool) × Map κ ν :=
  let r := m.route hash
  m.modifyShard r.shard fun d s => d.change r.hash (f r.hash) s

/-- The second step of a mutation: growth of a shard's table, if it is still due. -/
def grow (m : Map κ ν) (i : Nat) : Attempt Unit × Map κ ν := m.modifyShard i Shard.grow

/-- A mutation: the change and, where that makes it due, growth. -/
def mutate (m : Map κ ν) (hash : UInt64) (f : UInt32 → Mutation κ ν α) : Attempt α × Map κ ν :=
  let i := (m.route hash).shard
  match m.change hash f with
  | (.waits, m) => (.waits, m)
  | (.done (a, false), m) => (.done a, m)
  | (.done (a, true), m) =>
    match m.grow i with
    | (.waits, m) => (.waits, m)
    | (.done (), m) => (.done a, m)

/-- Removes the item that a lookup finds. Gives its value. -/
def delete (m : Map κ ν) (q : Lookup κ) : Attempt (Option ν) × Map κ ν :=
  m.mutate q.hash fun h => .delete ⟨h, q.admits⟩

/-- Removes the items of the shards from position `i` on, shard by shard. -/
def clearFrom (m : Map κ ν) (i : Nat) : Nat → Attempt Unit × Map κ ν
  | 0 => (.done (), m)
  | n + 1 =>
    match m.modifyShard i Shard.clear with
    | (.waits, m) => (.waits, m)
    | (.done (), m) => m.clearFrom (i + 1) n

/-- Removes all items. -/
def clear (m : Map κ ν) : Attempt Unit × Map κ ν := m.clearFrom 0 m.shards.size

variable [DecidableEq κ]

/-- Sets the value of a key. Gives the value that was replaced. -/
def swap (m : Map κ ν) (k : κ) (v : ν) : Attempt (Option ν) × Map κ ν :=
  m.mutate (m.hash k) fun h => .set h k v

/-- Sets the value of a key. -/
def set (m : Map κ ν) (k : κ) (v : ν) : Attempt Unit × Map κ ν :=
  let (a, m) := m.swap k v
  (a.map fun _ => (), m)

/-- Sets the value of a key that is absent. Tells whether it was. -/
def setAbsent (m : Map κ ν) (k : κ) (v : ν) : Attempt Bool × Map κ ν :=
  m.mutate (m.hash k) fun h => .setAbsent h k v

/-- The value of a key, which is set first if it is absent; and whether it was present. -/
def getOrSet (m : Map κ ν) (k : κ) (v : ν) : Attempt (ν × Bool) × Map κ ν :=
  m.mutate (m.hash k) fun h => .getOrSet h k v

/-- Sets the values of several keys, one after another. -/
def extend (m : Map κ ν) (l : List (κ × ν)) : Map κ ν :=
  l.foldl (fun m (k, v) => (m.set k v).2) m

end VersionedMap.Map
