import VersionedMap.Refusal
import VersionedMap.Table.Growth

/-!
# A table on its own

A session with one table and a pool. It writes to the buckets with or without counting,
and can have the table replaced by its grown copy.
-/

namespace VersionedMap.Table

variable {κ ν : Type}

/-- The largest table that a session grows. -/
def largestGrown : Nat := 0x4000

/-- What can be done with a table. -/
inductive Command (κ ν : Type)
  /-- Adds an item to its bucket, without a search, and counts it. -/
  | insert (i : Item κ ν)
  /-- Adds an item to its bucket, without a search, and does not count it. -/
  | put (i : Item κ ν)
  /-- Removes the item that answers a query, and counts if there was one. -/
  | remove (q : Query κ)
  /-- Asks for the item that answers a query. -/
  | read (q : Query κ)
  | increment
  | decrement
  | subtract (n : UInt64)
  /-- Asks for the bucket of a hash. -/
  | index (hash : UInt32)
  /-- Asks for the threshold of a size. -/
  | threshold (n : Nat)
  /-- Replaces the table by its grown copy. -/
  | grow
  /-- Asks for all buckets that have a version. -/
  | dump

/-- What a command answers. -/
inductive Reply (κ ν : Type)
  | nothing
  | flag (b : Bool)
  | number (n : Nat)
  | item (i : Option (Item κ ν))
  /-- The newest versions, with the positions of their buckets. -/
  | versions (l : List (Nat × Version κ ν))
  | refused (r : Refusal)

/-- A table and its pool. -/
structure Session (κ ν : Type) where
  table : Table κ ν
  shared : Shared κ ν

namespace Session

/-- Writes to the bucket of a hash under its lock. -/
def write {α : Type} (s : Session κ ν) (hash : UInt32)
    (f : Bucket κ ν → Shared κ ν → α × Bucket κ ν × Shared κ ν) : α × Session κ ν :=
  let i := s.table.index hash
  have bound : i.val < s.table.buckets.size := i.isLt
  let (a, b, shared) := s.table.buckets[i.val].exclusively f s.shared
  (a, { table := s.table.setBucket i b, shared })

/-- Carries out a command. -/
def step (s : Session κ ν) : Command κ ν → Reply κ ν × Session κ ν
  | .insert i =>
    let ((), s) := s.write i.hash fun b sh => ((), b.add i sh)
    let table := s.table.account .inserted
    (.flag table.needsGrowth, { s with table })
  | .put i =>
    let ((), s) := s.write i.hash fun b sh => ((), b.add i sh)
    (.nothing, s)
  | .remove q =>
    let (omitted, s) := s.write q.hash fun b sh => b.remove q sh
    (.item omitted,
      { s with table := s.table.account (if omitted.isSome then .removed else .unchanged) })
  | .read q =>
    let i := s.table.index q.hash
    let (b, item, shared) := s.table.buckets[i].reading
      (fun items x => (items.find? q.selects, x.2)) (none, s.shared)
    (.item item, { table := s.table.setBucket i b, shared })
  | .increment =>
    let table := s.table.account .inserted
    (.flag table.needsGrowth, { s with table })
  | .decrement => (.nothing, { s with table := s.table.account .removed })
  | .subtract n => (.nothing, { s with table := { s.table with count := s.table.count - n } })
  | .index hash => (.number (s.table.index hash), s)
  | .threshold n => (.number (growthThreshold n), s)
  | .grow =>
    if largestGrown < s.table.size then (.refused .tooLarge, s) else
      let (table, _, shared) := s.table.grow s.shared
      (.nothing, { table, shared })
  | .dump =>
    let versions := s.table.buckets.toList.zipIdx.filterMap fun (b, i) =>
      b.newest?.map (i, ·)
    (.versions versions, s)

end Session

end VersionedMap.Table
