import VersionedMap.Hash
import VersionedMap.Shard

/-!
# Maps

A map is one shard or several, with a hash function on its keys and a pool that all
shards share. A map of a single table sends the folded hash to it as it is; a map of
several shards splits the hash between the choice of a shard and the shard's own use.

What a map holds is the list of its current items, shard by shard and bucket by bucket.
-/

namespace VersionedMap

/-- What to look for in a map: keys that are admitted, by way of one hash. -/
structure Lookup (κ : Type) where
  hash : UInt64
  /-- Whether a key is one of those asked for. -/
  admits : κ → Bool

/-- How a map is laid out. -/
inductive Layout
  /-- One table. -/
  | single
  /-- Several shards, a power of two. -/
  | sharded
deriving DecidableEq

/-- The most shards that a map has. -/
def maximumShards : Nat := 0x10000

/-- The number of shards of a map that is to have at least `n`. -/
def shardsFor (n : Nat) : Nat := (min (max n 1) maximumShards).nextPowerOfTwo

/-- A map from keys to values. -/
structure Map (κ ν : Type) where
  /-- The hash function. -/
  hash : κ → UInt64
  layout : Layout
  shards : Array (Shard κ ν)
  shared : Shared κ ν := {}

namespace Map

variable {κ ν α : Type}

/-- A map of one table with at least `capacity` buckets. -/
def single (hash : κ → UInt64) (capacity : Nat) : Map κ ν where
  hash
  layout := .single
  shards := #[.ofCapacity capacity]

/-- A map of at least `n` shards that have at least `capacity` buckets between them. -/
def sharded (hash : κ → UInt64) (n capacity : Nat) : Map κ ν where
  hash
  layout := .sharded
  shards := .replicate (shardsFor n) (.ofCapacity ((capacity + shardsFor n - 1) / shardsFor n))

/-- Asks for one key. -/
def lookup [DecidableEq κ] (m : Map κ ν) (k : κ) : Lookup κ := ⟨m.hash k, (k = ·)⟩

/-- Where a hash leads. -/
def route (m : Map κ ν) (hash : UInt64) : Route :=
  match m.layout with
  | .single => ⟨0, foldHash hash⟩
  | .sharded => splitHash (foldHash hash) m.shards.size

/-- The current items, in the order of a scan. -/
def items (m : Map κ ν) : List (Item κ ν) := m.shards.toList.flatMap (·.table.items)

/-- The number of items. -/
def len (m : Map κ ν) : Nat := m.shards.foldl (fun n d => n + d.table.count.toNat) 0

/-- Whether there are no items. -/
def isEmpty (m : Map κ ν) : Bool := m.shards.all (·.table.count == 0)

/-- The number of buckets. -/
def capacity (m : Map κ ν) : Nat := m.shards.foldl (fun n d => n + d.table.size) 0

/-- The number of shards; a map of one table has no shards to speak of. -/
def shardCount? (m : Map κ ν) : Option Nat :=
  match m.layout with
  | .single => none
  | .sharded => some m.shards.size

/-- The shard at a position. -/
def shardAt (m : Map κ ν) (i : Nat) : Shard κ ν := m.shards.getD i .vacant

/-- Changes the shard at a position. -/
def modifyShard (m : Map κ ν) (i : Nat)
    (f : Shard κ ν → Shared κ ν → α × Shard κ ν × Shared κ ν) : α × Map κ ν :=
  match m with
  | ⟨hash, layout, shards, shared⟩ =>
    let d := shards.getD i .vacant
    -- The array must not refer to the shard while the shard changes.
    let shards := shards.setIfInBounds i .vacant
    let (a, d, shared) := f d shared
    (a, ⟨hash, layout, shards.setIfInBounds i d, shared⟩)

end Map

end VersionedMap
