import VersionedMap.Table.Growth

/-!
# Shards

A shard is a table that can be replaced, by a larger one or by an empty one. Replacing a
table takes the shard's resize lock for oneself alone; mutations and views of the map
share that lock. In between two operations nobody but a view still holds it.

A replaced table does not vanish while somebody may be in it. Readers and scans **guard**
the table that is current when they start: a table replaced meanwhile is set aside, and
the tables set aside are dropped when the last guard goes. So a guard names its table by
its **generation**, the number of tables that had been set aside before it.

The guards are those of a collector by epochs that is not modelled itself. What `enter`,
`leave` and `replace` do is the **guarantee assumed of it**: a table that is replaced while
there is a guard stays, as it was, until no guard is left, and nothing stays for longer.
-/

namespace VersionedMap

/-- A table with what is needed to replace it. -/
structure Shard (κ ν : Type) where
  /-- The current table. -/
  table : Table κ ν
  /-- The tables replaced under a guard that has not gone yet, oldest first. -/
  aside : Array (Table κ ν) := #[]
  /-- The number of guards. -/
  guards : Nat := 0
  /-- The number of views that share the resize lock. -/
  sharers : Nat := 0

namespace Shard

variable {κ ν α : Type}

/-- A shard of the least table there can be. -/
def vacant : Shard κ ν := { table := .vacant }

/-- A shard without items, of at least `capacity` buckets. -/
def ofCapacity (capacity : Nat) : Shard κ ν := { table := .ofCapacity capacity }

instance : Inhabited (Shard κ ν) := ⟨vacant⟩

/-! ## Guards -/

/--
Guards the current table. Gives its generation. Assumed of the collector: as long as the guard
lasts, the table of that generation is there.
-/
def enter (d : Shard κ ν) : Nat × Shard κ ν :=
  (d.aside.size, { d with guards := d.guards + 1 })

/--
Ends a guard. The last one to go takes the tables set aside with it. Assumed of the collector:
it frees none of them before that, and all of them then.
-/
def leave (d : Shard κ ν) : Shard κ ν :=
  if d.guards ≤ 1 then { d with guards := 0, aside := #[] } else { d with guards := d.guards - 1 }

/-- The table of a generation. -/
def tableAt (d : Shard κ ν) (generation : Nat) : Table κ ν :=
  match d.aside[generation]? with
  | some t => t
  | none => d.table

/-- Changes the table of a generation. -/
def modifyTable (d : Shard κ ν) (generation : Nat) (f : Table κ ν → α × Table κ ν) :
    α × Shard κ ν :=
  match d with
  | ⟨table, aside, guards, sharers⟩ =>
    if h : generation < aside.size then
      let t := aside[generation]
      -- The array must not refer to the table while the table changes.
      let aside := aside.setIfInBounds generation .vacant
      let (a, t) := f t
      (a, ⟨table, aside.setIfInBounds generation t, guards, sharers⟩)
    else
      let (a, t) := f table
      (a, ⟨t, aside, guards, sharers⟩)

/-! ## Replacing the table -/

/--
Makes `t` the current table, and sets the old one aside, as `old`, if it is guarded. Assumed of
the collector: it keeps a guarded table, and frees one that nobody guards at once.
-/
def replace (d : Shard κ ν) (old t : Table κ ν) : Shard κ ν :=
  if d.guards = 0 then { d with table := t } else { d with table := t, aside := d.aside.push old }

/--
Replaces the table by its grown copy, if growth is still due. Waits while anyone shares the
resize lock.
-/
def grow (d : Shard κ ν) (s : Shared κ ν) : Attempt Unit × Shard κ ν × Shared κ ν :=
  if 0 < d.sharers then (.waits, d, s)
  else if !d.table.needsGrowth then (.done (), d, s)
  else
    let (grown, old, s) := d.table.grow s
    (.done (), d.replace old grown, s.note (.grew old.size grown.size grown.count.toNat))

/--
Replaces the table by an empty one of the same size. Waits while anyone shares the resize
lock.
-/
def clear (d : Shard κ ν) (s : Shared κ ν) : Attempt Unit × Shard κ ν × Shared κ ν :=
  if 0 < d.sharers then (.waits, d, s)
  else (.done (), d.replace d.table d.table.emptied, s.note (.cleared d.table.size))

/-! ## Mutations -/

/-- Runs a mutation in the bucket of a hash. Tells also whether it has made growth due. -/
def change (d : Shard κ ν) (hash : UInt32) (f : Mutation κ ν α) (s : Shared κ ν) :
    Attempt (α × Bool) × Shard κ ν × Shared κ ν :=
  match d with
  | ⟨table, aside, guards, sharers⟩ =>
    let (result, table, s) := table.mutate hash f s
    (result, ⟨table, aside, guards, sharers⟩, s)

end Shard

end VersionedMap
