import VersionedMap.Map.Scan
import VersionedMap.Refusal

/-!
# Views

A view holds the lock of every bucket of a map, and with every shard the resize lock, so
that nothing can change but by the view itself. It looks at the newest version of a
bucket without acquiring it, which only the holder of the lock may do.

A view is freed once. From then on it answers nothing but that it has been freed.
-/

namespace VersionedMap

variable {κ ν α σ : Type}

namespace Table

/-- Takes the lock of every bucket. -/
def lock (t : Table κ ν) : Table κ ν :=
  { t with buckets := t.buckets.map Bucket.lock, nonempty := by simpa using t.nonempty }

/-- Releases the lock of every bucket. -/
def unlock (t : Table κ ν) (s : Shared κ ν) : Table κ ν × Shared κ ν :=
  let swept := sweep (fun b s => b.unlock s) t.buckets s
  ({ t with buckets := swept.1, nonempty := by simpa [swept] using t.nonempty }, swept.2)

/-- With the lock of every bucket held, removes the items of every bucket that has any. -/
def wipe (t : Table κ ν) (s : Shared κ ν) : Table κ ν × Shared κ ν :=
  let removed := t.buckets.foldl (fun n b => n + b.items.length) 0
  let swept := sweep (fun b s => if b.items.isEmpty then (b, s) else b.wipe s) t.buckets s
  ({ buckets := swept.1
     count := t.count - removed.toUInt64
     nonempty := by simpa [swept] using t.nonempty }, swept.2)

end Table

/-- An exclusive view of a map. -/
structure View where
  /-- Whether the view has been freed. -/
  freed : Bool := false

/-- Locks every bucket of every shard. Waits if somebody has done so already. -/
def Map.lock (m : Map κ ν) : Attempt View × Map κ ν :=
  if m.shards.any (·.table.anyLocked) then (.waits, m) else
    let shards := m.shards.map fun d => { d with table := d.table.lock, sharers := d.sharers + 1 }
    (.done {}, { m with shards })

/-- Releases every lock that a view holds, and serves what has become pending. -/
def Map.unlock (m : Map κ ν) : Map κ ν :=
  let (shards, shared) := sweep (fun (d : Shard κ ν) s =>
    let (table, s) := d.table.unlock s
    ({ d with table, sharers := d.sharers - 1 }, s)) m.shards m.shared
  { m with shards, shared }

namespace View

/-- Goes on with a view that has not been freed. -/
def check (v : View) : Except Refusal Unit :=
  if v.freed then .error .viewFreed else .ok ()

/-- The number of items. -/
def len (v : View) (m : Map κ ν) : Except Refusal Nat := do
  v.check
  return m.len

/-- Whether there are no items. -/
def isEmpty (v : View) (m : Map κ ν) : Except Refusal Bool := do
  return (← v.len m) == 0

/-- The entry that a lookup finds. -/
def find? (v : View) (m : Map κ ν) (q : Lookup κ) : Except Refusal (Option (κ × ν)) := do
  v.check
  let r := splitHash (foldHash q.hash) m.shards.size
  return ((m.shardAt r.shard).table.find? ⟨r.hash, q.admits⟩).map (·.entry)

/-- The value that a lookup finds. -/
def get (v : View) (m : Map κ ν) (q : Lookup κ) : Except Refusal (Option ν) := do
  return (← v.find? m q).map (·.2)

/-- Whether a lookup finds anything. -/
def contains (v : View) (m : Map κ ν) (q : Lookup κ) : Except Refusal Bool := do
  return (← v.find? m q).isSome

/-- Visits entries in turn until a visit says to stop. Tells whether none did. -/
def visit (f : κ × ν → σ → Bool × σ) : List (Item κ ν) → σ → Bool × σ
  | [], st => (true, st)
  | i :: l, st =>
    match f i.entry st with
    | (true, st) => visit f l st
    | (false, st) => (false, st)

/-- Visits every entry until a visit says to stop. Tells whether none did. -/
def range (v : View) (m : Map κ ν) (f : κ × ν → σ → Bool × σ) (st : σ) :
    Except Refusal (Bool × σ) := do
  v.check
  return visit f m.items st

/-- Removes all items. -/
def clear (v : View) (m : Map κ ν) : Except Refusal (Map κ ν) := do
  v.check
  let (shards, shared) := sweep (fun (d : Shard κ ν) s =>
    let (table, s) := d.table.wipe s
    ({ d with table }, s)) m.shards m.shared
  return { m with shards, shared }

/-- Frees the view: releases every lock it holds. -/
def free (v : View) (m : Map κ ν) : Except Refusal (View × Map κ ν) := do
  v.check
  return ({ freed := true }, m.unlock)

/-- Ends a view: frees it, unless that has been done. -/
def close (v : View) (m : Map κ ν) : Map κ ν :=
  if v.freed then m else m.unlock

end View

end VersionedMap
