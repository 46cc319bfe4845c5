import VersionedMap.Map.Basic

/-!
# Reading a map

Reads take no lock. A read acquires the current version of one bucket, hands the item it
finds to a callback, and lets go when the callback returns. A scan visits the buckets of
every shard in turn and holds one version at a time. A callback may do anything to the
map, so it takes the map and gives it back: a version that is held stays as it is, and a
table that is being scanned stays to be scanned, whatever the callback does.

A scan tells whether it went through. It stops as soon as a visit says so.
-/

namespace VersionedMap

/-- Where a bucket is: its shard, the generation of its table, its position there. -/
structure Place where
  shard : Nat
  generation : Nat
  bucket : Nat
deriving DecidableEq

/-- What a scan does with an entry: it goes on if the answer is `true`. -/
abbrev Visitor (κ ν σ : Type) : Type := κ × ν → σ → Map κ ν → Bool × σ × Map κ ν

/-- The entry of an item. -/
def Item.entry {κ ν : Type} (i : Item κ ν) : κ × ν := (i.key, i.value)

namespace Map

variable {κ ν α σ : Type}

/-- Guards the current table of a shard. Gives its generation. -/
def enter (m : Map κ ν) (i : Nat) : Nat × Map κ ν :=
  m.modifyShard i fun d s =>
    let (g, d) := d.enter
    (g, d, s)

/-- Ends a guard of a shard. -/
def leave (m : Map κ ν) (i : Nat) : Map κ ν :=
  (m.modifyShard i fun d s => ((), d.leave, s)).2

/-- The table that a guard keeps. -/
def tableAt (m : Map κ ν) (i generation : Nat) : Table κ ν := (m.shardAt i).tableAt generation

/-- The bucket at a place. -/
def bucketAt (m : Map κ ν) (p : Place) : Bucket κ ν :=
  (m.tableAt p.shard p.generation).buckets.getD p.bucket {}

/-- Changes the bucket at a place. -/
def modifyBucket (m : Map κ ν) (p : Place)
    (f : Bucket κ ν → Shared κ ν → α × Bucket κ ν × Shared κ ν) : α × Map κ ν :=
  m.modifyShard p.shard fun d s =>
    let ((a, s), d) := d.modifyTable p.generation fun t =>
      let (a, b, s) := f (t.buckets.getD p.bucket {}) s
      ((a, s), t.setBucket p.bucket b)
    (a, d, s)

/-- Acquires the current version of a bucket. -/
def acquire (m : Map κ ν) (p : Place) : Bucket.Acquisition × Map κ ν :=
  m.modifyBucket p Bucket.acquire

/-- Lets go of a publication in a bucket. -/
def release (m : Map κ ν) (p : Place) (n : Nat) : Map κ ν :=
  (m.modifyBucket p fun b s => ((), b.release n s)).2

/-- Hands the item that a lookup finds to `f`. -/
def read (m : Map κ ν) (q : Lookup κ) (f : κ × ν → Map κ ν → α × Map κ ν) :
    Attempt (Option α) × Map κ ν :=
  let r := m.route q.hash
  let (g, m) := m.enter r.shard
  let p : Place := ⟨r.shard, g, (m.tableAt r.shard g).index r.hash⟩
  match m.acquire p with
  | (.waits, m) => (.waits, m.leave r.shard)
  | (.absent, m) => (.done none, m.leave r.shard)
  | (.held n, m) =>
    match (m.bucketAt p).findAt n ⟨r.hash, q.admits⟩ with
    | none => (.done none, (m.release p n).leave r.shard)
    | some i =>
      let (a, m) := f i.entry m
      (.done (some a), (m.release p n).leave r.shard)

/-- The value that a lookup finds. -/
def get (m : Map κ ν) (q : Lookup κ) : Attempt (Option ν) × Map κ ν :=
  m.read q fun e m => (e.2, m)

/-- Whether a lookup finds anything. -/
def contains (m : Map κ ν) (q : Lookup κ) : Attempt Bool × Map κ ν :=
  let (a, m) := m.read q fun _ m => ((), m)
  (a.map Option.isSome, m)

/-- Visits items in turn. -/
def visitItems (f : Visitor κ ν σ) : List (Item κ ν) → σ → Map κ ν → Bool × σ × Map κ ν
  | [], st, m => (true, st, m)
  | i :: l, st, m =>
    match f i.entry st m with
    | (true, st, m) => visitItems f l st m
    | (false, st, m) => (false, st, m)

/-- Visits the items of the current version of a bucket, and holds it meanwhile. -/
def visitBucket (f : Visitor κ ν σ) (p : Place) (st : σ) (m : Map κ ν) :
    Attempt Bool × σ × Map κ ν :=
  match m.acquire p with
  | (.waits, m) => (.waits, st, m)
  | (.absent, m) => (.done true, st, m)
  | (.held n, m) =>
    let (go, st, m) := visitItems f ((m.bucketAt p).itemsAt n) st m
    (.done go, st, m.release p n)

/-- Visits so many buckets of a table, from `j` on. -/
def visitBuckets (f : Visitor κ ν σ) (i generation j : Nat) :
    Nat → σ → Map κ ν → Attempt Bool × σ × Map κ ν
  | 0, st, m => (.done true, st, m)
  | n + 1, st, m =>
    match visitBucket f ⟨i, generation, j⟩ st m with
    | (.done true, st, m) => visitBuckets f i generation (j + 1) n st m
    | (.done false, st, m) => (.done false, st, m)
    | (.waits, st, m) => (.waits, st, m)

/-- Visits the table that is current in a shard at the start, and guards it meanwhile. -/
def visitShard (f : Visitor κ ν σ) (i : Nat) (st : σ) (m : Map κ ν) :
    Attempt Bool × σ × Map κ ν :=
  let (g, m) := m.enter i
  let (go, st, m) := visitBuckets f i g 0 (m.tableAt i g).size st m
  (go, st, m.leave i)

/-- Visits so many shards, from `i` on. -/
def visitShards (f : Visitor κ ν σ) (i : Nat) :
    Nat → σ → Map κ ν → Attempt Bool × σ × Map κ ν
  | 0, st, m => (.done true, st, m)
  | n + 1, st, m =>
    match visitShard f i st m with
    | (.done true, st, m) => visitShards f (i + 1) n st m
    | (.done false, st, m) => (.done false, st, m)
    | (.waits, st, m) => (.waits, st, m)

/-- Visits every entry until a visit says to stop. Tells whether none did. -/
def range (m : Map κ ν) (f : Visitor κ ν σ) (st : σ) : Attempt Bool × σ × Map κ ν :=
  visitShards f 0 m.shards.size st m

/-- All entries, as a scan meets them. -/
def entries (m : Map κ ν) : Attempt (Array (κ × ν)) × Map κ ν :=
  match m.range (fun e seen m => (true, seen.push e, m)) #[] with
  | (.waits, _, m) => (.waits, m)
  | (.done _, seen, m) => (.done seen, m)

end Map

end VersionedMap
