import VersionedMap.Attempt
import VersionedMap.Table.Mutation

/-!
# Tables

A table is an array of buckets, as many as a power of two, with a count of the items in
them. The low bits of an item's hash choose its bucket. The size of a table never
changes: when three quarters as many items as buckets have come together, the table is
due for replacement by one of twice the size.

The count is kept apart from the buckets and updated under the lock of the bucket that
changed.
-/

namespace VersionedMap

/-- The least number of buckets. -/
def minimumBuckets : Nat := 16

/-- The number of buckets of a table that is to have at least `capacity`. -/
def bucketsFor (capacity : Nat) : Nat :=
  max minimumBuckets (min capacity 0x4000000000000000).nextPowerOfTwo

/-- The number of items at which a table of `n` buckets is due for growth. -/
def growthThreshold (n : Nat) : Nat := n / 4 * 3

theorem minimumBuckets_le_bucketsFor (capacity : Nat) :
    minimumBuckets ≤ bucketsFor capacity :=
  Nat.le_max_left ..

/-- An array of buckets with the number of their items. -/
structure Table (κ ν : Type) where
  buckets : Array (Bucket κ ν)
  /-- The number of items; a word, which wraps. -/
  count : UInt64 := 0
  nonempty : 0 < buckets.size

namespace Table

variable {κ ν α : Type}

/-- A table of `n` buckets without items. -/
def ofSize (n : Nat) (h : 0 < n) : Table κ ν where
  buckets := .replicate n {}
  nonempty := by simpa using h

/-- A table without items, of at least `capacity` buckets. -/
def ofCapacity (capacity : Nat) : Table κ ν :=
  ofSize (bucketsFor capacity)
    (Nat.lt_of_lt_of_le (by decide) (minimumBuckets_le_bucketsFor capacity))

/-- The least table there can be: one bucket, without items. -/
def vacant : Table κ ν := ofSize 1 Nat.one_pos

/-- The number of buckets. -/
def size (t : Table κ ν) : Nat := t.buckets.size

/-- An empty table of the same size. -/
def emptied (t : Table κ ν) : Table κ ν := ofSize t.size t.nonempty

/-- The bucket of a hash. -/
def index (t : Table κ ν) (hash : UInt32) : Fin t.buckets.size :=
  ⟨hash.toNat &&& (t.size - 1),
    Nat.lt_of_le_of_lt Nat.and_le_right (Nat.sub_lt t.nonempty Nat.one_pos)⟩

/-- Whether the table is due for growth. -/
def needsGrowth (t : Table κ ν) : Bool := growthThreshold t.size ≤ t.count.toNat

/-- Whether any bucket is locked. -/
def anyLocked (t : Table κ ν) : Bool := t.buckets.any (·.locked)

/-- The current items, bucket by bucket. -/
def items (t : Table κ ν) : List (Item κ ν) := t.buckets.toList.flatMap (·.items)

/-- The first current item that answers a query, in the bucket of its hash. -/
def find? (t : Table κ ν) (q : Query κ) : Option (Item κ ν) :=
  t.buckets[t.index q.hash].find? q

/-- Puts a bucket in place of the one at `i`. -/
def setBucket (t : Table κ ν) (i : Nat) (b : Bucket κ ν) : Table κ ν :=
  match t with
  | ⟨buckets, count, nonempty⟩ =>
    ⟨buckets.setIfInBounds i b, count, by simpa using nonempty⟩

/-- Accounts for a change of the number of items. -/
def account (t : Table κ ν) : Change → Table κ ν
  | .inserted => { t with count := t.count + 1 }
  | .removed => { t with count := t.count - 1 }
  | .unchanged => t

/--
Runs a mutation in the bucket of a hash: locks it, changes it, updates the count, unlocks.
Tells also whether an insertion has made growth due. Waits if the bucket is locked.
-/
def mutate (t : Table κ ν) (hash : UInt32) (f : Mutation κ ν α) (s : Shared κ ν) :
    Attempt (α × Bool) × Table κ ν × Shared κ ν :=
  let i := t.index hash
  let b := t.buckets[i]
  if b.locked then (.waits, t, s) else
    let ((a, change), b, s) := f b.lock s
    let (b, s) := b.unlock s
    let t := (t.setBucket i b).account change
    (.done (a, change = .inserted && t.needsGrowth), t, s)

@[simp] theorem size_setBucket (t : Table κ ν) (i : Nat) (b : Bucket κ ν) :
    (t.setBucket i b).size = t.size := by
  simp [setBucket, size]

@[simp] theorem size_account (t : Table κ ν) (c : Change) : (t.account c).size = t.size := by
  cases c <;> rfl

@[simp] theorem size_emptied (t : Table κ ν) : t.emptied.size = t.size := by
  simp [emptied, ofSize, size]

end Table

end VersionedMap
