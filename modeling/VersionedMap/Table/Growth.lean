import VersionedMap.Sweep
import VersionedMap.Table.Basic

/-!
# Growth

A table is replaced by one of twice the size. The buckets of the old table are read like
any reader would read them, one after another, so that readers who are still in the old
table are not disturbed. While a bucket is held its items are dealt out: each is copied to
the version that is staged for its new bucket, which is taken from the pool when the first
item comes. When all buckets have been read, the staged versions are installed.
-/

namespace VersionedMap

variable {κ ν σ : Type}

/--
Acquires the current version, has `f` go through its items and lets go. Nobody holds a lock
while a table is rebuilt, so that the acquisition does not wait.
-/
def Bucket.reading (f : List (Item κ ν) → σ × Shared κ ν → σ × Shared κ ν) (b : Bucket κ ν)
    (x : σ × Shared κ ν) : Bucket κ ν × σ × Shared κ ν :=
  match b.acquire x.2 with
  | (.absent, b, s) | (.waits, b, s) => (b, x.1, s)
  | (.held n, b, s) =>
    let (a, s) := f (b.itemsAt n) (x.1, s)
    let (b, s) := b.release n s
    (b, a, s)

/-- A bucket of a new table. One for which no version is staged has nothing published. -/
def Bucket.ofStaged : Option (Version κ ν) → Bucket κ ν
  | none => {}
  | some v => ({} : Bucket κ ν).install v

/-- What has been gathered for a table of `n` buckets. -/
structure Staging (κ ν : Type) (n : Nat) where
  /-- The versions to be installed, for those new buckets that have come to an item. -/
  staged : Vector (Option (Version κ ν)) n := .replicate n none
  /-- The number of items; a word, which wraps. -/
  count : UInt64 := 0

namespace Staging

variable {n : Nat}

/-- The version staged for bucket `j`, or one from the pool if there is none yet. -/
def versionFor (staged : Vector (Option (Version κ ν)) n) (j : Nat) (s : Shared κ ν) :
    Version κ ν × Shared κ ν :=
  match staged[j]? with
  | some (some v) => (v, s)
  | some none | none => s.take

/-- Copies an item to the version for its new bucket. -/
def deal : Staging κ ν n × Shared κ ν → Item κ ν → Staging κ ν n × Shared κ ν
  | (⟨staged, count⟩, s), i =>
    let j := i.hash.toNat &&& (n - 1)
    let (v, s) := versionFor staged j s
    (⟨staged.setIfInBounds j (some (v.push i)), count + 1⟩, s)

/-- Copies items in their order. -/
def dealAll (l : List (Item κ ν)) (x : Staging κ ν n × Shared κ ν) :
    Staging κ ν n × Shared κ ν :=
  l.foldl deal x

end Staging

namespace Table

/-- A table of twice the size with the same items, and the old table as it was left. -/
def grow (t : Table κ ν) (s : Shared κ ν) : Table κ ν × Table κ ν × Shared κ ν :=
  let read := sweep (Bucket.reading Staging.dealAll) t.buckets
    (({} : Staging κ ν (2 * t.size)), s)
  ({ buckets := read.2.1.staged.toArray.map Bucket.ofStaged
     count := read.2.1.count
     nonempty := by simpa [size] using t.nonempty },
   { t with
     buckets := read.1
     nonempty := by simpa [read] using t.nonempty },
   read.2.2)

end Table

end VersionedMap
