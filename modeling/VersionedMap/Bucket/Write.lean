import VersionedMap.Bucket.Basic

/-!
# Writes

What a writer does to a bucket while it holds the lock. Every write publishes a version
made from the current one; none of them asks whether the publication was worth it.
-/

namespace VersionedMap.Bucket

variable {κ ν : Type}

/-- Publishes the items with `i` in place of the first that answers `q`, moved to the end. -/
def replace (q : Query κ) (i : Item κ ν) (b : Bucket κ ν) (s : Shared κ ν) :
    Option (Item κ ν) × Bucket κ ν × Shared κ ν :=
  let (omitted, v, s) := b.draftWithout q s
  (omitted, b.publish (v.push i) s)

/-- Publishes the items with `i` after them. -/
def add (i : Item κ ν) (b : Bucket κ ν) (s : Shared κ ν) : Bucket κ ν × Shared κ ν :=
  let (v, s) := b.draftCopy s
  b.publish (v.push i) s

/-- Publishes the items without the first that answers `q`. -/
def remove (q : Query κ) (b : Bucket κ ν) (s : Shared κ ν) :
    Option (Item κ ν) × Bucket κ ν × Shared κ ν :=
  let (omitted, v, s) := b.draftWithout q s
  (omitted, b.publish v s)

/-- Publishes a version without items. -/
def wipe (b : Bucket κ ν) (s : Shared κ ν) : Bucket κ ν × Shared κ ν :=
  let (v, s) := b.draftEmpty s
  b.publish v s

/-- The current item that answers `q`. -/
def find? (b : Bucket κ ν) (q : Query κ) : Option (Item κ ν) :=
  match b.newest? with
  | none => none
  | some v => v.find? q

end VersionedMap.Bucket
