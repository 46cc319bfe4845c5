import VersionedMap.Contents

/-!
# Versions

A bucket never changes its items in place. It holds a chain of **versions**, each a
complete list of items, and a writer replaces the newest one by a successor made from
it. A version that has been published keeps its items; only its reader count and its
link to the version before it still change.

Every version is an allocation with a `stamp` of its own. The stamp is how versions link
to one another, and it stays with the allocation when the version is emptied and used
again.
-/

namespace VersionedMap

/-- A key with its value and the hash by which its bucket was chosen. -/
structure Item (κ ν : Type) where
  hash : UInt32
  key : κ
  value : ν

/-- What to look for in a bucket: items with one hash whose key is admitted. -/
structure Query (κ : Type) where
  hash : UInt32
  /-- Whether a key is one of those asked for. -/
  admits : κ → Bool

namespace Query

variable {κ ν : Type}

/-- Asks for one key. -/
def exactly [DecidableEq κ] (hash : UInt32) (key : κ) : Query κ := ⟨hash, (key = ·)⟩

/-- Whether an item answers the query. -/
def selects (q : Query κ) (i : Item κ ν) : Bool := i.hash == q.hash && q.admits i.key

end Query

/-- The identifier after `id`. Zero means "never published" and is passed over. -/
def nextId (id : UInt32) : UInt32 := if id + 1 = 0 then 1 else id + 1

theorem nextId_ne_zero (id : UInt32) : nextId id ≠ 0 := by
  unfold nextId; split <;> simp_all

/-- One version of the contents of a bucket. -/
structure Version (κ ν : Type) where
  /-- The identity of the allocation. -/
  stamp : Nat
  /-- Counts the versions of a bucket from `1`; `0` before publication. -/
  id : UInt32 := 0
  /--
  The readers counted on the version itself. While the version is the newest of its
  bucket its acquisitions are counted elsewhere and only its releases here, so the count
  is then usually negative.
  -/
  internal : Int32 := 0
  /-- The stamp of the version that this one supersedes. -/
  prev : Option Nat := none
  contents : Contents (Item κ ν) := .empty

namespace Version

variable {κ ν : Type}

/-- The items, in the order of their arrival. -/
def items (v : Version κ ν) : List (Item κ ν) := v.contents.toList

/-- The number of items. -/
def size (v : Version κ ν) : Nat := v.contents.size

/-- The first item that answers a query. -/
def find? (v : Version κ ν) (q : Query κ) : Option (Item κ ν) := v.contents.find? q.selects

/-- Adds an item. -/
def push (v : Version κ ν) (i : Item κ ν) : Version κ ν :=
  { v with contents := v.contents.push i }

/-- Makes an empty version the successor of `head`, still without items. -/
def follow (v head : Version κ ν) : Version κ ν :=
  { v with id := nextId head.id, prev := some head.stamp }

/-- Makes an empty version the successor of `head`, with the same items. -/
def followCopy (v head : Version κ ν) : Version κ ν :=
  { v.follow head with contents := v.contents.append head.contents }

/--
Makes an empty version the successor of `head`, with all items but the first that answers
the query. Gives that item along with the successor.
-/
def followWithout (v head : Version κ ν) (q : Query κ) :
    Option (Item κ ν) × Version κ ν :=
  (head.find? q,
    { v.follow head with contents := v.contents.pushAll (head.items.eraseP q.selects) })

/-- Empties the version for another use. Only the allocation stays the same. -/
def reset (v : Version κ ν) : Version κ ν := { stamp := v.stamp }

theorem find?_eq (v : Version κ ν) (q : Query κ) : v.find? q = v.items.find? q.selects :=
  Contents.find?_eq ..

@[simp] theorem length_items (v : Version κ ν) : v.items.length = v.size :=
  Contents.length_toList ..

@[simp] theorem items_push (v : Version κ ν) (i : Item κ ν) :
    (v.push i).items = v.items ++ [i] :=
  Contents.toList_push ..

@[simp] theorem items_follow (v head : Version κ ν) : (v.follow head).items = v.items := rfl

@[simp] theorem items_followCopy (v head : Version κ ν) :
    (v.followCopy head).items = v.items ++ head.items :=
  Contents.toList_append ..

@[simp] theorem items_followWithout (v head : Version κ ν) (q : Query κ) :
    (v.followWithout head q).2.items = v.items ++ head.items.eraseP q.selects :=
  Contents.toList_pushAll ..

@[simp] theorem items_reset (v : Version κ ν) : v.reset.items = [] := rfl

end Version

end VersionedMap
