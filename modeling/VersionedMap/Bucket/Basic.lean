import VersionedMap.Bucket.Reference
import VersionedMap.Pool

/-!
# Buckets

A bucket is a chain of versions, newest first. Readers take no lock: a reader claims the
newest version by one addition to the reference word and, when it is done, takes one off
the count kept in the version itself. Writers hold the bucket's lock, prepare a draft
and publish it.

A version that has been superseded stays in the chain for as long as a reader holds it
or any older one, so nobody ever walks over a version that could go meanwhile. Taking
versions out of the chain requires the lock; a reader that lets go of the last claim on
a version while the lock is held leaves a **pending** mark, which is served when the lock
is released.

The number of readers of the newest version is split over two counts. The reference word
counts acquisitions, starting from one for the bucket itself, and the version counts
releases downwards. Publication adds the two up on the version that is superseded, from
where on its own count is the number of its readers. So that a long-lived version does
not overflow the word's half, a reader that brings the count to `rebalanceAt` moves
`rebalanceBy` of it to the version.

Publications are numbered from `1`, and a reader holds a **publication**: the version
that many places below the newest one. The number is exact where an identifier, which
wraps, is not.
-/

namespace VersionedMap

/-- The acquisition count at which it is moved off the reference word. -/
def rebalanceAt : UInt32 := 1000000000

/-- How much of the acquisition count is moved. -/
def rebalanceBy : UInt32 := 999000000

/-- A hash slot of a table: the current version of its items and those before it. -/
structure Bucket (κ ν : Type) where
  /-- The versions that are still kept, newest first. -/
  chain : List (Version κ ν) := []
  /-- The reference word, `0` before the first publication. -/
  word : UInt64 := 0
  /-- A version was let go while the lock was held. -/
  pending : Bool := false
  /-- A writer, or whoever holds the whole map, has the lock. -/
  locked : Bool := false
  /-- How many versions have been published. -/
  published : Nat := 0
  /-- How often the lock has been released when nobody had it, which is never to happen. -/
  faults : Nat := 0

namespace Bucket

variable {κ ν : Type}

/-- What the reference word says. -/
def reference (b : Bucket κ ν) : Reference := .ofWord b.word

/-- The newest version. -/
def newest? (b : Bucket κ ν) : Option (Version κ ν) := b.chain.head?

/-- The current items. -/
def items (b : Bucket κ ν) : List (Item κ ν) :=
  match b.newest? with
  | none => []
  | some v => v.items

/-- The version of a publication, while it is kept. -/
def version? (b : Bucket κ ν) (n : Nat) : Option (Version κ ν) := b.chain[b.published - n]?

/-- The items of a publication. -/
def itemsAt (b : Bucket κ ν) (n : Nat) : List (Item κ ν) :=
  match b.version? n with
  | none => []
  | some v => v.items

/-- The first item of a publication that answers a query. -/
def findAt (b : Bucket κ ν) (n : Nat) (q : Query κ) : Option (Item κ ν) :=
  match b.version? n with
  | none => none
  | some v => v.find? q

/-- Makes `v` the first version of a bucket that nobody else knows yet. -/
def install (b : Bucket κ ν) (v : Version κ ν) : Bucket κ ν :=
  { b with
    chain := [{ v with id := 1 }]
    word := Reference.word ⟨1, 1⟩
    published := b.published + 1 }

/-- Makes a version with these items the first of a bucket that nobody else knows yet. -/
def installItems (b : Bucket κ ν) (l : List (Item κ ν)) (s : Shared κ ν) :
    Bucket κ ν × Shared κ ν :=
  let (v, s) := s.take
  (b.install { v with contents := v.contents.pushAll l }, s)

/-! ## Taking versions out of the chain -/

/-- Of superseded versions, newest first, those that must stay: all but the uncounted oldest. -/
def kept (older : List (Version κ ν)) : List (Version κ ν) :=
  (older.reverse.dropWhile (·.internal == 0)).reverse

/-- Of superseded versions, newest first, the uncounted oldest. -/
def retired (older : List (Version κ ν)) : List (Version κ ν) :=
  (older.reverse.takeWhile (·.internal == 0)).reverse

/-- Ends a chain: its oldest version supersedes nothing any more. -/
def endChain : List (Version κ ν) → List (Version κ ν)
  | [] => []
  | [v] => [{ v with prev := none }]
  | v :: w :: older => v :: endChain (w :: older)

/-- Gives the oldest superseded versions that nobody holds to the pool. -/
def reclaim (b : Bucket κ ν) (s : Shared κ ν) : Bucket κ ν × Shared κ ν :=
  match b.chain with
  | [] => (b, s)
  | head :: older =>
    ({ b with chain := endChain (head :: kept older) }, s.putAll (retired older))

/-- Reclaims if that is pending and the lock is free. -/
def servePending (b : Bucket κ ν) (s : Shared κ ν) : Bucket κ ν × Shared κ ν :=
  if b.pending && !b.locked then reclaim { b with pending := false } s else (b, s)

/-! ## The lock -/

/-- Takes the lock, which must be free. -/
def lock (b : Bucket κ ν) : Bucket κ ν := { b with locked := true }

/-- Releases the lock. If nobody has it, that is a fault. -/
def unlocked (b : Bucket κ ν) : Bucket κ ν :=
  { b with locked := false, faults := if b.locked then b.faults else b.faults + 1 }

/-- Releases the lock and serves what has become pending under it. -/
def unlock (b : Bucket κ ν) (s : Shared κ ν) : Bucket κ ν × Shared κ ν :=
  servePending b.unlocked s

/-- Runs `f` with the lock held. -/
def exclusively {α : Type} (f : Bucket κ ν → Shared κ ν → α × Bucket κ ν × Shared κ ν)
    (b : Bucket κ ν) (s : Shared κ ν) : α × Bucket κ ν × Shared κ ν :=
  let (a, b, s) := f b.lock s
  (a, b.unlock s)

/-! ## Publication -/

/--
Makes a draft the newest version. The acquisitions of the version it supersedes are added
to that version's own count; if nobody holds it, it is reclaimed at once.
-/
def publish (b : Bucket κ ν) (draft : Version κ ν) (s : Shared κ ν) :
    Bucket κ ν × Shared κ ν :=
  let b' := { b with word := Reference.word ⟨draft.id, 1⟩, published := b.published + 1 }
  match b.chain with
  | [] => ({ b' with chain := [draft] }, s)
  | head :: older =>
    let internal := head.internal + (b.reference.count - 1).toInt32
    let b' := { b' with chain := draft :: { head with internal } :: older }
    if internal = 0 then b'.reclaim s else (b', s)

/-- A draft with the current items. -/
def draftCopy (b : Bucket κ ν) (s : Shared κ ν) : Version κ ν × Shared κ ν :=
  let (v, s) := s.take
  match b.newest? with
  | none => ({ v with id := 1 }, s)
  | some head => (v.followCopy head, s)

/-- A draft with the current items but the first that answers a query, and that item. -/
def draftWithout (b : Bucket κ ν) (q : Query κ) (s : Shared κ ν) :
    Option (Item κ ν) × Version κ ν × Shared κ ν :=
  let (v, s) := s.take
  match b.newest? with
  | none => (none, { v with id := 1 }, s)
  | some head =>
    let (omitted, v) := v.followWithout head q
    (omitted, v, s)

/-- A draft without items. -/
def draftEmpty (b : Bucket κ ν) (s : Shared κ ν) : Version κ ν × Shared κ ν :=
  let (v, s) := s.take
  match b.newest? with
  | none => ({ v with id := 1 }, s)
  | some head => (v.follow head, s)

/-! ## Readers -/

/-- With the lock held, moves the bulk of a large acquisition count to the newest version. -/
def transfer (b : Bucket κ ν) (s : Shared κ ν) : Bucket κ ν × Shared κ ν :=
  if b.reference.count < rebalanceAt then (b, s) else
    match b.chain with
    | [] => (b, s)
    | head :: older =>
      let head := { head with internal := head.internal + rebalanceBy.toInt32 }
      ({ b with word := b.word - rebalanceBy.toUInt64, chain := head :: older },
        s.note (.rebalanced b.reference.id b.reference.count))

/-- Takes the free lock, moves the bulk of a large acquisition count, and unlocks. -/
def rebalance (b : Bucket κ ν) (s : Shared κ ν) : Bucket κ ν × Shared κ ν :=
  let (b, s) := b.lock.transfer s
  b.unlock s

/-- How an acquisition ends. -/
inductive Acquisition
  /-- There is nothing to acquire. -/
  | absent
  /-- A publication has been acquired. -/
  | held (n : Nat)
  /-- The reader has to rebalance, and so waits for whoever holds the lock. -/
  | waits
deriving DecidableEq

/--
Claims the version that the reference word names.

The word is incremented before anyone can know whether the version is there; a word that
names no version of the chain, or none at all, gives nothing to hold. A reader that would
have to wait is taken not to have begun: what is given back is the bucket as it was, without
the increment that comes before the wait.
-/
def acquire (b : Bucket κ ν) (s : Shared κ ν) : Acquisition × Bucket κ ν × Shared κ ν :=
  if b.chain.isEmpty then (.absent, b, s) else
    let claimed := { b with word := b.word + 1 }
    let claim := claimed.reference
    if claim.id = 0 then (.absent, claimed, s) else
      match b.chain.findIdx? (·.id == claim.id) with
      | none => (.absent, claimed, s)
      | some depth =>
        if claim.count ≠ rebalanceAt then (.held (b.published - depth), claimed, s)
        else if b.locked then (.waits, b, s)
        else (.held (b.published - depth), claimed.rebalance s)

/-- Changes the own count of a publication. -/
def modifyInternal (b : Bucket κ ν) (n : Nat) (f : Int32 → Int32) : Bucket κ ν :=
  { b with chain := b.chain.modify (b.published - n) fun v => { v with internal := f v.internal } }

/-- Lets go of a publication; the last to do so has the chain reclaimed. -/
def release (b : Bucket κ ν) (n : Nat) (s : Shared κ ν) : Bucket κ ν × Shared κ ν :=
  match b.version? n with
  | none => (b, s)
  | some v =>
    let b := b.modifyInternal n (· - 1)
    if v.internal = 1 then servePending { b with pending := true } s else (b, s)

end Bucket

end VersionedMap
