import VersionedMap.Bucket.Write
import VersionedMap.Numbered
import VersionedMap.Refusal

/-!
# A bucket on its own

A session with one bucket and a pool. It holds any number of readers, which go by numbers
of its choosing, and at most once the lock: either bare, or as a writer that may have a
draft in hand. A command that would have to wait for the lock is refused, since nobody
else could release it. A refusal that lies in what the session holds counts before an
argument that cannot be read. A command that acquires asks for nothing that must be there,
and is read in full first.
-/

namespace VersionedMap.Bucket

variable {κ ν : Type}

/-- Who has the lock of a bucket. -/
inductive Holder (κ ν : Type)
  /-- The lock is free. -/
  | nobody
  /-- The lock is held for its own sake. -/
  | bare
  /-- A writer holds it, perhaps with a draft. -/
  | writer (draft : Option (Version κ ν))

/-- What can be done with a bucket. -/
inductive Command (κ ν : Type)
  /-- Locks, replaces the item that answers the query, unlocks. -/
  | replace (change : Argument (Query κ × Item κ ν))
  /-- Locks, adds an item, unlocks. -/
  | add (i : Argument (Item κ ν))
  /-- Locks, removes the item that answers the query, unlocks. -/
  | remove (q : Argument (Query κ))
  /-- Locks, removes all items, unlocks. -/
  | wipe
  /-- Locks as a writer. -/
  | lock
  /-- Locks bare. -/
  | lockBare
  /-- Releases either kind of lock. A draft in hand is let go. -/
  | unlock
  /-- Makes the bare lock a writer. -/
  | adopt
  /-- Makes the writer a bare lock. A draft in hand is let go. -/
  | keep
  /-- Asks for the current items under the lock. -/
  | inspect
  | draftCopy
  | draftEmpty
  | draftWithout (q : Argument (Query κ))
  /-- Adds an item to the draft. -/
  | push (i : Argument (Item κ ν))
  | publish
  /-- Gives the draft back to the pool. -/
  | discard
  /-- Makes the items the first version of a fresh bucket. -/
  | install (items : Argument (List (Item κ ν)))
  | acquire (r : Nat)
  | release (r : Nat)
  /-- Asks for the items that a reader holds. -/
  | itemsOf (r : Nat)
  /-- Asks for an item among those that a reader holds. -/
  | search (r : Nat) (q : Argument (Query κ))
  /-- Acquires, searches, releases. -/
  | get (q : Query κ)
  /-- Acquires with another reference word in place, then puts the word right and releases. -/
  | getWith (word : Reference)
  /-- Counts `n` reads that have come and gone. -/
  | shift (n : UInt32)
  | rebalance

/-- What a command answers. -/
inductive Reply (κ ν : Type)
  | nothing
  | item (i : Option (Item κ ν))
  | items (l : Option (List (Item κ ν)))
  | version (v : Option (Version κ ν))
  /-- The version acquired, and what was left in the reference word. -/
  | seen (v : Option (Version κ ν)) (left : Reference)
  | refused (r : Refusal)

/-- A bucket, its pool, and what is held of it. -/
structure Session (κ ν : Type) where
  bucket : Bucket κ ν := {}
  shared : Shared κ ν := {}
  holder : Holder κ ν := .nobody
  /-- The publications that readers hold. -/
  readers : Numbered Nat := .empty

namespace Session

/-- Whether the lock is held. -/
def isLocked (s : Session κ ν) : Bool :=
  match s.holder with
  | .nobody => false
  | .bare | .writer _ => true

/-- Runs a write under the lock, if the lock is free. -/
def write (s : Session κ ν)
    (f : Argument (Bucket κ ν → Shared κ ν → Reply κ ν × Bucket κ ν × Shared κ ν)) :
    Reply κ ν × Session κ ν :=
  if s.isLocked then (.refused .wouldBlock, s) else
    match f with
    | .error why => (.refused why, s)
    | .ok f =>
      let (reply, bucket, shared) := s.bucket.exclusively f s.shared
      (reply, { s with bucket, shared })

/-- Has a writer without a draft prepare one. -/
def prepare (s : Session κ ν)
    (f : Argument (Bucket κ ν → Shared κ ν → Reply κ ν × Version κ ν × Shared κ ν)) :
    Reply κ ν × Session κ ν :=
  match s.holder, f with
  | .nobody, _ | .bare, _ => (.refused .noWriter, s)
  | .writer (some _), _ => (.refused .prepared, s)
  | .writer none, .error why => (.refused why, s)
  | .writer none, .ok f =>
    let (reply, v, shared) := f s.bucket s.shared
    (reply, { s with holder := .writer (some v), shared })

/-- Has a writer do something with its draft. -/
def withDraft (s : Session κ ν) (f : Argument (Version κ ν → Reply κ ν × Session κ ν)) :
    Reply κ ν × Session κ ν :=
  match s.holder, f with
  | .nobody, _ | .bare, _ => (.refused .noWriter, s)
  | .writer none, _ => (.refused .notPrepared, s)
  | .writer (some _), .error why => (.refused why, s)
  | .writer (some v), .ok f => f v

/-- Does something with the publication that reader `r` holds. -/
def withReader (s : Session κ ν) (r : Nat) (f : Argument (Nat → Reply κ ν × Session κ ν)) :
    Reply κ ν × Session κ ν :=
  match s.readers.get? r, f with
  | none, _ => (.refused .noReader, s)
  | some _, .error why => (.refused why, s)
  | some n, .ok f => f n

/-- What is shared, once a draft that may be in hand has been let go. -/
def sharedWithoutDraft (s : Session κ ν) : Shared κ ν :=
  match s.holder with
  | .writer (some v) => s.shared.drop v
  | .writer none | .nobody | .bare => s.shared

/-- Releases the lock, if it is held. -/
def unlock (s : Session κ ν) : Session κ ν :=
  if s.isLocked then
    let (bucket, shared) := s.bucket.unlock s.sharedWithoutDraft
    { s with bucket, shared, holder := .nobody }
  else s

/-- Whether the next acquisition would carry into the identifier. -/
def wouldCarry (s : Session κ ν) : Bool :=
  !s.bucket.chain.isEmpty && s.bucket.reference.count + 1 == 0

/--
Whether the next acquisition would bring the count to where it has to be moved, while the
lock that this takes is held. The count alone decides, for a reader learns of the version
that its claim names no sooner than it has claimed it.
-/
def wouldBlock (s : Session κ ν) : Bool :=
  s.isLocked && !s.bucket.chain.isEmpty && s.bucket.reference.count + 1 == rebalanceAt

/-- Acquires the newest version and goes on with it, unless that is refused. -/
def acquiring (s : Session κ ν) (absent : Reply κ ν)
    (f : Nat → Session κ ν → Reply κ ν × Session κ ν) : Reply κ ν × Session κ ν :=
  if s.wouldCarry then (.refused .wouldCarry, s)
  else if s.wouldBlock then (.refused .wouldBlock, s)
  else
    match s.bucket.acquire s.shared with
    | (.waits, _, _) => (.refused .wouldBlock, s)
    | (.absent, bucket, shared) => (absent, { s with bucket, shared })
    | (.held n, bucket, shared) => f n { s with bucket, shared }

/-- Lets go of a publication. -/
def letGo (s : Session κ ν) (n : Nat) : Session κ ν :=
  let (bucket, shared) := s.bucket.release n s.shared
  { s with bucket, shared }

/--
Acquires with `word` in place of the reference word, as a reader would that races with a
publication. The true word is then put back, what was acquired is counted where the true
word's owner would find it, and the reader lets go.
-/
def getWith (s : Session κ ν) (word : Reference) : Reply κ ν × Session κ ν :=
  if word.count + 1 = rebalanceAt then (.refused .wouldBlock, s) else
    let truth := s.bucket.word
    let (outcome, bucket, shared) := { s.bucket with word := word.word }.acquire s.shared
    let left := bucket.reference
    let s := { s with bucket := { bucket with word := truth }, shared }
    match outcome with
    | .absent | .waits => (.seen none left, s)
    | .held n =>
      let v := s.bucket.version? n
      let bucket :=
        if v.map (·.id) = some s.bucket.reference.id then
          { s.bucket with word := s.bucket.word + 1 }
        else s.bucket.modifyInternal n (· + 1)
      (.seen v left, { s with bucket }.letGo n)

/-- Adds `n` to the acquisitions and takes it off the newest version's own count. -/
def shift (s : Session κ ν) (n : UInt32) : Session κ ν :=
  match s.bucket.chain with
  | [] => s
  | head :: older =>
    let r := s.bucket.reference
    { s with bucket := { s.bucket with
        word := Reference.word { r with count := r.count + n }
        chain := { head with internal := head.internal - n.toInt32 } :: older } }

/-- Carries out a command. -/
def step (s : Session κ ν) : Command κ ν → Reply κ ν × Session κ ν
  | .replace change => s.write <| change.map fun (q, i) b sh =>
    let (omitted, b, sh) := b.replace q i sh
    (.item omitted, b, sh)
  | .add i => s.write <| i.map fun i b sh => (.nothing, b.add i sh)
  | .remove q => s.write <| q.map fun q b sh =>
    let (omitted, b, sh) := b.remove q sh
    (.item omitted, b, sh)
  | .wipe => s.write <| .ok fun b sh => (.nothing, b.wipe sh)
  | .lock =>
    if s.isLocked then (.refused .wouldBlock, s)
    else (.nothing, { s with bucket := s.bucket.lock, holder := .writer none })
  | .lockBare =>
    if s.isLocked then (.refused .wouldBlock, s)
    else (.nothing, { s with bucket := s.bucket.lock, holder := .bare })
  | .unlock => if s.isLocked then (.nothing, s.unlock) else (.refused .notLocked, s)
  | .adopt =>
    match s.holder with
    | .bare => (.nothing, { s with holder := .writer none })
    | .nobody | .writer _ => (.refused .notExclusive, s)
  | .keep =>
    match s.holder with
    | .writer _ => (.nothing, { s with shared := s.sharedWithoutDraft, holder := .bare })
    | .nobody | .bare => (.refused .noWriter, s)
  | .inspect =>
    if s.isLocked then (.items (s.bucket.newest?.map (·.items)), s) else (.refused .notLocked, s)
  | .draftCopy => s.prepare <| .ok fun b sh => (.nothing, b.draftCopy sh)
  | .draftEmpty => s.prepare <| .ok fun b sh => (.nothing, b.draftEmpty sh)
  | .draftWithout q => s.prepare <| q.map fun q b sh =>
    let (omitted, v, sh) := b.draftWithout q sh
    (.item omitted, v, sh)
  | .push i => s.withDraft <| i.map fun i v =>
    (.version (some (v.push i)), { s with holder := .writer (some (v.push i)) })
  | .publish => s.withDraft <| .ok fun v =>
    let (bucket, shared) := s.bucket.publish v s.shared
    (.nothing, { s with bucket, shared, holder := .writer none })
  | .discard => s.withDraft <| .ok fun v =>
    (.nothing, { s with shared := s.shared.putAll [v], holder := .writer none })
  | .install items =>
    if s.isLocked || !s.bucket.chain.isEmpty then (.refused .notFresh, s) else
      match items with
      | .error why => (.refused why, s)
      | .ok items =>
        let (bucket, shared) := s.bucket.installItems items s.shared
        (.nothing, { s with bucket, shared })
  | .acquire r =>
    match s.readers.get? r with
    | some _ => (.refused .inUse, s)
    | none => s.acquiring (.version none) fun n s =>
      (.version (s.bucket.version? n), { s with readers := s.readers.set r n })
  | .release r => s.withReader r <| .ok fun n =>
    (.nothing, { s with readers := s.readers.erase r }.letGo n)
  | .itemsOf r => s.withReader r <| .ok fun n => (.version (s.bucket.version? n), s)
  | .search r q => s.withReader r <| q.map fun q n => (.item (s.bucket.findAt n q), s)
  | .get q => s.acquiring (.item none) fun n s =>
    (.item (s.bucket.findAt n q), s.letGo n)
  | .getWith word => s.getWith word
  | .shift n => (.nothing, s.shift n)
  | .rebalance =>
    if s.isLocked then (.refused .wouldBlock, s) else
      let (bucket, shared) := s.bucket.rebalance s.shared
      (.nothing, { s with bucket, shared })

/-- Releases the lock and then the readers, by ascending number. -/
def close (s : Session κ ν) : Session κ ν :=
  let s := s.unlock
  s.readers.toList.foldl (fun s r => s.letGo r.2) { s with readers := .empty }

end Session

end VersionedMap.Bucket
