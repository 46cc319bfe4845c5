import VersionedMap.Refusal

/-!
# Answers

What the operations of a script answer, and how much of it may be told. The order of a
scan and the number of buckets depend on the hash function and on the number of shards.
Where one of these is not known, an answer tells only what does not depend on it.
-/

namespace VersionedMap

/-- The entries that a scan has seen, or their number where it is all that may be told. -/
inductive Seen (κ ν : Type)
  | entries (l : List (κ × ν))
  | number (n : Nat)

/-- What an operation answers. -/
inductive Answer (κ ν : Type)
  | nothing
  | flag (b : Bool)
  | number (n : Nat)
  | value (v : Option ν)
  /-- A value, and whether it was there before. -/
  | found (v : ν) (existed : Bool)
  | entry (e : Option (κ × ν))
  | text (s : String)
  /-- Whether a capacity suffices. -/
  | enough (b : Bool)
  /-- The entry read, before and after the operations of the callback, and their answers. -/
  | reading (before : κ × ν) (steps : List (Answer κ ν)) (after : κ × ν)
  /-- Whether a scan went through, what it saw, and what its callback's operations answered. -/
  | scan (done : Bool) (seen : Seen κ ν) (steps : List (Nat × List (Answer κ ν)))
  /-- Whether the scan of a view went through, and what it saw. -/
  | viewScan (done : Bool) (seen : Seen κ ν)
  /-- The answers of every thread. -/
  | threads (lists : List (List (Answer κ ν)))
  /-- The answers of a view, and those of the mutations that its end let through, if any. -/
  | locked (steps : List (Answer κ ν)) (drop : Option (List (Answer κ ν)))
  /-- The answers of mutations that had been waiting. -/
  | unblocked (answers : List (Answer κ ν))
  /-- A mutation waits. -/
  | blocked
  /-- A mutation did not have to wait. -/
  | finished
  /-- An answer with the number of items and, where it may be told, of buckets after it. -/
  | step (answer : Answer κ ν) (len : Nat) (capacity : Option Nat)
  | refused (why : Refusal)

/-- What may be told about a map. -/
structure Disclosure where
  /-- Whether the order of a scan may be told. -/
  ordered : Bool := true
  /-- Whether the numbers of buckets and of shards may be told. -/
  shape : Bool := true
  /-- The capacity that is wanted of the map. -/
  wanted : Nat := 0

namespace Disclosure

variable {κ ν : Type} [Ord κ] [Ord ν]

/-- Whether an entry comes before another, or is the same: by key, then by value. -/
def leEntry (a b : κ × ν) : Bool := ((compare a.1 b.1).then (compare a.2 b.2)).isLE

/--
What may be told of the entries that a scan has seen. Where the order is not known, a scan
that may have been stopped can have seen any entries, and tells only how many.
-/
def seen (d : Disclosure) (stop : Option Nat) (l : List (κ × ν)) : Seen κ ν :=
  if d.ordered then .entries l
  else if stop.isSome then .number l.length
  else .entries (l.mergeSort leEntry)

/-- What may be told of the number of buckets after an operation. -/
def capacity? (d : Disclosure) (n : Nat) : Option Nat := if d.shape then some n else none

/-- What may be told when the number of buckets is asked for. -/
def capacity (d : Disclosure) (n : Nat) : Answer κ ν :=
  if d.shape then .number n else .enough (d.wanted ≤ n)

/-- What may be told when the number of shards is asked for. -/
def shardCount (d : Disclosure) : Option Nat → Answer κ ν
  | none => .nothing
  | some n => if d.shape then .number n else .flag (n == n.nextPowerOfTwo)

end Disclosure

end VersionedMap
