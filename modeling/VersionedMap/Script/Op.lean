import VersionedMap.Key
import VersionedMap.Map.Basic
import VersionedMap.Refusal

/-!
# Scripts

A script is a list of operations to be carried out on one map. Operations nest: a read
or a scan carries the operations that its callback is to run on the same map, threads
carry an operation list each, and a view of the map carries operations on the view, among
them operations on the map below it.

An operation that could not be read, or stands where it may not, keeps its place in the
script, with the reason.
-/

namespace VersionedMap

/-- What a query asks for. -/
inductive Target (κ : Type)
  /-- One key. -/
  | key (k : κ)
  /-- Any key with the same folded form. -/
  | folded (k : κ)

/-- The lookup for a target, given the hash function. -/
def Target.lookup {κ : Type} [DecidableEq κ] [Key κ] (hash : κ → UInt64) :
    Target κ → Lookup κ
  | .key k => ⟨hash k, (k = ·)⟩
  | .folded k => ⟨hash (Key.fold k), (Key.fold k = Key.fold ·)⟩

/-- What is done to each key of a bulk operation. -/
inductive BulkVerb
  | set
  | swap
  | setAbsent
  | getOrSet
  | delete
  | get
deriving DecidableEq

mutual

/-- An operation on a map. -/
inductive Op (κ ν : Type)
  | set (k : κ) (v : ν)
  | swap (k : κ) (v : ν)
  | setAbsent (k : κ) (v : ν)
  | getOrSet (k : κ) (v : ν)
  | delete (t : Target κ)
  | get (t : Target κ)
  | contains (t : Target κ)
  | len
  | isEmpty
  | clear
  | capacity
  | shardCount
  /-- Reads an entry; the callback runs operations. -/
  | read (t : Target κ) (inside : List (Op κ ν))
  /--
  Scans the map, to the end or until `stop` entries have been seen. The callback runs, on
  its visit number `i` from `0`, all operations listed under `i`.
  -/
  | range (stop : Option Nat) (inside : List (Nat × List (Op κ ν)))
  /-- Lists the entries, on lines of their own if `long` is set. -/
  | debug (long : Bool)
  /-- Does one thing to many keys, given with the values to set or to expect. -/
  | bulk (verb : BulkVerb) (pairs : List (κ × ν))
  /-- Runs several lists of operations on keys of their own. -/
  | threads (lists : List (List (Op κ ν)))
  /--
  Locks the map and runs operations on the view. Of the mutations of the map that are
  started meanwhile, `pending` may wait at a time.
  -/
  | locked (pending : Nat) (ops : List (ViewOp κ ν))
  /-- An operation refused as it stands; `mutation` tells whether it was to be one. -/
  | refused (mutation : Bool) (why : Refusal)

/-- An operation on a view of a map. -/
inductive ViewOp (κ ν : Type)
  | len
  | isEmpty
  | contains (t : Target κ)
  | get (t : Target κ)
  | read (t : Target κ)
  | range (stop : Option Nat)
  | debug (long : Bool)
  | clear
  | free
  /-- An operation on the map itself. -/
  | map (op : Op κ ν)
  /-- An operation refused as it stands. -/
  | refused (why : Refusal)

end

/-- Whether an operation is a mutation, which has to wait while there is a view of the map. -/
def Op.mutates {κ ν : Type} : Op κ ν → Bool
  | set .. | swap .. | setAbsent .. | getOrSet .. | delete .. | clear | threads .. | locked .. =>
    true
  | bulk verb _ => verb != .get
  | refused mutation _ => mutation
  | get .. | contains .. | len | isEmpty | capacity | shardCount | read .. | range .. | debug .. =>
    false

/-- An entry of a script. -/
inductive Script.Command (κ ν : Type)
  /-- Carries out an operation. -/
  | carryOut (op : Op κ ν)
  /-- Sets pairs in order, for which the script must have the map to itself. -/
  | extend (pairs : List (κ × ν))

/-- So many numbers from `start` on, a `step` apart, with values that count from `base`. -/
def numberSeries (n : Nat) (start step : UInt64) (base : Int64) : List (UInt64 × Int64) :=
  (List.range n).map fun i => (start + i.toUInt64 * step, base + i.toInt64)

/-- So many texts, a stem and multiples of `step`, with values that count from `base`. -/
def textSeries (n : Nat) (stem : String) (step : UInt64) (base : Int64) :
    List (String × String) :=
  (List.range n).map fun i =>
    (stem ++ toString (i.toUInt64 * step).toNat, toString (base + i.toInt64).toInt)

end VersionedMap
