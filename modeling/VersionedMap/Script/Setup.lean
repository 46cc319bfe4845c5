import VersionedMap.Key
import VersionedMap.Map.Mutation
import VersionedMap.Script.Answer

/-!
# Setting up a map

How the map of a script is made: its kind, its hash function and what it is asked to be;
and what may be told about it. A hash function drawn at random makes the order of a scan
unknown, and so does a number of shards that has been left to the map. Of a map of shards
either of these hides the number of buckets too.
-/

namespace VersionedMap

/-- The number of shards where none is asked for. -/
def defaultShards : Nat := 4

/-- What a new map is asked to be. -/
inductive Construction (κ ν : Type)
  /-- Nothing in particular. -/
  | plain
  /-- Of at least so many buckets. -/
  | capacity (n : Nat)
  /-- Of at least so many shards. -/
  | shards (n : Nat)
  /-- With these entries, set in order. -/
  | entries (l : List (κ × ν))

/-- How the map of a script is made. -/
structure Setup (κ ν : Type) where
  layout : Layout
  /-- The hasher, unless it is drawn at random. -/
  hasher : Option Hasher
  construction : Construction κ ν
  /-- The capacity that is wanted, whether or not the map is told. -/
  wanted : Nat := 0

namespace Setup

variable {κ ν : Type}

/-- What may be told about the map. -/
def disclosure (s : Setup κ ν) : Disclosure :=
  let known := match s.layout, s.construction with
    | .single, _ | .sharded, .shards _ => true
    | .sharded, .plain | .sharded, .capacity _ | .sharded, .entries _ => false
  { ordered := s.hasher.isSome && known
    shape := s.layout = .single || (s.hasher.isSome && known)
    wanted := s.wanted }

variable [DecidableEq κ] [Key κ]

/-- The new map. Any hash function will do where one is drawn at random. -/
def map (s : Setup κ ν) : Map κ ν :=
  let hash := (s.hasher.getD .identity).ofKey
  match s.layout, s.construction with
  | .single, .plain | .single, .shards _ => .single hash 0
  | .single, .capacity n => .single hash n
  | .single, .entries l => (Map.single hash 0).extend l
  | .sharded, .plain => .sharded hash defaultShards 0
  | .sharded, .capacity n => .sharded hash defaultShards n
  | .sharded, .shards n => .sharded hash n 0
  | .sharded, .entries l => (Map.sharded hash defaultShards 0).extend l

end Setup

end VersionedMap
