import VersionedMap.Numbered
import VersionedMap.Pool
import VersionedMap.Refusal

/-!
# A pool on its own

A session that takes versions out of a pool, changes them while it holds them, and gives
them back. The versions held go by numbers that the session chooses. That nothing is held under
a number counts before an argument that cannot be read.
-/

namespace VersionedMap.Pool

variable {κ ν : Type}

/-- What can be done with a pool and the versions taken from it. -/
inductive Command (κ ν : Type)
  /-- Takes a version and holds it under the number `e`. -/
  | take (e : Nat)
  | push (e : Nat) (i : Argument (Item κ ν))
  /-- Sets the identifier and the reader count of a version held. -/
  | mark (e : Nat) (marks : Argument (UInt32 × Int32))
  /-- Gives a version back. -/
  | put (e : Nat)

/-- What a command answers. -/
inductive Reply (κ ν : Type)
  | nothing
  | number (n : Nat)
  /-- The version taken. -/
  | version (v : Version κ ν)
  | refused (r : Refusal)

/-- A pool and the versions held out of it. -/
structure Session (κ ν : Type) where
  pool : Pool κ ν := {}
  held : Numbered (Version κ ν) := .empty

namespace Session

/-- Does something with the version held under `e`. -/
def withHeld (s : Session κ ν) (e : Nat)
    (f : Argument (Version κ ν → Reply κ ν × Session κ ν)) : Reply κ ν × Session κ ν :=
  match s.held.get? e, f with
  | none, _ => (.refused .noEntry, s)
  | some _, .error why => (.refused why, s)
  | some v, .ok f => f v

/-- Carries out a command. -/
def step (s : Session κ ν) : Command κ ν → Reply κ ν × Session κ ν
  | .take e =>
    match s.held.get? e with
    | some _ => (.refused .inUse, s)
    | none =>
      let (v, pool) := s.pool.take
      (.version v, { pool, held := s.held.set e v })
  | .push e i => s.withHeld e <| i.map fun i v =>
    (.number (v.push i).size, { s with held := s.held.set e (v.push i) })
  | .mark e marks => s.withHeld e <| marks.map fun (id, internal) v =>
    (.nothing, { s with held := s.held.set e { v with id, internal } })
  | .put e => s.withHeld e <| .ok fun v =>
    (.nothing, { pool := s.pool.put v, held := s.held.erase e })

end Session

end VersionedMap.Pool
