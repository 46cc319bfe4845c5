import VersionedMap.Refusal
import VersionedMap.Version

/-!
# Versions on their own

A session with versions that belong to no bucket: they are created, filled, emptied and
made successors of one another at will. Versions are numbered in the order of their
creation, and a version's number is its stamp. That a version is missing counts before an
argument that cannot be read.
-/

namespace VersionedMap.Version

variable {κ ν : Type}

/-- What can be done with versions on their own. -/
inductive Command (κ ν : Type)
  /-- Creates an empty version. -/
  | create
  /-- Asks for the identifier after `id`. -/
  | nextId (id : UInt32)
  /-- Asks for the first item that answers a query. -/
  | search (e : Nat) (q : Argument (Query κ))
  | push (e : Nat) (i : Argument (Item κ ν))
  | setId (e : Nat) (id : Argument UInt32)
  | reset (e : Nat)
  | inspect (e : Nat)
  | follow (e : Nat) (head : Argument Nat)
  | followCopy (e : Nat) (head : Argument Nat)
  | followWithout (e : Nat) (head : Argument Nat) (q : Argument (Query κ))

/-- What a command answers. -/
inductive Reply (κ ν : Type)
  | number (n : Nat)
  | item (i : Option (Item κ ν))
  /-- A version after the command, and the item it was made without. -/
  | version (omitted : Option (Item κ ν)) (v : Version κ ν)
  | refused (r : Refusal)

/-- The versions created so far; each is found at its stamp. -/
structure Session (κ ν : Type) where
  versions : Array (Version κ ν) := #[]

namespace Session

/-- Changes version `e`, and answers with what became of it. -/
def change (s : Session κ ν) (e : Nat)
    (f : Argument (Version κ ν → Option (Item κ ν) × Version κ ν)) : Reply κ ν × Session κ ν :=
  match s.versions[e]?, f with
  | none, _ => (.refused .noEntry, s)
  | some _, .error why => (.refused why, s)
  | some v, .ok f =>
    let (omitted, v) := f v
    (.version omitted v, { s with versions := s.versions.setIfInBounds e v })

/-- Changes version `e` with the help of another one. -/
def changeBy (s : Session κ ν) (e : Nat) (head : Argument Nat)
    (f : Argument (Version κ ν → Version κ ν → Option (Item κ ν) × Version κ ν)) :
    Reply κ ν × Session κ ν :=
  match s.versions[e]?, head with
  | none, _ => (.refused .noEntry, s)
  | some _, .error why => (.refused why, s)
  | some _, .ok head =>
    match s.versions[head]? with
    | none => (.refused .noEntry, s)
    | some h => if e = head then (.refused .noEntry, s) else s.change e (f.map fun f => (f · h))

/-- Carries out a command. -/
def step (s : Session κ ν) : Command κ ν → Reply κ ν × Session κ ν
  | .create =>
    (.number s.versions.size, { s with versions := s.versions.push { stamp := s.versions.size } })
  | .nextId id => (.number (VersionedMap.nextId id).toNat, s)
  | .search e q =>
    match s.versions[e]?, q with
    | none, _ => (.refused .noEntry, s)
    | some _, .error why => (.refused why, s)
    | some v, .ok q => (.item (v.find? q), s)
  | .push e i => s.change e <| i.map fun i v => (none, v.push i)
  | .setId e id => s.change e <| id.map fun id v => (none, { v with id })
  | .reset e => s.change e <| .ok fun v => (none, v.reset)
  | .inspect e => s.change e <| .ok fun v => (none, v)
  | .follow e head => s.changeBy e head <| .ok fun v h => (none, v.follow h)
  | .followCopy e head => s.changeBy e head <| .ok fun v h => (none, v.followCopy h)
  | .followWithout e head q => s.changeBy e head <| q.map fun q v h => v.followWithout h q

end Session

end VersionedMap.Version
