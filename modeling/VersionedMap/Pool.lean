import VersionedMap.Event
import VersionedMap.Version

/-!
# The pool

Retired versions are kept for further use. All buckets of a map share one pool, which
holds a bounded stack of idle versions: `take` pops one, or allocates if there is none,
and `put` empties a version and pushes it, or drops it if the stack is full.

The pool also numbers its allocations and counts the versions that have been let go, so
that every version it ever handed out can be accounted for.
-/

namespace VersionedMap

/-- The number of idle versions that a map keeps. -/
def Pool.defaultCapacity : Nat := 1024

/-- A stack of idle versions. -/
structure Pool (κ ν : Type) where
  /-- The idle versions; the last is used first. -/
  idle : Array (Version κ ν) := #[]
  /-- The most that are kept. -/
  capacity : Nat := Pool.defaultCapacity
  /-- How many versions have been allocated; also the stamp of the next one. -/
  allocated : Nat := 0
  /-- How many versions have been let go for good. -/
  dropped : Nat := 0

namespace Pool

variable {κ ν : Type}

/-- An empty version: the idle one used last, or a new one. -/
def take (p : Pool κ ν) : Version κ ν × Pool κ ν :=
  match p.idle.back? with
  | some v => (v, { p with idle := p.idle.pop })
  | none => ({ stamp := p.allocated }, { p with allocated := p.allocated + 1 })

/-- Lets a version go that is not to be used again. -/
def drop (p : Pool κ ν) (_ : Version κ ν) : Pool κ ν := { p with dropped := p.dropped + 1 }

/-- Takes a version back, emptied, if there is room for it. -/
def put (p : Pool κ ν) (v : Version κ ν) : Pool κ ν :=
  if p.idle.size < p.capacity then { p with idle := p.idle.push v.reset } else p.drop v

/-- Takes several versions back, in the order given. -/
def putAll (p : Pool κ ν) (l : List (Version κ ν)) : Pool κ ν := l.foldl put p

/-- Every idle version has been emptied. -/
def IsClean (p : Pool κ ν) : Prop := ∀ v ∈ p.idle, v.reset = v

/-- A pool into which nothing has been put is clean. -/
theorem isClean_new {capacity : Nat} : ({ capacity } : Pool κ ν).IsClean := by
  intro v hv
  simp at hv

theorem capacity_put (p : Pool κ ν) (v : Version κ ν) : (p.put v).capacity = p.capacity := by
  unfold put drop; split <;> rfl

theorem size_idle_put_le {p : Pool κ ν} (v : Version κ ν) (h : p.idle.size ≤ p.capacity) :
    (p.put v).idle.size ≤ (p.put v).capacity := by
  unfold put drop; split
  · simp only [Array.size_push]; omega
  · exact h

theorem IsClean.put {p : Pool κ ν} (h : p.IsClean) (v : Version κ ν) : (p.put v).IsClean := by
  unfold Pool.put drop
  split
  · intro w hw
    rcases Array.mem_push.mp hw with hw | rfl
    · exact h w hw
    · rfl
  · exact h

theorem IsClean.putAll {p : Pool κ ν} (h : p.IsClean) (l : List (Version κ ν)) :
    (p.putAll l).IsClean := by
  induction l generalizing p with
  | nil => exact h
  | cons v l ih => exact ih (h.put v)

theorem IsClean.reset_take {p : Pool κ ν} (h : p.IsClean) : p.take.1.reset = p.take.1 := by
  unfold Pool.take
  split
  · next v hv => exact h v (Array.mem_of_back? hv)
  · rfl

theorem IsClean.take {p : Pool κ ν} (h : p.IsClean) : p.take.2.IsClean := by
  unfold Pool.take
  split
  · intro w hw
    rw [← Array.mem_toList_iff, Array.toList_pop] at hw
    exact h w (Array.mem_toList_iff.mp (p.idle.toList.dropLast_subset hw))
  · exact h

/-- A version taken from a clean pool has no items. -/
theorem IsClean.items_take {p : Pool κ ν} (h : p.IsClean) : p.take.1.items = [] := by
  rw [← h.reset_take, Version.items_reset]

end Pool

/-- What the buckets of one map have in common. -/
structure Shared (κ ν : Type) where
  pool : Pool κ ν := {}
  /-- The events so far, the latest last. -/
  log : Array Event := #[]

namespace Shared

variable {κ ν : Type}

/-- Takes a version from the pool. -/
def take (s : Shared κ ν) : Version κ ν × Shared κ ν :=
  let (v, pool) := s.pool.take
  (v, { s with pool })

/-- Puts versions into the pool, in the order given. -/
def putAll (s : Shared κ ν) (l : List (Version κ ν)) : Shared κ ν :=
  { s with pool := s.pool.putAll l }

/-- Lets a version go that is not to be used again. -/
def drop (s : Shared κ ν) (v : Version κ ν) : Shared κ ν := { s with pool := s.pool.drop v }

/-- Reports an event. -/
def note (s : Shared κ ν) (e : Event) : Shared κ ν := { s with log := s.log.push e }

end Shared

end VersionedMap
