import VersionedMap.Proofs.Operations

/-!
# The locks of a map

A map has a lock for every bucket of its current tables, and for every shard a resize lock that a
view of the map shares. In a map that is fit all of them are held, or none. Who takes a view takes
them one after another, and each is free when its turn comes; who ends the view releases them one
after another, and each is held when its turn comes. So none is taken twice and none released twice.
-/

namespace VersionedMap

variable {κ ν α β σ : Type}

/-! ## One after another -/

/-- Releases a lock that is held. -/
def Bucket.giveLock? (b : Bucket κ ν) (s : Shared κ ν) : Option (Bucket κ ν × Shared κ ν) :=
  if b.locked then some (b.unlock s) else none

/-- Maps a list from left to right while carrying a state, if every step goes. -/
def sweepList? (f : α → σ → Option (β × σ)) : List α → σ → Option (List β × σ)
  | [], s => some ([], s)
  | x :: xs, s => do
    let (y, s) ← f x s
    let (ys, s) ← sweepList? f xs s
    return (y :: ys, s)

theorem sweepList?_eq {f : α → σ → Option (β × σ)} {g : α → σ → β × σ} {l : List α}
    (h : ∀ x ∈ l, ∀ s, f x s = some (g x s)) (s : σ) :
    sweepList? f l s = some (sweepList g l s) := by
  induction l generalizing s with
  | nil => rfl
  | cons x l ih =>
    obtain ⟨hx, hl⟩ := List.forall_mem_cons.mp h
    unfold sweepList?
    rw [hx]
    show (sweepList? f l (g x s).2).bind _ = _
    rw [ih hl]
    rfl

theorem sweepList_append (f : α → σ → β × σ) (l l' : List α) (s : σ) :
    sweepList f (l ++ l') s =
      ((sweepList f l s).1 ++ (sweepList f l' (sweepList f l s).2).1,
        (sweepList f l' (sweepList f l s).2).2) := by
  induction l generalizing s with
  | nil => rfl
  | cons x l ih =>
    rw [List.cons_append]
    simp only [sweepList, ih, List.cons_append]

namespace Map

/-- The buckets of the current tables, in the order in which a view takes their locks. -/
def buckets (m : Map κ ν) : List (Bucket κ ν) := m.shards.toList.flatMap (·.table.buckets.toList)

/-- All locks of a map are held, for the one view of it, or none is. -/
structure Locks (held : Bool) (m : Map κ ν) : Prop where
  buckets : ∀ b ∈ m.buckets, b.locked = held
  resize : ∀ d ∈ m.shards, d.sharers = if held then 1 else 0
  aside : ∀ d ∈ m.shards, ∀ t ∈ d.aside, ∀ b ∈ t.buckets, b.locked = false

variable {m : Map κ ν}

theorem Fit.shard {held : Bool} (h : m.Fit held) {d : Shard κ ν} (hd : d ∈ m.shards) :
    ∃ place, d.Fit held place := by
  obtain ⟨i, hi, rfl⟩ := Array.mem_iff_getElem.mp hd
  exact ⟨_, shardAt_eq hi ▸ h.shards i hi⟩

theorem Fit.locks {held : Bool} (h : m.Fit held) : m.Locks held where
  buckets b hb := by
    obtain ⟨d, hd, hb⟩ := List.mem_flatMap.mp hb
    obtain ⟨_, hfit⟩ := h.shard (Array.mem_toList_iff.mp hd)
    exact (hfit.table.steady b (Array.mem_toList_iff.mp hb)).locked_eq
  resize d hd := (h.shard hd).elim fun _ hfit => hfit.sharers_eq
  aside d hd t ht b hb := by
    obtain ⟨_, hfit⟩ := h.shard hd
    exact ((hfit.aside t ht).steady b hb).locked_eq

/-- Ending a view releases the locks one after another, each of them held. -/
theorem Fit.unlock_each (h : m.Fit true) :
    sweepList? Bucket.giveLock? m.buckets m.shared = some (m.unlock.buckets, m.unlock.shared) := by
  have hgive : ∀ b ∈ m.buckets, ∀ s, b.giveLock? s = some (b.unlock s) :=
    fun b hb s => if_pos (h.locks.buckets b hb)
  rw [sweepList?_eq hgive]
  unfold buckets Map.unlock
  dsimp only
  rw [sweep_eq]
  refine congrArg some ?_
  dsimp only
  generalize m.shared = s
  -- on the shards: what is left of one comes before what is left of the next
  induction m.shards.toList generalizing s with
  | nil => rfl
  | cons d l ih =>
    rw [List.flatMap_cons, sweepList_append, ih]
    unfold Table.unlock
    simp only [sweepList, List.flatMap_cons, sweep_eq]

end Map

end VersionedMap
