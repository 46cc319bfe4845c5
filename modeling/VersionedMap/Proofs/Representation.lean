import VersionedMap.Proofs.Reach

/-!
# How a map represents its items

At every moment, whatever is going on, the items of a map stand in the buckets that the hashes of
their keys lead to, no key twice, in tables of at least the least size that double when they grow;
and the count of every table, kept apart from the buckets, is the number of its items. So what is
taken off a count is never more than there is, be it one item or all of them, and growth, which
counts anew, comes to the same count.
-/

namespace VersionedMap.Map

variable {κ ν : Type}

/-- The items of a map as they are laid out and counted. -/
structure Represented (m : Map κ ν) : Prop where
  /-- An item stores the hash that its shard knows its key by, and stands in the bucket of it. -/
  placed : ∀ i < m.shards.size, ∀ (j : Nat) (b : Bucket κ ν),
    (m.shardAt i).table.buckets[j]? = some b → ∀ x ∈ b.items,
      splitHash (foldHash (m.hash x.key)) m.shards.size = ⟨i, x.hash⟩ ∧
        j = x.hash.toNat &&& ((m.shardAt i).table.size - 1)
  distinct : (m.items.map (·.key)).Nodup
  sized : ∀ i < m.shards.size,
    (∃ e, (m.shardAt i).table.size = 2 ^ e) ∧ 16 ≤ (m.shardAt i).table.size
  /-- A count is a word, and tells the number of items as far as a word can. -/
  counted : ∀ i < m.shards.size,
    (m.shardAt i).table.count.toNat = (m.shardAt i).table.items.length % 2 ^ 64

theorem Fit.represented {held : Bool} {m : Map κ ν} (h : m.Fit held) : m.Represented where
  placed i hi j b hb x hx := by
    have hshelf : (m.shardAt i).table.shelves[j]? = some b.items := by
      rw [Table.getElem?_shelves, hb]
      rfl
    obtain ⟨hplace, hslot⟩ := (h.shards i hi).table.shelved.placed j _ hshelf x hx
    have hshard := shard_of_placeIn hplace
    rw [← hshard, placeIn_route] at hplace
    refine ⟨?_, ?_⟩
    · rw [← h.route_eq_splitHash, ← hshard, ← Option.some.inj hplace]
    · rw [← hslot, Table.length_shelves]
      rfl
  distinct := h.nodup
  sized i hi := by
    have htable := (h.shards i hi).table
    exact ⟨Table.length_shelves (m.shardAt i).table ▸ htable.shelved.size, htable.least⟩
  counted i hi := by
    rw [(h.shards i hi).table.accounted]
    exact UInt64.toNat_ofNat'

/-- A bucket in which a removal finds something is in a table with something to count. -/
theorem length_items_pos_of_removed {t : Table κ ν} {b : Bucket κ ν} (hb : b ∈ t.buckets)
    {q : Query κ} {s : Shared κ ν}
    (h : (Mutation.delete q b.lock s).1.2 = .removed) : 0 < t.items.length := by
  unfold Mutation.delete at h
  rw [Bucket.find?_eq, Bucket.items_lock] at h
  cases hfind : b.items.find? q.selects with
  | none =>
    rw [hfind] at h
    exact absurd h (by simp)
  | some x =>
    obtain ⟨j, hj⟩ := Array.mem_iff_getElem?.mp hb
    refine List.length_pos_of_mem (a := x) ?_
    rw [Table.items_eq_flatten, mem_flatten_iff]
    refine ⟨j, _, ?_, List.mem_of_find?_eq_some hfind⟩
    rw [Table.getElem?_shelves, hj]
    rfl

variable [DecidableEq κ]

/--
**The representation of a map holds at every moment.** In every map that guests can bring about,
with a view of it or without, from inside any callback, the items are laid out and counted as
they should be. As long as a word can tell how many items a table has, a removal that finds an item
finds a count of at least one, the number of items that a view takes off when it wipes the table
is the count itself, and growth counts as many as were counted before.
-/
theorem representation_invariant {v : View} {m : Map κ ν} (h : Reachable v m) :
    m.Represented ∧ ∀ i < m.shards.size, (m.shardAt i).table.items.length < 2 ^ 64 →
      (∀ (q : Query κ) (s : Shared κ ν), (Mutation.delete q
          (m.shardAt i).table.buckets[(m.shardAt i).table.index q.hash].lock s).1.2 = .removed →
        1 ≤ (m.shardAt i).table.count.toNat) ∧
      (m.shardAt i).table.buckets.foldl (fun n b => n + b.items.length) 0
        = (m.shardAt i).table.count.toNat ∧
      (v.freed = false → ((m.shardAt i).table.wipe m.shared).1.count = 0) ∧
      (v.freed = true →
        ((m.shardAt i).table.grow m.shared).1.count = (m.shardAt i).table.count) := by
  have hfit := h.fit
  refine ⟨hfit.represented, fun i hi hlen => ?_⟩
  have hcount := toNat_count (hfit.shards i hi).table.accounted hlen
  refine ⟨fun q s hremoved => ?_, ?_, fun hv => ?_, fun hv => ?_⟩
  · rw [hcount]
    exact length_items_pos_of_removed (Array.getElem_mem _) hremoved
  · rw [Table.sum_items, hcount]
  · rw [hv] at hfit
    exact ((hfit.shards i hi).table.wipe hfit.clean).2.2.1
  · rw [hv] at hfit
    exact ((hfit.shards i hi).table.grow hfit.clean).2.2.1

/-- A scan of two keys in four shards; its callback sets another key, and takes a view to keep. -/
def keptViewScan : Stay Nat Nat Unit × Map Nat Nat :=
  let callback : Guest Nat Nat Unit := .act (.set 3 30) fun _ => .act .lock fun _ => .stop ()
  let scan : Guest Nat Nat Unit := .range () (fun _ _ => callback) (fun _ => true) fun _ _ =>
    .stop ()
  scan.run { freed := true }
    ((new .sharded (fun k : Nat => k.toUInt64) 3 0).extend [(1, 10), (2, 20)])

/-- The map of a view that a callback has taken, with an item in the second shard to wipe. -/
theorem representation_invariant_kept_view :
    Reachable keptViewScan.1.view keptViewScan.2 ∧ keptViewScan.1.view.freed = false ∧
      keptViewScan.2.items.map (·.entry) = [(1, 10), (2, 20), (3, 30)] ∧
      keptViewScan.2.Represented ∧ (keptViewScan.2.shardAt 1).table.count.toNat = 1 ∧
      ((keptViewScan.2.shardAt 1).table.wipe keptViewScan.2.shared).1.count = 0 := by
  have hreach : Reachable keptViewScan.1.view keptViewScan.2 :=
    ((Reachable.new _ _ _ _).extend _).run _
  have hlength : (keptViewScan.2.shardAt 1).table.items.length = 1 := by decide +kernel
  have hfreed : keptViewScan.1.view.freed = false := by decide +kernel
  obtain ⟨hrepresented, hshards⟩ := representation_invariant hreach
  obtain ⟨_, hsum, hwipe, _⟩ := hshards 1 (by decide +kernel) (by rw [hlength]; decide)
  refine ⟨hreach, hfreed, by decide +kernel, hrepresented, ?_, hwipe hfreed⟩
  rw [← hsum, Table.sum_items, hlength]

end VersionedMap.Map
