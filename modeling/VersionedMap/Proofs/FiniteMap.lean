import Mathlib.Data.Finmap
import VersionedMap.Map.Mutation
import VersionedMap.Proofs.Doubling
import VersionedMap.Proofs.Visits

/-!
# A map stands for a finite map

Every key has one place: a shard, and there the shelf of one hash. A map is **sound** if its
items stand in their places, no key twice, and every count is right. A sound map **represents**
the finite map that gives each key the value of its item.

Mutations, growth and clearing keep a map sound and do to the finite map what they should;
reads, scans and counts say what the finite map says.
-/

namespace VersionedMap.Map

variable {κ ν α : Type}

/-! ## Places -/

/-- The hash by which a shard knows a key, if the key is one of the shard's own. -/
def placeIn (m : Map κ ν) (i : Nat) (k : κ) : Option UInt32 :=
  if (m.route (m.hash k)).shard = i then some (m.route (m.hash k)).hash else none

theorem placeIn_route (m : Map κ ν) (k : κ) :
    m.placeIn (m.route (m.hash k)).shard k = some (m.route (m.hash k)).hash := if_pos rfl

theorem shard_of_placeIn {m : Map κ ν} {i : Nat} {k : κ} {hash : UInt32}
    (h : m.placeIn i k = some hash) : (m.route (m.hash k)).shard = i := by
  unfold placeIn at h
  split at h
  · assumption
  · simp at h

theorem route_shard_lt {m : Map κ ν} (h : 0 < m.shards.size) (hash : UInt64) :
    (m.route hash).shard < m.shards.size := by
  unfold route
  cases m.layout with
  | single => exact h
  | sharded => exact splitHash_shard_lt _ h

theorem route_congr {m m' : Map κ ν} (hlayout : m'.layout = m.layout)
    (hsize : m'.shards.size = m.shards.size) (hash : UInt64) : m'.route hash = m.route hash := by
  unfold route
  rw [hlayout, hsize]

theorem placeIn_congr {m m' : Map κ ν} (hhash : m'.hash = m.hash) (hlayout : m'.layout = m.layout)
    (hsize : m'.shards.size = m.shards.size) (i : Nat) : m'.placeIn i = m.placeIn i := by
  funext k
  unfold placeIn
  rw [hhash, route_congr hlayout hsize]

/-! ## Sound maps -/

/-- Items in their places, no key twice, every count right, and nobody about. -/
structure Sound (m : Map κ ν) : Prop where
  quiet : m.Quiet
  shards_pos : 0 < m.shards.size
  shelved : ∀ i < m.shards.size, Shelved (m.placeIn i) (m.shardAt i).table.shelves
  accounted : ∀ i < m.shards.size, (m.shardAt i).table.Accounted

theorem mem_items {m : Map κ ν} {x : Item κ ν} :
    x ∈ m.items ↔ ∃ i < m.shards.size, x ∈ (m.shardAt i).table.items := by
  rw [items_eq_flatten, mem_flatten_iff]
  constructor
  · rintro ⟨i, l, hl, hx⟩
    rw [getElem?_holdings] at hl
    split at hl
    · rename_i hi
      exact ⟨i, hi, Option.some.inj hl ▸ hx⟩
    · simp at hl
  · rintro ⟨i, hi, hx⟩
    exact ⟨i, _, by rw [getElem?_holdings, if_pos hi], hx⟩

theorem Still.sound {m m' : Map κ ν} (hstill : m.Still m') (h : m.Sound) : m'.Sound where
  quiet := hstill.quiet
  shards_pos := hstill.size_eq ▸ h.shards_pos
  shelved i hi := by
    rw [hstill.shelves_eq,
      placeIn_congr hstill.hash_eq hstill.layout_eq hstill.size_eq]
    exact h.shelved i (hstill.size_eq ▸ hi)
  accounted i hi := by
    have haccounted := h.accounted i (hstill.size_eq ▸ hi)
    unfold Table.Accounted at haccounted ⊢
    rw [hstill.count_eq, haccounted, Table.items_eq_flatten, Table.items_eq_flatten,
      hstill.shelves_eq]

namespace Sound

variable {m : Map κ ν}

theorem shard_of_mem (h : m.Sound) {i : Nat} (hi : i < m.shards.size) {x : Item κ ν}
    (hx : x ∈ (m.shardAt i).table.items) : (m.route (m.hash x.key)).shard = i := by
  rw [Table.items_eq_flatten, mem_flatten_iff] at hx
  obtain ⟨j, l, hl, hx⟩ := hx
  exact shard_of_placeIn ((h.shelved i hi).placed j l hl x hx).1

theorem nodup (h : m.Sound) : (m.items.map (·.key)).Nodup := by
  rw [items_eq_flatten]
  -- a key names its shard
  refine nodup_keys_flatten (fun k => (m.route (m.hash k)).shard) fun i l hl => ?_
  rw [getElem?_holdings] at hl
  split at hl
  · rename_i hi
    obtain rfl := Option.some.inj hl
    exact ⟨(h.shelved i hi).nodup_flatten, fun x hx => h.shard_of_mem hi hx⟩
  · simp at hl

/-- What a map shows of a key is what the shard of the key shows. -/
theorem valueOf_shard [DecidableEq κ] (h : m.Sound) (k : κ) :
    valueOf (m.shardAt (m.route (m.hash k)).shard).table.items k = valueOf m.items k := by
  have hi := route_shard_lt h.shards_pos (m.hash k)
  refine valueOf_congr (h.shelved _ hi).nodup_flatten h.nodup fun x hx => ?_
  rw [mem_items]
  constructor
  · exact fun hmem => ⟨_, hi, hmem⟩
  · rintro ⟨i, hi', hmem⟩
    obtain rfl := h.shard_of_mem hi' hmem
    rwa [hx] at hmem

/-- A sound map with one shard replaced by another that is right in its place. -/
theorem modifyShard (h : m.Sound) {i : Nat}
    {f : Shard κ ν → Shared κ ν → α × Shard κ ν × Shared κ ν} {a : α} {d : Shard κ ν}
    {s : Shared κ ν} (hout : f (m.shardAt i) m.shared = (a, d, s)) (hquiet : d.Quiet)
    (hshelved : Shelved (m.placeIn i) d.table.shelves) (haccounted : d.table.Accounted)
    (hclean : s.pool.IsClean) :
    ∃ m', m.modifyShard i f = (a, m') ∧ m'.Sound ∧
      m'.holdings = m.holdings.set i d.table.items := by
  have hsize : (m.shards.setIfInBounds i d).size = m.shards.size := Array.size_setIfInBounds ..
  -- places go by the hash function, the layout and the number of shards
  have hplace (j : Nat) : ({ m with shards := m.shards.setIfInBounds i d, shared := s } :
      Map κ ν).placeIn j = m.placeIn j := by
    refine placeIn_congr ?_ ?_ hsize j <;> rfl
  refine ⟨{ m with shards := m.shards.setIfInBounds i d, shared := s },
    by rw [modifyShard_eq, hout],
    ⟨⟨fun d' hd' => ?_, hclean⟩, ?_, fun j hj => ?_, fun j hj => ?_⟩, ?_⟩
  · rcases Array.mem_or_eq_of_mem_setIfInBounds hd' with hd' | rfl
    · exact h.quiet.shards d' hd'
    · exact hquiet
  · rw [hsize]
    exact h.shards_pos
  · rw [shardAt_set, hplace]
    split
    · rename_i hij
      exact hij.1 ▸ hshelved
    · exact h.shelved j (hsize ▸ hj)
  · rw [shardAt_set]
    split
    · exact haccounted
    · exact h.accounted j (hsize ▸ hj)
  · unfold holdings
    rw [Array.toList_setIfInBounds, List.map_set]

end Sound

/-! ## The finite map -/

section Represents

variable [DecidableEq κ]

/-- A sound map gives each key the value that a finite map gives it. -/
structure Represents (m : Map κ ν) (F : Finmap fun _ : κ => ν) : Prop where
  sound : m.Sound
  lookup_eq : ∀ k, F.lookup k = valueOf m.items k

namespace Represents

variable {m : Map κ ν} {F : Finmap fun _ : κ => ν}

theorem still (h : m.Represents F) {m' : Map κ ν} (hstill : m.Still m') : m'.Represents F where
  sound := hstill.sound h.sound
  lookup_eq k := by rw [hstill.items_eq, h.lookup_eq]

theorem mem_entries (h : m.Represents F) (e : κ × ν) :
    e ∈ m.items.map Item.entry ↔ F.lookup e.1 = some e.2 := by
  rw [h.lookup_eq, mem_iff_valueOf h.sound.nodup, List.mem_map]
  constructor
  · rintro ⟨i, hi, rfl⟩
    exact ⟨i, hi, rfl, rfl⟩
  · rintro ⟨i, hi, hk, hv⟩
    exact ⟨i, hi, Prod.ext hk hv⟩

/-- A full scan sees exactly the pairs of the finite map, each once. -/
theorem scan (h : m.Represents F) :
    ∃ seen m', m.range collect #[] = (.done true, seen, m') ∧ seen.toList.Nodup ∧
      ∀ e, e ∈ seen ↔ F.lookup e.1 = some e.2 := by
  obtain ⟨m', _, hrange⟩ := range_collect h.sound.quiet
  refine ⟨_, m', hrange, ?_, fun e => ?_⟩
  -- no two entries have equal keys, so no two are equal
  · have hkeys : ((m.items.map Item.entry).map Prod.fst).Nodup := by
      rw [List.map_map]
      exact h.sound.nodup
    exact hkeys.of_map
  · rw [List.mem_toArray, h.mem_entries]

/-! ### Counting -/

theorem keys_eq (h : m.Represents F) : F.keys = (m.items.map (·.key)).toFinset := by
  ext k
  rw [Finmap.mem_keys, Finmap.mem_iff, List.mem_toFinset, List.mem_map]
  constructor
  · rintro ⟨v, hv⟩
    rw [h.lookup_eq, mem_iff_valueOf h.sound.nodup] at hv
    obtain ⟨i, hi, hk, _⟩ := hv
    exact ⟨i, hi, hk⟩
  · rintro ⟨i, hi, rfl⟩
    refine ⟨i.value, ?_⟩
    rw [h.lookup_eq, mem_iff_valueOf h.sound.nodup]
    exact ⟨i, hi, rfl, rfl⟩

theorem card_eq (h : m.Represents F) : F.keys.card = m.items.length := by
  rw [h.keys_eq, List.toFinset_card_of_nodup h.sound.nodup, List.length_map]

end Represents

end Represents

/-- The number of items of a table, as far as its count tells it. -/
theorem toNat_count {t : Table κ ν} (h : t.Accounted) (hlen : t.items.length < 2 ^ 64) :
    t.count.toNat = t.items.length := by
  rw [h]
  exact UInt64.toNat_ofNat_of_lt hlen

theorem len_eq_sum (m : Map κ ν) : m.len = (m.shards.toList.map (·.table.count.toNat)).sum := by
  unfold len
  rw [← Array.foldl_toList, foldl_add_eq, Nat.zero_add]

theorem length_items_le {m : Map κ ν} {d : Shard κ ν} (hd : d ∈ m.shards) :
    d.table.items.length ≤ m.items.length :=
  (List.sublist_flatten_of_mem
    (List.mem_map_of_mem (f := (·.table.items)) (Array.mem_toList_iff.mpr hd))).length_le

namespace Sound

variable {m : Map κ ν}

theorem accounted_mem (h : m.Sound) {d : Shard κ ν} (hd : d ∈ m.shards) : d.table.Accounted := by
  obtain ⟨i, hi, rfl⟩ := Array.mem_iff_getElem.mp hd
  have haccounted := h.accounted i hi
  unfold shardAt at haccounted
  rwa [Array.getD_eq_getD_getElem?, Array.getElem?_eq_getElem hi] at haccounted

/-- As long as a word can tell the number of items, `len` does. -/
theorem len_eq (h : m.Sound) (hlen : m.items.length < 2 ^ 64) : m.len = m.items.length := by
  have hcounts : m.shards.toList.map (·.table.count.toNat) = m.holdings.map List.length := by
    unfold holdings
    rw [List.map_map]
    refine List.map_congr_left fun d hd => ?_
    have hd := Array.mem_toList_iff.mp hd
    exact toNat_count (h.accounted_mem hd) (Nat.lt_of_le_of_lt (length_items_le hd) hlen)
  rw [len_eq_sum, hcounts, items_eq_flatten, List.length_flatten]

theorem isEmpty_iff (h : m.Sound) (hlen : m.items.length < 2 ^ 64) :
    m.isEmpty = true ↔ m.items = [] := by
  unfold isEmpty
  rw [Array.all_eq_true_iff_forall_mem, items_eq_flatten, List.flatten_eq_nil_iff]
  -- a count that does not wrap is zero only where there are no items
  have hzero (d : Shard κ ν) (hd : d ∈ m.shards) :
      (d.table.count == 0) = true ↔ d.table.items = [] := by
    have hcount := toNat_count (h.accounted_mem hd) (Nat.lt_of_le_of_lt (length_items_le hd) hlen)
    rw [beq_iff_eq, ← UInt64.toNat_inj, hcount]
    exact List.length_eq_zero_iff
  constructor
  · intro hall l hl
    obtain ⟨d, hd, rfl⟩ := List.mem_map.mp hl
    have hd := Array.mem_toList_iff.mp hd
    exact (hzero d hd).mp (hall d hd)
  · intro hall d hd
    exact (hzero d hd).mpr (hall _ (List.mem_map_of_mem (Array.mem_toList_iff.mpr hd)))

end Sound

section Represents

variable [DecidableEq κ] {m : Map κ ν} {F : Finmap fun _ : κ => ν}

theorem Represents.len_eq (h : m.Represents F) (hcard : F.keys.card < 2 ^ 64) :
    m.len = F.keys.card := by
  rw [h.card_eq] at hcard ⊢
  exact h.sound.len_eq hcard

theorem Represents.isEmpty_eq (h : m.Represents F) (hcard : F.keys.card < 2 ^ 64) :
    m.isEmpty = decide (F.keys.card = 0) := by
  rw [h.card_eq] at hcard ⊢
  rw [Bool.eq_iff_iff, h.sound.isEmpty_iff hcard, decide_eq_true_iff, List.length_eq_zero_iff]

/-! ### Reading -/

/-- The shelf of a key is there, and shows of the key what the map does. -/
theorem Sound.shelfAt_spec (h : m.Sound) (k : κ) :
    Filed (m.route (m.hash k)).hash k (m.shelfAt (m.route (m.hash k))) ∧
      valueOf (m.shelfAt (m.route (m.hash k))) k = valueOf m.items k := by
  have hvalue := h.valueOf_shard k
  have hshelved := h.shelved _ (route_shard_lt h.shards_pos (m.hash k))
  have hplace := m.placeIn_route k
  unfold shelfAt
  generalize m.route (m.hash k) = r at *
  obtain ⟨e, he⟩ := hshelved.size
  have hlt : slot (m.shardAt r.shard).table.shelves.length r.hash
      < (m.shardAt r.shard).table.shelves.length := by
    refine slot_lt ?_ r.hash
    rw [he]
    exact Nat.two_pow_pos e
  have hget := List.getElem?_eq_getElem hlt
  rw [List.getD_eq_getElem?_getD, hget, Option.getD_some]
  refine ⟨hshelved.filed hplace hget, ?_⟩
  rw [← hvalue, Table.items_eq_flatten, hshelved.valueOf_flatten hplace hget]

/-- What is found on the shelf of a key is the pair of the finite map. -/
theorem Represents.find?_shelfAt (h : m.Represents F) (k : κ) :
    ((m.shelfAt (m.route (m.hash k))).find?
      (Query.selects ⟨(m.route (m.hash k)).hash, (m.lookup k).admits⟩)).map Item.entry
      = (F.lookup k).map (k, ·) := by
  obtain ⟨hfiled, hvalue⟩ := h.sound.shelfAt_spec k
  have hfind := hfiled.find?_eq
  unfold Query.exactly at hfind
  unfold lookup
  -- a query for the key by its hash is a query for the key
  rw [hfind, h.lookup_eq, ← hvalue]
  unfold valueOf
  rw [Option.map_map]
  cases hi : (m.shelfAt (m.route (m.hash k))).find? fun i => decide (i.key = k) with
  | none => rfl
  | some i =>
    obtain rfl : i.key = k := by simpa using List.find?_some hi
    rfl

/-- A read hands the pair of the key to its callback on a still map, if there is one. -/
theorem Represents.read_cases (h : m.Represents F) (k : κ) (f : κ × ν → Map κ ν → α × Map κ ν) :
    (F.lookup k = none ∧ ∃ m', m.Still m' ∧ m.read (m.lookup k) f = (.done none, m')) ∨
    (∃ v p n i m', F.lookup k = some v ∧ m.Still m' ∧ m.read (m.lookup k) f =
      (.done (some (f (k, v) m').1), ((f (k, v) m').2.release p n).leave i)) := by
  have hfind := h.find?_shelfAt k
  rcases Map.read_cases h.sound.quiet (m.lookup k) (route_shard_lt h.sound.shards_pos _) f with
    ⟨hnone, m', hstill, hread⟩ | ⟨i, p, n, m', hsome, hstill, hread⟩
  · rw [show (m.lookup k).hash = m.hash k from rfl] at hnone
    rw [hnone] at hfind
    exact .inl ⟨Option.map_eq_none_iff.mp hfind.symm, m', hstill, hread⟩
  · rw [show (m.lookup k).hash = m.hash k from rfl] at hsome
    rw [hsome] at hfind
    obtain ⟨v, hv, hentry⟩ := Option.map_eq_some_iff.mp hfind.symm
    rw [← hentry] at hread
    exact .inr ⟨v, p, n, _, m', hv, hstill, hread⟩

theorem Represents.read_still (h : m.Represents F) (k : κ) (g : κ × ν → α) :
    ∃ m', m.Still m' ∧ m.read (m.lookup k) (fun e m => (g e, m))
      = (.done ((F.lookup k).map fun v => g (k, v)), m') := by
  rcases h.read_cases k fun e m => (g e, m) with
    ⟨hnone, m', hstill, hread⟩ | ⟨v, p, n, i, m', hv, hstill, hread⟩
  · rw [hread, hnone]
    exact ⟨m', hstill, rfl⟩
  · rw [hread, hv]
    have hrelease := hstill.trans (hstill.quiet.still_release p n)
    exact ⟨_, hrelease.trans (hrelease.quiet.still_leave i), rfl⟩

theorem Represents.get (h : m.Represents F) (k : κ) :
    ∃ m', m.get (m.lookup k) = (.done (F.lookup k), m') ∧ m'.Represents F := by
  obtain ⟨m', hstill, hread⟩ := h.read_still k Prod.snd
  refine ⟨m', ?_, h.still hstill⟩
  rw [Option.map_id'] at hread
  exact hread

theorem Represents.contains (h : m.Represents F) (k : κ) :
    ∃ m', m.contains (m.lookup k) = (.done (F.lookup k).isSome, m') ∧ m'.Represents F := by
  obtain ⟨m', hstill, hread⟩ := h.read_still k fun _ => ()
  refine ⟨m', ?_, h.still hstill⟩
  unfold Map.contains
  rw [hread]
  dsimp only [Attempt.map]
  rw [Option.isSome_map]

end Represents

end VersionedMap.Map
