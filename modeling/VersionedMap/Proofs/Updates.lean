import VersionedMap.Proofs.FiniteMap

/-!
# Updates of a finite map

A mutation of a map does to the finite map what it does to the one bucket of its key. Growth,
which may follow, moves items and loses none. Clearing empties the shards one after another.
A new map has nothing in it, whatever it is asked to be.
-/

namespace VersionedMap

variable {κ ν α : Type}

/-! ## Shards -/

namespace Shard

theorem change_eq (d : Shard κ ν) (hash : UInt32) (f : Mutation κ ν α) (s : Shared κ ν) :
    d.change hash f s = ((d.table.mutate hash f s).1,
      { d with table := (d.table.mutate hash f s).2.1 }, (d.table.mutate hash f s).2.2) := rfl

theorem table_replace (d : Shard κ ν) (old t : Table κ ν) : (d.replace old t).table = t := by
  unfold replace
  split <;> rfl

theorem Quiet.replace {d : Shard κ ν} (h : d.Quiet) {old t : Table κ ν} (hold : old.Ready)
    (ht : t.Ready) : (d.replace old t).Quiet := by
  unfold Shard.replace
  split
  · exact ⟨ht, h.aside, h.alone⟩
  · refine ⟨ht, fun t' ht' => ?_, h.alone⟩
    rcases Array.mem_push.mp ht' with ht' | rfl
    · exact h.aside t' ht'
    · exact hold

/-- Growth does not wait, and the shard keeps its items. -/
theorem Quiet.grow {d : Shard κ ν} (h : d.Quiet) {place : κ → Option UInt32}
    (hshelved : Shelved place d.table.shelves) (haccounted : d.table.Accounted)
    {s : Shared κ ν} (hs : s.pool.IsClean) :
    ∃ d' s', d.grow s = (.done (), d', s') ∧ d'.Quiet ∧ Shelved place d'.table.shelves ∧
      d'.table.Accounted ∧ (∀ x, x ∈ d'.table.items ↔ x ∈ d.table.items) ∧ s'.pool.IsClean := by
  unfold Shard.grow
  rw [if_neg (by simp [h.alone])]
  split
  -- somebody else has seen to it
  · exact ⟨d, s, rfl, h, hshelved, haccounted, fun _ => Iff.rfl, hs⟩
  · obtain ⟨hshelves, hready, hcount, hold, hclean⟩ := Table.grow_spec h.table hshelved hs
    generalize d.table.grow s = out at *
    obtain ⟨grown, old, s'⟩ := out
    dsimp only at hshelves hready hcount hold hclean ⊢
    refine ⟨_, _, rfl, h.replace hold hready, ?_⟩
    rw [table_replace]
    refine ⟨?_, ?_, fun x => ?_, hclean⟩
    · rw [hshelves]
      exact shelved_doubled hshelved
    · unfold Table.Accounted
      rw [hcount, Table.items_eq_flatten, Table.items_eq_flatten, hshelves,
        length_flatten_doubled hshelved]
    · rw [Table.items_eq_flatten, Table.items_eq_flatten, hshelves,
        mem_flatten_doubled hshelved x]

/-- Clearing does not wait, and leaves a shard without items. -/
theorem Quiet.clear {d : Shard κ ν} (h : d.Quiet) {place : κ → Option UInt32}
    (hshelved : Shelved place d.table.shelves) {s : Shared κ ν} (hs : s.pool.IsClean) :
    ∃ d' s', d.clear s = (.done (), d', s') ∧ d'.Quiet ∧ Shelved place d'.table.shelves ∧
      d'.table.Accounted ∧ d'.table.items = [] ∧ s'.pool.IsClean := by
  unfold Shard.clear
  rw [if_neg (by simp [h.alone])]
  have hitems : d.table.emptied.items = [] := Table.items_ofSize _ d.table.nonempty
  refine ⟨_, _, rfl, h.replace h.table (Table.ready_ofSize _ d.table.nonempty), ?_⟩
  rw [table_replace]
  refine ⟨?_, ?_, hitems, hs⟩
  · rw [Table.shelves_emptied]
    exact shelved_replicate place (Table.length_shelves d.table ▸ hshelved.size)
  · unfold Table.Accounted
    rw [hitems]
    rfl

end Shard

/-! ## Mutations -/

namespace Map

theorem holdings_size {m m' : Map κ ν} {i : Nat} {l : List (Item κ ν)}
    (h : m'.holdings = m.holdings.set i l) : m'.shards.size = m.shards.size := by
  rw [← length_holdings, h, List.length_set, length_holdings]

/-- Growth of a shard does not wait, and the map keeps its items. -/
theorem Sound.grow {m : Map κ ν} (h : m.Sound) {i : Nat} (hi : i < m.shards.size) :
    ∃ m', m.grow i = (.done (), m') ∧ m'.Sound ∧ ∀ x, x ∈ m'.items ↔ x ∈ m.items := by
  obtain ⟨d, s, hout, hquiet, hshelved, haccounted, hitems, hclean⟩ :=
    (h.quiet.shardAt i).grow (h.shelved i hi) (h.accounted i hi) h.quiet.clean
  obtain ⟨m', hrun, hsound, hholdings⟩ :=
    h.modifyShard (f := Shard.grow) hout hquiet hshelved haccounted hclean
  refine ⟨m', hrun, hsound, fun x => ?_⟩
  have hget : m.holdings[i]? = some (m.shardAt i).table.items := by
    rw [getElem?_holdings, if_pos hi]
  rw [items_eq_flatten, items_eq_flatten, hholdings, mem_flatten_set _ hget,
    mem_flatten_split hget, hitems]

section Represents

variable [DecidableEq κ] {m : Map κ ν} {F : Finmap fun _ : κ => ν}

/-- With the same items a map represents the same. -/
theorem Represents.of_mem_iff (h : m.Represents F) {m' : Map κ ν} (hsound : m'.Sound)
    (hmem : ∀ x, x ∈ m'.items ↔ x ∈ m.items) : m'.Represents F where
  sound := hsound
  lookup_eq k := by
    rw [h.lookup_eq]
    exact valueOf_congr h.sound.nodup hsound.nodup fun x _ => (hmem x).symm

variable {k : κ} {f : UInt32 → Mutation κ ν α} {spec : Option ν → α × Option ν}

/--
The first step of a mutation goes by the value of its key, and turns it into another one, so
that the map represents any finite map that does the same.
-/
theorem Represents.change (h : m.Represents F) (hf : ∀ hash, (f hash).Acts hash k spec)
    {G : Finmap fun _ : κ => ν}
    (hG : ∀ k', G.lookup k' = if k' = k then (spec (F.lookup k)).2 else F.lookup k') :
    ∃ due m', m.change (m.hash k) f = (.done ((spec (F.lookup k)).1, due), m') ∧
      m'.Represents G ∧ m'.shards.size = m.shards.size := by
  have hvalue := h.sound.valueOf_shard k
  rw [← h.lookup_eq] at hvalue
  have hplace := m.placeIn_route k
  have hi := route_shard_lt h.sound.shards_pos (m.hash k)
  -- items of the key are in its shard and nowhere else
  have hone {j : Nat} {l : List (Item κ ν)} (hl : m.holdings[j]? = some l)
      (hj : j ≠ (m.route (m.hash k)).shard) {x : Item κ ν} (hx : x ∈ l) : x.key ≠ k := by
    rw [getElem?_holdings] at hl
    split at hl
    · rename_i hjlt
      obtain rfl := Option.some.inj hl
      rintro rfl
      exact hj (h.sound.shard_of_mem hjlt hx).symm
    · simp at hl
  unfold Map.change
  dsimp only
  generalize m.route (m.hash k) = r at *
  obtain ⟨due, t, s, hmutate, hready, hshelved, haccounted, hturns, hclean⟩ :=
    Table.mutate_acts (h.sound.quiet.shardAt r.shard).table (h.sound.shelved _ hi)
      (h.sound.accounted _ hi) hplace (hf r.hash) h.sound.quiet.clean
  rw [hvalue] at hmutate hturns
  have hquiet : ({ m.shardAt r.shard with table := t } : Shard κ ν).Quiet :=
    ⟨hready, (h.sound.quiet.shardAt r.shard).aside, (h.sound.quiet.shardAt r.shard).alone⟩
  obtain ⟨m', hrun, hsound, hholdings⟩ :=
    h.sound.modifyShard (f := fun d s => d.change r.hash (f r.hash) s)
      (by rw [Shard.change_eq, hmutate]) hquiet hshelved haccounted hclean
  refine ⟨due, m', hrun, ⟨hsound, fun k' => ?_⟩, holdings_size hholdings⟩
  have hget : m.holdings[r.shard]? = some (m.shardAt r.shard).table.items := by
    rw [getElem?_holdings, if_pos hi]
  have hitems : Turns k (spec (F.lookup k)).2 m.items m'.items := by
    rw [items_eq_flatten, items_eq_flatten, hholdings]
    exact hturns.flatten_set hget fun j l hl hj x hx => hone hl hj hx
  rw [hG, hitems.valueOf_eq h.sound.nodup hsound.nodup, h.lookup_eq k']

/-- A mutation does to the finite map what it does in the bucket of its key. -/
theorem Represents.mutate (h : m.Represents F) (hf : ∀ hash, (f hash).Acts hash k spec)
    {G : Finmap fun _ : κ => ν}
    (hG : ∀ k', G.lookup k' = if k' = k then (spec (F.lookup k)).2 else F.lookup k') :
    ∃ m', m.mutate (m.hash k) f = (.done (spec (F.lookup k)).1, m') ∧ m'.Represents G := by
  obtain ⟨due, m', hchange, hrep, hsize⟩ := h.change hf hG
  have hi := route_shard_lt h.sound.shards_pos (m.hash k)
  unfold Map.mutate
  dsimp only
  rw [hchange]
  -- growth, where it is due, moves items about
  cases due with
  | false => exact ⟨m', rfl, hrep⟩
  | true =>
    obtain ⟨m'', hgrow, hsound, hmem⟩ := hrep.sound.grow (hsize ▸ hi)
    refine ⟨m'', ?_, hrep.of_mem_iff hsound hmem⟩
    dsimp only
    rw [hgrow]

/-! ### The operations -/

private theorem lookup_insert_ite (F : Finmap fun _ : κ => ν) (k k' : κ) (v : ν) :
    (F.insert k v).lookup k' = if k' = k then some v else F.lookup k' := by
  split
  · rename_i hk
    rw [hk, Finmap.lookup_insert]
  · rename_i hk
    exact Finmap.lookup_insert_of_ne F hk

theorem Represents.swap (h : m.Represents F) (k : κ) (v : ν) :
    ∃ m', m.swap k v = (.done (F.lookup k), m') ∧ m'.Represents (F.insert k v) :=
  h.mutate (fun hash => Mutation.acts_set hash k v) fun k' => lookup_insert_ite F k k' _

theorem Represents.set (h : m.Represents F) (k : κ) (v : ν) :
    ∃ m', m.set k v = (.done (), m') ∧ m'.Represents (F.insert k v) := by
  obtain ⟨m', hswap, hrep⟩ := h.swap k v
  refine ⟨m', ?_, hrep⟩
  unfold Map.set
  rw [hswap]
  rfl

/-- The finite map with the value of a key set, if the key is absent. -/
def insertAbsent (F : Finmap fun _ : κ => ν) (k : κ) (v : ν) : Finmap fun _ : κ => ν :=
  match F.lookup k with
  | none => F.insert k v
  | some _ => F

theorem lookup_insertAbsent (F : Finmap fun _ : κ => ν) (k k' : κ) (v : ν) :
    (insertAbsent F k v).lookup k'
      = if k' = k then some ((F.lookup k).getD v) else F.lookup k' := by
  unfold insertAbsent
  cases hk : F.lookup k with
  | none => exact lookup_insert_ite F k k' v
  | some w =>
    dsimp only
    by_cases hkey : k' = k
    · rw [if_pos hkey, hkey, hk, Option.getD_some]
    · rw [if_neg hkey]

theorem Represents.setAbsent (h : m.Represents F) (k : κ) (v : ν) :
    ∃ m', m.setAbsent k v = (.done (F.lookup k).isNone, m') ∧
      m'.Represents (insertAbsent F k v) :=
  h.mutate (fun hash => Mutation.acts_setAbsent hash k v) fun k' => lookup_insertAbsent F k k' v

theorem Represents.getOrSet (h : m.Represents F) (k : κ) (v : ν) :
    ∃ m', m.getOrSet k v = (.done ((F.lookup k).getD v, (F.lookup k).isSome), m') ∧
      m'.Represents (insertAbsent F k v) :=
  h.mutate (fun hash => Mutation.acts_getOrSet hash k v) fun k' => lookup_insertAbsent F k k' v

theorem Represents.delete (h : m.Represents F) (k : κ) :
    ∃ m', m.delete (m.lookup k) = (.done (F.lookup k), m') ∧ m'.Represents (F.erase k) := by
  refine h.mutate (fun hash => Mutation.acts_delete hash k) fun k' => ?_
  split
  · rename_i hk
    rw [hk, Finmap.lookup_erase]
  · rename_i hk
    exact Finmap.lookup_erase_ne hk

/-- The finite map with the values of several keys set, one after another. -/
def setAll (F : Finmap fun _ : κ => ν) (l : List (κ × ν)) : Finmap fun _ : κ => ν :=
  l.foldl (fun F e => F.insert e.1 e.2) F

theorem Represents.extend (h : m.Represents F) (l : List (κ × ν)) :
    (m.extend l).Represents (setAll F l) := by
  induction l generalizing m F with
  | nil => exact h
  | cons e l ih =>
    obtain ⟨k, v⟩ := e
    obtain ⟨m', hset, hrep⟩ := h.set k v
    have hrest := ih hrep
    rw [show m' = (m.set k v).2 by rw [hset]] at hrest
    exact hrest

end Represents

/-! ## Clearing -/

/-- Clearing the shards from one on leaves what is before them, and makes these empty. -/
theorem Sound.clearFrom {m : Map κ ν} (h : m.Sound) {i n : Nat} (hi : i + n = m.shards.size) :
    ∃ m', m.clearFrom i n = (.done (), m') ∧ m'.Sound ∧
      m'.holdings = m.holdings.take i ++ .replicate n [] := by
  have hlen := m.length_holdings
  -- on the number of shards left, each of which is emptied and then left alone
  induction n generalizing m i with
  | zero =>
    refine ⟨m, rfl, h, ?_⟩
    rw [List.take_of_length_le (by omega), List.replicate_zero, List.append_nil]
  | succ n ih =>
    have hlt : i < m.shards.size := by omega
    obtain ⟨d, s, hout, hquiet, hshelved, haccounted, hitems, hclean⟩ :=
      (h.quiet.shardAt i).clear (h.shelved i hlt) h.quiet.clean
    obtain ⟨m₁, hrun, hsound, hholdings⟩ :=
      h.modifyShard (f := Shard.clear) hout hquiet hshelved haccounted hclean
    rw [hitems] at hholdings
    have hsize := holdings_size hholdings
    obtain ⟨m₂, hclear, hsound₂, hrest⟩ :=
      ih hsound (i := i + 1) (by omega) m₁.length_holdings
    refine ⟨m₂, ?_, hsound₂, ?_⟩
    · unfold Map.clearFrom
      rw [hrun]
      exact hclear
    · rw [hrest, hholdings, List.take_add_one, List.take_set_of_le (Nat.le_refl i),
        List.getElem?_set_self (by omega), List.append_assoc]
      rfl

/-- Clearing leaves nothing. -/
theorem Represents.clear [DecidableEq κ] {m : Map κ ν} {F : Finmap fun _ : κ => ν}
    (h : m.Represents F) : ∃ m', m.clear = (.done (), m') ∧ m'.Represents ∅ := by
  obtain ⟨m', hrun, hsound, hholdings⟩ := h.sound.clearFrom (Nat.zero_add m.shards.size)
  refine ⟨m', hrun, hsound, fun k => ?_⟩
  rw [Finmap.lookup_empty, items_eq_flatten, hholdings, List.take_zero, List.nil_append,
    List.flatten_replicate_nil]
  rfl

/-! ## New maps -/

theorem two_pow_bucketsFor (capacity : Nat) : ∃ e, bucketsFor capacity = 2 ^ e := by
  obtain ⟨e, he⟩ := Nat.isPowerOfTwo_nextPowerOfTwo (min capacity 0x4000000000000000)
  unfold bucketsFor minimumBuckets
  rw [he]
  -- of two powers of two one is the larger
  rcases Nat.le_total 4 e with h | h
  · exact ⟨e, Nat.max_eq_right (Nat.pow_le_pow_right Nat.two_pos h)⟩
  · exact ⟨4, Nat.max_eq_left (Nat.pow_le_pow_right Nat.two_pos h)⟩

theorem shardsFor_pos (n : Nat) : 0 < shardsFor n :=
  Nat.pos_of_isPowerOfTwo (Nat.isPowerOfTwo_nextPowerOfTwo _)

/-- A map of new shards represents the finite map without keys. -/
theorem represents_empty [DecidableEq κ] {m : Map κ ν} (hpos : 0 < m.shards.size)
    (capacity : Nat) (hshards : ∀ d ∈ m.shards, d = .ofCapacity capacity)
    (hshared : m.shared = {}) :
    m.Represents ∅ := by
  have hnew (i : Nat) (hi : i < m.shards.size) : m.shardAt i = .ofCapacity capacity := by
    unfold shardAt
    rw [Array.getD_eq_getD_getElem?, Array.getElem?_eq_getElem hi]
    exact hshards _ (Array.getElem_mem hi)
  have hbuckets : 0 < bucketsFor capacity :=
    Nat.lt_of_lt_of_le (by decide) (minimumBuckets_le_bucketsFor capacity)
  have hitems : (Shard.ofCapacity capacity : Shard κ ν).table.items = [] :=
    Table.items_ofSize _ hbuckets
  have hshelves : (Shard.ofCapacity capacity : Shard κ ν).table.shelves
      = .replicate (bucketsFor capacity) [] := Table.shelves_ofSize _ hbuckets
  refine ⟨⟨⟨fun d hd => ?_, ?_⟩, hpos, fun i hi => ?_, fun i hi => ?_⟩, fun k => ?_⟩
  · rw [hshards d hd]
    exact ⟨Table.ready_ofSize _ hbuckets, fun t ht => by simp [Shard.ofCapacity] at ht, rfl⟩
  · rw [hshared]
    exact Pool.isClean_new
  · rw [hnew i hi, hshelves]
    exact shelved_replicate _ (two_pow_bucketsFor capacity)
  · rw [hnew i hi]
    unfold Table.Accounted
    rw [hitems]
    rfl
  · have hnone : m.items = [] := by
      refine List.eq_nil_iff_forall_not_mem.mpr fun x hx => ?_
      obtain ⟨i, hi, hx⟩ := mem_items.mp hx
      rw [hnew i hi, hitems] at hx
      exact List.not_mem_nil hx
    rw [hnone]
    rfl

/-- A new map, as it is asked to be; one table has no use for a number of shards. -/
def new (layout : Layout) (hash : κ → UInt64) (n capacity : Nat) : Map κ ν :=
  match layout with
  | .single => .single hash capacity
  | .sharded => .sharded hash n capacity

theorem represents_new [DecidableEq κ] (layout : Layout) (hash : κ → UInt64) (n capacity : Nat) :
    (new layout hash n capacity : Map κ ν).Represents ∅ := by
  cases layout with
  | single =>
    refine represents_empty Nat.one_pos capacity (fun d hd => ?_) rfl
    exact List.eq_of_mem_singleton (Array.mem_toList_iff.mpr hd)
  | sharded =>
    refine represents_empty ?_ ((capacity + shardsFor n - 1) / shardsFor n)
      (fun d hd => Array.eq_of_mem_replicate hd) rfl
    unfold new sharded
    rw [Array.size_replicate]
    exact shardsFor_pos n

end Map

end VersionedMap
