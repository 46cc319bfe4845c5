import VersionedMap.Proofs.GrowthReports
import VersionedMap.Proofs.Reach

/-!
# How tables fill

The two steps of a mutation, for exactly what they come to: the first puts one shelf in place of
another and says whether growth has become due, the second doubles the table if it still is. So
of all deeds only one that inserts a key can change a number of buckets. It doubles one of them,
reports it once, and the count it reports is the one at which the growth was due. As long as a word
can tell how many buckets a table has, the table has **slack**: it has fewer items than would make
its growth due.
-/

namespace VersionedMap

variable {κ ν α ρ : Type}

/-! ## The first step -/

theorem Table.mutate_free {t : Table κ ν} {hash : UInt32} {b : Bucket κ ν}
    (hb : t.buckets[(t.index hash).val]? = some b) (hfree : b.locked = false) (f : Mutation κ ν α)
    (s : Shared κ ν) :
    ∃ t', t.mutate hash f s =
        (.done ((f b.lock s).1.1, (f b.lock s).1.2 = .inserted && t'.needsGrowth), t',
          ((f b.lock s).2.1.unlock (f b.lock s).2.2).2) ∧
      t'.shelves = t.shelves.set (slot t.size hash) (f b.lock s).2.1.items := by
  refine ⟨_, mutate_eq hb hfree f s, ?_⟩
  rw [shelves_account, shelves_setBucket, Bucket.items_unlock]
  rfl

namespace Map

variable {m m' m'' : Map κ ν}

theorem Fit.sound (h : m.Fit false) : m.Sound where
  quiet := by
    refine ⟨fun d hd => ?_, h.clean⟩
    obtain ⟨i, hi, rfl⟩ := Array.mem_iff_getElem.mp hd
    have hfit := h.shards i hi
    rw [shardAt_eq hi] at hfit
    exact ⟨hfit.table.ready, fun t ht => (hfit.aside t ht).ready, hfit.sharers_eq⟩
  shards_pos := h.pos
  shelved i hi := (h.shards i hi).table.shelved
  accounted i hi := (h.shards i hi).table.accounted

/-- What a mutation comes to in the bucket of a hash. -/
def outcome (m : Map κ ν) (hash : UInt64) (f : UInt32 → Mutation κ ν α) :
    (α × Change) × Bucket κ ν × Shared κ ν :=
  f (m.route hash).hash (m.bucketOf hash).lock m.shared

/-- The first step of a mutation puts what the mutation leaves in place of the shelf of its hash. -/
theorem Fit.change_spec (h : m.Fit false) (hash : UInt64) {f : UInt32 → Mutation κ ν α}
    (hmute : ∀ hash, (f hash).Mute) :
    ∃ t m', m.change hash f = (.done ((m.outcome hash f).1.1,
        (m.outcome hash f).1.2 = .inserted && t.needsGrowth), m') ∧
      m.Swaps (m.route hash).shard { m.shardAt (m.route hash).shard with table := t } m' ∧
      t.shelves = (m.shardAt (m.route hash).shard).table.shelves.set
        (slot (m.shardAt (m.route hash).shard).table.size (m.route hash).hash)
        (m.outcome hash f).2.1.items ∧
      m'.shared.growths = m.shared.growths := by
  have hi := h.route_lt hash
  have hfree := (h.steady_bucketOf hash).locked_eq
  obtain ⟨t, hmutate, hshelves⟩ :=
    Table.mutate_free (m.getElem?_bucketOf hash) hfree (f (m.route hash).hash) m.shared
  obtain ⟨m', hrun, hswap, hshared⟩ := modifyShard_swaps hi
    (f := fun d s => d.change (m.route hash).hash (f (m.route hash).hash) s)
    (by rw [Shard.change_eq, hmutate])
  refine ⟨t, m', hrun, hswap, hshelves, ?_⟩
  rw [hshared, Bucket.growths_unlock]
  exact hmute _ _ _

/-- The first step changes the number of items in the shard of its hash as it says it does. -/
theorem Fit.change_counts (h : m.Fit false) {hash : UInt64} {f : UInt32 → Mutation κ ν α}
    {own : κ → Prop} {spares : α → κ → Prop} (hf : ∀ hash, (f hash).Edits hash own spares)
    (hown : ∀ k, own k → m.hash k = hash) {t : Table κ ν}
    (hshelves : t.shelves = (m.shardAt (m.route hash).shard).table.shelves.set
      (slot (m.shardAt (m.route hash).shard).table.size (m.route hash).hash)
      (m.outcome hash f).2.1.items) :
    (m.outcome hash f).1.2.Counts (m.shardAt (m.route hash).shard).table.items.length
      t.items.length := by
  have htable := (h.shards _ (h.route_lt hash)).table
  have hlen := Table.length_shelves (m.shardAt (m.route hash).shard).table
  have hlt : slot (m.shardAt (m.route hash).shard).table.size (m.route hash).hash
      < (m.shardAt (m.route hash).shard).table.shelves.length := by
    rw [hlen]
    exact slot_lt (m.shardAt (m.route hash).shard).table.nonempty _
  have hitems : (m.bucketOf hash).items = (m.shardAt (m.route hash).shard).table.shelves[
      slot (m.shardAt (m.route hash).shard).table.size (m.route hash).hash] := by
    rw [items_bucketOf]
    unfold shelfAt
    rw [hlen, List.getD_eq_getElem?_getD, List.getElem?_eq_getElem hlt, Option.getD_some]
  have hl := List.getElem?_eq_getElem hlt
  rw [← hitems] at hl
  have hedit := hf (m.route hash).hash (m.bucketOf hash).lock m.shared
    (Bucket.anchored_lock (h.steady_bucketOf hash).anchored) h.clean
    (htable.shelved.nodup _ (List.mem_iff_getElem?.mpr ⟨_, hl⟩)) fun x hx hk => by
      have hplace := (htable.shelved.placed _ _ hl x hx).1
      have hroute := m.placeIn_route x.key
      rw [hown x.key hk] at hroute
      exact Option.some.inj (hplace.symm.trans hroute)
  have hcount := hedit.1
  rw [Bucket.items_lock] at hcount
  have hflatten := length_flatten_set (m.outcome hash f).2.1.items hl
  rw [← hshelves, ← Table.items_eq_flatten, ← Table.items_eq_flatten] at hflatten
  unfold outcome at *
  generalize (f (m.route hash).hash (m.bucketOf hash).lock m.shared).1.2 = c at *
  cases c with
  | inserted | removed | unchanged =>
    simp only [Change.Counts] at hcount ⊢
    omega

/-! ## What changes the number of buckets -/

/-- From `m` to `m'` every table has as many buckets as before, and no growth is reported. -/
structure SameSizes (m m' : Map κ ν) : Prop extends m.SameShape m' where
  buckets_eq : ∀ i, (m'.shardAt i).table.size = (m.shardAt i).table.size
  growths_eq : m'.shared.growths = m.shared.growths

theorem SameSizes.refl (m : Map κ ν) : m.SameSizes m := ⟨.refl m, fun _ => rfl, rfl⟩

theorem SameSizes.trans (h : m.SameSizes m') (h' : m'.SameSizes m'') : m.SameSizes m'' :=
  ⟨h.toSameShape.trans h'.toSameShape, fun i => (h'.buckets_eq i).trans (h.buckets_eq i),
    h'.growths_eq.trans h.growths_eq⟩

theorem SameView.sameSizes (h : m.SameView m') (hgrowths : m'.shared.growths = m.shared.growths) :
    m.SameSizes m' :=
  ⟨h.toSameShape, fun i => Table.size_congr (h.shelves_eq i), hgrowths⟩

/-- From `m` to `m'` the number of items of one shard changes as it is said to. -/
structure Changes (m : Map κ ν) (i : Nat) (c : Change) (m' : Map κ ν) : Prop
    extends m.SameSizes m' where
  lt : i < m.shards.size
  others : ∀ j, j ≠ i → m'.shardAt j = m.shardAt j
  counts : c.Counts (m.shardAt i).table.items.length (m'.shardAt i).table.items.length

/-- From `m` to `m'` one table is doubled. This is reported, and nothing else is. -/
structure Grows (m : Map κ ν) (i : Nat) (m' : Map κ ν) : Prop extends m.SameShape m' where
  lt : i < m.shards.size
  others : ∀ j, j ≠ i → m'.shardAt j = m.shardAt j
  shelves_eq : (m'.shardAt i).table.shelves = doubled (m.shardAt i).table.shelves
  count_eq : (m'.shardAt i).table.count = (m.shardAt i).table.count
  growths_eq : m'.shared.growths = m.shared.growths ++ [((m.shardAt i).table.size,
    2 * (m.shardAt i).table.size, (m.shardAt i).table.count.toNat)]

theorem Grows.buckets_eq {i : Nat} (h : m.Grows i m') :
    (m'.shardAt i).table.size = 2 * (m.shardAt i).table.size := by
  rw [← Table.length_shelves, h.shelves_eq, length_doubled, Table.length_shelves]

theorem Grows.length_items {held : Bool} {i : Nat} (h : m.Grows i m') (hm : m.Fit held) :
    (m'.shardAt i).table.items.length = (m.shardAt i).table.items.length := by
  rw [Table.items_eq_flatten, h.shelves_eq,
    length_flatten_doubled (hm.shards i h.lt).table.shelved]
  rfl

/-- The first step of a mutation, and whether growth has become due with it. -/
theorem Fit.change_changes (h : m.Fit false) {hash : UInt64} {f : UInt32 → Mutation κ ν α}
    {own : κ → Prop} {spares : α → κ → Prop} (hf : ∀ hash, (f hash).Edits hash own spares)
    (hown : ∀ k, own k → m.hash k = hash) (hmute : ∀ hash, (f hash).Mute) :
    ∃ m', m.change hash f = (.done ((m.outcome hash f).1.1, (m.outcome hash f).1.2 = .inserted &&
        (m'.shardAt (m.route hash).shard).table.needsGrowth), m') ∧
      m.Changes (m.route hash).shard (m.outcome hash f).1.2 m' ∧ m'.Fit false := by
  obtain ⟨t, m', hrun, hswap, hshelves, hgrowths⟩ := h.change_spec hash hmute
  obtain ⟨_, _, _, hrun', hfit, _⟩ := h.change hf hown
  obtain rfl := congrArg Prod.snd (hrun.symm.trans hrun')
  refine ⟨m', by rw [hrun, hswap.here], ⟨⟨hswap.toSameShape, fun j => ?_, hgrowths⟩,
    h.route_lt hash, hswap.others, ?_⟩, hfit⟩
  · by_cases hj : j = (m.route hash).shard
    · subst hj
      rw [hswap.here, ← Table.length_shelves, hshelves, List.length_set, Table.length_shelves]
    · rw [hswap.others j hj]
  · rw [hswap.here]
    exact h.change_counts hf hown hshelves

/-- The second step of a mutation does nothing, or doubles a table of which the growth is due. -/
theorem Fit.grow_cases (h : m.Fit false) {i : Nat} (hi : i < m.shards.size) :
    ((m.shardAt i).table.needsGrowth = false ∧ m.grow i = (.done (), m)) ∨
    ((m.shardAt i).table.needsGrowth = true ∧
      ∃ m', m.grow i = (.done (), m') ∧ m.Grows i m' ∧ m'.Fit false) := by
  have hfit := h.shards i hi
  obtain ⟨_, hrun', hfit', _⟩ := h.grow hi
  cases hneeds : (m.shardAt i).table.needsGrowth with
  | false =>
    refine .inl ⟨rfl, modifyShard_self ?_⟩
    unfold Shard.grow
    rw [if_neg (by simp [hfit.sharers_eq]), hneeds]
    rfl
  | true =>
    refine .inr ⟨rfl, ?_⟩
    obtain ⟨hshelves, _⟩ := Table.grow_spec hfit.table.ready hfit.table.shelved h.clean
    obtain ⟨_, _, hcount, _⟩ := hfit.table.grow h.clean
    have hold := Table.size_congr (Table.shelves_grow_old hfit.table.ready m.shared)
    have hgrowths := (m.shardAt i).table.growths_grow m.shared
    have hsize : ((m.shardAt i).table.grow m.shared).1.size = 2 * (m.shardAt i).table.size := by
      rw [← Table.length_shelves, hshelves, length_doubled, Table.length_shelves]
    have hout : (m.shardAt i).grow m.shared = (.done (),
        (m.shardAt i).replace ((m.shardAt i).table.grow m.shared).2.1
          ((m.shardAt i).table.grow m.shared).1,
        ((m.shardAt i).table.grow m.shared).2.2.note
          (.grew (m.shardAt i).table.size (2 * (m.shardAt i).table.size)
            (m.shardAt i).table.count.toNat)) := by
      unfold Shard.grow
      rw [if_neg (by simp [hfit.sharers_eq]), hneeds]
      dsimp only [Bool.not_true]
      rw [if_neg (by simp), hold, hsize, hcount]
    obtain ⟨m', hrun, hswap, hshared⟩ := modifyShard_swaps hi hout
    have hrun₁ : m.grow i = (.done (), m') := hrun
    obtain rfl := congrArg Prod.snd (hrun₁.symm.trans hrun')
    refine ⟨m', hrun₁, ⟨hswap.toSameShape, hi, hswap.others, ?_, ?_, ?_⟩, hfit'⟩
    · rw [hswap.here, Shard.table_replace, hshelves]
    · rw [hswap.here, Shard.table_replace, hcount]
    · rw [hshared, Shared.growths_note, hgrowths]
      rfl

/-! ## Slack -/

/-- Every table with as many buckets as a word can tell has fewer items than make growth due. -/
def Slack (m : Map κ ν) : Prop :=
  ∀ i < m.shards.size, (m.shardAt i).table.size ≤ 2 ^ 64 →
    (m.shardAt i).table.items.length < growthThreshold (m.shardAt i).table.size

/-- What shows the same has as many buckets and items. -/
theorem sizes_of_view {i j : Nat} (h : (m'.shardAt j).view = (m.shardAt i).view) :
    (m'.shardAt j).table.size = (m.shardAt i).table.size ∧
      (m'.shardAt j).table.items = (m.shardAt i).table.items := by
  have hshelves : (m'.shardAt j).table.shelves = (m.shardAt i).table.shelves := congrArg Prod.fst h
  exact ⟨Table.size_congr hshelves, congrArg List.flatten hshelves⟩

theorem SameView.slack (h : m.SameView m') (hm : m.Slack) : m'.Slack := by
  intro i hi
  obtain ⟨hsize, hitems⟩ := sizes_of_view (h.view_eq i)
  rw [hsize, hitems]
  exact hm i (h.size_eq ▸ hi)

theorem growthThreshold_pos {n : Nat} (h : minimumBuckets ≤ n) : 0 < growthThreshold n := by
  unfold growthThreshold
  unfold minimumBuckets at h
  omega

theorem growthThreshold_lt {n : Nat} (h : minimumBuckets ≤ n) :
    growthThreshold n < growthThreshold (2 * n) := by
  unfold growthThreshold
  unfold minimumBuckets at h
  omega

/-- With no more items than make growth due, a word can tell their number. -/
theorem toNat_count_of_slack {held : Bool} {place : κ → Option UInt32} {t : Table κ ν}
    (h : t.Fit held place) (hsize : t.size ≤ 2 ^ 64)
    (hlen : t.items.length ≤ growthThreshold t.size) : t.count.toNat = t.items.length := by
  refine toNat_count h.accounted ?_
  unfold growthThreshold at hlen
  omega

/-- Only an insertion that makes growth due uses up the slack. -/
theorem Changes.slack {i : Nat} {c : Change} (h : m.Changes i c m') (hm' : m'.Fit false)
    (hdue : (decide (c = .inserted) && (m'.shardAt i).table.needsGrowth) = false)
    (hm : m.Slack) : m'.Slack := by
  intro j hj hlt
  by_cases hji : j = i
  · subst hji
    have hold := hm j h.lt (h.buckets_eq j ▸ hlt)
    rw [← h.buckets_eq j] at hold
    have hcount := h.counts
    cases c with
    | inserted =>
      have hneeds : (m'.shardAt j).table.needsGrowth = false := by simpa using hdue
      have hnot := of_decide_eq_false hneeds
      simp only [Change.Counts] at hcount
      rw [toNat_count_of_slack (hm'.shards j hj).table hlt (by omega)] at hnot
      exact Nat.not_le.mp hnot
    | removed | unchanged =>
      simp only [Change.Counts] at hcount
      omega
  · rw [h.others j hji] at hlt ⊢
    exact hm j (h.size_eq ▸ hj) hlt

/--
From `m` to `m'` one table has got another item, with which its growth was due, and twice as many
buckets. This is reported, and nothing else is.
-/
structure Doubles (m : Map κ ν) (i : Nat) (m' : Map κ ν) : Prop extends m.SameShape m' where
  lt : i < m.shards.size
  others : ∀ j, j ≠ i → (m'.shardAt j).view = (m.shardAt j).view
  buckets_eq : (m'.shardAt i).table.size = 2 * (m.shardAt i).table.size
  more : (m'.shardAt i).table.items.length = (m.shardAt i).table.items.length + 1
  due : growthThreshold (m.shardAt i).table.size ≤ (m'.shardAt i).table.count.toNat
  growths_eq : m'.shared.growths = m.shared.growths ++ [((m.shardAt i).table.size,
    2 * (m.shardAt i).table.size, (m'.shardAt i).table.count.toNat)]

theorem Changes.doubles {i : Nat} (h : m.Changes i .inserted m') (hm' : m'.Fit false)
    (hneeds : (m'.shardAt i).table.needsGrowth = true) (h' : m'.Grows i m'') :
    m.Doubles i m'' where
  toSameShape := h.toSameShape.trans h'.toSameShape
  lt := h.lt
  others j hj := by rw [h'.others j hj, h.others j hj]
  buckets_eq := by rw [h'.buckets_eq, h.buckets_eq]
  more := (h'.length_items hm').trans h.counts
  due := by
    rw [h'.count_eq, ← h.buckets_eq i]
    exact of_decide_eq_true hneeds
  growths_eq := by rw [h'.growths_eq, h.growths_eq, h'.count_eq, h.buckets_eq]

theorem Doubles.slack {held : Bool} {i : Nat} (h : m.Doubles i m') (hfit : m.Fit held)
    (hm : m.Slack) : m'.Slack := by
  intro j hj
  by_cases hji : j = i
  · subst hji
    rw [h.buckets_eq, h.more]
    intro hlt
    have hold := hm j h.lt (by omega)
    have hthreshold := growthThreshold_lt (hfit.shards j h.lt).table.least
    omega
  · obtain ⟨hsize, hitems⟩ := sizes_of_view (h.others j hji)
    rw [hsize, hitems]
    exact hm j (h.size_eq ▸ hj)

/-- A mutation keeps the numbers of buckets, or it inserts an item and doubles one of them. -/
theorem Fit.mutate_fills (h : m.Fit false) {hash : UInt64} {f : UInt32 → Mutation κ ν α}
    {own : κ → Prop} {spares : α → κ → Prop} (hf : ∀ hash, (f hash).Edits hash own spares)
    (hown : ∀ k, own k → m.hash k = hash) (hmute : ∀ hash, (f hash).Mute) :
    ∃ m', m.mutate hash f = (.done (m.outcome hash f).1.1, m') ∧
      (m.SameSizes m' ∨
        ((m.outcome hash f).1.2 = .inserted ∧ m.Doubles (m.route hash).shard m')) ∧
      (m.Slack → m'.Slack) := by
  obtain ⟨m₁, hrun, hchanges, hfit⟩ := h.change_changes hf hown hmute
  unfold Map.mutate
  dsimp only
  rw [hrun]
  generalize (m.outcome hash f).1.2 = c at *
  cases hdue : (decide (c = .inserted) && (m₁.shardAt (m.route hash).shard).table.needsGrowth) with
  | false => exact ⟨m₁, rfl, .inl hchanges.toSameSizes, hchanges.slack hfit hdue⟩
  | true =>
    obtain ⟨hc, hneeds⟩ := Bool.and_eq_true_iff.mp hdue
    obtain rfl := of_decide_eq_true hc
    rcases hfit.grow_cases (hchanges.size_eq ▸ hchanges.lt) with
      ⟨hnot, _⟩ | ⟨_, m₂, hgrow, hgrows, _⟩
    · exact absurd (hneeds.symm.trans hnot) (by simp)
    have hdoubles := hchanges.doubles hfit hneeds hgrows
    refine ⟨m₂, ?_, .inr ⟨rfl, hdoubles⟩, hdoubles.slack h⟩
    dsimp only
    rw [hgrow]

/-! ## Operations on the whole map -/

/-- Clearing reports no growth. -/
theorem growths_clearFrom (m : Map κ ν) (i n : Nat) :
    (m.clearFrom i n).2.shared.growths = m.shared.growths := by
  induction n generalizing m i with
  | zero => rfl
  | succ n ih =>
    have hfirst : (m.modifyShard i Shard.clear).2.shared.growths = m.shared.growths := by
      rw [modifyShard_eq]
      show ((m.shardAt i).clear m.shared).2.2.growths = _
      unfold Shard.clear
      split
      · rfl
      · exact (Shared.growths_note ..).trans (List.append_nil _)
    unfold Map.clearFrom
    generalize m.modifyShard i Shard.clear = cleared at *
    obtain ⟨a, m₁⟩ := cleared
    cases a with
    | waits => exact hfirst
    | done => exact (ih m₁ (i + 1)).trans hfirst

theorem Fit.clear_fills (h : m.Fit false) :
    m.SameSizes m.clear.2 ∧ (m.Slack → m.clear.2.Slack) := by
  have hgrowths := growths_clearFrom m 0 m.shards.size
  obtain ⟨m', hrun, _, hshape, hshards⟩ := h.clearFrom_replaces (Nat.zero_add m.shards.size)
  have htable {j : Nat} (hj : j < m.shards.size) :
      (m'.shardAt j).table = (m.shardAt j).table.emptied := by
    rw [hshards, if_pos ⟨Nat.zero_le j, hj⟩, Shard.table_replace]
  unfold Map.clear
  rw [hrun] at hgrowths ⊢
  refine ⟨⟨hshape, fun j => ?_, hgrowths⟩, fun _ j hj => ?_⟩
  · by_cases hj : j < m.shards.size
    · rw [htable hj, Table.size_emptied]
    · rw [hshards, if_neg fun h => hj h.2]
  · have hlt : j < m.shards.size := hshape.size_eq ▸ hj
    have hnone : (m.shardAt j).table.emptied.items = [] :=
      Table.items_ofSize _ (m.shardAt j).table.nonempty
    rw [htable hlt, Table.size_emptied, hnone]
    exact fun _ => growthThreshold_pos (h.shards j hlt).table.least

theorem Fit.lock_fills (h : m.Fit false) :
    ∃ m', m.lock = (.done {}, m') ∧ m.SameView m' ∧ m'.shared.growths = m.shared.growths := by
  obtain ⟨m', hlock, _, _, hview⟩ := h.lock
  refine ⟨m', hlock, hview, ?_⟩
  rw [show m' = m.lock.2 by rw [hlock]]
  unfold Map.lock
  split <;> rfl

theorem growths_unlock (m : Map κ ν) : m.unlock.shared.growths = m.shared.growths :=
  growths_sweep (f := fun (d : Shard κ ν) s =>
    (({ d with table := (d.table.unlock s).1, sharers := d.sharers - 1 } : Shard κ ν),
      (d.table.unlock s).2)) (fun d s => d.table.growths_unlock s) m.shards m.shared

theorem Fit.wipe_fills (h : m.Fit true) {v : View} (hv : v.freed = false) :
    ∃ m', v.clear m = .ok m' ∧ m.SameSizes m' ∧ m'.Slack := by
  obtain ⟨m', hclear, hfit, _, hwiped⟩ := h.wipe hv
  have hshelves (i : Nat) : (m'.shardAt i).table.shelves
      = .replicate (m.shardAt i).table.size [] := congrArg Prod.fst (hwiped.view_eq i)
  have hsizes (i : Nat) : (m'.shardAt i).table.size = (m.shardAt i).table.size := by
    rw [← Table.length_shelves, hshelves, List.length_replicate]
  refine ⟨m', hclear, ⟨hwiped.toSameShape, hsizes, ?_⟩, fun i hi _ => ?_⟩
  · have hok : m' = { m with
        shards := (sweep (fun (d : Shard κ ν) s =>
          ({ d with table := (d.table.wipe s).1 }, (d.table.wipe s).2)) m.shards m.shared).1
        shared := (sweep (fun (d : Shard κ ν) s =>
          ({ d with table := (d.table.wipe s).1 }, (d.table.wipe s).2)) m.shards m.shared).2 } := by
      unfold View.clear View.check at hclear
      rw [hv] at hclear
      exact (Except.ok.inj hclear).symm
    rw [hok]
    exact growths_sweep (f := fun (d : Shard κ ν) s =>
      ({ d with table := (d.table.wipe s).1 }, (d.table.wipe s).2))
      (fun d s => d.table.growths_wipe s) m.shards m.shared
  · rw [Table.items_eq_flatten, hshelves, List.flatten_replicate_nil]
    exact growthThreshold_pos (hfit.shards i hi).table.least

end Map

/-! ## Insertions -/

/-- Where a key has a value, what turns it into another one does not make the list longer. -/
theorem Replaces.length_le [DecidableEq κ] {hash : UInt32} {k : κ} {w : Option ν}
    {l l' : List (Item κ ν)} (h : Replaces hash k w l l') (hk : valueOf l k ≠ none) :
    l'.length ≤ l.length := by
  obtain ⟨i, hi, hik⟩ : ∃ i ∈ l, i.key = k := by
    unfold valueOf at hk
    cases hfind : l.find? fun i => decide (i.key = k) with
    | none => exact absurd (by rw [hfind]; rfl) hk
    | some i => exact ⟨i, List.mem_of_find?_eq_some hfind, by simpa using List.find?_some hfind⟩
  -- every key that there is afterwards has been there before
  have hsub : l'.map (·.key) ⊆ l.map (·.key) := by
    intro k' hk'
    obtain ⟨j, hj, rfl⟩ := List.mem_map.mp hk'
    by_cases hjk : j.key = k
    · exact List.mem_map.mpr ⟨i, hi, hik.trans hjk.symm⟩
    · exact List.mem_map.mpr ⟨j, (h.others j hjk).mp hj, rfl⟩
  have hle := (List.Nodup.subperm h.filed.nodup hsub).length_le
  simpa using hle

theorem Mutation.Acts.inserted [DecidableEq κ] {f : Mutation κ ν α} {hash : UInt32} {k : κ}
    {spec : Option ν → α × Option ν} (hf : f.Acts hash k spec) {b : Bucket κ ν} {s : Shared κ ν}
    (hb : b.Anchored) (hs : s.pool.IsClean) (hfiled : Filed hash k b.items)
    (h : (f b s).1.2 = .inserted) : valueOf b.items k = none := by
  obtain ⟨_, hcount, hrep, _⟩ := hf b s hb hs hfiled
  refine Classical.byContradiction fun hk => ?_
  have hle := hrep.length_le hk
  rw [h] at hcount
  simp only [Change.Counts] at hcount
  omega

theorem Mutation.delete_ne_inserted (q : Query κ) (b : Bucket κ ν) (s : Shared κ ν) :
    (Mutation.delete q b s).1.2 ≠ .inserted := by
  unfold Mutation.delete
  split <;> simp

theorem Map.Fit.inserted [DecidableEq κ] {m : Map κ ν} (h : m.Fit false) {k : κ}
    {f : UInt32 → Mutation κ ν α} {spec : Option ν → α × Option ν}
    (hf : ∀ hash, (f hash).Acts hash k spec)
    (hins : (m.outcome (m.hash k) f).1.2 = .inserted) : valueOf m.items k = none := by
  obtain ⟨hfiled, hvalue⟩ := h.sound.shelfAt_spec k
  rw [← items_bucketOf] at hfiled hvalue
  rw [← hvalue]
  exact (hf _).inserted (b := (m.bucketOf (m.hash k)).lock)
    (Bucket.anchored_lock (h.steady_bucketOf (m.hash k)).anchored) h.clean hfiled hins

end VersionedMap
