import VersionedMap.Map.View
import VersionedMap.Proofs.Updates

/-!
# Maps with a view of them

Between operations every lock of a map is free, or a view of the map holds them all. Either way
the map is **fit**: its buckets are anchored, its items stand in their places, no key twice, and
every count is right. The tables that have been set aside are fit too, and nobody locks them.

Readers come and go in a fit map whether or not there is a view of it, and what they leave is
**alike**: every table, current or set aside, has the same shelves. A reader waits in one case
only, where the bucket **brims**: it would be the one to move the count, and the view has the lock.
-/

namespace VersionedMap

variable {κ ν α σ : Type}

/-! ## Buckets -/

namespace Bucket

/-- The next reader brings the count to where it has to be moved, which takes the lock. -/
def Brims (b : Bucket κ ν) : Prop := b.chain ≠ [] ∧ b.reference.count + 1 = rebalanceAt

/-- A bucket as it is between operations, with a view of its map or without. -/
structure Steady (held : Bool) (b : Bucket κ ν) : Prop where
  anchored : b.Anchored
  locked_eq : b.locked = held

theorem Steady.ready {b : Bucket κ ν} (h : b.Steady false) : b.Ready := ⟨h.anchored, h.locked_eq⟩

theorem Ready.steady {b : Bucket κ ν} (h : b.Ready) : b.Steady false := ⟨h.anchored, h.free⟩

/-- A reader gets the current items, or there are none to be had, or the bucket brims. -/
theorem Steady.acquire_cases {held : Bool} {b : Bucket κ ν} (h : b.Steady held)
    (s : Shared κ ν) :
    (b.items = [] ∧ (b.acquire s).1 = .absent) ∨
    (∃ n, (b.acquire s).1 = .held n ∧ (b.acquire s).2.1.itemsAt n = b.items) ∨
    (held = true ∧ b.Brims ∧ b.acquire s = (.waits, b, s)) := by
  have hitems := items_acquire b s
  have hpub := (shortens_acquire h.anchored s).published_eq
  rw [← itemsAt_published, hpub] at hitems
  rcases Bucket.acquire_cases h.anchored s with
    ⟨hchain, hacq⟩ | ⟨hne, hat, hlocked, hacq⟩ | ⟨_, _, _, hacq⟩ | ⟨_, _, hacq⟩
  · refine .inl ⟨?_, by rw [hacq]⟩
    unfold items newest?
    rw [hchain]
    rfl
  · exact .inr (.inr ⟨h.locked_eq.symm.trans hlocked, ⟨hne, hat⟩, hacq⟩)
  · exact .inr (.inl ⟨b.published, by rw [hacq], hitems⟩)
  · exact .inr (.inl ⟨b.published, by rw [hacq], hitems⟩)

/-- A change of a bucket that shows nothing, whoever has the lock. -/
def Hushed (f : Bucket κ ν → Shared κ ν → α × Bucket κ ν × Shared κ ν) : Prop :=
  ∀ b s, b.Anchored → s.pool.IsClean →
    (f b s).2.1.Anchored ∧ (f b s).2.1.locked = b.locked ∧ (f b s).2.1.items = b.items ∧
      (f b s).2.2.pool.IsClean

theorem hushed_acquire : Hushed (acquire : Bucket κ ν → Shared κ ν → _) :=
  fun b s h hs => ⟨anchored_acquire h s, locked_acquire h s, items_acquire b s, clean_acquire b hs⟩

theorem hushed_release (n : Nat) :
    Hushed fun (b : Bucket κ ν) (s : Shared κ ν) => ((), b.release n s) :=
  fun b s h hs => ⟨anchored_release h n s, locked_release b n s, items_release b n s,
    clean_release b n hs⟩

end Bucket

/-! ## Tables -/

namespace Table

/-- A table between operations, with all its buckets locked or none. -/
structure Fit (held : Bool) (place : κ → Option UInt32) (t : Table κ ν) : Prop where
  steady : ∀ b ∈ t.buckets, b.Steady held
  shelved : Shelved place t.shelves
  accounted : t.Accounted
  least : minimumBuckets ≤ t.size

theorem Fit.ready {place : κ → Option UInt32} {t : Table κ ν} (h : t.Fit false place) : t.Ready :=
  fun b hb => (h.steady b hb).ready

theorem steady_setBucket {held : Bool} {t : Table κ ν} (h : ∀ b ∈ t.buckets, b.Steady held)
    {j : Nat} {b : Bucket κ ν} (hb : j < t.size → b.Steady held) :
    ∀ c ∈ (t.setBucket j b).buckets, c.Steady held := by
  intro c hc
  unfold setBucket at hc
  dsimp only at hc
  obtain ⟨i, hi, rfl⟩ := Array.mem_iff_getElem.mp hc
  rw [Array.size_setIfInBounds] at hi
  rw [Array.getElem_setIfInBounds hi]
  split
  · rename_i hji
    exact hb (hji ▸ hi)
  · exact h _ (Array.getElem_mem hi)

/-- The accounts of a table with the same shelves and the same count are as right. -/
theorem Accounted.congr {t t' : Table κ ν} (h : t.Accounted) (hshelves : t'.shelves = t.shelves)
    (hcount : t'.count = t.count) : t'.Accounted := by
  unfold Accounted
  rw [hcount, h, items_eq_flatten, items_eq_flatten, hshelves]

theorem size_congr {t t' : Table κ ν} (h : t'.shelves = t.shelves) : t'.size = t.size := by
  rw [← length_shelves, h, length_shelves]

/-- The same shelves and the same count in buckets that are steady are a fit table again. -/
theorem Fit.congr {held held' : Bool} {place : κ → Option UInt32} {t t' : Table κ ν}
    (h : t.Fit held place) (hsteady : ∀ b ∈ t'.buckets, b.Steady held')
    (hshelves : t'.shelves = t.shelves) (hcount : t'.count = t.count) : t'.Fit held' place where
  steady := hsteady
  shelved := hshelves ▸ h.shelved
  accounted := h.accounted.congr hshelves hcount
  least := size_congr hshelves ▸ h.least

theorem anchored_getD {held : Bool} {t : Table κ ν} (h : ∀ b ∈ t.buckets, b.Steady held)
    (j : Nat) : (t.buckets.getD j {}).Anchored := by
  rw [Array.getD_eq_getD_getElem?]
  cases hb : t.buckets[j]? with
  | none => exact Bucket.anchored_new
  | some b => exact (h b (Array.mem_of_getElem? hb)).anchored

theorem steady_getD {held : Bool} {t : Table κ ν} (h : ∀ b ∈ t.buckets, b.Steady held)
    {j : Nat} (hj : j < t.size) : (t.buckets.getD j {}).Steady held := by
  have hlt : j < t.buckets.size := hj
  rw [Array.getD_eq_getD_getElem?, Array.getElem?_eq_getElem hlt]
  exact h _ (Array.getElem_mem hlt)

/-- A hushed change of one bucket keeps a table fit, and its shelves as they are. -/
theorem Fit.hush {held : Bool} {place : κ → Option UInt32} {t : Table κ ν}
    (h : t.Fit held place) {f : Bucket κ ν → Shared κ ν → α × Bucket κ ν × Shared κ ν}
    (hf : Bucket.Hushed f) (j : Nat) {s : Shared κ ν} (hs : s.pool.IsClean) :
    (t.setBucket j (f (t.buckets.getD j {}) s).2.1).Fit held place ∧
      (t.setBucket j (f (t.buckets.getD j {}) s).2.1).shelves = t.shelves ∧
      (f (t.buckets.getD j {}) s).2.2.pool.IsClean := by
  obtain ⟨hanch, hlocked, hitems, hclean⟩ := hf _ s (anchored_getD h.steady j) hs
  have hshelves := shelves_setBucket_self hitems
  have hsteady := steady_setBucket (j := j) h.steady fun hj =>
    ⟨hanch, hlocked.trans (steady_getD h.steady hj).locked_eq⟩
  exact ⟨h.congr hsteady hshelves (count_setBucket ..), hshelves, hclean⟩

end Table

/-! ## Shards -/

namespace Shard

/-- A shard between operations: the tables set aside are locked by nobody. -/
structure Fit (held : Bool) (place : κ → Option UInt32) (d : Shard κ ν) : Prop where
  table : d.table.Fit held place
  aside : ∀ t ∈ d.aside, t.Fit false place
  sharers_eq : d.sharers = if held then 1 else 0

/-- From `d` to `d'` every table keeps its shelves, and nobody comes or goes. -/
structure Alike (d d' : Shard κ ν) : Prop where
  view_eq : d'.view = d.view
  shelves_eq : ∀ g, (d'.tableAt g).shelves = (d.tableAt g).shelves
  aside_eq : d'.aside.size = d.aside.size
  guards_eq : d'.guards = d.guards

theorem Alike.refl (d : Shard κ ν) : d.Alike d := ⟨rfl, fun _ => rfl, rfl, rfl⟩

theorem Alike.trans {d d' d'' : Shard κ ν} (h : d.Alike d') (h' : d'.Alike d'') : d.Alike d'' where
  view_eq := h'.view_eq.trans h.view_eq
  shelves_eq g := (h'.shelves_eq g).trans (h.shelves_eq g)
  aside_eq := h'.aside_eq.trans h.aside_eq
  guards_eq := h'.guards_eq.trans h.guards_eq

/-- The table of a generation; it is locked at most if it is the current one. -/
theorem Fit.tableAt {held : Bool} {place : κ → Option UInt32} {d : Shard κ ν}
    (h : d.Fit held place) (g : Nat) :
    ∃ held', (held' = true → held = true ∧ d.aside.size ≤ g) ∧
      (d.tableAt g).Fit held' place := by
  by_cases hg : g < d.aside.size
  · refine ⟨false, fun hlocked => absurd hlocked (by simp), ?_⟩
    unfold Shard.tableAt
    rw [Array.getElem?_eq_getElem hg]
    exact h.aside _ (Array.getElem_mem hg)
  · rw [tableAt_current (Nat.not_lt.mp hg)]
    exact ⟨held, fun hh => ⟨hh, Nat.not_lt.mp hg⟩, h.table⟩

/-- With a table of which the same can be said, in place of the one of a generation. -/
theorem Fit.modifyTable {held : Bool} {place : κ → Option UInt32} {d : Shard κ ν}
    (h : d.Fit held place) (g : Nat) {f : Table κ ν → α × Table κ ν}
    (hfit : ∀ held', (d.tableAt g).Fit held' place → (f (d.tableAt g)).2.Fit held' place)
    (hshelves : (f (d.tableAt g)).2.shelves = (d.tableAt g).shelves)
    (hcount : (f (d.tableAt g)).2.count = (d.tableAt g).count) :
    (d.modifyTable g f).2.Fit held place ∧ d.Alike (d.modifyTable g f).2 := by
  rw [modifyTable_eq]
  dsimp only
  split
  -- the table has been set aside: the current one is not touched
  · rename_i hg
    have hold : d.tableAt g = d.aside[g] := by
      unfold Shard.tableAt
      rw [Array.getElem?_eq_getElem hg]
    refine ⟨⟨h.table, fun t ht => ?_, h.sharers_eq⟩, ⟨rfl, fun g' => ?_,
      Array.size_setIfInBounds .., rfl⟩⟩
    · rcases Array.mem_or_eq_of_mem_setIfInBounds ht with ht | rfl
      · exact h.aside t ht
      · exact hfit false (hold ▸ h.aside _ (Array.getElem_mem hg))
    · by_cases hgg : g' = g
      · subst hgg
        conv_lhs => unfold Shard.tableAt
        dsimp only
        rw [Array.getElem?_setIfInBounds_self, if_pos hg]
        exact hshelves
      · unfold Shard.tableAt
        dsimp only
        rw [Array.getElem?_setIfInBounds_ne (Ne.symm hgg)]
  · rename_i hg
    have hcurrent : d.tableAt g = d.table := tableAt_current (Nat.not_lt.mp hg)
    rw [hcurrent] at hfit hshelves hcount ⊢
    refine ⟨⟨hfit held h.table, h.aside, h.sharers_eq⟩, ⟨?_, fun g' => ?_, rfl, rfl⟩⟩
    · unfold view
      rw [hshelves, hcount]
    · unfold Shard.tableAt
      dsimp only
      cases d.aside[g']? with
      | none => exact hshelves
      | some t => rfl

/-- A hushed change of a bucket, in the table of a generation. -/
theorem Fit.inBucket {held : Bool} {place : κ → Option UInt32} {d : Shard κ ν}
    (h : d.Fit held place) {f : Bucket κ ν → Shared κ ν → α × Bucket κ ν × Shared κ ν}
    (hf : Bucket.Hushed f) (g j : Nat) {s : Shared κ ν} (hs : s.pool.IsClean) :
    (inBucket g j f d s).2.1.Fit held place ∧ d.Alike (inBucket g j f d s).2.1 ∧
      (inBucket g j f d s).2.2.pool.IsClean := by
  obtain ⟨held', _, htable⟩ := h.tableAt g
  obtain ⟨_, hshelves, hclean⟩ := htable.hush hf j hs
  obtain ⟨hfit, halike⟩ := h.modifyTable g
    (f := fun t => (((f (t.buckets.getD j {}) s).1, (f (t.buckets.getD j {}) s).2.2),
      t.setBucket j (f (t.buckets.getD j {}) s).2.1))
    (fun _ ht => (ht.hush hf j hs).1) hshelves (Table.count_setBucket ..)
  refine ⟨hfit, halike, ?_⟩
  unfold Shard.inBucket
  rw [modifyTable_eq]
  exact hclean

end Shard

/-! ## Maps -/

namespace Map

/-- The same hash function, layout and number of shards, and so the same places for keys. -/
structure SameShape (m m' : Map κ ν) : Prop where
  hash_eq : m'.hash = m.hash
  layout_eq : m'.layout = m.layout
  size_eq : m'.shards.size = m.shards.size

namespace SameShape

variable {m m' m'' : Map κ ν}

theorem refl (m : Map κ ν) : m.SameShape m := ⟨rfl, rfl, rfl⟩

theorem trans (h : m.SameShape m') (h' : m'.SameShape m'') : m.SameShape m'' :=
  ⟨h'.hash_eq.trans h.hash_eq, h'.layout_eq.trans h.layout_eq, h'.size_eq.trans h.size_eq⟩

theorem route_eq (h : m.SameShape m') (hash : UInt64) : m'.route hash = m.route hash :=
  route_congr h.layout_eq h.size_eq hash

theorem placeIn_eq (h : m.SameShape m') (i : Nat) : m'.placeIn i = m.placeIn i :=
  placeIn_congr h.hash_eq h.layout_eq h.size_eq i

end SameShape

/-- The same to be seen: the shape, and of every shard the shelves and the count. -/
structure SameView (m m' : Map κ ν) : Prop extends m.SameShape m' where
  view_eq : ∀ i, (m'.shardAt i).view = (m.shardAt i).view

namespace SameView

variable {m m' m'' : Map κ ν}

theorem refl (m : Map κ ν) : m.SameView m := ⟨.refl m, fun _ => rfl⟩

theorem trans (h : m.SameView m') (h' : m'.SameView m'') : m.SameView m'' :=
  ⟨h.toSameShape.trans h'.toSameShape, fun i => (h'.view_eq i).trans (h.view_eq i)⟩

theorem shelves_eq (h : m.SameView m') (i : Nat) :
    (m'.shardAt i).table.shelves = (m.shardAt i).table.shelves := congrArg Prod.fst (h.view_eq i)

theorem holdings_eq (h : m.SameView m') : m'.holdings = m.holdings := by
  refine List.ext_getElem? fun i => ?_
  rw [getElem?_holdings, getElem?_holdings, h.size_eq, Table.items_eq_flatten,
    Table.items_eq_flatten, h.shelves_eq]

theorem items_eq (h : m.SameView m') : m'.items = m.items := by
  rw [items_eq_flatten, items_eq_flatten, h.holdings_eq]

end SameView

/-- A map between operations: `held` tells whether there is a view of it. -/
structure Fit (held : Bool) (m : Map κ ν) : Prop where
  shards : ∀ i < m.shards.size, (m.shardAt i).Fit held (m.placeIn i)
  clean : m.shared.pool.IsClean
  pos : 0 < m.shards.size
  single : m.layout = .single → m.shards.size = 1

/-- From `m` to `m'` every table of every shard keeps its shelves, and nobody comes or goes. -/
structure Alike (m m' : Map κ ν) : Prop extends m.SameShape m' where
  shards : ∀ i, (m.shardAt i).Alike (m'.shardAt i)

/-- `m'` is `m` with another shard at position `i`. -/
structure Swaps (m : Map κ ν) (i : Nat) (d : Shard κ ν) (m' : Map κ ν) : Prop
    extends m.SameShape m' where
  here : m'.shardAt i = d
  others : ∀ j, j ≠ i → m'.shardAt j = m.shardAt j

theorem Alike.refl (m : Map κ ν) : m.Alike m := ⟨.refl m, fun _ => .refl _⟩

theorem Alike.trans {m m' m'' : Map κ ν} (h : m.Alike m') (h' : m'.Alike m'') : m.Alike m'' :=
  ⟨h.toSameShape.trans h'.toSameShape, fun i => (h.shards i).trans (h'.shards i)⟩

theorem Swaps.alike {m m' : Map κ ν} {i : Nat} {d : Shard κ ν} (h : m.Swaps i d m')
    (hd : (m.shardAt i).Alike d) : m.Alike m' := by
  refine ⟨h.toSameShape, fun j => ?_⟩
  by_cases hj : j = i
  · rw [hj, h.here]
    exact hd
  · rw [h.others j hj]
    exact .refl _

theorem shardAt_eq {m : Map κ ν} {i : Nat} (hi : i < m.shards.size) :
    m.shardAt i = m.shards[i] := by
  unfold shardAt
  rw [Array.getD_eq_getD_getElem?, Array.getElem?_eq_getElem hi]
  rfl

theorem Alike.sameView {m m' : Map κ ν} (h : m.Alike m') : m.SameView m' :=
  ⟨h.toSameShape, fun i => (h.shards i).view_eq⟩

/-- Another shard with the same table in it shows nothing. -/
theorem Swaps.sameView {m m' : Map κ ν} {i : Nat} {d : Shard κ ν} (h : m.Swaps i d m')
    (hd : d.table = (m.shardAt i).table) : m.SameView m' := by
  refine ⟨h.toSameShape, fun j => ?_⟩
  unfold Shard.view
  by_cases hj : j = i
  · rw [hj, h.here, hd]
  · rw [h.others j hj]

/-- A change of one shard, for what it comes to. -/
theorem modifyShard_swaps {m : Map κ ν} {i : Nat} (hi : i < m.shards.size)
    {f : Shard κ ν → Shared κ ν → α × Shard κ ν × Shared κ ν} {a : α} {d : Shard κ ν}
    {s : Shared κ ν} (hout : f (m.shardAt i) m.shared = (a, d, s)) :
    ∃ m', m.modifyShard i f = (a, m') ∧ m.Swaps i d m' ∧ m'.shared = s := by
  refine ⟨{ m with shards := m.shards.setIfInBounds i d, shared := s }, ?_,
    ⟨⟨rfl, rfl, Array.size_setIfInBounds ..⟩, ?_, fun j hj => ?_⟩, rfl⟩
  · rw [modifyShard_eq, hout]
  · rw [shardAt_set, if_pos ⟨rfl, hi⟩]
  · rw [shardAt_set, if_neg fun h => hj h.1.symm]

theorem enter_swaps {m : Map κ ν} {i : Nat} (hi : i < m.shards.size) :
    m.Swaps i (m.shardAt i).enter.2 (m.enter i).2 ∧ (m.enter i).2.shared = m.shared := by
  obtain ⟨m', hrun, hswap, hshared⟩ :=
    modifyShard_swaps (f := fun (d : Shard κ ν) s => (d.enter.1, d.enter.2, s)) hi rfl
  have hrun' : m.enter i = ((m.shardAt i).enter.1, m') := hrun
  rw [hrun']
  exact ⟨hswap, hshared⟩

theorem leave_swaps {m : Map κ ν} {i : Nat} (hi : i < m.shards.size) :
    m.Swaps i (m.shardAt i).leave (m.leave i) ∧ (m.leave i).shared = m.shared := by
  obtain ⟨m', hrun, hswap, hshared⟩ :=
    modifyShard_swaps (f := fun (d : Shard κ ν) s => ((), d.leave, s)) hi rfl
  unfold leave
  rw [hrun]
  exact ⟨hswap, hshared⟩

namespace Fit

variable {held : Bool} {m m' : Map κ ν}

/-- A fit map with another fit shard in it is fit. -/
theorem swap (h : m.Fit held) {i : Nat} {d : Shard κ ν} (hswap : m.Swaps i d m')
    (hd : d.Fit held (m.placeIn i)) (hclean : m'.shared.pool.IsClean) : m'.Fit held where
  shards j hj := by
    rw [hswap.placeIn_eq]
    by_cases hji : j = i
    · rw [hji, hswap.here]
      exact hd
    · rw [hswap.others j hji]
      exact h.shards j (hswap.size_eq ▸ hj)
  clean := hclean
  pos := hswap.size_eq ▸ h.pos
  single hl := hswap.size_eq.trans (h.single (hswap.layout_eq.symm.trans hl))

theorem route_lt (h : m.Fit held) (hash : UInt64) : (m.route hash).shard < m.shards.size :=
  route_shard_lt h.pos hash

/-- Both layouts lead a hash where the split among the shards leads it. -/
theorem route_eq_splitHash (h : m.Fit held) (hash : UInt64) :
    m.route hash = splitHash (foldHash hash) m.shards.size := by
  unfold route
  cases hlayout : m.layout with
  | single =>
    dsimp only
    rw [h.single hlayout, splitHash_one]
  | sharded => rfl

/-! ### Readers -/

/-- A hushed change of the bucket at a place. -/
theorem hush (h : m.Fit held) {f : Bucket κ ν → Shared κ ν → α × Bucket κ ν × Shared κ ν}
    (hf : Bucket.Hushed f) {p : Place} (hp : p.shard < m.shards.size) :
    (m.modifyBucket p f).2.Fit held ∧ m.Alike (m.modifyBucket p f).2 := by
  obtain ⟨hfit, halike, hclean⟩ :=
    (h.shards p.shard hp).inBucket hf p.generation p.bucket h.clean
  obtain ⟨m', hrun, hswap, hshared⟩ :=
    modifyShard_swaps (f := Shard.inBucket p.generation p.bucket f) hp rfl
  rw [modifyBucket_eq, hrun]
  exact ⟨h.swap hswap hfit (hshared ▸ hclean), hswap.alike halike⟩

theorem acquire (h : m.Fit held) {p : Place} (hp : p.shard < m.shards.size) :
    (m.acquire p).2.Fit held ∧ m.Alike (m.acquire p).2 :=
  h.hush Bucket.hushed_acquire hp

theorem release (h : m.Fit held) {p : Place} (hp : p.shard < m.shards.size) (n : Nat) :
    (m.release p n).Fit held ∧ m.Alike (m.release p n) :=
  h.hush (Bucket.hushed_release n) hp

theorem enter (h : m.Fit held) {i : Nat} (hi : i < m.shards.size) :
    (m.enter i).2.Fit held ∧ m.Swaps i (m.shardAt i).enter.2 (m.enter i).2 := by
  obtain ⟨hswap, hshared⟩ := enter_swaps hi
  have hfit := h.shards i hi
  exact ⟨h.swap hswap ⟨hfit.table, hfit.aside, hfit.sharers_eq⟩ (hshared ▸ h.clean), hswap⟩

theorem leave (h : m.Fit held) {i : Nat} (hi : i < m.shards.size) :
    (m.leave i).Fit held ∧ m.Swaps i (m.shardAt i).leave (m.leave i) := by
  obtain ⟨hswap, hshared⟩ := leave_swaps hi
  have hfit := h.shards i hi
  refine ⟨h.swap hswap ?_ (hshared ▸ h.clean), hswap⟩
  -- the last to leave takes the tables set aside with it
  unfold Shard.leave
  split
  · exact ⟨hfit.table, by simp, hfit.sharers_eq⟩
  · exact ⟨hfit.table, hfit.aside, hfit.sharers_eq⟩

/-- What a reader finds at a place that there is. -/
theorem acquire_cases (h : m.Fit held) {i g j : Nat} (hi : i < m.shards.size)
    (hj : j < (m.tableAt i g).size) :
    ((m.tableAt i g).shelves.getD j [] = [] ∧ (m.acquire ⟨i, g, j⟩).1 = .absent) ∨
    (∃ n, (m.acquire ⟨i, g, j⟩).1 = .held n ∧
      ((m.acquire ⟨i, g, j⟩).2.bucketAt ⟨i, g, j⟩).itemsAt n
        = (m.tableAt i g).shelves.getD j []) ∨
    (held = true ∧ (m.shardAt i).aside.size ≤ g ∧ (m.acquire ⟨i, g, j⟩).1 = .waits ∧
      (m.bucketAt ⟨i, g, j⟩).Brims ∧
      (m.acquire ⟨i, g, j⟩).2.bucketAt ⟨i, g, j⟩ = m.bucketAt ⟨i, g, j⟩) := by
  obtain ⟨held', hheld, htable⟩ := (h.shards i hi).tableAt g
  have hsteady : (m.bucketAt ⟨i, g, j⟩).Steady held' := Table.steady_getD htable.steady hj
  have hitems : (m.bucketAt ⟨i, g, j⟩).items = (m.tableAt i g).shelves.getD j [] :=
    Table.items_getD ..
  have hafter : (m.acquire ⟨i, g, j⟩).2.bucketAt ⟨i, g, j⟩
      = ((m.bucketAt ⟨i, g, j⟩).acquire m.shared).2.1 := bucketAt_modifyBucket hi hj _
  rw [hafter]
  unfold Map.acquire
  rw [modifyBucket_fst, ← hitems]
  rcases hsteady.acquire_cases m.shared with hcase | hcase | ⟨hh, hbrims, hacq⟩
  · exact .inl hcase
  · exact .inr (.inl hcase)
  · rw [hacq]
    exact .inr (.inr ⟨(hheld hh).1, (hheld hh).2, rfl, hbrims, rfl⟩)

end Fit

/-! ### Reads -/

theorem Swaps.enter_fst_le {m : Map κ ν} {i : Nat}
    (hswap : m.Swaps i (m.shardAt i).enter.2 (m.enter i).2) :
    ((m.enter i).2.shardAt i).aside.size ≤ (m.enter i).1 := by
  rw [hswap.here, enter_fst]
  exact Nat.le_refl _

/-- The bucket of a hash in the current table of its shard. -/
def bucketOf (m : Map κ ν) (hash : UInt64) : Bucket κ ν :=
  (m.shardAt (m.route hash).shard).table.buckets[
    (m.shardAt (m.route hash).shard).table.index (m.route hash).hash]

section Places

variable {held : Bool} {m m' : Map κ ν}

theorem getElem?_bucketOf (m : Map κ ν) (hash : UInt64) :
    (m.shardAt (m.route hash).shard).table.buckets[((m.shardAt
      (m.route hash).shard).table.index (m.route hash).hash).val]? = some (m.bucketOf hash) :=
  Array.getElem?_eq_getElem _

theorem bucketOf_eq_getD (m : Map κ ν) (hash : UInt64) :
    m.bucketOf hash = (m.shardAt (m.route hash).shard).table.buckets.getD
      (slot (m.shardAt (m.route hash).shard).table.size (m.route hash).hash) {} := by
  rw [Array.getD_eq_getD_getElem?]
  exact (congrArg (·.getD {}) (getElem?_bucketOf m hash)).symm

/-- The place of a hash, for who has guarded the current table of its shard. -/
def placeOf (m : Map κ ν) (hash : UInt64) (g : Nat) : Place :=
  ⟨(m.route hash).shard, g, slot (m.shardAt (m.route hash).shard).table.size (m.route hash).hash⟩

theorem bucketAt_placeOf {hash : UInt64} {g : Nat}
    (hg : (m.shardAt (m.route hash).shard).aside.size ≤ g) :
    m.bucketAt (m.placeOf hash g) = m.bucketOf hash := by
  unfold bucketAt placeOf
  rw [tableAt_current hg]
  exact (bucketOf_eq_getD m hash).symm

/-- Where every table keeps its size, a hash keeps its place. -/
theorem SameView.placeOf_eq (h : m.SameView m') (hash : UInt64) (g : Nat) :
    m'.placeOf hash g = m.placeOf hash g := by
  have hsize := Table.size_congr (h.shelves_eq (m.route hash).shard)
  unfold placeOf
  rw [h.route_eq, hsize]

theorem Alike.placeOf_eq (h : m.Alike m') (hash : UInt64) (g : Nat) :
    m'.placeOf hash g = m.placeOf hash g := h.sameView.placeOf_eq hash g

theorem Swaps.bucketOf_eq {i : Nat} {d : Shard κ ν} (h : m.Swaps i d m')
    (hd : d.table = (m.shardAt i).table) (hash : UInt64) : m'.bucketOf hash = m.bucketOf hash := by
  have htable : (m'.shardAt (m.route hash).shard).table =
      (m.shardAt (m.route hash).shard).table := by
    by_cases hi : (m.route hash).shard = i
    · rw [hi, h.here, hd]
    · rw [h.others _ hi]
  rw [bucketOf_eq_getD, bucketOf_eq_getD, h.route_eq, htable]

theorem Fit.steady_bucketOf (h : m.Fit held) (hash : UInt64) : (m.bucketOf hash).Steady held :=
  (h.shards _ (h.route_lt hash)).table.steady _ (Array.getElem_mem _)

/-- A change of the bucket that a hash leads to, whatever it is. -/
theorem Fit.modifyBucket_placeOf (h : m.Fit held)
    (f : Bucket κ ν → Shared κ ν → α × Bucket κ ν × Shared κ ν) {hash : UInt64} {g : Nat}
    (hg : (m.shardAt (m.route hash).shard).aside.size ≤ g) :
    (m.modifyBucket (m.placeOf hash g) f).1 = (f (m.bucketOf hash) m.shared).1 ∧
      (m.modifyBucket (m.placeOf hash g) f).2.bucketAt (m.placeOf hash g)
        = (f (m.bucketOf hash) m.shared).2.1 := by
  have hj : (m.placeOf hash g).bucket < (m.tableAt (m.placeOf hash g).shard
      (m.placeOf hash g).generation).size := by
    show _ < (m.tableAt (m.route hash).shard g).size
    rw [tableAt_current hg]
    exact ((m.shardAt (m.route hash).shard).table.index (m.route hash).hash).isLt
  refine ⟨?_, ?_⟩
  · rw [modifyBucket_fst, bucketAt_placeOf hg]
  · rw [bucketAt_modifyBucket (h.route_lt hash) hj, bucketAt_placeOf hg]

/-- Whoever enters the shard of a hash finds its bucket as it is. -/
theorem Fit.enter_place (h : m.Fit held) (hash : UInt64) :
    ∃ g m₁, m.enter (m.route hash).shard = (g, m₁) ∧ m₁.Fit held ∧
      m.Swaps (m.route hash).shard (m.shardAt (m.route hash).shard).enter.2 m₁ ∧
      (m₁.shardAt (m₁.route hash).shard).aside.size ≤ g ∧
      m₁.bucketOf hash = m.bucketOf hash ∧
      (⟨(m.route hash).shard, g, (m₁.tableAt (m.route hash).shard g).index (m.route hash).hash⟩ :
        Place) = m₁.placeOf hash g := by
  obtain ⟨hfit, henter⟩ := h.enter (h.route_lt hash)
  have hg := henter.enter_fst_le
  have hroute := henter.route_eq hash
  have hbucket := henter.bucketOf_eq rfl hash
  generalize m.enter (m.route hash).shard = entered at *
  obtain ⟨g, m₁⟩ := entered
  dsimp only at hfit henter hg hroute hbucket
  refine ⟨g, m₁, rfl, hfit, henter, by rwa [hroute], hbucket, ?_⟩
  unfold placeOf
  rw [hroute, tableAt_current hg]
  rfl

theorem items_bucketOf (m : Map κ ν) (hash : UInt64) :
    (m.bucketOf hash).items = m.shelfAt (m.route hash) := by
  rw [bucketOf_eq_getD, Table.items_getD]
  unfold shelfAt
  rw [Table.length_shelves]

end Places

/-- What a lookup is looked up by inside the shard of its hash. -/
def queryOf (m : Map κ ν) (q : Lookup κ) : Query κ := ⟨(m.route q.hash).hash, q.admits⟩

/-- The item on the shelf of a lookup that answers it. -/
def find? (m : Map κ ν) (q : Lookup κ) : Option (Item κ ν) :=
  (m.shelfAt (m.route q.hash)).find? (m.queryOf q).selects

/--
What a read of a fit map comes to: it finds nothing, or runs its callback, or waits. It runs the
callback on the map alike to what it has entered, and leaves it as the callback left it.
-/
theorem Fit.read_cases {held : Bool} {m : Map κ ν} (h : m.Fit held) (q : Lookup κ)
    (f : κ × ν → Map κ ν → α × Map κ ν) :
    (m.find? q = none ∧ ∃ m', m'.Fit held ∧ (m.enter (m.route q.hash).shard).2.Alike m' ∧
      m.read q f = (.done none, m'.leave (m.route q.hash).shard)) ∨
    (∃ i p n m', m.find? q = some i ∧ m'.Fit held ∧ p.shard = (m.route q.hash).shard ∧
      (m.enter (m.route q.hash).shard).2.Alike m' ∧ m.read q f = (.done (some (f i.entry m').1),
        ((f i.entry m').2.release p n).leave (m.route q.hash).shard)) ∨
    (held = true ∧ (m.bucketOf q.hash).Brims ∧ ∃ m', m'.Fit held ∧
      (m.enter (m.route q.hash).shard).2.Alike m' ∧
      m.read q f = (.waits, m'.leave (m.route q.hash).shard)) := by
  obtain ⟨g, m₁, hrun, hfit, hswap, hg, hbucket, hplace⟩ := h.enter_place q.hash
  have hi : (m₁.placeOf q.hash g).shard < m₁.shards.size := hfit.route_lt q.hash
  have hfind : m.find? q = (m.bucketOf q.hash).items.find? (m.queryOf q).selects := by
    rw [items_bucketOf]
    rfl
  obtain ⟨hanswer, hafter⟩ := hfit.modifyBucket_placeOf Bucket.acquire hg
  change (m₁.acquire (m₁.placeOf q.hash g)).1 = _ at hanswer
  change (m₁.acquire (m₁.placeOf q.hash g)).2.bucketAt (m₁.placeOf q.hash g) = _ at hafter
  obtain ⟨hfit₂, halike⟩ := hfit.acquire hi
  rw [hfind]
  unfold read
  dsimp only
  rw [hrun]
  dsimp only
  rw [hplace]
  rw [hbucket] at hanswer hafter
  generalize m₁.acquire (m₁.placeOf q.hash g) = acquired at *
  obtain ⟨a, m₂⟩ := acquired
  dsimp only at hanswer hafter hfit₂ halike ⊢
  rcases (h.steady_bucketOf q.hash).acquire_cases m₁.shared with
    ⟨hnone, hout⟩ | ⟨n, hout, hseen⟩ | ⟨hheld, hbrims, hout⟩
  -- nothing has been published in the bucket, so its shelf is empty
  · obtain rfl : a = .absent := hanswer.trans hout
    rw [hnone]
    exact .inl ⟨rfl, m₂, hfit₂, halike, rfl⟩
  · obtain rfl : a = .held n := hanswer.trans hout
    have hquery : (⟨(m.route q.hash).hash, q.admits⟩ : Query κ) = m.queryOf q := rfl
    dsimp only
    rw [Bucket.findAt_eq, hafter, hseen, hquery]
    cases hfound : (m.bucketOf q.hash).items.find? (m.queryOf q).selects with
    | none =>
      obtain ⟨hfit₃, hrelease⟩ := hfit₂.release (halike.size_eq ▸ hi) n
      exact .inl ⟨rfl, _, hfit₃, halike.trans hrelease, rfl⟩
    | some i =>
      exact .inr (.inl ⟨i, _, n, m₂, rfl, hfit₂, congrArg Place.shard hplace.symm, halike, rfl⟩)
  · obtain rfl : a = .waits := hanswer.trans (congrArg Prod.fst hout)
    exact .inr (.inr ⟨hheld, hbrims, m₂, hfit₂, halike, rfl⟩)

end Map

end VersionedMap
