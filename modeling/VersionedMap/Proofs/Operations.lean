import Mathlib.Data.List.Forall2
import VersionedMap.Proofs.Edits

/-!
# Operations on a fit map

What the operations that change a map come to, with a view of it or without: the map is fit
again, and they have passed over its shards. What is visible of a map is its shape with the shelves
and counts of its tables. Locking and unlocking leave that as it is, wiping empties it, and as
long as a view is held nothing else changes it.
-/

namespace VersionedMap

variable {κ ν α β σ : Type}

/-! ## Sweeps -/

/-- What relates every element to what one step makes of it relates the arrays, place by place. -/
theorem sweepList_forall₂ {f : α → σ → β × σ} {P : σ → Prop} {R : α → β → Prop} {l : List α}
    (hstep : ∀ x ∈ l, ∀ s, P s → P (f x s).2 ∧ R x (f x s).1) {s : σ} (hs : P s) :
    P (sweepList f l s).2 ∧ List.Forall₂ R l (sweepList f l s).1 := by
  induction l generalizing s with
  | nil => exact ⟨hs, .nil⟩
  | cons x l ih =>
    obtain ⟨hp, hr⟩ := hstep x List.mem_cons_self s hs
    obtain ⟨hrest, hall⟩ := ih (fun y hy => hstep y (List.mem_cons_of_mem x hy)) hp
    exact ⟨hrest, .cons hr hall⟩

theorem sweep_pointwise {f : α → σ → β × σ} {P : σ → Prop} {R : α → β → Prop} {a : Array α}
    (hstep : ∀ x ∈ a, ∀ s, P s → P (f x s).2 ∧ R x (f x s).1) {s : σ} (hs : P s) :
    P (sweep f a s).2 ∧ ∀ (i : Nat) (x : α), a[i]? = some x →
      ∃ y, (sweep f a s).1[i]? = some y ∧ R x y := by
  obtain ⟨hp, hall⟩ := sweepList_forall₂ (l := a.toList)
    (fun x hx => hstep x (Array.mem_toList_iff.mp hx)) hs
  rw [sweep_eq]
  refine ⟨hp, fun i x hx => ?_⟩
  rw [← Array.getElem?_toList] at hx
  rw [List.getElem?_toArray]
  obtain ⟨hi, rfl⟩ := List.getElem?_eq_some_iff.mp hx
  have hi' : i < (sweepList f a.toList s).1.length := hall.length_eq ▸ hi
  exact ⟨_, List.getElem?_eq_getElem hi', (List.forall₂_iff_get.mp hall).2 i hi hi'⟩

/-! ## Shards -/

namespace Shard

variable {place : κ → Option UInt32} {d : Shard κ ν}

theorem Fit.replace (h : d.Fit false place) {old t : Table κ ν} (hold : old.Fit false place)
    (ht : t.Fit false place) : (d.replace old t).Fit false place := by
  unfold Shard.replace
  split
  · exact ⟨ht, h.aside, h.sharers_eq⟩
  · refine ⟨ht, fun t' ht' => ?_, h.sharers_eq⟩
    rcases Array.mem_push.mp ht' with ht' | rfl
    · exact h.aside t' ht'
    · exact hold

/-- Growth, where it is still due, moves the items of the current table. -/
theorem Fit.grow (h : d.Fit false place) {s : Shared κ ν} (hs : s.pool.IsClean) :
    ∃ d' s', d.grow s = (.done (), d', s') ∧ d'.Fit false place ∧ d.Passes d' ∧
      (∀ x, x ∈ d'.table.items ↔ x ∈ d.table.items) ∧ s'.pool.IsClean := by
  unfold Shard.grow
  rw [if_neg (by simp [h.sharers_eq])]
  split
  · exact ⟨d, s, rfl, h, .refl d, fun _ => Iff.rfl, hs⟩
  · obtain ⟨hgrown, hold, _, hitems, hclean⟩ := h.table.grow hs
    have hshelves := Table.shelves_grow_old h.table.ready s
    generalize d.table.grow s = out at *
    obtain ⟨grown, old, s'⟩ := out
    refine ⟨_, _, rfl, h.replace hold hgrown, passes_replace d hshelves, fun x => ?_, hclean⟩
    rw [table_replace]
    exact hitems x

/-- Clearing puts an empty table in place of the current one. -/
theorem Fit.clear_eq (h : d.Fit false place) (s : Shared κ ν) :
    d.clear s = (.done (), d.replace d.table d.table.emptied, s.note (.cleared d.table.size)) := by
  unfold Shard.clear
  rw [if_neg (by simp [h.sharers_eq])]

end Shard

/-! ## Maps without a view -/

namespace Map

variable {m m' m'' : Map κ ν}

theorem Passes.moved (h : m.Passes m') (h' : m'.Passes m'')
    (hitems : ∀ i x, x ∈ (m''.shardAt i).table.items ↔ x ∈ (m'.shardAt i).table.items) :
    m.Passes m'' :=
  ⟨h.toSameShape.trans h'.toSameShape, fun i => (h.shards i).moved (h'.shards i) (hitems i)⟩

theorem items_iff_of_shards (hshape : m.SameShape m')
    (hitems : ∀ i x, x ∈ (m'.shardAt i).table.items ↔ x ∈ (m.shardAt i).table.items)
    (x : Item κ ν) : x ∈ m'.items ↔ x ∈ m.items := by
  rw [mem_items, mem_items, hshape.size_eq]
  simp only [hitems]

/-- The first step of a mutation. -/
theorem Fit.change (h : m.Fit false) {hash : UInt64} {f : UInt32 → Mutation κ ν α}
    {own : κ → Prop} {spares : α → κ → Prop} (hf : ∀ hash, (f hash).Edits hash own spares)
    (hown : ∀ k, own k → m.hash k = hash) :
    ∃ a due m', m.change hash f = (.done (a, due), m') ∧ m'.Fit false ∧ m.Passes m' ∧
      ∀ x ∈ m.items, spares a x.key → x ∈ m'.items := by
  have hi := h.route_lt hash
  have hshard := h.shards _ hi
  obtain ⟨a, due, t, s, hmutate, hfit, hsize, hclean, hkept⟩ :=
    hshard.table.mutate (hf (m.route hash).hash) (fun k hk => by
      have hplace := m.placeIn_route k
      rwa [hown k hk] at hplace) h.clean
  obtain ⟨m', hrun, hswap, hshared⟩ := modifyShard_swaps hi
    (f := fun d s => d.change (m.route hash).hash (f (m.route hash).hash) s)
    (by rw [Shard.change_eq, hmutate])
  have hfit' : m'.Fit false :=
    h.swap hswap ⟨hfit, hshard.aside, hshard.sharers_eq⟩ (hshared ▸ hclean)
  refine ⟨a, due, m', hrun, hfit', hswap.passes (Shard.passes_inPlace _ hsize _), ?_⟩
  intro x hx hspared
  obtain ⟨i, hi', hx⟩ := mem_items.mp hx
  refine mem_items.mpr ⟨i, hswap.size_eq ▸ hi', ?_⟩
  by_cases hir : i = (m.route hash).shard
  · subst hir
    rw [hswap.here]
    exact hkept x hx hspared
  · rw [hswap.others i hir]
    exact hx

theorem Fit.grow (h : m.Fit false) {i : Nat} (hi : i < m.shards.size) :
    ∃ m', m.grow i = (.done (), m') ∧ m'.Fit false ∧ m.Passes m' ∧
      ∀ j x, x ∈ (m'.shardAt j).table.items ↔ x ∈ (m.shardAt j).table.items := by
  obtain ⟨d, s, hout, hfit, hpasses, hitems, hclean⟩ := (h.shards i hi).grow h.clean
  obtain ⟨m', hrun, hswap, hshared⟩ := modifyShard_swaps hi hout
  refine ⟨m', hrun, h.swap hswap hfit (hshared ▸ hclean), hswap.passes hpasses, fun j x => ?_⟩
  by_cases hj : j = i
  · rw [hj, hswap.here]
    exact hitems x
  · rw [hswap.others j hj]

/-- A mutation goes through, and spares what it spares; growth, if it follows, moves items. -/
theorem Fit.mutate (h : m.Fit false) {hash : UInt64} {f : UInt32 → Mutation κ ν α}
    {own : κ → Prop} {spares : α → κ → Prop} (hf : ∀ hash, (f hash).Edits hash own spares)
    (hown : ∀ k, own k → m.hash k = hash) :
    ∃ a m', m.mutate hash f = (.done a, m') ∧ m'.Fit false ∧ m.Passes m' ∧
      ∀ x ∈ m.items, spares a x.key → x ∈ m'.items := by
  obtain ⟨a, due, m', hchange, hfit, hpasses, hkept⟩ := h.change hf hown
  unfold Map.mutate
  dsimp only
  rw [hchange]
  cases due with
  | false => exact ⟨a, m', rfl, hfit, hpasses, hkept⟩
  | true =>
    obtain ⟨m'', hgrow, hfit', hpasses', hitems⟩ :=
      hfit.grow (i := (m.route hash).shard) (hpasses.size_eq ▸ h.route_lt hash)
    refine ⟨a, m'', ?_, hfit', hpasses.moved hpasses' hitems, fun x hx hspared => ?_⟩
    · dsimp only
      rw [hgrow]
    · exact (items_iff_of_shards hpasses'.toSameShape hitems x).mpr (hkept x hx hspared)

/-- Clearing one shard leaves the others alone. -/
theorem Fit.clear_swaps (h : m.Fit false) {i : Nat} (hi : i < m.shards.size) :
    ∃ m', m.modifyShard i Shard.clear = (.done (), m') ∧ m'.Fit false ∧
      m.Swaps i ((m.shardAt i).replace (m.shardAt i).table (m.shardAt i).table.emptied) m' := by
  have hshard := h.shards i hi
  obtain ⟨m', hrun, hswap, hshared⟩ := modifyShard_swaps hi (hshard.clear_eq m.shared)
  have hreplaced := hshard.replace hshard.table hshard.table.emptied
  exact ⟨m', hrun, h.swap hswap hreplaced (hshared ▸ h.clean), hswap⟩

/-- Clearing the shards from one on changes each of them once, and none before it. -/
theorem Fit.clearFrom_replaces (h : m.Fit false) {i n : Nat} (hi : i + n = m.shards.size) :
    ∃ m', m.clearFrom i n = (.done (), m') ∧ m'.Fit false ∧ m.SameShape m' ∧
      ∀ j, m'.shardAt j = if i ≤ j ∧ j < m.shards.size then
        (m.shardAt j).replace (m.shardAt j).table (m.shardAt j).table.emptied else m.shardAt j := by
  induction n generalizing m i with
  | zero => exact ⟨m, rfl, h, .refl m, fun j => (if_neg (by omega)).symm⟩
  | succ n ih =>
    obtain ⟨m₁, hrun, hfit, hswap⟩ := h.clear_swaps (i := i) (by omega)
    obtain ⟨m₂, hrun₂, hfit₂, hshape₂, hafter⟩ :=
      ih hfit (i := i + 1) (by rw [hswap.size_eq]; omega)
    refine ⟨m₂, ?_, hfit₂, hswap.toSameShape.trans hshape₂, ?_⟩
    · unfold Map.clearFrom
      rw [hrun]
      exact hrun₂
    -- every shard changes once: this one now, and those after it later
    · intro j
      rw [hafter, hswap.size_eq]
      by_cases hj : j = i
      · subst hj
        rw [if_neg (by omega), if_pos (by omega), hswap.here]
      · rw [hswap.others j hj]
        exact if_congr (by omega) rfl rfl

theorem Fit.clear (h : m.Fit false) :
    ∃ m', m.clear = (.done (), m') ∧ m'.Fit false ∧ m.Passes m' := by
  obtain ⟨m', hrun, hfit, hshape, hshards⟩ := h.clearFrom_replaces (Nat.zero_add m.shards.size)
  refine ⟨m', hrun, hfit, hshape, fun j => ?_⟩
  rw [hshards]
  split
  · exact Shard.passes_replace _ rfl
  · exact .refl _

/-! ## Maps with a view -/

theorem modifyShard_self {i : Nat} {f : Shard κ ν → Shared κ ν → α × Shard κ ν × Shared κ ν}
    {a : α} (hout : f (m.shardAt i) m.shared = (a, m.shardAt i, m.shared)) :
    m.modifyShard i f = (a, m) := by
  have hset : m.shards.setIfInBounds i (m.shardAt i) = m.shards := by
    refine Array.ext (Array.size_setIfInBounds ..) fun j _ hj => ?_
    rw [Array.getElem_setIfInBounds hj]
    split
    · rename_i hij
      rw [hij, shardAt_eq hj]
    · rfl
  rw [modifyShard_eq, hout]
  dsimp only
  rw [hset]

/-- Under a view changes wait, and the map is what it was. -/
theorem Fit.change_held (h : m.Fit true) (hash : UInt64) (f : UInt32 → Mutation κ ν α) :
    m.change hash f = (.waits, m) :=
  modifyShard_self (f := fun d s => d.change (m.route hash).hash (f (m.route hash).hash) s)
    (by rw [Shard.change_eq, (h.shards _ (h.route_lt hash)).table.mutate_held])

/-- Under a view mutations wait, and the map is what it was. -/
theorem Fit.mutate_held (h : m.Fit true) (hash : UInt64) (f : UInt32 → Mutation κ ν α) :
    m.mutate hash f = (.waits, m) := by
  unfold Map.mutate
  dsimp only
  rw [h.change_held]

/-- Under a view growth waits. -/
theorem Fit.grow_held (h : m.Fit true) {i : Nat} (hi : i < m.shards.size) :
    m.grow i = (.waits, m) := by
  refine modifyShard_self ?_
  unfold Shard.grow
  rw [if_pos (by simp [(h.shards i hi).sharers_eq])]

/-- Under a view a shard is not cleared. -/
theorem Fit.clearOne_held (h : m.Fit true) {i : Nat} (hi : i < m.shards.size) :
    m.modifyShard i Shard.clear = (.waits, m) := by
  refine modifyShard_self ?_
  unfold Shard.clear
  rw [if_pos (by simp [(h.shards i hi).sharers_eq])]

/-- Under a view clearing waits. -/
theorem Fit.clear_held (h : m.Fit true) : m.clear = (.waits, m) := by
  obtain ⟨n, hn⟩ : ∃ n, m.shards.size = n + 1 := ⟨m.shards.size - 1, by have := h.pos; omega⟩
  unfold Map.clear
  rw [hn]
  unfold Map.clearFrom
  rw [h.clearOne_held h.pos]

/-- A relation between shards place by place, and between those that there are not. -/
theorem shardAt_pointwise {R : Shard κ ν → Shard κ ν → Prop} (hvacant : R .vacant .vacant)
    (hsize : m'.shards.size = m.shards.size)
    (h : ∀ (i : Nat) (d : Shard κ ν), m.shards[i]? = some d →
      ∃ d', m'.shards[i]? = some d' ∧ R d d')
    (i : Nat) : R (m.shardAt i) (m'.shardAt i) := by
  unfold shardAt
  rw [Array.getD_eq_getD_getElem?, Array.getD_eq_getD_getElem?]
  cases hd : m.shards[i]? with
  | none =>
    rw [Array.getElem?_eq_none_iff] at hd
    rw [Array.getElem?_eq_none (hsize ▸ hd)]
    exact hvacant
  | some d =>
    obtain ⟨d', hd', hr⟩ := h i d hd
    rw [hd']
    exact hr

/-- Taking the lock of a map that nobody locks goes through and shows nothing. -/
theorem Fit.lock (h : m.Fit false) :
    ∃ m', m.lock = (.done {}, m') ∧ m'.Fit true ∧ m.Passes m' ∧ m.SameView m' := by
  have hfree : m.shards.any (·.table.anyLocked) = false := by
    rw [Array.any_eq_false]
    intro i hi
    have hsteady := (h.shards i hi).table.steady
    rw [shardAt_eq hi] at hsteady
    unfold Table.anyLocked
    rw [Bool.not_eq_true, Array.any_eq_false]
    intro j hj
    rw [Bool.not_eq_true]
    exact (hsteady _ (Array.getElem_mem hj)).locked_eq
  let F (d : Shard κ ν) : Shard κ ν := { d with table := d.table.lock, sharers := d.sharers + 1 }
  have hlock : m.lock = (.done {}, { m with shards := m.shards.map F }) := by
    unfold Map.lock
    rw [hfree]
    rfl
  have hsize : (m.shards.map F).size = m.shards.size := Array.size_map ..
  have hat (i : Nat) (hi : i < m.shards.size) :
      ({ m with shards := m.shards.map F } : Map κ ν).shardAt i = F (m.shardAt i) := by
    rw [shardAt_eq (hsize ▸ hi), shardAt_eq hi]
    exact Array.getElem_map ..
  have hshape : m.SameShape { m with shards := m.shards.map F } := ⟨rfl, rfl, hsize⟩
  have hlocked (t : Table κ ν) : t.lock.shelves = t.shelves := by
    unfold Table.lock Table.shelves
    dsimp only
    rw [Array.toList_map, List.map_map]
    rfl
  have hpoint (i : Nat) :
      (m.shardAt i).Passes (({ m with shards := m.shards.map F } : Map κ ν).shardAt i) ∧
        (({ m with shards := m.shards.map F } : Map κ ν).shardAt i).view = (m.shardAt i).view :=
    shardAt_pointwise (R := fun d d' => d.Passes d' ∧ d'.view = d.view) ⟨.refl _, rfl⟩ hsize
      (fun i d hd => ⟨F d, by rw [Array.getElem?_map, hd]; rfl,
        Shard.passes_inPlace d (Table.size_congr (hlocked _)) _, by
          unfold Shard.view
          rw [hlocked]
          rfl⟩) i
  refine ⟨_, hlock, ⟨fun i hi => ?_, h.clean, hsize ▸ h.pos, fun hl => hsize.trans (h.single hl)⟩,
    ⟨hshape, fun i => (hpoint i).1⟩, ⟨hshape, fun i => (hpoint i).2⟩⟩
  have hfit := h.shards i (hsize ▸ hi)
  rw [hshape.placeIn_eq, hat i (hsize ▸ hi)]
  refine ⟨hfit.table.lock.1, hfit.aside, ?_⟩
  show (m.shardAt i).sharers + 1 = 1
  rw [hfit.sharers_eq]
  rfl

/-- Taking it a second time waits. -/
theorem Fit.lock_held (h : m.Fit true) : m.lock = (.waits, m) := by
  have hlocked : m.shards.any (·.table.anyLocked) = true := by
    rw [Array.any_eq_true]
    refine ⟨0, h.pos, ?_⟩
    have hsteady := (h.shards 0 h.pos).table.steady
    rw [shardAt_eq h.pos] at hsteady
    unfold Table.anyLocked
    rw [Array.any_eq_true]
    exact ⟨0, Table.nonempty _, (hsteady _ (Array.getElem_mem _)).locked_eq⟩
  unfold Map.lock
  rw [hlocked]
  rfl

/-- A sweep over the shards, for what it comes to place by place. -/
theorem sweep_shards (h : m.Fit true) (held : Bool)
    {f : Shard κ ν → Shared κ ν → Shard κ ν × Shared κ ν} {R : Shard κ ν → Shard κ ν → Prop}
    (hstep : ∀ d s place, d.Fit true place → s.pool.IsClean →
      (f d s).2.pool.IsClean ∧ (∀ place, d.Fit true place → (f d s).1.Fit held place) ∧
        R d (f d s).1) (hvacant : R .vacant .vacant) :
    ({ m with shards := (sweep f m.shards m.shared).1, shared := (sweep f m.shards m.shared).2 } :
        Map κ ν).Fit held ∧
      m.SameShape { m with
        shards := (sweep f m.shards m.shared).1, shared := (sweep f m.shards m.shared).2 } ∧
      ∀ i, R (m.shardAt i) (({ m with
        shards := (sweep f m.shards m.shared).1, shared := (sweep f m.shards m.shared).2 } :
          Map κ ν).shardAt i) := by
  have hmem (d : Shard κ ν) (hd : d ∈ m.shards) : ∃ place, d.Fit true place := by
    obtain ⟨i, hi, rfl⟩ := Array.mem_iff_getElem.mp hd
    exact ⟨_, shardAt_eq hi ▸ h.shards i hi⟩
  obtain ⟨hclean, hpoint⟩ := sweep_pointwise (f := f) (a := m.shards)
    (P := fun s => s.pool.IsClean)
    (R := fun d d' => (∀ place, d.Fit true place → d'.Fit held place) ∧ R d d')
    (fun d hd s hs => by
      obtain ⟨place, hfit⟩ := hmem d hd
      exact hstep d s place hfit hs) h.clean
  have hsize : (sweep f m.shards m.shared).1.size = m.shards.size := size_sweep ..
  have hshape : m.SameShape { m with
      shards := (sweep f m.shards m.shared).1, shared := (sweep f m.shards m.shared).2 } :=
    ⟨rfl, rfl, hsize⟩
  refine ⟨⟨fun i hi => ?_, hclean, hsize ▸ h.pos, fun hl => hsize.trans (h.single hl)⟩, hshape,
    shardAt_pointwise hvacant hsize fun i d hd => ?_⟩
  · rw [hshape.placeIn_eq]
    have hi' : i < m.shards.size := hsize ▸ hi
    obtain ⟨d', hd', hfit, _⟩ := hpoint i _ (Array.getElem?_eq_getElem hi')
    rw [shardAt_eq hi]
    obtain rfl : _ = d' := Option.some.inj ((Array.getElem?_eq_getElem hi).symm.trans hd')
    exact hfit _ (shardAt_eq hi' ▸ h.shards i hi')
  · obtain ⟨d', hd', _, hr⟩ := hpoint i d hd
    exact ⟨d', hd', hr⟩

/-- Unlocking shows nothing. -/
theorem Fit.unlock (h : m.Fit true) :
    m.unlock.Fit false ∧ m.Passes m.unlock ∧ m.SameView m.unlock := by
  obtain ⟨hfit, hshape, hpoint⟩ := sweep_shards h false
    (f := fun (d : Shard κ ν) s =>
      ({ d with table := (d.table.unlock s).1, sharers := d.sharers - 1 }, (d.table.unlock s).2))
    (R := fun d d' => d.Passes d' ∧ d'.view = d.view) (fun d s place hd hs => by
      obtain ⟨_, hshelves, hcount, hclean⟩ := hd.table.unlock hs
      refine ⟨hclean, fun place hd => ⟨(hd.table.unlock hs).1, hd.aside, ?_⟩,
        Shard.passes_inPlace d (Table.size_congr hshelves) _, ?_⟩
      · dsimp only
        rw [hd.sharers_eq]
        rfl
      · unfold Shard.view
        rw [hshelves, hcount]) ⟨.refl _, rfl⟩
  exact ⟨hfit, ⟨hshape, fun i => (hpoint i).1⟩, ⟨hshape, fun i => (hpoint i).2⟩⟩

/-- A map of which a view has removed all items: there are as many buckets as before. -/
structure Wiped (m m' : Map κ ν) : Prop extends m.SameShape m' where
  view_eq : ∀ i, (m'.shardAt i).view = (.replicate (m.shardAt i).table.size [], 0)

/-- The view of a map wipes it. -/
theorem Fit.wipe (h : m.Fit true) {v : View} (hv : v.freed = false) :
    ∃ m', v.clear m = .ok m' ∧ m'.Fit true ∧ m.Passes m' ∧ m.Wiped m' := by
  have hvacant : (Shard.vacant : Shard κ ν).view = (.replicate 1 [], 0) := by
    unfold Shard.view Shard.vacant Table.vacant
    rw [Table.shelves_ofSize]
    rfl
  obtain ⟨hfit, hshape, hpoint⟩ := sweep_shards h true
    (f := fun (d : Shard κ ν) s => ({ d with table := (d.table.wipe s).1 }, (d.table.wipe s).2))
    (R := fun d d' => d.Passes d' ∧ d'.view = (.replicate d.table.size [], 0))
    (fun d s place hd hs => by
      obtain ⟨_, hshelves, hcount, hclean⟩ := hd.table.wipe hs
      have hsize : (d.table.wipe s).1.size = d.table.size := by
        rw [← Table.length_shelves, hshelves, List.length_replicate]
      refine ⟨hclean, fun place hd => ⟨(hd.table.wipe hs).1, hd.aside, hd.sharers_eq⟩,
        Shard.passes_inPlace d hsize _, ?_⟩
      unfold Shard.view
      rw [hshelves, hcount]) ⟨.refl _, hvacant⟩
  refine ⟨_, ?_, hfit, ⟨hshape, fun i => (hpoint i).1⟩, ⟨hshape, fun i => (hpoint i).2⟩⟩
  unfold View.clear View.check
  rw [hv]
  rfl

end Map

end VersionedMap
