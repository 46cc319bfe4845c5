import VersionedMap.Proofs.ChronicleReplies

/-!
# Maps that go on alike

Two maps are **peers** if nothing that an operation goes by tells them apart: they have the same
shape, the same shelves in every table that somebody can still come to, the same counts, and as many
guards. Their buckets may have come to their items in different ways, so that one map has an empty
version where the other has none.

Of peers every operation comes to the same and leaves peers again, one step after another. So do
reads and scans, whatever their callbacks do, if of peers the callbacks come to the same.
-/

namespace VersionedMap

variable {κ ν α β σ : Type}

/-! ## Tables -/

namespace Table

variable {t t' : Table κ ν}

/-- If the accounts are right, the same shelves make for the same count. -/
theorem Accounted.count_eq (h : t.Accounted) (h' : t'.Accounted)
    (hshelves : t'.shelves = t.shelves) : t'.count = t.count := by
  unfold Accounted at h h'
  rw [h, h', items_eq_flatten, items_eq_flatten, hshelves]

theorem needsGrowth_congr (hshelves : t'.shelves = t.shelves) (hcount : t'.count = t.count) :
    t'.needsGrowth = t.needsGrowth := by
  unfold needsGrowth
  rw [size_congr hshelves, hcount]

end Table

/-! ## Shards -/

namespace Shard

variable {d d' : Shard κ ν}

/-- The shelves of the tables set aside, oldest first. -/
def oldShelves (d : Shard κ ν) : List (List (List (Item κ ν))) := d.aside.toList.map Table.shelves

theorem shelves_tableAt (d : Shard κ ν) (g : Nat) :
    (d.tableAt g).shelves = (d.oldShelves[g]?).getD d.table.shelves := by
  unfold tableAt oldShelves
  rw [List.getElem?_map, Array.getElem?_toList]
  cases d.aside[g]? <;> rfl

/-- Shards are alike if the current tables show the same, and so do those set aside. -/
theorem alike_iff :
    d.Alike d' ↔ d'.view = d.view ∧ d'.oldShelves = d.oldShelves ∧ d'.guards = d.guards := by
  constructor
  · intro h
    have hold : d'.oldShelves = d.oldShelves := by
      refine List.ext_getElem? fun g => ?_
      have hshelves := h.shelves_eq g
      have hsize := h.aside_eq
      unfold tableAt at hshelves
      unfold oldShelves
      rw [List.getElem?_map, List.getElem?_map, Array.getElem?_toList, Array.getElem?_toList]
      by_cases hg : g < d.aside.size
      · have hg' : g < d'.aside.size := by omega
        rw [Array.getElem?_eq_getElem hg, Array.getElem?_eq_getElem hg'] at hshelves ⊢
        exact congrArg some hshelves
      · rw [Array.getElem?_eq_none (by omega), Array.getElem?_eq_none (by omega)]
    exact ⟨h.view_eq, hold, h.guards_eq⟩
  · rintro ⟨hview, hold, hguards⟩
    have hsize := congrArg List.length hold
    unfold oldShelves at hsize
    simp only [List.length_map, Array.length_toList] at hsize
    refine ⟨hview, ?_, hsize, hguards⟩
    intro g
    have hcurrent : d'.table.shelves = d.table.shelves := congrArg Prod.fst hview
    rw [shelves_tableAt, shelves_tableAt, hold, hcurrent]

/-- What growth makes of a shard that nobody views. -/
theorem grow_snd (hd : d.sharers = 0) (s : Shared κ ν) :
    (d.grow s).2.1 = if d.table.needsGrowth then d.replace (d.table.grow s).2.1 (d.table.grow s).1
      else d := by
  unfold Shard.grow
  rw [if_neg (by omega)]
  cases d.table.needsGrowth <;> rfl

namespace Alike

theorem symm (h : d.Alike d') : d'.Alike d :=
  ⟨h.view_eq.symm, fun g => (h.shelves_eq g).symm, h.aside_eq.symm, h.guards_eq.symm⟩

theorem oldShelves_eq (h : d.Alike d') : d'.oldShelves = d.oldShelves := (alike_iff.mp h).2.1

theorem enter (h : d.Alike d') : d.enter.2.Alike d'.enter.2 := by
  obtain ⟨hview, hold, hguards⟩ := alike_iff.mp h
  exact alike_iff.mpr ⟨hview, hold, congrArg (· + 1) hguards⟩

theorem leave (h : d.Alike d') : d.leave.Alike d'.leave := by
  obtain ⟨hview, hold, hguards⟩ := alike_iff.mp h
  unfold Shard.leave
  rw [hguards]
  split
  · exact alike_iff.mpr ⟨hview, rfl, rfl⟩
  · exact alike_iff.mpr ⟨hview, hold, rfl⟩

variable {t t' : Table κ ν}

theorem withTable (h : d.Alike d') (hshelves : t'.shelves = t.shelves)
    (hcount : t'.count = t.count) :
    ({ d with table := t } : Shard κ ν).Alike { d' with table := t' } := by
  obtain ⟨_, hold, hguards⟩ := alike_iff.mp h
  exact alike_iff.mpr ⟨Prod.ext hshelves hcount, hold, hguards⟩

theorem replace (h : d.Alike d') {old old' : Table κ ν} (hkept : old'.shelves = old.shelves)
    (hshelves : t'.shelves = t.shelves) (hcount : t'.count = t.count) :
    (d.replace old t).Alike (d'.replace old' t') := by
  have hold := h.oldShelves_eq
  have hguards := h.guards_eq
  unfold Shard.replace
  by_cases hnone : d.guards = 0
  · rw [if_pos hnone, if_pos (hguards.trans hnone)]
    exact h.withTable hshelves hcount
  -- both old tables are set aside, behind those that have been
  · rw [if_neg hnone, if_neg (by rwa [hguards])]
    refine alike_iff.mpr ⟨Prod.ext hshelves hcount, ?_, hguards⟩
    unfold oldShelves at hold ⊢
    dsimp only
    rw [Array.toList_push, Array.toList_push, List.map_append, List.map_append, hold]
    exact congrArg (_ ++ [·]) hkept

variable {place place' : κ → Option UInt32} {s s' : Shared κ ν}

/-- Growth is due in both or in none, and splits the same shelves. -/
theorem grow (h : d.Alike d') (hd : d.Fit false place) (hd' : d'.Fit false place')
    (hs : s.pool.IsClean) (hs' : s'.pool.IsClean) : (d.grow s).2.1.Alike (d'.grow s').2.1 := by
  have hshelves : d'.table.shelves = d.table.shelves := congrArg Prod.fst h.view_eq
  have hcount : d'.table.count = d.table.count := congrArg Prod.snd h.view_eq
  rw [grow_snd hd.sharers_eq, grow_snd hd'.sharers_eq, Table.needsGrowth_congr hshelves hcount]
  split
  · obtain ⟨hgrown, _⟩ := Table.grow_spec hd.table.ready hd.table.shelved hs
    obtain ⟨hgrown', _⟩ := Table.grow_spec hd'.table.ready hd'.table.shelved hs'
    obtain ⟨_, _, hkept, _⟩ := hd.table.grow hs
    obtain ⟨_, _, hkept', _⟩ := hd'.table.grow hs'
    have hold := Table.shelves_grow_old hd.table.ready s
    have hold' := Table.shelves_grow_old hd'.table.ready s'
    refine h.replace ?_ ?_ ?_
    · rw [hold, hold', hshelves]
    · rw [hgrown, hgrown', hshelves]
    · rw [hkept, hkept', hcount]
  · exact h

/-- Empty tables of one size in place of the current ones. -/
theorem emptied (h : d.Alike d') :
    (d.replace d.table d.table.emptied).Alike (d'.replace d'.table d'.table.emptied) := by
  have hshelves : d'.table.shelves = d.table.shelves := congrArg Prod.fst h.view_eq
  refine h.replace hshelves ?_ rfl
  rw [Table.shelves_emptied, Table.shelves_emptied, Table.size_congr hshelves]

end Alike

end Shard

/-! ## Maps -/

namespace Map

variable {held : Bool} {m m' m₁ m₁' : Map κ ν} {n : Nat}

theorem SameShape.symm (h : m.SameShape m') : m'.SameShape m :=
  ⟨h.hash_eq.symm, h.layout_eq.symm, h.size_eq.symm⟩

theorem SameView.symm (h : m.SameView m') : m'.SameView m :=
  ⟨h.toSameShape.symm, fun i => (h.view_eq i).symm⟩

theorem Alike.symm (h : m.Alike m') : m'.Alike m :=
  ⟨h.toSameShape.symm, fun i => (h.shards i).symm⟩

/-- From `m` to `m'` nobody comes or goes, and the tables set aside stay as they are. -/
structure SameAside (m m' : Map κ ν) : Prop where
  aside_eq : ∀ i, (m'.shardAt i).aside = (m.shardAt i).aside
  guards_eq : ∀ i, (m'.shardAt i).guards = (m.shardAt i).guards

namespace SameAside

theorem trans {m'' : Map κ ν} (h : m.SameAside m') (h' : m'.SameAside m'') : m.SameAside m'' :=
  ⟨fun i => (h'.aside_eq i).trans (h.aside_eq i), fun i => (h'.guards_eq i).trans (h.guards_eq i)⟩

/-- What is done to the current tables alone leaves maps alike if they show the same then. -/
theorem alike (h : m.Alike m') (hm : m.SameAside m₁) (hm' : m'.SameAside m₁')
    (hview : m₁.SameView m₁') : m₁.Alike m₁' := by
  refine ⟨hview.toSameShape, ?_⟩
  intro i
  obtain ⟨_, hold, hguards⟩ := Shard.alike_iff.mp (h.shards i)
  refine Shard.alike_iff.mpr ⟨hview.view_eq i, ?_, ?_⟩
  · unfold Shard.oldShelves at hold ⊢
    rw [hm.aside_eq, hm'.aside_eq, hold]
  · rw [hm.guards_eq, hm'.guards_eq, hguards]

/-- What leaves alone what is set aside in each shard does so in all of them. -/
theorem of_shards (hsize : m'.shards.size = m.shards.size)
    (h : ∀ (i : Nat) (d : Shard κ ν), m.shards[i]? = some d →
      ∃ d', m'.shards[i]? = some d' ∧ d'.aside = d.aside ∧ d'.guards = d.guards) :
    m.SameAside m' := by
  have hshard := shardAt_pointwise (R := fun d d' => d'.aside = d.aside ∧ d'.guards = d.guards)
    ⟨rfl, rfl⟩ hsize h
  exact ⟨fun i => (hshard i).1, fun i => (hshard i).2⟩

theorem sweep (m : Map κ ν) {f : Shard κ ν → Shared κ ν → Shard κ ν × Shared κ ν}
    (hf : ∀ d s, (f d s).1.aside = d.aside ∧ (f d s).1.guards = d.guards) :
    m.SameAside { m with shards := (VersionedMap.sweep f m.shards m.shared).1, shared :=
      (VersionedMap.sweep f m.shards m.shared).2 } := by
  obtain ⟨_, hpoint⟩ := sweep_pointwise (f := f) (a := m.shards) (P := fun _ => True)
    (R := fun d d' => d'.aside = d.aside ∧ d'.guards = d.guards)
    (fun d _ s _ => ⟨trivial, hf d s⟩) (s := m.shared) trivial
  exact of_shards (size_sweep ..) hpoint

theorem lock {v : View} (hrun : m.lock = (.done v, m₁)) : m.SameAside m₁ := by
  unfold Map.lock at hrun
  split at hrun
  · cases hrun
  · obtain ⟨_, rfl⟩ := Prod.mk.inj hrun
    refine of_shards (Array.size_map ..) ?_
    intro i d hd
    exact ⟨{ d with table := d.table.lock, sharers := d.sharers + 1 },
      by rw [Array.getElem?_map, hd]; rfl, rfl, rfl⟩

theorem unlock (m : Map κ ν) : m.SameAside m.unlock :=
  sweep m (f := fun (d : Shard κ ν) s =>
    ({ d with table := (d.table.unlock s).1, sharers := d.sharers - 1 }, (d.table.unlock s).2))
    fun _ _ => ⟨rfl, rfl⟩

theorem wipe {v : View} (hrun : v.clear m = .ok m₁) : m.SameAside m₁ := by
  unfold View.clear View.check at hrun
  cases hv : v.freed with
  | true =>
    rw [hv] at hrun
    cases hrun
  | false =>
    rw [hv] at hrun
    obtain rfl := Except.ok.inj hrun
    exact sweep m (f := fun (d : Shard κ ν) s =>
      ({ d with table := (d.table.wipe s).1 }, (d.table.wipe s).2)) fun _ _ => ⟨rfl, rfl⟩

end SameAside

/-- Wiped maps show the same if they have shown the same. -/
theorem Wiped.sameView_of (h : m.Wiped m₁) (hview : m.SameView m') (h' : m'.Wiped m₁') :
    m₁.SameView m₁' := by
  refine ⟨h.toSameShape.symm.trans (hview.toSameShape.trans h'.toSameShape), ?_⟩
  intro i
  rw [h.view_eq, h'.view_eq, Table.size_congr (hview.shelves_eq i)]

/-- In the bucket where it leads, a mutation goes by what stands on the shelf. -/
theorem Fit.outcome_eq (h : m.Fit held) {f : UInt32 → Mutation κ ν α}
    {e : UInt32 → Redaction κ ν α} (hf : ∀ hash, (f hash).Redacts (e hash)) (hash : UInt64) :
    (m.outcome hash f).1 = (e (m.route hash).hash (m.shelfAt (m.route hash))).1 ∧
      (m.outcome hash f).2.1.items = (e (m.route hash).hash (m.shelfAt (m.route hash))).2 := by
  have hredacts := hf (m.route hash).hash (m.bucketOf hash).lock m.shared h.clean
  rw [Bucket.items_lock, items_bucketOf] at hredacts
  exact hredacts

/-- Two maps, of so many shards, between which nothing differs that an operation goes by. -/
structure Peers (held : Bool) (n : Nat) (m m' : Map κ ν) : Prop extends m.Alike m' where
  fit : m.Fit held
  fit' : m'.Fit held
  size : m.shards.size = n

namespace Peers

theorem size' (h : Peers held n m m') : m'.shards.size = n := h.size_eq.trans h.size

theorem route_lt (h : Peers held n m m') (hash : UInt64) : (m.route hash).shard < n :=
  h.size ▸ h.fit.route_lt hash

/-- What is alike to peers are peers. -/
theorem alike (h : Peers held n m m') (hm : m.Alike m₁) (hm' : m'.Alike m₁')
    (hfit : m₁.Fit held) (hfit' : m₁'.Fit held) : Peers held n m₁ m₁' :=
  ⟨hm.symm.trans (h.toAlike.trans hm'), hfit, hfit', hm.size_eq.trans h.size⟩

/-- With shards that are alike in the same place peers are peers again. -/
theorem swap (h : Peers held n m m') {i : Nat} {d d' : Shard κ ν} (hm : m.Swaps i d m₁)
    (hm' : m'.Swaps i d' m₁') (hd : d.Alike d') (hfit : m₁.Fit held) (hfit' : m₁'.Fit held) :
    Peers held n m₁ m₁' := by
  have hshape : m₁.SameShape m₁' :=
    hm.toSameShape.symm.trans (h.toSameShape.trans hm'.toSameShape)
  refine ⟨⟨hshape, ?_⟩, hfit, hfit', hm.size_eq.trans h.size⟩
  intro j
  by_cases hj : j = i
  · rw [hj, hm.here, hm'.here]
    exact hd
  · rw [hm.others j hj, hm'.others j hj]
    exact h.shards j

/-! ### Readers -/

theorem enter (h : Peers held n m m') {i : Nat} (hi : i < n) :
    (m'.enter i).1 = (m.enter i).1 ∧ Peers held n (m.enter i).2 (m'.enter i).2 := by
  obtain ⟨hfit, hswap⟩ := h.fit.enter (i := i) (h.size ▸ hi)
  obtain ⟨hfit', hswap'⟩ := h.fit'.enter (i := i) (h.size' ▸ hi)
  refine ⟨?_, h.swap hswap hswap' (h.shards i).enter hfit hfit'⟩
  rw [enter_fst, enter_fst]
  exact (h.shards i).aside_eq

theorem leave (h : Peers held n m m') {i : Nat} (hi : i < n) :
    Peers held n (m.leave i) (m'.leave i) := by
  obtain ⟨hfit, hswap⟩ := h.fit.leave (i := i) (h.size ▸ hi)
  obtain ⟨hfit', hswap'⟩ := h.fit'.leave (i := i) (h.size' ▸ hi)
  exact h.swap hswap hswap' (h.shards i).leave hfit hfit'

theorem shelves_tableAt (h : Peers held n m m') (i g : Nat) :
    (m'.tableAt i g).shelves = (m.tableAt i g).shelves := (h.shards i).shelves_eq g

/-! ### Mutations -/

/-- The first step of a motion. -/
theorem change (h : Peers false n m m') (μ : Motion κ ν m.hash) :
    ∃ x m₁ m₁', m.change μ.key μ.act = (.done x, m₁) ∧ m'.change μ.key μ.act = (.done x, m₁') ∧
      Peers false n m₁ m₁' := by
  obtain ⟨own, spares, hedits, hown⟩ := μ.edits
  obtain ⟨t, m₁, hrun, hswap, hshelves, _⟩ := h.fit.change_spec μ.key μ.mute
  obtain ⟨t', m₁', hrun', hswap', hshelves', _⟩ := h.fit'.change_spec μ.key μ.mute
  have hfit : m₁.Fit false := by
    obtain ⟨_, _, _, hchange, hfit, _⟩ := h.fit.change hedits hown
    obtain ⟨_, rfl⟩ := Prod.mk.inj (hrun.symm.trans hchange)
    exact hfit
  have hfit' : m₁'.Fit false := by
    obtain ⟨_, _, _, hchange, hfit', _⟩ := h.fit'.change hedits fun k hk =>
      (congrFun h.hash_eq k).trans (hown k hk)
    obtain ⟨_, rfl⟩ := Prod.mk.inj (hrun'.symm.trans hchange)
    exact hfit'
  have hview := h.toAlike.sameView
  have hroute := h.route_eq μ.key
  have hi : (m.route μ.key).shard < n := h.route_lt μ.key
  obtain ⟨hresult, hitems⟩ := h.fit.outcome_eq μ.redacts μ.key
  obtain ⟨hresult', hitems'⟩ := h.fit'.outcome_eq μ.redacts μ.key
  have hshelf : m'.shelfAt (m'.route μ.key) = m.shelfAt (m.route μ.key) := by
    unfold shelfAt
    rw [hroute, hview.shelves_eq]
  rw [hroute] at hswap' hshelves'
  -- the same is done to the same shelf, and so the counts are the same too
  have hsame : t'.shelves = t.shelves := by
    rw [hshelves, hshelves', hitems, hitems', hshelf, hroute, hview.shelves_eq,
      Table.size_congr (hview.shelves_eq _)]
  have hcount : t'.count = t.count := by
    have haccounted := (hfit.shards _ (by rw [hswap.size_eq, h.size]; exact hi)).table.accounted
    have haccounted' := (hfit'.shards _ (by rw [hswap'.size_eq, h.size']; exact hi)).table.accounted
    rw [hswap.here] at haccounted
    rw [hswap'.here] at haccounted'
    exact haccounted.count_eq haccounted' hsame
  refine ⟨_, m₁, m₁', hrun, ?_,
    h.swap hswap hswap' ((h.shards _).withTable hsame hcount) hfit hfit'⟩
  rw [hrun', hresult, hresult', hshelf, hroute, Table.needsGrowth_congr hsame hcount]

/-- The second step of a mutation. -/
theorem grow (h : Peers false n m m') {i : Nat} (hi : i < n) :
    ∃ m₁ m₁', m.grow i = (.done (), m₁) ∧ m'.grow i = (.done (), m₁') ∧ Peers false n m₁ m₁' := by
  have hlt : i < m.shards.size := h.size ▸ hi
  have hlt' : i < m'.shards.size := h.size' ▸ hi
  obtain ⟨m₁, hrun, hfit, _⟩ := h.fit.grow hlt
  obtain ⟨m₁', hrun', hfit', _⟩ := h.fit'.grow hlt'
  obtain ⟨_, hsame, hswap, _⟩ := modifyShard_swaps (f := Shard.grow) hlt rfl
  obtain ⟨_, hsame', hswap', _⟩ := modifyShard_swaps (f := Shard.grow) hlt' rfl
  obtain rfl := congrArg Prod.snd (hrun.symm.trans hsame)
  obtain rfl := congrArg Prod.snd (hrun'.symm.trans hsame')
  have halike := (h.shards i).grow (h.fit.shards i hlt) (h.fit'.shards i hlt') h.fit.clean
    h.fit'.clean
  exact ⟨m₁, m₁', hrun, hrun', h.swap hswap hswap' halike hfit hfit'⟩

/-- A motion, with growth if it has made that due. -/
theorem mutate (h : Peers false n m m') (μ : Motion κ ν m.hash) :
    ∃ a m₁ m₁', m.mutate μ.key μ.act = (.done a, m₁) ∧ m'.mutate μ.key μ.act = (.done a, m₁') ∧
      Peers false n m₁ m₁' := by
  obtain ⟨⟨a, due⟩, m₁, m₁', hrun, hrun', hpeers⟩ := h.change μ
  unfold Map.mutate
  dsimp only
  rw [hrun, hrun', h.route_eq]
  cases due with
  | false => exact ⟨a, m₁, m₁', rfl, rfl, hpeers⟩
  | true =>
    obtain ⟨m₂, m₂', hgrow, hgrow', hpeers₂⟩ := hpeers.grow (h.route_lt μ.key)
    dsimp only
    rw [hgrow, hgrow']
    exact ⟨a, m₂, m₂', rfl, rfl, hpeers₂⟩

theorem clear (h : Peers false n m m') :
    ∃ m₁ m₁', m.clear = (.done (), m₁) ∧ m'.clear = (.done (), m₁') ∧ Peers false n m₁ m₁' := by
  obtain ⟨m₁, hrun, hfit, hshape, hshards⟩ := h.fit.clearFrom_replaces (Nat.zero_add _)
  obtain ⟨m₁', hrun', hfit', hshape', hshards'⟩ := h.fit'.clearFrom_replaces (Nat.zero_add _)
  have hsame : m₁.SameShape m₁' := hshape.symm.trans (h.toSameShape.trans hshape')
  refine ⟨m₁, m₁', hrun, hrun', ⟨⟨hsame, fun j => ?_⟩, hfit, hfit', hshape.size_eq.trans h.size⟩⟩
  rw [hshards, hshards', h.size, h.size']
  split
  · exact (h.shards j).emptied
  · exact h.shards j

/-! ### Views -/

theorem lock (h : Peers false n m m') :
    ∃ m₁ m₁', m.lock = (.done {}, m₁) ∧ m'.lock = (.done {}, m₁') ∧ Peers true n m₁ m₁' := by
  obtain ⟨m₁, hrun, hfit, _, hview⟩ := h.fit.lock
  obtain ⟨m₁', hrun', hfit', _, hview'⟩ := h.fit'.lock
  have hsame := hview.symm.trans (h.toAlike.sameView.trans hview')
  exact ⟨m₁, m₁', hrun, hrun', (SameAside.lock hrun).alike h.toAlike (.lock hrun') hsame, hfit,
    hfit', hview.size_eq.trans h.size⟩

theorem unlock (h : Peers true n m m') : Peers false n m.unlock m'.unlock := by
  obtain ⟨hfit, _, hview⟩ := h.fit.unlock
  obtain ⟨hfit', _, hview'⟩ := h.fit'.unlock
  have hsame := hview.symm.trans (h.toAlike.sameView.trans hview')
  exact ⟨(SameAside.unlock m).alike h.toAlike (.unlock m') hsame, hfit, hfit',
    hview.size_eq.trans h.size⟩

/-- A view that has not been freed wipes peers. -/
theorem wipe (h : Peers true n m m') {v : View} (hv : v.freed = false) :
    ∃ m₁ m₁', v.clear m = .ok m₁ ∧ v.clear m' = .ok m₁' ∧ Peers true n m₁ m₁' := by
  obtain ⟨m₁, hrun, hfit, _, hwiped⟩ := h.fit.wipe hv
  obtain ⟨m₁', hrun', hfit', _, hwiped'⟩ := h.fit'.wipe hv
  have hsame := hwiped.sameView_of (h.toAlike.sameView) hwiped'
  exact ⟨m₁, m₁', hrun, hrun', (SameAside.wipe hrun).alike h.toAlike (.wipe hrun') hsame, hfit,
    hfit', hwiped.size_eq.trans h.size⟩

end Peers

/-! ## Reads and scans -/

/-- What comes of two maps is the same, and they are peers then. -/
def Echo (n : Nat) (x x' : α × Map κ ν) : Prop :=
  ∃ a m m', x = (a, m) ∧ x' = (a, m') ∧ Peers false n m m'

theorem Echo.map {x x' : α × Map κ ν} (h : Echo n x x') (f : α → β) :
    Echo n (f x.1, x.2) (f x'.1, x'.2) := by
  obtain ⟨a, m, m', rfl, rfl, hpeers⟩ := h
  exact ⟨f a, m, m', rfl, rfl, hpeers⟩

/-- A scan has come to the same on two maps, and they are peers then. -/
def EchoScan (n : Nat) (x x' : β × σ × Map κ ν) : Prop :=
  ∃ a st m m', x = (a, st, m) ∧ x' = (a, st, m') ∧ Peers false n m m'

/-- Where nobody views a map, a reader finds what is on the shelf, if need be none. -/
theorem Fit.acquire_free (h : m.Fit false) {i : Nat} (hi : i < m.shards.size) (g j : Nat) :
    ((m.tableAt i g).shelves.getD j [] = [] ∧ (m.acquire ⟨i, g, j⟩).1 = .absent) ∨
    ∃ k, (m.acquire ⟨i, g, j⟩).1 = .held k ∧
      ((m.acquire ⟨i, g, j⟩).2.bucketAt ⟨i, g, j⟩).itemsAt k
        = (m.tableAt i g).shelves.getD j [] := by
  by_cases hj : j < (m.tableAt i g).size
  · rcases h.acquire_cases hi hj with habsent | hheld | ⟨hview, _⟩
    · exact .inl habsent
    · exact .inr hheld
    · cases hview
  -- there is no such bucket, and nothing in it
  · have hnone : m.bucketAt ⟨i, g, j⟩ = {} := by
      have hsize : (m.tableAt i g).buckets.size ≤ j := Nat.not_lt.mp hj
      unfold bucketAt
      dsimp only
      rw [Array.getD_eq_getD_getElem?, Array.getElem?_eq_none hsize]
      rfl
    refine .inl ⟨?_, ?_⟩
    · rw [List.getD_eq_getElem?_getD, List.getElem?_eq_none (by rw [Table.length_shelves]; omega)]
      rfl
    · unfold Map.acquire
      rw [modifyBucket_fst, hnone]
      rfl

/--
What a visit of a bucket comes to where nobody views the map: the visitor sees what is on the shelf,
in a map alike to this one, and what it leaves is alike to what there is in the end.
-/
theorem Fit.visitBucket_eq (h : m.Fit false) {i : Nat} (hi : i < m.shards.size) (g j : Nat)
    (f : Visitor κ ν σ) (st : σ) :
    ∃ (m₁ : Map κ ν) (close : Map κ ν → Map κ ν), m₁.Fit false ∧ m.Alike m₁ ∧
      (∀ m₂ : Map κ ν, m₂.Fit false → i < m₂.shards.size →
        (close m₂).Fit false ∧ m₂.Alike (close m₂)) ∧
      visitBucket f ⟨i, g, j⟩ st m =
        (.done (visitItems f ((m.tableAt i g).shelves.getD j []) st m₁).1,
          (visitItems f ((m.tableAt i g).shelves.getD j []) st m₁).2.1,
          close (visitItems f ((m.tableAt i g).shelves.getD j []) st m₁).2.2) := by
  obtain ⟨hfit, halike⟩ := h.acquire (p := ⟨i, g, j⟩) hi
  refine ⟨(m.acquire ⟨i, g, j⟩).2, ?_⟩
  rcases h.acquire_free hi g j with ⟨hnone, hout⟩ | ⟨k, hout, hseen⟩
  · refine ⟨id, hfit, halike, fun m₂ hm₂ _ => ⟨hm₂, .refl m₂⟩, ?_⟩
    rw [hnone]
    unfold visitBucket
    generalize m.acquire ⟨i, g, j⟩ = acquired at *
    obtain ⟨a, m₁⟩ := acquired
    obtain rfl : a = .absent := hout
    rfl
  · refine ⟨fun m₂ => m₂.release ⟨i, g, j⟩ k, hfit, halike,
      fun m₂ hm₂ hi₂ => hm₂.release (p := ⟨i, g, j⟩) hi₂ k, ?_⟩
    unfold visitBucket
    generalize m.acquire ⟨i, g, j⟩ = acquired at *
    obtain ⟨a, m₁⟩ := acquired
    obtain rfl : a = .held k := hout
    dsimp only at hseen ⊢
    rw [hseen]

namespace Peers

/-- A callback that comes to the same of peers, among so many shards. -/
def Even (n : Nat) (f : Visitor κ ν σ) : Prop :=
  ∀ e st {m m' : Map κ ν}, Peers false n m m' → EchoScan n (f e st m) (f e st m')

variable {f : Visitor κ ν σ}

theorem visitItems (h : Peers false n m m') (hf : Even n f) (l : List (Item κ ν)) (st : σ) :
    EchoScan n (Map.visitItems f l st m) (Map.visitItems f l st m') := by
  induction l generalizing st m m' with
  | nil => exact ⟨true, st, m, m', rfl, rfl, h⟩
  | cons x l ih =>
    obtain ⟨go, st₁, m₁, m₁', hrun, hrun', hpeers⟩ := hf x.entry st h
    unfold Map.visitItems
    rw [hrun, hrun']
    cases go with
    | true => exact ih hpeers st₁
    | false => exact ⟨false, st₁, m₁, m₁', rfl, rfl, hpeers⟩

theorem visitBucket (h : Peers false n m m') (hf : Even n f) {i : Nat} (hi : i < n) (g j : Nat)
    (st : σ) :
    EchoScan n (Map.visitBucket f ⟨i, g, j⟩ st m) (Map.visitBucket f ⟨i, g, j⟩ st m') := by
  obtain ⟨m₁, close, hfit, halike, hclose, hrun⟩ :=
    h.fit.visitBucket_eq (i := i) (h.size ▸ hi) g j f st
  obtain ⟨m₁', close', hfit', halike', hclose', hrun'⟩ :=
    h.fit'.visitBucket_eq (i := i) (h.size' ▸ hi) g j f st
  have hseen := h.alike halike halike' hfit hfit'
  obtain ⟨go, st₂, m₂, m₂', hvisit, hvisit', hpeers⟩ :=
    hseen.visitItems hf ((m.tableAt i g).shelves.getD j []) st
  obtain ⟨hfit₂, halike₂⟩ := hclose m₂ hpeers.fit (hpeers.size ▸ hi)
  obtain ⟨hfit₂', halike₂'⟩ := hclose' m₂' hpeers.fit' (hpeers.size' ▸ hi)
  rw [hrun, hrun', h.shelves_tableAt, hvisit, hvisit']
  exact ⟨.done go, st₂, _, _, rfl, rfl, hpeers.alike halike₂ halike₂' hfit₂ hfit₂'⟩

theorem visitBuckets (h : Peers false n m m') (hf : Even n f) {i : Nat} (hi : i < n) (g j k : Nat)
    (st : σ) : EchoScan n (Map.visitBuckets f i g j k st m) (Map.visitBuckets f i g j k st m') := by
  -- on the number of buckets left
  induction k generalizing j st m m' with
  | zero => exact ⟨.done true, st, m, m', rfl, rfl, h⟩
  | succ k ih =>
    obtain ⟨a, st₁, m₁, m₁', hrun, hrun', hpeers⟩ := h.visitBucket hf hi g j st
    unfold Map.visitBuckets
    rw [hrun, hrun']
    rcases a with (_ | _) | _
    · exact ⟨.done false, st₁, m₁, m₁', rfl, rfl, hpeers⟩
    · exact ih hpeers (j + 1) st₁
    · exact ⟨.waits, st₁, m₁, m₁', rfl, rfl, hpeers⟩

theorem visitShard (h : Peers false n m m') (hf : Even n f) {i : Nat} (hi : i < n) (st : σ) :
    EchoScan n (Map.visitShard f i st m) (Map.visitShard f i st m') := by
  obtain ⟨hgeneration, hpeers⟩ := h.enter hi
  have hsize := Table.size_congr (hpeers.shelves_tableAt i (m.enter i).1)
  obtain ⟨a, st₁, m₁, m₁', hrun, hrun', hpeers₁⟩ := hpeers.visitBuckets hf hi (m.enter i).1 0
    ((m.enter i).2.tableAt i (m.enter i).1).size st
  unfold Map.visitShard
  dsimp only
  rw [hgeneration, hsize, hrun, hrun']
  exact ⟨a, st₁, _, _, rfl, rfl, hpeers₁.leave hi⟩

theorem visitShards (h : Peers false n m m') (hf : Even n f) {i k : Nat} (hi : i + k = n) (st : σ) :
    EchoScan n (Map.visitShards f i k st m) (Map.visitShards f i k st m') := by
  induction k generalizing i st m m' with
  | zero => exact ⟨.done true, st, m, m', rfl, rfl, h⟩
  | succ k ih =>
    obtain ⟨a, st₁, m₁, m₁', hrun, hrun', hpeers⟩ := h.visitShard hf (i := i) (by omega) st
    unfold Map.visitShards
    rw [hrun, hrun']
    rcases a with (_ | _) | _
    · exact ⟨.done false, st₁, m₁, m₁', rfl, rfl, hpeers⟩
    · exact ih hpeers (by omega) st₁
    · exact ⟨.waits, st₁, m₁, m₁', rfl, rfl, hpeers⟩

/-- A scan comes to the same of peers if its callback does. -/
theorem range (h : Peers false n m m') (hf : Even n f) (st : σ) :
    EchoScan n (m.range f st) (m'.range f st) := by
  unfold Map.range
  rw [h.size, h.size']
  exact h.visitShards hf (Nat.zero_add n) st

/-- A read comes to the same of peers if its callback does. -/
theorem read (h : Peers false n m m') (q : Lookup κ) {f : κ × ν → Map κ ν → α × Map κ ν}
    (hf : ∀ e {m m' : Map κ ν}, Peers false n m m' → Echo n (f e m) (f e m')) :
    Echo n (m.read q f) (m'.read q f) := by
  have hi := h.route_lt q.hash
  obtain ⟨_, henter⟩ := h.enter hi
  have hfound := h.toAlike.sameView.find?_eq q
  have hcases' := h.fit'.read_cases q f
  rw [h.route_eq, hfound] at hcases'
  rcases h.fit.read_cases q f with ⟨hnone, m₁, hfit, halike, hrun⟩ |
    ⟨x, p, k, m₁, hsome, hfit, hp, halike, hrun⟩ | ⟨hview, _⟩
  · rcases hcases' with ⟨_, m₁', hfit', halike', hrun'⟩ | ⟨x, _, _, _, hsome, _⟩ | ⟨hview, _⟩
    · rw [hrun, hrun']
      exact ⟨_, _, _, rfl, rfl, (henter.alike halike halike' hfit hfit').leave hi⟩
    · rw [hnone] at hsome
      cases hsome
    · cases hview
  · rcases hcases' with ⟨hnone, _⟩ | ⟨x', p', k', m₁', hsome', hfit', hp', halike', hrun'⟩ |
      ⟨hview, _⟩
    · rw [hnone] at hsome
      cases hsome
    · obtain rfl := Option.some.inj (hsome.symm.trans hsome')
      obtain ⟨a, m₂, m₂', hcall, hcall', hpeers⟩ :=
        hf x.entry (henter.alike halike halike' hfit hfit')
      obtain ⟨hfit₂, halike₂⟩ := hpeers.fit.release (p := p) (by rw [hp, hpeers.size]; exact hi) k
      obtain ⟨hfit₂', halike₂'⟩ :=
        hpeers.fit'.release (p := p') (by rw [hp', hpeers.size']; exact hi) k'
      rw [hrun, hrun', hcall, hcall']
      exact ⟨_, _, _, rfl, rfl, (hpeers.alike halike₂ halike₂' hfit₂ hfit₂').leave hi⟩
    · cases hview
  · cases hview

/-! ### Onlookers -/

theorem look (h : Peers false n m m') (q : Lookup κ) (f : κ × ν → α) :
    Echo n (m.read q fun e m => (f e, m)) (m'.read q fun e m => (f e, m)) :=
  h.read q fun e m m' h => ⟨f e, m, m', rfl, rfl, h⟩

theorem watch (h : Peers false n m m') (f : κ × ν → σ → Bool × σ) (st : σ) :
    EchoScan n (m.range (onlooker f) st) (m'.range (onlooker f) st) :=
  h.range (fun e st m m' h => ⟨(f e st).1, (f e st).2, m, m', rfl, rfl, h⟩) st

theorem entries (h : Peers false n m m') : Echo n m.entries m'.entries := by
  have hrun : EchoScan n (m.range (fun e seen m => (true, seen.push e, m)) #[])
      (m'.range (fun e seen m => (true, seen.push e, m)) #[]) :=
    h.watch (fun e (seen : Array (κ × ν)) => (true, seen.push e)) #[]
  obtain ⟨a, seen, m₁, m₁', hrun, hrun', hpeers⟩ := hrun
  unfold Map.entries
  rw [hrun, hrun']
  cases a with
  | waits => exact ⟨.waits, m₁, m₁', rfl, rfl, hpeers⟩
  | done went => exact ⟨.done seen, m₁, m₁', rfl, rfl, hpeers⟩

/-- Peers answer every inquiry alike. -/
theorem ask [Text.Shown κ] [Text.Shown ν] (h : Peers false n m m') (i : Inquiry κ ν σ α) :
    Echo n (m.ask i) (m'.ask i) := by
  have hview := h.toAlike.sameView
  cases i with
  | len =>
    dsimp only [Map.ask]
    rw [hview.len_eq]
    exact ⟨_, m, m', rfl, rfl, h⟩
  | isEmpty =>
    dsimp only [Map.ask]
    rw [isEmpty_eq, isEmpty_eq, hview.len_eq]
    exact ⟨_, m, m', rfl, rfl, h⟩
  | contains q =>
    dsimp only [Map.ask, Map.contains]
    exact (h.look q fun _ => ()).map fun a => (a.map Option.isSome).map Finding.flag
  | get q =>
    dsimp only [Map.ask, Map.get]
    exact (h.look q fun e => e.2).map fun a => a.map Finding.value
  | read q f =>
    dsimp only [Map.ask]
    exact (h.look q f).map fun a => a.map Finding.result
  | range f st =>
    obtain ⟨a, st₁, m₁, m₁', hrun, hrun', hpeers⟩ := h.watch f st
    dsimp only [Map.ask]
    rw [hrun, hrun']
    exact ⟨_, m₁, m₁', rfl, rfl, hpeers⟩
  | text long =>
    obtain ⟨a, m₁, m₁', hrun, hrun', hpeers⟩ := h.entries
    dsimp only [Map.ask, Map.text]
    rw [hrun, hrun']
    exact ⟨_, m₁, m₁', rfl, rfl, hpeers⟩

end Peers

end Map

end VersionedMap
