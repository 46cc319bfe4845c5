import VersionedMap.Proofs.BucketContinuity
import VersionedMap.Proofs.Operations

/-!
# Maps go on from one operation to the next

What an operation does to a map it does to buckets, one by one: to the bucket of a key, to those of
a table that grows, to all those of the current tables. Every bucket that there is afterwards either
**continues** the one that was at its place, or is fresh. Fresh ones come with a table that takes
the place of another, and while the shard is guarded this one is the first of its generation, so
that nobody has held anything of it.

The map deals with its pool for the versions in all its tables, set aside or not.
-/

namespace VersionedMap

variable {κ ν α β : Type}

theorem flatMap_toList (a : Array α) (d : α) (f : α → List β) :
    a.toList.flatMap f = (List.range a.size).flatMap fun i => f (a.getD i d) := by
  have hlist : a.toList = (List.range a.size).map fun i => a.getD i d := by
    refine List.ext_getElem (by simp) fun i hi hi' => ?_
    rw [Array.length_toList] at hi
    rw [Array.getElem_toList, List.getElem_map, List.getElem_range, Array.getD_eq_getD_getElem?,
      Array.getElem?_eq_getElem hi]
    rfl
  rw [hlist, List.flatMap_map]

theorem sweep_map {σ : Type} (f : α → β) (a : Array α) (s : σ) :
    sweep (fun x s => (f x, s)) a s = (a.map f, s) := by
  have hlist (l : List α) : sweepList (fun x s => (f x, s)) l s = (l.map f, s) := by
    induction l with
    | nil => rfl
    | cons x l ih =>
      unfold sweepList
      dsimp only
      rw [ih]
      rfl
  rw [sweep_eq, hlist, ← Array.toList_map, Array.toArray_toList]

/-! ## Versions that are staged -/

namespace Staging

variable {n : Nat}

/-- The stamps of the versions that are staged, as their buckets will have them. -/
def stamps (g : Staging κ ν n) : List Nat :=
  g.staged.toArray.toList.flatMap fun o => (Bucket.ofStaged o).stamps

theorem stamps_new : ({} : Staging κ ν n).stamps = [] := by
  unfold stamps
  rw [Vector.toArray_replicate, Array.toList_replicate]
  exact List.flatMap_eq_nil_iff.mpr fun o ho => by rw [List.eq_of_mem_replicate ho]; rfl

/-- To copy an item takes a version from the pool at most. -/
theorem trades_deal (hn : 0 < n) (g : Staging κ ν n) (s : Shared κ ν) (i : Item κ ν) :
    s.pool.Deals g.stamps (deal (g, s) i).2.pool (deal (g, s) i).1.stamps := by
  have hj := slot_lt hn i.hash
  have hrun : deal (g, s) i = (⟨g.staged.setIfInBounds (slot n i.hash)
      (some ((versionFor g.staged (slot n i.hash) s).1.push i)), g.count + 1⟩,
      (versionFor g.staged (slot n i.hash) s).2) := rfl
  have hone : s.pool.Deals (Bucket.ofStaged (g.staged.toArray.getD (slot n i.hash) none)).stamps
      (versionFor g.staged (slot n i.hash) s).2.pool
      [(versionFor g.staged (slot n i.hash) s).1.stamp] := by
    have hget : g.staged.toArray.getD (slot n i.hash) none =
        (g.staged[slot n i.hash]?).getD none := by
      rw [Array.getD_eq_getD_getElem?, Vector.getElem?_toArray]
    have htaken : s.pool.Deals [] s.take.2.pool [s.take.1.stamp] :=
      ⟨⟨[], [], Pool.trades_take s.pool⟩, Pool.Kempt.take⟩
    rw [hget]
    unfold versionFor
    rw [Vector.getElem?_eq_getElem hj]
    cases g.staged[slot n i.hash] with
    | none => exact htaken
    | some v => exact .refl s.pool _
  rw [hrun]
  unfold stamps
  rw [flatMap_toList g.staged.toArray none, flatMap_toList _ none]
  dsimp only
  rw [Vector.size_toArray, Vector.size_toArray, Vector.toArray_setIfInBounds]
  refine hone.at_one List.nodup_range (List.mem_range.mpr hj) rfl ?_ fun j _ hne => ?_
  · rw [Array.getD_eq_getD_getElem?, Array.getElem?_setIfInBounds_self,
      if_pos (by rwa [Vector.size_toArray])]
    rfl
  · rw [Array.getD_eq_getD_getElem?, Array.getElem?_setIfInBounds_ne (Ne.symm hne),
      ← Array.getD_eq_getD_getElem?]

theorem trades_dealAll (hn : 0 < n) (l : List (Item κ ν)) (x : Staging κ ν n × Shared κ ν) :
    x.2.pool.Deals x.1.stamps (dealAll l x).2.pool (dealAll l x).1.stamps := by
  induction l generalizing x with
  | nil => exact .refl _ _
  | cons i l ih => exact (trades_deal hn x.1 x.2 i).trans (ih (deal x i))

/-- Who reads a bucket deals with the pool for its versions and for those that are staged. -/
theorem trades_reading (hn : 0 < n) (b : Bucket κ ν) (x : Staging κ ν n × Shared κ ν) :
    x.2.pool.Deals (b.stamps ++ x.1.stamps) (b.reading dealAll x).2.2.pool
      ((b.reading dealAll x).1.stamps ++ (b.reading dealAll x).2.1.stamps) := by
  have hacquire : Site.Works false _ _ := (Bucket.moves_acquire (d := none) b x.2).works
  have hclaim := hacquire.deals.frame x.1.stamps
  unfold Bucket.reading
  generalize b.acquire x.2 = acquired at *
  obtain ⟨a, c, s⟩ := acquired
  cases a with
  | absent | waits => exact hclaim
  | held m =>
    dsimp only at hclaim ⊢
    have hdealt := trades_dealAll hn (c.itemsAt m) (x.1, s)
    generalize dealAll (c.itemsAt m) (x.1, s) = dealt at *
    have hrelease : Site.Works false _ _ := (Bucket.moves_release (d := none) c m dealt.2).works
    exact hclaim.trans (((Pool.Deals.refl _ c.stamps).beside hdealt).trans
      (hrelease.deals.frame dealt.1.stamps))

theorem trades_sweep (hn : 0 < n) (bs : List (Bucket κ ν)) (x : Staging κ ν n × Shared κ ν) :
    x.2.pool.Deals (bs.flatMap Bucket.stamps ++ x.1.stamps)
      (sweepList (Bucket.reading dealAll) bs x).2.2.pool
      ((sweepList (Bucket.reading dealAll) bs x).1.flatMap Bucket.stamps ++
        (sweepList (Bucket.reading dealAll) bs x).2.1.stamps) := by
  induction bs generalizing x with
  | nil => exact .refl _ _
  | cons b bs ih =>
    have hfirst := (trades_reading hn b x).frame (bs.flatMap Bucket.stamps)
    have hrest := (Pool.Deals.refl _ (b.reading dealAll x).1.stamps).beside
      (ih (b.reading dealAll x).2)
    -- what is staged comes last at every point
    refine (hfirst.congr ?_ ?_).trans (hrest.congr (.refl _) ?_)
    · rw [List.flatMap_cons, List.append_assoc, List.append_assoc]
      exact List.perm_append_comm.append_left _
    · rw [List.append_assoc]
      exact List.perm_append_comm.append_left _
    · have hcons : sweepList (Bucket.reading dealAll) (b :: bs) x =
          ((b.reading dealAll x).1 :: (sweepList (Bucket.reading dealAll) bs
            (b.reading dealAll x).2).1, (sweepList (Bucket.reading dealAll) bs
            (b.reading dealAll x).2).2) := rfl
      rw [hcons, List.flatMap_cons, List.append_assoc]

end Staging

/-! ## Tables -/

namespace Table

variable {t t' : Table κ ν} {p q : Pool κ ν}

/-- The stamps of the versions in all buckets. -/
def stamps (t : Table κ ν) : List Nat := t.buckets.toList.flatMap Bucket.stamps

/-- Every bucket continues the one that was at its place. -/
def Continues (t t' : Table κ ν) : Prop :=
  ∀ (j : Nat) (c : Bucket κ ν), t'.buckets[j]? = some c →
    ∃ b, t.buckets[j]? = some b ∧ b.Continues c

/-- From a table and a pool to others, bucket by bucket. -/
structure Tends (t : Table κ ν) (p : Pool κ ν) (t' : Table κ ν) (q : Pool κ ν) : Prop where
  deals : p.Deals t.stamps q t'.stamps
  continues : p.Kempt → t.Continues t'

/-- A table is tended, and one that is to take its place is made beside it. -/
structure Renews (t : Table κ ν) (p : Pool κ ν) (old new : Table κ ν) (q : Pool κ ν) : Prop where
  deals : p.Deals t.stamps q (old.stamps ++ new.stamps)
  continues : p.Kempt → t.Continues old
  fresh : p.Kempt → ∀ b ∈ new.buckets, b.Fresh

theorem Tends.refl (t : Table κ ν) (p : Pool κ ν) : t.Tends p t p :=
  ⟨.refl p _, fun _ _ c hc => ⟨c, hc, .refl c⟩⟩

/-- The count of a table is no bucket. -/
theorem Tends.of_buckets (h : t.Tends p t' q) {u : Table κ ν} (hu : u.buckets = t'.buckets) :
    t.Tends p u q := by
  refine ⟨?_, fun hp => ?_⟩
  · unfold stamps
    rw [hu]
    exact h.deals
  · unfold Continues
    rw [hu]
    exact h.continues hp

/-- A sweep that tends buckets; `src` says from which bucket a step goes, and `out` to which. -/
theorem tends_sweep {f : α → Shared κ ν → β × Shared κ ν} (src : α → Bucket κ ν)
    (out : β → Bucket κ ν) {a : Array α} (hf : ∀ x ∈ a, ∀ s : Shared κ ν,
      (src x).Tends s.pool (out (f x s).1) (f x s).2.pool) (s : Shared κ ν) :
    s.pool.Deals (a.toList.flatMap fun x => (src x).stamps) (sweep f a s).2.pool
      ((sweep f a s).1.toList.flatMap fun y => (out y).stamps) ∧
    (s.pool.Kempt → ∀ (j : Nat) (y : β), (sweep f a s).1[j]? = some y →
      ∃ x, a[j]? = some x ∧ (src x).Continues (out y)) := by
  refine ⟨?_, fun hs j y hy => ?_⟩
  · rw [sweep_eq]
    exact .sweepList (fun x hx s => (hf x (Array.mem_toList_iff.mp hx) s).deals) s
  · obtain ⟨_, hpoint⟩ := sweep_pointwise (f := f) (a := a) (P := fun s => s.pool.Kempt)
      (R := fun x y => (src x).Continues (out y))
      (fun x hx s hs => ⟨(hf x hx s).deals.kempt hs, (hf x hx s).continues hs.clean⟩) hs
    obtain ⟨hj, _⟩ := Array.getElem?_eq_some_iff.mp hy
    rw [size_sweep] at hj
    obtain ⟨y', hy', hcontinues⟩ := hpoint j _ (Array.getElem?_eq_getElem hj)
    obtain rfl : y = y' := Option.some.inj (hy.symm.trans hy')
    exact ⟨_, Array.getElem?_eq_getElem hj, hcontinues⟩

/-- Dealings of one bucket are dealings of the table. -/
theorem deals_setBucket {j : Nat} (hj : j < t.size) {c : Bucket κ ν}
    (h : p.Deals (t.buckets.getD j {}).stamps q c.stamps) :
    p.Deals t.stamps q (t.setBucket j c).stamps := by
  have hlt : j < t.buckets.size := hj
  unfold stamps
  rw [flatMap_toList t.buckets {}, flatMap_toList (t.setBucket j c).buckets {}]
  unfold setBucket
  dsimp only
  rw [Array.size_setIfInBounds]
  refine h.at_one List.nodup_range (List.mem_range.mpr hlt) rfl ?_ fun i _ hi => ?_
  · rw [Array.getD_eq_getD_getElem?, Array.getElem?_setIfInBounds_self, if_pos hlt]
    rfl
  · rw [Array.getD_eq_getD_getElem?, Array.getElem?_setIfInBounds_ne (Ne.symm hi),
      ← Array.getD_eq_getD_getElem?]

/-- One bucket is tended. -/
theorem tends_setBucket {j : Nat} (hj : j < t.size) {c : Bucket κ ν}
    (h : (t.buckets.getD j {}).Tends p c q) : t.Tends p (t.setBucket j c) q := by
  have hlt : j < t.buckets.size := hj
  refine ⟨deals_setBucket hj h.deals, fun hp i d hd => ?_⟩
  unfold setBucket at hd
  dsimp only at hd
  by_cases hi : i = j
  · subst hi
    rw [Array.getElem?_setIfInBounds_self, if_pos hlt] at hd
    obtain rfl := Option.some.inj hd
    refine ⟨_, ?_, h.continues hp.clean⟩
    rw [Array.getD_eq_getD_getElem?, Array.getElem?_eq_getElem hlt]
    rfl
  · rw [Array.getElem?_setIfInBounds_ne (Ne.symm hi)] at hd
    exact ⟨d, hd, .refl d⟩

/-- A mutation waits, or tends the bucket of its hash. -/
theorem tends_mutate (t : Table κ ν) (hash : UInt32) {f : Mutation κ ν α} (hf : f.Careful)
    (s : Shared κ ν) : t.Tends s.pool (t.mutate hash f s).2.1 (t.mutate hash f s).2.2.pool := by
  have hlt := (t.index hash).isLt
  have hbucket : t.buckets[t.index hash] = t.buckets.getD (t.index hash) {} := by
    rw [Array.getD_eq_getD_getElem?, Array.getElem?_eq_getElem hlt]
    rfl
  unfold mutate
  dsimp only
  split
  · exact .refl t s.pool
  · rw [hbucket]
    exact (tends_setBucket hlt (hf.tends _ s)).of_buckets (by cases (f _ s).1.2 <;> rfl)

theorem tends_lock (t : Table κ ν) (s : Shared κ ν) : t.Tends s.pool t.lock s.pool := by
  obtain ⟨hdeals, hcontinues⟩ := tends_sweep id id (a := t.buckets)
    (f := fun (b : Bucket κ ν) s => (b.lock, s)) (fun b _ s => Bucket.tends_lock b s.pool) s
  rw [sweep_map] at hdeals hcontinues
  exact ⟨hdeals, hcontinues⟩

theorem tends_unlock (t : Table κ ν) (s : Shared κ ν) :
    t.Tends s.pool (t.unlock s).1 (t.unlock s).2.pool := by
  obtain ⟨hdeals, hcontinues⟩ := tends_sweep id id (a := t.buckets)
    (fun b _ s => Bucket.tends_unlock b s) s
  exact ⟨hdeals, hcontinues⟩

/-- Under a view items are removed under the locks of their buckets. -/
theorem tends_wipe (hlocked : ∀ b ∈ t.buckets, b.locked = true) (s : Shared κ ν) :
    t.Tends s.pool (t.wipe s).1 (t.wipe s).2.pool := by
  obtain ⟨hdeals, hcontinues⟩ := tends_sweep id id (a := t.buckets)
    (f := fun (b : Bucket κ ν) s => if b.items.isEmpty then (b, s) else b.wipe s)
    (fun b hb s => by
      split
      · exact .refl b s.pool
      · exact Bucket.tends_wipe (hlocked b hb) s) s
  exact ⟨hdeals, hcontinues⟩

/-- A table that is to grow is read, and the one that takes its place is made meanwhile. -/
theorem renews_grow (t : Table κ ν) (s : Shared κ ν) :
    t.Renews s.pool (t.grow s).2.1 (t.grow s).1 (t.grow s).2.2.pool where
  deals := by
    have hsize : 0 < 2 * t.size := Nat.mul_pos Nat.two_pos t.nonempty
    have htrades := Staging.trades_sweep hsize t.buckets.toList ({}, s)
    rw [Staging.stamps_new, List.append_nil] at htrades
    unfold stamps grow
    dsimp only
    rw [sweep_eq, Array.toList_map, List.flatMap_map]
    exact htrades
  continues hs j c hc := by
    obtain ⟨_, hpoint⟩ := sweep_pointwise (f := Bucket.reading Staging.dealAll) (a := t.buckets)
      (P := fun x : Staging κ ν (2 * t.size) × Shared κ ν => x.2.pool.IsClean)
      (R := Bucket.Continues)
      (fun b _ x hx => ⟨(Staging.exists_deals_reading b hx).elim fun _ h => h.clean,
        b.continues_dealing hx⟩) (s := ({}, s)) hs.clean
    obtain ⟨hj, _⟩ := Array.getElem?_eq_some_iff.mp hc
    have hlt : j < t.buckets.size := lt_of_lt_of_eq hj (size_sweep ..)
    obtain ⟨c', hc', hcontinues⟩ := hpoint j _ (Array.getElem?_eq_getElem hlt)
    obtain rfl : c = c' := Option.some.inj (hc.symm.trans hc')
    exact ⟨_, Array.getElem?_eq_getElem hlt, hcontinues⟩
  fresh hs b hb := by
    obtain ⟨o, ho, rfl⟩ := Array.mem_map.mp hb
    refine Bucket.fresh_ofStaged fun v hv => t.dealt_gathered hs.clean v ?_
    exact (Vector.mem_toArray_iff _ _).mp (hv ▸ ho)

/-- Empty buckets have no versions. -/
theorem stamps_ofSize (n : Nat) (h : 0 < n) : (ofSize n h : Table κ ν).stamps = [] := by
  unfold stamps ofSize
  dsimp only
  rw [Array.toList_replicate]
  exact List.flatMap_eq_nil_iff.mpr fun b hb => by rw [List.eq_of_mem_replicate hb]; rfl

theorem renews_emptied (t : Table κ ν) (p : Pool κ ν) : t.Renews p t t.emptied p where
  deals := by
    have hnone : t.emptied.stamps = [] := stamps_ofSize t.size t.nonempty
    rw [hnone, List.append_nil]
    exact .refl p _
  continues := (Tends.refl t p).continues
  fresh _ b hb := by
    obtain rfl : b = {} := Array.eq_of_mem_replicate hb
    exact Bucket.fresh_new

end Table

/-! ## Shards -/

namespace Shard

variable {d d' d'' : Shard κ ν} {p q r : Pool κ ν}

/-- The stamps of the versions in the current table and in those set aside. -/
def stamps (d : Shard κ ν) : List Nat :=
  (List.range (d.aside.size + 1)).flatMap fun g => (d.tableAt g).stamps

/--
Nobody comes or goes, and every bucket continues the one that was at its place, or is fresh and its
place has never been guarded.
-/
structure Continues (d d' : Shard κ ν) : Prop where
  guards_eq : d'.guards = d.guards
  aside_le : d.aside.size ≤ d'.aside.size
  origin : ∀ g ≤ d'.aside.size, ∀ (j : Nat) (c : Bucket κ ν),
    (d'.tableAt g).buckets[j]? = some c →
    (g ≤ d.aside.size ∧ ∃ b, (d.tableAt g).buckets[j]? = some b ∧ b.Continues c) ∨
    (c.Fresh ∧ (0 < d.guards → d.aside.size < g))

/-- From a shard and a pool to others. -/
structure Tends (d : Shard κ ν) (p : Pool κ ν) (d' : Shard κ ν) (q : Pool κ ν) : Prop where
  deals : p.Deals d.stamps q d'.stamps
  continues : p.Kempt → d.Continues d'

theorem Continues.refl (d : Shard κ ν) : d.Continues d where
  guards_eq := rfl
  aside_le := Nat.le_refl _
  origin _ hg _ c hc := .inl ⟨hg, c, hc, .refl c⟩

theorem Continues.trans (h : d.Continues d') (h' : d'.Continues d'') : d.Continues d'' where
  guards_eq := h'.guards_eq.trans h.guards_eq
  aside_le := h.aside_le.trans h'.aside_le
  origin g hg j c hc := by
    rcases h'.origin g hg j c hc with ⟨hg', b', hb', hcontinues'⟩ | ⟨hfresh, hnew⟩
    · rcases h.origin g hg' j b' hb' with ⟨hg'', b, hb, hcontinues⟩ | ⟨hfresh, hnew⟩
      · exact .inl ⟨hg'', b, hb, hcontinues.trans hcontinues'⟩
      · exact .inr ⟨hfresh.continues hcontinues', hnew⟩
    · exact .inr ⟨hfresh, fun hguards =>
        h.aside_le.trans_lt (hnew (h.guards_eq ▸ hguards))⟩

theorem Tends.refl (d : Shard κ ν) (p : Pool κ ν) : d.Tends p d p :=
  ⟨.refl p _, fun _ => .refl d⟩

/-- A table that has been set aside is what its generation names, whatever the current one is. -/
theorem tableAt_aside (d : Shard κ ν) {g : Nat} (hg : g < d.aside.size) (t : Table κ ν) (n : Nat) :
    ({ d with table := t, sharers := n } : Shard κ ν).tableAt g = d.tableAt g := by
  unfold tableAt
  rw [Array.getElem?_eq_getElem hg]

theorem tableAt_size (d : Shard κ ν) : d.tableAt d.aside.size = d.table :=
  tableAt_current (Nat.le_refl _)

/-- Another table at one generation, and the others as they are. -/
theorem deals_tableAt {g : Nat} (hg : g ≤ d.aside.size) (haside : d'.aside.size = d.aside.size)
    (h : p.Deals (d.tableAt g).stamps q (d'.tableAt g).stamps)
    (hothers : ∀ g' ≤ d.aside.size, g' ≠ g → d'.tableAt g' = d.tableAt g') :
    p.Deals d.stamps q d'.stamps := by
  unfold stamps
  rw [haside]
  refine h.at_one List.nodup_range (List.mem_range.mpr (by omega)) rfl rfl fun g' hg' hne => ?_
  rw [hothers g' (Nat.le_of_lt_succ (List.mem_range.mp hg')) hne]

/-- The current table is tended in place. -/
theorem tends_table {t : Table κ ν} (h : d.table.Tends p t q) (n : Nat) :
    d.Tends p { d with table := t, sharers := n } q := by
  have hnow : ({ d with table := t, sharers := n } : Shard κ ν).tableAt d.aside.size = t :=
    tableAt_size _
  have hothers : ∀ g ≤ d.aside.size, g ≠ d.aside.size →
      ({ d with table := t, sharers := n } : Shard κ ν).tableAt g = d.tableAt g :=
    fun g hg hne => tableAt_aside d (Nat.lt_of_le_of_ne hg hne) t _
  refine ⟨deals_tableAt (Nat.le_refl _) rfl ?_ hothers, fun hp => ⟨rfl, Nat.le_refl _, ?_⟩⟩
  · rw [tableAt_size, hnow]
    exact h.deals
  · intro g hg j c hc
    by_cases hne : g = d.aside.size
    · subst hne
      rw [hnow] at hc
      rw [tableAt_size]
      exact .inl ⟨hg, h.continues hp j c hc⟩
    · rw [hothers g hg hne] at hc
      exact .inl ⟨hg, c, hc, .refl c⟩

/-- The current table is tended, and the one that has been made takes its place. -/
theorem tends_replace {old t : Table κ ν} (h : d.table.Renews p old t q) :
    d.Tends p (d.replace old t) q := by
  by_cases hguards : d.guards = 0
  -- nobody guards the old table, which goes with all its versions
  · have hreplace : d.replace old t = { d with table := t } := if_pos hguards
    rw [hreplace]
    have hnow : ({ d with table := t } : Shard κ ν).tableAt d.aside.size = t := tableAt_size _
    have hothers : ∀ g ≤ d.aside.size, g ≠ d.aside.size →
        ({ d with table := t } : Shard κ ν).tableAt g = d.tableAt g :=
      fun g hg hne => tableAt_aside d (Nat.lt_of_le_of_ne hg hne) t _
    refine ⟨deals_tableAt (Nat.le_refl _) rfl ?_ hothers, fun hp => ⟨rfl, Nat.le_refl _, ?_⟩⟩
    · rw [tableAt_size, hnow]
      exact (h.deals.congr (.refl _) List.perm_append_comm).trans (.forget q t.stamps old.stamps)
    · intro g hg j c hc
      by_cases hne : g = d.aside.size
      · subst hne
        rw [hnow] at hc
        exact .inr ⟨h.fresh hp c (Array.mem_of_getElem? hc),
          fun hpos => absurd hguards (Nat.pos_iff_ne_zero.mp hpos)⟩
      · rw [hothers g hg hne] at hc
        exact .inl ⟨hg, c, hc, .refl c⟩
  -- the old table is set aside under its generation, and the new one has the next
  · have hreplace : d.replace old t = { d with table := t, aside := d.aside.push old } :=
      if_neg hguards
    have hbefore (g : Nat) (hg : g < d.aside.size) :
        (d.replace old t).tableAt g = d.tableAt g := by
      rw [hreplace]
      unfold tableAt
      dsimp only
      rw [Array.getElem?_push_lt hg, Array.getElem?_eq_getElem hg]
    have hset : (d.replace old t).tableAt d.aside.size = old := by
      rw [hreplace]
      unfold tableAt
      dsimp only
      rw [Array.getElem?_push_size]
    have hsize : (d.replace old t).aside.size = d.aside.size + 1 := by
      rw [hreplace]
      exact Array.size_push ..
    have hnow : (d.replace old t).tableAt (d.aside.size + 1) = t := by
      rw [← hsize, tableAt_size, hreplace]
    refine ⟨?_, fun hp => ⟨by rw [hreplace], by omega, fun g hg j c hc => ?_⟩⟩
    · have hsame : ((List.range d.aside.size).flatMap fun g => ((d.replace old t).tableAt g).stamps)
          = (List.range d.aside.size).flatMap fun g => (d.tableAt g).stamps :=
        List.flatMap_congr fun g hg => by rw [hbefore g (List.mem_range.mp hg)]
      unfold stamps
      rw [hsize, List.range_succ (n := d.aside.size + 1), List.range_succ, List.flatMap_append,
        List.flatMap_append, List.flatMap_append, List.flatMap_singleton, List.flatMap_singleton,
        List.flatMap_singleton, tableAt_size, hset, hnow, hsame, List.append_assoc]
      exact (Pool.Deals.refl p _).beside h.deals
    · rw [hsize] at hg
      rcases Nat.lt_trichotomy g d.aside.size with hlt | rfl | hgt
      · rw [hbefore g hlt] at hc
        exact .inl ⟨hlt.le, c, hc, .refl c⟩
      · rw [hset] at hc
        rw [tableAt_size]
        exact .inl ⟨Nat.le_refl _, h.continues hp j c hc⟩
      · obtain rfl : g = d.aside.size + 1 := by omega
        rw [hnow] at hc
        exact .inr ⟨h.fresh hp c (Array.mem_of_getElem? hc), fun _ => hgt⟩

theorem tends_change (d : Shard κ ν) (hash : UInt32) {f : Mutation κ ν α} (hf : f.Careful)
    (s : Shared κ ν) : d.Tends s.pool (d.change hash f s).2.1 (d.change hash f s).2.2.pool :=
  tends_table (d.table.tends_mutate hash hf s) d.sharers

theorem tends_grow (d : Shard κ ν) (s : Shared κ ν) :
    d.Tends s.pool (d.grow s).2.1 (d.grow s).2.2.pool := by
  unfold grow
  split
  · exact .refl d s.pool
  · split
    · exact .refl d s.pool
    · exact tends_replace (d.table.renews_grow s)

theorem tends_clear (d : Shard κ ν) (s : Shared κ ν) :
    d.Tends s.pool (d.clear s).2.1 (d.clear s).2.2.pool := by
  unfold clear
  split
  · exact .refl d s.pool
  · exact tends_replace (d.table.renews_emptied s.pool)

end Shard

/-! ## Maps -/

namespace Map

variable {m m' m'' : Map κ ν}

/-- The stamps of the versions in all tables of all shards. -/
def stamps (m : Map κ ν) : List Nat := m.shards.toList.flatMap Shard.stamps

theorem stamps_eq_range (m : Map κ ν) :
    m.stamps = (List.range m.shards.size).flatMap fun i => (m.shardAt i).stamps :=
  flatMap_toList m.shards default Shard.stamps

/-- Every shard continues the one that was at its position. -/
structure Continues (m m' : Map κ ν) : Prop extends m.SameShape m' where
  shards : ∀ i, (m.shardAt i).Continues (m'.shardAt i)

/-- By an operation that lets go of all that it acquires. -/
structure Tends (m m' : Map κ ν) : Prop where
  deals : m.shared.pool.Deals m.stamps m'.shared.pool m'.stamps
  continues : m.shared.pool.Kempt → m.Continues m'

theorem Tends.refl (m : Map κ ν) : m.Tends m :=
  ⟨.refl _ _, fun _ => ⟨.refl m, fun _ => .refl _⟩⟩

theorem Tends.trans (h : m.Tends m') (h' : m'.Tends m'') : m.Tends m'' := by
  refine ⟨h.deals.trans h'.deals, fun hm => ?_⟩
  have hfirst := h.continues hm
  have hnext := h'.continues (h.deals.kempt hm)
  exact ⟨hfirst.toSameShape.trans hnext.toSameShape, fun i =>
    (hfirst.shards i).trans (hnext.shards i)⟩

/-- Dealings of one shard are dealings of the map. -/
theorem Swaps.deals {i : Nat} {d : Shard κ ν} (h : m.Swaps i d m') (hi : i < m.shards.size)
    {p q : Pool κ ν} (hd : p.Deals (m.shardAt i).stamps q d.stamps) :
    p.Deals m.stamps q m'.stamps := by
  rw [stamps_eq_range, stamps_eq_range, h.size_eq]
  refine hd.at_one List.nodup_range (List.mem_range.mpr hi) rfl ?_ fun j _ hj => ?_
  · rw [h.here]
  · rw [h.others j hj]

theorem Swaps.tends {i : Nat} {d : Shard κ ν} (h : m.Swaps i d m') (hi : i < m.shards.size)
    (hd : (m.shardAt i).Tends m.shared.pool d m'.shared.pool) : m.Tends m' := by
  refine ⟨h.deals hi hd.deals, fun hm => ⟨h.toSameShape, fun j => ?_⟩⟩
  by_cases hj : j = i
  · rw [hj, h.here]
    exact hd.continues hm
  · rw [h.others j hj]
    exact .refl _

theorem tends_modifyShard {i : Nat} (hi : i < m.shards.size)
    {f : Shard κ ν → Shared κ ν → α × Shard κ ν × Shared κ ν}
    (hf : (m.shardAt i).Tends m.shared.pool (f (m.shardAt i) m.shared).2.1
      (f (m.shardAt i) m.shared).2.2.pool) : m.Tends (m.modifyShard i f).2 := by
  obtain ⟨m', hrun, hswap, hshared⟩ := modifyShard_swaps (f := f) hi rfl
  rw [hrun]
  exact hswap.tends hi (hshared ▸ hf)

/-- A sweep over the shards that tends every one of them. -/
theorem tends_shards {f : Shard κ ν → Shared κ ν → Shard κ ν × Shared κ ν}
    (hf : ∀ d ∈ m.shards, ∀ s : Shared κ ν, d.Tends s.pool (f d s).1 (f d s).2.pool) :
    m.Tends { m with
      shards := (sweep f m.shards m.shared).1, shared := (sweep f m.shards m.shared).2 } := by
  have hsize : (sweep f m.shards m.shared).1.size = m.shards.size := size_sweep ..
  refine ⟨?_, fun hm => ⟨⟨rfl, rfl, hsize⟩, shardAt_pointwise (.refl _) hsize fun i d hd => ?_⟩⟩
  · unfold stamps
    dsimp only
    rw [sweep_eq]
    exact .sweepList (fun d hd s => (hf d (Array.mem_toList_iff.mp hd) s).deals) m.shared
  · obtain ⟨_, hpoint⟩ := sweep_pointwise (f := f) (a := m.shards)
      (P := fun s => s.pool.Kempt) (R := Shard.Continues)
      (fun d hd s hs => ⟨(hf d hd s).deals.kempt hs, (hf d hd s).continues hs⟩) hm
    exact hpoint i d hd

/-! ## Operations -/

theorem tends_grow {i : Nat} (hi : i < m.shards.size) : m.Tends (m.grow i).2 :=
  tends_modifyShard hi (Shard.tends_grow _ _)

/-- A mutation goes by its hash to a shard that there is. -/
theorem Fit.tends_mutate {held : Bool} (h : m.Fit held) (hash : UInt64)
    {f : UInt32 → Mutation κ ν α} (hf : ∀ hash, (f hash).Careful) :
    m.Tends (m.mutate hash f).2 := by
  have hi := h.route_lt hash
  have hchange : m.Tends (m.change hash f).2 :=
    tends_modifyShard hi (Shard.tends_change _ _ (hf _) _)
  have hsize : (m.change hash f).2.shards.size = m.shards.size := by
    unfold Map.change
    dsimp only
    rw [modifyShard_eq]
    exact Array.size_setIfInBounds ..
  have hgrow := tends_grow (m := (m.change hash f).2) (hsize ▸ hi)
  unfold Map.mutate
  dsimp only
  generalize m.change hash f = changed at *
  obtain ⟨a, m₁⟩ := changed
  match a with
  | .waits => exact hchange
  | .done (a, false) => exact hchange
  | .done (a, true) =>
    dsimp only at hgrow ⊢
    generalize m₁.grow (m.route hash).shard = grown at *
    obtain ⟨a', m₂⟩ := grown
    cases a' with
    | waits => exact hchange.trans hgrow
    | done => exact hchange.trans hgrow

theorem tends_clearFrom {i n : Nat} (hi : i + n ≤ m.shards.size) :
    m.Tends (m.clearFrom i n).2 := by
  induction n generalizing m i with
  | zero => exact .refl m
  | succ n ih =>
    have hfirst : m.Tends (m.modifyShard i Shard.clear).2 :=
      tends_modifyShard (by omega) (Shard.tends_clear _ _)
    have hsize : (m.modifyShard i Shard.clear).2.shards.size = m.shards.size := by
      rw [modifyShard_eq]
      exact Array.size_setIfInBounds ..
    unfold clearFrom
    generalize m.modifyShard i Shard.clear = cleared at *
    obtain ⟨a, m₁⟩ := cleared
    cases a with
    | waits => exact hfirst
    | done => exact hfirst.trans (ih (by rw [hsize]; omega))

theorem tends_lock (m : Map κ ν) : m.Tends m.lock.2 := by
  unfold lock
  split
  · exact .refl m
  · have hall := tends_shards (m := m) (f := fun (d : Shard κ ν) s =>
      ({ d with table := d.table.lock, sharers := d.sharers + 1 }, s))
      fun d _ s => Shard.tends_table (d.table.tends_lock s) _
    rw [sweep_map] at hall
    exact hall

theorem tends_unlock (m : Map κ ν) : m.Tends m.unlock :=
  tends_shards (f := fun (d : Shard κ ν) s =>
    ({ d with table := (d.table.unlock s).1, sharers := d.sharers - 1 }, (d.table.unlock s).2))
    fun d _ s => Shard.tends_table (d.table.tends_unlock s) _

/-- The view of a map has its locks. -/
theorem Fit.tends_wipe (h : m.Fit true) : m.Tends { m with
    shards := (sweep (fun (d : Shard κ ν) s =>
      ({ d with table := (d.table.wipe s).1 }, (d.table.wipe s).2)) m.shards m.shared).1
    shared := (sweep (fun (d : Shard κ ν) s =>
      ({ d with table := (d.table.wipe s).1 }, (d.table.wipe s).2)) m.shards m.shared).2 } := by
  refine tends_shards fun d hd s =>
    Shard.tends_table (Table.tends_wipe (fun b hb => ?_) s) d.sharers
  obtain ⟨i, hi, rfl⟩ := Array.mem_iff_getElem.mp hd
  exact ((h.shards i hi).table.steady b (shardAt_eq hi ▸ hb)).locked_eq

end Map

end VersionedMap
