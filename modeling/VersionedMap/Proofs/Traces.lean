import VersionedMap.Proofs.Erasure

/-!
# What mutations leave behind

All mutations go the same way: they take the lock of one bucket, search it, do what there is to do,
account for it and unlock. One that finds **nothing to do** leaves no trace of having gone there:
nothing is published, counted, reclaimed or reported, and no growth is set off, though readers may
hold versions of the very bucket.

One that finds something to do **writes** to the bucket of its hash and to no other, in this table
or in another one. Only an insertion with which growth is due goes further: it replaces the table
by its grown copy.
-/

namespace VersionedMap.Map

variable {κ ν α : Type} {m m' : Map κ ν}

/-! ## Writing -/

/-- From `m` to `m'` the table of a shard is replaced by its grown copy. -/
structure Regrows (m : Map κ ν) (i : Nat) (m' : Map κ ν) : Prop extends m.Grows i m' where
  /-- Whoever has guarded the old table finds all items there as they were. -/
  replaced : ∃ old : Table κ ν, old.shelves = (m.shardAt i).table.shelves ∧
    m'.shardAt i = (m.shardAt i).replace old (m'.shardAt i).table

/--
From `m` to `m'` the bucket of a hash is rewritten, and nothing else is, unless growth is due after
an insertion: then the table with the rewritten bucket is replaced by its grown copy.
-/
def Writes (m : Map κ ν) (hash : UInt64) (c : Change) (l : List (Item κ ν)) (m' : Map κ ν) :
    Prop :=
  ∃ m₁, m.Rewrites hash c l m₁ ∧ m₁.shared.growths = m.shared.growths ∧
    if c = .inserted ∧ growthThreshold (m.shardAt (m.route hash).shard).table.size ≤
        (m₁.shardAt (m.route hash).shard).table.count.toNat
    then m₁.Regrows (m.route hash).shard m' else m' = m₁

theorem Fit.grow_regrows (h : m.Fit false) {i : Nat} (hi : i < m.shards.size)
    (hneeds : (m.shardAt i).table.needsGrowth = true) :
    ∃ m', m.grow i = (.done (), m') ∧ m.Regrows i m' := by
  have hfit := h.shards i hi
  rcases h.grow_cases hi with ⟨hnot, _⟩ | ⟨_, m', hgrow, hgrows, _⟩
  · exact absurd (hneeds.symm.trans hnot) (by simp)
  obtain ⟨s, hout⟩ : ∃ s, (m.shardAt i).grow m.shared = (.done (), (m.shardAt i).replace
      ((m.shardAt i).table.grow m.shared).2.1 ((m.shardAt i).table.grow m.shared).1, s) := by
    unfold Shard.grow
    rw [if_neg (by simp [hfit.sharers_eq]), hneeds]
    exact ⟨_, rfl⟩
  obtain ⟨m'', hrun, hswap, _⟩ := modifyShard_swaps hi hout
  obtain rfl : m'' = m' := congrArg Prod.snd (Eq.trans hrun.symm hgrow)
  have hold := Table.shelves_grow_old hfit.table.ready m.shared
  exact ⟨m'', hgrow, { hgrows with
    replaced := ⟨_, hold, by rw [hswap.here, Shard.table_replace]⟩ }⟩

/-- A motion writes what it makes of the items in the bucket that it leads to. -/
theorem Fit.motion_writes (h : m.Fit false) (μ : Motion κ ν m.hash) {a : μ.Result} {c : Change}
    {l : List (Item κ ν)}
    (hedit : μ.edit (m.route μ.key).hash (m.bucketOf μ.key).items = ((a, c), l)) :
    ∃ m', m.mutate μ.key μ.act = (.done a, m') ∧ m.Writes μ.key c l m' := by
  obtain ⟨own, spares, hedits, hown⟩ := μ.edits
  obtain ⟨m₁, hchange, hrewrites⟩ := h.change_rewrites μ.key μ.act
  obtain ⟨w, hchange', hchanges, hfit⟩ := h.change_changes hedits hown μ.mute
  obtain rfl : m₁ = w := congrArg Prod.snd (hchange.symm.trans hchange')
  obtain ⟨hresult, hitems⟩ : (m.outcome μ.key μ.act).1 = (μ.edit _ _).1 ∧
      (m.outcome μ.key μ.act).2.1.items = (μ.edit _ _).2 :=
    μ.redacts (m.route μ.key).hash (m.bucketOf μ.key).lock m.shared h.clean
  rw [Bucket.items_lock, hedit] at hresult hitems
  rw [hresult] at hchange hrewrites
  rw [hitems] at hrewrites
  have hsize := hrewrites.refills.size_eq
  unfold Map.mutate
  dsimp only at hchange hrewrites ⊢
  rw [hchange]
  cases hdue : (decide (c = .inserted) &&
      (m₁.shardAt (m.route μ.key).shard).table.needsGrowth) with
  | false =>
    refine ⟨m₁, rfl, m₁, hrewrites, hchanges.growths_eq, ?_⟩
    rw [if_neg]
    rintro ⟨rfl, hthreshold⟩
    rw [← hsize] at hthreshold
    simp [Table.needsGrowth, hthreshold] at hdue
  | true =>
    obtain ⟨hc, hneeds⟩ := Bool.and_eq_true_iff.mp hdue
    have hthreshold := of_decide_eq_true hneeds
    rw [hsize] at hthreshold
    obtain ⟨m₂, hgrow, hregrows⟩ :=
      hfit.grow_regrows (hchanges.size_eq ▸ h.route_lt μ.key) hneeds
    refine ⟨m₂, ?_, m₁, hrewrites, hchanges.growths_eq, ?_⟩
    · dsimp only
      rw [hgrow]
    · rw [if_pos ⟨of_decide_eq_true hc, hthreshold⟩]
      exact hregrows

/-! ## Keys -/

variable [DecidableEq κ]

/-- What a map has for an item of a key with this value. -/
def itemFor (m : Map κ ν) (k : κ) (w : ν) : Item κ ν := ⟨(m.route (m.hash k)).hash, k, w⟩

/-- In the bucket of a key its item is found, if there is one. -/
theorem Fit.find?_exactly (h : m.Fit false) (k : κ) :
    ((m.bucketOf (m.hash k)).items.find?
      (Query.exactly (m.route (m.hash k)).hash k).selects).map (·.value) = m.valueAt k := by
  obtain ⟨hfiled, hvalue⟩ := h.sound.shelfAt_spec k
  rw [← items_bucketOf] at hfiled hvalue
  rw [hfiled.find?_eq]
  exact hvalue

theorem Fit.find?_exactly_none (h : m.Fit false) {k : κ} (hk : m.valueAt k = none) :
    (m.bucketOf (m.hash k)).items.find? (Query.exactly (m.route (m.hash k)).hash k).selects =
      none := by
  rw [← h.find?_exactly k] at hk
  exact Option.map_eq_none_iff.mp hk

theorem Fit.find?_exactly_some (h : m.Fit false) {k : κ} {u : ν} (hk : m.valueAt k = some u) :
    ∃ x, (m.bucketOf (m.hash k)).items.find?
      (Query.exactly (m.route (m.hash k)).hash k).selects = some x ∧ x.value = u := by
  rw [← h.find?_exactly k] at hk
  exact Option.map_eq_some_iff.mp hk

/-! ## Nothing to do -/

/-- Mutations that find nothing to do leave the map as it is, down to the pool and the log. -/
structure Undisturbed (m : Map κ ν) : Prop where
  setAbsent : ∀ k u w, m.valueAt k = some u → m.setAbsent k w = (.done false, m)
  getOrSet : ∀ k u w, m.valueAt k = some u → m.getOrSet k w = (.done (u, true), m)
  delete : ∀ q, (m.bucketOf q.hash).items.find? (m.queryOf q).selects = none →
    m.delete q = (.done none, m)

theorem Fit.undisturbed (h : m.Fit false) (hserved : m.Served) : m.Undisturbed where
  setAbsent k u w hk := by
    obtain ⟨x, hfind, _⟩ := h.find?_exactly_some hk
    refine h.mutate_idle hserved ?_
    unfold outcome Mutation.setAbsent
    dsimp only
    rw [Bucket.find?_eq, Bucket.items_lock, hfind]
  getOrSet k u w hk := by
    obtain ⟨x, hfind, rfl⟩ := h.find?_exactly_some hk
    refine h.mutate_idle hserved ?_
    unfold outcome Mutation.getOrSet
    dsimp only
    rw [Bucket.find?_eq, Bucket.items_lock, hfind]
  delete q hnone := h.delete_absent hserved ((m.find?_bucketOf q).trans hnone)

/-! ## Something to do -/

/-- Mutations that find something to do write to the bucket of their key, each in its own way. -/
structure Confined (m : Map κ ν) : Prop where
  set : ∀ k w, ∃ m', m.swap k w = (.done (m.valueAt k), m') ∧ m.set k w = (.done (), m') ∧
    m.Writes (m.hash k) (if (m.valueAt k).isNone then .inserted else .unchanged)
      ((m.bucketOf (m.hash k)).items.filter (fun x => !decide (x.key = k)) ++ [m.itemFor k w]) m'
  setAbsent : ∀ k w, m.valueAt k = none → ∃ m', m.setAbsent k w = (.done true, m') ∧
    m.Writes (m.hash k) .inserted ((m.bucketOf (m.hash k)).items ++ [m.itemFor k w]) m'
  getOrSet : ∀ k w, m.valueAt k = none → ∃ m', m.getOrSet k w = (.done (w, false), m') ∧
    m.Writes (m.hash k) .inserted ((m.bucketOf (m.hash k)).items ++ [m.itemFor k w]) m'
  delete : ∀ q x, (m.bucketOf q.hash).items.find? (m.queryOf q).selects = some x →
    ∃ m', m.delete q = (.done (some x.value), m') ∧
      m.Writes q.hash .removed ((m.bucketOf q.hash).items.eraseP (m.queryOf q).selects) m'

/-- The item of an absent key goes to the end of the bucket, whatever is answered. -/
theorem Fit.placeAbsent_eq (h : m.Fit false) {k : κ} (hk : m.valueAt k = none) (w : ν)
    (a : Option (Item κ ν) → α) :
    Redaction.placeAbsent (m.route (m.hash k)).hash k w a (m.bucketOf (m.hash k)).items =
      ((a none, .inserted), (m.bucketOf (m.hash k)).items ++ [m.itemFor k w]) := by
  unfold Redaction.placeAbsent
  rw [h.find?_exactly_none hk]
  rfl

theorem Fit.confined (h : m.Fit false) : m.Confined where
  set k w := by
    have hfiled := (h.sound.shelfAt_spec k).1
    rw [← items_bucketOf] at hfiled
    have hplace : Redaction.place (m.route (m.hash k)).hash k w (m.bucketOf (m.hash k)).items =
        ((m.valueAt k, if (m.valueAt k).isNone then .inserted else .unchanged),
          (m.bucketOf (m.hash k)).items.filter (fun x => !decide (x.key = k)) ++
            [m.itemFor k w]) := by
      unfold Redaction.place itemFor
      rw [← h.find?_exactly k, hfiled.eraseP_eq, Option.isNone_map]
    obtain ⟨m', hswap, hwrites⟩ :=
      h.motion_writes (((Deed.swap k w : Deed κ ν).motion? m.hash).get rfl) hplace
    have hswap : m.swap k w = (.done (m.valueAt k), m') := hswap
    refine ⟨m', hswap, ?_, hwrites⟩
    unfold Map.set
    rw [hswap]
    rfl
  setAbsent k w hk := h.motion_writes (((Deed.setAbsent k w : Deed κ ν).motion? m.hash).get rfl)
    (h.placeAbsent_eq hk w Option.isNone)
  getOrSet k w hk := h.motion_writes (((Deed.getOrSet k w : Deed κ ν).motion? m.hash).get rfl)
    (h.placeAbsent_eq hk w fun i => ((i.map Item.value).getD w, i.isSome))
  delete q x hfound := by
    have hdelete : Redaction.delete (m.queryOf q) (m.bucketOf q.hash).items =
        ((some x.value, .removed), (m.bucketOf q.hash).items.eraseP (m.queryOf q).selects) := by
      unfold Redaction.delete
      rw [hfound]
    exact h.motion_writes (((Deed.delete q : Deed κ ν).motion? m.hash).get rfl) hdelete

/--
**Mutations that change nothing leave no trace.** Whatever guests have done to a map, and whatever
their callbacks hold of it: while there is no view, a mutation that finds nothing to do leaves the
whole map as it is, and any other changes the items of one bucket, that of its key, unless it
inserts the item with which growth is due. Under a view every mutation waits.
-/
theorem idle_mutations_leave_no_trace {v : View} {m : Map κ ν} (h : Reachable v m) :
    (v.freed = true → m.Undisturbed ∧ m.Confined) ∧
    (v.freed = false → ∀ (α : Type) (hash : UInt64) (f : UInt32 → Mutation κ ν α),
      m.mutate hash f = (.waits, m)) := by
  have hfit := h.fit
  constructor
  · intro hfree
    rw [hfree] at hfit
    exact ⟨hfit.undisturbed h.served, hfit.confined⟩
  · intro hheld
    rw [hheld] at hfit
    exact fun _ hash f => hfit.mutate_held hash f

/-- A scan of eleven keys in sixteen buckets; its callback only looks. -/
def elevenScan : Stay Nat Nat Unit × Map Nat Nat :=
  let scan : Guest Nat Nat Unit := .range () (fun _ _ => .stop ()) (fun _ => true) fun _ _ =>
    .stop ()
  scan.run { freed := true } ((new .single (fun k : Nat => k.toUInt64) 0 0).extend
    ((List.range 11).map fun k => (k, 10 * k)))

theorem elevenScan_visits : 0 < elevenScan.1.log.length := by decide +kernel

/-- The map as the callback finds it first. -/
def elevenVisited : Map Nat Nat := (elevenScan.1.log.get ⟨0, elevenScan_visits⟩).map

/-- The callback could leave no trace, or insert the twelfth key and have growth follow. -/
theorem idle_mutations_leave_no_trace_scanned :
    (elevenVisited.shardAt 0).guards = 1 ∧
      elevenVisited.setAbsent 3 0 = (.done false, elevenVisited) ∧
      elevenVisited.getOrSet 3 0 = (.done (30, true), elevenVisited) ∧
      elevenVisited.delete (elevenVisited.lookup 99) = (.done none, elevenVisited) ∧
      ∃ m', elevenVisited.setAbsent 11 110 = (.done true, m') ∧
        elevenVisited.Writes (elevenVisited.hash 11) .inserted [⟨11, 11, 110⟩] m' ∧
        (m'.shardAt 0).table.size = 32 ∧ (m'.shardAt 0).aside.size = 1 := by
  have hreach : Reachable (elevenScan.1.log.get ⟨0, elevenScan_visits⟩).view elevenVisited :=
    ((Reachable.new _ _ _ _).extend _).within _ (List.get_mem ..)
  obtain ⟨hidle, hwrites⟩ := (idle_mutations_leave_no_trace hreach).1 (by decide +kernel)
  have hthere : elevenVisited.valueAt 3 = some 30 := by decide +kernel
  obtain ⟨m', hrun, hwrites⟩ := hwrites.setAbsent 11 110 (by decide +kernel)
  have hitems : (elevenVisited.bucketOf (elevenVisited.hash 11)).items ++
      [elevenVisited.itemFor 11 110] = [⟨11, 11, 110⟩] := by
    decide +kernel
  have hgrown : ((elevenVisited.setAbsent 11 110).2.shardAt 0).table.size = 32 ∧
      ((elevenVisited.setAbsent 11 110).2.shardAt 0).aside.size = 1 := by
    decide +kernel
  rw [hitems] at hwrites
  rw [hrun] at hgrown
  exact ⟨by decide +kernel, hidle.setAbsent 3 30 0 hthere, hidle.getOrSet 3 30 0 hthere,
    hidle.delete _ (by decide +kernel), m', hrun, hwrites, hgrown⟩

end VersionedMap.Map
