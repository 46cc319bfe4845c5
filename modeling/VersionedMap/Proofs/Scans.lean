import VersionedMap.Proofs.Deadlock

/-!
# Scans under mutation

The callback of a scan may do to the map whatever a guest can: set and remove keys ahead of the
scan and behind it, make tables grow, clear them, scan and read in turn, lock the map and wipe
it. The scan goes on in the tables that were current when it came to their shards. It meets no
key twice, meets only what the map has held since it began, and misses nothing that has been
there all the while.

The one thing that can go wrong is that the scan does not come to an end: where its callback
keeps a view, and enough is read under it, a bucket ahead brims, and the scan waits there.
-/

namespace VersionedMap.Map

variable {κ ν ρ : Type}

/-- Where no key is twice, a key that is there with a value is there with that value only. -/
theorem filter_key_eq [DecidableEq κ] {l : List (κ × ν)} (hl : (l.map Prod.fst).Nodup)
    {e : κ × ν} (he : e ∈ l) : l.filter (fun e' => decide (e'.1 = e.1)) = [e] := by
  induction l with
  | nil => exact absurd he (by simp)
  | cons e' l ih =>
    obtain ⟨hhead, htail⟩ := List.nodup_cons.mp hl
    rw [List.filter_cons]
    rcases List.mem_cons.mp he with rfl | he
    -- found in front, and so not behind
    · have hrest : l.filter (fun e' => decide (e'.1 = e.1)) = [] := by
        refine List.filter_eq_nil_iff.mpr fun e' he' hkey => hhead ?_
        exact List.mem_map.mpr ⟨e', he', of_decide_eq_true hkey⟩
      simp [hrest]
    · have hne : e'.1 ≠ e.1 := fun hkey => hhead (List.mem_map.mpr ⟨e, he, hkey.symm⟩)
      simp [hne, ih htail he]

theorem Fit.valueOf_of_entry [DecidableEq κ] {held : Bool} {m : Map κ ν} (h : m.Fit held)
    {x : Item κ ν} (hx : x ∈ m.items) {e : κ × ν} (he : x.entry = e) :
    valueOf m.items e.1 = some e.2 := by
  subst he
  exact (mem_iff_valueOf h.nodup).mpr ⟨x, hx, rfl, rfl⟩

/-- What stops a scan is one visit, the last, and nothing else ends it but a bucket that brims. -/
theorem halts_iff {a : Attempt Bool} {l : List (Visit κ ν)} (h : Halts a l) :
    (a = .done false ↔ ∃ x ∈ l, x.onward = false) ∧
      ∀ before x after, l = before ++ x :: after → x.onward = false → after = [] := by
  have hall (hon : ∀ x ∈ l, x.onward = true) (x : Visit κ ν) (hx : x ∈ l) : x.onward ≠ false := by
    rw [hon x hx]
    simp
  match a with
  | .done true | .waits =>
    refine ⟨⟨fun he => (by cases he), fun ⟨x, hx, hstop⟩ => absurd hstop (hall h x hx)⟩, ?_⟩
    rintro before x after rfl hstop
    exact absurd hstop (hall h x (by simp))
  | .done false =>
    obtain ⟨first, last, rfl, hlast, hfirst⟩ := h
    refine ⟨⟨fun _ => ⟨last, by simp, hlast⟩, fun _ => rfl⟩, fun before x after he hstop => ?_⟩
    rcases List.append_eq_append_iff.mp he with ⟨mid, rfl, hmid⟩ | ⟨mid, rfl, hmid⟩
    · cases mid with
      | nil => exact (List.cons.inj hmid).2.symm
      | cons y mid => exact absurd (congrArg List.length hmid) (by simp)
    -- the visit would be one before the last, and these all went on
    · cases mid with
      | nil => exact (List.cons.inj hmid).2
      | cons y mid =>
        obtain ⟨rfl, _⟩ := List.cons.inj hmid
        exact absurd hstop (by rw [hfirst x (by simp)]; simp)

/-- A visit to a bucket with one item in it. -/
theorem visitBucket_single {σ : Type} {visitor : Visitor κ ν σ} {p : Place} {n : Nat} {st st' : σ}
    {m m₁ m₂ : Map κ ν} {e : κ × ν} (hacquire : m.acquire p = (.held n, m₁))
    (hitems : ((m₁.bucketAt p).itemsAt n).map Item.entry = [e])
    (hvisit : visitor e st m₁ = (true, st', m₂)) :
    visitBucket visitor p st m = (.done true, st', m₂.release p n) := by
  obtain ⟨x, hx, rfl⟩ := List.map_eq_singleton_iff.mp hitems
  unfold visitBucket
  rw [hacquire]
  dsimp only
  rw [hx]
  unfold visitItems
  rw [hvisit]
  rfl

variable [DecidableEq κ]

/--
**A scan neither doubles nor loses.** On a map that guests can bring about, with any guest for a
callback, from visit to visit:

* no key is met twice;
* a pair that is met was in the map when the scan began, or has been seen in it by an earlier
  visit;
* a scan that goes through meets a pair that was in the map when it began exactly once, if no
  deed on the way has set or removed the key or cleared the map;
* a scan is stopped exactly by a visit that says so, and makes no visit after it;
* a scan that comes to wait does so for a view that was there at the start or that a visit has
  taken, at a bucket that brims;
* where no view is left, the scan does not wait: it goes through unless a visit stops it, and meets
  every pair that was there and has been spared, exactly once.
-/
theorem scan_meets_each_once {v : View} {m : Map κ ν} (h : Reachable v m) (start : ρ)
    (inside : κ × ν → ρ → Guest κ ν ρ) (more : ρ → Bool) :
    ∃ a t m', m.range (Tour.visit more fun e r => (inside e r).run) ⟨[], start, v⟩ = (a, t, m') ∧
      (t.visits.map (·.entry.1)).Nodup ∧
      (∀ before x after, t.visits = before ++ x :: after →
        valueOf m.items x.entry.1 = some x.entry.2 ∨
          ∃ s ∈ Visit.logs before, valueOf s.map.items x.entry.1 = some x.entry.2) ∧
      (a = .done true → ∀ k w, valueOf m.items k = some w →
        (∀ s ∈ Visit.logs t.visits, s.Spares k) →
          (t.visits.map (·.entry)).filter (fun e => decide (e.1 = k)) = [(k, w)]) ∧
      (a = .done false ↔ ∃ x ∈ t.visits, x.onward = false) ∧
      (∀ before x after, t.visits = before ++ x :: after → x.onward = false → after = []) ∧
      (a = .waits → t.view.freed = false ∧ m'.Brimming) ∧
      (t.view.freed = true → (∃ went, a = .done went) ∧
        ((∀ x ∈ t.visits, x.onward = true) → ∀ k w, valueOf m.items k = some w →
          (∀ s ∈ Visit.logs t.visits, s.Spares k) →
            (t.visits.map (·.entry)).filter (fun e => decide (e.1 = k)) = [(k, w)])) := by
  have hfit := h.fit
  obtain ⟨a, t, m', news, hrun, hleg⟩ := range_leg more
    (f := fun e r => (inside e r).run) (fun e r v m hm => (inside e r).run_course hm)
    (t := ⟨[], start, v⟩) hfit
  have hvisits : t.visits = news := hleg.visits_eq
  subst hvisits
  obtain ⟨hstops, hlast⟩ := halts_iff hleg.halts
  have hmet (hdone : a = .done true) (k : κ) (w : ν) (hk : valueOf m.items k = some w)
      (hspared : ∀ s ∈ Visit.logs t.visits, s.Spares k) :
      (t.visits.map (·.entry)).filter (fun e => decide (e.1 = k)) = [(k, w)] := by
    obtain ⟨y, hy, rfl, rfl⟩ := (mem_iff_valueOf hfit.nodup).mp hk
    -- spared by every deed, the item is in the map at every moment of the scan
    have hall := hleg.course.follows.spared hy hspared
    obtain ⟨x, hx, he⟩ := hleg.complete hdone y hy hall
    refine filter_key_eq (e := y.entry) ?_ (List.mem_map.mpr ⟨x, hx, he⟩)
    rw [List.map_map]
    exact hleg.nodup
  have hends (hfree : t.view.freed = true) : ∃ went, a = .done went := by
    match a, hleg.waits with
    | .done went, _ => exact ⟨went, rfl⟩
    | .waits, hwaits => exact absurd (hwaits rfl).1 (by simp [hfree])
  refine ⟨a, t, m', hrun, hleg.nodup, fun before x after he => ?_, hmet, hstops, hlast, hleg.waits,
    fun hfree => ⟨hends hfree, fun honward => hmet ?_⟩⟩
  · obtain ⟨y, hy, hmem | ⟨s, hs, hmem⟩⟩ := hleg.sourced before x after he
    · exact .inl (hfit.valueOf_of_entry hmem hy)
    · have hs' : s ∈ Visit.logs t.visits := by
        rw [he, Leg.logs_append]
        exact List.mem_append_left _ hs
      exact .inr ⟨s, hs, (hleg.course.sights s hs').valueOf_of_entry hmem hy⟩
  -- no visit has stopped the scan, and nothing has made it wait
  · obtain ⟨_ | _, rfl⟩ := hends hfree
    · obtain ⟨x, hx, hstop⟩ := hstops.mp rfl
      exact absurd (honward x hx) (by simp [hstop])
    · rfl

/-- Three keys in one table. -/
def threeKeys : Map Nat Nat :=
  (new .single (fun k : Nat => k.toUInt64) 1 0).extend [(1, 10), (2, 20), (3, 30)]

/-- Removes the second of three keys, and sets another in the bucket of the first. -/
def editingCallback (_ : Nat × Nat) (_ : Unit) : Guest Nat Nat Unit :=
  .act (.delete ⟨2, (· == 2)⟩) fun _ => .act (.set 17 70) fun _ => .stop ()

def editingScan : Attempt Bool × Tour Nat Nat Unit × Map Nat Nat :=
  threeKeys.range (Tour.visit (fun _ => true) fun e r => (editingCallback e r).run)
    ⟨[], (), { freed := true }⟩

/-- Of what the callback has set and removed nothing is met, and the third key once. -/
theorem scan_meets_each_once_editing :
    Reachable { freed := true } threeKeys ∧ editingScan.1 = .done true ∧
      (editingScan.2.1.visits.map (·.entry)).filter (fun e => decide (e.1 = 3)) = [(3, 30)] ∧
      editingScan.2.1.visits.map (·.entry) = [(1, 10), (3, 30)] := by
  have hreach : Reachable { freed := true } threeKeys := (Reachable.new _ _ _ _).extend _
  obtain ⟨a, t, m', hscan, _, _, _, hstops, _, _, hends⟩ :=
    scan_meets_each_once hreach () editingCallback fun _ => true
  change editingScan = (a, t, m') at hscan
  obtain rfl : editingScan.2.1 = t := congrArg (·.2.1) hscan
  obtain ⟨⟨went, rfl⟩, hmet⟩ := hends (by decide +kernel)
  have honward : ∀ x ∈ editingScan.2.1.visits, x.onward = true := by decide +kernel
  have hdone : went = true := by
    cases went with
    | true => rfl
    | false =>
      obtain ⟨x, hx, hstop⟩ := hstops.mp rfl
      exact absurd (honward x hx) (by simp [hstop])
  have hspared : ∀ s ∈ Visit.logs editingScan.2.1.visits, s.Spares 3 := by
    have hdeeds : ∀ s ∈ Visit.logs editingScan.2.1.visits,
        (match s.deed with
          | none => true
          | some (.set k _, _) => k != 3
          | some (.delete q, _) => !q.admits 3
          | _ => false) = true := by decide +kernel
    intro s hs d a' hd
    have hdeed := hdeeds s hs
    rw [hd] at hdeed
    match d with
    | .set k w => exact Deed.spares_set w a' (bne_iff_ne.mp hdeed).symm
    | .delete q => exact Deed.spares_delete a' (Bool.not_eq_true' _ ▸ hdeed)
  exact ⟨hreach, (congrArg (·.1) hscan).trans (congrArg Attempt.done hdone),
    hmet honward 3 30 (by decide +kernel) hspared, by decide +kernel⟩

/-! ## A scan that does not come to an end -/

/-- Two keys in one table. -/
def twoKeys : Map Nat Nat :=
  (new .single (fun k : Nat => k.toUInt64) 1 0).extend [(0, 10), (1, 20)]

/-- Takes a view of the map, and reads the other key `n` times under it. -/
def lockingCallback (n : Nat) (_ : Nat × Nat) (_ : Unit) : Guest Nat Nat Unit :=
  .act .lock fun _ => .frequent ⟨1, (· == 1)⟩ n

def lockingVisitor (n : Nat) : Visitor Nat Nat (Tour Nat Nat Unit) :=
  Tour.visit (fun _ => true) fun e r => (lockingCallback n e r).run

/-- A scan of two keys, with such a callback. -/
def lockingScan (n : Nat) : Attempt Bool × Tour Nat Nat Unit × Map Nat Nat :=
  twoKeys.range (lockingVisitor n) ⟨[], (), { freed := true }⟩

/-- The map when the scan has come to its first visit. -/
def twoKeysVisited : Map Nat Nat := ((twoKeys.enter 0).2.acquire ⟨0, 0, 0⟩).2

theorem reachable_twoKeys : Reachable { freed := true } twoKeys := (Reachable.new _ _ _ _).extend _

theorem fit_twoKeysVisited : twoKeysVisited.Fit false := by
  obtain ⟨hfit, _⟩ := reachable_twoKeys.fit.enter (i := 0) (by decide +kernel)
  exact (hfit.acquire (p := ⟨0, 0, 0⟩) (by decide +kernel)).1

/-- The first visit of the scan: the callback has taken a view and read under it. -/
theorem visitBucket_locking (n : Nat) {m : Map Nat Nat}
    (hlock : twoKeysVisited.lock = (.done {}, m)) :
    ∃ t, visitBucket (lockingVisitor n) ⟨0, 0, 0⟩ ⟨[], (), { freed := true }⟩ (twoKeys.enter 0).2 =
        (.done true, t, ((Guest.frequent ⟨1, (· == 1)⟩ n).run {} m).2.release ⟨0, 0, 0⟩ 1) ∧
      t.visits = [⟨(0, 10), ⟨none, { freed := true }, twoKeysVisited⟩ ::
        ⟨some (.lock, .nothing), {}, m⟩ ::
          ((Guest.frequent ⟨1, (· == 1)⟩ n).run {} m).1.log, true⟩] := by
  have hacquire : (twoKeys.enter 0).2.acquire ⟨0, 0, 0⟩ = (.held 1, twoKeysVisited) :=
    Prod.ext (by decide +kernel) rfl
  have hitems : ((twoKeysVisited.bucketAt ⟨0, 0, 0⟩).itemsAt 1).map Item.entry = [(0, 10)] := by
    decide +kernel
  have hcallback : (lockingCallback n (0, 10) ()).run { freed := true } twoKeysVisited =
      Stay.note ⟨some (.lock, .nothing), {}, m⟩ (Guest.frequent ⟨1, (· == 1)⟩ n).run := by
    unfold lockingCallback
    rw [Guest.run.eq_def (Guest.act _ _)]
    dsimp only [Deed.run]
    rw [hlock]
  generalize hout : (Guest.frequent ⟨1, (· == 1)⟩ n).run {} m = out
  obtain ⟨s, m'⟩ := out
  refine ⟨⟨[⟨(0, 10), _, true⟩], s.result, s.view⟩, visitBucket_single hacquire hitems ?_, rfl⟩
  dsimp only [lockingVisitor, Tour.visit, Stay.note]
  rw [hcallback]
  dsimp only [Stay.note]
  rw [hout]
  rfl

/-- To let go of the first of two buckets leaves the second as it is. -/
theorem bucketOf_release_first {m : Map Nat Nat} (h : m.Fit true)
    (hg : (m.shardAt 0).aside.size = 0) (hplace : m.placeOf 1 0 = ⟨0, 0, 1⟩) (n : Nat) :
    (m.release ⟨0, 0, 0⟩ n).bucketOf 1 = m.bucketOf 1 := by
  have hshard : (m.route 1).shard = 0 := congrArg Place.shard hplace
  have hguarded : (m.shardAt (m.route 1).shard).aside.size ≤ 0 := by
    rw [hshard]
    exact Nat.le_of_eq hg
  have hlt : 0 < m.shards.size := h.pos
  obtain ⟨_, halike⟩ := h.release (p := ⟨0, 0, 0⟩) hlt n
  have hother : (m.release ⟨0, 0, 0⟩ n).bucketAt ⟨0, 0, 1⟩ = m.bucketAt ⟨0, 0, 1⟩ :=
    bucketAt_modifyBucket_ne hlt (by decide) _
  rw [← bucketAt_placeOf (halike.guarded hguarded), halike.placeOf_eq, hplace, hother, ← hplace,
    bucketAt_placeOf hguarded]

/-- Where the other key is read until its bucket brims, the scan comes to wait there. -/
theorem lockingScan_waits {n : Nat} (hn : 1 + n + 1 = rebalanceAt.toNat) :
    ∃ t m, lockingScan n = (.waits, t, m) ∧ t.visits.map (·.entry) = [(0, 10)] ∧
      (∀ x ∈ t.visits, x.onward = true) ∧ ∀ s ∈ Visit.logs t.visits, s.Spares 1 := by
  obtain ⟨m, hlock, hfit, _, _⟩ := fit_twoKeysVisited.lock
  have hm : m = twoKeysVisited.lock.2 := congrArg Prod.snd hlock.symm
  have hstate : (m.bucketOf 1).chain ≠ [] ∧ (m.bucketOf 1).reference.count.toNat = 1 ∧
      m.placeOf 1 0 = ⟨0, 0, 1⟩ ∧ (m.shardAt 0).aside.size = 0 := by
    rw [hm]
    decide +kernel
  obtain ⟨hne, hone, hplace, haside⟩ := hstate
  obtain ⟨t, hfirst, hvisits⟩ := visitBucket_locking n hlock
  obtain ⟨hdeeds, _, hcounts⟩ :=
    Guest.run_frequent (v := {}) ⟨1, (· == 1)⟩ n hfit hne (by rw [hone]; omega)
  generalize (Guest.frequent ⟨1, (· == 1)⟩ n).run {} m = out at *
  obtain ⟨stay, m'⟩ := out
  dsimp only at hdeeds hcounts hfirst hvisits
  have hplace' := (hcounts.sameView.placeOf_eq 1 0).trans hplace
  have haside' := Nat.eq_zero_of_le_zero (haside ▸ hcounts.aside_le 0)
  obtain ⟨hfit', halike⟩ := hcounts.fit.release (p := ⟨0, 0, 0⟩) hcounts.fit.pos 1
  have hbrims : ((m'.release ⟨0, 0, 0⟩ 1).bucketOf 1).Brims := by
    rw [bucketOf_release_first hcounts.fit haside' hplace']
    have hcount := hcounts.count_eq
    exact ⟨hcounts.published, (next_eq_rebalanceAt_iff (by omega)).mpr (by omega)⟩
  have hguarded : (m'.shardAt (m'.route 1).shard).aside.size ≤ 0 := by
    rw [show (m'.route 1).shard = 0 from congrArg Place.shard hplace']
    exact Nat.le_of_eq haside'
  obtain ⟨m₁, hsecond⟩ :=
    hfit'.visitBucket_waits (halike.guarded hguarded) hbrims (lockingVisitor n) t
  rw [halike.placeOf_eq, hplace'] at hsecond
  have hsizes : twoKeys.shards.size = 1 ∧ (twoKeys.enter 0).1 = 0 ∧
      ((twoKeys.enter 0).2.tableAt 0 0).size = 16 := by decide +kernel
  obtain ⟨hshards, hguard, hbuckets⟩ := hsizes
  have hscan : lockingScan n = (.waits, t, m₁.leave 0) := by
    unfold lockingScan range
    rw [hshards]
    unfold visitShards visitShard
    dsimp only
    rw [hguard, hbuckets]
    unfold visitBuckets
    rw [hfirst]
    dsimp only
    unfold visitBuckets
    rw [hsecond]
  refine ⟨t, _, hscan, by rw [hvisits]; rfl, by simp [hvisits], fun s hs d a hd => ?_⟩
  rw [Visit.logs, hvisits, List.flatMap_singleton] at hs
  -- the view has been taken, and nothing else has been done
  rcases List.mem_cons.mp hs with rfl | hs
  · cases hd
  · rcases List.mem_cons.mp hs with rfl | hs
    · cases hd
      trivial
    · rw [hdeeds s hs] at hd
      cases hd

/--
**A scan that waits for itself.** Its first visit takes a view and reads the other key under it,
and does nothing else. The key has been there all the while, no visit stops the scan, and yet it is
not met: the scan waits for the view at its bucket.
-/
theorem scan_waits_for_itself :
    Reachable { freed := true } twoKeys ∧ valueOf twoKeys.items 1 = some 20 ∧
      ∃ t m, lockingScan 999999998 = (.waits, t, m) ∧ t.visits.map (·.entry) = [(0, 10)] ∧
        (∀ x ∈ t.visits, x.onward = true) ∧ ∀ s ∈ Visit.logs t.visits, s.Spares 1 :=
  ⟨reachable_twoKeys, by decide +kernel, lockingScan_waits (by decide)⟩

end VersionedMap.Map
