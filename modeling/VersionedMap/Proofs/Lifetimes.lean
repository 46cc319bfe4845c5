import VersionedMap.Proofs.Accounts
import VersionedMap.Proofs.Keeping

/-!
# How long versions live

Whatever guests do to a map, with callbacks in callbacks, the map stays **intact** with respect to
what is held at each instant. So the version behind an entry that a callback has been handed is
where it was acquired, with the items that it had, and is not in the pool, until the callback
returns. And where nobody holds anything and there is no view, the buckets of the current tables
are **quiescent**: they have their newest version only, and both halves of its count cancel out.
-/

namespace VersionedMap

variable {κ ν ρ : Type}

/-! ## What walks keep -/

/-- Callbacks begin and end, and the same version is held as before. -/
theorem Intact.relabel {h h' : Hold κ ν} {H : List (Hold κ ν)} {m : Map κ ν}
    (hm : Intact (h :: H) m) (hplace : h'.place = h.place)
    (hpublication : h'.publication = h.publication) (hversion : h'.version = h.version) :
    Intact (h' :: H) m := by
  have hheld : heldAt (h' :: H) = heldAt (h :: H) := by
    funext p n
    unfold heldAt
    rw [List.countP_cons, List.countP_cons, hplace, hpublication]
  obtain ⟨hfirst, hrest⟩ := List.forall_mem_cons.mp hm.kept
  refine ⟨hheld ▸ hm.orderly, hm.linked, List.forall_mem_cons.mpr ⟨?_, hrest⟩, hm.accounts,
    hm.kempt⟩
  unfold Hold.Kept
  rw [hplace, hpublication, hversion]
  exact hfirst

namespace Walk

variable [DecidableEq κ] {H : List (Hold κ ν)} {v v' : View} {m m' : Map κ ν}
  {l : List (Instant κ ν)}

/-- There is nothing to be seen but by callbacks. -/
theorem handed (hwalk : Walk H v m l v' m') : ∀ t ∈ l, ∀ h ∈ t.holds, h.Handed := by
  induction hwalk with
  | rest | miss => exact fun t ht => absurd ht (by simp)
  | look hH | act hH => exact List.forall_mem_singleton.mpr hH
  | trans _ _ ih ih' => exact List.forall_mem_append.mpr ⟨ih, ih'⟩
  | guard _ _ ih | hold _ _ _ _ _ ih | hand _ _ ih => exact ih

/-- What is held at the start is held all along. -/
theorem heldAt_le (hwalk : Walk H v m l v' m') :
    ∀ t ∈ l, ∀ p n, heldAt H p n ≤ heldAt t.holds p n := by
  induction hwalk with
  | rest | miss => exact fun t ht => absurd ht (by simp)
  | look | act => exact List.forall_mem_singleton.mpr fun _ _ => Nat.le_refl _
  | trans _ _ ih ih' => exact List.forall_mem_append.mpr ⟨ih, ih'⟩
  | guard _ _ ih => exact ih
  | hold _ _ _ _ _ ih =>
    intro t ht p n
    refine Nat.le_trans ?_ (ih t ht p n)
    unfold heldAt
    rw [List.countP_cons]
    exact Nat.le_add_right _ _
  | hand _ _ ih => exact ih

/-- All that is done on a walk leaves a map intact. -/
theorem intact (hwalk : Walk H v m l v' m') (hfit : m.Fit (!v.freed)) (h : Intact H m)
    (hH : Uncrowded H) (hl : ∀ t ∈ l, Uncrowded t.holds) :
    Intact H m' ∧ ∀ t ∈ l, Intact t.holds t.sight.map := by
  induction hwalk with
  | rest => exact ⟨h, fun t ht => absurd ht (by simp)⟩
  | look => exact ⟨h, List.forall_mem_singleton.mpr h⟩
  | act _ d =>
    have htracks := (Course.deed hfit (d.comes_run hfit)).tracks
    have hafter := h.tend hH (d.tends_run hfit) fun p hp => hp.tracks htracks
    exact ⟨hafter, List.forall_mem_singleton.mpr hafter⟩
  | trans hwalk _ ih ih' =>
    obtain ⟨hfirst, hnext⟩ := List.forall_mem_append.mp hl
    obtain ⟨hmid, hsights⟩ := ih hfit h hH hfirst
    obtain ⟨hend, hsights'⟩ := ih' (hwalk.fit hfit) hmid hH hnext
    exact ⟨hend, List.forall_mem_append.mpr ⟨hsights, hsights'⟩⟩
  | @guard H v m i l v' m' hi hwalk ih =>
    obtain ⟨hfit₁, henter⟩ := hfit.enter hi
    obtain ⟨hinside, hsights⟩ := ih hfit₁ (h.enter hi) hH hl
    have htracks := (hwalk.course hfit₁).tracks
    refine ⟨hinside.leave ?_ fun hlast x hx hshard => ?_, hsights⟩
    · exact Nat.lt_of_lt_of_eq hi (htracks.size_eq.trans henter.size_eq).symm
    · -- whatever is held there was guarded before this guard came
      have hguards := (htracks.shards i).guards_eq
      rw [henter.here] at hguards
      have hbefore := (h.kept x hx).1.guards_pos
      rw [hshard] at hbefore
      have hone : (m'.shardAt i).guards = (m.shardAt i).guards + 1 := hguards
      omega
  | miss hp hout => exact ⟨h.miss hH hp hout, fun t ht => absurd ht (by simp)⟩
  | @hold H v m p n w l v' m' hp hout hw hseen hwalk ih =>
    have hheld := h.acquire hH hp hout hw
    obtain ⟨hfit₁, _⟩ := hfit.acquire hp.shard_lt
    have hinside : Intact (⟨p, n, w, none⟩ :: H) m' ∧ ∀ t ∈ l, Intact t.holds t.sight.map := by
      cases l with
      | nil =>
        obtain ⟨_, rfl⟩ := hseen.resolve_left fun hne => hne rfl
        exact ⟨hheld, fun t ht => absurd ht (by simp)⟩
      | cons t l =>
        -- at whatever is seen meanwhile the version is held, by no more than there may be
        have hle := hwalk.heldAt_le t List.mem_cons_self
        have hcrowd := hl t List.mem_cons_self
        exact ih hfit₁ hheld (fun p n => (hle p n).trans_lt (hcrowd p n)) hl
    refine ⟨hinside.1.release ?_, hinside.2⟩
    rw [heldAt_cons_self]
    exact (hH p).roomy_more n
  | hand _ _ ih =>
    obtain ⟨hinside, hsights⟩ := ih hfit (h.relabel rfl rfl rfl) hH hl
    exact ⟨hinside.relabel rfl rfl rfl, hsights⟩

end Walk

/-! ## Quiescence -/

/-- What is known of a bucket that nobody holds anything of, when no operation is in progress. -/
structure Bucket.Quiescent (b : Bucket κ ν) : Prop where
  unlocked : b.locked = false
  served : b.pending = false
  /-- Nothing was ever published, or there is the newest version only, which the word names. -/
  settled : (b.published = 0 ∧ b.chain = [] ∧ b.word = 0) ∨
    ∃ head, b.chain = [head] ∧ head.prev = none ∧ b.reference.id = head.id ∧
      (b.reference.count.toNat : Int) + head.internal.toInt = 1

/-- An orderly bucket is quiescent if nobody holds anything of it and nobody has its lock. -/
theorem Bucket.Orderly.quiescent {b : Bucket κ ν} (h : b.Orderly fun _ => 0)
    (hlinked : Linked b.chain) (hfree : b.locked = false) : b.Quiescent where
  unlocked := hfree
  served := h.tidy.served hfree
  settled := by
    cases hchain : b.chain with
    | nil =>
      refine .inl ⟨h.counted.unpublished hchain, rfl, ?_⟩
      cases h.counted.anchored with
      | vacant _ hword => exact hword
      | named head older count hcons => exact absurd (hchain.symm.trans hcons) (by simp)
    | cons head older =>
      -- the oldest version of a longer chain would be held
      have hexact := h.tidy.exact (h.tidy.served hfree)
      have hsingle : older = [] := by
        refine List.eq_nil_iff_length_eq_zero.mpr (Nat.eq_zero_of_not_pos fun hpos => ?_)
        refine hexact ?_ rfl
        rw [hchain, List.length_cons]
        omega
      subst hsingle
      have hbalanced := Bucket.balanced_of_counted h.counted Bucket.few_none hchain
      have hnewest := hbalanced.newest
      rw [hchain] at hlinked
      exact .inr ⟨head, rfl, hlinked.1, hbalanced.id_eq, by omega⟩

/-- Every bucket of every current table is quiescent. -/
def Map.Quiescent (m : Map κ ν) : Prop := ∀ d ∈ m.shards, ∀ b ∈ d.table.buckets, b.Quiescent

/-- Where nothing is held and there is no view, all buckets are quiescent. -/
theorem Intact.quiescent {m : Map κ ν} (h : Intact [] m) (hfit : m.Fit false) : m.Quiescent := by
  intro d hd b hb
  obtain ⟨i, hi, rfl⟩ := Array.mem_iff_getElem.mp hd
  obtain ⟨j, hj, rfl⟩ := Array.mem_iff_getElem.mp hb
  have hshard := Map.shardAt_eq hi
  have hcurrent : m.tableAt i (m.shardAt i).aside.size = m.shards[i].table := by
    rw [← hshard]
    exact Shard.tableAt_size _
  have hp : m.Has ⟨i, (m.shardAt i).aside.size, j⟩ := ⟨hi, Nat.le_refl _, hcurrent ▸ hj⟩
  have hat := hp.getElem?
  rw [hcurrent, Array.getElem?_eq_getElem hj] at hat
  rw [Option.some.inj hat]
  refine Bucket.Orderly.quiescent (h.orderly _ hp) (h.linked _ hp) ?_
  rw [← Option.some.inj hat]
  have hsteady := (hfit.shards i hi).table.steady
  rw [hshard] at hsteady
  exact (hsteady _ (Array.getElem_mem hj)).locked_eq

/-! ## New maps -/

/-- Nobody holds anything of a new map. -/
theorem Intact.new (layout : Layout) (hash : κ → UInt64) (n capacity : Nat) :
    Intact [] (.new layout hash n capacity : Map κ ν) := by
  obtain ⟨c, hshards⟩ := Map.shards_new (ν := ν) layout hash n capacity
  have hshared := Map.shared_new (ν := ν) layout hash n capacity
  generalize (.new layout hash n capacity : Map κ ν) = m at *
  have hbucket (p : Place) (hp : m.Has p) : m.bucketAt p = {} := by
    have hat := hp.getElem?
    unfold Map.tableAt at hat
    rw [Map.shardAt_eq hp.shard_lt, hshards _ (Array.getElem_mem _)] at hat
    exact Array.eq_of_mem_replicate (Array.mem_of_getElem? hat)
  have hstamps : m.stamps = [] := by
    have hpos : 0 < bucketsFor c := Nat.lt_of_lt_of_le (by decide) (minimumBuckets_le_bucketsFor c)
    refine List.flatMap_eq_nil_iff.mpr fun d hd => ?_
    rw [hshards d (Array.mem_toList_iff.mp hd)]
    exact List.flatMap_eq_nil_iff.mpr fun g _ => Table.stamps_ofSize _ hpos
  refine ⟨fun p hp => ?_, fun p hp => ?_, List.forall_mem_nil _, ⟨[], ?_⟩, ?_⟩
  · rw [hbucket p hp]
    exact Bucket.fresh_new.orderly
  · rw [hbucket p hp]
    exact Bucket.fresh_new.linked
  · rw [hstamps, hshared]
    exact ⟨[], .refl _, rfl⟩
  · rw [hshared]
    exact ⟨Pool.isClean_new, Nat.zero_le _⟩

/-! ## Runs -/

/-- The stamps of a bucket's versions are among those of the map. -/
theorem Map.Has.mem_stamps {m : Map κ ν} {p : Place} (hp : m.Has p) {n : Nat} {w : Version κ ν}
    (hw : (m.bucketAt p).version? n = some w) : w.stamp ∈ m.stamps := by
  rw [stamps_eq_range]
  refine List.mem_flatMap.mpr ⟨p.shard, List.mem_range.mpr hp.shard_lt, ?_⟩
  refine List.mem_flatMap.mpr ⟨p.generation, ?_, ?_⟩
  · exact List.mem_range.mpr (Nat.lt_succ_of_le hp.generation_le)
  · refine List.mem_flatMap.mpr ⟨m.bucketAt p, ?_, ?_⟩
    · exact Array.mem_toList_iff.mpr (Array.mem_of_getElem? hp.getElem?)
    · exact List.mem_map.mpr ⟨w, List.mem_of_getElem? hw, rfl⟩

/-- What is true whenever there is something to be seen. -/
structure Instant.Sound (t : Instant κ ν) : Prop where
  /-- Every version that is held has a callback that was handed an entry of it. -/
  handed : ∀ h ∈ t.holds, h.Handed
  /-- It is where it was acquired, under a guard, with the stamp and the items that it had. -/
  kept : ∀ h ∈ t.holds, t.sight.map.Guarded h.place ∧ h.Kept t.sight.map
  /-- The pool does not have it. -/
  idle : ∀ h ∈ t.holds, h.version.stamp ∉ t.sight.map.shared.pool.stamps
  /-- No allocation is twice in the pool and the tables. -/
  nodup : (t.sight.map.shared.pool.stamps ++ t.sight.map.stamps).Nodup
  /-- Without callbacks and without a view all buckets are quiescent. -/
  quiescent : t.holds = [] → t.sight.view.freed = true → t.sight.map.Quiescent

theorem Intact.sound {t : Instant κ ν} (h : Intact t.holds t.sight.map)
    (hfit : t.sight.map.Fit (!t.sight.view.freed)) (hhanded : ∀ x ∈ t.holds, x.Handed) :
    t.Sound where
  handed := hhanded
  kept := h.kept
  idle x hx := by
    obtain ⟨hplace, w, hw, hlasting⟩ := h.kept x hx
    have hstamp : w.stamp = x.version.stamp := congrArg (·.1) hlasting
    obtain ⟨rest, haccounts⟩ := h.accounts
    exact haccounts.not_idle (List.mem_append_left _ (hstamp ▸ hplace.has.mem_stamps hw))
  nodup := by
    obtain ⟨rest, haccounts⟩ := h.accounts
    have hall := haccounts.nodup
    rw [← List.append_assoc] at hall
    exact hall.of_append_left
  quiescent hnone hfreed := by
    rw [hnone] at h
    rw [hfreed] at hfit
    exact h.quiescent hfit

/--
Whatever a guest does to a new map, with callbacks in callbacks that do to the map what they like:
as long as fewer than `2 ^ 31` callbacks at once have the same version, a version of which an entry
has been handed to a callback stays as it was, and out of the pool, until the callback returns; and
whenever no callback is running and there is no view, all buckets are quiescent.
-/
theorem Guest.versions_outlast_callbacks [DecidableEq κ] (layout : Layout) (hash : κ → UInt64)
    (n capacity : Nat) (g : Guest κ ν ρ) (hcrowd : ∀ t ∈ g.instants [] { freed := true }
      (.new layout hash n capacity), Uncrowded t.holds) :
    let m : Map κ ν := .new layout hash n capacity
    let told := g.instants [] { freed := true } m
    let out := g.run { freed := true } m
    told.map (·.sight) = out.1.log ∧ (∀ t ∈ told, t.Sound) ∧
      (out.1.view.freed = true → out.2.Quiescent) := by
  have hfit : (Map.new layout hash n capacity : Map κ ν).Fit (!true) := Map.fit_new ..
  obtain ⟨hwalk, hsights⟩ := g.walks (List.forall_mem_nil _) hfit
  obtain ⟨hend, hall⟩ := hwalk.intact hfit (.new layout hash n capacity)
    (fun p => Bucket.few_none) hcrowd
  refine ⟨hsights, fun t ht => ?_, fun hfreed => ?_⟩
  · exact (hall t ht).sound ((hwalk.course hfit).sights _ (List.mem_map_of_mem ht))
      (hwalk.handed t ht)
  · have hfit' := hwalk.fit hfit
    rw [hfreed] at hfit'
    exact hend.quiescent hfit'

/--
Sets a key and scans the map. The first visit reads the key, and the callback of that sets the key
anew, removes it, has the table grow and be cleared, and takes, wipes and frees a view; then the
visit ends the scan.
-/
def Guest.meddler : Guest Nat Nat Unit :=
  let deeds : List (Deed Nat Nat) := [.set 1 11, .delete ⟨1, (1 = ·)⟩] ++
    ((List.range 12).map fun k => .set (k + 2) 0) ++ [.clear, .lock, .wipe, .free]
  .act (.set 1 10) fun _ => .range ()
    (fun _ _ => .read ⟨1, (1 = ·)⟩
      (fun _ => deeds.foldr (fun d g => .act d fun _ => g) (.stop ())) fun _ => .stop ())
    (fun _ => false) fun _ _ => .stop ()

/-- Two callbacks have the first version meanwhile, which goes to the pool when both are over. -/
theorem Guest.versions_outlast_callbacks_meddler :
    let m : Map Nat Nat := .new .single (fun k => k.toUInt64) 1 0
    let told := meddler.instants [] { freed := true } m
    told.map (fun t => (t.holds.length, t.sight.map.shared.pool.stamps)) =
        (0, []) :: (1, []) :: (List.replicate 19 (2, []) ++ [(1, []), (0, [1, 0])]) ∧
      (∀ t ∈ told, Uncrowded t.holds) ∧ (∀ t ∈ told, t.Sound) ∧
      (meddler.run { freed := true } m).2.Quiescent := by
  have htold : (meddler.instants [] { freed := true }
      (.new .single (fun k => k.toUInt64) 1 0)).map
        (fun t => (t.holds.length, t.sight.map.shared.pool.stamps)) =
      (0, []) :: (1, []) :: (List.replicate 19 (2, []) ++ [(1, []), (0, [1, 0])]) := by
    decide +kernel
  have hcrowd : ∀ t ∈ meddler.instants [] { freed := true }
      (.new .single (fun k => k.toUInt64) 1 0), Uncrowded t.holds := fun t ht => by
    have hlength := List.mem_map_of_mem
      (f := fun t : Instant Nat Nat => (t.holds.length, t.sight.map.shared.pool.stamps)) ht
    rw [htold] at hlength
    have hle : ∀ x ∈ ((0, []) :: (1, []) :: (List.replicate 19 (2, []) ++ [(1, []), (0, [1, 0])]) :
        List (Nat × List Nat)), x.1 ≤ 2 := by decide
    exact uncrowded_of_length ((hle _ hlength).trans_lt (by decide))
  obtain ⟨_, hsound, hquiescent⟩ := versions_outlast_callbacks .single (fun k : Nat => k.toUInt64)
    1 0 meddler hcrowd
  exact ⟨htold, hcrowd, hsound, hquiescent (by decide +kernel)⟩

end VersionedMap
