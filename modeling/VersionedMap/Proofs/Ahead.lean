import VersionedMap.Proofs.Agreement
import VersionedMap.Proofs.Scans
import VersionedMap.Proofs.Threads

/-!
# Mutations ahead of a scan

A scan goes through the table that was current when it began. A callback may set or remove a key in
a bucket of it that the scan has yet to come to. As long as that table is current the scan meets the
key as the callback has left it, whatever else is done before and after, growth included. Once
another table has taken its place it is of the past: what is done then is done to the other one, and
the scan goes on as if it had not been done.
-/

namespace VersionedMap

variable {κ ν ρ : Type}

/-! ## What a scan leaves to be seen -/

/-- What was seen before a scan, as if nothing had been held. -/
def Tour.told (t : Tour κ ν ρ) : List (Instant κ ν) := (Visit.logs t.visits).map (⟨[], ·⟩)

theorem Tour.told_told (t : Tour κ ν ρ) : Tour.Told (t, t.told) := by
  unfold Tour.Told Tour.told
  rw [List.map_map]
  exact List.map_id _

variable [DecidableEq κ]

/-- Whoever scans while a shard is guarded leaves a thread of what the visits see. -/
theorem Strolls.thread {t t' : Tour κ ν ρ} {m m' : Map κ ν} {a : Attempt Bool}
    {out : Attempt Bool × (Tour κ ν ρ × List (Instant κ ν)) × Map κ ν}
    (h : Strolls [] (·.1.view) (·.2) Tour.Told (t, t.told) m out.2.1 out.2.2)
    (hout : Map.giving Prod.fst out = (a, t', m')) (hfit : m.Fit (!t.view.freed)) {i : Nat}
    (hpos : 0 < (m.shardAt i).guards) {news : List (Visit κ ν)}
    (hnews : t'.visits = t.visits ++ news) :
    Thread i t.view m (Visit.logs news) t'.view m' := by
  obtain ⟨a₁, ⟨t₁, l⟩, m₁⟩ := out
  obtain ⟨rfl, rfl, rfl⟩ : a₁ = a ∧ t₁ = t' ∧ m₁ = m' := by simpa [Map.giving] using hout
  obtain ⟨⟨walked, hlog, hwalk⟩, hkept⟩ := h
  have hlog : l = t.told ++ walked := hlog
  have htold : t.told.map (·.sight) = Visit.logs t.visits := t.told_told
  have htold' : l.map (·.sight) = Visit.logs t₁.visits := hkept t.told_told
  have hsights : walked.map (·.sight) = Visit.logs news := by
    rw [hlog, hnews, List.map_append, Leg.logs_append, htold] at htold'
    exact List.append_cancel_left htold'
  have hthread := hwalk.thread hfit hpos
  rwa [hsights] at hthread

section Scan

variable {more : ρ → Bool} {inside : κ × ν → ρ → Guest κ ν ρ} {t t' : Tour κ ν ρ} {m m' : Map κ ν}
  {i g j n : Nat} {a : Attempt Bool} {news : List (Visit κ ν)}

/-- One bucket of a guarded table. -/
theorem visitBucket_thread (h : m.Fit (!t.view.freed)) (hp : m.Guarded ⟨i, g, j⟩)
    (hrun : Map.visitBucket (Tour.visit more fun e r => (inside e r).run) ⟨i, g, j⟩ t m
      = (a, t', m')) (hnews : t'.visits = t.visits ++ news) :
    Thread i t.view m (Visit.logs news) t'.view m' := by
  have hvisit := Tour.attend_strolls more
    (fun e r H v m hH hm => (inside e r).walks (H := H) hH hm) (List.forall_mem_nil _)
  have hstrolls (st : Tour κ ν ρ × List (Instant κ ν)) (hm : m.Fit (!st.1.view.freed)) :=
    visitBucketHolding_strolls hvisit hm hp
  have hplain (st : Tour κ ν ρ × List (Instant κ ν)) :
      Map.visitBucket (Tour.visit more fun e r => (inside e r).run) ⟨i, g, j⟩ st.1 m =
        Map.giving Prod.fst (Map.visitBucketHolding (Tour.attend more
          (fun e r => (inside e r).run) (fun e r => (inside e r).instants) []) ⟨i, g, j⟩ st m) :=
    Map.visitBucketHolding_eq (fun _ _ _ _ => rfl) ⟨i, g, j⟩ st m
  exact (hstrolls (t, t.told) h).thread ((hplain (t, t.told)).symm.trans hrun) h hp.guards_pos hnews

/-- So many buckets of a guarded table. -/
theorem visitBuckets_thread (h : m.Fit (!t.view.freed))
    (hp : ∀ j' < j + n, m.Guarded ⟨i, g, j'⟩) (hpos : 0 < (m.shardAt i).guards)
    (hrun : Map.visitBuckets (Tour.visit more fun e r => (inside e r).run) i g j n t m
      = (a, t', m')) (hnews : t'.visits = t.visits ++ news) :
    Thread i t.view m (Visit.logs news) t'.view m' := by
  have hvisit := Tour.attend_strolls more
    (fun e r H v m hH hm => (inside e r).walks (H := H) hH hm) (List.forall_mem_nil _)
  have hstrolls (st : Tour κ ν ρ × List (Instant κ ν)) (hm : m.Fit (!st.1.view.freed)) :=
    visitBucketsHolding_strolls hvisit hm hp
  have hplain (st : Tour κ ν ρ × List (Instant κ ν)) :
      Map.visitBuckets (Tour.visit more fun e r => (inside e r).run) i g j n st.1 m =
        Map.giving Prod.fst (Map.visitBucketsHolding (Tour.attend more
          (fun e r => (inside e r).run) (fun e r => (inside e r).instants) []) i g j n st m) :=
    Map.visitBucketsHolding_eq (fun _ _ _ _ => rfl) i g j n st m
  exact (hstrolls (t, t.told) h).thread ((hplain (t, t.told)).symm.trans hrun) h hpos hnews

/-- The table of generation `g` shows what the map does. -/
def Map.Shows (m : Map κ ν) (i g : Nat) : Prop :=
  ∀ x, x ∈ (m.tableAt i g).items ↔ x ∈ (m.shardAt i).table.items

/-- Where a table shows what the map does, a key has an item there with its value. -/
theorem Map.Shows.mem_iff {held : Bool} (hshows : m.Shows i g) (h : m.Fit held)
    (hi : i < m.shards.size) {k : κ} (hk : (m.route (m.hash k)).shard = i) (w : ν) :
    m.valueAt k = some w ↔ ∃ x ∈ (m.tableAt i g).items, x.entry = (k, w) := by
  unfold Map.valueAt
  rw [mem_iff_valueOf h.nodup]
  constructor
  · rintro ⟨x, hx, rfl, rfl⟩
    obtain ⟨i', hi', hx⟩ := Map.mem_items.mp hx
    obtain rfl : i' = i := (h.placed_current hi' hx).1.symm.trans hk
    exact ⟨x, (hshows x).mpr hx, rfl⟩
  · rintro ⟨x, hx, he⟩
    obtain ⟨rfl, rfl⟩ := Prod.mk.inj he
    exact ⟨x, Map.mem_items.mpr ⟨i, hi, (hshows x).mp hx⟩, rfl, rfl⟩

/-- What some visits meet of a key, if the scan has gone through or else as far as it has gone. -/
structure Meets (visits : List (Visit κ ν)) (a : Attempt Bool) (k : κ) (value : Option ν) :
    Prop where
  only : ∀ z ∈ visits, z.entry.1 = k → value = some z.entry.2
  all : a = .done true → ∀ w, value = some w → ∃ z ∈ visits, z.entry = (k, w)

/--
What the next buckets meet of a key, after somebody has seen a map that the scanned table shows, if
the key is spared from then on: what that map has shown.
-/
theorem Leg.meets {s : Sight κ ν} {m₁ : Map κ ν} {log : List (Sight κ ν)}
    {t₁ : Tour κ ν ρ}
    (hfrom : Thread i s.view s.map log t₁.view m₁) (hs : s.map.Fit (!s.view.freed))
    (hsights : ∀ u ∈ log, u.map.Fit (!u.view.freed))
    (hi : i < s.map.shards.size) (hg : g ≤ (s.map.shardAt i).aside.size)
    (hshows : s.map.Shows i g) {k : κ} (hk : (s.map.route (s.map.hash k)).shard = i)
    (hahead : j ≤ slot (m₁.tableAt i g).size (s.map.route (s.map.hash k)).hash)
    {area : κ → Prop}
    (hrest : Leg area (fun y => y ∈ (m₁.tableAt i g).items ∧
      j ≤ slot (m₁.tableAt i g).size y.hash) t₁ m₁ a t' m' news)
    (hthread : Thread i t₁.view m₁ (Visit.logs news) t'.view m')
    (hspared : ∀ u ∈ log ++ Visit.logs news, u.Spares k) :
    Meets news a k (s.map.valueAt k) := by
  obtain ⟨hsparedFirst, hsparedRest⟩ := List.forall_mem_append.mp hspared
  obtain ⟨hretainsFirst, hbetween⟩ := hfrom.retains hsparedFirst
  obtain ⟨hretainsRest, _⟩ := hthread.retains hsparedRest
  obtain ⟨hcarried, _⟩ := hfrom.carried hg
  refine ⟨fun z hz hzk => ?_, fun hdone w hw => ?_⟩
  · obtain ⟨earlier, later, rfl⟩ := List.append_of_mem hz
    obtain ⟨y, hy, ⟨hmem, _⟩ | ⟨u, hu, hmem⟩⟩ := hrest.sourced earlier z later rfl
    · rcases hcarried.fresh y hmem with hmem | ⟨_, hmap, hmem⟩
      · exact (hshows.mem_iff hs hi hk z.entry.2).mpr ⟨y, hmem, hy.trans (by rw [← hzk])⟩
      · obtain ⟨u, hu, rfl⟩ := List.mem_map.mp hmap
        rw [← hretainsFirst u hu, ← hzk]
        exact (hsights u hu).valueOf_of_entry hmem hy
    · have hu' : u ∈ Visit.logs (earlier ++ z :: later) := by
        rw [Leg.logs_append]
        exact List.mem_append_left _ hu
      rw [← hbetween, ← hretainsRest u hu', ← hzk]
      exact (hrest.course.sights u hu').valueOf_of_entry hmem hy
  · obtain ⟨y, hy, he⟩ := (hshows.mem_iff hs hi hk w).mp hw
    obtain ⟨rfl, rfl⟩ := Prod.mk.inj he
    have hhash := (hs.placed hi hy).2
    have hmap : y ∈ s.map.items := Map.mem_items.mpr ⟨i, hi, (hshows y).mp hy⟩
    -- the item is in the map all along, so it stays in the table and the rest comes upon it
    obtain ⟨hkeptFirst, hend⟩ := hfrom.keeps hmap hsparedFirst
    obtain ⟨hkeptRest, _⟩ := hthread.keeps hend hsparedRest
    have hthere : y ∈ (m₁.tableAt i g).items := by
      refine hcarried.kept y hy fun _ hmap => ?_
      obtain ⟨u, hu, rfl⟩ := List.mem_map.mp hmap
      exact hkeptFirst u hu
    exact hrest.complete hdone y ⟨hthere, hhash ▸ hahead⟩ hkeptRest

omit [DecidableEq κ] in
/-- What is visited in one bucket of a table has the slot of that bucket. -/
theorem Leg.slot_eq {stock : Item κ ν → Prop} (h : m.Fit (!t.view.freed)) (hi : i < m.shards.size)
    (hj : j < (m.tableAt i g).size)
    (hleg : Leg (· ∈ ((m.tableAt i g).shelves.getD j []).map (·.key)) stock t m a t' m' news) :
    ∀ z ∈ news, slot (m.tableAt i g).size (m.route (m.hash z.entry.1)).hash = j := by
  intro z hz
  obtain ⟨y, hy, hkey⟩ := List.mem_map.mp (hleg.inside z hz)
  obtain ⟨_, _, htable⟩ := (h.shards i hi).tableAt g
  have hlen : (m.tableAt i g).shelves.length = (m.tableAt i g).size := Table.length_shelves _
  obtain ⟨hmem, hyj⟩ := (htable.shelved.mem_shelf (hlen.symm ▸ hj) y).mp hy
  rw [← hkey, (h.placed hi hmem).2, ← hlen]
  exact hyj

/--
What is met of a key after a visit, in the rest of its bucket and in the buckets that are left, if
the key is ahead of that visit.
-/
theorem Leg.meets_after {stock : Item κ ν → Prop} {area : κ → Prop} {t₁ : Tour κ ν ρ}
    {m₁ : Map κ ν} (h : m.Fit (!t.view.freed)) (hi : i < m.shards.size)
    (hpos : 0 < (m.shardAt i).guards) (hg : g ≤ (m.shardAt i).aside.size)
    (hj : j < (m.tableAt i g).size)
    {before after : List (Visit κ ν)} {x : Visit κ ν}
    (hone : Leg (· ∈ ((m.tableAt i g).shelves.getD j []).map (·.key)) stock t m (.done true) t₁ m₁
      (before ++ x :: after))
    (hthread : Thread i t.view m (Visit.logs (before ++ x :: after)) t₁.view m₁)
    (hrest : Leg area (fun y => y ∈ (m₁.tableAt i g).items ∧
      j + 1 ≤ slot (m₁.tableAt i g).size y.hash) t₁ m₁ a t' m' news)
    (hthread' : Thread i t₁.view m₁ (Visit.logs news) t'.view m')
    {early late : List (Sight κ ν)} {s : Sight κ ν} (hlog : x.log = early ++ s :: late)
    (hshows : s.map.Shows i g) {k : κ} (hk : (m.route (m.hash k)).shard = i)
    (hahead : slot (m.tableAt i g).size (m.route (m.hash x.entry.1)).hash
      < slot (m.tableAt i g).size (m.route (m.hash k)).hash)
    (hspared : ∀ u ∈ (late ++ Visit.logs after) ++ Visit.logs news, u.Spares k) :
    Meets (after ++ news) a k (s.map.valueAt k) := by
  have hsize : (m₁.tableAt i g).size = (m.tableAt i g).size :=
    (hone.course.tracks.shards i).size_eq hpos g hg
  have hslot := hone.slot_eq h hi hj
  have hslotx := hslot x (by simp)
  -- what has been seen in this bucket up to the sight, and from there on
  have hlogs : Visit.logs (before ++ x :: after) = (Visit.logs before ++ early) ++
      s :: (late ++ Visit.logs after) := by
    rw [Leg.logs_append]
    show _ ++ (x.log ++ Visit.logs after) = _
    simp only [hlog, List.append_assoc, List.cons_append]
  have hsights := hone.course.sights
  rw [hlogs] at hthread hsights
  have hto := hthread.upTo
  have hpast := hto.sameShape
  have hmeets := Leg.meets hthread.takeUp hto.fit
    (fun u hu => hsights u (List.mem_append_right _ (List.mem_cons_of_mem s hu)))
    (hpast.size_eq ▸ hi) (hto.carried hg).2 hshows
    (by rwa [hpast.hash_eq, hpast.route_eq])
    (by rw [hsize, hpast.hash_eq, hpast.route_eq]; omega) hrest hthread' hspared
  refine ⟨fun z hz hzk => ?_, fun hdone w hw => ?_⟩
  · rcases List.mem_append.mp hz with hz | hz
    · -- the other visits of this bucket are not to the key
      have hslotz := hslot z (List.mem_append_right before (List.mem_cons_of_mem x hz))
      rw [hzk] at hslotz
      omega
    · exact hmeets.only z hz hzk
  · obtain ⟨z, hz, he⟩ := hmeets.all hdone w hw
    exact ⟨z, List.mem_append_right after hz, he⟩

/--
What is left of a scan after somebody has seen a map that the scanned table shows: of a key that is
ahead and spared from then on the rest of the scan meets what that map has shown.
-/
theorem visitBuckets_ahead (h : m.Fit (!t.view.freed)) (hi : i < m.shards.size)
    (hpos : 0 < (m.shardAt i).guards) (hg : g ≤ (m.shardAt i).aside.size)
    (hn : j + n = (m.tableAt i g).size)
    (hrun : Map.visitBuckets (Tour.visit more fun e r => (inside e r).run) i g j n t m
      = (a, t', m')) (hnews : t'.visits = t.visits ++ news)
    {before after : List (Visit κ ν)} {x : Visit κ ν} (hvisits : news = before ++ x :: after)
    {early late : List (Sight κ ν)} {s : Sight κ ν} (hlog : x.log = early ++ s :: late)
    (hshows : s.map.Shows i g) {k : κ} (hk : (m.route (m.hash k)).shard = i)
    (hahead : slot (m.tableAt i g).size (m.route (m.hash x.entry.1)).hash
      < slot (m.tableAt i g).size (m.route (m.hash k)).hash)
    (hspared : ∀ u ∈ late ++ Visit.logs after, u.Spares k) :
    Meets after a k (s.map.valueAt k) := by
  have hf (e : κ × ν) (r : ρ) (v : View) (m : Map κ ν) (hm : m.Fit (!v.freed)) :=
    (inside e r).run_course hm
  -- on the number of buckets left
  induction n generalizing j t m news before with
  | zero =>
    have ht : t = t' := congrArg (·.2.1) hrun
    rw [← ht, hvisits] at hnews
    exact absurd (congrArg List.length hnews) (by simp)
  | succ n ih =>
    have hj : j < (m.tableAt i g).size := by omega
    obtain ⟨a₁, t₁, m₁, news₁, hvisit, hone⟩ := visitBucket_leg more hf h hi hj
    have hthread₁ := visitBucket_thread h ⟨hi, hpos, hg, hj⟩ hvisit hone.visits_eq
    unfold Map.visitBuckets at hrun
    rw [hvisit] at hrun
    -- a scan that does not go on has met no more than what is in this bucket
    have hends (ha : a ≠ .done true) (ht : t₁ = t') : Meets after a k (s.map.valueAt k) := by
      have hall : news₁ = before ++ x :: after := by
        rw [← ht, hone.visits_eq] at hnews
        exact (List.append_cancel_left hnews).trans hvisits
      have hslot := hone.slot_eq h hi hj
      rw [hall] at hslot
      refine ⟨fun z hz hzk => ?_, fun hdone => absurd hdone ha⟩
      have hslotx := hslot x (by simp)
      have hslotz := hslot z (List.mem_append_right before (List.mem_cons_of_mem x hz))
      rw [hzk] at hslotz
      omega
    cases a₁ with
    | waits =>
      have hout := Prod.mk.inj hrun
      exact hends (by rw [← hout.1]; simp) (Prod.mk.inj hout.2).1
    | done go =>
      cases go with
      | false =>
        have hout := Prod.mk.inj hrun
        exact hends (by rw [← hout.1]; simp) (Prod.mk.inj hout.2).1
      | true =>
        have htracks := hone.course.tracks
        have hsize : (m₁.tableAt i g).size = (m.tableAt i g).size :=
          (htracks.shards i).size_eq hpos g hg
        have hi₁ : i < m₁.shards.size := htracks.size_eq ▸ hi
        have hpos₁ : 0 < (m₁.shardAt i).guards := hthread₁.guards_pos
        have hg₁ := Nat.le_trans hg ((htracks.shards i).aside_le hpos)
        have hn₁ : j + 1 + n = (m₁.tableAt i g).size := by omega
        obtain ⟨a₂, t₂, m₂, news₂, hvisits₂, hrest⟩ :=
          visitBuckets_leg more hf hone.course.fit hi₁ hpos₁ hg₁ hn₁
        obtain ⟨rfl, hout⟩ := Prod.mk.inj (hvisits₂.symm.trans hrun)
        obtain ⟨rfl, rfl⟩ := Prod.mk.inj hout
        have hall : news₁ ++ news₂ = before ++ x :: after := by
          rw [hrest.visits_eq, hone.visits_eq, List.append_assoc] at hnews
          exact (List.append_cancel_left hnews).trans hvisits
        -- what comes after a visit in one of the other buckets
        have hlater {before' : List (Visit κ ν)} (hmid : news₂ = before' ++ x :: after) :
            Meets after a₂ k (s.map.valueAt k) :=
          ih hone.course.fit hi₁ hpos₁ hg₁ hn₁ hvisits₂ hrest.visits_eq hmid
            (by rwa [htracks.hash_eq, htracks.route_eq])
            (by rwa [hsize, htracks.hash_eq, htracks.route_eq, htracks.route_eq])
        rcases List.append_eq_append_iff.mp hall with ⟨mid, rfl, hmid⟩ | ⟨mid, hmid, hrest'⟩
        · exact hlater hmid
        cases mid with
        | nil => exact hlater (show news₂ = [] ++ x :: after from hrest'.symm)
        | cons x' after₁ =>
          obtain ⟨rfl, rfl⟩ := List.cons.inj hrest'
          subst hmid
          have hspared' : ∀ u ∈ (late ++ Visit.logs after₁) ++ Visit.logs news₂, u.Spares k := by
            rw [List.append_assoc, ← Leg.logs_append]
            exact hspared
          have hthread₂ := visitBuckets_thread hone.course.fit
            (fun j' hj' => ⟨hi₁, hpos₁, hg₁, Nat.lt_of_lt_of_eq hj' hn₁⟩) hpos₁ hvisits₂
            hrest.visits_eq
          exact hone.meets_after h hi hpos hg hj hthread₁ hrest hthread₂ hlog hshows hk hahead
            hspared'

end Scan

/-! ## Deeds to keys ahead -/

/-- A mutation of one key that is not refused shows in the table that was current before it. -/
theorem Deed.run_shows {d : Deed κ ν} {v : View} {m : Map κ ν} (h : m.Fit (!v.freed))
    {μ : Motion κ ν m.hash} (hμ : d.motion? m.hash = some μ)
    (hdone : ∀ why, (d.run v m).1 ≠ .refused why) {i : Nat} (hpos : 0 < (m.shardAt i).guards) :
    (d.run v m).2.2.Shows i (m.shardAt i).aside.size := by
  rw [Deed.run_motion hμ rfl] at hdone ⊢
  cases hv : v.freed with
  | false =>
    rw [hv] at h
    rw [Map.Fit.mutate_held h] at hdone
    exact absurd rfl (hdone .wouldBlock)
  | true =>
    rw [hv] at h
    obtain ⟨own, spares, hedits, hown⟩ := μ.edits
    have hshows := Map.Fit.mutate_shows h hedits hown hpos
    generalize m.mutate μ.key μ.act = out at *
    obtain ⟨a | _, m'⟩ := out <;> exact hshows

namespace Map

/-- Which bucket a key has in the current table of its shard. -/
def bucketIndex (m : Map κ ν) (k : κ) : Nat :=
  slot (m.shardAt (m.route (m.hash k)).shard).table.size (m.route (m.hash k)).hash

/-- The generation of the current table of a shard. -/
def generation (m : Map κ ν) (i : Nat) : Nat := (m.shardAt i).aside.size

end Map

/--
On the visits of a scan that began in `m` a deed is done while the scan has yet to come to the
bucket of a key. From then on the key is spared.
-/
structure Ahead (m : Map κ ν) (visits : List (Visit κ ν)) (k : κ) where
  before : List (Visit κ ν)
  visit : Visit κ ν
  after : List (Visit κ ν)
  early : List (Sight κ ν)
  /-- What was seen last before the deed. -/
  eve : Sight κ ν
  /-- What was seen with the deed done. -/
  sight : Sight κ ν
  late : List (Sight κ ν)
  deed : Deed κ ν
  answer : Answer κ ν
  visits_eq : visits = before ++ visit :: after
  log_eq : visit.log = early ++ eve :: sight :: late
  deed_eq : sight.deed = some (deed, answer)
  bucket_lt : m.bucketIndex visit.entry.1 < m.bucketIndex k
  spared : ∀ s ∈ late ++ Visit.logs after, s.Spares k

/--
The rest of the scan meets the key as the deed has left it: if the deed has set it, with its new
value, and that once if the scan goes through; and if the deed has removed it, not at all.
-/
structure Ahead.Seen {m : Map κ ν} {visits : List (Visit κ ν)} {k : κ} (x : Ahead m visits k)
    (a : Attempt Bool) : Prop where
  set : ∀ w, x.deed.setting x.answer = some (k, w) →
    (∀ z ∈ x.after, z.entry.1 = k → z.entry.2 = w) ∧
    (a = .done true →
      (x.after.map (·.entry)).filter (fun e => decide (e.1 = k)) = [(k, w)])
  removed : x.deed.Removes x.eve.map x.answer k → ∀ z ∈ x.after, z.entry.1 ≠ k

/-- What sets a key or removes it is a mutation of one key that has not been refused. -/
theorem Deed.mutates {d : Deed κ ν} {m : Map κ ν} {a : Answer κ ν} {k : κ}
    (h : (∃ w, d.setting a = some (k, w)) ∨ d.Removes m a k) (hash : κ → UInt64) :
    (∃ μ : Motion κ ν hash, d.motion? hash = some μ) ∧ ∀ why, a ≠ .refused why := by
  rcases h with ⟨w, hset⟩ | ⟨q, old, rfl, rfl, _⟩
  · refine ⟨?_, fun why => ?_⟩
    · cases d with
      | set | swap | setAbsent | getOrSet => exact ⟨_, rfl⟩
      | delete | clear | lock | wipe | free => simp [setting] at hset
    · rintro rfl
      cases d <;> simp [setting] at hset
  · exact ⟨⟨_, rfl⟩, fun why => by simp⟩

/-- A deed removes the same keys of a map in which nothing else is to be seen. -/
theorem Deed.Removes.sameView {d : Deed κ ν} {m m' : Map κ ν} {a : Answer κ ν} {k : κ}
    (h : d.Removes m a k) (hview : m.SameView m') : d.Removes m' a k := by
  obtain ⟨q, old, hd, ha, hasked⟩ := h
  refine ⟨q, old, hd, ha, hasked.imp (fun hq => ?_) fun hfound => ?_⟩
  · rw [hq]
    unfold Map.lookup
    rw [hview.hash_eq]
  · rwa [hview.find?_eq]

/--
Where the deed sets the key or removes it, it has been carried out on a map in which the same was to
be seen as before it; and it shows in the table of generation `g`, if that was current then.
-/
theorem Ahead.carriedOut {m m₁ m₂ : Map κ ν} {visits : List (Visit κ ν)} {k : κ}
    (x : Ahead m visits k) {v v' : View} {i : Nat}
    (hthread : Thread i v m₁ (Visit.logs visits) v' m₂)
    (h : (∃ w, x.deed.setting x.answer = some (k, w)) ∨ x.deed.Removes x.eve.map x.answer k) :
    x.sight.map.Shows i (x.eve.map.generation i) ∧
      ∃ m₃, x.eve.map.SameView m₃ ∧ x.deed.Affects m₃ x.answer x.sight.map k := by
  have hlogs : Visit.logs visits = (Visit.logs x.before ++ x.early) ++
      x.eve :: x.sight :: (x.late ++ Visit.logs x.after) := by
    refine (congrArg Visit.logs x.visits_eq).trans ?_
    rw [Leg.logs_append]
    show _ ++ (x.visit.log ++ Visit.logs x.after) = _
    simp only [x.log_eq, List.append_assoc, List.cons_append]
  rw [hlogs] at hthread
  obtain ⟨m₃, hlulls, hfit, hnext, _⟩ := hthread.takeUp
  unfold Sight.Next at hnext
  rw [x.deed_eq] at hnext
  have hrun : x.deed.run x.eve.view m₃ = (x.answer, x.sight.view, x.sight.map) := hnext
  obtain ⟨⟨μ, hμ⟩, hdone⟩ := Deed.mutates h m₃.hash
  have hshows := Deed.run_shows hfit hμ (by rw [hrun]; exact hdone) hlulls.guards_pos
  have haffects := x.deed.affects_run hfit k
  rw [hrun] at hshows haffects
  rw [hlulls.aside_eq] at hshows
  exact ⟨hshows, m₃, hlulls.toSameView, haffects⟩

namespace Map

omit [DecidableEq κ] in
/-- A map of one table is scanned through the table that is current when the scan begins. -/
theorem Fit.range_single {held : Bool} {m : Map κ ν} (h : m.Fit held)
    (hsingle : m.layout = .single) :
    ∃ m₁, m₁.Fit held ∧ m.SameShape m₁ ∧ 0 < (m₁.shardAt 0).guards ∧
      (m₁.shardAt 0).aside.size = m.generation 0 ∧
      m₁.tableAt 0 (m.generation 0) = (m.shardAt 0).table ∧
      ∀ {σ : Type} (f : Visitor κ ν σ) (st : σ), m.range f st =
        ((visitBuckets f 0 (m.generation 0) 0 (m₁.tableAt 0 (m.generation 0)).size st m₁).1,
          (visitBuckets f 0 (m.generation 0) 0 (m₁.tableAt 0 (m.generation 0)).size st m₁).2.1,
          (visitBuckets f 0 (m.generation 0) 0
            (m₁.tableAt 0 (m.generation 0)).size st m₁).2.2.leave 0) := by
  obtain ⟨hfit, hswap⟩ := h.enter h.pos
  have hgen : (m.enter 0).1 = m.generation 0 := enter_fst m 0
  have haside : ((m.enter 0).2.shardAt 0).aside.size = m.generation 0 := by
    rw [hswap.here]
    rfl
  refine ⟨(m.enter 0).2, hfit, hswap.toSameShape, ?_, haside, ?_, fun f st => ?_⟩
  · rw [hswap.here]
    exact Nat.succ_pos _
  · rw [tableAt_current (Nat.le_of_eq haside), hswap.here]
    rfl
  · rw [← hgen]
    unfold range
    rw [h.single hsingle]
    unfold visitShards visitShards visitShard
    dsimp only
    generalize visitBuckets f 0 (m.enter 0).1 0 _ st (m.enter 0).2 = out
    obtain ⟨a, st', m'⟩ := out
    cases a with
    | waits => rfl
    | done go => cases go <;> rfl

end Map

/-! ### A scan of eleven keys -/

/-- What a sight tells of the deed that was done, if there was one: what it has set. -/
def Sight.gist (s : Sight κ ν) : Option (Option (κ × ν)) := s.deed.map fun (d, a) => d.setting a

omit [DecidableEq κ] in
/-- A deed that has set another key spares this one. -/
theorem Deed.spares_of_setting {d : Deed κ ν} {a : Answer κ ν} {k k' : κ} {w : ν}
    (h : d.setting a = some (k', w)) (hne : k ≠ k') : d.Spares a k := by
  unfold setting at h
  split at h
  · obtain ⟨rfl, _⟩ := Prod.mk.inj (Option.some.inj h)
    exact hne
  · obtain ⟨rfl, _⟩ := Prod.mk.inj (Option.some.inj h)
    exact hne
  · obtain ⟨rfl, _⟩ := Prod.mk.inj (Option.some.inj h)
    exact .inl hne
  · obtain ⟨rfl, _⟩ := Prod.mk.inj (Option.some.inj h)
    exact .inl hne
  · cases h

omit [DecidableEq κ] in
theorem Sight.spares_of_gist {s : Sight κ ν} {k : κ}
    (h : ∀ set, s.gist = some set → ∃ e, set = some e ∧ k ≠ e.1) : s.Spares k := by
  intro d a hd
  obtain ⟨⟨k', w⟩, hset, hne⟩ := h (d.setting a) (by unfold gist; rw [hd]; rfl)
  exact Deed.spares_of_setting hset hne

namespace Map

/-- Eleven keys in one table, which with one more has to grow. -/
def elevenKeys : Map Nat Nat :=
  (new .single (fun k : Nat => k.toUInt64) 1 0).extend ((List.range 11).map fun k => (k, 10 * k))

/-- On the first visit, sets these keys one after another. -/
def settingCallback (l : List (Nat × Nat)) (e : Nat × Nat) (_ : Unit) : Guest Nat Nat Unit :=
  if e.1 = 0 then l.foldr (fun e g => .act (.set e.1 e.2) fun _ => g) (.stop ()) else .stop ()

/-- A scan of the eleven keys that sets keys on its first visit. -/
def settingScan (l : List (Nat × Nat)) : Attempt Bool × Tour Nat Nat Unit × Map Nat Nat :=
  elevenKeys.range (Tour.visit (fun _ => true) fun e r => (settingCallback l e r).run)
    ⟨[], (), { freed := true }⟩

/-- What is to be seen of such a scan: its entries, and the gist of what each visit sees. -/
def gists (l : List (Nat × Nat)) : List ((Nat × Nat) × List (Option (Option (Nat × Nat)))) :=
  (settingScan l).2.1.visits.map fun x => (x.entry, x.log.map Sight.gist)

theorem gists_early : gists [(5, 500), (11, 110)] =
    ((0, 0), [none, some (some (5, 500)), some (some (11, 110))]) ::
      ([(1, 10), (2, 20), (3, 30), (4, 40), (5, 500), (6, 60), (7, 70), (8, 80), (9, 90),
        (10, 100), (11, 110)].map fun e => (e, [none])) := by decide +kernel

theorem gists_late : gists [(11, 110), (5, 500)] =
    ((0, 0), [none, some (some (11, 110)), some (some (5, 500))]) ::
      ([(1, 10), (2, 20), (3, 30), (4, 40), (5, 50), (6, 60), (7, 70), (8, 80), (9, 90),
        (10, 100), (11, 110)].map fun e => (e, [none])) := by decide +kernel

/-- The scan from where its first visit has seen three things, if the other visits do nothing. -/
theorem gists_cons {l : List (Nat × Nat)} {e : Nat × Nat} {f g h : Option (Option (Nat × Nat))}
    {rest : List (Nat × Nat)} (hgists : gists l = (e, [f, g, h]) :: rest.map fun e => (e, [none])) :
    ∃ (s₀ s₁ s₂ : Sight Nat Nat) (onward : Bool) (after : List (Visit Nat Nat)),
      (settingScan l).2.1.visits = ⟨e, [s₀, s₁, s₂], onward⟩ :: after ∧
      s₀.gist = f ∧ s₁.gist = g ∧ s₂.gist = h ∧ after.map (·.entry) = rest ∧
      ∀ s ∈ Visit.logs after, s.gist = none := by
  obtain ⟨x, after, hvisits, hx, hafter⟩ := List.map_eq_cons_iff.mp hgists
  obtain ⟨e', log, onward⟩ := x
  obtain ⟨rfl, hlog⟩ := Prod.mk.inj hx
  obtain ⟨s₀, _, rfl, hs₀, hlog⟩ := List.map_eq_cons_iff.mp hlog
  obtain ⟨s₁, _, rfl, hs₁, hlog⟩ := List.map_eq_cons_iff.mp hlog
  obtain ⟨s₂, _, rfl, hs₂, hlog⟩ := List.map_eq_cons_iff.mp hlog
  obtain rfl := List.map_eq_nil_iff.mp hlog
  refine ⟨s₀, s₁, s₂, onward, after, hvisits, hs₀, hs₁, hs₂, ?_, fun s hs => ?_⟩
  · have hentries := congrArg (List.map Prod.fst) hafter
    rw [List.map_map, List.map_map] at hentries
    exact hentries.trans (List.map_id _)
  · obtain ⟨y, hy, hsy⟩ := List.mem_flatMap.mp hs
    have hgist : (y.entry, y.log.map Sight.gist) ∈ rest.map fun e => (e, [none]) :=
      hafter ▸ List.mem_map.mpr ⟨y, hy, rfl⟩
    obtain ⟨_, _, hnone⟩ := List.mem_map.mp hgist
    have hs' : s.gist ∈ y.log.map Sight.gist := List.mem_map.mpr ⟨s, hsy, rfl⟩
    rw [← (Prod.mk.inj hnone).2] at hs'
    exact List.mem_singleton.mp hs'

theorem settingScan_done {l : List (Nat × Nat)}
    (h : (match (settingScan l).1 with
      | .done go => go
      | .waits => false) = true) : (settingScan l).1 = .done true := by
  revert h
  cases (settingScan l).1 <;> simp

/-! ### What the rest of a scan meets -/

/--
**What a scan sees of what is done ahead of it.** Take a scan of a map of one table that guests can
bring about, with any guest for a callback. Let a visit set a key in a bucket that the scan has yet
to come to, or remove it, and let nobody change the key from then on; whatever else is done, before
and after, may make the table grow. If the table that is scanned is still current when that deed is
done, the rest of the scan meets the key as the deed has left it.
-/
theorem scan_sees_ahead {v : View} {m : Map κ ν} (h : Reachable v m)
    (hsingle : m.layout = .single) (start : ρ) (inside : κ × ν → ρ → Guest κ ν ρ)
    (more : ρ → Bool) {a : Attempt Bool} {t : Tour κ ν ρ} {m' : Map κ ν}
    (hscan : m.range (Tour.visit more fun e r => (inside e r).run) ⟨[], start, v⟩ = (a, t, m'))
    {k : κ} (x : Ahead m t.visits k) (hcurrent : x.eve.map.generation 0 = m.generation 0) :
    x.Seen a := by
  have hfit := h.fit
  have hnodup : (t.visits.map (·.entry.1)).Nodup := by
    obtain ⟨a₁, t₁, m₁, news, hrun, hleg⟩ := range_leg more
      (f := fun e r => (inside e r).run) (fun e r v m hm => (inside e r).run_course hm)
      (t := ⟨[], start, v⟩) hfit
    obtain ⟨_, hout⟩ := Prod.mk.inj (hrun.symm.trans hscan)
    obtain ⟨rfl, _⟩ := Prod.mk.inj hout
    rw [hleg.visits_eq]
    exact hleg.nodup
  obtain ⟨m₁, hfit₁, hshape, hpos, haside, htable, hrange⟩ := hfit.range_single hsingle
  rw [hrange] at hscan
  generalize hbuckets : visitBuckets (Tour.visit more fun e r => (inside e r).run) 0
    (m.generation 0) 0 (m₁.tableAt 0 (m.generation 0)).size ⟨[], start, v⟩ m₁ = out at hscan
  obtain ⟨a₁, t₁, m₂⟩ := out
  obtain ⟨rfl, hout⟩ := Prod.mk.inj hscan
  obtain ⟨rfl, _⟩ := Prod.mk.inj hout
  have hg := Nat.le_of_eq haside.symm
  have hshard (k : κ) : (m.route (m.hash k)).shard = 0 :=
    Nat.lt_one_iff.mp (hfit.single hsingle ▸ hfit.route_lt (m.hash k))
  have hindex (k : κ) : slot (m₁.tableAt 0 (m.generation 0)).size (m₁.route (m₁.hash k)).hash
      = m.bucketIndex k := by
    unfold bucketIndex
    rw [htable, hshape.hash_eq, hshape.route_eq, hshard]
  have hthread : Thread 0 v m₁ (Visit.logs t₁.visits) t₁.view m₂ :=
    visitBuckets_thread hfit₁ (fun j hj => ⟨hfit₁.pos, hpos, hg, by rwa [Nat.zero_add] at hj⟩)
      hpos hbuckets rfl
  have hlog : x.visit.log = (x.early ++ [x.eve]) ++ x.sight :: x.late := by
    rw [x.log_eq, List.append_assoc]
    rfl
  have hmeets (hshows : x.sight.map.Shows 0 (m.generation 0)) :
      Meets x.after a₁ k (x.sight.map.valueAt k) :=
    visitBuckets_ahead hfit₁ hfit₁.pos hpos hg (Nat.zero_add _) hbuckets rfl x.visits_eq
      hlog hshows
      (by rw [hshape.hash_eq, hshape.route_eq, hshard]) (by rw [hindex, hindex]; exact x.bucket_lt)
      x.spared
  refine ⟨fun w hset => ?_, fun hremoved z hz hzk => ?_⟩
  · obtain ⟨hshows, m₃, _, haffects⟩ := x.carriedOut hthread (.inl ⟨w, hset⟩)
    rw [hcurrent] at hshows
    have hvalue := haffects.set w hset
    obtain ⟨honly, hall⟩ := hmeets hshows
    refine ⟨fun z hz hzk => ?_, fun hdone => ?_⟩
    · exact (Option.some.inj (hvalue.symm.trans (honly z hz hzk))).symm
    · obtain ⟨z, hz, he⟩ := hall hdone w hvalue
      have hafter : ((x.after.map (·.entry)).map Prod.fst).Nodup := by
        rw [x.visits_eq, List.map_append, List.map_cons] at hnodup
        rw [List.map_map]
        exact (List.nodup_cons.mp (List.nodup_append.mp hnodup).2.1).2
      exact filter_key_eq hafter (List.mem_map.mpr ⟨z, hz, he⟩)
  · obtain ⟨hshows, m₃, hview, haffects⟩ := x.carriedOut hthread (.inr hremoved)
    rw [hcurrent] at hshows
    have hnone := haffects.removed (hremoved.sameView hview)
    exact absurd (hnone.symm.trans ((hmeets hshows).only z hz hzk)) (by simp)

/-- A key set while the table is current is met as it was set, though the table grows then. -/
theorem scan_sees_ahead_early :
    ∃ x : Ahead elevenKeys (settingScan [(5, 500), (11, 110)]).2.1.visits 5,
      x.deed.setting x.answer = some (5, 500) ∧
      x.eve.map.generation 0 = elevenKeys.generation 0 ∧
      (x.after.map (·.entry)).filter (fun e => decide (e.1 = 5)) = [(5, 500)] := by
  have hreach : Reachable { freed := true } elevenKeys := (Reachable.new _ _ _ _).extend _
  obtain ⟨s₀, s₁, s₂, onward, after, hvisits, hs₀, hs₁, hs₂, hafter, hnone⟩ :=
    gists_cons gists_early
  obtain ⟨⟨d, ans⟩, hd, hset⟩ := Option.map_eq_some_iff.mp hs₁
  have hcurrent : ((settingScan [(5, 500), (11, 110)]).2.1.visits.map fun x =>
      x.log.map fun s => s.map.generation 0).head? = some [0, 0, 1] := by decide +kernel
  rw [hvisits] at hcurrent
  have hstart : elevenKeys.generation 0 = 0 := by decide +kernel
  have hspared : ∀ s ∈ [s₂] ++ Visit.logs after, s.Spares 5 := by
    intro s hs
    refine Sight.spares_of_gist fun set hset => ?_
    rcases List.mem_cons.mp hs with rfl | hs
    · exact ⟨(11, 110), Option.some.inj (hset.symm.trans hs₂), by decide⟩
    · rw [hnone s hs] at hset
      cases hset
  let x : Ahead elevenKeys (settingScan [(5, 500), (11, 110)]).2.1.visits 5 := {
    before := []
    visit := ⟨(0, 0), [s₀, s₁, s₂], onward⟩
    after
    early := []
    eve := s₀
    sight := s₁
    late := [s₂]
    deed := d
    answer := ans
    visits_eq := hvisits
    log_eq := rfl
    deed_eq := hd
    bucket_lt := (by decide +kernel : elevenKeys.bucketIndex 0 < elevenKeys.bucketIndex 5)
    spared := hspared }
  have heve : x.eve.map.generation 0 = elevenKeys.generation 0 := by
    rw [hstart]
    exact (List.cons.inj (Option.some.inj hcurrent)).1
  have hseen : x.Seen (settingScan [(5, 500), (11, 110)]).1 :=
    scan_sees_ahead hreach (by decide +kernel) () (settingCallback _) (fun _ => true) rfl x heve
  have hdone := settingScan_done (l := [(5, 500), (11, 110)]) (by decide +kernel)
  exact ⟨x, hset, heve, (hseen.set 500 hset).2 hdone⟩

/--
A key set when the table has grown is not met as it was set: the twelfth key makes the table grow,
and the scan goes on in the old one.
-/
theorem scan_misses_ahead_late :
    Reachable { freed := true } elevenKeys ∧ elevenKeys.layout = .single ∧
      (settingScan [(11, 110), (5, 500)]).1 = .done true ∧
      (∀ s ∈ Visit.logs (settingScan [(11, 110), (5, 500)]).2.1.visits, ∀ a,
        s.deed ≠ some (.clear, a)) ∧
      ∃ x : Ahead elevenKeys (settingScan [(11, 110), (5, 500)]).2.1.visits 5,
        x.deed.setting x.answer = some (5, 500) ∧ (5, 50) ∈ x.after.map (·.entry) ∧
        ¬ x.Seen (settingScan [(11, 110), (5, 500)]).1 := by
  have hreach : Reachable { freed := true } elevenKeys := (Reachable.new _ _ _ _).extend _
  have hdone := settingScan_done (l := [(11, 110), (5, 500)]) (by decide +kernel)
  obtain ⟨s₀, s₁, s₂, onward, after, hvisits, hs₀, hs₁, hs₂, hafter, hnone⟩ :=
    gists_cons gists_late
  obtain ⟨⟨d, ans⟩, hd, hset⟩ := Option.map_eq_some_iff.mp hs₂
  refine ⟨hreach, by decide +kernel, hdone, fun s hs ans hclear => ?_, ?_⟩
  -- whatever deed there was has set a key
  · have hgist : s.gist = some none := by
      unfold Sight.gist
      rw [hclear]
      rfl
    rw [hvisits] at hs
    rcases List.mem_append.mp hs with hs | hs
    · simp only [List.mem_cons, List.not_mem_nil, or_false] at hs
      rcases hs with rfl | rfl | rfl
      · exact absurd (hgist.symm.trans hs₀) (by simp)
      · exact absurd (hgist.symm.trans hs₁) (by simp)
      · exact absurd (hgist.symm.trans hs₂) (by simp)
    · exact absurd (hgist.symm.trans (hnone s hs)) (by simp)
  let x : Ahead elevenKeys (settingScan [(11, 110), (5, 500)]).2.1.visits 5 := {
    before := []
    visit := ⟨(0, 0), [s₀, s₁, s₂], onward⟩
    after
    early := [s₀]
    eve := s₁
    sight := s₂
    late := []
    deed := d
    answer := ans
    visits_eq := hvisits
    log_eq := rfl
    deed_eq := hd
    bucket_lt := (by decide +kernel : elevenKeys.bucketIndex 0 < elevenKeys.bucketIndex 5)
    spared := fun s hs => Sight.spares_of_gist fun set hset => by
      rw [hnone s hs] at hset
      cases hset }
  have hold : (5, 50) ∈ x.after.map (·.entry) := by
    show (5, 50) ∈ after.map (·.entry)
    rw [hafter]
    decide
  refine ⟨x, hset, hold, fun hseen => ?_⟩
  obtain ⟨z, hz, he⟩ := List.mem_map.mp hold
  have hnew := (hseen.set 500 hset).1 z hz (by rw [he])
  rw [he] at hnew
  exact absurd hnew (by decide)

end Map

end VersionedMap
