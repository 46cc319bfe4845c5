import VersionedMap.Proofs.Tours

/-!
# What guests can bring about

Whatever guests do to a new map, with callbacks in callbacks and views taken and freed anywhere
in them, the map is fit whenever one of them looks: between two deeds, inside a callback, and
while a view is held.
-/

namespace VersionedMap

variable {κ ν ρ : Type}

/-! ## Runs of guests -/

/-- A read whose callback takes its course does so too. -/
theorem read_course {v : View} {m : Map κ ν} (h : m.Fit (!v.freed)) (q : Lookup κ)
    {f : κ × ν → Map κ ν → Stay κ ν ρ × Map κ ν} (hf : ∀ e m, m.Fit (!v.freed) →
      Course v m (f e m).1.log (f e m).1.view (f e m).2) :
    (∃ m', (m.read q f = (.waits, m') ∨ m.read q f = (.done none, m')) ∧ Course v m [] v m') ∨
    (∃ s m', m.read q f = (.done (some s), m') ∧ Course v m s.log s.view m') := by
  obtain ⟨_, henter⟩ := h.enter (h.route_lt q.hash)
  -- whatever has been done meanwhile, in the end the shard is left
  have hend {v' : View} {log : List (Sight κ ν)} {m' : Map κ ν}
      (hcourse : Course v (m.enter (m.route q.hash).shard).2 log v' m') :
      Course v m log v' (m'.leave (m.route q.hash).shard) := by
    have hi : (m.route q.hash).shard < m'.shards.size := by
      rw [hcourse.tracks.size_eq, henter.size_eq]
      exact h.route_lt q.hash
    obtain ⟨hfit, hleave⟩ := hcourse.fit.leave hi
    exact hcourse.bracket henter hfit hleave
  rcases h.read_cases q f with ⟨_, m', hfit, halike, hread⟩ |
    ⟨x, p, n, m', _, hfit, hp, halike, hread⟩ | ⟨_, _, m', hfit, halike, hread⟩
  · exact .inl ⟨_, .inr hread, hend (.alike hfit halike)⟩
  · have hinside := hf x.entry m' hfit
    have hi : p.shard < (f x.entry m').2.shards.size := by
      rw [hinside.tracks.size_eq, halike.size_eq, henter.size_eq, hp]
      exact h.route_lt q.hash
    obtain ⟨hfit', halike'⟩ := hinside.fit.release hi n
    exact .inr ⟨_, _, hread, hend (hinside.between halike hfit' halike')⟩
  · exact .inl ⟨_, .inl hread, hend (.alike hfit halike)⟩

theorem Course.after {v v' : View} {m m' : Map κ ν} {log : List (Sight κ ν)}
    {x : Stay κ ν ρ × Map κ ν} (h : Course v m log v' m') (hx : Course v' m' x.1.log x.1.view x.2) :
    Course v m (Stay.after log x).1.log (Stay.after log x).1.view (Stay.after log x).2 :=
  h.trans hx

variable [DecidableEq κ]

/-- Whatever a guest does to a fit map takes its course. -/
theorem Guest.run_course (g : Guest κ ν ρ) {v : View} {m : Map κ ν} (h : m.Fit (!v.freed)) :
    Course v m (g.run v m).1.log (g.run v m).1.view (g.run v m).2 := by
  -- on the guest: callbacks are guests too, and take their course in a fit map
  induction g generalizing v m with
  | stop r => exact .alike h (.refl m)
  | look next ih => exact ih v m h
  | act d next ih =>
    have hdeed := Course.deed h (d.comes_run h)
    exact hdeed.note (s := ⟨some (d, (d.run v m).1), (d.run v m).2.1, (d.run v m).2.2⟩)
      (ih _ hdeed.fit)
  | read q inside next ihinside ihnext =>
    have hread := read_course h q (f := fun e m => Stay.note ⟨none, v, m⟩ (inside e).run)
      fun e m hm => (Course.seen hm).note (ihinside e hm)
    unfold Guest.run
    rcases hread with ⟨m', hout | hout, hcourse⟩ | ⟨s, m', hout, hcourse⟩
    · rw [hout]
      exact hcourse.trans ((Course.seen hcourse.fit).note (ihnext .waits hcourse.fit))
    · rw [hout]
      exact hcourse.trans ((Course.seen hcourse.fit).note (ihnext (.done none) hcourse.fit))
    · rw [hout]
      exact hcourse.after ((Course.seen hcourse.fit).note (ihnext _ hcourse.fit))
  | range start inside more next ihinside ihnext =>
    obtain ⟨a, t, m', news, hout, hleg⟩ := range_leg more
      (f := fun e r => (inside e r).run) (fun e r v m hm => ihinside e r hm)
      (t := ⟨[], start, v⟩) h
    unfold Guest.run
    rw [hout]
    have hcourse := hleg.course
    have hvisits : t.visits = news := hleg.visits_eq
    dsimp only at hcourse ⊢
    rw [hvisits]
    exact hcourse.after ((Course.seen hcourse.fit).note (ihnext a t.result hcourse.fit))

/-! ## New maps -/

namespace Map

omit [DecidableEq κ] in
/-- A map of new shards is fit. -/
theorem fit_empty {m : Map κ ν} (hpos : 0 < m.shards.size)
    (hsingle : m.layout = .single → m.shards.size = 1) (capacity : Nat)
    (hshards : ∀ d ∈ m.shards, d = .ofCapacity capacity) (hshared : m.shared = {}) :
    m.Fit false where
  shards i hi := by
    have hleast := minimumBuckets_le_bucketsFor capacity
    have hbuckets : 0 < bucketsFor capacity := Nat.lt_of_lt_of_le (by decide) hleast
    rw [shardAt_eq hi, hshards _ (Array.getElem_mem hi)]
    exact ⟨Table.fit_ofSize _ hbuckets (two_pow_bucketsFor capacity) hleast,
      fun t ht => by simp [Shard.ofCapacity] at ht, rfl⟩
  clean := hshared ▸ Pool.isClean_new
  pos := hpos
  single := hsingle

omit [DecidableEq κ] in
/-- All shards of a new map are new. -/
theorem shards_new (layout : Layout) (hash : κ → UInt64) (n capacity : Nat) :
    ∃ c, ∀ d ∈ (new layout hash n capacity : Map κ ν).shards, d = .ofCapacity c := by
  cases layout with
  | single =>
    exact ⟨capacity, fun d hd => List.eq_of_mem_singleton (Array.mem_toList_iff.mpr hd)⟩
  | sharded => exact ⟨_, fun d hd => Array.eq_of_mem_replicate hd⟩

omit [DecidableEq κ] in
theorem shared_new (layout : Layout) (hash : κ → UInt64) (n capacity : Nat) :
    (new layout hash n capacity : Map κ ν).shared = {} := by
  cases layout <;> rfl

omit [DecidableEq κ] in
theorem fit_new (layout : Layout) (hash : κ → UInt64) (n capacity : Nat) :
    (new layout hash n capacity : Map κ ν).Fit false := by
  obtain ⟨c, hshards⟩ := shards_new (ν := ν) layout hash n capacity
  have hshared := shared_new (ν := ν) layout hash n capacity
  cases layout with
  | single => exact fit_empty Nat.one_pos (fun _ => rfl) c hshards hshared
  | sharded =>
    refine fit_empty ?_ (fun h => by cases h) c hshards hshared
    unfold new sharded
    rw [Array.size_replicate]
    exact shardsFor_pos n

/-! ## Reachable maps -/

/--
The maps that guests meet with, each with the view that there is of it: new maps, what guests
leave, and what they see on the way.
-/
inductive Reachable : View → Map κ ν → Prop
  | new (layout : Layout) (hash : κ → UInt64) (n capacity : Nat) :
      Reachable { freed := true } (new layout hash n capacity)
  | run {ρ : Type} {v : View} {m : Map κ ν} (g : Guest κ ν ρ) :
      Reachable v m → Reachable (g.run v m).1.view (g.run v m).2
  | within {ρ : Type} {v : View} {m : Map κ ν} (g : Guest κ ν ρ) {t : Sight κ ν} :
      Reachable v m → t ∈ (g.run v m).1.log → Reachable t.view t.map

theorem Reachable.fit {v : View} {m : Map κ ν} (h : Reachable v m) : m.Fit (!v.freed) := by
  induction h with
  | new layout hash n capacity => exact fit_new layout hash n capacity
  | run g _ ih => exact (g.run_course ih).fit
  | within g _ ht ih => exact (g.run_course ih).sights _ ht

/-- Setting several values at once is nothing that a guest could not do one after another. -/
theorem Reachable.extend {v : View} {m : Map κ ν} (h : Reachable v m) (l : List (κ × ν)) :
    Reachable v (m.extend l) := by
  induction l generalizing m with
  | nil => exact h
  | cons e l ih =>
    obtain ⟨k, w⟩ := e
    have hset := h.run (.act (.set k w) fun _ => (.stop () : Guest κ ν Unit))
    have hstep : ((Guest.act (.set k w) fun _ => (.stop () : Guest κ ν Unit)).run v m).1.view = v ∧
        ((Guest.act (.set k w) fun _ => (.stop () : Guest κ ν Unit)).run v m).2
          = (m.set k w).2 := by
      unfold Guest.run Deed.run View.attempt
      dsimp only [Stay.note, Guest.run]
      generalize m.set k w = out
      obtain ⟨a | _, m'⟩ := out <;> exact ⟨rfl, rfl⟩
    rw [hstep.1, hstep.2] at hset
    exact ih hset

end Map

end VersionedMap
