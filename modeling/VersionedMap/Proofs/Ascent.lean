import VersionedMap.Proofs.Filling

/-!
# How guests fill tables

What brings about a number of buckets is one deed of a guest at a time. A deed that inserts an item
where it makes growth due doubles a table, and this is reported; no other deed changes a number of
buckets, and readers and callbacks that only look change nothing. So whatever a guest does, every
sight **fills** the one before it, and every map that guests can bring about has slack.
-/

namespace VersionedMap

variable {κ ν ρ : Type}

/-! ## Deeds -/

/-- What sets a key that the map does not have. -/
def Deed.Inserts [DecidableEq κ] (d : Deed κ ν) (m : Map κ ν) : Prop :=
  match d with
  | .set k _ | .swap k _ | .setAbsent k _ | .getOrSet k _ => valueOf m.items k = none
  | .delete _ | .clear | .lock | .wipe | .free => False

variable [DecidableEq κ]

/-- From a map to what is seen next: no number of buckets changes, or an insertion doubles one. -/
structure Fills (m : Map κ ν) (t : Sight κ ν) : Prop where
  sizes : m.SameSizes t.map ∨
    ∃ d a i, t.deed = some (d, a) ∧ d.Inserts m ∧ m.Doubles i t.map
  slack : m.Slack → t.map.Slack

theorem Map.Idles.fills {m m' : Map κ ν} (h : m.Idles m') (d : Option (Deed κ ν × Answer κ ν))
    (v : View) : Fills m ⟨d, v, m'⟩ where
  sizes := .inl (h.toSameView.sameSizes h.growths_eq)
  slack := h.toSameView.slack

theorem Fills.of_idles {m m' : Map κ ν} {t : Sight κ ν} (hidle : m.Idles m') (h : Fills m' t) :
    Fills m t where
  sizes := by
    have hsame := hidle.toSameView.sameSizes hidle.growths_eq
    rcases h.sizes with hsizes | ⟨d, a, i, hd, hins, hdoubles⟩
    · exact .inl (hsame.trans hsizes)
    · obtain ⟨hsize, hitems⟩ := Map.sizes_of_view (hidle.view_eq i)
      refine .inr ⟨d, a, i, hd, ?_, ?_⟩
      · unfold Deed.Inserts at hins ⊢
        rwa [← hidle.items_eq]
      · refine ⟨hidle.toSameShape.trans hdoubles.toSameShape, hidle.size_eq ▸ hdoubles.lt,
          fun j hj => (hdoubles.others j hj).trans (hidle.view_eq j), ?_, ?_, ?_, ?_⟩
        · rw [hdoubles.buckets_eq, hsize]
        · rw [hdoubles.more, hitems]
        · rw [← hsize]
          exact hdoubles.due
        · rw [hdoubles.growths_eq, hidle.growths_eq, hsize]
  slack hm := h.slack (hidle.toSameView.slack hm)

/-- What a mutation that acts on a key comes to, whoever attempts it. -/
theorem fills_mutate {α : Type} {d : Deed κ ν} {v : View} {m : Map κ ν} (h : m.Fit (!v.freed))
    {hash : UInt64} {f : UInt32 → Mutation κ ν α} {own : κ → Prop} {spares : α → κ → Prop}
    (hf : ∀ hash, (f hash).Edits hash own spares) (hown : ∀ k, own k → m.hash k = hash)
    (hmute : ∀ hash, (f hash).Mute)
    (hins : v.freed = true → (m.outcome hash f).1.2 = .inserted → d.Inserts m)
    (answer : α → Answer κ ν) {out : Answer κ ν × View × Map κ ν}
    (hout : out = v.attempt (Attempt.answer answer (m.mutate hash f))) :
    Fills m ⟨some (d, out.1), out.2.1, out.2.2⟩ := by
  subst hout
  cases hv : v.freed with
  | false =>
    rw [hv] at h
    rw [Map.Fit.mutate_held h]
    exact (Map.Idles.refl m).fills _ _
  | true =>
    rw [hv] at h
    obtain ⟨m', hrun, hsizes, hslack⟩ := h.mutate_fills hf hown hmute
    rw [hrun]
    refine ⟨hsizes.imp_right fun ⟨hc, hdoubles⟩ => ?_, hslack⟩
    exact ⟨d, _, _, rfl, hins hv hc, hdoubles⟩

/-- What a mutation of one key comes to, if no insertion where it has the key already. -/
theorem fills_key {α : Type} {d : Deed κ ν} {v : View} {m : Map κ ν} (h : m.Fit (!v.freed)) (k : κ)
    {f : UInt32 → Mutation κ ν α} {spec : Option ν → α × Option ν}
    (hacts : ∀ hash, (f hash).Acts hash k spec) (hmute : ∀ hash, (f hash).Mute)
    (hins : valueOf m.items k = none → d.Inserts m) (answer : α → Answer κ ν)
    {out : Answer κ ν × View × Map κ ν}
    (hout : out = v.attempt (Attempt.answer answer (m.mutate (m.hash k) f))) :
    Fills m ⟨some (d, out.1), out.2.1, out.2.2⟩ := by
  refine fills_mutate h (fun hash => (hacts hash).edits) (fun k' hk => congrArg m.hash hk) hmute
    (fun hv hc => hins ?_) answer hout
  rw [hv] at h
  exact Map.Fit.inserted h hacts hc

namespace Deed

variable {v : View} {m : Map κ ν}

/-- What a deed comes to, by what is seen then. -/
def Seen (d : Deed κ ν) (v : View) (m : Map κ ν) : Prop :=
  Fills m ⟨some (d, (d.run v m).1), (d.run v m).2.1, (d.run v m).2.2⟩

theorem seen_clear (h : m.Fit (!v.freed)) : (clear : Deed κ ν).Seen v m := by
  unfold Seen run
  obtain ⟨_ | _⟩ := v
  · rw [Map.Fit.clear_held h]
    exact (Map.Idles.refl m).fills _ _
  · obtain ⟨hsizes, hslack⟩ := Map.Fit.clear_fills h
    obtain ⟨m', hrun, _⟩ := Map.Fit.clear h
    rw [hrun] at hsizes hslack ⊢
    exact ⟨.inl hsizes, hslack⟩

theorem seen_lock (h : m.Fit (!v.freed)) : (lock : Deed κ ν).Seen v m := by
  unfold Seen run
  obtain ⟨_ | _⟩ := v
  · rw [Map.Fit.lock_held h]
    exact (Map.Idles.refl m).fills _ _
  · obtain ⟨m', hrun, hview, hgrowths⟩ := Map.Fit.lock_fills h
    rw [hrun]
    exact ⟨.inl (hview.sameSizes hgrowths), hview.slack⟩

theorem seen_wipe (h : m.Fit (!v.freed)) : (wipe : Deed κ ν).Seen v m := by
  unfold Seen run
  obtain ⟨_ | _⟩ := v
  · obtain ⟨m', hrun, hsizes, hslack⟩ := Map.Fit.wipe_fills (v := {}) h rfl
    rw [hrun]
    exact ⟨.inl hsizes, fun _ => hslack⟩
  · exact (Map.Idles.refl m).fills _ _

theorem seen_free (h : m.Fit (!v.freed)) : (free : Deed κ ν).Seen v m := by
  unfold Seen run
  obtain ⟨_ | _⟩ := v
  · obtain ⟨_, _, hview⟩ := Map.Fit.unlock h
    exact ⟨.inl (hview.sameSizes (Map.growths_unlock m)), hview.slack⟩
  · exact (Map.Idles.refl m).fills _ _

/-- What every deed does to the numbers of buckets. -/
theorem fills (d : Deed κ ν) (h : m.Fit (!v.freed)) : d.Seen v m := by
  cases d with
  | set k w =>
    refine fills_key (d := .set k w) h k (fun hash => Mutation.acts_set hash k w)
      (fun hash => Mutation.mute_set hash k w) id (fun _ => .nothing) ?_
    show v.attempt (Attempt.answer _ (m.set k w)) = _
    unfold Map.set Map.swap
    generalize m.mutate (m.hash k) (fun hash => Mutation.set hash k w) = out
    obtain ⟨a | _, m'⟩ := out <;> rfl
  | swap k w =>
    exact fills_key (d := .swap k w) h k (fun hash => Mutation.acts_set hash k w)
      (fun hash => Mutation.mute_set hash k w) id .value rfl
  | setAbsent k w =>
    exact fills_key (d := .setAbsent k w) h k (fun hash => Mutation.acts_setAbsent hash k w)
      (fun hash => Mutation.mute_setAbsent hash k w) id .flag rfl
  | getOrSet k w =>
    exact fills_key (d := .getOrSet k w) h k (fun hash => Mutation.acts_getOrSet hash k w)
      (fun hash => Mutation.mute_getOrSet hash k w) id (fun found => .found found.1 found.2) rfl
  | delete q =>
    have hdelete : ∀ hash, (Mutation.delete (ν := ν) ⟨hash, q.admits⟩).Edits hash
        (fun _ => False) (fun a k => a = none ∨ q.admits k = false) :=
      fun hash => Mutation.edits_delete ⟨hash, q.admits⟩
    exact fills_mutate (d := .delete q) h hdelete (fun k hk => hk.elim)
      (fun hash => Mutation.mute_delete ⟨hash, q.admits⟩)
      (fun _ hc => absurd hc (Mutation.delete_ne_inserted _ _ _)) .value rfl
  | clear => exact seen_clear h
  | lock => exact seen_lock h
  | wipe => exact seen_wipe h
  | free => exact seen_free h

end Deed

/-! ## Runs -/

/-- From a map by way of what is seen to another: every sight follows from the one before it. -/
inductive Along : Map κ ν → List (Sight κ ν) → Map κ ν → Prop
  | idle {m m' : Map κ ν} : m.Idles m' → Along m [] m'
  | sees {m m' : Map κ ν} {t : Sight κ ν} {log : List (Sight κ ν)} :
      Fills m t → Along t.map log m' → Along m (t :: log) m'

theorem Along.of_idles {m m' m'' : Map κ ν} {log : List (Sight κ ν)} (hidle : m.Idles m')
    (h : Along m' log m'') : Along m log m'' := by
  cases h with
  | idle hidle' => exact .idle (hidle.trans hidle')
  | sees hfills hrest => exact .sees (hfills.of_idles hidle) hrest

theorem Along.trans {m m' m'' : Map κ ν} {log log' : List (Sight κ ν)} (h : Along m log m')
    (h' : Along m' log' m'') : Along m (log ++ log') m'' := by
  induction h with
  | idle hidle => exact h'.of_idles hidle
  | sees hfills _ ih => exact .sees hfills (ih h')

theorem Along.idles {m m' m'' : Map κ ν} {log : List (Sight κ ν)} (h : Along m log m')
    (hidle : m'.Idles m'') : Along m log m'' := by
  have hall := h.trans (.idle hidle)
  rwa [List.append_nil] at hall

/-- A sight without a deed, and what is seen from there. -/
theorem Along.note {v : View} {m m' : Map κ ν} {f : View → Map κ ν → Stay κ ν ρ × Map κ ν}
    (hidle : m.Idles m') (h : Along m' (f v m').1.log (f v m').2) :
    Along m (Stay.note ⟨none, v, m'⟩ f).1.log (Stay.note ⟨none, v, m'⟩ f).2 :=
  .sees (hidle.fills none v) h

/-- A visit of a scan goes on from what the visits before it have come to. -/
theorem Along.visit {m m' : Map κ ν} {t : Tour κ ν ρ} {more : ρ → Bool}
    {f : κ × ν → ρ → View → Map κ ν → Stay κ ν ρ × Map κ ν} {e : κ × ν}
    (h : Along m (Visit.logs t.visits) m')
    (hf : Along m' (f e t.result t.view m').1.log (f e t.result t.view m').2) :
    Along m (Visit.logs (Tour.visit more f e t m').2.1.visits) (Tour.visit more f e t m').2.2 := by
  have hnote := Along.note (v := t.view) (f := f e t.result) (Map.Idles.refl m') hf
  unfold Tour.visit
  generalize Stay.note ⟨none, t.view, m'⟩ (f e t.result) = out at *
  obtain ⟨s, m''⟩ := out
  dsimp only at hnote ⊢
  rw [Leg.logs_append]
  refine h.trans ?_
  show Along m' (s.log ++ []) m''
  rwa [List.append_nil]

/-- Whatever a guest does to a fit map, every sight follows from the one before it. -/
theorem Guest.run_along (g : Guest κ ν ρ) {v : View} {m : Map κ ν} (h : m.Fit (!v.freed)) :
    Along m (g.run v m).1.log (g.run v m).2 := by
  -- on the guest: callbacks are guests too, and see one thing after another in a fit map
  induction g generalizing v m with
  | stop r => exact .idle (.refl m)
  | look next ih => exact ih v m h
  | act d next ih =>
    have hrest := ih (d.run v m).1 (d.comes_run h).fit
    exact .sees (d.fills h) hrest
  | read q inside next ihinside ihnext =>
    have hread := Map.read_idles h q fun e m => Stay.note ⟨none, v, m⟩ (inside e).run
    unfold Guest.run
    rcases hread with ⟨m', hidle, hread | hread⟩ | ⟨e, p, n, i, m', hidle, hp, hi, hread⟩
    · rw [hread]
      exact Along.note (v := v) (f := (next .waits).run) hidle (ihnext .waits (hidle.fit _ h))
    · rw [hread]
      exact Along.note (v := v) (f := (next (.done none)).run) hidle
        (ihnext (.done none) (hidle.fit _ h))
    · rw [hread]
      have hfit := hidle.fit _ h
      have hinside := Along.note (v := v) hidle (ihinside e hfit)
      have hinner := (Course.seen hfit).note ((inside e).run_course hfit)
      have hfit₂ := hinner.fit
      have hsize := hinner.tracks.size_eq
      generalize Stay.note ⟨none, v, m'⟩ (inside e).run = out at *
      obtain ⟨s, m₂⟩ := out
      -- the callback over, its version and its table are let go of
      have hp₂ : p.shard < m₂.shards.size := by
        rw [hsize, hidle.size_eq]
        exact hp
      have hrelease := Map.idles_release hp₂ ⟨_, hfit₂⟩ n
      have hi₂ : i < (m₂.release p n).shards.size := by
        rw [hrelease.size_eq, hsize, hidle.size_eq]
        exact hi
      have hend := hrelease.trans (Map.idles_leave hi₂ ⟨_, hrelease.fit _ hfit₂⟩)
      exact (hinside.idles hend).trans
        (Along.note (v := s.view) (f := (next (.done (some s.result))).run) (.refl _)
          (ihnext (.done (some s.result)) (hend.fit _ hfit₂)))
  | range start inside more next ihinside ihnext =>
    unfold Guest.run
    -- carried from visit to visit: what has been seen so far leads to the map as it now is
    obtain ⟨hfit, hsize, halong⟩ := Map.range_stays
      (P := fun (t : Tour κ ν ρ) m' => m'.Fit (!t.view.freed) ∧ m'.shards.size = m.shards.size ∧
        Along m (Visit.logs t.visits) m')
      (f := Tour.visit more fun e r => (inside e r).run) (N := m.shards.size)
      (fun t m' ht => ⟨_, ht.1⟩) (fun t m' ht => ht.2.1)
      (fun t m' m'' ht hidle => ⟨hidle.fit _ ht.1, hidle.size_eq.trans ht.2.1,
        ht.2.2.idles hidle⟩)
      (fun e t m' ht => by
        have hcourse := (Course.seen ht.1).note ((inside e t.result).run_course ht.1)
        exact ⟨hcourse.fit, hcourse.tracks.size_eq.trans ht.2.1,
          ht.2.2.visit (ihinside e t.result ht.1)⟩)
      (show m.Fit (!(⟨[], start, v⟩ : Tour κ ν ρ).view.freed) ∧ _ from
        ⟨h, rfl, .idle (.refl m)⟩)
    generalize m.range (Tour.visit more fun e r => (inside e r).run) ⟨[], start, v⟩ = out at *
    obtain ⟨went, t, m'⟩ := out
    exact halong.trans (Along.note (v := t.view) (f := (next went t.result).run) (.refl _)
      (ihnext went t.result hfit))

/-! ## Reachable maps -/

theorem Along.slack {m m' : Map κ ν} {log : List (Sight κ ν)} (h : Along m log m') (hm : m.Slack) :
    m'.Slack ∧ ∀ t ∈ log, t.map.Slack := by
  induction h with
  | idle hidle => exact ⟨hidle.toSameView.slack hm, fun t ht => absurd ht (by simp)⟩
  | sees hfills _ ih =>
    obtain ⟨hend, hlog⟩ := ih (hfills.slack hm)
    refine ⟨hend, fun t ht => ?_⟩
    rcases List.mem_cons.mp ht with rfl | ht
    · exact hfills.slack hm
    · exact hlog t ht

end VersionedMap
