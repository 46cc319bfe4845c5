import VersionedMap.Proofs.Peers

/-!
# Two ways to clear a map

A map can be cleared as such, which puts a new table in place of every table, or by way of a view,
which publishes an empty version in every bucket that has items and leaves all the others as they
are. The maps that come of this have different buckets inside. But they are peers, so that nobody
can tell which way the map has been cleared: whoever goes on with one of them as the answers so far
suggest, with callbacks in callbacks and with views taken and freed between, gets the answers that
the other would have given.
-/

namespace VersionedMap

variable {κ ν ρ : Type}

/-! ## Going on with a map -/

/--
Whoever has taken a view, and works with nothing else until the view is dropped: it asks the view,
wipes the map by way of it, or frees it. The map itself is not read meanwhile. Such a read waits if
its bucket brims, and how often a bucket has been read is what differs between maps that otherwise
go on alike.
-/
inductive Sitting (κ ν ρ : Type)
  | stop (r : ρ)
  | peek (i : Inquiry κ ν ρ ρ) (next : Except Refusal (Finding ν ρ ρ) → Sitting κ ν ρ)
  | wipe (next : Answer κ ν → Sitting κ ν ρ)
  | free (next : Answer κ ν → Sitting κ ν ρ)

/--
Whoever goes on with a map that nobody views, by the answers that it gets: it runs errands, takes a
view for a while, and reads and scans, where the callbacks are such people too. A scan hands a
result from visit to visit, as long as it is told to go on.
-/
inductive Sequel (κ ν ρ : Type)
  | stop (r : ρ)
  /-- Runs an errand. A view that it takes is dropped at once. -/
  | errand (e : Errand κ ν ρ ρ) (next : Reply κ ν ρ ρ → Sequel κ ν ρ)
  /-- Takes a view, works with it, and drops it. -/
  | view (inside : Sitting κ ν ρ) (next : Option ρ → Sequel κ ν ρ)
  | read (q : Lookup κ) (inside : κ × ν → Sequel κ ν ρ) (next : Attempt (Option ρ) → Sequel κ ν ρ)
  | range (start : ρ) (inside : κ × ν → ρ → Sequel κ ν ρ) (more : ρ → Bool)
    (next : Attempt Bool → ρ → Sequel κ ν ρ)

/-- The visitor of a scan whose callback goes on from what the visits before have come to. -/
def Sequel.visit (more : ρ → Bool) (f : κ × ν → ρ → Map κ ν → ρ × Map κ ν) : Visitor κ ν ρ :=
  fun e r m =>
    let (r, m) := f e r m
    (more r, r, m)

section Run

variable [DecidableEq κ] [Text.Shown κ] [Text.Shown ν]

/-- Works with a view and gives what that has come to. -/
def Sitting.run : Sitting κ ν ρ → View → Map κ ν → ρ × View × Map κ ν
  | .stop r, v, m => (r, v, m)
  | .peek i next, v, m => (next (v.ask m i)).run v m
  | .wipe next, v, m =>
    let (a, v, m) := Deed.wipe.run v m
    (next a).run v m
  | .free next, v, m =>
    let (a, v, m) := Deed.free.run v m
    (next a).run v m

/-- Goes on with a map and gives what that has come to. -/
def Sequel.run : Sequel κ ν ρ → Map κ ν → ρ × Map κ ν
  | .stop r, m => (r, m)
  | .errand e next, m =>
    let (r, v, m) := e.run { freed := true } m
    (next r).run (v.close m)
  | .view inside next, m =>
    match m.lock with
    | (.waits, m) => (next none).run m
    | (.done v, m) =>
      let (r, v, m) := inside.run v m
      (next (some r)).run (v.close m)
  | .read q inside next, m =>
    let (a, m) := m.read q fun e => (inside e).run
    (next a).run m
  | .range start inside more next, m =>
    let (went, r, m) := m.range (Sequel.visit more fun e r => (inside e r).run) start
    (next went r).run m

end Run

/-! ## Peers go on alike -/

namespace Map.Peers

variable [DecidableEq κ] {n : Nat} {m m' : Map κ ν} {v : View}

/-- Of peers every deed comes to the same, with a view of them or without. -/
theorem deed (h : Peers (!v.freed) n m m') (d : Deed κ ν) :
    ∃ a w m₁ m₁', d.run v m = (a, w, m₁) ∧ d.run v m' = (a, w, m₁') ∧
      Peers (!w.freed) n m₁ m₁' := by
  have hmotion {μ : Motion κ ν m.hash} (hμ : d.motion? m.hash = some μ) :
      ∃ a w m₁ m₁', d.run v m = (a, w, m₁) ∧ d.run v m' = (a, w, m₁') ∧
        Peers (!w.freed) n m₁ m₁' := by
    rw [Deed.run_motion hμ rfl, Deed.run_motion hμ h.hash_eq]
    obtain ⟨_ | _⟩ := v
    · rw [Fit.mutate_held h.fit, Fit.mutate_held h.fit']
      exact ⟨_, _, m, m', rfl, rfl, h⟩
    · obtain ⟨a, m₁, m₁', hrun, hrun', hpeers⟩ := mutate h μ
      rw [hrun, hrun']
      exact ⟨_, _, m₁, m₁', rfl, rfl, hpeers⟩
  cases d with
  | set k w | swap k w | setAbsent k w | getOrSet k w | delete q => exact hmotion rfl
  | clear =>
    unfold Deed.run
    obtain ⟨_ | _⟩ := v
    · rw [Fit.clear_held h.fit, Fit.clear_held h.fit']
      exact ⟨_, _, m, m', rfl, rfl, h⟩
    · obtain ⟨m₁, m₁', hrun, hrun', hpeers⟩ := clear h
      rw [hrun, hrun']
      exact ⟨_, _, m₁, m₁', rfl, rfl, hpeers⟩
  | lock =>
    unfold Deed.run
    obtain ⟨_ | _⟩ := v
    · rw [Fit.lock_held h.fit, Fit.lock_held h.fit']
      exact ⟨_, _, m, m', rfl, rfl, h⟩
    · obtain ⟨m₁, m₁', hrun, hrun', hpeers⟩ := lock h
      rw [hrun, hrun']
      exact ⟨_, _, m₁, m₁', rfl, rfl, hpeers⟩
  | wipe =>
    unfold Deed.run
    cases hv : v.freed with
    | true =>
      rw [View.clear_freed hv, View.clear_freed hv]
      exact ⟨_, _, m, m', rfl, rfl, h⟩
    | false =>
      rw [hv] at h
      obtain ⟨m₁, m₁', hrun, hrun', hpeers⟩ := wipe h hv
      rw [hrun, hrun']
      exact ⟨_, _, m₁, m₁', rfl, rfl, hv ▸ hpeers⟩
  | free =>
    unfold Deed.run
    cases hv : v.freed with
    | true =>
      rw [View.free_freed hv, View.free_freed hv]
      exact ⟨_, _, m, m', rfl, rfl, h⟩
    | false =>
      rw [hv] at h
      rw [View.free_held hv, View.free_held hv]
      exact ⟨_, _, m.unlock, m'.unlock, rfl, rfl, h.unlock⟩

omit [DecidableEq κ] in
theorem close (h : Peers (!v.freed) n m m') : Peers false n (v.close m) (v.close m') := by
  unfold View.close
  cases hv : v.freed with
  | true =>
    rw [hv] at h
    exact h
  | false =>
    rw [hv] at h
    exact h.unlock

variable [Text.Shown κ] [Text.Shown ν]

/-- Of peers that nobody views every errand comes to the same. -/
theorem errand {σ α : Type} (h : Peers false n m m') (e : Errand κ ν σ α) :
    ∃ r w m₁ m₁', e.run { freed := true } m = (r, w, m₁) ∧
      e.run { freed := true } m' = (r, w, m₁') ∧ Peers (!w.freed) n m₁ m₁' := by
  have hview := h.toAlike.sameView
  cases e with
  | act d =>
    obtain ⟨a, w, m₁, m₁', hrun, hrun', hpeers⟩ := deed (v := { freed := true }) h d
    dsimp only [Errand.run]
    rw [hrun, hrun']
    exact ⟨_, w, m₁, m₁', rfl, rfl, hpeers⟩
  | drop => exact ⟨_, _, m, m', rfl, rfl, h⟩
  | ask i =>
    obtain ⟨a, m₁, m₁', hrun, hrun', hpeers⟩ := h.ask i
    dsimp only [Errand.run]
    rw [hrun, hrun']
    exact ⟨_, _, m₁, m₁', rfl, rfl, hpeers⟩
  | peek i =>
    dsimp only [Errand.run]
    rw [View.ask_freed rfl, View.ask_freed rfl]
    exact ⟨_, _, m, m', rfl, rfl, h⟩
  | capacity =>
    dsimp only [Errand.run]
    rw [hview.capacity_eq]
    exact ⟨_, _, m, m', rfl, rfl, h⟩
  | shardCount =>
    dsimp only [Errand.run, shardCount?]
    rw [h.layout_eq, h.size_eq]
    exact ⟨_, _, m, m', rfl, rfl, h⟩

/-- Views of peers come to the same, whatever is done with them. -/
theorem sitting (s : Sitting κ ν ρ) (h : Peers (!v.freed) n m m') :
    ∃ r w m₁ m₁', s.run v m = (r, w, m₁) ∧ s.run v m' = (r, w, m₁') ∧
      Peers (!w.freed) n m₁ m₁' := by
  induction s generalizing v m m' with
  | stop r => exact ⟨r, v, m, m', rfl, rfl, h⟩
  | peek i next ih =>
    have hask : v.ask m' i = v.ask m i := by
      cases hv : v.freed with
      | true => rw [View.ask_freed hv, View.ask_freed hv]
      | false => rw [h.fit'.view_ask hv, h.fit.view_ask hv, h.toAlike.sameView.finding_eq]
    unfold Sitting.run
    rw [hask]
    exact ih _ h
  | wipe next ih =>
    obtain ⟨a, w, m₁, m₁', hrun, hrun', hpeers⟩ := h.deed .wipe
    unfold Sitting.run
    rw [hrun, hrun']
    exact ih a hpeers
  | free next ih =>
    obtain ⟨a, w, m₁, m₁', hrun, hrun', hpeers⟩ := h.deed .free
    unfold Sitting.run
    rw [hrun, hrun']
    exact ih a hpeers

/-- Whoever goes on with one of two peers gets the answers that the other would have given. -/
theorem sequel (c : Sequel κ ν ρ) (h : Peers false n m m') : Echo n (c.run m) (c.run m') := by
  -- on who goes on: callbacks do so too, and come to the same of peers
  induction c generalizing m m' with
  | stop r => exact ⟨r, m, m', rfl, rfl, h⟩
  | errand e next ih =>
    obtain ⟨r, w, m₁, m₁', hrun, hrun', hpeers⟩ := h.errand e
    unfold Sequel.run
    rw [hrun, hrun']
    exact ih r hpeers.close
  | view inside next ih =>
    obtain ⟨m₁, m₁', hlock, hlock', hpeers⟩ := h.lock
    obtain ⟨r, w, m₂, m₂', hrun, hrun', hpeers₂⟩ := sitting (v := {}) inside hpeers
    unfold Sequel.run
    rw [hlock, hlock']
    dsimp only
    rw [hrun, hrun']
    exact ih (some r) hpeers₂.close
  | read q inside next ihinside ihnext =>
    obtain ⟨a, m₁, m₁', hrun, hrun', hpeers⟩ :=
      h.read q (f := fun e => (inside e).run) fun e _ _ h => ihinside e h
    unfold Sequel.run
    rw [hrun, hrun']
    exact ihnext a hpeers
  | range start inside more next ihinside ihnext =>
    have heven : Even n (Sequel.visit more fun e r => (inside e r).run) := by
      intro e r m m' h
      obtain ⟨r', m₁, m₁', hrun, hrun', hpeers⟩ := ihinside e r h
      dsimp only [Sequel.visit]
      rw [hrun, hrun']
      exact ⟨more r', r', m₁, m₁', rfl, rfl, hpeers⟩
    obtain ⟨a, r, m₁, m₁', hrun, hrun', hpeers⟩ := h.range heven start
    unfold Sequel.run
    rw [hrun, hrun']
    exact ihnext a r hpeers

end Map.Peers

/-! ## Both ways to clear -/

namespace Map

variable {m m' : Map κ ν} {v : View}

/-- No read and no scan is under way, and so no callback. -/
def Idle (m : Map κ ν) : Prop := ∀ i, (m.shardAt i).guards = 0

theorem idle_new (layout : Layout) (hash : κ → UInt64) (n capacity : Nat) :
    (new layout hash n capacity : Map κ ν).Idle := by
  intro i
  obtain ⟨c, hshards⟩ := shards_new (ν := ν) layout hash n capacity
  unfold shardAt
  rw [Array.getD_eq_getD_getElem?]
  cases hd : (new layout hash n capacity : Map κ ν).shards[i]? with
  | none => rfl
  | some d =>
    rw [Option.getD_some, hshards d (Array.mem_of_getElem? hd)]
    rfl

/-- Whoever works with an idle map has ended all callbacks when it leaves. -/
theorem Idle.run [DecidableEq κ] (hm : m.Idle) (h : m.Fit (!v.freed)) (g : Guest κ ν ρ) :
    (g.run v m).2.Idle :=
  fun i => ((g.run_course h).tracks.shards i).guards_eq.trans (hm i)

/-- Clearing an idle map wipes it, and sets no table aside. -/
theorem Fit.clear_idle (h : m.Fit false) (hm : m.Idle) :
    ∃ m', m.clear = (.done (), m') ∧ m'.Fit false ∧ m.Wiped m' ∧ m.SameAside m' := by
  obtain ⟨m', hrun, hfit, hshape, hshards⟩ := h.clearFrom_replaces (Nat.zero_add m.shards.size)
  have hreplace (i : Nat) : (m.shardAt i).replace (m.shardAt i).table (m.shardAt i).table.emptied
      = { m.shardAt i with table := (m.shardAt i).table.emptied } := if_pos (hm i)
  simp only [Nat.zero_le, true_and, hreplace] at hshards
  refine ⟨m', hrun, hfit, ⟨hshape, ?_⟩, ?_, ?_⟩
  · intro i
    rw [hshards]
    by_cases hi : i < m.shards.size
    · rw [if_pos hi]
      exact Prod.ext (Table.shelves_emptied _) rfl
    · have hvacant : m.shardAt i = .vacant := by
        unfold shardAt
        rw [Array.getD_eq_getD_getElem?, Array.getElem?_eq_none (Nat.not_lt.mp hi)]
        rfl
      rw [if_neg hi, hvacant]
      exact Prod.ext (Table.shelves_ofSize 1 Nat.one_pos) rfl
  · intro i
    rw [hshards]
    split <;> rfl
  · intro i
    rw [hshards]
    split <;> rfl

/-- By way of a view a map is wiped too, and sets no table aside. -/
theorem Fit.clear_by_view (h : m.Fit false) :
    ∃ locked wiped m', m.lock = (.done {}, locked) ∧ View.clear {} locked = .ok wiped ∧
      View.free {} wiped = .ok ({ freed := true }, m') ∧ m'.Fit false ∧ m.Wiped wiped ∧
      m.Wiped m' ∧ m.SameAside m' := by
  obtain ⟨locked, hlock, hfit₁, _, hview₁⟩ := h.lock
  obtain ⟨wiped, hclear, hfit₂, _, hwiped⟩ := hfit₁.wipe (v := {}) rfl
  obtain ⟨hfit₃, _, hview₃⟩ := hfit₂.unlock
  have hwiped₂ := hwiped.of_sameView hview₁
  exact ⟨locked, wiped, wiped.unlock, hlock, hclear, View.free_held rfl wiped, hfit₃, hwiped₂,
    hwiped₂.sameView hview₃, ((SameAside.lock hlock).trans (.wipe hclear)).trans (.unlock wiped)⟩

theorem Wiped.count_eq (h : m.Wiped m') (i : Nat) : (m'.shardAt i).table.count = 0 :=
  congrArg Prod.snd (h.view_eq i)

variable [DecidableEq κ] [Text.Shown κ] [Text.Shown ν]

/--
Nobody can tell the one map from the other: whoever goes on with them gets the same in the end, and
leaves as many items in as many buckets, which a scan meets in the same order.
-/
structure Indistinguishable (m m' : Map κ ν) : Prop where
  result : ∀ (ρ : Type) (c : Sequel κ ν ρ), (c.run m').1 = (c.run m).1
  len : ∀ (ρ : Type) (c : Sequel κ ν ρ), (c.run m').2.len = (c.run m).2.len
  capacity : ∀ (ρ : Type) (c : Sequel κ ν ρ), (c.run m').2.capacity = (c.run m).2.capacity
  items : ∀ (ρ : Type) (c : Sequel κ ν ρ), (c.run m').2.items = (c.run m).2.items

theorem Peers.indistinguishable {n : Nat} (h : Peers false n m m') : Indistinguishable m m' := by
  have hrun {ρ : Type} (c : Sequel κ ν ρ) :
      (c.run m').1 = (c.run m).1 ∧ (c.run m).2.SameView (c.run m').2 := by
    obtain ⟨r, m₁, m₁', hrun, hrun', hpeers⟩ := h.sequel c
    rw [hrun, hrun']
    exact ⟨rfl, hpeers.toAlike.sameView⟩
  refine ⟨?_, ?_, ?_, ?_⟩
  · intro ρ c
    exact (hrun c).1
  · intro ρ c
    exact (hrun c).2.len_eq
  · intro ρ c
    exact (hrun c).2.capacity_eq
  · intro ρ c
    exact (hrun c).2.items_eq

/--
**Both ways to clear are the same.** Take any map that guests can bring about, when nobody views it
and no callback is running. It can be cleared as such, and it can be locked, wiped by way of the
view, and unlocked. Both go through, and the counts are zero then. And nobody who goes on can tell
which way it was, with any operations and with callbacks in callbacks, and with views that are
asked, wiped and freed; but whoever has a view does not read the map itself before the view is
dropped.
-/
theorem clears_indistinguishable (h : Reachable v m) (hfree : v.freed = true) (hm : m.Idle) :
    ∃ cleared locked wiped unlocked, m.clear = (.done (), cleared) ∧
      m.lock = (.done {}, locked) ∧ View.clear {} locked = .ok wiped ∧
      View.free {} wiped = .ok ({ freed := true }, unlocked) ∧
      (∀ i, (cleared.shardAt i).table.count = 0 ∧ (wiped.shardAt i).table.count = 0 ∧
        (unlocked.shardAt i).table.count = 0) ∧
      cleared.len = 0 ∧ wiped.len = 0 ∧ unlocked.len = 0 ∧
      Indistinguishable cleared unlocked := by
  have hfit := h.fit
  rw [hfree] at hfit
  obtain ⟨cleared, hclear, hfit₁, hwiped₁, haside₁⟩ := hfit.clear_idle hm
  obtain ⟨locked, wiped, unlocked, hlock, hwipe, hunlock, hfit₂, hwiped, hwiped₂, haside₂⟩ :=
    hfit.clear_by_view
  have hpeers : Peers false m.shards.size cleared unlocked :=
    ⟨haside₁.alike (.refl m) haside₂ (hwiped₁.sameView_of (.refl m) hwiped₂), hfit₁, hfit₂,
      hwiped₁.size_eq⟩
  exact ⟨cleared, locked, wiped, unlocked, hclear, hlock, hwipe, hunlock,
    fun i => ⟨hwiped₁.count_eq i, hwiped.count_eq i, hwiped₂.count_eq i⟩, hwiped₁.len_eq,
    hwiped.len_eq, hwiped₂.len_eq, hpeers.indistinguishable⟩

/-- Sets two keys and removes one of them again, so that it leaves an empty version. -/
def setsTwo : Guest UInt64 UInt64 Unit :=
  .act (.set 1 10) fun _ => .act (.set 2 20) fun _ => .act (.delete ⟨2, (· == 2)⟩) fun _ =>
    .stop ()

/-- Lists what is set after a clear, by a scan that removes what it meets, and clears once more. -/
def lists : Sequel UInt64 UInt64 (List (UInt64 × UInt64)) :=
  .errand (.act (.set 2 21)) fun _ => .errand (.act (.set 1 11)) fun _ =>
    .range []
      (fun e seen => .errand (.act (.delete ⟨e.1, (· == e.1)⟩)) fun _ => .stop (seen ++ [e]))
      (fun _ => true) fun _ seen => .view (.wipe fun _ => .stop seen) fun r => .stop (r.getD [])

/-- Cleared by way of a view a map lists what it would have listed if cleared as such. -/
theorem clears_indistinguishable_lists :
    ∃ m : Map UInt64 UInt64, m.len = 1 ∧ ∃ locked wiped unlocked, m.lock = (.done {}, locked) ∧
      View.clear {} locked = .ok wiped ∧
      View.free {} wiped = .ok ({ freed := true }, unlocked) ∧ unlocked.len = 0 ∧
      (lists.run unlocked).1 = [(1, 11), (2, 21)] := by
  let m : Map UInt64 UInt64 := (setsTwo.run { freed := true } (new .single id 0 0)).2
  have hreach : Reachable { freed := true } m := (Reachable.new .single id 0 0).run setsTwo
  have hidle : m.Idle := (idle_new .single id 0 0).run (Reachable.new .single id 0 0).fit setsTwo
  obtain ⟨cleared, locked, wiped, unlocked, hclear, hlock, hwipe, hunlock, _, _, _, hlen, hsame⟩ :=
    clears_indistinguishable hreach rfl hidle
  have hlist : (lists.run m.clear.2).1 = [(1, 11), (2, 21)] := by decide +kernel
  rw [hclear] at hlist
  refine ⟨m, ?_, locked, wiped, unlocked, hlock, hwipe, hunlock, hlen, ?_⟩
  · decide +kernel
  · rw [hsame.result, hlist]

end Map

end VersionedMap
