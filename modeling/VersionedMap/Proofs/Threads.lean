import VersionedMap.Proofs.Effects
import VersionedMap.Proofs.Walks

/-!
# From sight to sight

Between two sights readers come and go, and then there is one deed or a look. So what a guest sees
makes a **thread**, which can be taken up at any of its sights. As long as a shard is guarded, its
tables are there all along the thread. The table that was current before a mutation shows what the
mutation has done, even if the mutation has gone on to put a larger one in its place.
-/

namespace VersionedMap

variable {κ ν α : Type}

namespace Map

/-! ## Readers who come and go -/

/-- What readers do to a map who come and go, while there is a guard of shard `i`. -/
structure Lulls (i : Nat) (m m' : Map κ ν) : Prop extends m.SameView m' where
  aside_eq : (m'.shardAt i).aside.size = (m.shardAt i).aside.size
  tables_eq : ∀ g, (m'.tableAt i g).shelves = (m.tableAt i g).shelves
  guards_pos : 0 < (m'.shardAt i).guards

theorem Lulls.refl {i : Nat} {m : Map κ ν} (h : 0 < (m.shardAt i).guards) : m.Lulls i m :=
  ⟨.refl m, rfl, fun _ => rfl, h⟩

theorem Lulls.trans {i : Nat} {m m' m'' : Map κ ν} (h : m.Lulls i m') (h' : m'.Lulls i m'') :
    m.Lulls i m'' where
  toSameView := h.toSameView.trans h'.toSameView
  aside_eq := h'.aside_eq.trans h.aside_eq
  tables_eq g := (h'.tables_eq g).trans (h.tables_eq g)
  guards_pos := h'.guards_pos

theorem Alike.lulls {i : Nat} {m m' : Map κ ν} (h : m.Alike m') (hpos : 0 < (m.shardAt i).guards) :
    m.Lulls i m' where
  toSameView := h.sameView
  aside_eq := (h.shards i).aside_eq
  tables_eq := (h.shards i).shelves_eq
  guards_pos := (h.shards i).guards_eq ▸ hpos

/-- Another shard somewhere in a map, which keeps its tables. -/
theorem Swaps.lulls {i j : Nat} {m m' : Map κ ν} {d : Shard κ ν} (h : m.Swaps j d m')
    (htable : d.table = (m.shardAt j).table)
    (haside : j = i → d.aside = (m.shardAt i).aside ∧ 0 < d.guards)
    (hpos : 0 < (m.shardAt i).guards) : m.Lulls i m' := by
  have hview := h.sameView htable
  by_cases hji : j = i
  · subst hji
    obtain ⟨haside, hguards⟩ := haside rfl
    refine ⟨hview, by rw [h.here, haside], fun g => ?_, by rwa [h.here]⟩
    unfold tableAt Shard.tableAt
    rw [h.here, haside, htable]
  · have hsame := h.others i (Ne.symm hji)
    refine ⟨hview, by rw [hsame], fun g => ?_, by rwa [hsame]⟩
    unfold tableAt
    rw [hsame]

theorem Fit.enter_lulls {held : Bool} {m : Map κ ν} (h : m.Fit held) {i j : Nat}
    (hj : j < m.shards.size) (hpos : 0 < (m.shardAt i).guards) : m.Lulls i (m.enter j).2 := by
  obtain ⟨_, hswap⟩ := h.enter hj
  refine hswap.lulls rfl ?_ hpos
  rintro rfl
  exact ⟨rfl, Nat.succ_pos _⟩

/-- One guard goes; that it was not the last one shows from there being more than one before. -/
theorem Fit.leave_lulls {held : Bool} {m : Map κ ν} (h : m.Fit held) {i j : Nat}
    (hj : j < m.shards.size) (hpos : 0 < (m.shardAt i).guards)
    (hmore : j = i → 1 < (m.shardAt i).guards) : m.Lulls i (m.leave j) := by
  obtain ⟨_, hswap⟩ := h.leave hj
  refine hswap.lulls (Shard.table_leave _) ?_ hpos
  rintro rfl
  have hmore := hmore rfl
  unfold Shard.leave
  rw [if_neg (by omega)]
  exact ⟨rfl, by dsimp only; omega⟩

end Map

/-! ## Threads -/

variable [DecidableEq κ]

/-- What is seen next, from a view and a map: the deed that is done then, or nothing new. -/
def Sight.Next (v : View) (m : Map κ ν) (t : Sight κ ν) : Prop :=
  match t.deed with
  | none => t.view = v ∧ t.map = m
  | some (d, a) => d.run v m = (a, t.view, t.map)

theorem Sight.Next.course {v : View} {m : Map κ ν} {t : Sight κ ν} (h : t.Next v m)
    (hm : m.Fit (!v.freed)) : Course v m [t] t.view t.map := by
  obtain ⟨deed, w, m'⟩ := t
  cases deed with
  | none =>
    obtain ⟨rfl, rfl⟩ := h
    exact .seen hm
  | some da =>
    obtain ⟨d, a⟩ := da
    have hcomes := d.comes_run hm
    have hrun : d.run v m = (a, w, m') := h
    rw [hrun] at hcomes
    exact .deed hm hcomes

/-- What follows on what, from one view and map to others, while there is a guard of shard `i`. -/
def Thread (i : Nat) : View → Map κ ν → List (Sight κ ν) → View → Map κ ν → Prop
  | v, m, [], v', m' => v' = v ∧ m.Lulls i m' ∧ m'.Fit (!v.freed)
  | v, m, t :: log, v', m' =>
    ∃ m₁, m.Lulls i m₁ ∧ m₁.Fit (!v.freed) ∧ t.Next v m₁ ∧ Thread i t.view t.map log v' m'

namespace Thread

variable {i : Nat} {v v' v'' : View} {m m' m'' : Map κ ν} {log log' : List (Sight κ ν)}

theorem after_lulls (h : m.Lulls i m') (ht : Thread i v m' log v' m'') :
    Thread i v m log v' m'' := by
  cases log with
  | nil => exact ⟨ht.1, h.trans ht.2.1, ht.2.2⟩
  | cons t log =>
    obtain ⟨m₁, hlulls, hfit, hnext, hrest⟩ := ht
    exact ⟨m₁, h.trans hlulls, hfit, hnext, hrest⟩

theorem trans (h : Thread i v m log v' m') (h' : Thread i v' m' log' v'' m'') :
    Thread i v m (log ++ log') v'' m'' := by
  induction log generalizing v m with
  | nil =>
    obtain ⟨rfl, hlulls, _⟩ := h
    exact h'.after_lulls hlulls
  | cons t log ih =>
    obtain ⟨m₁, hlulls, hfit, hnext, hrest⟩ := h
    exact ⟨m₁, hlulls, hfit, hnext, ih hrest⟩

theorem before_lulls (h : Thread i v m log v' m') (hlulls : m'.Lulls i m'')
    (hfit : m''.Fit (!v'.freed)) : Thread i v m log v' m'' := by
  have hend : Thread i v' m' [] v' m'' := ⟨rfl, hlulls, hfit⟩
  have hall := h.trans hend
  rwa [List.append_nil] at hall

/-- A thread can be taken up where something has been seen. -/
theorem takeUp {t : Sight κ ν} (h : Thread i v m (log ++ t :: log') v' m') :
    Thread i t.view t.map log' v' m' := by
  induction log generalizing v m with
  | nil =>
    obtain ⟨_, _, _, _, hrest⟩ := h
    exact hrest
  | cons s log ih =>
    obtain ⟨_, _, _, _, hrest⟩ := h
    exact ih hrest

/-- What is seen next is a sight of which this is the course. -/
theorem one {t : Sight κ ν} (h : t.Next v m) (hm : m.Fit (!v.freed))
    (hpos : 0 < (m.shardAt i).guards) : Thread i v m [t] t.view t.map := by
  have hcourse := h.course hm
  have hpos' : 0 < (t.map.shardAt i).guards := (hcourse.tracks.shards i).guards_eq ▸ hpos
  exact ⟨m, .refl hpos, hm, h, rfl, .refl hpos', hcourse.fit⟩

/-- A thread up to where something has been seen. -/
theorem upTo {t : Sight κ ν} (h : Thread i v m (log ++ t :: log') v' m') :
    Thread i v m (log ++ [t]) t.view t.map := by
  induction log generalizing v m with
  | nil =>
    obtain ⟨_, hlulls, hfit, hnext, _⟩ := h
    exact (one hnext hfit hlulls.guards_pos).after_lulls hlulls
  | cons s log ih =>
    obtain ⟨m₁, hlulls, hfit, hnext, hrest⟩ := h
    exact ⟨m₁, hlulls, hfit, hnext, ih hrest⟩

/-! ### What is true along a thread -/

theorem sameShape (h : Thread i v m log v' m') : m.SameShape m' := by
  induction log generalizing v m with
  | nil => exact h.2.1.toSameShape
  | cons t log ih =>
    obtain ⟨_, hlulls, hfit, hnext, hrest⟩ := h
    exact (hlulls.toSameShape.trans (hnext.course hfit).tracks.toSameShape).trans (ih hrest)

theorem fit (h : Thread i v m log v' m') : m'.Fit (!v'.freed) := by
  induction log generalizing v m with
  | nil =>
    obtain ⟨rfl, _, hfit⟩ := h
    exact hfit
  | cons t log ih =>
    obtain ⟨_, _, _, _, hrest⟩ := h
    exact ih hrest

theorem guards_pos (h : Thread i v m log v' m') : 0 < (m'.shardAt i).guards := by
  induction log generalizing v m with
  | nil => exact h.2.1.guards_pos
  | cons t log ih =>
    obtain ⟨_, _, _, _, hrest⟩ := h
    exact ih hrest

/-- The tables of the guarded shard are there all along, and follow what is seen. -/
theorem carried (h : Thread i v m log v' m') {g : Nat} (hg : g ≤ (m.shardAt i).aside.size) :
    Carried (m.tableAt i g).items (log.map (·.map)) (m'.tableAt i g).items ∧
      g ≤ (m'.shardAt i).aside.size := by
  induction log generalizing v m with
  | nil =>
    obtain ⟨_, hlulls, _⟩ := h
    exact ⟨.of_eq (congrArg List.flatten (hlulls.tables_eq g)), hlulls.aside_eq ▸ hg⟩
  | cons t log ih =>
    obtain ⟨m₁, hlulls, hfit, hnext, hrest⟩ := h
    have htracks := (hnext.course hfit).tracks.shards i
    have hg₁ : g ≤ (m₁.shardAt i).aside.size := hlulls.aside_eq ▸ hg
    have hbefore : Carried (m.tableAt i g).items [] (m₁.tableAt i g).items :=
      .of_eq (congrArg List.flatten (hlulls.tables_eq g))
    obtain ⟨hafter, hg'⟩ := ih hrest (hg₁.trans (htracks.aside_le hlulls.guards_pos))
    exact ⟨(hbefore.trans (htracks.carried hlulls.guards_pos g hg₁)).trans hafter, hg'⟩

/-- An item whose key is spared is in the map all along. -/
theorem keeps (h : Thread i v m log v' m') {x : Item κ ν} (hx : x ∈ m.items)
    (hspared : ∀ t ∈ log, t.Spares x.key) : (∀ t ∈ log, x ∈ t.map.items) ∧ x ∈ m'.items := by
  induction log generalizing v m with
  | nil => exact ⟨fun t ht => absurd ht (by simp), h.2.1.items_eq ▸ hx⟩
  | cons t log ih =>
    obtain ⟨_, hlulls, hfit, hnext, hrest⟩ := h
    have hnow := (hnext.course hfit).follows.1.spared x (hlulls.items_eq ▸ hx)
      (hspared t List.mem_cons_self)
    obtain ⟨hlog, hend⟩ := ih hrest hnow fun s hs => hspared s (List.mem_cons_of_mem t hs)
    exact ⟨List.forall_mem_cons.mpr ⟨hnow, hlog⟩, hend⟩

/-- A key that is spared keeps its value, or stays without. -/
theorem retains (h : Thread i v m log v' m') {k : κ} (hspared : ∀ t ∈ log, t.Spares k) :
    (∀ t ∈ log, t.map.valueAt k = m.valueAt k) ∧ m'.valueAt k = m.valueAt k := by
  have hlull {m m' : Map κ ν} (h : m.Lulls i m') : m'.valueAt k = m.valueAt k := by
    unfold Map.valueAt
    rw [h.items_eq]
  induction log generalizing v m with
  | nil => exact ⟨fun t ht => absurd ht (by simp), hlull h.2.1⟩
  | cons t log ih =>
    obtain ⟨m₁, hlulls, hfit, hnext, hrest⟩ := h
    have hnow : t.map.valueAt k = m.valueAt k := by
      rw [← hlull hlulls]
      have hspares := hspared t List.mem_cons_self
      obtain ⟨deed, w, m'⟩ := t
      cases deed with
      | none => exact congrArg (·.valueAt k) hnext.2
      | some da =>
        obtain ⟨d, a⟩ := da
        have haffects := d.affects_run hfit k
        have hrun : d.run v m₁ = (a, w, m') := hnext
        rw [hrun] at haffects
        exact haffects.spared (hspares d a rfl)
    obtain ⟨hlog, hend⟩ := ih hrest fun s hs => hspared s (List.mem_cons_of_mem t hs)
    exact ⟨List.forall_mem_cons.mpr ⟨hnow, fun s hs => (hlog s hs).trans hnow⟩, hend.trans hnow⟩

end Thread

/-- Whoever walks while a shard is guarded leaves a thread. -/
theorem Walk.thread {H : List (Hold κ ν)} {v v' : View} {m m' : Map κ ν}
    {l : List (Instant κ ν)} (hwalk : Walk H v m l v' m') (h : m.Fit (!v.freed)) {i : Nat}
    (hpos : 0 < (m.shardAt i).guards) : Thread i v m (l.map (·.sight)) v' m' := by
  induction hwalk with
  | rest => exact ⟨rfl, .refl hpos, h⟩
  | look _ => exact .one ⟨rfl, rfl⟩ h hpos
  | act _ d => exact .one rfl h hpos
  | trans hwalk _ ih ih' =>
    rw [List.map_append]
    have hfirst := ih h hpos
    exact hfirst.trans (ih' (hwalk.fit h) hfirst.guards_pos)
  | @guard H v m j l v' m' hj hwalk ih =>
    obtain ⟨hfit, henter⟩ := h.enter hj
    have hlulls := h.enter_lulls hj hpos
    have hinside := ih hfit hlulls.guards_pos
    have htracks := (hwalk.course hfit).tracks
    have hj' : j < m'.shards.size :=
      Nat.lt_of_lt_of_eq hj (htracks.size_eq.trans henter.size_eq).symm
    obtain ⟨hfit', _⟩ := (hwalk.fit hfit).leave hj'
    refine (hinside.after_lulls hlulls).before_lulls
      ((hwalk.fit hfit).leave_lulls hj' hinside.guards_pos ?_) hfit'
    -- the guard that goes had come on top of another
    rintro rfl
    have hguards := (htracks.shards j).guards_eq
    rw [henter.here] at hguards
    rw [hguards]
    exact Nat.succ_lt_succ hpos
  | miss hp _ =>
    obtain ⟨hfit, halike⟩ := h.acquire hp.shard_lt
    exact ⟨rfl, halike.lulls hpos, hfit⟩
  | hold hp _ _ _ hwalk ih =>
    obtain ⟨hfit, halike⟩ := h.acquire hp.shard_lt
    have hinside := ih hfit (halike.lulls hpos).guards_pos
    have hsize := (hwalk.course hfit).tracks.size_eq
    obtain ⟨hfit', halike'⟩ := (hwalk.fit hfit).release
      (Nat.lt_of_lt_of_eq hp.shard_lt (hsize.trans halike.size_eq).symm) _
    exact (hinside.after_lulls (halike.lulls hpos)).before_lulls
      (halike'.lulls hinside.guards_pos) hfit'
  | hand _ _ ih => exact ih h hpos

/-! ## The table that was current -/

omit [DecidableEq κ] in
/-- The first step of a mutation sets no table aside. -/
theorem Map.aside_change (m : Map κ ν) (hash : UInt64) (f : UInt32 → Mutation κ ν α) (i : Nat) :
    ((m.change hash f).2.shardAt i).aside = (m.shardAt i).aside := by
  unfold Map.change
  dsimp only
  rw [modifyShard_eq]
  dsimp only
  rw [shardAt_set]
  split
  · rename_i hi
    rw [Shard.change_eq, hi.1]
  · rfl

omit [DecidableEq κ] in
/--
Growth sets aside a table with the items that it moves, so the table that was current when a
mutation began shows the same as the one that is current when it has ended.
-/
theorem Map.Fit.mutate_shows {m : Map κ ν} (h : m.Fit false) {hash : UInt64}
    {f : UInt32 → Mutation κ ν α} {own : κ → Prop} {spares : α → κ → Prop}
    (hf : ∀ hash, (f hash).Edits hash own spares) (hown : ∀ k, own k → m.hash k = hash) {i : Nat}
    (hpos : 0 < (m.shardAt i).guards) (x : Item κ ν) :
    x ∈ ((m.mutate hash f).2.tableAt i (m.shardAt i).aside.size).items ↔
      x ∈ ((m.mutate hash f).2.shardAt i).table.items := by
  obtain ⟨a, due, m₁, hchange, hfit, hpasses, _⟩ := h.change hf hown
  have haside : (m₁.shardAt i).aside.size = (m.shardAt i).aside.size := by
    have hafter := Map.aside_change m hash f i
    rw [hchange] at hafter
    exact congrArg Array.size hafter
  have hcurrent : m₁.tableAt i (m.shardAt i).aside.size = (m₁.shardAt i).table :=
    tableAt_current (Nat.le_of_eq haside)
  unfold Map.mutate
  dsimp only
  rw [hchange]
  cases due with
  | false =>
    dsimp only
    rw [hcurrent]
  | true =>
    obtain ⟨m₂, hgrow, _, hpasses', hitems⟩ :=
      hfit.grow (i := (m.route hash).shard) (hpasses.size_eq ▸ h.route_lt hash)
    dsimp only
    rw [hgrow]
    dsimp only
    have hpos₁ : 0 < (m₁.shardAt i).guards := (hpasses.shards i).guards_eq ▸ hpos
    have hshard := hpasses'.shards i
    have hg : (m.shardAt i).aside.size ≤ (m₁.shardAt i).aside.size := Nat.le_of_eq haside.symm
    constructor
    · intro hx
      rcases hshard.fresh hpos₁ _ hg x hx with hx | hx
      · have hx' : x ∈ (m₁.tableAt i (m.shardAt i).aside.size).items := hx
        rw [hcurrent] at hx'
        exact (hitems i x).mpr hx'
      · exact hx
    · intro hx
      refine hshard.kept hpos₁ _ hg x ?_ hx
      show x ∈ (m₁.tableAt i (m.shardAt i).aside.size).items
      rw [hcurrent]
      exact (hitems i x).mp hx

end VersionedMap
