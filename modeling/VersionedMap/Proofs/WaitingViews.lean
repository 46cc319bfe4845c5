import VersionedMap.Proofs.Release

/-!
# Views that had to wait

Among the mutations that wait for a view to end there may be others that are to take a view. What
such a view shows goes by the order in which the members could have gone on one after another. In
every shard it shows what there is at some time in that order. That need not be the same time in all
shards, as clearing comes to one shard after another. But if nobody has more than one shard left to
clear, everyone who gets on does all that shows in the first turn in which it does, and the order of
those turns will do. In that order a view shows what there is when its own turn has come.
-/

namespace VersionedMap

variable {κ ν : Type}

/-- Two maps with as many shards that tell the same have the same items. -/
theorem Map.Tells.items_perm {m m' : Map κ ν} {L : Nat → List (Item κ ν)} {held held' : Bool}
    (ht : m.Tells L) (h : m.Fit held) (h' : m'.Fit held') (hsize : m'.shards.size = m.shards.size)
    (ht' : m'.Tells L) : m.items.Perm m'.items := by
  refine (List.perm_ext_iff_of_nodup h.nodup.of_map h'.nodup.of_map).mpr fun x => ?_
  rw [mem_items, mem_items, hsize]
  refine exists_congr fun i => and_congr_right fun hi => ?_
  rw [(ht.perm hi).mem_iff, (ht'.perm (hsize ▸ hi)).mem_iff]

namespace Crew

variable [DecidableEq κ] {m : Map κ ν} {ts us : List Nat}
  {L L' : Nat → List (Item κ ν)} {holder : Option Nat} {c : Crew κ ν} {t : Nat}
  {answers : Nat → List (Answer κ ν)} {schedule order : List Nat}

omit [DecidableEq κ] in
/-- Whoever has a view is the one who is said to. -/
theorem Settling.holder_eq (h : c.Settling m ts L holder) {u : Nat} (hu : c.Holds u) :
    holder = some u := by
  obtain ⟨w, hw, hlive⟩ := hu
  by_cases hmem : u ∈ ts
  · obtain ⟨w', hw', _, hview⟩ := h.brief u hmem
    obtain rfl := Option.some.inj (hw.symm.trans hw')
    exact hview.mp hlive
  · simp [(h.others u hmem w hw).freed] at hlive

omit [DecidableEq κ] in
theorem Settling.congr (h : c.Settling m ts L holder) (hL : ∀ j < m.shards.size, L' j = L j) :
    c.Settling m ts L' holder :=
  { h with tells := h.tells.congr fun j hj => hL j (h.shape.size_eq ▸ hj) }

/-! ## In the order of first turns -/

/--
Of the members `ts`, those in `us` are still to begin, and show in one shard at most. The others
show no more, and take no view.
-/
structure Awaits (m : Map κ ν) (ts us : List Nat) (holder : Option Nat) (c : Crew κ ν) : Prop where
  nodup : us.Nodup
  subset : us ⊆ ts
  single : ∀ t ∈ us, (c.tasks m ts t).Single m.shards.size
  free : ∀ t ∈ us, holder ≠ some t
  rest : ∀ t ∈ ts, t ∉ us → ∃ as, c.tasks m ts t = .rest as
  goes : ∀ t ∈ ts, t ∉ us → ∀ w, c.members[t]? = some w → ¬ w.Locking

/--
What the views of a crew show by an order of the members `us`, where `x` is what each of them has to
do. Who takes a view sees what there is when its turn has come in that order, and who has had one
all along sees what there was.
-/
structure Sees (m : Map κ ν) (x : Nat → Task κ ν m.hash) (us : List Nat) (holder : Option Nat)
    (L : Nat → List (Item κ ν)) (order : List Nat) (c : Crew κ ν) : Prop where
  takes : ∀ u ∈ us, c.Holds u →
    ∃ pre post, order = pre ++ u :: post ∧ c.map.Tells (effects m.route x pre L)
  keeps : ∀ u, u ∉ us → c.Holds u → holder = some u ∧ c.map.Tells L

/-- An order of the members `us` in which they can go on one after another. -/
structure Timely (m : Map κ ν) (answers : Nat → List (Answer κ ν)) (ts us : List Nat)
    (holder : Option Nat) (c : Crew κ ν) (L : Nat → List (Item κ ν)) (schedule order : List Nat) :
    Prop where
  perm : order.Perm us
  inTurn : ∃ L', (c.run schedule).map.Tells L' ∧
    InTurn m.route (c.tasks m ts) (c.Owes answers ts) m.shards.size order L L'
  sees : ∀ s, s <+: schedule → Sees m (c.tasks m ts) us holder L order (c.run s)

/-- Of the members who are still to begin none has a view. -/
theorem Settling.sees (h : c.Settling m ts L holder) (hus : c.Awaits m ts us holder)
    (x : Nat → Task κ ν m.hash) (order : List Nat) : Sees m x us holder L order c where
  takes u hu hholds := (hus.free u hu (h.holder_eq hholds)).elim
  keeps _ _ hholds := ⟨h.holder_eq hholds, h.tells⟩

/-- With nothing left to be done. -/
theorem Settling.timely_nil (h : c.Settling m ts L holder) (hus : c.Awaits m ts us holder)
    (hdone : ∀ t ∈ ts, ∃ w, c.members[t]? = some w ∧ w.todo = [] ∧ w.answers = answers t) :
    ∃ order, Timely m answers ts us holder c L [] order := by
  obtain ⟨order, hperm, hturn, _⟩ := (h.accounts_done hdone hus.subset).inTurn
  refine ⟨order, hperm, ⟨L, h.tells, hturn⟩, fun s hs => ?_⟩
  obtain rfl := List.prefix_nil.mp hs
  exact h.sees hus _ order

/-- A turn with which none of the members `ts` gets on. -/
theorem Timely.idle (h : Timely m answers ts us holder (c.turn t) L schedule order)
    (hc : c.Settling m ts L holder) (hus : c.Awaits m ts us holder)
    (hsame : ∀ u ∈ ts, (c.turn t).members[u]? = c.members[u]?) :
    Timely m answers ts us holder c L (t :: schedule) order := by
  obtain ⟨hperm, hturn, hsees⟩ := h
  rw [tasks_congr hsame] at hturn hsees
  rw [owes_congr hsame] at hturn
  exact ⟨hperm, hturn, forall_prefix_cons (hc.sees hus _ order) hsees⟩

variable {holder' : Option Nat} {w w' : Member κ ν} {new : List (Answer κ ν)}

/-- A turn with which a member gets on that has begun before. -/
theorem Timely.later (h : Timely m answers ts us holder' (c.turn t) L schedule order)
    (hc : c.Settling m ts L holder) (hus : c.Awaits m ts us holder)
    (hgains : Gains m t c L (c.turn t) L' holder' w w' new) (ht : t ∈ ts) (htus : t ∉ us) :
    Timely m answers ts us holder c L (t :: schedule) order := by
  obtain ⟨hperm, ⟨L₁, htells, hturn⟩, hsees⟩ := h
  have hne (u : Nat) (hu : u ∈ order) : u ≠ t := fun hut => htus (hut ▸ hperm.subset hu)
  refine ⟨hperm, ⟨L₁, htells, hturn.congr (fun u hu => hgains.tasks_eq (hne u hu))
    fun u hu => hgains.owes_other (hne u hu)⟩, forall_prefix_cons (hc.sees hus _ order)
    fun s hs => ⟨fun u hu hholds => ?_, fun u hu hholds => ?_⟩⟩
  · obtain ⟨pre, post, rfl, htells⟩ := (hsees s hs).takes u hu hholds
    refine ⟨pre, post, rfl, ?_⟩
    rw [← effects_congr fun v hv => hgains.tasks_eq (hne v (List.mem_append_left _ hv))]
    exact htells
  · -- nobody takes a view in this turn
    obtain ⟨hholder, _⟩ := (hsees s hs).keeps u hu hholds
    exact (hus.goes t ht htus w hgains.before (hgains.takes u hholder).2).elim

/-- The first turn with which a member gets on. -/
theorem Timely.first {L₂ : Nat → List (Item κ ν)}
    (h : Timely m answers ts (us.erase t) holder' (c.turn t) L₂ schedule order)
    (hc : c.Settling m ts L holder) (hus : c.Awaits m ts us holder)
    (hgains : Gains m t c L (c.turn t) L' holder' w w' new) (ht : t ∈ us)
    (hL₂ : ((c.tasks m ts t).effect m.route L).2 = L₂) (hlocks : w.Locking → L₂ = L)
    (howes : c.Owes answers ts t ((c.tasks m ts t).effect m.route L).1) :
    Timely m answers ts us holder c L (t :: schedule) (t :: order) := by
  obtain ⟨hperm, ⟨L₁, htells, hturn⟩, hsees⟩ := h
  have hne (u : Nat) (hu : u ∈ order) : u ≠ t := fun hut =>
    hus.nodup.not_mem_erase (hut ▸ hperm.subset hu)
  refine ⟨(hperm.cons t).trans (List.perm_cons_erase ht).symm, ⟨L₁, htells, howes, ?_⟩,
    forall_prefix_cons (hc.sees hus _ _) fun s hs => ⟨fun u hu hholds => ?_, fun u hu hholds => ?_⟩⟩
  · exact hL₂ ▸ hturn.congr (fun u hu => hgains.tasks_eq (hne u hu))
      fun u hu => hgains.owes_other (hne u hu)
  · by_cases hut : u = t
    · -- what the member does first is to take the view, with which nothing changes
      subst hut
      obtain ⟨hholder, htells⟩ := (hsees s hs).keeps u hus.nodup.not_mem_erase hholds
      exact ⟨[], order, rfl, hlocks (hgains.takes u hholder).2 ▸ htells⟩
    · obtain ⟨pre, post, rfl, htells⟩ :=
        (hsees s hs).takes u ((List.mem_erase_of_ne hut).mpr hu) hholds
      refine ⟨t :: pre, post, rfl, ?_⟩
      unfold effects
      rw [hL₂, ← effects_congr fun v hv => hgains.tasks_eq (hne v (List.mem_append_left _ hv))]
      exact htells
  · -- the one who has a view after this turn was still to begin
    obtain ⟨hholder, _⟩ := (hsees s hs).keeps u (fun hmem => hu (List.mem_of_mem_erase hmem)) hholds
    exact (hu ((hgains.takes u hholder).1 ▸ ht)).elim

/-- With a turn with which a member gets on it has begun, and the others are where they were. -/
theorem Awaits.turn (h : c.Awaits m ts us holder)
    (hgains : Gains m t c L (c.turn t) L' holder' w w' new) {bs : List (Answer κ ν)}
    (hrest : (c.turn t).tasks m ts t = .rest bs) :
    (c.turn t).Awaits m ts (us.erase t) holder' := by
  have hothers {u : Nat} (hu : u ∈ us.erase t) : u ≠ t ∧ u ∈ us := h.nodup.mem_erase_iff.mp hu
  have hbegun {u : Nat} (hu : u ∉ us.erase t) (hut : u ≠ t) : u ∉ us :=
    fun hmem => hu ((List.mem_erase_of_ne hut).mpr hmem)
  refine ⟨h.nodup.erase t, fun u hu => h.subset (hothers hu).2, fun u hu => ?_,
    fun u hu hholder => ?_, fun u hu hus => ?_, fun u hu hus w₁ hw₁ => ?_⟩
  · rw [hgains.tasks_eq (hothers hu).1]
    exact h.single u (hothers hu).2
  · exact (hothers hu).1 (hgains.takes u hholder).1
  · by_cases hut : u = t
    · exact ⟨bs, hut ▸ hrest⟩
    · rw [hgains.tasks_eq hut]
      exact h.rest u hu (hbegun hus hut)
  · by_cases hut : u = t
    · obtain rfl := Option.some.inj (hgains.after.symm.trans (hut ▸ hw₁))
      exact hgains.goes
    · exact h.goes u hu (hbegun hus hut) w₁ (hgains.others u hut ▸ hw₁)

/-- Those who are to begin can go on one after another in the order of their first turns. -/
theorem Settling.timely (h : c.Settling m ts L holder) (hnodup : ts.Nodup)
    (hus : c.Awaits m ts us holder) (schedule : List Nat)
    (hdone : ∀ t ∈ ts, ∃ w, (c.run schedule).members[t]? = some w ∧ w.todo = [] ∧
      w.answers = answers t) :
    ∃ order, Timely m answers ts us holder c L schedule order := by
  induction schedule generalizing c L holder us with
  | nil => exact h.timely_nil hus hdone
  | cons t schedule ih =>
    rcases h.turn t with ⟨hturn, hsame, _⟩ | ⟨ht, holder', L₁, w, w', new, hturn, hgains⟩
    · have hawaits : (c.turn t).Awaits m ts us holder := by
        obtain ⟨hus, hsub, hsingle, hfree, hrest, hgoes⟩ := hus
        rw [← tasks_congr hsame] at hsingle hrest
        exact ⟨hus, hsub, hsingle, hfree, hrest, fun u hu => hsame u hu ▸ hgoes u hu⟩
      obtain ⟨order, htimely⟩ := ih hturn hawaits hdone
      exact ⟨order, htimely.idle h hus hsame⟩
    · obtain ⟨_, _, _, haccounts, _⟩ := hturn.accounts hnodup answers schedule hdone
      by_cases htus : t ∈ us
      · obtain ⟨bs, hbs, heffect, hagree⟩ :=
          (hgains.tasks_steps ht).single (hus.single t htus)
        obtain ⟨order, htimely⟩ := ih (hturn.congr hagree) (hus.turn hgains hbs) hdone
        refine ⟨t :: order, htimely.first h hus hgains htus rfl (fun hlocking => ?_) ?_⟩
        · obtain ⟨w₁, hw₁, hbrief, _⟩ := h.brief t ht
          obtain rfl := Option.some.inj (hgains.before.symm.trans hw₁)
          rw [tasks_eq ht hw₁, hbrief.task_locking hlocking]
          rfl
        · rw [heffect]
          exact hgains.owes bs (haccounts.rests t ht bs hbs)
      · obtain ⟨as, has⟩ := hus.rest t ht htus
        have hsteps := hgains.tasks_steps ht
        rw [has] at hsteps
        obtain ⟨bs, hbs, _, hagree⟩ := hsteps.single trivial
        have hawaits := hus.turn hgains hbs
        rw [List.erase_of_not_mem htus] at hawaits
        obtain ⟨order, htimely⟩ := ih (hturn.congr hagree) hawaits hdone
        exact ⟨order, htimely.later h hus hgains ht htus⟩

/-! ## What is shown -/

omit [DecidableEq κ] in
/-- Members `ts` have carried out all their orders. -/
def Done (c : Crew κ ν) (ts : List Nat) : Prop :=
  ∀ t ∈ ts, ∃ w, c.members[t]? = some w ∧ w.todo = []

omit [DecidableEq κ] in
/-- The answers that a member has had. -/
def answersOf (c : Crew κ ν) (t : Nat) : List (Answer κ ν) := c.members[t]?.elim [] (·.answers)

/--
An order in which members `ts` could have gone on one after another, each at once, instead of in a
schedule: with the answers that they have had, and with the items that there are in the end. Whoever
has a view on the way has a place in that order. In every shard the view shows the items of some
time in the order, and if nobody has more than one shard left to clear, it shows those of its place.
-/
structure Explains (c : Crew κ ν) (ts schedule order : List Nat) : Prop where
  perm : order.Perm ts
  answers : (c.finishAll order c.map).1 = order.map (c.run schedule).answersOf
  items : (c.finishAll order c.map).2.items.Perm (c.run schedule).map.items
  views : ∀ s u, s <+: schedule → (c.run s).Holds u → ∃ pre post, order = pre ++ u :: post ∧
    (∀ i < c.map.shards.size, ∃ k, ((c.run s).map.shardAt i).table.items.Perm
      ((c.finishAll (order.take k) c.map).2.shardAt i).table.items) ∧
    ((∀ t ∈ ts, ∀ w, c.members[t]? = some w → ¬ w.Sweeps c.map.shards.size) →
      (c.run s).map.items.Perm (c.finishAll pre c.map).2.items)

/-- What there is at any time in an order, whoever has come by then. -/
theorem Settling.finish_prefix (h : c.Settling m ts L none) (horder : order ⊆ ts)
    (hturn : InTurn m.route (c.tasks m ts) (c.Owes answers ts) m.shards.size order L L')
    {pre : List Nat} (hpre : pre <+: order) :
    (c.finishAll pre c.map).2.Fit false ∧ m.SameShape (c.finishAll pre c.map).2 ∧
      (c.finishAll pre c.map).2.Tells (effects m.route (c.tasks m ts) pre L) := by
  obtain ⟨post, rfl⟩ := hpre
  exact (h.finishAll_spec (fun t ht => horder (List.mem_append_left post ht)) h.shape h.fit h.tells
    hturn.upTo).2

/-- The items of a shard at some time in a schedule, and at some time in an order. -/
theorem Settling.finish_perm (h : c.Settling m ts L none) (horder : order ⊆ ts)
    (hturn : InTurn m.route (c.tasks m ts) (c.Owes answers ts) m.shards.size order L L')
    {pre : List Nat} (hpre : pre <+: order) {s : List Nat} {Lₛ : Nat → List (Item κ ν)}
    (htells : (c.run s).map.Tells Lₛ) {i : Nat} (hi : i < c.map.shards.size)
    (hL : effects m.route (c.tasks m ts) pre L i = Lₛ i) :
    ((c.run s).map.shardAt i).table.items.Perm
      ((c.finishAll pre c.map).2.shardAt i).table.items := by
  obtain ⟨_, _, hrun, _⟩ := h.run s
  obtain ⟨_, hshape, htells'⟩ := h.finish_prefix horder hturn hpre
  rw [h.shape.size_eq] at hi
  have hthen := htells'.perm (hshape.size_eq ▸ hi)
  rw [hL] at hthen
  exact (htells.perm (hrun.shape.size_eq ▸ hi)).trans hthen.symm

/-- Those who have gone on one after another have come to the answers and the items in the end. -/
theorem Settling.finish_ends {L₁ : Nat → List (Item κ ν)} (h : c.Settling m ts L none)
    (hend : (c.run schedule).Settling m ts L₁ none) (hperm : order.Perm ts)
    (htells : (c.run schedule).map.Tells L')
    (hturn : InTurn m.route (c.tasks m ts) (c.Owes answers ts) m.shards.size order L L') :
    (c.finishAll order c.map).1 = order.map answers ∧
      (c.finishAll order c.map).2.items.Perm (c.run schedule).map.items := by
  obtain ⟨hanswers, hfit, hshape, htells'⟩ := h.finishAll_spec (fun t ht => hperm.subset ht)
    h.shape h.fit h.tells hturn
  exact ⟨hanswers, htells'.items_perm hfit hend.fit
    (hend.shape.size_eq.trans hshape.size_eq.symm) htells⟩

/-- The order of first turns, where everyone shows in one shard at most. -/
theorem Settling.explains_timely {L₁ : Nat → List (Item κ ν)} (h : c.Settling m ts L none)
    (hend : (c.run schedule).Settling m ts L₁ none)
    (htimely : Timely m (c.run schedule).answersOf ts ts none c L schedule order) :
    c.Explains ts schedule order := by
  obtain ⟨hperm, ⟨L', htells, hturn⟩, hsees⟩ := htimely
  obtain ⟨hanswers, hitems⟩ := h.finish_ends hend hperm htells hturn
  refine ⟨hperm, hanswers, hitems, fun s u hs hu => ?_⟩
  obtain ⟨_, holder', hrun, _⟩ := h.run s
  obtain ⟨pre, post, rfl, htells⟩ :=
    (hsees s hs).takes u (hrun.among u (hrun.holder_eq hu)) hu
  have hpre : pre <+: pre ++ u :: post := List.prefix_append _ _
  obtain ⟨hfit, hshape, htells'⟩ := h.finish_prefix hperm.subset hturn hpre
  refine ⟨pre, post, rfl, fun i hi => ⟨pre.length, ?_⟩, fun _ => ?_⟩
  · rw [List.take_left]
    exact h.finish_perm hperm.subset hturn hpre htells hi rfl
  · exact htells.items_perm hrun.fit hfit (hshape.size_eq.trans hrun.shape.size_eq.symm) htells'

/-- An order that has in every shard what its tale has, where somebody shows in several. -/
theorem Settling.explains_told (h : c.Settling m ts L none)
    (hend : (c.run schedule).Settling m ts L' none) (hperm : order.Perm ts)
    (hturn : InTurn m.route (c.tasks m ts) (c.Owes (c.run schedule).answersOf ts) m.shards.size
      order L L') {tales : Nat → List (Option Nat)}
    (htales : ∀ j < m.shards.size,
      tales j = order.filterMap fun t => (c.tasks m ts t).mark m.route t j)
    (hunfolds : Unfolds m (c.run schedule).answersOf ts c L tales schedule)
    (hmany : ¬ ∀ t ∈ ts, (c.tasks m ts t).Single m.shards.size) : c.Explains ts schedule order := by
  obtain ⟨hanswers, hitems⟩ := h.finish_ends hend hperm hend.tells hturn
  refine ⟨hperm, hanswers, hitems, fun s u hs hu => ?_⟩
  obtain ⟨_, holder', hrun, _⟩ := h.run s
  have hmem : u ∈ order := hperm.mem_iff.mpr (hrun.among u (hrun.holder_eq hu))
  obtain ⟨pre, post, rfl⟩ := List.append_of_mem hmem
  obtain ⟨Lₛ, htells, hbegins⟩ := hunfolds s hs
  refine ⟨pre, post, rfl, fun i hi => ?_, fun hsweeps => (hmany fun t ht => ?_).elim⟩
  · have hi' : i < m.shards.size := h.shape.size_eq ▸ hi
    obtain ⟨tale, htale, hleads⟩ := hbegins i hi'
    rw [htales i hi'] at htale
    obtain ⟨k, hk⟩ := exists_effects htale hleads
    exact ⟨k, h.finish_perm hperm.subset hturn (List.take_prefix k _) htells hi hk⟩
  · obtain ⟨w, hw, _⟩ := h.brief t ht
    rw [tasks_eq ht hw, ← h.shape.size_eq]
    exact w.single_task (hsweeps t ht w hw)

/-- Members who are all done in the end could have gone on one after another. -/
theorem Settling.explains (h : c.Settling m ts L none) (hnodup : ts.Nodup)
    (hdone : (c.run schedule).Done ts) :
    (c.run schedule).map.Locks false ∧ ∃ order, c.Explains ts schedule order := by
  have hdone' (t : Nat) (ht : t ∈ ts) : ∃ w, (c.run schedule).members[t]? = some w ∧
      w.todo = [] ∧ w.answers = (c.run schedule).answersOf t := by
    obtain ⟨w, hw, htodo⟩ := hdone t ht
    exact ⟨w, hw, htodo, by unfold answersOf; rw [hw]; rfl⟩
  obtain ⟨L', tales, hend, haccounts, hunfolds⟩ := h.accounts hnodup _ schedule hdone'
  refine ⟨hend.fit.locks, ?_⟩
  by_cases hsingle : ∀ t ∈ ts, (c.tasks m ts t).Single m.shards.size
  · have hawaits : c.Awaits m ts ts none := ⟨hnodup, fun _ => id, hsingle, nofun,
      fun t ht hout => (hout ht).elim, fun t ht hout => (hout ht).elim⟩
    obtain ⟨order, htimely⟩ := h.timely hnodup hawaits schedule hdone'
    exact ⟨order, h.explains_timely hend htimely⟩
  · obtain ⟨order, hperm, hturn, htales⟩ := haccounts.inTurn
    exact ⟨order, h.explains_told hend hperm hturn htales hunfolds hsingle⟩

end Crew

end VersionedMap
