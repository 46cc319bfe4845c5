import Mathlib.Data.List.Permutation
import Mathlib.Data.List.TakeWhile
import VersionedMap.Proofs.WaitingViews

/-!
# What a view keeps out, and what follows it

While a member of a crew has a view of the map, all locks are held for it and no mutation gets on.
When it ends the view it releases each lock once. Then whoever has waited goes on, and it comes out
as if they had gone on one after another.

What a member has waited with is one mutation. To say what becomes of the mutations that have
waited, the orders of a crew are **pared**: whoever is at a mutation, or is to begin one, stops
after it, and the others stop before any. Of one that takes a view no more is left than that it ends
the view; what the view shows in between are the items of the map then, and the order in which the
members could have gone on says what these are.
-/

namespace VersionedMap

variable {κ ν : Type}

/-! ## Pared orders -/

instance (o : Order κ ν) : Decidable o.Reads :=
  match o with
  | .get _ | .contains _ | .move _ => .isTrue trivial
  | .deed _ | .drop => .isFalse id

/-- How a view ends with which nothing is done, by the orders that there are for it. -/
def Order.ending : List (Order κ ν) → Order κ ν
  | .deed .free :: _ => .deed .free
  | _ => .drop

theorem Order.ends_ending (todo : List (Order κ ν)) : (ending todo).Ends := by
  unfold ending
  split
  · exact .inr rfl
  · exact .inl rfl

/--
A member that stops after the mutation that it is at or is to begin, or else before any. If the
mutation is to take a view, the member ends that view next.
-/
def Member.pared (w : Member κ ν) : Member κ ν :=
  { w with
    todo :=
      match w.stage, w.todo with
      | .ready, .deed .lock :: rest => [.deed .lock, .ending rest]
      | .ready, .deed .wipe :: _ | .ready, .deed .free :: _ => []
      | .ready, .deed d :: _ => [.deed d]
      | .ready, todo => todo.takeWhile (·.Reads)
      | _, todo => todo.take 1 }

/-- Who is at a mutation, or is to begin one, is brief when pared. -/
theorem Member.Mutating.brief {w : Member κ ν} (hw : w.Mutating) (hbegun : w.Begun) {n : Nat}
    (hstage : w.stage.Within n) (hfreed : w.view.freed = true) : w.pared.Brief n := by
  have hlater (hready : w.stage ≠ .ready) (hpared : w.pared.todo = w.todo.take 1) :
      w.pared.Brief n := by
    obtain ⟨o, rest, htodo⟩ := List.exists_cons_of_ne_nil (hbegun hready)
    rw [htodo] at hpared
    exact .changes o hpared (fun h => (hready h).elim) hstage hfreed
  unfold Mutating at hw
  cases hs : w.stage with
  | growing i a | clearing i => exact hlater (by simp [hs]) (by unfold pared; rw [hs])
  | ready =>
    rw [hs] at hw
    obtain ⟨d, rest, htodo, hmut⟩ := hw
    by_cases hlock : d = .lock
    · subst hlock
      exact .locks _ (Order.ends_ending rest) (by unfold pared; rw [hs, htodo]) hs hfreed
    · refine .changes (.deed d) ?_ (fun _ => ⟨d, rfl, hmut, hlock⟩) hstage hfreed
      unfold pared
      rw [hs, htodo]
      cases d with
      | lock => exact (hlock rfl).elim
      | wipe | free => exact hmut.elim
      | set k v | swap k v | setAbsent k v | getOrSet k v | delete q | clear => rfl

/-- Who is at no mutation only reads when pared. -/
theorem Member.reader_pared {w : Member κ ν} (hw : ¬ w.Mutating) (hfreed : w.view.freed = true) :
    w.pared.Reader := by
  unfold Mutating at hw
  cases hs : w.stage with
  | growing i a | clearing i =>
    rw [hs] at hw
    exact (hw trivial).elim
  | ready =>
    rw [hs] at hw
    refine ⟨fun o ho => ?_, hs, hfreed⟩
    have hreads (todo : List (Order κ ν)) (h : o ∈ todo.takeWhile (·.Reads)) : o.Reads :=
      by simpa using List.mem_takeWhile_imp h
    unfold pared at ho
    rw [hs] at ho
    cases htodo : w.todo with
    | nil => simp [htodo] at ho
    | cons o' rest =>
      rw [htodo] at ho
      cases o' with
      | deed d =>
        cases d with
        | wipe | free => simp at ho
        | set k v | swap k v | setAbsent k v | getOrSet k v | delete q | clear | lock =>
          exact (hw ⟨_, rest, htodo, trivial⟩).elim
      | drop | get q | contains q | move r => exact hreads _ ho

/-- Orders behind those that a member has make no difference to its turn. -/
theorem Member.step_append [DecidableEq κ] {w : Member κ ν} (htodo : w.todo ≠ [])
    (rest : List (Order κ ν)) (m : Map κ ν) :
    ({ w with todo := w.todo ++ rest } : Member κ ν).step m = w.step m := by
  obtain ⟨o, todo, htodo⟩ := List.exists_cons_of_ne_nil htodo
  unfold step
  rw [htodo]
  rfl

theorem Member.take_append {w : Member κ ν} (htodo : w.todo ≠ []) (rest : List (Order κ ν))
    (p : Progress κ ν) : ({ w with todo := w.todo ++ rest } : Member κ ν).take p =
      { w.take p with todo := (w.take p).todo ++ rest } := by
  match p with
  | .waits | .grows _ _ | .clears _ => rfl
  | .over _ _ =>
    unfold take
    dsimp only
    rw [List.tail_append_of_ne_nil htodo]

namespace Crew

/-- A crew of which every member stops before it goes on to another mutation. -/
def pared (c : Crew κ ν) : Crew κ ν := ⟨c.map, c.members.map Member.pared⟩

/-- Members `ts` are those who are at a mutation, or are to begin one. -/
def Queue (c : Crew κ ν) (ts : List Nat) : Prop :=
  ts.Nodup ∧ ∀ t, t ∈ ts ↔ ∃ w, c.members[t]? = some w ∧ w.Mutating

variable {c c' : Crew κ ν} {ts : List Nat}

theorem getElem?_pared (c : Crew κ ν) (t : Nat) :
    c.pared.members[t]? = (c.members[t]?).map Member.pared := List.getElem?_map

/-- Where nobody has a view, a crew settles when pared. -/
theorem Kept.settling (h : c.Kept none) (hts : c.Queue ts) :
    c.pared.Settling c.map ts (fun i => (c.map.shardAt i).table.items) none := by
  have hfreed {t : Nat} {w : Member κ ν} (hw : c.members[t]? = some w) : w.view.freed = true := by
    simpa using h.views t w hw
  refine ⟨.refl _, h.fit, h.fit.tells_items, fun t ht => ?_, fun t ht w hw => ?_,
    fun t ht => by cases ht⟩
  · obtain ⟨w, hw, hmut⟩ := (hts.2 t).mp ht
    refine ⟨w.pared, by rw [getElem?_pared, hw]; rfl,
      hmut.brief (h.begun t w hw) (h.stages t w hw) (hfreed hw), ?_⟩
    show w.view.freed = false ↔ _
    simp [hfreed hw]
  · rw [getElem?_pared] at hw
    obtain ⟨w₀, hw₀, rfl⟩ := Option.map_eq_some_iff.mp hw
    exact Member.reader_pared (fun hmut => ht ((hts.2 t).mpr ⟨w₀, hw₀, hmut⟩)) (hfreed hw₀)

/-! ## Pared and not pared -/

variable [DecidableEq κ]

/--
Crew `c` has come as far as the pared crew `c'`. Members `ts` have the orders behind those that they
have in `c'`.
-/
structure Along (ts : List Nat) (c c' : Crew κ ν) : Prop where
  map_eq : c.map = c'.map
  length_eq : c.members.length = c'.members.length
  answers : ∀ t, c.answersOf t = c'.answersOf t
  views : ∀ t, c.Holds t ↔ c'.Holds t
  members : ∀ t ∈ ts, ∀ w, c'.members[t]? = some w →
    ∃ rest, c.members[t]? = some { w with todo := w.todo ++ rest }

/-- A turn of a member that has not yet come as far as in the pared crew. -/
theorem Along.turn (h : c.Along ts c') {t : Nat} (ht : t ∈ ts) {w : Member κ ν}
    (hw : c'.members[t]? = some w) (htodo : w.todo ≠ []) :
    (c.turn t).Along ts (c'.turn t) := by
  obtain ⟨rest, hw'⟩ := h.members t ht w hw
  have hstep := Member.step_append htodo rest c'.map
  have hthen (u : Nat) := getElem?_turn hw u
  have hthen' (u : Nat) := getElem?_turn hw' u
  rw [h.map_eq, hstep, Member.take_append htodo] at hthen'
  refine ⟨?_, ?_, fun u => ?_, fun u => ?_, fun u hu w₁ hw₁ => ?_⟩
  · rw [turn_some hw, turn_some hw', h.map_eq, hstep]
  · rw [length_members_turn, length_members_turn, h.length_eq]
  · unfold answersOf
    rw [hthen, hthen']
    by_cases hut : u = t
    · rw [if_pos hut, if_pos hut]
      rfl
    · rw [if_neg hut, if_neg hut]
      exact h.answers u
  · unfold Holds
    rw [hthen, hthen']
    by_cases hut : u = t
    · simp [hut]
    · rw [if_neg hut, if_neg hut]
      exact h.views u
  · rw [hthen] at hw₁
    rw [hthen']
    by_cases hut : u = t
    · rw [if_pos hut] at hw₁ ⊢
      obtain rfl := Option.some.inj hw₁
      exact ⟨rest, rfl⟩
    · rw [if_neg hut] at hw₁ ⊢
      exact h.members u hu w₁ hw₁

/--
In the turns of a schedule nobody goes further than in the pared crew. Whoever takes a view in them
is to end it next.
-/
structure Attends (c : Crew κ ν) (schedule : List Nat) : Prop where
  busy : ∀ s t, s ++ [t] <+: schedule →
    ∃ w, (c.pared.run s).members[t]? = some w ∧ w.todo ≠ []
  ends : ∀ t ∈ schedule, ∀ w, c.members[t]? = some w → w.pared.todo <+: w.todo

/-- As long as nobody goes further than in the pared crew, what goes on is what goes on there. -/
theorem Attends.along {schedule : List Nat} (h : c.Attends schedule) :
    (c.run schedule).Along schedule (c.pared.run schedule) := by
  have hstart : c.Along schedule c.pared := by
    refine ⟨rfl, (List.length_map _).symm, fun t => ?_, fun t => ?_, fun t ht w hw => ?_⟩
    · unfold answersOf
      rw [getElem?_pared]
      cases c.members[t]? <;> rfl
    · unfold Holds
      rw [getElem?_pared]
      cases c.members[t]? <;> simp [Member.pared]
    · rw [getElem?_pared] at hw
      obtain ⟨w₀, hw₀, rfl⟩ := Option.map_eq_some_iff.mp hw
      obtain ⟨rest, hrest⟩ := h.ends t ht w₀ hw₀
      exact ⟨rest, by rw [hw₀, hrest]; rfl⟩
  have hall (s : List Nat) (hs : s <+: schedule) :
      (c.run s).Along schedule (c.pared.run s) := by
    induction s using List.reverseRecOn with
    | nil => exact hstart
    | append_singleton s t ih =>
      obtain ⟨w, hw, htodo⟩ := h.busy s t hs
      rw [run_append, run_append]
      have ht : t ∈ schedule := hs.subset (List.mem_append_right _ List.mem_cons_self)
      exact (ih ((List.prefix_append s [t]).trans hs)).turn ht hw htodo
  exact hall schedule (List.prefix_refl _)

/-! ## One after another -/

/--
What becomes of those who wait, members `ts`, in a crew whose map nobody has a view of. With rounds
of turns enough they all carry out what they have waited with, and it comes out as if they did so
one after another, except that a view may show the shards as they are at different times. So it does
in the crew as it is, as long as nobody begins anything else.
-/
structure Resumes (c : Crew κ ν) (ts : List Nat) : Prop where
  completes : ∀ rounds : List (List Nat), (∀ r ∈ rounds, ∀ t ∈ ts, t ∈ r) →
    ts.length * (c.map.shards.size + 2) ≤ rounds.length → (c.pared.run rounds.flatten).Done ts
  serial : ∀ schedule, (c.pared.run schedule).Done ts →
    (c.pared.run schedule).map.Locks false ∧ ∃ order, c.pared.Explains ts schedule order
  same : ∀ schedule, c.Attends schedule → (c.run schedule).map = (c.pared.run schedule).map ∧
    (∀ t, (c.run schedule).answersOf t = (c.pared.run schedule).answersOf t) ∧
    ∀ t, (c.run schedule).Holds t ↔ (c.pared.run schedule).Holds t

/-- Where nobody has a view, those who wait go on. -/
theorem Kept.resumes (h : c.Kept none) (hts : c.Queue ts) : c.Resumes ts where
  completes rounds hall hmany :=
    (h.settling hts).run_rounds rounds hall (Nat.le_trans (c.pared.leftAll_le _ ts) hmany)
  serial _ hdone := (h.settling hts).explains hts.1 hdone
  same _ hattends :=
    have halong := hattends.along
    ⟨halong.map_eq, halong.answers, halong.views⟩

/-! ## Exclusion -/

/-- When member `u` ends its view, it releases each lock once, and those who wait go on. -/
structure Releases (c : Crew κ ν) (u : Nat) : Prop where
  /--
  Every lock of a bucket is held when it is released, and is not released again, which would be a
  fault of the bucket.
  -/
  buckets : sweepList? Bucket.giveLock? c.map.buckets c.map.shared
    = some ((c.turn u).map.buckets, (c.turn u).map.shared)
  resize : ∀ i < c.map.shards.size,
    (c.map.shardAt i).sharers = ((c.turn u).map.shardAt i).sharers + 1
  locks : (c.turn u).map.Locks false
  view : c.map.SameView (c.turn u).map
  free : ∀ t, ¬ (c.turn u).Holds t
  resumes : ∀ ts, (c.turn u).Queue ts → (c.turn u).Resumes ts

/-- While member `u` has a view of the map, it is the only one, and keeps the others out. -/
structure Guards (c : Crew κ ν) (u : Nat) : Prop where
  alone : ∀ t, c.Holds t → t = u
  locks : c.map.Locks true
  /-- Whoever is at a mutation has the turn for nothing. -/
  blocks : ∀ (t : Nat) (w : Member κ ν), c.members[t]? = some w → w.Mutating → c.turn t = c
  /-- As long as the member has the view, nothing changes but that it wipes the map. -/
  stands : ∀ schedule, (∀ s, s <+: schedule → (c.run s).Holds u) →
    ∃ done, c.Standstill u done (c.run schedule) ∧
      (.deed .wipe ∉ done → (c.run schedule).map.items = c.map.items) ∧
      (c.run schedule).map.capacity = c.map.capacity
  releases : ∀ (w : Member κ ν) (o : Order κ ν) (rest : List (Order κ ν)),
    c.members[u]? = some w → w.todo = o :: rest → o.Ends → c.Releases u

theorem Kept.releases {u : Nat} (h : c.Kept (some u)) {w : Member κ ν} {o : Order κ ν}
    {rest : List (Order κ ν)} (hw : c.members[u]? = some w) (htodo : w.todo = o :: rest)
    (ho : o.Ends) : c.Releases u := by
  obtain ⟨hmap, hkept, hview, _⟩ := h.turn_ends hw htodo ho
  refine ⟨hmap ▸ h.fit.unlock_each, fun i hi => ?_, hkept.fit.locks, hmap ▸ hview,
    fun t ht => ?_, fun ts hts => hkept.resumes hts⟩
  · have hi' : i < (c.turn u).map.shards.size := by
      rw [hmap, hview.size_eq]
      exact hi
    rw [(h.fit.shards i hi).sharers_eq, (hkept.fit.shards i hi').sharers_eq]
    rfl
  · exact absurd (hkept.holder_eq ht) (by simp)

theorem Kept.guards {u : Nat} (h : c.Kept (some u)) : c.Guards u where
  alone t ht := (Option.some.inj (h.holder_eq ht)).symm
  locks := h.fit.locks
  blocks t w hw hmut := h.turn_waits hw hmut
  stands schedule hu := by
    obtain ⟨_, done, hstands⟩ := h.run_standstill schedule hu
    refine ⟨done, hstands, fun hnone => (hstands.shows hnone).items_eq, ?_⟩
    by_cases hwiped : .deed .wipe ∈ done
    · exact (hstands.wipes hwiped).capacity_eq
    · exact (hstands.shows hwiped).capacity_eq
  releases w o rest hw htodo ho := h.releases hw htodo ho

omit [DecidableEq κ] in
/-- A crew that begins with these lists of orders, where nobody has a view. -/
def start (m : Map κ ν) (todos : List (List (Order κ ν))) : Crew κ ν :=
  ⟨m, todos.map fun todo => { todo }⟩

end Crew

end VersionedMap
