import VersionedMap.Proofs.ChronicleReplies
import VersionedMap.Proofs.Crew
import VersionedMap.Proofs.Locks

/-!
# Views among the members of a crew

However the turns come, at most one member of a crew has a view of the map that it has not freed.
While a member has one, all locks are held; the others can look, but whoever comes to a mutation
waits, and nothing shows of what they do. The map changes only as the member with the view wipes it,
until it ends the view.
-/

namespace VersionedMap

variable {κ ν α : Type}

/-! ## Who waits -/

/-- A deed that a view makes wait. -/
def Deed.Mutates : Deed κ ν → Prop
  | .wipe | .free => False
  | _ => True

/-- A member that is to begin a mutation, or is at one. -/
def Member.Mutating (w : Member κ ν) : Prop :=
  match w.stage with
  | .ready => ∃ d rest, w.todo = .deed d :: rest ∧ d.Mutates
  | .growing _ _ | .clearing _ => True

/-- An order to end the view that there may be. -/
def Order.Ends (o : Order κ ν) : Prop := o = .drop ∨ o = .deed .free

/-- The shard that is next, if one is, is there. -/
def Stage.Within (n : Nat) : Stage κ ν → Prop
  | .ready => True
  | .growing i _ | .clearing i => i < n

/-- A member that has begun with an order has that order still to do. -/
def Member.Begun (w : Member κ ν) : Prop := w.stage ≠ .ready → w.todo ≠ []

variable [DecidableEq κ] {m m' : Map κ ν}

theorem Member.Begun.step {w : Member κ ν} (h : w.Begun) (m : Map κ ν) :
    (w.take (w.step m).1).Begun := by
  have htake (htodo : w.todo ≠ []) (p : Progress κ ν) : (w.take p).Begun := by
    match p with
    | .waits => exact h
    | .grows _ _ | .clears _ => exact fun _ => htodo
    | .over _ _ => exact fun hready => (hready rfl).elim
  by_cases htodo : w.todo = []
  · have hready : w.stage = .ready := by
      by_contra hstage
      exact h hstage htodo
    have hwaits : w.step m = (.waits, m) := by
      unfold Member.step
      rw [hready, htodo]
    rw [hwaits]
    exact h
  · exact htake htodo _

/-- Under a view a mutation that is to begin waits. -/
theorem Deed.start_waits {d : Deed κ ν} (h : m.Fit true) (hd : d.Mutates) (v : View) :
    d.start v m = (.waits, m) := by
  cases d with
  | set k w | swap k w | setAbsent k w | getOrSet k w | delete q =>
    unfold start Map.startChange
    dsimp only
    rw [h.change_held]
  | clear =>
    unfold start Map.clearNext
    dsimp only
    rw [h.clearOne_held h.pos]
  | lock =>
    unfold start
    dsimp only
    rw [h.lock_held]
  | wipe | free => exact hd.elim

/-- Under a view whoever is at a mutation waits. -/
theorem Member.step_waits {w : Member κ ν} (h : m.Fit true) (hstage : w.stage.Within m.shards.size)
    (hw : w.Mutating) : w.step m = (.waits, m) := by
  unfold Mutating at hw
  unfold step
  cases hs : w.stage with
  | ready =>
    rw [hs] at hw
    obtain ⟨d, rest, htodo, hd⟩ := hw
    dsimp only
    rw [htodo]
    exact d.start_waits h hd w.view
  | growing i a =>
    rw [hs] at hstage
    dsimp only
    unfold Map.finishGrowth
    rw [h.grow_held hstage]
  | clearing i =>
    rw [hs] at hstage
    dsimp only
    unfold Map.clearNext
    rw [h.clearOne_held hstage]

/-- An order to end the view ends it, and releases all locks. -/
theorem Order.start_ends {o : Order κ ν} (ho : o.Ends) {v : View} (hlive : v.freed = false)
    (m : Map κ ν) : o.start v m = (.over .nothing { freed := true }, m.unlock) := by
  rcases ho with rfl | rfl
  · dsimp only [start, View.close]
    rw [hlive]
    rfl
  · dsimp only [start, Deed.start, Deed.run, View.free, View.check]
    rw [hlive]
    rfl

/-- With a view that has been freed, an order to end or to wipe it does nothing. -/
theorem Order.start_freed {o : Order κ ν} (ho : o.Ends ∨ o = .deed .wipe) {v : View}
    (hfreed : v.freed = true) (m : Map κ ν) : ∃ a, o.start v m = (.over a v, m) := by
  obtain rfl : v = { freed := true } := congrArg View.mk hfreed
  rcases ho with (rfl | rfl) | rfl
  · exact ⟨.nothing, rfl⟩
  · exact ⟨.refused .viewFreed, rfl⟩
  · exact ⟨.refused .viewFreed, rfl⟩

/-- Whoever has the view ends it in the turn of an order to do so. -/
theorem Member.step_ends {w : Member κ ν} {o : Order κ ν} {rest : List (Order κ ν)}
    (hlive : w.view.freed = false) (hready : w.stage = .ready) (htodo : w.todo = o :: rest)
    (ho : o.Ends) (m : Map κ ν) : w.step m = (.over .nothing { freed := true }, m.unlock) := by
  unfold step
  rw [hready, htodo]
  exact o.start_ends ho hlive m

/-! ## Turns as the chronicles tell them -/

namespace Map

variable {L : Nat → List (Item κ ν)}

omit [DecidableEq κ] in
/-- The turn of a change, where nobody has a view. -/
theorem Fit.tells_startChange (h : m.Fit false) (ht : m.Tells L) {hash : κ → UInt64}
    (hm : m.hash = hash) (μ : Motion κ ν hash) (v : View) :
    ∃ p m', m.startChange v μ.key μ.act μ.answer = (p, m') ∧ m'.Fit false ∧ m.SameShape m' ∧
      m'.Tells (rewrite L (m.route μ.key).shard (μ.tell m.route L).2) ∧
      (p = .over (μ.answer (μ.tell m.route L).1.1) v ∨
        p = .grows (m.route μ.key).shard (μ.answer (μ.tell m.route L).1.1)) := by
  obtain ⟨m', hrun, hfit, hsizes, htells⟩ := h.tells_change ht hm μ
  unfold startChange
  rw [hrun]
  generalize (decide ((μ.tell m.route L).1.2 = .inserted) && _) = due
  cases due with
  | true => exact ⟨_, m', rfl, hfit, hsizes.toSameShape, htells, .inr rfl⟩
  | false => exact ⟨_, m', rfl, hfit, hsizes.toSameShape, htells, .inl rfl⟩

omit [DecidableEq κ] in
/-- The turn of growth, where nobody has a view. -/
theorem Fit.tells_finishGrowth (h : m.Fit false) (ht : m.Tells L) {i : Nat}
    (hi : i < m.shards.size) (v : View) (a : Answer κ ν) :
    ∃ m', m.finishGrowth v i a = (.over a v, m') ∧ m'.Fit false ∧ m.SameShape m' ∧ m'.Tells L := by
  obtain ⟨m', hrun, hfit, hshape, htells, _⟩ := h.tells_grow ht hi
  unfold finishGrowth
  rw [hrun]
  exact ⟨m', rfl, hfit, hshape, htells⟩

omit [DecidableEq κ] in
/-- The turn that clears a shard, where nobody has a view. -/
theorem Fit.tells_clearNext (h : m.Fit false) (ht : m.Tells L) {i : Nat}
    (hi : i < m.shards.size) (v : View) :
    ∃ m', m.clearNext v i =
        (if i + 1 < m.shards.size then .clears (i + 1) else .over .nothing v, m') ∧
      m'.Fit false ∧ m.SameShape m' ∧ m'.Tells (rewrite L i []) := by
  obtain ⟨m', hrun, hfit, hshape, htells, _⟩ := h.tells_clearOne ht hi
  unfold clearNext
  rw [hrun]
  refine ⟨m', ?_, hfit, hshape, htells⟩
  dsimp only
  rw [hshape.size_eq]

end Map

/-- The first turn of a deed that makes a motion. -/
theorem Deed.start_motion {d : Deed κ ν} {hash : κ → UInt64} {μ : Motion κ ν hash}
    (h : d.motion? hash = some μ) (hm : m.hash = hash) (v : View) :
    d.start v m = m.startChange v μ.key μ.act μ.answer := by
  subst hm
  cases d with
  | set k w | swap k w | setAbsent k w | getOrSet k w | delete q =>
    obtain rfl := Option.some.inj h
    rfl
  | clear | lock | wipe | free => simp [motion?] at h

/-! ## What a turn comes to -/

/--
What a turn of a member comes to, in a map with a view of it or without: progress, the map then, and
whether there is a view of it then.
-/
inductive Member.Turns (w : Member κ ν) (held : Bool) (m : Map κ ν) :
    Progress κ ν → Map κ ν → Bool → Prop
  | looks {p : Progress κ ν} {m' : Map κ ν} (fit : m'.Fit held) (view : m.SameView m')
      (progress : p = .waits ∨ ∃ o rest a, w.todo = o :: rest ∧
        (w.view.freed = false → o ≠ .deed .wipe) ∧ p = .over a w.view) : Turns w held m p m' held
  | mutates {p : Progress κ ν} {m' : Map κ ν} (free : held = false) (fit : m'.Fit false)
      (shape : m.SameShape m')
      (progress : (∃ a, p = .over a w.view) ∨ (∃ i < m.shards.size, ∃ a, p = .grows i a) ∨
        ∃ i < m.shards.size, p = .clears i) : Turns w held m p m' false
  | locks {m' : Map κ ν} (free : held = false) (fit : m'.Fit true) (view : m.SameView m')
      (lock : m.lock = (.done {}, m')) : Turns w held m (.over .nothing {}) m' true
  | wipes {m' : Map κ ν} {rest : List (Order κ ν)} (live : w.view.freed = false)
      (todo : w.todo = .deed .wipe :: rest) (fit : m'.Fit true) (wiped : m.Wiped m') :
      Turns w held m (.over .nothing w.view) m' true
  | frees {o : Order κ ν} {rest : List (Order κ ν)} (live : w.view.freed = false)
      (todo : w.todo = o :: rest) (ends : o.Ends) (fit : m.unlock.Fit false)
      (view : m.SameView m.unlock) :
      Turns w held m (.over .nothing { freed := true }) m.unlock false

omit [DecidableEq κ] in
/-- A move of a reader idles. -/
theorem Move.idles_run {held : Bool} (h : m.Fit held) (r : Move) : m.Idles (r.run m) := by
  unfold run
  split
  · rename_i hr
    cases r with
    | enter i => exact Map.idles_enter hr ⟨held, h⟩
    | leave i => exact Map.idles_leave hr ⟨held, h⟩
    | acquire p => exact Map.idles_acquire hr ⟨held, h⟩
    | release p n => exact Map.idles_release hr ⟨held, h⟩ n
  · exact .refl m

/-- An order of a reader. -/
def Order.Reads : Order κ ν → Prop
  | .get _ | .contains _ | .move _ => True
  | .deed _ | .drop => False

/-- The turn of a reader's order idles, and the reader is over with it or has to wait. -/
theorem Order.start_reads {held : Bool} {o : Order κ ν} (h : m.Fit held) (ho : o.Reads)
    (v : View) : m.Idles (o.start v m).2 ∧
      ((o.start v m).1 = .waits ∨ ∃ a, (o.start v m).1 = .over a v) := by
  cases o with
  | deed d | drop => exact ho.elim
  | get q =>
    have hidles := Map.idles_look ⟨held, h⟩ q fun e : κ × ν => e.2
    have hget : m.get q = m.read q fun e m => (e.2, m) := rfl
    unfold start
    dsimp only
    rw [hget]
    generalize m.read q (fun e m => (e.2, m)) = out at *
    obtain ⟨a | _, m'⟩ := out
    · exact ⟨hidles, .inr ⟨_, rfl⟩⟩
    · exact ⟨hidles, .inl rfl⟩
  | contains q =>
    have hidles := Map.idles_look ⟨held, h⟩ q fun _ : κ × ν => ()
    unfold start Map.contains
    dsimp only
    generalize m.read q (fun _ m => ((), m)) = out at *
    obtain ⟨a | _, m'⟩ := out
    · exact ⟨hidles, .inr ⟨_, rfl⟩⟩
    · exact ⟨hidles, .inl rfl⟩
  | move r => exact ⟨r.idles_run h, .inr ⟨_, rfl⟩⟩

namespace Member

variable {w : Member κ ν} {held : Bool}

omit [DecidableEq κ] in
theorem Turns.waits (h : m.Fit held) (hidles : m.Idles m') : w.Turns held m .waits m' held :=
  .looks (hidles.fit held h) hidles.toSameView (.inl rfl)

omit [DecidableEq κ] in
theorem Turns.over {o : Order κ ν} {rest : List (Order κ ν)} (h : m.Fit held)
    (hidles : m.Idles m') (htodo : w.todo = o :: rest)
    (ho : w.view.freed = false → o ≠ .deed .wipe) (a : Answer κ ν) :
    w.Turns held m (.over a w.view) m' held :=
  .looks (hidles.fit held h) hidles.toSameView (.inr ⟨o, rest, a, htodo, ho, rfl⟩)

/-- The first turn of a mutation, with a view of the map or without. -/
theorem turns_start {d : Deed κ ν} (h : m.Fit held) (hd : d.Mutates) :
    ∃ held', w.Turns held m (d.start w.view m).1 (d.start w.view m).2 held' := by
  cases held with
  | true =>
    rw [d.start_waits h hd]
    exact ⟨true, .waits h (.refl m)⟩
  | false =>
    cases hμ : d.motion? m.hash with
    | some μ =>
      obtain ⟨p, m', hrun, hfit, hshape, _, hp⟩ := h.tells_startChange h.tells_items rfl μ w.view
      rw [Deed.start_motion hμ rfl, hrun]
      refine ⟨false, .mutates rfl hfit hshape ?_⟩
      rcases hp with rfl | rfl
      · exact .inl ⟨_, rfl⟩
      · exact .inr (.inl ⟨_, h.route_lt _, _, rfl⟩)
    | none =>
      cases d with
      | set k w | swap k w | setAbsent k w | getOrSet k w | delete q => simp [Deed.motion?] at hμ
      | wipe | free => exact hd.elim
      | clear =>
        obtain ⟨m', hrun, hfit, hshape, _⟩ := h.tells_clearNext h.tells_items h.pos w.view
        unfold Deed.start
        dsimp only
        rw [hrun]
        refine ⟨false, .mutates rfl hfit hshape ?_⟩
        dsimp only
        split
        · rename_i hlt
          exact .inr (.inr ⟨1, hlt, rfl⟩)
        · exact .inl ⟨_, rfl⟩
      | lock =>
        obtain ⟨m', hrun, hfit, _, hview⟩ := h.lock
        unfold Deed.start
        dsimp only
        rw [hrun]
        exact ⟨true, .locks rfl hfit hview hrun⟩

/-- The first turn of an order that is no mutation. -/
theorem turns_order {o : Order κ ν} {rest : List (Order κ ν)} (h : m.Fit held)
    (hlive : w.view.freed = false → held = true) (htodo : w.todo = o :: rest)
    (ho : ∀ d, o = .deed d → ¬ d.Mutates) :
    ∃ held', w.Turns held m (o.start w.view m).1 (o.start w.view m).2 held' := by
  by_cases hreads : o.Reads
  · obtain ⟨hidles, hwaits | ⟨a, hover⟩⟩ := Order.start_reads h hreads w.view
    · rw [hwaits]
      exact ⟨held, .waits h hidles⟩
    · rw [hover]
      refine ⟨held, .over h hidles htodo (fun _ hwipe => ?_) a⟩
      rw [hwipe] at hreads
      exact hreads
  have hkind : o.Ends ∨ o = .deed .wipe := by
    cases o with
    | drop => exact .inl (.inl rfl)
    | get q | contains q | move r => exact (hreads trivial).elim
    | deed d =>
      cases d with
      | wipe => exact .inr rfl
      | free => exact .inl (.inr rfl)
      | set k v | swap k v | setAbsent k v | getOrSet k v | delete q | clear | lock =>
        exact (ho _ rfl trivial).elim
  cases hv : w.view.freed with
  | true =>
    obtain ⟨a, hover⟩ := o.start_freed hkind hv m
    rw [hover]
    exact ⟨held, .over h (.refl m) htodo (by simp [hv]) a⟩
  | false =>
    obtain rfl := hlive hv
    rcases hkind with hends | rfl
    · obtain ⟨hfit, _, hview⟩ := h.unlock
      rw [o.start_ends hends hv m]
      exact ⟨false, .frees hv htodo hends hfit hview⟩
    · obtain ⟨m', hrun, hfit, _, hwiped⟩ := h.wipe hv
      dsimp only [Order.start, Deed.start, Deed.run]
      rw [hrun]
      exact ⟨true, .wipes hv htodo hfit hwiped⟩

/-- What any turn comes to. -/
theorem step_turns (h : m.Fit held)
    (hlive : w.view.freed = false → held = true) (hstage : w.stage.Within m.shards.size) :
    ∃ held', w.Turns held m (w.step m).1 (w.step m).2 held' := by
  unfold step
  cases hs : w.stage with
  | ready =>
    dsimp only
    cases htodo : w.todo with
    | nil => exact ⟨held, .waits h (.refl m)⟩
    | cons o rest =>
      dsimp only
      by_cases hd : ∃ d, o = .deed d ∧ d.Mutates
      · obtain ⟨d, rfl, hd⟩ := hd
        exact turns_start h hd
      · exact turns_order h hlive htodo fun d hod hmut => hd ⟨d, hod, hmut⟩
  | growing i a =>
    rw [hs] at hstage
    dsimp only
    cases held with
    | true =>
      unfold Map.finishGrowth
      rw [h.grow_held hstage]
      exact ⟨true, .waits h (.refl m)⟩
    | false =>
      obtain ⟨m', hrun, hfit, hshape, _⟩ := h.tells_finishGrowth h.tells_items hstage w.view a
      rw [hrun]
      exact ⟨false, .mutates rfl hfit hshape (.inl ⟨a, rfl⟩)⟩
  | clearing i =>
    rw [hs] at hstage
    dsimp only
    cases held with
    | true =>
      unfold Map.clearNext
      rw [h.clearOne_held hstage]
      exact ⟨true, .waits h (.refl m)⟩
    | false =>
      obtain ⟨m', hrun, hfit, hshape, _⟩ := h.tells_clearNext h.tells_items hstage w.view
      rw [hrun]
      refine ⟨false, .mutates rfl hfit hshape ?_⟩
      dsimp only
      split
      · rename_i hlt
        exact .inr (.inr ⟨i + 1, hlt, rfl⟩)
      · exact .inl ⟨_, rfl⟩

end Member

/-! ## Who has the view -/

namespace Crew

variable {c : Crew κ ν} {holder : Option Nat} {t : Nat}

omit [DecidableEq κ] in
/-- A crew of which one member has the view of the map, if there is one. -/
structure Kept (c : Crew κ ν) (holder : Option Nat) : Prop where
  fit : c.map.Fit holder.isSome
  views : ∀ (t : Nat) (w : Member κ ν), c.members[t]? = some w →
    (w.view.freed = false ↔ holder = some t)
  there : ∀ t, holder = some t → t < c.members.length
  stages : ∀ (t : Nat) (w : Member κ ν), c.members[t]? = some w →
    w.stage.Within c.map.shards.size
  ready : ∀ (t : Nat) (w : Member κ ν), c.members[t]? = some w → w.view.freed = false →
    w.stage = .ready
  begun : ∀ (t : Nat) (w : Member κ ν), c.members[t]? = some w → w.Begun

omit [DecidableEq κ] in
theorem Kept.live (h : c.Kept holder) {w : Member κ ν} (hw : c.members[t]? = some w)
    (hlive : w.view.freed = false) : holder = some t := (h.views t w hw).mp hlive

omit [DecidableEq κ] in
/-- With another map, and another member in the place of one. -/
theorem Kept.set (h : c.Kept holder) {m' : Map κ ν} {w' : Member κ ν} {holder' : Option Nat}
    (ht : t < c.members.length) (hfit : m'.Fit holder'.isSome) (hshape : c.map.SameShape m')
    (hview : w'.view.freed = false ↔ holder' = some t)
    (hothers : ∀ u, u ≠ t → (holder' = some u ↔ holder = some u))
    (hstage : w'.stage.Within c.map.shards.size)
    (hready : w'.view.freed = false → w'.stage = .ready) (hbegun : w'.Begun) :
    (⟨m', c.members.set t w'⟩ : Crew κ ν).Kept holder' := by
  have hmember (u : Nat) (w : Member κ ν) (hw : (c.members.set t w')[u]? = some w) :
      (u = t ∧ w = w') ∨ (u ≠ t ∧ c.members[u]? = some w) := by
    by_cases hut : u = t
    · rw [hut, List.getElem?_set_self ht] at hw
      exact .inl ⟨hut, (Option.some.inj hw).symm⟩
    · rw [List.getElem?_set_ne (Ne.symm hut)] at hw
      exact .inr ⟨hut, hw⟩
  refine ⟨hfit, fun u w hw => ?_, fun u hu => ?_, fun u w hw => ?_, fun u w hw => ?_,
    fun u w hw => ?_⟩
  · rcases hmember u w hw with ⟨rfl, rfl⟩ | ⟨hut, hw⟩
    · exact hview
    · rw [h.views u w hw, hothers u hut]
  · rw [List.length_set]
    by_cases hut : u = t
    · exact hut ▸ ht
    · exact h.there u ((hothers u hut).mp hu)
  · show w.stage.Within m'.shards.size
    rw [hshape.size_eq]
    rcases hmember u w hw with ⟨_, rfl⟩ | ⟨_, hw⟩
    · exact hstage
    · exact h.stages u w hw
  · rcases hmember u w hw with ⟨_, rfl⟩ | ⟨_, hw⟩
    · exact hready
    · exact h.ready u w hw
  · rcases hmember u w hw with ⟨_, rfl⟩ | ⟨_, hw⟩
    · exact hbegun
    · exact h.begun u w hw

/-- A turn of a member, for what it comes to. -/
theorem Kept.turns (h : c.Kept holder) {w : Member κ ν} (hw : c.members[t]? = some w) :
    ∃ held', w.Turns holder.isSome c.map (w.step c.map).1 (w.step c.map).2 held' := by
  refine Member.step_turns h.fit (fun hlive => ?_) (h.stages t w hw)
  rw [h.live hw hlive]
  rfl

/-- After any turn there is one view at most. -/
theorem Kept.turn (h : c.Kept holder) (t : Nat) : ∃ holder', (c.turn t).Kept holder' := by
  cases hw : c.members[t]? with
  | none =>
    rw [turn_none hw]
    exact ⟨holder, h⟩
  | some w =>
    obtain ⟨ht, _⟩ := List.getElem?_eq_some_iff.mp hw
    have hstage := h.stages t w hw
    have hready := h.ready t w hw
    have hview := h.views t w hw
    have hbegun := (h.begun t w hw).step c.map
    obtain ⟨held', hturns⟩ := h.turns hw
    rw [turn_some hw]
    generalize w.step c.map = out at *
    obtain ⟨p, m'⟩ := out
    dsimp only at hturns ⊢
    cases hturns with
    | looks fit view progress =>
      refine ⟨holder, h.set ht fit view.toSameShape ?_ (fun _ _ => .rfl) ?_ ?_ hbegun⟩
      all_goals rcases progress with rfl | ⟨_, _, a, _, _, rfl⟩
      · exact hview
      · exact hview
      · exact hstage
      · trivial
      · exact hready
      · exact fun _ => rfl
    | mutates free fit shape progress =>
      obtain rfl : holder = none :=
        Option.isNone_iff_eq_none.mp (Option.isSome_eq_false_iff.mp free)
      have hfreed : w.view.freed ≠ false := fun hlive => by simpa using hview.mp hlive
      refine ⟨none, h.set ht fit shape ?_ (fun _ _ => .rfl) ?_ ?_ hbegun⟩
      all_goals rcases progress with ⟨a, rfl⟩ | ⟨i, hi, a, rfl⟩ | ⟨i, hi, rfl⟩
      · exact hview
      · exact hview
      · exact hview
      · trivial
      · exact hi
      · exact hi
      · exact fun _ => rfl
      · exact fun hlive => (hfreed hlive).elim
      · exact fun hlive => (hfreed hlive).elim
    | locks free fit view lock =>
      obtain rfl : holder = none :=
        Option.isNone_iff_eq_none.mp (Option.isSome_eq_false_iff.mp free)
      refine ⟨some t, h.set ht fit view.toSameShape (by simp [Member.take]) (fun u hu => ?_) trivial
        (fun _ => rfl) hbegun⟩
      simp [Ne.symm hu]
    | wipes live todo fit wiped =>
      obtain rfl := hview.mp live
      exact ⟨some t, h.set ht fit wiped.toSameShape hview (fun _ _ => .rfl) trivial (fun _ => rfl)
        hbegun⟩
    | frees live todo ends fit view =>
      obtain rfl := hview.mp live
      refine ⟨none, h.set ht fit view.toSameShape (by simp [Member.take]) (fun u hu => ?_) trivial
        (fun _ => rfl) hbegun⟩
      simp [Ne.symm hu]

theorem Kept.run (h : c.Kept holder) (schedule : List Nat) :
    ∃ holder', (c.run schedule).Kept holder' :=
  run_keeps (P := fun c => ∃ holder, c.Kept holder) (fun _ t ⟨_, h⟩ => h.turn t) ⟨holder, h⟩
    schedule

/-! ## While a member has the view -/

omit [DecidableEq κ] in
/-- A member has a view that it has not freed. -/
def Holds (c : Crew κ ν) (u : Nat) : Prop :=
  ∃ w, c.members[u]? = some w ∧ w.view.freed = false

omit [DecidableEq κ] in
theorem Kept.holder_eq {u : Nat} (h : c.Kept holder) (hu : c.Holds u) : holder = some u :=
  hu.elim fun _ ⟨hw, hlive⟩ => h.live hw hlive

/-- While a member has the view, whoever is at a mutation has the turn for nothing. -/
theorem Kept.turn_waits {u : Nat} (h : c.Kept (some u)) {w : Member κ ν}
    (hw : c.members[t]? = some w) (hmut : w.Mutating) : c.turn t = c :=
  Crew.turn_waits hw (w.step_waits h.fit (h.stages t w hw) hmut)

/-- While a member has the view, whoever is at a mutation stays where it is. -/
theorem Kept.stays_turn {u x : Nat} (h : c.Kept (some u)) {w : Member κ ν}
    (hw : c.members[x]? = some w) (hmut : w.Mutating) (t : Nat) :
    (c.turn t).members[x]? = some w := by
  by_cases hxt : x = t
  · rw [← hxt, h.turn_waits hw hmut]
    exact hw
  cases ht : c.members[t]? with
  | none =>
    rw [turn_none ht]
    exact hw
  | some w' =>
    rw [getElem?_turn ht, if_neg hxt]
    exact hw

/-- In the turn of a member the orders go that it has carried out, and no others. -/
theorem carries_turn {u : Nat} {w : Member κ ν} (hw : c.members[t]? = some w)
    {done : List (Order κ ν)} (hother : t ≠ u → done = [])
    (hdone : t = u → w.todo = done ++ (w.take (w.step c.map).1).todo) {w₁ : Member κ ν}
    (hw₁ : c.members[u]? = some w₁) :
    ∃ w', (c.turn t).members[u]? = some w' ∧ w₁.todo = done ++ w'.todo := by
  rw [getElem?_turn hw]
  by_cases hut : u = t
  · subst hut
    obtain rfl := Option.some.inj (hw.symm.trans hw₁)
    exact ⟨_, if_pos rfl, hdone rfl⟩
  · rw [if_neg hut, hother (Ne.symm hut)]
    exact ⟨w₁, hw₁, rfl⟩

/--
What goes on while member `u` has the view: the member carries out some of its orders, nothing shows
but that it wipes the map, and whoever is at a mutation stays there.
-/
structure Standstill (c : Crew κ ν) (u : Nat) (done : List (Order κ ν)) (c' : Crew κ ν) :
    Prop where
  carries : ∀ w, c.members[u]? = some w →
    ∃ w', c'.members[u]? = some w' ∧ w.todo = done ++ w'.todo
  shows : .deed .wipe ∉ done → c.map.SameView c'.map
  wipes : .deed .wipe ∈ done → c.map.Wiped c'.map
  waits : ∀ (t : Nat) (w : Member κ ν), c.members[t]? = some w → w.Mutating →
    c'.members[t]? = some w

omit [DecidableEq κ] in
theorem Standstill.refl (c : Crew κ ν) (u : Nat) : c.Standstill u [] c :=
  ⟨fun w hw => ⟨w, hw, rfl⟩, fun _ => .refl c.map, fun h => by simp at h, fun _ _ hw _ => hw⟩

omit [DecidableEq κ] in
theorem Standstill.trans {u : Nat} {done done' : List (Order κ ν)} {c' c'' : Crew κ ν}
    (h : c.Standstill u done c') (h' : c'.Standstill u done' c'') :
    c.Standstill u (done ++ done') c'' where
  carries w hw := by
    obtain ⟨w', hw', htodo⟩ := h.carries w hw
    obtain ⟨w'', hw'', htodo'⟩ := h'.carries w' hw'
    exact ⟨w'', hw'', by rw [htodo, htodo', List.append_assoc]⟩
  shows hnone := by
    rw [List.mem_append, not_or] at hnone
    exact (h.shows hnone.1).trans (h'.shows hnone.2)
  wipes hwiped := by
    by_cases hnow : .deed .wipe ∈ done <;> by_cases hlater : .deed .wipe ∈ done'
    · exact (h.wipes hnow).trans (h'.wipes hlater)
    · exact (h.wipes hnow).sameView (h'.shows hlater)
    · exact .of_sameView (h.shows hnow) (h'.wipes hlater)
    · exact ((List.mem_append.mp hwiped).elim hnow hlater).elim
  waits t w hw hmut := h'.waits t w (h.waits t w hw hmut) hmut

/-- A turn while a member has the view, and still has it then. -/
theorem Kept.turn_standstill {u : Nat} (h : c.Kept (some u)) (hu : (c.turn t).Holds u) :
    (c.turn t).Kept (some u) ∧ ∃ done, c.Standstill u done (c.turn t) := by
  have hkept : (c.turn t).Kept (some u) := by
    obtain ⟨holder', hkept⟩ := h.turn t
    exact hkept.holder_eq hu ▸ hkept
  refine ⟨hkept, ?_⟩
  cases hw : c.members[t]? with
  | none =>
    rw [turn_none hw]
    exact ⟨[], .refl c u⟩
  | some w =>
    have hwaits (x : Nat) (w₁ : Member κ ν) (hw₁ : c.members[x]? = some w₁) (hmut : w₁.Mutating) :
        (c.turn t).members[x]? = some w₁ := h.stays_turn hw₁ hmut t
    have hcarries {done : List (Order κ ν)} (hother : t ≠ u → done = [])
        (hdone : t = u → w.todo = done ++ (w.take (w.step c.map).1).todo) (w₁ : Member κ ν)
        (hw₁ : c.members[u]? = some w₁) := carries_turn hw hother hdone hw₁
    have hmap : (c.turn t).map = (w.step c.map).2 := by rw [turn_some hw]
    have htaken : (c.turn t).members[t]? = some (w.take (w.step c.map).1) := by
      rw [getElem?_turn hw, if_pos rfl]
    obtain ⟨held', hturns⟩ := h.turns hw
    generalize w.step c.map = out at *
    obtain ⟨p, m'⟩ := out
    dsimp only at hturns hmap
    cases hturns with
    | looks fit view progress =>
      rw [← hmap] at view
      rcases progress with rfl | ⟨o, rest, a, htodo, ho, rfl⟩
      · exact ⟨[], hcarries (fun _ => rfl) fun _ => rfl, fun _ => view, fun h => by simp at h,
          hwaits⟩
      · by_cases htu : t = u
        · have hlive := (h.views t w hw).mpr (congrArg some htu.symm)
          have hwipe : Order.deed .wipe ∉ [o] := by simpa using Ne.symm (ho hlive)
          refine ⟨[o], hcarries (fun hne => (hne htu).elim) fun _ => ?_, fun _ => view,
            fun h => (hwipe h).elim, hwaits⟩
          rw [htodo]
          exact congrArg (o :: ·) (congrArg List.tail htodo).symm
        · exact ⟨[], hcarries (fun _ => rfl) fun heq => (htu heq).elim, fun _ => view,
            fun h => by simp at h, hwaits⟩
    | mutates free => simp at free
    | locks free => simp at free
    | wipes live todo fit wiped =>
      rw [← hmap] at wiped
      refine ⟨[.deed .wipe], hcarries (fun hne => ?_) fun _ => ?_, fun h => by simp at h,
        fun _ => wiped, hwaits⟩
      · exact (hne (Option.some.inj (h.live hw live)).symm).elim
      · rw [todo]
        exact congrArg (Order.deed .wipe :: ·) (congrArg List.tail todo).symm
    | frees live =>
      obtain rfl := Option.some.inj (h.live hw live)
      obtain ⟨w', hw', hlive'⟩ := hu
      obtain rfl := Option.some.inj (htaken.symm.trans hw')
      simp [Member.take] at hlive'

/-- While a member has the view. -/
theorem Kept.run_standstill {u : Nat} (h : c.Kept (some u)) (schedule : List Nat)
    (hu : ∀ s, s <+: schedule → (c.run s).Holds u) :
    (c.run schedule).Kept (some u) ∧ ∃ done, c.Standstill u done (c.run schedule) := by
  induction schedule generalizing c with
  | nil => exact ⟨h, [], .refl c u⟩
  | cons t schedule ih =>
    obtain ⟨hkept, done, hturn⟩ := h.turn_standstill (hu [t] ⟨schedule, rfl⟩)
    obtain ⟨hkept', done', hrun⟩ := ih hkept fun s hs =>
      hu (t :: s) (List.cons_prefix_cons.mpr ⟨rfl, hs⟩)
    exact ⟨hkept', done ++ done', hturn.trans hrun⟩

/-! ## The end of a view -/

/-- Whoever has the view ends it in the turn of an order to free or to drop it. -/
theorem Kept.turn_ends {u : Nat} (h : c.Kept (some u)) {w : Member κ ν}
    (hw : c.members[u]? = some w) {o : Order κ ν} {rest : List (Order κ ν)}
    (htodo : w.todo = o :: rest) (ho : o.Ends) :
    (c.turn u).map = c.map.unlock ∧ (c.turn u).Kept none ∧ c.map.SameView c.map.unlock ∧
      (c.turn u).members[u]? = some
        { todo := rest, view := { freed := true }, answers := w.answers ++ [.nothing] } := by
  have hlive := (h.views u w hw).mpr rfl
  have hstep := w.step_ends hlive (h.ready u w hw hlive) htodo ho c.map
  have hmember : (c.turn u).members[u]? = some
      { todo := rest, view := { freed := true }, answers := w.answers ++ [.nothing] } := by
    rw [getElem?_turn hw, if_pos rfl, hstep]
    unfold Member.take
    rw [htodo]
    rfl
  obtain ⟨holder', hkept⟩ := h.turn u
  have hmap : (c.turn u).map = c.map.unlock := by rw [turn_some hw, hstep]
  have hnone : holder' = none := by
    cases holder' with
    | none => rfl
    | some x =>
      -- nobody else had the view before, and nobody else has had the turn
      have hx := hkept.there x rfl
      have hmem := List.getElem?_eq_getElem hx
      have hlive' := (hkept.views x _ hmem).mpr rfl
      by_cases hxu : x = u
      · subst hxu
        rw [hmember] at hmem
        rw [← Option.some.inj hmem] at hlive'
        cases hlive'
      · rw [getElem?_turn hw, if_neg hxu] at hmem
        exact (hxu (Option.some.inj (h.live hmem hlive')).symm).elim
  exact ⟨hmap, hnone ▸ hkept, h.fit.unlock.2.2, hmember⟩

end Crew

end VersionedMap
