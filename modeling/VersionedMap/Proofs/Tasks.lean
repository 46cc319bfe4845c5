import VersionedMap.Proofs.Exclusive
import VersionedMap.Proofs.Serial

/-!
# Members with one mutation to do

A member is **brief** if it has one mutation to carry out, and then no more. It may have begun with
it, so that growth is outstanding or some shards are cleared. If the mutation is to take a view, the
member ends the view in the turn after it.

A brief member has a task. Where nobody has a view, a turn is a step of the task, and who carries
out at once what is left does what the task is for.
-/

namespace VersionedMap

variable {κ ν : Type}

/-! ## Brief members -/

/-- A member with one mutation to be carried out, in a map of `n` shards. -/
inductive Member.Brief (n : Nat) (w : Member κ ν) : Prop
  | changes (o : Order κ ν) (todo : w.todo = [o])
      (starts : w.stage = .ready → ∃ d, o = .deed d ∧ d.Mutates ∧ d ≠ .lock)
      (stage : w.stage.Within n) (freed : w.view.freed = true)
  | locks (o : Order κ ν) (ends : o.Ends) (todo : w.todo = [.deed .lock, o])
      (ready : w.stage = .ready) (freed : w.view.freed = true)
  | inside (o : Order κ ν) (ends : o.Ends) (todo : w.todo = [o]) (ready : w.stage = .ready)
      (live : w.view.freed = false)
  | done (todo : w.todo = []) (ready : w.stage = .ready) (freed : w.view.freed = true)

/-- A member that is to take a view, and to end it next. -/
def Member.Locking (w : Member κ ν) : Prop := ∃ o, w.todo = [.deed .lock, o]

/-- The most turns that a brief member can still need in a map of `n` shards. -/
def Member.left (n : Nat) (w : Member κ ν) : Nat :=
  match w.stage with
  | .growing _ _ => 1
  | .clearing i => n - i
  | .ready =>
    match w.todo with
    | [] => 0
    | .drop :: _ | .deed .free :: _ => 1
    | .deed .clear :: _ => n
    | _ => 2

theorem Member.Brief.ready_of_nil {n : Nat} {w : Member κ ν} (hw : w.Brief n)
    (htodo : w.todo = []) : w.stage = .ready ∧ w.view.freed = true := by
  cases hw with
  | changes o htodo' => simp [htodo] at htodo'
  | locks o _ htodo' => simp [htodo] at htodo'
  | inside o _ htodo' => simp [htodo] at htodo'
  | done _ hready hfreed => exact ⟨hready, hfreed⟩

theorem Member.left_le (n : Nat) (w : Member κ ν) : w.left n ≤ n + 2 := by
  unfold left
  repeat' split
  all_goals omega

variable [DecidableEq κ]

/-! ## Carrying out at once -/

/-- Carries out an order at once. -/
def Order.whole (o : Order κ ν) (v : View) (m : Map κ ν) : Answer κ ν × View × Map κ ν :=
  match o with
  | .deed d => d.run v m
  | .drop => (.nothing, { freed := true }, v.close m)
  | .get q => v.attempt (Attempt.answer .value (m.get q))
  | .contains q => v.attempt (Attempt.answer .flag (m.contains q))
  | .move r => (.nothing, v, r.run m)

/-- Carries out orders one after another. -/
def Order.wholes : List (Order κ ν) → View → Map κ ν → List (Answer κ ν) × Map κ ν
  | [], _, m => ([], m)
  | o :: rest, v, m =>
    let (a, v, m) := o.whole v m
    let (as, m) := wholes rest v m
    (a :: as, m)

/--
Carries out at once what is left of a member's orders. Of an order that has been begun only the rest
is carried out, and nothing after it.
-/
def Member.finish (w : Member κ ν) (m : Map κ ν) : List (Answer κ ν) × Map κ ν :=
  match w.stage with
  | .growing i a => ([a], (m.grow i).2)
  | .clearing i => ([.nothing], (m.clearFrom i (m.shards.size - i)).2)
  | .ready => Order.wholes w.todo w.view m

/-! ## Tasks of members -/

/-- What is left of a member's orders, as it shows in the chronicles and by the answers to come. -/
def Member.task (hash : κ → UInt64) (w : Member κ ν) : Task κ ν hash :=
  match w.stage with
  | .growing _ a => .rest [a]
  | .clearing i => .sweep i
  | .ready =>
    match w.todo with
    | .deed d :: _ =>
      match d.motion? hash, d with
      | some μ, _ => .motion μ
      | none, .clear => .sweep 0
      | none, _ => .rest (w.todo.map fun _ => .nothing)
    | _ => .rest (w.todo.map fun _ => .nothing)

namespace Member

variable {w : Member κ ν} {m : Map κ ν} {L : Nat → List (Item κ ν)} {hash : κ → UInt64}

theorem step_done (hready : w.stage = .ready) (htodo : w.todo = []) (m : Map κ ν) :
    w.step m = (.waits, m) := by
  unfold step
  rw [hready, htodo]

theorem task_done (hready : w.stage = .ready) (htodo : w.todo = []) : w.task hash = .rest [] := by
  unfold task
  rw [hready, htodo]
  rfl

theorem task_inside {o : Order κ ν} (ho : o.Ends) (hready : w.stage = .ready)
    (htodo : w.todo = [o]) : w.task hash = .rest [.nothing] := by
  unfold task
  rw [hready, htodo]
  rcases ho with rfl | rfl <;> rfl

theorem task_locks {o : Order κ ν} (hready : w.stage = .ready)
    (htodo : w.todo = [.deed .lock, o]) : w.task hash = .rest [.nothing, .nothing] := by
  unfold task
  rw [hready, htodo]
  rfl

theorem Brief.task_locking {n : Nat} (hw : w.Brief n) (h : w.Locking) :
    w.task hash = .rest [.nothing, .nothing] := by
  obtain ⟨o, htodo⟩ := h
  cases hw with
  | changes o' htodo' => simp [htodo] at htodo'
  | locks _ _ _ hready => exact task_locks hready htodo
  | inside o' _ htodo' => simp [htodo] at htodo'
  | done htodo' => simp [htodo] at htodo'

theorem task_motion {d : Deed κ ν} {rest : List (Order κ ν)} {μ : Motion κ ν hash}
    (hμ : d.motion? hash = some μ) (hready : w.stage = .ready) (htodo : w.todo = .deed d :: rest) :
    w.task hash = .motion μ := by
  unfold task
  rw [hready, htodo]
  dsimp only
  rw [hμ]

theorem task_clear {rest : List (Order κ ν)} (hready : w.stage = .ready)
    (htodo : w.todo = .deed .clear :: rest) : w.task hash = .sweep 0 := by
  unfold task
  rw [hready, htodo]
  rfl

theorem task_growing {i : Nat} {a : Answer κ ν} (h : w.stage = .growing i a) :
    w.task hash = .rest [a] := by
  unfold task
  rw [h]

theorem task_clearing {i : Nat} (h : w.stage = .clearing i) : w.task hash = .sweep i := by
  unfold task
  rw [h]

/-- A member that has more than one shard left to clear, of the `n` that there are. -/
def Sweeps (n : Nat) (w : Member κ ν) : Prop :=
  match w.stage with
  | .growing _ _ => False
  | .clearing i => i + 1 < n
  | .ready => 1 < n ∧ ∃ rest, w.todo = .deed .clear :: rest

/-- Any other member shows in one shard at most. -/
theorem single_task {n : Nat} (h : ¬ w.Sweeps n) : (w.task hash).Single n := by
  unfold Sweeps at h
  unfold task
  cases hs : w.stage with
  | growing i a => trivial
  | clearing i =>
    rw [hs] at h
    exact Nat.not_lt.mp h
  | ready =>
    rw [hs] at h
    dsimp only at h ⊢
    split
    · rename_i d rest htodo
      split
      · trivial
      · exact Nat.not_lt.mp fun hn => h ⟨hn, rest, htodo⟩
      · trivial
    · trivial

/-! ## A turn that gets on -/

/--
A turn of a brief member that gets on: a step of its task, with new answers. Whoever has a view then
has taken it in this turn, and takes no other.
-/
structure Works (hash : κ → UInt64) (w : Member κ ν) (m : Map κ ν) (L : Nat → List (Item κ ν))
    (p : Progress κ ν) (m' : Map κ ν) (held : Bool) (L' : Nat → List (Item κ ν))
    (new : List (Answer κ ν)) : Prop where
  fit : m'.Fit held
  shape : m.SameShape m'
  tells : m'.Tells L'
  steps : Task.Steps m.route m.shards.size L (w.task hash) ((w.take p).task hash) new L'
  answers : (w.take p).answers = w.answers ++ new
  brief : (w.take p).Brief m.shards.size
  view : (w.take p).view.freed = !held
  takes : held = true → w.Locking
  goes : ¬ (w.take p).Locking
  left : (w.take p).left m.shards.size < w.left m.shards.size

/-- A turn with which the member is done. -/
theorem works_over {m' : Map κ ν} {L' : Nat → List (Item κ ν)} {a : Answer κ ν} {v : View}
    (htodo : w.todo.tail = []) (hv : v.freed = true) (hleft : 0 < w.left m.shards.size)
    (hfit : m'.Fit false) (hshape : m.SameShape m') (htells : m'.Tells L')
    (hsteps : Task.Steps m.route m.shards.size L (w.task hash) (.rest []) [a] L') :
    w.Works hash m L (.over a v) m' false L' [a] := by
  have htask : (w.take (.over a v)).task hash = .rest [] := task_done rfl htodo
  have htodo' : (w.take (.over a v)).todo = [] := htodo
  refine ⟨hfit, hshape, htells, htask ▸ hsteps, rfl, .done htodo rfl hv, hv,
    fun hheld => absurd hheld Bool.false_ne_true, ?_, ?_⟩
  · rintro ⟨o, ho⟩
    simp [htodo'] at ho
  have hzero : (w.take (.over a v)).left m.shards.size = 0 := by
    unfold left take
    dsimp only
    rw [htodo]
  rw [hzero]
  exact hleft

/-- A turn that clears a shard. -/
theorem works_clearNext {o : Order κ ν} (h : m.Fit false) (ht : m.Tells L) {i : Nat}
    (hi : i < m.shards.size) (htodo : w.todo = [o]) (hfreed : w.view.freed = true)
    (htask : w.task hash = .sweep i)
    (hleft : w.left m.shards.size = m.shards.size - i) :
    ∃ L' new, w.Works hash m L (m.clearNext w.view i).1 (m.clearNext w.view i).2 false L' new := by
  obtain ⟨m', hrun, hfit, hshape, htells⟩ := h.tells_clearNext ht hi w.view
  rw [hrun]
  dsimp only
  by_cases hlast : i + 1 < m.shards.size
  · rw [if_pos hlast]
    have hnext : (w.take (.clears (i + 1))).task hash = .sweep (i + 1) := task_clearing rfl
    refine ⟨_, [], hfit, hshape, htells, ?_, (List.append_nil _).symm,
      .changes o htodo (fun hready => by cases hready) hlast hfreed, hfreed,
      fun hheld => absurd hheld Bool.false_ne_true, ?_, ?_⟩
    · rw [htask, hnext]
      exact .sweeps hlast
    · rintro ⟨o', ho'⟩
      simp [take, htodo] at ho'
    · have hthen : (w.take (.clears (i + 1))).left m.shards.size = m.shards.size - (i + 1) := rfl
      rw [hleft, hthen]
      omega
  · rw [if_neg hlast]
    refine ⟨_, _, works_over (by rw [htodo]; rfl) hfreed (by omega) hfit hshape htells ?_⟩
    rw [htask]
    exact .swept (by omega)

/-- The turn of growth. -/
theorem works_finishGrowth (h : m.Fit false) (ht : m.Tells L) {i : Nat} {a : Answer κ ν}
    (hi : i < m.shards.size) (htodo : w.todo.tail = []) (hfreed : w.view.freed = true)
    (hs : w.stage = .growing i a) :
    w.Works hash m L (m.finishGrowth w.view i a).1 (m.finishGrowth w.view i a).2 false L [a] := by
  obtain ⟨m', hrun, hfit, hshape, htells⟩ := h.tells_finishGrowth ht hi w.view a
  have hleft : w.left m.shards.size = 1 := by
    unfold left
    rw [hs]
  rw [hrun]
  refine works_over htodo hfreed (by omega) hfit hshape htells ?_
  rw [task_growing hs]
  exact .rests [a] []

/-- The first turn of a motion. -/
theorem works_startChange {d : Deed κ ν} {μ : Motion κ ν hash} (h : m.Fit false) (ht : m.Tells L)
    (hm : m.hash = hash) (hμ : d.motion? hash = some μ) (hs : w.stage = .ready)
    (htodo : w.todo = [.deed d]) (hfreed : w.view.freed = true) :
    ∃ L' new, w.Works hash m L (m.startChange w.view μ.key μ.act μ.answer).1
      (m.startChange w.view μ.key μ.act μ.answer).2 false L' new := by
  obtain ⟨p, m', hrun, hfit, hshape, htells, hp⟩ := h.tells_startChange ht hm μ w.view
  have htask := task_motion hμ hs htodo
  have hleft : w.left m.shards.size = 2 := by
    unfold left
    rw [hs, htodo]
    cases d with
    | set k v | swap k v | setAbsent k v | getOrSet k v | delete q => rfl
    | clear | lock | wipe | free => simp [Deed.motion?] at hμ
  rw [hrun]
  rcases hp with rfl | rfl
  · refine ⟨_, _, works_over (by rw [htodo]; rfl) hfreed (by omega) hfit hshape htells ?_⟩
    rw [htask]
    exact .moves μ rfl
  · refine ⟨_, [], hfit, hshape, htells, ?_, (List.append_nil _).symm,
      .changes _ htodo (fun hready => by cases hready) (h.route_lt _) hfreed, hfreed,
      fun hheld => absurd hheld Bool.false_ne_true, ?_, ?_⟩
    · rw [htask]
      exact .moves μ rfl
    · rintro ⟨o, ho⟩
      simp [take, htodo] at ho
    · rw [hleft]
      exact Nat.one_lt_two

/-- The turn in which a view is taken. -/
theorem works_lock {o : Order κ ν} (h : m.Fit false) (ht : m.Tells L) (ho : o.Ends)
    (hready : w.stage = .ready) (htodo : w.todo = [.deed .lock, o]) :
    w.Works hash m L (w.step m).1 (w.step m).2 true L [.nothing] := by
  obtain ⟨m', hrun, hfit, _, hview⟩ := h.lock
  have hstep : w.step m = (.over .nothing {}, m') := by
    unfold step
    rw [hready, htodo]
    dsimp only [Order.start, Deed.start]
    rw [hrun]
  have htodo' : (w.take (.over .nothing {})).todo = [o] := congrArg List.tail htodo
  rw [hstep]
  refine ⟨hfit, hview.toSameShape, hview.tells ht, ?_, rfl, .inside o ho htodo' rfl rfl, rfl,
    fun _ => ⟨o, htodo⟩, ?_, ?_⟩
  · rw [task_locks hready htodo, task_inside ho rfl htodo']
    exact .rests [.nothing] [.nothing]
  · rintro ⟨o', ho'⟩
    simp [htodo'] at ho'
  · unfold left
    rw [hready, htodo, htodo']
    rcases ho with rfl | rfl <;> exact Nat.one_lt_two

/-- Where nobody has a view, a brief member gets on in its turn. -/
theorem Brief.works (hw : w.Brief m.shards.size) (h : m.Fit false) (ht : m.Tells L)
    (hm : m.hash = hash) (hfreed : w.view.freed = true) (htodo : w.todo ≠ []) :
    ∃ held L' new, w.Works hash m L (w.step m).1 (w.step m).2 held L' new := by
  cases hw with
  | changes o htodo hstarts hstage hfreed =>
    cases hs : w.stage with
    | growing i a =>
      rw [hs] at hstage
      have hstep : w.step m = m.finishGrowth w.view i a := by
        unfold step
        rw [hs]
      rw [hstep]
      exact ⟨false, L, [a], works_finishGrowth h ht hstage (by rw [htodo]; rfl) hfreed hs⟩
    | clearing i =>
      rw [hs] at hstage
      have hleft : w.left m.shards.size = m.shards.size - i := by
        unfold left
        rw [hs]
      have hstep : w.step m = m.clearNext w.view i := by
        unfold step
        rw [hs]
      rw [hstep]
      exact ⟨false, works_clearNext h ht hstage htodo hfreed (task_clearing hs) hleft⟩
    | ready =>
      obtain ⟨d, rfl, hmut, hlock⟩ := hstarts hs
      have hstep : w.step m = d.start w.view m := by
        unfold step
        rw [hs, htodo]
        rfl
      rw [hstep]
      cases hμ : d.motion? hash with
      | some μ =>
        rw [Deed.start_motion hμ hm]
        exact ⟨false, works_startChange h ht hm hμ hs htodo hfreed⟩
      | none =>
        cases d with
        | set k v | swap k v | setAbsent k v | getOrSet k v | delete q => simp [Deed.motion?] at hμ
        | wipe | free => exact hmut.elim
        | lock => exact (hlock rfl).elim
        | clear =>
          have hleft : w.left m.shards.size = m.shards.size - 0 := by
            unfold left
            rw [hs, htodo]
            rfl
          exact ⟨false, works_clearNext h ht h.pos htodo hfreed (task_clear hs htodo) hleft⟩
  | locks o ho htodo hready hfreed => exact ⟨true, L, [.nothing], works_lock h ht ho hready htodo⟩
  | inside o ho htodo hready hlive => simp [hlive] at hfreed
  | done htodo' => exact (htodo htodo').elim

/-- Under the view of another a brief member has to wait. -/
theorem Brief.step_waits (hw : w.Brief m.shards.size) (h : m.Fit true)
    (hfreed : w.view.freed = true) : w.step m = (.waits, m) := by
  cases hw with
  | changes o htodo hstarts hstage _ =>
    refine w.step_waits h hstage ?_
    unfold Mutating
    split
    · rename_i hready
      obtain ⟨d, rfl, hmut, _⟩ := hstarts hready
      exact ⟨d, [], htodo, hmut⟩
    · trivial
    · trivial
  | locks o _ htodo hready _ =>
    refine w.step_waits h (by rw [hready]; trivial) ?_
    unfold Mutating
    rw [hready]
    exact ⟨.lock, [o], htodo, trivial⟩
  | inside o _ _ _ hlive => simp [hlive] at hfreed
  | done htodo hready => exact step_done hready htodo m

/-- The one who has the view ends it in its turn. -/
theorem Brief.works_inside (hw : w.Brief m.shards.size) (h : m.Fit true) (ht : m.Tells L)
    (hlive : w.view.freed = false) :
    ∃ new, w.Works hash m L (w.step m).1 (w.step m).2 false L new := by
  cases hw with
  | changes o _ _ _ hfreed => simp [hlive] at hfreed
  | locks o _ _ _ hfreed => simp [hlive] at hfreed
  | done _ _ hfreed => simp [hlive] at hfreed
  | inside o ho htodo hready _ =>
    obtain ⟨hfit, _, hview⟩ := h.unlock
    rw [w.step_ends hlive hready htodo ho]
    refine ⟨_, works_over (by rw [htodo]; rfl) rfl ?_ hfit hview.toSameShape (hview.tells ht) ?_⟩
    · unfold left
      rw [hready, htodo]
      rcases ho with rfl | rfl <;> exact Nat.one_pos
    · rw [task_inside ho hready htodo]
      exact .rests [.nothing] []

/-! ## What is done at once -/

/-- Who carries out at once what is left does what the task is for. -/
theorem Brief.finish_spec (hw : w.Brief m.shards.size) (h : m.Fit false) (ht : m.Tells L)
    (hm : m.hash = hash) (hfreed : w.view.freed = true) :
    ∃ m', w.finish m = (((w.task hash).effect m.route L).1, m') ∧ m'.Fit false ∧
      m.SameShape m' ∧ m'.Tells ((w.task hash).effect m.route L).2 := by
  unfold finish
  cases hw with
  | changes o htodo hstarts hstage _ =>
    cases hs : w.stage with
    | growing i a =>
      rw [hs] at hstage
      obtain ⟨m', hrun, hfit, hshape, htells, _⟩ := h.tells_grow ht hstage
      dsimp only
      rw [hrun, task_growing hs]
      exact ⟨m', rfl, hfit, hshape, htells⟩
    | clearing i =>
      rw [hs] at hstage
      obtain ⟨m', hrun, hfit, hshape, htells, _⟩ :=
        h.tells_clearFrom ht (Nat.add_sub_cancel' (Nat.le_of_lt hstage))
      dsimp only
      rw [hrun, task_clearing hs]
      exact ⟨m', rfl, hfit, hshape, htells⟩
    | ready =>
      obtain ⟨d, rfl, hmut, hlock⟩ := hstarts hs
      have hwholes : Order.wholes [.deed d] w.view m
          = ([(d.run w.view m).1], (d.run w.view m).2.2) := rfl
      dsimp only
      rw [htodo, hwholes]
      cases hμ : d.motion? hash with
      | some μ =>
        obtain ⟨m', hrun, hfit, hshape, htells, _⟩ := h.tells_mutate ht hm μ
        rw [Deed.run_motion hμ hm, hrun, task_motion hμ hs htodo]
        exact ⟨m', rfl, hfit, hshape, htells⟩
      | none =>
        cases d with
        | set k w | swap k w | setAbsent k w | getOrSet k w | delete q => simp [Deed.motion?] at hμ
        | wipe | free => exact hmut.elim
        | lock => exact (hlock rfl).elim
        | clear =>
          obtain ⟨m', hrun, hfit, hshape, htells, _⟩ :=
            h.tells_clearFrom ht (Nat.zero_add m.shards.size)
          have hclear : m.clear = (.done (), m') := hrun
          dsimp only [Deed.run]
          rw [hclear, task_clear hs htodo]
          exact ⟨m', rfl, hfit, hshape, htells⟩
  | locks o ho htodo hready _ =>
    obtain ⟨m', hrun, hfit, _, hview⟩ := h.lock
    obtain ⟨hfit', _, hview'⟩ := hfit.unlock
    have hwholes : Order.wholes [.deed .lock, o] w.view m
        = ([.nothing, .nothing], m'.unlock) := by
      unfold Order.wholes Order.whole
      dsimp only [Deed.run]
      rw [hrun]
      rcases ho with rfl | rfl <;> rfl
    rw [hready]
    dsimp only
    rw [htodo, hwholes, task_locks hready htodo]
    exact ⟨_, rfl, hfit', hview.toSameShape.trans hview'.toSameShape,
      hview'.tells (hview.tells ht)⟩
  | inside o _ _ _ hlive => simp [hlive] at hfreed
  | done htodo hready _ =>
    rw [hready]
    dsimp only
    rw [htodo, task_done hready htodo]
    exact ⟨m, rfl, h, .refl m, ht⟩

end Member

end VersionedMap
