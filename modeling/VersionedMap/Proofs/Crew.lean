import VersionedMap.Proofs.Guests

/-!
# Crews

A **crew** works on one map. Each of its members has a list of orders and a view, if it has taken
one, and the turns of the members come in any order. In one turn a member does what others cannot
come in between: a mutation takes one turn for the change, and one more for growth if the change
has made that due; clearing takes one for every shard; everything else takes one. Whoever has to
wait has had the turn for nothing.

Somebody who reads or scans and does other things meanwhile, as callbacks do, has orders for the
parts of it: to enter and to leave a shard, to acquire and to release a version.
-/

namespace VersionedMap

variable {κ ν α : Type}

/-! ## Orders -/

/-- What readers and scans do to a map. -/
inductive Move
  | enter (i : Nat)
  | leave (i : Nat)
  | acquire (p : Place)
  | release (p : Place) (n : Nat)

/-- The shard in which a move is made. -/
def Move.shard : Move → Nat
  | .enter i | .leave i => i
  | .acquire p | .release p _ => p.shard

/-- Makes a move, if its shard is there. -/
def Move.run (r : Move) (m : Map κ ν) : Map κ ν :=
  if r.shard < m.shards.size then
    match r with
    | .enter i => (m.enter i).2
    | .leave i => m.leave i
    | .acquire p => (m.acquire p).2
    | .release p n => m.release p n
  else m

/-- What a member of a crew can be told to do. -/
inductive Order (κ ν : Type)
  | deed (d : Deed κ ν)
  /-- Drops the view, whether or not it has been freed. -/
  | drop
  | get (q : Lookup κ)
  | contains (q : Lookup κ)
  | move (r : Move)

/-! ## Turns -/

/-- What a turn comes to. -/
inductive Progress (κ ν : Type)
  /-- Nothing can be done. -/
  | waits
  /-- The change is made, with this answer; growth is to follow in a shard. -/
  | grows (i : Nat) (a : Answer κ ν)
  /-- A shard is cleared; this one is next. -/
  | clears (i : Nat)
  /-- The order has been carried out. -/
  | over (a : Answer κ ν) (v : View)

/-- The first turn of a mutation. -/
def Map.startChange (m : Map κ ν) (v : View) (hash : UInt64) (f : UInt32 → Mutation κ ν α)
    (answer : α → Answer κ ν) : Progress κ ν × Map κ ν :=
  match m.change hash f with
  | (.waits, m) => (.waits, m)
  | (.done (a, false), m) => (.over (answer a) v, m)
  | (.done (a, true), m') => (.grows (m.route hash).shard (answer a), m')

/-- The second turn of a mutation. -/
def Map.finishGrowth (m : Map κ ν) (v : View) (i : Nat) (a : Answer κ ν) :
    Progress κ ν × Map κ ν :=
  match m.grow i with
  | (.waits, m) => (.waits, m)
  | (.done (), m) => (.over a v, m)

/-- The turn in which clearing comes to a shard. -/
def Map.clearNext (m : Map κ ν) (v : View) (i : Nat) : Progress κ ν × Map κ ν :=
  match m.modifyShard i Shard.clear with
  | (.waits, m) => (.waits, m)
  | (.done (), m) => (if i + 1 < m.shards.size then .clears (i + 1) else .over .nothing v, m)

variable [DecidableEq κ]

/-- The first turn of a deed. -/
def Deed.start (d : Deed κ ν) (v : View) (m : Map κ ν) : Progress κ ν × Map κ ν :=
  match d with
  | .set k w => m.startChange v (m.hash k) (fun h => .set h k w) fun _ => .nothing
  | .swap k w => m.startChange v (m.hash k) (fun h => .set h k w) .value
  | .setAbsent k w => m.startChange v (m.hash k) (fun h => .setAbsent h k w) .flag
  | .getOrSet k w =>
    m.startChange v (m.hash k) (fun h => .getOrSet h k w) fun (w, old) => .found w old
  | .delete q => m.startChange v q.hash (fun h => .delete ⟨h, q.admits⟩) .value
  | .clear => m.clearNext v 0
  | .lock =>
    match m.lock with
    | (.waits, m) => (.waits, m)
    | (.done w, m) => (.over .nothing w, m)
  | .wipe | .free =>
    let (a, v, m) := d.run v m
    (.over a v, m)

/-- The first turn of an order. -/
def Order.start (o : Order κ ν) (v : View) (m : Map κ ν) : Progress κ ν × Map κ ν :=
  match o with
  | .deed d => d.start v m
  | .drop => (.over .nothing { freed := true }, v.close m)
  | .get q =>
    match m.get q with
    | (.waits, m) => (.waits, m)
    | (.done a, m) => (.over (.value a) v, m)
  | .contains q =>
    match m.contains q with
    | (.waits, m) => (.waits, m)
    | (.done a, m) => (.over (.flag a) v, m)
  | .move r => (.over .nothing v, r.run m)

/-! ## Members -/

/-- How far a member has come with its first order. -/
inductive Stage (κ ν : Type)
  | ready
  /-- With the change made, growth in a shard is outstanding. -/
  | growing (i : Nat) (a : Answer κ ν)
  /-- The shards before this one have been cleared. -/
  | clearing (i : Nat)

/-- The answer that there is already, though the order has not been carried out. -/
def Stage.pending : Stage κ ν → List (Answer κ ν)
  | .growing _ a => [a]
  | .ready | .clearing _ => []

/-- A member of a crew. -/
structure Member (κ ν : Type) where
  /-- The orders to be carried out, first the one that the member is at. -/
  todo : List (Order κ ν)
  stage : Stage κ ν := .ready
  /-- The view that the member has; without any it is as if it had freed it. -/
  view : View := { freed := true }
  /-- The answers so far. -/
  answers : List (Answer κ ν) := []

namespace Member

/-- What a member does in its turn. -/
def step (w : Member κ ν) (m : Map κ ν) : Progress κ ν × Map κ ν :=
  match w.stage with
  | .growing i a => m.finishGrowth w.view i a
  | .clearing i => m.clearNext w.view i
  | .ready =>
    match w.todo with
    | [] => (.waits, m)
    | o :: _ => o.start w.view m

omit [DecidableEq κ] in
/-- Where a member is after a turn. -/
def take (w : Member κ ν) : Progress κ ν → Member κ ν
  | .waits => w
  | .grows i a => { w with stage := .growing i a }
  | .clears i => { w with stage := .clearing i }
  | .over a v => { todo := w.todo.tail, stage := .ready, view := v, answers := w.answers ++ [a] }

end Member

/-! ## Crews -/

/-- A map, and those who work on it. -/
structure Crew (κ ν : Type) where
  map : Map κ ν
  members : List (Member κ ν)

namespace Crew

/-- One turn of a member; nobody has a turn where there is no such member. -/
def turn (c : Crew κ ν) (t : Nat) : Crew κ ν :=
  match c.members[t]? with
  | none => c
  | some w => ⟨(w.step c.map).2, c.members.set t (w.take (w.step c.map).1)⟩

/-- The turns of a schedule, one after another. -/
def run (c : Crew κ ν) (schedule : List Nat) : Crew κ ν := schedule.foldl turn c

variable {c : Crew κ ν} {t : Nat} {w : Member κ ν}

theorem turn_none (h : c.members[t]? = none) : c.turn t = c := by
  unfold turn
  rw [h]

theorem turn_some (h : c.members[t]? = some w) :
    c.turn t = ⟨(w.step c.map).2, c.members.set t (w.take (w.step c.map).1)⟩ := by
  unfold turn
  rw [h]

/-- Whoever has the turn for nothing leaves everything as it is. -/
theorem turn_waits (h : c.members[t]? = some w) (hstep : w.step c.map = (.waits, c.map)) :
    c.turn t = c := by
  rw [turn_some h, hstep]
  obtain ⟨_, rfl⟩ := List.getElem?_eq_some_iff.mp h
  show (⟨c.map, c.members.set t c.members[t]⟩ : Crew κ ν) = c
  rw [List.set_getElem_self]

theorem run_cons (c : Crew κ ν) (t : Nat) (schedule : List Nat) :
    c.run (t :: schedule) = (c.turn t).run schedule := rfl

theorem run_append (c : Crew κ ν) (schedule schedule' : List Nat) :
    c.run (schedule ++ schedule') = (c.run schedule).run schedule' := List.foldl_append

theorem length_members_turn (c : Crew κ ν) (t : Nat) :
    (c.turn t).members.length = c.members.length := by
  unfold turn
  split
  · rfl
  · exact List.length_set

/-- Whose turn it is takes it, and the others are left alone. -/
theorem getElem?_turn (h : c.members[t]? = some w) (u : Nat) :
    (c.turn t).members[u]? =
      if u = t then some (w.take (w.step c.map).1) else c.members[u]? := by
  rw [turn_some h]
  split
  · rename_i hu
    rw [hu, List.getElem?_set_self (List.getElem?_eq_some_iff.mp h).1]
  · rename_i hu
    exact List.getElem?_set_ne (Ne.symm hu)

/-- What every turn keeps a schedule keeps. -/
theorem run_keeps {P : Crew κ ν → Prop} (hturn : ∀ c t, P c → P (c.turn t)) (h : P c)
    (schedule : List Nat) : P (c.run schedule) := by
  induction schedule generalizing c with
  | nil => exact h
  | cons t schedule ih => exact ih (hturn c t h)

/-- What is so before a turn, and at all times after it, is so at all times. -/
theorem forall_prefix_cons {P : Crew κ ν → Prop} {schedule : List Nat} (hnow : P c)
    (h : ∀ s, s <+: schedule → P ((c.turn t).run s)) (s : List Nat) (hs : s <+: t :: schedule) :
    P (c.run s) := by
  cases s with
  | nil => exact hnow
  | cons u s =>
    obtain ⟨rfl, hrest⟩ := List.cons_prefix_cons.mp hs
    exact h s hrest

end Crew

end VersionedMap
