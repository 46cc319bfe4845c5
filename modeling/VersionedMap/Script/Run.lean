import VersionedMap.Map.Mutation
import VersionedMap.Map.View
import VersionedMap.Script.Answer
import VersionedMap.Script.Op
import VersionedMap.Text.Listing

/-!
# Running a script

Carrying out the operations of a script on a map, one after another. Threads may run in
any order, as their keys differ, and so run one after another.

While there is a view of the map, a mutation of the map waits. One that the view's own
operations start is another thread's work: it is tried, and if it comes to wait, at
whatever depth, it is set aside as a whole and carried out when the view has been freed.
One that a callback would run by itself is refused, since it would wait for a lock that
only it could have released.
-/

namespace VersionedMap

variable {κ ν : Type}

/-! ## Listings -/

/-- The listing of a map, as a scan meets the entries. -/
def Map.text [Text.Shown κ] [Text.Shown ν] (m : Map κ ν) (long : Bool) :
    Attempt String × Map κ ν :=
  let (l, m) := m.entries
  (l.map fun l => Text.list long l.toList, m)

/-- The listing of a map that a view gives. -/
def View.text [Text.Shown κ] [Text.Shown ν] (v : View) (m : Map κ ν) (long : Bool) : String :=
  if v.freed then Text.freedView else Text.list long (m.items.map (·.entry))

/-! ## Answers -/

/-- The answer of an attempt. -/
def Attempt.answer {α : Type} (f : α → Answer κ ν) :
    Attempt α × Map κ ν → Attempt (Answer κ ν) × Map κ ν
  | (a, m) => (a.map f, m)

/-- The answer in the end. An operation that still waits then would do so for ever. -/
def Attempt.settle : Attempt (Answer κ ν) × Map κ ν → Answer κ ν × Map κ ν
  | (.done a, m) => (a, m)
  | (.waits, m) => (.refused .wouldBlock, m)

/-- The answer of a view's operation that changes nothing. -/
def View.answer {α : Type} (f : α → Answer κ ν) : Except Refusal α → Answer κ ν
  | .ok a => f a
  | .error why => .refused why

/-- A view in use: the view, and the mutations that wait for it, in the order of their start. -/
structure Viewing (κ ν : Type) where
  view : View
  waiting : List (Map κ ν → Answer κ ν × Map κ ν) := []

/-- Lets mutations through, one after another. -/
def letThrough : List (Map κ ν → Answer κ ν × Map κ ν) → Map κ ν → List (Answer κ ν) × Map κ ν
  | [], m => ([], m)
  | f :: l, m =>
    let (a, m) := f m
    let (as, m) := letThrough l m
    (a :: as, m)

/-- Frees a view and lets through what has waited for it. -/
def Viewing.free (w : Viewing κ ν) (m : Map κ ν) : Answer κ ν × Viewing κ ν × Map κ ν :=
  match w.view.free m with
  | .error why => (.refused why, w, m)
  | .ok (view, m) =>
    let (answers, m) := letThrough w.waiting m
    (if answers.isEmpty then .nothing else .unblocked answers, { view }, m)

/-- Ends a view and lets through what has waited for it. -/
def Viewing.close (w : Viewing κ ν) (m : Map κ ν) : Option (List (Answer κ ν)) × Map κ ν :=
  let (answers, m) := letThrough w.waiting (w.view.close m)
  (if answers.isEmpty then none else some answers, m)

/-- An answer with the sizes of the map after it. -/
def Answer.toStep (d : Disclosure) (a : Answer κ ν) (m : Map κ ν) : Answer κ ν :=
  .step a m.len (d.capacity? m.capacity)

/-- Whether a scan that is to stop after `stop` entries goes on after `n`. -/
def goesOn (stop : Option Nat) (n : Nat) : Bool :=
  match stop with
  | none => true
  | some k => n < k

/-- A scan under way. -/
structure Scanning (κ ν : Type) where
  /-- The entries seen so far. -/
  seen : Array (κ × ν) := #[]
  /-- What the callback's operations have answered, with the numbers of the visits. -/
  steps : Array (Nat × List (Answer κ ν)) := #[]
  /-- Whether the callback has come to wait. -/
  waits : Bool := false

/-- The answer of a scan that has come to its end; `done` tells whether it went through. -/
def Scanning.answer [Ord κ] [Ord ν] (c : Scanning κ ν) (d : Disclosure) (stop : Option Nat)
    (done : Bool) : Attempt (Answer κ ν) :=
  if c.waits then .waits
  else .done (.scan done (d.seen stop c.seen.toList) c.steps.toList)

variable [DecidableEq κ] [DecidableEq ν]

/-- Does one thing to one key. Tells whether it counts. -/
def BulkVerb.apply (verb : BulkVerb) (k : κ) (v : ν) (m : Map κ ν) : Attempt Bool × Map κ ν :=
  match verb with
  | .set =>
    let (a, m) := m.set k v
    (a.map fun _ => true, m)
  | .swap =>
    let (a, m) := m.swap k v
    (a.map (·.isSome), m)
  | .setAbsent => m.setAbsent k v
  | .getOrSet =>
    let (a, m) := m.getOrSet k v
    (a.map (·.2), m)
  | .delete =>
    let (a, m) := m.delete (m.lookup k)
    (a.map (·.isSome), m)
  | .get =>
    let (a, m) := m.get (m.lookup k)
    (a.map (· == some v), m)

/-- Does one thing to many keys, on top of a count. Gives how many count. -/
def BulkVerb.applyAll (verb : BulkVerb) (n : Nat) : List (κ × ν) → Map κ ν → Attempt Nat × Map κ ν
  | [], m => (.done n, m)
  | (k, v) :: l, m =>
    match verb.apply k v m with
    | (.done b, m) => applyAll verb (if b then n + 1 else n) l m
    | (.waits, m) => (.waits, m)

variable [Key κ] [Ord κ] [Ord ν] [Text.Shown κ] [Text.Shown ν]

mutual

/-- Carries out an operation. `held` tells that there is a view of the map. -/
def Op.run (d : Disclosure) (held : Bool) (op : Op κ ν) (m : Map κ ν) :
    Attempt (Answer κ ν) × Map κ ν :=
  if held && op.mutates then (.done (.refused .wouldBlock), m) else
    match op with
    | .set k v => Attempt.answer (fun _ => .nothing) (m.set k v)
    | .swap k v => Attempt.answer .value (m.swap k v)
    | .setAbsent k v => Attempt.answer .flag (m.setAbsent k v)
    | .getOrSet k v => Attempt.answer (fun (v, existed) => .found v existed) (m.getOrSet k v)
    | .delete t => Attempt.answer .value (m.delete (t.lookup m.hash))
    | .get t => Attempt.answer .value (m.get (t.lookup m.hash))
    | .contains t => Attempt.answer .flag (m.contains (t.lookup m.hash))
    | .len => (.done (.number m.len), m)
    | .isEmpty => (.done (.flag m.isEmpty), m)
    | .clear => Attempt.answer (fun _ => .nothing) m.clear
    | .capacity => (.done (d.capacity m.capacity), m)
    | .shardCount => (.done (d.shardCount m.shardCount?), m)
    | .read t inside =>
      let visit (e : κ × ν) (m : Map κ ν) :=
        let (steps, m) := runSteps d held inside m
        (steps.map fun steps => Answer.reading e steps e, m)
      Attempt.andThen (m.read (t.lookup m.hash) visit) fun answer m =>
        (answer.getD (.done .nothing), m)
    | .range stop inside =>
      let visit (e : κ × ν) (c : Scanning κ ν) (m : Map κ ν) :=
        match runVisit d held c.seen.size inside m with
        | (.waits, m) => (false, { c with waits := true }, m)
        | (.done steps, m) =>
          let c := { c with seen := c.seen.push e, steps := c.steps ++ steps }
          (goesOn stop c.seen.size, c, m)
      let (done, c, m) := m.range visit {}
      Attempt.andThen (done, m) fun done m => (c.answer d stop done, m)
    | .debug long => Attempt.answer .text (m.text long)
    | .bulk verb pairs => Attempt.answer .number (verb.applyAll 0 pairs m)
    | .threads lists => Attempt.answer .threads (runThreads d lists m)
    | .locked pending ops =>
      Attempt.andThen m.lock fun view m =>
        let (steps, w, m) := runView d pending ops { view } m
        let (drop, m) := w.close m
        (.done (.locked steps drop), m)
    | .refused _ why => (.done (.refused why), m)

/-- Carries out operations in order, each with the sizes of the map after it. -/
def runSteps (d : Disclosure) (held : Bool) :
    List (Op κ ν) → Map κ ν → Attempt (List (Answer κ ν)) × Map κ ν
  | [], m => (.done [], m)
  | op :: ops, m =>
    Attempt.andThen (op.run d held m) fun a m =>
      let step := a.toStep d m
      let (steps, m) := runSteps d held ops m
      (steps.map (step :: ·), m)

/-- Carries out what a scan is to do on a visit. -/
def runVisit (d : Disclosure) (held : Bool) (visit : Nat) :
    List (Nat × List (Op κ ν)) → Map κ ν →
      Attempt (List (Nat × List (Answer κ ν))) × Map κ ν
  | [], m => (.done [], m)
  | (i, ops) :: rest, m =>
    if i = visit then
      Attempt.andThen (runSteps d held ops m) fun steps m =>
        let (others, m) := runVisit d held visit rest m
        (others.map ((i, steps) :: ·), m)
    else runVisit d held visit rest m

/-- Carries out the operations of a thread. -/
def runThread (d : Disclosure) :
    List (Op κ ν) → Map κ ν → Attempt (List (Answer κ ν)) × Map κ ν
  | [], m => (.done [], m)
  | op :: ops, m =>
    Attempt.andThen (op.run d false m) fun a m =>
      let (as, m) := runThread d ops m
      (as.map (a :: ·), m)

/-- Carries out the operations of several threads. -/
def runThreads (d : Disclosure) :
    List (List (Op κ ν)) → Map κ ν → Attempt (List (List (Answer κ ν))) × Map κ ν
  | [], m => (.done [], m)
  | ops :: rest, m =>
    Attempt.andThen (runThread d ops m) fun answers m =>
      let (others, m) := runThreads d rest m
      (others.map (answers :: ·), m)

/-- Carries out an operation on a view, of which so many mutations may wait. -/
def ViewOp.run (d : Disclosure) (pending : Nat) (op : ViewOp κ ν) (w : Viewing κ ν)
    (m : Map κ ν) : Answer κ ν × Viewing κ ν × Map κ ν :=
  match op with
  | .len => (View.answer .number (w.view.len m), w, m)
  | .isEmpty => (View.answer .flag (w.view.isEmpty m), w, m)
  | .contains t => (View.answer .flag (w.view.contains m (t.lookup m.hash)), w, m)
  | .get t => (View.answer .value (w.view.get m (t.lookup m.hash)), w, m)
  | .read t => (View.answer .entry (w.view.find? m (t.lookup m.hash)), w, m)
  | .range stop =>
    let visit (e : κ × ν) (seen : Array (κ × ν)) :=
      let seen := seen.push e
      (goesOn stop seen.size, seen)
    (View.answer (fun (done, seen) => .viewScan done (d.seen stop seen.toList))
      (w.view.range m visit #[]), w, m)
  | .debug long => (.text (w.view.text m long), w, m)
  | .clear =>
    match w.view.clear m with
    | .error why => (.refused why, w, m)
    | .ok m => (.nothing, w, m)
  | .free => w.free m
  | .map op =>
    if !w.view.freed && op.mutates then
      if pending ≤ w.waiting.length then (.refused .busy, w, m)
      else
        match op.run d false m with
        | (.done _, m) => (.finished, w, m)
        | (.waits, _) =>
          let waiting := w.waiting ++ [fun m => Attempt.settle (op.run d false m)]
          (.blocked, { w with waiting }, m)
    else
      let (a, m) := Attempt.settle (op.run d (!w.view.freed) m)
      (a.toStep d m, w, m)
  | .refused why => (.refused why, w, m)

/-- Carries out operations on a view in order. -/
def runView (d : Disclosure) (pending : Nat) :
    List (ViewOp κ ν) → Viewing κ ν → Map κ ν → List (Answer κ ν) × Viewing κ ν × Map κ ν
  | [], w, m => ([], w, m)
  | op :: ops, w, m =>
    let (a, w, m) := op.run d pending w m
    let (as, w, m) := runView d pending ops w m
    (a :: as, w, m)

end

/-- Carries out an entry of a script. -/
def Script.Command.run (d : Disclosure) (c : Script.Command κ ν) (m : Map κ ν) :
    Answer κ ν × Map κ ν :=
  match c with
  | .carryOut op => Attempt.settle (op.run d false m)
  | .extend pairs =>
    let m := m.extend pairs
    (.number m.len, m)

/-- Carries out a script. The first answer tells the sizes of the map before it. -/
def runScript (d : Disclosure) (script : List (Script.Command κ ν)) (m : Map κ ν) :
    List (Answer κ ν) × Map κ ν :=
  let first := Answer.nothing.toStep d m
  let (answers, m) := script.foldl (fun (answers, m) c =>
    let (a, m) := c.run d m
    (answers.push (a.toStep d m), m)) (#[first], m)
  (answers.toList, m)

end VersionedMap
