import VersionedMap.Proofs.Updates
import VersionedMap.Script.Run

/-!
# Clients of a map

A **client** is whoever works with a map: it calls operations one after another, each as the
answers so far suggest, and among them reads and scans whose callbacks are clients again. What
it meets with is written down: what was asked, what the answer was, and the map right after.

The callback of a read or a scan runs on a map where a version is held and a table guarded.
None of this shows: **whatever a client does to a new map, it gets the answers of a finite
map**, and after every operation the map shows what the finite map has.
-/

namespace VersionedMap

variable {κ ν ρ σ : Type}

/-- An operation of a map. -/
inductive Act (κ ν : Type)
  | set (k : κ) (v : ν)
  | swap (k : κ) (v : ν)
  | setAbsent (k : κ) (v : ν)
  | getOrSet (k : κ) (v : ν)
  | delete (k : κ)
  | get (k : κ)
  | contains (k : κ)
  | clear
  | extend (l : List (κ × ν))

/--
Whoever works with a map: stops, or goes on by an answer. The callback of a read or a scan is
such a client too. A scan hands a result from visit to visit, as long as it is told to go on.
-/
inductive Client (κ ν ρ : Type)
  | stop (r : ρ)
  | act (a : Act κ ν) (next : Answer κ ν → Client κ ν ρ)
  | read (k : κ) (inside : κ × ν → Client κ ν ρ) (next : Option ρ → Client κ ν ρ)
  | range (start : ρ) (inside : κ × ν → ρ → Client κ ν ρ) (more : ρ → Bool)
    (next : Bool → ρ → Client κ ν ρ)

/-- What can be asked of a map: an operation, the entry for a callback, the end of a callback. -/
inductive Ask (κ ν : Type)
  | act (a : Act κ ν)
  | look (k : κ)
  | leave

/-- What was asked, what the answer was, and the map then. -/
structure Moment (κ ν : Type) where
  ask : Ask κ ν
  answer : Answer κ ν
  map : Map κ ν

/-- What a client has come to, and what it has met with. -/
structure Outcome (κ ν ρ : Type) where
  result : Attempt ρ
  log : List (Moment κ ν)

namespace Outcome

/-- Goes on from an outcome, unless it waits. -/
def andThen (x : Outcome κ ν ρ × Map κ ν) (f : ρ → Map κ ν → Outcome κ ν σ × Map κ ν) :
    Outcome κ ν σ × Map κ ν :=
  match x with
  | (⟨.waits, log⟩, m) => (⟨.waits, log⟩, m)
  | (⟨.done r, log⟩, m) =>
    let (o, m) := f r m
    (⟨o.result, log ++ o.log⟩, m)

/-- Goes on after an answer that has been written down. -/
def note (q : Ask κ ν) (a : Answer κ ν) (f : Map κ ν → Outcome κ ν ρ × Map κ ν) (m : Map κ ν) :
    Outcome κ ν ρ × Map κ ν :=
  let (o, m') := f m
  (⟨o.result, ⟨q, a, m⟩ :: o.log⟩, m')

/-- A visit of a scan, which goes on from what the visits before it have come to. -/
def visit (more : ρ → Bool) (f : κ × ν → ρ → Map κ ν → Outcome κ ν ρ × Map κ ν) :
    Visitor κ ν (Outcome κ ν ρ) := fun e o m =>
  let (o, m) := andThen (o, m) (f e)
  match o.result with
  | .done r => (more r, o, m)
  | .waits => (false, o, m)

end Outcome

/-! ## On a map -/

section Run

variable [DecidableEq κ]

/-- Carries out an operation. -/
def Act.run (a : Act κ ν) (m : Map κ ν) : Attempt (Answer κ ν) × Map κ ν :=
  match a with
  | .set k v => Attempt.answer (fun _ => .nothing) (m.set k v)
  | .swap k v => Attempt.answer .value (m.swap k v)
  | .setAbsent k v => Attempt.answer .flag (m.setAbsent k v)
  | .getOrSet k v => Attempt.answer (fun (v, existed) => .found v existed) (m.getOrSet k v)
  | .delete k => Attempt.answer .value (m.delete (m.lookup k))
  | .get k => Attempt.answer .value (m.get (m.lookup k))
  | .contains k => Attempt.answer .flag (m.contains (m.lookup k))
  | .clear => Attempt.answer (fun _ => .nothing) m.clear
  | .extend l => (.done .nothing, m.extend l)

/-- Lets a client work with a map. -/
def Client.run : Client κ ν ρ → Map κ ν → Outcome κ ν ρ × Map κ ν
  | .stop r, m => (⟨.done r, []⟩, m)
  | .act a next, m =>
    match a.run m with
    | (.waits, m) => (⟨.waits, []⟩, m)
    | (.done x, m) => Outcome.note (.act a) x (next x).run m
  | .read k inside next, m =>
    let visit (e : κ × ν) := Outcome.note (.look k) (.entry (some e)) (inside e).run
    match m.read (m.lookup k) visit with
    | (.waits, m) => (⟨.waits, []⟩, m)
    | (.done none, m) => Outcome.note (.look k) (.entry none) (next none).run m
    | (.done (some o), m) =>
      Outcome.andThen (o, m) fun r => Outcome.note .leave .nothing (next (some r)).run
  | .range start inside more next, m =>
    match m.range (Outcome.visit more fun e r => (inside e r).run) ⟨.done start, []⟩ with
    | (.waits, o, m) => (⟨.waits, o.log⟩, m)
    | (.done went, o, m) =>
      Outcome.andThen (o, m) fun r => Outcome.note .leave .nothing (next went r).run

end Run

/-! ## On a finite map -/

section Finite

variable [DecidableEq κ]

/-- What a finite map answers. -/
def Act.answer (F : Finmap fun _ : κ => ν) : Act κ ν → Answer κ ν
  | .set _ _ | .clear | .extend _ => .nothing
  | .swap k _ | .delete k | .get k => .value (F.lookup k)
  | .setAbsent k _ => .flag (F.lookup k).isNone
  | .getOrSet k v => .found ((F.lookup k).getD v) (F.lookup k).isSome
  | .contains k => .flag (F.lookup k).isSome

/-- What becomes of a finite map. -/
def Act.after (F : Finmap fun _ : κ => ν) : Act κ ν → Finmap fun _ : κ => ν
  | .set k v | .swap k v => F.insert k v
  | .setAbsent k v | .getOrSet k v => Map.insertAbsent F k v
  | .delete k => F.erase k
  | .get _ | .contains _ => F
  | .clear => ∅
  | .extend l => Map.setAll F l

/-- What a finite map answers. -/
def Ask.answer (F : Finmap fun _ : κ => ν) : Ask κ ν → Answer κ ν
  | .act a => a.answer F
  | .look k => .entry ((F.lookup k).map (k, ·))
  | .leave => .nothing

/-- What becomes of a finite map. -/
def Ask.after (F : Finmap fun _ : κ => ν) : Ask κ ν → Finmap fun _ : κ => ν
  | .act a => a.after F
  | .look _ | .leave => F

/--
A map agrees with a finite map: a full scan goes through and sees exactly its pairs, each once,
and the counts, which are words, are right as long as a word can tell the number of keys.
-/
structure Agrees (m : Map κ ν) (F : Finmap fun _ : κ => ν) : Prop where
  scan : ∃ seen m', m.range Map.collect #[] = (.done true, seen, m') ∧ seen.toList.Nodup ∧
    ∀ e, e ∈ seen ↔ F.lookup e.1 = some e.2
  len : F.keys.card < 2 ^ 64 → m.len = F.keys.card
  isEmpty : F.keys.card < 2 ^ 64 → m.isEmpty = decide (F.keys.card = 0)

/-- One thing after another, the answer is the finite map's, and the map agrees with it then. -/
def Replays (F : Finmap fun _ : κ => ν) : List (Moment κ ν) → Prop
  | [] => True
  | t :: log => t.answer = t.ask.answer F ∧ Agrees t.map (t.ask.after F) ∧
      Replays (t.ask.after F) log

/-- What becomes of a finite map in the end. -/
def afterAll (F : Finmap fun _ : κ => ν) (log : List (Moment κ ν)) : Finmap fun _ : κ => ν :=
  log.foldl (fun F t => t.ask.after F) F

end Finite

/-! ## They agree -/

section Agree

variable [DecidableEq κ] {F : Finmap fun _ : κ => ν} {m : Map κ ν}

theorem Map.Represents.agrees (h : m.Represents F) : Agrees m F where
  scan := h.scan
  len := h.len_eq
  isEmpty := h.isEmpty_eq

theorem Replays.append {log log' : List (Moment κ ν)} (h : Replays F log)
    (h' : Replays (afterAll F log) log') : Replays F (log ++ log') := by
  induction log generalizing F with
  | nil => exact h'
  | cons t log ih =>
    obtain ⟨hanswer, hagrees, hrest⟩ := h
    exact ⟨hanswer, hagrees, ih hrest h'⟩

theorem afterAll_append (log log' : List (Moment κ ν)) :
    afterAll F (log ++ log') = afterAll (afterAll F log) log' := List.foldl_append

/-- Came to an end, met with what a finite map does, and left a map that represents it. -/
structure Faithful (F : Finmap fun _ : κ => ν) (x : Outcome κ ν ρ × Map κ ν) : Prop where
  done : ∃ r, x.1.result = .done r
  replays : Replays F x.1.log
  represents : x.2.Represents (afterAll F x.1.log)

namespace Faithful

theorem still {o : Outcome κ ν ρ} {m m' : Map κ ν} (h : Faithful F (o, m)) (hstill : m.Still m') :
    Faithful F (o, m') :=
  ⟨h.done, h.replays, h.represents.still hstill⟩

theorem andThen {o : Outcome κ ν ρ} (h : Faithful F (o, m))
    {f : ρ → Map κ ν → Outcome κ ν σ × Map κ ν}
    (hf : ∀ r m G, m.Represents G → Faithful G (f r m)) :
    Faithful F (Outcome.andThen (o, m) f) := by
  obtain ⟨⟨r, hdone⟩, hreplays, hrep⟩ := h
  obtain ⟨a, log⟩ := o
  obtain rfl : a = .done r := hdone
  have hnext := hf r m _ hrep
  unfold Outcome.andThen
  dsimp only at hreplays hrep hnext ⊢
  generalize f r m = x at *
  obtain ⟨o, m'⟩ := x
  -- the second log starts from the finite map that the first one ends with
  refine ⟨hnext.done, hreplays.append hnext.replays, ?_⟩
  dsimp only
  rw [afterAll_append]
  exact hnext.represents

theorem note {q : Ask κ ν} {a : Answer κ ν} (hm : m.Represents (q.after F)) (ha : a = q.answer F)
    {f : Map κ ν → Outcome κ ν ρ × Map κ ν} (hf : ∀ m G, m.Represents G → Faithful G (f m)) :
    Faithful F (Outcome.note q a f m) := by
  have hnext := hf m _ hm
  unfold Outcome.note
  generalize f m = x at *
  obtain ⟨o, m'⟩ := x
  exact ⟨hnext.done, ⟨ha, hm.agrees, hnext.replays⟩, hnext.represents⟩

theorem leave (hm : m.Represents F) {f : Map κ ν → Outcome κ ν ρ × Map κ ν}
    (hf : ∀ m G, m.Represents G → Faithful G (f m)) :
    Faithful F (Outcome.note .leave .nothing f m) :=
  note (q := .leave) hm rfl hf

theorem visit {o : Outcome κ ν ρ} (h : Faithful F (o, m)) {more : ρ → Bool}
    {f : κ × ν → ρ → Map κ ν → Outcome κ ν ρ × Map κ ν}
    (hf : ∀ e r m G, m.Represents G → Faithful G (f e r m)) (e : κ × ν) :
    Faithful F (Outcome.visit more f e o m).2 := by
  have hvisit := h.andThen (hf e)
  unfold Outcome.visit
  generalize Outcome.andThen (o, m) (f e) = x at *
  obtain ⟨o', m'⟩ := x
  dsimp only
  split
  · exact hvisit
  · exact hvisit

end Faithful

omit [DecidableEq κ] in
theorem Attempt.answer_done {α : Type} {f : α → Answer κ ν} {x : Attempt α × Map κ ν} {a : α}
    (h : x = (.done a, m)) : Attempt.answer f x = (.done (f a), m) := by
  rw [h]
  rfl

/-- An operation answers what the finite map does, and the map represents what it becomes. -/
theorem Act.run_faithful (h : m.Represents F) (a : Act κ ν) :
    ∃ m', a.run m = (.done (a.answer F), m') ∧ m'.Represents (a.after F) := by
  cases a with
  | set k v =>
    obtain ⟨m', hrun, hrep⟩ := h.set k v
    have hanswer := Attempt.answer_done (f := fun _ => Answer.nothing) hrun
    exact ⟨m', hanswer, hrep⟩
  | swap k v =>
    obtain ⟨m', hrun, hrep⟩ := h.swap k v
    have hanswer := Attempt.answer_done (f := Answer.value) hrun
    exact ⟨m', hanswer, hrep⟩
  | setAbsent k v =>
    obtain ⟨m', hrun, hrep⟩ := h.setAbsent k v
    have hanswer := Attempt.answer_done (f := Answer.flag) hrun
    exact ⟨m', hanswer, hrep⟩
  | getOrSet k v =>
    obtain ⟨m', hrun, hrep⟩ := h.getOrSet k v
    have hanswer := Attempt.answer_done (f := fun (v, existed) => Answer.found v existed) hrun
    exact ⟨m', hanswer, hrep⟩
  | delete k =>
    obtain ⟨m', hrun, hrep⟩ := h.delete k
    have hanswer := Attempt.answer_done (f := Answer.value) hrun
    exact ⟨m', hanswer, hrep⟩
  | get k =>
    obtain ⟨m', hrun, hrep⟩ := h.get k
    have hanswer := Attempt.answer_done (f := Answer.value) hrun
    exact ⟨m', hanswer, hrep⟩
  | contains k =>
    obtain ⟨m', hrun, hrep⟩ := h.contains k
    have hanswer := Attempt.answer_done (f := Answer.flag) hrun
    exact ⟨m', hanswer, hrep⟩
  | clear =>
    obtain ⟨m', hrun, hrep⟩ := h.clear
    have hanswer := Attempt.answer_done (f := fun _ => Answer.nothing) hrun
    exact ⟨m', hanswer, hrep⟩
  | extend l => exact ⟨m.extend l, rfl, h.extend l⟩

/-- Whatever a client does to a map that represents a finite map, it cannot tell them apart. -/
theorem Client.run_faithful (c : Client κ ν ρ) (h : m.Represents F) : Faithful F (c.run m) := by
  -- on the client: callbacks are clients too, run on a map that represents the same finite map
  induction c generalizing m F with
  | stop r => exact ⟨⟨r, rfl⟩, trivial, h⟩
  | act a next ih =>
    obtain ⟨m', hrun, hrep⟩ := a.run_faithful h
    unfold Client.run
    rw [hrun]
    exact .note hrep rfl fun m G hm => ih _ hm
  | read k inside next ihinside ihnext =>
    unfold Client.run
    dsimp only
    rcases h.read_cases k fun e =>
        Outcome.note (.look k) (.entry (some e)) (inside e).run with
      ⟨hnone, m', hstill, hread⟩ | ⟨v, p, n, i, m', hv, hstill, hread⟩
    · rw [hread]
      refine .note (h.still hstill) ?_ fun m G hm => ihnext _ hm
      rw [Ask.answer, hnone]
      rfl
    · rw [hread]
      have hvisit : Faithful F
          (Outcome.note (.look k) (.entry (some (k, v))) (inside (k, v)).run m') := by
        refine .note (h.still hstill) ?_ fun m G hm => ihinside _ hm
        rw [Ask.answer, hv]
        rfl
      generalize Outcome.note (.look k) (.entry (some (k, v))) (inside (k, v)).run m' = x at *
      obtain ⟨o, m''⟩ := x
      -- the callback over, its version and its table are let go of
      have hrelease := hvisit.represents.sound.quiet.still_release p n
      have hleave := hrelease.trans (hrelease.quiet.still_leave i)
      exact (hvisit.still hleave).andThen fun r m G hm =>
        Faithful.leave hm fun m G hm => ihnext (some r) hm
  | range start inside more next ihinside ihnext =>
    have hstart : Faithful F ((⟨.done start, []⟩ : Outcome κ ν ρ), m) :=
      ⟨⟨start, rfl⟩, trivial, h⟩
    unfold Client.run
    -- carried from visit to visit: what has been met with so far, on the map as it now is
    obtain ⟨⟨went, hgo⟩, hvisits⟩ := Map.range_keeps (P := fun o m => Faithful F (o, m))
      (f := Outcome.visit more fun e r => (inside e r).run)
      (fun o m hm => hm.represents.sound.quiet) (fun o m m' hm hstill => hm.still hstill)
      (fun e o m hm => hm.visit (fun e r m G hG => ihinside e r hG) e)
      hstart
    generalize m.range (Outcome.visit more fun e r => (inside e r).run) ⟨.done start, []⟩ = x at *
    obtain ⟨a, o, m'⟩ := x
    obtain rfl : a = .done went := hgo
    exact hvisits.andThen fun r m G hm => .leave hm fun m G hm => ihnext went r hm

/--
**A map is a finite map to its clients.** A new map of either layout, whatever hash function,
number of shards and capacity it is given, is filled with entries and left to a client. It
agrees with the finite map of these entries. The client never waits, and each of its operations,
also those from inside callbacks, answers and leaves what the finite map does at that moment.
-/
theorem Map.client_agrees (layout : Layout) (hash : κ → UInt64) (n capacity : Nat)
    (entries : List (κ × ν)) (c : Client κ ν ρ) :
    Agrees ((new layout hash n capacity).extend entries) (setAll ∅ entries) ∧
      (∃ r, (c.run ((new layout hash n capacity).extend entries)).1.result = .done r) ∧
      Replays (setAll ∅ entries) (c.run ((new layout hash n capacity).extend entries)).1.log := by
  have hnew := (represents_new (ν := ν) layout hash n capacity).extend entries
  have hrun := c.run_faithful hnew
  exact ⟨hnew.agrees, hrun.done, hrun.replays⟩

end Agree

end VersionedMap
