import VersionedMap.Proofs.Operations
import VersionedMap.Script.Run

/-!
# Guests of a map

A **guest** works with a map and may take a view of it. It looks at both as it likes, and goes on
as it sees fit: it does **deeds**, which change the map or would like to, and it reads and scans,
with guests again for callbacks. A deed that has to wait for a view is refused, and nothing has
happened; whoever goes on after it is somebody else than the one who waits.

What a guest has seen is written down as it comes: the view and the map after every deed, and
whenever a callback begins or has ended.
-/

namespace VersionedMap

variable {κ ν ρ σ α : Type}

/-! ## Deeds -/

/-- What changes a map, or the view of it. -/
inductive Deed (κ ν : Type)
  | set (k : κ) (v : ν)
  | swap (k : κ) (v : ν)
  | setAbsent (k : κ) (v : ν)
  | getOrSet (k : κ) (v : ν)
  | delete (q : Lookup κ)
  | clear
  /-- Takes a view of the map. -/
  | lock
  /-- Removes all items by way of the view. -/
  | wipe
  /-- Frees the view. -/
  | free

/-- A view that has been freed does nothing any more. -/
theorem View.clear_freed {v : View} (hv : v.freed = true) (m : Map κ ν) :
    v.clear m = .error .viewFreed := by
  unfold View.clear View.check
  rw [hv]
  rfl

theorem View.free_freed {v : View} (hv : v.freed = true) (m : Map κ ν) :
    v.free m = .error .viewFreed := by
  unfold View.free View.check
  rw [hv]
  rfl

theorem View.free_held {v : View} (hv : v.freed = false) (m : Map κ ν) :
    v.free m = .ok ({ freed := true }, m.unlock) := by
  unfold View.free View.check
  rw [hv]
  rfl

/-- An attempt of somebody who has a view, or has none; to wait is to be refused. -/
def View.attempt (v : View) (x : Attempt (Answer κ ν) × Map κ ν) :
    Answer κ ν × View × Map κ ν :=
  let (a, m) := Attempt.settle x
  (a, v, m)

namespace Deed

/-- Carries out a deed. -/
def run [DecidableEq κ] (d : Deed κ ν) (v : View) (m : Map κ ν) : Answer κ ν × View × Map κ ν :=
  match d with
  | .set k w => v.attempt (Attempt.answer (fun _ => .nothing) (m.set k w))
  | .swap k w => v.attempt (Attempt.answer .value (m.swap k w))
  | .setAbsent k w => v.attempt (Attempt.answer .flag (m.setAbsent k w))
  | .getOrSet k w => v.attempt (Attempt.answer (fun (w, old) => .found w old) (m.getOrSet k w))
  | .delete q => v.attempt (Attempt.answer .value (m.delete q))
  | .clear => v.attempt (Attempt.answer (fun _ => .nothing) m.clear)
  | .lock =>
    match m.lock with
    | (.done w, m) => (.nothing, w, m)
    | (.waits, m) => (.refused .wouldBlock, v, m)
  | .wipe =>
    match v.clear m with
    | .ok m => (.nothing, v, m)
    | .error why => (.refused why, v, m)
  | .free =>
    match v.free m with
    | .ok (w, m) => (.nothing, w, m)
    | .error why => (.refused why, v, m)

/--
Whether a deed with this answer leaves the item of a key alone: it neither sets the key nor
removes it, nor all keys.
-/
def Spares (d : Deed κ ν) (a : Answer κ ν) (k : κ) : Prop :=
  match a with
  | .refused _ => True
  | _ =>
    match d with
    | .set k' _ | .swap k' _ => k ≠ k'
    | .setAbsent k' _ => k ≠ k' ∨ a = .flag false
    | .getOrSet k' _ => k ≠ k' ∨ ∃ w, a = .found w true
    | .delete q => a = .value none ∨ q.admits k = false
    | .clear | .wipe => False
    | .lock | .free => True

/-- Setting a key spares the others, whatever the answer. -/
theorem spares_set {k k' : κ} (w : ν) (a : Answer κ ν) (h : k ≠ k') : (set k' w).Spares a k := by
  cases a <;> first | exact h | trivial

/-- A removal spares the keys that it does not ask for. -/
theorem spares_delete {q : Lookup κ} {k : κ} (a : Answer κ ν) (h : q.admits k = false) :
    (delete q).Spares a k := by
  cases a <;> first | exact .inr h | trivial

/-- What a deed comes to, from a view and a map with an answer to a view and a map. -/
structure Comes (d : Deed κ ν) (v : View) (m : Map κ ν) (a : Answer κ ν) (v' : View)
    (m' : Map κ ν) : Prop where
  fit : m'.Fit (!v'.freed)
  passes : m.Passes m'
  spared : ∀ x ∈ m.items, d.Spares a x.key → x ∈ m'.items
  /-- As long as the view is not freed, nothing changes the map but wiping. -/
  held : v.freed = false → d ≠ .free →
    v' = v ∧ ((d ≠ .wipe ∧ m.SameView m') ∨ (d = .wipe ∧ m.Wiped m'))

theorem comes_refused {d : Deed κ ν} {v : View} {m : Map κ ν} (h : m.Fit (!v.freed))
    (why : Refusal) (hd : v.freed = false → d ≠ .wipe) : d.Comes v m (.refused why) v m where
  fit := h
  passes := .refl m
  spared _ hx _ := hx
  held hv _ := ⟨rfl, .inl ⟨hd hv, .refl m⟩⟩

/-- A mutation is carried out where there is no view, and refused where there is one. -/
theorem comes_mutate {d : Deed κ ν} (hd : d ≠ .wipe) {v : View} {m : Map κ ν} (h : m.Fit (!v.freed))
    {hash : UInt64} {f : UInt32 → Mutation κ ν α} {own : κ → Prop} {spares : α → κ → Prop}
    (hf : ∀ hash, (f hash).Edits hash own spares) (hown : ∀ k, own k → m.hash k = hash)
    (answer : α → Answer κ ν) (hanswer : ∀ a k, d.Spares (answer a) k → spares a k)
    {out : Answer κ ν × View × Map κ ν}
    (hout : out = v.attempt (Attempt.answer answer (m.mutate hash f))) :
    d.Comes v m out.1 out.2.1 out.2.2 := by
  subst hout
  cases hv : v.freed with
  | false =>
    rw [hv] at h
    rw [Map.Fit.mutate_held h]
    exact comes_refused (hv ▸ h) .wouldBlock fun _ => hd
  | true =>
    rw [hv] at h
    obtain ⟨a, m', hrun, hfit, hpasses, hkept⟩ := h.mutate hf hown
    rw [hrun]
    refine ⟨?_, hpasses, fun x hx hspared => hkept x hx (hanswer a x.key hspared), fun hheld => ?_⟩
    · show m'.Fit (!v.freed)
      rw [hv]
      exact hfit
    · rw [hv] at hheld
      exact absurd hheld (by simp)

variable [DecidableEq κ]

theorem comes_clear {v : View} {m : Map κ ν} (h : m.Fit (!v.freed)) :
    clear.Comes v m (clear.run v m).1 (clear.run v m).2.1 (clear.run v m).2.2 := by
  show Comes clear v m (v.attempt (Attempt.answer _ m.clear)).1
    (v.attempt (Attempt.answer _ m.clear)).2.1 (v.attempt (Attempt.answer _ m.clear)).2.2
  cases hv : v.freed with
  | false =>
    rw [hv] at h
    rw [Map.Fit.clear_held h]
    exact comes_refused (hv ▸ h) .wouldBlock fun _ => by simp
  | true =>
    rw [hv] at h
    obtain ⟨m', hrun, hfit, hpasses⟩ := Map.Fit.clear h
    rw [hrun]
    refine ⟨?_, hpasses, fun x hx hspared => hspared.elim, fun hheld => ?_⟩
    · show m'.Fit (!v.freed)
      rw [hv]
      exact hfit
    · rw [hv] at hheld
      exact absurd hheld (by simp)

theorem comes_lock {v : View} {m : Map κ ν} (h : m.Fit (!v.freed)) :
    lock.Comes v m (lock.run v m).1 (lock.run v m).2.1 (lock.run v m).2.2 := by
  dsimp only [run]
  cases hv : v.freed with
  | false =>
    rw [hv] at h
    rw [Map.Fit.lock_held h]
    exact comes_refused (hv ▸ h) .wouldBlock fun _ => by simp
  | true =>
    rw [hv] at h
    obtain ⟨m', hrun, hfit, hpasses, hview⟩ := Map.Fit.lock h
    rw [hrun]
    refine ⟨hfit, hpasses, fun x hx _ => ?_, fun hheld => ?_⟩
    · dsimp only
      rw [hview.items_eq]
      exact hx
    · rw [hv] at hheld
      exact absurd hheld (by simp)

theorem comes_wipe {v : View} {m : Map κ ν} (h : m.Fit (!v.freed)) :
    wipe.Comes v m (wipe.run v m).1 (wipe.run v m).2.1 (wipe.run v m).2.2 := by
  dsimp only [run]
  cases hv : v.freed with
  | false =>
    rw [hv] at h
    obtain ⟨m', hrun, hfit, hpasses, hwiped⟩ := Map.Fit.wipe h hv
    rw [hrun]
    exact ⟨hv ▸ hfit, hpasses, fun x hx hspared => hspared.elim,
      fun _ _ => ⟨rfl, .inr ⟨rfl, hwiped⟩⟩⟩
  | true =>
    rw [View.clear_freed hv]
    exact comes_refused h .viewFreed fun hfree => absurd (hv.symm.trans hfree) (by simp)

theorem comes_free {v : View} {m : Map κ ν} (h : m.Fit (!v.freed)) :
    free.Comes v m (free.run v m).1 (free.run v m).2.1 (free.run v m).2.2 := by
  dsimp only [run]
  cases hv : v.freed with
  | false =>
    rw [hv] at h
    obtain ⟨hfit, hpasses, hview⟩ := Map.Fit.unlock h
    rw [View.free_held hv]
    refine ⟨hfit, hpasses, fun x hx _ => ?_, fun _ hne => absurd rfl hne⟩
    dsimp only
    rw [hview.items_eq]
    exact hx
  | true =>
    rw [View.free_freed hv]
    exact comes_refused h .viewFreed fun _ => by simp

/-- What every deed comes to. -/
theorem comes_run (d : Deed κ ν) {v : View} {m : Map κ ν} (h : m.Fit (!v.freed)) :
    d.Comes v m (d.run v m).1 (d.run v m).2.1 (d.run v m).2.2 := by
  have hown (k : κ) : ∀ k', k' = k → m.hash k' = m.hash k := fun k' hk => congrArg m.hash hk
  cases d with
  | set k w =>
    refine comes_mutate (d := .set k w) (f := fun hash => .set hash k w) (by simp) h
      (fun hash => (Mutation.acts_set hash k w).edits) (hown k) (fun _ => .nothing)
      (fun a k' hspared hk => absurd hk hspared) ?_
    show v.attempt (Attempt.answer _ (m.set k w)) = _
    unfold Map.set Map.swap
    generalize m.mutate (m.hash k) (fun hash => Mutation.set hash k w) = out
    obtain ⟨a | _, m'⟩ := out <;> rfl
  | swap k w =>
    exact comes_mutate (d := .swap k w) (by simp) h
      (fun hash => (Mutation.acts_set hash k w).edits) (hown k) .value
      (fun a k' hspared hk => absurd hk hspared) rfl
  | setAbsent k w =>
    refine comes_mutate (d := .setAbsent k w) (by simp) h
      (fun hash => (Mutation.acts_setAbsent hash k w).edits) (hown k) .flag
      (fun a k' hspared hk old ha => ?_) rfl
    -- where the answer is that the key was present, its value stays
    rcases hspared with hne | hflag
    · exact absurd hk hne
    · cases old with
      | none => exact absurd (ha.trans (Answer.flag.inj hflag)) (by simp)
      | some w' => rfl
  | getOrSet k w =>
    refine comes_mutate (d := .getOrSet k w) (by simp) h
      (fun hash => (Mutation.acts_getOrSet hash k w).edits) (hown k)
      (fun (w, old) => .found w old) (fun a k' hspared hk old ha => ?_) rfl
    rcases hspared with hne | ⟨w', hfound⟩
    · exact absurd hk hne
    · cases old with
      | none =>
        rw [← ha] at hfound
        exact absurd (Answer.found.inj hfound).2 (by simp)
      | some w' => rfl
  | delete q =>
    have hdelete : ∀ hash, (Mutation.delete (ν := ν) ⟨hash, q.admits⟩).Edits hash
        (fun _ => False) (fun a k => a = none ∨ q.admits k = false) :=
      fun hash => Mutation.edits_delete ⟨hash, q.admits⟩
    refine comes_mutate (d := .delete q) (by simp) h hdelete (fun k hk => hk.elim) .value
      (fun a k hspared => ?_) rfl
    rcases hspared with hnone | hadmits
    · exact .inl (Answer.value.inj hnone)
    · exact .inr hadmits
  | clear => exact comes_clear h
  | lock => exact comes_lock h
  | wipe => exact comes_wipe h
  | free => exact comes_free h

end Deed

/-! ## Guests -/

/-- What a guest has seen: the deed just done with its answer, if any, and view and map then. -/
structure Sight (κ ν : Type) where
  deed : Option (Deed κ ν × Answer κ ν)
  view : View
  map : Map κ ν

/-- What a guest has come to, the view that it leaves, and what it has seen. -/
structure Stay (κ ν ρ : Type) where
  result : ρ
  view : View
  log : List (Sight κ ν)

/-- A visit of a scan: the entry, what was seen from there, and whether the scan was to go on. -/
structure Visit (κ ν : Type) where
  entry : κ × ν
  log : List (Sight κ ν)
  onward : Bool

/-- A scan under way. -/
structure Tour (κ ν ρ : Type) where
  visits : List (Visit κ ν)
  result : ρ
  view : View

/--
Whoever works with a map, alone or with a view of it. It may look at them, do a deed, and go on by
the answer; the callback of a read or a scan is a guest too. A scan hands a result from visit to
visit, as long as it is told to go on.
-/
inductive Guest (κ ν ρ : Type)
  | stop (r : ρ)
  | look (next : View → Map κ ν → Guest κ ν ρ)
  | act (d : Deed κ ν) (next : Answer κ ν → Guest κ ν ρ)
  | read (q : Lookup κ) (inside : κ × ν → Guest κ ν ρ) (next : Attempt (Option ρ) → Guest κ ν ρ)
  | range (start : ρ) (inside : κ × ν → ρ → Guest κ ν ρ) (more : ρ → Bool)
    (next : Attempt Bool → ρ → Guest κ ν ρ)

/-- Goes on after something has been seen. -/
def Stay.note (t : Sight κ ν) (f : View → Map κ ν → Stay κ ν ρ × Map κ ν) :
    Stay κ ν ρ × Map κ ν :=
  let (s, m) := f t.view t.map
  ({ s with log := t :: s.log }, m)

/-- Has what was seen before in front of what a guest has seen. -/
def Stay.after (log : List (Sight κ ν)) (x : Stay κ ν ρ × Map κ ν) : Stay κ ν ρ × Map κ ν :=
  ({ x.1 with log := log ++ x.1.log }, x.2)

/-- What was seen on some visits. -/
def Visit.logs (l : List (Visit κ ν)) : List (Sight κ ν) := l.flatMap (·.log)

/-- The visitor of a scan whose callback is `f`. -/
def Tour.visit (more : ρ → Bool) (f : κ × ν → ρ → View → Map κ ν → Stay κ ν ρ × Map κ ν) :
    Visitor κ ν (Tour κ ν ρ) := fun e t m =>
  let (s, m) := Stay.note ⟨none, t.view, m⟩ (f e t.result)
  (more s.result, ⟨t.visits ++ [⟨e, s.log, more s.result⟩], s.result, s.view⟩, m)

/-- Lets a guest work with a map, and with the view of it that there may be. -/
def Guest.run [DecidableEq κ] : Guest κ ν ρ → View → Map κ ν → Stay κ ν ρ × Map κ ν
  | .stop r, v, m => (⟨r, v, []⟩, m)
  | .look next, v, m => (next v m).run v m
  | .act d next, v, m =>
    let (a, v, m) := d.run v m
    Stay.note ⟨some (d, a), v, m⟩ (next a).run
  | .read q inside next, v, m =>
    match m.read q fun e m => Stay.note ⟨none, v, m⟩ (inside e).run with
    | (.waits, m) => Stay.note ⟨none, v, m⟩ (next .waits).run
    | (.done none, m) => Stay.note ⟨none, v, m⟩ (next (.done none)).run
    | (.done (some s), m) =>
      Stay.after s.log (Stay.note ⟨none, s.view, m⟩ (next (.done (some s.result))).run)
  | .range start inside more next, v, m =>
    let (went, t, m) := m.range (Tour.visit more fun e r => (inside e r).run) ⟨[], start, v⟩
    Stay.after (Visit.logs t.visits) (Stay.note ⟨none, t.view, m⟩ (next went t.result).run)

/-! ## Courses -/

/-- The last deed, if there was one, spares the item of a key. -/
def Sight.Spares (t : Sight κ ν) (k : κ) : Prop := ∀ d a, t.deed = some (d, a) → d.Spares a k

/-- The last deed was to free the view, or to try. -/
def Sight.Frees (t : Sight κ ν) : Prop := ∃ a, t.deed = some (.free, a)

/-- The last deed was to wipe the map, or to try. -/
def Sight.Wipes (t : Sight κ ν) : Prop := ∃ a, t.deed = some (.wipe, a)

/-- From a view and a map to what is seen next. -/
structure Moves (v : View) (m : Map κ ν) (t : Sight κ ν) : Prop where
  spared : ∀ x ∈ m.items, t.Spares x.key → x ∈ t.map.items
  held : v.freed = false → ¬ t.Frees →
    t.view = v ∧ ((¬ t.Wipes ∧ m.SameView t.map) ∨ (t.Wipes ∧ m.Wiped t.map))

theorem Map.Wiped.of_sameView {m m' m'' : Map κ ν} (hview : m.SameView m') (h : m'.Wiped m'') :
    m.Wiped m'' := by
  refine ⟨hview.toSameShape.trans h.toSameShape, fun i => ?_⟩
  rw [h.view_eq i, Table.size_congr (hview.shelves_eq i)]

theorem Map.Wiped.sameView {m m' m'' : Map κ ν} (h : m.Wiped m') (hview : m'.SameView m'') :
    m.Wiped m'' :=
  ⟨h.toSameShape.trans hview.toSameShape, fun i => (hview.view_eq i).trans (h.view_eq i)⟩

theorem Map.Wiped.trans {m m' m'' : Map κ ν} (h : m.Wiped m') (h' : m'.Wiped m'') :
    m.Wiped m'' := by
  refine ⟨h.toSameShape.trans h'.toSameShape, fun i => ?_⟩
  have hsize : (m'.shardAt i).table.size = (m.shardAt i).table.size := by
    have hshelves : (m'.shardAt i).table.shelves = .replicate (m.shardAt i).table.size [] :=
      congrArg Prod.fst (h.view_eq i)
    rw [← Table.length_shelves, hshelves, List.length_replicate]
  rw [h'.view_eq i, hsize]

theorem Moves.of_sameView {v : View} {m m' : Map κ ν} {t : Sight κ ν} (hview : m.SameView m')
    (h : Moves v m' t) : Moves v m t where
  spared x hx := h.spared x (hview.items_eq ▸ hx)
  held hv hfree := by
    obtain ⟨heq, ⟨hwipes, hsame⟩ | ⟨hwipes, hwiped⟩⟩ := h.held hv hfree
    · exact ⟨heq, .inl ⟨hwipes, hview.trans hsame⟩⟩
    · exact ⟨heq, .inr ⟨hwipes, hwiped.of_sameView hview⟩⟩

/-- What is seen follows from what was seen before, and the end from what is seen last. -/
def Follows : View → Map κ ν → List (Sight κ ν) → View → Map κ ν → Prop
  | v, m, [], v', m' => v' = v ∧ m.SameView m'
  | v, m, t :: log, v', m' => Moves v m t ∧ Follows t.view t.map log v' m'

theorem Follows.of_sameView {v v' : View} {m m' m'' : Map κ ν} {log : List (Sight κ ν)}
    (hview : m.SameView m') (h : Follows v m' log v' m'') : Follows v m log v' m'' := by
  cases log with
  | nil => exact ⟨h.1, hview.trans h.2⟩
  | cons t log => exact ⟨h.1.of_sameView hview, h.2⟩

theorem Follows.trans {v v' v'' : View} {m m' m'' : Map κ ν} {log log' : List (Sight κ ν)}
    (h : Follows v m log v' m') (h' : Follows v' m' log' v'' m'') :
    Follows v m (log ++ log') v'' m'' := by
  induction log generalizing v m with
  | nil =>
    obtain ⟨rfl, hview⟩ := h
    exact h'.of_sameView hview
  | cons t log ih => exact ⟨h.1, ih h.2⟩

/-- An item whose key is spared throughout is in the map throughout. -/
theorem Follows.spared {v v' : View} {m m' : Map κ ν} {log : List (Sight κ ν)}
    (h : Follows v m log v' m') {x : Item κ ν} (hx : x ∈ m.items)
    (hspared : ∀ t ∈ log, t.Spares x.key) : ∀ t ∈ log, x ∈ t.map.items := by
  induction log generalizing v m with
  | nil => exact fun t ht => absurd ht (by simp)
  | cons t log ih =>
    have hnow := h.1.spared x hx (hspared t List.mem_cons_self)
    intro s hs
    rcases List.mem_cons.mp hs with rfl | hs
    · exact hnow
    · exact ih h.2 hnow (fun s hs => hspared s (List.mem_cons_of_mem t hs)) s hs

/--
As long as nobody frees a view it is the same view, and the map shows what it did when the view
was taken, or nothing from when it has been wiped.
-/
theorem Follows.held {v v' : View} {m m' : Map κ ν} {t : Sight κ ν}
    {before after : List (Sight κ ν)} (h : Follows v m (before ++ t :: after) v' m')
    (hv : v.freed = false) (hkept : ∀ s ∈ before ++ [t], ¬ s.Frees) :
    t.view = v ∧ (((∀ s ∈ before ++ [t], ¬ s.Wipes) ∧ m.SameView t.map) ∨
      ((∃ s ∈ before ++ [t], s.Wipes) ∧ m.Wiped t.map)) := by
  induction before generalizing v m with
  | nil =>
    obtain ⟨hview, hcases⟩ := h.1.held hv (hkept t (by simp))
    refine ⟨hview, hcases.imp (And.imp_left ?_) (And.imp_left ?_)⟩
    · exact fun hwipes s hs => (List.mem_singleton.mp hs) ▸ hwipes
    · exact fun hwipes => ⟨t, by simp, hwipes⟩
  | cons u before ih =>
    obtain ⟨hview, hnow⟩ := h.1.held hv (hkept u (by simp))
    obtain ⟨hview', hrest⟩ := ih h.2 (hview ▸ hv) fun s hs => hkept s (List.mem_cons_of_mem u hs)
    refine ⟨hview'.trans hview, ?_⟩
    rcases hnow with ⟨hspares, hsame⟩ | ⟨hwipes, hwiped⟩
    · rcases hrest with ⟨hnone, hsame'⟩ | ⟨⟨s, hs, hwipes⟩, hwiped⟩
      · refine .inl ⟨fun s hs => ?_, hsame.trans hsame'⟩
        rcases List.mem_cons.mp hs with rfl | hs
        · exact hspares
        · exact hnone s hs
      · exact .inr ⟨⟨s, List.mem_cons_of_mem u hs, hwipes⟩, hwiped.of_sameView hsame⟩
    · refine .inr ⟨⟨u, List.mem_cons_self, hwipes⟩, ?_⟩
      rcases hrest with ⟨_, hsame'⟩ | ⟨_, hwiped'⟩
      · exact hwiped.sameView hsame'
      · exact hwiped.trans hwiped'

/-- What is true of all that guests do: from a view and a map by what is seen to others. -/
structure Course (v : View) (m : Map κ ν) (log : List (Sight κ ν)) (v' : View) (m' : Map κ ν) :
    Prop where
  fit : m'.Fit (!v'.freed)
  tracks : m.Tracks (log.map (·.map)) m'
  sights : ∀ t ∈ log, t.map.Fit (!t.view.freed)
  follows : Follows v m log v' m'

namespace Course

variable {v v' v'' : View} {m m' m'' : Map κ ν} {log log' : List (Sight κ ν)}

theorem alike (h : m'.Fit (!v.freed)) (halike : m.Alike m') : Course v m [] v m' where
  fit := h
  tracks := halike.tracks
  sights _ ht := absurd ht (by simp)
  follows := ⟨rfl, halike.sameView⟩

theorem trans (h : Course v m log v' m') (h' : Course v' m' log' v'' m'') :
    Course v m (log ++ log') v'' m'' where
  fit := h'.fit
  tracks := by
    rw [List.map_append]
    exact h.tracks.trans h'.tracks
  sights t ht := by
    rcases List.mem_append.mp ht with ht | ht
    · exact h.sights t ht
    · exact h'.sights t ht
  follows := h.follows.trans h'.follows

/-- Readers, before and after, add nothing to what is seen. -/
theorem between {m₁ m₂ : Map κ ν} (halike : m.Alike m₁) (h : Course v m₁ log v' m₂)
    (hfit : m'.Fit (!v'.freed)) (halike' : m₂.Alike m') : Course v m log v' m' where
  fit := hfit
  tracks := (halike.tracks_trans h.tracks).alike halike'
  sights := h.sights
  follows := by
    have hend : Follows v' m₂ [] v' m' := ⟨rfl, halike'.sameView⟩
    have hall := (h.follows.of_sameView halike.sameView).trans hend
    rwa [List.append_nil] at hall

/-- A sight without a deed. -/
theorem seen (h : m.Fit (!v.freed)) : Course v m [⟨none, v, m⟩] v m where
  fit := h
  tracks := (Map.Passes.refl m).tracks h h
  sights t ht := by
    rw [List.mem_singleton.mp ht]
    exact h
  follows := by
    refine ⟨⟨fun _ hx _ => hx, fun _ _ => ⟨rfl, .inl ⟨?_, .refl m⟩⟩⟩, rfl, .refl m⟩
    rintro ⟨a, hd⟩
    exact absurd hd (by simp)

theorem deed {d : Deed κ ν} {a : Answer κ ν} (h : m.Fit (!v.freed)) (hd : d.Comes v m a v' m') :
    Course v m [⟨some (d, a), v', m'⟩] v' m' where
  fit := hd.fit
  tracks := hd.passes.tracks h hd.fit
  sights t ht := by
    rw [List.mem_singleton.mp ht]
    exact hd.fit
  follows := by
    refine ⟨⟨fun x hx hspared => hd.spared x hx (hspared d a rfl), fun hv hfree => ?_⟩, rfl,
      .refl m'⟩
    obtain ⟨heq, ⟨hne, hsame⟩ | ⟨rfl, hwiped⟩⟩ := hd.held hv fun hd => hfree ⟨a, by rw [hd]⟩
    · refine ⟨heq, .inl ⟨?_, hsame⟩⟩
      rintro ⟨a', hd'⟩
      exact hne (congrArg Prod.fst (Option.some.inj hd'))
    · exact ⟨heq, .inr ⟨⟨a, rfl⟩, hwiped⟩⟩

/-- From when a shard is entered to when it is left. -/
theorem bracket {m₁ m₂ m₃ : Map κ ν} {i : Nat} (henter : m.Swaps i (m.shardAt i).enter.2 m₁)
    (h : Course v m₁ log v' m₂) (hfit : m₃.Fit (!v'.freed))
    (hleave : m₂.Swaps i (m₂.shardAt i).leave m₃) : Course v m log v' m₃ where
  fit := hfit
  tracks := h.tracks.bracket henter hleave
  sights := h.sights
  follows := by
    have hstart : m.SameView m₁ := henter.sameView rfl
    have hend : Follows v' m₂ [] v' m₃ := ⟨rfl, hleave.sameView (Shard.table_leave _)⟩
    have hall := (h.follows.of_sameView hstart).trans hend
    rwa [List.append_nil] at hall

/-- After something has been seen, what is seen next. -/
theorem note {s : Sight κ ν} {f : View → Map κ ν → Stay κ ν ρ × Map κ ν}
    (hs : Course v m [s] s.view s.map)
    (hf : Course s.view s.map (f s.view s.map).1.log (f s.view s.map).1.view (f s.view s.map).2) :
    Course v m (Stay.note s f).1.log (Stay.note s f).1.view (Stay.note s f).2 :=
  hs.trans hf

end Course

end VersionedMap
