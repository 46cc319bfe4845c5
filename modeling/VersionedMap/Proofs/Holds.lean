import VersionedMap.Proofs.Reach

/-!
# What callbacks hold

A read or a scan **holds** the version that it has acquired until it lets go of it, and a callback
is handed entries of that version. Callbacks run in callbacks, so at any instant there is a stack
of holds, the innermost first.

The reads and scans of this module are those of the map, but they tell the callback the hold as
well. With them what a guest does is gone through once more, and every sight written down along with
the holds that there are at that instant.
-/

namespace VersionedMap

variable {κ ν ρ σ τ α β : Type}

/-- A version that has been acquired and not been let go of yet. -/
structure Hold (κ ν : Type) where
  place : Place
  /-- Which publication of the bucket at the place it is. -/
  publication : Nat
  /-- The version, as it was when it was acquired. -/
  version : Version κ ν
  /-- The entry of it that a callback has been handed, while one runs. -/
  entry : Option (κ × ν) := none

/-- The same hold while a callback runs. -/
def Hold.hand (h : Hold κ ν) (e : κ × ν) : Hold κ ν := { h with entry := some e }

/-- A sight, and what is held then. -/
structure Instant (κ ν : Type) where
  holds : List (Hold κ ν)
  sight : Sight κ ν

namespace Map

/-! ## Reads and scans that tell what they hold -/

/-- Hands the item that a lookup finds to `f`. -/
def readHolding (m : Map κ ν) (q : Lookup κ) (f : Hold κ ν → κ × ν → Map κ ν → α × Map κ ν) :
    Attempt (Option α) × Map κ ν :=
  let r := m.route q.hash
  let (g, m) := m.enter r.shard
  let p : Place := ⟨r.shard, g, (m.tableAt r.shard g).index r.hash⟩
  match m.acquire p with
  | (.waits, m) => (.waits, m.leave r.shard)
  | (.absent, m) => (.done none, m.leave r.shard)
  | (.held n, m) =>
    match (m.bucketAt p).version? n with
    | none => (.done none, (m.release p n).leave r.shard)
    | some w =>
      match w.find? ⟨r.hash, q.admits⟩ with
      | none => (.done none, (m.release p n).leave r.shard)
      | some i =>
        let (a, m) := f ⟨p, n, w, some i.entry⟩ i.entry m
        (.done (some a), (m.release p n).leave r.shard)

/-- Visits the items of the current version of a bucket, and holds it meanwhile. -/
def visitBucketHolding (f : Hold κ ν → Visitor κ ν σ) (p : Place) (st : σ) (m : Map κ ν) :
    Attempt Bool × σ × Map κ ν :=
  match m.acquire p with
  | (.waits, m) => (.waits, st, m)
  | (.absent, m) => (.done true, st, m)
  | (.held n, m) =>
    match (m.bucketAt p).version? n with
    | none => (.done true, st, m.release p n)
    | some w =>
      let (go, st, m) := visitItems (fun e => f ⟨p, n, w, some e⟩ e) w.items st m
      (.done go, st, m.release p n)

/-- Visits so many buckets of a table, from `j` on. -/
def visitBucketsHolding (f : Hold κ ν → Visitor κ ν σ) (i generation j : Nat) :
    Nat → σ → Map κ ν → Attempt Bool × σ × Map κ ν
  | 0, st, m => (.done true, st, m)
  | n + 1, st, m =>
    match visitBucketHolding f ⟨i, generation, j⟩ st m with
    | (.done true, st, m) => visitBucketsHolding f i generation (j + 1) n st m
    | (.done false, st, m) => (.done false, st, m)
    | (.waits, st, m) => (.waits, st, m)

/-- Visits the table that is current in a shard at the start, and guards it meanwhile. -/
def visitShardHolding (f : Hold κ ν → Visitor κ ν σ) (i : Nat) (st : σ) (m : Map κ ν) :
    Attempt Bool × σ × Map κ ν :=
  let (g, m) := m.enter i
  let (go, st, m) := visitBucketsHolding f i g 0 (m.tableAt i g).size st m
  (go, st, m.leave i)

/-- Visits so many shards, from `i` on. -/
def visitShardsHolding (f : Hold κ ν → Visitor κ ν σ) (i : Nat) :
    Nat → σ → Map κ ν → Attempt Bool × σ × Map κ ν
  | 0, st, m => (.done true, st, m)
  | n + 1, st, m =>
    match visitShardHolding f i st m with
    | (.done true, st, m) => visitShardsHolding f (i + 1) n st m
    | (.done false, st, m) => (.done false, st, m)
    | (.waits, st, m) => (.waits, st, m)

/-- Visits every entry until a visit says to stop. -/
def rangeHolding (m : Map κ ν) (f : Hold κ ν → Visitor κ ν σ) (st : σ) :
    Attempt Bool × σ × Map κ ν :=
  visitShardsHolding f 0 m.shards.size st m

/-! ## They are the reads and scans of the map -/

/-- A read whose callback does the same, but for what it gives. -/
theorem readHolding_eq {f : Hold κ ν → κ × ν → Map κ ν → β × Map κ ν}
    {f' : κ × ν → Map κ ν → α × Map κ ν} {give : β → α}
    (hf : ∀ h e m, f' e m = (give (f h e m).1, (f h e m).2)) (m : Map κ ν) (q : Lookup κ) :
    m.read q f' = ((m.readHolding q f).1.map (Option.map give), (m.readHolding q f).2) := by
  unfold read readHolding
  dsimp only
  generalize m.enter (m.route q.hash).shard = entered
  obtain ⟨g, m₁⟩ := entered
  dsimp only
  generalize (⟨(m.route q.hash).shard, g,
    (m₁.tableAt (m.route q.hash).shard g).index (m.route q.hash).hash⟩ : Place) = p
  generalize m₁.acquire p = acquired
  obtain ⟨a, m₂⟩ := acquired
  cases a with
  | waits | absent => rfl
  | held n =>
    unfold Bucket.findAt
    dsimp only
    cases (m₂.bucketAt p).version? n with
    | none => rfl
    | some w =>
      dsimp only
      cases w.find? ⟨(m.route q.hash).hash, q.admits⟩ with
      | none => rfl
      | some i =>
        dsimp only
        rw [hf ⟨p, n, w, some i.entry⟩]
        rfl

/-- What a scan comes to, with the state as `give` gives it. -/
def giving (give : σ → τ) (x : α × σ × Map κ ν) : α × τ × Map κ ν := (x.1, give x.2.1, x.2.2)

section Giving

variable {f : Hold κ ν → Visitor κ ν σ} {f' : Visitor κ ν τ} {give : σ → τ}
  (hf : ∀ h e st m, f' e (give st) m = giving give (f h e st m))

include hf

theorem visitItems_giving (h : κ × ν → Hold κ ν) (l : List (Item κ ν)) (st : σ) (m : Map κ ν) :
    visitItems f' l (give st) m = giving give (visitItems (fun e => f (h e) e) l st m) := by
  induction l generalizing st m with
  | nil => rfl
  | cons i l ih =>
    unfold visitItems
    rw [hf (h i.entry)]
    generalize f (h i.entry) i.entry st m = out
    obtain ⟨go, st', m'⟩ := out
    cases go with
    | true => exact ih st' m'
    | false => rfl

theorem visitBucketHolding_eq (p : Place) (st : σ) (m : Map κ ν) :
    visitBucket f' p (give st) m = giving give (visitBucketHolding f p st m) := by
  unfold visitBucket visitBucketHolding
  generalize m.acquire p = acquired
  obtain ⟨a, m₁⟩ := acquired
  cases a with
  | waits | absent => rfl
  | held n =>
    unfold Bucket.itemsAt
    dsimp only
    cases (m₁.bucketAt p).version? n with
    | none => rfl
    | some w =>
      dsimp only
      rw [visitItems_giving hf fun e => ⟨p, n, w, some e⟩]
      rfl

theorem visitBucketsHolding_eq (i g j n : Nat) (st : σ) (m : Map κ ν) :
    visitBuckets f' i g j n (give st) m = giving give (visitBucketsHolding f i g j n st m) := by
  induction n generalizing j st m with
  | zero => rfl
  | succ n ih =>
    unfold visitBuckets visitBucketsHolding
    rw [visitBucketHolding_eq hf]
    generalize visitBucketHolding f ⟨i, g, j⟩ st m = out
    obtain ⟨a, st', m'⟩ := out
    cases a with
    | waits => rfl
    | done go =>
      cases go with
      | true => exact ih (j + 1) st' m'
      | false => rfl

theorem visitShardHolding_eq (i : Nat) (st : σ) (m : Map κ ν) :
    visitShard f' i (give st) m = giving give (visitShardHolding f i st m) := by
  unfold visitShard visitShardHolding
  generalize m.enter i = entered
  obtain ⟨g, m₁⟩ := entered
  dsimp only
  rw [visitBucketsHolding_eq hf]
  rfl

theorem visitShardsHolding_eq (i n : Nat) (st : σ) (m : Map κ ν) :
    visitShards f' i n (give st) m = giving give (visitShardsHolding f i n st m) := by
  induction n generalizing i st m with
  | zero => rfl
  | succ n ih =>
    unfold visitShards visitShardsHolding
    rw [visitShardHolding_eq hf]
    generalize visitShardHolding f i st m = out
    obtain ⟨a, st', m'⟩ := out
    cases a with
    | waits => rfl
    | done go =>
      cases go with
      | true => exact ih (i + 1) st' m'
      | false => rfl

/-- A scan whose visits do the same, but for the state that they carry. -/
theorem rangeHolding_eq (st : σ) (m : Map κ ν) :
    m.range f' (give st) = giving give (m.rangeHolding f st) :=
  visitShardsHolding_eq hf 0 m.shards.size st m

end Giving

end Map

/-! ## Guests -/

/-- The callback of a read, with the instants that `g` tells of it. -/
def Stay.attend (f : κ × ν → View → Map κ ν → Stay κ ν ρ × Map κ ν)
    (g : κ × ν → List (Hold κ ν) → View → Map κ ν → List (Instant κ ν)) (holds : List (Hold κ ν))
    (v : View) : Hold κ ν → κ × ν → Map κ ν → (Stay κ ν ρ × List (Instant κ ν)) × Map κ ν :=
  fun h e m =>
    let (s, m') := Stay.note ⟨none, v, m⟩ (f e)
    ((s, ⟨h :: holds, ⟨none, v, m⟩⟩ :: g e (h :: holds) v m), m')

/-- The visitor of a scan whose callback is `f`, with the instants that `g` tells of a callback. -/
def Tour.attend (more : ρ → Bool) (f : κ × ν → ρ → View → Map κ ν → Stay κ ν ρ × Map κ ν)
    (g : κ × ν → ρ → List (Hold κ ν) → View → Map κ ν → List (Instant κ ν))
    (holds : List (Hold κ ν)) : Hold κ ν → Visitor κ ν (Tour κ ν ρ × List (Instant κ ν)) :=
  fun h e st m =>
    let (go, t, m') := Tour.visit more f e st.1 m
    (go, (t, st.2 ++ ⟨h :: holds, ⟨none, st.1.view, m⟩⟩ ::
      g e st.1.result (h :: holds) st.1.view m), m')

/-- All that a guest sees, with what is held then; `holds` is held from the start. -/
def Guest.instants [DecidableEq κ] :
    Guest κ ν ρ → List (Hold κ ν) → View → Map κ ν → List (Instant κ ν)
  | .stop _, _, _, _ => []
  | .look next, holds, v, m => (next v m).instants holds v m
  | .act d next, holds, v, m =>
    let (a, v, m) := d.run v m
    ⟨holds, ⟨some (d, a), v, m⟩⟩ :: (next a).instants holds v m
  | .read q inside next, holds, v, m =>
    match m.readHolding q
      (Stay.attend (fun e => (inside e).run) (fun e => (inside e).instants) holds v) with
    | (.waits, m) => ⟨holds, ⟨none, v, m⟩⟩ :: (next .waits).instants holds v m
    | (.done none, m) => ⟨holds, ⟨none, v, m⟩⟩ :: (next (.done none)).instants holds v m
    | (.done (some (s, l)), m) =>
      l ++ ⟨holds, ⟨none, s.view, m⟩⟩ :: (next (.done (some s.result))).instants holds s.view m
  | .range start inside more next, holds, v, m =>
    let (went, (t, l), m) := m.rangeHolding
      (Tour.attend more (fun e r => (inside e r).run) (fun e r => (inside e r).instants) holds)
      (⟨[], start, v⟩, [])
    l ++ ⟨holds, ⟨none, t.view, m⟩⟩ :: (next went t.result).instants holds t.view m

/-- A read with what its callback holds is the read without. -/
theorem Stay.read_attend (f : κ × ν → View → Map κ ν → Stay κ ν ρ × Map κ ν)
    (g : κ × ν → List (Hold κ ν) → View → Map κ ν → List (Instant κ ν)) (holds : List (Hold κ ν))
    (v : View) (m : Map κ ν) (q : Lookup κ) :
    m.read q (fun e m => Stay.note ⟨none, v, m⟩ (f e)) =
      ((m.readHolding q (Stay.attend f g holds v)).1.map (Option.map Prod.fst),
        (m.readHolding q (Stay.attend f g holds v)).2) := by
  refine Map.readHolding_eq (fun h e m => ?_) m q
  rfl

/-- A scan with what its visits hold is the scan without. -/
theorem Tour.range_attend (more : ρ → Bool)
    (f : κ × ν → ρ → View → Map κ ν → Stay κ ν ρ × Map κ ν)
    (g : κ × ν → ρ → List (Hold κ ν) → View → Map κ ν → List (Instant κ ν))
    (holds : List (Hold κ ν)) (st : Tour κ ν ρ × List (Instant κ ν)) (m : Map κ ν) :
    m.range (Tour.visit more f) st.1 =
      Map.giving Prod.fst (m.rangeHolding (Tour.attend more f g holds) st) :=
  Map.rangeHolding_eq (fun _ _ _ _ => rfl) st m

end VersionedMap
