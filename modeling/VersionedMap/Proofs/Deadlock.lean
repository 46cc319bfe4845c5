import VersionedMap.Proofs.Agreement
import VersionedMap.Proofs.Waiting

/-!
# Reading a map under a view of it

Every lookup in a map leaves the count of its bucket one higher, whether or not it finds anything.
So enough of them under a view make the bucket brim, and the next one waits for the view, which
goes on answering. Where both are in the same hands nothing goes on from there.
-/

namespace VersionedMap

variable {κ ν α : Type}

/-- Nobody sets a table aside by leaving. -/
theorem Shard.aside_leave_le {d : Shard κ ν} : d.leave.aside.size ≤ d.aside.size := by
  unfold Shard.leave
  split
  · exact Nat.zero_le _
  · exact Nat.le_refl _

namespace Map

variable {held : Bool} {m m' : Map κ ν}

/-- Who has guarded the current table of a shard guards it in a map that is alike. -/
theorem Alike.guarded (h : m.Alike m') {hash : UInt64} {g : Nat}
    (hg : (m.shardAt (m.route hash).shard).aside.size ≤ g) :
    (m'.shardAt (m'.route hash).shard).aside.size ≤ g := by
  rw [h.route_eq, (h.shards _).aside_eq]
  exact hg

theorem Swaps.aside_le {i : Nat} {d : Shard κ ν} (h : m.Swaps i d m')
    (hd : d.aside.size ≤ (m.shardAt i).aside.size) (j : Nat) :
    (m'.shardAt j).aside.size ≤ (m.shardAt j).aside.size := by
  by_cases hj : j = i
  · rw [hj, h.here]
    exact hd
  · rw [h.others j hj]

/-- A change of the bucket that a hash leads to. -/
theorem Fit.bucketOf_hush (h : m.Fit held)
    {f : Bucket κ ν → Shared κ ν → α × Bucket κ ν × Shared κ ν} (hf : Bucket.Hushed f)
    {hash : UInt64} {g : Nat} (hg : (m.shardAt (m.route hash).shard).aside.size ≤ g) :
    (m.modifyBucket (m.placeOf hash g) f).2.bucketOf hash = (f (m.bucketOf hash) m.shared).2.1 := by
  obtain ⟨_, halike⟩ := h.hush hf (p := m.placeOf hash g) (h.route_lt hash)
  rw [← bucketAt_placeOf (halike.guarded hg), halike.placeOf_eq]
  exact (h.modifyBucket_placeOf f hg).2

/-- A claim that does not bring the count to its bound goes through. -/
theorem Fit.claim (h : m.Fit held) {hash : UInt64} {g : Nat}
    (hg : (m.shardAt (m.route hash).shard).aside.size ≤ g) (hne : (m.bucketOf hash).chain ≠ [])
    (hbelow : (m.bucketOf hash).reference.count + 1 ≠ rebalanceAt) :
    ∃ n m', m.acquire (m.placeOf hash g) = (.held n, m') ∧ m'.Fit held ∧ m.Alike m' ∧
      m'.bucketOf hash = (m.bucketOf hash).claimed := by
  have hacquire :=
    Bucket.acquire_below (h.steady_bucketOf hash).anchored hne hbelow m.shared
  obtain ⟨hfit, halike⟩ := h.acquire (p := m.placeOf hash g) (h.route_lt hash)
  have hheld : (m.acquire (m.placeOf hash g)).1 = .held (m.bucketOf hash).published := by
    unfold Map.acquire
    rw [modifyBucket_fst, bucketAt_placeOf hg, hacquire]
  refine ⟨_, _, Prod.ext hheld rfl, hfit, halike, ?_⟩
  unfold Map.acquire
  rw [h.bucketOf_hush Bucket.hushed_acquire hg, hacquire]

/-- To let go leaves the count as it is. -/
theorem Fit.letGo (h : m.Fit held) {hash : UInt64} {g : Nat}
    (hg : (m.shardAt (m.route hash).shard).aside.size ≤ g) (n : Nat) :
    ((m.bucketOf hash).chain ≠ [] →
        ((m.release (m.placeOf hash g) n).bucketOf hash).chain ≠ []) ∧
      ((m.release (m.placeOf hash g) n).bucketOf hash).reference = (m.bucketOf hash).reference := by
  have hbucket : (m.release (m.placeOf hash g) n).bucketOf hash =
      ((m.bucketOf hash).release n m.shared).1 :=
    h.bucketOf_hush (Bucket.hushed_release n) hg
  rw [hbucket]
  exact ⟨fun hne hnil => hne ((Bucket.shortens_release _ n _).vacant hnil),
    Bucket.reference_congr (Bucket.word_release ..)⟩

/-- What some reads leave, with as many more on the count of the bucket of a hash. -/
structure Counts (held : Bool) (hash : UInt64) (n : Nat) (m m' : Map κ ν) : Prop where
  fit : m'.Fit held
  sameView : m.SameView m'
  published : (m'.bucketOf hash).chain ≠ []
  count_eq : (m'.bucketOf hash).reference.count.toNat
    = (m.bucketOf hash).reference.count.toNat + n
  aside_le : ∀ i, (m'.shardAt i).aside.size ≤ (m.shardAt i).aside.size

theorem Counts.trans {hash : UInt64} {j k : Nat} {m'' : Map κ ν} (h : Counts held hash j m m')
    (h' : Counts held hash k m' m'') : Counts held hash (j + k) m m'' where
  fit := h'.fit
  sameView := h.sameView.trans h'.sameView
  published := h'.published
  count_eq := by rw [h'.count_eq, h.count_eq, Nat.add_assoc]
  aside_le i := Nat.le_trans (h'.aside_le i) (h.aside_le i)

variable {f : κ × ν → Map κ ν → α × Map κ ν}

/-- A read whose callback only looks leaves the map as it shows, and one more on the count. -/
theorem Fit.read_counts (h : m.Fit held) (q : Lookup κ) (hf : ∀ e m, (f e m).2 = m)
    (hne : (m.bucketOf q.hash).chain ≠ [])
    (hbelow : (m.bucketOf q.hash).reference.count.toNat + 1 < rebalanceAt.toNat) :
    Counts held q.hash 1 m (m.read q f).2 := by
  have hroomy := Nat.lt_of_succ_lt hbelow
  have hshort : (m.bucketOf q.hash).reference.count + 1 ≠ rebalanceAt := fun hat =>
    absurd ((next_eq_rebalanceAt_iff hroomy).mp hat) (Nat.ne_of_lt hbelow)
  obtain ⟨g, m₁, hrun, hfit₁, henter, hg, hbucket, hplace⟩ := h.enter_place q.hash
  have hroute := henter.route_eq q.hash
  obtain ⟨n, m₂, hacquire, hfit₂, halike, hclaimed⟩ :=
    hfit₁.claim hg (hbucket ▸ hne) (hbucket ▸ hshort)
  have hi₂ : (m.route q.hash).shard < m₂.shards.size := by
    rw [halike.size_eq, henter.size_eq]
    exact h.route_lt q.hash
  obtain ⟨hchain, hreference⟩ := hfit₂.letGo (halike.guarded hg) n
  obtain ⟨hfit₃, halike₃⟩ := hfit₂.release (p := m₁.placeOf q.hash g)
    (show (m₁.route q.hash).shard < _ from hroute ▸ hi₂) n
  rw [halike.placeOf_eq] at hchain hreference
  obtain ⟨hfit₄, hleave⟩ := hfit₃.leave (i := (m.route q.hash).shard) (halike₃.size_eq ▸ hi₂)
  have hlast := hleave.bucketOf_eq (Shard.table_leave _) q.hash
  -- the callback changes nothing, so this is where the read ends
  have hend : (m.read q f).2 =
      (m₂.release (m₁.placeOf q.hash g) n).leave (m.route q.hash).shard := by
    unfold read
    dsimp only
    rw [hrun]
    dsimp only
    rw [hplace, hacquire]
    dsimp only
    split
    · rfl
    · rw [hf]
  rw [hend]
  refine ⟨hfit₄, ?_, ?_, ?_, fun i => ?_⟩
  · exact (((henter.sameView rfl).trans halike.sameView).trans halike₃.sameView).trans
      (hleave.sameView (Shard.table_leave _))
  · rw [hlast]
    refine hchain ?_
    rw [hclaimed, hbucket]
    exact hne
  · rw [hlast, hreference, hclaimed, hbucket,
      Bucket.reference_claimed (h.steady_bucketOf q.hash).anchored hne,
      toNat_next hroomy]
  · refine Nat.le_trans (hleave.aside_le Shard.aside_leave_le i) ?_
    rw [(halike₃.shards i).aside_eq, (halike.shards i).aside_eq]
    exact henter.aside_le (Nat.le_refl _) i

/-- Under a view, whoever acquires where the bucket brims waits. -/
theorem Fit.acquire_waits (h : m.Fit true) {hash : UInt64} {g : Nat}
    (hg : (m.shardAt (m.route hash).shard).aside.size ≤ g) (hbrims : (m.bucketOf hash).Brims) :
    (m.acquire (m.placeOf hash g)).1 = .waits := by
  have hsteady := h.steady_bucketOf hash
  unfold Map.acquire
  rw [modifyBucket_fst, bucketAt_placeOf hg]
  rcases Bucket.acquire_cases hsteady.anchored m.shared with
    ⟨hnil, _⟩ | ⟨_, _, _, hacquire⟩ | ⟨_, _, hfree, _⟩ | ⟨_, hbelow, _⟩
  · exact absurd hnil hbrims.1
  · rw [hacquire]
  · exact absurd (hfree.symm.trans hsteady.locked_eq) (by simp)
  · exact absurd hbrims.2 hbelow

/-- Under a view, whoever reads where the bucket brims waits. -/
theorem Fit.read_waits (h : m.Fit true) (q : Lookup κ) (hbrims : (m.bucketOf q.hash).Brims) :
    (m.read q f).1 = .waits := by
  obtain ⟨g, m₁, hrun, hfit₁, _, hg, hbucket, hplace⟩ := h.enter_place q.hash
  have hwaits := hfit₁.acquire_waits hg (hbucket ▸ hbrims)
  unfold read
  dsimp only
  rw [hrun]
  dsimp only
  rw [hplace]
  generalize m₁.acquire (m₁.placeOf q.hash g) = acquired at *
  obtain ⟨a, m₂⟩ := acquired
  obtain rfl : a = .waits := hwaits
  rfl

/-- Under a view, a scan that comes to a bucket that brims waits, and visits nothing there. -/
theorem Fit.visitBucket_waits {σ : Type} (h : m.Fit true) {hash : UInt64} {g : Nat}
    (hg : (m.shardAt (m.route hash).shard).aside.size ≤ g) (hbrims : (m.bucketOf hash).Brims)
    (visitor : Visitor κ ν σ) (st : σ) :
    ∃ m', visitBucket visitor (m.placeOf hash g) st m = (.waits, st, m') := by
  have hwaits := h.acquire_waits hg hbrims
  unfold visitBucket
  generalize m.acquire (m.placeOf hash g) = acquired at *
  obtain ⟨a, m'⟩ := acquired
  obtain rfl : a = .waits := hwaits
  exact ⟨m', rfl⟩

/-- A read that finds something has what the callback gave. -/
theorem of_read_done {q : Lookup κ} {a : α} (hread : (m.read q f).1 = .done (some a)) :
    ∃ e m', a = (f e m').1 := by
  unfold read at hread
  dsimp only at hread
  split at hread
  · cases hread
  · cases hread
  · split at hread
    · cases hread
    · exact ⟨_, _, (Option.some.inj (Attempt.done.inj hread)).symm⟩

end Map

/-! ## Reading on and on -/

variable {held : Bool} {v : View} {m : Map κ ν}

/-- A guest who reads the same over and over. -/
def Guest.frequent (q : Lookup κ) : Nat → Guest κ ν Unit
  | 0 => .stop ()
  | n + 1 => .read q (fun _ => .stop ()) fun _ => frequent q n

/-- What a callback that stops at once comes to. -/
def stopping (v : View) (_ : κ × ν) (m : Map κ ν) : Stay κ ν Unit × Map κ ν :=
  (⟨(), v, [⟨none, v, m⟩]⟩, m)

theorem Stay.after_nil {ρ : Type} (x : Stay κ ν ρ × Map κ ν) : Stay.after [] x = x := rfl

theorem Stay.log_after_note {ρ : Type} (log : List (Sight κ ν)) (t : Sight κ ν)
    (f : View → Map κ ν → Stay κ ν ρ × Map κ ν) :
    (Stay.after log (Stay.note t f)).1.log = log ++ t :: (f t.view t.map).1.log := rfl

theorem Stay.map_after_note {ρ : Type} (log : List (Sight κ ν)) (t : Sight κ ν)
    (f : View → Map κ ν → Stay κ ν ρ × Map κ ν) :
    (Stay.after log (Stay.note t f)).2 = (f t.view t.map).2 := rfl

variable [DecidableEq κ]

/-- Nothing is done in a read with such a callback. -/
theorem Guest.run_read_stop (q : Lookup κ) (next : Attempt (Option Unit) → Guest κ ν Unit) :
    ∃ log a, (∀ t ∈ log, t.deed = none) ∧ (Guest.read q (fun _ => .stop ()) next).run v m =
      Stay.after log (Stay.note ⟨none, v, (m.read q (stopping v)).2⟩ (next a).run) := by
  have hstop : (fun (_ : κ × ν) m => Stay.note ⟨none, v, m⟩ (Guest.stop ()).run) = stopping v := by
    funext e m
    dsimp only [Stay.note, Guest.run, stopping]
  have hdone {s : Stay κ ν Unit} (hread : (m.read q (stopping v)).1 = .done (some s)) :
      s.view = v ∧ ∀ t ∈ s.log, t.deed = none := by
    obtain ⟨e, m', rfl⟩ := Map.of_read_done hread
    exact ⟨rfl, fun t ht => by rw [List.mem_singleton.mp ht]⟩
  rw [Guest.run.eq_def (Guest.read _ _ _)]
  dsimp only
  rw [hstop]
  generalize m.read q (stopping v) = out at *
  obtain ⟨a, m'⟩ := out
  cases a with
  | waits => exact ⟨[], .waits, by simp, (Stay.after_nil _).symm⟩
  | done o =>
    cases o with
    | none => exact ⟨[], .done none, by simp, (Stay.after_nil _).symm⟩
    | some s =>
      obtain ⟨hview, hdeeds⟩ := hdone rfl
      refine ⟨s.log, .done (some s.result), hdeeds, ?_⟩
      rw [← hview]

/-- What such a guest has seen, and what it leaves, while the count does not come to its bound. -/
theorem Guest.run_frequent (q : Lookup κ) (n : Nat) (h : m.Fit held)
    (hne : (m.bucketOf q.hash).chain ≠ [])
    (hroom : (m.bucketOf q.hash).reference.count.toNat + n < rebalanceAt.toNat) :
    (∀ t ∈ ((frequent q n).run v m).1.log, t.deed = none) ∧
      (⟨none, v, ((frequent q n).run v m).2⟩ : Sight κ ν) ∈
        ⟨none, v, m⟩ :: ((frequent q n).run v m).1.log ∧
      Map.Counts held q.hash n m ((frequent q n).run v m).2 := by
  induction n generalizing m with
  | zero =>
    unfold frequent Guest.run
    exact ⟨by simp, by simp, h, .refl m, hne, rfl, fun _ => Nat.le_refl _⟩
  | succ n ih =>
    have hone := h.read_counts q (f := stopping v) (fun _ _ => rfl) hne (by omega)
    obtain ⟨log, a, hdeeds, hrun⟩ := run_read_stop (v := v) (m := m) q fun _ => frequent q n
    obtain ⟨hlog, hlast, hcounts⟩ := ih hone.fit hone.published (by rw [hone.count_eq]; omega)
    unfold frequent
    rw [hrun, Stay.log_after_note, Stay.map_after_note]
    refine ⟨fun t ht => ?_, ?_, Nat.add_comm 1 n ▸ hone.trans hcounts⟩
    · rcases List.mem_append.mp ht with ht | ht
      · exact hdeeds t ht
      · rcases List.mem_cons.mp ht with rfl | ht
        · rfl
        · exact hlog t ht
    · exact List.mem_cons_of_mem _ (List.mem_append_right log hlast)

namespace Map

variable [Text.Shown κ] [Text.Shown ν]

omit [DecidableEq κ] in
/-- Under a view, whoever asks for a value where the bucket brims waits. -/
theorem Fit.ask_get_waits {σ α : Type} (h : m.Fit true) (q : Lookup κ)
    (hbrims : (m.bucketOf q.hash).Brims) : (m.ask (.get q : Inquiry κ ν σ α)).1 = .waits := by
  have hwaits : (m.get q).1 = .waits := h.read_waits q hbrims
  unfold Map.ask
  dsimp only
  rw [hwaits]
  rfl

/--
Whoever reads under a view until the bucket brims sees the view answer, and the map make it wait.
-/
theorem Fit.frequent_waits (h : m.Fit true) (hopen : v.freed = false) {q : Lookup κ} {n : Nat}
    (hn : 0 < n) (hne : (m.bucketOf q.hash).chain ≠ [])
    (hat : (m.bucketOf q.hash).reference.count.toNat + n + 1 = rebalanceAt.toNat) :
    ∃ t ∈ ((Guest.frequent q n).run v m).1.log,
      (∀ s ∈ ((Guest.frequent q n).run v m).1.log, s.deed = none) ∧
      t.view.ask t.map (.get q : Inquiry κ ν Unit Unit) = .ok (m.finding (.get q)) ∧
      (t.map.ask (.get q : Inquiry κ ν Unit Unit)).1 = .waits := by
  obtain ⟨hdeeds, hlast, hcounts⟩ := Guest.run_frequent (v := v) q n h hne (by omega)
  generalize (Guest.frequent q n).run v m = out at *
  obtain ⟨stay, m'⟩ := out
  dsimp only at hdeeds hlast hcounts ⊢
  have hcount := hcounts.count_eq
  have hfull : (m'.bucketOf q.hash).reference.count + 1 = rebalanceAt :=
    (next_eq_rebalanceAt_iff (by omega)).mpr (by omega)
  -- the count has gone up, so the last that has been seen is not the start
  have hseen : (⟨none, v, m'⟩ : Sight κ ν) ∈ stay.log := by
    refine (List.mem_cons.mp hlast).resolve_left fun hstart => ?_
    have hsame : m' = m := congrArg Sight.map hstart
    rw [hsame] at hcount
    omega
  have hview := hcounts.fit.view_ask hopen (.get q : Inquiry κ ν Unit Unit)
  rw [hcounts.sameView.finding_eq] at hview
  exact ⟨_, hseen, hdeeds, hview, hcounts.fit.ask_get_waits q ⟨hcounts.published, hfull⟩⟩

/--
**A view outlasts its map.** Two keys in four shards, and a view of them: nothing has been done but
to read one key over and over, the view still has its value, and the map makes whoever reads it
wait.
-/
theorem view_outlasts_map :
    Reachable { freed := true } twoInFour ∧ ∃ w m, twoInFour.lock = (.done w, m) ∧
      ∃ t ∈ ((Guest.frequent ⟨1, (· == 1)⟩ 999999998).run w m).1.log,
        (∀ s ∈ ((Guest.frequent ⟨1, (· == 1)⟩ 999999998).run w m).1.log, s.deed = none) ∧
        t.view.ask t.map asksFirst = .ok (.value (some 10)) ∧
        (t.map.ask asksFirst).1 = .waits := by
  have hreach : Reachable { freed := true } twoInFour := (Reachable.new _ _ _ _).extend _
  obtain ⟨m, hlock, hfit, _, _⟩ := hreach.fit.lock
  have hm : m = twoInFour.lock.2 := congrArg Prod.snd hlock.symm
  have hstate : (m.bucketOf 1).chain ≠ [] ∧ (m.bucketOf 1).reference.count.toNat = 1 ∧
      m.finding asksFirst = .value (some 10) := by
    rw [hm]
    decide +kernel
  obtain ⟨hne, hone, hfinding⟩ := hstate
  obtain ⟨t, ht, hdeeds, hview, hmap⟩ := hfit.frequent_waits (v := {}) rfl
    (q := ⟨1, (· == 1)⟩) (n := 999999998) (by decide) hne (by rw [hone]; rfl)
  exact ⟨hreach, {}, m, hlock, t, ht, hdeeds, hview.trans (congrArg Except.ok hfinding), hmap⟩

end Map

end VersionedMap
