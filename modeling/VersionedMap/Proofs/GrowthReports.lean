import VersionedMap.Proofs.Operations

/-!
# What a map reports of its growth

A map reports its upkeep in a log. What happens in a bucket, be it a read, a write or a mutation,
adds at most that a count has been moved; a table that grows is reported once by its shard. So the
**growths** in the log are changed by nothing but growth, and readers, who come and go in a map with
a view or without, leave it **idle**: what it shows and the growths that it has reported stay.
-/

namespace VersionedMap

variable {κ ν α σ : Type}

/-- Of a table that has grown: its size before and after, and its count. -/
def Event.growth? : Event → Option (Nat × Nat × Nat)
  | .grew before after count => some (before, after, count)
  | .rebalanced .. | .cleared _ => none

/-- The growths that have been reported, the latest last. -/
def Shared.growths (s : Shared κ ν) : List (Nat × Nat × Nat) :=
  s.log.toList.filterMap Event.growth?

theorem Shared.growths_note (s : Shared κ ν) (e : Event) :
    (s.note e).growths = s.growths ++ e.growth?.toList := by
  unfold growths note
  rw [Array.toList_push, List.filterMap_append]
  cases he : e.growth? <;> simp [he]

/-! ## Buckets -/

namespace Bucket

theorem growths_reclaim (b : Bucket κ ν) (s : Shared κ ν) :
    (b.reclaim s).2.growths = s.growths := by
  unfold reclaim
  split <;> rfl

theorem growths_servePending (b : Bucket κ ν) (s : Shared κ ν) :
    (b.servePending s).2.growths = s.growths := by
  unfold servePending
  split
  · exact growths_reclaim _ s
  · rfl

theorem growths_unlock (b : Bucket κ ν) (s : Shared κ ν) :
    (b.unlock s).2.growths = s.growths :=
  growths_servePending _ s

theorem growths_publish (b : Bucket κ ν) (v : Version κ ν) (s : Shared κ ν) :
    (b.publish v s).2.growths = s.growths := by
  unfold publish
  dsimp only
  split
  · rfl
  · split
    · exact growths_reclaim _ s
    · rfl

theorem growths_transfer (b : Bucket κ ν) (s : Shared κ ν) :
    (b.transfer s).2.growths = s.growths := by
  unfold transfer
  split
  · rfl
  · split
    · rfl
    · rw [Shared.growths_note]
      exact List.append_nil _

theorem growths_rebalance (b : Bucket κ ν) (s : Shared κ ν) :
    (b.rebalance s).2.growths = s.growths :=
  (growths_unlock _ _).trans (growths_transfer _ s)

theorem growths_acquire (b : Bucket κ ν) (s : Shared κ ν) :
    (b.acquire s).2.2.growths = s.growths := by
  rcases b.acquire_snd_cases s with hsame | hclaim | hrebalance
  · rw [hsame]
  · rw [hclaim]
  · rw [hrebalance]
    exact growths_rebalance _ s

theorem growths_release (b : Bucket κ ν) (n : Nat) (s : Shared κ ν) :
    (b.release n s).2.growths = s.growths := by
  unfold release
  split
  · rfl
  · dsimp only
    split
    · exact growths_servePending _ s
    · rfl

theorem growths_draftCopy (b : Bucket κ ν) (s : Shared κ ν) :
    (b.draftCopy s).2.growths = s.growths := by
  unfold draftCopy
  dsimp only
  split <;> rfl

theorem growths_draftEmpty (b : Bucket κ ν) (s : Shared κ ν) :
    (b.draftEmpty s).2.growths = s.growths := by
  unfold draftEmpty
  dsimp only
  split <;> rfl

theorem growths_draftWithout (b : Bucket κ ν) (q : Query κ) (s : Shared κ ν) :
    (b.draftWithout q s).2.2.growths = s.growths := by
  unfold draftWithout
  dsimp only
  split <;> rfl

theorem growths_replace (q : Query κ) (i : Item κ ν) (b : Bucket κ ν) (s : Shared κ ν) :
    (b.replace q i s).2.2.growths = s.growths :=
  (growths_publish _ _ _).trans (growths_draftWithout b q s)

theorem growths_add (i : Item κ ν) (b : Bucket κ ν) (s : Shared κ ν) :
    (b.add i s).2.growths = s.growths :=
  (growths_publish _ _ _).trans (growths_draftCopy b s)

theorem growths_remove (q : Query κ) (b : Bucket κ ν) (s : Shared κ ν) :
    (b.remove q s).2.2.growths = s.growths :=
  (growths_publish _ _ _).trans (growths_draftWithout b q s)

theorem growths_wipe (b : Bucket κ ν) (s : Shared κ ν) :
    (b.wipe s).2.growths = s.growths :=
  (growths_publish _ _ _).trans (growths_draftEmpty b s)

/-- A read reports no more than what is done with the items. -/
theorem growths_reading {f : List (Item κ ν) → σ × Shared κ ν → σ × Shared κ ν}
    (hf : ∀ l x, (f l x).2.growths = x.2.growths) (b : Bucket κ ν) (x : σ × Shared κ ν) :
    (b.reading f x).2.2.growths = x.2.growths := by
  have hacquire := growths_acquire b x.2
  unfold reading
  generalize b.acquire x.2 = acquired at *
  obtain ⟨a, c, s⟩ := acquired
  cases a with
  | absent | waits => exact hacquire
  | held n => exact (growths_release c n _).trans ((hf _ (x.1, s)).trans hacquire)

end Bucket

/-! ## Mutations -/

namespace Mutation

/-- A mutation that reports no growth. -/
def Mute (f : Mutation κ ν α) : Prop := ∀ b s, (f b s).2.2.growths = s.growths

theorem mute_delete (q : Query κ) : (delete q : Mutation κ ν (Option ν)).Mute := by
  intro b s
  unfold delete
  split
  · rfl
  · exact Bucket.growths_remove q b s

variable [DecidableEq κ]

theorem mute_set (hash : UInt32) (k : κ) (v : ν) : (set hash k v).Mute :=
  fun b s => Bucket.growths_replace _ _ b s

theorem mute_setAbsent (hash : UInt32) (k : κ) (v : ν) : (setAbsent hash k v).Mute := by
  intro b s
  unfold setAbsent
  split
  · rfl
  · exact Bucket.growths_add _ b s

theorem mute_getOrSet (hash : UInt32) (k : κ) (v : ν) : (getOrSet hash k v).Mute := by
  intro b s
  unfold getOrSet
  split
  · rfl
  · exact Bucket.growths_add _ b s

end Mutation

/-! ## Tables -/

theorem growths_sweep {β γ : Type} {f : β → Shared κ ν → γ × Shared κ ν}
    (hf : ∀ x s, (f x s).2.growths = s.growths) (a : Array β) (s : Shared κ ν) :
    (sweep f a s).2.growths = s.growths :=
  (sweep_spec (P := fun s' => s'.growths = s.growths) (Q := fun _ => True) (g := fun _ => ())
    (h := fun _ => ()) (fun x _ s' hs' => ⟨(hf x s').trans hs', trivial, rfl⟩) rfl).1

namespace Table

theorem growths_dealAll {n : Nat} (l : List (Item κ ν)) (x : Staging κ ν n × Shared κ ν) :
    (Staging.dealAll l x).2.growths = x.2.growths := by
  have hdeal (x : Staging κ ν n × Shared κ ν) (i : Item κ ν) :
      (Staging.deal x i).2.growths = x.2.growths := by
    show (Staging.versionFor x.1.staged _ x.2).2.growths = _
    unfold Staging.versionFor
    split <;> rfl
  induction l generalizing x with
  | nil => rfl
  | cons i l ih => exact (ih (Staging.deal x i)).trans (hdeal x i)

/-- The table itself reports nothing when it grows. -/
theorem growths_grow (t : Table κ ν) (s : Shared κ ν) :
    (t.grow s).2.2.growths = s.growths :=
  (sweep_spec (P := fun x : Staging κ ν (2 * t.size) × Shared κ ν => x.2.growths = s.growths)
    (Q := fun _ => True) (g := fun _ => ()) (h := fun _ => ()) (fun b _ x hx =>
      ⟨(Bucket.growths_reading growths_dealAll b x).trans hx, trivial, rfl⟩) rfl).1

theorem growths_unlock (t : Table κ ν) (s : Shared κ ν) :
    (t.unlock s).2.growths = s.growths :=
  growths_sweep (fun b s => Bucket.growths_unlock b s) t.buckets s

theorem growths_wipe (t : Table κ ν) (s : Shared κ ν) :
    (t.wipe s).2.growths = s.growths := by
  refine growths_sweep (fun b s => ?_) t.buckets s
  split
  · rfl
  · exact Bucket.growths_wipe b s

end Table

/-! ## Readers -/

namespace Map

/-- From `m` to `m'` nothing shows, no growth is reported, and the map stays fit. -/
structure Idles (m m' : Map κ ν) : Prop extends m.SameView m' where
  growths_eq : m'.shared.growths = m.shared.growths
  fit : ∀ held, m.Fit held → m'.Fit held

theorem Idles.refl (m : Map κ ν) : m.Idles m := ⟨.refl m, rfl, fun _ h => h⟩

theorem Idles.trans {m m' m'' : Map κ ν} (h : m.Idles m') (h' : m'.Idles m'') : m.Idles m'' :=
  ⟨h.toSameView.trans h'.toSameView, h'.growths_eq.trans h.growths_eq,
    fun held hm => h'.fit held (h.fit held hm)⟩

variable {m : Map κ ν}

theorem growths_modifyBucket {f : Bucket κ ν → Shared κ ν → α × Bucket κ ν × Shared κ ν}
    (hf : ∀ b s, (f b s).2.2.growths = s.growths) (m : Map κ ν) (p : Place) :
    (m.modifyBucket p f).2.shared.growths = m.shared.growths := by
  rw [modifyBucket_eq, modifyShard_eq]
  dsimp only
  unfold Shard.inBucket
  rw [Shard.modifyTable_eq]
  exact hf _ _

theorem idles_acquire {p : Place} (hp : p.shard < m.shards.size) (hm : ∃ held, m.Fit held) :
    m.Idles (m.acquire p).2 := by
  obtain ⟨held, hm⟩ := hm
  exact ⟨(hm.acquire hp).2.sameView, growths_modifyBucket Bucket.growths_acquire m p,
    fun _ h => (h.acquire hp).1⟩

theorem idles_release {p : Place} (hp : p.shard < m.shards.size) (hm : ∃ held, m.Fit held)
    (n : Nat) : m.Idles (m.release p n) := by
  obtain ⟨held, hm⟩ := hm
  exact ⟨(hm.release hp n).2.sameView,
    growths_modifyBucket (fun b s => Bucket.growths_release b n s) m p,
    fun _ h => (h.release hp n).1⟩

theorem idles_enter {i : Nat} (hi : i < m.shards.size) (hm : ∃ held, m.Fit held) :
    m.Idles (m.enter i).2 := by
  obtain ⟨held, hm⟩ := hm
  refine ⟨(hm.enter hi).2.sameView rfl, ?_, fun _ h => (h.enter hi).1⟩
  unfold enter
  rw [modifyShard_eq]

theorem idles_leave {i : Nat} (hi : i < m.shards.size) (hm : ∃ held, m.Fit held) :
    m.Idles (m.leave i) := by
  obtain ⟨held, hm⟩ := hm
  refine ⟨(hm.leave hi).2.sameView (Shard.table_leave _), ?_, fun _ h => (h.leave hi).1⟩
  unfold leave
  rw [modifyShard_eq]

/--
What a read comes to: it idles and hands nothing to its callback, or it idles, runs the callback,
and lets go of the version and the table that it has held.
-/
theorem read_idles {held : Bool} (h : m.Fit held) (q : Lookup κ)
    (f : κ × ν → Map κ ν → α × Map κ ν) :
    (∃ m', m.Idles m' ∧ (m.read q f = (.waits, m') ∨ m.read q f = (.done none, m'))) ∨
    (∃ e p n i m', m.Idles m' ∧ p.shard < m.shards.size ∧ i < m.shards.size ∧
      m.read q f = (.done (some (f e m').1), ((f e m').2.release p n).leave i)) := by
  have hi := h.route_lt q.hash
  have henter := idles_enter hi ⟨held, h⟩
  unfold read
  dsimp only
  generalize m.enter (m.route q.hash).shard = entered at *
  obtain ⟨g, m₁⟩ := entered
  dsimp only at henter ⊢
  have hfit₁ := henter.fit held h
  have hi₁ : (m.route q.hash).shard < m₁.shards.size := henter.size_eq ▸ hi
  generalize hplace : (⟨(m.route q.hash).shard, g,
    (m₁.tableAt (m.route q.hash).shard g).index (m.route q.hash).hash⟩ : Place) = p at *
  have hp : p.shard = (m.route q.hash).shard := congrArg Place.shard hplace.symm
  have hacquire := idles_acquire (p := p) (hp ▸ hi₁) ⟨held, hfit₁⟩
  generalize m₁.acquire p = acquired at *
  obtain ⟨a, m₂⟩ := acquired
  dsimp only at hacquire ⊢
  have hin := henter.trans hacquire
  have hfit₂ := hin.fit held h
  have hi₂ : (m.route q.hash).shard < m₂.shards.size := hin.size_eq ▸ hi
  cases a with
  | waits =>
    exact .inl ⟨_, hin.trans (idles_leave hi₂ ⟨held, hfit₂⟩), .inl rfl⟩
  | absent =>
    exact .inl ⟨_, hin.trans (idles_leave hi₂ ⟨held, hfit₂⟩), .inr rfl⟩
  | held n =>
    dsimp only
    cases (m₂.bucketAt p).findAt n ⟨(m.route q.hash).hash, q.admits⟩ with
    | none =>
      have hrelease := idles_release (p := p) (hp ▸ hi₂) ⟨held, hfit₂⟩ n
      have hleave := idles_leave (i := (m.route q.hash).shard) (hrelease.size_eq ▸ hi₂)
        ⟨held, hrelease.fit held hfit₂⟩
      exact .inl ⟨_, (hin.trans hrelease).trans hleave, .inr rfl⟩
    | some i => exact .inr ⟨i.entry, p, n, _, m₂, hin, hp ▸ hi, hi, rfl⟩

/-- A read whose callback only looks idles. -/
theorem idles_look (hm : ∃ held, m.Fit held) (q : Lookup κ) (g : κ × ν → α) :
    m.Idles (m.read q fun e m => (g e, m)).2 := by
  obtain ⟨held, h⟩ := hm
  rcases read_idles h q fun e m => (g e, m) with
    ⟨m', hidle, hread | hread⟩ | ⟨e, p, n, i, m', hidle, hp, hi, hread⟩
  · rw [hread]
    exact hidle
  · rw [hread]
    exact hidle
  · rw [hread]
    have hfit := hidle.fit held h
    have hrelease := idles_release (p := p) (hidle.size_eq ▸ hp) ⟨held, hfit⟩ n
    have hleave := idles_leave (i := i) (hrelease.size_eq ▸ hidle.size_eq ▸ hi)
      ⟨held, hrelease.fit held hfit⟩
    exact (hidle.trans hrelease).trans hleave

/-! ## Scans -/

section Keeps

variable {P : σ → Map κ ν → Prop} {f : Visitor κ ν σ} {N : Nat}
  (hfit : ∀ st m, P st m → ∃ held, m.Fit held) (hsize : ∀ st m, P st m → m.shards.size = N)
  (hidle : ∀ st m m', P st m → m.Idles m' → P st m')
  (hf : ∀ e st m, P st m → P (f e st m).2.1 (f e st m).2.2)

include hfit hsize hidle hf

theorem visitBucket_stays {p : Place} (hp : p.shard < N) {st : σ} {m : Map κ ν} (h : P st m) :
    P (visitBucket f p st m).2.1 (visitBucket f p st m).2.2 := by
  have hacquire := hidle st m _ h (idles_acquire (p := p) (hsize st m h ▸ hp) (hfit st m h))
  unfold visitBucket
  generalize m.acquire p = acquired at *
  obtain ⟨a, m₁⟩ := acquired
  cases a with
  | waits => exact hacquire
  | absent => exact hacquire
  | held n =>
    have hvisited := visitItems_keeps hf ((m₁.bucketAt p).itemsAt n) hacquire
    dsimp only
    generalize visitItems f ((m₁.bucketAt p).itemsAt n) st m₁ = visited at *
    obtain ⟨go, st', m₂⟩ := visited
    exact hidle st' m₂ _ hvisited
      (idles_release (hsize st' m₂ hvisited ▸ hp) (hfit st' m₂ hvisited) n)

theorem visitBuckets_stays {i : Nat} (hi : i < N) (g j n : Nat) {st : σ} {m : Map κ ν}
    (h : P st m) :
    P (visitBuckets f i g j n st m).2.1 (visitBuckets f i g j n st m).2.2 := by
  induction n generalizing j st m with
  | zero => exact h
  | succ n ih =>
    have hnext := visitBucket_stays hfit hsize hidle hf (p := ⟨i, g, j⟩) hi h
    unfold visitBuckets
    generalize visitBucket f ⟨i, g, j⟩ st m = visited at *
    obtain ⟨a, st', m'⟩ := visited
    cases a with
    | waits => exact hnext
    | done more =>
      cases more with
      | true => exact ih (j + 1) hnext
      | false => exact hnext

theorem visitShard_stays {i : Nat} (hi : i < N) {st : σ} {m : Map κ ν} (h : P st m) :
    P (visitShard f i st m).2.1 (visitShard f i st m).2.2 := by
  have henter := hidle st m _ h (idles_enter (hsize st m h ▸ hi) (hfit st m h))
  have hnext := visitBuckets_stays hfit hsize hidle hf hi (m.enter i).1 0
    ((m.enter i).2.tableAt i (m.enter i).1).size henter
  unfold visitShard
  dsimp only
  generalize visitBuckets f i (m.enter i).1 0 _ st (m.enter i).2 = visited at *
  obtain ⟨a, st', m'⟩ := visited
  exact hidle st' m' _ hnext (idles_leave (hsize st' m' hnext ▸ hi) (hfit st' m' hnext))

theorem visitShards_stays {i n : Nat} (hn : i + n ≤ N) {st : σ} {m : Map κ ν} (h : P st m) :
    P (visitShards f i n st m).2.1 (visitShards f i n st m).2.2 := by
  induction n generalizing i st m with
  | zero => exact h
  | succ n ih =>
    have hnext := visitShard_stays hfit hsize hidle hf (i := i) (by omega) h
    unfold visitShards
    generalize visitShard f i st m = visited at *
    obtain ⟨a, st', m'⟩ := visited
    cases a with
    | waits => exact hnext
    | done more =>
      cases more with
      | true => exact ih (by omega) hnext
      | false => exact hnext

/-- A scan keeps what its visits keep and idling keeps, whether or not there is a view. -/
theorem range_stays {st : σ} {m : Map κ ν} (h : P st m) :
    P (m.range f st).2.1 (m.range f st).2.2 :=
  visitShards_stays hfit hsize hidle hf (by rw [hsize st m h, Nat.zero_add]) h

end Keeps

end Map

end VersionedMap
