import VersionedMap.Proofs.Walks

/-!
# What is pending is served

A version that is let go of while the lock of its bucket is held leaves a pending mark, and whoever
releases the lock serves it. So where no lock is held nothing is pending: to take a lock then, and
to release it without having done anything, is to do nothing.

This is so in every bucket of every table of a map, whatever guests do to it, and however many of
them read it.
-/

namespace VersionedMap

variable {κ ν ρ α β σ : Type}

/-- What every step of a sweep makes of an element is so of all that the sweep makes. -/
theorem forall_mem_sweep {P : β → Prop} {f : α → σ → β × σ} {a : Array α}
    (h : ∀ x ∈ a, ∀ s, P (f x s).1) (s : σ) : ∀ y ∈ (sweep f a s).1, P y := by
  obtain ⟨_, hpoint⟩ := sweep_pointwise (P := fun _ => True) (R := fun _ y => P y)
    (fun x hx s _ => ⟨trivial, h x hx s⟩) (s := s) trivial
  intro y hy
  obtain ⟨i, hi⟩ := Array.mem_iff_getElem?.mp hy
  obtain ⟨hlt, _⟩ := Array.getElem?_eq_some_iff.mp hi
  rw [size_sweep] at hlt
  obtain ⟨y', hy', hP⟩ := hpoint i _ (Array.getElem?_eq_getElem hlt)
  exact Option.some.inj (hy'.symm.trans hi) ▸ hP

/-! ## Buckets -/

namespace Bucket

/-- Nothing is pending unless the lock is held. -/
def Served (b : Bucket κ ν) : Prop := b.locked = false → b.pending = false

variable {b c : Bucket κ ν}

theorem served_new : ({} : Bucket κ ν).Served := fun _ => rfl

theorem served_lock (b : Bucket κ ν) : b.lock.Served := fun h => absurd h (by simp)

theorem Served.congr (h : b.Served) (hlocked : c.locked = b.locked)
    (hpending : c.pending = b.pending) : c.Served :=
  fun hfree => hpending.trans (h (hlocked.symm.trans hfree))

theorem pending_reclaim (b : Bucket κ ν) (s : Shared κ ν) :
    (b.reclaim s).1.pending = b.pending := by
  unfold reclaim
  cases b.chain <;> rfl

/-- Serving what is pending leaves nothing pending, unless the lock is held. -/
theorem served_servePending (b : Bucket κ ν) (s : Shared κ ν) : (b.servePending s).1.Served := by
  unfold servePending
  split
  · exact fun _ => pending_reclaim _ s
  · rename_i hidle
    intro hfree
    have hfree : b.locked = false := hfree
    simpa [hfree] using hidle

theorem served_unlock (b : Bucket κ ν) (s : Shared κ ν) : (b.unlock s).1.Served :=
  served_servePending _ s

/-- To take a lock and to release it is to do nothing. -/
theorem Served.lock_unlock (h : b.Served) (hfree : b.locked = false) (s : Shared κ ν) :
    b.lock.unlock s = (b, s) := by
  have hback : b.lock.unlocked = b := by
    unfold unlocked lock
    rw [← hfree, if_pos rfl]
  unfold unlock
  rw [hback]
  unfold servePending
  rw [h hfree]
  rfl

theorem Served.acquire (h : b.Served) (s : Shared κ ν) : (b.acquire s).2.1.Served := by
  rcases b.acquire_snd_cases s with hsame | hclaim | hrebalance
  · rw [hsame]
    exact h
  · rw [hclaim]
    exact h.congr rfl rfl
  · rw [hrebalance]
    exact served_unlock _ _

theorem Served.release (h : b.Served) (n : Nat) (s : Shared κ ν) : (b.release n s).1.Served := by
  unfold Bucket.release
  split
  · exact h
  · dsimp only
    split
    · exact served_servePending _ s
    · exact h.congr rfl rfl

theorem Served.reading (h : b.Served) (f : List (Item κ ν) → σ × Shared κ ν → σ × Shared κ ν)
    (x : σ × Shared κ ν) : (b.reading f x).1.Served := by
  have hread := h.acquire x.2
  unfold Bucket.reading
  generalize b.acquire x.2 = acquired at *
  obtain ⟨a, c, s⟩ := acquired
  cases a with
  | absent | waits => exact hread
  | held n => exact hread.release n _

theorem served_ofStaged (o : Option (Version κ ν)) : (ofStaged o).Served := by
  cases o with
  | none => exact served_new
  | some v => exact served_new.congr rfl rfl

theorem Served.publish (h : b.Served) (v : Version κ ν) (s : Shared κ ν) :
    (b.publish v s).1.Served := by
  refine h.congr (locked_publish b v s) ?_
  unfold Bucket.publish
  split
  · rfl
  · dsimp only
    split
    · exact pending_reclaim _ s
    · rfl

end Bucket

/-! ## Tables -/

namespace Table

/-- In no bucket is anything pending unless its lock is held. -/
def Served (t : Table κ ν) : Prop := ∀ b ∈ t.buckets, b.Served

variable {t : Table κ ν}

theorem served_ofSize (n : Nat) (h : 0 < n) : (ofSize n h : Table κ ν).Served := by
  intro b hb
  rw [Array.eq_of_mem_replicate hb]
  exact Bucket.served_new

theorem Served.setBucket (h : t.Served) (i : Nat) {b : Bucket κ ν} (hb : b.Served) :
    (t.setBucket i b).Served := by
  intro c hc
  rcases Array.mem_or_eq_of_mem_setIfInBounds hc with hc | rfl
  · exact h c hc
  · exact hb

theorem Served.getD (h : t.Served) (j : Nat) : (t.buckets.getD j {}).Served := by
  rw [Array.getD_eq_getD_getElem?]
  cases hb : t.buckets[j]? with
  | none => exact Bucket.served_new
  | some b => exact h b (Array.mem_of_getElem? hb)

theorem Served.mutate (h : t.Served) (hash : UInt32) (f : Mutation κ ν α) (s : Shared κ ν) :
    (t.mutate hash f s).2.1.Served := by
  unfold Table.mutate
  dsimp only
  split
  · exact h
  · generalize f t.buckets[t.index hash].lock s = out
    obtain ⟨⟨a, change⟩, b, s'⟩ := out
    have hset : (t.setBucket (t.index hash) (b.unlock s').1).Served :=
      h.setBucket _ (b.served_unlock s')
    cases change <;> exact hset

theorem served_lock (t : Table κ ν) : t.lock.Served := by
  intro c hc
  obtain ⟨b, _, rfl⟩ := Array.mem_map.mp hc
  exact b.served_lock

theorem served_unlock (t : Table κ ν) (s : Shared κ ν) : (t.unlock s).1.Served :=
  forall_mem_sweep (fun b _ s => b.served_unlock s) s

theorem Served.wipe (h : t.Served) (s : Shared κ ν) : (t.wipe s).1.Served :=
  forall_mem_sweep (f := fun (b : Bucket κ ν) s => if b.items.isEmpty then (b, s) else b.wipe s)
    (fun b hb s => by
      split
      · exact h b hb
      · exact (h b hb).publish _ _) s

/-- Growth reads one table and makes another. -/
theorem Served.grow (h : t.Served) (s : Shared κ ν) :
    (t.grow s).1.Served ∧ (t.grow s).2.1.Served := by
  refine ⟨fun c hc => ?_, forall_mem_sweep (fun b hb x => (h b hb).reading _ x) _⟩
  obtain ⟨o, _, rfl⟩ := Array.mem_map.mp hc
  exact Bucket.served_ofStaged o

end Table

/-! ## Shards -/

namespace Shard

/-- Nothing is pending in the current table nor in those set aside. -/
structure Served (d : Shard κ ν) : Prop where
  table : d.table.Served
  aside : ∀ t ∈ d.aside, t.Served

variable {d : Shard κ ν}

theorem served_vacant : (vacant : Shard κ ν).Served :=
  ⟨Table.served_ofSize 1 Nat.one_pos, fun _ ht => absurd ht (Array.not_mem_empty _)⟩

theorem served_ofCapacity (capacity : Nat) : (ofCapacity capacity : Shard κ ν).Served :=
  ⟨Table.served_ofSize _ (Nat.lt_of_lt_of_le (by decide) (minimumBuckets_le_bucketsFor capacity)),
    fun _ ht => absurd ht (Array.not_mem_empty _)⟩

theorem Served.tableAt (h : d.Served) (g : Nat) : (d.tableAt g).Served := by
  unfold Shard.tableAt
  split
  · rename_i t ht
    exact h.aside t (Array.mem_of_getElem? ht)
  · exact h.table

theorem Served.leave (h : d.Served) : d.leave.Served := by
  unfold Shard.leave
  split
  · exact ⟨h.table, fun _ ht => absurd ht (Array.not_mem_empty _)⟩
  · exact ⟨h.table, h.aside⟩

theorem Served.modifyTable (h : d.Served) (g : Nat) {f : Table κ ν → α × Table κ ν}
    (hf : (f (d.tableAt g)).2.Served) : (d.modifyTable g f).2.Served := by
  rw [modifyTable_eq]
  dsimp only
  split
  · refine ⟨h.table, fun t ht => ?_⟩
    rcases Array.mem_or_eq_of_mem_setIfInBounds ht with ht | rfl
    · exact h.aside t ht
    · exact hf
  · exact ⟨hf, h.aside⟩

theorem Served.replace (h : d.Served) {old t : Table κ ν} (hold : old.Served) (ht : t.Served) :
    (d.replace old t).Served := by
  unfold Shard.replace
  split
  · exact ⟨ht, h.aside⟩
  · refine ⟨ht, fun t' ht' => ?_⟩
    rcases Array.mem_push.mp ht' with ht' | rfl
    · exact h.aside t' ht'
    · exact hold

theorem Served.grow (h : d.Served) (s : Shared κ ν) : (d.grow s).2.1.Served := by
  unfold Shard.grow
  split
  · exact h
  · split
    · exact h
    · obtain ⟨hgrown, hold⟩ := h.table.grow s
      exact h.replace hold hgrown

theorem Served.clear (h : d.Served) (s : Shared κ ν) : (d.clear s).2.1.Served := by
  unfold Shard.clear
  split
  · exact h
  · exact h.replace h.table (Table.served_ofSize _ _)

end Shard

/-! ## Maps -/

namespace Map

/-- In no table of any shard is anything pending unless a lock is held. -/
def Served (m : Map κ ν) : Prop := ∀ d ∈ m.shards, d.Served

variable {m m' : Map κ ν}

theorem Served.shardAt (h : m.Served) (i : Nat) : (m.shardAt i).Served := by
  unfold Map.shardAt
  rw [Array.getD_eq_getD_getElem?]
  cases hd : m.shards[i]? with
  | none => exact Shard.served_vacant
  | some d => exact h d (Array.mem_of_getElem? hd)

theorem Served.modifyShard (h : m.Served) (i : Nat)
    {f : Shard κ ν → Shared κ ν → α × Shard κ ν × Shared κ ν}
    (hf : ∀ d s, d.Served → (f d s).2.1.Served) : (m.modifyShard i f).2.Served := by
  rw [modifyShard_eq]
  intro d hd
  rcases Array.mem_or_eq_of_mem_setIfInBounds hd with hd | rfl
  · exact h d hd
  · exact hf _ _ (h.shardAt i)

theorem Served.modifyBucket (h : m.Served) (p : Place)
    {f : Bucket κ ν → Shared κ ν → α × Bucket κ ν × Shared κ ν}
    (hf : ∀ b s, b.Served → (f b s).2.1.Served) : (m.modifyBucket p f).2.Served := by
  refine h.modifyShard p.shard fun d s hd => hd.modifyTable p.generation ?_
  exact (hd.tableAt _).setBucket _ (hf _ s ((hd.tableAt _).getD _))

theorem Served.mutate (h : m.Served) (hash : UInt64) (f : UInt32 → Mutation κ ν α) :
    (m.mutate hash f).2.Served := by
  have hchange : (m.change hash f).2.Served :=
    h.modifyShard _ fun d s hd => ⟨hd.table.mutate _ _ s, hd.aside⟩
  have hgrow (m' : Map κ ν) (h' : m'.Served) (i : Nat) : (m'.grow i).2.Served :=
    h'.modifyShard i fun _ s hd => hd.grow s
  unfold Map.mutate
  dsimp only
  generalize m.change hash f = changed at *
  obtain ⟨a, m₁⟩ := changed
  match a with
  | .waits => exact hchange
  | .done (a, false) => exact hchange
  | .done (a, true) =>
    have hgrown := hgrow m₁ hchange (m.route hash).shard
    dsimp only at hgrown ⊢
    generalize m₁.grow (m.route hash).shard = grown at *
    obtain ⟨a', m₂⟩ := grown
    cases a' <;> exact hgrown

theorem Served.clearFrom (h : m.Served) (i n : Nat) : (m.clearFrom i n).2.Served := by
  induction n generalizing m i with
  | zero => exact h
  | succ n ih =>
    have hfirst : (m.modifyShard i Shard.clear).2.Served :=
      h.modifyShard i fun _ s hd => hd.clear s
    unfold Map.clearFrom
    generalize m.modifyShard i Shard.clear = cleared at *
    obtain ⟨a, m₁⟩ := cleared
    cases a with
    | waits => exact hfirst
    | done => exact ih hfirst (i + 1)

theorem Served.lock (h : m.Served) : m.lock.2.Served := by
  unfold Map.lock
  split
  · exact h
  · intro d hd
    obtain ⟨d₀, hd₀, rfl⟩ := Array.mem_map.mp hd
    exact ⟨d₀.table.served_lock, (h d₀ hd₀).aside⟩

theorem served_shards {f : Shard κ ν → Shared κ ν → Shard κ ν × Shared κ ν}
    (hf : ∀ d ∈ m.shards, ∀ s, (f d s).1.Served) :
    ({ m with shards := (sweep f m.shards m.shared).1, shared := (sweep f m.shards m.shared).2 } :
      Map κ ν).Served :=
  forall_mem_sweep hf m.shared

theorem Served.unlock (h : m.Served) : m.unlock.Served :=
  served_shards (f := fun (d : Shard κ ν) s =>
    ({ d with table := (d.table.unlock s).1, sharers := d.sharers - 1 }, (d.table.unlock s).2))
    fun d hd s => ⟨d.table.served_unlock s, (h d hd).aside⟩

/-- Wiping by way of a view, if it is done at all. -/
theorem Served.wipe (h : m.Served) {v : View} (hm : v.clear m = .ok m') : m'.Served := by
  unfold View.clear at hm
  cases hcheck : v.check with
  | error why =>
    rw [hcheck] at hm
    cases hm
  | ok =>
    rw [hcheck] at hm
    obtain rfl := Except.ok.inj hm
    exact served_shards (f := fun (d : Shard κ ν) s =>
      ({ d with table := (d.table.wipe s).1 }, (d.table.wipe s).2))
      fun d hd s => ⟨(h d hd).table.wipe s, (h d hd).aside⟩

end Map

/-! ## Guests -/

/-- To wait is to be refused, and changes nothing. -/
theorem View.served_attempt (v : View) {answer : α → Answer κ ν} {x : Attempt α × Map κ ν}
    (h : x.2.Served) : (v.attempt (Attempt.answer answer x)).2.2.Served := by
  obtain ⟨a | _, m'⟩ := x <;> exact h

variable [DecidableEq κ]

theorem Deed.served_run (d : Deed κ ν) (v : View) {m : Map κ ν} (h : m.Served) :
    (d.run v m).2.2.Served := by
  cases d with
  | set k w | swap k w | setAbsent k w | getOrSet k w => exact v.served_attempt (h.mutate _ _)
  | delete q => exact v.served_attempt (h.mutate _ _)
  | clear => exact v.served_attempt (h.clearFrom 0 _)
  | lock =>
    have hlock := h.lock
    dsimp only [run]
    generalize m.lock = locked at *
    obtain ⟨a | _, m'⟩ := locked <;> exact hlock
  | wipe =>
    dsimp only [run]
    cases hwipe : v.clear m with
    | ok m' => exact h.wipe hwipe
    | error why => exact h
  | free =>
    dsimp only [run]
    cases hv : v.freed with
    | true =>
      rw [View.free_freed hv]
      exact h
    | false =>
      rw [View.free_held hv]
      exact h.unlock

/-- Whatever is done on a walk, what becomes pending is served. -/
theorem Walk.served {H : List (Hold κ ν)} {v v' : View} {m m' : Map κ ν} {l : List (Instant κ ν)}
    (hwalk : Walk H v m l v' m') (h : m.Served) :
    m'.Served ∧ ∀ t ∈ l, t.sight.map.Served := by
  induction hwalk with
  | rest => exact ⟨h, List.forall_mem_nil _⟩
  | look => exact ⟨h, List.forall_mem_singleton.mpr h⟩
  | @act _ v _ _ d => exact ⟨d.served_run v h, List.forall_mem_singleton.mpr (d.served_run v h)⟩
  | trans _ _ ih ih' =>
    obtain ⟨hmid, hsights⟩ := ih h
    obtain ⟨hend, hsights'⟩ := ih' hmid
    exact ⟨hend, List.forall_mem_append.mpr ⟨hsights, hsights'⟩⟩
  | guard _ _ ih =>
    obtain ⟨hinside, hsights⟩ := ih (h.modifyShard _ fun _ _ hd => ⟨hd.table, hd.aside⟩)
    exact ⟨hinside.modifyShard _ fun _ _ hd => hd.leave, hsights⟩
  | miss => exact ⟨h.modifyBucket _ fun _ s hb => hb.acquire s, List.forall_mem_nil _⟩
  | hold _ _ _ _ _ ih =>
    obtain ⟨hinside, hsights⟩ := ih (h.modifyBucket _ fun _ s hb => hb.acquire s)
    exact ⟨hinside.modifyBucket _ fun _ s hb => hb.release _ s, hsights⟩
  | hand _ _ ih => exact ih h

/-- In no map that guests meet with is anything pending where no lock is held. -/
theorem Map.Reachable.served {v : View} {m : Map κ ν} (h : Reachable v m) : m.Served := by
  have hrun {ρ : Type} {v : View} {m : Map κ ν} (g : Guest κ ν ρ) (hm : Reachable v m)
      (hserved : m.Served) :
      (g.run v m).2.Served ∧ ∀ t ∈ (g.run v m).1.log, t.map.Served := by
    obtain ⟨hwalk, hsights⟩ := g.walks (H := []) (List.forall_mem_nil _) hm.fit
    obtain ⟨hend, hseen⟩ := hwalk.served hserved
    refine ⟨hend, fun t ht => ?_⟩
    rw [← hsights] at ht
    obtain ⟨x, hx, rfl⟩ := List.mem_map.mp ht
    exact hseen x hx
  induction h with
  | new layout hash n capacity =>
    obtain ⟨c, hshards⟩ := shards_new (ν := ν) layout hash n capacity
    intro d hd
    rw [hshards d hd]
    exact Shard.served_ofCapacity c
  | run g hm ih => exact (hrun g hm ih).1
  | within g hm ht ih => exact (hrun g hm ih).2 _ ht

end VersionedMap
