import VersionedMap.Map.Scan
import VersionedMap.Proofs.Shelves

/-!
# Reading leaves a map still

Guarding a table, acquiring a version and letting go of it change reader counts and chains,
and nothing of what a map holds: the map stays **still**. It also stays **quiet**, with every
lock free, so that nobody who reads it ever waits.

A read hands its callback a still map, and a scan hands one to each visit. Whatever holds
of a map and survives a callback and stillness therefore survives the read or the scan.
-/

namespace VersionedMap

variable {κ ν α σ : Type}

/-! ## Shards -/

/-- What a shard shows: its shelves and its count. -/
def Shard.view (d : Shard κ ν) : List (List (Item κ ν)) × UInt64 := (d.table.shelves, d.table.count)

/-- A shard between operations, with no view of the map about. -/
structure Shard.Quiet (d : Shard κ ν) : Prop where
  table : d.table.Ready
  aside : ∀ t ∈ d.aside, t.Ready
  alone : d.sharers = 0

namespace Shard

theorem quiet_vacant : (vacant : Shard κ ν).Quiet where
  table := Table.ready_ofSize 1 Nat.one_pos
  aside := by intro t ht; simp [vacant] at ht
  alone := rfl

theorem Quiet.tableAt {d : Shard κ ν} (h : d.Quiet) (g : Nat) : (d.tableAt g).Ready := by
  unfold Shard.tableAt
  split
  · rename_i t ht
    exact h.aside t (Array.mem_of_getElem? ht)
  · exact h.table

/-- A table that has not been set aside is the current one. -/
theorem tableAt_current {d : Shard κ ν} {g : Nat} (hg : d.aside.size ≤ g) :
    d.tableAt g = d.table := by
  unfold tableAt
  rw [Array.getElem?_eq_none hg]

theorem modifyTable_eq (d : Shard κ ν) (g : Nat) (f : Table κ ν → α × Table κ ν) :
    d.modifyTable g f = ((f (d.tableAt g)).1,
      if g < d.aside.size then { d with aside := d.aside.setIfInBounds g (f (d.tableAt g)).2 }
      else { d with table := (f (d.tableAt g)).2 }) := by
  unfold modifyTable tableAt
  dsimp only
  split
  · rename_i hlt
    rw [Array.getElem?_eq_getElem hlt]
    dsimp only
    rw [Array.setIfInBounds_setIfInBounds]
  · rename_i hge
    rw [Array.getElem?_eq_none (Nat.not_lt.mp hge)]

/-- A change of a shard that shows nothing and keeps it quiet. -/
def Silent (f : Shard κ ν → Shared κ ν → α × Shard κ ν × Shared κ ν) : Prop :=
  ∀ d s, d.Quiet → s.pool.IsClean →
    (f d s).2.1.Quiet ∧ (f d s).2.1.view = d.view ∧ (f d s).2.1.aside.size ≤ d.aside.size ∧
      (f d s).2.2.pool.IsClean

theorem silent_enter : Silent fun (d : Shard κ ν) s => (d.enter.1, d.enter.2, s) :=
  fun _ _ h hs => ⟨⟨h.table, h.aside, h.alone⟩, rfl, Nat.le_refl _, hs⟩

theorem silent_leave : Silent fun (d : Shard κ ν) s => ((), d.leave, s) := by
  intro d s h hs
  dsimp only
  unfold leave
  split
  · exact ⟨⟨h.table, by simp, h.alone⟩, rfl, Nat.zero_le _, hs⟩
  · exact ⟨⟨h.table, h.aside, h.alone⟩, rfl, Nat.le_refl _, hs⟩

end Shard

/-! ## Maps -/

namespace Map

/-- A map between operations, with no view of it about. -/
structure Quiet (m : Map κ ν) : Prop where
  shards : ∀ d ∈ m.shards, d.Quiet
  clean : m.shared.pool.IsClean

/-- From `m` to `m'` nothing happens that shows. -/
structure Still (m m' : Map κ ν) : Prop where
  quiet : m'.Quiet
  hash_eq : m'.hash = m.hash
  layout_eq : m'.layout = m.layout
  size_eq : m'.shards.size = m.shards.size
  view_eq : ∀ i, (m'.shardAt i).view = (m.shardAt i).view
  aside_le : ∀ i, (m'.shardAt i).aside.size ≤ (m.shardAt i).aside.size

theorem Quiet.still {m : Map κ ν} (h : m.Quiet) : m.Still m where
  quiet := h
  hash_eq := rfl
  layout_eq := rfl
  size_eq := rfl
  view_eq _ := rfl
  aside_le _ := Nat.le_refl _

theorem Still.trans {m m' m'' : Map κ ν} (h : m.Still m') (h' : m'.Still m'') :
    m.Still m'' where
  quiet := h'.quiet
  hash_eq := h'.hash_eq.trans h.hash_eq
  layout_eq := h'.layout_eq.trans h.layout_eq
  size_eq := h'.size_eq.trans h.size_eq
  view_eq i := (h'.view_eq i).trans (h.view_eq i)
  aside_le i := Nat.le_trans (h'.aside_le i) (h.aside_le i)

theorem Quiet.shardAt {m : Map κ ν} (h : m.Quiet) (i : Nat) : (m.shardAt i).Quiet := by
  unfold Map.shardAt
  rw [Array.getD_eq_getD_getElem?]
  cases hd : m.shards[i]? with
  | none => exact Shard.quiet_vacant
  | some d => exact h.shards d (Array.mem_of_getElem? hd)

theorem modifyShard_eq (m : Map κ ν) (i : Nat)
    (f : Shard κ ν → Shared κ ν → α × Shard κ ν × Shared κ ν) :
    m.modifyShard i f = ((f (m.shardAt i) m.shared).1,
      { m with
        shards := m.shards.setIfInBounds i (f (m.shardAt i) m.shared).2.1
        shared := (f (m.shardAt i) m.shared).2.2 }) := by
  unfold modifyShard shardAt
  dsimp only
  rw [Array.setIfInBounds_setIfInBounds]

/-- The shards of a map of which one has been replaced. -/
theorem shardAt_set (m : Map κ ν) (i j : Nat) (d : Shard κ ν) (s : Shared κ ν) :
    ({ m with shards := m.shards.setIfInBounds i d, shared := s } : Map κ ν).shardAt j
      = if i = j ∧ i < m.shards.size then d else m.shardAt j := by
  unfold shardAt
  rw [Array.getD_eq_getD_getElem?, Array.getD_eq_getD_getElem?, Array.getElem?_setIfInBounds]
  by_cases hij : i = j
  · subst hij
    by_cases hlt : i < m.shards.size
    · rw [if_pos rfl, if_pos hlt, if_pos ⟨rfl, hlt⟩]
      rfl
    · rw [if_pos rfl, if_neg hlt, if_neg (fun h => hlt h.2), Array.getElem?_eq_none (by omega)]
  · rw [if_neg hij, if_neg (fun h => hij h.1)]

theorem Quiet.still_modifyShard {m : Map κ ν} (h : m.Quiet) (i : Nat)
    {f : Shard κ ν → Shared κ ν → α × Shard κ ν × Shared κ ν} (hf : Shard.Silent f) :
    m.Still (m.modifyShard i f).2 := by
  obtain ⟨hquiet, hview, haside, hclean⟩ := hf _ _ (h.shardAt i) h.clean
  rw [modifyShard_eq]
  refine ⟨⟨fun d hd => ?_, hclean⟩, rfl, rfl, Array.size_setIfInBounds .., fun j => ?_, fun j => ?_⟩
  · rcases Array.mem_or_eq_of_mem_setIfInBounds hd with hd | rfl
    · exact h.shards d hd
    · exact hquiet
  -- what holds of the one shard that changes holds of all
  · rw [shardAt_set]
    split
    · rename_i hij
      rw [hview, hij.1]
    · rfl
  · rw [shardAt_set]
    split
    · rename_i hij
      rw [← hij.1]
      exact haside
    · exact Nat.le_refl _

theorem Quiet.still_enter {m : Map κ ν} (h : m.Quiet) (i : Nat) : m.Still (m.enter i).2 :=
  h.still_modifyShard i Shard.silent_enter

theorem Quiet.still_leave {m : Map κ ν} (h : m.Quiet) (i : Nat) : m.Still (m.leave i) :=
  h.still_modifyShard i Shard.silent_leave

end Map

/-! ## Buckets -/

namespace Bucket

/-- A change of a bucket that shows nothing and keeps it ready. -/
def Silent (f : Bucket κ ν → Shared κ ν → α × Bucket κ ν × Shared κ ν) : Prop :=
  ∀ b s, b.Ready → s.pool.IsClean →
    (f b s).2.1.Ready ∧ (f b s).2.1.items = b.items ∧ (f b s).2.2.pool.IsClean

theorem silent_acquire : Silent (acquire : Bucket κ ν → Shared κ ν → _) :=
  fun b s h hs => ⟨h.acquire s, items_acquire b s, clean_acquire b hs⟩

theorem silent_release (n : Nat) :
    Silent fun (b : Bucket κ ν) (s : Shared κ ν) => ((), b.release n s) :=
  fun b s h hs => ⟨h.release n s, items_release b n s, clean_release b n hs⟩

end Bucket

namespace Table

theorem ready_getD {t : Table κ ν} (h : t.Ready) (j : Nat) : (t.buckets.getD j {}).Ready := by
  rw [Array.getD_eq_getD_getElem?]
  cases hb : t.buckets[j]? with
  | none => exact Bucket.ready_new
  | some b => exact h b (Array.mem_of_getElem? hb)

theorem items_getD (t : Table κ ν) (j : Nat) :
    (t.buckets.getD j {}).items = t.shelves.getD j [] := by
  rw [Array.getD_eq_getD_getElem?, List.getD_eq_getElem?_getD, getElem?_shelves]
  cases t.buckets[j]? <;> rfl

/-- A bucket replaced by one with the same items leaves the shelves as they are. -/
theorem shelves_setBucket_self {t : Table κ ν} {j : Nat} {b : Bucket κ ν}
    (hb : b.items = (t.buckets.getD j {}).items) : (t.setBucket j b).shelves = t.shelves := by
  rw [shelves_setBucket, hb, items_getD, List.getD_eq_getElem?_getD]
  by_cases hj : j < t.shelves.length
  · rw [List.getElem?_eq_getElem hj]
    exact List.set_getElem_self hj
  · exact List.set_eq_of_length_le (Nat.not_lt.mp hj)

theorem count_setBucket (t : Table κ ν) (j : Nat) (b : Bucket κ ν) :
    (t.setBucket j b).count = t.count := rfl

end Table

/-- A change of one bucket of a shard, in the table of a generation. -/
def Shard.inBucket (g j : Nat) (f : Bucket κ ν → Shared κ ν → α × Bucket κ ν × Shared κ ν)
    (d : Shard κ ν) (s : Shared κ ν) : α × Shard κ ν × Shared κ ν :=
  let ((a, s), d) := d.modifyTable g fun t =>
    let (a, b, s) := f (t.buckets.getD j {}) s
    ((a, s), t.setBucket j b)
  (a, d, s)

theorem Shard.silent_inBucket (g j : Nat)
    {f : Bucket κ ν → Shared κ ν → α × Bucket κ ν × Shared κ ν} (hf : Bucket.Silent f) :
    Silent (inBucket g j f) := by
  intro d s h hs
  obtain ⟨hready, hitems, hclean⟩ := hf _ s (Table.ready_getD (h.tableAt g) j) hs
  have htable := Table.ready_setBucket (i := j) (h.tableAt g) hready
  unfold inBucket
  rw [modifyTable_eq]
  dsimp only
  split
  -- the table has been set aside: the current one is not touched
  · refine ⟨⟨h.table, fun t ht => ?_, h.alone⟩, rfl,
      Nat.le_of_eq (Array.size_setIfInBounds ..), hclean⟩
    rcases Array.mem_or_eq_of_mem_setIfInBounds ht with ht | rfl
    · exact h.aside t ht
    · exact htable
  · rename_i hge
    rw [tableAt_current (Nat.not_lt.mp hge)] at htable hitems hclean ⊢
    refine ⟨⟨htable, h.aside, h.alone⟩, ?_, Nat.le_refl _, hclean⟩
    unfold view
    rw [Table.shelves_setBucket_self hitems, Table.count_setBucket]

namespace Map

theorem modifyBucket_eq (m : Map κ ν) (p : Place)
    (f : Bucket κ ν → Shared κ ν → α × Bucket κ ν × Shared κ ν) :
    m.modifyBucket p f = m.modifyShard p.shard (Shard.inBucket p.generation p.bucket f) := rfl

theorem Quiet.bucketAt {m : Map κ ν} (h : m.Quiet) (p : Place) : (m.bucketAt p).Ready :=
  Table.ready_getD ((h.shardAt p.shard).tableAt p.generation) p.bucket

theorem modifyBucket_fst (m : Map κ ν) (p : Place)
    (f : Bucket κ ν → Shared κ ν → α × Bucket κ ν × Shared κ ν) :
    (m.modifyBucket p f).1 = (f (m.bucketAt p) m.shared).1 := by
  rw [modifyBucket_eq, modifyShard_eq]
  dsimp only
  unfold Shard.inBucket
  rw [Shard.modifyTable_eq]
  rfl

/-- The table that a change of a bucket has been made in. -/
theorem tableAt_modifyBucket {m : Map κ ν} {p : Place} (hi : p.shard < m.shards.size)
    (f : Bucket κ ν → Shared κ ν → α × Bucket κ ν × Shared κ ν) :
    (m.modifyBucket p f).2.tableAt p.shard p.generation
      = (m.tableAt p.shard p.generation).setBucket p.bucket (f (m.bucketAt p) m.shared).2.1 := by
  rw [modifyBucket_eq, modifyShard_eq]
  unfold tableAt
  rw [shardAt_set, if_pos ⟨rfl, hi⟩]
  unfold Shard.inBucket
  rw [Shard.modifyTable_eq]
  dsimp only
  -- the change lands in the table that the generation names, current or set aside
  split
  · rename_i hlt
    conv_lhs => unfold Shard.tableAt
    dsimp only
    rw [Array.getElem?_setIfInBounds_self, if_pos hlt]
    rfl
  · rename_i hge
    rw [Shard.tableAt_current (Nat.not_lt.mp hge)]
    conv_lhs => unfold Shard.tableAt
    dsimp only
    rw [Array.getElem?_eq_none (Nat.not_lt.mp hge)]
    unfold bucketAt tableAt
    rw [Shard.tableAt_current (Nat.not_lt.mp hge)]

/-- The bucket at a place that there is, after a change of it. -/
theorem bucketAt_modifyBucket {m : Map κ ν} {p : Place} (hi : p.shard < m.shards.size)
    (hj : p.bucket < (m.tableAt p.shard p.generation).size)
    (f : Bucket κ ν → Shared κ ν → α × Bucket κ ν × Shared κ ν) :
    (m.modifyBucket p f).2.bucketAt p = (f (m.bucketAt p) m.shared).2.1 := by
  have htable := tableAt_modifyBucket hi f
  have hsize : p.bucket < (m.tableAt p.shard p.generation).buckets.size := hj
  unfold bucketAt at htable ⊢
  rw [htable]
  unfold Table.setBucket
  rw [Array.getD_eq_getD_getElem?, Array.getElem?_setIfInBounds_self, if_pos hsize]
  rfl

/-- A change of one bucket is none of another in the same table. -/
theorem bucketAt_modifyBucket_ne {m : Map κ ν} {i g j k : Nat} (hi : i < m.shards.size)
    (hne : j ≠ k) (f : Bucket κ ν → Shared κ ν → α × Bucket κ ν × Shared κ ν) :
    (m.modifyBucket ⟨i, g, j⟩ f).2.bucketAt ⟨i, g, k⟩ = m.bucketAt ⟨i, g, k⟩ := by
  have htable := tableAt_modifyBucket (p := ⟨i, g, j⟩) hi f
  unfold bucketAt at htable ⊢
  dsimp only at htable ⊢
  rw [htable]
  unfold Table.setBucket
  rw [Array.getD_eq_getD_getElem?, Array.getElem?_setIfInBounds_ne hne,
    ← Array.getD_eq_getD_getElem?]

theorem Quiet.still_release {m : Map κ ν} (h : m.Quiet) (p : Place) (n : Nat) :
    m.Still (m.release p n) :=
  h.still_modifyShard p.shard
    (Shard.silent_inBucket p.generation p.bucket (Bucket.silent_release n))

theorem Quiet.still_acquire {m : Map κ ν} (h : m.Quiet) (p : Place) :
    m.Still (m.acquire p).2 :=
  h.still_modifyShard p.shard
    (Shard.silent_inBucket p.generation p.bucket Bucket.silent_acquire)

/-- Nobody waits for a version, and what is acquired are the current items. -/
theorem Quiet.acquire_cases {m : Map κ ν} (h : m.Quiet) (p : Place) :
    ((m.bucketAt p).items = [] ∧ (m.acquire p).1 = .absent) ∨
    ∃ n, (m.acquire p).1 = .held n ∧
      (p.shard < m.shards.size → p.bucket < (m.tableAt p.shard p.generation).size →
        ((m.acquire p).2.bucketAt p).itemsAt n = (m.bucketAt p).items) := by
  unfold Map.acquire
  rw [modifyBucket_fst]
  rcases (h.bucketAt p).acquire_cases m.shared with hcase | ⟨n, hheld, hitems⟩
  · exact .inl hcase
  · refine .inr ⟨n, hheld, fun hi hj => ?_⟩
    rw [bucketAt_modifyBucket hi hj, hitems]

/-- The bucket at a place in the current table of a shard stands for one of its shelves. -/
theorem items_bucketAt {m : Map κ ν} {i g j : Nat} (hg : (m.shardAt i).aside.size ≤ g) :
    (m.bucketAt ⟨i, g, j⟩).items = (m.shardAt i).table.shelves.getD j [] := by
  unfold bucketAt tableAt
  rw [Shard.tableAt_current hg, Table.items_getD]

end Map

end VersionedMap
