import VersionedMap.Bucket.Write

/-!
# What the operations on a bucket do to its items

The list of current items is the view of a bucket. Only publication changes it: to the
items of the draft. Claiming, letting go, moving counts about, locking and reclaiming
leave it as it is. So each write is one equation between lists, provided that the pool
hands out empty versions, which it goes on to do whatever is done to its buckets.
-/

namespace VersionedMap.Bucket

variable {κ ν : Type}

/-! ## Operations that leave the items alone -/

@[simp] theorem items_lock (b : Bucket κ ν) : b.lock.items = b.items := rfl

theorem map_items_endChain (l : List (Version κ ν)) :
    (endChain l).map (·.items) = l.map (·.items) := by
  fun_induction endChain l with
  | case1 => rfl
  | case2 v => rfl
  | case3 v w older ih => simp [ih]

theorem items_eq_head (b : Bucket κ ν) :
    b.items = (b.chain.map (·.items)).headD [] := by
  cases h : b.chain <;> simp [items, newest?, h]

theorem items_congr {b c : Bucket κ ν}
    (h : (b.chain.map (·.items)).head? = (c.chain.map (·.items)).head?) : b.items = c.items := by
  rw [items_eq_head, items_eq_head, List.headD_eq_head?_getD, List.headD_eq_head?_getD, h]

@[simp] theorem items_reclaim (b : Bucket κ ν) (s : Shared κ ν) :
    (b.reclaim s).1.items = b.items := by
  unfold reclaim
  split
  · rfl
  · next head older h =>
    apply items_congr
    simp [map_items_endChain, h]

@[simp] theorem items_servePending (b : Bucket κ ν) (s : Shared κ ν) :
    (b.servePending s).1.items = b.items := by
  unfold servePending
  split
  · rw [items_reclaim]; rfl
  · rfl

@[simp] theorem items_unlock (b : Bucket κ ν) (s : Shared κ ν) :
    (b.unlock s).1.items = b.items :=
  items_servePending ..

@[simp] theorem items_transfer (b : Bucket κ ν) (s : Shared κ ν) :
    (b.transfer s).1.items = b.items := by
  unfold transfer
  split
  · rfl
  · split
    · rfl
    · next head older h =>
      apply items_congr
      simp [h, Version.items]

@[simp] theorem items_rebalance (b : Bucket κ ν) (s : Shared κ ν) :
    (b.rebalance s).1.items = b.items := by
  simp [rebalance]

@[simp] theorem items_acquire (b : Bucket κ ν) (s : Shared κ ν) :
    (b.acquire s).2.1.items = b.items := by
  unfold acquire
  dsimp only
  split
  · rfl
  · split
    · rfl
    · split
      · rfl
      · split
        · rfl
        · split
          · rfl
          · exact (items_rebalance ..).trans rfl

@[simp] theorem items_modifyInternal (b : Bucket κ ν) (n : Nat) (f : Int32 → Int32) :
    (b.modifyInternal n f).items = b.items := by
  apply items_congr
  unfold modifyInternal
  cases b.chain with
  | nil => simp
  | cons head older => cases b.published - n <;> simp [Version.items]

@[simp] theorem items_release (b : Bucket κ ν) (n : Nat) (s : Shared κ ν) :
    (b.release n s).1.items = b.items := by
  unfold release
  split
  · rfl
  · dsimp only
    split
    · rw [items_servePending]; exact items_modifyInternal b n (· - 1)
    · exact items_modifyInternal b n (· - 1)

/-! ## Publication -/

@[simp] theorem items_publish (b : Bucket κ ν) (v : Version κ ν) (s : Shared κ ν) :
    (b.publish v s).1.items = v.items := by
  unfold publish
  dsimp only
  split
  · rfl
  · split
    · rw [items_reclaim]; rfl
    · rfl

theorem items_draftCopy (b : Bucket κ ν) {s : Shared κ ν} (h : s.pool.IsClean) :
    (b.draftCopy s).1.items = b.items := by
  have hv : (s.take).1.items = [] := h.items_take
  unfold draftCopy
  cases hb : b.newest? with
  | none => simpa [hb, items, Version.items] using hv
  | some head => simp [hb, items, hv]

theorem items_draftEmpty (b : Bucket κ ν) {s : Shared κ ν} (h : s.pool.IsClean) :
    (b.draftEmpty s).1.items = [] := by
  have hv : (s.take).1.items = [] := h.items_take
  unfold draftEmpty
  cases hb : b.newest? with
  | none => simpa [Version.items] using hv
  | some head => simp [hv]

theorem items_draftWithout (b : Bucket κ ν) (q : Query κ) {s : Shared κ ν}
    (h : s.pool.IsClean) : (b.draftWithout q s).2.1.items = b.items.eraseP q.selects := by
  have hv : (s.take).1.items = [] := h.items_take
  unfold draftWithout
  cases hb : b.newest? with
  | none => simpa [hb, items, Version.items] using hv
  | some head => simp [hb, items, hv]

/-- What a draft leaves out is what a search for it finds. -/
theorem draftWithout_fst (b : Bucket κ ν) (q : Query κ) (s : Shared κ ν) :
    (b.draftWithout q s).1 = b.items.find? q.selects := by
  unfold draftWithout items
  cases hb : b.newest? with
  | none => rfl
  | some head => exact Version.find?_eq ..

/-! ## Writes -/

theorem find?_eq (b : Bucket κ ν) (q : Query κ) : b.find? q = b.items.find? q.selects := by
  unfold find? items
  cases b.newest? with
  | none => rfl
  | some v => exact Version.find?_eq ..

theorem items_replace (q : Query κ) (i : Item κ ν) (b : Bucket κ ν) {s : Shared κ ν}
    (h : s.pool.IsClean) : (b.replace q i s).2.1.items = b.items.eraseP q.selects ++ [i] := by
  simp [replace, items_draftWithout b q h]

theorem replace_fst (q : Query κ) (i : Item κ ν) (b : Bucket κ ν) (s : Shared κ ν) :
    (b.replace q i s).1 = b.items.find? q.selects :=
  draftWithout_fst ..

theorem items_add (i : Item κ ν) (b : Bucket κ ν) {s : Shared κ ν} (h : s.pool.IsClean) :
    (b.add i s).1.items = b.items ++ [i] := by
  simp [add, items_draftCopy b h]

theorem items_remove (q : Query κ) (b : Bucket κ ν) {s : Shared κ ν} (h : s.pool.IsClean) :
    (b.remove q s).2.1.items = b.items.eraseP q.selects := by
  simp [remove, items_draftWithout b q h]

theorem remove_fst (q : Query κ) (b : Bucket κ ν) (s : Shared κ ν) :
    (b.remove q s).1 = b.items.find? q.selects :=
  draftWithout_fst ..

theorem items_wipe (b : Bucket κ ν) {s : Shared κ ν} (h : s.pool.IsClean) :
    (b.wipe s).1.items = [] := by
  simp [wipe, items_draftEmpty b h]

/-! ## The pool stays clean -/

theorem clean_reclaim (b : Bucket κ ν) {s : Shared κ ν} (h : s.pool.IsClean) :
    (b.reclaim s).2.pool.IsClean := by
  unfold reclaim
  split
  · exact h
  · exact h.putAll _

theorem clean_servePending (b : Bucket κ ν) {s : Shared κ ν} (h : s.pool.IsClean) :
    (b.servePending s).2.pool.IsClean := by
  unfold servePending
  split
  · exact clean_reclaim _ h
  · exact h

theorem clean_unlock (b : Bucket κ ν) {s : Shared κ ν} (h : s.pool.IsClean) :
    (b.unlock s).2.pool.IsClean :=
  clean_servePending _ h

theorem clean_publish (b : Bucket κ ν) (v : Version κ ν) {s : Shared κ ν}
    (h : s.pool.IsClean) : (b.publish v s).2.pool.IsClean := by
  unfold publish
  dsimp only
  split
  · exact h
  · split
    · exact clean_reclaim _ h
    · exact h

theorem clean_transfer (b : Bucket κ ν) {s : Shared κ ν} (h : s.pool.IsClean) :
    (b.transfer s).2.pool.IsClean := by
  unfold transfer
  split
  · exact h
  · split <;> exact h

theorem clean_rebalance (b : Bucket κ ν) {s : Shared κ ν} (h : s.pool.IsClean) :
    (b.rebalance s).2.pool.IsClean :=
  clean_unlock _ (clean_transfer _ h)

theorem clean_acquire (b : Bucket κ ν) {s : Shared κ ν} (h : s.pool.IsClean) :
    (b.acquire s).2.2.pool.IsClean := by
  unfold acquire
  dsimp only
  split
  · exact h
  · split
    · exact h
    · split
      · exact h
      · split
        · exact h
        · split
          · exact h
          · exact clean_rebalance _ h

theorem clean_release (b : Bucket κ ν) (n : Nat) {s : Shared κ ν} (h : s.pool.IsClean) :
    (b.release n s).2.pool.IsClean := by
  unfold release
  split
  · exact h
  · dsimp only
    split
    · exact clean_servePending _ h
    · exact h

theorem clean_draftCopy (b : Bucket κ ν) {s : Shared κ ν} (h : s.pool.IsClean) :
    (b.draftCopy s).2.pool.IsClean := by
  unfold draftCopy
  dsimp only
  split <;> exact h.take

theorem clean_draftEmpty (b : Bucket κ ν) {s : Shared κ ν} (h : s.pool.IsClean) :
    (b.draftEmpty s).2.pool.IsClean := by
  unfold draftEmpty
  dsimp only
  split <;> exact h.take

theorem clean_draftWithout (b : Bucket κ ν) (q : Query κ) {s : Shared κ ν}
    (h : s.pool.IsClean) : (b.draftWithout q s).2.2.pool.IsClean := by
  unfold draftWithout
  dsimp only
  split <;> exact h.take

theorem clean_replace (q : Query κ) (i : Item κ ν) (b : Bucket κ ν) {s : Shared κ ν}
    (h : s.pool.IsClean) : (b.replace q i s).2.2.pool.IsClean :=
  clean_publish _ _ (clean_draftWithout b q h)

theorem clean_add (i : Item κ ν) (b : Bucket κ ν) {s : Shared κ ν} (h : s.pool.IsClean) :
    (b.add i s).2.pool.IsClean :=
  clean_publish _ _ (clean_draftCopy b h)

theorem clean_remove (q : Query κ) (b : Bucket κ ν) {s : Shared κ ν} (h : s.pool.IsClean) :
    (b.remove q s).2.2.pool.IsClean :=
  clean_publish _ _ (clean_draftWithout b q h)

theorem clean_wipe (b : Bucket κ ν) {s : Shared κ ν} (h : s.pool.IsClean) :
    (b.wipe s).2.pool.IsClean :=
  clean_publish _ _ (clean_draftEmpty b h)

end VersionedMap.Bucket
