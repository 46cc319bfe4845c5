import VersionedMap.Proofs.Generations

/-!
# What operations do to a fit map

Each operation that changes a map keeps it fit and passes over its shards: mutations, growth and
clearing where there is no view of the map, wiping where there is one, locking and unlocking
from one to the other. Where a view has the locks, all but wiping and unlocking wait, and the map
is what it was.

A mutation is given by what it may put on the shelf of a hash and by what it spares there, as its
answer tells: a key is looked up by any means, and whatever is found may be taken away.
-/

namespace VersionedMap

variable {κ ν α σ : Type}

/-! ## Mutations in a bucket -/

/-- From `l` to `l'` a key that is its `own` may come with a hash, and what it `spares` stays. -/
structure Edited (hash : UInt32) (own spares : κ → Prop) (l l' : List (Item κ ν)) : Prop where
  nodup : (l'.map (·.key)).Nodup
  fresh : ∀ x ∈ l', x ∈ l ∨ (own x.key ∧ x.hash = hash)
  kept : ∀ x ∈ l, spares x.key → x ∈ l'

/-- What a mutation does to the items of a bucket, as its answer tells. -/
def Mutation.Edits (f : Mutation κ ν α) (hash : UInt32) (own : κ → Prop)
    (spares : α → κ → Prop) : Prop :=
  ∀ (b : Bucket κ ν) (s : Shared κ ν), b.Anchored → s.pool.IsClean →
    (b.items.map (·.key)).Nodup → (∀ x ∈ b.items, own x.key → x.hash = hash) →
    (f b s).1.2.Counts b.items.length (f b s).2.1.items.length ∧
    Edited hash own (spares (f b s).1.1) b.items (f b s).2.1.items ∧
    (f b s).2.1.Anchored ∧ (f b s).2.2.pool.IsClean

/-- A mutation of one key spares the others, and this one too if its value stays the same. -/
def SparesBy (k : κ) (spec : Option ν → α × Option ν) (a : α) (k' : κ) : Prop :=
  k' = k → ∀ old, (spec old).1 = a → (spec old).2 = old

theorem Replaces.edited [DecidableEq κ] {hash : UInt32} {k : κ} {w : Option ν}
    {l l' : List (Item κ ν)} (h : Replaces hash k w l l') (hl : Filed hash k l) {P : κ → Prop}
    (hP : P k → w = valueOf l k) : Edited hash (· = k) P l l' where
  nodup := h.filed.nodup
  fresh x hx := by
    by_cases hk : x.key = k
    · exact .inr ⟨hk, h.filed.hash_eq x hx hk⟩
    · exact .inl ((h.others x hk).mp hx)
  kept x hx hspared := by
    by_cases hk : x.key = k
    · -- the one item of the key has the hash, the key and the value of the old one
      have hvalue : valueOf l k = some x.value := (mem_iff_valueOf hl.nodup).mpr ⟨x, hx, hk, rfl⟩
      have hw : w = some x.value := (hP (hk ▸ hspared)).trans hvalue
      obtain ⟨y, hy, hyk, hyv⟩ := (h.here x.value).mpr hw
      have hyh := h.filed.hash_eq y hy hyk
      have hxh := hl.hash_eq x hx hk
      have hxy : y = x := by
        cases x
        cases y
        simp only at hyk hyv hyh hk hxh
        subst hyk hyv hyh hk hxh
        rfl
      exact hxy ▸ hy
    · exact (h.others x hk).mpr hx

namespace Mutation

theorem Acts.edits [DecidableEq κ] {f : Mutation κ ν α} {hash : UInt32} {k : κ}
    {spec : Option ν → α × Option ν} (hf : f.Acts hash k spec) :
    f.Edits hash (· = k) (SparesBy k spec) := by
  intro b s hanch hclean hnodup hown
  have hfiled : Filed hash k b.items := ⟨hown, hnodup⟩
  obtain ⟨hres, hcount, hrep, hanch', hclean'⟩ := hf b s hanch hclean hfiled
  refine ⟨hcount, hrep.edited hfiled fun hspared => ?_, hanch', hclean'⟩
  rw [hres] at hspared
  exact hspared rfl (valueOf b.items k) rfl

/-- What a lookup finds is taken away; what it does not admit stays. -/
theorem edits_delete (q : Query κ) :
    (delete (ν := ν) q).Edits q.hash (fun _ => False)
      (fun a k => a = none ∨ q.admits k = false) := by
  intro b s hanch hclean hnodup _
  unfold delete
  rw [Bucket.find?_eq]
  cases hfind : b.items.find? q.selects with
  | none => exact ⟨rfl, ⟨hnodup, fun x hx => .inl hx, fun x hx _ => hx⟩, hanch, hclean⟩
  | some i =>
    have hitems := Bucket.items_remove q b hclean
    have hout := Bucket.remove_fst q b s
    have hmem := List.mem_of_find?_eq_some hfind
    have hsel := List.find?_some hfind
    have hlen := List.length_eraseP_of_mem hmem hsel
    have hpos := List.length_pos_of_mem hmem
    dsimp only
    rw [hitems, hout, hfind]
    refine ⟨?_, ⟨?_, fun x hx => .inl (List.mem_of_mem_eraseP hx), fun x hx hspared => ?_⟩,
      Bucket.anchored_remove _ _ _, Bucket.clean_remove _ _ hclean⟩
    · show b.items.length = (b.items.eraseP q.selects).length + 1
      omega
    · exact hnodup.sublist (List.eraseP_sublist.map _)
    · rcases hspared with hnone | hadmits
      · simp at hnone
      · refine (List.mem_eraseP_of_neg ?_).mpr hx
        simp [Query.selects, hadmits]

end Mutation

/-! ## Shelves -/

theorem Shelved.edit {place : κ → Option UInt32} {shelves : List (List (Item κ ν))}
    (h : Shelved place shelves) {hash : UInt32} {own spares : κ → Prop}
    (hown : ∀ k, own k → place k = some hash) {l l' : List (Item κ ν)}
    (hl : shelves[slot shelves.length hash]? = some l) (hedit : Edited hash own spares l l') :
    Shelved place (shelves.set (slot shelves.length hash) l') where
  size := by
    rw [List.length_set]
    exact h.size
  placed := by
    intro j m hm x hx
    rw [List.length_set]
    by_cases hj : slot shelves.length hash = j
    · subst hj
      rw [List.getElem?_set_self (List.getElem?_eq_some_iff.mp hl).1] at hm
      obtain rfl := Option.some.inj hm
      -- what is on the shelf was there before, or is one of its own
      rcases hedit.fresh x hx with hold | ⟨hk, hhash⟩
      · exact h.placed _ l hl x hold
      · rw [hhash]
        exact ⟨hown x.key hk, rfl⟩
    · rw [List.getElem?_set_ne hj] at hm
      exact h.placed j m hm x hx
  nodup := by
    intro m hm
    rcases List.mem_or_eq_of_mem_set hm with hm | rfl
    · exact h.nodup m hm
    · exact hedit.nodup

/-! ## Buckets -/

namespace Bucket

theorem Steady.wipe {held : Bool} {b : Bucket κ ν} (h : b.Steady held) (s : Shared κ ν) :
    (b.wipe s).1.Steady held :=
  ⟨anchored_publish b (id_draftEmpty_ne b s) _,
    (locked_publish ..).trans h.locked_eq⟩

end Bucket

/-! ## Tables -/

namespace Table

variable {place : κ → Option UInt32} {t : Table κ ν}

/-- A mutation in a table that nobody locks: it goes through, and spares what it spares. -/
theorem Fit.mutate (h : t.Fit false place) {hash : UInt32} {f : Mutation κ ν α}
    {own : κ → Prop} {spares : α → κ → Prop} (hf : f.Edits hash own spares)
    (hown : ∀ k, own k → place k = some hash) {s : Shared κ ν} (hs : s.pool.IsClean) :
    ∃ a due t' s', t.mutate hash f s = (.done (a, due), t', s') ∧ t'.Fit false place ∧
      t'.size = t.size ∧ s'.pool.IsClean ∧
      ∀ x ∈ t.items, spares a x.key → x ∈ t'.items := by
  have hb : t.buckets[t.index hash] ∈ t.buckets := Array.getElem_mem _
  generalize hbucket : t.buckets[t.index hash] = b at *
  have hat : t.buckets[(t.index hash).val]? = some b := by simp [← hbucket]
  have hslot : (t.index hash).val = slot t.shelves.length hash := by
    rw [length_shelves]
    rfl
  have hl : t.shelves[slot t.shelves.length hash]? = some b.items := by
    rw [← hslot, getElem?_shelves, hat]
    rfl
  have hready := h.ready
  obtain ⟨hcount, hedit, hanch, hclean⟩ := hf b.lock s
    (Bucket.anchored_lock (hready b hb).anchored) hs
    (h.shelved.nodup _ (List.mem_iff_getElem?.mpr ⟨_, hl⟩)) fun x hx hk => by
      have hplace := (h.shelved.placed _ _ hl x hx).1
      rw [hown x.key hk] at hplace
      exact (Option.some.inj hplace).symm
  rw [Bucket.items_lock] at hcount hedit
  have hrun := mutate_eq hat (hready b hb).free f s
  dsimp only at hrun
  generalize f b.lock s = outcome at *
  obtain ⟨⟨a, change⟩, b', s'⟩ := outcome
  dsimp only at hcount hedit hanch hclean hrun
  have hready' : (b'.unlock s').1.Ready :=
    ⟨Bucket.anchored_unlock hanch s', Bucket.locked_unlock b' s'⟩
  have hset : (t.setBucket (t.index hash) (b'.unlock s').1).shelves
      = t.shelves.set (slot t.shelves.length hash) b'.items := by
    rw [shelves_setBucket, hslot, Bucket.items_unlock]
  have hshelves : ((t.setBucket (t.index hash) (b'.unlock s').1).account change).shelves
      = t.shelves.set (slot t.shelves.length hash) b'.items := by
    rw [shelves_account, hset]
  have hsize : ((t.setBucket (t.index hash) (b'.unlock s').1).account change).size = t.size := by
    rw [size_account, size_setBucket]
  refine ⟨a, _, _, _, hrun, ⟨fun c hc => ?_, ?_, ?_, hsize ▸ h.least⟩, hsize,
    Bucket.clean_unlock b' hclean, fun x hx hspared => ?_⟩
  · exact (ready_account (ready_setBucket hready hready') change c hc).steady
  · rw [hshelves]
    exact h.shelved.edit hown hl hedit
  -- the number of items changes as that of the one shelf does
  · have hlen := length_flatten_set b'.items hl
    refine accounted_account (n := t.items.length) h.accounted ?_
    rw [← items_eq_flatten, ← hset, ← items_eq_flatten] at hlen
    cases change with
    | inserted | removed | unchanged =>
      simp only [Change.Counts] at hcount ⊢
      omega
  · rw [items_eq_flatten, hshelves, mem_flatten_set b'.items hl]
    rw [items_eq_flatten, mem_flatten_split hl] at hx
    rcases hx with hx | hx
    · exact .inl (hedit.kept x hx hspared)
    · exact .inr hx

/-- Under a view a mutation waits. -/
theorem Fit.mutate_held (h : t.Fit true place) (hash : UInt32) (f : Mutation κ ν α)
    (s : Shared κ ν) : t.mutate hash f s = (.waits, t, s) := by
  have hlocked := (h.steady _ (Array.getElem_mem (t.index hash).isLt)).locked_eq
  unfold Table.mutate
  dsimp only
  rw [Fin.getElem_fin, hlocked, if_pos rfl]

/-- A grown table is fit, and so is the old one. -/
theorem Fit.grow (h : t.Fit false place) {s : Shared κ ν} (hs : s.pool.IsClean) :
    (t.grow s).1.Fit false place ∧ (t.grow s).2.1.Fit false place ∧
      (t.grow s).1.count = t.count ∧ (∀ x, x ∈ (t.grow s).1.items ↔ x ∈ t.items) ∧
      (t.grow s).2.2.pool.IsClean := by
  obtain ⟨hshelves, hready, hcount, hold, hclean⟩ := grow_spec h.ready h.shelved hs
  have hsize : (t.grow s).1.size = 2 * t.size := by
    rw [← length_shelves, hshelves, length_doubled, length_shelves]
  have hcount' : (t.grow s).1.count = t.count := hcount.trans h.accounted.symm
  refine ⟨⟨fun b hb => (hready b hb).steady, ?_, ?_, ?_⟩,
    h.congr (fun b hb => (hold b hb).steady) (shelves_grow_old h.ready s) rfl,
    hcount', fun x => ?_, hclean⟩
  · rw [hshelves]
    exact shelved_doubled h.shelved
  · unfold Accounted
    rw [hcount', h.accounted, items_eq_flatten, items_eq_flatten, hshelves,
      length_flatten_doubled h.shelved]
  · have := h.least
    omega
  · rw [items_eq_flatten, items_eq_flatten, hshelves, mem_flatten_doubled h.shelved x]

/-- A table without items is fit, if its size is right. -/
theorem fit_ofSize (place : κ → Option UInt32) {n : Nat} (h : 0 < n) (hpow : ∃ e, n = 2 ^ e)
    (hleast : minimumBuckets ≤ n) : (ofSize n h : Table κ ν).Fit false place := by
  refine ⟨fun b hb => (ready_ofSize n h b hb).steady, ?_, ?_, ?_⟩
  · rw [shelves_ofSize]
    exact shelved_replicate place hpow
  · unfold Accounted
    rw [items_ofSize]
    rfl
  · rw [← length_shelves, shelves_ofSize, List.length_replicate]
    exact hleast

theorem Fit.emptied {held : Bool} (h : t.Fit held place) : t.emptied.Fit false place := by
  have hpow : ∃ e, t.size = 2 ^ e := length_shelves t ▸ h.shelved.size
  exact fit_ofSize place t.nonempty hpow h.least

/-! ### Under a view -/

theorem Fit.lock (h : t.Fit false place) :
    t.lock.Fit true place ∧ t.lock.shelves = t.shelves := by
  have hshelves : t.lock.shelves = t.shelves := by
    unfold Table.lock shelves
    dsimp only
    rw [Array.toList_map, List.map_map]
    rfl
  refine ⟨h.congr (fun b hb => ?_) hshelves rfl, hshelves⟩
  obtain ⟨c, hc, rfl⟩ := Array.mem_map.mp hb
  exact ⟨Bucket.anchored_lock (h.steady c hc).anchored, rfl⟩

theorem Fit.unlock (h : t.Fit true place) {s : Shared κ ν} (hs : s.pool.IsClean) :
    (t.unlock s).1.Fit false place ∧ (t.unlock s).1.shelves = t.shelves ∧
      (t.unlock s).1.count = t.count ∧ (t.unlock s).2.pool.IsClean := by
  obtain ⟨hclean, hsteady, hmap⟩ := sweep_spec
    (f := fun (b : Bucket κ ν) s => b.unlock s) (a := t.buckets) (P := fun s => s.pool.IsClean)
    (Q := fun b => b.Steady false) (g := fun b => b.items) (h := fun b => b.items)
    (fun b hb s hs => ⟨Bucket.clean_unlock b hs, ⟨Bucket.anchored_unlock (h.steady b hb).anchored s,
      Bucket.locked_unlock b s⟩, Bucket.items_unlock b s⟩) hs
  exact ⟨h.congr hsteady hmap rfl, hmap, rfl, hclean⟩

theorem sum_items (t : Table κ ν) :
    t.buckets.foldl (fun n b => n + b.items.length) 0 = t.items.length := by
  rw [items_eq_flatten, List.length_flatten, ← Array.foldl_toList, foldl_add_eq, Nat.zero_add]
  unfold shelves
  rw [List.map_map]
  rfl

/-- Wiping takes away as many items as there are, and the count comes to zero. -/
theorem Fit.wipe (h : t.Fit true place) {s : Shared κ ν} (hs : s.pool.IsClean) :
    (t.wipe s).1.Fit true place ∧ (t.wipe s).1.shelves = .replicate t.size [] ∧
      (t.wipe s).1.count = 0 ∧ (t.wipe s).2.pool.IsClean := by
  obtain ⟨hclean, hsteady, hmap⟩ := sweep_spec
    (f := fun (b : Bucket κ ν) s => if b.items.isEmpty then (b, s) else b.wipe s)
    (a := t.buckets) (P := fun s => s.pool.IsClean) (Q := fun b => b.Steady true)
    (g := fun b => b.items) (h := fun _ => []) (fun b hb s hs => by
      split
      · rename_i hempty
        exact ⟨hs, h.steady b hb, List.isEmpty_iff.mp hempty⟩
      · exact ⟨Bucket.clean_wipe b hs, (h.steady b hb).wipe s,
          Bucket.items_wipe b hs⟩) hs
  have hshelves : (t.wipe s).1.shelves = .replicate t.size [] := by
    refine hmap.trans ?_
    rw [List.map_const', Array.length_toList]
    rfl
  have hitems : (t.wipe s).1.items = [] := by
    rw [items_eq_flatten, hshelves, List.flatten_replicate_nil]
  -- what is taken off the count is the number of items, which is the count
  have hcount : (t.wipe s).1.count = 0 := by
    unfold Table.wipe
    dsimp only
    rw [sum_items, h.accounted]
    exact UInt64.sub_self ..
  refine ⟨⟨hsteady, ?_, ?_, ?_⟩, hshelves, hcount, hclean⟩
  · rw [hshelves]
    exact shelved_replicate place (length_shelves t ▸ h.shelved.size)
  · unfold Accounted
    rw [hcount, hitems]
    rfl
  · rw [← length_shelves, hshelves, List.length_replicate]
    exact h.least

end Table

end VersionedMap
