import Mathlib.Data.Nat.Bitwise
import VersionedMap.Proofs.Lasting
import VersionedMap.Proofs.Mutations
import VersionedMap.Sweep
import VersionedMap.Table.Basic

/-!
# The shelves of a table

What a table holds is a list of **shelves**, the current items of one bucket each. An item
stands on the shelf that the low bits of its hash name, so a key is looked for on one shelf
only. A mutation changes one shelf.
-/

namespace VersionedMap

variable {κ ν α β γ σ : Type}

/-! ## Lists of lists -/

theorem mem_flatten_iff {a : α} {L : List (List α)} :
    a ∈ L.flatten ↔ ∃ (j : Nat) (l : List α), L[j]? = some l ∧ a ∈ l := by
  rw [List.mem_flatten]
  constructor
  · rintro ⟨l, hl, ha⟩
    obtain ⟨j, hj⟩ := List.mem_iff_getElem?.mp hl
    exact ⟨j, l, hj, ha⟩
  · rintro ⟨j, l, hj, ha⟩
    exact ⟨l, List.mem_iff_getElem?.mpr ⟨j, hj⟩, ha⟩

/-- With one list replaced, what was in another one still is, and what was in it is to be had. -/
theorem mem_flatten_set {a : α} {L : List (List α)} {j : Nat} {l : List α} (l' : List α)
    (hj : L[j]? = some l) :
    a ∈ (L.set j l').flatten ↔
      a ∈ l' ∨ ∃ (j' : Nat) (m : List α), j' ≠ j ∧ L[j']? = some m ∧ a ∈ m := by
  have hset : (L.set j l')[j]? = some l' := by
    rw [List.getElem?_set_self (List.getElem?_eq_some_iff.mp hj).1]
  have hother : ∀ j', j' ≠ j → (L.set j l')[j']? = L[j']? := fun j' hne =>
    List.getElem?_set_ne (Ne.symm hne)
  rw [mem_flatten_iff]
  constructor
  · rintro ⟨j', m, hm, ha⟩
    by_cases hjj : j' = j
    · subst hjj
      obtain rfl : l' = m := Option.some.inj (hset.symm.trans hm)
      exact .inl ha
    · exact .inr ⟨j', m, hjj, by rw [← hother j' hjj, hm], ha⟩
  · rintro (ha | ⟨j', m, hjj, hm, ha⟩)
    · exact ⟨j, l', hset, ha⟩
    · exact ⟨j', m, by rw [hother j' hjj, hm], ha⟩

/-- What is in several lists is in one of them or in another. -/
theorem mem_flatten_split {a : α} {L : List (List α)} {j : Nat} {l : List α}
    (hj : L[j]? = some l) :
    a ∈ L.flatten ↔ a ∈ l ∨ ∃ (j' : Nat) (m : List α), j' ≠ j ∧ L[j']? = some m ∧ a ∈ m := by
  have hsplit := mem_flatten_set (a := a) l hj
  obtain ⟨hlt, rfl⟩ := List.getElem?_eq_some_iff.mp hj
  rwa [List.set_getElem_self hlt] at hsplit

/-- What happens to one of several lists happens to all of them together. -/
theorem Turns.flatten_set {k : κ} {w : Option ν} {l l' : List (Item κ ν)} (h : Turns k w l l')
    {L : List (List (Item κ ν))} {j : Nat} (hj : L[j]? = some l)
    (hone : ∀ (j' : Nat) (m : List (Item κ ν)), L[j']? = some m → j' ≠ j →
      ∀ i ∈ m, i.key ≠ k) :
    Turns k w L.flatten (L.set j l').flatten := by
  constructor
  · intro i hi
    rw [mem_flatten_set l' hj, mem_flatten_split hj, h.others i hi]
  · intro v
    rw [← h.here v]
    constructor
    · rintro ⟨i, hi, hk, hv⟩
      rcases (mem_flatten_set l' hj).mp hi with hi | ⟨j', m, hjj, hm, hi⟩
      · exact ⟨i, hi, hk, hv⟩
      · exact absurd hk (hone j' m hm hjj i hi)
    · rintro ⟨i, hi, hk, hv⟩
      exact ⟨i, (mem_flatten_set l' hj).mpr (.inl hi), hk, hv⟩

/-- Keys that name the list they stand in are not doubled. -/
theorem nodup_keys_flatten {L : List (List (Item κ ν))} (name : κ → Nat)
    (h : ∀ (j : Nat) (l : List (Item κ ν)), L[j]? = some l →
      (l.map (·.key)).Nodup ∧ ∀ i ∈ l, name i.key = j) :
    (L.flatten.map (·.key)).Nodup := by
  rw [List.map_flatten, List.nodup_flatten]
  constructor
  · intro a ha
    obtain ⟨l, hl, rfl⟩ := List.mem_map.mp ha
    obtain ⟨j, hj⟩ := List.mem_iff_getElem?.mp hl
    exact (h j l hj).1
  · rw [List.pairwise_map, List.pairwise_iff_getElem]
    -- a key on two lists would name both of them
    intro i j hi hj hlt x hx hx'
    obtain ⟨a, ha, rfl⟩ := List.mem_map.mp hx
    obtain ⟨b, hb, hkey⟩ := List.mem_map.mp hx'
    have hname := (h i _ (List.getElem?_eq_getElem hi)).2 a ha
    have hname' := (h j _ (List.getElem?_eq_getElem hj)).2 b hb
    rw [hkey, hname] at hname'
    omega

theorem length_flatten_set {L : List (List α)} {j : Nat} {l : List α} (l' : List α)
    (hj : L[j]? = some l) :
    (L.set j l').flatten.length + l.length = L.flatten.length + l'.length := by
  induction L generalizing j with
  | nil => simp at hj
  | cons a L ih =>
    cases j with
    | zero =>
      obtain rfl : a = l := by simpa using hj
      simp only [List.set_cons_zero, List.flatten_cons, List.length_append]
      omega
    | succ j =>
      have hj : L[j]? = some l := by simpa using hj
      have := ih hj
      simp only [List.set_cons_succ, List.flatten_cons, List.length_append]
      omega

theorem foldl_add_eq (f : α → Nat) (l : List α) (n : Nat) :
    l.foldl (fun n a => n + f a) n = n + (l.map f).sum := by
  induction l generalizing n with
  | nil => rfl
  | cons a l ih => rw [List.foldl_cons, ih, List.map_cons, List.sum_cons, Nat.add_assoc]

/-! ## Sweeps -/

/-- What holds of every step of a sweep holds of what it leaves. -/
theorem sweepList_spec {f : α → σ → β × σ} {P : σ → Prop} {Q : β → Prop} {g : β → γ} {h : α → γ}
    {l : List α} (hstep : ∀ x ∈ l, ∀ s, P s →
      P (f x s).2 ∧ Q (f x s).1 ∧ g (f x s).1 = h x) {s : σ} (hs : P s) :
    P (sweepList f l s).2 ∧ (∀ y ∈ (sweepList f l s).1, Q y) ∧
      (sweepList f l s).1.map g = l.map h := by
  -- the state of one step is what the next one starts from
  induction l generalizing s with
  | nil => exact ⟨hs, by simp [sweepList], rfl⟩
  | cons x l ih =>
    obtain ⟨hp, hq, hg⟩ := hstep x List.mem_cons_self s hs
    obtain ⟨hrest, hall, hmap⟩ := ih (fun y hy => hstep y (List.mem_cons_of_mem x hy)) hp
    refine ⟨hrest, ?_, ?_⟩
    · intro y hy
      rcases List.mem_cons.mp hy with rfl | hy
      · exact hq
      · exact hall y hy
    · simp only [sweepList, List.map_cons, hg, hmap]

theorem sweep_spec {f : α → σ → β × σ} {P : σ → Prop} {Q : β → Prop} {g : β → γ} {h : α → γ}
    {a : Array α} (hstep : ∀ x ∈ a, ∀ s, P s →
      P (f x s).2 ∧ Q (f x s).1 ∧ g (f x s).1 = h x) {s : σ} (hs : P s) :
    P (sweep f a s).2 ∧ (∀ y ∈ (sweep f a s).1, Q y) ∧
      (sweep f a s).1.toList.map g = a.toList.map h := by
  obtain ⟨hp, hq, hg⟩ := sweepList_spec (l := a.toList)
    (fun x hx => hstep x (Array.mem_toList_iff.mp hx)) hs
  rw [sweep_eq]
  exact ⟨hp, fun y hy => hq y (by simpa using hy), hg⟩

/-! ## Buckets between operations -/

/-- A bucket as it is between operations: anchored, and with the lock free. -/
structure Bucket.Ready (b : Bucket κ ν) : Prop where
  anchored : b.Anchored
  free : b.locked = false

namespace Bucket

theorem ready_new : ({} : Bucket κ ν).Ready := ⟨anchored_new, rfl⟩

theorem Ready.acquire {b : Bucket κ ν} (h : b.Ready) (s : Shared κ ν) :
    (b.acquire s).2.1.Ready :=
  ⟨anchored_acquire h.anchored s, (locked_acquire h.anchored s).trans h.free⟩

theorem Ready.release {b : Bucket κ ν} (h : b.Ready) (n : Nat) (s : Shared κ ν) :
    (b.release n s).1.Ready :=
  ⟨anchored_release h.anchored n s, (locked_release b n s).trans h.free⟩

/-- With the lock free a reader gets the current items, or there are none to be had. -/
theorem Ready.acquire_cases {b : Bucket κ ν} (h : b.Ready) (s : Shared κ ν) :
    (b.items = [] ∧ (b.acquire s).1 = .absent) ∨
    ∃ n, (b.acquire s).1 = .held n ∧ (b.acquire s).2.1.itemsAt n = b.items := by
  have hitems := items_acquire b s
  have hpub := (shortens_acquire h.anchored s).published_eq
  rw [← itemsAt_published, hpub] at hitems
  rcases Bucket.acquire_cases h.anchored s with
    ⟨hchain, hacq⟩ | ⟨_, _, hlocked, _⟩ | ⟨_, _, _, hacq⟩ | ⟨_, _, hacq⟩
  · refine .inl ⟨?_, by rw [hacq]⟩
    unfold items newest?
    rw [hchain]
    rfl
  · rw [h.free] at hlocked
    exact absurd hlocked (by simp)
  · exact .inr ⟨b.published, by rw [hacq], hitems⟩
  · exact .inr ⟨b.published, by rw [hacq], hitems⟩

end Bucket

/-! ## Shelves -/

/-- The shelf of a hash among `n`. -/
def slot (n : Nat) (hash : UInt32) : Nat := hash.toNat &&& (n - 1)

/--
Shelves in order: as many as a power of two, with every item on the shelf of its hash, and
no key twice. `place` gives the hash of every key that may stand here.
-/
structure Shelved (place : κ → Option UInt32) (shelves : List (List (Item κ ν))) : Prop where
  size : ∃ e, shelves.length = 2 ^ e
  placed : ∀ (j : Nat) (l : List (Item κ ν)), shelves[j]? = some l →
    ∀ i ∈ l, place i.key = some i.hash ∧ slot shelves.length i.hash = j
  nodup : ∀ l ∈ shelves, (l.map (·.key)).Nodup

namespace Shelved

variable {place : κ → Option UInt32} {shelves : List (List (Item κ ν))} {k : κ} {hash : UInt32}

theorem filed (h : Shelved place shelves) (hk : place k = some hash) {j : Nat}
    {l : List (Item κ ν)} (hl : shelves[j]? = some l) : Filed hash k l where
  hash_eq i hi hik := by
    have hplace := (h.placed j l hl i hi).1
    rw [hik, hk] at hplace
    exact (Option.some.inj hplace).symm
  nodup := h.nodup l (List.mem_iff_getElem?.mpr ⟨j, hl⟩)

/-- A key stands on one shelf only. -/
theorem key_ne (h : Shelved place shelves) (hk : place k = some hash) {j : Nat}
    {l : List (Item κ ν)} (hl : shelves[j]? = some l) (hj : j ≠ slot shelves.length hash)
    {i : Item κ ν} (hi : i ∈ l) : i.key ≠ k := by
  intro hik
  have hslot := (h.placed j l hl i hi).2
  rw [(h.filed hk hl).hash_eq i hi hik] at hslot
  exact hj hslot.symm

theorem nodup_flatten (h : Shelved place shelves) : (shelves.flatten.map (·.key)).Nodup := by
  refine nodup_keys_flatten (fun k => slot shelves.length ((place k).getD 0)) fun j l hl => ?_
  refine ⟨h.nodup l (List.mem_iff_getElem?.mpr ⟨j, hl⟩), fun i hi => ?_⟩
  obtain ⟨hplace, hslot⟩ := h.placed j l hl i hi
  rw [hplace]
  exact hslot

theorem set (h : Shelved place shelves) (hk : place k = some hash) {l l' : List (Item κ ν)}
    (hl : shelves[slot shelves.length hash]? = some l) {w : Option ν}
    (hrep : Replaces hash k w l l') :
    Shelved place (shelves.set (slot shelves.length hash) l') where
  size := by
    rw [List.length_set]
    exact h.size
  placed := by
    intro j m hm i hi
    rw [List.length_set]
    -- on the shelf that has changed, the items of other keys are old ones
    by_cases hj : slot shelves.length hash = j
    · subst hj
      rw [List.getElem?_set_self (List.getElem?_eq_some_iff.mp hl).1] at hm
      obtain rfl := Option.some.inj hm
      by_cases hik : i.key = k
      · rw [hik, hrep.filed.hash_eq i hi hik]
        exact ⟨hk, rfl⟩
      · exact h.placed _ l hl i ((hrep.others i hik).mp hi)
    · rw [List.getElem?_set_ne hj] at hm
      exact h.placed j m hm i hi
  nodup := by
    intro m hm
    rcases List.mem_or_eq_of_mem_set hm with hm | rfl
    · exact h.nodup m hm
    · exact hrep.filed.nodup

end Shelved

/-- Without items any number of shelves will do that is a power of two. -/
theorem shelved_replicate (place : κ → Option UInt32) {n : Nat} (h : ∃ e, n = 2 ^ e) :
    Shelved place (.replicate n ([] : List (Item κ ν))) where
  size := by
    rw [List.length_replicate]
    exact h
  placed := by
    intro j l hl i hi
    rw [List.eq_of_mem_replicate (List.mem_iff_getElem?.mpr ⟨j, hl⟩)] at hi
    simp at hi
  nodup := by
    intro l hl
    rw [List.eq_of_mem_replicate hl]
    exact List.nodup_nil

/-- The value of a key goes by which items there are. -/
theorem valueOf_congr [DecidableEq κ] {k : κ} {l l' : List (Item κ ν)}
    (hl : (l.map (·.key)).Nodup) (hl' : (l'.map (·.key)).Nodup)
    (h : ∀ i : Item κ ν, i.key = k → (i ∈ l ↔ i ∈ l')) : valueOf l k = valueOf l' k := by
  refine Option.ext fun v => ?_
  rw [mem_iff_valueOf hl, mem_iff_valueOf hl']
  constructor
  · rintro ⟨i, hi, hk, hv⟩
    exact ⟨i, (h i hk).mp hi, hk, hv⟩
  · rintro ⟨i, hi, hk, hv⟩
    exact ⟨i, (h i hk).mpr hi, hk, hv⟩

theorem Turns.valueOf_eq [DecidableEq κ] {k : κ} {w : Option ν} {l l' : List (Item κ ν)}
    (h : Turns k w l l') (hl : (l.map (·.key)).Nodup) (hl' : (l'.map (·.key)).Nodup) (k' : κ) :
    valueOf l' k' = if k' = k then w else valueOf l k' := by
  by_cases hk : k' = k
  · rw [if_pos hk, hk]
    exact Option.ext fun v => (mem_iff_valueOf hl').trans (h.here v)
  · rw [if_neg hk]
    exact valueOf_congr hl' hl fun i hi => h.others i (hi ▸ hk)

/-- All shelves show of a key what its own shelf shows. -/
theorem Shelved.valueOf_flatten [DecidableEq κ] {place : κ → Option UInt32}
    {shelves : List (List (Item κ ν))} (h : Shelved place shelves) {k : κ} {hash : UInt32}
    (hk : place k = some hash) {l : List (Item κ ν)}
    (hl : shelves[slot shelves.length hash]? = some l) :
    valueOf shelves.flatten k = valueOf l k := by
  refine valueOf_congr h.nodup_flatten (h.filed hk hl).nodup fun i hi => ?_
  rw [mem_flatten_iff]
  constructor
  · rintro ⟨j, m, hm, hmem⟩
    by_cases hj : j = slot shelves.length hash
    · rw [hj, hl] at hm
      rw [Option.some.inj hm]
      exact hmem
    · exact absurd hi (h.key_ne hk hm hj hmem)
  · exact fun hmem => ⟨_, _, hl, hmem⟩

namespace Table

/-- The current items, one list for each bucket. -/
def shelves (t : Table κ ν) : List (List (Item κ ν)) := t.buckets.toList.map (·.items)

/-- The table as it is between operations: every bucket is ready. -/
def Ready (t : Table κ ν) : Prop := ∀ b ∈ t.buckets, b.Ready

/-- The count is the number of items, as far as a word can tell. -/
def Accounted (t : Table κ ν) : Prop := t.count = t.items.length.toUInt64

theorem items_eq_flatten (t : Table κ ν) : t.items = t.shelves.flatten := rfl

theorem length_shelves (t : Table κ ν) : t.shelves.length = t.size := by
  unfold shelves size
  rw [List.length_map, Array.length_toList]

theorem getElem?_shelves (t : Table κ ν) (j : Nat) :
    t.shelves[j]? = (t.buckets[j]?).map (·.items) := by
  unfold shelves
  rw [List.getElem?_map, Array.getElem?_toList]

theorem shelves_setBucket (t : Table κ ν) (i : Nat) (b : Bucket κ ν) :
    (t.setBucket i b).shelves = t.shelves.set i b.items := by
  unfold shelves setBucket
  rw [Array.toList_setIfInBounds, List.map_set]

theorem ready_setBucket {t : Table κ ν} (h : t.Ready) {i : Nat} {b : Bucket κ ν}
    (hb : b.Ready) : (t.setBucket i b).Ready := by
  intro c hc
  unfold setBucket at hc
  rcases Array.mem_or_eq_of_mem_setIfInBounds hc with hc | rfl
  · exact h c hc
  · exact hb

theorem shelves_account (t : Table κ ν) (c : Change) : (t.account c).shelves = t.shelves := by
  cases c <;> rfl

theorem ready_account {t : Table κ ν} (h : t.Ready) (c : Change) : (t.account c).Ready := by
  cases c <;> exact h

theorem ready_ofSize (n : Nat) (h : 0 < n) : (ofSize n h : Table κ ν).Ready := by
  intro b hb
  unfold ofSize at hb
  rw [Array.eq_of_mem_replicate hb]
  exact Bucket.ready_new

theorem shelves_ofSize (n : Nat) (h : 0 < n) :
    (ofSize n h : Table κ ν).shelves = .replicate n [] := by
  unfold ofSize shelves
  rw [Array.toList_replicate, List.map_replicate]
  rfl

theorem shelves_emptied (t : Table κ ν) : t.emptied.shelves = .replicate t.size [] :=
  shelves_ofSize t.size t.nonempty

theorem items_ofSize (n : Nat) (h : 0 < n) : (ofSize n h : Table κ ν).items = [] := by
  rw [items_eq_flatten, shelves_ofSize, List.flatten_replicate_nil]

/-- A change of the count goes with the change of the number of items that it stands for. -/
theorem accounted_account {t : Table κ ν} {n : Nat} {c : Change}
    (hcount : t.count = n.toUInt64) (hc : c.Counts n t.items.length) :
    (t.account c).Accounted := by
  unfold Accounted
  rw [items_eq_flatten, shelves_account, ← items_eq_flatten]
  cases c with
  | inserted =>
    show t.count + 1 = _
    rw [hcount, show t.items.length = n + 1 from hc]
    exact (UInt64.ofNat_add n 1).symm
  | removed =>
    show t.count - 1 = _
    rw [hcount, show n = t.items.length + 1 from hc]
    show UInt64.ofNat (t.items.length + 1) - 1 = UInt64.ofNat t.items.length
    rw [UInt64.ofNat_add]
    exact UInt64.add_sub_cancel ..
  | unchanged =>
    show t.count = _
    rw [hcount, show t.items.length = n from hc]

/-- What a mutation comes to in a bucket with the lock free. -/
theorem mutate_eq {t : Table κ ν} {hash : UInt32} {b : Bucket κ ν}
    (hb : t.buckets[(t.index hash).val]? = some b) (hfree : b.locked = false) (f : Mutation κ ν α)
    (s : Shared κ ν) :
    let out := f b.lock s
    let c := out.2.1.unlock out.2.2
    let t' := (t.setBucket (t.index hash) c.1).account out.1.2
    t.mutate hash f s = (.done (out.1.1, out.1.2 = .inserted && t'.needsGrowth), t', c.2) := by
  obtain ⟨_, hbucket⟩ := Array.getElem?_eq_some_iff.mp hb
  unfold mutate
  dsimp only
  rw [Fin.getElem_fin, hbucket, if_neg (by simp [hfree])]

/--
A mutation in the bucket of its key acts on the table as on the bucket: it goes by the
value that the key has in the table, and turns it into another one.
-/
theorem mutate_acts [DecidableEq κ] {t : Table κ ν} {place : κ → Option UInt32} (hready : t.Ready)
    (hshelved : Shelved place t.shelves) (haccounted : t.Accounted) {k : κ} {hash : UInt32}
    (hk : place k = some hash) {f : Mutation κ ν α} {spec : Option ν → α × Option ν}
    (hf : f.Acts hash k spec) {s : Shared κ ν} (hs : s.pool.IsClean) :
    ∃ due t' s',
      t.mutate hash f s = (.done ((spec (valueOf t.items k)).1, due), t', s') ∧
      t'.Ready ∧ Shelved place t'.shelves ∧ t'.Accounted ∧
      Turns k (spec (valueOf t.items k)).2 t.items t'.items ∧ s'.pool.IsClean := by
  have hb : t.buckets[t.index hash] ∈ t.buckets := Array.getElem_mem _
  generalize hbucket : t.buckets[t.index hash] = b at *
  have hat : t.buckets[(t.index hash).val]? = some b := by simp [← hbucket]
  have hslot : (t.index hash).val = slot t.shelves.length hash := by
    rw [length_shelves]
    rfl
  have hl : t.shelves[slot t.shelves.length hash]? = some b.items := by
    rw [← hslot, getElem?_shelves, hat]
    rfl
  have hfiled := hshelved.filed hk hl
  have hvalue : valueOf t.items k = valueOf b.items k := hshelved.valueOf_flatten hk hl
  -- the key is on this one shelf, so the bucket shows of it what the table shows
  obtain ⟨hres, hcount, hrep, hanch, hclean⟩ :=
    hf b.lock s (Bucket.anchored_lock (hready b hb).anchored) hs hfiled
  rw [Bucket.items_lock] at hres hcount hrep
  have hrun := mutate_eq hat (hready b hb).free f s
  dsimp only at hrun
  generalize f b.lock s = outcome at *
  obtain ⟨⟨a, change⟩, b', s'⟩ := outcome
  dsimp only at hres hcount hrep hanch hclean
  have hready' : (b'.unlock s').1.Ready :=
    ⟨Bucket.anchored_unlock hanch s', Bucket.locked_unlock b' s'⟩
  have hshelves : ((t.setBucket (t.index hash) (b'.unlock s').1).account change).shelves
      = t.shelves.set (slot t.shelves.length hash) b'.items := by
    rw [shelves_account, shelves_setBucket, hslot, Bucket.items_unlock]
  refine ⟨_, _, _, hrun.trans (by rw [hvalue, hres]),
    ready_account (ready_setBucket hready hready') _, ?_, ?_, ?_, Bucket.clean_unlock b' hclean⟩
  · rw [hshelves]
    exact hshelved.set hk hl hrep
  -- the number of items changes as that of the one shelf does
  · have hlen := length_flatten_set b'.items hl
    refine accounted_account (n := t.items.length) haccounted ?_
    have hset : (t.setBucket (t.index hash) (b'.unlock s').1).items
        = (t.shelves.set (slot t.shelves.length hash) b'.items).flatten := by
      rw [items_eq_flatten, shelves_setBucket, hslot, Bucket.items_unlock]
    rw [hset]
    rw [← items_eq_flatten] at hlen
    cases change with
    | inserted | removed | unchanged =>
      simp only [Change.Counts] at hcount ⊢
      omega
  · rw [items_eq_flatten, items_eq_flatten, hshelves, ← items_eq_flatten t, hvalue]
    exact hrep.toTurns.flatten_set hl fun j l hj hne i hi => hshelved.key_ne hk hj hne hi

end Table

end VersionedMap
