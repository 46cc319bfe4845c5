import Mathlib.Data.List.Nodup
import VersionedMap.Proofs.Anchor
import VersionedMap.Table.Mutation

/-!
# What a mutation does to the item of a key

A mutation sees the items of one bucket. If that is the bucket of its key, and no two items
of it have equal keys, then all that it does is to go from the value that the key has to
another one, or none: it **acts** on the key, as a function of the value says, and leaves
every other key alone. How much it changes the number of items is what it says it does.
-/

namespace VersionedMap

variable {κ ν α : Type}

section Items

variable [DecidableEq κ]

/-- The value of the first item with a key. -/
def valueOf (l : List (Item κ ν)) (k : κ) : Option ν :=
  (l.find? fun i => decide (i.key = k)).map (·.value)

/-- A list in which to look for a key by a hash: it is the key's hash, and no key is there twice. -/
structure Filed (hash : UInt32) (k : κ) (l : List (Item κ ν)) : Prop where
  hash_eq : ∀ i ∈ l, i.key = k → i.hash = hash
  nodup : (l.map (·.key)).Nodup

theorem selects_exactly (hash : UInt32) (k : κ) (i : Item κ ν) :
    (Query.exactly hash k).selects i = (i.hash == hash && decide (k = i.key)) := rfl

theorem Filed.selects_eq {hash : UInt32} {k : κ} {l : List (Item κ ν)} (h : Filed hash k l)
    {i : Item κ ν} (hi : i ∈ l) :
    (Query.exactly hash k).selects i = decide (i.key = k) := by
  rw [selects_exactly]
  by_cases hk : i.key = k
  · simp [hk, h.hash_eq i hi hk]
  · simp [hk, Ne.symm hk]

omit [DecidableEq κ] in
theorem Filed.of_cons {hash : UInt32} {k : κ} {i : Item κ ν} {l : List (Item κ ν)}
    (h : Filed hash k (i :: l)) : Filed hash k l :=
  ⟨fun j hj => h.hash_eq j (List.mem_cons_of_mem i hj), (List.nodup_cons.mp h.nodup).2⟩

theorem Filed.find?_eq {hash : UInt32} {k : κ} {l : List (Item κ ν)} (h : Filed hash k l) :
    l.find? (Query.exactly hash k).selects = l.find? fun i => decide (i.key = k) := by
  induction l with
  | nil => rfl
  | cons i l ih =>
    rw [List.find?_cons, List.find?_cons, h.selects_eq List.mem_cons_self, ih h.of_cons]

/-- Erasing the first item of a key erases the key. -/
theorem Filed.eraseP_eq {hash : UInt32} {k : κ} {l : List (Item κ ν)} (h : Filed hash k l) :
    l.eraseP (Query.exactly hash k).selects = l.filter fun i => !decide (i.key = k) := by
  induction l with
  | nil => rfl
  | cons i l ih =>
    rw [List.eraseP_cons, h.selects_eq List.mem_cons_self, List.filter_cons]
    by_cases hk : i.key = k
    -- the first item of the key is the only one
    · have hrest : l.filter (fun j => !decide (j.key = k)) = l := by
        refine List.filter_eq_self.mpr fun j hj => ?_
        have hne : j.key ≠ k := fun he =>
          (List.nodup_cons.mp h.nodup).1 (List.mem_map.mpr ⟨j, hj, he.trans hk.symm⟩)
        simp [hne]
      simp [hk, hrest]
    · simp [hk, ih h.of_cons]

/-- A key without an item is left alone by erasing it. -/
theorem filter_of_find?_none {k : κ} {l : List (Item κ ν)}
    (h : (l.find? fun i => decide (i.key = k)) = none) :
    l.filter (fun i => !decide (i.key = k)) = l := by
  rw [List.find?_eq_none] at h
  refine List.filter_eq_self.mpr fun i hi => ?_
  simpa using h i hi

/-- Erasing a key that has an item makes the list one shorter. -/
theorem length_filter_of_find?_some {k : κ} {l : List (Item κ ν)} {i : Item κ ν}
    (hnodup : (l.map (·.key)).Nodup) (h : (l.find? fun j => decide (j.key = k)) = some i) :
    (l.filter fun j => !decide (j.key = k)).length + 1 = l.length := by
  -- any hash will do to find the item by, as long as it is the item's own
  have hfiled : Filed i.hash k l := by
    refine ⟨fun j hj hk => ?_, hnodup⟩
    have hi := List.mem_of_find?_eq_some h
    have hik : i.key = k := by simpa using List.find?_some h
    rw [List.inj_on_of_nodup_map hnodup hj hi (hk.trans hik.symm)]
  have hsel : (Query.exactly i.hash k).selects i = true := by
    rw [hfiled.selects_eq (List.mem_of_find?_eq_some h)]
    simpa using List.find?_some h
  have hpos := List.length_pos_of_mem (List.mem_of_find?_eq_some h)
  rw [← hfiled.eraseP_eq, List.length_eraseP_of_mem (List.mem_of_find?_eq_some h) hsel]
  omega

theorem mem_iff_valueOf {k : κ} {v : ν} {l : List (Item κ ν)} (hnodup : (l.map (·.key)).Nodup) :
    valueOf l k = some v ↔ ∃ i ∈ l, i.key = k ∧ i.value = v := by
  unfold valueOf
  rw [Option.map_eq_some_iff]
  constructor
  · rintro ⟨i, hi, hv⟩
    exact ⟨i, List.mem_of_find?_eq_some hi, by simpa using List.find?_some hi, hv⟩
  · rintro ⟨i, hi, hk, hv⟩
    cases hfind : l.find? fun j => decide (j.key = k) with
    | none =>
      rw [List.find?_eq_none] at hfind
      exact absurd (by simpa using hk) (hfind i hi)
    | some j =>
      have hj := List.mem_of_find?_eq_some hfind
      have hjk : j.key = k := by simpa using List.find?_some hfind
      -- the item found first has the same key, and so it is the same item
      rw [List.inj_on_of_nodup_map hnodup hj hi (hjk.trans hk.symm)]
      exact ⟨i, rfl, hv⟩

end Items

/-! ## One key changes -/

/-- From `l` to `l'` the value of a key turns into `w`, and nothing else changes. -/
structure Turns (k : κ) (w : Option ν) (l l' : List (Item κ ν)) : Prop where
  others : ∀ i : Item κ ν, i.key ≠ k → (i ∈ l' ↔ i ∈ l)
  here : ∀ v, (∃ i ∈ l', i.key = k ∧ i.value = v) ↔ w = some v

/-- The same inside the bucket of the key. -/
structure Replaces (hash : UInt32) (k : κ) (w : Option ν) (l l' : List (Item κ ν)) : Prop
    extends Turns k w l l' where
  filed : Filed hash k l'

/-- What a change says of the number of items before and after. -/
def Change.Counts (c : Change) (before after : Nat) : Prop :=
  match c with
  | .inserted => after = before + 1
  | .removed => before = after + 1
  | .unchanged => after = before

section Replaces

variable [DecidableEq κ] {hash : UInt32} {k : κ} {l : List (Item κ ν)}

theorem Replaces.self (h : Filed hash k l) : Replaces hash k (valueOf l k) l l where
  others _ _ := Iff.rfl
  here _ := (mem_iff_valueOf h.nodup).symm
  filed := h

theorem Replaces.erase (h : Filed hash k l) :
    Replaces hash k none l (l.filter fun i => !decide (i.key = k)) where
  others i hk := by simp [List.mem_filter, hk]
  here _ := by
    constructor
    · rintro ⟨i, hi, hk, _⟩
      rw [List.mem_filter] at hi
      simp [hk] at hi
    · exact fun he => absurd he (by simp)
  filed :=
    ⟨fun i hi hk => h.hash_eq i (List.mem_filter.mp hi).1 hk,
      h.nodup.sublist (List.filter_sublist.map _)⟩

theorem Replaces.put (h : Filed hash k l) (v : ν) :
    Replaces hash k (some v) l (l.filter (fun i => !decide (i.key = k)) ++ [⟨hash, k, v⟩]) where
  others i hk := by
    have hnew : i ≠ ⟨hash, k, v⟩ := fun he => hk (congrArg Item.key he)
    simp [List.mem_filter, hk, hnew]
  here w := by
    constructor
    · rintro ⟨i, hi, hk, hw⟩
      rcases List.mem_append.mp hi with hi | hi
      · rw [List.mem_filter] at hi
        simp [hk] at hi
      · obtain rfl := List.mem_singleton.mp hi
        exact congrArg some hw
    · intro he
      exact ⟨⟨hash, k, v⟩, by simp, rfl, Option.some.inj he⟩
  filed := by
    refine ⟨fun i hi hk => ?_, ?_⟩
    · rcases List.mem_append.mp hi with hi | hi
      · exact h.hash_eq i (List.mem_filter.mp hi).1 hk
      · rw [List.mem_singleton.mp hi]
    · have herase := (Replaces.erase h).filed.nodup
      rw [List.map_append, List.nodup_append]
      refine ⟨herase, by simp, fun a ha b hb hab => ?_⟩
      obtain ⟨i, hi, rfl⟩ := List.mem_map.mp ha
      rw [List.mem_filter] at hi
      have hkey : b = k := by simpa using hb
      simp [hab, hkey] at hi

end Replaces

/-! ## The four mutations -/

namespace Mutation

/--
In the bucket of its key, a mutation goes by the value that is there: `spec` says what it
gives, and what value it leaves.
-/
def Acts [DecidableEq κ] (f : Mutation κ ν α) (hash : UInt32) (k : κ)
    (spec : Option ν → α × Option ν) : Prop :=
  ∀ (b : Bucket κ ν) (s : Shared κ ν), b.Anchored → s.pool.IsClean → Filed hash k b.items →
    (f b s).1.1 = (spec (valueOf b.items k)).1 ∧
    (f b s).1.2.Counts b.items.length (f b s).2.1.items.length ∧
    Replaces hash k (spec (valueOf b.items k)).2 b.items (f b s).2.1.items ∧
    (f b s).2.1.Anchored ∧ (f b s).2.2.pool.IsClean

variable [DecidableEq κ]

theorem find?_filed {hash : UInt32} {k : κ} {b : Bucket κ ν} (h : Filed hash k b.items) :
    b.find? (.exactly hash k) = b.items.find? fun i => decide (i.key = k) := by
  rw [Bucket.find?_eq, h.find?_eq]

theorem acts_set (hash : UInt32) (k : κ) (v : ν) :
    (set hash k v).Acts hash k fun old => (old, some v) := by
  intro b s hanch hclean hfiled
  have hitems := Bucket.items_replace (.exactly hash k) ⟨hash, k, v⟩ b hclean
  have hout := Bucket.replace_fst (.exactly hash k) ⟨hash, k, v⟩ b s
  rw [hfiled.eraseP_eq] at hitems
  rw [hfiled.find?_eq] at hout
  unfold set
  dsimp only
  rw [hitems, hout]
  refine ⟨rfl, ?_, .put hfiled v, Bucket.anchored_replace _ _ _ _,
    Bucket.clean_replace _ _ _ hclean⟩
  -- with or without an old item there is one item of the key afterwards
  cases hfind : b.items.find? fun i => decide (i.key = k) with
  | none =>
    rw [filter_of_find?_none hfind]
    simp [Change.Counts]
  | some i =>
    have hlen := length_filter_of_find?_some hfiled.nodup hfind
    simpa [Change.Counts] using hlen

theorem acts_setAbsent (hash : UInt32) (k : κ) (v : ν) :
    (setAbsent hash k v).Acts hash k fun old => (old.isNone, some (old.getD v)) := by
  intro b s hanch hclean hfiled
  unfold setAbsent
  rw [find?_filed hfiled]
  cases hfind : b.items.find? fun i => decide (i.key = k) with
  -- the key is there, and nothing is published
  | some i =>
    have hvalue : valueOf b.items k = some i.value := by rw [valueOf, hfind]; rfl
    have hself := Replaces.self hfiled
    rw [hvalue] at hself ⊢
    exact ⟨rfl, rfl, hself, hanch, hclean⟩
  | none =>
    have hvalue : valueOf b.items k = none := by rw [valueOf, hfind]; rfl
    have hput := Replaces.put hfiled v
    rw [filter_of_find?_none hfind] at hput
    rw [hvalue]
    dsimp only
    rw [Bucket.items_add _ _ hclean]
    exact ⟨rfl, by simp [Change.Counts], hput, Bucket.anchored_add _ _ _,
      Bucket.clean_add _ _ hclean⟩

theorem acts_getOrSet (hash : UInt32) (k : κ) (v : ν) :
    (getOrSet hash k v).Acts hash k fun old =>
      ((old.getD v, old.isSome), some (old.getD v)) := by
  intro b s hanch hclean hfiled
  unfold getOrSet
  rw [find?_filed hfiled]
  cases hfind : b.items.find? fun i => decide (i.key = k) with
  | some i =>
    have hvalue : valueOf b.items k = some i.value := by rw [valueOf, hfind]; rfl
    have hself := Replaces.self hfiled
    rw [hvalue] at hself ⊢
    exact ⟨rfl, rfl, hself, hanch, hclean⟩
  | none =>
    have hvalue : valueOf b.items k = none := by rw [valueOf, hfind]; rfl
    have hput := Replaces.put hfiled v
    rw [filter_of_find?_none hfind] at hput
    rw [hvalue]
    dsimp only
    rw [Bucket.items_add _ _ hclean]
    exact ⟨rfl, by simp [Change.Counts], hput, Bucket.anchored_add _ _ _,
      Bucket.clean_add _ _ hclean⟩

theorem acts_delete (hash : UInt32) (k : κ) :
    (delete (ν := ν) (.exactly hash k)).Acts hash k fun old => (old, none) := by
  intro b s hanch hclean hfiled
  unfold delete
  rw [find?_filed hfiled]
  cases hfind : b.items.find? fun i => decide (i.key = k) with
  | none =>
    have hvalue : valueOf b.items k = none := by rw [valueOf, hfind]; rfl
    have hself := Replaces.self hfiled
    rw [hvalue] at hself ⊢
    exact ⟨rfl, rfl, hself, hanch, hclean⟩
  | some i =>
    have hvalue : valueOf b.items k = some i.value := by rw [valueOf, hfind]; rfl
    have hitems := Bucket.items_remove (.exactly hash k) b hclean
    have hout := Bucket.remove_fst (.exactly hash k) b s
    rw [hfiled.eraseP_eq] at hitems
    rw [hfiled.find?_eq, hfind] at hout
    have hlen := length_filter_of_find?_some hfiled.nodup hfind
    dsimp only
    rw [hitems, hout, hvalue]
    exact ⟨rfl, hlen.symm, .erase hfiled, Bucket.anchored_remove _ _ _,
      Bucket.clean_remove _ _ hclean⟩

end Mutation

end VersionedMap
