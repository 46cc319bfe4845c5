import VersionedMap.Proofs.Shelves
import VersionedMap.Table.Growth

/-!
# What growth deals out

Growth goes through the buckets of a table and copies their items, one by one, to the versions
that it has staged for the new buckets. Whatever has been copied so far, for each new bucket those
items of them are staged whose hash names it, in the order in which they came. So in the end all
items of the table are **shelved** anew. The old table shows what it showed.

Nothing is asked here of where the items have stood. That all the items for a new bucket come from
one old bucket is another matter, and needs that they stood where they belong.
-/

namespace VersionedMap

variable {κ ν σ : Type} {n : Nat}

/-- Items on `n` shelves. -/
def shelve (l : List (Item κ ν)) (n : Nat) : List (List (Item κ ν)) :=
  (List.range n).map fun j => l.filter fun i => slot n i.hash == j

theorem length_shelve (l : List (Item κ ν)) (n : Nat) : (shelve l n).length = n := by
  rw [shelve, List.length_map, List.length_range]

theorem getElem?_shelve (l : List (Item κ ν)) {n j : Nat} (hj : j < n) :
    (shelve l n)[j]? = some (l.filter fun i => slot n i.hash == j) := by
  rw [shelve, List.getElem?_map, List.getElem?_range hj]
  rfl

/-! ## A bucket is read -/

namespace Bucket

/-- Who reads a bucket that is ready finds it vacant, or acquires its current version. -/
theorem Ready.reading_cases {b : Bucket κ ν} (h : b.Ready)
    (f : List (Item κ ν) → σ × Shared κ ν → σ × Shared κ ν) (x : σ × Shared κ ν) :
    (b.chain = [] ∧ b.reading f x = (b, x)) ∨
    (b.chain ≠ [] ∧ ∃ c s, b.acquire x.2 = (.held b.published, c, s) ∧
      b.reading f x = ((c.release b.published (f b.items (x.1, s)).2).1, (f b.items (x.1, s)).1,
        (c.release b.published (f b.items (x.1, s)).2).2)) := by
  have hheld (hne : b.chain ≠ []) {c : Bucket κ ν} {s : Shared κ ν}
      (hacq : b.acquire x.2 = (.held b.published, c, s)) :
      b.reading f x = ((c.release b.published (f b.items (x.1, s)).2).1, (f b.items (x.1, s)).1,
        (c.release b.published (f b.items (x.1, s)).2).2) := by
    have hitems := items_acquire b x.2
    have hpub := (shortens_acquire h.anchored x.2).published_eq
    rw [← itemsAt_published, hpub, hacq] at hitems
    unfold reading
    rw [hacq]
    dsimp only at hitems ⊢
    rw [hitems]
  rcases Bucket.acquire_cases h.anchored x.2 with
    ⟨hchain, hacq⟩ | ⟨_, _, hlocked, _⟩ | ⟨hne, _, _, hacq⟩ | ⟨hne, _, hacq⟩
  · refine .inl ⟨hchain, ?_⟩
    unfold reading
    rw [hacq]
  · rw [h.free] at hlocked
    cases hlocked
  · exact .inr ⟨hne, _, _, hacq, hheld hne hacq⟩
  · exact .inr ⟨hne, _, _, hacq, hheld hne hacq⟩

theorem Ready.reading {b : Bucket κ ν} (h : b.Ready)
    (f : List (Item κ ν) → σ × Shared κ ν → σ × Shared κ ν) (x : σ × Shared κ ν) :
    (b.reading f x).1.Ready := by
  rcases h.reading_cases f x with ⟨_, hread⟩ | ⟨_, c, s, hacq, hread⟩
  · rw [hread]
    exact h
  · have hready := h.acquire x.2
    rw [hacq] at hready
    rw [hread]
    exact hready.release _ _

theorem Ready.items_reading {b : Bucket κ ν} (h : b.Ready)
    (f : List (Item κ ν) → σ × Shared κ ν → σ × Shared κ ν) (x : σ × Shared κ ν) :
    (b.reading f x).1.items = b.items := by
  rcases h.reading_cases f x with ⟨_, hread⟩ | ⟨_, c, s, hacq, hread⟩
  · rw [hread]
  · have hitems := items_acquire b x.2
    rw [hacq] at hitems
    rw [hread, items_release]
    exact hitems

theorem ready_ofStaged (o : Option (Version κ ν)) : (ofStaged o).Ready := by
  cases o with
  | none => exact ready_new
  | some v => exact ⟨anchored_install {} v, rfl⟩

/-- A staged version is all that its bucket shows. -/
theorem items_ofStaged (o : Option (Version κ ν)) :
    (ofStaged o).items = o.elim [] Version.items := by
  cases o <;> rfl

end Bucket

/-! ## Items are copied -/

namespace Staging

/-- What is staged for bucket `j`. -/
def items (g : Staging κ ν n) (j : Nat) : List (Item κ ν) :=
  (g.staged[j]?).elim [] (·.elim [] Version.items)

/-- A version that has items and else is as it was taken. -/
structure Dealt (v : Version κ ν) : Prop where
  items_ne : v.items ≠ []
  internal_eq : v.internal = 0
  prev_eq : v.prev = none

/-- From one stage to a later one, with the items of `l` copied in between. -/
structure Deals (x y : Staging κ ν n × Shared κ ν) (l : List (Item κ ν)) : Prop where
  clean : y.2.pool.IsClean
  items_eq : ∀ j < n, y.1.items j = x.1.items j ++ l.filter fun i => slot n i.hash == j
  count_eq : y.1.count = x.1.count + l.length.toUInt64
  dealt : (∀ v, some v ∈ x.1.staged → Dealt v) → ∀ v, some v ∈ y.1.staged → Dealt v

variable {x y z : Staging κ ν n × Shared κ ν} {l l' : List (Item κ ν)}

theorem Deals.refl (h : x.2.pool.IsClean) : Deals x x [] where
  clean := h
  items_eq _ _ := (List.append_nil _).symm
  count_eq := (UInt64.add_zero _).symm
  dealt := id

theorem Deals.trans (h : Deals x y l) (h' : Deals y z l') : Deals x z (l ++ l') where
  clean := h'.clean
  items_eq j hj := by
    rw [h'.items_eq j hj, h.items_eq j hj, List.filter_append, List.append_assoc]
  count_eq := by
    rw [h'.count_eq, h.count_eq, UInt64.add_assoc, List.length_append]
    exact congrArg _ (UInt64.ofNat_add ..).symm
  dealt := h'.dealt ∘ h.dealt

/-- What the buckets share may change for another reason, as long as the pool stays clean. -/
theorem Deals.shared {g g' : Staging κ ν n} {s s' : Shared κ ν} (h : Deals (g, s) (g', s') l)
    (r : Shared κ ν) {r' : Shared κ ν} (hr' : r'.pool.IsClean) : Deals (g, r) (g', r') l :=
  ⟨hr', h.items_eq, h.count_eq, h.dealt⟩

/-- The version to which an item goes has what was staged, and is there or has just been taken. -/
theorem versionFor_spec (g : Staging κ ν n) (j : Nat) {s : Shared κ ν} (hs : s.pool.IsClean) :
    (versionFor g.staged j s).2.pool.IsClean ∧ (versionFor g.staged j s).1.items = g.items j ∧
      ((∀ v, some v ∈ g.staged → Dealt v) → (versionFor g.staged j s).1.internal = 0 ∧
        (versionFor g.staged j s).1.prev = none) := by
  have hreset := hs.reset_take
  have htaken : s.take.2.pool.IsClean ∧ s.take.1.items = [] ∧
      ((∀ v, some v ∈ g.staged → Dealt v) → s.take.1.internal = 0 ∧ s.take.1.prev = none) :=
    ⟨hs.take, hs.items_take, fun _ =>
      ⟨(congrArg Version.internal hreset).symm, (congrArg Version.prev hreset).symm⟩⟩
  unfold versionFor items
  cases hj : g.staged[j]? with
  | none => exact htaken
  | some o =>
    cases o with
    | none => exact htaken
    | some v =>
      refine ⟨hs, rfl, fun hdealt => ?_⟩
      have hv := hdealt v (Vector.mem_of_getElem? hj)
      exact ⟨hv.internal_eq, hv.prev_eq⟩

/-- One item is copied to the version for the bucket that its hash names. -/
theorem deals_deal (hx : x.2.pool.IsClean) (i : Item κ ν) : Deals x (deal x i) [i] := by
  obtain ⟨g, s⟩ := x
  obtain ⟨hclean, hitems, hfrom⟩ := versionFor_spec g (slot n i.hash) hx
  have hrun : deal (g, s) i =
      (⟨g.staged.setIfInBounds (slot n i.hash)
          (some ((versionFor g.staged (slot n i.hash) s).1.push i)),
        g.count + 1⟩, (versionFor g.staged (slot n i.hash) s).2) := rfl
  rw [hrun]
  generalize versionFor g.staged (slot n i.hash) s = taken at *
  obtain ⟨v, s'⟩ := taken
  refine ⟨hclean, fun j hj => ?_, rfl, fun hdealt w hw => ?_⟩
  · by_cases hslot : slot n i.hash = j
    · subst hslot
      have hpushed : (v.push i).items = g.items (slot n i.hash) ++ [i] := by
        rw [Version.items_push, hitems]
      unfold items at hpushed ⊢
      rw [Vector.getElem?_setIfInBounds_self, if_pos hj, List.filter_cons_of_pos (by simp)]
      exact hpushed
    · unfold items
      rw [Vector.getElem?_setIfInBounds_ne hslot, List.filter_cons_of_neg (by simpa using hslot)]
      exact (List.append_nil _).symm
  · obtain ⟨j, hj⟩ := Vector.mem_iff_getElem?.mp hw
    rw [Vector.getElem?_setIfInBounds] at hj
    split at hj
    · obtain ⟨hinternal, hprev⟩ := hfrom hdealt
      obtain ⟨_, rfl⟩ : slot n i.hash < n ∧ v.push i = w := by simpa using hj
      exact ⟨by simp, hinternal, hprev⟩
    · exact hdealt w (Vector.mem_of_getElem? hj)

theorem deals_dealAll (hx : x.2.pool.IsClean) (l : List (Item κ ν)) :
    Deals x (dealAll l x) l := by
  induction l generalizing x with
  | nil => exact .refl hx
  | cons i l ih =>
    have hfirst := deals_deal hx i
    exact hfirst.trans (ih hfirst.clean)

/-- Whatever bucket is read, some items are copied. -/
theorem exists_deals_reading (b : Bucket κ ν) (hx : x.2.pool.IsClean) :
    ∃ l, Deals x (b.reading dealAll x).2 l := by
  have hclean := Bucket.clean_acquire b hx
  unfold Bucket.reading
  generalize b.acquire x.2 = acquired at *
  obtain ⟨a, c, s⟩ := acquired
  cases a with
  | absent | waits => exact ⟨[], (Deals.refl hx).shared x.2 hclean⟩
  | held n =>
    have hdeals := deals_dealAll (x := (x.1, s)) hclean (c.itemsAt n)
    exact ⟨_, hdeals.shared x.2 (Bucket.clean_release _ _ hdeals.clean)⟩

/-- A bucket that is ready has its items copied when it is read. -/
theorem deals_reading {b : Bucket κ ν} (h : b.Ready) (hx : x.2.pool.IsClean) :
    Deals x (b.reading dealAll x).2 b.items := by
  rcases h.reading_cases dealAll x with ⟨hchain, hread⟩ | ⟨_, c, s, hacq, hread⟩
  · have hnone : b.items = [] := by
      unfold Bucket.items Bucket.newest?
      rw [hchain]
      rfl
    rw [hread, hnone]
    exact .refl hx
  · have hs : s.pool.IsClean := by
      have hclean := Bucket.clean_acquire b hx
      rw [hacq] at hclean
      exact hclean
    rw [hread]
    have hdeals := deals_dealAll (x := (x.1, s)) hs b.items
    exact hdeals.shared x.2 (Bucket.clean_release _ _ hdeals.clean)

theorem exists_deals_sweep (bs : List (Bucket κ ν)) (hx : x.2.pool.IsClean) :
    ∃ l, Deals x (sweepList (Bucket.reading dealAll) bs x).2 l := by
  induction bs generalizing x with
  | nil => exact ⟨[], .refl hx⟩
  | cons b bs ih =>
    obtain ⟨l, hfirst⟩ := exists_deals_reading b hx
    obtain ⟨l', hrest⟩ := ih hfirst.clean
    exact ⟨l ++ l', hfirst.trans hrest⟩

/-- When all buckets have been read, all items have been copied. -/
theorem deals_sweep {bs : List (Bucket κ ν)} (h : ∀ b ∈ bs, b.Ready) (hx : x.2.pool.IsClean) :
    Deals x (sweepList (Bucket.reading dealAll) bs x).2 (bs.flatMap (·.items)) := by
  induction bs generalizing x with
  | nil => exact .refl hx
  | cons b bs ih =>
    obtain ⟨hb, hbs⟩ := List.forall_mem_cons.mp h
    have hfirst := deals_reading hb hx
    exact hfirst.trans (ih hbs hfirst.clean)

end Staging

/-! ## The grown table -/

namespace Table

variable {t : Table κ ν} {s : Shared κ ν}

/-- What has been gathered when all buckets of a table have been read. -/
def gathered (t : Table κ ν) (s : Shared κ ν) : Staging κ ν (2 * t.size) × Shared κ ν :=
  (sweep (Bucket.reading Staging.dealAll) t.buckets ({}, s)).2

theorem exists_deals_gathered (t : Table κ ν) (hs : s.pool.IsClean) :
    ∃ l, Staging.Deals ({}, s) (t.gathered s) l := by
  unfold gathered
  rw [sweep_eq]
  exact Staging.exists_deals_sweep _ hs

theorem deals_gathered (h : t.Ready) (hs : s.pool.IsClean) :
    Staging.Deals ({}, s) (t.gathered s) t.items := by
  unfold gathered
  rw [sweep_eq]
  exact Staging.deals_sweep (fun b hb => h b (Array.mem_toList_iff.mp hb)) hs

/-- A staged version is the first of its new bucket, and the others have none. -/
theorem dealt_gathered (t : Table κ ν) (hs : s.pool.IsClean) :
    ∀ v, some v ∈ (t.gathered s).1.staged → Staging.Dealt v := by
  obtain ⟨_, hdeals⟩ := t.exists_deals_gathered hs
  exact hdeals.dealt fun v hv => by simp at hv

/-- On each new shelf stand all items whose hash names it, in the order of the old table. -/
theorem shelves_grow (h : t.Ready) (hs : s.pool.IsClean) :
    (t.grow s).1.shelves = shelve t.items (2 * t.size) := by
  have hdeals := deals_gathered h hs
  have hbuckets : (t.grow s).1.buckets =
      (t.gathered s).1.staged.toArray.map Bucket.ofStaged := rfl
  refine List.ext_getElem? fun j => ?_
  rw [getElem?_shelves, hbuckets, Array.getElem?_map, Vector.getElem?_toArray]
  by_cases hj : j < 2 * t.size
  · have hitems := hdeals.items_eq j hj
    unfold Staging.items at hitems
    rw [Vector.getElem?_eq_getElem hj] at hitems ⊢
    rw [getElem?_shelve _ hj, Option.map_some, Option.map_some, Bucket.items_ofStaged]
    refine congrArg some (hitems.trans ?_)
    rw [Vector.getElem?_replicate, if_pos hj]
    rfl
  · have hout : (shelve t.items (2 * t.size))[j]? = none :=
      List.getElem?_eq_none (by rw [length_shelve]; omega)
    rw [Vector.getElem?_eq_none (by omega), hout]
    rfl

theorem count_grow (h : t.Ready) (hs : s.pool.IsClean) :
    (t.grow s).1.count = t.items.length.toUInt64 :=
  (deals_gathered h hs).count_eq.trans (UInt64.zero_add _)

theorem ready_grow (h : t.Ready) (hs : s.pool.IsClean) :
    (t.grow s).1.Ready ∧ (t.grow s).2.1.Ready ∧ (t.grow s).2.2.pool.IsClean := by
  refine ⟨fun b hb => ?_, fun b hb => ?_, (deals_gathered h hs).clean⟩
  · obtain ⟨o, _, rfl⟩ := Array.mem_map.mp hb
    exact Bucket.ready_ofStaged o
  · exact (sweep_spec (P := fun _ => True) (Q := Bucket.Ready) (g := fun _ => ()) (h := fun _ => ())
      (fun b hb x _ => ⟨trivial, (h b hb).reading _ x, rfl⟩) trivial).2.1 b hb

/-- Growth leaves the old table with the items that it had. -/
theorem shelves_grow_old (h : t.Ready) (s : Shared κ ν) : (t.grow s).2.1.shelves = t.shelves :=
  (sweep_spec (P := fun _ => True) (Q := fun _ => True) (g := Bucket.items) (h := Bucket.items)
    (fun b hb x _ => ⟨trivial, trivial, (h b hb).items_reading _ x⟩) trivial).2.2

end Table

end VersionedMap
