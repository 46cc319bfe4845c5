import VersionedMap.Proofs.BucketContinuity
import VersionedMap.Proofs.Capacity
import VersionedMap.Proofs.NothingToReclaim
import VersionedMap.Proofs.Operations
import VersionedMap.Proofs.Overrun

/-!
# Growth splits every bucket in two

A table is grown by one who reads it like any reader does, bucket by bucket, and deals the items
out to twice as many buckets. Nothing is asked of the keys here, nor of the count: an item goes
where its stored hash says, in the order in which it stood, and every item goes somewhere, as
long as it was where its hash said before.

The old table is left to those who still read it. An acquisition and the release that follows it
cancel out in the two places where readers are counted, and nothing was left to reclaim before. So
every version stays, however many readers there are, and they find what they found.
-/

namespace VersionedMap

variable {κ ν : Type}

namespace Bucket

/-! ## One bucket is read -/

/-- To read a bucket leaves all its versions where they are. -/
theorem Ready.stands_reading {σ : Type} {b : Bucket κ ν} (h : b.Ready) (hsettled : b.Settled)
    (f : List (Item κ ν) → σ × Shared κ ν → σ × Shared κ ν) (x : σ × Shared κ ν) :
    b.Stands (b.reading f x).1 := by
  have holdest := hsettled.oldest (hsettled.served h.free)
  rcases h.reading_cases f x with ⟨_, hread⟩ | ⟨_, c, s, hacq, hread⟩
  · rw [hread]
    exact .refl b
  · have hclaim := stands_acquire holdest x.2
    rw [hacq] at hclaim
    have hrelease := stands_release (hclaim.counts_eq ▸ holdest) (f b.items (x.1, s)).2
    rw [hclaim.published_eq] at hrelease
    rw [hread]
    exact hclaim.trans hrelease

/-- An acquisition is one more, wherever it is counted in the end. -/
theorem balance_acquire {b : Bucket κ ν} (h : b.Anchored) (hne : b.chain ≠ [])
    (hfree : b.locked = false) (s : Shared κ ν) :
    (b.acquire s).2.1.balance = b.balance + 1 := by
  have hclaim : b.claimed.balance = b.balance + 1 := by
    unfold balance
    rw [reference_claimed h hne]
    show (b.reference.count + 1).toInt32 + _ = _
    rw [toInt32_add, show (1 : UInt32).toInt32 = 1 from rfl]
    show _ + ((b.newest?.map _).getD 0) = _
    generalize (b.newest?.map (·.internal)).getD 0 = x
    grind
  rcases acquire_cases h s with ⟨hnil, _⟩ | ⟨_, _, hlocked, _⟩ | ⟨_, hat, _, hacq⟩ | ⟨_, _, hacq⟩
  · exact absurd hnil hne
  · rw [hfree] at hlocked
    cases hlocked
  · have hnames := (h.names hne).claimed <| by
      have hnat := congrArg UInt32.toNat hat
      rw [toNat_rebalanceAt, UInt32.toNat_add, UInt32.toNat_one] at hnat
      have := b.reference.count.toNat_lt
      omega
    rw [hacq, ← hclaim]
    exact hnames.balance_rebalance (UInt32.le_of_eq hat.symm) s
  · rw [hacq]
    exact hclaim

/-- A release of the newest version is one less. -/
theorem balance_release {b : Bucket κ ν} (hne : b.chain ≠ []) (s : Shared κ ν) :
    (b.release b.published s).1.balance = b.balance - 1 := by
  obtain ⟨head, older, hchain⟩ := List.exists_cons_of_ne_nil hne
  have hfound : b.version? b.published = some head := by
    rw [version?, Nat.sub_self, hchain]
    rfl
  have hdown : (b.modifyInternal b.published (· - 1)).balance = b.balance - 1 := by
    have href : (b.modifyInternal b.published (· - 1)).reference = b.reference := rfl
    unfold balance newest?
    rw [href, modifyInternal, Nat.sub_self, hchain]
    show _ + (head.internal - 1) = _ + head.internal - 1
    generalize b.reference.count.toInt32 = x
    grind
  unfold release
  rw [hfound]
  dsimp only
  split
  · unfold servePending
    split
    · rw [balance_reclaim]
      exact hdown
    · exact hdown
  · exact hdown

/-- To read a bucket does not change how many readers it counts. -/
theorem Ready.balance_reading {σ : Type} {b : Bucket κ ν} (h : b.Ready)
    (f : List (Item κ ν) → σ × Shared κ ν → σ × Shared κ ν) (x : σ × Shared κ ν) :
    (b.reading f x).1.balance = b.balance := by
  rcases h.reading_cases f x with ⟨_, hread⟩ | ⟨hne, c, s, hacq, hread⟩
  · rw [hread]
  · have hshort := shortens_acquire h.anchored x.2
    have hmore := balance_acquire h.anchored hne h.free x.2
    rw [hacq] at hshort hmore
    have hless := balance_release (fun hnil => hne (hshort.vacant hnil)) (f b.items (x.1, s)).2
      (b := c)
    rw [hshort.published_eq, hmore] at hless
    rw [hread, hless]
    generalize b.balance = n
    grind

/-! ## One bucket is made -/

/-- A bucket as growth makes it: untouched, or with one version that nobody has acquired. -/
structure Installed (b : Bucket κ ν) : Prop where
  untouched : b.items = [] → b = {}
  first : b.items ≠ [] → ∃ v : Version κ ν, v.id = 1 ∧ v.internal = 0 ∧ v.prev = none ∧
    b = { chain := [v], word := Reference.word ⟨1, 1⟩, published := 1 }

theorem installed_ofStaged {o : Option (Version κ ν)} (h : ∀ v, o = some v → Staging.Dealt v) :
    (ofStaged o).Installed := by
  cases o with
  | none => exact ⟨fun _ => rfl, fun hne => absurd rfl hne⟩
  | some v =>
    have hv := h v rfl
    exact ⟨fun hnil => absurd hnil hv.items_ne,
      fun _ => ⟨{ v with id := 1 }, rfl, hv.internal_eq, hv.prev_eq, rfl⟩⟩

end Bucket

/-! ## The shelves are split -/

/-- With one more bit a hash names the old slot or the one half the new slots further on. -/
theorem slot_double_cases {n e : Nat} (hn : n = 2 ^ e) (hash : UInt32) :
    slot (2 * n) hash = slot n hash ∨ slot (2 * n) hash = n + slot n hash := by
  have hdouble : 2 * n = 2 ^ (e + 1) := by rw [hn, Nat.pow_succ, Nat.mul_comm]
  have hslot (k : Nat) : slot (2 ^ k) hash = hash.toNat % 2 ^ k := Nat.and_two_pow_sub_one_eq_mod ..
  rw [hdouble, hn, hslot, hslot, Nat.pow_succ, Nat.mod_mul]
  rcases Nat.mod_two_eq_zero_or_one (hash.toNat / 2 ^ e) with hbit | hbit
  · exact .inl (by rw [hbit, Nat.mul_zero, Nat.add_zero])
  · exact .inr (by rw [hbit, Nat.mul_one, Nat.add_comm])

/-- A shelf is split without loss. -/
theorem length_split_shelf {n e j : Nat} (hn : n = 2 ^ e) {l : List (Item κ ν)}
    (hl : ∀ i ∈ l, slot n i.hash = j) :
    (l.filter fun i => slot (2 * n) i.hash == j).length +
      (l.filter fun i => slot (2 * n) i.hash == n + j).length = l.length := by
  have hpos : 0 < n := by rw [hn]; exact Nat.two_pow_pos e
  have hrest : (l.filter fun i => slot (2 * n) i.hash == n + j) =
      l.filter fun i => !(slot (2 * n) i.hash == j) := by
    refine List.filter_congr fun i hi => ?_
    have hcases := slot_double_cases hn i.hash
    rw [hl i hi] at hcases
    rcases hcases with hlow | hhigh
    · simp [hlow]
      omega
    · simp [hhigh]
      omega
  rw [hrest]
  exact (List.length_eq_length_filter_add _).symm

/-- Twice as many shelves hold as many items. -/
theorem Placed.length_doubled {shelves : List (List (Item κ ν))} (h : Placed shelves)
    {e : Nat} (he : shelves.length = 2 ^ e) :
    (doubled shelves).flatten.length = shelves.flatten.length := by
  generalize hn : shelves.length = n at he
  have hpos : 0 < n := by rw [he]; exact Nat.two_pow_pos e
  let part (k j : Nat) : Nat :=
    ((shelves.getD j []).filter fun i => slot (2 * n) i.hash == k + j).length
  -- a new shelf of either half is made from the old one of the same place in that half
  have hpart (k j : Nat) (hk : k = 0 ∨ k = n) (hj : j < n) :
      ((shelves.getD ((k + j) &&& (n - 1)) []).filter fun i =>
        slot (2 * n) i.hash == k + j).length = part k j := by
    have hlow : (k + j) &&& (n - 1) = j := by
      rw [he, Nat.and_two_pow_sub_one_eq_mod, ← he]
      rcases hk with rfl | rfl
      · rw [Nat.zero_add, Nat.mod_eq_of_lt hj]
      · rw [Nat.add_mod_left, Nat.mod_eq_of_lt hj]
    rw [hlow]
  have hsplit (j : Nat) (hj : j < n) : part 0 j + part n j = (shelves.getD j []).length := by
    have hlt : j < shelves.length := hn ▸ hj
    have hget : shelves.getD j [] = shelves[j] := by
      rw [List.getD_eq_getElem?_getD, List.getElem?_eq_getElem hlt, Option.getD_some]
    have hall : ∀ i ∈ shelves[j], slot n i.hash = j := fun i hi => hn ▸ h j hlt i hi
    simp only [part, hget, Nat.zero_add]
    exact length_split_shelf he hall
  have hold : shelves.map List.length = (List.range n).map fun j => (shelves.getD j []).length := by
    refine List.ext_getElem (by simp [hn]) fun j hj hj' => ?_
    rw [List.length_map] at hj
    simp [hj]
  calc (doubled shelves).flatten.length
      = ((List.range (n + n)).map fun j => ((shelves.getD (j &&& (n - 1)) []).filter fun i =>
          slot (2 * n) i.hash == j).length).sum := by
        rw [List.length_flatten, doubled, List.map_map, hn, Nat.two_mul]
        rfl
    _ = ((List.range n).map (part 0)).sum + ((List.range n).map (part n)).sum := by
        rw [List.range_add, List.map_append, List.sum_append, List.map_map]
        refine congrArg₂ _ (congrArg _ ?_) (congrArg _ ?_)
        · refine List.map_congr_left fun j hj => ?_
          have := hpart 0 j (.inl rfl) (List.mem_range.mp hj)
          rwa [Nat.zero_add] at this
        · exact List.map_congr_left fun j hj => hpart n j (.inr rfl) (List.mem_range.mp hj)
    _ = ((List.range n).map fun j => part 0 j + part n j).sum := (List.sum_map_add ..).symm
    _ = ((List.range n).map fun j => (shelves.getD j []).length).sum :=
        congrArg _ (List.map_congr_left fun j hj => hsplit j (List.mem_range.mp hj))
    _ = shelves.flatten.length := by rw [List.length_flatten, hold]

/-! ## The table is grown -/

namespace Table

/-- The bucket of an item is that of its stored hash. -/
def Placed (t : Table κ ν) : Prop :=
  ∀ j, (hj : j < t.buckets.size) → ∀ i ∈ t.buckets[j].items, (t.index i.hash).val = j

theorem Placed.shelves {t : Table κ ν} (h : t.Placed) : VersionedMap.Placed t.shelves := by
  intro j hj i hi
  rw [length_shelves] at hj ⊢
  simp only [Table.shelves, List.getElem_map, Array.getElem_toList] at hi
  exact h j hj i hi

/-- What a grown table is like, and what has become of the old one. -/
structure Splits (t grown old : Table κ ν) : Prop where
  /-- There are twice as many buckets, as many as a table of that capacity has. -/
  size_eq : grown.size = 2 * t.size
  size_eq_for : minimumBuckets ≤ t.size → t.size < 2 ^ 62 → grown.size = bucketsFor (2 * t.size)
  /-- A new bucket gets from one old bucket what one more bit of the hash selects. -/
  items_eq : ∀ i < 2 * t.size, ∃ a b, t.buckets[i &&& (t.size - 1)]? = some a ∧
    grown.buckets[i]? = some b ∧
    b.items = a.items.filter fun x => x.hash.toNat &&& (2 * t.size - 1) == i
  /-- No item is lost or doubled, and they are counted. -/
  length_eq : grown.items.length = t.items.length
  count_eq : grown.count = t.items.length.toUInt64
  /-- New buckets are as if nothing had ever happened to them but their installation. -/
  installed : ∀ b ∈ grown.buckets, b.Installed
  /-- The old buckets show what they showed, have all their versions, and count as many readers. -/
  old_size : old.size = t.size
  old_count : old.count = t.count
  old_eq : ∀ (j : Nat) (a : Bucket κ ν), t.buckets[j]? = some a → ∃ c,
    old.buckets[j]? = some c ∧ c.items = a.items ∧ a.Stands c ∧ c.balance = a.balance

variable {t : Table κ ν} {s : Shared κ ν}

/-- The old table is what is left when every bucket has been read. -/
theorem getElem?_grow_old (t : Table κ ν) (hs : s.pool.IsClean) {j : Nat} {a : Bucket κ ν}
    (ha : t.buckets[j]? = some a) :
    ∃ x : Staging κ ν (2 * t.size) × Shared κ ν, x.2.pool.IsClean ∧
      (t.grow s).2.1.buckets[j]? = some (a.reading Staging.dealAll x).1 := by
  obtain ⟨_, hall⟩ := sweep_pointwise (f := Bucket.reading Staging.dealAll) (a := t.buckets)
    (P := fun x : Staging κ ν (2 * t.size) × Shared κ ν => x.2.pool.IsClean)
    (R := fun a c => ∃ x : Staging κ ν (2 * t.size) × Shared κ ν, x.2.pool.IsClean ∧
      c = (a.reading Staging.dealAll x).1)
    (fun b _ x hx => ⟨(Staging.exists_deals_reading b hx).elim fun _ h => h.clean, x, hx, rfl⟩)
    (s := ({}, s)) hs
  obtain ⟨c, hc, x, hx, rfl⟩ := hall j a ha
  exact ⟨x, hx, hc⟩

theorem installed_grow (t : Table κ ν) (hs : s.pool.IsClean) :
    ∀ b ∈ (t.grow s).1.buckets, b.Installed := by
  intro b hb
  obtain ⟨o, ho, rfl⟩ := Array.mem_map.mp hb
  refine Bucket.installed_ofStaged fun v hv => t.dealt_gathered hs v ?_
  exact (Vector.mem_toArray_iff _ _).mp (hv ▸ ho)

/-- Growth splits any table of ready buckets whose items are where they belong. -/
theorem splits_grow (h : t.Ready) (hsettled : ∀ b ∈ t.buckets, b.Settled) (hplaced : t.Placed)
    {e : Nat} (he : t.size = 2 ^ e) (hs : s.pool.IsClean) :
    t.Splits (t.grow s).1 (t.grow s).2.1 := by
  have hshelves := shelves_grow_eq_doubled h hplaced.shelves he hs
  have hsize : (t.grow s).1.size = 2 * t.size := by
    rw [← length_shelves, hshelves, VersionedMap.length_doubled, length_shelves]
  refine {
    size_eq := hsize
    size_eq_for := fun hleast hlt => ?_
    items_eq := fun i hi => ?_
    length_eq := ?_
    count_eq := count_grow h hs
    installed := t.installed_grow hs
    old_size := by simp [grow, size]
    old_count := rfl
    old_eq := fun j a ha => ?_ }
  · have hdouble : 2 * t.size = 2 ^ (e + 1) := by rw [he, Nat.pow_succ, Nat.mul_comm]
    have hle : 2 * t.size ≤ 2 ^ 62 := by
      have hlt' : e < 62 := (Nat.pow_lt_pow_iff_right (by decide)).mp (he ▸ hlt)
      rw [hdouble]
      exact Nat.pow_le_pow_right (by decide) hlt'
    rw [hsize]
    refine Nat.le_antisymm (le_bucketsFor hle) ?_
    rw [hdouble] at hle ⊢
    exact bucketsFor_le (by omega) (Nat.le_refl _)
  · -- both the old bucket and the new one are within bounds
    have hold : i &&& (t.size - 1) < t.buckets.size :=
      Nat.lt_of_le_of_lt Nat.and_le_right (Nat.sub_lt t.nonempty Nat.one_pos)
    have hnew : i < (t.grow s).1.buckets.size := Nat.lt_of_lt_of_eq hi hsize.symm
    refine ⟨_, _, Array.getElem?_eq_getElem hold, Array.getElem?_eq_getElem hnew, ?_⟩
    have hget := congrArg (·[i]?) hshelves
    simp only [getElem?_shelves, Array.getElem?_eq_getElem hnew, Option.map_some] at hget
    rw [doubled, List.getElem?_map, length_shelves, List.getElem?_range hi, Option.map_some,
      List.getD_eq_getElem?_getD, getElem?_shelves, Array.getElem?_eq_getElem hold] at hget
    exact Option.some.inj hget
  · rw [items_eq_flatten, hshelves, items_eq_flatten]
    exact hplaced.shelves.length_doubled ((length_shelves t).trans he)
  · obtain ⟨x, _, hc⟩ := t.getElem?_grow_old hs ha
    have hmem := Array.mem_of_getElem? ha
    have hready := h a hmem
    exact ⟨_, hc, hready.items_reading _ x, hready.stands_reading (hsettled a hmem) _ x,
      hready.balance_reading _ x⟩

end Table

/-! ## Tables in a workshop -/

namespace Workshop

variable {w : Workshop κ ν}

/-- Every bucket is anchored, however many readers there are. -/
def Steady (w : Workshop κ ν) : Prop := ∀ b ∈ w.benches, ∃ n, (b.session w.shared).Aged n

theorem steady_run (capacity n : Nat) {cs : List (Command κ ν)}
    (hcs : ∀ c ∈ cs, c.setsCounts = false) : ((new capacity n : Workshop κ ν).run cs).Steady := by
  intro b hb
  obtain ⟨i, hi⟩ := List.mem_iff_getElem?.mp hb
  exact ((counts_new capacity n i).run hcs).aged b hi

theorem length_benches_step (w : Workshop κ ν) (c : Command κ ν) :
    (w.step c).benches.length = w.benches.length := by
  cases c with
  | bucket i c => dsimp only [Workshop.step]; split <;> simp
  | pool c => rfl
  | dismiss i =>
    dsimp only [Workshop.step]
    split
    · rfl
    · split <;> simp

theorem length_benches_run (w : Workshop κ ν) (cs : List (Command κ ν)) :
    (w.run cs).benches.length = w.benches.length := by
  induction cs generalizing w with
  | nil => rfl
  | cons c cs ih => exact (ih (w.step c)).trans (length_benches_step w c)

/-- A table made of the buckets of the benches. -/
def Furnishes (w : Workshop κ ν) (t : Table κ ν) : Prop :=
  t.buckets.toList = w.benches.map (·.bucket)

theorem Furnishes.getElem? {t : Table κ ν} (h : w.Furnishes t) (j : Nat) :
    t.buckets[j]? = (w.benches[j]?).map (·.bucket) := by
  rw [← Array.getElem?_toList, h, List.getElem?_map]

theorem Furnishes.mem {t : Table κ ν} (h : w.Furnishes t) {b : Bucket κ ν} (hb : b ∈ t.buckets) :
    ∃ a ∈ w.benches, a.bucket = b :=
  List.mem_map.mp (h ▸ Array.mem_toList_iff.mpr hb)

theorem Furnishes.ready {t : Table κ ν} (h : w.Furnishes t) (hsteady : w.Steady)
    (hfree : t.anyLocked = false) : t.Ready := by
  intro b hb
  obtain ⟨a, ha, rfl⟩ := h.mem hb
  obtain ⟨n, hn⟩ := hsteady a ha
  refine ⟨hn.anchored, ?_⟩
  unfold Table.anyLocked at hfree
  rw [Array.any_eq_false'] at hfree
  exact Bool.eq_false_iff.mpr (hfree _ hb)

theorem Furnishes.settled {t : Table κ ν} (h : w.Furnishes t) (hsettled : w.Settled) :
    ∀ b ∈ t.buckets, b.Settled := by
  intro b hb
  obtain ⟨a, ha, rfl⟩ := h.mem hb
  exact hsettled a ha

/-- Whoever reads an old bucket finds after growth the items that it found before. -/
def Undisturbed (b : Bench κ ν) (c : Bucket κ ν) : Prop :=
  ∀ r n, b.readers.get? r = some n →
    (c.version? n).map (·.items) = (b.bucket.version? n).map (·.items)

/-- What is more where no version has as many readers as could not be counted. -/
structure Reckoned (b : Bench κ ν) (c : Bucket κ ν) : Prop where
  /-- Whatever is held is there. -/
  kept : ∀ r n, b.readers.get? r = some n → c.Keeps n
  /-- The two counts of the newest version add up to the same, in full. -/
  counts : ∀ v, b.bucket.newest? = some v → ∃ v', c.newest? = some v' ∧
    (c.reference.count.toNat : Int) + v'.internal.toInt =
      b.bucket.reference.count.toNat + v.internal.toInt

/-- What the counts of an orderly bucket come to. -/
theorem count_newest {b : Bucket κ ν} {held : Nat → Nat} (h : b.Orderly held)
    (hroom : held b.published < 2 ^ 31) {v : Version κ ν} (hv : b.newest? = some v) :
    (b.reference.count.toNat : Int) + v.internal.toInt = held b.published + 1 := by
  have hfirst : b.chain[0]? = some v := by
    rw [← List.head?_eq_getElem?]
    exact hv
  have hsum := h.counted.counts 0 v hfirst
  have hne : b.chain ≠ [] := fun hnil => by simp [hnil] at hfirst
  have hbounds : 1 ≤ b.reference.count.toNat ∧ b.reference.count.toNat ≤ 1000000000 := by
    cases h.counted.anchored with
    | vacant hchain => exact absurd hchain hne
    | named head older count hchain hword hid hpos hlt =>
      rw [Bucket.reference, hword, Reference.ofWord_word]
      exact ⟨hpos, Nat.le_of_lt hlt⟩
  have := toInt_of_sum hroom hbounds.1 hbounds.2 hsum
  omega

theorem reckoned_of_stands {b : Bench κ ν} {c : Bucket κ ν} {s : Shared κ ν}
    (h : (b.session s).Sound) (hroom : (b.session s).Uncrowded) (hcontinues : b.bucket.Continues c)
    (hstands : b.bucket.Stands c) : Reckoned b c := by
  have hafter := (hcontinues.keeps _ hroom h.orderly).1
  constructor
  · intro r n hr
    exact hafter.counted.kept n (Bucket.Session.held_ne_zero.mpr (Numbered.mem_values hr))
  · intro v hv
    have hlength := congrArg List.length hstands.lasting_eq
    rw [Bucket.length_lasting, Bucket.length_lasting] at hlength
    obtain ⟨older, hchain⟩ := List.head?_eq_some_iff.mp hv
    obtain ⟨v', older', hchain'⟩ := List.exists_cons_of_length_pos
      (l := c.chain) (by rw [hlength, hchain]; exact Nat.succ_pos _)
    have hv' : c.newest? = some v' := by
      rw [Bucket.newest?, hchain']
      rfl
    refine ⟨v', hv', ?_⟩
    rw [count_newest hafter (hroom _) hv', hstands.published_eq]
    exact (count_newest h.orderly (hroom _) hv).symm

/--
**Growth is a stable split that leaves the old table readable.**

Whatever has been done to the buckets of a table and to the pool, and however many readers hold
versions of them: if no bucket is locked and every item is in the bucket of its stored hash, the
grown table has the items of every old bucket in two new ones, in the old order, and is otherwise
new. The old table shows what it showed, has all its versions, and every reader of it finds what it
found. As long as the readers can be counted, what they hold is there and they are all counted.
-/
theorem grow_splits (capacity e : Nat) {cs : List (Command κ ν)}
    (hcs : ∀ c ∈ cs, c.setsCounts = false) {t : Table κ ν}
    (ht : ((new capacity (2 ^ e)).run cs).Furnishes t) (hfree : t.anyLocked = false)
    (hplaced : t.Placed) :
    let w := (new capacity (2 ^ e)).run cs
    let grown := t.grow w.shared
    t.Splits grown.1 grown.2.1 ∧
      ∀ (j : Nat) (b : Bench κ ν), w.benches[j]? = some b →
        ∃ c, grown.2.1.buckets[j]? = some c ∧ Undisturbed b c ∧
          ((new capacity (2 ^ e)).Calm cs → (b.session w.shared).Uncrowded → Reckoned b c) := by
  intro w grown
  have hnew := sound_new (κ := κ) (ν := ν) capacity (2 ^ e)
  have hclean : w.shared.pool.IsClean := (hnew.run cs).kempt.clean
  have hready := ht.ready (steady_run capacity (2 ^ e) hcs) hfree
  have hsettled := ht.settled ((settled_new capacity (2 ^ e)).run hcs)
  have hsize : t.size = 2 ^ e := by
    have hbenches : t.size = w.benches.length := by
      rw [← List.length_map (f := (·.bucket)), ← show _ = _ from ht, Array.length_toList]
      rfl
    rw [hbenches, length_benches_run]
    exact List.length_replicate
  refine ⟨Table.splits_grow hready hsettled hplaced hsize hclean, fun j b hb => ?_⟩
  have hbucket : t.buckets[j]? = some b.bucket := by rw [ht.getElem?, hb]; rfl
  have hmem := Array.mem_of_getElem? hbucket
  obtain ⟨x, hx, hc⟩ := t.getElem?_grow_old hclean hbucket
  have hstands := (hready _ hmem).stands_reading (hsettled _ hmem) Staging.dealAll x
  refine ⟨_, hc, fun r n _ => hstands.items_version? n, fun hcalm hroom => ?_⟩
  have hsound := (manned_new capacity (2 ^ e)).run hnew hcalm b (List.mem_of_getElem? hb)
  exact reckoned_of_stands hsound hroom (b.bucket.continues_dealing hx) hstands

/-- Two buckets come to five items, and the first to a reader of an older version. -/
def twoBuckets : List (Command Nat Nat) :=
  [.bucket 0 (.add (.ok ⟨4, 4, 40⟩)), .bucket 0 (.add (.ok ⟨2, 2, 20⟩)), .bucket 0 (.acquire 0),
    .bucket 0 (.add (.ok ⟨8, 8, 80⟩)), .bucket 1 (.add (.ok ⟨5, 5, 50⟩)),
    .bucket 1 (.add (.ok ⟨1, 1, 10⟩))]

theorem grow_splits_two_buckets :
    let w := (new 4 (2 ^ 1)).run twoBuckets
    let t : Table Nat Nat := ⟨(w.benches.map Bench.bucket).toArray, 0, by decide⟩
    let grown := t.grow w.shared
    grown.1.shelves.map (·.map (·.key)) = [[4, 8], [5, 1], [2], []] ∧
      t.Splits grown.1 grown.2.1 ∧ ∀ (j : Nat) (b : Bench Nat Nat), w.benches[j]? = some b →
        ∃ c, grown.2.1.buckets[j]? = some c ∧ Undisturbed b c ∧ Reckoned b c := by
  have hcalm : (new 4 (2 ^ 1) : Workshop Nat Nat).Calm twoBuckets :=
    ⟨fair_bucket (by decide) rfl, fair_bucket (by decide) rfl, fair_bucket (by decide) rfl,
      fair_bucket (by decide) rfl, fair_bucket (by decide) rfl, fair_bucket (by decide) rfl,
      trivial⟩
  have hroom : ∀ b ∈ ((new 4 (2 ^ 1)).run twoBuckets).benches,
      b.readers.toList.length < 2 ^ 31 := by
    decide
  have hfurnishes : ((new 4 (2 ^ 1)).run twoBuckets).Furnishes
      ⟨(((new 4 (2 ^ 1)).run twoBuckets).benches.map Bench.bucket).toArray, 0, by decide⟩ := rfl
  obtain ⟨hsplits, hold⟩ := grow_splits 4 1 (by decide) hfurnishes (by decide +kernel)
    (by unfold Table.Placed; decide)
  refine ⟨by decide +kernel, hsplits, fun j b hb => ?_⟩
  obtain ⟨c, hc, hreaders, hcounts⟩ := hold j b hb
  exact ⟨c, hc, hreaders, hcounts hcalm
    (Bucket.Session.uncrowded_of_length (hroom b (List.mem_of_getElem? hb)))⟩

end Workshop

end VersionedMap
