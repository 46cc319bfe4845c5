import Mathlib.Algebra.Order.BigOperators.Group.List
import Mathlib.Algebra.Order.Ring.Nat
import Mathlib.Data.List.Range
import Mathlib.Order.Bounds.Basic
import VersionedMap.Proofs.Ascent

/-!
# The number of buckets

How many buckets a table has is settled by how many it was asked to have and by the most items that
it has ever had: it is the least power of two that will do for both. This is **measured** from one
moment to the next. As long as nothing grows the items stay below the threshold; where something
does, the items have just reached the threshold of half as many buckets, and will never have been
fewer. The growths that are reported are the doublings, in their order.
-/

namespace VersionedMap

variable {κ ν ρ : Type}

/-! ## Powers of two -/

section PowersOfTwo

open private Nat.nextPowerOfTwo.go from Init.Data.Nat.Power2.Basic

theorem two_pow_lt {e e' : Nat} (h : 2 ^ e < 2 ^ e') : 2 * 2 ^ e ≤ 2 ^ e' := by
  have hlt : e < e' := (Nat.pow_lt_pow_iff_right Nat.one_lt_two).mp h
  calc 2 * 2 ^ e = 2 ^ (e + 1) := by rw [Nat.pow_succ, Nat.mul_comm]
    _ ≤ 2 ^ e' := Nat.pow_le_pow_right Nat.two_pos hlt

private theorem go_least (n power : Nat) (hpos : 0 < power) (hpower : ∃ e, power = 2 ^ e)
    (hleast : ∀ e, n ≤ 2 ^ e → power ≤ 2 ^ e) :
    n ≤ Nat.nextPowerOfTwo.go n power hpos ∧
      ∀ e, n ≤ 2 ^ e → Nat.nextPowerOfTwo.go n power hpos ≤ 2 ^ e := by
  -- on the search, which goes on from a power of two that is too small to the next one
  fun_induction Nat.nextPowerOfTwo.go n power hpos with
  | case1 power hpos hlt ih =>
    obtain ⟨e, rfl⟩ := hpower
    refine ih ⟨e + 1, (Nat.pow_succ ..).symm⟩ fun e' he' => ?_
    rw [Nat.mul_comm]
    exact two_pow_lt (Nat.lt_of_lt_of_le hlt he')
  | case2 power hpos hge => exact ⟨Nat.not_lt.mp hge, hleast⟩

theorem nextPowerOfTwo_spec (n : Nat) :
    n ≤ n.nextPowerOfTwo ∧ ∀ e, n ≤ 2 ^ e → n.nextPowerOfTwo ≤ 2 ^ e :=
  go_least n 1 _ ⟨0, rfl⟩ fun e _ => Nat.two_pow_pos e

end PowersOfTwo

/-- A table gets as many buckets as it is to have, as far as that can be. -/
theorem le_bucketsFor {n : Nat} (h : n ≤ 2 ^ 62) : n ≤ bucketsFor n := by
  have hmin : min n 0x4000000000000000 = n := Nat.min_eq_left h
  unfold bucketsFor
  rw [hmin]
  exact Nat.le_trans (nextPowerOfTwo_spec n).1 (Nat.le_max_right ..)

/-- It gets no more of them than a power of two that will do. -/
theorem bucketsFor_le {n e : Nat} (hleast : minimumBuckets ≤ 2 ^ e) (hn : n ≤ 2 ^ e) :
    bucketsFor n ≤ 2 ^ e := by
  unfold bucketsFor
  exact Nat.max_le.mpr
    ⟨hleast, (nextPowerOfTwo_spec _).2 e (Nat.le_trans (Nat.min_le_left ..) hn)⟩

theorem bucketsFor_mono {n n' : Nat} (h : n ≤ n') : bucketsFor n ≤ bucketsFor n' := by
  obtain ⟨e, he⟩ := Nat.isPowerOfTwo_nextPowerOfTwo (min n' 0x4000000000000000)
  have hle := (nextPowerOfTwo_spec (min n' 0x4000000000000000)).1
  rw [he] at hle
  have hnext := (nextPowerOfTwo_spec (min n 0x4000000000000000)).2 e (by omega)
  unfold bucketsFor
  rw [he]
  omega

theorem le_of_bucketsFor_lt {n : Nat} (h : bucketsFor n < 2 ^ 62) : n ≤ 2 ^ 62 := by
  have hmin : min n (2 ^ 62) ≤ bucketsFor n :=
    Nat.le_trans (nextPowerOfTwo_spec (min n (2 ^ 62))).1 (Nat.le_max_right ..)
  omega

/-- The threshold of growth is three quarters. -/
theorem growthThreshold_two_pow {e : Nat} (h : minimumBuckets ≤ 2 ^ e) :
    growthThreshold (2 ^ e) = 3 * 2 ^ e / 4 := by
  have hfour : 4 ∣ 2 ^ e := by
    have hlt : (2 : Nat) ^ 3 < 2 ^ e := Nat.lt_of_lt_of_le (by decide) h
    have hle : 3 < e := (Nat.pow_lt_pow_iff_right Nat.one_lt_two).mp hlt
    exact Nat.pow_dvd_pow 2 (show 2 ≤ e by omega)
  unfold growthThreshold
  omega

theorem growthThreshold_le {n n' : Nat} (h : n ≤ n') : growthThreshold n ≤ growthThreshold n' := by
  unfold growthThreshold
  omega

/-! ## High-water marks -/

/-- The most items that a shard has had. -/
def peak (i : Nat) (trail : List (Map κ ν)) : Nat :=
  (trail.map fun m => (m.shardAt i).table.items.length).foldl max 0

/-- The numbers of buckets that became others from `m` to `m'`, as they were. -/
def Map.outgrown (m m' : Map κ ν) : List Nat :=
  (List.range m.shards.size).filterMap fun i =>
    if (m'.shardAt i).table.size = (m.shardAt i).table.size then none
    else some (m.shardAt i).table.size

/-- The numbers of buckets that became others on the way, as they were. -/
def doublings : List (Map κ ν) → List Nat
  | m :: m' :: trail => m.outgrown m' ++ doublings (m' :: trail)
  | _ => []

theorem peak_concat (i : Nat) (trail : List (Map κ ν)) (m : Map κ ν) :
    peak i (trail ++ [m]) = max (peak i trail) (m.shardAt i).table.items.length := by
  unfold peak
  rw [List.map_append, List.foldl_append]
  rfl

theorem doublings_concat (trail : List (Map κ ν)) (m m' : Map κ ν) :
    doublings (trail ++ [m] ++ [m']) = doublings (trail ++ [m]) ++ m.outgrown m' := by
  induction trail with
  | nil => simp [doublings]
  | cons m₀ trail ih =>
    cases trail with
    | nil => simp [doublings]
    | cons m₁ trail =>
      simp only [List.cons_append, doublings, List.append_assoc] at ih ⊢
      rw [ih]

theorem Map.SameSizes.outgrown_eq {m m' : Map κ ν} (h : m.SameSizes m') : m.outgrown m' = [] := by
  refine List.filterMap_eq_nil_iff.mpr fun i _ => ?_
  rw [if_pos (h.buckets_eq i)]

theorem Map.Doubles.outgrown_eq {m m' : Map κ ν} {i : Nat} (h : m.Doubles i m') :
    m.outgrown m' = [(m.shardAt i).table.size] := by
  have hpos := (m.shardAt i).table.nonempty
  have hone (j : Nat) : (if (m'.shardAt j).table.size = (m.shardAt j).table.size then none
      else some (m.shardAt j).table.size)
      = if j = i then some (m.shardAt i).table.size else none := by
    by_cases hj : j = i
    · subst hj
      have hne : (m'.shardAt j).table.size ≠ (m.shardAt j).table.size := by
        have hsize : 0 < (m.shardAt j).table.size := hpos
        rw [h.buckets_eq]
        omega
      rw [if_neg hne, if_pos rfl]
    · rw [if_pos (sizes_of_view (h.others j hj)).1, if_neg hj]
  unfold outgrown
  simp only [hone]
  -- the one position is met once in the range
  obtain ⟨l, l', hrange⟩ := List.append_of_mem (List.mem_range.mpr h.lt)
  have hnodup := List.nodup_range (n := m.shards.size)
  rw [hrange] at hnodup ⊢
  obtain ⟨_, hright, hdisjoint⟩ := List.nodup_append.mp hnodup
  have hleft : l.filterMap (fun j => if j = i then some (m.shardAt i).table.size else none)
      = [] := by
    refine List.filterMap_eq_nil_iff.mpr fun j hj => if_neg ?_
    exact hdisjoint j hj i List.mem_cons_self
  have hrest : l'.filterMap (fun j => if j = i then some (m.shardAt i).table.size else none)
      = [] := by
    refine List.filterMap_eq_nil_iff.mpr fun j hj => if_neg ?_
    rintro rfl
    exact (List.nodup_cons.mp hright).1 hj
  rw [List.filterMap_append, List.filterMap_cons, hleft, hrest, if_pos rfl]
  rfl

/--
What the numbers of buckets come to, where every one of `count` shards was asked to have `share`:
`m` is the map as it is, after those of the trail.
-/
structure Measured (count share : Nat) (trail : List (Map κ ν)) (m : Map κ ν) : Prop where
  fit : ∃ held, m.Fit held
  slack : m.Slack
  shards_eq : m.shards.size = count
  floor : ∀ i < count, bucketsFor share ≤ (m.shardAt i).table.size
  under : ∀ i < count, (m.shardAt i).table.size < 2 ^ 62 →
    peak i (trail ++ [m]) < growthThreshold (m.shardAt i).table.size
  tight : ∀ i < count, (m.shardAt i).table.size < 2 ^ 62 →
    (m.shardAt i).table.size = bucketsFor share ∨
      growthThreshold ((m.shardAt i).table.size / 2) ≤ peak i (trail ++ [m])
  reported : (∀ i < count, (m.shardAt i).table.size < 2 ^ 62) →
    m.shared.growths = (doublings (trail ++ [m])).map fun n => (n, 2 * n, 3 * n / 4)

namespace Measured

variable {count share : Nat} {trail : List (Map κ ν)} {m m' : Map κ ν}

/-- A step that changes no number of buckets. -/
theorem calm (h : Measured count share trail m) (hfit : ∃ held, m'.Fit held)
    (hslack : m'.Slack) (hsizes : m.SameSizes m') :
    Measured count share (trail ++ [m]) m' where
  fit := hfit
  slack := hslack
  shards_eq := hsizes.size_eq.trans h.shards_eq
  floor i hi := by
    rw [hsizes.buckets_eq]
    exact h.floor i hi
  under i hi hlt := by
    have hi' : i < m'.shards.size := by
      rw [hsizes.size_eq, h.shards_eq]
      exact hi
    have hnow := hslack i hi' (by omega)
    rw [hsizes.buckets_eq] at hlt hnow ⊢
    rw [peak_concat]
    exact Nat.max_lt.mpr ⟨h.under i hi hlt, hnow⟩
  tight i hi hlt := by
    rw [hsizes.buckets_eq] at hlt ⊢
    rw [peak_concat]
    exact (h.tight i hi hlt).imp_right fun hle => Nat.le_trans hle (Nat.le_max_left ..)
  reported hlt := by
    simp only [hsizes.buckets_eq] at hlt
    rw [doublings_concat, hsizes.outgrown_eq, List.append_nil, hsizes.growths_eq]
    exact h.reported hlt

/-- When a table is doubled it has as many items as make growth due before, and no more. -/
theorem doubled_exact (h : Measured count share trail m) {held : Bool} (hfit : m'.Fit held)
    (hslack : m'.Slack) {j : Nat} (hdoubles : m.Doubles j m')
    (hlt : (m'.shardAt j).table.size < 2 ^ 62) :
    (m'.shardAt j).table.items.length = growthThreshold (m.shardAt j).table.size ∧
      (m'.shardAt j).table.count.toNat = growthThreshold (m.shardAt j).table.size := by
  have hj : j < m'.shards.size := hdoubles.size_eq ▸ hdoubles.lt
  have hnow := hslack j hj (by omega)
  have hcount := Map.toNat_count_of_slack (hfit.shards j hj).table (by omega) (Nat.le_of_lt hnow)
  have hdue := hdoubles.due
  have hmore := hdoubles.more
  rw [hdoubles.buckets_eq] at hlt
  have hbefore := h.slack j hdoubles.lt (by omega)
  omega

/-- A step that doubles one of them, because the most items that the table has had are more now. -/
theorem doubled (h : Measured count share trail m) (hfit : ∃ held, m'.Fit held)
    (hslack : m'.Slack) {j : Nat} (hdoubles : m.Doubles j m') :
    Measured count share (trail ++ [m]) m' := by
  have hother (i : Nat) (hi : i ≠ j) := Map.sizes_of_view (hdoubles.others i hi)
  have hjc : j < count := h.shards_eq ▸ hdoubles.lt
  obtain ⟨held, hmfit⟩ := h.fit
  have htable := (hmfit.shards j hdoubles.lt).table
  obtain ⟨held', htfit⟩ := hfit
  have hlarger := Map.growthThreshold_lt htable.least
  refine ⟨⟨held', htfit⟩, hslack, hdoubles.size_eq.trans h.shards_eq, fun i hi => ?_,
    fun i hi hlt => ?_, fun i hi hlt => ?_, fun hlt => ?_⟩
  · have hfloor := h.floor i hi
    by_cases hij : i = j
    · subst hij
      rw [hdoubles.buckets_eq]
      omega
    · rw [(hother i hij).1]
      exact hfloor
  · have hi' : i < m'.shards.size := by
      rw [hdoubles.size_eq, h.shards_eq]
      exact hi
    have hnow := hslack i hi' (by omega)
    rw [peak_concat]
    refine Nat.max_lt.mpr ⟨?_, hnow⟩
    by_cases hij : i = j
    · subst hij
      rw [hdoubles.buckets_eq] at hlt ⊢
      exact Nat.lt_trans (h.under i hi (by omega)) hlarger
    · rw [(hother i hij).1] at hlt ⊢
      exact h.under i hi hlt
  · rw [peak_concat]
    by_cases hij : i = j
    · subst hij
      refine .inr (Nat.le_trans ?_ (Nat.le_max_right ..))
      have hhalf : (m'.shardAt i).table.size / 2 = (m.shardAt i).table.size := by
        rw [hdoubles.buckets_eq]
        omega
      rw [hhalf, (h.doubled_exact htfit hslack hdoubles hlt).1]
    · rw [(hother i hij).1] at hlt ⊢
      exact (h.tight i hi hlt).imp_right fun hle => Nat.le_trans hle (Nat.le_max_left ..)
  · have hbefore (i : Nat) (hi : i < count) : (m.shardAt i).table.size < 2 ^ 62 := by
      have hsize := hlt i hi
      by_cases hij : i = j
      · subst hij
        rw [hdoubles.buckets_eq] at hsize
        omega
      · rwa [(hother i hij).1] at hsize
    obtain ⟨e, he⟩ := htable.shelved.size
    rw [Table.length_shelves] at he
    have hquarters : growthThreshold (m.shardAt j).table.size
        = 3 * (m.shardAt j).table.size / 4 := by
      rw [he]
      exact growthThreshold_two_pow (he ▸ htable.least)
    rw [doublings_concat, hdoubles.outgrown_eq, List.map_append, hdoubles.growths_eq,
      h.reported hbefore, (h.doubled_exact htfit hslack hdoubles (hlt j hjc)).2, hquarters]
    rfl

end Measured

variable {count share : Nat} {trail : List (Map κ ν)} {m m' : Map κ ν}

/-- A number of buckets as it is measured is the least that will do. -/
theorem Measured.isLeast (h : Measured count share trail m) {i : Nat} (hi : i < count)
    (hlt : (m.shardAt i).table.size < 2 ^ 62) :
    IsLeast {L | (∃ e, L = 2 ^ e) ∧ 16 ≤ L ∧ share ≤ L ∧ peak i (trail ++ [m]) < 3 * L / 4}
      (m.shardAt i).table.size := by
  obtain ⟨held, hfit⟩ := h.fit
  have htable := (hfit.shards i (h.shards_eq ▸ hi)).table
  have hleast : 16 ≤ (m.shardAt i).table.size := htable.least
  have hfloor := h.floor i hi
  have hshare := le_bucketsFor (le_of_bucketsFor_lt (Nat.lt_of_le_of_lt hfloor hlt))
  have hunder := h.under i hi hlt
  obtain ⟨e, he⟩ := htable.shelved.size
  rw [Table.length_shelves] at he
  refine ⟨⟨⟨e, he⟩, hleast, Nat.le_trans hshare hfloor, ?_⟩, ?_⟩
  · rw [he] at hunder hleast ⊢
    rwa [growthThreshold_two_pow hleast] at hunder
  · rintro _ ⟨⟨e', rfl⟩, hleast', hshare', hpeak⟩
    rw [← growthThreshold_two_pow hleast'] at hpeak
    rcases h.tight i hi hlt with hsize | hfull
    · rw [hsize]
      exact bucketsFor_le hleast' hshare'
    -- half as many buckets had become too few
    · refine Nat.le_of_not_lt fun hless => ?_
      rw [he] at hless hfull
      have hhalf := two_pow_lt hless
      have hthreshold : growthThreshold (2 ^ e') ≤ growthThreshold (2 ^ e / 2) :=
        growthThreshold_le (by omega)
      omega

theorem Measured.count_lt (h : Measured count share trail m) {i : Nat} (hi : i < count)
    (hlt : (m.shardAt i).table.size < 2 ^ 62) :
    (m.shardAt i).table.count.toNat = (m.shardAt i).table.items.length ∧
      (m.shardAt i).table.count.toNat < 3 * (m.shardAt i).table.size / 4 := by
  obtain ⟨held, hfit⟩ := h.fit
  have hi' := h.shards_eq ▸ hi
  have htable := (hfit.shards i hi').table
  have hnow := h.slack i hi' (by omega)
  have hcount := Map.toNat_count_of_slack htable (by omega) (Nat.le_of_lt hnow)
  refine ⟨hcount, ?_⟩
  obtain ⟨e, he⟩ := htable.shelved.size
  rw [Table.length_shelves] at he
  have hleast := htable.least
  rw [hcount]
  rw [he] at hnow hleast ⊢
  rwa [growthThreshold_two_pow hleast] at hnow

theorem Measured.le_capacity (h : Measured count share trail m) :
    count * bucketsFor share ≤ m.capacity := by
  have hcapacity : m.capacity = (m.shards.toList.map (·.table.size)).sum := by
    unfold Map.capacity
    rw [← Array.foldl_toList, foldl_add_eq, Nat.zero_add]
  have hsum := List.card_nsmul_le_sum (m.shards.toList.map (·.table.size)) (bucketsFor share)
    fun n hn => by
      obtain ⟨d, hd, rfl⟩ := List.mem_map.mp hn
      obtain ⟨i, hi, rfl⟩ := Array.mem_iff_getElem.mp (Array.mem_toList_iff.mp hd)
      rw [← Map.shardAt_eq hi]
      exact h.floor i (h.shards_eq ▸ hi)
  rw [hcapacity]
  simpa [h.shards_eq] using hsum

/-! ## New maps -/

namespace Map

/-- The number of shards of a new map. -/
def shardsOf (layout : Layout) (n : Nat) : Nat :=
  match layout with
  | .single => 1
  | .sharded => shardsFor n

/-- The number of buckets that every shard of a new map is asked to have. -/
def shareOf (layout : Layout) (n capacity : Nat) : Nat :=
  match layout with
  | .single => capacity
  | .sharded => (capacity + shardsFor n - 1) / shardsFor n

theorem le_mul_shareOf (layout : Layout) (n capacity : Nat) :
    capacity ≤ shardsOf layout n * shareOf layout n capacity := by
  unfold shardsOf shareOf
  cases layout with
  | single => exact Nat.le_of_eq (Nat.one_mul capacity).symm
  | sharded =>
    have hpos := shardsFor_pos n
    have hdiv := Nat.div_add_mod (capacity + shardsFor n - 1) (shardsFor n)
    have hmod := Nat.mod_lt (capacity + shardsFor n - 1) hpos
    dsimp only
    omega

theorem size_shards_new (layout : Layout) (hash : κ → UInt64) (n capacity : Nat) :
    (new layout hash n capacity : Map κ ν).shards.size = shardsOf layout n := by
  cases layout with
  | single => rfl
  | sharded => exact Array.size_replicate ..

theorem shardAt_new (layout : Layout) (hash : κ → UInt64) (n capacity : Nat) {i : Nat}
    (hi : i < shardsOf layout n) :
    (new layout hash n capacity : Map κ ν).shardAt i = .ofCapacity (shareOf layout n capacity) := by
  have hi' := size_shards_new (ν := ν) layout hash n capacity ▸ hi
  rw [shardAt_eq hi']
  cases layout with
  | single =>
    obtain rfl : i = 0 := Nat.lt_one_iff.mp hi
    rfl
  | sharded => exact Array.getElem_replicate ..

theorem buckets_new (layout : Layout) (hash : κ → UInt64) (n capacity : Nat) {i : Nat}
    (hi : i < shardsOf layout n) :
    ((new layout hash n capacity : Map κ ν).shardAt i).table.size
      = bucketsFor (shareOf layout n capacity) := by
  rw [shardAt_new layout hash n capacity hi]
  exact Array.size_replicate ..

theorem measured_new (layout : Layout) (hash : κ → UInt64) (n capacity : Nat) :
    Measured (shardsOf layout n) (shareOf layout n capacity) []
      (new layout hash n capacity : Map κ ν) := by
  have hfit := fit_new (ν := ν) layout hash n capacity
  have hshards := size_shards_new (ν := ν) layout hash n capacity
  have hsize (i : Nat) (hi : i < shardsOf layout n) :=
    buckets_new (ν := ν) layout hash n capacity hi
  have hitems (i : Nat) (hi : i < shardsOf layout n) :
      ((new layout hash n capacity : Map κ ν).shardAt i).table.items = [] := by
    rw [shardAt_new layout hash n capacity hi]
    exact Table.items_ofSize (bucketsFor _)
      (Nat.lt_of_lt_of_le (by decide) (minimumBuckets_le_bucketsFor _))
  have hthreshold (i : Nat) (hi : i < shardsOf layout n) :
      0 < growthThreshold ((new layout hash n capacity : Map κ ν).shardAt i).table.size :=
    growthThreshold_pos (hfit.shards i (hshards ▸ hi)).table.least
  refine ⟨⟨false, hfit⟩, fun i hi _ => ?_, hshards, fun i hi => ?_, fun i hi _ => ?_,
    fun i hi _ => .inl (hsize i hi), fun _ => ?_⟩
  · rw [hitems i (hshards ▸ hi)]
    exact hthreshold i (hshards ▸ hi)
  · rw [hsize i hi]
  · rw [peak_concat, hitems i hi]
    exact hthreshold i hi
  · rw [shared_new]
    rfl

end Map

/-! ## Runs -/

variable [DecidableEq κ]

theorem Measured.step {count share : Nat} {trail : List (Map κ ν)} {m : Map κ ν}
    {t : Sight κ ν} (h : Measured count share trail m) (hfit : ∃ held, t.map.Fit held)
    (hfills : Fills m t) : Measured count share (trail ++ [m]) t.map := by
  rcases hfills.sizes with hsizes | ⟨_, _, _, _, _, hdoubles⟩
  · exact h.calm hfit (hfills.slack h.slack) hsizes
  · exact h.doubled hfit (hfills.slack h.slack) hdoubles

/-- What is measured of every sight of a run, and how it follows from the one before it. -/
theorem Along.measured {count share : Nat} {trail : List (Map κ ν)} {m m' : Map κ ν}
    {log : List (Sight κ ν)} (h : Along m log m') (hfit : ∀ t ∈ log, ∃ held, t.map.Fit held)
    (hm : Measured count share trail m) {before : List (Sight κ ν)} {t : Sight κ ν}
    {after : List (Sight κ ν)} (hlog : log = before ++ t :: after) :
    Measured count share (trail ++ m :: before.map (·.map)) t.map ∧
      Fills ((before.map (·.map)).getLastD m) t := by
  induction before generalizing trail m log with
  | nil =>
    subst hlog
    cases h with
    | sees hfills _ => exact ⟨hm.step (hfit t (by simp)) hfills, hfills⟩
  | cons s before ih =>
    subst hlog
    cases h with
    | sees hfills hrest =>
      obtain ⟨hmeasured, hstep⟩ := ih hrest (fun t ht => hfit t (List.mem_cons_of_mem s ht))
        (hm.step (hfit s (by simp)) hfills) rfl
      rw [List.append_assoc] at hmeasured
      rw [List.map_cons, List.getLastD_cons]
      exact ⟨hmeasured, hstep⟩

namespace Map

/-- Every map that guests can bring about has slack. -/
theorem Reachable.slack {v : View} {m : Map κ ν} (h : Reachable v m) : m.Slack := by
  induction h with
  | new layout hash n capacity => exact (measured_new layout hash n capacity).slack
  | run g hv ih => exact ((g.run_along hv.fit).slack ih).1
  | within g hv ht ih => exact ((g.run_along hv.fit).slack ih).2 _ ht

/--
**The number of buckets is the least that will do.** Let any guest work with a new map, with views
and callbacks as it likes. At every moment, the map being what it is after those of a trail, and
for every shard whose table has fewer than `2 ^ 62` buckets:

* the number of buckets is the least power of two that is at least 16 and as many as the shard was
  asked to have, and of which three quarters are more than the items that the shard has ever had;
* the count is the number of items, and less than three quarters of the number of buckets.

A number of buckets changes only as a deed inserts a key, and then it doubles. As long as all tables
have fewer than `2 ^ 62` buckets, the growths reported are those doublings, in order, each with the
number of buckets before and after and three quarters of the former. All shards together never
have fewer buckets than the map was asked to have, if no shard was asked for more than there can be.
-/
theorem buckets_least_for_peak (layout : Layout) (hash : κ → UInt64) (n capacity : Nat)
    (g : Guest κ ν ρ) (before : List (Sight κ ν)) (t : Sight κ ν) (after : List (Sight κ ν))
    (hlog : ⟨none, { freed := true }, new layout hash n capacity⟩ ::
      (g.run { freed := true } (new layout hash n capacity)).1.log = before ++ t :: after) :
    (∀ i < shardsOf layout n, (t.map.shardAt i).table.size < 2 ^ 62 →
      IsLeast {L | (∃ e, L = 2 ^ e) ∧ 16 ≤ L ∧ shareOf layout n capacity ≤ L ∧
        peak i ((before ++ [t]).map (·.map)) < 3 * L / 4} (t.map.shardAt i).table.size ∧
      (t.map.shardAt i).table.count.toNat = (t.map.shardAt i).table.items.length ∧
      (t.map.shardAt i).table.count.toNat < 3 * (t.map.shardAt i).table.size / 4) ∧
    (∀ before' s, before = before' ++ [s] → ∀ i,
      (t.map.shardAt i).table.size ≠ (s.map.shardAt i).table.size →
        (t.map.shardAt i).table.size = 2 * (s.map.shardAt i).table.size ∧
          ∃ d a, t.deed = some (d, a) ∧ d.Inserts s.map) ∧
    ((∀ i < shardsOf layout n, (t.map.shardAt i).table.size < 2 ^ 62) →
      t.map.shared.growths = (doublings ((before ++ [t]).map (·.map))).map
        fun n => (n, 2 * n, 3 * n / 4)) ∧
    (shareOf layout n capacity ≤ 2 ^ 62 → capacity ≤ t.map.capacity) := by
  have hfit := fit_new (ν := ν) layout hash n capacity
  have hcourse := g.run_course (v := { freed := true }) hfit
  have halong := g.run_along (v := { freed := true }) hfit
  have hmeasured := measured_new (ν := ν) layout hash n capacity
  generalize new layout hash n capacity = m₀ at *
  -- the moment is the first of all, or one that the guest has seen
  have hnow : Measured (shardsOf layout n) (shareOf layout n capacity)
      (before.map (·.map)) t.map ∧
      ∀ before' s, before = before' ++ [s] → Fills s.map t := by
    cases before with
    | nil =>
      obtain ⟨rfl, _⟩ := List.cons.inj hlog
      exact ⟨hmeasured, fun before' s he => absurd he (by simp)⟩
    | cons s₀ before =>
      obtain ⟨rfl, hrest⟩ := List.cons.inj hlog
      obtain ⟨hnow, hfills⟩ :=
        halong.measured (fun t ht => ⟨_, hcourse.sights t ht⟩) hmeasured hrest
      refine ⟨hnow, fun before' s he => ?_⟩
      have hlast : (before.map (·.map)).getLastD m₀ = s.map := by
        have hlast := congrArg (fun l => (l.map (·.map)).getLast?) he
        simpa [List.getLast?_cons] using hlast
      rwa [hlast] at hfills
  obtain ⟨hnow, hfills⟩ := hnow
  rw [List.map_append]
  refine ⟨fun i hi hlt => ⟨hnow.isLeast hi hlt, hnow.count_lt hi hlt⟩, fun before' s he i hne => ?_,
    hnow.reported, fun hshare => ?_⟩
  · rcases (hfills before' s he).sizes with hsizes | ⟨d, a, j, hd, hins, hdoubles⟩
    · exact absurd (hsizes.buckets_eq i) hne
    · have hij : i = j := Classical.byContradiction fun hij =>
        hne (sizes_of_view (hdoubles.others i hij)).1
      exact ⟨hij ▸ hdoubles.buckets_eq, d, a, hd, hins⟩
  · calc capacity ≤ shardsOf layout n * shareOf layout n capacity := le_mul_shareOf ..
      _ ≤ shardsOf layout n * bucketsFor (shareOf layout n capacity) :=
        Nat.mul_le_mul_left _ (le_bucketsFor hshare)
      _ ≤ t.map.capacity := hnow.le_capacity

/-- Sets twelve keys, one after another. -/
def twelveSets : Guest Nat Nat Unit :=
  (List.range 12).foldr (fun k rest => .act (.set k k) fun _ => rest) (.stop ())

/-- A new map of sixteen buckets, and what is seen of it as twelve keys are set. -/
def twelveSeen : List (Sight Nat Nat) :=
  ⟨none, { freed := true }, new .single Nat.toUInt64 1 0⟩ ::
    (twelveSets.run { freed := true } (new .single Nat.toUInt64 1 0)).1.log

/-- The last of that. -/
def twelveEnd : Sight Nat Nat := twelveSeen.getLast (List.cons_ne_nil _ _)

/-- With the twelfth key sixteen buckets are too few. -/
theorem buckets_least_for_peak_twelve :
    ∃ before, twelveSeen = before ++ twelveEnd :: [] ∧
      IsLeast {L | (∃ e, L = 2 ^ e) ∧ 16 ≤ L ∧ shareOf .single 1 0 ≤ L ∧
        peak 0 ((before ++ [twelveEnd]).map (·.map)) < 3 * L / 4} 32 ∧
      twelveEnd.map.shared.growths = [(16, 32, 12)] := by
  have hlog : twelveSeen = twelveSeen.dropLast ++ twelveEnd :: [] :=
    (List.dropLast_append_getLast (List.cons_ne_nil _ _)).symm
  have hsize : (twelveEnd.map.shardAt 0).table.size = 32 := by decide +kernel
  obtain ⟨hshards, _, hreported, _⟩ :=
    buckets_least_for_peak .single Nat.toUInt64 1 0 twelveSets _ _ [] hlog
  have hone : ∀ i < shardsOf .single 1, (twelveEnd.map.shardAt i).table.size < 2 ^ 62 := by
    intro i hi
    obtain rfl : i = 0 := Nat.lt_one_iff.mp hi
    rw [hsize]
    decide
  have hleast := (hshards 0 Nat.one_pos (hone 0 Nat.one_pos)).1
  rw [hsize] at hleast
  refine ⟨_, hlog, hleast, ?_⟩
  rw [hreported hone, ← hlog]
  decide +kernel

end Map

end VersionedMap
