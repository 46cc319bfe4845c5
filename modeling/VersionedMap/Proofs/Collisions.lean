import VersionedMap.Proofs.Capacity

/-!
# What the split of a hash loses

Among several shards a hash below their number is kept whole, and any other gives up the bits that
have chosen its shard. Both kinds are told apart inside a shard by what is left of them, and there
they overlap: a small hash has a **twin**, a large one that leads to the same shard and is the same
hash there. Nothing else is lost. No more than two hashes ever come to the same, and of a large one
the split tells all bits.
-/

namespace VersionedMap

/-- Among `n` shards, a small hash and the large one that comes to the same. -/
structure Twins (n : Nat) (small large : UInt32) : Prop where
  pos : 1 ≤ small.toNat
  lt : small.toNat < n
  eq : large.toNat = small.toNat * (n + 1)

/-! ## One number is split -/

/-- The hash inside the shard, as a number: the hash itself, or what is left of it. -/
theorem toNat_hash_splitHash (h : UInt32) (k : Nat) :
    (splitHash h (2 ^ k)).hash.toNat =
      if h.toNat < 2 ^ k then h.toNat else h.toNat / 2 ^ k := by
  unfold splitHash
  dsimp only
  split
  · rfl
  · rw [Nat.log2_two_pow, Nat.shiftRight_eq_div_pow]
    exact UInt32.toNat_ofNat_of_lt (Nat.lt_of_le_of_lt (Nat.div_le_self ..) h.toNat_lt)

/-- A hash that has more bits than choose its shard can be put together again. -/
theorem toNat_eq_of_splitHash {h : UInt32} {k : Nat} (hk : 2 ^ k ≤ h.toNat) :
    h.toNat = (splitHash h (2 ^ k)).hash.toNat * 2 ^ k + (splitHash h (2 ^ k)).shard := by
  rw [toNat_hash_splitHash, if_neg (Nat.not_lt.mpr hk), splitHash_shard, Nat.mul_comm]
  exact (Nat.div_add_mod ..).symm

theorem splitHash_eq_iff_toNat {h h' : UInt32} {n : Nat} :
    splitHash h n = splitHash h' n ↔
      h.toNat % n = h'.toNat % n ∧ (splitHash h n).hash.toNat = (splitHash h' n).hash.toNat := by
  rw [UInt32.toNat_inj]
  constructor
  · intro heq
    exact ⟨congrArg Route.shard heq, congrArg Route.hash heq⟩
  · rintro ⟨hshard, hhash⟩
    show (⟨h.toNat % n, (splitHash h n).hash⟩ : Route) = ⟨h'.toNat % n, (splitHash h' n).hash⟩
    rw [hshard, hhash]

/-! ## Two numbers come to the same -/

/-- Of two different hashes that come to the same, the greater one is the twin of the lesser. -/
theorem splitHash_eq_iff_twins {h h' : UInt32} (hlt : h < h') (k : Nat) :
    splitHash h (2 ^ k) = splitHash h' (2 ^ k) ↔ Twins (2 ^ k) h h' := by
  have hlt : h.toNat < h'.toNat := UInt32.lt_iff_toNat_lt.mp hlt
  have hpos := Nat.two_pow_pos k
  rw [splitHash_eq_iff_toNat, toNat_hash_splitHash, toNat_hash_splitHash]
  generalize 2 ^ k = n at *
  have hdiv := Nat.div_add_mod h'.toNat n
  by_cases hsmall : h.toNat < n
  · rw [if_pos hsmall, Nat.mod_eq_of_lt hsmall]
    by_cases hsmall' : h'.toNat < n
    -- two hashes that are kept whole are different still, and a twin is never small
    · rw [if_pos hsmall']
      refine ⟨fun heq => absurd heq.2 (Nat.ne_of_lt hlt), fun htwins => ?_⟩
      have hle := Nat.mul_le_mul_right (n + 1) htwins.pos
      rw [← htwins.eq] at hle
      omega
    · rw [if_neg hsmall']
      constructor
      · rintro ⟨hshard, hhash⟩
        rw [← hshard, ← hhash, ← Nat.mul_comm, ← Nat.mul_succ] at hdiv
        refine ⟨Nat.pos_of_ne_zero fun hzero => ?_, hsmall, hdiv.symm⟩
        rw [hzero, Nat.zero_mul] at hdiv
        omega
      · intro htwins
        have heq : h'.toNat = h.toNat + n * h.toNat := by
          rw [htwins.eq, Nat.mul_succ, Nat.mul_comm, Nat.add_comm]
        rw [heq, Nat.add_mul_mod_self_left, Nat.add_mul_div_left _ _ hpos,
          Nat.mod_eq_of_lt hsmall, Nat.div_eq_of_lt hsmall, Nat.zero_add]
        exact ⟨rfl, rfl⟩
  -- both are shifted, and can be put together again
  · rw [if_neg hsmall, if_neg (by omega)]
    refine ⟨fun ⟨hshard, hhash⟩ => ?_, fun htwins => absurd htwins.lt hsmall⟩
    have hdiv' := Nat.div_add_mod h.toNat n
    rw [hshard, hhash, hdiv] at hdiv'
    exact absurd hdiv' (Nat.ne_of_gt hlt)

namespace Twins

variable {n : Nat} {small large : UInt32}

theorem lt_large (h : Twins n small large) : n < large.toNat := by
  have hle := Nat.mul_le_mul_right (n + 1) h.pos
  rw [← h.eq] at hle
  omega

theorem small_lt_large (h : Twins n small large) : small < large :=
  UInt32.lt_iff_toNat_lt.mpr (Nat.lt_trans h.lt h.lt_large)

theorem splitHash_eq {k : Nat} (h : Twins (2 ^ k) small large) :
    splitHash small (2 ^ k) = splitHash large (2 ^ k) :=
  (splitHash_eq_iff_twins h.small_lt_large k).mpr h

end Twins

/-- With as many shards as a map may have, the twin of a small hash is a hash still. -/
theorem exists_twin {n : Nat} (hmax : n ≤ maximumShards) {h : UInt32} (hpos : 1 ≤ h.toNat)
    (hlt : h.toNat < n) : ∃ h', Twins n h h' := by
  have hmax : n ≤ 2 ^ 16 := hmax
  have hfits : h.toNat * (n + 1) < 2 ^ 32 :=
    calc h.toNat * (n + 1)
      _ ≤ (2 ^ 16 - 1) * (2 ^ 16 + 1) := Nat.mul_le_mul (by omega) (by omega)
      _ < 2 ^ 32 := by decide
  exact ⟨UInt32.ofNat (h.toNat * (n + 1)), hpos, hlt, UInt32.toNat_ofNat_of_lt hfits⟩

theorem splitHash_eq_iff {h h' : UInt32} (k : Nat) :
    splitHash h (2 ^ k) = splitHash h' (2 ^ k) ↔
      h = h' ∨ Twins (2 ^ k) h h' ∨ Twins (2 ^ k) h' h := by
  constructor
  · intro heq
    rcases Nat.lt_trichotomy h.toNat h'.toNat with hlt | hsame | hlt
    · exact .inr (.inl ((splitHash_eq_iff_twins (UInt32.lt_iff_toNat_lt.mpr hlt) k).mp heq))
    · exact .inl (UInt32.toNat_inj.mp hsame)
    · exact .inr (.inr ((splitHash_eq_iff_twins (UInt32.lt_iff_toNat_lt.mpr hlt) k).mp heq.symm))
  · rintro (rfl | htwins | htwins)
    · rfl
    · exact htwins.splitHash_eq
    · exact htwins.splitHash_eq.symm

/-- Two small hashes are told apart by the split, and two large ones. -/
theorem eq_of_splitHash_eq {h h' : UInt32} {k : Nat} (hkind : h.toNat < 2 ^ k ↔ h'.toNat < 2 ^ k)
    (heq : splitHash h (2 ^ k) = splitHash h' (2 ^ k)) : h = h' := by
  rcases (splitHash_eq_iff k).mp heq with rfl | htwins | htwins
  · rfl
  · exact absurd (hkind.mp htwins.lt) (Nat.lt_asymm htwins.lt_large)
  · exact absurd (hkind.mpr htwins.lt) (Nat.lt_asymm htwins.lt_large)

/-- Of three hashes that come to the same, two are both small or both large. -/
theorem eq_of_three {a b c : UInt32} {k : Nat} (hab : splitHash a (2 ^ k) = splitHash b (2 ^ k))
    (hbc : splitHash b (2 ^ k) = splitHash c (2 ^ k)) : a = b ∨ b = c ∨ a = c := by
  by_cases hab' : a.toNat < 2 ^ k ↔ b.toNat < 2 ^ k
  · exact .inl (eq_of_splitHash_eq hab' hab)
  · by_cases hbc' : b.toNat < 2 ^ k ↔ c.toNat < 2 ^ k
    · exact .inr (.inl (eq_of_splitHash_eq hbc' hbc))
    · exact .inr (.inr (eq_of_splitHash_eq (by tauto) (hab.trans hbc)))

/-! ## The split -/

/--
**What the split of a hash loses.** For as many shards as a map may have, two different hashes come
to the same shard and the same hash inside it only if the lesser one is small but not zero, and the
greater one is its twin; every such hash has a twin. So no three hashes come to the same. Every
shard that is chosen is there, a large hash can be put together again, and one shard takes every
hash as it is.
-/
theorem split_loses_twins {n : Nat} (hpow : n.isPowerOfTwo) (hmax : n ≤ maximumShards) :
    (∀ h h' : UInt32, h < h' → (splitHash h n = splitHash h' n ↔
      1 ≤ h.toNat ∧ h.toNat < n ∧ h'.toNat = h.toNat * (n + 1))) ∧
    (∀ h : UInt32, 1 ≤ h.toNat → h.toNat < n → ∃ h', h < h' ∧ splitHash h n = splitHash h' n) ∧
    (∀ a b c : UInt32, splitHash a n = splitHash b n → splitHash b n = splitHash c n →
      a = b ∨ b = c ∨ a = c) ∧
    (∀ h : UInt32, (splitHash h n).shard < n) ∧
    (∀ h : UInt32, n ≤ h.toNat →
      h.toNat = (splitHash h n).hash.toNat * n + (splitHash h n).shard) ∧
    (n = 1 → ∀ h : UInt32, splitHash h n = ⟨0, h⟩) := by
  obtain ⟨k, rfl⟩ := hpow
  refine ⟨fun h h' hlt => ?_, fun h hpos hlt => ?_, fun _ _ _ => eq_of_three,
    fun h => splitHash_shard_lt h (Nat.two_pow_pos k), fun _ => toNat_eq_of_splitHash, ?_⟩
  · rw [splitHash_eq_iff_twins hlt]
    exact ⟨fun htwins => ⟨htwins.pos, htwins.lt, htwins.eq⟩,
      fun ⟨hpos, hsmall, heq⟩ => ⟨hpos, hsmall, heq⟩⟩
  · obtain ⟨h', htwins⟩ := exists_twin hmax hpos hlt
    exact ⟨h', htwins.small_lt_large, htwins.splitHash_eq⟩
  · intro hone h
    rw [hone]
    exact splitHash_one h

/-- With the most shards that there can be, the greatest hash of all is the twin of a small one. -/
theorem split_loses_twins_most_shards :
    splitHash 0xffff maximumShards = ⟨0xffff, 0xffff⟩ ∧
      splitHash 0xffffffff maximumShards = ⟨0xffff, 0xffff⟩ ∧
      ∀ h : UInt32, splitHash h maximumShards = ⟨0xffff, 0xffff⟩ → h = 0xffff ∨ h = 0xffffffff := by
  have hloses := split_loses_twins (n := maximumShards) ⟨16, rfl⟩ (Nat.le_refl _)
  have hsmall : splitHash 0xffff maximumShards = ⟨0xffff, 0xffff⟩ := by decide +kernel
  have hlarge : splitHash 0xffff maximumShards = splitHash 0xffffffff maximumShards :=
    (hloses.1 0xffff 0xffffffff (by decide)).mpr (by decide +kernel)
  refine ⟨hsmall, hlarge ▸ hsmall, fun h hh => ?_⟩
  rcases hloses.2.2.1 h 0xffff 0xffffffff (hh.trans hsmall.symm) hlarge with heq | heq | heq
  · exact .inl heq
  · exact absurd heq (by decide)
  · exact .inr heq

/-! ## The shards of a map -/

/-- A map has as many shards as the split is made for. -/
theorem shardsFor_spec (n : Nat) : (shardsFor n).isPowerOfTwo ∧ shardsFor n ≤ maximumShards :=
  ⟨Nat.isPowerOfTwo_nextPowerOfTwo _, (nextPowerOfTwo_spec _).2 16 (Nat.min_le_right ..)⟩

/-- Hashes that lead to the same in a map of several shards are folded alike, or into twins. -/
theorem Map.route_sharded_eq_iff {κ ν : Type} (hash : κ → UInt64) (n capacity : Nat)
    (a b : UInt64) :
    (sharded hash n capacity : Map κ ν).route a = (sharded hash n capacity : Map κ ν).route b ↔
      foldHash a = foldHash b ∨ Twins (shardsFor n) (foldHash a) (foldHash b) ∨
        Twins (shardsFor n) (foldHash b) (foldHash a) := by
  have hroute (c : UInt64) : (sharded hash n capacity : Map κ ν).route c =
      splitHash (foldHash c) (shardsFor n) := by
    show splitHash (foldHash c) (sharded hash n capacity : Map κ ν).shards.size = _
    unfold sharded
    rw [Array.size_replicate]
  obtain ⟨k, hk⟩ := (shardsFor_spec n).1
  rw [hroute, hroute, hk, splitHash_eq_iff]

end VersionedMap
