/-!
# Hashes

A key reaches a map as a 64-bit hash. The map folds it to 32 bits once, and every
bucket choice after that is made from those 32 bits. A map of several shards spends
the low bits of the folded hash on the choice of a shard and hands the rest to the
shard, whose buckets then see only bits that have not been used yet.
-/

namespace VersionedMap

/-- Folds a 64-bit hash to 32 bits, so that the high half has a say in the low one. -/
def foldHash (h : UInt64) : UInt32 := (h ^^^ (h >>> 32)).toUInt32

/-- Where a hash leads: a shard, and the hash by which that shard tells its keys apart. -/
structure Route where
  /-- The position of the shard. -/
  shard : Nat
  /-- The hash inside the shard. -/
  hash : UInt32
deriving DecidableEq

/--
Splits a hash between the choice among `n` shards and the hash inside the shard.

The shard is the hash modulo `n`. The bits that made the choice are shifted out, unless
the hash has no others: a hash below `n` is kept whole.
-/
def splitHash (h : UInt32) (n : Nat) : Route where
  shard := h.toNat % n
  hash := if h.toNat < n then h else (h.toNat >>> n.log2).toUInt32

theorem splitHash_shard (h : UInt32) (n : Nat) : (splitHash h n).shard = h.toNat % n := rfl

/-- The shard exists. -/
theorem splitHash_shard_lt (h : UInt32) {n : Nat} (hn : 0 < n) : (splitHash h n).shard < n :=
  Nat.mod_lt _ hn

/-- One shard takes every hash as it is. -/
theorem splitHash_one (h : UInt32) : splitHash h 1 = ⟨0, h⟩ := by
  have hlog : Nat.log2 1 = 0 := by decide
  simp [splitHash, hlog, Nat.mod_one]

end VersionedMap
