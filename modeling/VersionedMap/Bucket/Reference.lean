/-!
# The reference word

A bucket names its newest version and counts the acquisitions made of it in one 64-bit
word: the identifier in the high half, the count in the low half. One addition to the
word then both learns which version is current and claims it.
-/

namespace VersionedMap

/-- What a reference word says. -/
structure Reference where
  /-- The identifier of the newest version. -/
  id : UInt32
  /-- The acquisitions made of it, and one for the bucket itself. -/
  count : UInt32
deriving DecidableEq

namespace Reference

/-- The word that says `r`. -/
def word (r : Reference) : UInt64 := r.id.toUInt64 * 0x100000000 + r.count.toUInt64

/-- What a word says. -/
def ofWord (w : UInt64) : Reference := ⟨(w / 0x100000000).toUInt32, w.toUInt32⟩

theorem toNat_word (r : Reference) : r.word.toNat = r.id.toNat * 0x100000000 + r.count.toNat := by
  have hid := r.id.toNat_lt
  have hcount := r.count.toNat_lt
  simp only [word, UInt64.toNat_add, UInt64.toNat_mul, UInt32.toNat_toUInt64]
  have : (0x100000000 : UInt64).toNat = 0x100000000 := rfl
  rw [this]
  omega

theorem toNat_id_ofWord (w : UInt64) : (ofWord w).id.toNat = w.toNat / 0x100000000 := by
  have hw := w.toNat_lt
  simp only [ofWord, UInt64.toNat_toUInt32, UInt64.toNat_div]
  have : (0x100000000 : UInt64).toNat = 0x100000000 := rfl
  rw [this]
  omega

theorem toNat_count_ofWord (w : UInt64) : (ofWord w).count.toNat = w.toNat % 0x100000000 := by
  simp [ofWord]

@[simp] theorem ofWord_word (r : Reference) : ofWord r.word = r := by
  have hid := r.id.toNat_lt
  have hcount := r.count.toNat_lt
  have h₁ : (ofWord r.word).id = r.id :=
    UInt32.toNat_inj.mp (by rw [toNat_id_ofWord, toNat_word]; omega)
  have h₂ : (ofWord r.word).count = r.count :=
    UInt32.toNat_inj.mp (by rw [toNat_count_ofWord, toNat_word]; omega)
  cases h : ofWord r.word
  simp_all

end Reference

end VersionedMap
