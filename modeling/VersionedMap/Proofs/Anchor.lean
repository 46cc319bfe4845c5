import Mathlib.Algebra.Group.Int.Defs
import Mathlib.Algebra.Group.Nat.Defs
import VersionedMap.Bucket.Lemmas

/-!
# The reference word names the newest version

A reader learns from the reference word which version it has claimed, and looks for that
version in the chain. The search is short as long as the word and the chain agree: a
bucket is **anchored** if its word holds the identifier of the newest version and a count
below the one at which it is moved, or is zero where there is no version.

Anchoring is what makes an acquisition succeed. It says nothing about who holds what, and
so it survives every operation on the bucket, however many readers there are.
-/

namespace VersionedMap

/-! ## Arithmetic on the word -/

namespace Reference

@[simp] theorem word_ofWord (w : UInt64) : (ofWord w).word = w := by
  apply UInt64.toNat_inj.mp
  rw [toNat_word, toNat_id_ofWord, toNat_count_ofWord]
  omega

/-- An increment stays in the lower half while the count has room. -/
theorem word_add_one {r : Reference} (h : r.count.toNat + 1 < 2 ^ 32) :
    r.word + 1 = word ⟨r.id, r.count + 1⟩ := by
  apply UInt64.toNat_inj.mp
  -- no carry into the identifier: the count has room for one more
  have hid := r.id.toNat_lt
  rw [UInt64.toNat_add, toNat_word, toNat_word, UInt32.toNat_add]
  have h64 : (1 : UInt64).toNat = 1 := rfl
  have h32 : (1 : UInt32).toNat = 1 := rfl
  rw [h64, h32]
  dsimp only
  omega

/-- A subtraction stays in the lower half while the count covers it. -/
theorem word_sub {r : Reference} {n : UInt32} (h : n.toNat ≤ r.count.toNat) :
    r.word - n.toUInt64 = word ⟨r.id, r.count - n⟩ := by
  apply UInt64.toNat_inj.mp
  -- and no borrow from it: the count covers what is taken away
  have hid := r.id.toNat_lt
  have hcount := r.count.toNat_lt
  have hle : n.toUInt64 ≤ r.word := by
    rw [UInt64.le_iff_toNat_le, toNat_word, UInt32.toNat_toUInt64]
    omega
  rw [UInt64.toNat_sub_of_le _ _ hle, toNat_word, toNat_word, UInt32.toNat_toUInt64,
    UInt32.toNat_sub_of_le _ _ (UInt32.le_iff_toNat_le.mpr h)]
  dsimp only
  omega

end Reference

theorem toNat_rebalanceAt : rebalanceAt.toNat = 1000000000 := rfl

theorem toNat_rebalanceBy : rebalanceBy.toNat = 999000000 := rfl

namespace Bucket

variable {κ ν : Type}

/-- The word and the chain agree, and the count is below the one at which it is moved. -/
inductive Anchored (b : Bucket κ ν) : Prop
  | vacant (hchain : b.chain = []) (hword : b.word = 0)
  | named (head : Version κ ν) (older : List (Version κ ν)) (count : UInt32)
      (hchain : b.chain = head :: older) (hword : b.word = Reference.word ⟨head.id, count⟩)
      (hid : head.id ≠ 0) (hpos : 1 ≤ count.toNat) (hlt : count.toNat < rebalanceAt.toNat)

theorem anchored_new : ({} : Bucket κ ν).Anchored := .vacant rfl rfl

/-- Anchoring looks at the word and at the newest identifier only. -/
theorem Anchored.congr {b c : Bucket κ ν} (h : b.Anchored) (hword : c.word = b.word)
    (hids : (c.chain.map (·.id)).head? = (b.chain.map (·.id)).head?) : c.Anchored := by
  cases h with
  | vacant hchain hw =>
    refine .vacant ?_ (hword.trans hw)
    simpa [hchain] using hids
  | named head older count hchain hw hid hpos hlt =>
    cases hc : c.chain with
    | nil => simp [hc, hchain] at hids
    | cons v l =>
      have hv : v.id = head.id := by simpa [hc, hchain] using hids
      exact .named v l count hc (by rw [hword, hw, hv]) (hv ▸ hid) hpos hlt

/-! ## Acquisition -/

/-- The bucket after a reader has added itself to the reference word. -/
def claimed (b : Bucket κ ν) : Bucket κ ν := { b with word := b.word + 1 }

theorem reference_claimed {b : Bucket κ ν} (h : b.Anchored) (hne : b.chain ≠ []) :
    b.claimed.reference = ⟨b.reference.id, b.reference.count + 1⟩ := by
  cases h with
  | vacant hchain => exact absurd hchain hne
  | named head older count hchain hword hid hpos hlt =>
    rw [toNat_rebalanceAt] at hlt
    have hclaim : b.claimed.word = Reference.word ⟨head.id, count + 1⟩ := by
      unfold claimed
      rw [hword, Reference.word_add_one (by dsimp only; omega)]
    simp [reference, hclaim, hword]

/-- What an acquisition does to the bucket, whatever its word says. -/
theorem acquire_snd_cases (b : Bucket κ ν) (s : Shared κ ν) :
    (b.acquire s).2 = (b, s) ∨ (b.acquire s).2 = (b.claimed, s) ∨
      (b.acquire s).2 = b.claimed.rebalance s := by
  unfold acquire
  dsimp only
  split
  · exact .inl rfl
  · split
    · exact .inr (.inl rfl)
    · split
      · exact .inr (.inl rfl)
      · split
        · exact .inr (.inl rfl)
        · split
          · exact .inl rfl
          · exact .inr (.inr rfl)

/-- The newest version is the first to bear the identifier that has been claimed. -/
theorem findIdx?_claimed {b : Bucket κ ν} (h : b.Anchored) (hne : b.chain ≠ []) :
    b.chain.findIdx? (·.id == b.claimed.reference.id) = some 0 ∧
      b.claimed.reference.id ≠ 0 := by
  rw [reference_claimed h hne]
  cases h with
  | vacant hchain => exact absurd hchain hne
  | named head older count hchain hword hid hpos hlt =>
    have hhead : b.reference.id = head.id := by simp [reference, hword]
    rw [hhead, hchain]
    exact ⟨by simp [List.findIdx?_cons], hid⟩

/-- All that an acquisition can come to. -/
theorem acquire_cases {b : Bucket κ ν} (h : b.Anchored) (s : Shared κ ν) :
    (b.chain = [] ∧ b.acquire s = (.absent, b, s)) ∨
    (b.chain ≠ [] ∧ b.reference.count + 1 = rebalanceAt ∧ b.locked = true ∧
      b.acquire s = (.waits, b, s)) ∨
    (b.chain ≠ [] ∧ b.reference.count + 1 = rebalanceAt ∧ b.locked = false ∧
      b.acquire s = (.held b.published, b.claimed.rebalance s)) ∨
    (b.chain ≠ [] ∧ b.reference.count + 1 ≠ rebalanceAt ∧
      b.acquire s = (.held b.published, b.claimed, s)) := by
  by_cases hne : b.chain = []
  · exact .inl ⟨hne, by simp [acquire, hne]⟩
  · refine .inr ?_
    have hemp : b.chain.isEmpty = false := by simpa using hne
    -- with a claim that has a name, and the name found at once, two tests are left:
    -- whether the count has come to its bound, and then whether the lock is free
    obtain ⟨hfind, hid⟩ := findIdx?_claimed h hne
    have hcount : b.claimed.reference.count = b.reference.count + 1 := by
      rw [reference_claimed h hne]
    have hacq : b.acquire s =
        if b.claimed.reference.count ≠ rebalanceAt then (.held b.published, b.claimed, s)
        else if b.locked then (.waits, b, s)
        else (.held b.published, b.claimed.rebalance s) := by
      unfold claimed at hfind hid ⊢
      unfold acquire
      rw [hemp, if_neg (by simp)]
      dsimp only
      rw [if_neg hid, hfind]
      rfl
    rw [hacq, hcount]
    by_cases hat : b.reference.count + 1 = rebalanceAt
    · rw [if_neg (by simpa using hat)]
      cases hl : b.locked with
      | true => exact .inl ⟨hne, hat, rfl, by simp⟩
      | false => exact .inr (.inl ⟨hne, hat, rfl, by simp⟩)
    · rw [if_pos hat]
      exact .inr (.inr ⟨hne, hat, rfl⟩)

/-- The transfer as it is due when an acquisition has brought the count to its bound. -/
theorem transfer_eq {b : Bucket κ ν} {head : Version κ ν} {older : List (Version κ ν)}
    {r : Reference} (hchain : b.chain = head :: older) (hword : b.word = r.word)
    (hcount : rebalanceAt ≤ r.count) (s : Shared κ ν) :
    b.transfer s =
      ({ b with
          word := Reference.word ⟨r.id, r.count - rebalanceBy⟩
          chain := { head with internal := head.internal + rebalanceBy.toInt32 } :: older },
        s.note (.rebalanced r.id r.count)) := by
  have hr : b.reference = r := by simp [reference, hword]
  have hnat := UInt32.le_iff_toNat_le.mp hcount
  have hby : rebalanceBy.toNat ≤ r.count.toNat := by
    rw [toNat_rebalanceAt] at hnat
    rw [toNat_rebalanceBy]
    omega
  unfold transfer
  rw [hr, if_neg (UInt32.not_lt.mpr hcount), hchain, hword, Reference.word_sub hby]

/-! ## Anchoring is kept -/

theorem map_endChain {α : Type} {f : Version κ ν → α}
    (hf : ∀ v : Version κ ν, f { v with prev := none } = f v) (l : List (Version κ ν)) :
    (endChain l).map f = l.map f := by
  fun_induction endChain l with
  | case1 => rfl
  | case2 v => simp [hf]
  | case3 v w older ih => rw [List.map_cons, ih]; rfl

theorem anchored_lock {b : Bucket κ ν} (h : b.Anchored) : b.lock.Anchored := h.congr rfl rfl

theorem anchored_reclaim {b : Bucket κ ν} (h : b.Anchored) (s : Shared κ ν) :
    (b.reclaim s).1.Anchored := by
  unfold reclaim
  split
  · exact h
  · rename_i head older hchain
    refine h.congr rfl ?_
    rw [map_endChain (fun _ => rfl), hchain]
    rfl

theorem anchored_servePending {b : Bucket κ ν} (h : b.Anchored) (s : Shared κ ν) :
    (b.servePending s).1.Anchored := by
  unfold servePending
  split
  · have hserved : ({ b with pending := false } : Bucket κ ν).Anchored := h.congr rfl rfl
    exact anchored_reclaim hserved s
  · exact h

theorem anchored_unlock {b : Bucket κ ν} (h : b.Anchored) (s : Shared κ ν) :
    (b.unlock s).1.Anchored := by
  have hfree : b.unlocked.Anchored := h.congr rfl rfl
  exact anchored_servePending hfree s

/-- Whatever was there before, a published draft is named by the word. -/
theorem anchored_publish (b : Bucket κ ν) {v : Version κ ν} (hid : v.id ≠ 0)
    (s : Shared κ ν) : (b.publish v s).1.Anchored := by
  -- in every branch the draft is in front, with a count of one, and reclamation leaves it there
  have hfresh : ∀ (c : Bucket κ ν) (older : List (Version κ ν)), c.chain = v :: older →
      c.word = Reference.word ⟨v.id, 1⟩ → c.Anchored := fun c older hc hw =>
    .named v older 1 hc hw hid (by decide) (by decide)
  unfold publish
  dsimp only
  split
  · exact hfresh _ [] rfl rfl
  · split
    · exact anchored_reclaim (hfresh _ _ rfl rfl) s
    · exact hfresh _ _ rfl rfl

theorem anchored_install (b : Bucket κ ν) (v : Version κ ν) : (b.install v).Anchored :=
  .named { v with id := 1 } [] 1 rfl rfl (show (1 : UInt32) ≠ 0 by decide) (by decide) (by decide)

theorem anchored_installItems (b : Bucket κ ν) (l : List (Item κ ν)) (s : Shared κ ν) :
    (b.installItems l s).1.Anchored :=
  anchored_install ..

/-- A bucket whose count has just reached its bound is anchored again by the transfer. -/
theorem anchored_transfer_claimed {b : Bucket κ ν} (h : b.Anchored) (hne : b.chain ≠ [])
    (hat : b.reference.count + 1 = rebalanceAt) (s : Shared κ ν) :
    (b.claimed.lock.transfer s).1.Anchored := by
  have href := reference_claimed h hne
  cases h with
  | vacant hchain => exact absurd hchain hne
  | named head older count hchain hword hid hpos hlt =>
    have hhead : b.reference.id = head.id := by simp [reference, hword]
    rw [hat, hhead] at href
    have hclaim : b.claimed.lock.word = Reference.word ⟨head.id, rebalanceAt⟩ := by
      rw [← href]
      simp [reference, lock]
    rw [transfer_eq (b := b.claimed.lock) hchain hclaim
      (UInt32.le_refl _) s]
    -- what the transfer leaves in the word is positive and far below the bound
    have hleft : (rebalanceAt - rebalanceBy).toNat = 1000000 := by decide
    exact .named _ older (rebalanceAt - rebalanceBy) rfl rfl hid (by rw [hleft]; decide)
      (by rw [hleft]; decide)

theorem anchored_acquire {b : Bucket κ ν} (h : b.Anchored) (s : Shared κ ν) :
    (b.acquire s).2.1.Anchored := by
  rcases acquire_cases h s with ⟨_, hacq⟩ | ⟨_, _, _, hacq⟩ | ⟨hne, hat, _, hacq⟩ | ⟨hne, hat, hacq⟩
  · rw [hacq]; exact h
  · rw [hacq]; exact h
  · rw [hacq]; exact anchored_unlock (anchored_transfer_claimed h hne hat s) _
  · rw [hacq]
    have href := reference_claimed h hne
    cases h with
    | vacant hchain => exact absurd hchain hne
    | named head older count hchain hword hid hpos hlt =>
      have hr : b.reference = ⟨head.id, count⟩ := by simp [reference, hword]
      rw [hr] at href hat
      have hclaim : b.claimed.word = Reference.word ⟨head.id, count + 1⟩ := by
        rw [← href]
        simp [reference]
      -- short of the bound before and not at it now, the count is short of it still
      have hnat : (count + 1).toNat = count.toNat + 1 := by
        rw [toNat_rebalanceAt] at hlt
        rw [UInt32.toNat_add]
        have h32 : (1 : UInt32).toNat = 1 := rfl
        omega
      have hne' : (count + 1).toNat ≠ rebalanceAt.toNat := fun he =>
        hat (UInt32.toNat_inj.mp he)
      exact .named head older (count + 1) hchain hclaim hid (by omega) (by omega)

theorem anchored_modifyInternal {b : Bucket κ ν} (h : b.Anchored) (n : Nat)
    (f : Int32 → Int32) : (b.modifyInternal n f).Anchored := by
  refine h.congr rfl ?_
  unfold modifyInternal
  cases b.chain with
  | nil => simp
  | cons head older => cases b.published - n <;> simp

theorem anchored_release {b : Bucket κ ν} (h : b.Anchored) (n : Nat) (s : Shared κ ν) :
    (b.release n s).1.Anchored := by
  unfold release
  split
  · exact h
  · have hdown := anchored_modifyInternal h n (· - 1)
    have hmark : ({ b.modifyInternal n (· - 1) with pending := true } : Bucket κ ν).Anchored :=
      hdown.congr rfl rfl
    dsimp only
    split
    · exact anchored_servePending hmark s
    · exact hdown

/-! ## Drafts -/

theorem id_draftCopy_ne (b : Bucket κ ν) (s : Shared κ ν) : (b.draftCopy s).1.id ≠ 0 := by
  unfold draftCopy
  dsimp only
  split
  · show (1 : UInt32) ≠ 0
    decide
  · exact nextId_ne_zero _

theorem id_draftEmpty_ne (b : Bucket κ ν) (s : Shared κ ν) : (b.draftEmpty s).1.id ≠ 0 := by
  unfold draftEmpty
  dsimp only
  split
  · show (1 : UInt32) ≠ 0
    decide
  · exact nextId_ne_zero _

theorem id_draftWithout_ne (b : Bucket κ ν) (q : Query κ) (s : Shared κ ν) :
    (b.draftWithout q s).2.1.id ≠ 0 := by
  unfold draftWithout
  dsimp only
  split
  · show (1 : UInt32) ≠ 0
    decide
  · exact nextId_ne_zero _

theorem anchored_replace (q : Query κ) (i : Item κ ν) (b : Bucket κ ν) (s : Shared κ ν) :
    (b.replace q i s).2.1.Anchored :=
  anchored_publish b (v := (b.draftWithout q s).2.1.push i) (id_draftWithout_ne b q s) _

theorem anchored_add (i : Item κ ν) (b : Bucket κ ν) (s : Shared κ ν) :
    (b.add i s).1.Anchored :=
  anchored_publish b (v := (b.draftCopy s).1.push i) (id_draftCopy_ne b s) _

theorem anchored_remove (q : Query κ) (b : Bucket κ ν) (s : Shared κ ν) :
    (b.remove q s).2.1.Anchored :=
  anchored_publish _ (id_draftWithout_ne b q s) _

end Bucket

end VersionedMap
