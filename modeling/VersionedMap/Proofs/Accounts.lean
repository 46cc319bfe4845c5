import VersionedMap.Proofs.BucketRuns

/-!
# What the counts of a bucket come to

The two main results about the counts of a bucket in any state that it gets into.

* `counts_exact`: taken as integers, the counts are the numbers of readers, and none of the
  additions that move them about leaves its half of the word or wraps.
* `reclamation_exact`: the chain is what the readers need and no more, apart from what is
  pending while the lock is held.
-/

namespace VersionedMap

variable {κ ν : Type}

/-! ## Integers in words -/

theorem toInt_sub_one {x : Int32} (h : -2 ^ 31 < x.toInt) : (x - 1).toInt = x.toInt - 1 := by
  have hlt := x.toInt_lt
  have hone : (1 : Int32).toInt = 1 := rfl
  rw [Int32.toInt_sub, hone, Int.bmod_eq_of_le] <;> omega

theorem toInt_add_toInt32 {x : Int32} {c : UInt32} (hc : c.toNat < 2 ^ 31)
    (h : x.toInt + c.toNat < 2 ^ 31) : (x + c.toInt32).toInt = x.toInt + c.toNat := by
  have hle := x.le_toInt
  have hint : c.toInt32.toInt = c.toNat := by
    have hword : c.toInt32 = Int32.ofNat c.toNat := by
      rw [← Int32.toBitVec_inj]
      apply BitVec.eq_of_toNat_eq
      simp
    rw [hword, Int32.toInt_ofNat_of_lt hc]
  rw [Int32.toInt_add, hint, Int.bmod_eq_of_le] <;> omega

namespace Bucket

/-! ## Counts -/

/-- A bucket that has been published, and what its counts say of its readers. -/
structure Balanced (b : Bucket κ ν) (held : Nat → Nat) (head : Version κ ν)
    (older : List (Version κ ν)) : Prop where
  chain_eq : b.chain = head :: older
  id_eq : b.reference.id = head.id
  /-- Both halves of the newest version's count make up its readers. -/
  newest : (b.reference.count.toNat : Int) - 1 + head.internal.toInt = held b.published
  /-- A superseded version counts its readers by itself. -/
  superseded : ∀ (i : Nat) (v : Version κ ν), older[i]? = some v →
    v.internal.toInt = held (b.published - (i + 1))
  count_pos : 1 ≤ b.reference.count.toNat
  count_le : b.reference.count.toNat ≤ rebalanceAt.toNat - 1

theorem balanced_of_counted {b : Bucket κ ν} {held : Nat → Nat} (h : b.Counted held)
    (hroom : ∀ n, held n < 2 ^ 31) {head : Version κ ν} {older : List (Version κ ν)}
    (hchain : b.chain = head :: older) : b.Balanced held head older := by
  -- the word is read off from the anchor, the sums from the tally
  cases h.anchored with
  | vacant hnil => simp [hnil] at hchain
  | named head' older' count hchain' hword hid hpos hlt =>
    obtain ⟨rfl, rfl⟩ : head' = head ∧ older' = older := by
      simpa using hchain'.symm.trans hchain
    have href : b.reference = ⟨head'.id, count⟩ := by rw [reference, hword, Reference.ofWord_word]
    have hcount : b.reference.count = count := by rw [href]
    rw [toNat_rebalanceAt] at hlt
    refine ⟨hchain, by rw [href], ?_, ?_, by rw [hcount]; exact hpos, ?_⟩
    · have hsum := h.counts 0 head' (by rw [hchain]; rfl)
      rw [inFlight, hcount, Nat.sub_zero] at hsum
      rw [hcount]
      exact toInt_of_sum (hroom _) hpos (by omega) hsum
    · intro i v hv
      have hsum := h.counts (i + 1) v (by rw [hchain]; exact hv)
      rw [inFlight, Int32.add_zero] at hsum
      rw [hsum, Int32.toInt_ofNat_of_lt (hroom _)]
    · rw [hcount, toNat_rebalanceAt]
      omega

section Balanced

variable {b : Bucket κ ν} {held : Nat → Nat} {head : Version κ ν} {older : List (Version κ ν)}

/-- A claim stays in the lower half of the word. -/
theorem Balanced.claim (h : b.Balanced held head older) :
    Reference.ofWord (b.word + 1) = ⟨head.id, b.reference.count + 1⟩ ∧
      (b.reference.count + 1).toNat = b.reference.count.toNat + 1 := by
  have hle := h.count_le
  rw [toNat_rebalanceAt] at hle
  have hword : b.word = b.reference.word := (Reference.word_ofWord b.word).symm
  refine ⟨?_, ?_⟩
  · rw [hword, Reference.word_add_one (by omega), Reference.ofWord_word, h.id_eq]
  · have hone : (1 : UInt32).toNat = 1 := rfl
    rw [UInt32.toNat_add]
    omega

/-- The amount that is moved when the bound is reached is there to be moved. -/
theorem Balanced.move (h : b.Balanced held head older) (hroom : held b.published < 2 ^ 31)
    (hat : b.reference.count + 1 = rebalanceAt) :
    Reference.ofWord (b.word + 1 - rebalanceBy.toUInt64)
        = ⟨head.id, b.reference.count + 1 - rebalanceBy⟩ ∧
      (head.internal + rebalanceBy.toInt32).toInt
        = head.internal.toInt + rebalanceBy.toNat := by
  obtain ⟨hclaim, hnat⟩ := h.claim
  have hby : rebalanceBy.toNat ≤ (b.reference.count + 1).toNat := by
    rw [hat, toNat_rebalanceAt, toNat_rebalanceBy]
    decide
  have hword : b.word + 1 = Reference.word ⟨head.id, b.reference.count + 1⟩ := by
    rw [← hclaim, Reference.word_ofWord]
  refine ⟨?_, ?_⟩
  · rw [hword, Reference.word_sub hby, Reference.ofWord_word]
  -- at the bound the readers are as many as the word says, so the version can take the amount
  · have hnew := h.newest
    rw [hat, toNat_rebalanceAt] at hnat
    have hsize := toNat_rebalanceBy
    generalize rebalanceBy = by' at *
    refine toInt_add_toInt32 ?_ ?_ <;> omega

/-- What is in flight is folded into the newest version's count without a wrap. -/
theorem Balanced.fold (h : b.Balanced held head older) (hroom : held b.published < 2 ^ 31) :
    (head.internal + (b.reference.count - 1).toInt32).toInt = held b.published := by
  have hnew := h.newest
  have hpos := h.count_pos
  have hle := h.count_le
  rw [toNat_rebalanceAt] at hle
  have hsub : (b.reference.count - 1).toNat = b.reference.count.toNat - 1 :=
    UInt32.toNat_sub_of_le _ _ (UInt32.le_iff_toNat_le.mpr hpos)
  rw [toInt_add_toInt32 (by omega) (by omega)]
  omega

/-- A release takes one off a count without a wrap. -/
theorem Balanced.release (h : b.Balanced held head older) {v : Version κ ν}
    (hv : v ∈ b.chain) : (v.internal - 1).toInt = v.internal.toInt - 1 := by
  refine toInt_sub_one ?_
  have hnew := h.newest
  have hle := h.count_le
  rw [toNat_rebalanceAt] at hle
  rw [h.chain_eq] at hv
  -- a count is a number of readers, less at most what the word counts, and so not the least integer
  rcases List.mem_cons.mp hv with rfl | hv
  · omega
  · obtain ⟨i, hi⟩ := List.mem_iff_getElem?.mp hv
    have := h.superseded i v hi
    omega

end Balanced

namespace Session

theorem readers_eq_nil {s : Session κ ν} (h : ∀ n, s.held n = 0) : s.readers.toList = [] := by
  cases hl : s.readers.toList with
  | nil => rfl
  | cons e l =>
    have hmem : e.2 ∈ s.readers.values := by
      unfold Numbered.values
      rw [hl]
      exact List.mem_cons_self
    exact absurd (h e.2) (held_ne_zero.mpr hmem)

theorem held_eq_zero_of_nil {s : Session κ ν} (h : s.readers.toList = []) (n : Nat) :
    s.held n = 0 := by
  unfold held Numbered.values
  rw [h]
  rfl

/--
**The split counts are exact.**

Before the first publication the word is zero and nobody holds anything. From then on the
word and the newest version together count that version's readers, every superseded version
counts its own, and the word's half stays below the bound. So neither a claim, a move of
the bulk, a publication nor a release ever carries, borrows or wraps.
-/
theorem counts_exact {pool : Pool κ ν} (hpool : pool.IsClean) {s : Session κ ν}
    (h : Reachable pool s) (hroom : s.Uncrowded) :
    (s.bucket.published = 0 →
      s.bucket.chain = [] ∧ s.bucket.word = 0 ∧ s.readers.toList = []) ∧
    (s.bucket.published ≠ 0 → ∃ head older,
      s.bucket.Balanced s.held head older ∧
      (Reference.ofWord (s.bucket.word + 1) = ⟨head.id, s.bucket.reference.count + 1⟩ ∧
        (s.bucket.reference.count + 1).toNat = s.bucket.reference.count.toNat + 1) ∧
      (s.bucket.reference.count + 1 = rebalanceAt →
        Reference.ofWord (s.bucket.word + 1 - rebalanceBy.toUInt64)
            = ⟨head.id, s.bucket.reference.count + 1 - rebalanceBy⟩ ∧
          (head.internal + rebalanceBy.toInt32).toInt
            = head.internal.toInt + rebalanceBy.toNat) ∧
      (head.internal + (s.bucket.reference.count - 1).toInt32).toInt
        = s.held s.bucket.published ∧
      ∀ v ∈ s.bucket.chain, (v.internal - 1).toInt = v.internal.toInt - 1) := by
  have hcounted := (sound_reachable hpool h).orderly.counted
  refine ⟨fun hzero => ?_, fun hsome => ?_⟩
  · have hlen := hcounted.length_le
    have hchain : s.bucket.chain = [] := List.length_eq_zero_iff.mp (by omega)
    refine ⟨hchain, ?_, readers_eq_nil (hcounted.held_eq_zero hchain)⟩
    cases hcounted.anchored with
    | vacant _ hword => exact hword
    | named head older count hcons => simp [hchain] at hcons
  · cases hchain : s.bucket.chain with
    | nil => exact absurd (hcounted.unpublished hchain) hsome
    | cons head older =>
      have hbal := balanced_of_counted hcounted hroom hchain
      exact ⟨head, older, hbal, hbal.claim, hbal.move (hroom _), hbal.fold (hroom _),
        fun v hv => hbal.release (hchain ▸ hv)⟩

theorem counts_exact_three_readers :
    let s : Session Nat Nat := run {} [.wipe, .acquire 0, .acquire 1, .wipe, .acquire 2]
    s.held 1 = 2 ∧ s.held 2 = 1 ∧ ∃ head older, s.bucket.Balanced s.held head older := by
  have hcalm : (({} : Session Nat Nat)).Calm
      [.wipe, .acquire 0, .acquire 1, .wipe, .acquire 2] :=
    ⟨uncrowded_of_length (by decide), rfl, uncrowded_of_length (by decide), rfl,
      uncrowded_of_length (by decide), rfl, uncrowded_of_length (by decide), rfl,
      uncrowded_of_length (by decide), rfl, trivial⟩
  have hreach := Reachable.run (Reachable.new : Reachable ({} : Pool Nat Nat) _) hcalm
  have hexact := counts_exact Pool.isClean_new hreach (uncrowded_of_length (by decide))
  obtain ⟨head, older, hbal, _⟩ := hexact.2 (by decide)
  exact ⟨by decide, by decide, head, older, hbal⟩

/-! ## Reclamation -/

/-- The unlock step, whoever has the lock. -/
theorem step_unlock {s : Session κ ν} (h : s.isLocked = true) :
    (s.step .unlock).2 = s.unlock ∧ s.unlock.isLocked = false ∧ s.unlock.readers = s.readers := by
  dsimp only [step]
  unfold Session.unlock
  rw [if_pos h, if_pos h]
  exact ⟨rfl, rfl, rfl⟩

theorem keeps_iff_needs {s : Session κ ν} (h : s.Sound) (hidle : s.bucket.pending = false)
    (n : Nat) : s.bucket.Keeps n ↔ s.bucket.Needs s.held n :=
  ⟨needs_of_keeps h.orderly.counted.toTallied (h.orderly.tidy.exact hidle),
    keeps_of_needs h.orderly.counted.toTallied⟩

theorem Sound.idle {s : Session κ ν} (h : s.Sound) (hfree : s.isLocked = false) :
    s.bucket.pending = false :=
  h.orderly.tidy.served (h.locked_eq.trans hfree)

/-- Without readers only the newest version is needed. -/
theorem chain_of_no_readers {s : Session κ ν} (h : s.Sound) (hfree : s.isLocked = false)
    (hnone : s.readers.toList = []) :
    s.bucket.chain = [] ∨ ∃ head, s.bucket.chain = [head] := by
  have hexact := h.orderly.tidy.exact (h.idle hfree)
  match hchain : s.bucket.chain with
  | [] => exact .inl rfl
  | [head] => exact .inr ⟨head, rfl⟩
  | head :: second :: older =>
    -- the oldest of several versions would have to be held
    have hlong : 1 < s.bucket.chain.length := by
      rw [hchain]
      simp
    exact absurd (held_eq_zero_of_nil hnone _) (hexact hlong)

/--
**Reclamation is exact.**

With the lock free nothing is pending, and the versions in the chain are the newest one and
those at least as new as the oldest that is held. Under the lock nothing needed goes, what
is left over is announced, and the unlock that follows clears it. Once nobody holds anything
one version is left, on which the bucket alone is counted.
-/
theorem reclamation_exact {pool : Pool κ ν} (hpool : pool.IsClean) {s : Session κ ν}
    (h : Reachable pool s) (hroom : s.Uncrowded) :
    (s.isLocked = false →
      s.bucket.pending = false ∧ ∀ n, s.bucket.Keeps n ↔ s.bucket.Needs s.held n) ∧
    (s.isLocked = true →
      (∀ n, s.bucket.Needs s.held n → s.bucket.Keeps n) ∧
      ((∃ n, s.bucket.Keeps n ∧ ¬ s.bucket.Needs s.held n) → s.bucket.pending = true) ∧
      (s.step .unlock).2.bucket.pending = false ∧
      ∀ n, (s.step .unlock).2.bucket.Keeps n ↔ (s.step .unlock).2.bucket.Needs s.held n) ∧
    (s.isLocked = false → s.readers.toList = [] →
      (s.bucket.published = 0 ∧ s.bucket.chain = []) ∨
      ∃ head, s.bucket.chain = [head] ∧
        (s.bucket.reference.count.toNat : Int) + head.internal.toInt = 1) := by
  have hsound := sound_reachable hpool h
  refine ⟨fun hfree => ?_, fun hlocked => ?_, fun hfree hnone => ?_⟩
  · exact ⟨hsound.idle hfree, keeps_iff_needs hsound (hsound.idle hfree)⟩
  · obtain ⟨hstep, hfree, hreaders⟩ := step_unlock hlocked
    have hafter := hsound.unlock hroom
    have hheld : s.unlock.held = s.held := by
      unfold held
      rw [hreaders]
    refine ⟨fun n => keeps_of_needs hsound.orderly.counted.toTallied, ?_, ?_, ?_⟩
    · rintro ⟨n, hkeep, hneed⟩
      cases hp : s.bucket.pending with
      | false => exact absurd ((keeps_iff_needs hsound hp n).mp hkeep) hneed
      | true => rfl
    · rw [hstep]
      exact hafter.idle hfree
    · rw [hstep, ← hheld]
      exact keeps_iff_needs hafter (hafter.idle hfree)
  · rcases chain_of_no_readers hsound hfree hnone with hchain | ⟨head, hchain⟩
    · exact .inl ⟨hsound.orderly.counted.unpublished hchain, hchain⟩
    · refine .inr ⟨head, hchain, ?_⟩
      have hnew := (balanced_of_counted hsound.orderly.counted hroom hchain).newest
      rw [held_eq_zero_of_nil hnone] at hnew
      omega

theorem reclamation_exact_deferred_release :
    let s : Session Nat Nat := run {} [.wipe, .acquire 0, .wipe, .lock, .release 0]
    s.isLocked = true ∧ s.bucket.Keeps 1 ∧ ¬ s.bucket.Needs s.held 1 ∧
      s.bucket.pending = true ∧ ¬ (s.step .unlock).2.bucket.Keeps 1 := by
  have hcalm : (({} : Session Nat Nat)).Calm [.wipe, .acquire 0, .wipe, .lock, .release 0] :=
    ⟨uncrowded_of_length (by decide), rfl, uncrowded_of_length (by decide), rfl,
      uncrowded_of_length (by decide), rfl, uncrowded_of_length (by decide), rfl,
      uncrowded_of_length (by decide), rfl, trivial⟩
  have hreach := Reachable.run (Reachable.new : Reachable ({} : Pool Nat Nat) _) hcalm
  have hroom := uncrowded_of_length (s := run ({} : Session Nat Nat)
    [.wipe, .acquire 0, .wipe, .lock, .release 0]) (by decide)
  have hkeep : (run ({} : Session Nat Nat)
      [.wipe, .acquire 0, .wipe, .lock, .release 0]).bucket.Keeps 1 := by
    unfold Keeps
    decide
  have hneed : ¬ (run ({} : Session Nat Nat)
      [.wipe, .acquire 0, .wipe, .lock, .release 0]).bucket.Needs
      (run ({} : Session Nat Nat) [.wipe, .acquire 0, .wipe, .lock, .release 0]).held 1 := by
    rintro ⟨_, _, hnew | ⟨m, _, hm⟩⟩
    · exact absurd hnew (by decide)
    · exact hm (held_eq_zero_of_nil rfl m)
  have hlocked := (reclamation_exact Pool.isClean_new hreach hroom).2.1 rfl
  refine ⟨rfl, hkeep, hneed, hlocked.2.1 ⟨1, hkeep, hneed⟩, ?_⟩
  exact fun hafter => hneed ((hlocked.2.2.2 1).mp hafter)

end Session

end Bucket

end VersionedMap
