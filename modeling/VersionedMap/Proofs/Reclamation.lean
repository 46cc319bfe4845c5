import VersionedMap.Proofs.Counts

/-!
# Reclamation is exact

A version must stay while it is the newest, while somebody holds it, and while somebody
holds an older one. The chain of a bucket is **exact** if it ends with a version that must
stay. Versions are let go in three places: at publication, at a release, and when the lock
is released; each of them skips the work where it has nothing to do or must not do it.

The invariant is that a bucket is **tidy**: nothing is pending while the lock is free, and
whatever is left over while it is held is announced by the pending mark.
-/

namespace VersionedMap.Bucket

variable {κ ν : Type}

/-- The oldest version of the chain is the newest one or is held. -/
def Exact (b : Bucket κ ν) (held : Nat → Nat) : Prop :=
  1 < b.chain.length → held (b.published + 1 - b.chain.length) ≠ 0

/-- A publication must be kept: it is the newest, or it or an older one is held. -/
def Needs (b : Bucket κ ν) (held : Nat → Nat) (n : Nat) : Prop :=
  1 ≤ n ∧ n ≤ b.published ∧ (n = b.published ∨ ∃ m, m ≤ n ∧ held m ≠ 0)

/-- Nothing is pending with the lock free, and what is left over is pending. -/
structure Tidy (b : Bucket κ ν) (held : Nat → Nat) : Prop where
  served : b.locked = false → b.pending = false
  exact : b.pending = false → b.Exact held

theorem tidy_new : ({} : Bucket κ ν).Tidy fun _ => 0 where
  served _ := rfl
  exact _ h := absurd h (Nat.not_lt_zero 1)

/-- Nothing goes too early. -/
theorem keeps_of_needs {b : Bucket κ ν} {held : Nat → Nat} (h : b.Tallied held) {n : Nat}
    (hn : b.Needs held n) : b.Keeps n := by
  obtain ⟨hpos, hle, hwhy⟩ := hn
  refine ⟨hle, ?_⟩
  rcases hwhy with rfl | ⟨m, hmn, hm⟩
  · have hne : b.chain ≠ [] := fun hnil => by
      have := h.unpublished hnil
      omega
    have := List.length_pos_iff.mpr hne
    omega
  -- whatever is older and held is in the chain, and so is all that is newer
  · have := (h.kept m hm).2
    omega

/-- Nothing is left behind. -/
theorem needs_of_keeps {b : Bucket κ ν} {held : Nat → Nat} (h : b.Tallied held)
    (hexact : b.Exact held) {n : Nat} (hn : b.Keeps n) : b.Needs held n := by
  obtain ⟨hle, hlt⟩ := hn
  have hlen := h.length_le
  refine ⟨by omega, hle, ?_⟩
  by_cases hnew : n = b.published
  · exact .inl hnew
  · exact .inr ⟨b.published + 1 - b.chain.length, by omega, hexact (by omega)⟩

/-! ## What reclamation leaves -/

/-- The oldest of the superseded versions that stay is counted. -/
theorem internal_getLast_kept {older : List (Version κ ν)} {v : Version κ ν}
    (hv : (kept older).getLast? = some v) : v.internal ≠ 0 := by
  unfold kept at hv
  rw [List.getLast?_reverse] at hv
  have hstop := List.head?_dropWhile_not (fun w : Version κ ν => w.internal == 0) older.reverse
  rw [hv] at hstop
  simpa using hstop

theorem exact_reclaim {b : Bucket κ ν} {held : Nat → Nat} (h : b.Tallied held)
    (s : Shared κ ν) : (b.reclaim s).1.Exact held := by
  unfold reclaim
  split
  · rename_i hchain
    intro hlong
    rw [hchain] at hlong
    simp at hlong
  · rename_i head older hchain
    intro hlong
    dsimp only at hlong ⊢
    rw [length_endChain_kept] at hlong ⊢
    have hpos : (kept older).length - 1 < (kept older).length := by omega
    -- the last version that stays is found at its depth in the old chain
    have hlast : (kept older).getLast? = some (kept older)[(kept older).length - 1] := by
      rw [List.getLast?_eq_getElem?, List.getElem?_eq_getElem hpos]
    have hcounted := internal_getLast_kept hlast
    have hold : b.chain[(kept older).length - 1 + 1]?
        = some (kept older)[(kept older).length - 1] := by
      refine getElem?_chain_kept hchain ?_
      rw [List.getElem?_cons_succ, List.getElem?_eq_getElem hpos]
    have hcount := h.counts _ _ hold
    rw [show b.published - ((kept older).length - 1 + 1)
      = b.published + 1 - (1 + (kept older).length) by omega] at hcount
    -- were it not held, its count would be zero, and it would have been taken
    intro hzero
    rw [hzero] at hcount
    apply hcounted
    have hplain : (kept older)[(kept older).length - 1].internal + 0 = Int32.ofNat 0 := hcount
    rwa [Int32.add_zero] at hplain

/-- Serving what is pending, wherever it is due, leaves the bucket tidy. -/
theorem tidy_servePending {b : Bucket κ ν} {held : Nat → Nat} (h : b.Tallied held)
    (hexact : b.pending = false → b.Exact held) (s : Shared κ ν) :
    (b.servePending s).1.Tidy held := by
  unfold servePending
  split
  · have hserved : ({ b with pending := false } : Bucket κ ν).Tallied held := h.of_eq rfl rfl rfl
    refine ⟨fun _ => ?_, fun _ => exact_reclaim hserved s⟩
    unfold reclaim
    split <;> rfl
  · rename_i hidle
    refine ⟨fun hfree => ?_, hexact⟩
    cases hp : b.pending with
    | false => rfl
    | true => exact absurd (by rw [hp, hfree]; rfl) hidle

theorem tidy_lock {b : Bucket κ ν} {held : Nat → Nat} (h : b.Tidy held) : b.lock.Tidy held :=
  ⟨fun hfree => absurd hfree (by simp), h.exact⟩

theorem tidy_unlock {b : Bucket κ ν} {held : Nat → Nat} (h : b.Tallied held)
    (ht : b.Tidy held) (s : Shared κ ν) : (b.unlock s).1.Tidy held := by
  have hfree : b.unlocked.Tallied held := h.of_eq rfl rfl rfl
  exact tidy_servePending hfree ht.exact s

/-! ## Publication -/

/-- A publication either reclaims or supersedes a version that is held. -/
theorem tidy_publish {b : Bucket κ ν} {held : Nat → Nat} (h : b.Counted held)
    (ht : b.Tidy held) (hlocked : b.locked = true) {draft : Version κ ν}
    (hfresh : draft.internal = 0) (s : Shared κ ν) :
    (b.publish draft s).1.Tidy held := by
  refine ⟨fun hfree => absurd hfree (by rw [locked_publish, hlocked]; decide), ?_⟩
  cases hchain : b.chain with
  | nil =>
    unfold publish
    rw [hchain]
    intro _ hlong
    simp at hlong
  | cons head older =>
    have hfold := tallied_supersede h.toTallied hchain hfresh
    have hcount := h.counts 0 head (by rw [hchain]; rfl)
    rw [Nat.sub_zero, inFlight] at hcount
    rw [publish_cons hchain]
    split
    · exact fun _ => exact_reclaim hfold s
    · rename_i hsum
      intro hidle hlong
      have hsome : held b.published ≠ 0 := by
        intro hzero
        rw [hzero] at hcount
        exact hsum hcount
      have hexact := ht.exact hidle
      unfold Exact at hexact
      rw [hchain] at hexact
      simp only [supersede, List.length_cons] at hexact hlong ⊢
      -- either the superseded version is the oldest now, or the oldest is what it was
      by_cases hone : older.length = 0
      · rw [show b.published + 1 + 1 - (older.length + 1 + 1) = b.published by omega]
        exact hsome
      · rw [show b.published + 1 + 1 - (older.length + 1 + 1)
          = b.published + 1 - (older.length + 1) by omega]
        exact hexact (by omega)

/-! ## Readers -/

/-- Tidiness looks at the chain's length, the marks and the readers, which may be more. -/
theorem Tidy.of_le {b c : Bucket κ ν} {held held' : Nat → Nat} (h : b.Tidy held)
    (hlen : c.chain.length = b.chain.length) (hpub : c.published = b.published)
    (hpend : c.pending = b.pending) (hlock : c.locked = b.locked)
    (hle : ∀ n, held n ≤ held' n) : c.Tidy held' := by
  refine ⟨fun hfree => ?_, fun hidle hlong => ?_⟩
  · rw [hpend]
    exact h.served (hlock ▸ hfree)
  · rw [hlen] at hlong
    rw [hlen, hpub]
    have hheld := h.exact (hpend ▸ hidle) hlong
    have := hle (b.published + 1 - b.chain.length)
    omega

theorem le_more (held : Nat → Nat) (n m : Nat) : held m ≤ more held n m := by
  unfold more
  split <;> omega

theorem Tidy.move {b : Bucket κ ν} {held : Nat → Nat} (h : b.Tidy held)
    {head : Version κ ν} {older : List (Version κ ν)} (hchain : b.chain = head :: older)
    (w : UInt64) (x : Int32) :
    ({ b with word := w, chain := { head with internal := x } :: older } :
      Bucket κ ν).Tidy held :=
  h.of_le (by rw [hchain]; rfl) rfl rfl rfl (fun _ => Nat.le_refl _)

theorem tidy_transfer {b : Bucket κ ν} {held : Nat → Nat} (h : b.Tidy held)
    (s : Shared κ ν) : (b.transfer s).1.Tidy held := by
  unfold transfer
  split
  · exact h
  · split
    · exact h
    · rename_i head older hchain
      exact h.move hchain _ _

theorem tidy_acquire {b : Bucket κ ν} {held : Nat → Nat} (h : b.Counted held)
    (ht : b.Tidy held) (s : Shared κ ν) :
    (b.acquire s).2.1.Tidy (more held b.published) := by
  -- a claim alone touches nothing that tidiness looks at
  have hmore : ∀ c : Bucket κ ν, c.chain = b.chain → c.published = b.published →
      c.pending = b.pending → c.locked = b.locked → c.Tidy (more held b.published) :=
    fun c hc hp hd hl => ht.of_le (by rw [hc]) hp hd hl (le_more held b.published)
  rcases acquire_cases h.anchored s with
    ⟨_, hacq⟩ | ⟨_, _, _, hacq⟩ | ⟨hne, _, _, hacq⟩ | ⟨_, _, hacq⟩
  · rw [hacq]
    exact hmore b rfl rfl rfl rfl
  · rw [hacq]
    exact hmore b rfl rfl rfl rfl
  · rw [hacq]
    have hlock : b.claimed.lock.Tallied (more held b.published) :=
      (tallied_claimed h hne).of_eq rfl rfl rfl
    have htidy := tidy_transfer (tidy_lock (hmore b.claimed rfl rfl rfl rfl)) s
    exact tidy_unlock (tallied_transfer hlock s) htidy _
  · rw [hacq]
    exact hmore b.claimed rfl rfl rfl rfl

/--
The last reader of a superseded version finds its count at one and asks for reclamation.
Any other release leaves the end of the chain held or newest.
-/
theorem tidy_release {b : Bucket κ ν} {held : Nat → Nat} (h : b.Counted held)
    (ht : b.Tidy held) {n : Nat} (hn : held n ≠ 0) (s : Shared κ ν) :
    (b.release n s).1.Tidy (fewer held n) := by
  obtain ⟨v, hv⟩ := version?_of_keeps (h.kept n hn)
  have hdown := tallied_modifyInternal h.toTallied hn
  have hmark : ({ b.modifyInternal n (· - 1) with pending := true } : Bucket κ ν).Tallied
      (fewer held n) := hdown.of_eq rfl rfl rfl
  have hlen : (b.modifyInternal n (· - 1)).chain.length = b.chain.length :=
    List.length_modify ..
  unfold release
  rw [hv]
  dsimp only
  split
  · exact tidy_servePending hmark (fun hidle => absurd hidle (by simp)) s
  · rename_i hmany
    refine ⟨ht.served, fun hidle hlong => ?_⟩
    rw [hlen] at hlong ⊢
    have hheld := ht.exact hidle hlong
    show fewer held n (b.published + 1 - b.chain.length) ≠ 0
    by_cases hend : b.published + 1 - b.chain.length = n
    · -- the reader held the oldest version, and was not the only one
      have hle := h.length_le
      have hdepth : b.published - n = (b.published - n - 1) + 1 := by omega
      have hcount := h.counts (b.published - n) v hv
      rw [hdepth, inFlight, Int32.add_zero, ← hdepth,
        show b.published - (b.published - n) = n by omega] at hcount
      have hmore : held n ≠ 1 := fun hone => hmany (by rw [hcount, hone]; rfl)
      rw [hend]
      have hfewer : fewer held n n = held n - 1 := if_pos rfl
      omega
    · have hother : fewer held n (b.published + 1 - b.chain.length)
          = held (b.published + 1 - b.chain.length) := if_neg hend
      rw [hother]
      exact hheld

end VersionedMap.Bucket
