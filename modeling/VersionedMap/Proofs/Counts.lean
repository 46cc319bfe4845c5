import Mathlib.Data.List.TakeWhile
import VersionedMap.Proofs.Lasting

/-!
# The split counts are exact

How many readers hold a publication is written down in two places: in the version itself
and, for the newest version, also in the reference word, which counts acquisitions from
one. A bucket is **counted** with respect to a table `held` of how many readers hold each
publication, if for every version of the chain the two places add up to its readers, and
whatever is held is in the chain.

The sums are kept modulo `2 ^ 32`, as the program computes them. They tell "nobody" from
"somebody" as long as fewer than `2 ^ 32` readers hold one version.
-/

namespace VersionedMap

/-! ## Numbers of readers as words -/

theorem ofNat_eq_zero_iff {k : Nat} (h : k < 2 ^ 32) : Int32.ofNat k = 0 ↔ k = 0 := by
  rw [← Int32.toBitVec_inj]
  constructor
  · intro he
    have := congrArg BitVec.toNat he
    simp at this
    omega
  · rintro rfl
    rfl

theorem toInt32_add (a b : UInt32) : (a + b).toInt32 = a.toInt32 + b.toInt32 := rfl

theorem toInt32_sub (a b : UInt32) : (a - b).toInt32 = a.toInt32 - b.toInt32 := rfl

/-- The sum of the two places as an equation between integers. -/
theorem toInt_of_sum {x : Int32} {c : UInt32} {k : Nat} (hk : k < 2 ^ 31) (hpos : 1 ≤ c.toNat)
    (hle : c.toNat ≤ 1000000000) (h : x + (c - 1).toInt32 = Int32.ofNat k) :
    (c.toNat : Int) - 1 + x.toInt = k := by
  -- the version is what the word leaves of the readers, and neither part is beyond an `Int32`
  have hx : x = Int32.ofNat k - (c - 1).toInt32 := by grind
  have hc : (c - 1).toInt32 = Int32.ofNat (c.toNat - 1) := by
    rw [← Int32.toBitVec_inj]
    apply BitVec.eq_of_toNat_eq
    have hone : (1 : UInt32) ≤ c := UInt32.le_iff_toNat_le.mpr hpos
    have hsub := UInt32.toNat_sub_of_le _ _ hone
    have h32 : (1 : UInt32).toNat = 1 := rfl
    simp
    omega
  have hcint : (c - 1).toInt32.toInt = (c.toNat : Int) - 1 := by
    rw [hc, Int32.toInt_ofNat_of_lt (by omega)]
    omega
  rw [hx, Int32.toInt_sub, Int32.toInt_ofNat_of_lt hk, hcint, Int.bmod_eq_of_le] <;> omega

namespace Bucket

variable {κ ν : Type}

/-! ## Who holds what -/

/-- One more reader of publication `n`. -/
def more (held : Nat → Nat) (n m : Nat) : Nat := if m = n then held m + 1 else held m

/-- One reader less of publication `n`. -/
def fewer (held : Nat → Nat) (n m : Nat) : Nat := if m = n then held m - 1 else held m

theorem fewer_more (held : Nat → Nat) (n : Nat) : fewer (more held n) n = held := by
  funext m
  unfold fewer more
  split <;> rfl

/-- No publication has so many readers that their number vanishes in a word. -/
def Roomy (held : Nat → Nat) : Prop := ∀ n, held n < 2 ^ 32

theorem Roomy.fewer {held : Nat → Nat} (h : Roomy held) (n : Nat) : Roomy (fewer held n) := by
  intro m
  have := h m
  unfold Bucket.fewer
  split <;> omega

/-- What the reference word adds to the count of the version at a depth. -/
def inFlight (b : Bucket κ ν) : Nat → Int32
  | 0 => (b.reference.count - 1).toInt32
  | _ + 1 => 0

/-- The counts add up to the readers, and what is held is there. -/
structure Tallied (b : Bucket κ ν) (held : Nat → Nat) : Prop where
  /-- A bucket without versions never had one. -/
  unpublished : b.chain = [] → b.published = 0
  /-- No more versions are there than have been published. -/
  length_le : b.chain.length ≤ b.published
  /-- Both places together count the readers. -/
  counts : ∀ i v, b.chain[i]? = some v →
    v.internal + b.inFlight i = Int32.ofNat (held (b.published - i))
  /-- What is held is in the chain. -/
  kept : ∀ n, held n ≠ 0 → b.Keeps n

/-- Tallied, and ready to be acquired. -/
structure Counted (b : Bucket κ ν) (held : Nat → Nat) : Prop extends Tallied b held where
  anchored : b.Anchored

theorem counted_new : ({} : Bucket κ ν).Counted fun _ => 0 where
  unpublished _ := rfl
  length_le := Nat.le_refl 0
  counts := by intro i v hv; simp at hv
  kept := by intro n hn; exact absurd rfl hn
  anchored := anchored_new

/-- Nobody holds anything of a bucket that has no versions. -/
theorem Tallied.held_eq_zero {b : Bucket κ ν} {held : Nat → Nat} (h : b.Tallied held)
    (hchain : b.chain = []) (n : Nat) : held n = 0 := by
  by_cases hn : held n = 0
  · exact hn
  · have hkeep := h.kept n hn
    have := hkeep.1
    have := hkeep.2
    rw [hchain, List.length_nil] at this
    omega

theorem Tallied.of_eq {b c : Bucket κ ν} {held : Nat → Nat} (h : b.Tallied held)
    (hchain : c.chain = b.chain) (hword : c.word = b.word) (hpub : c.published = b.published) :
    c.Tallied held where
  unpublished := by rw [hchain, hpub]; exact h.unpublished
  length_le := by rw [hchain, hpub]; exact h.length_le
  counts := by
    intro i v hv
    rw [hchain] at hv
    have hflight : c.inFlight i = b.inFlight i := by
      cases i with
      | zero => rw [inFlight, inFlight, reference, reference, hword]
      | succ i => rfl
    rw [hflight, hpub]
    exact h.counts i v hv
  kept := by
    intro n hn
    have hkeep := h.kept n hn
    unfold Keeps at hkeep ⊢
    rwa [hchain, hpub]

/-! ## Reclamation -/

theorem internal_retired {older : List (Version κ ν)} {v : Version κ ν}
    (hv : v ∈ retired older) : v.internal = 0 := by
  unfold retired at hv
  have h := List.mem_takeWhile_imp (List.mem_reverse.mp hv)
  simpa using h

section Split

variable {b : Bucket κ ν} {head : Version κ ν} {older : List (Version κ ν)}

/-- The chain is the newest version, what stays and what goes, in this order. -/
theorem length_chain (hchain : b.chain = head :: older) :
    b.chain.length = 1 + (kept older).length + (retired older).length := by
  have hsplit := congrArg List.length (kept_append_retired older)
  rw [List.length_append] at hsplit
  rw [hchain, List.length_cons]
  omega

theorem getElem?_chain_kept (hchain : b.chain = head :: older) {i : Nat} {v : Version κ ν}
    (hv : (head :: kept older)[i]? = some v) : b.chain[i]? = some v := by
  have hi := (List.getElem?_eq_some_iff.mp hv).1
  rw [hchain, ← kept_append_retired older, ← List.cons_append, List.getElem?_append_left hi, hv]

theorem getElem?_chain_retired (hchain : b.chain = head :: older) {j : Nat}
    (hj : j < (retired older).length) :
    b.chain[(kept older).length + j + 1]? = some (retired older)[j] := by
  have hget : (kept older ++ retired older)[(kept older).length + j]?
      = some (retired older)[j] := by
    rw [List.getElem?_append_right (Nat.le_add_right _ _), Nat.add_sub_cancel_left,
      List.getElem?_eq_getElem hj]
  rw [kept_append_retired] at hget
  rw [hchain, List.getElem?_cons_succ, hget]

theorem length_endChain_kept (head : Version κ ν) (older : List (Version κ ν)) :
    (endChain (head :: kept older)).length = 1 + (kept older).length := by
  rw [length_endChain, List.length_cons, Nat.add_comm]

end Split

/-- Nobody holds a publication whose version goes. -/
theorem held_retired {b : Bucket κ ν} {held : Nat → Nat} (h : b.Tallied held)
    (hroom : Roomy held) {head : Version κ ν} {older : List (Version κ ν)}
    (hchain : b.chain = head :: older) {j : Nat} (hj : j < (retired older).length) :
    held (b.published - ((kept older).length + j + 1)) = 0 := by
  have hcount := h.counts _ _ (getElem?_chain_retired hchain hj)
  rw [internal_retired (List.getElem_mem hj), inFlight, Int32.add_zero] at hcount
  exact (ofNat_eq_zero_iff (hroom _)).mp hcount.symm

/-- Only versions that nobody holds are reclaimed. -/
theorem tallied_reclaim {b : Bucket κ ν} {held : Nat → Nat} (h : b.Tallied held)
    (hroom : Roomy held) (s : Shared κ ν) : (b.reclaim s).1.Tallied held := by
  unfold reclaim
  split
  · exact h
  · rename_i head older hchain
    have hlen := length_chain hchain
    have hend := length_endChain_kept head older
    constructor
    · intro hnil
      have hnone : (endChain (head :: kept older)).length = 0 := congrArg List.length hnil
      omega
    · have := h.length_le
      show (endChain (head :: kept older)).length ≤ b.published
      omega
    · intro i v hv
      -- the counts of the versions that stay are untouched
      have hmap : ((endChain (head :: kept older)).map (·.internal))[i]? = some v.internal := by
        rw [List.getElem?_map, hv]
        rfl
      rw [map_endChain (fun _ => rfl), List.getElem?_map] at hmap
      obtain ⟨w, hw, hwv⟩ := Option.map_eq_some_iff.mp hmap
      have hcount := h.counts i w (getElem?_chain_kept hchain hw)
      rw [hwv] at hcount
      exact hcount
    · intro n hn
      obtain ⟨hle, hlt⟩ := h.kept n hn
      refine ⟨hle, ?_⟩
      show b.published < n + (endChain (head :: kept older)).length
      by_cases hdeep : b.published < n + (1 + (kept older).length)
      · omega
      · -- any further down the version of `n` would be one of those that go
        obtain ⟨j, hj⟩ : ∃ j, b.published - n = (kept older).length + j + 1 :=
          ⟨b.published - n - (kept older).length - 1, by omega⟩
        have hzero := held_retired h hroom hchain (j := j) (by omega)
        rw [show b.published - ((kept older).length + j + 1) = n by omega] at hzero
        exact absurd hzero hn

theorem tallied_servePending {b : Bucket κ ν} {held : Nat → Nat} (h : b.Tallied held)
    (hroom : Roomy held) (s : Shared κ ν) : (b.servePending s).1.Tallied held := by
  unfold servePending
  split
  · have hserved : ({ b with pending := false } : Bucket κ ν).Tallied held := h.of_eq rfl rfl rfl
    exact tallied_reclaim hserved hroom s
  · exact h

theorem tallied_unlock {b : Bucket κ ν} {held : Nat → Nat} (h : b.Tallied held)
    (hroom : Roomy held) (s : Shared κ ν) : (b.unlock s).1.Tallied held := by
  have hfree : b.unlocked.Tallied held := h.of_eq rfl rfl rfl
  exact tallied_servePending hfree hroom s

theorem counted_lock {b : Bucket κ ν} {held : Nat → Nat} (h : b.Counted held) :
    b.lock.Counted held :=
  ⟨h.toTallied.of_eq rfl rfl rfl, anchored_lock h.anchored⟩

theorem counted_unlock {b : Bucket κ ν} {held : Nat → Nat} (h : b.Counted held)
    (hroom : Roomy held) (s : Shared κ ν) : (b.unlock s).1.Counted held :=
  ⟨tallied_unlock h.toTallied hroom s, anchored_unlock h.anchored s⟩

/-! ## Publication -/

/-- A draft in front, and what was in flight folded into the version that it supersedes. -/
def supersede (b : Bucket κ ν) (head : Version κ ν) (older : List (Version κ ν))
    (draft : Version κ ν) : Bucket κ ν :=
  { b with
    word := Reference.word ⟨draft.id, 1⟩
    published := b.published + 1
    chain := draft ::
      { head with internal := head.internal + (b.reference.count - 1).toInt32 } :: older }

theorem publish_cons {b : Bucket κ ν} {head : Version κ ν} {older : List (Version κ ν)}
    (hchain : b.chain = head :: older) (draft : Version κ ν) (s : Shared κ ν) :
    b.publish draft s =
      if head.internal + (b.reference.count - 1).toInt32 = 0
      then (b.supersede head older draft).reclaim s
      else (b.supersede head older draft, s) := by
  unfold publish
  rw [hchain]
  rfl

theorem inFlight_fresh {b : Bucket κ ν} (id : UInt32) (hword : b.word = Reference.word ⟨id, 1⟩) :
    b.inFlight 0 = 0 := by
  rw [inFlight, reference, hword, Reference.ofWord_word]
  show ((1 : UInt32) - 1).toInt32 = 0
  decide

/-- Nobody can hold what has not been published yet. -/
theorem Tallied.held_next {b : Bucket κ ν} {held : Nat → Nat} (h : b.Tallied held) :
    held (b.published + 1) = 0 := by
  by_cases hn : held (b.published + 1) = 0
  · exact hn
  · have := (h.kept _ hn).1
    omega

theorem tallied_supersede {b : Bucket κ ν} {held : Nat → Nat} (h : b.Tallied held)
    {head : Version κ ν} {older : List (Version κ ν)} (hchain : b.chain = head :: older)
    {draft : Version κ ν} (hfresh : draft.internal = 0) :
    (b.supersede head older draft).Tallied held := by
  refine ⟨by simp [supersede], ?_, ?_, ?_⟩
  · have := h.length_le
    rw [hchain] at this
    simp only [supersede, List.length_cons] at this ⊢
    omega
  · intro i v hv
    match i, hv with
    -- the draft: nobody has it yet
    | 0, hv =>
      obtain rfl : draft = v := Option.some.inj hv
      rw [hfresh, inFlight_fresh draft.id rfl]
      show 0 + 0 = Int32.ofNat (held (b.published + 1))
      rw [h.held_next]
      rfl
    -- the version just superseded: what was in flight has been added to it
    | 1, hv =>
      obtain rfl : _ = v := Option.some.inj hv
      have hcount := h.counts 0 head (by rw [hchain]; rfl)
      show _ + 0 = Int32.ofNat (held (b.published + 1 - 1))
      rw [Int32.add_zero, Nat.add_sub_cancel]
      exact hcount
    | i + 2, hv =>
      have hcount := h.counts (i + 1) v (by rw [hchain]; exact hv)
      show v.internal + 0 = Int32.ofNat (held (b.published + 1 - (i + 2)))
      rw [show b.published + 1 - (i + 2) = b.published - (i + 1) by omega]
      exact hcount
  · intro n hn
    have hkeep := h.kept n hn
    have hle := hkeep.1
    have hlt := hkeep.2
    rw [hchain] at hlt
    unfold Keeps
    simp only [supersede, List.length_cons] at hlt ⊢
    omega

/-- A fresh version alone is tallied where there was none: nobody can hold it yet. -/
theorem tallied_first {b : Bucket κ ν} {held : Nat → Nat} (h : b.Tallied held)
    (hchain : b.chain = []) {v : Version κ ν} (hfresh : v.internal = 0) :
    ({ b with
        word := Reference.word ⟨v.id, 1⟩
        published := b.published + 1
        chain := [v] } : Bucket κ ν).Tallied held := by
  refine ⟨by simp, Nat.succ_le_succ (Nat.zero_le _), ?_, ?_⟩
  · intro i w hw
    cases i with
    | zero =>
      obtain rfl : v = w := Option.some.inj hw
      rw [hfresh, inFlight_fresh v.id rfl, h.held_eq_zero hchain]
      rfl
    | succ i => simp at hw
  · intro n hn
    exact absurd (h.held_eq_zero hchain n) hn

/-- Publication folds what is in flight into the version that it supersedes. -/
theorem counted_publish {b : Bucket κ ν} {held : Nat → Nat} (h : b.Counted held)
    (hroom : Roomy held) {draft : Version κ ν} (hid : draft.id ≠ 0)
    (hfresh : draft.internal = 0) (s : Shared κ ν) :
    (b.publish draft s).1.Counted held := by
  refine ⟨?_, anchored_publish b hid s⟩
  cases hchain : b.chain with
  | nil =>
    unfold publish
    rw [hchain]
    exact tallied_first h.toTallied hchain hfresh
  | cons head older =>
    have hfold := tallied_supersede h.toTallied hchain hfresh
    rw [publish_cons hchain]
    split
    · exact tallied_reclaim hfold hroom s
    · exact hfold

/-- The first version of a bucket that nobody knows yet. -/
theorem counted_install {b : Bucket κ ν} {held : Nat → Nat} (h : b.Counted held)
    (hchain : b.chain = []) {v : Version κ ν} (hfresh : v.internal = 0) :
    (b.install v).Counted held :=
  ⟨tallied_first (v := { v with id := 1 }) h.toTallied hchain hfresh, anchored_install b v⟩

/-! ## Readers -/

/-- A claim counts for one more reader of the newest version. -/
theorem tallied_claimed {b : Bucket κ ν} {held : Nat → Nat} (h : b.Counted held)
    (hne : b.chain ≠ []) : b.claimed.Tallied (more held b.published) := by
  have hpos : 1 ≤ b.chain.length := List.length_pos_iff.mpr hne
  have hlen := h.length_le
  refine ⟨h.unpublished, h.length_le, ?_, ?_⟩
  · intro i v hv
    have hold := h.counts i v hv
    -- only the newest version is counted in the word too
    cases i with
    | zero =>
      rw [inFlight, reference_claimed h.anchored hne]
      rw [inFlight] at hold
      show v.internal + (b.reference.count + 1 - 1).toInt32 = Int32.ofNat (more held _ _)
      rw [Nat.sub_zero] at hold ⊢
      have hmore : more held b.published b.claimed.published = held b.published + 1 := if_pos rfl
      rw [hmore, Int32.ofNat_add, ← hold, toInt32_sub, toInt32_sub, toInt32_add]
      have hone : (1 : UInt32).toInt32 = Int32.ofNat 1 := rfl
      rw [hone]
      grind
    | succ i =>
      have hi : i + 1 < b.chain.length := (List.getElem?_eq_some_iff.mp hv).1
      have hother : more held b.published (b.claimed.published - (i + 1))
          = held (b.published - (i + 1)) := if_neg (by show b.published - (i + 1) ≠ _; omega)
      rw [hother]
      exact hold
  · intro n hn
    by_cases hp : n = b.published
    · subst hp
      exact ⟨Nat.le_refl _, by show b.published < b.published + b.chain.length; omega⟩
    · have hother : more held b.published n = held n := if_neg hp
      rw [hother] at hn
      exact h.kept n hn

/-- Moving an amount from one place to the other leaves the sum alone. -/
theorem Tallied.move {b : Bucket κ ν} {held : Nat → Nat} (h : b.Tallied held)
    {head : Version κ ν} {older : List (Version κ ν)} (hchain : b.chain = head :: older)
    {w : UInt64} {x : Int32}
    (hsum : x + ((Reference.ofWord w).count - 1).toInt32 = head.internal + b.inFlight 0) :
    ({ b with word := w, chain := { head with internal := x } :: older } :
      Bucket κ ν).Tallied held := by
  refine ⟨by simp, ?_, ?_, ?_⟩
  · have := h.length_le
    rw [hchain] at this
    exact this
  · intro i v hv
    cases i with
    | zero =>
      obtain rfl : _ = v := Option.some.inj hv
      have hold := h.counts 0 head (by rw [hchain]; rfl)
      rw [← hsum] at hold
      exact hold
    | succ i => exact h.counts (i + 1) v (by rw [hchain]; exact hv)
  · intro n hn
    have hkeep := h.kept n hn
    unfold Keeps at hkeep ⊢
    rw [hchain] at hkeep
    exact hkeep

theorem tallied_transfer {b : Bucket κ ν} {held : Nat → Nat} (h : b.Tallied held)
    (s : Shared κ ν) : (b.transfer s).1.Tallied held := by
  by_cases hlow : b.reference.count < rebalanceAt
  · unfold transfer
    rw [if_pos hlow]
    exact h
  · cases hchain : b.chain with
    | nil =>
      have hsame : b.transfer s = (b, s) := by
        unfold transfer
        rw [if_neg hlow, hchain]
      rw [hsame]
      exact h
    -- what is taken from the word is added to the version, whatever the amount
    | cons head older =>
      have hword : b.word = b.reference.word := (Reference.word_ofWord b.word).symm
      rw [transfer_eq hchain hword (UInt32.not_lt.mp hlow) s]
      refine h.move hchain ?_
      rw [Reference.ofWord_word, inFlight]
      simp only [toInt32_sub]
      generalize rebalanceBy.toInt32 = y
      grind

/-- What an acquisition does, counted: it holds the newest publication or nothing at all. -/
theorem counted_acquire {b : Bucket κ ν} {held : Nat → Nat} (h : b.Counted held)
    (hroom : Roomy (more held b.published)) (s : Shared κ ν) :
    (b.chain = [] ∧ b.acquire s = (.absent, b, s)) ∨
    (b.chain ≠ [] ∧ b.reference.count + 1 = rebalanceAt ∧ b.locked = true ∧
      b.acquire s = (.waits, b, s)) ∨
    (b.chain ≠ [] ∧ (b.acquire s).1 = .held b.published ∧
      (b.acquire s).2.1.Counted (more held b.published)) := by
  have hanch := anchored_acquire h.anchored s
  rcases acquire_cases h.anchored s with
    hcase | hcase | ⟨hne, _, _, hacq⟩ | ⟨hne, _, hacq⟩
  · exact .inl hcase
  · exact .inr (.inl hcase)
  -- the count has come to its bound: claim, move the bulk, unlock
  · rw [hacq] at hanch ⊢
    have hlock : b.claimed.lock.Tallied (more held b.published) :=
      (tallied_claimed h hne).of_eq rfl rfl rfl
    have hmoved := tallied_unlock (tallied_transfer hlock s) hroom (b.claimed.lock.transfer s).2
    exact .inr (.inr ⟨hne, rfl, hmoved, hanch⟩)
  · rw [hacq] at hanch ⊢
    exact .inr (.inr ⟨hne, rfl, tallied_claimed h hne, hanch⟩)

theorem tallied_modifyInternal {b : Bucket κ ν} {held : Nat → Nat} (h : b.Tallied held)
    {n : Nat} (hn : held n ≠ 0) : (b.modifyInternal n (· - 1)).Tallied (fewer held n) := by
  have hlen : (b.modifyInternal n (· - 1)).chain.length = b.chain.length :=
    List.length_modify ..
  have hle := (h.kept n hn).1
  refine ⟨?_, ?_, ?_, ?_⟩
  · intro hnil
    refine h.unpublished (List.eq_nil_iff_length_eq_zero.mpr ?_)
    rw [← hlen, hnil, List.length_nil]
  · rw [hlen]
    exact h.length_le
  · intro i v hv
    have hi : i < b.chain.length := hlen ▸ (List.getElem?_eq_some_iff.mp hv).1
    have hlong := h.length_le
    simp only [modifyInternal, List.getElem?_modify] at hv
    obtain ⟨w, hw, hwv⟩ := Option.map_eq_some_iff.mp hv
    have hold := h.counts i w hw
    show v.internal + b.inFlight i = Int32.ofNat (fewer held n (b.published - i))
    -- the version of `n` has lost one, and all others are as they were
    by_cases hdepth : b.published - n = i
    · rw [if_pos hdepth] at hwv
      have hpub : b.published - i = n := by omega
      have hfewer : fewer held n n = held n - 1 := if_pos rfl
      rw [hpub] at hold
      rw [hpub, hfewer, Int32.ofNat_sub _ _ (by omega), ← hold, ← hwv]
      have hone : Int32.ofNat 1 = 1 := rfl
      rw [hone]
      grind
    · rw [if_neg hdepth] at hwv
      have hother : fewer held n (b.published - i) = held (b.published - i) :=
        if_neg (by omega)
      rw [hother, ← hold, ← hwv]
  · intro m hm
    have hheld : held m ≠ 0 := by
      unfold fewer at hm
      split at hm <;> omega
    have hkeep := h.kept m hheld
    unfold Keeps at hkeep ⊢
    rwa [hlen]

/-- Letting go counts for one reader less. -/
theorem counted_release {b : Bucket κ ν} {held : Nat → Nat} (h : b.Counted held)
    (hroom : Roomy held) {n : Nat} (hn : held n ≠ 0) (s : Shared κ ν) :
    (b.release n s).1.Counted (fewer held n) := by
  refine ⟨?_, anchored_release h.anchored n s⟩
  obtain ⟨v, hv⟩ := version?_of_keeps (h.kept n hn)
  have hdown := tallied_modifyInternal h.toTallied hn
  have hmark : ({ b.modifyInternal n (· - 1) with pending := true } : Bucket κ ν).Tallied
      (fewer held n) := hdown.of_eq rfl rfl rfl
  unfold release
  rw [hv]
  dsimp only
  split
  · exact tallied_servePending hmark (hroom.fewer n) s
  · exact hdown

end Bucket

end VersionedMap
