import Mathlib.Logic.Function.Iterate
import VersionedMap.Proofs.Waiting

/-!
# Counts beyond the bound

The reader that brings the count to its bound takes the lock before it moves the bulk of the
count. While it waits for the lock others go on claiming, so the count that is found under the
lock may be anything from the bound up to what half a word holds.

What is moved is always the same amount. The bucket is **armed** again if what is left is below
the bound: some later claim will then bring the count to its bound, and so on for ever. What is
left of a count of twice the bound is not below it. Later claims do not bring such a count to
its bound but lead away from it, nothing is moved any more, and in the end a claim carries into
the identifier.
-/

namespace VersionedMap

namespace Bucket

variable {κ ν : Type}

/-- The word says `r`, and the newest version is the one that it names. -/
structure Names (b : Bucket κ ν) (r : Reference) : Prop where
  word_eq : b.word = r.word
  newest : (b.chain.map (·.id)).head? = some r.id
  id_ne : r.id ≠ 0

/-- Acquisitions less releases of the newest version and one, over both places. -/
def balance (b : Bucket κ ν) : Int32 :=
  b.reference.count.toInt32 + (b.newest?.map (·.internal)).getD 0

/-! ## What a word names -/

/-- The newest version keeps its identifier until something is published. -/
theorem Shortens.newest {b c : Bucket κ ν} (h : b.Shortens c) :
    (c.chain.map (·.id)).head? = (b.chain.map (·.id)).head? := by
  obtain ⟨rest, hrest⟩ := h.prefix_lasting
  have hids := congrArg (fun l => (l.map (·.id)).head?) hrest
  cases hc : c.chain with
  | nil => rw [h.vacant hc]
  | cons v l => simpa [lasting, hc, List.map_map, Function.comp_def] using hids

namespace Names

variable {b c : Bucket κ ν} {r : Reference}

theorem reference_eq (h : b.Names r) : b.reference = r := by
  rw [reference, h.word_eq, Reference.ofWord_word]

theorem chain_ne (h : b.Names r) : b.chain ≠ [] := fun hnil => by
  have := h.newest
  simp [hnil] at this

theorem exists_cons (h : b.Names r) :
    ∃ head older, b.chain = head :: older ∧ head.id = r.id := by
  obtain ⟨head, older, hchain⟩ := List.exists_cons_of_ne_nil h.chain_ne
  exact ⟨head, older, hchain, by simpa [hchain] using h.newest⟩

/-- Whatever publishes nothing leaves the newest version the one with this identifier. -/
theorem shorten (h : b.Names r) (hshort : b.Shortens c) {count : UInt32}
    (hword : c.word = Reference.word ⟨r.id, count⟩) : c.Names ⟨r.id, count⟩ where
  word_eq := hword
  newest := hshort.newest.trans h.newest
  id_ne := h.id_ne

theorem release (h : b.Names r) (n : Nat) (s : Shared κ ν) : (b.release n s).1.Names r :=
  h.shorten (shortens_release b n s) ((word_release ..).trans h.word_eq)

/-- With room for one more a claim stays in its half of the word. -/
theorem claimed (h : b.Names r) (hroom : r.count.toNat + 1 < 2 ^ 32) :
    b.claimed.Names ⟨r.id, r.count + 1⟩ := by
  have hshort : b.Shortens b.claimed := .of_eq rfl rfl
  refine h.shorten hshort ?_
  show b.word + 1 = _
  rw [h.word_eq, Reference.word_add_one hroom]

/-- Readers go on claiming while the lock is held, whatever the count and whoever waits. -/
theorem claims (h : b.Names r) (k : Nat) (hroom : r.count.toNat + k < 2 ^ 32) :
    (Bucket.claimed^[k] b).Names ⟨r.id, r.count + .ofNat k⟩ := by
  induction k generalizing b r with
  | zero => simpa using h
  | succ k ih =>
    have hnext : (r.count + 1).toNat = r.count.toNat + 1 := by
      rw [UInt32.toNat_add, UInt32.toNat_one]
      omega
    have hrun := ih (h.claimed (by omega)) (by dsimp only; omega)
    rw [Function.iterate_succ_apply, UInt32.ofNat_add, UInt32.add_comm (.ofNat k),
      ← UInt32.add_assoc]
    exact hrun

/-- A count that is positive and below its bound makes for an anchored bucket. -/
theorem anchored (h : b.Names r) (hpos : 1 ≤ r.count.toNat)
    (hlt : r.count.toNat < rebalanceAt.toNat) : b.Anchored := by
  obtain ⟨head, older, hchain, hid⟩ := h.exists_cons
  exact .named head older r.count hchain (hid ▸ h.word_eq) (hid ▸ h.id_ne) hpos hlt

end Names

/-- An anchored bucket with a version names it. -/
theorem Anchored.names {b : Bucket κ ν} (h : b.Anchored) (hne : b.chain ≠ []) :
    b.Names b.reference := by
  cases h with
  | vacant hchain => exact absurd hchain hne
  | named head older count hchain hword hid hpos hlt =>
    have href : b.reference = ⟨head.id, count⟩ := by
      rw [reference, hword, Reference.ofWord_word]
    exact ⟨by rw [href, hword], by rw [href, hchain]; rfl, by rw [href]; exact hid⟩

/-! ## The transfer -/

/-- What is left in the word when the bulk has been moved. -/
theorem toNat_rebalanced {c : UInt32} (h : rebalanceAt ≤ c) :
    (c - rebalanceBy).toNat = c.toNat - rebalanceBy.toNat := by
  have hnat := UInt32.le_iff_toNat_le.mp h
  rw [toNat_rebalanceAt] at hnat
  exact UInt32.toNat_sub_of_le _ _
    (UInt32.le_iff_toNat_le.mpr (by rw [toNat_rebalanceBy]; omega))

section Transfer

variable {b : Bucket κ ν} {r : Reference}

theorem Names.transfer (h : b.Names r) (hcount : rebalanceAt ≤ r.count) (s : Shared κ ν) :
    (b.transfer s).1.Names ⟨r.id, r.count - rebalanceBy⟩ := by
  obtain ⟨head, older, hchain, hid⟩ := h.exists_cons
  refine h.shorten (shortens_transfer b s) ?_
  rw [transfer_eq hchain h.word_eq hcount s]

theorem Names.rebalance (h : b.Names r) (hcount : rebalanceAt ≤ r.count) (s : Shared κ ν) :
    (b.rebalance s).1.Names ⟨r.id, r.count - rebalanceBy⟩ := by
  have hlock : b.lock.Names r := ⟨h.word_eq, h.newest, h.id_ne⟩
  have hmoved := hlock.transfer hcount s
  exact hmoved.shorten (shortens_unlock ..) ((word_unlock ..).trans hmoved.word_eq)

/-- The newest version's own count is nothing that reclamation touches. -/
theorem balance_reclaim (b : Bucket κ ν) (s : Shared κ ν) :
    (b.reclaim s).1.balance = b.balance := by
  unfold balance newest?
  rw [reference_congr (word_reclaim b s), ← List.head?_map, ← List.head?_map]
  unfold Bucket.reclaim
  split
  · rfl
  · next head older hchain => rw [map_endChain (fun _ => rfl), hchain]; rfl

theorem balance_unlock (b : Bucket κ ν) (s : Shared κ ν) :
    (b.unlock s).1.balance = b.balance := by
  unfold unlock servePending
  split
  · rw [balance_reclaim]; rfl
  · rfl

/-- What is taken off the word is added to the version. -/
theorem Names.balance_rebalance (h : b.Names r) (hcount : rebalanceAt ≤ r.count)
    (s : Shared κ ν) : (b.rebalance s).1.balance = b.balance := by
  obtain ⟨head, older, hchain, hid⟩ := h.exists_cons
  have hbefore : b.balance = r.count.toInt32 + head.internal := by
    simp [balance, newest?, hchain, h.reference_eq]
  have hmoved : (b.lock.transfer s).1.balance = b.balance := by
    rw [hbefore, transfer_eq (b := b.lock) hchain h.word_eq hcount s]
    simp only [balance, newest?, reference, Reference.ofWord_word, toInt32_sub, List.head?_cons,
      Option.map_some, Option.getD_some]
    generalize rebalanceBy.toInt32 = y
    grind
  exact (balance_unlock ..).trans hmoved

end Transfer

/-! ## Readers between two publications -/

/-- What a reader does. -/
inductive Turn
  /-- Claims the newest version, and rebalances if that brings the count to its bound. -/
  | acquire
  /-- Lets go of a publication. -/
  | release (n : Nat)

/-- Whether a turn claims something. -/
def Turn.claims : Turn → Bool
  | .acquire => true
  | .release _ => false

/-- The bucket and its pool after a turn. -/
def turn (p : Bucket κ ν × Shared κ ν) : Turn → Bucket κ ν × Shared κ ν
  | .acquire => (p.1.acquire p.2).2
  | .release n => p.1.release n p.2

/-- The bucket and its pool after one turn after another. -/
def turns (p : Bucket κ ν × Shared κ ν) (ts : List Turn) : Bucket κ ν × Shared κ ν :=
  ts.foldl turn p

/-- Armed: the bucket is anchored, the lock is free, and the word names this version. -/
structure Armed (b : Bucket κ ν) (id : UInt32) : Prop where
  anchored : b.Anchored
  chain_ne : b.chain ≠ []
  free : b.locked = false
  id_eq : b.reference.id = id

theorem Armed.count_lt {b : Bucket κ ν} {id : UInt32} (h : b.Armed id) :
    b.reference.count < rebalanceAt := by
  have hne := h.chain_ne
  cases h.anchored with
  | vacant hchain => exact absurd hchain hne
  | named head older count hchain hword hid hpos hlt =>
    rw [reference, hword, Reference.ofWord_word]
    exact UInt32.lt_iff_toNat_lt.mpr hlt

/-- A reader leaves an armed bucket armed, whether it rebalances or not. -/
theorem Armed.turn {p : Bucket κ ν × Shared κ ν} {id : UInt32} (h : p.1.Armed id) (t : Turn) :
    (turn p t).1.Armed id := by
  have hnames := h.anchored.names h.chain_ne
  have keep {c : Bucket κ ν} (hc : c.Anchored) (hshort : p.1.Shortens c)
      (hlock : c.locked = p.1.locked) : c.Armed id := by
    have hne : c.chain ≠ [] := fun hnil => h.chain_ne (hshort.vacant hnil)
    refine ⟨hc, hne, hlock.trans h.free, ?_⟩
    -- an anchored word bears the identifier of the newest version, which is the same
    have hid := (hc.names hne).newest.symm.trans (hshort.newest.trans hnames.newest)
    exact (Option.some.inj hid).trans h.id_eq
  cases t with
  | acquire =>
    exact keep (anchored_acquire h.anchored _) (shortens_acquire h.anchored _)
      (locked_acquire h.anchored _)
  | release n =>
    exact keep (anchored_release h.anchored ..) (shortens_release ..) (locked_release ..)

theorem Armed.turns {p : Bucket κ ν × Shared κ ν} {id : UInt32} (h : p.1.Armed id)
    (ts : List Turn) : (turns p ts).1.Armed id := by
  induction ts generalizing p with
  | nil => exact h
  | cons t ts ih => exact ih (h.turn t)

/-! ## Past the bound -/

/-- Where a claim that stays in its half passes the bound, it goes through like any other. -/
theorem Names.acquire_past {b : Bucket κ ν} {r : Reference} (h : b.Names r)
    (hpast : rebalanceAt ≤ r.count) (hroom : r.count.toNat + 1 < 2 ^ 32) (s : Shared κ ν) :
    b.acquire s = (.held b.published, b.claimed, s) := by
  obtain ⟨head, older, hchain, hid⟩ := h.exists_cons
  have hclaim : b.claimed.reference = ⟨r.id, r.count + 1⟩ := (h.claimed hroom).reference_eq
  have hne : r.count + 1 ≠ rebalanceAt := fun heq => by
    have hnat := congrArg UInt32.toNat heq
    have hle := UInt32.le_iff_toNat_le.mp hpast
    rw [UInt32.toNat_add, UInt32.toNat_one] at hnat
    omega
  have hfind : b.chain.findIdx? (·.id == r.id) = some 0 := by
    rw [hchain, List.findIdx?_cons, if_pos (by rw [hid, beq_self_eq_true])]
  unfold Bucket.claimed at hclaim ⊢
  unfold acquire
  rw [if_neg (by simpa using h.chain_ne)]
  dsimp only
  rw [hclaim, if_neg h.id_ne, hfind]
  dsimp only
  rw [if_pos hne, Nat.sub_zero]

/-- The claim that finds the half full carries into the identifier. -/
theorem Names.claimed_carries {b : Bucket κ ν} {r : Reference} (h : b.Names r)
    (hfull : r.count.toNat + 1 = 2 ^ 32) : b.claimed.reference = ⟨r.id + 1, 0⟩ := by
  have hword : b.claimed.word = Reference.word ⟨r.id + 1, 0⟩ := by
    show b.word + 1 = _
    apply UInt64.toNat_inj.mp
    rw [h.word_eq, UInt64.toNat_add, Reference.toNat_word, Reference.toNat_word,
      UInt32.toNat_add, UInt64.toNat_one, UInt32.toNat_one]
    dsimp only
    rw [UInt32.toNat_zero]
    omega
  rw [reference, hword, Reference.ofWord_word]

/-- What such a claim gets is nothing, unless an older version bears the next identifier. -/
theorem Names.acquire_carries {b : Bucket κ ν} {r : Reference} (h : b.Names r)
    (hfull : r.count.toNat + 1 = 2 ^ 32) (s : Shared κ ν) :
    (b.acquire s).2 = (b.claimed, s) ∧
      ((∀ v ∈ b.chain, v.id ≠ r.id + 1) → (b.acquire s).1 = .absent) := by
  have hclaim := h.claimed_carries hfull
  unfold Bucket.claimed at hclaim ⊢
  unfold acquire
  rw [if_neg (by simpa using h.chain_ne)]
  dsimp only
  rw [hclaim]
  dsimp only
  split
  · exact ⟨rfl, fun _ => rfl⟩
  · split
    · exact ⟨rfl, fun _ => rfl⟩
    -- a version is found, which nobody had published under this identifier
    · next depth hfind =>
      refine ⟨rfl, fun hnone => ?_⟩
      obtain ⟨hlt, hid, _⟩ := List.findIdx?_eq_some_iff_getElem.mp hfind
      exact absurd (by simpa using hid) (hnone _ (List.getElem_mem hlt))

/-- Past the bound each claim counts one more, and no release does anything about it. -/
theorem Names.turns_past {p : Bucket κ ν × Shared κ ν} {r : Reference} (h : p.1.Names r)
    (hpast : rebalanceAt ≤ r.count) (ts : List Turn)
    (hroom : r.count.toNat + ts.countP Turn.claims < 2 ^ 32) :
    (turns p ts).1.Names ⟨r.id, r.count + .ofNat (ts.countP Turn.claims)⟩ ∧
      p.1.Shortens (turns p ts).1 := by
  induction ts generalizing p r with
  | nil => exact ⟨by simpa [turns] using h, .refl _⟩
  | cons t ts ih =>
    cases t with
    | acquire =>
      have hcount : (Turn.acquire :: ts).countP Turn.claims = ts.countP Turn.claims + 1 :=
        List.countP_cons_of_pos rfl
      rw [hcount] at hroom ⊢
      have hone : r.count.toNat + 1 < 2 ^ 32 := by omega
      have hnext : (r.count + 1).toNat = r.count.toNat + 1 := by
        rw [UInt32.toNat_add, UInt32.toNat_one]
        omega
      have hstep : (turn p .acquire).1 = p.1.claimed := by
        show (p.1.acquire p.2).2.1 = _
        rw [h.acquire_past hpast hone]
      have hpast' : rebalanceAt ≤ r.count + 1 := UInt32.le_iff_toNat_le.mpr <| by
        have := UInt32.le_iff_toNat_le.mp hpast
        omega
      have hshort : p.1.Shortens (turn p .acquire).1 := by
        rw [hstep]
        exact .of_eq rfl rfl
      obtain ⟨hnames, hlater⟩ := ih (p := turn p .acquire)
        (by rw [hstep]; exact h.claimed hone) hpast' (by dsimp only; omega)
      rw [UInt32.ofNat_add, UInt32.add_comm (.ofNat _), ← UInt32.add_assoc]
      exact ⟨hnames, hshort.trans hlater⟩
    | release n =>
      have hcount : (Turn.release n :: ts).countP Turn.claims = ts.countP Turn.claims :=
        List.countP_cons_of_neg (by simp [Turn.claims])
      rw [hcount] at hroom ⊢
      obtain ⟨hnames, hlater⟩ := ih (p := turn p (.release n)) (h.release n p.2) hpast hroom
      exact ⟨hnames, (shortens_release ..).trans hlater⟩

/-! ## Whether the bucket is armed again -/

/-- What rebalancing makes of `b`, whose word has come to its bound or beyond. -/
structure Rebalanced (b b' : Bucket κ ν) : Prop where
  /-- The identifier is what it was. -/
  id_eq : b'.reference.id = b.reference.id
  /-- The count has lost the amount that is moved. -/
  count_eq : b'.reference.count.toNat = b.reference.count.toNat - 999000000
  /-- The two places add up to what they did. -/
  balance_eq : b'.balance = b.balance
  /-- The count is below its bound again just if it was not too far beyond. -/
  below_iff : b'.reference.count < rebalanceAt ↔ b.reference.count.toNat < 1999000000
  /-- If it is, then readers keep it there, with the same identifier. -/
  armed : b'.reference.count < rebalanceAt → ∀ (ts : List Turn) (s : Shared κ ν),
    (turns (b', s) ts).1.reference.id = b.reference.id ∧
      (turns (b', s) ts).1.reference.count < rebalanceAt
  /-- If not, then every claim counts, as long as there is room. -/
  grows : rebalanceAt ≤ b'.reference.count → ∀ (ts : List Turn) (s : Shared κ ν),
    b'.reference.count.toNat + ts.countP Turn.claims < 2 ^ 32 →
      (turns (b', s) ts).1.reference.id = b.reference.id ∧
        (turns (b', s) ts).1.reference.count.toNat =
          b'.reference.count.toNat + ts.countP Turn.claims
  /-- The claim that fills it carries into the identifier. -/
  carries : rebalanceAt ≤ b'.reference.count → ∀ (ts : List Turn) (s : Shared κ ν),
    b'.reference.count.toNat + ts.countP Turn.claims + 1 = 2 ^ 32 →
      (turns (b', s) (ts ++ [.acquire])).1.reference = ⟨b.reference.id + 1, 0⟩

theorem turns_append (p : Bucket κ ν × Shared κ ν) (ts us : List Turn) :
    turns p (ts ++ us) = turns (turns p ts) us :=
  List.foldl_append

theorem toNat_add_ofNat {c : UInt32} {k : Nat} (h : c.toNat + k < 2 ^ 32) :
    (c + .ofNat k).toNat = c.toNat + k := by
  rw [UInt32.toNat_add, UInt32.toNat_ofNat']
  omega

/--
**Rebalancing re-arms the bound for counts below `rebalanceAt + rebalanceBy` only.** Whatever
count it finds, the identifier and the sum of the two places stay what they were, and the count
loses the amount that is moved. Up to `1998999999` that leaves it below its bound, where all later
readers keep it. Beyond, no later reader ever rebalances, and the count grows until it carries
into the identifier.
-/
theorem rebalance_rearms {b : Bucket κ ν} {id count : UInt32} (h : b.Names ⟨id, count⟩)
    (hcount : rebalanceAt ≤ count) (s : Shared κ ν) : b.Rebalanced (b.rebalance s).1 := by
  have hnames := h.rebalance hcount s
  have hleft := toNat_rebalanced hcount
  have hbound := UInt32.le_iff_toNat_le.mp hcount
  have href := hnames.reference_eq
  rw [toNat_rebalanceBy] at hleft
  rw [toNat_rebalanceAt] at hbound
  have hsame : b.reference = ⟨id, count⟩ := h.reference_eq
  have hbelow : count - rebalanceBy < rebalanceAt ↔ count.toNat < 1999000000 := by
    rw [UInt32.lt_iff_toNat_lt, hleft, toNat_rebalanceAt]
    omega
  refine {
    id_eq := by rw [href, hsame]
    count_eq := by rw [href, hsame]; exact hleft
    balance_eq := h.balance_rebalance hcount s
    below_iff := by rw [href, hsame]; exact hbelow
    armed := fun hlt ts s' => ?_
    grows := fun hge ts s' hroom => ?_
    carries := fun hge ts s' hfull => ?_ }
  · rw [href] at hlt
    have harmed : (b.rebalance s).1.Armed id :=
      ⟨hnames.anchored (by dsimp only; omega) (UInt32.lt_iff_toNat_lt.mp hlt), hnames.chain_ne,
        locked_unlock .., by rw [href]⟩
    have hrun := Armed.turns (p := ((b.rebalance s).1, s')) harmed ts
    exact ⟨hrun.id_eq.trans (by rw [hsame]), hrun.count_lt⟩
  · rw [href] at hge hroom
    have hrun := (Names.turns_past (p := ((b.rebalance s).1, s')) hnames hge ts hroom).1
    rw [hrun.reference_eq, href, hsame]
    exact ⟨rfl, toNat_add_ofNat hroom⟩
  · rw [href] at hge hfull
    have hrun := (Names.turns_past (p := ((b.rebalance s).1, s')) hnames hge ts
      (Nat.lt_of_succ_le (Nat.le_of_eq hfull))).1
    dsimp only at hfull hrun
    have hlast : (count - rebalanceBy + .ofNat (ts.countP Turn.claims)).toNat + 1 = 2 ^ 32 := by
      rw [toNat_add_ofNat (by omega), hfull]
    rw [turns_append, hsame]
    show (Bucket.acquire _ _).2.1.reference = _
    rw [(hrun.acquire_carries hlast _).1, hrun.claimed_carries hlast]

/-- A bucket with one item, whose word cannot count another reader. -/
theorem rebalance_rearms_full :
    let b : Bucket Nat Nat :=
      { chain := [Version.push { stamp := 0, id := 1, internal := -7 } ⟨1, 1, 10⟩]
        word := Reference.word ⟨1, 4294967295⟩
        published := 1 }
    b.Names ⟨1, 4294967295⟩ ∧ b.Rebalanced (b.rebalance {}).1 :=
  have hnames : Names _ ⟨1, 4294967295⟩ := ⟨rfl, rfl, by decide⟩
  ⟨hnames, rebalance_rearms hnames (by decide) {}⟩

/-! ## Too many readers -/

/-- A bucket with one item that has just been installed. -/
def fresh : Bucket Nat Nat := (Bucket.installItems {} [⟨1, 1, 10⟩] {}).1

/-- The bucket once `k` readers have claimed its version under a lock that is free again. -/
def crowded (k : Nat) : Bucket Nat Nat := ((claimed^[k] fresh.lock).unlock {}).1

theorem names_crowded {k : Nat} (hk : 1 + k < 2 ^ 32) : (crowded k).Names ⟨1, 1 + .ofNat k⟩ := by
  have hfresh : fresh.lock.Names ⟨1, 1⟩ := ⟨rfl, rfl, by decide⟩
  have hclaims := hfresh.claims k hk
  exact hclaims.shorten (shortens_unlock ..) ((word_unlock ..).trans hclaims.word_eq)

/-- Claims leave the chain of a fresh bucket what it is. -/
theorem shortens_crowded (k : Nat) : fresh.Shortens (crowded k) := by
  have hclaims : fresh.lock.Shortens (claimed^[k] fresh.lock) := by
    induction k with
    | zero => exact .refl _
    | succ k ih =>
      rw [Function.iterate_succ_apply']
      exact ih.trans (.of_eq rfl rfl)
  exact ((shortens_lock fresh).trans hclaims).trans (shortens_unlock ..)

/-- All versions of a bucket that was fresh, with nothing published since, have the identifier. -/
theorem Shortens.id_fresh {b : Bucket Nat Nat} (h : fresh.Shortens b) :
    ∀ v ∈ b.chain, v.id ≠ 1 + 1 := by
  intro v hv
  have hmem : v.lasting ∈ fresh.lasting := h.prefix_lasting.subset (List.mem_map_of_mem hv)
  have hone : ∀ w ∈ fresh.lasting, w.id ≠ 1 + 1 := by decide
  exact hone v.lasting hmem

/-- From a count of `c` that leaves more than the bound, after as many readers as there is room. -/
theorem crowded_carries {k n : Nat} (hk : 1 + k < 2 ^ 32) (hpast : 1999000000 ≤ 1 + k)
    (hn : 1 + k - 999000000 + n + 1 = 2 ^ 32) :
    let later := turns ((crowded k).rebalance {}) (List.replicate n .acquire)
    later.1.items = fresh.items ∧ (later.1.acquire later.2).1 = .absent ∧
      (later.1.acquire later.2).2.1.reference = ⟨2, 0⟩ := by
  have hcount : (1 + UInt32.ofNat k).toNat = 1 + k := toNat_add_ofNat hk
  have hat : rebalanceAt ≤ 1 + UInt32.ofNat k := by
    rw [UInt32.le_iff_toNat_le, hcount, toNat_rebalanceAt]
    omega
  have hleft := toNat_rebalanced hat
  rw [hcount, toNat_rebalanceBy] at hleft
  have hstill : rebalanceAt ≤ 1 + UInt32.ofNat k - rebalanceBy := by
    rw [UInt32.le_iff_toNat_le, hleft, toNat_rebalanceAt]
    omega
  have hclaims : (List.replicate n Turn.acquire).countP Turn.claims = n := by
    rw [List.countP_replicate, if_pos (show Turn.acquire.claims = true from rfl)]
  obtain ⟨hnames, hshort⟩ := ((names_crowded hk).rebalance hat {}).turns_past
    (p := (crowded k).rebalance {}) hstill (List.replicate n .acquire)
    (by rw [hclaims]; dsimp only; omega)
  have hsame := ((shortens_crowded k).trans (shortens_rebalance _ _)).trans hshort
  have hfull : (1 + UInt32.ofNat k - rebalanceBy +
      .ofNat ((List.replicate n Turn.acquire).countP Turn.claims)).toNat + 1 = 2 ^ 32 := by
    rw [hclaims, toNat_add_ofNat (by omega), hleft, hn]
  obtain ⟨hbucket, habsent⟩ := hnames.acquire_carries hfull
    (turns ((crowded k).rebalance {}) (List.replicate n .acquire)).2
  refine ⟨?_, habsent hsame.id_fresh, ?_⟩
  · rw [items_eq_current, hsame.current, ← items_eq_current]
  · rw [hbucket, hnames.claimed_carries hfull]
    rfl

/--
Of a count of twice the bound the transfer leaves more than the bound. Some `3.3 * 10 ^ 9` readers
later one finds nothing, although the bucket has its item still, and leaves a word that names a
version which has never been published.
-/
theorem rebalance_leaves_unarmed :
    (crowded 1999999999).reference = ⟨1, 2000000000⟩ ∧
    ¬ ((crowded 1999999999).rebalance {}).1.reference.count < rebalanceAt ∧
    let later := turns ((crowded 1999999999).rebalance {}) (List.replicate 3293967295 .acquire)
    later.1.items = fresh.items ∧ (later.1.acquire later.2).1 = .absent ∧
      (later.1.acquire later.2).2.1.reference = ⟨2, 0⟩ := by
  have hnames := names_crowded (k := 1999999999) (by decide)
  refine ⟨hnames.reference_eq, ?_, crowded_carries (by decide) (by decide) (by decide)⟩
  rw [(hnames.rebalance (by decide) {}).reference_eq]
  decide

end Bucket

end VersionedMap
