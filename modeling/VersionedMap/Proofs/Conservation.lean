import VersionedMap.Proofs.Snapshots
import VersionedMap.Proofs.Workshop

/-!
# Versions are conserved

A version that has been allocated is in one place ever after: idle, in the chain of one bucket, the
draft of one bucket, in hand, or gone. It goes where a writer ends without publishing its draft,
with its bucket, or for want of room in the pool, and does not come back. The allocations are
counted by what is in these places.

What is idle has been emptied, and no link leads there: whoever starts from the newest version of a
bucket, from a draft, or from what a reader holds, stays within that bucket.
-/

namespace VersionedMap

variable {κ ν α β : Type}

open Bucket

/-- Nothing is left of an earlier use. -/
structure Version.Cleared (v : Version κ ν) : Prop where
  id : v.id = 0
  internal : v.internal = 0
  prev : v.prev = none
  items : v.items = []

theorem Version.cleared_of_reset {v : Version κ ν} (h : v.reset = v) : v.Cleared where
  id := (congrArg (·.id) h).symm
  internal := (congrArg (·.internal) h).symm
  prev := (congrArg (·.prev) h).symm
  items := by rw [← h, Version.items_reset]

namespace Bench

/-- Where somebody may start from: the newest version, a draft, and what readers hold. -/
def roots (b : Bench κ ν) : List Nat :=
  b.bucket.newest?.toList.map (·.stamp) ++ b.drafted ++
    (b.readers.values.filterMap b.bucket.version?).map (·.stamp)

theorem mem_of_mem_roots {b : Bench κ ν} {x : Nat} (hx : x ∈ b.roots) :
    x ∈ b.chained ++ b.drafted := by
  unfold roots at hx
  rcases List.mem_append.mp hx with hx | hx
  · rcases List.mem_append.mp hx with hx | hx
    · obtain ⟨v, hv, rfl⟩ := List.mem_map.mp hx
      have hhead : b.bucket.chain.head? = some v := Option.mem_toList.mp hv
      exact List.mem_append_left _ (List.mem_map.mpr ⟨v, List.mem_of_head? hhead, rfl⟩)
    · exact List.mem_append_right _ hx
  · obtain ⟨v, hv, rfl⟩ := List.mem_map.mp hx
    obtain ⟨n, _, hn⟩ := List.mem_filterMap.mp hv
    exact List.mem_append_left _ (List.mem_map.mpr ⟨v, List.mem_of_getElem? hn, rfl⟩)

end Bench

namespace Workshop

/-- Where a version can be. -/
inductive Place
  | idle
  /-- In the chain of bucket `i`. -/
  | chain (i : Nat)
  /-- In the hands of the writer of bucket `i`. -/
  | draft (i : Nat)
  /-- In hand, under the number `e`. -/
  | hand (e : Nat)
  | gone

/-- The version with stamp `x` is in a place. -/
def At (w : Workshop κ ν) (x : Nat) : Place → Prop
  | .idle => x ∈ w.idle
  | .chain i => ∃ b, w.benches[i]? = some b ∧ x ∈ b.chained
  | .draft i => ∃ b, w.benches[i]? = some b ∧ x ∈ b.drafted
  | .hand e => ∃ v, w.held.get? e = some v ∧ v.stamp = x
  | .gone => x ∉ w.idle ++ w.inUse

/-- All versions there are. -/
def versions (w : Workshop κ ν) : List (Version κ ν) :=
  w.pool.idle.toList ++
    (w.benches.flatMap (fun b => b.bucket.chain ++ b.holder.draft.toList) ++ w.held.values)

/-- The version with stamp `x` is linked to the one with stamp `y`. -/
def Names (w : Workshop κ ν) (x y : Nat) : Prop := ∃ v ∈ w.versions, v.stamp = x ∧ v.prev = some y

/-- From `x` one gets to `y` by links. -/
def Reaches (w : Workshop κ ν) : Nat → Nat → Prop := Relation.ReflTransGen w.Names

variable {w : Workshop κ ν}

/-! ## One place for each -/

/-- An element that only one of several disjoint lists can have. -/
theorem index_unique {f : α → List β} {l : List α} (h : (l.flatMap f).Nodup) {i j : Nat} {a b : α}
    (hi : l[i]? = some a) (hj : l[j]? = some b) {x : β} (hx : x ∈ f a) (hx' : x ∈ f b) : i = j := by
  have happart := (List.nodup_flatMap.mp h).2
  obtain ⟨hi', rfl⟩ := List.getElem?_eq_some_iff.mp hi
  obtain ⟨hj', rfl⟩ := List.getElem?_eq_some_iff.mp hj
  rcases Nat.lt_trichotomy i j with hlt | heq | hlt
  · exact absurd hx' (List.pairwise_iff_getElem.mp happart i j hi' hj' hlt hx)
  · exact heq
  · exact absurd hx (List.pairwise_iff_getElem.mp happart j i hj' hi' hlt hx')

theorem mem_chained {i : Nat} {b : Bench κ ν} (hb : w.benches[i]? = some b) {x : Nat}
    (hx : x ∈ b.chained) : x ∈ w.chained :=
  List.mem_flatMap.mpr ⟨b, List.mem_of_getElem? hb, hx⟩

theorem mem_drafted {i : Nat} {b : Bench κ ν} (hb : w.benches[i]? = some b) {x : Nat}
    (hx : x ∈ b.drafted) : x ∈ w.drafted :=
  List.mem_flatMap.mpr ⟨b, List.mem_of_getElem? hb, hx⟩

/-- No version is in two places, or twice in one. -/
theorem Sound.once (h : w.Sound) : (w.idle ++ w.chained ++ w.drafted ++ w.inHand).Nodup := by
  have hnodup := h.accounts.nodup
  unfold inUse at hnodup
  rwa [← List.append_assoc, ← List.append_assoc] at hnodup

/-- Whatever there is, is there once. -/
theorem Sound.nodup (h : w.Sound) : (w.versions.map (·.stamp)).Nodup := by
  have hbench : (w.benches.flatMap fun b => b.bucket.chain ++ b.holder.draft.toList).map (·.stamp)
      = w.benches.flatMap fun b => b.chained ++ b.drafted := by
    rw [List.map_flatMap]
    refine List.flatMap_congr fun b _ => ?_
    rw [List.map_append]
    rfl
  unfold versions
  rw [List.map_append, List.map_append, hbench]
  exact ((perm_inUse w).append_left w.idle).nodup_iff.mp h.accounts.nodup

theorem eq_of_stamp (h : w.Sound) {u v : Version κ ν} (hu : u ∈ w.versions) (hv : v ∈ w.versions)
    (hstamp : u.stamp = v.stamp) : u = v :=
  List.inj_on_of_nodup_map h.nodup hu hv hstamp

theorem chain_subset {b : Bench κ ν} (hb : b ∈ w.benches) {v : Version κ ν}
    (hv : v ∈ b.bucket.chain) : v ∈ w.versions :=
  List.mem_append_right _ (List.mem_append_left _
    (List.mem_flatMap.mpr ⟨b, hb, List.mem_append_left _ hv⟩))

theorem draft_subset {b : Bench κ ν} (hb : b ∈ w.benches) {v : Version κ ν}
    (hv : b.holder.draft = some v) : v ∈ w.versions :=
  List.mem_append_right _ (List.mem_append_left _
    (List.mem_flatMap.mpr ⟨b, hb, List.mem_append_right _ (Option.mem_toList.mpr hv)⟩))

/-- Every version is somewhere, if only among those that are gone. -/
theorem exists_place (w : Workshop κ ν) (x : Nat) (hnumbers : w.held.numbers.Nodup) :
    ∃ p, w.At x p := by
  by_cases hgone : x ∈ w.idle ++ w.inUse
  · rcases List.mem_append.mp hgone with hx | hx
    · exact ⟨.idle, hx⟩
    · rcases List.mem_append.mp hx with hx | hx
      · rcases List.mem_append.mp hx with hx | hx
        · obtain ⟨b, hb, hx⟩ := List.mem_flatMap.mp hx
          obtain ⟨i, hi⟩ := List.mem_iff_getElem?.mp hb
          exact ⟨.chain i, b, hi, hx⟩
        · obtain ⟨b, hb, hx⟩ := List.mem_flatMap.mp hx
          obtain ⟨i, hi⟩ := List.mem_iff_getElem?.mp hb
          exact ⟨.draft i, b, hi, hx⟩
      · obtain ⟨v, hv, rfl⟩ := List.mem_map.mp hx
        obtain ⟨⟨e, u⟩, he, rfl⟩ := List.mem_map.mp hv
        exact ⟨.hand e, u, Numbered.get?_of_mem hnumbers he, rfl⟩
  · exact ⟨.gone, hgone⟩

/-- Two things held under two numbers are two versions. -/
theorem hand_unique (h : w.Sound) {e e' : Nat} {v v' : Version κ ν} (hv : w.held.get? e = some v)
    (hv' : w.held.get? e' = some v') (hstamp : v.stamp = v'.stamp) : e = e' := by
  have hnodup : w.inHand.Nodup := (List.nodup_append.mp h.once).2.1
  have hmap : (w.held.toList.map fun a => a.2.stamp).Nodup := by
    have hcomp : w.inHand = w.held.toList.map fun a => a.2.stamp := List.map_map
    rwa [hcomp] at hnodup
  have heq := List.inj_on_of_nodup_map hmap (Numbered.mem_of_get? hv) (Numbered.mem_of_get? hv')
    hstamp
  exact congrArg Prod.fst heq

/-- No version is in two places. -/
theorem place_unique (h : w.Sound) {x : Nat} {p q : Place} (hp : w.At x p) (hq : w.At x q) :
    p = q := by
  have honce := h.once
  rw [List.nodup_append, List.nodup_append, List.nodup_append] at honce
  obtain ⟨⟨⟨_, hchained, hidle⟩, hdrafted, hdraft⟩, _, hhand⟩ := honce
  -- what is in the places of one kind, and what is gone
  have hin {p : Place} (hp : w.At x p) : match p with
      | .idle => x ∈ w.idle
      | .chain _ => x ∈ w.chained
      | .draft _ => x ∈ w.drafted
      | .hand _ => x ∈ w.inHand
      | .gone => x ∉ w.idle ∧ x ∉ w.chained ∧ x ∉ w.drafted ∧ x ∉ w.inHand := by
    cases p with
    | idle => exact hp
    | chain i =>
      obtain ⟨b, hb, hx⟩ := hp
      exact mem_chained hb hx
    | draft i =>
      obtain ⟨b, hb, hx⟩ := hp
      exact mem_drafted hb hx
    | hand e =>
      obtain ⟨v, hv, rfl⟩ := hp
      exact List.mem_map.mpr ⟨v, Numbered.mem_values hv, rfl⟩
    | gone =>
      have hnone : x ∉ w.idle ++ w.inUse := hp
      simpa [inUse] using hnone
  have hp' := hin hp
  have hq' := hin hq
  -- two places of one kind have one number, and two kinds of places share nothing
  cases p <;> cases q
  case chain.chain i j =>
    obtain ⟨b, hb, hx⟩ := hp
    obtain ⟨b', hb', hx'⟩ := hq
    rw [index_unique hchained hb hb' hx hx']
  case draft.draft i j =>
    obtain ⟨b, hb, hx⟩ := hp
    obtain ⟨b', hb', hx'⟩ := hq
    rw [index_unique hdrafted hb hb' hx hx']
  case hand.hand e e' =>
    obtain ⟨v, hv, rfl⟩ := hp
    obtain ⟨v', hv', hstamp⟩ := hq
    rw [hand_unique h hv hv' hstamp.symm]
  all_goals grind

/-! ## Where links lead -/

/-- Links lead from a bucket and its draft to nothing outside. -/
theorem mem_of_names (h : w.Sound) {b : Bench κ ν} (hb : b ∈ w.benches) {x y : Nat}
    (hx : x ∈ b.chained ++ b.drafted) (hname : w.Names x y) : y ∈ b.chained := by
  obtain ⟨v, hv, rfl, hprev⟩ := hname
  rcases List.mem_append.mp hx with hx | hx
  · obtain ⟨u, hu, hstamp⟩ := List.mem_map.mp hx
    obtain rfl := eq_of_stamp h (chain_subset hb hu) hv hstamp
    exact (h.woven b hb).chain.prev_mem hu hprev
  · obtain ⟨u, hu, hstamp⟩ := List.mem_map.mp hx
    have hdraft : b.holder.draft = some u := Option.mem_toList.mp hu
    obtain rfl := eq_of_stamp h (draft_subset hb hdraft) hv hstamp
    have hfront : u.prev = b.bucket.newest?.map (·.stamp) := (h.woven b hb).draft u hdraft
    rw [hfront] at hprev
    obtain ⟨head, hhead, rfl⟩ := Option.map_eq_some_iff.mp hprev
    exact List.mem_map.mpr ⟨head, List.mem_of_head? hhead, rfl⟩

theorem mem_of_reaches (h : w.Sound) {b : Bench κ ν} (hb : b ∈ w.benches) {x y : Nat}
    (hx : x ∈ b.roots) (hreach : w.Reaches x y) : y ∈ b.chained ++ b.drafted := by
  induction hreach with
  | refl => exact Bench.mem_of_mem_roots hx
  | tail _ hname ih => exact List.mem_append_left _ (mem_of_names h hb ih hname)

theorem not_idle_of_mem (h : w.Sound) {b : Bench κ ν} (hb : b ∈ w.benches) {x : Nat}
    (hx : x ∈ b.chained ++ b.drafted) : x ∉ w.idle := by
  refine h.accounts.not_idle ((perm_inUse w).mem_iff.mpr (List.mem_append_left _ ?_))
  exact List.mem_flatMap.mpr ⟨b, hb, hx⟩

/-! ## Readers -/

/-- A command that sets no counts, where nothing is crowded. -/
def Fair (w : Workshop κ ν) : Command κ ν → Prop
  | .bucket i c =>
    ∀ b, w.benches[i]? = some b → (b.session w.shared).Uncrowded ∧ c.setsCounts = false
  | .pool _ | .dismiss _ => True

theorem fair_bucket {i : Nat} {c : Bucket.Command κ ν}
    (h : ∀ b ∈ w.benches, b.readers.toList.length < 2 ^ 31) (hc : c.setsCounts = false) :
    w.Fair (.bucket i c) :=
  fun b hb => ⟨Session.uncrowded_of_length (h b (List.mem_of_getElem? hb)), hc⟩

/-- Every command is fair when its turn comes. -/
def Calm (w : Workshop κ ν) : List (Command κ ν) → Prop
  | [] => True
  | c :: cs => w.Fair c ∧ (w.step c).Calm cs

/-- Every bucket keeps what its readers hold. -/
def Manned (w : Workshop κ ν) : Prop := ∀ b ∈ w.benches, (b.session w.shared).Sound

/-- What a bench is like does not depend on the pool, as long as that is clean. -/
theorem sound_session {b : Bench κ ν} {s t : Shared κ ν} (h : (b.session s).Sound)
    (hclean : t.pool.IsClean) : (b.session t).Sound :=
  ⟨h.orderly, h.locked_eq, hclean, h.draft, h.distinct⟩

theorem manned_new (capacity n : Nat) : (new capacity n : Workshop κ ν).Manned := by
  intro b hb
  rw [List.eq_of_mem_replicate hb]
  exact Session.sound_new Pool.isClean_new

/-- A bench in place of another, and the pool as that leaves it. -/
theorem Manned.set (h : w.Manned) {i : Nat} {b : Bench κ ν} {shared : Shared κ ν}
    (hb : (b.session shared).Sound) : Manned { w with shared, benches := w.benches.set i b } := by
  intro a ha
  rcases List.mem_or_eq_of_mem_set ha with ha | rfl
  · exact sound_session (h a ha) hb.clean
  · exact hb

theorem manned_step (hw : w.Sound) (h : w.Manned) {c : Command κ ν} (hfair : w.Fair c) :
    (w.step c).Manned := by
  cases c with
  | bucket i c =>
    cases hb : w.benches[i]? with
    | none =>
      dsimp only [step]
      rw [hb]
      exact h
    | some b =>
      obtain ⟨hroom, hcounts⟩ := hfair b hb
      rw [step_bucket hb]
      exact h.set (Session.sound_step (h b (List.mem_of_getElem? hb)) hroom hcounts)
  | pool c =>
    have hclean := (sound_step hw (.pool c)).1.kempt.clean
    exact fun b hb => sound_session (h b hb) hclean
  | dismiss i =>
    have hclean := (sound_step hw (.dismiss i)).1.kempt.clean
    dsimp only [step] at hclean ⊢
    split
    · exact h
    · rename_i b hb
      rw [hb] at hclean
      dsimp only at hclean
      split
      · rename_i hfree
        rw [if_pos hfree] at hclean
        have hnew : (({} : Bench κ ν).session { pool := {} }).Sound :=
          Session.sound_new Pool.isClean_new
        exact h.set (sound_session hnew hclean)
      · exact h

theorem Manned.run (h : w.Manned) (hw : w.Sound) {cs : List (Command κ ν)} (hcs : w.Calm cs) :
    (w.run cs).Manned := by
  induction cs generalizing w with
  | nil => exact h
  | cons c cs ih => exact ih (manned_step hw h hcs.1) (sound_step hw c).1 hcs.2

/-- What a reader holds is in the chain. -/
theorem Manned.version? (h : w.Manned) {b : Bench κ ν} (hb : b ∈ w.benches) {r n : Nat}
    (hr : b.readers.get? r = some n) :
    n ≤ b.bucket.published ∧ ∃ v, b.bucket.version? n = some v := by
  have hkeeps := (h b hb).keeps (Numbered.mem_values hr)
  exact ⟨hkeeps.1, version?_of_keeps hkeeps⟩

/-- A bench after a command, as long as it is the same bench. -/
theorem lasts_step (c : Command κ ν) {i : Nat} {b b' : Bench κ ν} (hb : w.benches[i]? = some b)
    (hb' : (w.step c).benches[i]? = some b') :
    (b.site w.pool).Lasts (b'.site w.pool) ∨ b'.readers = .empty := by
  rcases step_at hb' with ⟨hsame, _⟩ | ⟨a, d, ha, _, rfl⟩ | ⟨_, _, _, _, rfl⟩
  · rw [hb] at hsame
    obtain rfl := Option.some.inj hsame
    exact .inl (.refl _)
  · rw [hb] at ha
    obtain rfl := Option.some.inj ha
    have hlasts := (works_bench b w.shared d).lasts
    exact .inl ⟨hlasts.published_le, hlasts.version⟩
  · exact .inr rfl

/-! ## The account -/

/-- Every version is in one place, and what is idle is out of reach. -/
structure Conserves (w : Workshop κ ν) (capacity : Nat) : Prop where
  /-- A version that has ever been handed out is in exactly one place. -/
  placed : ∀ x < w.pool.allocated, ∃! p, w.At x p
  /-- It is there once, and so never twice in the pool. -/
  once : (w.idle ++ w.chained ++ w.drafted ++ w.inHand).Nodup
  /-- There are no other versions. -/
  allocated : ∀ x ∈ w.idle ++ w.chained ++ w.drafted ++ w.inHand, x < w.pool.allocated
  /-- The allocations are what is idle, chained, held and dropped. -/
  sum : w.pool.allocated = w.idle.length + w.chained.length
    + (w.drafted.length + w.inHand.length) + w.pool.dropped
  /-- The pool has room for what it holds. -/
  bounded : w.idle.length ≤ capacity
  /-- What is idle has been emptied. -/
  cleared : ∀ v ∈ w.pool.idle, v.Cleared
  /-- What is taken next is empty. -/
  taken : w.pool.take.1.Cleared
  /-- From a bucket, its draft and its readers one gets to nothing that is idle or elsewhere. -/
  reached : ∀ b ∈ w.benches, ∀ x ∈ b.roots, ∀ y, w.Reaches x y →
    y ∈ b.chained ++ b.drafted ∧ y ∉ w.idle

/-- What a command does to the places of versions. -/
structure Conveys (w : Workshop κ ν) (c : Command κ ν) : Prop where
  /-- What is lost is lost for one of three reasons. -/
  lost : ∀ x ∈ w.idle ++ w.inUse, (w.step c).At x .gone → w.Loses c x
  /-- What is gone does not come back. -/
  gone : ∀ x < w.pool.allocated, w.At x .gone → (w.step c).At x .gone

/-- What a reader holds stays in its chain, and is not idle. -/
structure Guards (w : Workshop κ ν) : Prop where
  kept : ∀ b ∈ w.benches, ∀ r n, b.readers.get? r = some n →
    ∃ v, b.bucket.version? n = some v ∧ v.stamp ∈ b.chained ∧ v.stamp ∉ w.idle
  /-- It is the same allocation for as long as it is held. -/
  same : ∀ c, w.Fair c → ∀ (i : Nat) (b b' : Bench κ ν) (r n : Nat),
    w.benches[i]? = some b → (w.step c).benches[i]? = some b' →
    b.readers.get? r = some n → b'.readers.get? r = some n →
    (b'.bucket.version? n).map (·.stamp) = (b.bucket.version? n).map (·.stamp)

theorem Sound.conserves (h : w.Sound) : w.Conserves w.pool.capacity where
  placed x _ := by
    obtain ⟨p, hp⟩ := exists_place w x h.hand.numbers
    exact ⟨p, hp, fun q hq => place_unique h hq hp⟩
  once := h.once
  allocated x hx := by
    refine h.accounts.lt ?_
    unfold inUse
    rwa [← List.append_assoc, ← List.append_assoc]
  sum := by
    obtain ⟨gone, hperm, hgone⟩ := h.accounts
    have hlength := hperm.length_eq
    have hidle : w.idle.length = w.pool.stamps.length := rfl
    simp only [inUse, List.length_append, List.length_range] at hlength
    omega
  bounded := by
    rw [length_idle]
    exact h.kempt.size_le
  cleared v hv := Version.cleared_of_reset (h.kempt.clean v hv)
  taken := Version.cleared_of_reset h.kempt.clean.reset_take
  reached b hb x hx y hreach := by
    have hmem := mem_of_reaches h hb hx hreach
    exact ⟨hmem, not_idle_of_mem h hb hmem⟩

theorem Sound.conveys (h : w.Sound) (c : Command κ ν) : w.Conveys c := by
  obtain ⟨lost, htrades, hlost⟩ := (sound_step h c).2
  constructor
  · intro x hx hgone
    -- what was there and is not is among what has been lost
    have hafter : x ∈ (w.step c).idle ++ (w.step c).inUse ++ lost :=
      htrades.perm.mem_iff.mpr (List.mem_append_left _ hx)
    rcases List.mem_append.mp hafter with hstill | hlost'
    · exact absurd hstill hgone
    · exact hlost x hlost'
  · intro x hx hgone hback
    -- only what is newly allocated comes out of nowhere
    have hbefore := htrades.perm.mem_iff.mp (List.mem_append_left lost hback)
    rcases List.mem_append.mp hbefore with hwas | hnew
    · exact hgone hwas
    · have hge := (List.mem_range'_1.mp hnew).1
      omega

theorem Manned.guards (h : w.Manned) (hw : w.Sound) : w.Guards where
  kept b hb r n hr := by
    obtain ⟨_, v, hv⟩ := h.version? hb hr
    have hmem : v.stamp ∈ b.chained := List.mem_map.mpr ⟨v, List.mem_of_getElem? hv, rfl⟩
    exact ⟨v, hv, hmem, not_idle_of_mem hw hb (List.mem_append_left _ hmem)⟩
  same c hfair i b b' r n hb hb' hr hr' := by
    obtain ⟨hle, v, hv⟩ := h.version? (List.mem_of_getElem? hb) hr
    obtain ⟨_, v', hv'⟩ := (manned_step hw h hfair).version? (List.mem_of_getElem? hb') hr'
    rcases lasts_step c hb hb' with hlasts | hnone
    · obtain ⟨u, hu, hstamp, _⟩ := hlasts.version hle hv'
      show (b'.bucket.version? n).map (·.stamp) = _
      rw [hv', show b.bucket.version? n = some u from hu]
      exact congrArg some hstamp.symm
    · rw [hnone] at hr'
      cases hr'

theorem capacity_run (h : w.Sound) (cs : List (Command κ ν)) :
    (w.run cs).pool.capacity = w.pool.capacity := by
  induction cs generalizing w with
  | nil => rfl
  | cons c cs ih =>
    obtain ⟨hsound, lost, htrades, _⟩ := sound_step h c
    exact (ih hsound).trans htrades.capacity_eq

/--
**Versions are conserved and never shared.**

Whatever is done with any number of buckets and the pool that they share, every version that was
ever handed out is in exactly one place; one that is lost is lost with an unpublished draft, with
its bucket or to a full pool, and is lost for good. As long as nothing is crowded, what a reader
holds is kept from the pool too.
-/
theorem versions_conserved (capacity n : Nat) (cs : List (Command κ ν)) :
    ((new capacity n).run cs).Conserves capacity ∧ (∀ c, ((new capacity n).run cs).Conveys c) ∧
      ((new capacity n).Calm cs → ((new capacity n).run cs).Guards) := by
  have hnew := sound_new (κ := κ) (ν := ν) capacity n
  have hsound := hnew.run cs
  refine ⟨?_, hsound.conveys, fun hcalm => ((manned_new capacity n).run hnew hcalm).guards hsound⟩
  have hconserves := hsound.conserves
  rwa [capacity_run hnew cs] at hconserves

theorem versions_conserved_full_pool :
    let w : Workshop Nat Nat := (new 1 2).run
      [.bucket 0 .wipe, .bucket 0 (.acquire 0), .bucket 0 .wipe, .bucket 0 .wipe, .bucket 1 .wipe,
        .pool (.take 0), .bucket 0 (.release 0), .bucket 0 (.acquire 1), .pool (.put 0),
        .bucket 1 .lock, .bucket 1 .draftEmpty, .bucket 1 .unlock]
    w.idle = [] ∧ w.chained = [2, 3] ∧ w.pool.dropped = 3 ∧ w.Conserves 1 ∧ w.Guards := by
  have hcalm : (new 1 2 : Workshop Nat Nat).Calm
      [.bucket 0 .wipe, .bucket 0 (.acquire 0), .bucket 0 .wipe, .bucket 0 .wipe, .bucket 1 .wipe,
        .pool (.take 0), .bucket 0 (.release 0), .bucket 0 (.acquire 1), .pool (.put 0),
        .bucket 1 .lock, .bucket 1 .draftEmpty, .bucket 1 .unlock] :=
    ⟨fair_bucket (by decide) rfl, fair_bucket (by decide) rfl, fair_bucket (by decide) rfl,
      fair_bucket (by decide) rfl, fair_bucket (by decide) rfl, trivial,
      fair_bucket (by decide) rfl, fair_bucket (by decide) rfl, trivial,
      fair_bucket (by decide) rfl, fair_bucket (by decide) rfl, fair_bucket (by decide) rfl,
      trivial⟩
  have hconserved := versions_conserved 1 2 (κ := Nat) (ν := Nat)
      [.bucket 0 .wipe, .bucket 0 (.acquire 0), .bucket 0 .wipe, .bucket 0 .wipe, .bucket 1 .wipe,
        .pool (.take 0), .bucket 0 (.release 0), .bucket 0 (.acquire 1), .pool (.put 0),
        .bucket 1 .lock, .bucket 1 .draftEmpty, .bucket 1 .unlock]
  exact ⟨by decide, by decide, by decide, hconserved.1, hconserved.2.2 hcalm⟩

end Workshop

end VersionedMap
