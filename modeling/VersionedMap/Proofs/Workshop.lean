import Mathlib.Data.List.Nodup
import Mathlib.Data.List.Perm.Basic
import VersionedMap.Pool.Session
import VersionedMap.Proofs.Links

/-!
# Many buckets and one pool

A **workshop** has any number of buckets, each with whoever works on it, and one pool that all of
them share; and versions may be taken out of the pool by hand, changed and given back. It is a
bucket session for each bucket and a session of the pool, all of which go on in any order. A bucket
that nobody works on may be dismissed, with the versions in its chain, and a new one takes its
place.

Every command is a trade with the pool. So the pool accounts for all that is on the benches and in
hand, in whatever order the commands come.
-/

namespace VersionedMap

variable {κ ν α β : Type}

open Bucket

/-- A bucket with whoever has its lock and its readers: a session but for the pool. -/
structure Bench (κ ν : Type) where
  bucket : Bucket κ ν := {}
  holder : Holder κ ν := .nobody
  readers : Numbered Nat := .empty

/-- Benches that share a pool, and what has been taken out of the pool by hand. -/
structure Workshop (κ ν : Type) where
  shared : Shared κ ν
  held : Numbered (Version κ ν) := .empty
  benches : List (Bench κ ν)

/-- What can be done in a workshop. -/
inductive Workshop.Command (κ ν : Type)
  /-- Something is done with bucket `i`. -/
  | bucket (i : Nat) (c : Bucket.Command κ ν)
  /-- Something is done with the pool, or with what is held of it. -/
  | pool (c : Pool.Command κ ν)
  /-- Bucket `i` is dropped, and a new one put in its place. -/
  | dismiss (i : Nat)

namespace Bench

/-- The session of a bench. -/
def session (b : Bench κ ν) (shared : Shared κ ν) : Session κ ν :=
  { bucket := b.bucket, shared, holder := b.holder, readers := b.readers }

/-- What a session leaves on its bench. -/
def ofSession (s : Session κ ν) : Bench κ ν :=
  { bucket := s.bucket, holder := s.holder, readers := s.readers }

/-- The bucket of a bench at work. -/
def site (b : Bench κ ν) (pool : Pool κ ν) : Site κ ν := ⟨b.bucket, pool, b.holder.draft⟩

/-- The stamps in the chain. -/
def chained (b : Bench κ ν) : List Nat := b.bucket.chain.map (·.stamp)

/-- The stamp of the draft, if there is one. -/
def drafted (b : Bench κ ν) : List Nat := b.holder.draft.toList.map (·.stamp)

/-- Nobody reads, and there is no writer. -/
def isFree (b : Bench κ ν) : Bool :=
  b.readers.toList.isEmpty &&
    match b.holder with
    | .nobody | .bare => true
    | .writer _ => false

end Bench

namespace Workshop

/-- `n` new buckets, and a pool of some capacity. -/
def new (capacity n : Nat) : Workshop κ ν where
  shared := { pool := { capacity } }
  benches := List.replicate n {}

/-- The pool. -/
def pool (w : Workshop κ ν) : Pool κ ν := w.shared.pool

/-- Carries out a command. One that concerns no bucket, or a bucket in use, does nothing. -/
def step (w : Workshop κ ν) : Command κ ν → Workshop κ ν
  | .bucket i c =>
    match w.benches[i]? with
    | none => w
    | some b =>
      let s := ((b.session w.shared).step c).2
      { w with shared := s.shared, benches := w.benches.set i (.ofSession s) }
  | .pool c =>
    let s := (Pool.Session.step ⟨w.pool, w.held⟩ c).2
    { w with shared := { w.shared with pool := s.pool }, held := s.held }
  | .dismiss i =>
    match w.benches[i]? with
    | none => w
    | some b =>
      if b.isFree then
        { w with
          shared := b.bucket.chain.foldl Shared.drop w.shared
          benches := w.benches.set i {} }
      else w

/-- The workshop after some commands. -/
def run (w : Workshop κ ν) : List (Command κ ν) → Workshop κ ν
  | [] => w
  | c :: cs => (w.step c).run cs

/-- The stamps of the idle versions. -/
def idle (w : Workshop κ ν) : List Nat := w.pool.stamps

/-- The stamps of the versions in chains. -/
def chained (w : Workshop κ ν) : List Nat := w.benches.flatMap Bench.chained

/-- The stamps of the drafts. -/
def drafted (w : Workshop κ ν) : List Nat := w.benches.flatMap Bench.drafted

/-- The stamps of the versions taken out by hand. -/
def inHand (w : Workshop κ ν) : List Nat := w.held.values.map (·.stamp)

/-- The stamps of all versions that are in use. -/
def inUse (w : Workshop κ ν) : List Nat := w.chained ++ w.drafted ++ w.inHand

end Workshop

/-! ## Lists of benches and of things held -/

/-- A list around one of its elements, and the same with another in its place. -/
theorem set_split {l : List α} {i : Nat} {a : α} (h : l[i]? = some a) :
    ∃ l₁ l₂, l = l₁ ++ a :: l₂ ∧ ∀ b, l.set i b = l₁ ++ b :: l₂ := by
  obtain ⟨hi, rfl⟩ := List.getElem?_eq_some_iff.mp h
  refine ⟨l.take i, l.drop (i + 1), ?_, fun b => ?_⟩
  · rw [List.getElem_cons_drop, List.take_append_drop]
  · rw [List.set_eq_take_append_cons_drop, if_pos hi]

/-- What the elements hold is what one of them holds, and the rest. -/
theorem exists_flatMap_set (f : α → List β) {l : List α} {i : Nat} {a : α} (h : l[i]? = some a) :
    ∃ rest, (l.flatMap f).Perm (f a ++ rest) ∧
      ∀ b, ((l.set i b).flatMap f).Perm (f b ++ rest) := by
  obtain ⟨l₁, l₂, hl, hset⟩ := set_split h
  have hfront (b : α) :
      ((l₁ ++ b :: l₂).flatMap f).Perm (f b ++ (l₁.flatMap f ++ l₂.flatMap f)) := by
    rw [List.flatMap_append, List.flatMap_cons, ← List.append_assoc, ← List.append_assoc]
    exact List.perm_append_comm.append_right _
  refine ⟨l₁.flatMap f ++ l₂.flatMap f, ?_, fun b => ?_⟩
  · rw [hl]
    exact hfront a
  · rw [hset]
    exact hfront b

namespace Numbered

/-- To hold something under a number is to hold nothing else there. -/
theorem perm_set_erase (s : Numbered α) (n : Nat) (a : α) :
    (s.set n a).toList.Perm ((n, a) :: (s.erase n).toList) := by
  have hfree : (s.erase n).get? n = none := by
    unfold get?
    rw [Option.map_eq_none_iff, List.find?_eq_none]
    intro e he
    have hne : (e.1 != n) = true := (List.mem_filter.mp he).2
    simpa using hne
  -- what is before and after the number is so with or without what was held there
  have hset : s.set n a = (s.erase n).set n a := by
    show s.toList.filter (·.1 < n) ++ (n, a) :: s.toList.filter (n < ·.1) = _
    show _ = (s.toList.filter (·.1 != n)).filter (·.1 < n)
      ++ (n, a) :: (s.toList.filter (·.1 != n)).filter (n < ·.1)
    have hbefore : s.toList.filter (fun e => e.1 < n && e.1 != n) = s.toList.filter (·.1 < n) := by
      refine List.filter_congr fun e _ => ?_
      by_cases hlt : e.1 < n
      · simp [hlt, Nat.ne_of_lt hlt]
      · simp [hlt]
    have hafter : s.toList.filter (fun e => n < e.1 && e.1 != n) = s.toList.filter (n < ·.1) := by
      refine List.filter_congr fun e _ => ?_
      by_cases hlt : n < e.1
      · simp [hlt, Nat.ne_of_gt hlt]
      · simp [hlt]
    rw [List.filter_filter, List.filter_filter, hbefore, hafter]
  rw [hset]
  exact perm_set hfree a

theorem get?_of_mem {s : Numbered α} (hs : s.numbers.Nodup) {n : Nat} {a : α}
    (h : (n, a) ∈ s.toList) : s.get? n = some a := by
  cases hget : s.get? n with
  | none => exact absurd rfl (get?_eq_none hget _ h)
  | some b =>
    have heq : (n, b) = (n, a) := List.inj_on_of_nodup_map hs (mem_of_get? hget) h rfl
    exact congrArg some (congrArg Prod.snd heq)

theorem get?_set (s : Numbered α) (n : Nat) (a : α) : (s.set n a).get? n = some a := by
  show Option.map _ (List.find? _ (s.toList.filter (·.1 < n) ++ (n, a) :: _)) = _
  have hbefore : (s.toList.filter (·.1 < n)).find? (·.1 == n) = none := by
    refine List.find?_eq_none.mpr fun e he => ?_
    have hlt : e.1 < n := by simpa using (List.mem_filter.mp he).2
    simpa using Nat.ne_of_lt hlt
  rw [List.find?_append, hbefore]
  simp

theorem nodup_set_erase {s : Numbered α} (hs : s.numbers.Nodup) (n : Nat) (a : α) :
    (s.set n a).numbers.Nodup := by
  have hperm := (perm_set_erase s n a).map (·.1)
  refine hperm.nodup_iff.mpr (List.nodup_cons.mpr ⟨fun hmem => ?_, nodup_erase hs n⟩)
  obtain ⟨e, he, hn⟩ := List.mem_map.mp hmem
  have hne : (e.1 != n) = true := (List.mem_filter.mp he).2
  simp [hn] at hne

end Numbered

namespace Pool.Session

/-! ## The pool by hand -/

/-- The stamps of what is held. -/
def stamps (s : Session κ ν) : List Nat := s.held.values.map (·.stamp)

/-- The things held go by different numbers, and are linked to nothing. -/
structure Sound (s : Session κ ν) : Prop where
  numbers : s.held.numbers.Nodup
  unlinked : ∀ v ∈ s.held.values, v.prev = none

/-- A version held is put in place of itself. -/
theorem stamps_set {s : Session κ ν} (hs : s.held.numbers.Nodup) {e : Nat} {v w : Version κ ν}
    (hv : s.held.get? e = some v) (hstamp : w.stamp = v.stamp) :
    ((s.held.set e w).values.map (·.stamp)).Perm s.stamps := by
  have hset := ((Numbered.perm_set_erase s.held e w).map (·.2)).map (·.stamp)
  have hold := ((Numbered.perm_erase hs hv).map (·.2)).map (·.stamp)
  rw [List.map_cons, List.map_cons] at hset hold
  dsimp only at hset hold
  rw [hstamp] at hset
  exact hset.trans hold.symm

theorem unlinked_set {s : Session κ ν} (h : s.Sound) {e : Nat} {w : Version κ ν}
    (hw : w.prev = none) : ∀ v ∈ (s.held.set e w).values, v.prev = none := by
  intro v hv
  have hmem := ((Numbered.perm_set_erase s.held e w).map (·.2)).mem_iff.mp hv
  rw [List.map_cons, List.mem_cons] at hmem
  rcases hmem with rfl | hmem
  · exact hw
  · obtain ⟨a, ha, rfl⟩ := List.mem_map.mp hmem
    exact h.unlinked _ (List.mem_map.mpr ⟨a, (List.mem_filter.mp ha).1, rfl⟩)

/--
What is done with the pool by hand is a trade, and loses only what was in hand, to a full pool.
-/
theorem step_trades {s : Session κ ν} (h : s.Sound) (hkempt : s.pool.Kempt) (c : Command κ ν) :
    (∃ lost, s.pool.Trades s.stamps (s.step c).2.pool (s.step c).2.stamps lost ∧ lost ⊆ s.stamps ∧
      (lost ≠ [] → (s.step c).2.pool.capacity ≤ (s.step c).2.pool.idle.size)) ∧
    (s.step c).2.Sound ∧ (s.step c).2.pool.Kempt := by
  have hidle : (∃ lost, s.pool.Trades s.stamps s.pool s.stamps lost ∧ lost ⊆ s.stamps ∧
      (lost ≠ [] → s.pool.capacity ≤ s.pool.idle.size)) ∧ s.Sound ∧ s.pool.Kempt :=
    ⟨⟨[], .refl _ _, List.nil_subset _, fun hlost => absurd rfl hlost⟩, h, hkempt⟩
  -- a version is changed while it is held
  have hchange {e : Nat} {v w : Version κ ν} (hv : s.held.get? e = some v)
      (hstamp : w.stamp = v.stamp) (hprev : w.prev = v.prev) :
      (∃ lost, s.pool.Trades s.stamps s.pool ((s.held.set e w).values.map (·.stamp)) lost ∧
        lost ⊆ s.stamps ∧ (lost ≠ [] → s.pool.capacity ≤ s.pool.idle.size)) ∧
      Sound ({ s with held := s.held.set e w } : Session κ ν) ∧ s.pool.Kempt :=
    ⟨⟨[], (Trades.refl s.pool s.stamps).congr (.refl _) (stamps_set h.numbers hv hstamp),
        List.nil_subset _, fun hlost => absurd rfl hlost⟩,
      ⟨Numbered.nodup_set_erase h.numbers e w,
        unlinked_set h (hprev.trans (h.unlinked v (Numbered.mem_values hv)))⟩, hkempt⟩
  cases c with
  | take e =>
    dsimp only [step]
    split
    · exact hidle
    · rename_i hfree
      have htake := (trades_take s.pool).frame s.stamps
      have hset := ((Numbered.perm_set hfree s.pool.take.1).map (·.2)).map (·.stamp)
      refine ⟨⟨[], htake.congr (.refl _) hset, List.nil_subset _, fun hlost => absurd rfl hlost⟩,
        ⟨Numbered.nodup_set h.numbers hfree _, ?_⟩, hkempt.take⟩
      exact unlinked_set h (congrArg (·.prev) hkempt.clean.reset_take).symm
  | push e i =>
    dsimp only [step, withHeld]
    split
    · exact hidle
    · exact hidle
    · rename_i v g hv hg
      obtain ⟨i, _, rfl⟩ := Argument.ok_of_map hg
      exact hchange hv rfl rfl
  | mark e marks =>
    dsimp only [step, withHeld]
    split
    · exact hidle
    · exact hidle
    · rename_i v g hv hg
      obtain ⟨⟨id, internal⟩, _, rfl⟩ := Argument.ok_of_map hg
      exact hchange hv rfl rfl
  | put e =>
    dsimp only [step, withHeld]
    split
    · exact hidle
    · exact hidle
    · rename_i v g hv hg
      obtain rfl := Except.ok.inj hg
      obtain ⟨lost, hput⟩ := returns_put s.pool v
      have hrest := ((Numbered.perm_erase h.numbers hv).map (·.2)).map (·.stamp)
      have hreturns := (hput.frame _).congr hrest (.refl _)
      refine ⟨⟨lost, hreturns.toTrades, hreturns.lost_subset, hreturns.full⟩,
        ⟨Numbered.nodup_erase h.numbers e, fun u hu => ?_⟩, hkempt.put v⟩
      obtain ⟨a, ha, rfl⟩ := List.mem_map.mp hu
      exact h.unlinked _ (List.mem_map.mpr ⟨a, (List.mem_filter.mp ha).1, rfl⟩)

end Pool.Session

namespace Workshop

/-! ## What every command keeps -/

variable {w : Workshop κ ν}

theorem perm_inUse (w : Workshop κ ν) :
    w.inUse.Perm (w.benches.flatMap (fun b => b.chained ++ b.drafted) ++ w.inHand) :=
  (List.flatMap_append_perm w.benches Bench.chained Bench.drafted).append_right _

/-- One bench of a workshop, and the stamps that are in use elsewhere. -/
theorem exists_inUse_set {i : Nat} {b : Bench κ ν} (hb : w.benches[i]? = some b) :
    ∃ rest, w.inUse.Perm (b.drafted ++ b.chained ++ rest) ∧
      ∀ (shared : Shared κ ν) (b' : Bench κ ν),
        (inUse { w with shared, benches := w.benches.set i b' }).Perm
          (b'.drafted ++ b'.chained ++ rest) := by
  obtain ⟨rest, hold, hnew⟩ := exists_flatMap_set (fun b => b.chained ++ b.drafted) hb
  have hswap {b : Bench κ ν} {l : List Nat} (h : l.Perm (b.chained ++ b.drafted ++ rest)) :
      (l ++ w.inHand).Perm (b.drafted ++ b.chained ++ (rest ++ w.inHand)) := by
    rw [← List.append_assoc]
    exact (h.trans (List.perm_append_comm.append_right _)).append_right _
  refine ⟨rest ++ w.inHand, (perm_inUse w).trans (hswap hold), fun shared b' => ?_⟩
  exact (perm_inUse _).trans (hswap (hnew b'))

/-- A command can give a version back that its bucket has or takes, or that is in hand. -/
def CanGive (w : Workshop κ ν) (c : Command κ ν) (x : Nat) : Prop :=
  match c with
  | .bucket i _ => ∃ b, w.benches[i]? = some b ∧
      (x = w.pool.take.1.stamp ∨ x ∈ b.drafted ++ b.chained)
  | .pool _ => x ∈ w.inHand
  | .dismiss _ => False

/-- Why a version that was in use or idle is so no more. -/
inductive Loses (w : Workshop κ ν) (c : Command κ ν) (x : Nat) : Prop
  /-- A writer has ended with the version as its draft. -/
  | unpublished {i : Nat} {b : Bench κ ν} {d : Bucket.Command κ ν} (hc : c = .bucket i d)
      (hb : w.benches[i]? = some b) (hends : d.ends = true) (hx : x ∈ b.drafted)
  /-- Its bucket has been dropped. -/
  | dismissed {i : Nat} {b : Bench κ ν} (hc : c = .dismiss i) (hb : w.benches[i]? = some b)
      (hx : x ∈ b.chained)
  /-- It has been given back to a full pool. -/
  | full (hx : w.CanGive c x) (hfull : (w.step c).idle.length = (w.step c).pool.capacity)

/-- What holds of a workshop at any time. -/
structure Sound (w : Workshop κ ν) : Prop where
  accounts : w.pool.AccountsFor w.inUse
  kempt : w.pool.Kempt
  woven : ∀ b ∈ w.benches, (b.site w.pool).Woven
  titled : ∀ b ∈ w.benches, (b.site w.pool).Titled
  hand : Pool.Session.Sound ⟨w.pool, w.held⟩

theorem sound_new (capacity n : Nat) : (new capacity n : Workshop κ ν).Sound where
  accounts := by
    have hnone : (new capacity n : Workshop κ ν).inUse = [] := by
      have hfree (f : Bench κ ν → List Nat) (hf : f {} = []) :
          (List.replicate n ({} : Bench κ ν)).flatMap f = [] := by
        refine List.flatMap_eq_nil_iff.mpr fun b hb => ?_
        rw [List.eq_of_mem_replicate hb, hf]
      have hchained : (new capacity n : Workshop κ ν).chained = [] := hfree Bench.chained rfl
      have hdrafted : (new capacity n : Workshop κ ν).drafted = [] := hfree Bench.drafted rfl
      rw [inUse, hchained, hdrafted]
      rfl
    rw [hnone]
    exact ⟨[], .refl _, rfl⟩
  kempt := ⟨Pool.isClean_new, Nat.zero_le _⟩
  woven b hb := by
    rw [List.eq_of_mem_replicate hb]
    exact Site.woven_new rfl _
  titled b hb := by
    rw [List.eq_of_mem_replicate hb]
    exact Site.titled_new _
  hand := ⟨List.nodup_nil, fun _ hv => absurd hv List.not_mem_nil⟩

/-- Links and identifiers have nothing to do with the pool. -/
theorem woven_site {b : Bench κ ν} {p q : Pool κ ν} (h : (b.site p).Woven) : (b.site q).Woven :=
  ⟨h.chain, h.draft⟩

theorem titled_site {b : Bench κ ν} {p q : Pool κ ν} (h : (b.site p).Titled) :
    (b.site q).Titled :=
  ⟨h.ids, h.length_le, h.vacant, h.draft⟩

theorem length_idle (w : Workshop κ ν) : w.idle.length = w.pool.idle.size := Pool.length_stamps _

/-- A command is a trade, and what it loses it loses for one of three reasons. -/
def Trades (w : Workshop κ ν) (c : Command κ ν) : Prop :=
  ∃ lost, w.pool.Trades w.inUse (w.step c).pool (w.step c).inUse lost ∧ ∀ x ∈ lost, w.Loses c x

theorem trades_of_eq {c : Command κ ν} (h : w.step c = w) : w.Trades c := by
  unfold Trades
  rw [h]
  exact ⟨[], .refl _ _, fun _ hx => absurd hx List.not_mem_nil⟩

/-- With another bench in place of one, and the pool as that leaves it. -/
theorem Sound.set (h : w.Sound) {i : Nat} {b b' : Bench κ ν} (hb : w.benches[i]? = some b)
    {shared : Shared κ ν} {lost : List Nat}
    (htrades : w.pool.Trades (b.drafted ++ b.chained) shared.pool (b'.drafted ++ b'.chained) lost)
    (hkempt : shared.pool.Kempt) (hwoven : (b'.site shared.pool).Woven)
    (htitled : (b'.site shared.pool).Titled) :
    Sound { w with shared, benches := w.benches.set i b' } ∧
      w.pool.Trades w.inUse shared.pool
        (inUse { w with shared, benches := w.benches.set i b' }) lost := by
  obtain ⟨rest, hold, hnew⟩ := exists_inUse_set hb
  have hframe := htrades.frame rest
  refine ⟨?_, hframe.congr hold (hnew shared b')⟩
  exact {
    accounts := (hframe.accountsFor (h.accounts.perm hold.symm)).perm (hnew shared b')
    kempt := hkempt
    woven := fun a ha => by
      rcases List.mem_or_eq_of_mem_set ha with ha | rfl
      · exact woven_site (h.woven a ha)
      · exact hwoven
    titled := fun a ha => by
      rcases List.mem_or_eq_of_mem_set ha with ha | rfl
      · exact titled_site (h.titled a ha)
      · exact htitled
    hand := ⟨h.hand.numbers, h.hand.unlinked⟩ }

theorem step_bucket {i : Nat} {b : Bench κ ν} (hb : w.benches[i]? = some b)
    (c : Bucket.Command κ ν) : w.step (.bucket i c) =
      { w with
        shared := ((b.session w.shared).step c).2.shared
        benches := w.benches.set i (.ofSession ((b.session w.shared).step c).2) } := by
  dsimp only [step]
  rw [hb]

/-- What is on a bench after a command is what was there, but for the bucket concerned. -/
theorem step_at {c : Command κ ν} {i : Nat} {b' : Bench κ ν}
    (hb' : (w.step c).benches[i]? = some b') :
    (w.benches[i]? = some b' ∧ (∀ d, c ≠ .bucket i d) ∧ (c = .dismiss i → b'.isFree = false)) ∨
    (∃ b d, w.benches[i]? = some b ∧ c = .bucket i d ∧
      b' = .ofSession ((b.session w.shared).step d).2) ∨
    (∃ b, w.benches[i]? = some b ∧ c = .dismiss i ∧ b.isFree = true ∧ b' = {}) := by
  -- of a bench in place of another, either it is the one in question or it is not
  have hset {j : Nat} {a a' : Bench κ ν} (ha : w.benches[j]? = some a)
      (hb' : (w.benches.set j a')[i]? = some b') :
      (j = i ∧ b' = a') ∨ (j ≠ i ∧ w.benches[i]? = some b') := by
    by_cases hij : j = i
    · subst hij
      rw [List.getElem?_set_self (List.getElem?_eq_some_iff.mp ha).1] at hb'
      exact .inl ⟨rfl, (Option.some.inj hb').symm⟩
    · rw [List.getElem?_set_ne hij] at hb'
      exact .inr ⟨hij, hb'⟩
  cases c with
  | pool c => exact .inl ⟨hb', nofun, nofun⟩
  | bucket j d =>
    cases hj : w.benches[j]? with
    | none =>
      dsimp only [step] at hb'
      rw [hj] at hb'
      refine .inl ⟨hb', fun e he => ?_, nofun⟩
      obtain ⟨rfl, rfl⟩ := Command.bucket.inj he
      rw [hj] at hb'
      cases hb'
    | some a =>
      rw [step_bucket hj] at hb'
      rcases hset hj hb' with ⟨rfl, rfl⟩ | ⟨hij, hb⟩
      · exact .inr (.inl ⟨a, d, hj, rfl, rfl⟩)
      · exact .inl ⟨hb, fun e he => hij (Command.bucket.inj he).1, nofun⟩
  | dismiss j =>
    dsimp only [step] at hb'
    cases hj : w.benches[j]? with
    | none =>
      rw [hj] at hb'
      refine .inl ⟨hb', nofun, fun he => ?_⟩
      obtain rfl := Command.dismiss.inj he
      rw [hj] at hb'
      cases hb'
    | some a =>
      rw [hj] at hb'
      dsimp only at hb'
      by_cases hfree : a.isFree = true
      · rw [if_pos hfree] at hb'
        rcases hset hj hb' with ⟨rfl, rfl⟩ | ⟨hij, hb⟩
        · exact .inr (.inr ⟨a, hj, rfl, hfree, rfl⟩)
        · exact .inl ⟨hb, nofun, fun he => absurd (Command.dismiss.inj he) hij⟩
      · rw [if_neg hfree] at hb'
        refine .inl ⟨hb', nofun, fun he => ?_⟩
        obtain rfl := Command.dismiss.inj he
        rw [hj] at hb'
        exact Option.some.inj hb' ▸ Bool.eq_false_iff.mpr hfree

/-- A bench after a command on its bucket. -/
theorem works_bench (b : Bench κ ν) (shared : Shared κ ν) (c : Bucket.Command κ ν) :
    Site.Works c.ends (b.site shared.pool)
      ((Bench.ofSession ((b.session shared).step c).2).site
        ((b.session shared).step c).2.shared.pool) :=
  Session.works_step (b.session shared) c

theorem sound_bucket (h : w.Sound) (i : Nat) (c : Bucket.Command κ ν) :
    (w.step (.bucket i c)).Sound ∧ w.Trades (.bucket i c) := by
  cases hb : w.benches[i]? with
  | none =>
    have hstep : w.step (.bucket i c) = w := by
      dsimp only [step]
      rw [hb]
    exact ⟨hstep.symm ▸ h, trades_of_eq hstep⟩
  | some b =>
    have hmem := List.mem_of_getElem? hb
    have hworks := works_bench b w.shared c
    obtain ⟨lost, htrades, hlost⟩ := hworks.trades
    have hkempt := hworks.kempt h.kempt
    have hset := h.set hb htrades hkempt (hworks.woven h.kempt.clean (h.woven b hmem))
      (hworks.titled (h.titled b hmem))
    have hpool : (w.step (.bucket i c)).pool = ((b.session w.shared).step c).2.shared.pool := by
      rw [step_bucket hb]
      rfl
    rw [← step_bucket hb, ← hpool] at hset
    refine ⟨hset.1, lost, hset.2, fun x hx => ?_⟩
    rcases hlost x hx with ⟨hends, hdraft⟩ | ⟨hwas, hfull⟩
    · refine .unpublished rfl hb hends ?_
      obtain ⟨v, hv, rfl⟩ := Option.map_eq_some_iff.mp hdraft
      refine List.mem_map.mpr ⟨v, ?_, rfl⟩
      rw [Option.mem_toList]
      exact hv
    · refine .full ⟨b, hb, hwas⟩ ?_
      rw [length_idle, hpool]
      exact Nat.le_antisymm hkempt.size_le hfull

theorem sound_pool (h : w.Sound) (c : Pool.Command κ ν) :
    (w.step (.pool c)).Sound ∧ w.Trades (.pool c) := by
  obtain ⟨⟨lost, htrades, hsub, hfull⟩, hhand, hkempt⟩ :=
    Pool.Session.step_trades h.hand h.kempt c
  have hswap {u : List Nat} : (w.chained ++ w.drafted ++ u).Perm (u ++ (w.chained ++ w.drafted)) :=
    List.perm_append_comm
  have hframe : w.pool.Trades w.inUse (w.step (.pool c)).pool (w.step (.pool c)).inUse lost :=
    (htrades.frame (w.chained ++ w.drafted)).congr hswap hswap
  refine ⟨?_, lost, hframe, fun x hx => .full (hsub hx) ?_⟩
  · exact {
      accounts := hframe.accountsFor h.accounts
      kempt := hkempt
      woven := fun b hb => woven_site (h.woven b hb)
      titled := fun b hb => titled_site (h.titled b hb)
      hand := hhand }
  · rw [length_idle]
    exact Nat.le_antisymm hkempt.size_le (hfull (List.ne_nil_of_mem hx))

theorem pool_foldl_drop (l : List (Version κ ν)) (s : Shared κ ν) :
    (l.foldl Shared.drop s).pool = { s.pool with dropped := s.pool.dropped + l.length } := by
  induction l generalizing s with
  | nil => rfl
  | cons v l ih =>
    rw [List.foldl_cons, ih]
    simp [Shared.drop, Pool.drop, Nat.add_assoc, Nat.add_comm]

/-- The versions of a chain that goes are lost, and nothing else is. -/
theorem trades_drop_all (p : Pool κ ν) (l : List Nat) :
    p.Trades l { p with dropped := p.dropped + l.length } [] l where
  perm := by simp [Pool.stamps]
  allocated_le := Nat.le_refl _
  dropped_eq := rfl
  capacity_eq := rfl

theorem drafted_of_isFree {b : Bench κ ν} (h : b.isFree = true) : b.drafted = [] := by
  unfold Bench.isFree at h
  unfold Bench.drafted
  cases hholder : b.holder with
  | nobody => rfl
  | bare => rfl
  | writer d => simp [hholder] at h

theorem sound_dismiss (h : w.Sound) (i : Nat) :
    (w.step (.dismiss i)).Sound ∧ w.Trades (.dismiss i) := by
  dsimp only [Trades, step]
  cases hb : w.benches[i]? with
  | none => exact ⟨h, [], .refl _ _, fun _ hx => absurd hx List.not_mem_nil⟩
  | some b =>
    dsimp only
    split
    · rename_i hfree
      have hpool := pool_foldl_drop b.bucket.chain w.shared
      have hlength : b.chained.length = b.bucket.chain.length := List.length_map ..
      have htrades : w.pool.Trades (b.drafted ++ b.chained)
          (b.bucket.chain.foldl Shared.drop w.shared).pool
          (Bench.drafted ({} : Bench κ ν) ++ Bench.chained ({} : Bench κ ν)) b.chained := by
        rw [drafted_of_isFree hfree, hpool, ← hlength]
        exact trades_drop_all w.pool b.chained
      have hkempt : (b.bucket.chain.foldl Shared.drop w.shared).pool.Kempt := by
        rw [hpool]
        exact ⟨h.kempt.clean, h.kempt.size_le⟩
      have hset := h.set hb htrades hkempt (Site.woven_new rfl _) (Site.titled_new _)
      exact ⟨hset.1, b.chained, hset.2, fun x hx => .dismissed rfl hb hx⟩
    · exact ⟨h, [], .refl _ _, fun _ hx => absurd hx List.not_mem_nil⟩

/-- Every command keeps the workshop sound, and loses versions for three reasons only. -/
theorem sound_step (h : w.Sound) (c : Command κ ν) : (w.step c).Sound ∧ w.Trades c := by
  cases c with
  | bucket i c => exact sound_bucket h i c
  | pool c => exact sound_pool h c
  | dismiss i => exact sound_dismiss h i

theorem Sound.run (h : w.Sound) (cs : List (Command κ ν)) : (w.run cs).Sound := by
  induction cs generalizing w with
  | nil => exact h
  | cons c cs ih => exact ih (sound_step h c).1

end Workshop

end VersionedMap
