import VersionedMap.Proofs.Identifiers
import VersionedMap.Proofs.PendingMarks

/-!
# Where nothing is left to reclaim

A superseded version is looked at when its own count comes to zero: at once, or, if somebody has
the lock, when that is released. It goes if it is the oldest, along with those next to it that have
come to zero before. So a bucket in which nothing is pending is **settled**: the count of its oldest
superseded version is not zero, and whoever sets out to reclaim finds nothing to take.

No bound on the readers is needed for this, and not even that the counts are right. It follows that
a reader who comes and goes while the lock is free leaves all versions in their places.
-/

namespace VersionedMap

variable {κ ν α : Type}

namespace Bucket

/-- The own counts of the superseded versions, newest first. -/
def olderCounts (b : Bucket κ ν) : List Int32 := b.chain.tail.map (·.internal)

theorem olderCounts_cons {b : Bucket κ ν} {head : Version κ ν} {older : List (Version κ ν)}
    (hchain : b.chain = head :: older) : b.olderCounts = older.map (·.internal) := by
  rw [olderCounts, hchain, List.tail_cons]

theorem oldest_of_tail {b : Bucket κ ν} (h : b.chain.tail = []) :
    b.olderCounts.getLast? ≠ some 0 := by
  simp [olderCounts, h]

/-- Nothing is pending while the lock is free, and while nothing is pending the oldest stays. -/
structure Settled (b : Bucket κ ν) : Prop where
  served : b.Served
  oldest : b.pending = false → b.olderCounts.getLast? ≠ some 0

variable {b c d : Bucket κ ν}

/-! ## What reclamation takes -/

theorem kept_eq_self {older : List (Version κ ν)}
    (h : (older.map (·.internal)).getLast? ≠ some 0) : kept older = older := by
  rcases List.eq_nil_or_concat older with rfl | ⟨l, v, rfl⟩
  · rfl
  · have hv : v.internal ≠ 0 := by simpa using h
    simp [kept, hv]

theorem getLast?_kept (older : List (Version κ ν)) :
    ((kept older).map (·.internal)).getLast? ≠ some 0 := by
  rw [List.getLast?_map]
  intro hzero
  obtain ⟨v, hv, hcount⟩ := Option.map_eq_some_iff.mp hzero
  exact internal_getLast_kept hv hcount

/-- Reclamation leaves the counts of what it leaves. -/
theorem olderCounts_reclaim {head : Version κ ν} {older : List (Version κ ν)}
    (hchain : b.chain = head :: older) (s : Shared κ ν) :
    (b.reclaim s).1.olderCounts = (kept older).map (·.internal) := by
  unfold reclaim olderCounts
  rw [hchain]
  dsimp only
  rw [List.map_tail, map_endChain (fun _ => rfl), List.map_cons, List.tail_cons]

theorem oldest_reclaim (b : Bucket κ ν) (s : Shared κ ν) :
    (b.reclaim s).1.olderCounts.getLast? ≠ some 0 := by
  cases hchain : b.chain with
  | nil =>
    unfold reclaim
    rw [hchain]
    exact oldest_of_tail (congrArg List.tail hchain)
  | cons head older =>
    rw [olderCounts_reclaim hchain]
    exact getLast?_kept older

/-! ## Operations keep a bucket settled -/

theorem settled_new : ({} : Bucket κ ν).Settled := ⟨served_new, fun _ => oldest_of_tail rfl⟩

/-- Only the pending mark and the chain behind its head matter, and whether the lock is held. -/
theorem Settled.congr (h : b.Settled) (hlocked : c.locked = b.locked)
    (hpending : c.pending = b.pending) (hcounts : c.olderCounts = b.olderCounts) : c.Settled :=
  ⟨h.served.congr hlocked hpending, fun hp => hcounts ▸ h.oldest (hpending ▸ hp)⟩

theorem Settled.lock (h : b.Settled) : b.lock.Settled := ⟨served_lock b, h.oldest⟩

/-- Where something is pending it may be anything. -/
theorem settled_servePending (h : b.pending = false → b.olderCounts.getLast? ≠ some 0)
    (s : Shared κ ν) : (b.servePending s).1.Settled := by
  refine ⟨served_servePending b s, ?_⟩
  unfold servePending
  split
  · exact fun _ => oldest_reclaim _ s
  · exact h

theorem Settled.unlock (h : b.Settled) (s : Shared κ ν) : (b.unlock s).1.Settled :=
  settled_servePending (b := b.unlocked) h.oldest s

theorem olderCounts_transfer (b : Bucket κ ν) (s : Shared κ ν) :
    (b.transfer s).1.olderCounts = b.olderCounts := by
  unfold transfer
  split
  · rfl
  · split
    · rfl
    · rename_i head older hchain
      rw [olderCounts_cons hchain, olderCounts_cons rfl]

theorem pending_transfer (b : Bucket κ ν) (s : Shared κ ν) :
    (b.transfer s).1.pending = b.pending := by
  unfold transfer
  split
  · rfl
  · split <;> rfl

theorem Settled.rebalance (h : b.Settled) (s : Shared κ ν) : (b.rebalance s).1.Settled := by
  refine settled_servePending (fun hp => ?_) _
  show (b.lock.transfer s).1.olderCounts.getLast? ≠ some 0
  rw [olderCounts_transfer]
  exact h.oldest ((pending_transfer b.lock s).symm.trans hp)

theorem Settled.acquire (h : b.Settled) (s : Shared κ ν) : (b.acquire s).2.1.Settled := by
  have hclaimed : b.claimed.Settled := h.congr rfl rfl rfl
  rcases b.acquire_snd_cases s with hsame | hclaim | hrebalance
  · rw [hsame]
    exact h
  · rw [hclaim]
    exact hclaimed
  · rw [hrebalance]
    exact hclaimed.rebalance s

/-- One count goes down by one. If the last was not zero, it is not unless it was one. -/
theorem getLast?_modify_ne {l : List Int32} {k : Nat} (hlast : l.getLast? ≠ some 0)
    (hone : l[k]? ≠ some 1) : (l.modify k (· - 1)).getLast? ≠ some 0 := by
  rw [List.getLast?_eq_getElem?] at hlast ⊢
  rw [List.length_modify, List.getElem?_modify]
  split
  · rename_i hk
    rw [← hk]
    intro hzero
    obtain ⟨x, hx, hless⟩ := Option.map_eq_some_iff.mp hzero
    refine hone (hx.trans (congrArg some ?_))
    grind
  · simpa using hlast

/-- The counts of the older versions after one of all counts has gone down. -/
theorem olderCounts_modifyInternal (b : Bucket κ ν) (n : Nat) (f : Int32 → Int32) :
    (b.modifyInternal n f).olderCounts =
      match b.published - n with
      | 0 => b.olderCounts
      | k + 1 => b.olderCounts.modify k f := by
  unfold modifyInternal olderCounts
  dsimp only
  cases b.published - n with
  | zero => cases b.chain <;> rfl
  | succ k =>
    cases b.chain with
    | nil => simp
    | cons head older =>
      rw [List.modify_succ_cons, List.tail_cons, List.tail_cons]
      refine List.ext_getElem? fun i => ?_
      simp only [List.getElem?_map, List.getElem?_modify]
      split <;> cases older[i]? <;> rfl

theorem Settled.release (h : b.Settled) (n : Nat) (s : Shared κ ν) :
    (b.release n s).1.Settled := by
  unfold Bucket.release
  split
  · exact h
  · rename_i v hv
    dsimp only
    split
    -- the last to let go of a version leaves a mark, whatever there is to take
    · exact settled_servePending Bool.noConfusion s
    · rename_i hone
      refine ⟨h.served.congr rfl rfl, fun hp => ?_⟩
      have hold := h.oldest hp
      rw [olderCounts_modifyInternal]
      unfold version? at hv
      split
      · exact hold
      · rename_i k hk
        refine getLast?_modify_ne hold fun hzero => hone ?_
        rw [hk] at hv
        unfold olderCounts at hzero
        rw [List.getElem?_map, List.getElem?_tail, hv] at hzero
        exact Option.some.inj hzero

theorem Settled.publish (h : b.Settled) (v : Version κ ν) (s : Shared κ ν) :
    (b.publish v s).1.Settled := by
  refine ⟨h.served.publish v s, ?_⟩
  cases hchain : b.chain with
  | nil =>
    unfold Bucket.publish
    rw [hchain]
    exact fun _ => oldest_of_tail rfl
  | cons head older =>
    rw [publish_cons hchain]
    split
    · exact fun _ => oldest_reclaim _ s
    · rename_i hcount
      intro hp
      have hold := h.oldest hp
      rw [olderCounts_cons hchain] at hold
      show (_ :: older.map (·.internal)).getLast? ≠ some 0
      rw [List.getLast?_cons]
      cases hlast : (older.map (·.internal)).getLast? with
      | none => exact fun hzero => hcount (Option.some.inj hzero)
      | some x => exact hlast ▸ hold

theorem Settled.installItems (h : b.Settled) (l : List (Item κ ν)) (s : Shared κ ν) :
    (b.installItems l s).1.Settled :=
  ⟨h.served.congr rfl rfl, fun _ => oldest_of_tail rfl⟩

/-! ## Readers come and go -/

/-- All versions are in their places, and of the superseded ones the counts are what they were. -/
structure Stands (b c : Bucket κ ν) : Prop where
  published_eq : c.published = b.published
  lasting_eq : c.lasting = b.lasting
  counts_eq : c.olderCounts = b.olderCounts

namespace Stands

/-- The word, the marks and the lock do not matter. -/
theorem of_eq (hchain : c.chain = b.chain) (hpub : c.published = b.published) : b.Stands c :=
  ⟨hpub, congrArg (List.map Version.lasting) hchain,
    congrArg (fun l => l.tail.map (·.internal)) hchain⟩

theorem refl (b : Bucket κ ν) : b.Stands b := of_eq rfl rfl

theorem trans (h : b.Stands c) (h' : c.Stands d) : b.Stands d :=
  ⟨h'.published_eq.trans h.published_eq, h'.lasting_eq.trans h.lasting_eq,
    h'.counts_eq.trans h.counts_eq⟩

/-- Whoever holds a version finds the items that it had. -/
theorem items_version? (h : b.Stands c) (n : Nat) :
    (c.version? n).map (·.items) = (b.version? n).map (·.items) := by
  have hget := congrArg (·[b.published - n]?) h.lasting_eq
  simp only [lasting, List.getElem?_map] at hget
  rw [version?_items, version?_items, version?, version?, h.published_eq, hget]

end Stands

/-- A count of the newest version is changed, with the word or without. -/
theorem stands_recount {head : Version κ ν} {older : List (Version κ ν)}
    (hb : b.chain = head :: older) {x : Int32} (hc : c.chain = { head with internal := x } :: older)
    (hpub : c.published = b.published) : b.Stands c := by
  refine ⟨hpub, ?_, ?_⟩
  · rw [lasting, lasting, hb, hc, List.map_cons, List.map_cons, Version.lasting_internal]
  · rw [olderCounts_cons hb, olderCounts_cons hc]

theorem stands_reclaim (h : b.olderCounts.getLast? ≠ some 0) (s : Shared κ ν) :
    b.Stands (b.reclaim s).1 := by
  cases hchain : b.chain with
  | nil =>
    unfold reclaim
    rw [hchain]
    exact .refl b
  | cons head older =>
    rw [olderCounts_cons hchain] at h
    have hall := kept_eq_self h
    refine ⟨(shortens_reclaim b s).published_eq, ?_, ?_⟩
    · unfold reclaim lasting
      rw [hchain]
      dsimp only
      rw [map_endChain (fun _ => rfl), hall]
    · rw [olderCounts_reclaim hchain, hall, olderCounts_cons hchain]

theorem stands_servePending (h : b.olderCounts.getLast? ≠ some 0) (s : Shared κ ν) :
    b.Stands (b.servePending s).1 := by
  unfold servePending
  split
  · have hserved : b.Stands { b with pending := false } := .of_eq rfl rfl
    exact hserved.trans (stands_reclaim (b := { b with pending := false }) h s)
  · exact .refl b

theorem stands_transfer (b : Bucket κ ν) (s : Shared κ ν) : b.Stands (b.transfer s).1 := by
  unfold transfer
  split
  · exact .refl b
  · split
    · exact .refl b
    · rename_i head older hchain
      exact stands_recount hchain rfl rfl

theorem stands_rebalance (h : b.olderCounts.getLast? ≠ some 0) (s : Shared κ ν) :
    b.Stands (b.rebalance s).1 := by
  have hlock : b.Stands b.lock := .of_eq rfl rfl
  have hmoved := stands_transfer b.lock s
  have hfree : (b.lock.transfer s).1.Stands (b.lock.transfer s).1.unlocked := .of_eq rfl rfl
  refine (hlock.trans (hmoved.trans hfree)).trans (stands_servePending ?_ _)
  show (b.lock.transfer s).1.olderCounts.getLast? ≠ some 0
  rw [olderCounts_transfer]
  exact h

theorem stands_acquire (h : b.olderCounts.getLast? ≠ some 0) (s : Shared κ ν) :
    b.Stands (b.acquire s).2.1 := by
  have hclaimed : b.Stands b.claimed := .of_eq rfl rfl
  rcases b.acquire_snd_cases s with hsame | hclaim | hrebalance
  · rw [hsame]
    exact .refl b
  · rw [hclaim]
    exact hclaimed
  · rw [hrebalance]
    exact hclaimed.trans (stands_rebalance (b := b.claimed) h s)

/-- To let go of the newest version may set out to reclaim, but it finds nothing. -/
theorem stands_release (h : b.olderCounts.getLast? ≠ some 0) (s : Shared κ ν) :
    b.Stands (b.release b.published s).1 := by
  unfold release
  split
  · exact .refl b
  · rename_i v hv
    have hdown : b.Stands (b.modifyInternal b.published (· - 1)) := by
      unfold version? at hv
      rw [Nat.sub_self] at hv
      obtain ⟨older, hchain⟩ := List.head?_eq_some_iff.mp (List.head?_eq_getElem? ▸ hv)
      refine stands_recount (x := v.internal - 1) hchain ?_ rfl
      unfold modifyInternal
      rw [Nat.sub_self, hchain]
      rfl
    dsimp only
    split
    · have hmark : b.Stands { b.modifyInternal b.published (· - 1) with pending := true } :=
        hdown.trans (.of_eq rfl rfl)
      refine hmark.trans (stands_servePending ?_ s)
      show (b.modifyInternal b.published (· - 1)).olderCounts.getLast? ≠ some 0
      rw [hdown.counts_eq]
      exact h
    · exact hdown

/-! ## Sessions -/

namespace Session

variable {s : Session κ ν}

theorem settled_write (h : s.bucket.Settled)
    {f : Argument (Bucket κ ν → Shared κ ν → Reply κ ν × Bucket κ ν × Shared κ ν)}
    (hf : ∀ g, f = .ok g → Supersedes g) : (s.write f).2.bucket.Settled := by
  unfold write
  split
  · exact h
  · cases f with
    | error why => exact h
    | ok g =>
      obtain ⟨v, sh, _, _, hpublish⟩ := hf g rfl s.bucket.lock s.shared
      show ((g s.bucket.lock s.shared).2.1.unlock (g s.bucket.lock s.shared).2.2).1.Settled
      rw [hpublish]
      exact (h.lock.publish v sh).unlock _

theorem settled_letGo (h : s.bucket.Settled) (n : Nat) : (s.letGo n).bucket.Settled :=
  h.release n s.shared

theorem settled_acquiring (h : s.bucket.Settled) (absent : Reply κ ν)
    {f : Nat → Session κ ν → Reply κ ν × Session κ ν}
    (hf : ∀ n t, t.bucket.Settled → (f n t).2.bucket.Settled) :
    (s.acquiring absent f).2.bucket.Settled := by
  have hacquire := h.acquire s.shared
  unfold acquiring
  split
  · exact h
  · split
    · exact h
    · generalize s.bucket.acquire s.shared = out at hacquire
      obtain ⟨outcome, b, sh⟩ := out
      cases outcome with
      | waits => exact h
      | absent => exact hacquire
      | held n => exact hf n { s with bucket := b, shared := sh } hacquire

theorem settled_withReader (h : s.bucket.Settled) {r : Nat}
    {f : Argument (Nat → Reply κ ν × Session κ ν)}
    (hf : ∀ g n, f = .ok g → (g n).2.bucket.Settled) : (s.withReader r f).2.bucket.Settled := by
  unfold withReader
  split
  · exact h
  · exact h
  · rename_i n g hheld
    exact hf g n rfl

/-- Whatever is done, other than by setting counts by hand, leaves a settled bucket settled. -/
theorem settled_step (h : s.bucket.Settled) {c : Command κ ν} (hc : c.setsCounts = false) :
    (s.step c).2.bucket.Settled := by
  cases c with
  | replace change =>
    refine settled_write h fun g hg => ?_
    obtain ⟨⟨q, i⟩, _, rfl⟩ := Argument.ok_of_map hg
    exact supersedes_replace q i
  | add i =>
    refine settled_write h fun g hg => ?_
    obtain ⟨i, _, rfl⟩ := Argument.ok_of_map hg
    exact supersedes_add i _
  | remove q =>
    refine settled_write h fun g hg => ?_
    obtain ⟨q, _, rfl⟩ := Argument.ok_of_map hg
    exact supersedes_remove q
  | wipe =>
    refine settled_write h fun g hg => ?_
    obtain rfl := Except.ok.inj hg
    exact supersedes_wipe _
  -- the lock changes hands
  | lock | lockBare =>
    dsimp only [step]
    split
    · exact h
    · exact h.lock
  | unlock =>
    dsimp only [step]
    split
    · rename_i hlocked
      unfold Session.unlock
      rw [if_pos hlocked]
      exact h.unlock _
    · exact h
  | adopt | keep | inspect =>
    dsimp only [step]
    split <;> exact h
  -- a draft is no part of the bucket until it is published
  | draftCopy | draftEmpty | draftWithout q =>
    dsimp only [step]
    rw [bucket_prepare]
    exact h
  | push i | discard =>
    dsimp only [step, withDraft]
    split
    any_goals exact h
    rename_i hg
    first
      | obtain ⟨i, _, rfl⟩ := Argument.ok_of_map hg; exact h
      | obtain rfl := Except.ok.inj hg; exact h
  | publish =>
    rcases step_publish s with ⟨why, hrefused⟩ | ⟨v, hdone⟩
    · rw [hrefused]
      exact h
    · rw [hdone]
      exact h.publish v s.shared
  | install items =>
    dsimp only [step]
    split
    · exact h
    · cases items with
      | error why => exact h
      | ok l => exact h.installItems l s.shared
  -- readers come and go
  | acquire r =>
    dsimp only [step]
    split
    · exact h
    · exact settled_acquiring h _ fun _ _ ht => ht
  | release r =>
    refine settled_withReader h fun g n hg => ?_
    obtain rfl := Except.ok.inj hg
    exact settled_letGo (s := { s with readers := s.readers.erase r }) h n
  | itemsOf r =>
    refine settled_withReader h fun g n hg => ?_
    obtain rfl := Except.ok.inj hg
    exact h
  | search r q =>
    refine settled_withReader h fun g n hg => ?_
    obtain ⟨q, _, rfl⟩ := Argument.ok_of_map hg
    exact h
  | get q => exact settled_acquiring h _ fun n _ ht => settled_letGo ht n
  | rebalance =>
    dsimp only [step]
    split
    · exact h
    · exact h.rebalance _
  | getWith word => cases hc
  | shift n => cases hc

end Session

end Bucket

/-! ## Workshops -/

namespace Workshop

variable {w : Workshop κ ν}

/-- Nowhere is anything left to reclaim. -/
def Settled (w : Workshop κ ν) : Prop := ∀ b ∈ w.benches, b.bucket.Settled

theorem settled_new (capacity n : Nat) : (new capacity n : Workshop κ ν).Settled := by
  intro b hb
  rw [List.eq_of_mem_replicate hb]
  exact Bucket.settled_new

theorem Settled.step (h : w.Settled) {c : Command κ ν} (hc : c.setsCounts = false) :
    (w.step c).Settled := by
  intro b' hb'
  obtain ⟨i, hi⟩ := List.mem_iff_getElem?.mp hb'
  rcases step_at hi with ⟨hb, _⟩ | ⟨b, d, hb, rfl, rfl⟩ | ⟨_, _, _, _, rfl⟩
  · exact h b' (List.mem_of_getElem? hb)
  · exact Bucket.Session.settled_step (s := b.session w.shared) (h b (List.mem_of_getElem? hb)) hc
  · exact Bucket.settled_new

theorem Settled.run (h : w.Settled) {cs : List (Command κ ν)}
    (hcs : ∀ c ∈ cs, c.setsCounts = false) : (w.run cs).Settled := by
  induction cs generalizing w with
  | nil => exact h
  | cons c cs ih =>
    exact ih (h.step (hcs c List.mem_cons_self)) fun c hc => hcs c (List.mem_cons_of_mem _ hc)

end Workshop

end VersionedMap
