import VersionedMap.Proofs.Accounts
import VersionedMap.Proofs.FitMaps

/-!
# When a reader waits

A reader takes no lock to claim a version, whoever holds it, and gets the version that is current.
There is one exception. The reader that brings the count to its bound moves the bulk of the count,
and takes the lock for that; if somebody has it, the reader waits.

The count starts anew with every publication and grows by one with every acquisition, so it takes
some `10 ^ 9` acquisitions to get there. It grows under a lock that is held as it does under a free
one: whoever holds the lock and goes on reading comes to wait for nobody but itself.
-/

namespace VersionedMap

variable {κ ν α : Type}

/-- A claim adds at most one, whatever the count is. -/
theorem toNat_next_le (c : UInt32) : (c + 1).toNat ≤ c.toNat + 1 := by
  rw [UInt32.toNat_add]
  exact Nat.mod_le _ _

/-- Below its bound a count has a next one. -/
theorem toNat_next {c : UInt32} (h : c.toNat < rebalanceAt.toNat) :
    (c + 1).toNat = c.toNat + 1 := by
  have hbound := toNat_rebalanceAt
  have hone : (1 : UInt32).toNat = 1 := rfl
  rw [UInt32.toNat_add]
  omega

/-- The count that is one short of its bound. -/
theorem next_eq_rebalanceAt_iff {c : UInt32} (h : c.toNat < rebalanceAt.toNat) :
    c + 1 = rebalanceAt ↔ c.toNat + 1 = rebalanceAt.toNat := by
  rw [← UInt32.toNat_inj, toNat_next h]

namespace Bucket

/-! ## What moves the count -/

@[simp] theorem word_reclaim (b : Bucket κ ν) (s : Shared κ ν) : (b.reclaim s).1.word = b.word := by
  unfold reclaim
  split <;> rfl

@[simp] theorem word_servePending (b : Bucket κ ν) (s : Shared κ ν) :
    (b.servePending s).1.word = b.word := by
  unfold servePending
  split
  · rw [word_reclaim]
  · rfl

@[simp] theorem word_unlock (b : Bucket κ ν) (s : Shared κ ν) : (b.unlock s).1.word = b.word :=
  word_servePending ..

@[simp] theorem word_release (b : Bucket κ ν) (n : Nat) (s : Shared κ ν) :
    (b.release n s).1.word = b.word := by
  unfold release
  split
  · rfl
  · dsimp only
    split
    · rw [word_servePending]
      rfl
    · rfl

theorem reference_congr {b c : Bucket κ ν} (h : c.word = b.word) : c.reference = b.reference :=
  congrArg Reference.ofWord h

/-- A publication starts the count anew. -/
theorem count_publish (b : Bucket κ ν) (v : Version κ ν) (s : Shared κ ν) :
    (b.publish v s).1.reference.count = 1 := by
  have hword : (b.publish v s).1.word = Reference.word ⟨v.id, 1⟩ := by
    unfold publish
    dsimp only
    split
    · rfl
    · split
      · rw [word_reclaim]
      · rfl
  rw [reference, hword, Reference.ofWord_word]

/-- Between operations the count is below its bound, and there is nothing to move. -/
theorem transfer_of_anchored {b : Bucket κ ν} (h : b.Anchored) (s : Shared κ ν) :
    b.transfer s = (b, s) := by
  unfold transfer
  cases h with
  | vacant hchain =>
    rw [hchain]
    split <;> rfl
  | named head older count hchain hword hid hpos hlt =>
    have hcount : b.reference.count = count := by rw [reference, hword, Reference.ofWord_word]
    rw [hcount, if_pos (UInt32.lt_iff_toNat_lt.mpr hlt)]

/-- Where the next claim does not bring the count to its bound, it goes through. -/
theorem acquire_below {b : Bucket κ ν} (h : b.Anchored) (hne : b.chain ≠ [])
    (hbelow : b.reference.count + 1 ≠ rebalanceAt) (s : Shared κ ν) :
    b.acquire s = (.held b.published, b.claimed, s) := by
  rcases acquire_cases h s with ⟨hnil, _⟩ | ⟨_, hat, _⟩ | ⟨_, hat, _⟩ | ⟨_, _, hacq⟩
  · exact absurd hnil hne
  · exact absurd hat hbelow
  · exact absurd hat hbelow
  · exact hacq

/-- A reader adds one to the count, unless it moves the bulk of it. -/
theorem count_acquire_le {b : Bucket κ ν} (h : b.Anchored) (s : Shared κ ν) :
    (b.acquire s).2.1.reference.count.toNat ≤ b.reference.count.toNat + 1 := by
  have hclaim (hne : b.chain ≠ []) :
      b.claimed.reference.count.toNat ≤ b.reference.count.toNat + 1 := by
    rw [reference_claimed h hne]
    exact toNat_next_le _
  rcases acquire_cases h s with ⟨_, hacq⟩ | ⟨_, _, _, hacq⟩ | ⟨hne, hat, _, hacq⟩ | ⟨hne, _, hacq⟩
  · rw [hacq]; exact Nat.le_succ _
  · rw [hacq]; exact Nat.le_succ _
  -- the count has come to its bound, and most of it goes
  · rw [hacq]
    obtain ⟨head, older, hchain⟩ := List.exists_cons_of_ne_nil hne
    have hcount : b.claimed.reference.count = rebalanceAt := by rw [reference_claimed h hne, hat]
    have hmoved := transfer_eq (b := b.claimed.lock) hchain
      (Reference.word_ofWord _).symm (UInt32.le_of_eq hcount.symm) s
    have hword : (b.claimed.rebalance s).1.word = (b.claimed.lock.transfer s).1.word :=
      word_unlock ..
    rw [reference_congr hword, hmoved]
    refine Nat.le_trans ?_ (hclaim hne)
    rw [reference, Reference.ofWord_word]
    show (b.claimed.reference.count - rebalanceBy).toNat ≤ b.claimed.reference.count.toNat
    rw [hcount]
    decide
  · rw [hacq]; exact hclaim hne

/-! ## Sessions of an age -/

/-- Whether a command acquires. -/
def Command.reads : Command κ ν → Bool
  | .acquire _ | .get _ => true
  | _ => false

namespace Session

/-- What any run with so many acquisitions keeps of a session, however many readers it has. -/
structure Aged (s : Session κ ν) (n : Nat) : Prop where
  anchored : s.bucket.Anchored
  locked_eq : s.bucket.locked = s.isLocked
  draft : ∀ v, s.holder = .writer (some v) → v.id ≠ 0
  count_le : s.bucket.reference.count.toNat ≤ n + 1

theorem aged_new (pool : Pool κ ν) : Aged ({ shared := { pool } } : Session κ ν) 0 where
  anchored := anchored_new
  locked_eq := rfl
  draft v hv := by cases hv
  count_le := Nat.zero_le _

variable {s : Session κ ν} {n : Nat}

/-- What holds after so many acquisitions holds after one more. -/
theorem Aged.older (h : s.Aged n) : s.Aged (n + 1) where
  anchored := h.anchored
  locked_eq := h.locked_eq
  draft := h.draft
  count_le := Nat.le_succ_of_le h.count_le

/-- With another bucket and pool. -/
theorem Aged.update (h : s.Aged n) {b : Bucket κ ν} (sh : Shared κ ν) (hb : b.Anchored)
    (hlock : b.locked = s.bucket.locked) (hcount : b.reference.count.toNat ≤ n + 1) :
    Aged { s with bucket := b, shared := sh } n where
  anchored := hb
  locked_eq := hlock.trans h.locked_eq
  draft := h.draft
  count_le := hcount

/-- With the lock held by somebody else, or in another way. -/
theorem Aged.hand (h : s.Aged n) (sh : Shared κ ν) {holder : Holder κ ν}
    (hlocked : s.isLocked = true)
    (hlocked' : ({ s with shared := sh, holder } : Session κ ν).isLocked = true)
    (hdraft : ∀ v, holder = .writer (some v) → v.id ≠ 0) :
    Aged { s with shared := sh, holder } n where
  anchored := h.anchored
  locked_eq := by rw [h.locked_eq, hlocked, hlocked']
  draft := hdraft
  count_le := h.count_le

theorem Aged.takeLock (h : s.Aged n) {holder : Holder κ ν}
    (hlocked : ({ s with bucket := s.bucket.lock, holder } : Session κ ν).isLocked = true)
    (hdraft : ∀ v, holder ≠ .writer (some v)) :
    Aged { s with bucket := s.bucket.lock, holder } n where
  anchored := anchored_lock h.anchored
  locked_eq := hlocked.symm
  draft v hv := absurd hv (hdraft v)
  count_le := h.count_le

theorem Aged.unlock (h : s.Aged n) : s.unlock.Aged n := by
  unfold Session.unlock
  split
  · exact {
      anchored := anchored_unlock h.anchored _
      locked_eq := locked_unlock ..
      draft := by intro v hv; cases hv
      count_le := (reference_congr (word_unlock ..)).symm ▸ h.count_le }
  · exact h

theorem Aged.letGo (h : s.Aged n) (k : Nat) : (s.letGo k).Aged n :=
  h.update _ (anchored_release h.anchored ..) (locked_release ..)
    ((reference_congr (word_release ..)).symm ▸ h.count_le)

/-- A write ends with a publication, and leaves the lock free as it was. -/
theorem aged_write (h : s.Aged n)
    {f : Argument (Bucket κ ν → Shared κ ν → Reply κ ν × Bucket κ ν × Shared κ ν)}
    (hf : ∀ g, f = .ok g → ∀ b sh, ∃ v sh', (g b sh).2 = b.publish v sh' ∧ v.id ≠ 0) :
    (s.write f).2.Aged n := by
  unfold write
  split
  · exact h
  · rename_i hfree
    cases f with
    | error why => exact h
    | ok g =>
      obtain ⟨v, sh, hpublish, hid⟩ := hf g rfl s.bucket.lock s.shared
      have hrun : (s.bucket.exclusively g s.shared).2 =
          (g s.bucket.lock s.shared).2.1.unlock (g s.bucket.lock s.shared).2.2 := rfl
      have hbucket : (s.bucket.exclusively g s.shared).2.1 =
          ((s.bucket.lock.publish v sh).1.unlock (s.bucket.lock.publish v sh).2).1 := by
        rw [hrun, hpublish]
      dsimp only
      refine h.update _ ?_ ?_ ?_
      · rw [hbucket]
        exact anchored_unlock (anchored_publish _ hid _) _
      · rw [hbucket, locked_unlock, h.locked_eq]
        exact (Bool.eq_false_iff.mpr hfree).symm
      · rw [hbucket, reference_congr (word_unlock ..), count_publish]
        exact Nat.le_add_left 1 n

theorem aged_prepare (h : s.Aged n)
    {f : Argument (Bucket κ ν → Shared κ ν → Reply κ ν × Version κ ν × Shared κ ν)}
    (hf : ∀ g, f = .ok g → (g s.bucket s.shared).2.1.id ≠ 0) : (s.prepare f).2.Aged n := by
  unfold prepare
  split
  · exact h
  · exact h
  · exact h
  · exact h
  · rename_i g hholder
    refine h.hand _ (isLocked_of_writer hholder) rfl fun v hv => ?_
    obtain rfl : _ = v := Option.some.inj (Holder.writer.inj hv)
    exact hf g rfl

theorem aged_withDraft (h : s.Aged n) {f : Argument (Version κ ν → Reply κ ν × Session κ ν)}
    (hf : ∀ g v, f = .ok g → s.holder = .writer (some v) → (g v).2.Aged n) :
    (s.withDraft f).2.Aged n := by
  unfold withDraft
  split
  · exact h
  · exact h
  · exact h
  · exact h
  · rename_i v g hholder
    exact hf g v rfl hholder

theorem aged_withReader (h : s.Aged n) (r : Nat) {f : Argument (Nat → Reply κ ν × Session κ ν)}
    (hf : ∀ g k, f = .ok g → (g k).2.Aged n) : (s.withReader r f).2.Aged n := by
  unfold withReader
  split
  · exact h
  · exact h
  · rename_i k g hheld
    exact hf g k rfl

/-! ## One acquisition -/

/-- Who acquires now has to wait: the bucket brims, and somebody has the lock. -/
def Waits (s : Session κ ν) : Prop := s.isLocked = true ∧ s.bucket.Brims

theorem wouldBlock_iff : s.wouldBlock = true ↔ s.Waits := by
  unfold wouldBlock Waits Brims
  simp [and_assoc]

/-- All that an acquisition can come to, however many readers there are. -/
theorem Aged.acquiring_cases (h : s.Aged n) (absent : Reply κ ν)
    (f : Nat → Session κ ν → Reply κ ν × Session κ ν) :
    (s.Waits ∧ s.acquiring absent f = (.refused .wouldBlock, s)) ∨
    (¬ s.Waits ∧ s.bucket.chain = [] ∧ s.acquiring absent f = (absent, s)) ∨
    (∃ b sh, ¬ s.Waits ∧ s.bucket.chain ≠ [] ∧ s.bucket.Shortens b ∧
      Aged { s with bucket := b, shared := sh } (n + 1) ∧
      s.acquiring absent f = f s.bucket.published { s with bucket := b, shared := sh }) := by
  have hanch := anchored_acquire h.anchored s.shared
  have hlock := locked_acquire h.anchored s.shared
  have hshort := shortens_acquire h.anchored s.shared
  have hcount := count_acquire_le h.anchored s.shared
  unfold acquiring
  rw [wouldCarry_eq_false h.anchored, if_neg (by simp)]
  by_cases hwaits : s.Waits
  · rw [if_pos (wouldBlock_iff.mpr hwaits)]
    exact .inl ⟨hwaits, rfl⟩
  · rw [if_neg fun hblock => hwaits (wouldBlock_iff.mp hblock)]
    have hupdate := h.older.update (s.bucket.acquire s.shared).2.2 hanch hlock
      (Nat.le_trans hcount (Nat.add_le_add_right h.count_le 1))
    rcases Bucket.acquire_cases h.anchored s.shared with
      ⟨hchain, hacq⟩ | ⟨hne, hat, hheld, _⟩ | ⟨hne, _, _, hacq⟩ | ⟨hne, _, hacq⟩
    · refine .inr (.inl ⟨hwaits, hchain, ?_⟩)
      rw [hacq]
    -- whoever has to wait has been refused before
    · exact absurd ⟨h.locked_eq.symm.trans hheld, hne, hat⟩ hwaits
    all_goals
      rw [hacq] at hshort hupdate ⊢
      exact .inr (.inr ⟨_, _, hwaits, hne, hshort, hupdate, rfl⟩)

/-! ## Steps and runs -/

theorem aged_acquire (h : s.Aged n) (r : Nat) : (s.step (.acquire r)).2.Aged (n + 1) := by
  dsimp only [step]
  split
  · exact h.older
  · rcases h.acquiring_cases (.version none) (fun n s =>
        (.version (s.bucket.version? n), { s with readers := s.readers.set r n })) with
      ⟨_, heq⟩ | ⟨_, _, heq⟩ | ⟨b, sh, _, _, _, haged, heq⟩
    · rw [heq]; exact h.older
    · rw [heq]; exact h.older
    · rw [heq]; exact ⟨haged.anchored, haged.locked_eq, haged.draft, haged.count_le⟩

theorem aged_get (h : s.Aged n) (q : Query κ) : (s.step (.get q)).2.Aged (n + 1) := by
  dsimp only [step]
  rcases h.acquiring_cases (.item none) (fun n s =>
      (.item (s.bucket.findAt n q), s.letGo n)) with
    ⟨_, heq⟩ | ⟨_, _, heq⟩ | ⟨b, sh, _, _, _, haged, heq⟩
  · rw [heq]; exact h.older
  · rw [heq]; exact h.older
  · rw [heq]; exact haged.letGo _

theorem aged_step (h : s.Aged n) {c : Command κ ν} (hc : c.setsCounts = false) :
    (s.step c).2.Aged (n + if c.reads then 1 else 0) := by
  cases c with
  | replace change =>
    refine aged_write h fun g hg b sh => ?_
    obtain ⟨⟨q, i⟩, _, rfl⟩ := Argument.ok_of_map hg
    exact ⟨_, _, rfl, id_draftWithout_ne b q sh⟩
  | add i =>
    refine aged_write h fun g hg b sh => ?_
    obtain ⟨i, _, rfl⟩ := Argument.ok_of_map hg
    exact ⟨_, _, rfl, id_draftCopy_ne b sh⟩
  | remove q =>
    refine aged_write h fun g hg b sh => ?_
    obtain ⟨q, _, rfl⟩ := Argument.ok_of_map hg
    exact ⟨_, _, rfl, id_draftWithout_ne b q sh⟩
  | wipe =>
    refine aged_write h fun g hg b sh => ?_
    obtain rfl := Except.ok.inj hg
    exact ⟨_, _, rfl, id_draftEmpty_ne b sh⟩
  -- the lock changes hands
  | lock | lockBare =>
    dsimp only [step]
    split
    · exact h
    · exact h.takeLock rfl (by simp)
  | unlock =>
    dsimp only [step]
    split
    · exact h.unlock
    · exact h
  | adopt =>
    dsimp only [step]
    split
    · rename_i hholder
      exact h.hand _ (by rw [isLocked, hholder]) rfl (by simp)
    · exact h
    · exact h
  | keep =>
    dsimp only [step]
    split
    · rename_i hholder
      exact h.hand _ (isLocked_of_writer hholder) rfl (by simp)
    · exact h
    · exact h
  | inspect =>
    dsimp only [step]
    split <;> exact h
  -- what a writer does with its draft
  | draftCopy =>
    refine aged_prepare h fun g hg => ?_
    obtain rfl := Except.ok.inj hg
    exact id_draftCopy_ne _ _
  | draftEmpty =>
    refine aged_prepare h fun g hg => ?_
    obtain rfl := Except.ok.inj hg
    exact id_draftEmpty_ne _ _
  | draftWithout q =>
    refine aged_prepare h fun g hg => ?_
    obtain ⟨q, _, rfl⟩ := Argument.ok_of_map hg
    exact id_draftWithout_ne _ q _
  | push i =>
    refine aged_withDraft h fun g v hg hholder => ?_
    obtain ⟨i, _, rfl⟩ := Argument.ok_of_map hg
    refine h.hand s.shared (isLocked_of_writer hholder) rfl fun w hw => ?_
    obtain rfl : v.push i = w := Option.some.inj (Holder.writer.inj hw)
    exact h.draft v hholder
  | publish =>
    refine aged_withDraft h fun g v hg hholder => ?_
    obtain rfl := Except.ok.inj hg
    exact {
      anchored := anchored_publish _ (h.draft v hholder) _
      locked_eq := (locked_publish ..).trans (h.locked_eq.trans (isLocked_of_writer hholder))
      draft := by simp
      count_le := by
        show ((s.bucket.publish v s.shared).1.reference.count).toNat ≤ n + 1
        rw [count_publish]
        exact Nat.le_add_left 1 n }
  | discard =>
    refine aged_withDraft h fun g v hg hholder => ?_
    obtain rfl := Except.ok.inj hg
    exact h.hand _ (isLocked_of_writer hholder) rfl (by simp)
  | install items =>
    dsimp only [step]
    split
    · exact h
    · cases items with
      | error why => exact h
      | ok l =>
        refine h.update _ (anchored_installItems _ l _) rfl ?_
        show (Reference.ofWord (Reference.word ⟨1, 1⟩)).count.toNat ≤ n + 1
        rw [Reference.ofWord_word]
        exact Nat.le_add_left 1 n
  -- readers come and go
  | acquire r => exact aged_acquire h r
  | release r =>
    refine aged_withReader h r fun g k hg => ?_
    obtain rfl := Except.ok.inj hg
    have herased : Aged { s with readers := s.readers.erase r } n :=
      ⟨h.anchored, h.locked_eq, h.draft, h.count_le⟩
    exact herased.letGo k
  | itemsOf r =>
    refine aged_withReader h r fun g k hg => ?_
    obtain rfl := Except.ok.inj hg
    exact h
  | search r q =>
    refine aged_withReader h r fun g k hg => ?_
    obtain ⟨q, _, rfl⟩ := Argument.ok_of_map hg
    exact h
  | get q => exact aged_get h q
  | rebalance =>
    dsimp only [step]
    split
    · exact h
    · rename_i hfree
      have hrun : s.bucket.rebalance s.shared = s.bucket.lock.unlock s.shared := by
        unfold rebalance
        rw [transfer_of_anchored (anchored_lock h.anchored)]
      dsimp only
      rw [hrun]
      refine h.update _ (anchored_unlock (anchored_lock h.anchored) _) ?_ ?_
      · rw [locked_unlock, h.locked_eq]
        exact (Bool.eq_false_iff.mpr hfree).symm
      · rw [reference_congr (word_unlock ..)]
        exact h.count_le
  -- these set counts
  | getWith word => cases hc
  | shift n => cases hc

theorem Aged.run (h : s.Aged n) {cs : List (Command κ ν)}
    (hcs : ∀ c ∈ cs, c.setsCounts = false) : (s.run cs).Aged (n + cs.countP (·.reads)) := by
  induction cs generalizing s n with
  | nil => exact h
  | cons c cs ih =>
    have hnext := ih (aged_step h (hcs c List.mem_cons_self)) fun c hc =>
      hcs c (List.mem_cons_of_mem _ hc)
    rw [List.countP_cons, ← Nat.add_assoc]
    rwa [Nat.add_right_comm] at hnext

/-! ## What a reader gets -/

/-- Whoever acquires finds what was current. -/
theorem version?_of_shortens {b c : Bucket κ ν} (h : b.Shortens c) (hne : b.chain ≠ []) :
    ∃ v, c.version? b.published = some v ∧ v.items = b.items := by
  have hitems : c.items = b.items := by rw [items_eq_current, items_eq_current, h.current]
  obtain ⟨v, older, hchain⟩ := List.exists_cons_of_ne_nil fun hnil => hne (h.vacant hnil)
  refine ⟨v, ?_, ?_⟩
  · rw [version?, h.published_eq, Nat.sub_self, hchain]
    rfl
  · rw [← hitems, items, newest?, hchain]
    rfl

/--
**A reader gets the current items, or waits for who has the lock to move the count.** In any
session, with any pool and however many readers, a reader waits if and only if the lock is held
and the bucket brims. A reader that would wait is taken not to have begun: nothing changes, and what
it has added to the count by then is left out. Else a reader gets what is current, whoever has the
lock. A run without nearly as many acquisitions as the bound on the count has nobody wait.
-/
theorem reads_wait_iff (pool : Pool κ ν) (cs : List (Command κ ν))
    (hcs : ∀ c ∈ cs, c.setsCounts = false) :
    let s := run { shared := { pool } } cs
    (∀ q, (s.Waits ∧ s.step (.get q) = (.refused .wouldBlock, s)) ∨
      (¬ s.Waits ∧ (s.step (.get q)).1 = .item (s.bucket.items.find? q.selects))) ∧
    (∀ r, s.readers.get? r = none →
      (s.Waits ∧ s.step (.acquire r) = (.refused .wouldBlock, s)) ∨
      (¬ s.Waits ∧ s.bucket.chain = [] ∧ s.step (.acquire r) = (.version none, s)) ∨
      (¬ s.Waits ∧ (s.step (.acquire r)).2.readers = s.readers.set r s.bucket.published ∧
        ∃ v, (s.step (.acquire r)).1 = .version (some v) ∧ v.items = s.bucket.items)) ∧
    (s.Waits → rebalanceAt.toNat - 2 ≤ cs.countP (·.reads)) := by
  intro s
  have haged : s.Aged (0 + cs.countP (·.reads)) := (aged_new pool).run hcs
  rw [Nat.zero_add] at haged
  refine ⟨fun q => ?_, fun r hfree => ?_, fun hwaits => ?_⟩
  · dsimp only [step]
    rcases haged.acquiring_cases (.item none) (fun n s =>
        (.item (s.bucket.findAt n q), s.letGo n)) with
      ⟨hwaits, heq⟩ | ⟨hwaits, hchain, heq⟩ | ⟨b, sh, hwaits, hne, hshort, _, heq⟩
    · exact .inl ⟨hwaits, heq⟩
    · refine .inr ⟨hwaits, ?_⟩
      rw [heq, items, newest?, hchain]
      rfl
    · obtain ⟨v, hv, hitems⟩ := version?_of_shortens hshort hne
      refine .inr ⟨hwaits, ?_⟩
      rw [heq, ← hitems]
      dsimp only
      rw [findAt, hv]
      exact congrArg Reply.item (Version.find?_eq ..)
  · dsimp only [step]
    rw [hfree]
    rcases haged.acquiring_cases (.version none) (fun n s =>
        (.version (s.bucket.version? n), { s with readers := s.readers.set r n })) with
      ⟨hwaits, heq⟩ | ⟨hwaits, hchain, heq⟩ | ⟨b, sh, hwaits, hne, hshort, _, heq⟩
    · exact .inl ⟨hwaits, heq⟩
    · exact .inr (.inl ⟨hwaits, hchain, heq⟩)
    · obtain ⟨v, hv, hitems⟩ := version?_of_shortens hshort hne
      refine .inr (.inr ⟨hwaits, ?_⟩)
      dsimp only
      rw [heq]
      exact ⟨rfl, v, congrArg Reply.version hv, hitems⟩
  -- the count is one more than the acquisitions, at most, and has one to go
  · obtain ⟨_, _, hat⟩ := hwaits
    have hcount := haged.count_le
    have hnext := toNat_next_le s.bucket.reference.count
    rw [hat] at hnext
    omega

/-- An item, a writer that has the lock, and a reader. -/
def lockedReader : Session Nat Nat :=
  run { shared := { pool := {} } } [.add (.ok ⟨3, 5, 7⟩), .lock, .acquire 0]

/-- With the lock held, another reader gets what is current. -/
theorem reads_wait_iff_locked :
    lockedReader.isLocked = true ∧
      (lockedReader.step (.acquire 1)).2.readers = lockedReader.readers.set 1 1 ∧
      (lockedReader.step (.get ⟨3, (· == 5)⟩)).1 = .item (some ⟨3, 5, 7⟩) := by
  obtain ⟨hget, hacquire, hwaits⟩ := reads_wait_iff ({} : Pool Nat Nat)
    [.add (.ok ⟨3, 5, 7⟩), .lock, .acquire 0] (by decide)
  have hcalm : ¬ lockedReader.Waits := fun hw => absurd (hwaits hw) (by decide)
  refine ⟨rfl, ?_, ?_⟩
  · rcases hacquire 1 rfl with ⟨hw, _⟩ | ⟨_, hchain, _⟩ | ⟨_, hreaders, _⟩
    · exact absurd hw hcalm
    · exact absurd hchain (by decide)
    · exact hreaders
  · rcases hget ⟨3, (· == 5)⟩ with ⟨hw, _⟩ | ⟨_, hitem⟩
    · exact absurd hw hcalm
    · exact hitem

/-! ## Many reads -/

theorem shift_cons {head : Version κ ν} {older : List (Version κ ν)}
    (hchain : s.bucket.chain = head :: older) (k : UInt32) :
    s.shift k = { s with bucket := { s.bucket with
      word := Reference.word ⟨s.bucket.reference.id, s.bucket.reference.count + k⟩
      chain := { head with internal := head.internal - k.toInt32 } :: older } } := by
  unfold shift
  rw [hchain]

theorem shift_zero : s.shift 0 = s := by
  cases hchain : s.bucket.chain with
  | nil => rw [shift, hchain]
  | cons head older =>
    have hzero : (0 : UInt32).toInt32 = 0 := rfl
    rw [shift_cons hchain, hzero, Int32.sub_zero, UInt32.add_zero]
    show { s with bucket := { s.bucket with
      word := (Reference.ofWord s.bucket.word).word, chain := head :: older } } = s
    rw [Reference.word_ofWord, ← hchain]

theorem shift_shift (j k : UInt32) : (s.shift j).shift k = s.shift (j + k) := by
  cases hchain : s.bucket.chain with
  | nil =>
    have hnone (k : UInt32) : s.shift k = s := by rw [shift, hchain]
    rw [hnone, hnone, hnone]
  | cons head older =>
    have hchain' : (s.shift j).bucket.chain =
        { head with internal := head.internal - j.toInt32 } :: older := by
      rw [shift_cons hchain]
    rw [shift_cons hchain', shift_cons hchain, shift_cons hchain]
    dsimp only [reference]
    rw [Reference.ofWord_word, UInt32.add_assoc]
    have hinternal : head.internal - j.toInt32 - k.toInt32 = head.internal - (j + k).toInt32 := by
      rw [toInt32_add]
      generalize j.toInt32 = x, k.toInt32 = y
      grind
    rw [hinternal]

/-- A read that does not bring the count to its bound, nor is the last to go, leaves a shift. -/
theorem step_get_eq_shift (h : s.bucket.Anchored) {head : Version κ ν}
    {older : List (Version κ ν)} (hchain : s.bucket.chain = head :: older)
    (hbelow : s.bucket.reference.count + 1 ≠ rebalanceAt) (hlast : head.internal ≠ 1)
    (q : Query κ) : s.step (.get q) = (.item (head.find? q), s.shift 1) := by
  have hne : s.bucket.chain ≠ [] := by simp [hchain]
  have hblock : s.wouldBlock = false := by
    unfold wouldBlock
    simp [hbelow]
  have hacq := acquire_below h hne hbelow s.shared
  have hversion : s.bucket.claimed.version? s.bucket.published = some head := by
    show s.bucket.chain[s.bucket.published - s.bucket.published]? = some head
    rw [Nat.sub_self, hchain]
    rfl
  have hword : s.bucket.claimed.word =
      Reference.word ⟨s.bucket.reference.id, s.bucket.reference.count + 1⟩ := by
    rw [← reference_claimed h hne]
    exact (Reference.word_ofWord _).symm
  have hrelease : s.bucket.claimed.release s.bucket.published s.shared =
      ((s.shift 1).bucket, s.shared) := by
    unfold release
    rw [hversion]
    dsimp only
    rw [if_neg hlast, shift_cons hchain, ← hword]
    have hmodified : s.bucket.claimed.modifyInternal s.bucket.published (· - 1) =
        { s.bucket.claimed with
          chain := { head with internal := head.internal - 1 } :: older } := by
      unfold modifyInternal
      show ({ s.bucket.claimed with chain := (s.bucket.chain.modify
        (s.bucket.published - s.bucket.published) fun v =>
          { v with internal := v.internal - 1 }) } : Bucket κ ν) = _
      rw [Nat.sub_self, hchain]
      rfl
    rw [hmodified]
    rfl
  dsimp only [step]
  unfold acquiring
  rw [wouldCarry_eq_false h, hblock, if_neg (by simp), if_neg (by simp), hacq]
  dsimp only
  unfold letGo
  dsimp only
  rw [findAt, hversion, hrelease, shift_cons hchain]

/-- Reads that come and go take as much from the newest version as they leave in the word. -/
theorem run_gets_eq_shift (k : Nat) (h : s.bucket.Anchored) {head : Version κ ν}
    {older : List (Version κ ν)} (hchain : s.bucket.chain = head :: older)
    (hbelow : s.bucket.reference.count.toNat + k < rebalanceAt.toNat)
    (hlast : head.internal.toInt ≤ 0) (hroom : -2 ^ 31 < head.internal.toInt - k)
    (q : Query κ) : s.run (List.replicate k (.get q)) = s.shift (UInt32.ofNat k) := by
  induction k generalizing s head with
  | zero => exact shift_zero.symm
  | succ k ih =>
    have hbound := toNat_rebalanceAt
    have hroomy : s.bucket.reference.count.toNat < rebalanceAt.toNat := by omega
    have hnext := toNat_next hroomy
    have hget := step_get_eq_shift h hchain
      (fun hat => by rw [next_eq_rebalanceAt_iff hroomy] at hat; omega)
      (fun hone => absurd hlast (by rw [hone]; decide)) q
    have hshift := shift_cons hchain 1
    have hcount : (s.shift 1).bucket.reference.count = s.bucket.reference.count + 1 := by
      rw [hshift]
      dsimp only [reference]
      rw [Reference.ofWord_word]
    have hanch : (s.shift 1).bucket.Anchored := by
      rw [hshift]
      cases h with
      | vacant hnil => exact absurd (hnil.symm.trans hchain) (by simp)
      | named head' older' count hchain' hword hid hpos hlt =>
        obtain ⟨rfl, rfl⟩ := List.cons.inj (hchain'.symm.trans hchain)
        have hreference : s.bucket.reference = ⟨head'.id, count⟩ := by
          rw [reference, hword, Reference.ofWord_word]
        rw [hreference] at hbelow hnext ⊢
        dsimp only at hbelow hnext
        exact .named _ _ (count + 1) rfl rfl hid (by omega) (by omega)
    have hinternal : (head.internal - (1 : UInt32).toInt32).toInt = head.internal.toInt - 1 :=
      toInt_sub_one (by omega)
    rw [List.replicate_succ, run, hget, ih hanch (by rw [hshift]) (by rw [hcount, hnext]; omega)
      (by dsimp only; omega) (by dsimp only; omega), shift_shift]
    rw [UInt32.add_comm, UInt32.ofNat_add]
    rfl

/-- A bucket that has been published once, and that somebody then locks. -/
def lockedOnce : Session Nat Nat := run {} [.wipe, .lockBare]

/-- Reads of that bucket alone. -/
def readsUnderLock (k : Nat) : List (Command Nat Nat) :=
  .wipe :: .lockBare :: List.replicate k (.get ⟨0, (· == 0)⟩)

theorem setsCounts_readsUnderLock (k : Nat) :
    ∀ c ∈ readsUnderLock k, c.setsCounts = false := by
  intro c hc
  rcases List.mem_cons.mp hc with rfl | hc
  · rfl
  rcases List.mem_cons.mp hc with rfl | hc
  · rfl
  rw [List.eq_of_mem_replicate hc]
  rfl

theorem run_readsUnderLock {k : Nat} (hk : k < 999999999) :
    run {} (readsUnderLock k) = lockedOnce.shift (UInt32.ofNat k) := by
  have hcalm : ∀ c ∈ ([.wipe, .lockBare] : List (Command Nat Nat)), c.setsCounts = false := by
    decide
  have hanch : lockedOnce.bucket.Anchored := ((aged_new {}).run hcalm).anchored
  obtain ⟨head, hchain, hzero⟩ : ∃ head, lockedOnce.bucket.chain = [head] ∧ head.internal = 0 :=
    ⟨_, rfl, rfl⟩
  have hcount : lockedOnce.bucket.reference.count.toNat = 1 := by decide +kernel
  have hint : head.internal.toInt = 0 := by rw [hzero]; rfl
  have hbound := toNat_rebalanceAt
  exact run_gets_eq_shift k hanch hchain (by omega) (by omega) (by omega) _

theorem step_refused (h : s.bucket.Anchored) (hblock : s.wouldBlock = true) (q : Query κ) {r : Nat}
    (hfree : s.readers.get? r = none) :
    s.step (.get q) = (.refused .wouldBlock, s) ∧
      s.step (.acquire r) = (.refused .wouldBlock, s) := by
  dsimp only [step]
  unfold acquiring
  rw [hfree, wouldCarry_eq_false h, hblock]
  exact ⟨rfl, rfl⟩

/-- So many reads bring whoever has the lock to wait for itself. -/
theorem reads_under_lock_wait :
    let s := run {} (readsUnderLock 999999998)
    (∀ c ∈ readsUnderLock 999999998, c.setsCounts = false) ∧ s.isLocked = true ∧
      s.step (.get ⟨0, (· == 0)⟩) = (.refused .wouldBlock, s) ∧
      s.step (.acquire 0) = (.refused .wouldBlock, s) := by
  have hanch := ((aged_new {}).run (setsCounts_readsUnderLock 999999998)).anchored
  rw [run_readsUnderLock (by decide)] at hanch ⊢
  exact ⟨setsCounts_readsUnderLock _, rfl, step_refused hanch (by decide +kernel) _ rfl⟩

end Session

end Bucket

end VersionedMap
