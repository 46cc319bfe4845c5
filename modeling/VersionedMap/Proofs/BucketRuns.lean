import VersionedMap.Proofs.Readers

/-!
# Runs of a bucket

What holds of a bucket with its pool, its lock holder and its readers in every state that
can be reached by commands. The commands that set counters by hand are left out: they put
a bucket into states that it does not get into by itself.

The invariant has the counts exact, the chain tidy, the pool clean and the draft in hand
ready to be published. One step keeps it as long as fewer than `2 ^ 31` readers hold any
one publication, and so does a run along which that is so.
-/

namespace VersionedMap

variable {κ ν α : Type}

theorem Argument.ok_of_map {β : Type} {x : Argument α} {f : α → β} {b : β}
    (h : Except.map f x = .ok b) : ∃ a, x = .ok a ∧ f a = b := by
  cases x with
  | error why => cases h
  | ok a => exact ⟨a, rfl, Except.ok.inj h⟩

/-! ## Drafts -/

/-- Ready to be published: it has an identifier, and nobody has been counted on it. -/
def Version.IsDraft (v : Version κ ν) : Prop := v.id ≠ 0 ∧ v.internal = 0

theorem Version.IsDraft.push {v : Version κ ν} (h : v.IsDraft) (i : Item κ ν) :
    (v.push i).IsDraft := h

theorem Shared.internal_take {s : Shared κ ν} (h : s.pool.IsClean) : s.take.1.internal = 0 :=
  (congrArg Version.internal h.reset_take).symm

namespace Bucket

theorem isDraft_draftCopy (b : Bucket κ ν) {s : Shared κ ν} (h : s.pool.IsClean) :
    (b.draftCopy s).1.IsDraft := by
  refine ⟨id_draftCopy_ne b s, ?_⟩
  unfold draftCopy
  dsimp only
  split <;> exact Shared.internal_take h

theorem isDraft_draftEmpty (b : Bucket κ ν) {s : Shared κ ν} (h : s.pool.IsClean) :
    (b.draftEmpty s).1.IsDraft := by
  refine ⟨id_draftEmpty_ne b s, ?_⟩
  unfold draftEmpty
  dsimp only
  split <;> exact Shared.internal_take h

theorem isDraft_draftWithout (b : Bucket κ ν) (q : Query κ) {s : Shared κ ν}
    (h : s.pool.IsClean) : (b.draftWithout q s).2.1.IsDraft := by
  refine ⟨id_draftWithout_ne b q s, ?_⟩
  unfold draftWithout
  dsimp only
  split <;> exact Shared.internal_take h

/-- What is left of a bucket and a clean pool by the publication of one draft. -/
def Publishes (b : Bucket κ ν) (out : Bucket κ ν × Shared κ ν) : Prop :=
  ∃ v s, out = b.publish v s ∧ v.IsDraft ∧ s.pool.IsClean

/-- A write publishes one draft and does nothing else to the bucket. -/
def Writes (f : Bucket κ ν → Shared κ ν → α × Bucket κ ν × Shared κ ν) : Prop :=
  ∀ (b : Bucket κ ν) (s : Shared κ ν), s.pool.IsClean → b.Publishes (f b s).2

/-- Counted and tidy: all that a run keeps of the bucket itself. -/
structure Orderly (b : Bucket κ ν) (held : Nat → Nat) : Prop where
  counted : b.Counted held
  tidy : b.Tidy held

theorem Orderly.unlock {b : Bucket κ ν} {held : Nat → Nat} (h : b.Orderly held)
    (hroom : Roomy held) (s : Shared κ ν) : (b.unlock s).1.Orderly held :=
  ⟨counted_unlock h.counted hroom s, tidy_unlock h.counted.toTallied h.tidy s⟩

theorem Orderly.publish {b : Bucket κ ν} {held : Nat → Nat} (h : b.Orderly held)
    (hroom : Roomy held) (hlocked : b.locked = true) {v : Version κ ν} (hv : v.IsDraft)
    (s : Shared κ ν) : (b.publish v s).1.Orderly held :=
  ⟨counted_publish h.counted hroom hv.1 hv.2 s, tidy_publish h.counted h.tidy hlocked hv.2 s⟩

theorem Orderly.release {b : Bucket κ ν} {held : Nat → Nat} (h : b.Orderly held)
    (hroom : Roomy held) {n : Nat} (hn : held n ≠ 0) (s : Shared κ ν) :
    (b.release n s).1.Orderly (fewer held n) :=
  ⟨counted_release h.counted hroom hn s, tidy_release h.counted h.tidy hn s⟩

theorem Orderly.rebalance {b : Bucket κ ν} {held : Nat → Nat} (h : b.Orderly held)
    (hroom : Roomy held) (s : Shared κ ν) : (b.rebalance s).1.Orderly held := by
  -- the count is below the bound between operations, so there is nothing to move
  have hlow : (b.lock.transfer s).1 = b.lock := by
    unfold transfer
    split
    · rfl
    · rename_i hhigh
      cases h.counted.anchored with
      | vacant hchain =>
        have hnil : b.lock.chain = [] := hchain
        rw [hnil]
      | named head older count hchain hword hid hpos hlt =>
        have hr : b.lock.reference.count = count := by
          show (Reference.ofWord b.word).count = count
          rw [hword, Reference.ofWord_word]
        rw [hr] at hhigh
        exact absurd (UInt32.lt_iff_toNat_lt.mpr hlt) hhigh
  have hlock : (b.lock.transfer s).1.Orderly held := by
    rw [hlow]
    exact ⟨counted_lock h.counted, tidy_lock h.tidy⟩
  exact hlock.unlock hroom _

theorem Orderly.exclusively {b : Bucket κ ν} {held : Nat → Nat} (h : b.Orderly held)
    (hroom : Roomy held) {f : Bucket κ ν → Shared κ ν → α × Bucket κ ν × Shared κ ν}
    (hf : Writes f) {s : Shared κ ν} (hclean : s.pool.IsClean) :
    (b.exclusively f s).2.1.Orderly held ∧ (b.exclusively f s).2.2.pool.IsClean := by
  -- a write is a publication between lock and unlock
  obtain ⟨v, s', heq, hv, hclean'⟩ := hf b.lock s hclean
  have hlock : b.lock.Orderly held := ⟨counted_lock h.counted, tidy_lock h.tidy⟩
  have hafter := (hlock.publish hroom rfl hv s').unlock hroom (b.lock.publish v s').2
  have hpool := clean_unlock (b.lock.publish v s').1 (clean_publish b.lock v hclean')
  have hrun : (b.exclusively f s).2 = (f b.lock s).2.1.unlock (f b.lock s).2.2 := rfl
  rw [hrun, heq]
  exact ⟨hafter, hpool⟩

theorem Orderly.install {b : Bucket κ ν} {held : Nat → Nat} (h : b.Orderly held)
    (hchain : b.chain = []) {v : Version κ ν} (hfresh : v.internal = 0) :
    (b.install v).Orderly held :=
  ⟨counted_install h.counted hchain hfresh, h.tidy.served,
    fun _ hlong => absurd hlong (Nat.lt_irrefl 1)⟩

theorem publishes_replace (q : Query κ) (i : Item κ ν) (b : Bucket κ ν) {s : Shared κ ν}
    (h : s.pool.IsClean) : b.Publishes (b.replace q i s).2 :=
  ⟨_, _, rfl, (isDraft_draftWithout b q h).push i, clean_draftWithout b q h⟩

theorem publishes_add (i : Item κ ν) (b : Bucket κ ν) {s : Shared κ ν}
    (h : s.pool.IsClean) : b.Publishes (b.add i s) :=
  ⟨_, _, rfl, (isDraft_draftCopy b h).push i, clean_draftCopy b h⟩

theorem publishes_remove (q : Query κ) (b : Bucket κ ν) {s : Shared κ ν}
    (h : s.pool.IsClean) : b.Publishes (b.remove q s).2 :=
  ⟨_, _, rfl, isDraft_draftWithout b q h, clean_draftWithout b q h⟩

theorem publishes_wipe (b : Bucket κ ν) {s : Shared κ ν}
    (h : s.pool.IsClean) : b.Publishes (b.wipe s) :=
  ⟨_, _, rfl, isDraft_draftEmpty b h, clean_draftEmpty b h⟩

/-! ## Reachable states -/

/-- Whether a command sets counters by hand. -/
def Command.setsCounts : Command κ ν → Bool
  | .getWith _ | .shift _ => true
  | _ => false

namespace Session

/-- Fewer than `2 ^ 31` readers hold any one publication. -/
def Uncrowded (s : Session κ ν) : Prop := ∀ n, s.held n < 2 ^ 31

/-- The states that a new bucket with a given pool can get into. -/
inductive Reachable (pool : Pool κ ν) : Session κ ν → Prop
  | new : Reachable pool { shared := { pool } }
  | step {s : Session κ ν} (c : Command κ ν) : Reachable pool s → s.Uncrowded →
      c.setsCounts = false → Reachable pool (s.step c).2

/-- The session after some commands. -/
def run (s : Session κ ν) : List (Command κ ν) → Session κ ν
  | [] => s
  | c :: cs => (s.step c).2.run cs

/-- No command sets counts, and none is given to a crowded session. -/
def Calm (s : Session κ ν) : List (Command κ ν) → Prop
  | [] => True
  | c :: cs => s.Uncrowded ∧ c.setsCounts = false ∧ (s.step c).2.Calm cs

theorem Reachable.run {pool : Pool κ ν} {s : Session κ ν} {cs : List (Command κ ν)}
    (h : Reachable pool s) (hcs : s.Calm cs) : Reachable pool (s.run cs) := by
  induction cs generalizing s with
  | nil => exact h
  | cons c cs ih => exact ih (h.step c hcs.1 hcs.2.1) hcs.2.2

/-- What a run keeps of a session. -/
structure Sound (s : Session κ ν) : Prop where
  orderly : s.bucket.Orderly s.held
  locked_eq : s.bucket.locked = s.isLocked
  clean : s.shared.pool.IsClean
  draft : ∀ v, s.holder = .writer (some v) → v.IsDraft
  distinct : s.readers.numbers.Nodup

theorem uncrowded_of_length {s : Session κ ν} (h : s.readers.toList.length < 2 ^ 31) :
    s.Uncrowded := by
  intro n
  have hle := List.count_le_length (a := n) (l := s.readers.values)
  have hlen : s.readers.values.length = s.readers.toList.length := List.length_map ..
  unfold held
  omega

theorem Uncrowded.roomy {s : Session κ ν} (h : s.Uncrowded) : Roomy s.held := by
  intro n
  have := h n
  omega

theorem Uncrowded.roomy_more {s : Session κ ν} (h : s.Uncrowded) (n : Nat) :
    Roomy (more s.held n) := by
  intro m
  have := h m
  unfold more
  split <;> omega

theorem sound_new {pool : Pool κ ν} (hpool : pool.IsClean) :
    Sound ({ shared := { pool } } : Session κ ν) where
  orderly := ⟨counted_new, tidy_new⟩
  locked_eq := rfl
  clean := hpool
  draft := by intro v hv; cases hv
  distinct := List.nodup_nil

/-- The same session with a bucket and a pool of which the same holds. -/
theorem Sound.update {s : Session κ ν} (h : s.Sound) {b : Bucket κ ν} {sh : Shared κ ν}
    (hb : b.Orderly s.held) (hlock : b.locked = s.bucket.locked) (hclean : sh.pool.IsClean) :
    Sound { s with bucket := b, shared := sh } where
  orderly := hb
  locked_eq := hlock.trans h.locked_eq
  clean := hclean
  draft := h.draft
  distinct := h.distinct

theorem sound_write {s : Session κ ν} (h : s.Sound) (hroom : s.Uncrowded)
    {f : Argument (Bucket κ ν → Shared κ ν → Reply κ ν × Bucket κ ν × Shared κ ν)}
    (hf : ∀ g, f = .ok g → Writes g) : (s.write f).2.Sound := by
  unfold write
  split
  · exact h
  · rename_i hfree
    cases f with
    | error why => exact h
    | ok g =>
      obtain ⟨hb, hclean⟩ := h.orderly.exclusively hroom.roomy (hf g rfl) h.clean
      refine h.update hb ?_ hclean
      have hlock := h.locked_eq
      rw [Bool.eq_false_iff.mpr hfree] at hlock
      rw [hlock]
      exact locked_unlock ..

theorem sound_prepare {s : Session κ ν} (h : s.Sound)
    {f : Argument (Bucket κ ν → Shared κ ν → Reply κ ν × Version κ ν × Shared κ ν)}
    (hf : ∀ g, f = .ok g → (g s.bucket s.shared).2.1.IsDraft ∧
      (g s.bucket s.shared).2.2.pool.IsClean) : (s.prepare f).2.Sound := by
  unfold prepare
  split
  · exact h
  · exact h
  · exact h
  · exact h
  · rename_i g hholder
    obtain ⟨hv, hclean⟩ := hf g rfl
    refine ⟨h.orderly, ?_, hclean, ?_, h.distinct⟩
    · rw [h.locked_eq, isLocked, hholder]
      rfl
    · intro v heq
      obtain rfl : _ = v := Option.some.inj (Holder.writer.inj heq)
      exact hv

/-! ## Acquisition and release -/

/-- A reader more of the newest publication. -/
theorem sound_acquired {s : Session κ ν} (h : s.Sound) {b : Bucket κ ν} {sh : Shared κ ν}
    (hlock : b.locked = s.bucket.locked) (hclean : sh.pool.IsClean) {r n : Nat}
    (hfree : s.readers.get? r = none) (hb : b.Orderly (more s.held n)) :
    Sound { s with bucket := b, shared := sh, readers := s.readers.set r n } where
  orderly := by
    rw [held_set hfree rfl]
    exact hb
  locked_eq := hlock.trans h.locked_eq
  clean := hclean
  draft := h.draft
  distinct := Numbered.nodup_set h.distinct hfree n

theorem wouldCarry_eq_false {s : Session κ ν} (h : s.bucket.Anchored) : s.wouldCarry = false := by
  unfold wouldCarry
  cases h with
  | vacant hchain => simp [hchain]
  | named head older count hchain hword hid hpos hlt =>
    rw [toNat_rebalanceAt] at hlt
    have hcount : s.bucket.reference.count = count := by
      rw [reference, hword, Reference.ofWord_word]
    -- the next count is at most the bound, far from the carry
    have hnext : (count + 1).toNat ≠ (0 : UInt32).toNat := by
      rw [UInt32.toNat_add]
      have h32 : (1 : UInt32).toNat = 1 := rfl
      have h0 : (0 : UInt32).toNat = 0 := rfl
      omega
    have hfalse : (count + 1 == 0) = false := by
      simpa using fun hzero => hnext (congrArg UInt32.toNat hzero)
    rw [hcount, hfalse, Bool.and_false]

/-- All that an acquisition can come to in a session, whatever is done with its outcome. -/
theorem acquiring_cases {s : Session κ ν} (h : s.Sound) (hroom : s.Uncrowded)
    (absent : Reply κ ν) (f : Nat → Session κ ν → Reply κ ν × Session κ ν) :
    (s.wouldBlock = true ∧ s.acquiring absent f = (.refused .wouldBlock, s)) ∨
    (s.wouldBlock = false ∧ s.bucket.chain = [] ∧ s.acquiring absent f = (absent, s)) ∨
    (∃ b sh, s.wouldBlock = false ∧ s.bucket.chain ≠ [] ∧ s.bucket.Shortens b ∧
      b.locked = s.bucket.locked ∧ b.Orderly (more s.held s.bucket.published) ∧
      sh.pool.IsClean ∧
      s.acquiring absent f = f s.bucket.published { s with bucket := b, shared := sh }) := by
  have hanch := h.orderly.counted.anchored
  have hshort := shortens_acquire hanch s.shared
  have hlock := locked_acquire hanch s.shared
  have hclean := clean_acquire s.bucket h.clean
  have htidy := tidy_acquire h.orderly.counted h.orderly.tidy s.shared
  unfold acquiring
  rw [wouldCarry_eq_false hanch, if_neg (by simp)]
  cases hblock : s.wouldBlock with
  | true => exact .inl ⟨rfl, rfl⟩
  | false =>
    rw [if_neg (by simp)]
    rcases counted_acquire h.orderly.counted (hroom.roomy_more _) s.shared with
      ⟨hchain, hacq⟩ | ⟨hne, hat, hheld, hacq⟩ | ⟨hne, hout, hcounted⟩
    · refine .inr (.inl ⟨rfl, hchain, ?_⟩)
      rw [hacq]
    · -- whoever has to wait has been refused before
      have hempty : s.bucket.chain.isEmpty = false := by simpa using hne
      unfold wouldBlock at hblock
      rw [← h.locked_eq, hheld, hempty, hat] at hblock
      simp at hblock
    · generalize s.bucket.acquire s.shared = outcome at *
      obtain ⟨a, b, sh⟩ := outcome
      obtain rfl : a = .held s.bucket.published := hout
      exact .inr (.inr ⟨b, sh, rfl, hne, hshort, hlock, ⟨hcounted, htidy⟩, hclean, rfl⟩)

theorem sound_letGo {s : Session κ ν} {held : Nat → Nat} {n : Nat} (hb : s.bucket.Orderly held)
    (hroom : Roomy held) (hn : held n ≠ 0) (hs : s.held = fewer held n)
    (hlock : s.bucket.locked = s.isLocked) (hclean : s.shared.pool.IsClean)
    (hdraft : ∀ v, s.holder = .writer (some v) → v.IsDraft)
    (hdistinct : s.readers.numbers.Nodup) : (s.letGo n).Sound where
  orderly := by
    show (s.bucket.release n s.shared).1.Orderly s.held
    rw [hs]
    exact hb.release hroom hn s.shared
  locked_eq := (locked_release ..).trans hlock
  clean := clean_release _ _ hclean
  draft := hdraft
  distinct := hdistinct

theorem clean_sharedWithoutDraft {s : Session κ ν} (h : s.Sound) :
    s.sharedWithoutDraft.pool.IsClean := by
  unfold sharedWithoutDraft
  split <;> exact h.clean

theorem Sound.unlock {s : Session κ ν} (h : s.Sound) (hroom : s.Uncrowded) : s.unlock.Sound := by
  unfold Session.unlock
  split
  · exact {
      orderly := h.orderly.unlock hroom.roomy _
      locked_eq := locked_unlock ..
      clean := clean_unlock _ (clean_sharedWithoutDraft h)
      draft := by intro v hv; cases hv
      distinct := h.distinct }
  · exact h

/-! ## Steps and runs -/

theorem sound_withDraft {s : Session κ ν} (h : s.Sound)
    {f : Argument (Version κ ν → Reply κ ν × Session κ ν)}
    (hf : ∀ g v, f = .ok g → s.holder = .writer (some v) → (g v).2.Sound) :
    (s.withDraft f).2.Sound := by
  unfold withDraft
  split
  · exact h
  · exact h
  · exact h
  · exact h
  · rename_i v g hholder
    exact hf g v rfl hholder

theorem sound_withReader {s : Session κ ν} (h : s.Sound) {r : Nat}
    {f : Argument (Nat → Reply κ ν × Session κ ν)}
    (hf : ∀ g n, f = .ok g → s.readers.get? r = some n → (g n).2.Sound) :
    (s.withReader r f).2.Sound := by
  unfold withReader
  split
  · exact h
  · exact h
  · rename_i n g hheld
    exact hf g n rfl hheld

/-- The lock changes hands, and a draft that is in hand is one. -/
theorem Sound.hand {s : Session κ ν} (h : s.Sound) {holder : Holder κ ν}
    {sh : Shared κ ν} (hclean : sh.pool.IsClean) (hlocked : s.isLocked = true)
    (hlocked' : ({ s with shared := sh, holder } : Session κ ν).isLocked = true)
    (hdraft : ∀ v, holder = .writer (some v) → v.IsDraft) :
    Sound { s with shared := sh, holder } where
  orderly := h.orderly
  locked_eq := by rw [h.locked_eq, hlocked, hlocked']
  clean := hclean
  draft := hdraft
  distinct := h.distinct

theorem Sound.takeLock {s : Session κ ν} (h : s.Sound) {holder : Holder κ ν}
    (hlocked : ({ s with bucket := s.bucket.lock, holder } : Session κ ν).isLocked = true)
    (hdraft : ∀ v, holder ≠ .writer (some v)) :
    Sound { s with bucket := s.bucket.lock, holder } where
  orderly := ⟨counted_lock h.orderly.counted, tidy_lock h.orderly.tidy⟩
  locked_eq := hlocked.symm
  clean := h.clean
  draft := fun v hv => absurd hv (hdraft v)
  distinct := h.distinct

theorem isLocked_of_writer {s : Session κ ν} {d : Option (Version κ ν)}
    (hholder : s.holder = .writer d) : s.isLocked = true := by
  rw [isLocked, hholder]

theorem sound_publish {s : Session κ ν} (h : s.Sound) (hroom : s.Uncrowded) :
    (s.step .publish).2.Sound := by
  refine sound_withDraft h fun g v hg hholder => ?_
  obtain rfl := Except.ok.inj hg
  have hlocked := h.locked_eq.trans (isLocked_of_writer hholder)
  exact {
    orderly := h.orderly.publish hroom.roomy hlocked (h.draft v hholder) _
    locked_eq := (locked_publish ..).trans hlocked
    clean := clean_publish _ _ h.clean
    draft := by simp
    distinct := h.distinct }

theorem sound_install {s : Session κ ν} (h : s.Sound) (items : Argument (List (Item κ ν))) :
    (s.step (.install items)).2.Sound := by
  dsimp only [step]
  split
  · exact h
  · rename_i hfresh
    have hchain : s.bucket.chain = [] := by
      simp only [Bool.or_eq_true, Bool.not_eq_true', not_or, Bool.not_eq_false] at hfresh
      exact List.isEmpty_iff.mp hfresh.2
    cases items with
    | error why => exact h
    | ok l =>
      have hzero : s.shared.take.1.internal = 0 := Shared.internal_take h.clean
      exact h.update (h.orderly.install hchain hzero) rfl h.clean.take

theorem sound_acquire {s : Session κ ν} (h : s.Sound) (hroom : s.Uncrowded) (r : Nat) :
    (s.step (.acquire r)).2.Sound := by
  dsimp only [step]
  split
  · exact h
  · rename_i hfree
    rcases acquiring_cases h hroom (.version none) (fun n s =>
        (.version (s.bucket.version? n), { s with readers := s.readers.set r n })) with
      ⟨_, heq⟩ | ⟨_, _, heq⟩ | ⟨b, sh, _, _, _, hlock, hb, hclean, heq⟩
    · rw [heq]; exact h
    · rw [heq]; exact h
    · rw [heq]; exact sound_acquired h hlock hclean hfree hb

theorem sound_release {s : Session κ ν} (h : s.Sound) (hroom : s.Uncrowded) (r : Nat) :
    (s.step (.release r)).2.Sound := by
  refine sound_withReader h fun g n hg hheld => ?_
  obtain rfl := Except.ok.inj hg
  have hn := held_ne_zero.mpr (Numbered.mem_values hheld)
  exact sound_letGo (s := { s with readers := s.readers.erase r }) h.orderly hroom.roomy hn
    (held_erase h.distinct hheld rfl) h.locked_eq h.clean h.draft
    (Numbered.nodup_erase h.distinct r)

theorem sound_get {s : Session κ ν} (h : s.Sound) (hroom : s.Uncrowded) (q : Query κ) :
    (s.step (.get q)).2.Sound := by
  dsimp only [step]
  rcases acquiring_cases h hroom (.item none) (fun n s =>
      (.item (s.bucket.findAt n q), s.letGo n)) with
    ⟨_, heq⟩ | ⟨_, _, heq⟩ | ⟨b, sh, _, _, _, hlock, hb, hclean, heq⟩
  · rw [heq]; exact h
  · rw [heq]; exact h
  · rw [heq]
    have hone : more s.held s.bucket.published s.bucket.published ≠ 0 := by
      simp [more]
    exact sound_letGo (s := { s with bucket := b, shared := sh }) hb (hroom.roomy_more _) hone
      (fewer_more ..).symm (hlock.trans h.locked_eq) hclean h.draft h.distinct

theorem sound_rebalance {s : Session κ ν} (h : s.Sound) (hroom : s.Uncrowded) :
    (s.step .rebalance).2.Sound := by
  dsimp only [step]
  split
  · exact h
  · rename_i hfree
    have hlock : s.bucket.locked = false := h.locked_eq.trans (Bool.eq_false_iff.mpr hfree)
    exact h.update (h.orderly.rebalance hroom.roomy _) ((locked_unlock ..).trans hlock.symm)
      (clean_rebalance _ h.clean)

/-- Whatever is done with a bucket, short of setting its counts, keeps it sound. -/
theorem sound_step {s : Session κ ν} (h : s.Sound) (hroom : s.Uncrowded) {c : Command κ ν}
    (hc : c.setsCounts = false) : (s.step c).2.Sound := by
  cases c with
  | replace change =>
    refine sound_write h hroom fun g hg => ?_
    obtain ⟨⟨q, i⟩, _, rfl⟩ := Argument.ok_of_map hg
    exact fun b sh hclean => publishes_replace q i b hclean
  | add i =>
    refine sound_write h hroom fun g hg => ?_
    obtain ⟨i, _, rfl⟩ := Argument.ok_of_map hg
    exact fun b sh hclean => publishes_add i b hclean
  | remove q =>
    refine sound_write h hroom fun g hg => ?_
    obtain ⟨q, _, rfl⟩ := Argument.ok_of_map hg
    exact fun b sh hclean => publishes_remove q b hclean
  | wipe =>
    refine sound_write h hroom fun g hg => ?_
    obtain rfl := Except.ok.inj hg
    exact fun b sh hclean => publishes_wipe b hclean
  -- the lock changes hands
  | lock | lockBare =>
    dsimp only [step]
    split
    · exact h
    · exact h.takeLock rfl (by simp)
  | unlock =>
    dsimp only [step]
    split
    · exact h.unlock hroom
    · exact h
  | adopt =>
    dsimp only [step]
    split
    · rename_i hholder
      exact h.hand h.clean (by rw [isLocked, hholder]) rfl (by simp)
    · exact h
    · exact h
  | keep =>
    dsimp only [step]
    split
    · rename_i hholder
      exact h.hand (clean_sharedWithoutDraft h) (isLocked_of_writer hholder) rfl (by simp)
    · exact h
    · exact h
  | inspect =>
    dsimp only [step]
    split <;> exact h
  -- what a writer does with its draft
  | draftCopy =>
    refine sound_prepare h fun g hg => ?_
    obtain rfl := Except.ok.inj hg
    exact ⟨isDraft_draftCopy _ h.clean, clean_draftCopy _ h.clean⟩
  | draftEmpty =>
    refine sound_prepare h fun g hg => ?_
    obtain rfl := Except.ok.inj hg
    exact ⟨isDraft_draftEmpty _ h.clean, clean_draftEmpty _ h.clean⟩
  | draftWithout q =>
    refine sound_prepare h fun g hg => ?_
    obtain ⟨q, _, rfl⟩ := Argument.ok_of_map hg
    exact ⟨isDraft_draftWithout _ q h.clean, clean_draftWithout _ q h.clean⟩
  | push i =>
    refine sound_withDraft h fun g v hg hholder => ?_
    obtain ⟨i, _, rfl⟩ := Argument.ok_of_map hg
    refine h.hand h.clean (isLocked_of_writer hholder) rfl fun w hw => ?_
    obtain rfl : v.push i = w := Option.some.inj (Holder.writer.inj hw)
    exact (h.draft v hholder).push i
  | publish => exact sound_publish h hroom
  | discard =>
    refine sound_withDraft h fun g v hg hholder => ?_
    obtain rfl := Except.ok.inj hg
    exact h.hand (h.clean.putAll [v]) (isLocked_of_writer hholder) rfl (by simp)
  | install items => exact sound_install h items
  -- readers come and go
  | acquire r => exact sound_acquire h hroom r
  | release r => exact sound_release h hroom r
  | itemsOf r =>
    refine sound_withReader h fun g n hg hheld => ?_
    obtain rfl := Except.ok.inj hg
    exact h
  | search r q =>
    refine sound_withReader h fun g n hg hheld => ?_
    obtain ⟨q, _, rfl⟩ := Argument.ok_of_map hg
    exact h
  | get q => exact sound_get h hroom q
  | rebalance => exact sound_rebalance h hroom
  -- these set counts
  | getWith word => cases hc
  | shift n => cases hc

theorem sound_reachable {pool : Pool κ ν} (hpool : pool.IsClean) {s : Session κ ν}
    (h : Reachable pool s) : s.Sound := by
  induction h with
  | new => exact sound_new hpool
  | step c _ hroom hc ih => exact sound_step ih hroom hc

end Session

end Bucket

end VersionedMap
