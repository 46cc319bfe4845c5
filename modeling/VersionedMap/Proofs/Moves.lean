import Mathlib.Logic.Relation
import VersionedMap.Proofs.BucketRuns

/-!
# Where versions go

An operation on a bucket moves versions between three places: the pool, the chain and the hands of
whoever has the lock. There are few ways to move them. The oldest superseded versions are retired, a
draft is published, or put back; the rest of what is done to a bucket changes counts and marks, and
the rest of what is done to a draft its items.

Before any of that an operation may take one version for a draft, or let the draft go. So every
command on a bucket is one opening and some moves, and what is to be shown of all commands is shown
of these.
-/

namespace VersionedMap

variable {κ ν α : Type}

/-- What a version is within a chain: which allocation, its identifier, what it supersedes. -/
def Version.link (v : Version κ ν) : Version κ ν := { v with internal := 0, contents := .empty }

theorem Version.link_internal (v : Version κ ν) (x : Int32) :
    Version.link { v with internal := x } = v.link := rfl

theorem Version.stamp_of_link {v w : Version κ ν} (h : w.link = v.link) : w.stamp = v.stamp :=
  congrArg (·.stamp) h

theorem Version.id_of_link {v w : Version κ ν} (h : w.link = v.link) : w.id = v.id :=
  congrArg (·.id) h

theorem Version.prev_of_link {v w : Version κ ν} (h : w.link = v.link) : w.prev = v.prev :=
  congrArg (·.prev) h

namespace Bucket

/-- The chain without counts and items. -/
def links (b : Bucket κ ν) : List (Version κ ν) := b.chain.map Version.link

theorem links_recount {b c : Bucket κ ν} {head : Version κ ν} {older : List (Version κ ν)}
    (hb : b.chain = head :: older) {x : Int32}
    (hc : c.chain = { head with internal := x } :: older) : c.links = b.links := by
  rw [links, links, hb, hc, List.map_cons, List.map_cons, Version.link_internal]

/-- An empty version made the successor of the newest, or the first. -/
def successor (b : Bucket κ ν) (v : Version κ ν) : Version κ ν :=
  match b.newest? with
  | none => { v with id := 1 }
  | some head => v.follow head

theorem stamp_successor (b : Bucket κ ν) (v : Version κ ν) : (b.successor v).stamp = v.stamp := by
  unfold successor
  cases b.newest? <;> rfl

end Bucket

/-- A bucket at work: its pool, and the draft in the hands of whoever has the lock. -/
structure Site (κ ν : Type) where
  bucket : Bucket κ ν
  pool : Pool κ ν
  draft : Option (Version κ ν) := none

namespace Site

/-- One way to change a site in which no version is taken from the pool or let go. -/
inductive Move : Site κ ν → Site κ ν → Prop
  /-- Counts, marks and the lock. -/
  | mark {b c : Bucket κ ν} {p : Pool κ ν} {d : Option (Version κ ν)}
      (hlinks : c.links = b.links) (hpub : c.published = b.published) : Move ⟨b, p, d⟩ ⟨c, p, d⟩
  /-- The oldest superseded versions go to the pool. -/
  | retire {b c : Bucket κ ν} {p : Pool κ ν} {d : Option (Version κ ν)} {head : Version κ ν}
      {older : List (Version κ ν)} (hchain : b.chain = head :: older)
      (hkept : c.chain = Bucket.endChain (head :: Bucket.kept older))
      (hpub : c.published = b.published) :
      Move ⟨b, p, d⟩ ⟨c, p.putAll (Bucket.retired older), d⟩
  /-- The items of the draft. -/
  | write {b : Bucket κ ν} {p : Pool κ ν} {v w : Version κ ν} (hlink : w.link = v.link) :
      Move ⟨b, p, some v⟩ ⟨b, p, some w⟩
  /-- The draft becomes the newest version. -/
  | publish {b c : Bucket κ ν} {p : Pool κ ν} {v : Version κ ν}
      (hlinks : c.links = v.link :: b.links) (hpub : c.published = b.published + 1) :
      Move ⟨b, p, some v⟩ ⟨c, p, none⟩
  /-- The draft goes back to the pool. -/
  | put {b : Bucket κ ν} {p : Pool κ ν} {v : Version κ ν} : Move ⟨b, p, some v⟩ ⟨b, p.put v, none⟩

/-- Some moves, one after another. -/
def Moves : Site κ ν → Site κ ν → Prop := Relation.ReflTransGen Move

/-- How an operation begins; `ends` says whether the writer ends with it. -/
inductive Opens (ends : Bool) : Site κ ν → Site κ ν → Prop
  | idle (x : Site κ ν) : Opens ends x x
  /-- A version is taken, and made a draft. -/
  | take {b : Bucket κ ν} {p : Pool κ ν} {v : Version κ ν}
      (hlink : v.link = (b.successor p.take.1).link) : Opens ends ⟨b, p, none⟩ ⟨b, p.take.2, some v⟩
  /-- The draft is let go, along with the writer. -/
  | drop {b : Bucket κ ν} {p : Pool κ ν} {v : Version κ ν} (hends : ends = true) :
      Opens ends ⟨b, p, some v⟩ ⟨b, p.drop v, none⟩

/-- All that an operation does: an opening and moves. -/
def Works (ends : Bool) (x z : Site κ ν) : Prop := ∃ y, Opens ends x y ∧ Moves y z

variable {x y z : Site κ ν} {ends : Bool}

theorem Moves.refl (x : Site κ ν) : Moves x x := Relation.ReflTransGen.refl

theorem Moves.trans (h : Moves x y) (h' : Moves y z) : Moves x z := Relation.ReflTransGen.trans h h'

theorem Move.moves (h : Move x y) : Moves x y := Relation.ReflTransGen.single h

theorem Moves.mark {b c : Bucket κ ν} {p : Pool κ ν} {d : Option (Version κ ν)}
    (hlinks : c.links = b.links) (hpub : c.published = b.published) : Moves ⟨b, p, d⟩ ⟨c, p, d⟩ :=
  Move.moves (.mark hlinks hpub)

/-- The reference word is no part of the chain, whatever it is set to. -/
theorem moves_word (b : Bucket κ ν) (w : UInt64) (p : Pool κ ν) (d : Option (Version κ ν)) :
    Moves ⟨b, p, d⟩ ⟨{ b with word := w }, p, d⟩ :=
  .mark rfl rfl

theorem Moves.works (h : Moves x z) : Works ends x z := ⟨x, .idle x, h⟩

theorem Works.moves (h : Works ends x y) (h' : Moves y z) : Works ends x z := by
  obtain ⟨w, hopens, hmoves⟩ := h
  exact ⟨w, hopens, hmoves.trans h'⟩

/-- What every move keeps is kept by any number of them. -/
theorem Moves.keep {P : Site κ ν → Prop} (hmove : ∀ {x y}, Move x y → P x → P y) (h : Moves x y)
    (hx : P x) : P y := by
  induction h with
  | refl => exact hx
  | tail _ hstep ih => exact hmove hstep ih

/-- What openings and moves keep is kept by every operation. -/
theorem Works.keep {P : Site κ ν → Prop} (hopen : ∀ {x y}, Opens ends x y → P x → P y)
    (hmove : ∀ {x y}, Move x y → P x → P y) (h : Works ends x z) (hx : P x) : P z := by
  obtain ⟨y, hopens, hmoves⟩ := h
  exact hmoves.keep hmove (hopen hopens hx)

end Site

open Site

namespace Bucket

/-! ## Operations under the lock and without -/

theorem links_modifyInternal (b : Bucket κ ν) (n : Nat) (f : Int32 → Int32) :
    (b.modifyInternal n f).links = b.links := by
  refine List.ext_getElem? fun i => ?_
  simp only [links, modifyInternal, List.getElem?_map, List.getElem?_modify]
  split <;> cases b.chain[i]? <;> rfl

theorem links_transfer (b : Bucket κ ν) (s : Shared κ ν) : (b.transfer s).1.links = b.links := by
  unfold transfer
  split
  · rfl
  · split
    · rfl
    · rename_i head older hchain
      exact links_recount hchain rfl

theorem pool_transfer (b : Bucket κ ν) (s : Shared κ ν) : (b.transfer s).2.pool = s.pool := by
  unfold transfer
  split
  · rfl
  · split <;> rfl

theorem published_transfer (b : Bucket κ ν) (s : Shared κ ν) :
    (b.transfer s).1.published = b.published :=
  (shortens_transfer b s).published_eq

variable {d : Option (Version κ ν)}

theorem moves_reclaim (b : Bucket κ ν) (s : Shared κ ν) :
    Moves ⟨b, s.pool, d⟩ ⟨(b.reclaim s).1, (b.reclaim s).2.pool, d⟩ := by
  unfold reclaim
  split
  · exact .refl _
  · rename_i head older hchain
    have hretire : Move ⟨b, s.pool, d⟩ ⟨{ b with chain := endChain (head :: kept older) },
        (s.putAll (retired older)).pool, d⟩ := .retire hchain rfl rfl
    exact hretire.moves

theorem moves_servePending (b : Bucket κ ν) (s : Shared κ ν) :
    Moves ⟨b, s.pool, d⟩ ⟨(b.servePending s).1, (b.servePending s).2.pool, d⟩ := by
  unfold servePending
  split
  · have hserved : Moves ⟨b, s.pool, d⟩ ⟨{ b with pending := false }, s.pool, d⟩ := .mark rfl rfl
    exact hserved.trans (moves_reclaim _ s)
  · exact .refl _

theorem moves_unlock (b : Bucket κ ν) (s : Shared κ ν) :
    Moves ⟨b, s.pool, d⟩ ⟨(b.unlock s).1, (b.unlock s).2.pool, d⟩ := by
  have hfree : Moves ⟨b, s.pool, d⟩ ⟨b.unlocked, s.pool, d⟩ := .mark rfl rfl
  exact hfree.trans (moves_servePending _ s)

theorem moves_rebalance (b : Bucket κ ν) (s : Shared κ ν) :
    Moves ⟨b, s.pool, d⟩ ⟨(b.rebalance s).1, (b.rebalance s).2.pool, d⟩ := by
  have hmoved : Moves ⟨b, s.pool, d⟩ ⟨(b.lock.transfer s).1, s.pool, d⟩ :=
    .mark (links_transfer b.lock s) (published_transfer b.lock s)
  have hfree := moves_unlock (d := d) (b.lock.transfer s).1 (b.lock.transfer s).2
  rw [pool_transfer] at hfree
  exact hmoved.trans hfree

/-- Whatever the word says, a reader changes no more than counts, or brings about a reclamation. -/
theorem moves_acquire (b : Bucket κ ν) (s : Shared κ ν) :
    Moves ⟨b, s.pool, d⟩ ⟨(b.acquire s).2.1, (b.acquire s).2.2.pool, d⟩ := by
  have hclaimed : Moves ⟨b, s.pool, d⟩ ⟨b.claimed, s.pool, d⟩ := moves_word b (b.word + 1) s.pool d
  rcases b.acquire_snd_cases s with hsame | hclaim | hrebalance
  · rw [hsame]
    exact .refl _
  · rw [hclaim]
    exact hclaimed
  · rw [hrebalance]
    exact hclaimed.trans (moves_rebalance _ s)

theorem moves_release (b : Bucket κ ν) (n : Nat) (s : Shared κ ν) :
    Moves ⟨b, s.pool, d⟩ ⟨(b.release n s).1, (b.release n s).2.pool, d⟩ := by
  unfold release
  split
  · exact .refl _
  · have hlinks := links_modifyInternal b n (· - 1)
    dsimp only
    split
    · have hmark : Moves ⟨b, s.pool, d⟩
          ⟨{ b.modifyInternal n (· - 1) with pending := true }, s.pool, d⟩ := .mark hlinks rfl
      exact hmark.trans (moves_servePending _ s)
    · exact .mark hlinks rfl

theorem moves_publish (b : Bucket κ ν) (v : Version κ ν) (s : Shared κ ν) :
    Moves ⟨b, s.pool, some v⟩ ⟨(b.publish v s).1, (b.publish v s).2.pool, none⟩ := by
  cases hchain : b.chain with
  | nil =>
    unfold publish
    rw [hchain]
    refine (Move.publish ?_ rfl).moves
    rw [links, links, hchain]
    rfl
  | cons head older =>
    -- the count of the version that is superseded is no part of the chain as such
    have hfront : Move ⟨b, s.pool, some v⟩ ⟨b.supersede head older v, s.pool, none⟩ := by
      refine .publish ?_ rfl
      rw [links, links, hchain]
      rfl
    rw [publish_cons hchain]
    split
    · exact hfront.moves.trans (moves_reclaim _ s)
    · exact hfront.moves

/-! ## Drafts -/

theorem link_draftCopy (b : Bucket κ ν) (s : Shared κ ν) :
    (b.draftCopy s).1.link = (b.successor s.pool.take.1).link := by
  unfold draftCopy successor
  cases b.newest? <;> rfl

theorem link_draftEmpty (b : Bucket κ ν) (s : Shared κ ν) :
    (b.draftEmpty s).1.link = (b.successor s.pool.take.1).link := by
  unfold draftEmpty successor
  cases b.newest? <;> rfl

theorem link_draftWithout (b : Bucket κ ν) (q : Query κ) (s : Shared κ ν) :
    (b.draftWithout q s).2.1.link = (b.successor s.pool.take.1).link := by
  unfold draftWithout successor
  cases b.newest? <;> rfl

theorem pool_draftCopy (b : Bucket κ ν) (s : Shared κ ν) :
    (b.draftCopy s).2.pool = s.pool.take.2 := by
  unfold draftCopy
  cases b.newest? <;> rfl

theorem pool_draftEmpty (b : Bucket κ ν) (s : Shared κ ν) :
    (b.draftEmpty s).2.pool = s.pool.take.2 := by
  unfold draftEmpty
  cases b.newest? <;> rfl

theorem pool_draftWithout (b : Bucket κ ν) (q : Query κ) (s : Shared κ ν) :
    (b.draftWithout q s).2.2.pool = s.pool.take.2 := by
  unfold draftWithout
  cases b.newest? <;> rfl

/-- A write makes one draft, a successor of what is there, and publishes it. -/
def Supersedes (f : Bucket κ ν → Shared κ ν → α × Bucket κ ν × Shared κ ν) : Prop :=
  ∀ (b : Bucket κ ν) (s : Shared κ ν), ∃ v s', v.link = (b.successor s.pool.take.1).link ∧
    s'.pool = s.pool.take.2 ∧ (f b s).2 = b.publish v s'

theorem supersedes_replace (q : Query κ) (i : Item κ ν) :
    Supersedes (replace q i : Bucket κ ν → Shared κ ν → _) :=
  fun b s => ⟨(b.draftWithout q s).2.1.push i, _, link_draftWithout b q s,
    pool_draftWithout b q s, rfl⟩

theorem supersedes_remove (q : Query κ) : Supersedes (remove q : Bucket κ ν → Shared κ ν → _) :=
  fun b s => ⟨_, _, link_draftWithout b q s, pool_draftWithout b q s, rfl⟩

theorem supersedes_add (i : Item κ ν) (a : α) :
    Supersedes fun (b : Bucket κ ν) s => (a, b.add i s) :=
  fun b s => ⟨(b.draftCopy s).1.push i, _, link_draftCopy b s, pool_draftCopy b s, rfl⟩

theorem supersedes_wipe (a : α) : Supersedes fun (b : Bucket κ ν) s => (a, b.wipe s) :=
  fun b s => ⟨_, _, link_draftEmpty b s, pool_draftEmpty b s, rfl⟩

/-- A write to a bucket whose lock is held. -/
theorem Supersedes.works {f : Bucket κ ν → Shared κ ν → α × Bucket κ ν × Shared κ ν}
    (h : Supersedes f) {ends : Bool} (b : Bucket κ ν) (s : Shared κ ν) :
    Works ends ⟨b, s.pool, none⟩ ⟨(f b s).2.1, (f b s).2.2.pool, none⟩ := by
  obtain ⟨v, s', hlink, hpool, heq⟩ := h b s
  have hmoves := moves_publish b v s'
  rw [hpool] at hmoves
  rw [heq]
  exact ⟨_, .take hlink, hmoves⟩

/-- A bucket whose lock is taken has the same successors. -/
theorem works_lock {ends : Bool} {b : Bucket κ ν} {p : Pool κ ν} {z : Site κ ν}
    (h : Works ends ⟨b.lock, p, none⟩ z) : Works ends ⟨b, p, none⟩ z := by
  obtain ⟨y, hopens, hmoves⟩ := h
  cases hopens with
  | idle =>
    have hlock : Moves ⟨b, p, none⟩ ⟨b.lock, p, none⟩ := .mark rfl rfl
    exact ⟨_, .idle _, hlock.trans hmoves⟩
  | @take _ _ v hlink =>
    have hlock : Moves ⟨b, p.take.2, some v⟩ ⟨b.lock, p.take.2, some v⟩ := .mark rfl rfl
    exact ⟨_, .take hlink, hlock.trans hmoves⟩

theorem Supersedes.works_exclusively
    {f : Bucket κ ν → Shared κ ν → α × Bucket κ ν × Shared κ ν} (h : Supersedes f) {ends : Bool}
    (b : Bucket κ ν) (s : Shared κ ν) :
    Works ends ⟨b, s.pool, none⟩ ⟨(b.exclusively f s).2.1, (b.exclusively f s).2.2.pool, none⟩ := by
  have hunlock := moves_unlock (d := none) (f b.lock s).2.1 (f b.lock s).2.2
  exact works_lock ((h.works b.lock s).moves hunlock)

/-- The first version of a bucket that has none. -/
theorem works_installItems {ends : Bool} {b : Bucket κ ν} (hchain : b.chain = [])
    (l : List (Item κ ν)) (s : Shared κ ν) :
    Works ends ⟨b, s.pool, none⟩ ⟨(b.installItems l s).1, (b.installItems l s).2.pool, none⟩ := by
  have hfirst : ({ s.pool.take.1 with
      id := 1, contents := s.pool.take.1.contents.pushAll l } : Version κ ν).link
      = (b.successor s.pool.take.1).link := by
    unfold successor newest?
    rw [hchain]
    rfl
  have hlinks : (b.installItems l s).1.links = ({ s.pool.take.1 with
      id := 1, contents := s.pool.take.1.contents.pushAll l } : Version κ ν).link :: b.links := by
    rw [links, links, hchain]
    rfl
  exact ⟨_, .take hfirst, (Move.publish hlinks rfl).moves⟩

/-! ## Commands -/

/-- The draft in hand. -/
def Holder.draft : Holder κ ν → Option (Version κ ν)
  | .writer d => d
  | .nobody | .bare => none

/-- Whether a command ends a writer. -/
def Command.ends : Command κ ν → Bool
  | .unlock | .keep => true
  | _ => false

namespace Session

/-- The bucket of a session at work. -/
def site (s : Session κ ν) : Site κ ν := ⟨s.bucket, s.shared.pool, s.holder.draft⟩

variable {s : Session κ ν} {ends : Bool}

theorem draft_of_free (h : ¬ s.isLocked = true) : s.holder.draft = none := by
  unfold isLocked at h
  cases hholder : s.holder with
  | nobody => rfl
  | bare => rfl
  | writer d => simp [hholder] at h

theorem works_write
    {f : Argument (Bucket κ ν → Shared κ ν → Reply κ ν × Bucket κ ν × Shared κ ν)}
    (hf : ∀ g, f = .ok g → Supersedes g) : Works ends s.site (s.write f).2.site := by
  unfold write
  split
  · exact (Moves.refl _).works
  · rename_i hfree
    cases f with
    | error why => exact (Moves.refl _).works
    | ok g =>
      unfold site
      rw [draft_of_free hfree]
      exact (hf g rfl).works_exclusively s.bucket s.shared

theorem works_prepare
    {f : Argument (Bucket κ ν → Shared κ ν → Reply κ ν × Version κ ν × Shared κ ν)}
    (hf : ∀ g, f = .ok g →
      (g s.bucket s.shared).2.1.link = (s.bucket.successor s.shared.pool.take.1).link ∧
      (g s.bucket s.shared).2.2.pool = s.shared.pool.take.2) :
    Works ends s.site (s.prepare f).2.site := by
  unfold prepare
  split
  · exact (Moves.refl _).works
  · exact (Moves.refl _).works
  · exact (Moves.refl _).works
  · exact (Moves.refl _).works
  · rename_i g hholder
    obtain ⟨hlink, hpool⟩ := hf g rfl
    unfold site
    dsimp only [Holder.draft]
    rw [hholder, hpool]
    exact ⟨_, .take hlink, .refl _⟩

theorem works_withDraft {f : Argument (Version κ ν → Reply κ ν × Session κ ν)}
    (hf : ∀ g v, f = .ok g → Moves ⟨s.bucket, s.shared.pool, some v⟩ (g v).2.site) :
    Works ends s.site (s.withDraft f).2.site := by
  unfold withDraft
  split
  · exact (Moves.refl _).works
  · exact (Moves.refl _).works
  · exact (Moves.refl _).works
  · exact (Moves.refl _).works
  · rename_i v g hholder
    have hmoves := hf g v rfl
    unfold site at hmoves ⊢
    rw [hholder]
    exact hmoves.works

theorem moves_letGo (s : Session κ ν) (n : Nat) : Moves s.site (s.letGo n).site :=
  moves_release s.bucket n s.shared

theorem works_withReader {r : Nat} {f : Argument (Nat → Reply κ ν × Session κ ν)}
    (hf : ∀ g n, f = .ok g → Moves s.site (g n).2.site) :
    Works ends s.site (s.withReader r f).2.site := by
  unfold withReader
  split
  · exact (Moves.refl _).works
  · exact (Moves.refl _).works
  · rename_i n g hheld
    exact (hf g n rfl).works

theorem moves_acquiring (absent : Reply κ ν) {f : Nat → Session κ ν → Reply κ ν × Session κ ν}
    (hf : ∀ n t, Moves t.site (f n t).2.site) : Moves s.site (s.acquiring absent f).2.site := by
  have hacquire := moves_acquire (d := s.holder.draft) s.bucket s.shared
  unfold acquiring
  split
  · exact .refl _
  · split
    · exact .refl _
    · generalize s.bucket.acquire s.shared = out at hacquire
      obtain ⟨outcome, b, sh⟩ := out
      cases outcome with
      | waits => exact .refl _
      | absent => exact hacquire
      | held n => exact hacquire.trans (hf n { s with bucket := b, shared := sh })

/-- A race between a reader and a publication moves no version that a reader by itself would not. -/
theorem moves_getWith (s : Session κ ν) (word : Reference) :
    Moves s.site (s.getWith word).2.site := by
  have hword := moves_word s.bucket word.word s.shared.pool s.holder.draft
  have hacquire := moves_acquire (d := s.holder.draft) { s.bucket with word := word.word } s.shared
  unfold getWith
  split
  · exact .refl _
  · generalize ({ s.bucket with word := word.word } : Bucket κ ν).acquire s.shared = out at hacquire
    obtain ⟨outcome, b, sh⟩ := out
    have hback := hword.trans (hacquire.trans (moves_word b s.bucket.word sh.pool s.holder.draft))
    cases outcome with
    | absent => exact hback
    | waits => exact hback
    | held n =>
      refine hback.trans (.trans ?_ (moves_letGo _ n))
      dsimp only
      split
      · exact moves_word ..
      · exact .mark (links_modifyInternal ..) rfl

theorem moves_shift (s : Session κ ν) (n : UInt32) : Moves s.site (s.shift n).site := by
  unfold shift
  split
  · exact .refl _
  · rename_i head older hchain
    exact .mark (links_recount hchain rfl) rfl

/-- The lock is released, and a draft that may be in hand is let go. -/
theorem works_unlock (s : Session κ ν) : Works true s.site s.unlock.site := by
  unfold Session.unlock
  split
  · have hunlock := moves_unlock (d := none) s.bucket s.sharedWithoutDraft
    refine Works.moves ?_ hunlock
    unfold site sharedWithoutDraft
    split
    · rename_i v hholder
      rw [hholder]
      exact ⟨_, .drop rfl, .refl _⟩
    all_goals
      rename_i hholder
      rw [hholder]
      exact (Moves.refl _).works
  · exact (Moves.refl _).works

theorem works_keep (s : Session κ ν) : Works true s.site (s.step .keep).2.site := by
  dsimp only [step]
  split
  · rename_i d hholder
    unfold site sharedWithoutDraft
    rw [hholder]
    cases d with
    | none => exact (Moves.refl _).works
    | some v => exact ⟨_, .drop rfl, .refl _⟩
  · exact (Moves.refl _).works
  · exact (Moves.refl _).works

theorem works_install (items : Argument (List (Item κ ν))) :
    Works ends s.site (s.step (.install items)).2.site := by
  dsimp only [step]
  split
  · exact (Moves.refl _).works
  · rename_i hfresh
    simp only [Bool.or_eq_true, not_or, Bool.not_eq_true', Bool.not_eq_false] at hfresh
    cases items with
    | error why => exact (Moves.refl _).works
    | ok l =>
      unfold site
      rw [draft_of_free hfresh.1]
      exact works_installItems (List.isEmpty_iff.mp hfresh.2) l s.shared

/-- Every command is an opening and some moves. -/
theorem works_step (s : Session κ ν) (c : Command κ ν) : Works c.ends s.site (s.step c).2.site := by
  cases c with
  | replace change =>
    refine works_write fun g hg => ?_
    obtain ⟨⟨q, i⟩, _, rfl⟩ := Argument.ok_of_map hg
    exact supersedes_replace q i
  | add i =>
    refine works_write fun g hg => ?_
    obtain ⟨i, _, rfl⟩ := Argument.ok_of_map hg
    exact supersedes_add i _
  | remove q =>
    refine works_write fun g hg => ?_
    obtain ⟨q, _, rfl⟩ := Argument.ok_of_map hg
    exact supersedes_remove q
  | wipe =>
    refine works_write fun g hg => ?_
    obtain rfl := Except.ok.inj hg
    exact supersedes_wipe _
  -- the lock changes hands
  | lock | lockBare =>
    dsimp only [step]
    split
    · exact (Moves.refl _).works
    · rename_i hfree
      unfold site
      rw [draft_of_free hfree]
      have hlock : Moves ⟨s.bucket, s.shared.pool, none⟩ ⟨s.bucket.lock, s.shared.pool, none⟩ :=
        .mark rfl rfl
      exact hlock.works
  | unlock =>
    dsimp only [step]
    split
    · exact works_unlock s
    · exact (Moves.refl _).works
  | adopt =>
    dsimp only [step]
    split
    · rename_i hholder
      unfold site
      rw [hholder]
      exact (Moves.refl _).works
    · exact (Moves.refl _).works
    · exact (Moves.refl _).works
  | keep => exact works_keep s
  | inspect =>
    dsimp only [step]
    split <;> exact (Moves.refl _).works
  -- what a writer does with its draft
  | draftCopy =>
    refine works_prepare fun g hg => ?_
    obtain rfl := Except.ok.inj hg
    exact ⟨link_draftCopy .., pool_draftCopy ..⟩
  | draftEmpty =>
    refine works_prepare fun g hg => ?_
    obtain rfl := Except.ok.inj hg
    exact ⟨link_draftEmpty .., pool_draftEmpty ..⟩
  | draftWithout q =>
    refine works_prepare fun g hg => ?_
    obtain ⟨q, _, rfl⟩ := Argument.ok_of_map hg
    exact ⟨link_draftWithout .., pool_draftWithout ..⟩
  | push i =>
    refine works_withDraft fun g v hg => ?_
    obtain ⟨i, _, rfl⟩ := Argument.ok_of_map hg
    have hwrite : Move ⟨s.bucket, s.shared.pool, some v⟩
        ⟨s.bucket, s.shared.pool, some (v.push i)⟩ := .write rfl
    exact hwrite.moves
  | publish =>
    refine works_withDraft fun g v hg => ?_
    obtain rfl := Except.ok.inj hg
    exact moves_publish s.bucket v s.shared
  | discard =>
    refine works_withDraft fun g v hg => ?_
    obtain rfl := Except.ok.inj hg
    exact Move.put.moves
  | install items => exact works_install items
  -- readers come and go
  | acquire r =>
    dsimp only [step]
    split
    · exact (Moves.refl _).works
    · exact (moves_acquiring _ fun n t => .refl _).works
  | release r =>
    refine works_withReader fun g n hg => ?_
    obtain rfl := Except.ok.inj hg
    exact moves_letGo { s with readers := s.readers.erase r } n
  | itemsOf r =>
    refine works_withReader fun g n hg => ?_
    obtain rfl := Except.ok.inj hg
    exact .refl _
  | search r q =>
    refine works_withReader fun g n hg => ?_
    obtain ⟨q, _, rfl⟩ := Argument.ok_of_map hg
    exact .refl _
  | get q => exact (moves_acquiring _ fun n t => moves_letGo t n).works
  | getWith word => exact (moves_getWith s word).works
  | shift n => exact (moves_shift s n).works
  | rebalance =>
    dsimp only [step]
    split
    · exact (Moves.refl _).works
    · exact (moves_rebalance s.bucket s.shared).works

end Session

end Bucket

end VersionedMap
