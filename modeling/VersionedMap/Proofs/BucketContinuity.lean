import Mathlib.Data.List.Basic
import VersionedMap.Map.Mutation
import VersionedMap.Proofs.Dealing
import VersionedMap.Proofs.Links

/-!
# Buckets go on from one operation to the next

Whatever is done to a bucket within one operation on its map, by the time the operation is over all
that it has acquired has been let go of. So the bucket **continues**: whoever held something of it
holds the same of what has become of it, the counts are as right as they were, and so are the links.

Meanwhile versions have come from the pool and gone to it. What has become of a bucket **deals**
with the pool for the versions it has, and dealings add up over any number of buckets, whatever
other versions the pool accounts for.
-/

namespace VersionedMap

variable {κ ν α β ι : Type}

/-! ## Dealings with the pool -/

namespace Pool

/--
From a pool and some versions to a later pool and others. Of what is not among these any more, and
not in the pool either, nothing is said but that it is not there twice.
-/
structure Deals (p : Pool κ ν) (l : List Nat) (q : Pool κ ν) (l' : List Nat) : Prop where
  trades : ∃ gone lost, p.Trades l q (l' ++ gone) lost
  kempt : p.Kempt → q.Kempt

namespace Deals

variable {p q r : Pool κ ν} {l l' l'' k k' : List Nat}

theorem refl (p : Pool κ ν) (l : List Nat) : p.Deals l p l where
  trades := by
    refine ⟨[], [], ?_⟩
    rw [List.append_nil]
    exact .refl p l
  kempt := id

/-- Versions that are told of no longer. -/
theorem forget (p : Pool κ ν) (l gone : List Nat) : p.Deals (l ++ gone) p l :=
  ⟨⟨gone, [], .refl p _⟩, id⟩

theorem trans (h : p.Deals l q l') (h' : q.Deals l' r l'') : p.Deals l r l'' where
  trades := by
    obtain ⟨gone, lost, hfirst⟩ := h.trades
    obtain ⟨gone', lost', hnext⟩ := h'.trades
    refine ⟨gone' ++ gone, lost ++ lost', ?_⟩
    rw [← List.append_assoc]
    exact hfirst.trans (hnext.frame gone)
  kempt := h'.kempt ∘ h.kempt

theorem congr (h : p.Deals l q l') (hk : k.Perm l) (hk' : k'.Perm l') : p.Deals k q k' where
  trades := by
    obtain ⟨gone, lost, htrades⟩ := h.trades
    exact ⟨gone, lost, htrades.congr hk (hk'.append_right gone)⟩
  kempt := h.kempt

/-- Dealings for some versions do not concern the rest. -/
theorem frame (h : p.Deals l q l') (rest : List Nat) : p.Deals (l ++ rest) q (l' ++ rest) where
  trades := by
    obtain ⟨gone, lost, htrades⟩ := h.trades
    refine ⟨gone, lost, (htrades.frame rest).congr (.refl _) ?_⟩
    rw [List.append_assoc, List.append_assoc]
    exact List.perm_append_comm.append_left l'
  kempt := h.kempt

/-- Dealings for some versions and then for others are dealings for all of them. -/
theorem beside (h : p.Deals l q l') (h' : q.Deals k r k') : p.Deals (l ++ k) r (l' ++ k') :=
  (h.frame k).trans ((h'.frame l').congr List.perm_append_comm List.perm_append_comm)

/-- Where the versions are told of place by place, dealings at one place are dealings for all. -/
theorem at_one (h : p.Deals l q l') {f g : ι → List Nat} {is : List ι} (hnodup : is.Nodup) {i : ι}
    (hi : i ∈ is) (hf : f i = l) (hg : g i = l') (hother : ∀ j ∈ is, j ≠ i → g j = f j) :
    p.Deals (is.flatMap f) q (is.flatMap g) := by
  obtain ⟨before, after, rfl⟩ := List.append_of_mem hi
  rw [List.nodup_append, List.nodup_cons] at hnodup
  have hbefore : before.flatMap g = before.flatMap f := List.flatMap_congr fun j hj =>
    hother j (List.mem_append_left _ hj) fun hji => hnodup.2.2 j hj i List.mem_cons_self hji
  have hafter : after.flatMap g = after.flatMap f := List.flatMap_congr fun j hj =>
    hother j (List.mem_append_right _ (List.mem_cons_of_mem i hj)) fun hji =>
      hnodup.2.1.1 (hji ▸ hj)
  rw [List.flatMap_append, List.flatMap_append, List.flatMap_cons, List.flatMap_cons, hf, hg,
    hbefore, hafter]
  -- what there is besides stays on either side
  exact ((h.frame (after.flatMap f)).frame (before.flatMap f)).congr List.perm_append_comm
    List.perm_append_comm

/-- A sweep whose steps deal for what they make has dealt for all that it makes. -/
theorem sweepList {f : α → Shared κ ν → β × Shared κ ν} {src : α → List Nat} {out : β → List Nat}
    {xs : List α} (hf : ∀ x ∈ xs, ∀ s : Shared κ ν,
      s.pool.Deals (src x) (f x s).2.pool (out (f x s).1)) (s : Shared κ ν) :
    s.pool.Deals (xs.flatMap src) (VersionedMap.sweepList f xs s).2.pool
      ((VersionedMap.sweepList f xs s).1.flatMap out) := by
  induction xs generalizing s with
  | nil => exact .refl _ _
  | cons x xs ih =>
    have hrest := ih (fun y hy => hf y (List.mem_cons_of_mem x hy)) (f x s).2
    exact (hf x List.mem_cons_self s).beside hrest

/-- A pool that has accounted for some versions, with what else there is, still does so. -/
theorem accountsFor (h : p.Deals l q l') (hp : ∃ rest, p.AccountsFor (l ++ rest)) :
    ∃ rest, q.AccountsFor (l' ++ rest) := by
  obtain ⟨gone, lost, htrades⟩ := h.trades
  obtain ⟨rest, haccounts⟩ := hp
  refine ⟨gone ++ rest, ?_⟩
  rw [← List.append_assoc]
  exact (htrades.frame rest).accountsFor haccounts

end Deals

end Pool

/-- The stamps of the versions in the chain. -/
def Bucket.stamps (b : Bucket κ ν) : List Nat := b.chain.map (·.stamp)

/-- Whatever is done to a bucket, it deals with the pool for the versions that it has. -/
theorem Site.Works.deals {ends : Bool} {b c : Bucket κ ν} {p q : Pool κ ν}
    (h : Site.Works ends ⟨b, p, none⟩ ⟨c, q, none⟩) : p.Deals b.stamps q c.stamps where
  trades := by
    obtain ⟨lost, htrades, _⟩ := h.trades
    refine ⟨[], lost, ?_⟩
    rw [List.append_nil]
    exact htrades
  kempt := h.kempt

theorem Site.Works.linked {ends : Bool} {b c : Bucket κ ν} {p q : Pool κ ν}
    (h : Site.Works ends ⟨b, p, none⟩ ⟨c, q, none⟩) (hp : p.IsClean) (hb : Linked b.chain) :
    Linked c.chain :=
  (h.woven hp ⟨hb, fun _ hv => absurd hv (Option.some_ne_none _).symm⟩).chain

namespace Bucket

/-! ## Buckets that continue -/

/-- So few readers hold any one publication that neither count wraps. -/
def Few (held : Nat → Nat) : Prop := ∀ n, held n < 2 ^ 31

theorem few_none : Few fun _ => 0 := fun _ => Nat.two_pow_pos 31

theorem Few.roomy {held : Nat → Nat} (h : Few held) : Roomy held := by
  intro n
  have := h n
  omega

theorem Few.roomy_more {held : Nat → Nat} (h : Few held) (n : Nat) : Roomy (more held n) := by
  intro m
  have := h m
  unfold more
  split <;> omega

/-- Whatever publication is still there is the one that was there. -/
structure Evolves (b c : Bucket κ ν) : Prop where
  published_le : b.published ≤ c.published
  version : ∀ n ≤ b.published, ∀ w, c.version? n = some w →
    ∃ u, b.version? n = some u ∧ u.lasting = w.lasting

theorem Evolves.refl (b : Bucket κ ν) : b.Evolves b := ⟨Nat.le_refl _, fun _ _ w hw => ⟨w, hw, rfl⟩⟩

theorem Evolves.trans {b c d : Bucket κ ν} (h : b.Evolves c) (h' : c.Evolves d) : b.Evolves d where
  published_le := h.published_le.trans h'.published_le
  version n hn w hw := by
    obtain ⟨u, hu, hlasting⟩ := h'.version n (hn.trans h.published_le) w hw
    obtain ⟨t, ht, hlasting'⟩ := h.version n hn u hu
    exact ⟨t, ht, hlasting'.trans hlasting⟩

/-- Some have been published, and then some of the oldest may have gone. -/
theorem evolves_of_prefix {b c : Bucket κ ν} (news : List (Version κ ν))
    (hsplit : c.lasting <+: news ++ b.lasting) (hpub : c.published = b.published + news.length) :
    b.Evolves c where
  published_le := by omega
  version n hn w hw := by
    have hat : (news ++ b.lasting)[c.published - n]? = some w.lasting := by
      have hfront : c.lasting[c.published - n]? = some w.lasting := by
        rw [lasting, List.getElem?_map]
        exact congrArg (Option.map Version.lasting) hw
      obtain ⟨rest, hrest⟩ := hsplit
      rw [← hrest, List.getElem?_append_left (List.getElem?_eq_some_iff.mp hfront).1, hfront]
    -- the new ones are in front of all that was published before
    rw [show c.published - n = b.published - n + news.length by omega,
      List.getElem?_append_right (Nat.le_add_left _ _), Nat.add_sub_cancel, lasting,
      List.getElem?_map] at hat
    exact Option.map_eq_some_iff.mp hat

theorem Shortens.evolves {b c : Bucket κ ν} (h : b.Shortens c) : b.Evolves c :=
  evolves_of_prefix [] h.prefix_lasting h.published_eq

theorem evolves_publish (b : Bucket κ ν) (v : Version κ ν) (s : Shared κ ν) :
    b.Evolves (b.publish v s).1 :=
  evolves_of_prefix [v.lasting] (prefix_publish b v s) (published_publish b v s)

/-- Whoever holds something of `b` holds the same of `c`, and all that was in order is. -/
structure Continues (b c : Bucket κ ν) : Prop where
  keeps : ∀ held, Few held → b.Orderly held → c.Orderly held ∧ b.Evolves c
  linked : Linked b.chain → Linked c.chain

theorem Continues.refl (b : Bucket κ ν) : b.Continues b := ⟨fun _ _ h => ⟨h, .refl b⟩, id⟩

theorem Continues.trans {b c d : Bucket κ ν} (h : b.Continues c) (h' : c.Continues d) :
    b.Continues d where
  keeps held hfew hb := by
    obtain ⟨hc, hevolves⟩ := h.keeps held hfew hb
    obtain ⟨hd, hevolves'⟩ := h'.keeps held hfew hc
    exact ⟨hd, hevolves.trans hevolves'⟩
  linked := h'.linked ∘ h.linked

/-- Nobody holds anything of it, and it is in order. -/
structure Fresh (b : Bucket κ ν) : Prop where
  orderly : b.Orderly fun _ => 0
  linked : Linked b.chain

theorem fresh_new : ({} : Bucket κ ν).Fresh := ⟨⟨counted_new, tidy_new⟩, trivial⟩

theorem Fresh.continues {b c : Bucket κ ν} (h : b.Fresh) (hc : b.Continues c) : c.Fresh :=
  ⟨(hc.keeps _ few_none h.orderly).1, hc.linked h.linked⟩

/-! ## What an operation does to a bucket -/

/-- From a bucket and a pool to others, by an operation that lets go of all that it acquires. -/
structure Tends (b : Bucket κ ν) (p : Pool κ ν) (c : Bucket κ ν) (q : Pool κ ν) : Prop where
  works : Site.Works false ⟨b, p, none⟩ ⟨c, q, none⟩
  keeps : p.IsClean → ∀ held, Few held → b.Orderly held → c.Orderly held ∧ b.Evolves c

namespace Tends

variable {b c d : Bucket κ ν} {p q r : Pool κ ν}

theorem refl (b : Bucket κ ν) (p : Pool κ ν) : b.Tends p b p :=
  ⟨(Site.Moves.refl _).works, fun _ _ _ h => ⟨h, .refl b⟩⟩

theorem deals (h : b.Tends p c q) : p.Deals b.stamps q c.stamps := h.works.deals

theorem continues (h : b.Tends p c q) (hp : p.IsClean) : b.Continues c where
  keeps := h.keeps hp
  linked := h.works.linked hp

/-- What is done under the lock, from when the lock is taken. -/
theorem of_lock (h : b.lock.Tends p c q) : b.Tends p c q where
  works := works_lock h.works
  keeps hp held hfew hb := by
    obtain ⟨hc, hevolves⟩ := h.keeps hp held hfew ⟨counted_lock hb.counted, tidy_lock hb.tidy⟩
    exact ⟨hc, (shortens_lock b).evolves.trans hevolves⟩

/-- What is done, and then the lock is released. -/
theorem unlock {s : Shared κ ν} (h : b.Tends p c s.pool) :
    b.Tends p (c.unlock s).1 (c.unlock s).2.pool where
  works := h.works.moves (moves_unlock c s)
  keeps hp held hfew hb := by
    obtain ⟨hc, hevolves⟩ := h.keeps hp held hfew hb
    exact ⟨hc.unlock hfew.roomy s, hevolves.trans (shortens_unlock c s).evolves⟩

end Tends

theorem tends_lock (b : Bucket κ ν) (p : Pool κ ν) : b.Tends p b.lock p := (Tends.refl _ p).of_lock

theorem tends_unlock (b : Bucket κ ν) (s : Shared κ ν) :
    b.Tends s.pool (b.unlock s).1 (b.unlock s).2.pool :=
  (Tends.refl b s.pool).unlock

/-- A write to a bucket whose lock is held. -/
theorem tends_write {f : Bucket κ ν → Shared κ ν → α × Bucket κ ν × Shared κ ν}
    (hf : Supersedes f) (hf' : Writes f) {b : Bucket κ ν} (hlocked : b.locked = true)
    (s : Shared κ ν) : b.Tends s.pool (f b s).2.1 (f b s).2.2.pool where
  works := hf.works b s
  keeps hclean _ hfew hb := by
    obtain ⟨v, s', heq, hv, _⟩ := hf' b s hclean
    rw [heq]
    exact ⟨hb.publish hfew.roomy hlocked hv s', evolves_publish b v s'⟩

theorem tends_wipe {b : Bucket κ ν} (hlocked : b.locked = true) (s : Shared κ ν) :
    b.Tends s.pool (b.wipe s).1 (b.wipe s).2.pool :=
  tends_write (supersedes_wipe ()) (fun b _ hclean => publishes_wipe b hclean) hlocked s

/-! ## Growth -/

/-- Who reads a bucket lets go of it again, whatever becomes meanwhile of what is read. -/
theorem continues_reading {σ : Type} {f : List (Item κ ν) → σ × Shared κ ν → σ × Shared κ ν}
    (hf : ∀ l x, x.2.pool.IsClean → (f l x).2.pool.IsClean) (b : Bucket κ ν) {x : σ × Shared κ ν}
    (hx : x.2.pool.IsClean) : b.Continues (b.reading f x).1 where
  keeps held hfew hb := by
    have hshort := shortens_acquire hb.counted.anchored x.2
    have htidy := tidy_acquire hb.counted hb.tidy x.2
    unfold reading
    rcases counted_acquire hb.counted (hfew.roomy_more _) x.2 with
      ⟨_, hacq⟩ | ⟨_, _, _, hacq⟩ | ⟨_, hout, hcounted⟩
    · rw [hacq]
      exact ⟨hb, .refl b⟩
    · rw [hacq]
      exact ⟨hb, .refl b⟩
    · generalize b.acquire x.2 = acquired at *
      obtain ⟨a, c, s⟩ := acquired
      obtain rfl : a = .held b.published := hout
      dsimp only
      generalize (f (c.itemsAt b.published) (x.1, s)).2 = s'
      have hc : c.Orderly (more held b.published) := ⟨hcounted, htidy⟩
      have hone : more held b.published b.published ≠ 0 := by simp [more]
      have hback := hc.release (hfew.roomy_more _) hone s'
      rw [fewer_more] at hback
      exact ⟨hback, (hshort.trans (shortens_release c _ s')).evolves⟩
  linked hb := by
    have hacquire : Site.Works false _ _ := (moves_acquire (d := none) b x.2).works
    have hclean := clean_acquire b hx
    have hlinked := hacquire.linked hx hb
    unfold reading
    generalize b.acquire x.2 = acquired at *
    obtain ⟨a, c, s⟩ := acquired
    cases a with
    | absent | waits => exact hlinked
    | held n =>
      have hrelease (s' : Shared κ ν) : Site.Works false _ _ :=
        (moves_release (d := none) c n s').works
      exact (hrelease _).linked (hf _ (x.1, s) hclean) hlinked

theorem continues_dealing {n : Nat} (b : Bucket κ ν) {x : Staging κ ν n × Shared κ ν}
    (hx : x.2.pool.IsClean) : b.Continues (b.reading Staging.dealAll x).1 :=
  continues_reading (fun l _ hclean => (Staging.deals_dealAll hclean l).clean) b hx

/-- A bucket of a table that has grown is fresh. -/
theorem fresh_ofStaged {o : Option (Version κ ν)} (h : ∀ v, o = some v → Staging.Dealt v) :
    (ofStaged o).Fresh := by
  cases o with
  | none => exact fresh_new
  | some v =>
    have hv := h v rfl
    exact ⟨fresh_new.orderly.install rfl hv.internal_eq, hv.prev_eq, trivial⟩

end Bucket

/-! ## Mutations -/

namespace Mutation

/-- Under the lock nothing is done, or one draft is published. -/
def Careful (f : Mutation κ ν α) : Prop :=
  ∀ b s, (f b s).2 = (b, s) ∨ ∃ g : Bucket κ ν → Shared κ ν → Unit × Bucket κ ν × Shared κ ν,
    Bucket.Supersedes g ∧ Bucket.Writes g ∧ (f b s).2 = (g b s).2

theorem careful_delete (q : Query κ) : (delete q : Mutation κ ν (Option ν)).Careful := by
  intro b s
  unfold delete
  split
  · exact .inl rfl
  · exact .inr ⟨fun b s => ((), (b.remove q s).2), fun b s => Bucket.supersedes_remove q b s,
      fun b _ hclean => Bucket.publishes_remove q b hclean, rfl⟩

section Keys

variable [DecidableEq κ]

theorem careful_set (hash : UInt32) (k : κ) (v : ν) : (set hash k v).Careful := fun _ _ =>
  .inr ⟨fun b s => ((), (b.replace (.exactly hash k) ⟨hash, k, v⟩ s).2),
    fun b s => Bucket.supersedes_replace _ _ b s,
    fun b _ hclean => Bucket.publishes_replace _ _ b hclean, rfl⟩

theorem careful_setAbsent (hash : UInt32) (k : κ) (v : ν) : (setAbsent hash k v).Careful := by
  intro b s
  unfold setAbsent
  split
  · exact .inl rfl
  · exact .inr ⟨_, Bucket.supersedes_add ⟨hash, k, v⟩ (),
      fun b _ hclean => Bucket.publishes_add _ b hclean, rfl⟩

theorem careful_getOrSet (hash : UInt32) (k : κ) (v : ν) : (getOrSet hash k v).Careful := by
  intro b s
  unfold getOrSet
  split
  · exact .inl rfl
  · exact .inr ⟨_, Bucket.supersedes_add ⟨hash, k, v⟩ (),
      fun b _ hclean => Bucket.publishes_add _ b hclean, rfl⟩

end Keys

/-- From when the lock is taken for a mutation to when it is released. -/
theorem Careful.tends {f : Mutation κ ν α} (hf : f.Careful) (b : Bucket κ ν) (s : Shared κ ν) :
    b.Tends s.pool ((f b.lock s).2.1.unlock (f b.lock s).2.2).1
      ((f b.lock s).2.1.unlock (f b.lock s).2.2).2.pool := by
  rcases hf b.lock s with hidle | ⟨g, hsupersedes, hwrites, heq⟩
  · rw [hidle]
    exact (Bucket.tends_unlock b.lock s).of_lock
  · rw [heq]
    exact (Bucket.tends_write hsupersedes hwrites rfl s).unlock.of_lock

end Mutation

end VersionedMap
