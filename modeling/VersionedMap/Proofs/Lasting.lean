import VersionedMap.Proofs.Anchor

/-!
# What publication fixes for good

Of a published version only the reader count and the link to its predecessor ever change.
What is left when these two are struck out is its **lasting** part. Apart from publication,
no operation on a bucket does more to the lasting parts of its chain than to cut off the
oldest of them, and publication puts one more in front.

So whoever finds the version of a publication in the chain finds the items that were
published, whatever has happened in between.
-/

namespace VersionedMap

variable {κ ν : Type}

/-- A version without the two fields that change after its publication. -/
def Version.lasting (v : Version κ ν) : Version κ ν := { v with internal := 0, prev := none }

@[simp] theorem Version.items_lasting (v : Version κ ν) : v.lasting.items = v.items := rfl

@[simp] theorem Version.id_lasting (v : Version κ ν) : v.lasting.id = v.id := rfl

theorem Version.lasting_internal (v : Version κ ν) (x : Int32) :
    Version.lasting { v with internal := x } = v.lasting := rfl

namespace Bucket

/-- The lasting parts of the chain, newest first. -/
def lasting (b : Bucket κ ν) : List (Version κ ν) := b.chain.map Version.lasting

@[simp] theorem length_lasting (b : Bucket κ ν) : b.lasting.length = b.chain.length :=
  List.length_map ..

/-- The version of a publication is still in the chain. -/
def Keeps (b : Bucket κ ν) (n : Nat) : Prop :=
  n ≤ b.published ∧ b.published < n + b.chain.length

/-- `c` is `b` after operations that publish nothing: some of the oldest versions may be gone. -/
structure Shortens (b c : Bucket κ ν) : Prop where
  published_eq : c.published = b.published
  prefix_lasting : c.lasting <+: b.lasting
  vacant : c.chain = [] → b.chain = []

namespace Shortens

variable {b c d : Bucket κ ν}

theorem refl (b : Bucket κ ν) : b.Shortens b := ⟨rfl, List.prefix_refl _, id⟩

theorem trans (h : b.Shortens c) (h' : c.Shortens d) : b.Shortens d :=
  ⟨h'.published_eq.trans h.published_eq, h'.prefix_lasting.trans h.prefix_lasting,
    fun hnil => h.vacant (h'.vacant hnil)⟩

theorem of_lasting_eq (hlasting : c.lasting = b.lasting) (hpub : c.published = b.published) :
    b.Shortens c := by
  have hlen : c.chain.length = b.chain.length := by
    rw [← length_lasting, hlasting, length_lasting]
  refine ⟨hpub, hlasting ▸ List.prefix_refl c.lasting, fun hnil => ?_⟩
  rw [hnil, List.length_nil] at hlen
  exact List.length_eq_zero_iff.mp hlen.symm

theorem of_eq (hchain : c.chain = b.chain) (hpub : c.published = b.published) :
    b.Shortens c :=
  of_lasting_eq (congrArg (List.map Version.lasting) hchain) hpub

/-- A version that is still there is the one that was there. -/
theorem version?_lasting (h : b.Shortens c) {n : Nat} (hn : c.Keeps n) :
    (c.version? n).map Version.lasting = (b.version? n).map Version.lasting := by
  have hlt : c.published - n < c.lasting.length := by
    have := hn.1
    have := hn.2
    rw [length_lasting]
    omega
  have hget := h.prefix_lasting.getElem hlt
  have hlt' : c.published - n < b.lasting.length :=
    Nat.lt_of_lt_of_le hlt h.prefix_lasting.length_le
  -- both chains start at the same publication, so it is at one distance from the newest in both
  have hopt : c.lasting[c.published - n]? = b.lasting[c.published - n]? := by
    rw [List.getElem?_eq_getElem hlt, List.getElem?_eq_getElem hlt', hget]
  rw [lasting, lasting, List.getElem?_map, List.getElem?_map] at hopt
  rw [version?, version?, hopt, h.published_eq]

end Shortens

theorem version?_items (b : Bucket κ ν) (n : Nat) :
    (b.version? n).map (·.items) = ((b.version? n).map Version.lasting).map (·.items) := by
  cases b.version? n <;> rfl

theorem version?_of_keeps {b : Bucket κ ν} {n : Nat} (h : b.Keeps n) :
    ∃ v, b.version? n = some v := by
  have hlt : b.published - n < b.chain.length := by
    have := h.1
    have := h.2
    omega
  exact ⟨_, List.getElem?_eq_getElem hlt⟩

theorem itemsAt_eq (b : Bucket κ ν) (n : Nat) :
    b.itemsAt n = ((b.version? n).map (·.items)).getD [] := by
  unfold itemsAt
  cases b.version? n <;> rfl

theorem findAt_eq (b : Bucket κ ν) (n : Nat) (q : Query κ) :
    b.findAt n q = (b.itemsAt n).find? q.selects := by
  unfold findAt itemsAt
  cases b.version? n with
  | none => rfl
  | some v => exact Version.find?_eq ..

theorem itemsAt_published (b : Bucket κ ν) : b.itemsAt b.published = b.items := by
  unfold itemsAt version? items newest?
  rw [Nat.sub_self, List.head?_eq_getElem?]

theorem Shortens.itemsAt {b c : Bucket κ ν} (h : b.Shortens c) {n : Nat} (hn : c.Keeps n) :
    c.itemsAt n = b.itemsAt n := by
  rw [itemsAt_eq, itemsAt_eq, version?_items, h.version?_lasting hn, ← version?_items]

/-- The current items, if anything has been published. -/
def current (b : Bucket κ ν) : Option (List (Item κ ν)) := b.newest?.map (·.items)

theorem current_eq (b : Bucket κ ν) : b.current = b.lasting.head?.map (·.items) := by
  unfold current newest? lasting
  cases b.chain <;> rfl

theorem items_eq_current (b : Bucket κ ν) : b.items = b.current.getD [] := by
  unfold items current
  cases b.newest? <;> rfl

theorem Shortens.current {b c : Bucket κ ν} (h : b.Shortens c) : c.current = b.current := by
  rw [current_eq, current_eq]
  obtain ⟨rest, hrest⟩ := h.prefix_lasting
  -- a chain cut short keeps its newest version, and one that is empty had none
  cases hc : c.chain with
  | nil => rw [lasting, lasting, hc, h.vacant hc]
  | cons v l => rw [← hrest, lasting, hc]; rfl

/-! ## Operations that publish nothing -/

theorem length_endChain (l : List (Version κ ν)) : (endChain l).length = l.length := by
  have h := congrArg List.length (map_endChain (f := Version.lasting) (fun _ => rfl) l)
  simpa using h

theorem kept_append_retired (older : List (Version κ ν)) :
    kept older ++ retired older = older := by
  unfold kept retired
  rw [← List.reverse_append, List.takeWhile_append_dropWhile, List.reverse_reverse]

theorem shortens_lock (b : Bucket κ ν) : b.Shortens b.lock := .of_eq rfl rfl

theorem shortens_reclaim (b : Bucket κ ν) (s : Shared κ ν) : b.Shortens (b.reclaim s).1 := by
  unfold reclaim
  split
  · exact .refl b
  · rename_i head older hchain
    refine ⟨rfl, ?_, fun hnil => ?_⟩
    · rw [lasting, lasting, map_endChain (fun _ => rfl), hchain]
      exact (List.prefix_cons_inj head).mpr ⟨_, kept_append_retired older⟩ |>.map _
    -- the newest version is not among those that can be retired
    · have hlen : (endChain (head :: kept older)).length = 0 := congrArg List.length hnil
      rw [length_endChain] at hlen
      exact absurd hlen (Nat.succ_ne_zero _)

theorem shortens_servePending (b : Bucket κ ν) (s : Shared κ ν) :
    b.Shortens (b.servePending s).1 := by
  unfold servePending
  split
  · have hserved : b.Shortens { b with pending := false } := .of_eq rfl rfl
    exact hserved.trans (shortens_reclaim _ s)
  · exact .refl b

theorem shortens_unlock (b : Bucket κ ν) (s : Shared κ ν) : b.Shortens (b.unlock s).1 := by
  have hfree : b.Shortens b.unlocked := .of_eq rfl rfl
  exact hfree.trans (shortens_servePending _ s)

theorem shortens_transfer (b : Bucket κ ν) (s : Shared κ ν) :
    b.Shortens (b.transfer s).1 := by
  unfold transfer
  split
  · exact .refl b
  · split
    · exact .refl b
    · rename_i head older hchain
      refine .of_lasting_eq ?_ rfl
      rw [lasting, lasting, hchain, List.map_cons, List.map_cons, Version.lasting_internal]

theorem shortens_rebalance (b : Bucket κ ν) (s : Shared κ ν) :
    b.Shortens (b.rebalance s).1 := by
  have hmoved := (shortens_lock b).trans (shortens_transfer b.lock s)
  exact hmoved.trans (shortens_unlock _ (b.lock.transfer s).2)

theorem shortens_acquire {b : Bucket κ ν} (h : b.Anchored) (s : Shared κ ν) :
    b.Shortens (b.acquire s).2.1 := by
  have hclaim : b.Shortens b.claimed := .of_eq rfl rfl
  rcases acquire_cases h s with ⟨_, hacq⟩ | ⟨_, _, _, hacq⟩ | ⟨_, _, _, hacq⟩ | ⟨_, _, hacq⟩
  · rw [hacq]; exact .refl b
  · rw [hacq]; exact .refl b
  · rw [hacq]; exact hclaim.trans (shortens_rebalance _ s)
  · rw [hacq]; exact hclaim

theorem shortens_modifyInternal (b : Bucket κ ν) (n : Nat) (f : Int32 → Int32) :
    b.Shortens (b.modifyInternal n f) := by
  -- counters are no part of what lasts
  have hsame : (b.modifyInternal n f).lasting = b.lasting := by
    refine List.ext_getElem? fun i => ?_
    simp only [lasting, modifyInternal, List.getElem?_map, List.getElem?_modify]
    split <;> cases b.chain[i]? <;> rfl
  exact .of_lasting_eq hsame rfl

theorem shortens_release (b : Bucket κ ν) (n : Nat) (s : Shared κ ν) :
    b.Shortens (b.release n s).1 := by
  unfold release
  split
  · exact .refl b
  · have hdown := shortens_modifyInternal b n (· - 1)
    have hmark : b.Shortens { b.modifyInternal n (· - 1) with pending := true } :=
      hdown.trans (.of_eq rfl rfl)
    dsimp only
    split
    · exact hmark.trans (shortens_servePending _ s)
    · exact hdown

/-! ## The lock -/

@[simp] theorem locked_lock (b : Bucket κ ν) : b.lock.locked = true := rfl

@[simp] theorem locked_reclaim (b : Bucket κ ν) (s : Shared κ ν) :
    (b.reclaim s).1.locked = b.locked := by
  unfold reclaim
  split <;> rfl

@[simp] theorem locked_servePending (b : Bucket κ ν) (s : Shared κ ν) :
    (b.servePending s).1.locked = b.locked := by
  unfold servePending
  split
  · rw [locked_reclaim]
  · rfl

@[simp] theorem locked_unlock (b : Bucket κ ν) (s : Shared κ ν) :
    (b.unlock s).1.locked = false :=
  locked_servePending ..

@[simp] theorem locked_publish (b : Bucket κ ν) (v : Version κ ν) (s : Shared κ ν) :
    (b.publish v s).1.locked = b.locked := by
  unfold publish
  dsimp only
  split
  · rfl
  · split
    · rw [locked_reclaim]
    · rfl

theorem locked_acquire {b : Bucket κ ν} (h : b.Anchored) (s : Shared κ ν) :
    (b.acquire s).2.1.locked = b.locked := by
  rcases acquire_cases h s with ⟨_, hacq⟩ | ⟨_, _, _, hacq⟩ | ⟨_, _, hfree, hacq⟩ | ⟨_, _, hacq⟩
  · rw [hacq]
  · rw [hacq]
  · rw [hacq, hfree]
    exact locked_unlock ..
  · rw [hacq]
    rfl

@[simp] theorem locked_release (b : Bucket κ ν) (n : Nat) (s : Shared κ ν) :
    (b.release n s).1.locked = b.locked := by
  unfold release
  split
  · rfl
  · dsimp only
    split
    · rw [locked_servePending]
      rfl
    · rfl

/-! ## Publication -/

@[simp] theorem published_publish (b : Bucket κ ν) (v : Version κ ν) (s : Shared κ ν) :
    (b.publish v s).1.published = b.published + 1 := by
  unfold publish
  dsimp only
  split
  · rfl
  · split
    · exact (shortens_reclaim _ s).published_eq
    · rfl

@[simp] theorem current_publish (b : Bucket κ ν) (v : Version κ ν) (s : Shared κ ν) :
    (b.publish v s).1.current = some v.items := by
  unfold publish
  dsimp only
  split
  · rfl
  · split
    · rw [(shortens_reclaim _ s).current]
      rfl
    · rfl

/-- Publication puts one version in front, and may cut off some of the oldest. -/
theorem prefix_publish (b : Bucket κ ν) (v : Version κ ν) (s : Shared κ ν) :
    (b.publish v s).1.lasting <+: v.lasting :: b.lasting := by
  unfold publish
  dsimp only
  split
  · rename_i hchain
    rw [lasting, lasting, hchain]
    exact List.prefix_refl _
  · rename_i head older hchain
    have hfront : b.lasting = head.lasting :: older.map Version.lasting := by
      rw [lasting, hchain, List.map_cons]
    rw [hfront]
    split
    · exact (shortens_reclaim _ s).prefix_lasting
    · exact List.prefix_refl _

/-- A publication that is still there is the one that was there. -/
theorem itemsAt_publish {b : Bucket κ ν} {v : Version κ ν} {s : Shared κ ν} {n : Nat}
    (hn : n ≤ b.published) (hkeep : (b.publish v s).1.Keeps n) :
    (b.publish v s).1.itemsAt n = b.itemsAt n := by
  have hpub := published_publish b v s
  have hlt : (b.publish v s).1.published - n < (b.publish v s).1.lasting.length := by
    have := hkeep.2
    rw [length_lasting]
    omega
  have hget := (prefix_publish b v s).getElem hlt
  have hlt' := Nat.lt_of_lt_of_le hlt (prefix_publish b v s).length_le
  have hopt : (b.publish v s).1.lasting[(b.publish v s).1.published - n]?
      = (v.lasting :: b.lasting)[(b.publish v s).1.published - n]? := by
    rw [List.getElem?_eq_getElem hlt, List.getElem?_eq_getElem hlt', hget]
  -- one more has been published, so it is one further from the newest
  rw [hpub, show b.published + 1 - n = b.published - n + 1 by omega, List.getElem?_cons_succ,
    lasting, lasting, List.getElem?_map, List.getElem?_map] at hopt
  rw [itemsAt_eq, itemsAt_eq, version?_items, version?_items b, version?, version?, hpub,
    show b.published + 1 - n = b.published - n + 1 by omega, hopt]

end Bucket

end VersionedMap
