import Mathlib.Data.List.Permutation
import VersionedMap.Proofs.BucketRuns

/-!
# A bucket is a list with snapshots

Seen from outside a bucket is a list of items, which is replaced as a whole. A writer works
on a list of its own until it publishes that, and a reader has the list that was current
when it acquired. There are no versions, counts or pools in this: a session with a bucket
answers as the session with such a **snapshot list** does, command by command.

The one thing that the lists do not tell is when an acquisition would have to wait for the
lock, so a snapshot list is told with every command.
-/

namespace VersionedMap.Bucket

variable {κ ν : Type}

/-- Who has the lock of a snapshot list. -/
inductive Snapshots.Lock (κ ν : Type)
  | nobody
  | bare
  | writer (draft : Option (List (Item κ ν)))

/-- A list that is replaced as a whole, and what is held of it. -/
structure Snapshots (κ ν : Type) where
  /-- The current items, once there are any. -/
  current : Option (List (Item κ ν)) := none
  lock : Snapshots.Lock κ ν := .nobody
  /-- What was current when each reader acquired. -/
  readers : Numbered (List (Item κ ν)) := .empty

namespace Snapshots

def isLocked (a : Snapshots κ ν) : Bool :=
  match a.lock with
  | .nobody => false
  | .bare | .writer _ => true

/-- Replaces the current items, if the lock is free. -/
def write (a : Snapshots κ ν)
    (f : Argument (List (Item κ ν) → Reply κ ν × List (Item κ ν))) :
    Reply κ ν × Snapshots κ ν :=
  if a.isLocked then (.refused .wouldBlock, a) else
    match f with
    | .error why => (.refused why, a)
    | .ok f =>
      let (reply, items) := f (a.current.getD [])
      (reply, { a with current := some items })

/-- Has a writer without a draft make one from the current items. -/
def prepare (a : Snapshots κ ν)
    (f : Argument (List (Item κ ν) → Reply κ ν × List (Item κ ν))) :
    Reply κ ν × Snapshots κ ν :=
  match a.lock, f with
  | .nobody, _ | .bare, _ => (.refused .noWriter, a)
  | .writer (some _), _ => (.refused .prepared, a)
  | .writer none, .error why => (.refused why, a)
  | .writer none, .ok f =>
    let (reply, draft) := f (a.current.getD [])
    (reply, { a with lock := .writer (some draft) })

/-- Has a writer do something with its draft. -/
def withDraft (a : Snapshots κ ν)
    (f : Argument (List (Item κ ν) → Reply κ ν × Snapshots κ ν)) : Reply κ ν × Snapshots κ ν :=
  match a.lock, f with
  | .nobody, _ | .bare, _ => (.refused .noWriter, a)
  | .writer none, _ => (.refused .notPrepared, a)
  | .writer (some _), .error why => (.refused why, a)
  | .writer (some draft), .ok f => f draft

/-- Does something with the items that reader `r` holds. -/
def withReader (a : Snapshots κ ν) (r : Nat)
    (f : Argument (List (Item κ ν) → Reply κ ν × Snapshots κ ν)) : Reply κ ν × Snapshots κ ν :=
  match a.readers.get? r, f with
  | none, _ => (.refused .noReader, a)
  | some _, .error why => (.refused why, a)
  | some items, .ok f => f items

/-- Does something with the current items, unless that has to wait. -/
def acquiring (a : Snapshots κ ν) (waits : Bool) (absent : Reply κ ν)
    (f : List (Item κ ν) → Reply κ ν × Snapshots κ ν) : Reply κ ν × Snapshots κ ν :=
  if waits then (.refused .wouldBlock, a) else
    match a.current with
    | none => (absent, a)
    | some items => f items

/-- Carries out a command, told whether an acquisition would have to wait. -/
def step (a : Snapshots κ ν) (waits : Bool) : Command κ ν → Reply κ ν × Snapshots κ ν
  | .replace change => a.write <| change.map fun (q, i) l =>
    (.item (l.find? q.selects), l.eraseP q.selects ++ [i])
  | .add i => a.write <| i.map fun i l => (.nothing, l ++ [i])
  | .remove q => a.write <| q.map fun q l => (.item (l.find? q.selects), l.eraseP q.selects)
  | .wipe => a.write <| .ok fun _ => (.nothing, [])
  | .lock =>
    if a.isLocked then (.refused .wouldBlock, a) else (.nothing, { a with lock := .writer none })
  | .lockBare =>
    if a.isLocked then (.refused .wouldBlock, a) else (.nothing, { a with lock := .bare })
  | .unlock =>
    if a.isLocked then (.nothing, { a with lock := .nobody }) else (.refused .notLocked, a)
  | .adopt =>
    match a.lock with
    | .bare => (.nothing, { a with lock := .writer none })
    | .nobody | .writer _ => (.refused .notExclusive, a)
  | .keep =>
    match a.lock with
    | .writer _ => (.nothing, { a with lock := .bare })
    | .nobody | .bare => (.refused .noWriter, a)
  | .inspect => if a.isLocked then (.items a.current, a) else (.refused .notLocked, a)
  | .draftCopy => a.prepare <| .ok fun l => (.nothing, l)
  | .draftEmpty => a.prepare <| .ok fun _ => (.nothing, [])
  | .draftWithout q => a.prepare <| q.map fun q l =>
    (.item (l.find? q.selects), l.eraseP q.selects)
  | .push i => a.withDraft <| i.map fun i draft =>
    (.items (some (draft ++ [i])), { a with lock := .writer (some (draft ++ [i])) })
  | .publish => a.withDraft <| .ok fun draft =>
    (.nothing, { a with current := some draft, lock := .writer none })
  | .discard => a.withDraft <| .ok fun _ => (.nothing, { a with lock := .writer none })
  | .install items =>
    if a.isLocked || a.current.isSome then (.refused .notFresh, a) else
      match items with
      | .error why => (.refused why, a)
      | .ok items => (.nothing, { a with current := some items })
  | .acquire r =>
    match a.readers.get? r with
    | some _ => (.refused .inUse, a)
    | none => a.acquiring waits (.items none) fun l =>
      (.items (some l), { a with readers := a.readers.set r l })
  | .release r => a.withReader r <| .ok fun _ => (.nothing, { a with readers := a.readers.erase r })
  | .itemsOf r => a.withReader r <| .ok fun l => (.items (some l), a)
  | .search r q => a.withReader r <| q.map fun q l => (.item (l.find? q.selects), a)
  | .get q => a.acquiring waits (.item none) fun l => (.item (l.find? q.selects), a)
  -- there are no counts to set
  | .getWith _ | .shift _ => (.nothing, a)
  | .rebalance => if a.isLocked then (.refused .wouldBlock, a) else (.nothing, a)

/-- The answers to some commands, each with whether an acquisition would have to wait. -/
def answers (a : Snapshots κ ν) : List (Bool × Command κ ν) → List (Reply κ ν)
  | [] => []
  | (waits, c) :: cs => (a.step waits c).1 :: (a.step waits c).2.answers cs

end Snapshots

/-! ## What a session shows -/

/-- A reply without the parts of a version that are nobody's business. -/
def Reply.view : Reply κ ν → Reply κ ν
  | .version v => .items (v.map (·.items))
  | r => r

/-- The holder of the lock, as a snapshot list has it. -/
def Holder.view : Holder κ ν → Snapshots.Lock κ ν
  | .nobody => .nobody
  | .bare => .bare
  | .writer draft => .writer (draft.map (·.items))

namespace Session

/-- What a session amounts to. -/
def snapshots (s : Session κ ν) : Snapshots κ ν where
  current := s.bucket.current
  lock := s.holder.view
  readers := s.readers.map s.bucket.itemsAt

/-- The answers to some commands, as they are seen. -/
def answers (s : Session κ ν) : List (Command κ ν) → List (Reply κ ν)
  | [] => []
  | c :: cs => (s.step c).1.view :: (s.step c).2.answers cs

/-- Some commands, each with whether an acquisition would have to wait then. -/
def told (s : Session κ ν) : List (Command κ ν) → List (Bool × Command κ ν)
  | [] => []
  | c :: cs => (s.wouldBlock, c) :: (s.step c).2.told cs

@[simp] theorem isLocked_snapshots (s : Session κ ν) : s.snapshots.isLocked = s.isLocked := by
  unfold Snapshots.isLocked isLocked snapshots
  cases s.holder <;> rfl

end Session

/-! ## Items that stay -/

/-- Whatever was published before and is still there has the items it had. -/
def Preserves (b c : Bucket κ ν) : Prop :=
  ∀ n, n ≤ b.published → c.Keeps n → c.itemsAt n = b.itemsAt n

theorem Shortens.preserves {b c : Bucket κ ν} (h : b.Shortens c) : b.Preserves c :=
  fun _ _ hn => h.itemsAt hn

theorem Shortens.keeps {b c : Bucket κ ν} (h : b.Shortens c) {n : Nat} (hn : c.Keeps n) :
    b.Keeps n := by
  have hlen := h.prefix_lasting.length_le
  rw [length_lasting, length_lasting] at hlen
  have hpub := h.published_eq
  unfold Keeps at hn ⊢
  omega

theorem preserves_publish (b : Bucket κ ν) (v : Version κ ν) (s : Shared κ ν) :
    b.Preserves (b.publish v s).1 :=
  fun _ hle hn => itemsAt_publish hle hn

theorem Preserves.shortens {b c d : Bucket κ ν} (h : b.Preserves c) (h' : c.Shortens d) :
    b.Preserves d :=
  fun n hle hn => (h'.itemsAt hn).trans (h n hle (h'.keeps hn))

theorem Preserves.map_itemsAt {b c : Bucket κ ν} (h : b.Preserves c) {l : Numbered Nat}
    (hle : ∀ n ∈ l.values, n ≤ b.published) (hkeep : ∀ n ∈ l.values, c.Keeps n) :
    l.map c.itemsAt = l.map b.itemsAt :=
  Numbered.map_congr fun n hn => h n (hle n hn) (hkeep n hn)

theorem map_items_version? {b : Bucket κ ν} {n : Nat} (h : b.Keeps n) :
    (b.version? n).map (·.items) = some (b.itemsAt n) := by
  obtain ⟨v, hv⟩ := version?_of_keeps h
  unfold itemsAt
  rw [hv]
  rfl

theorem preserves_exclusively {α : Type} (b : Bucket κ ν)
    {f : Bucket κ ν → Shared κ ν → α × Bucket κ ν × Shared κ ν} (hf : Writes f)
    {s : Shared κ ν} (hclean : s.pool.IsClean) : b.Preserves (b.exclusively f s).2.1 := by
  obtain ⟨v, s', heq, _, _⟩ := hf b.lock s hclean
  have hrun : (b.exclusively f s).2 = (f b.lock s).2.1.unlock (f b.lock s).2.2 := rfl
  rw [hrun, heq]
  have hpublished : b.Preserves (b.lock.publish v s').1 := preserves_publish b.lock v s'
  exact hpublished.shortens (shortens_unlock _ _)

theorem current_exclusively {α : Type} (b : Bucket κ ν)
    {f : Bucket κ ν → Shared κ ν → α × Bucket κ ν × Shared κ ν} (hf : Writes f)
    {s : Shared κ ν} (hclean : s.pool.IsClean) :
    (b.exclusively f s).2.1.current = some (f b.lock s).2.1.items := by
  obtain ⟨v, s', heq, _, _⟩ := hf b.lock s hclean
  have hrun : (b.exclusively f s).2 = (f b.lock s).2.1.unlock (f b.lock s).2.2 := rfl
  rw [hrun, heq, (shortens_unlock _ _).current, current_publish, items_publish]

theorem current_eq_none {b : Bucket κ ν} (h : b.chain = []) : b.current = none := by
  unfold current newest?
  rw [h]
  rfl

theorem current_eq_some {b : Bucket κ ν} (h : b.chain ≠ []) : b.current = some b.items := by
  obtain ⟨head, older, hchain⟩ := List.exists_cons_of_ne_nil h
  unfold current items newest?
  rw [hchain]
  rfl

/-! ## One command -/

namespace Session

/-- A session answers and becomes what a snapshot list answers and becomes. -/
def Shows (out : Reply κ ν × Session κ ν) (seen : Reply κ ν × Snapshots κ ν) : Prop :=
  out.1.view = seen.1 ∧ out.2.snapshots = seen.2

theorem Sound.keeps {s : Session κ ν} (h : s.Sound) {n : Nat} (hn : n ∈ s.readers.values) :
    s.bucket.Keeps n :=
  h.orderly.counted.kept n (held_ne_zero.mpr hn)

/-- What the readers of a session see is the same after a step that lets go of nothing else. -/
theorem readers_snapshots {s : Session κ ν} (h : s.Sound) {b : Bucket κ ν}
    (hpres : s.bucket.Preserves b) {held : Nat → Nat} (hb : b.Orderly held)
    {l : Numbered Nat} (hl : ∀ n ∈ l.values, n ∈ s.readers.values)
    (hheld : ∀ n ∈ l.values, held n ≠ 0) :
    l.map b.itemsAt = l.map s.bucket.itemsAt :=
  hpres.map_itemsAt (fun n hn => (h.keeps (hl n hn)).1)
    fun n hn => hb.counted.kept n (hheld n hn)

theorem shows_write {s : Session κ ν} (h : s.Sound) (hroom : s.Uncrowded) {α : Type}
    (x : Argument α) {F : α → Bucket κ ν → Shared κ ν → Reply κ ν × Bucket κ ν × Shared κ ν}
    {G : α → List (Item κ ν) → Reply κ ν × List (Item κ ν)} (hF : ∀ a, Writes (F a))
    (hFG : ∀ a (b : Bucket κ ν) (sh : Shared κ ν), sh.pool.IsClean →
      (F a b sh).1.view = (G a b.items).1 ∧ (F a b sh).2.1.items = (G a b.items).2) :
    Shows (s.write (Except.map F x)) (s.snapshots.write (Except.map G x)) := by
  unfold write Snapshots.write
  rw [isLocked_snapshots]
  split
  · exact ⟨rfl, rfl⟩
  · cases x with
    | error why => exact ⟨rfl, rfl⟩
    -- with the lock free both sides change the current items; the readers see what they saw
    | ok a =>
      obtain ⟨hreply, hitems⟩ := hFG a s.bucket.lock s.shared h.clean
      have hb := (h.orderly.exclusively hroom.roomy (hF a) h.clean).1
      have hreaders := readers_snapshots h (preserves_exclusively s.bucket (hF a) h.clean) hb
        (fun _ hn => hn) (fun _ hn => held_ne_zero.mpr hn)
      have hcurrent := current_exclusively s.bucket (hF a) h.clean
      have hnow : s.snapshots.current.getD [] = s.bucket.lock.items :=
        (items_eq_current s.bucket).symm
      rw [hitems] at hcurrent
      refine ⟨?_, ?_⟩
      · show (F a s.bucket.lock s.shared).1.view = (G a (s.snapshots.current.getD [])).1
        rw [hreply, hnow]
      · show Snapshots.mk _ _ _ = Snapshots.mk (some (G a (s.snapshots.current.getD [])).2) _ _
        rw [hnow, ← hcurrent]
        exact congrArg (Snapshots.mk _ _) hreaders

theorem shows_prepare {s : Session κ ν} (h : s.Sound) {α : Type} (x : Argument α)
    {F : α → Bucket κ ν → Shared κ ν → Reply κ ν × Version κ ν × Shared κ ν}
    {G : α → List (Item κ ν) → Reply κ ν × List (Item κ ν)}
    (hFG : ∀ a (b : Bucket κ ν) (sh : Shared κ ν), sh.pool.IsClean →
      (F a b sh).1.view = (G a b.items).1 ∧ (F a b sh).2.1.items = (G a b.items).2) :
    Shows (s.prepare (Except.map F x)) (s.snapshots.prepare (Except.map G x)) := by
  obtain ⟨b, sh, holder, readers⟩ := s
  cases holder with
  | nobody => exact ⟨rfl, rfl⟩
  | bare => exact ⟨rfl, rfl⟩
  | writer draft =>
    cases draft with
    | some v => exact ⟨rfl, rfl⟩
    | none =>
      cases x with
      | error why => exact ⟨rfl, rfl⟩
      -- only the draft in hand is new, and its items come from the current ones
      | ok a =>
        obtain ⟨hreply, hitems⟩ := hFG a b sh h.clean
        have hnow : b.current.getD [] = b.items := (items_eq_current b).symm
        refine ⟨?_, ?_⟩
        · show (F a b sh).1.view = (G a (b.current.getD [])).1
          rw [hreply, hnow]
        · show Snapshots.mk _ (.writer (some (F a b sh).2.1.items)) _
            = Snapshots.mk _ (.writer (some (G a (b.current.getD [])).2)) _
          rw [hitems, hnow]
          rfl

theorem shows_withDraft {s : Session κ ν} {α : Type} (x : Argument α)
    {F : α → Version κ ν → Reply κ ν × Session κ ν}
    {G : α → List (Item κ ν) → Reply κ ν × Snapshots κ ν}
    (hFG : ∀ a v, s.holder = .writer (some v) → Shows (F a v) (G a v.items)) :
    Shows (s.withDraft (Except.map F x)) (s.snapshots.withDraft (Except.map G x)) := by
  obtain ⟨b, sh, holder, readers⟩ := s
  cases holder with
  | nobody => exact ⟨rfl, rfl⟩
  | bare => exact ⟨rfl, rfl⟩
  | writer draft =>
    cases draft with
    | none => exact ⟨rfl, rfl⟩
    | some v =>
      cases x with
      | error why => exact ⟨rfl, rfl⟩
      | ok a => exact hFG a v rfl

theorem shows_withReader {s : Session κ ν} (r : Nat) {α : Type} (x : Argument α)
    {F : α → Nat → Reply κ ν × Session κ ν}
    {G : α → List (Item κ ν) → Reply κ ν × Snapshots κ ν}
    (hFG : ∀ a n, s.readers.get? r = some n → Shows (F a n) (G a (s.bucket.itemsAt n))) :
    Shows (s.withReader r (Except.map F x)) (s.snapshots.withReader r (Except.map G x)) := by
  have hget : s.snapshots.readers.get? r = (s.readers.get? r).map s.bucket.itemsAt :=
    Numbered.get?_map ..
  unfold withReader Snapshots.withReader
  rw [hget]
  cases hn : s.readers.get? r with
  | none => exact ⟨rfl, rfl⟩
  | some n =>
    cases x with
    | error why => exact ⟨rfl, rfl⟩
    | ok a => exact hFG a n hn

theorem shows_acquiring {s : Session κ ν} (h : s.Sound) (hroom : s.Uncrowded)
    {absent : Reply κ ν} {F : Nat → Session κ ν → Reply κ ν × Session κ ν}
    {G : List (Item κ ν) → Reply κ ν × Snapshots κ ν}
    (hFG : ∀ b sh, s.bucket.Shortens b → b.Orderly (more s.held s.bucket.published) →
      Shows (F s.bucket.published { s with bucket := b, shared := sh }) (G s.bucket.items)) :
    Shows (s.acquiring absent F) (s.snapshots.acquiring s.wouldBlock absent.view G) := by
  unfold Snapshots.acquiring
  rcases acquiring_cases h hroom absent F with
    ⟨hblock, heq⟩ | ⟨hblock, hchain, heq⟩ | ⟨b, sh, hblock, hne, hshort, _, hb, _, heq⟩
  · rw [hblock, heq]
    exact ⟨rfl, rfl⟩
  · have hnone : s.snapshots.current = none := current_eq_none hchain
    rw [hblock, heq, hnone]
    exact ⟨rfl, rfl⟩
  -- whoever need not wait holds the newest publication
  · have hsome : s.snapshots.current = some s.bucket.items := current_eq_some hne
    rw [hblock, heq, hsome]
    exact hFG b sh hshort hb

/-- The bucket moves on without a publication; the readers see what they saw. -/
theorem snapshots_of_shortens {s : Session κ ν} (h : s.Sound) {b : Bucket κ ν}
    (hshort : s.bucket.Shortens b) {held : Nat → Nat} (hb : b.Orderly held)
    {l : Numbered Nat} (hl : ∀ n ∈ l.values, n ∈ s.readers.values)
    (hheld : ∀ n ∈ l.values, held n ≠ 0) (sh : Shared κ ν) (holder : Holder κ ν) :
    snapshots { s with bucket := b, shared := sh, holder, readers := l } =
      { current := s.bucket.current, lock := holder.view,
        readers := l.map s.bucket.itemsAt } := by
  have hreaders := readers_snapshots h hshort.preserves hb hl hheld
  show Snapshots.mk b.current holder.view (l.map b.itemsAt) = _
  rw [hshort.current, hreaders]

theorem shows_unlock {s : Session κ ν} (h : s.Sound) (hroom : s.Uncrowded) :
    Shows (s.step .unlock) (s.snapshots.step s.wouldBlock .unlock) := by
  dsimp only [step, Snapshots.step]
  rw [isLocked_snapshots]
  split
  · rename_i hlocked
    refine ⟨rfl, ?_⟩
    unfold Session.unlock
    rw [if_pos hlocked]
    exact snapshots_of_shortens h (shortens_unlock _ _) (h.orderly.unlock hroom.roomy _)
      (fun _ hn => hn) (fun _ hn => held_ne_zero.mpr hn) _ .nobody
  · exact ⟨rfl, rfl⟩

theorem shows_rebalance {s : Session κ ν} (h : s.Sound) (hroom : s.Uncrowded) :
    Shows (s.step .rebalance) (s.snapshots.step s.wouldBlock .rebalance) := by
  dsimp only [step, Snapshots.step]
  rw [isLocked_snapshots]
  split
  · exact ⟨rfl, rfl⟩
  · exact ⟨rfl, snapshots_of_shortens h (shortens_rebalance _ _)
      (h.orderly.rebalance hroom.roomy _) (fun _ hn => hn) (fun _ hn => held_ne_zero.mpr hn) _
      s.holder⟩

theorem shows_install {s : Session κ ν} (h : s.Sound) (items : Argument (List (Item κ ν))) :
    Shows (s.step (.install items)) (s.snapshots.step s.wouldBlock (.install items)) := by
  have hfresh : s.snapshots.current.isSome = !s.bucket.chain.isEmpty := by
    show s.bucket.current.isSome = _
    unfold current newest?
    cases s.bucket.chain <;> rfl
  dsimp only [step, Snapshots.step]
  rw [isLocked_snapshots, hfresh]
  split
  · exact ⟨rfl, rfl⟩
  · rename_i hgo
    cases items with
    | error why => exact ⟨rfl, rfl⟩
    | ok l =>
      have hchain : s.bucket.chain = [] := by
        simp only [Bool.or_eq_true, Bool.not_eq_true', not_or, Bool.not_eq_false] at hgo
        exact List.isEmpty_iff.mp hgo.2
      -- nobody can hold anything yet
      have hnone : ∀ n ∈ s.readers.values, False := fun n hn =>
        held_ne_zero.mpr hn (h.orderly.counted.held_eq_zero hchain n)
      have hempty : (s.shared.take).1.contents.toList = [] := h.clean.items_take
      have hitems : ((s.shared.take).1.contents.pushAll l).toList = l := by
        rw [Contents.toList_pushAll, hempty, List.nil_append]
      refine ⟨rfl, ?_⟩
      show Snapshots.mk (some ((s.shared.take).1.contents.pushAll l).toList) _ _ = _
      rw [hitems]
      exact congrArg (Snapshots.mk _ _) (Numbered.map_congr fun n hn => (hnone n hn).elim)

theorem shows_acquire {s : Session κ ν} (h : s.Sound) (hroom : s.Uncrowded) (r : Nat) :
    Shows (s.step (.acquire r)) (s.snapshots.step s.wouldBlock (.acquire r)) := by
  have hget : s.snapshots.readers.get? r = (s.readers.get? r).map s.bucket.itemsAt :=
    Numbered.get?_map ..
  dsimp only [step, Snapshots.step]
  rw [hget]
  cases hfree : s.readers.get? r with
  | some n => exact ⟨rfl, rfl⟩
  | none =>
    refine shows_acquiring h hroom fun b sh hshort hb => ?_
    have hone : more s.held s.bucket.published s.bucket.published ≠ 0 := by simp [more]
    -- the version just acquired is still there, though the bulk may have been moved
    have hkeep := hb.counted.kept _ hone
    have hseen : b.itemsAt s.bucket.published = s.bucket.items := by
      rw [hshort.itemsAt hkeep, itemsAt_published]
    have hreaders := readers_snapshots h hshort.preserves hb (l := s.readers) (fun _ hn => hn)
      fun n hn => by
        have := le_more s.held s.bucket.published n
        have := held_ne_zero.mpr hn
        omega
    refine ⟨?_, ?_⟩
    · show Reply.items ((b.version? s.bucket.published).map (·.items)) = _
      rw [map_items_version? hkeep, hseen]
    · show Snapshots.mk b.current _ ((s.readers.set r s.bucket.published).map b.itemsAt) = _
      rw [hshort.current, Numbered.map_set, hreaders, hseen]
      rfl

theorem shows_release {s : Session κ ν} (h : s.Sound) (hroom : s.Uncrowded) (r : Nat) :
    Shows (s.step (.release r)) (s.snapshots.step s.wouldBlock (.release r)) := by
  refine shows_withReader (s := s) r (.ok ())
    (F := fun _ n => (.nothing, { s with readers := s.readers.erase r }.letGo n))
    (G := fun _ _ => (.nothing, { s.snapshots with readers := s.snapshots.readers.erase r }))
    fun _ n hheld => ⟨rfl, ?_⟩
  -- after a release the other readers still hold what they held
  have hn := held_ne_zero.mpr (Numbered.mem_values hheld)
  have hless := held_erase (t := { s with readers := s.readers.erase r }) h.distinct hheld rfl
  have hafter := snapshots_of_shortens h (shortens_release s.bucket n s.shared)
    (h.orderly.release hroom.roomy hn s.shared) (l := s.readers.erase r)
    (fun m hm => ((List.filter_sublist).map _).subset hm)
    (fun m hm => by rw [← hless]; exact held_ne_zero.mpr hm)
    (s.bucket.release n s.shared).2 s.holder
  rw [Numbered.map_erase] at hafter
  exact hafter

theorem shows_get {s : Session κ ν} (h : s.Sound) (hroom : s.Uncrowded) (q : Query κ) :
    Shows (s.step (.get q)) (s.snapshots.step s.wouldBlock (.get q)) := by
  refine shows_acquiring h hroom fun b sh hshort hb => ?_
  have hone : more s.held s.bucket.published s.bucket.published ≠ 0 := by simp [more]
  -- an acquisition and a release at once: nobody is left holding
  have hkeep := hb.counted.kept _ hone
  have hdone := hb.release (hroom.roomy_more _) hone sh
  rw [fewer_more] at hdone
  refine ⟨?_, ?_⟩
  · show Reply.item (b.findAt s.bucket.published q) = _
    rw [findAt_eq, hshort.itemsAt hkeep, itemsAt_published]
  · exact snapshots_of_shortens h (hshort.trans (shortens_release b s.bucket.published sh)) hdone
      (fun _ hn => hn) (fun _ hn => held_ne_zero.mpr hn) _ s.holder

/-- Whatever a session answers and becomes, a snapshot list answers and becomes. -/
theorem shows_step {s : Session κ ν} (h : s.Sound) (hroom : s.Uncrowded) {c : Command κ ν}
    (hc : c.setsCounts = false) : Shows (s.step c) (s.snapshots.step s.wouldBlock c) := by
  cases c with
  | replace change =>
    exact shows_write h hroom change (fun (q, i) b _ hclean => publishes_replace q i b hclean)
      fun (q, i) b sh hclean =>
        ⟨congrArg Reply.item (replace_fst q i b sh), items_replace q i b hclean⟩
  | add i =>
    exact shows_write h hroom i (fun i b _ hclean => publishes_add i b hclean)
      fun i b sh hclean => ⟨rfl, items_add i b hclean⟩
  | remove q =>
    exact shows_write h hroom q (fun q b _ hclean => publishes_remove q b hclean)
      fun q b sh hclean => ⟨congrArg Reply.item (remove_fst q b sh), items_remove q b hclean⟩
  | wipe =>
    exact shows_write h hroom (.ok ()) (F := fun _ b sh => (.nothing, b.wipe sh))
      (G := fun _ _ => (.nothing, [])) (fun _ b _ hclean => publishes_wipe b hclean)
      fun _ b sh hclean => ⟨rfl, items_wipe b hclean⟩
  | lock | lockBare =>
    dsimp only [step, Snapshots.step]
    rw [isLocked_snapshots]
    split <;> exact ⟨rfl, rfl⟩
  | unlock => exact shows_unlock h hroom
  | adopt | keep =>
    obtain ⟨b, sh, holder, readers⟩ := s
    cases holder <;> exact ⟨rfl, rfl⟩
  | inspect =>
    dsimp only [step, Snapshots.step]
    rw [isLocked_snapshots]
    split <;> exact ⟨rfl, rfl⟩
  | draftCopy =>
    exact shows_prepare h (.ok ()) (F := fun _ b sh => (.nothing, b.draftCopy sh))
      (G := fun _ l => (.nothing, l)) fun _ b sh hclean => ⟨rfl, items_draftCopy b hclean⟩
  | draftEmpty =>
    exact shows_prepare h (.ok ()) (F := fun _ b sh => (.nothing, b.draftEmpty sh))
      (G := fun _ _ => (.nothing, [])) fun _ b sh hclean => ⟨rfl, items_draftEmpty b hclean⟩
  | draftWithout q =>
    exact shows_prepare h q fun q b sh hclean =>
      ⟨congrArg Reply.item (draftWithout_fst b q sh), items_draftWithout b q hclean⟩
  | push i =>
    refine shows_withDraft i fun i v _ => ⟨?_, ?_⟩
    · exact congrArg (fun l => Reply.items (some l)) (Version.items_push v i)
    · show Snapshots.mk _ (.writer (some (v.push i).items)) _ = _
      rw [Version.items_push]
      rfl
  | publish =>
    refine shows_withDraft (.ok ())
      (F := fun _ v => (.nothing, { s with
        bucket := (s.bucket.publish v s.shared).1
        shared := (s.bucket.publish v s.shared).2
        holder := .writer none }))
      (G := fun _ l => (.nothing, { s.snapshots with current := some l, lock := .writer none }))
      fun _ v hholder => ⟨rfl, ?_⟩
    have hlocked := h.locked_eq.trans (isLocked_of_writer hholder)
    have hb := h.orderly.publish hroom.roomy hlocked (h.draft v hholder) s.shared
    have hreaders := readers_snapshots h (preserves_publish s.bucket v s.shared) hb
      (fun _ hn => hn) (fun _ hn => held_ne_zero.mpr hn)
    show Snapshots.mk (s.bucket.publish v s.shared).1.current _ _ = _
    rw [current_publish]
    exact congrArg (Snapshots.mk _ _) hreaders
  | discard =>
    exact shows_withDraft (s := s) (.ok ())
      (F := fun _ v => (.nothing, { s with
        shared := s.shared.putAll [v]
        holder := .writer none }))
      (G := fun _ _ => (.nothing, { s.snapshots with lock := .writer none }))
      fun _ v _ => ⟨rfl, rfl⟩
  | install items => exact shows_install h items
  | acquire r => exact shows_acquire h hroom r
  | release r => exact shows_release h hroom r
  | itemsOf r =>
    refine shows_withReader (s := s) r (.ok ())
      (F := fun _ n => (.version (s.bucket.version? n), s))
      (G := fun _ l => (.items (some l), s.snapshots)) fun _ n hheld => ⟨?_, rfl⟩
    exact congrArg Reply.items (map_items_version? (h.keeps (Numbered.mem_values hheld)))
  | search r q =>
    exact shows_withReader r q fun q n _ => ⟨congrArg Reply.item (findAt_eq s.bucket n q), rfl⟩
  | get q => exact shows_get h hroom q
  | getWith word => cases hc
  | shift n => cases hc
  | rebalance => exact shows_rebalance h hroom

/-! ## Runs -/

theorem answers_snapshots {s : Session κ ν} (h : s.Sound) {cs : List (Command κ ν)}
    (hcs : s.Calm cs) : s.answers cs = s.snapshots.answers (s.told cs) := by
  -- along the run, with the session sound before every command
  induction cs generalizing s with
  | nil => rfl
  | cons c cs ih =>
    obtain ⟨hroom, hc, hrest⟩ := hcs
    obtain ⟨hreply, hafter⟩ := shows_step h hroom hc
    show (s.step c).1.view :: (s.step c).2.answers cs = _ :: _
    rw [hreply, ih (sound_step h hroom hc) hrest, hafter]

/--
**A bucket refines a list with snapshots.**

Whatever is done with a new bucket and a clean pool, every item and every list of items that
is answered is the one that the snapshot list answers: a reader has the items that were
current when it acquired, and what is published is the draft.
-/
theorem bucket_refines_snapshots {pool : Pool κ ν} (hpool : pool.IsClean)
    {cs : List (Command κ ν)} (hcs : ({ shared := { pool } } : Session κ ν).Calm cs) :
    ({ shared := { pool } } : Session κ ν).answers cs =
      ({} : Snapshots κ ν).answers (({ shared := { pool } } : Session κ ν).told cs) :=
  answers_snapshots (sound_new hpool) hcs

theorem bucket_refines_snapshots_kept_reader :
    let i : Item Nat Nat := ⟨7, 1, 10⟩
    ({} : Session Nat Nat).answers
        [.add (.ok i), .acquire 0, .wipe, .itemsOf 0, .release 0, .get (.exactly 7 1)] =
      [.nothing, .items (some [i]), .nothing, .items (some [i]), .nothing, .item none] := by
  intro i
  have hcalm : ({} : Session Nat Nat).Calm
      [.add (.ok i), .acquire 0, .wipe, .itemsOf 0, .release 0, .get (.exactly 7 1)] :=
    ⟨uncrowded_of_length (by decide), rfl, uncrowded_of_length (by decide), rfl,
      uncrowded_of_length (by decide), rfl, uncrowded_of_length (by decide), rfl,
      uncrowded_of_length (by decide), rfl, uncrowded_of_length (by decide), rfl, trivial⟩
  exact (bucket_refines_snapshots Pool.isClean_new hcalm).trans (by cbv)

end Session

end VersionedMap.Bucket
