import VersionedMap.Proofs.Chronicle

/-!
# Maps and their chronicles

A map **tells** a chronicle of every shard if that is how the shelves of its tables are filled. What
the operations of a map do to it, they do to its chronicles, and what they answer can be read off
there: a mutation of one key, whichever it is, is a **motion**, growth and readers change no
chronicle, and clearing ends one shard's chronicle after another. Only the number of buckets, and
the order of a scan with it, cannot be told from the chronicles.
-/

namespace VersionedMap

variable {κ ν α : Type}

/-! ## Motions -/

/--
A mutation of a map, for keys that have a hash by `hash`: where it leads, what it does to a bucket
there and to a list, and how its result is answered.
-/
structure Motion (κ ν : Type) (hash : κ → UInt64) where
  Result : Type
  key : UInt64
  act : UInt32 → Mutation κ ν Result
  edit : UInt32 → Redaction κ ν Result
  answer : Result → Answer κ ν
  edits : ∃ (own : κ → Prop) (spares : Result → κ → Prop),
    (∀ h, (act h).Edits h own spares) ∧ ∀ k, own k → hash k = key
  mute : ∀ h, (act h).Mute
  redacts : ∀ h, (act h).Redacts (edit h)
  isLocal : ∀ h, (edit h).Local h

/-- The motion of a mutation that acts on one key. -/
def Motion.onKey [DecidableEq κ] (hash : κ → UInt64) (k : κ) {act : UInt32 → Mutation κ ν α}
    {edit : UInt32 → Redaction κ ν α} (answer : α → Answer κ ν) {spec : Option ν → α × Option ν}
    (hacts : ∀ h, (act h).Acts h k spec) (hmute : ∀ h, (act h).Mute)
    (hredacts : ∀ h, (act h).Redacts (edit h)) (hlocal : ∀ h, (edit h).Local h) :
    Motion κ ν hash where
  Result := α
  key := hash k
  act := act
  edit := edit
  answer := answer
  edits := ⟨_, _, fun h => (hacts h).edits, fun _ hk => congrArg hash hk⟩
  mute := hmute
  redacts := hredacts
  isLocal := hlocal

/-- What a motion comes to in the chronicle that it leads to: the result, and the chronicle then. -/
def Motion.tell {hash : κ → UInt64} (μ : Motion κ ν hash) (route : UInt64 → Route)
    (L : Nat → List (Item κ ν)) : (μ.Result × Change) × List (Item κ ν) :=
  μ.edit (route μ.key).hash (L (route μ.key).shard)

namespace Deed

variable [DecidableEq κ] {m : Map κ ν} {hash : κ → UInt64}

/-- The motion that a deed makes, if it is a mutation of one key. -/
def motion? (hash : κ → UInt64) : Deed κ ν → Option (Motion κ ν hash)
  | .set k w => some (.onKey hash k (fun _ => .nothing) (Mutation.acts_set · k w)
      (Mutation.mute_set · k w) (Mutation.redacts_set · k w) (Redaction.local_place · k w))
  | .swap k w => some (.onKey hash k .value (Mutation.acts_set · k w)
      (Mutation.mute_set · k w) (Mutation.redacts_set · k w) (Redaction.local_place · k w))
  | .setAbsent k w => some (.onKey hash k .flag (Mutation.acts_setAbsent · k w)
      (Mutation.mute_setAbsent · k w) (Mutation.redacts_setAbsent · k w)
      (Redaction.local_placeAbsent · k w _))
  | .getOrSet k w => some (.onKey hash k (fun (w, old) => .found w old)
      (Mutation.acts_getOrSet · k w) (Mutation.mute_getOrSet · k w)
      (Mutation.redacts_getOrSet · k w) (Redaction.local_placeAbsent · k w _))
  | .delete q => some {
      Result := Option ν
      key := q.hash
      act := fun h => .delete ⟨h, q.admits⟩
      edit := fun h => .delete ⟨h, q.admits⟩
      answer := .value
      edits := ⟨fun _ => False, fun a k => a = none ∨ q.admits k = false,
        fun h => Mutation.edits_delete ⟨h, q.admits⟩, fun _ => False.elim⟩
      mute := fun h => Mutation.mute_delete ⟨h, q.admits⟩
      redacts := fun h => Mutation.redacts_delete ⟨h, q.admits⟩
      isLocal := fun h => Redaction.local_delete ⟨h, q.admits⟩ }
  | .clear | .lock | .wipe | .free => none

/-- A deed that makes a motion is carried out as that motion. -/
theorem run_motion {d : Deed κ ν} {μ : Motion κ ν hash} (h : d.motion? hash = some μ)
    (hm : m.hash = hash) (v : View) :
    d.run v m = v.attempt (Attempt.answer μ.answer (m.mutate μ.key μ.act)) := by
  subst hm
  cases d with
  | set k w =>
    obtain rfl := Option.some.inj h
    show v.attempt (Attempt.answer _ (m.set k w)) = v.attempt (Attempt.answer
      (fun _ : Option ν => .nothing) (m.mutate (m.hash k) fun hash => Mutation.set hash k w))
    unfold Map.set Map.swap
    generalize m.mutate (m.hash k) (fun hash => Mutation.set hash k w) = out
    obtain ⟨a | _, m'⟩ := out <;> rfl
  | swap k w | setAbsent k w | getOrSet k w | delete q =>
    obtain rfl := Option.some.inj h
    rfl
  | clear | lock | wipe | free => simp [motion?] at h

end Deed

/-! ## Telling -/

theorem Table.size_pos (t : Table κ ν) : 0 < t.size := t.nonempty

namespace Map

variable {m m' : Map κ ν} {L : Nat → List (Item κ ν)}

/-- The shelves of every shard are filled as its chronicle says. -/
def Tells (m : Map κ ν) (L : Nat → List (Item κ ν)) : Prop :=
  ∀ i < m.shards.size,
    (m.shardAt i).table.shelves = shelve (L i) (m.shardAt i).table.size

/-- A map tells its items as they stand. -/
theorem Fit.tells_items {held : Bool} (h : m.Fit held) :
    m.Tells fun i => (m.shardAt i).table.items := by
  intro i hi
  have hshelve := (h.shards i hi).table.shelved.shelve_flatten
  rw [Table.length_shelves] at hshelve
  exact hshelve.symm

theorem Tells.congr (ht : m.Tells L) {L' : Nat → List (Item κ ν)}
    (h : ∀ i < m.shards.size, L' i = L i) : m.Tells L' := by
  intro i hi
  rw [h i hi]
  exact ht i hi

theorem SameView.tells (h : m.SameView m') (ht : m.Tells L) : m'.Tells L := by
  intro i hi
  rw [h.shelves_eq, Table.size_congr (h.shelves_eq i)]
  exact ht i (h.size_eq ▸ hi)

theorem Wiped.tells (h : m.Wiped m') : m'.Tells fun _ => [] := by
  intro i _
  have hshelves : (m'.shardAt i).table.shelves = .replicate (m.shardAt i).table.size [] :=
    congrArg Prod.fst (h.view_eq i)
  rw [← Table.length_shelves, hshelves, List.length_replicate, shelve_nil]

/-- Another chronicle of one shard. -/
def rewrite (L : Nat → List (Item κ ν)) (i : Nat) (l : List (Item κ ν)) :
    Nat → List (Item κ ν) := fun j => if j = i then l else L j

theorem Swaps.tells {i : Nat} {d : Shard κ ν} (h : m.Swaps i d m') (ht : m.Tells L)
    {l : List (Item κ ν)} (hd : d.table.shelves = shelve l d.table.size) :
    m'.Tells (rewrite L i l) := by
  intro j hj
  unfold rewrite
  by_cases hji : j = i
  · rw [if_pos hji, hji, h.here]
    exact hd
  · rw [if_neg hji, h.others j hji]
    exact ht j (h.size_eq ▸ hj)

namespace Tells

/-- The items of a shard are those of its chronicle. -/
theorem perm (ht : m.Tells L) {i : Nat} (hi : i < m.shards.size) :
    (m.shardAt i).table.items.Perm (L i) := by
  rw [Table.items_eq_flatten, ht i hi]
  exact perm_shelve (Table.size_pos _) _

/-- What is found on the shelf of a hash is what is found in the chronicle of its shard. -/
theorem find?_eq {held : Bool} (ht : m.Tells L) (h : m.Fit held) (q : Lookup κ) :
    m.find? q = (L (m.route q.hash).shard).find? (m.queryOf q).selects := by
  unfold find? shelfAt
  rw [ht _ (h.route_lt q.hash), length_shelve, List.getD_eq_getElem?_getD,
    getElem?_shelve _ (slot_lt (Table.size_pos _) _), Option.getD_some]
  exact Redaction.find?_local (fun i hi => by simp [hi, queryOf]) _

/-- A motion in the bucket that it leads to, told from the chronicle. -/
theorem outcome {held : Bool} (ht : m.Tells L) (h : m.Fit held) {hash : κ → UInt64}
    (μ : Motion κ ν hash) :
    (m.outcome μ.key μ.act).1 = (μ.tell m.route L).1 ∧
      (m.shardAt (m.route μ.key).shard).table.shelves.set
          (slot (m.shardAt (m.route μ.key).shard).table.size (m.route μ.key).hash)
          (m.outcome μ.key μ.act).2.1.items
        = shelve (μ.tell m.route L).2 (m.shardAt (m.route μ.key).shard).table.size := by
  have hlocal := μ.isLocal (m.route μ.key).hash
  have hshelf : (m.bucketOf μ.key).lock.items = (L (m.route μ.key).shard).filter fun i =>
      slot (m.shardAt (m.route μ.key).shard).table.size i.hash
        == slot (m.shardAt (m.route μ.key).shard).table.size (m.route μ.key).hash := by
    rw [Bucket.items_lock, items_bucketOf]
    unfold shelfAt
    rw [ht _ (h.route_lt μ.key), length_shelve, List.getD_eq_getElem?_getD,
      getElem?_shelve _ (slot_lt (Table.size_pos _) _), Option.getD_some]
  obtain ⟨hresult, hitems⟩ :=
    μ.redacts (m.route μ.key).hash (m.bucketOf μ.key).lock m.shared h.clean
  rw [hshelf] at hresult hitems
  unfold Map.outcome
  rw [hresult, hitems, ht _ (h.route_lt μ.key), hlocal.shelve_eq]
  exact ⟨hlocal.result_eq _ (fun i hi => by simp [hi]) _, rfl⟩

end Tells

/-- A chronicle with so many items that `n` buckets are due for growth. -/
def overfull (n : Nat) (l : List (Item κ ν)) : Bool :=
  growthThreshold n ≤ l.length.toUInt64.toNat

theorem Tells.needsGrowth_eq {held : Bool} (ht : m.Tells L) (h : m.Fit held) {i : Nat}
    (hi : i < m.shards.size) : (m.shardAt i).table.needsGrowth
      = overfull (m.shardAt i).table.size (L i) := by
  have haccounted := (h.shards i hi).table.accounted
  unfold Table.needsGrowth overfull
  rw [haccounted, (ht.perm hi).length_eq]

/-! ## What becomes of a chronicle -/

/-- The first step of a motion. -/
theorem Fit.tells_change (h : m.Fit false) (ht : m.Tells L) {hash : κ → UInt64}
    (hm : m.hash = hash) (μ : Motion κ ν hash) :
    ∃ m', m.change μ.key μ.act = (.done ((μ.tell m.route L).1.1,
      (μ.tell m.route L).1.2 = .inserted &&
        overfull (m.shardAt (m.route μ.key).shard).table.size (μ.tell m.route L).2), m') ∧
      m'.Fit false ∧ m.SameSizes m' ∧
      m'.Tells (rewrite L (m.route μ.key).shard (μ.tell m.route L).2) := by
  subst hm
  obtain ⟨hresult, hshelve⟩ := ht.outcome h μ
  obtain ⟨own, spares, hedits, hown⟩ := μ.edits
  obtain ⟨t, m', hrun, hswap, hshelves, _⟩ := h.change_spec μ.key μ.mute
  obtain ⟨m₁, hrun₁, hchanges, hfit⟩ := h.change_changes hedits hown μ.mute
  obtain ⟨_, rfl⟩ := Prod.mk.inj (hrun.symm.trans hrun₁)
  have hbuckets := hchanges.buckets_eq (m.route μ.key).shard
  have htells : m'.Tells (rewrite L (m.route μ.key).shard (μ.tell m.route L).2) := by
    refine hswap.tells ht ?_
    rw [hswap.here] at hbuckets
    dsimp only at hbuckets ⊢
    rw [hshelves, hshelve, hbuckets]
  refine ⟨m', ?_, hfit, hchanges.toSameSizes, htells⟩
  have hneeds := htells.needsGrowth_eq hfit (hchanges.size_eq ▸ h.route_lt μ.key)
  have hhere : rewrite L (m.route μ.key).shard (μ.tell m.route L).2 (m.route μ.key).shard
      = (μ.tell m.route L).2 := if_pos rfl
  rw [hhere, hbuckets] at hneeds
  rw [hrun₁, hresult, hneeds]

/-- Growth, if it is still due, doubles the number of buckets. -/
theorem Fit.tells_grow (h : m.Fit false) (ht : m.Tells L) {i : Nat} (hi : i < m.shards.size) :
    ∃ m', m.grow i = (.done (), m') ∧ m'.Fit false ∧ m.SameShape m' ∧ m'.Tells L ∧
      ∀ j, (m'.shardAt j).table.size = if j = i ∧ overfull (m.shardAt i).table.size (L i) = true
        then 2 * (m.shardAt j).table.size else (m.shardAt j).table.size := by
  rcases h.grow_cases hi with ⟨hnot, hgrow⟩ | ⟨hneeds, m', hgrow, hgrows, hfit⟩
  · rw [ht.needsGrowth_eq h hi] at hnot
    refine ⟨m, hgrow, h, .refl m, ht, fun j => (if_neg ?_).symm⟩
    rw [hnot]
    simp
  · rw [ht.needsGrowth_eq h hi] at hneeds
    obtain ⟨e, he⟩ := (h.shards i hi).table.shelved.size
    rw [Table.length_shelves] at he
    refine ⟨m', hgrow, hfit, hgrows.toSameShape, fun j hj => ?_, fun j => ?_⟩
    · by_cases hji : j = i
      · subst hji
        rw [hgrows.shelves_eq, ht j hi, hgrows.buckets_eq, doubled_shelve he]
      · rw [hgrows.others j hji]
        exact ht j (hgrows.size_eq ▸ hj)
    · by_cases hji : j = i
      · subst hji
        rw [if_pos ⟨rfl, hneeds⟩, hgrows.buckets_eq]
      · rw [if_neg fun hc => hji hc.1, hgrows.others j hji]

/-- The number of buckets after a change that leaves this chronicle, and growth if it is due. -/
def grownSize (n : Nat) (c : Change) (l : List (Item κ ν)) : Nat :=
  if (c = .inserted && overfull n l) = true then 2 * n else n

/-- A motion, with growth if it has made that due. -/
theorem Fit.tells_mutate (h : m.Fit false) (ht : m.Tells L) {hash : κ → UInt64}
    (hm : m.hash = hash) (μ : Motion κ ν hash) :
    ∃ m', m.mutate μ.key μ.act = (.done (μ.tell m.route L).1.1, m') ∧ m'.Fit false ∧
      m.SameShape m' ∧
      m'.Tells (rewrite L (m.route μ.key).shard (μ.tell m.route L).2) ∧
      ∀ j, (m'.shardAt j).table.size = if j = (m.route μ.key).shard
        then grownSize (m.shardAt j).table.size (μ.tell m.route L).1.2 (μ.tell m.route L).2
        else (m.shardAt j).table.size := by
  obtain ⟨m₁, hrun, hfit, hsizes, htells⟩ := h.tells_change ht hm μ
  have hi : (m.route μ.key).shard < m₁.shards.size := hsizes.size_eq ▸ h.route_lt μ.key
  have hhere : rewrite L (m.route μ.key).shard (μ.tell m.route L).2 (m.route μ.key).shard
      = (μ.tell m.route L).2 := if_pos rfl
  unfold Map.mutate
  dsimp only
  rw [hrun]
  generalize hdue : (decide ((μ.tell m.route L).1.2 = .inserted) &&
    overfull (m.shardAt (m.route μ.key).shard).table.size (μ.tell m.route L).2) = due at *
  cases due with
  | false =>
    refine ⟨m₁, rfl, hfit, hsizes.toSameShape, htells, fun j => ?_⟩
    rw [hsizes.buckets_eq]
    split
    · rename_i hj
      subst hj
      unfold grownSize
      rw [hdue, if_neg (by simp)]
    · rfl
  | true =>
    obtain ⟨m₂, hgrow, hfit₂, hshape, htells₂, hdoubled⟩ := hfit.tells_grow htells hi
    refine ⟨m₂, ?_, hfit₂, hsizes.toSameShape.trans hshape, htells₂, fun j => ?_⟩
    · dsimp only
      rw [hgrow]
    · rw [hdoubled, hhere, hsizes.buckets_eq, hsizes.buckets_eq]
      by_cases hj : j = (m.route μ.key).shard
      · subst hj
        rw [if_pos ⟨rfl, (Bool.and_eq_true_iff.mp hdue).2⟩, if_pos rfl]
        unfold grownSize
        rw [hdue, if_pos rfl]
      · rw [if_neg fun hc => hj hc.1, if_neg hj]

/-- Clearing a shard ends its chronicle. -/
theorem Fit.tells_clearOne (h : m.Fit false) (ht : m.Tells L) {i : Nat} (hi : i < m.shards.size) :
    ∃ m', m.modifyShard i Shard.clear = (.done (), m') ∧ m'.Fit false ∧ m.SameShape m' ∧
      m'.Tells (rewrite L i []) ∧
      ∀ j, (m'.shardAt j).table.size = (m.shardAt j).table.size := by
  obtain ⟨m', hrun, hfit, hswap⟩ := h.clear_swaps hi
  refine ⟨m', hrun, hfit, hswap.toSameShape, hswap.tells ht ?_, fun j => ?_⟩
  · rw [Shard.table_replace, Table.size_emptied, shelve_nil, Table.shelves_emptied]
  · by_cases hji : j = i
    · rw [hji, hswap.here, Shard.table_replace, Table.size_emptied]
    · rw [hswap.others j hji]

/-- Clearing the shards from one on ends their chronicles. -/
theorem Fit.tells_clearFrom (h : m.Fit false) (ht : m.Tells L) {i n : Nat}
    (hi : i + n = m.shards.size) :
    ∃ m', m.clearFrom i n = (.done (), m') ∧ m'.Fit false ∧ m.SameShape m' ∧
      m'.Tells (fun j => if i ≤ j then [] else L j) ∧
      ∀ j, (m'.shardAt j).table.size = (m.shardAt j).table.size := by
  obtain ⟨m', hrun, hfit, hshape, hshards⟩ := h.clearFrom_replaces hi
  refine ⟨m', hrun, hfit, hshape, fun j hj => ?_, fun j => ?_⟩
  · have hlt : j < m.shards.size := hshape.size_eq ▸ hj
    rw [hshards]
    dsimp only
    by_cases hij : i ≤ j
    · rw [if_pos ⟨hij, hlt⟩, if_pos hij, Shard.table_replace, Table.size_emptied, shelve_nil,
        Table.shelves_emptied]
    · rw [if_neg fun h => hij h.1, if_neg hij]
      exact ht j hlt
  · rw [hshards]
    split
    · rw [Shard.table_replace, Table.size_emptied]
    · rfl

end Map

end VersionedMap
