import VersionedMap.Proofs.MapContinuity
import VersionedMap.Proofs.Walks

/-!
# What is held is kept

A bucket at a place of a map counts its readers, and who they are is known: those of the holds that
are of a version at this place. As long as the two agree, and the map deals with its pool for all
the versions in its tables, a map is **intact**. What is held in an intact map is still where it was
acquired, and the pool does not have it.

Deeds keep a map intact, whoever holds what. So it is enough to see that a hold comes with every
version that is acquired, and goes when it is let go of.
-/

namespace VersionedMap

variable {κ ν ρ α : Type}

/-! ## Deeds -/

/-- To wait is to be refused, and changes nothing. -/
theorem View.tends_attempt (v : View) {m : Map κ ν} {answer : α → Answer κ ν}
    {x : Attempt α × Map κ ν} (h : m.Tends x.2) :
    m.Tends (v.attempt (Attempt.answer answer x)).2.2 := by
  obtain ⟨a | _, m'⟩ := x <;> exact h

/-- Whatever a deed acquires, it lets go of. -/
theorem Deed.tends_run [DecidableEq κ] (d : Deed κ ν) {v : View} {m : Map κ ν}
    (h : m.Fit (!v.freed)) : m.Tends (d.run v m).2.2 := by
  cases d with
  | set k w | swap k w =>
    exact v.tends_attempt (h.tends_mutate (m.hash k) fun hash => Mutation.careful_set hash k w)
  | setAbsent k w =>
    exact v.tends_attempt (h.tends_mutate (m.hash k) fun hash =>
      Mutation.careful_setAbsent hash k w)
  | getOrSet k w =>
    exact v.tends_attempt (h.tends_mutate (m.hash k) fun hash => Mutation.careful_getOrSet hash k w)
  | delete q =>
    exact v.tends_attempt (h.tends_mutate q.hash fun hash =>
      Mutation.careful_delete ⟨hash, q.admits⟩)
  | clear => exact v.tends_attempt (Map.tends_clearFrom (Nat.zero_add _).le)
  | lock =>
    have hlock := m.tends_lock
    dsimp only [run]
    generalize m.lock = locked at *
    obtain ⟨a | _, m'⟩ := locked <;> exact hlock
  | wipe =>
    dsimp only [run]
    cases hv : v.freed with
    | true =>
      rw [View.clear_freed hv]
      exact .refl m
    | false =>
      rw [hv] at h
      have hwipe := Map.Fit.tends_wipe h
      unfold View.clear View.check
      rw [hv]
      exact hwipe
  | free =>
    dsimp only [run]
    cases hv : v.freed with
    | true =>
      rw [View.free_freed hv]
      exact .refl m
    | false =>
      rw [View.free_held hv]
      exact m.tends_unlock

/-! ## Places -/

namespace Map

variable {m m' : Map κ ν} {p p' : Place}

/-- There is such a place. -/
structure Has (m : Map κ ν) (p : Place) : Prop where
  shard_lt : p.shard < m.shards.size
  generation_le : p.generation ≤ (m.shardAt p.shard).aside.size
  bucket_lt : p.bucket < (m.tableAt p.shard p.generation).size

theorem Guarded.has (h : m.Guarded p) : m.Has p := ⟨h.shard_lt, h.generation_le, h.bucket_lt⟩

theorem Has.guarded (h : m.Has p) (hpos : 0 < (m.shardAt p.shard).guards) : m.Guarded p :=
  ⟨h.shard_lt, hpos, h.generation_le, h.bucket_lt⟩

/-- Nothing but the sizes decides what places there are. -/
theorem Has.congr (h : m.Has p) (hshards : m'.shards.size = m.shards.size)
    (haside : (m'.shardAt p.shard).aside.size = (m.shardAt p.shard).aside.size)
    (hsize : (m'.tableAt p.shard p.generation).size = (m.tableAt p.shard p.generation).size) :
    m'.Has p :=
  ⟨hshards ▸ h.shard_lt, haside.symm ▸ h.generation_le, hsize.symm ▸ h.bucket_lt⟩

theorem Has.getElem? (h : m.Has p) :
    (m.tableAt p.shard p.generation).buckets[p.bucket]? = some (m.bucketAt p) := by
  have hlt : p.bucket < (m.tableAt p.shard p.generation).buckets.size := h.bucket_lt
  unfold bucketAt
  rw [Array.getD_eq_getD_getElem?, Array.getElem?_eq_getElem hlt]
  rfl

/-- A bucket continues the one that was at its place, or nobody has ever held anything of it. -/
theorem Continues.bucketAt (h : m.Continues m') (hp : m'.Has p) :
    (m.Has p ∧ (m.bucketAt p).Continues (m'.bucketAt p)) ∨
    ((m'.bucketAt p).Fresh ∧ ¬ m.Guarded p) := by
  rcases (h.shards p.shard).origin p.generation hp.generation_le p.bucket _ hp.getElem? with
    ⟨hg, b, hb, hcontinues⟩ | ⟨hfresh, hnew⟩
  · obtain ⟨hlt, _⟩ := Array.getElem?_eq_some_iff.mp hb
    have hhas : m.Has p := ⟨h.size_eq ▸ hp.shard_lt, hg, hlt⟩
    have hat : some b = some (m.bucketAt p) := hb.symm.trans hhas.getElem?
    obtain rfl := Option.some.inj hat
    exact .inl ⟨hhas, hcontinues⟩
  · refine .inr ⟨hfresh, fun hguarded => ?_⟩
    have hlt := hnew hguarded.guards_pos
    have hle := hguarded.generation_le
    omega

/-- `m'` is `m` with `c` for the bucket at `p`. -/
structure Puts (m : Map κ ν) (p : Place) (c : Bucket κ ν) (m' : Map κ ν) : Prop
    extends m.SameShape m' where
  guards_eq : ∀ i, (m'.shardAt i).guards = (m.shardAt i).guards
  aside_eq : ∀ i, (m'.shardAt i).aside.size = (m.shardAt i).aside.size
  tableAt_size : ∀ i, ∀ g ≤ (m.shardAt i).aside.size, (m'.tableAt i g).size = (m.tableAt i g).size
  here : m'.bucketAt p = c
  others : ∀ p', m.Has p' → p' ≠ p → m'.bucketAt p' = m.bucketAt p'
  deals : ∀ {q r : Pool κ ν}, q.Deals (m.bucketAt p).stamps r c.stamps →
    q.Deals m.stamps r m'.stamps

theorem Puts.has_iff {c : Bucket κ ν} (h : m.Puts p c m') : m'.Has p' ↔ m.Has p' := by
  constructor
  · intro hp
    have hle : p'.generation ≤ (m.shardAt p'.shard).aside.size := h.aside_eq _ ▸ hp.generation_le
    exact hp.congr h.size_eq.symm (h.aside_eq _).symm (h.tableAt_size _ _ hle).symm
  · exact fun hp => hp.congr h.size_eq (h.aside_eq _) (h.tableAt_size _ _ hp.generation_le)

theorem Puts.guarded {c : Bucket κ ν} (h : m.Puts p c m') (hp : m.Guarded p') : m'.Guarded p' :=
  (h.has_iff.mpr hp.has).guarded ((h.guards_eq _).symm ▸ hp.guards_pos)

/-! ### Another shard in the place of one -/

/-- Another shard somewhere, with the same tables in it as far as they concern anyone. -/
theorem Swaps.tableAt_eq {i j g : Nat} {d : Shard κ ν} (h : m.Swaps i d m')
    (hd : j = i → d.tableAt g = (m.shardAt i).tableAt g) : m'.tableAt j g = m.tableAt j g := by
  unfold Map.tableAt
  by_cases hj : j = i
  · rw [hj, h.here, hd hj]
  · rw [h.others j hj]

theorem Swaps.has_iff {i : Nat} {d : Shard κ ν} (h : m.Swaps i d m')
    (hd : p.shard = i → d.table = (m.shardAt i).table ∧ d.aside = (m.shardAt i).aside) :
    m'.Has p ↔ m.Has p := by
  have htable := h.tableAt_eq fun hp => by
    obtain ⟨htable, haside⟩ := hd hp
    show d.tableAt p.generation = (m.shardAt i).tableAt p.generation
    unfold Shard.tableAt
    rw [htable, haside]
  have haside : (m'.shardAt p.shard).aside = (m.shardAt p.shard).aside := by
    by_cases hp : p.shard = i
    · rw [hp, h.here, (hd hp).2]
    · rw [h.others _ hp]
  constructor
  · exact fun hp => hp.congr h.size_eq.symm (by rw [haside]) (by rw [htable])
  · exact fun hp => hp.congr h.size_eq (by rw [haside]) (by rw [htable])

end Map

/-- Another table at a generation that there is. -/
theorem Shard.modifyTable_spec (d : Shard κ ν) {g : Nat} (hg : g ≤ d.aside.size)
    (f : Table κ ν → α × Table κ ν) :
    (d.modifyTable g f).2.guards = d.guards ∧
      (d.modifyTable g f).2.aside.size = d.aside.size ∧
      (d.modifyTable g f).2.tableAt g = (f (d.tableAt g)).2 ∧
      ∀ g' ≤ d.aside.size, g' ≠ g → (d.modifyTable g f).2.tableAt g' = d.tableAt g' := by
  rw [modifyTable_eq]
  dsimp only
  split
  · rename_i hlt
    refine ⟨rfl, Array.size_setIfInBounds .., ?_, fun g' _ hne => ?_⟩
    · conv_lhs => unfold Shard.tableAt
      dsimp only
      rw [Array.getElem?_setIfInBounds_self, if_pos hlt]
      rfl
    · unfold Shard.tableAt
      dsimp only
      rw [Array.getElem?_setIfInBounds_ne (Ne.symm hne)]
  · rename_i hge
    obtain rfl : g = d.aside.size := by omega
    exact ⟨rfl, rfl, tableAt_current (Nat.le_refl _), fun g' hg' hne =>
      tableAt_aside d (Nat.lt_of_le_of_ne hg' hne) _ _⟩

/-- A change of the bucket at a place that there is, whatever it is. -/
theorem Map.modifyBucket_puts {m : Map κ ν} {p : Place} (hp : m.Has p)
    (f : Bucket κ ν → Shared κ ν → α × Bucket κ ν × Shared κ ν) :
    m.Puts p (f (m.bucketAt p) m.shared).2.1 (m.modifyBucket p f).2 ∧
      (m.modifyBucket p f).2.shared = (f (m.bucketAt p) m.shared).2.2 := by
  have hhere := bucketAt_modifyBucket hp.shard_lt hp.bucket_lt f
  obtain ⟨hguards, haside, htable, hothers⟩ := (m.shardAt p.shard).modifyTable_spec
    hp.generation_le fun t => (((f (t.buckets.getD p.bucket {}) m.shared).1,
      (f (t.buckets.getD p.bucket {}) m.shared).2.2),
      t.setBucket p.bucket (f (t.buckets.getD p.bucket {}) m.shared).2.1)
  generalize hd : (m.shardAt p.shard).modifyTable p.generation _ = changed at *
  obtain ⟨⟨a, s⟩, d⟩ := changed
  dsimp only at hguards haside htable hothers
  obtain ⟨m', hrun, hswap, hshared⟩ := modifyShard_swaps (i := p.shard) hp.shard_lt
    (f := Shard.inBucket p.generation p.bucket f) (a := a) (d := d) (s := s) (by
      unfold Shard.inBucket
      rw [hd])
  rw [modifyBucket_eq, hrun] at hhere ⊢
  dsimp only at hhere ⊢
  have hsize (g : Nat) (hg : g ≤ (m.shardAt p.shard).aside.size) :
      (d.tableAt g).size = ((m.shardAt p.shard).tableAt g).size := by
    by_cases hgen : g = p.generation
    · rw [hgen, htable, Table.size_setBucket]
    · rw [hothers g hg hgen]
  refine ⟨⟨hswap.toSameShape, fun i => ?_, fun i => ?_, fun i g hg => ?_, hhere,
    fun p' hp' hne => ?_, fun hdeals => ?_⟩, ?_⟩
  · by_cases hi : i = p.shard
    · rw [hi, hswap.here, hguards]
    · rw [hswap.others i hi]
  · by_cases hi : i = p.shard
    · rw [hi, hswap.here, haside]
    · rw [hswap.others i hi]
  · unfold Map.tableAt
    by_cases hi : i = p.shard
    · subst hi
      rw [hswap.here, hsize g hg]
    · rw [hswap.others i hi]
  · unfold bucketAt Map.tableAt
    by_cases hi : p'.shard = p.shard
    · have hgen := hp'.generation_le
      rw [hi] at hgen ⊢
      rw [hswap.here]
      by_cases hg : p'.generation = p.generation
      · have hj : p.bucket ≠ p'.bucket := fun hj => hne (by
          cases p
          cases p'
          simp_all)
        rw [hg, htable]
        unfold Table.setBucket
        rw [Array.getD_eq_getD_getElem?, Array.getElem?_setIfInBounds_ne hj,
          ← Array.getD_eq_getD_getElem?]
      · rw [hothers _ hgen hg]
    · rw [hswap.others _ hi]
  · refine hswap.deals hp.shard_lt (Shard.deals_tableAt hp.generation_le haside ?_ hothers)
    rw [htable]
    exact Table.deals_setBucket hp.bucket_lt hdeals
  · have hfst := congrArg Prod.fst hd
    rw [Shard.modifyTable_eq] at hfst
    exact hshared.trans (congrArg Prod.snd hfst).symm

/-! ## Who holds what -/

/-- How many of the holds are of a publication of the bucket at a place. -/
def heldAt (H : List (Hold κ ν)) (p : Place) (n : Nat) : Nat :=
  H.countP fun h => h.place = p ∧ h.publication = n

/-- Fewer than `2 ^ 31` of the holds are of any one version. -/
def Uncrowded (H : List (Hold κ ν)) : Prop := ∀ p, Bucket.Few (heldAt H p)

theorem heldAt_cons_self (h : Hold κ ν) (H : List (Hold κ ν)) :
    heldAt (h :: H) h.place = Bucket.more (heldAt H h.place) h.publication := by
  funext n
  unfold heldAt Bucket.more
  rw [List.countP_cons]
  by_cases hn : n = h.publication
  · rw [if_pos hn, if_pos (by simp [hn])]
  · rw [if_neg hn, if_neg (by simpa using Ne.symm hn), Nat.add_zero]

theorem heldAt_cons_ne {h : Hold κ ν} {p : Place} (hp : p ≠ h.place) (H : List (Hold κ ν)) :
    heldAt (h :: H) p = heldAt H p := by
  funext n
  unfold heldAt
  rw [List.countP_cons, if_neg (by simpa using fun heq => absurd heq.symm hp), Nat.add_zero]

/-- Whoever lets go is counted no longer. -/
theorem fewer_heldAt (h : Hold κ ν) (H : List (Hold κ ν)) :
    Bucket.fewer (heldAt (h :: H) h.place) h.publication = heldAt H h.place := by
  rw [heldAt_cons_self, Bucket.fewer_more]

theorem heldAt_ne_zero {h : Hold κ ν} {H : List (Hold κ ν)} (hh : h ∈ H) :
    heldAt H h.place h.publication ≠ 0 :=
  (List.countP_pos_iff.mpr ⟨h, hh, by simp⟩).ne'

theorem heldAt_eq_zero {p : Place} {H : List (Hold κ ν)} (hp : ∀ h ∈ H, h.place ≠ p) :
    heldAt H p = fun _ => 0 := by
  funext n
  exact List.countP_eq_zero.mpr fun h hh hcount => hp h hh (of_decide_eq_true hcount).1

theorem heldAt_le_length (H : List (Hold κ ν)) (p : Place) (n : Nat) : heldAt H p n ≤ H.length :=
  List.countP_le_length

/-- Where fewer than `2 ^ 31` versions are held in all. -/
theorem uncrowded_of_length {H : List (Hold κ ν)} (h : H.length < 2 ^ 31) : Uncrowded H :=
  fun p n => (heldAt_le_length H p n).trans_lt h

/-- The version is still where it was when it was acquired, and as it was. -/
def Hold.Kept (h : Hold κ ν) (m : Map κ ν) : Prop :=
  ∃ w, (m.bucketAt h.place).version? h.publication = some w ∧ w.lasting = h.version.lasting

/-- Of whatever is held, something is there. -/
theorem Bucket.Evolves.version_held {b c : Bucket κ ν} (h : b.Evolves c) {held held' : Nat → Nat}
    (hb : b.Orderly held) (hc : c.Orderly held') {n : Nat} (hn : held n ≠ 0) (hn' : held' n ≠ 0)
    {v : Version κ ν} (hv : b.version? n = some v) :
    ∃ w, c.version? n = some w ∧ w.lasting = v.lasting := by
  obtain ⟨w, hw⟩ := version?_of_keeps (hc.counted.kept n hn')
  obtain ⟨u, hu, hlasting⟩ := h.version n (hb.counted.kept n hn).1 w hw
  obtain rfl : u = v := Option.some.inj (hu.symm.trans hv)
  exact ⟨w, hw, hlasting.symm⟩

/-! ## Intact maps -/

/-- The buckets count the holds, the versions held are kept, and the pool accounts for them all. -/
structure Intact (H : List (Hold κ ν)) (m : Map κ ν) : Prop where
  orderly : ∀ p, m.Has p → (m.bucketAt p).Orderly (heldAt H p)
  linked : ∀ p, m.Has p → Linked (m.bucketAt p).chain
  kept : ∀ h ∈ H, m.Guarded h.place ∧ h.Kept m
  accounts : ∃ rest, m.shared.pool.AccountsFor (m.stamps ++ rest)
  kempt : m.shared.pool.Kempt

namespace Intact

variable {H H' : List (Hold κ ν)} {m m' : Map κ ν} {p : Place}

/-- Nobody holds anything at a place that is not guarded. -/
theorem heldAt_eq_zero (h : Intact H m) (hp : ¬ m.Guarded p) : heldAt H p = fun _ => 0 :=
  VersionedMap.heldAt_eq_zero fun x hx hplace => hp (hplace ▸ (h.kept x hx).1)

/-- An operation that lets go of all that it acquires, while guarded places stay. -/
theorem tend (h : Intact H m) (hH : Uncrowded H) (htends : m.Tends m')
    (hguarded : ∀ p, m.Guarded p → m'.Guarded p) : Intact H m' := by
  have hcontinues := htends.continues h.kempt
  refine ⟨fun p hp => ?_, fun p hp => ?_, fun x hx => ?_, htends.deals.accountsFor h.accounts,
    htends.deals.kempt h.kempt⟩
  · rcases hcontinues.bucketAt hp with ⟨hp', hbucket⟩ | ⟨hfresh, hnew⟩
    · exact (hbucket.keeps _ (hH p) (h.orderly p hp')).1
    · rw [h.heldAt_eq_zero hnew]
      exact hfresh.orderly
  · rcases hcontinues.bucketAt hp with ⟨hp', hbucket⟩ | ⟨hfresh, _⟩
    · exact hbucket.linked (h.linked p hp')
    · exact hfresh.linked
  · obtain ⟨hplace, w, hw, hlasting⟩ := h.kept x hx
    have hplace' := hguarded _ hplace
    rcases hcontinues.bucketAt hplace'.has with ⟨hp', hbucket⟩ | ⟨_, hnew⟩
    · have horderly := h.orderly _ hp'
      obtain ⟨horderly', hevolves⟩ := hbucket.keeps _ (hH _) horderly
      have hheld := heldAt_ne_zero hx
      obtain ⟨w', hw', hlasting'⟩ := hevolves.version_held horderly horderly' hheld hheld hw
      exact ⟨hplace', w', hw', hlasting'.trans hlasting⟩
    · exact absurd hplace hnew

/-- One bucket changes, and so does what is held of it. -/
theorem put (h : Intact H m) {c : Bucket κ ν} (hput : m.Puts p c m')
    (horderly : c.Orderly (heldAt H' p)) (hlinked : Linked c.chain)
    (hothers : ∀ p', p' ≠ p → heldAt H' p' = heldAt H p')
    (hkept : ∀ x ∈ H', m'.Guarded x.place ∧ x.Kept m')
    (hdeals : m.shared.pool.Deals (m.bucketAt p).stamps m'.shared.pool c.stamps) :
    Intact H' m' := by
  have hall := hput.deals hdeals
  refine ⟨fun p' hp' => ?_, fun p' hp' => ?_, hkept, hall.accountsFor h.accounts,
    hdeals.kempt h.kempt⟩
  · rw [hput.has_iff] at hp'
    by_cases hpp : p' = p
    · rw [hpp, hput.here]
      exact horderly
    · rw [hput.others p' hp' hpp, hothers p' hpp]
      exact h.orderly p' hp'
  · rw [hput.has_iff] at hp'
    by_cases hpp : p' = p
    · rw [hpp, hput.here]
      exact hlinked
    · rw [hput.others p' hp' hpp]
      exact h.linked p' hp'

/-- What is held before and after is kept. -/
theorem kept_put (h : Intact H m) {c : Bucket κ ν} (hput : m.Puts p c m')
    (horderly : c.Orderly (heldAt H' p)) (hevolves : (m.bucketAt p).Evolves c) {x : Hold κ ν}
    (hx : x ∈ H) (hx' : x ∈ H') : m'.Guarded x.place ∧ x.Kept m' := by
  obtain ⟨hplace, w, hw, hlasting⟩ := h.kept x hx
  refine ⟨hput.guarded hplace, ?_⟩
  by_cases hp : x.place = p
  · subst hp
    obtain ⟨w', hw', hlasting'⟩ := hevolves.version_held (h.orderly _ hplace.has) horderly
      (heldAt_ne_zero hx) (heldAt_ne_zero hx') hw
    exact ⟨w', by rw [hput.here]; exact hw', hlasting'.trans hlasting⟩
  · exact ⟨w, by rw [hput.others _ hplace.has hp]; exact hw, hlasting⟩

/-- A version is acquired, and is held from then on. -/
theorem acquire (h : Intact H m) (hH : Uncrowded H) (hp : m.Guarded p) {n : Nat}
    (hout : (m.acquire p).1 = .held n) {w : Version κ ν}
    (hw : ((m.acquire p).2.bucketAt p).version? n = some w) :
    Intact (⟨p, n, w, none⟩ :: H) (m.acquire p).2 := by
  have hb := h.orderly p hp.has
  obtain ⟨hput, hshared⟩ := Map.modifyBucket_puts hp.has Bucket.acquire
  have hworks : Site.Works false _ _ :=
    (Bucket.moves_acquire (d := none) (m.bucketAt p) m.shared).works
  have htidy := Bucket.tidy_acquire hb.counted hb.tidy m.shared
  have hshort := Bucket.shortens_acquire hb.counted.anchored m.shared
  unfold Map.acquire at hout hw ⊢
  rw [Map.modifyBucket_fst] at hout
  rcases Bucket.counted_acquire hb.counted ((hH p).roomy_more _) m.shared with
    ⟨_, hacq⟩ | ⟨_, _, _, hacq⟩ | ⟨_, hheld, hcounted⟩
  · rw [hacq] at hout
    cases hout
  · rw [hacq] at hout
    cases hout
  · obtain rfl : (m.bucketAt p).published = n :=
      Bucket.Acquisition.held.inj (hheld.symm.trans hout)
    have horderly : ((m.bucketAt p).acquire m.shared).2.1.Orderly
        (heldAt (⟨p, (m.bucketAt p).published, w, none⟩ :: H) p) := by
      rw [heldAt_cons_self]
      exact ⟨hcounted, htidy⟩
    refine h.put hput horderly (hworks.linked h.kempt.clean (h.linked p hp.has))
      (fun p' hp' => heldAt_cons_ne hp' H) ?_ (hshared ▸ hworks.deals)
    refine List.forall_mem_cons.mpr ⟨⟨hput.guarded hp, w, hw, rfl⟩, fun x hx => ?_⟩
    exact h.kept_put hput horderly hshort.evolves hx (List.mem_cons_of_mem _ hx)

/-- Who gets nothing to hold has changed nothing. -/
theorem miss (h : Intact H m) (hH : Uncrowded H) (hp : m.Guarded p)
    (hout : ∀ n, (m.acquire p).1 ≠ .held n) : Intact H (m.acquire p).2 := by
  have hb := h.orderly p hp.has
  obtain ⟨hput, hshared⟩ := Map.modifyBucket_puts hp.has Bucket.acquire
  unfold Map.acquire at hout ⊢
  rw [Map.modifyBucket_fst] at hout
  -- the bucket and the pool are what they were
  have hsame : ((m.bucketAt p).acquire m.shared).2 = (m.bucketAt p, m.shared) := by
    rcases Bucket.counted_acquire hb.counted ((hH p).roomy_more _) m.shared with
      ⟨_, hacq⟩ | ⟨_, _, _, hacq⟩ | ⟨_, hheld, _⟩
    · rw [hacq]
    · rw [hacq]
    · exact absurd hheld (hout _)
  rw [hsame] at hput hshared
  exact h.put hput hb (h.linked p hp.has) (fun _ _ => rfl)
    (fun x hx => h.kept_put hput hb (.refl _) hx hx) (hshared ▸ .refl _ _)

/-- A version is let go of, and is held no longer. -/
theorem release {x : Hold κ ν} (h : Intact (x :: H) m)
    (hroom : Bucket.Roomy (heldAt (x :: H) x.place)) :
    Intact H (m.release x.place x.publication) := by
  obtain ⟨hplace, _⟩ := h.kept x List.mem_cons_self
  have hb := h.orderly x.place hplace.has
  obtain ⟨hput, hshared⟩ := Map.modifyBucket_puts hplace.has
    fun b s => ((), b.release x.publication s)
  have hworks : Site.Works false _ _ :=
    (Bucket.moves_release (d := none) (m.bucketAt x.place) x.publication m.shared).works
  have hshort := Bucket.shortens_release (m.bucketAt x.place) x.publication m.shared
  have horderly := hb.release hroom (heldAt_ne_zero List.mem_cons_self) m.shared
  rw [fewer_heldAt] at horderly
  unfold Map.release
  refine h.put hput horderly (hworks.linked h.kempt.clean (h.linked _ hplace.has))
    (fun p' hp' => (heldAt_cons_ne hp' H).symm) (fun y hy => ?_) (hshared ▸ hworks.deals)
  exact h.kept_put hput horderly hshort.evolves (List.mem_cons_of_mem x hy) hy

/-- The same buckets, but for those of some tables that are gone, under whatever generations. -/
theorem restrict (h : Intact H m) (hbuckets : ∀ p, m'.Has p → ∃ p', m.Has p' ∧
      m'.bucketAt p = m.bucketAt p' ∧ heldAt H p = heldAt H p')
    (hheld : ∀ x ∈ H, m'.Guarded x.place ∧ m'.bucketAt x.place = m.bucketAt x.place)
    (hdeals : m.shared.pool.Deals m.stamps m'.shared.pool m'.stamps) : Intact H m' where
  orderly p hp := by
    obtain ⟨p', hp', hbucket, hcount⟩ := hbuckets p hp
    rw [hbucket, hcount]
    exact h.orderly p' hp'
  linked p hp := by
    obtain ⟨p', hp', hbucket, _⟩ := hbuckets p hp
    rw [hbucket]
    exact h.linked p' hp'
  kept x hx := by
    obtain ⟨hplace, hbucket⟩ := hheld x hx
    obtain ⟨_, w, hw, hlasting⟩ := h.kept x hx
    exact ⟨hplace, w, by rw [hbucket]; exact hw, hlasting⟩
  accounts := hdeals.accountsFor h.accounts
  kempt := hdeals.kempt h.kempt

/-- Other guards, and the same tables. -/
theorem reguard (h : Intact H m) {i : Nat} {d : Shard κ ν} (hi : i < m.shards.size)
    (hswap : m.Swaps i d m') (hshared : m'.shared = m.shared)
    (htable : d.table = (m.shardAt i).table) (haside : d.aside = (m.shardAt i).aside)
    (hheld : ∀ x ∈ H, x.place.shard = i → 0 < d.guards) : Intact H m' := by
  have htables (g : Nat) : d.tableAt g = (m.shardAt i).tableAt g := by
    unfold Shard.tableAt
    rw [htable, haside]
  have hbucket (p : Place) : m'.bucketAt p = m.bucketAt p := by
    unfold Map.bucketAt
    rw [hswap.tableAt_eq fun _ => htables _]
  have hhas (p : Place) : m'.Has p ↔ m.Has p := hswap.has_iff fun _ => ⟨htable, haside⟩
  have hstamps : d.stamps = (m.shardAt i).stamps := by
    unfold Shard.stamps
    rw [haside]
    exact List.flatMap_congr fun g _ => by rw [htables]
  refine h.restrict (fun p hp => ⟨p, (hhas p).mp hp, hbucket p, rfl⟩) (fun x hx => ?_)
    (hshared ▸ hswap.deals hi (hstamps ▸ .refl _ _))
  obtain ⟨hplace, _⟩ := h.kept x hx
  refine ⟨((hhas _).mpr hplace.has).guarded ?_, hbucket _⟩
  by_cases hshard : x.place.shard = i
  · rw [hshard, hswap.here]
    exact hheld x hx hshard
  · rw [hswap.others _ hshard]
    exact hplace.guards_pos

/-- The tables that were set aside in a shard go, with nobody who holds anything there. -/
theorem shed (h : Intact H m) {i : Nat} {d : Shard κ ν} (hi : i < m.shards.size)
    (hswap : m.Swaps i d m') (hshared : m'.shared = m.shared)
    (htable : d.table = (m.shardAt i).table) (haside : d.aside = #[])
    (hnone : ∀ x ∈ H, x.place.shard ≠ i) : Intact H m' := by
  have hsize : d.aside.size = 0 := congrArg Array.size haside
  have hcurrent : d.tableAt 0 = (m.shardAt i).tableAt (m.shardAt i).aside.size := by
    rw [Shard.tableAt_size, ← htable, ← hsize, Shard.tableAt_size]
  have hother {p : Place} (hp : p.shard ≠ i) : m'.bucketAt p = m.bucketAt p := by
    unfold Map.bucketAt
    rw [hswap.tableAt_eq fun hp' => absurd hp' hp]
  have hhas {p : Place} (hp : p.shard ≠ i) : m'.Has p ↔ m.Has p :=
    hswap.has_iff fun hp' => absurd hp' hp
  refine h.restrict (fun p hp => ?_) (fun x hx => ?_) (hshared ▸ hswap.deals hi ?_)
  · by_cases hshard : p.shard = i
    · -- the current table now goes by the first generation
      obtain ⟨j, g, k⟩ := p
      obtain rfl : j = i := hshard
      have hg := hp.generation_le
      have hk := hp.bucket_lt
      rw [hswap.here, hsize] at hg
      obtain rfl : g = 0 := Nat.le_zero.mp hg
      have hsame : m'.tableAt j 0 = m.tableAt j (m.shardAt j).aside.size := by
        unfold Map.tableAt
        rw [hswap.here, hcurrent]
      refine ⟨⟨j, (m.shardAt j).aside.size, k⟩, ⟨hi, Nat.le_refl _, hsame ▸ hk⟩, ?_, ?_⟩
      · unfold Map.bucketAt
        rw [hsame]
      · rw [VersionedMap.heldAt_eq_zero fun x hx hplace => hnone x hx (congrArg Place.shard hplace),
          VersionedMap.heldAt_eq_zero fun x hx hplace => hnone x hx (congrArg Place.shard hplace)]
    · exact ⟨p, (hhas hshard).mp hp, hother hshard, rfl⟩
  · obtain ⟨hplace, _⟩ := h.kept x hx
    have hshard := hnone x hx
    refine ⟨((hhas hshard).mpr hplace.has).guarded ?_, hother hshard⟩
    rw [hswap.others _ hshard]
    exact hplace.guards_pos
  · unfold Shard.stamps
    rw [hsize, Nat.zero_add, List.range_one, List.flatMap_singleton, hcurrent, List.range_succ,
      List.flatMap_append, List.flatMap_singleton]
    exact (Pool.Deals.forget _ _ _).congr List.perm_append_comm (.refl _)

/-- A shard is entered. -/
theorem enter (h : Intact H m) {i : Nat} (hi : i < m.shards.size) : Intact H (m.enter i).2 := by
  obtain ⟨hswap, hshared⟩ := Map.enter_swaps hi
  exact h.reguard hi hswap hshared rfl rfl fun _ _ _ => Nat.succ_pos _

/-- A shard is left; whoever leaves it last holds nothing there any more. -/
theorem leave (h : Intact H m) {i : Nat} (hi : i < m.shards.size)
    (hlast : (m.shardAt i).guards ≤ 1 → ∀ x ∈ H, x.place.shard ≠ i) : Intact H (m.leave i) := by
  obtain ⟨hswap, hshared⟩ := Map.leave_swaps hi
  unfold Shard.leave at hswap
  split at hswap
  · rename_i hguards
    exact h.shed hi hswap hshared rfl rfl (hlast hguards)
  · exact h.reguard hi hswap hshared rfl rfl fun _ _ _ => by dsimp only; omega

end Intact

end VersionedMap
