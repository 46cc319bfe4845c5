import VersionedMap.Proofs.Moves

/-!
# Every version is in one place

Versions go by their stamps. A pool **accounts for** some stamps if these, the stamps of its idle
versions and those of the versions that have been let go are together all stamps that it has
allocated, each of them once.

Whatever is done to a bucket is a **trade** with its pool: the versions in the bucket and in the
hands of its writer afterwards, and those that are lost, are those from before along with the ones
newly allocated. A version is lost in a trade only if the pool is full, or is let go with its
writer. Trades leave all accounts in order, whatever else there is that the pool accounts for.
-/

namespace VersionedMap

variable {κ ν : Type}

namespace Pool

/-- The stamps of the idle versions. -/
def stamps (p : Pool κ ν) : List Nat := p.idle.toList.map (·.stamp)

/-- What has been allocated is idle, or in the list, or let go, and is that once. -/
def AccountsFor (p : Pool κ ν) (l : List Nat) : Prop :=
  ∃ gone, (p.stamps ++ l ++ gone).Perm (List.range p.allocated) ∧ gone.length = p.dropped

/-- The idle versions are empty, and not too many. -/
structure Kempt (p : Pool κ ν) : Prop where
  clean : p.IsClean
  size_le : p.idle.size ≤ p.capacity

/-- From a pool and some versions to a later pool and others, with those that are lost. -/
structure Trades (p : Pool κ ν) (l : List Nat) (q : Pool κ ν) (l' lost : List Nat) : Prop where
  perm : (q.stamps ++ l' ++ lost).Perm
    (p.stamps ++ l ++ List.range' p.allocated (q.allocated - p.allocated))
  allocated_le : p.allocated ≤ q.allocated
  dropped_eq : q.dropped = p.dropped + lost.length
  capacity_eq : q.capacity = p.capacity

variable {p q r : Pool κ ν} {l l' l'' lost lost' : List Nat}

theorem length_stamps (p : Pool κ ν) : p.stamps.length = p.idle.size := List.length_map ..

theorem Trades.refl (p : Pool κ ν) (l : List Nat) : p.Trades l p l [] where
  perm := by simp
  allocated_le := Nat.le_refl _
  dropped_eq := rfl
  capacity_eq := rfl

theorem range'_append_sub {a b c : Nat} (hab : a ≤ b) (hbc : b ≤ c) :
    List.range' a (b - a) ++ List.range' b (c - b) = List.range' a (c - a) := by
  have happend := List.range'_append_1 (s := a) (m := b - a) (n := c - b)
  rwa [show a + (b - a) = b by omega, show b - a + (c - b) = c - a by omega] at happend

theorem Trades.trans (h : p.Trades l q l' lost) (h' : q.Trades l' r l'' lost') :
    p.Trades l r l'' (lost ++ lost') where
  perm := by
    rw [← range'_append_sub h.allocated_le h'.allocated_le]
    refine List.perm_iff_count.mpr fun x => ?_
    have hx := h.perm.count_eq x
    have hx' := h'.perm.count_eq x
    simp only [List.count_append] at hx hx' ⊢
    omega
  allocated_le := h.allocated_le.trans h'.allocated_le
  dropped_eq := by rw [h'.dropped_eq, h.dropped_eq, List.length_append, Nat.add_assoc]
  capacity_eq := h'.capacity_eq.trans h.capacity_eq

/-- A trade concerns nothing but what is traded. -/
theorem Trades.frame (h : p.Trades l q l' lost) (rest : List Nat) :
    p.Trades (l ++ rest) q (l' ++ rest) lost where
  perm := by
    refine List.perm_iff_count.mpr fun x => ?_
    have hx := h.perm.count_eq x
    simp only [List.count_append] at hx ⊢
    omega
  allocated_le := h.allocated_le
  dropped_eq := h.dropped_eq
  capacity_eq := h.capacity_eq

/-- The order in which versions are named does not matter. -/
theorem Trades.congr (h : p.Trades l q l' lost) {m m' : List Nat} (hm : m.Perm l)
    (hm' : m'.Perm l') : p.Trades m q m' lost where
  perm := ((hm'.append_left _).append_right _).trans
    (h.perm.trans ((hm.symm.append_left _).append_right _))
  allocated_le := h.allocated_le
  dropped_eq := h.dropped_eq
  capacity_eq := h.capacity_eq

/-- A trade in which versions are only given back, and lost if the pool is full in the end. -/
structure Returns (p : Pool κ ν) (l : List Nat) (q : Pool κ ν) (l' lost : List Nat) : Prop
    extends p.Trades l q l' lost where
  subset : l' ⊆ l
  lost_subset : lost ⊆ l
  size_le : p.idle.size ≤ q.idle.size
  full : lost ≠ [] → q.capacity ≤ q.idle.size

theorem Returns.refl (p : Pool κ ν) (l : List Nat) : p.Returns l p l [] where
  toTrades := .refl p l
  subset _ := id
  lost_subset _ hx := absurd hx List.not_mem_nil
  size_le := Nat.le_refl _
  full hlost := absurd rfl hlost

theorem Returns.trans (h : p.Returns l q l' lost) (h' : q.Returns l' r l'' lost') :
    p.Returns l r l'' (lost ++ lost') where
  toTrades := h.toTrades.trans h'.toTrades
  subset := List.Subset.trans h'.subset h.subset
  lost_subset := List.append_subset.mpr
    ⟨h.lost_subset, List.Subset.trans h'.lost_subset h.subset⟩
  size_le := h.size_le.trans h'.size_le
  full hlost := by
    by_cases hl' : lost' = []
    · -- once full, the pool stays full
      have hl : lost ≠ [] := fun hl => hlost (by rw [hl, hl']; rfl)
      rw [h'.capacity_eq]
      exact (h.full hl).trans h'.size_le
    · exact h'.full hl'

theorem Returns.frame (h : p.Returns l q l' lost) (rest : List Nat) :
    p.Returns (l ++ rest) q (l' ++ rest) lost where
  toTrades := h.toTrades.frame rest
  subset := List.append_subset.mpr
    ⟨List.subset_append_of_subset_left _ h.subset, List.subset_append_right _ _⟩
  lost_subset := List.subset_append_of_subset_left _ h.lost_subset
  size_le := h.size_le
  full := h.full

theorem Returns.congr (h : p.Returns l q l' lost) {m m' : List Nat} (hm : m.Perm l)
    (hm' : m'.Perm l') : p.Returns m q m' lost where
  toTrades := h.toTrades.congr hm hm'
  subset := List.Subset.trans (List.Subset.trans hm'.subset h.subset) hm.symm.subset
  lost_subset := List.Subset.trans h.lost_subset hm.symm.subset
  size_le := h.size_le
  full := h.full

/-- A trade leaves the accounts in order. -/
theorem Trades.accountsFor (h : p.Trades l q l' lost) (hp : p.AccountsFor l) :
    q.AccountsFor l' := by
  obtain ⟨gone, hperm, hgone⟩ := hp
  refine ⟨gone ++ lost, ?_, by rw [List.length_append, hgone, h.dropped_eq]⟩
  have hrange : List.range q.allocated
      = List.range p.allocated ++ List.range' p.allocated (q.allocated - p.allocated) := by
    have hsplit := range'_append_sub (Nat.zero_le p.allocated) h.allocated_le
    rw [List.range_eq_range', List.range_eq_range']
    exact hsplit.symm
  rw [hrange]
  refine List.perm_iff_count.mpr fun x => ?_
  have hx := h.perm.count_eq x
  have hx' := hperm.count_eq x
  simp only [List.count_append] at hx hx' ⊢
  omega

/-- The order in which versions are accounted for does not matter. -/
theorem AccountsFor.perm (h : p.AccountsFor l) (hperm : l'.Perm l) : p.AccountsFor l' := by
  obtain ⟨gone, hall, hgone⟩ := h
  exact ⟨gone, ((hperm.append_left p.stamps).append_right gone).trans hall, hgone⟩

theorem AccountsFor.nodup (h : p.AccountsFor l) : (p.stamps ++ l).Nodup := by
  obtain ⟨gone, hall, _⟩ := h
  exact (List.nodup_append.mp (hall.nodup_iff.mpr List.nodup_range)).1

theorem AccountsFor.lt (h : p.AccountsFor l) {x : Nat} (hx : x ∈ p.stamps ++ l) :
    x < p.allocated := by
  obtain ⟨gone, hall, _⟩ := h
  exact List.mem_range.mp (hall.mem_iff.mp (List.mem_append_left gone hx))

/-- What is accounted for elsewhere is not idle. -/
theorem AccountsFor.not_idle (h : p.AccountsFor l) {x : Nat} (hx : x ∈ l) : x ∉ p.stamps :=
  fun hidle => (List.nodup_append.mp h.nodup).2.2 x hidle x hx rfl

/-! ## Taking and giving back -/

theorem stamps_put_of_lt (v : Version κ ν) (h : p.idle.size < p.capacity) :
    (p.put v).stamps = p.stamps ++ [v.stamp] := by
  unfold put stamps
  rw [if_pos h, Array.toList_push, List.map_append]
  rfl

theorem trades_drop (p : Pool κ ν) (v : Version κ ν) :
    p.Trades [v.stamp] (p.drop v) [] [v.stamp] where
  perm := by simp [drop, stamps]
  allocated_le := Nat.le_refl _
  dropped_eq := rfl
  capacity_eq := rfl

/-- A version goes back to the pool, or is lost to a full one. -/
theorem returns_put (p : Pool κ ν) (v : Version κ ν) :
    ∃ lost, p.Returns [v.stamp] (p.put v) [] lost := by
  by_cases hroom : p.idle.size < p.capacity
  · have hput : p.put v = { p with idle := p.idle.push v.reset } := if_pos hroom
    refine ⟨[], ⟨?_, ?_, ?_, capacity_put p v⟩, List.nil_subset _, List.nil_subset _, ?_,
      fun hlost => absurd rfl hlost⟩
    · rw [stamps_put_of_lt v hroom, hput]
      simp
    · rw [hput]
    · rw [hput]
      rfl
    · rw [hput, Array.size_push]
      exact Nat.le_succ _
  · have hput : p.put v = p.drop v := if_neg hroom
    have hfull : p.capacity ≤ p.idle.size := Nat.le_of_not_lt hroom
    rw [hput]
    exact ⟨[v.stamp], trades_drop p v, List.nil_subset _, fun _ => id, Nat.le_refl _,
      fun _ => hfull⟩

/-- Several versions go back, and none is lost to a pool that is not full in the end. -/
theorem returns_putAll (p : Pool κ ν) (vs : List (Version κ ν)) :
    ∃ lost, p.Returns (vs.map (·.stamp)) (p.putAll vs) [] lost := by
  induction vs generalizing p with
  | nil => exact ⟨[], .refl p []⟩
  | cons v vs ih =>
    obtain ⟨lost, hput⟩ := returns_put p v
    obtain ⟨lost', hrest⟩ := ih (p.put v)
    have hframe := hput.frame (vs.map (·.stamp))
    exact ⟨lost ++ lost', hframe.trans hrest⟩

/-- A version is taken from the idle ones, or allocated. -/
theorem trades_take (p : Pool κ ν) : p.Trades [] p.take.2 [p.take.1.stamp] [] := by
  unfold take
  split
  · rename_i v hv
    -- the last of the idle versions is the one that is taken
    have hsplit : p.idle.toList = p.idle.pop.toList ++ [v] := by
      rw [← Array.getLast?_toList] at hv
      obtain ⟨rest, hrest⟩ := List.getLast?_eq_some_iff.mp hv
      rw [Array.toList_pop, hrest, List.dropLast_concat]
    refine ⟨?_, Nat.le_refl _, rfl, rfl⟩
    unfold stamps
    rw [hsplit]
    simp
  · refine ⟨?_, Nat.le_succ _, rfl, rfl⟩
    dsimp only [stamps]
    rw [Nat.add_sub_cancel_left]
    simp [List.range'_one]

theorem Kempt.put (h : p.Kempt) (v : Version κ ν) : (p.put v).Kempt :=
  ⟨h.clean.put v, size_idle_put_le v h.size_le⟩

theorem Kempt.putAll (h : p.Kempt) (vs : List (Version κ ν)) : (p.putAll vs).Kempt := by
  induction vs generalizing p with
  | nil => exact h
  | cons v vs ih => exact ih (h.put v)

theorem Kempt.take (h : p.Kempt) : p.take.2.Kempt where
  clean := h.clean.take
  size_le := by
    have hle := h.size_le
    unfold Pool.take
    split
    · show p.idle.pop.size ≤ p.capacity
      rw [Array.size_pop]
      omega
    · exact hle

end Pool

/-! ## Sites -/

namespace Site

open Pool

/-- The stamps of the versions that are in the bucket or in hand. -/
def stamps (x : Site κ ν) : List Nat :=
  x.draft.toList.map (·.stamp) ++ x.bucket.chain.map (·.stamp)

variable {x y z : Site κ ν}

theorem map_stamp_links (b : Bucket κ ν) : b.links.map (·.stamp) = b.chain.map (·.stamp) := by
  unfold Bucket.links
  rw [List.map_map]
  rfl

/-- With a move versions are only given back. -/
theorem Move.returns (h : Move x y) : ∃ lost, x.pool.Returns x.stamps y.pool y.stamps lost := by
  -- a move that concerns no version of the pool only permutes what is there
  have hsame {x y : Site κ ν} (hpool : y.pool = x.pool) (hperm : y.stamps.Perm x.stamps) :
      ∃ lost, x.pool.Returns x.stamps y.pool y.stamps lost :=
    ⟨[], hpool ▸ (Returns.refl x.pool x.stamps).congr (.refl _) hperm⟩
  cases h with
  | @mark b c p d hlinks _ =>
    refine hsame rfl ?_
    unfold stamps
    rw [← map_stamp_links c, hlinks, map_stamp_links]
  | @retire b c p d head older hchain hkept _ =>
    obtain ⟨lost, hreturns⟩ := returns_putAll p (Bucket.retired older)
    refine ⟨lost, (hreturns.frame (stamps ⟨c, p, d⟩)).congr ?_ (.refl _)⟩
    have hend : c.chain.map (·.stamp) = (head :: Bucket.kept older).map (·.stamp) := by
      rw [hkept, Bucket.map_endChain fun _ => rfl]
    have hall : b.chain.map (·.stamp) = c.chain.map (·.stamp)
        ++ (Bucket.retired older).map (·.stamp) := by
      rw [hend, ← List.map_append, List.cons_append, Bucket.kept_append_retired, hchain]
    -- what is retired comes last in the chain
    unfold stamps
    rw [hall, ← List.append_assoc]
    exact List.perm_append_comm
  | @write b p v w hlink =>
    refine hsame rfl ?_
    have hstamp : w.stamp = v.stamp := Version.stamp_of_link hlink
    unfold stamps
    dsimp only [Option.toList, List.map]
    rw [hstamp]
  | @publish b c p v hlinks _ =>
    refine hsame rfl ?_
    unfold stamps
    rw [← map_stamp_links c, hlinks, List.map_cons, map_stamp_links]
    rfl
  | @put b p v =>
    obtain ⟨lost, hreturns⟩ := returns_put p v
    exact ⟨lost, hreturns.frame _⟩

theorem Moves.returns (h : Moves x y) : ∃ lost, x.pool.Returns x.stamps y.pool y.stamps lost := by
  induction h with
  | refl => exact ⟨[], .refl _ _⟩
  | tail _ hmove ih =>
    obtain ⟨lost, hfirst⟩ := ih
    obtain ⟨lost', hlast⟩ := hmove.returns
    exact ⟨lost ++ lost', hfirst.trans hlast⟩

/--
What an operation loses was its draft, or the pool is full and it has given the version back, which
was there before or which it has taken.
-/
theorem Works.trades {ends : Bool} (h : Works ends x z) :
    ∃ lost, x.pool.Trades x.stamps z.pool z.stamps lost ∧
      ∀ s ∈ lost, ends = true ∧ x.draft.map (·.stamp) = some s ∨
        (s = x.pool.take.1.stamp ∨ s ∈ x.stamps) ∧ z.pool.capacity ≤ z.pool.idle.size := by
  obtain ⟨y, hopens, hmoves⟩ := h
  obtain ⟨lost, hreturns⟩ := hmoves.returns
  have htrades := hreturns.toTrades
  have hlost {s : Nat} (hs : s ∈ lost) : z.pool.capacity ≤ z.pool.idle.size :=
    hreturns.full (List.ne_nil_of_mem hs)
  cases hopens with
  | idle => exact ⟨lost, htrades, fun s hs => .inr ⟨.inr (hreturns.lost_subset hs), hlost hs⟩⟩
  | @take b p v hlink =>
    have hstamp : v.stamp = p.take.1.stamp :=
      (Version.stamp_of_link hlink).trans (Bucket.stamp_successor b _)
    have hopen : p.Trades (stamps ⟨b, p, none⟩) p.take.2 (stamps ⟨b, p.take.2, some v⟩) [] := by
      have htake := (trades_take p).frame (b.chain.map (·.stamp))
      rw [← hstamp] at htake
      exact htake
    refine ⟨lost, hopen.trans htrades, fun s hs => .inr ⟨?_, hlost hs⟩⟩
    exact (List.mem_cons.mp (hreturns.lost_subset hs)).imp_left fun h => h.trans hstamp
  | @drop b p v hends =>
    have hopen := (trades_drop p v).frame (b.chain.map (·.stamp))
    refine ⟨[v.stamp] ++ lost, hopen.trans htrades, fun s hs => ?_⟩
    rcases List.mem_append.mp hs with hs | hs
    · exact .inl ⟨hends, congrArg some (List.mem_singleton.mp hs).symm⟩
    · exact .inr ⟨.inr (List.mem_cons_of_mem _ (hreturns.lost_subset hs)), hlost hs⟩

theorem Works.kempt {ends : Bool} (h : Works ends x z) (hx : x.pool.Kempt) : z.pool.Kempt := by
  refine h.keep (P := fun x => x.pool.Kempt) (fun hopens hx => ?_) (fun hmove hx => ?_) hx
  · cases hopens with
    | idle => exact hx
    | take => exact hx.take
    | drop => exact ⟨hx.clean, hx.size_le⟩
  · cases hmove with
    | retire => exact hx.putAll _
    | put => exact hx.put _
    | mark | write | publish => exact hx

end Site

end VersionedMap
