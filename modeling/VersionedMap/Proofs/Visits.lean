import VersionedMap.Proofs.Stillness

/-!
# Reads and scans

A read finds what stands on the shelf of its hash, and runs its callback on a still map. A
scan runs through buckets and shards on maps that its own visits have changed; what it keeps
is whatever its visits keep. A scan whose visits only write down what they see sees the
current items, shelf by shelf, each once.
-/

namespace VersionedMap.Map

variable {κ ν α σ : Type}

/-- The shelf where a hash leads. -/
def shelfAt (m : Map κ ν) (r : Route) : List (Item κ ν) :=
  (m.shardAt r.shard).table.shelves.getD
    (slot (m.shardAt r.shard).table.shelves.length r.hash) []

theorem enter_fst (m : Map κ ν) (i : Nat) : (m.enter i).1 = (m.shardAt i).aside.size := by
  unfold enter
  rw [modifyShard_eq]
  rfl

theorem Still.shelves_eq {m m' : Map κ ν} (h : m.Still m') (i : Nat) :
    (m'.shardAt i).table.shelves = (m.shardAt i).table.shelves :=
  congrArg Prod.fst (h.view_eq i)

theorem Still.count_eq {m m' : Map κ ν} (h : m.Still m') (i : Nat) :
    (m'.shardAt i).table.count = (m.shardAt i).table.count :=
  congrArg Prod.snd (h.view_eq i)

theorem tableAt_current {m : Map κ ν} {i g : Nat} (hg : (m.shardAt i).aside.size ≤ g) :
    m.tableAt i g = (m.shardAt i).table :=
  Shard.tableAt_current hg

/-- What a read comes to: it finds nothing, or runs its callback on a still map. -/
theorem read_cases {m : Map κ ν} (h : m.Quiet) (q : Lookup κ)
    (hr : (m.route q.hash).shard < m.shards.size) (f : κ × ν → Map κ ν → α × Map κ ν) :
    ((m.shelfAt (m.route q.hash)).find? (Query.selects ⟨(m.route q.hash).hash, q.admits⟩) = none ∧
      ∃ m', m.Still m' ∧ m.read q f = (.done none, m')) ∨
    (∃ i p n m',
      (m.shelfAt (m.route q.hash)).find? (Query.selects ⟨(m.route q.hash).hash, q.admits⟩)
        = some i ∧
      m.Still m' ∧ m.read q f = (.done (some (f i.entry m').1),
        ((f i.entry m').2.release p n).leave (m.route q.hash).shard)) := by
  have henter := h.still_enter (m.route q.hash).shard
  have hgen := enter_fst m (m.route q.hash).shard
  unfold read
  dsimp only
  generalize hroute : m.route q.hash = r at *
  generalize m.enter r.shard = entered at *
  obtain ⟨g, m₁⟩ := entered
  dsimp only at henter hgen ⊢
  -- the guard names the table that is current, and entering sets none aside
  have hg : (m₁.shardAt r.shard).aside.size ≤ g := hgen ▸ henter.aside_le r.shard
  have hslot : ((m₁.tableAt r.shard g).index r.hash).val
      = slot (m.shardAt r.shard).table.shelves.length r.hash := by
    rw [tableAt_current hg, ← henter.shelves_eq, Table.length_shelves]
    rfl
  have hitems : (m₁.bucketAt ⟨r.shard, g, (m₁.tableAt r.shard g).index r.hash⟩).items
      = m.shelfAt r := by
    rw [items_bucketAt hg, henter.shelves_eq, hslot]
    rfl
  have hj : ((m₁.tableAt r.shard g).index r.hash).val < (m₁.tableAt r.shard g).size :=
    ((m₁.tableAt r.shard g).index r.hash).isLt
  generalize ((m₁.tableAt r.shard g).index r.hash).val = j at *
  have hacquire := henter.trans (henter.quiet.still_acquire ⟨r.shard, g, j⟩)
  have hleave {m' : Map κ ν} (h' : m.Still m') : m.Still (m'.leave r.shard) :=
    h'.trans (h'.quiet.still_leave r.shard)
  have hcases := henter.quiet.acquire_cases ⟨r.shard, g, j⟩
  generalize m₁.acquire ⟨r.shard, g, j⟩ = acquired at *
  obtain ⟨a, m₂⟩ := acquired
  rcases hcases with ⟨hnone, hout⟩ | ⟨n, hout, hheld⟩
  -- nothing has been published in the bucket, so its shelf is empty
  · obtain rfl : a = .absent := hout
    refine .inl ⟨?_, m₂.leave r.shard, hleave hacquire, rfl⟩
    rw [← hitems, hnone]
    rfl
  · obtain rfl : a = .held n := hout
    have hseen : (m₂.bucketAt ⟨r.shard, g, j⟩).itemsAt n = m.shelfAt r :=
      (hheld (henter.size_eq ▸ hr) hj).trans hitems
    dsimp only
    rw [Bucket.findAt_eq, hseen]
    cases hfound : (m.shelfAt r).find? (Query.selects ⟨r.hash, q.admits⟩) with
    | none =>
      have hrelease := hacquire.trans (hacquire.quiet.still_release ⟨r.shard, g, j⟩ n)
      exact .inl ⟨rfl, _, hleave hrelease, rfl⟩
    | some i => exact .inr ⟨i, ⟨r.shard, g, j⟩, n, m₂, rfl, hacquire, rfl⟩

/-! ## What a scan keeps -/

section Keeps

variable {P : σ → Map κ ν → Prop} {f : Visitor κ ν σ}

theorem visitItems_keeps (hf : ∀ e st m, P st m → P (f e st m).2.1 (f e st m).2.2)
    (l : List (Item κ ν)) {st : σ} {m : Map κ ν} (h : P st m) :
    P (visitItems f l st m).2.1 (visitItems f l st m).2.2 := by
  induction l generalizing st m with
  | nil => exact h
  | cons i l ih =>
    have hstep := hf i.entry st m h
    unfold visitItems
    -- the visit may have changed anything; what is left of the list is still to be visited
    generalize f i.entry st m = visited at *
    obtain ⟨go, st', m'⟩ := visited
    cases go with
    | true => exact ih hstep
    | false => exact hstep

variable (hquiet : ∀ st m, P st m → m.Quiet)
  (hstill : ∀ st m m', P st m → m.Still m' → P st m')
  (hf : ∀ e st m, P st m → P (f e st m).2.1 (f e st m).2.2)

include hquiet hstill hf

theorem visitBucket_keeps (p : Place) {st : σ} {m : Map κ ν} (h : P st m) :
    (∃ go, (visitBucket f p st m).1 = .done go) ∧
      P (visitBucket f p st m).2.1 (visitBucket f p st m).2.2 := by
  have hm := hquiet st m h
  have hacquire := hstill st m _ h (hm.still_acquire p)
  have hcases := hm.acquire_cases p
  unfold visitBucket
  generalize m.acquire p = acquired at *
  obtain ⟨a, m₁⟩ := acquired
  rcases hcases with ⟨_, hout⟩ | ⟨n, hout, _⟩
  · obtain rfl : a = .absent := hout
    exact ⟨⟨true, rfl⟩, hacquire⟩
  · obtain rfl : a = .held n := hout
    have hvisited := visitItems_keeps hf ((m₁.bucketAt p).itemsAt n) hacquire
    dsimp only
    generalize visitItems f ((m₁.bucketAt p).itemsAt n) st m₁ = visited at *
    obtain ⟨go, st', m₂⟩ := visited
    exact ⟨⟨go, rfl⟩, hstill st' m₂ _ hvisited ((hquiet st' m₂ hvisited).still_release p n)⟩

theorem visitBuckets_keeps (i g j n : Nat) {st : σ} {m : Map κ ν} (h : P st m) :
    (∃ go, (visitBuckets f i g j n st m).1 = .done go) ∧
      P (visitBuckets f i g j n st m).2.1 (visitBuckets f i g j n st m).2.2 := by
  -- on the number of buckets left
  induction n generalizing j st m with
  | zero => exact ⟨⟨true, rfl⟩, h⟩
  | succ n ih =>
    obtain ⟨⟨go, hgo⟩, hnext⟩ := visitBucket_keeps hquiet hstill hf ⟨i, g, j⟩ h
    unfold visitBuckets
    generalize visitBucket f ⟨i, g, j⟩ st m = visited at *
    obtain ⟨a, st', m'⟩ := visited
    obtain rfl : a = .done go := hgo
    cases go with
    | true => exact ih (j + 1) hnext
    | false => exact ⟨⟨false, rfl⟩, hnext⟩

theorem visitShard_keeps (i : Nat) {st : σ} {m : Map κ ν} (h : P st m) :
    (∃ go, (visitShard f i st m).1 = .done go) ∧
      P (visitShard f i st m).2.1 (visitShard f i st m).2.2 := by
  have henter := hstill st m _ h ((hquiet st m h).still_enter i)
  obtain ⟨hgo, hnext⟩ := visitBuckets_keeps hquiet hstill hf i (m.enter i).1 0
    ((m.enter i).2.tableAt i (m.enter i).1).size henter
  unfold visitShard
  dsimp only
  generalize visitBuckets f i (m.enter i).1 0 _ st (m.enter i).2 = visited at *
  obtain ⟨a, st', m'⟩ := visited
  exact ⟨hgo, hstill st' m' _ hnext ((hquiet st' m' hnext).still_leave i)⟩

theorem visitShards_keeps (i n : Nat) {st : σ} {m : Map κ ν} (h : P st m) :
    (∃ go, (visitShards f i n st m).1 = .done go) ∧
      P (visitShards f i n st m).2.1 (visitShards f i n st m).2.2 := by
  induction n generalizing i st m with
  | zero => exact ⟨⟨true, rfl⟩, h⟩
  | succ n ih =>
    obtain ⟨⟨go, hgo⟩, hnext⟩ := visitShard_keeps hquiet hstill hf i h
    unfold visitShards
    generalize visitShard f i st m = visited at *
    obtain ⟨a, st', m'⟩ := visited
    obtain rfl : a = .done go := hgo
    cases go with
    | true => exact ih (i + 1) hnext
    | false => exact ⟨⟨false, rfl⟩, hnext⟩

/-- A scan does not wait, and keeps what its visits keep. -/
theorem range_keeps {st : σ} {m : Map κ ν} (h : P st m) :
    (∃ go, (m.range f st).1 = .done go) ∧ P (m.range f st).2.1 (m.range f st).2.2 :=
  visitShards_keeps hquiet hstill hf 0 m.shards.size h

end Keeps

/-! ## What a scan sees -/

/-- The current items, one list for each shard. -/
def holdings (m : Map κ ν) : List (List (Item κ ν)) := m.shards.toList.map (·.table.items)

theorem items_eq_flatten (m : Map κ ν) : m.items = m.holdings.flatten := rfl

theorem length_holdings (m : Map κ ν) : m.holdings.length = m.shards.size := by
  unfold holdings
  rw [List.length_map, Array.length_toList]

theorem getElem?_holdings (m : Map κ ν) (i : Nat) :
    m.holdings[i]? = if i < m.shards.size then some (m.shardAt i).table.items else none := by
  unfold holdings shardAt
  rw [List.getElem?_map, Array.getElem?_toList, Array.getD_eq_getD_getElem?]
  split
  · rename_i hi
    rw [Array.getElem?_eq_getElem hi]
    rfl
  · rename_i hi
    rw [Array.getElem?_eq_none (Nat.not_lt.mp hi)]
    rfl

theorem Still.holdings_eq {m m' : Map κ ν} (h : m.Still m') : m'.holdings = m.holdings := by
  refine List.ext_getElem? fun i => ?_
  rw [getElem?_holdings, getElem?_holdings, h.size_eq, Table.items_eq_flatten, h.shelves_eq,
    ← Table.items_eq_flatten]

theorem Still.items_eq {m m' : Map κ ν} (h : m.Still m') : m'.items = m.items := by
  rw [items_eq_flatten, items_eq_flatten, h.holdings_eq]

/-- Writes down what it sees. -/
def collect : Visitor κ ν (Array (κ × ν)) := fun e seen m => (true, seen.push e, m)

private theorem append_toArray_append (seen : Array α) (l₁ l₂ : List α) :
    seen ++ l₁.toArray ++ l₂.toArray = seen ++ (l₁ ++ l₂).toArray := by
  rw [Array.append_assoc, List.append_toArray l₁ l₂]

theorem visitItems_collect (l : List (Item κ ν)) (seen : Array (κ × ν)) (m : Map κ ν) :
    visitItems collect l seen m = (true, seen ++ (l.map Item.entry).toArray, m) := by
  induction l generalizing seen with
  | nil => simp [visitItems]
  | cons i l ih =>
    unfold visitItems collect
    dsimp only
    rw [show (fun e seen m => (true, seen.push e, m) : Visitor κ ν (Array (κ × ν))) = collect
      from rfl, ih]
    simp

theorem visitBucket_collect {m : Map κ ν} (h : m.Quiet) {i g j : Nat}
    (hi : i < m.shards.size) (hg : (m.shardAt i).aside.size ≤ g)
    {l : List (Item κ ν)} (hl : (m.shardAt i).table.shelves[j]? = some l)
    (seen : Array (κ × ν)) :
    ∃ m', m.Still m' ∧ visitBucket collect ⟨i, g, j⟩ seen m
      = (.done true, seen ++ (l.map Item.entry).toArray, m') := by
  have hitems := items_bucketAt (j := j) hg
  rw [List.getD_eq_getElem?_getD, hl, Option.getD_some] at hitems
  have hj : j < (m.tableAt i g).size := by
    rw [tableAt_current hg, ← Table.length_shelves]
    exact (List.getElem?_eq_some_iff.mp hl).1
  have hacquire := h.still_acquire ⟨i, g, j⟩
  have hcases := h.acquire_cases ⟨i, g, j⟩
  unfold visitBucket
  generalize m.acquire ⟨i, g, j⟩ = acquired at *
  obtain ⟨a, m₁⟩ := acquired
  rcases hcases with ⟨hnone, hout⟩ | ⟨n, hout, hheld⟩
  · obtain rfl : a = .absent := hout
    rw [← hitems, hnone]
    exact ⟨m₁, hacquire, by simp⟩
  · obtain rfl : a = .held n := hout
    dsimp only
    rw [visitItems_collect, hheld hi hj, hitems]
    exact ⟨_, hacquire.trans (hacquire.quiet.still_release ⟨i, g, j⟩ n), rfl⟩

theorem visitBuckets_collect {m : Map κ ν} (h : m.Quiet) {i g j n : Nat}
    (hi : i < m.shards.size) (hg : (m.shardAt i).aside.size ≤ g)
    (hj : j + n = (m.shardAt i).table.shelves.length) (seen : Array (κ × ν)) :
    ∃ m', m.Still m' ∧ visitBuckets collect i g j n seen m = (.done true,
      seen ++ (((m.shardAt i).table.shelves.drop j).flatten.map Item.entry).toArray, m') := by
  induction n generalizing j m seen with
  | zero =>
    rw [List.drop_eq_nil_of_le (by omega)]
    exact ⟨m, h.still, by simp [visitBuckets]⟩
  | succ n ih =>
    have hlt : j < (m.shardAt i).table.shelves.length := by omega
    obtain ⟨m₁, hone, hvisit⟩ := visitBucket_collect h hi hg (List.getElem?_eq_getElem hlt) seen
    -- visiting one bucket leaves the shelves of the others as they were
    have hshelves := hone.shelves_eq i
    obtain ⟨m₂, hrest, hvisits⟩ := ih (j := j + 1) hone.quiet (hone.size_eq ▸ hi)
      (Nat.le_trans (hone.aside_le i) hg) (by rw [hshelves]; omega)
      (seen ++ ((m.shardAt i).table.shelves[j].map Item.entry).toArray)
    refine ⟨m₂, hone.trans hrest, ?_⟩
    unfold visitBuckets
    rw [hvisit]
    dsimp only
    rw [hvisits, hshelves, List.drop_eq_getElem_cons hlt, List.flatten_cons, List.map_append,
      append_toArray_append]

theorem visitShard_collect {m : Map κ ν} (h : m.Quiet) {i : Nat} (hi : i < m.shards.size)
    (seen : Array (κ × ν)) :
    ∃ m', m.Still m' ∧ visitShard collect i seen m
      = (.done true, seen ++ ((m.shardAt i).table.items.map Item.entry).toArray, m') := by
  have henter := h.still_enter i
  have hgen := enter_fst m i
  unfold visitShard
  generalize m.enter i = entered at *
  obtain ⟨g, m₁⟩ := entered
  dsimp only at henter hgen ⊢
  have hg : (m₁.shardAt i).aside.size ≤ g := hgen ▸ henter.aside_le i
  obtain ⟨m₂, hstill, hvisits⟩ := visitBuckets_collect (j := 0)
    (n := (m₁.tableAt i g).size) henter.quiet (henter.size_eq ▸ hi) hg
    (by rw [tableAt_current hg, Table.length_shelves, Nat.zero_add]) seen
  rw [hvisits, henter.shelves_eq, List.drop_zero, ← Table.items_eq_flatten]
  have hdone := henter.trans hstill
  exact ⟨_, hdone.trans (hdone.quiet.still_leave i), rfl⟩

theorem visitShards_collect {m : Map κ ν} (h : m.Quiet) {i n : Nat}
    (hi : i + n = m.shards.size) (seen : Array (κ × ν)) :
    ∃ m', m.Still m' ∧ visitShards collect i n seen m
      = (.done true, seen ++ ((m.holdings.drop i).flatten.map Item.entry).toArray, m') := by
  have hlen := m.length_holdings
  induction n generalizing i m seen with
  | zero =>
    rw [List.drop_eq_nil_of_le (by omega)]
    exact ⟨m, h.still, by simp [visitShards]⟩
  | succ n ih =>
    have hlt : i < m.holdings.length := by omega
    have hget : m.holdings[i] = (m.shardAt i).table.items := by
      have hget? := getElem?_holdings m i
      rw [List.getElem?_eq_getElem hlt, if_pos (hlen ▸ hlt)] at hget?
      exact Option.some.inj hget?
    obtain ⟨m₁, hone, hvisit⟩ := visitShard_collect h (hlen ▸ hlt) seen
    obtain ⟨m₂, hrest, hvisits⟩ := ih (i := i + 1) hone.quiet (by rw [hone.size_eq]; omega)
      (seen ++ ((m.shardAt i).table.items.map Item.entry).toArray)
      (by rw [hone.holdings_eq, hlen, hone.size_eq])
    refine ⟨m₂, hone.trans hrest, ?_⟩
    unfold visitShards
    rw [hvisit]
    dsimp only
    rw [hvisits, hone.holdings_eq, List.drop_eq_getElem_cons hlt, hget, List.flatten_cons,
      List.map_append, append_toArray_append]

/-- A full scan meets the current items in their order, and the map stays still. -/
theorem range_collect {m : Map κ ν} (h : m.Quiet) :
    ∃ m', m.Still m' ∧
      m.range collect #[] = (.done true, (m.items.map Item.entry).toArray, m') := by
  obtain ⟨m', hstill, hvisits⟩ := visitShards_collect h (Nat.zero_add _) #[]
  refine ⟨m', hstill, hvisits.trans ?_⟩
  rw [List.drop_zero, ← items_eq_flatten, Array.empty_append]

end VersionedMap.Map
