import VersionedMap.Proofs.Agreement
import VersionedMap.Proofs.Effects
import VersionedMap.Proofs.PendingMarks
import VersionedMap.Proofs.Rosters

/-!
# What a lookup finds is what a removal takes away

A lookup brings a hash of its own and a test for keys. The test may admit several keys, and need not
know of the hashes by which these were stored. Whoever asks goes his own way: reads acquire a
version, a view looks at the newest one, and a removal searches, and then makes a draft without what
it has found. They all come to the same item, the **first one of the bucket that answers**; the
removal takes away this one and no other, and without one it does nothing at all.
-/

namespace VersionedMap

variable {κ ν α : Type}

/-! ## Tables -/

namespace Table

theorem setBucket_self {t : Table κ ν} {i : Nat} {b : Bucket κ ν} (hb : t.buckets[i]? = some b) :
    t.setBucket i b = t := by
  obtain ⟨buckets, count, nonempty⟩ := t
  obtain ⟨hi, rfl⟩ := Array.getElem?_eq_some_iff.mp hb
  unfold setBucket
  dsimp only
  congr 1
  rw [Array.setIfInBounds_def, dif_pos hi]
  exact Array.set_getElem_self hi

variable {t : Table κ ν} {s : Shared κ ν}

/-- From `t` to `t'` the bucket of a hash comes to have these items. The others stay as they are. -/
structure Refills (t : Table κ ν) (hash : UInt32) (l : List (Item κ ν)) (t' : Table κ ν) :
    Prop where
  size_eq : t'.size = t.size
  here : ∃ c, t'.buckets[slot t.size hash]? = some c ∧ c.items = l
  others : ∀ j, j ≠ slot t.size hash → t'.buckets[j]? = t.buckets[j]?

theorem refills_setBucket (t : Table κ ν) (hash : UInt32) (c : Bucket κ ν) (change : Change) :
    t.Refills hash c.items ((t.setBucket (t.index hash) c).account change) := by
  have hbuckets : ((t.setBucket (t.index hash) c).account change).buckets =
      t.buckets.setIfInBounds (slot t.size hash) c := by cases change <;> rfl
  have hlt : slot t.size hash < t.buckets.size := slot_lt t.nonempty hash
  refine ⟨?_, ⟨c, ?_, rfl⟩, ?_⟩
  · rw [size_account, size_setBucket]
  · rw [hbuckets, Array.getElem?_setIfInBounds_self, if_pos hlt]
  · intro j hj
    rw [hbuckets, Array.getElem?_setIfInBounds_ne (Ne.symm hj)]

namespace Refills

variable {t' : Table κ ν} {hash : UInt32} {l : List (Item κ ν)}

theorem shelves_eq (h : t.Refills hash l t') : t'.shelves = t.shelves.set (slot t.size hash) l := by
  have hlt : slot t.size hash < t.size := slot_lt t.nonempty hash
  refine List.ext_getElem? fun j => ?_
  rw [List.getElem?_set, length_shelves, getElem?_shelves, getElem?_shelves]
  by_cases hj : slot t.size hash = j
  · obtain ⟨c, hc, rfl⟩ := h.here
    rw [if_pos hj, if_pos hlt, ← hj, hc]
    rfl
  · rw [if_neg hj, h.others j (Ne.symm hj)]

theorem length_items (h : t.Refills hash l t') {b : Bucket κ ν}
    (hb : t.buckets[slot t.size hash]? = some b) :
    t'.items.length + b.items.length = t.items.length + l.length := by
  have hat : t.shelves[slot t.size hash]? = some b.items := by
    rw [getElem?_shelves, hb]
    rfl
  rw [items_eq_flatten, items_eq_flatten, h.shelves_eq]
  exact length_flatten_set l hat

end Refills

variable {hash : UInt32} {b : Bucket κ ν}

/-- A mutation that finds nothing to do in its bucket leaves everything as it is. -/
theorem mutate_idle {f : Mutation κ ν α} {a : α} (hb : t.buckets[(t.index hash).val]? = some b)
    (hfree : b.locked = false) (hserved : b.Served)
    (hidle : f b.lock s = ((a, .unchanged), b.lock, s)) :
    t.mutate hash f s = (.done (a, false), t, s) := by
  rw [mutate_eq hb hfree, hidle]
  dsimp only
  rw [hserved.lock_unlock hfree, setBucket_self hb]
  rfl

/-- A mutation fills its bucket with what it leaves there, and accounts for it. -/
theorem mutate_refills (hb : t.buckets[(t.index hash).val]? = some b) (hfree : b.locked = false)
    (f : Mutation κ ν α) (s : Shared κ ν) :
    ∃ t' s', t.mutate hash f s = (.done ((f b.lock s).1.1,
        (f b.lock s).1.2 = .inserted && t'.needsGrowth), t', s') ∧
      t.Refills hash (f b.lock s).2.1.items t' ∧
      t'.count = (t.account (f b.lock s).1.2).count := by
  refine ⟨_, _, mutate_eq hb hfree f s, ?_, ?_⟩
  · rw [← Bucket.items_unlock _ (f b.lock s).2.2]
    exact t.refills_setBucket hash _ _
  · cases (f b.lock s).1.2 <;> rfl

end Table

namespace Map

variable {held : Bool} {m m' : Map κ ν}

/-! ## Asking -/

/-- A map answers by this item whatever it is asked by a lookup, or by there being none. -/
structure Finds (m : Map κ ν) (q : Lookup κ) (found : Option (Item κ ν)) : Prop where
  get : (m.get q).1 = .done (found.map (·.value))
  contains : (m.contains q).1 = .done found.isSome
  /-- The entry goes to the callback, whatever that is. -/
  read : ∀ (ρ : Type) (f : κ × ν → Map κ ν → ρ × Map κ ν),
    (found = none ∧ (m.read q f).1 = .done none) ∨
    ∃ x m', found = some x ∧ (m.read q f).1 = .done (some (f x.entry m').1)

/-- A map finds what is in the bucket, unless it has to wait for a view. -/
theorem Fit.finds (h : m.Fit held) (q : Lookup κ)
    (hflows : held = false ∨ ¬ (m.bucketOf q.hash).Brims) : m.Finds q (m.find? q) := by
  have hwaits : ¬ (held = true ∧ (m.bucketOf q.hash).Brims) := by
    rintro ⟨hheld, hbrims⟩
    rcases hflows with hfree | hnot
    · rw [hheld] at hfree
      cases hfree
    · exact hnot hbrims
  have hwatch {ρ : Type} (f : κ × ν → ρ) : (m.read q fun e m => (f e, m)).1 =
      .done ((m.find? q).map fun i => f i.entry) := by
    rcases h.read_watches q f with hread | ⟨hheld, _, hbrims⟩
    · exact hread
    · exact absurd ⟨hheld, hbrims⟩ hwaits
  refine ⟨hwatch fun e => e.2, ?_, ?_⟩
  · unfold Map.contains
    dsimp only
    rw [hwatch fun _ => ()]
    cases m.find? q <;> rfl
  · intro ρ f
    rcases h.read_cases q f with ⟨hnone, m', _, _, hread⟩ | ⟨x, p, n, m', hx, _, _, _, hread⟩ |
      ⟨hheld, hbrims, _⟩
    · exact .inl ⟨hnone, by rw [hread]⟩
    · exact .inr ⟨x, m', hx, by rw [hread]⟩
    · exact absurd ⟨hheld, hbrims⟩ hwaits

end Map

/-- A view answers by this item whatever it is asked by a lookup, or by there being none. -/
structure View.Finds (v : View) (m : Map κ ν) (q : Lookup κ) (found : Option (Item κ ν)) :
    Prop where
  find : v.find? m q = .ok (found.map (·.entry))
  get : v.get m q = .ok (found.map (·.value))
  contains : v.contains m q = .ok found.isSome

namespace Map

variable {held : Bool} {m m' : Map κ ν}

/-- A view finds what is in the bucket to which the map would go. -/
theorem Fit.view_finds (h : m.Fit held) {v : View} (hv : v.freed = false) (q : Lookup κ) :
    v.Finds m q (m.find? q) := by
  have hfind : v.find? m q = .ok ((m.find? q).map (·.entry)) := by
    unfold View.find? View.check
    rw [hv, ← h.route_eq_splitHash, ← find?_table]
    rfl
  refine ⟨hfind, ?_, ?_⟩
  · unfold View.get
    rw [hfind]
    cases m.find? q <;> rfl
  · unfold View.contains
    rw [hfind]
    cases m.find? q <;> rfl

theorem find?_bucketOf (m : Map κ ν) (q : Lookup κ) :
    m.find? q = (m.bucketOf q.hash).items.find? (m.queryOf q).selects := by
  rw [items_bucketOf]
  rfl

/-! ## Mutations in the bucket of a hash -/

/--
From `m` to `m'` the bucket of a hash comes to have these items, and the number of items is
accounted for. All other buckets stay as they are, in this table and in all other tables.
-/
structure Rewrites (m : Map κ ν) (hash : UInt64) (c : Change) (l : List (Item κ ν))
    (m' : Map κ ν) : Prop
    extends m.Swaps (m.route hash).shard
      { m.shardAt (m.route hash).shard with table := (m'.shardAt (m.route hash).shard).table }
      m' where
  refills : (m.shardAt (m.route hash).shard).table.Refills (m.route hash).hash l
    (m'.shardAt (m.route hash).shard).table
  count_eq : (m'.shardAt (m.route hash).shard).table.count =
    ((m.shardAt (m.route hash).shard).table.account c).count

/-- The first step of a mutation rewrites the bucket that its hash leads to. -/
theorem Fit.change_rewrites (h : m.Fit false) (hash : UInt64) (f : UInt32 → Mutation κ ν α) :
    ∃ m', m.change hash f = (.done ((m.outcome hash f).1.1, (m.outcome hash f).1.2 = .inserted &&
        (m'.shardAt (m.route hash).shard).table.needsGrowth), m') ∧
      m.Rewrites hash (m.outcome hash f).1.2 (m.outcome hash f).2.1.items m' := by
  have hfree := (h.steady_bucketOf hash).locked_eq
  obtain ⟨t, s, hmutate, hrefills, hcount⟩ :=
    Table.mutate_refills (m.getElem?_bucketOf hash) hfree (f (m.route hash).hash) m.shared
  obtain ⟨m', hrun, hswap, _⟩ := modifyShard_swaps (h.route_lt hash)
    (f := fun d s => d.change (m.route hash).hash (f (m.route hash).hash) s)
    (by rw [Shard.change_eq, hmutate])
  have htable : (m'.shardAt (m.route hash).shard).table = t := congrArg (·.table) hswap.here
  refine ⟨m', by rw [htable]; exact hrun, { htable.symm ▸ hswap with
    refills := htable.symm ▸ hrefills
    count_eq := htable.symm ▸ hcount }⟩

/-- A mutation that finds nothing to do leaves the map as it is, down to the pool and the log. -/
theorem Fit.mutate_idle (h : m.Fit false) (hserved : m.Served) {hash : UInt64}
    {f : UInt32 → Mutation κ ν α} {a : α}
    (hidle : m.outcome hash f = ((a, .unchanged), (m.bucketOf hash).lock, m.shared)) :
    m.mutate hash f = (.done a, m) := by
  have hat := m.getElem?_bucketOf hash
  have hmutate := Table.mutate_idle hat (h.steady_bucketOf hash).locked_eq
    ((hserved.shardAt _).table _ (Array.mem_of_getElem? hat)) hidle
  have hchange : m.change hash f = (.done (a, false), m) := by
    refine modifyShard_self
      (f := fun d s => d.change (m.route hash).hash (f (m.route hash).hash) s) ?_
    rw [Shard.change_eq, hmutate]
  unfold Map.mutate
  dsimp only
  rw [hchange]

/-! ## Removing -/

/-- Of the shard of a lookup, with another table in it. -/
def withTable (m : Map κ ν) (q : Lookup κ) (t : Table κ ν) : Shard κ ν :=
  { m.shardAt (m.route q.hash).shard with table := t }

/--
From `m` to `m'` an item goes from the bucket of a lookup, of which it is the first that answers.
The other items of the bucket keep their order, and all other buckets stay as they are, in this
table and in all other tables.
-/
structure Erases (m : Map κ ν) (q : Lookup κ) (x : Item κ ν) (m' : Map κ ν) : Prop
    extends m.Swaps (m.route q.hash).shard
      (m.withTable q (m'.shardAt (m.route q.hash).shard).table) m' where
  erased : ∃ before after, (m.bucketOf q.hash).items = before ++ x :: after ∧
    (∀ y ∈ before, (m.queryOf q).selects y = false) ∧
    (m.shardAt (m.route q.hash).shard).table.Refills (m.route q.hash).hash (before ++ after)
      (m'.shardAt (m.route q.hash).shard).table
  length_items : m'.items.length + 1 = m.items.length
  /-- As long as a word can tell the number of items. -/
  len : m.items.length < 2 ^ 64 → m'.len + 1 = m.len

theorem Swaps.holdings_eq {i : Nat} {d : Shard κ ν} (h : m.Swaps i d m') :
    m'.holdings = m.holdings.set i d.table.items := by
  refine List.ext_getElem? fun j => ?_
  rw [List.getElem?_set, length_holdings, getElem?_holdings, getElem?_holdings, h.size_eq]
  by_cases hj : i = j
  · subst hj
    rw [if_pos rfl, h.here]
  · rw [if_neg hj, h.others j (Ne.symm hj)]

/-- With one item less in one shard there is one item less. -/
theorem Swaps.length_items {i : Nat} {d : Shard κ ν} (h : m.Swaps i d m') (hi : i < m.shards.size)
    (hd : d.table.items.length + 1 = (m.shardAt i).table.items.length) :
    m'.items.length + 1 = m.items.length := by
  have hat : m.holdings[i]? = some (m.shardAt i).table.items := by
    rw [getElem?_holdings, if_pos hi]
  have hlength := length_flatten_set d.table.items hat
  rw [items_eq_flatten, items_eq_flatten, h.holdings_eq]
  omega

/-- A removal without anything to remove does nothing at all. -/
theorem Fit.delete_absent (h : m.Fit false) (hserved : m.Served) {q : Lookup κ}
    (hnone : m.find? q = none) : m.delete q = (.done none, m) := by
  rw [find?_bucketOf] at hnone
  refine h.mutate_idle hserved ?_
  show Mutation.delete (m.queryOf q) (m.bucketOf q.hash).lock m.shared = _
  unfold Mutation.delete
  rw [Bucket.find?_eq, Bucket.items_lock, hnone]

/-- A removal takes away what is found, and nothing else. -/
theorem Fit.delete_found [DecidableEq κ] (h : m.Fit false) {q : Lookup κ} {x : Item κ ν}
    (hfound : m.find? q = some x) :
    ∃ m', m.delete q = (.done (some x.value), m') ∧ m.Erases q x m' := by
  have hi := h.route_lt q.hash
  rw [find?_bucketOf] at hfound
  obtain ⟨before, after, hsplit, hbefore, herase⟩ := exists_eraseP_of_find? hfound
  have hredacts := Mutation.redacts_delete (m.queryOf q) (m.bucketOf q.hash).lock m.shared h.clean
  unfold Redaction.delete at hredacts
  rw [Bucket.items_lock, hfound] at hredacts
  obtain ⟨hresult, hitems⟩ : (m.outcome q.hash fun hash => .delete ⟨hash, q.admits⟩).1 =
      (some x.value, .removed) ∧
    (m.outcome q.hash fun hash => .delete ⟨hash, q.admits⟩).2.1.items = before ++ after :=
    ⟨hredacts.1, hredacts.2.trans herase⟩
  obtain ⟨m', hchange, hrewrites⟩ :=
    h.change_rewrites q.hash fun hash => Mutation.delete ⟨hash, q.admits⟩
  rw [hresult] at hchange hrewrites
  rw [hitems] at hrewrites
  have hdelete : m.delete q = (.done (some x.value), m') := by
    unfold Map.delete Map.mutate
    dsimp only
    rw [hchange]
    rfl
  obtain ⟨w, hrun', hfit', _⟩ := h.delete_spec q
  obtain rfl : m' = w := congrArg Prod.snd (hdelete.symm.trans hrun')
  have hlength := hrewrites.refills.length_items (m.getElem?_bucketOf q.hash)
  rw [hsplit] at hlength
  simp only [List.length_append, List.length_cons] at hlength
  have hless := hrewrites.length_items hi (show
    (m'.shardAt (m.route q.hash).shard).table.items.length + 1 = _ by omega)
  refine ⟨m', hdelete, { hrewrites.toSwaps with
    erased := ⟨before, after, hsplit, hbefore, hrewrites.refills⟩
    length_items := hless
    len := fun hlen => ?_ }⟩
  have hcount := h.sound.len_eq hlen
  have hcount' := hfit'.sound.len_eq (by omega)
  omega

/-! ## All paths -/

variable [DecidableEq κ]

/--
**Lookups and removals come to the same item on every path.** Whatever guests have done to a map,
and whatever is asked for, let `found` be the first item in the bucket of the hash that has this
hash and a key that is admitted.

While there is no view, the map finds this item, and so does a view that is taken now. A removal
gives its value and takes it away, and nothing else; where there is none it says so, and leaves the
map as it is.

While there is a view, it finds this item, and so does the map unless the bucket brims. A removal
waits.
-/
theorem lookup_paths_agree {v : View} {m : Map κ ν} (h : Reachable v m) (q : Lookup κ) :
    let found := (m.bucketOf q.hash).items.find? (m.queryOf q).selects
    (v.freed = true →
      m.Finds q found ∧
      (∃ w m', m.lock = (.done w, m') ∧ w.Finds m' q found) ∧
      (found = none → m.delete q = (.done none, m)) ∧
      ∀ x, found = some x → ∃ m', m.delete q = (.done (some x.value), m') ∧ m.Erases q x m') ∧
    (v.freed = false →
      v.Finds m q found ∧
      (¬ (m.bucketOf q.hash).Brims → m.Finds q found) ∧
      m.delete q = (.waits, m)) := by
  intro found
  have hfound : m.find? q = found := find?_bucketOf m q
  have hfit := h.fit
  rw [← hfound]
  constructor
  · intro hfree
    rw [hfree] at hfit
    refine ⟨hfit.finds q (.inl rfl), ?_, hfit.delete_absent h.served, fun x => hfit.delete_found⟩
    obtain ⟨m', hlock, hfit', _, hview⟩ := hfit.lock
    refine ⟨{}, m', hlock, ?_⟩
    rw [← hview.find?_eq q]
    exact hfit'.view_finds rfl q
  · intro hheld
    rw [hheld] at hfit
    exact ⟨hfit.view_finds hheld q, fun hflows => hfit.finds q (.inr hflows), hfit.mutate_held _ _⟩

/-- Three keys that go by one hash. -/
def threeAlike : Map Nat Nat := (new .single (fun _ => 0) 0 0).extend [(1, 10), (2, 20), (3, 30)]

/-- Asks for any key but the first. -/
def asksBigger : Lookup Nat := ⟨0, (1 < ·)⟩

/-- Of two items that answer the one that was set first is found and removed. -/
theorem lookup_paths_agree_two_answer :
    threeAlike.Finds asksBigger (some ⟨0, 2, 20⟩) ∧
      ∃ m', threeAlike.delete asksBigger = (.done (some 20), m') ∧
        threeAlike.Erases asksBigger ⟨0, 2, 20⟩ m' ∧
        (m'.bucketOf 0).items = [⟨0, 1, 10⟩, ⟨0, 3, 30⟩] := by
  have hreach : Reachable { freed := true } threeAlike := (Reachable.new _ _ _ _).extend _
  have hfound : (threeAlike.bucketOf asksBigger.hash).items.find?
      (threeAlike.queryOf asksBigger).selects = some ⟨0, 2, 20⟩ := by
    decide +kernel
  have hpaths := (lookup_paths_agree hreach asksBigger).1 rfl
  rw [hfound] at hpaths
  obtain ⟨hfinds, _, _, hremoves⟩ := hpaths
  obtain ⟨m', hdelete, herases⟩ := hremoves _ rfl
  refine ⟨hfinds, m', hdelete, herases, ?_⟩
  have hitems : ((threeAlike.delete asksBigger).2.bucketOf 0).items =
      [⟨0, 1, 10⟩, ⟨0, 3, 30⟩] := by
    decide +kernel
  rwa [hdelete] at hitems

end Map

end VersionedMap
