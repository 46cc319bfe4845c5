import Mathlib.Data.Prod.Lex
import VersionedMap.Proofs.Capacity
import VersionedMap.Proofs.ChronicleReplies
import VersionedMap.Proofs.Deadlock

/-!
# The order of a scan

A scan meets the items of a map shard by shard and bucket by bucket, and those of one bucket in the
order in which their keys were last placed. Nothing else counts, neither how many buckets there were
before nor how often a bucket was split: two maps for which the same errands are run agree in all
replies that do not go by the number of buckets or the order of a scan, and agree in these as well
when they have the same number of buckets.

They agree so where no view is live. Under one a map may come to wait at a bucket that brims, and
which keys share a bucket, and so its count, is a matter of how many buckets there are.
-/

namespace VersionedMap

variable {κ ν σ α : Type}

/-! ## Trips -/

/-- Errands that have been run, the last one first, each with its reply. -/
abbrev History (κ ν σ α : Type) : Type := List (Errand κ ν σ α × Reply κ ν σ α)

/-- Errands one after another: those run so far, and the view and the map then. -/
structure Trip (κ ν σ α : Type) where
  history : History κ ν σ α := []
  view : View := { freed := true }
  map : Map κ ν

section Placing

variable [DecidableEq κ]

/-- The key that a deed with this answer has placed, if any. -/
def Deed.placed : Deed κ ν → Answer κ ν → Option κ
  | .set k _, .nothing | .swap k _, .value _ | .setAbsent k _, .flag true
  | .getOrSet k _, .found _ false => some k
  | _, _ => none

/-- The key that an errand with this reply has placed, if any. -/
def Errand.placed : Errand κ ν σ α → Reply κ ν σ α → Option κ
  | .act d, .did a => d.placed a
  | _, _ => none

/-- When a key was last placed, by the number of errands until then. -/
def placedAt (k : κ) : History κ ν σ α → Nat
  | [] => 0
  | (e, r) :: past => if e.placed r = some k then past.length + 1 else placedAt k past

theorem placedAt_le (k : κ) (past : History κ ν σ α) : placedAt k past ≤ past.length := by
  induction past with
  | nil => exact Nat.le_refl 0
  | cons t past ih =>
    unfold placedAt
    rw [List.length_cons]
    split
    · exact Nat.le_refl _
    · exact Nat.le_succ_of_le ih

end Placing

/-! ## Chronicles are chronological -/

namespace Map.Tells

variable {held : Bool} {m : Map κ ν} {L : Nat → List (Item κ ν)}

/-- The items of a chronicle belong to its shard. -/
theorem placed (ht : m.Tells L) (h : m.Fit held) {i : Nat} (hi : i < m.shards.size)
    {x : Item κ ν} (hx : x ∈ L i) : m.placeIn i x.key = some x.hash := by
  rw [← (ht.perm hi).mem_iff, Table.items_eq_flatten, mem_flatten_iff] at hx
  obtain ⟨j, l, hl, hx⟩ := hx
  exact ((h.shards i hi).table.shelved.placed j l hl x hx).1

/-- No key is in a chronicle twice. -/
theorem nodup (ht : m.Tells L) (h : m.Fit held) {i : Nat} (hi : i < m.shards.size) :
    ((L i).map (·.key)).Nodup := by
  rw [← ((ht.perm hi).map _).nodup_iff, Table.items_eq_flatten]
  exact (h.shards i hi).table.shelved.nodup_flatten

end Map.Tells

section Chronology

variable [DecidableEq κ]

/-- A chronicle in the order in which its keys were last placed. -/
def Chronological (past : History κ ν σ α) (l : List (Item κ ν)) : Prop :=
  l.Pairwise fun x y => placedAt x.key past < placedAt y.key past

/--
What becomes of the chronicles when nothing is placed, or one key: some items go, and the one placed
comes to the end.
-/
inductive Places (route : UInt64 → Route) (hash : κ → UInt64) (L : Nat → List (Item κ ν)) :
    Option κ → (Nat → List (Item κ ν)) → Prop
  | nothing {L' : Nat → List (Item κ ν)} (h : ∀ i, (L' i).Sublist (L i)) :
      Places route hash L none L'
  | key (k : κ) (w : ν) {l : List (Item κ ν)} (h : l.Sublist (L (route (hash k)).shard)) :
      Places route hash L (some k) (Map.rewrite L (route (hash k)).shard
        (l ++ [⟨(route (hash k)).hash, k, w⟩]))

variable {route : UInt64 → Route} {hash : κ → UInt64} {L : Nat → List (Item κ ν)}

omit [DecidableEq κ] in
theorem sublist_rewrite {i : Nat} {l : List (Item κ ν)} (h : l.Sublist (L i)) (j : Nat) :
    (Map.rewrite L i l j).Sublist (L j) := by
  unfold Map.rewrite
  split
  · rename_i hj
    exact hj ▸ h
  · exact .refl _

/-- What a deed places, by its answer. -/
theorem Deed.tell_places (d : Deed κ ν) (v : View) :
    Places route hash L (d.placed (d.tell v hash route L).1) (d.tell v hash route L).2.2 := by
  have hstay : Places route hash L none L := .nothing fun _ => .refl _
  unfold tell
  cases d with
  | set k w | swap k w =>
    dsimp only [motion?]
    cases v.freed with
    | false => exact hstay
    | true => exact .key k w List.eraseP_sublist
  | setAbsent k w | getOrSet k w =>
    dsimp only [motion?]
    cases v.freed with
    | false => exact hstay
    | true =>
      rw [if_pos rfl]
      unfold Motion.tell Motion.onKey Redaction.placeAbsent
      dsimp only
      cases (L (route (hash k)).shard).find?
          (Query.exactly (route (hash k)).hash k).selects with
      | some i => exact .nothing (sublist_rewrite (.refl _))
      | none => exact .key k w (.refl _)
  | delete q =>
    dsimp only [motion?]
    cases v.freed with
    | false => exact hstay
    | true =>
      rw [if_pos rfl]
      refine .nothing (sublist_rewrite ?_)
      unfold Motion.tell Redaction.delete
      dsimp only
      split
      · exact .refl _
      · exact List.eraseP_sublist
  | clear | wipe =>
    dsimp only [motion?]
    cases v.freed with
    | false => first | exact hstay | exact .nothing fun _ => List.nil_sublist _
    | true => first | exact hstay | exact .nothing fun _ => List.nil_sublist _
  | lock | free =>
    dsimp only [motion?]
    cases v.freed <;> exact hstay

variable {held : Bool} {m : Map κ ν} {past : History κ ν σ α}

/-- What is placed comes last, so that chronicles stay in order. -/
theorem Places.chronological {e : Errand κ ν σ α} {r : Reply κ ν σ α}
    {L' : Nat → List (Item κ ν)} (h : Places m.route m.hash L (e.placed r) L') {m' : Map κ ν}
    (hshape : m.SameShape m') (hfit : m'.Fit held) (ht : m'.Tells L')
    (hL : ∀ i < m.shards.size, Chronological past (L i)) :
    ∀ i < m'.shards.size, Chronological ((e, r) :: past) (L' i) := by
  intro i hi
  have hL (i : Nat) (hi : i < m'.shards.size) := hL i (hshape.size_eq ▸ hi)
  have hother {k : κ} (hk : e.placed r ≠ some k) : placedAt k ((e, r) :: past) = placedAt k past :=
    if_neg hk
  have hkeep {l l' : List (Item κ ν)} (hl : Chronological past l) (hsub : l'.Sublist l)
      (hne : ∀ x ∈ l', e.placed r ≠ some x.key) : Chronological ((e, r) :: past) l' := by
    refine (hl.sublist hsub).imp_of_mem fun {x y} hx hy hlt => ?_
    rw [hother (hne x hx), hother (hne y hy)]
    exact hlt
  generalize hplaced : e.placed r = place at *
  cases h with
  | nothing hsub => exact hkeep (hL i hi) (hsub i) fun x _ => by simp
  | key k w hsub =>
    have hplaces (x : Item κ ν) (hx : x ∈ Map.rewrite L (m.route (m.hash k)).shard
        (_ ++ [⟨(m.route (m.hash k)).hash, k, w⟩]) i) := Map.shard_of_placeIn
      (hshape.placeIn_eq i ▸ ht.placed hfit hi hx)
    have hnodup := ht.nodup hfit hi
    unfold Map.rewrite at hplaces hnodup ⊢
    by_cases hhere : i = (m.route (m.hash k)).shard
    · rw [if_pos hhere] at hnodup ⊢
      rw [List.map_append, List.nodup_append] at hnodup
      have hne (x : Item κ ν) (hx : x ∈ _) : some k ≠ some x.key := fun hk =>
        hnodup.2.2 x.key (List.mem_map.mpr ⟨x, hx, rfl⟩) k (by simp) (Option.some.inj hk).symm
      refine List.pairwise_append.mpr ⟨hkeep (hL _ (hhere ▸ hi)) hsub hne, by simp,
        fun x hx y hy => ?_⟩
      obtain rfl := List.mem_singleton.mp hy
      have hnow : placedAt k ((e, r) :: past) = past.length + 1 := if_pos hplaced
      have hbefore := placedAt_le x.key past
      rw [hother (hne x hx), hnow]
      omega
    · rw [if_neg hhere] at hplaces ⊢
      refine hkeep (hL i hi) (.refl _) fun x hx hk => hhere ?_
      obtain rfl := Option.some.inj hk
      exact (hplaces x hx).symm

/-! ## The order of the items -/

omit [DecidableEq κ] in
/-- Lists after each other are in order if every list is, and the list of an item counts first. -/
theorem pairwise_flatten_of_name {R : α → α → Prop} {L : List (List α)} (name : α → Nat)
    (hname : ∀ x y, name x < name y → R x y)
    (h : ∀ (j : Nat) (l : List α), L[j]? = some l → l.Pairwise R ∧ ∀ x ∈ l, name x = j) :
    L.flatten.Pairwise R := by
  rw [List.pairwise_flatten]
  constructor
  · intro l hl
    obtain ⟨j, hj⟩ := List.mem_iff_getElem?.mp hl
    exact (h j l hj).1
  · rw [List.pairwise_iff_getElem]
    intro i j hi hj hlt x hx y hy
    have hx := (h i _ (List.getElem?_eq_getElem hi)).2 x hx
    have hy := (h j _ (List.getElem?_eq_getElem hj)).2 y hy
    exact hname x y (by omega)

/-- On shelves a chronicle is in the order of the shelves first, and of time then. -/
theorem Chronological.shelve {l : List (Item κ ν)} (h : Chronological past l) (n : Nat) :
    (shelve l n).flatten.Pairwise fun x y => toLex (slot n x.hash, placedAt x.key past)
      < toLex (slot n y.hash, placedAt y.key past) := by
  refine pairwise_flatten_of_name (fun x => slot n x.hash)
    (fun x y hlt => Prod.Lex.toLex_lt_toLex.mpr (.inl hlt)) fun j l' hl' => ?_
  have hj : j < n := by
    rw [← length_shelve l n]
    exact (List.getElem?_eq_some_iff.mp hl').1
  obtain rfl := Option.some.inj ((getElem?_shelve l hj).symm.trans hl')
  have hslot (x : Item κ ν) (hx : x ∈ l.filter fun i => slot n i.hash == j) :
      slot n x.hash = j := by simpa using (List.mem_filter.mp hx).2
  refine ⟨(List.Pairwise.filter _ h).imp_of_mem fun {x y} hx hy hlt => ?_, hslot⟩
  exact Prod.Lex.toLex_lt_toLex.mpr (.inr ⟨(hslot x hx).trans (hslot y hy).symm, hlt⟩)

/--
What the order of a scan goes by: the shard of a key, there its bucket, which the low bits of its
hash in the shard name, and the time at which it was last placed.
-/
def Map.rank (m : Map κ ν) (past : History κ ν σ α) (k : κ) : Nat ×ₗ Nat ×ₗ Nat :=
  let r := m.route (m.hash k)
  toLex (r.shard, toLex (slot (m.shardAt r.shard).table.size r.hash, placedAt k past))

/-- The items of a map are in the order of their ranks if its chronicles are in that of time. -/
theorem Map.Tells.ordered (ht : m.Tells L) (h : m.Fit held)
    (hL : ∀ i < m.shards.size, Chronological past (L i)) :
    m.items.Pairwise fun x y => m.rank past x.key < m.rank past y.key := by
  rw [Map.items_eq_flatten]
  refine pairwise_flatten_of_name (fun x => (m.route (m.hash x.key)).shard)
    (fun x y hlt => Prod.Lex.toLex_lt_toLex.mpr (.inl hlt)) fun i l hl => ?_
  rw [Map.getElem?_holdings] at hl
  split at hl
  · rename_i hi
    obtain rfl := Option.some.inj hl
    have hplaced (x : Item κ ν) (hx : x ∈ (m.shardAt i).table.items) :
        (m.route (m.hash x.key)).shard = i ∧ (m.route (m.hash x.key)).hash = x.hash := by
      have hplace := ht.placed h hi ((ht.perm hi).mem_iff.mp hx)
      have hshard := Map.shard_of_placeIn hplace
      subst hshard
      exact ⟨rfl, Option.some.inj ((m.placeIn_route x.key).symm.trans hplace)⟩
    refine ⟨?_, fun x hx => (hplaced x hx).1⟩
    have horder := (hL i hi).shelve (m.shardAt i).table.size
    rw [← ht i hi, ← Table.items_eq_flatten] at horder
    refine horder.imp_of_mem fun {x y} hx hy hlt => ?_
    obtain ⟨hshard, hhash⟩ := hplaced x hx
    obtain ⟨hshard', hhash'⟩ := hplaced y hy
    refine Prod.Lex.toLex_lt_toLex.mpr (.inr ⟨hshard.trans hshard'.symm, ?_⟩)
    dsimp only
    rw [hshard, hshard', hhash, hhash']
    exact hlt
  · simp at hl

end Chronology

/-! ## Twins -/

namespace Map

/--
Two maps with the same chronicles, for the same view. One has fewer buckets than the other, if
not as many.
-/
structure Twins (v : View) (L : Nat → List (Item κ ν)) (m m' : Map κ ν) : Prop
    extends m.SameShape m' where
  fit : m.Fit (!v.freed)
  fit' : m'.Fit (!v.freed)
  tells : m.Tells L
  tells' : m'.Tells L
  sizes : ∀ i < m.shards.size, (m.shardAt i).table.size ≤ (m'.shardAt i).table.size

/-- With the same number of buckets everything is the same. -/
theorem Tells.sameView {m m' : Map κ ν} {held : Bool} {L : Nat → List (Item κ ν)}
    (hshape : m.SameShape m') (h : m.Fit held) (h' : m'.Fit held) (ht : m.Tells L)
    (ht' : m'.Tells L)
    (hsizes : ∀ i < m.shards.size, (m'.shardAt i).table.size = (m.shardAt i).table.size) :
    m.SameView m' := by
  refine ⟨hshape, fun i => ?_⟩
  by_cases hi : i < m.shards.size
  · have hi' : i < m'.shards.size := hshape.size_eq ▸ hi
    have hcount := (h.shards i hi).table.accounted
    have hcount' := (h'.shards i hi').table.accounted
    unfold Table.Accounted at hcount hcount'
    unfold Shard.view
    rw [ht i hi, ht' i hi', hsizes i hi, hcount, hcount', (ht.perm hi).length_eq,
      (ht'.perm hi').length_eq]
  · have hvacant (m : Map κ ν) (hi : ¬ i < m.shards.size) : m.shardAt i = .vacant := by
      unfold shardAt
      rw [Array.getD_eq_getD_getElem?, Array.getElem?_eq_none (Nat.not_lt.mp hi)]
      rfl
    rw [hvacant m hi, hvacant m' (hshape.size_eq ▸ hi)]

theorem views_eq_map (m : Map κ ν) :
    m.views = (List.range m.shards.size).map fun i => (m.shardAt i).view := by
  refine List.ext_getElem? fun i => ?_
  rw [getElem?_views, List.getElem?_map]
  split
  · rename_i hi
    rw [List.getElem?_range hi]
    rfl
  · rename_i hi
    rw [List.getElem?_eq_none (by simpa using hi)]
    rfl

theorem capacity_eq_sum (m : Map κ ν) :
    m.capacity = ((List.range m.shards.size).map fun i => (m.shardAt i).table.size).sum := by
  rw [capacity_eq_views, views_eq_map, List.map_map]
  refine congrArg List.sum (List.map_congr_left fun i _ => ?_)
  exact Table.length_shelves _

theorem eq_of_sum_eq {l : List α} {f g : α → Nat} (hle : ∀ a ∈ l, f a ≤ g a)
    (hsum : (l.map f).sum = (l.map g).sum) : ∀ a ∈ l, f a = g a := by
  induction l with
  | nil => simp
  | cons b l ih =>
    rw [List.forall_mem_cons] at hle ⊢
    rw [List.map_cons, List.map_cons, List.sum_cons, List.sum_cons] at hsum
    have hrest := List.sum_le_sum hle.2
    exact ⟨by omega, ih hle.2 (by omega)⟩

/-- How many items there are is to be told. -/
theorem Tells.len_eq {held : Bool} {L : Nat → List (Item κ ν)} {m : Map κ ν} (ht : m.Tells L)
    (h : m.Fit held) : m.len
      = ((List.range m.shards.size).map fun i => (L i).length.toUInt64.toNat).sum := by
  rw [len_eq_views, views_eq_map, List.map_map]
  refine congrArg List.sum (List.map_congr_left fun i hi => ?_)
  have hi := List.mem_range.mp hi
  have hcount := (h.shards i hi).table.accounted
  unfold Table.Accounted at hcount
  rw [← (ht.perm hi).length_eq, ← hcount]
  rfl

namespace Twins

variable {v : View} {L : Nat → List (Item κ ν)} {m m' : Map κ ν}

/-- With the same number of buckets in all, twins have the same in every shard. -/
theorem sameView (h : Twins v L m m') (hcapacity : m.capacity = m'.capacity) :
    m.SameView m' := by
  have hsame : ∀ i < m.shards.size, (m.shardAt i).table.size = (m'.shardAt i).table.size := by
    rw [capacity_eq_sum, capacity_eq_sum, h.size_eq] at hcapacity
    intro i hi
    exact eq_of_sum_eq (fun i hi => h.sizes i (List.mem_range.mp hi)) hcapacity i
      (List.mem_range.mpr hi)
  exact h.tells.sameView h.toSameShape h.fit h.fit' h.tells' fun i hi => (hsame i hi).symm

variable [Text.Shown κ] [Text.Shown ν]

/-- Twins give the same findings, but for the order of a scan. -/
theorem finding_eq (h : Twins v L m m') {i : Inquiry κ ν σ α}
    (hi : i.Plain ∨ m.capacity = m'.capacity) : m'.finding i = m.finding i := by
  rcases hi with hplain | hcapacity
  · have hlen : m'.len = m.len := by rw [h.tells.len_eq h.fit, h.tells'.len_eq h.fit', h.size_eq]
    have hfind (q : Lookup κ) : m'.find? q = m.find? q := by
      rw [h.tells.find?_eq h.fit, h.tells'.find?_eq h.fit']
      unfold queryOf
      rw [h.route_eq]
    cases i with
    | len | isEmpty => simp only [finding, hlen]
    | contains q | get q | read q f => simp only [finding, hfind]
    | range f st | text long => exact hplain.elim
  · exact (h.sameView hcapacity).finding_eq i

/-- The view of twins answers the same for both, but for the order of a scan. -/
theorem view_ask_eq (h : Twins v L m m') {i : Inquiry κ ν σ α}
    (hi : i.Plain ∨ m.capacity = m'.capacity) : v.ask m' i = v.ask m i := by
  cases hv : v.freed with
  | false => rw [h.fit.view_ask hv, h.fit'.view_ask hv, h.finding_eq hi]
  | true => rw [v.ask_freed hv, v.ask_freed hv]

/--
Twins answer the same, but for the order of a scan, unless one comes to wait for the view where a
bucket of it brims.
-/
theorem ask_eq (h : Twins v L m m') {i : Inquiry κ ν σ α}
    (hi : i.Plain ∨ m.capacity = m'.capacity) :
    (m.ask i).1 = (m'.ask i).1 ∨
      (v.freed = false ∧ (((m.ask i).1 = .waits ∧ i.Stuck m (m.ask i).2) ∨
        ((m'.ask i).1 = .waits ∧ i.Stuck m' (m'.ask i).2))) := by
  have hopen (hheld : (!v.freed) = true) : v.freed = false := by simpa using hheld
  rcases h.fit.ask i with hdone | ⟨hheld, hstuck⟩
  · rcases h.fit'.ask i with hdone' | ⟨hheld, hstuck⟩
    · rw [hdone, hdone', h.finding_eq hi]
      exact .inl rfl
    · exact .inr ⟨hopen hheld, .inr hstuck⟩
  · exact .inr ⟨hopen hheld, .inl hstuck⟩

end Twins

end Map

/-! ## New maps -/

/-- In a new map there is nothing to be told. -/
theorem Map.tells_new (layout : Layout) (hash : κ → UInt64) (n capacity : Nat) :
    (Map.new layout hash n capacity : Map κ ν).Tells fun _ => [] := by
  intro i hi
  rw [size_shards_new] at hi
  rw [buckets_new layout hash n capacity hi, shardAt_new layout hash n capacity hi, shelve_nil]
  exact Table.shelves_ofSize (bucketsFor _)
    (Nat.lt_of_lt_of_le (by decide) (minimumBuckets_le_bucketsFor _))

/-- The more buckets a new map is asked to have, the more its shards have. -/
theorem Map.twins_new (layout : Layout) (hash : κ → UInt64) (n : Nat) {capacity capacity' : Nat}
    (h : capacity ≤ capacity') :
    Twins { freed := true } (fun _ => []) (Map.new layout hash n capacity : Map κ ν)
      (Map.new layout hash n capacity') := by
  refine ⟨?_, fit_new .., fit_new .., tells_new layout hash n capacity,
    tells_new layout hash n capacity', fun i hi => ?_⟩
  · cases layout with
    | single => exact ⟨rfl, rfl, rfl⟩
    | sharded =>
      refine ⟨rfl, rfl, ?_⟩
      rw [size_shards_new, size_shards_new]
  · rw [size_shards_new] at hi
    rw [buckets_new layout hash n capacity hi, buckets_new layout hash n capacity' hi]
    refine bucketsFor_mono ?_
    cases layout with
    | single => exact h
    | sharded => exact Nat.div_le_div_right (by omega)

/-! ## Errands with twins -/

/-- Of two tables for the same items, the one with fewer buckets does not overtake the other. -/
theorem Map.grownSize_mono {e e' : Nat} (h : 2 ^ e ≤ 2 ^ e') (c : Change) (l : List (Item κ ν)) :
    grownSize (2 ^ e) c l ≤ grownSize (2 ^ e') c l := by
  unfold grownSize
  rcases Nat.lt_or_eq_of_le h with hlt | heq
  · have := two_pow_lt hlt
    split <;> split <;> omega
  · rw [heq]

section Trips

variable [DecidableEq κ]

theorem Errand.resize_mono (e : Errand κ ν σ α) (v : View) (hash : κ → UInt64)
    (route : UInt64 → Route) (L : Nat → List (Item κ ν)) (i : Nat) {b b' : Nat}
    (h : 2 ^ b ≤ 2 ^ b') :
    e.resize v hash route L i (2 ^ b) ≤ e.resize v hash route L i (2 ^ b') := by
  cases e with
  | act d =>
    unfold resize Deed.resize
    dsimp only
    split
    · split
      · exact Map.grownSize_mono h _ _
      · exact h
    · exact h
  | drop | ask i | peek i | capacity | shardCount => exact h

variable [Text.Shown κ] [Text.Shown ν]

/-- An errand asks a map that comes to wait, where a bucket of it brims. -/
def Errand.Sticks (e : Errand κ ν σ α) (m : Map κ ν) : Prop :=
  ∃ i, e = .ask i ∧ (m.ask i).1 = .waits ∧ i.Stuck m (m.ask i).2

/-- The same reply for two maps, unless one comes to wait for the view where a bucket brims. -/
def Errand.Agrees (e : Errand κ ν σ α) (v : View) (m m' : Map κ ν) : Prop :=
  (e.run v m).1 = (e.run v m').1 ∨ (v.freed = false ∧ (e.Sticks m ∨ e.Sticks m'))

theorem Errand.Agrees.symm {e : Errand κ ν σ α} {v : View} {m m' : Map κ ν}
    (h : e.Agrees v m m') : e.Agrees v m' m :=
  h.imp Eq.symm (And.imp_right Or.symm)

/-- Without a view nothing waits. -/
theorem Errand.Agrees.reply_eq {e : Errand κ ν σ α} {v : View} {m m' : Map κ ν}
    (h : e.Agrees v m m') (hfree : v.freed = true) : (e.run v m).1 = (e.run v m').1 :=
  h.resolve_right fun hsticks => absurd (hfree.symm.trans hsticks.1) (by simp)

namespace Map.Twins

variable {v : View} {L : Nat → List (Item κ ν)} {m m' : Map κ ν}

/-- Twins reply the same, but for the number of buckets and the order of a scan. -/
theorem reply (h : Twins v L m m') {e : Errand κ ν σ α}
    (he : e.Plain ∨ m.capacity = m'.capacity) : e.Agrees v m m' := by
  cases e with
  | act d =>
    have hd := (d.run_unfolds h.fit h.tells).1
    have hd' := (d.run_unfolds h.fit' h.tells').1
    rw [h.hash_eq, funext h.route_eq] at hd'
    refine .inl ?_
    unfold Errand.run
    dsimp only
    rw [hd, hd']
  | drop => exact .inl rfl
  | ask i =>
    rcases h.ask_eq he with heq | ⟨hopen, hwaits⟩
    · exact .inl (congrArg Reply.found heq)
    · exact .inr ⟨hopen, hwaits.imp (fun hstuck => ⟨i, rfl, hstuck⟩) fun hstuck => ⟨i, rfl, hstuck⟩⟩
  | peek i => exact .inl (congrArg Reply.seen (h.view_ask_eq he).symm)
  | capacity => exact .inl (congrArg Reply.buckets (he.resolve_left False.elim))
  | shardCount =>
    refine .inl (congrArg Reply.shards ?_)
    unfold shardCount?
    rw [h.layout_eq, h.size_eq]

/-- After an errand twins are twins still, for the same view. -/
theorem run (h : Twins v L m m') (e : Errand κ ν σ α) :
    (e.run v m').2.1 = (e.run v m).2.1 ∧
      Twins (e.run v m).2.1 (e.tell v m.hash m.route L).2 (e.run v m).2.2 (e.run v m').2.2 := by
  have hone := e.run_unfolds h.fit h.tells
  have hother := e.run_unfolds h.fit' h.tells'
  rw [h.hash_eq, funext h.route_eq] at hother
  have hview := hother.view_eq.trans hone.view_eq.symm
  have hshape : (e.run v m).2.2.SameShape (e.run v m').2.2 :=
    ⟨hother.shape.hash_eq.trans (h.hash_eq.trans hone.shape.hash_eq.symm),
      hother.shape.layout_eq.trans (h.layout_eq.trans hone.shape.layout_eq.symm),
      hother.shape.size_eq.trans (h.size_eq.trans hone.shape.size_eq.symm)⟩
  refine ⟨hview, hshape, hone.fit, hview ▸ hother.fit, hone.tells, hother.tells, fun i hi => ?_⟩
  have hi : i < m.shards.size := hone.shape.size_eq ▸ hi
  obtain ⟨b, hb⟩ := (h.fit.shards i hi).table.shelved.size
  obtain ⟨b', hb'⟩ := (h.fit'.shards i (h.size_eq ▸ hi)).table.shelved.size
  have hle := h.sizes i hi
  rw [Table.length_shelves] at hb hb'
  rw [hone.sizes, hother.sizes, hb, hb']
  rw [hb, hb'] at hle
  exact e.resize_mono v m.hash m.route L i hle

end Map.Twins

/-! ## Trips with a new map -/

/-- What an errand places, by its reply. -/
theorem Errand.run_places (e : Errand κ ν σ α) {v : View} {m : Map κ ν}
    {L : Nat → List (Item κ ν)} (h : m.Fit (!v.freed)) (ht : m.Tells L) :
    Places m.route m.hash L (e.placed (e.run v m).1) (e.tell v m.hash m.route L).2 := by
  cases e with
  | act d =>
    have hplaces : Places m.route m.hash L (d.placed (d.tell v m.hash m.route L).1)
        (d.tell v m.hash m.route L).2.2 := d.tell_places v
    rw [← (d.run_unfolds h ht).1] at hplaces
    exact hplaces
  | drop | ask i | peek i | capacity | shardCount => exact .nothing fun _ => .refl _

namespace Trip

/-- Runs one more errand. -/
def go (t : Trip κ ν σ α) (e : Errand κ ν σ α) : Trip κ ν σ α :=
  let (r, v, m) := e.run t.view t.map
  ⟨(e, r) :: t.history, v, m⟩

/-- Runs errands with a new map. -/
def new (layout : Layout) (hash : κ → UInt64) (n capacity : Nat) (es : List (Errand κ ν σ α)) :
    Trip κ ν σ α :=
  es.foldl go { map := .new layout hash n capacity }

/-- The chronicles of the map of a trip are chronological. -/
structure Chronicled (t : Trip κ ν σ α) (L : Nat → List (Item κ ν)) : Prop where
  fit : t.map.Fit (!t.view.freed)
  tells : t.map.Tells L
  chronological : ∀ i < t.map.shards.size, Chronological t.history (L i)

theorem Chronicled.go {t : Trip κ ν σ α} {L : Nat → List (Item κ ν)} (h : t.Chronicled L)
    (e : Errand κ ν σ α) :
    (t.go e).Chronicled (e.tell t.view t.map.hash t.map.route L).2 := by
  have hrun := e.run_unfolds h.fit h.tells
  exact ⟨hrun.fit, hrun.tells,
    (e.run_places h.fit h.tells).chronological hrun.shape hrun.fit hrun.tells h.chronological⟩

theorem foldl_chronicled (es : List (Errand κ ν σ α)) {t : Trip κ ν σ α}
    (h : ∃ L, t.Chronicled L) : ∃ L, (es.foldl Trip.go t).Chronicled L := by
  induction es generalizing t with
  | nil => exact h
  | cons e es ih =>
    obtain ⟨L, h⟩ := h
    exact ih ⟨_, h.go e⟩

/-- Whatever errands are run with a new map, its chronicles are chronological. -/
theorem new_chronicled (layout : Layout) (hash : κ → UInt64) (n capacity : Nat)
    (es : List (Errand κ ν σ α)) : ∃ L, (new (ν := ν) layout hash n capacity es).Chronicled L :=
  foldl_chronicled es ⟨_, Map.fit_new layout hash n capacity, Map.tells_new layout hash n capacity,
    fun _ _ => .nil⟩

/-- Two trips with twins. -/
structure Twin (t t' : Trip κ ν σ α) : Prop where
  view_eq : t'.view = t.view
  twins : ∃ L, Map.Twins t.view L t.map t'.map

theorem Twin.foldl (es : List (Errand κ ν σ α)) {t t' : Trip κ ν σ α} (h : t.Twin t') :
    (es.foldl Trip.go t).Twin (es.foldl Trip.go t') := by
  induction es generalizing t t' with
  | nil => exact h
  | cons e es ih =>
    obtain ⟨past, v, m⟩ := t
    obtain ⟨past', v', m'⟩ := t'
    obtain ⟨hview, L, htwins⟩ := h
    obtain rfl : v' = v := hview
    obtain ⟨hview, htwins⟩ := htwins.run e
    exact ih ⟨hview, _, htwins⟩

/-- The same errands with new maps that are to have so many buckets. -/
theorem new_twin (layout : Layout) (hash : κ → UInt64) (n : Nat) {capacity capacity' : Nat}
    (h : capacity ≤ capacity') (es : List (Errand κ ν σ α)) :
    (new (ν := ν) layout hash n capacity es).Twin (new layout hash n capacity' es) :=
  .foldl es ⟨rfl, _, Map.twins_new layout hash n h⟩

/-- What an inquiry comes to, for the view of the map until it is freed, and for the map. -/
structure Says (t : Trip κ ν σ α) {σ' α' : Type} (i : Inquiry κ ν σ' α') (a : Finding ν σ' α') :
    Prop where
  view : t.view.freed = false → t.view.ask t.map i = .ok a
  /-- Where there is no view the map answers. -/
  free : t.view.freed = true → (t.map.ask i).1 = .done a
  /-- Under a view it answers or comes to wait, where a bucket brims. -/
  held : t.view.freed = false → (t.map.ask i).1 = .done a ∨
    ((t.map.ask i).1 = .waits ∧ i.Stuck t.map (t.map.ask i).2)

theorem Chronicled.says {t : Trip κ ν σ α} {L : Nat → List (Item κ ν)} (h : t.Chronicled L)
    {σ' α' : Type} (i : Inquiry κ ν σ' α') : t.Says i (t.map.finding i) where
  view hopen := h.fit.view_ask hopen i
  free hfree := (h.fit.ask i).resolve_right fun hwaits => absurd hwaits.1 (by simp [hfree])
  held _ := (h.fit.ask i).imp_right And.right

end Trip

/-- What is shown of a key is what its shelf has. -/
theorem Map.Fit.finding_get {held : Bool} {m : Map κ ν} (h : m.Fit held) (k : κ) :
    (m.finding (.get (m.lookup k)) : Finding ν σ α) = .value (valueOf m.items k) := by
  have hsound {m : Map κ ν} (h : m.Fit false) :
      (m.find? (m.lookup k)).map (·.value) = valueOf m.items k := by
    obtain ⟨hfiled, hvalue⟩ := h.sound.shelfAt_spec k
    rw [← hvalue]
    exact congrArg (Option.map (·.value)) hfiled.find?_eq
  unfold finding
  cases held with
  | false => exact congrArg Finding.value (hsound h)
  | true =>
    obtain ⟨hfit, _, hview⟩ := h.unlock
    have hunlocked := hsound hfit
    unfold lookup at hunlocked ⊢
    rw [hview.find?_eq, hview.items_eq, hview.hash_eq] at hunlocked
    exact congrArg Finding.value hunlocked

/--
**The order of a scan goes by the shape and the history only.** Take any errands, run one after
another with a new map of either layout:

* its items are in ascending order of their shard, there of the low bits of their hash, and there of
  the time at which their key was last placed;
* a scan meets these items in this order, a listing has them so, and what is found of a key is what
  these items have.

Take the same errands with a new map that was to have another number of buckets. Then the views are
the same. Take any errand next that asks neither for the number of buckets nor for a scan or a
listing, or any at all if there are as many buckets:

* where no view is live the replies are the same;
* under a view they are the same, or one map comes to wait where a bucket of it brims.
-/
theorem scan_order (layout : Layout) (hash : κ → UInt64) (n capacity : Nat)
    (es : List (Errand κ ν σ α)) :
    let t := Trip.new (ν := ν) layout hash n capacity es
    (t.map.items.Pairwise fun x y => t.map.rank t.history x.key < t.map.rank t.history y.key) ∧
    (∀ (σ' α' : Type) (f : κ × ν → σ' → Bool × σ') (st : σ'),
      t.Says (.range f st : Inquiry κ ν σ' α')
        (.scanned (View.visit f t.map.items st).1 (View.visit f t.map.items st).2)) ∧
    (∀ long, t.Says (.text long : Inquiry κ ν σ α)
      (.text (Text.list long (t.map.items.map (·.entry))))) ∧
    (∀ k, t.Says (.get (t.map.lookup k) : Inquiry κ ν σ α) (.value (valueOf t.map.items k))) ∧
    ∀ capacity', let t' := Trip.new layout hash n capacity' es
      t'.view = t.view ∧
      ∀ e : Errand κ ν σ α, e.Plain ∨ t.map.capacity = t'.map.capacity →
        (t.view.freed = true → (e.run t.view t.map).1 = (e.run t'.view t'.map).1) ∧
        e.Agrees t.view t.map t'.map := by
  intro t
  obtain ⟨L, hL⟩ := Trip.new_chronicled (ν := ν) layout hash n capacity es
  refine ⟨hL.tells.ordered hL.fit hL.chronological, fun σ' α' f st => hL.says _,
    fun long => hL.says _, fun k => ?_, fun capacity' => ?_⟩
  · rw [← hL.fit.finding_get]
    exact hL.says _
  · intro t'
    have htwins : t'.view = t.view ∧ ∀ e : Errand κ ν σ α,
        e.Plain ∨ t.map.capacity = t'.map.capacity → e.Agrees t.view t.map t'.map := by
      rcases Nat.le_total capacity capacity' with hle | hle
      · obtain ⟨hview, _, htwins⟩ := Trip.new_twin (ν := ν) layout hash n hle es
        exact ⟨hview, fun e he => htwins.reply he⟩
      · obtain ⟨hview, _, htwins⟩ := Trip.new_twin (ν := ν) layout hash n hle es
        exact ⟨hview.symm, fun e he => hview ▸ (htwins.reply (he.imp_right Eq.symm)).symm⟩
    obtain ⟨hview, hagrees⟩ := htwins
    refine ⟨hview, fun e he => ⟨fun hfree => ?_, hagrees e he⟩⟩
    rw [hview]
    exact (hagrees e he).reply_eq hfree

/-- Sets twelve keys, as many as make a table of sixteen buckets grow. -/
def setsTwelve : List (Errand UInt64 UInt64 Unit Unit) :=
  (List.range 12).map fun i => .act (.set i.toUInt64 i.toUInt64)

/-- A table that has grown is scanned like one that had as many buckets from the start. -/
theorem scan_order_twelve :
    let t := Trip.new (α := Unit) .single id 0 16 setsTwelve
    let t' := Trip.new .single id 0 32 setsTwelve
    t.map.capacity = 32 ∧ t'.map.capacity = 32 ∧
      ∀ f st, let e : Errand UInt64 UInt64 Unit Unit := .ask (.range f st)
        (e.run t.view t.map).1 = (e.run t'.view t'.map).1 := by
  intro t t'
  have hgrown : t.map.capacity = 32 := by decide +kernel
  have hlarge : t'.map.capacity = 32 := by decide +kernel
  have hfreed : t.view.freed = true := by decide +kernel
  refine ⟨hgrown, hlarge, fun f st => ?_⟩
  obtain ⟨_, _, _, _, hsame⟩ := scan_order .single id 0 16 setsTwelve
  exact ((hsame 32).2 (.ask (.range f st)) (.inr (hgrown.trans hlarge.symm))).1 hfreed

/-! ## The same errands with fewer buckets and with more -/

/-- Looking up a key over and over leaves as many more on the count of its bucket. -/
theorem Trip.foldl_gets (q : Lookup κ) (n : Nat) {held : Bool} {t : Trip κ ν σ α}
    (h : t.map.Fit held) (hne : (t.map.bucketOf q.hash).chain ≠ [])
    (hroom : (t.map.bucketOf q.hash).reference.count.toNat + n < rebalanceAt.toNat) :
    Map.Counts held q.hash n t.map ((List.replicate n (Errand.ask (.get q))).foldl go t).map := by
  induction n generalizing t with
  | zero => exact ⟨h, .refl _, hne, rfl, fun _ => Nat.le_refl _⟩
  | succ n ih =>
    have hone : Map.Counts held q.hash 1 t.map (t.go (.ask (.get q))).map :=
      h.read_counts q (f := fun e m => (e.2, m)) (fun _ _ => rfl) hne (by omega)
    have hrest := ih hone.fit hone.published (by rw [hone.count_eq]; omega)
    rw [List.replicate_succ, List.foldl_cons]
    exact Nat.add_comm 1 n ▸ hone.trans hrest

/-- Sets two keys, looks the second up, and locks the map. -/
def setsTwoLocks : List (Errand UInt64 UInt64 Unit Unit) :=
  [.act (.set 0 100), .act (.set 16 116), .ask (.get ⟨16, (· == 16)⟩), .act .lock]

/-- Asks for the first of them. -/
def asksZero : Inquiry UInt64 UInt64 Unit Unit := .get ⟨0, (· == 0)⟩

theorem run_asksZero (v : View) (m : Map UInt64 UInt64) :
    ((Errand.ask asksZero).run v m).1 = .found (m.ask asksZero).1 := rfl

/-- Two keys in a table of so many buckets, and a view of them. -/
def lockedTrip (capacity : Nat) : Trip UInt64 UInt64 Unit Unit :=
  .new .single id 0 capacity setsTwoLocks

/-- What looking the first key up over and over leaves, where its bucket has a count of `c`. -/
theorem lockedTrip_counts {capacity c n : Nat}
    (hstart : (lockedTrip capacity).view.freed = false ∧
      ((lockedTrip capacity).map.bucketOf 0).chain ≠ [] ∧
      ((lockedTrip capacity).map.bucketOf 0).reference.count.toNat = c)
    (hroom : c + n < rebalanceAt.toNat) :
    Map.Counts true 0 n (lockedTrip capacity).map
      (Trip.new .single id 0 capacity (setsTwoLocks ++ List.replicate n (.ask asksZero))).map := by
  obtain ⟨hopen, hne, hc⟩ := hstart
  have hchronicled : ∃ L, (lockedTrip capacity).Chronicled L := Trip.new_chronicled ..
  have hsplit : Trip.new .single id 0 capacity (setsTwoLocks ++ List.replicate n (.ask asksZero))
      = (List.replicate n (.ask asksZero)).foldl Trip.go (lockedTrip capacity) := List.foldl_append
  obtain ⟨L, hL⟩ := hchronicled
  have hfit := hL.fit
  rw [hopen] at hfit
  rw [hsplit]
  generalize lockedTrip capacity = t at *
  exact Trip.foldl_gets ⟨0, (· == 0)⟩ n hfit hne (hc ▸ hroom)

/--
With so many lookups the bucket brims that both keys are in, and the one that the first key has to
itself does not.
-/
theorem asksZero_differ {n : Nat} (hn : n + 3 = rebalanceAt.toNat) :
    let t := Trip.new .single id 0 16 (setsTwoLocks ++ List.replicate n (.ask asksZero))
    let t' := Trip.new .single id 0 32 (setsTwoLocks ++ List.replicate n (.ask asksZero))
    ((Errand.ask asksZero).run t.view t.map).1 = .found .waits ∧
      ((Errand.ask asksZero).run t'.view t'.map).1 = .found (.done (.value (some 100))) := by
  intro t t'
  have hfew : (lockedTrip 16).view.freed = false ∧
      ((lockedTrip 16).map.bucketOf 0).chain ≠ [] ∧
      ((lockedTrip 16).map.bucketOf 0).reference.count.toNat = 2 := by decide +kernel
  have hmany : (lockedTrip 32).view.freed = false ∧
      ((lockedTrip 32).map.bucketOf 0).chain ≠ [] ∧
      ((lockedTrip 32).map.bucketOf 0).reference.count.toNat = 1 := by decide +kernel
  have hcounts : Map.Counts true 0 n _ t.map := lockedTrip_counts hfew (by omega)
  have hcounts' : Map.Counts true 0 n _ t'.map := lockedTrip_counts hmany (by omega)
  have hcount := hcounts.count_eq
  have hcount' := hcounts'.count_eq
  rw [run_asksZero, run_asksZero]
  constructor
  · have hbrims : (t.map.bucketOf 0).Brims :=
      ⟨hcounts.published, (next_eq_rebalanceAt_iff (by omega)).mpr (by omega)⟩
    have hwaits : (t.map.ask asksZero).1 = .waits := hcounts.fit.ask_get_waits _ hbrims
    rw [hwaits]
  · have hnot : ¬ (t'.map.bucketOf 0).Brims := fun hbrims => by
      have hfull := (next_eq_rebalanceAt_iff (by omega)).mp hbrims.2
      omega
    have hfound : (lockedTrip 32).map.finding asksZero = .value (some 100) := by decide +kernel
    rw [(hcounts'.fit.ask asksZero).resolve_right fun hwaits => hnot hwaits.2.2,
      hcounts'.sameView.finding_eq, hfound]

/--
**Buckets decide who waits.** The same errands with a table of sixteen buckets and with one of
thirty-two: the next lookup, under the view, waits in the one and is answered in the other.
-/
theorem buckets_decide_who_waits :
    let es := setsTwoLocks ++ List.replicate 999999997 (.ask asksZero)
    let t := Trip.new .single id 0 16 es
    let t' := Trip.new .single id 0 32 es
    (Errand.ask asksZero).Plain ∧ ((Errand.ask asksZero).run t.view t.map).1 = .found .waits ∧
      ((Errand.ask asksZero).run t'.view t'.map).1 = .found (.done (.value (some 100))) :=
  ⟨trivial, asksZero_differ rfl⟩

end Trips

end VersionedMap
