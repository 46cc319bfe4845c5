import VersionedMap.Proofs.FitMaps

/-!
# Guarded tables follow the map

A table that somebody guards stays to be found under its generation, even after the shard has
got another one. From when it was the current table its items **follow** those of the map: what
is in it now was in it before, or has been in the map meanwhile; and what was in it, and has been
in the map all the while, is in it still.

One operation `Passes` over the shards of a map: it changes the current table in place, or puts
another in its place and sets it aside. A map `Tracks` another by way of some moments if every
guarded table follows them. That is kept by operations, by readers, and from when a guard comes
to when it goes, however the guards of others come and go in between.
-/

namespace VersionedMap

variable {κ ν : Type}

/-! ## One operation on one shard -/

namespace Shard

/-- What an operation may do to the tables of a shard under a guard. -/
structure Passes (d d' : Shard κ ν) : Prop where
  guards_eq : d'.guards = d.guards
  aside_le : d.aside.size ≤ d'.aside.size
  size_eq : 0 < d.guards → ∀ g ≤ d.aside.size, (d'.tableAt g).size = (d.tableAt g).size
  fresh : 0 < d.guards → ∀ g ≤ d.aside.size, ∀ x ∈ (d'.tableAt g).items,
    x ∈ (d.tableAt g).items ∨ x ∈ d'.table.items
  kept : 0 < d.guards → ∀ g ≤ d.aside.size, ∀ x ∈ (d.tableAt g).items,
    x ∈ d'.table.items → x ∈ (d'.tableAt g).items

theorem Passes.refl (d : Shard κ ν) : d.Passes d where
  guards_eq := rfl
  aside_le := Nat.le_refl _
  size_eq _ _ _ := rfl
  fresh _ _ _ _ hx := .inl hx
  kept _ _ _ _ hx _ := hx

/-- The current table changes in place. -/
theorem passes_inPlace (d : Shard κ ν) {t : Table κ ν} (hsize : t.size = d.table.size) (n : Nat) :
    d.Passes { d with table := t, sharers := n } := by
  -- only the generation of the current table names another table than before
  have hcase (g : Nat) :
      ({ d with table := t, sharers := n } : Shard κ ν).tableAt g = d.tableAt g ∨
      (d.tableAt g = d.table ∧
        ({ d with table := t, sharers := n } : Shard κ ν).tableAt g = t) := by
    by_cases hg : g < d.aside.size
    · refine .inl ?_
      unfold tableAt
      dsimp only
      rw [Array.getElem?_eq_getElem hg]
    · exact .inr ⟨tableAt_current (Nat.not_lt.mp hg),
        tableAt_current (d := { d with table := t, sharers := n }) (Nat.not_lt.mp hg)⟩
  refine ⟨rfl, Nat.le_refl _, fun _ g _ => ?_, fun _ g _ x hx => ?_, fun _ g _ x hx hx' => ?_⟩
  · rcases hcase g with h | ⟨hold, hnew⟩
    · rw [h]
    · rw [hold, hnew, hsize]
  · rcases hcase g with h | ⟨_, hnew⟩
    · exact .inl (h ▸ hx)
    · exact .inr (hnew ▸ hx)
  · rcases hcase g with h | ⟨_, hnew⟩
    · exact h ▸ hx
    · rw [hnew]
      exact hx'

/-- Another table takes the place of the current one, which is set aside with its items. -/
theorem passes_replace (d : Shard κ ν) {old t : Table κ ν} (hold : old.shelves = d.table.shelves) :
    d.Passes (d.replace old t) := by
  have hitems : old.items = d.table.items := congrArg List.flatten hold
  by_cases hguards : d.guards = 0
  · unfold replace
    rw [if_pos hguards]
    exact ⟨rfl, Nat.le_refl _, fun h => absurd hguards (Nat.pos_iff_ne_zero.mp h),
      fun h => absurd hguards (Nat.pos_iff_ne_zero.mp h),
      fun h => absurd hguards (Nat.pos_iff_ne_zero.mp h)⟩
  · have hreplace : d.replace old t = { d with table := t, aside := d.aside.push old } := by
      unfold replace
      rw [if_neg hguards]
    have hcase (g : Nat) (hg : g ≤ d.aside.size) : (d.replace old t).tableAt g = d.tableAt g ∨
        (d.tableAt g = d.table ∧ (d.replace old t).tableAt g = old) := by
      rw [hreplace]
      rcases Nat.lt_or_eq_of_le hg with hlt | rfl
      · refine .inl ?_
        unfold tableAt
        dsimp only
        rw [Array.getElem?_push_lt hlt, Array.getElem?_eq_getElem hlt]
      · refine .inr ⟨tableAt_current (Nat.le_refl _), ?_⟩
        unfold tableAt
        dsimp only
        rw [Array.getElem?_push_size]
    refine ⟨by rw [hreplace], ?_, fun _ g hg => ?_, fun _ g hg x hx => ?_, fun _ g hg x hx _ => ?_⟩
    · rw [hreplace, Array.size_push]
      exact Nat.le_succ _
    · rcases hcase g hg with h | ⟨hcur, hnew⟩
      · rw [h]
      · rw [hcur, hnew, Table.size_congr hold]
    · rcases hcase g hg with h | ⟨hcur, hnew⟩
      · exact .inl (h ▸ hx)
      · rw [hnew, hitems] at hx
        exact .inl (hcur ▸ hx)
    · rcases hcase g hg with h | ⟨hcur, hnew⟩
      · exact h ▸ hx
      · rw [hnew, hitems]
        exact hcur ▸ hx

/-- An operation that goes on to move the items of the current table is still one. -/
theorem Passes.moved {d d' d'' : Shard κ ν} (h : d.Passes d') (h' : d'.Passes d'')
    (hitems : ∀ x, x ∈ d''.table.items ↔ x ∈ d'.table.items) : d.Passes d'' where
  guards_eq := h'.guards_eq.trans h.guards_eq
  aside_le := Nat.le_trans h.aside_le h'.aside_le
  size_eq hguards g hg := by
    have hguards' : 0 < d'.guards := h.guards_eq ▸ hguards
    rw [h'.size_eq hguards' g (Nat.le_trans hg h.aside_le), h.size_eq hguards g hg]
  fresh hguards g hg x hx := by
    have hguards' : 0 < d'.guards := h.guards_eq ▸ hguards
    rcases h'.fresh hguards' g (Nat.le_trans hg h.aside_le) x hx with hx | hx
    · rcases h.fresh hguards g hg x hx with hx | hx
      · exact .inl hx
      · exact .inr ((hitems x).mpr hx)
    · exact .inr hx
  kept hguards g hg x hx hx' := by
    have hguards' : 0 < d'.guards := h.guards_eq ▸ hguards
    exact h'.kept hguards' g (Nat.le_trans hg h.aside_le) x
      (h.kept hguards g hg x hx ((hitems x).mp hx')) hx'

end Shard

/-! ## Moments -/

/-- From `l` to `l'` items come and go as they do in the maps of some moments in between. -/
structure Carried (l : List (Item κ ν)) (ms : List (Map κ ν)) (l' : List (Item κ ν)) : Prop where
  fresh : ∀ x ∈ l', x ∈ l ∨ ∃ t ∈ ms, x ∈ t.items
  kept : ∀ x ∈ l, (∀ t ∈ ms, x ∈ t.items) → x ∈ l'

theorem Carried.of_eq {l l' : List (Item κ ν)} (h : l' = l) : Carried l [] l' where
  fresh _ hx := .inl (h ▸ hx)
  kept _ hx _ := h ▸ hx

theorem Carried.trans {l l' l'' : List (Item κ ν)} {ms ms' : List (Map κ ν)}
    (h : Carried l ms l') (h' : Carried l' ms' l'') : Carried l (ms ++ ms') l'' where
  fresh x hx := by
    rcases h'.fresh x hx with hx | ⟨t, ht, hx⟩
    · rcases h.fresh x hx with hx | ⟨t, ht, hx⟩
      · exact .inl hx
      · exact .inr ⟨t, List.mem_append_left _ ht, hx⟩
    · exact .inr ⟨t, List.mem_append_right _ ht, hx⟩
  kept x hx hall := by
    have hmid := h.kept x hx fun t ht => hall t (List.mem_append_left _ ht)
    exact h'.kept x hmid fun t ht => hall t (List.mem_append_right _ ht)

/-! ## The tables of a shard over some moments -/

namespace Shard

/-- Guarded tables keep their generations and sizes, and follow the moments in between. -/
structure Tracks (d : Shard κ ν) (ms : List (Map κ ν)) (d' : Shard κ ν) : Prop where
  guards_eq : d'.guards = d.guards
  aside_le : 0 < d.guards → d.aside.size ≤ d'.aside.size
  size_eq : 0 < d.guards → ∀ g ≤ d.aside.size, (d'.tableAt g).size = (d.tableAt g).size
  carried : 0 < d.guards → ∀ g ≤ d.aside.size,
    Carried (d.tableAt g).items ms (d'.tableAt g).items

theorem Alike.tracks {d d' : Shard κ ν} (h : d.Alike d') : d.Tracks [] d' where
  guards_eq := h.guards_eq
  aside_le _ := Nat.le_of_eq h.aside_eq.symm
  size_eq _ g _ := Table.size_congr (h.shelves_eq g)
  carried _ g _ := .of_eq (congrArg List.flatten (h.shelves_eq g))

theorem Tracks.trans {d d' d'' : Shard κ ν} {ms ms' : List (Map κ ν)} (h : d.Tracks ms d')
    (h' : d'.Tracks ms' d'') : d.Tracks (ms ++ ms') d'' where
  guards_eq := h'.guards_eq.trans h.guards_eq
  aside_le hguards := Nat.le_trans (h.aside_le hguards) (h'.aside_le (h.guards_eq ▸ hguards))
  size_eq hguards g hg := by
    have hg' := Nat.le_trans hg (h.aside_le hguards)
    rw [h'.size_eq (h.guards_eq ▸ hguards) g hg', h.size_eq hguards g hg]
  carried hguards g hg :=
    (h.carried hguards g hg).trans
      (h'.carried (h.guards_eq ▸ hguards) g (Nat.le_trans hg (h.aside_le hguards)))

theorem table_leave (d : Shard κ ν) : d.leave.table = d.table := by
  unfold leave
  split <;> rfl

/-- With one guard more in between, the tables that others guard are followed all the same. -/
theorem Tracks.bracket {d d' : Shard κ ν} {ms : List (Map κ ν)} (h : d.enter.2.Tracks ms d') :
    d.Tracks ms d'.leave := by
  have hguards : d'.guards = d.guards + 1 := h.guards_eq
  by_cases hlast : d.guards = 0
  · -- nobody else has a guard here
    have hvoid : ¬ 0 < d.guards := by omega
    refine ⟨?_, fun hg => absurd hg hvoid, fun hg => absurd hg hvoid, fun hg => absurd hg hvoid⟩
    unfold leave
    rw [if_pos (by omega), hlast]
  · have hleave : d'.leave = { d' with guards := d'.guards - 1 } := by
      unfold leave
      rw [if_neg (by omega)]
    have hpos : 0 < d.enter.2.guards := Nat.succ_pos _
    rw [hleave]
    refine ⟨?_, fun _ => h.aside_le hpos, fun _ g hg => h.size_eq hpos g hg,
      fun _ g hg => h.carried hpos g hg⟩
    dsimp only
    omega

end Shard

namespace Map

/-- The tables of every shard, and the map as a whole, follow some moments. -/
structure Tracks (m : Map κ ν) (ms : List (Map κ ν)) (m' : Map κ ν) : Prop
    extends m.SameShape m' where
  shards : ∀ i, (m.shardAt i).Tracks ms (m'.shardAt i)
  items : Carried m.items ms m'.items

theorem Alike.tracks {m m' : Map κ ν} (h : m.Alike m') : m.Tracks [] m' :=
  ⟨h.toSameShape, fun i => (h.shards i).tracks, .of_eq h.sameView.items_eq⟩

theorem Tracks.trans {m m' m'' : Map κ ν} {ms ms' : List (Map κ ν)} (h : m.Tracks ms m')
    (h' : m'.Tracks ms' m'') : m.Tracks (ms ++ ms') m'' :=
  ⟨h.toSameShape.trans h'.toSameShape, fun i => (h.shards i).trans (h'.shards i),
    h.items.trans h'.items⟩

/-- Readers add nothing to what is followed. -/
theorem Tracks.alike {m m' m'' : Map κ ν} {ms : List (Map κ ν)} (h : m.Tracks ms m')
    (h' : m'.Alike m'') : m.Tracks ms m'' := by
  have htrans := h.trans h'.tracks
  rwa [List.append_nil] at htrans

theorem Alike.tracks_trans {m m' m'' : Map κ ν} {ms : List (Map κ ν)} (h : m.Alike m')
    (h' : m'.Tracks ms m'') : m.Tracks ms m'' := h.tracks.trans h'

/-- From when a guard comes to when it goes. -/
theorem Tracks.bracket {m m₁ m₂ m₃ : Map κ ν} {ms : List (Map κ ν)} {i : Nat}
    (henter : m.Swaps i (m.shardAt i).enter.2 m₁) (h : m₁.Tracks ms m₂)
    (hleave : m₂.Swaps i (m₂.shardAt i).leave m₃) : m.Tracks ms m₃ := by
  refine ⟨(henter.toSameShape.trans h.toSameShape).trans hleave.toSameShape, fun j => ?_, ?_⟩
  · have hshard := h.shards j
    by_cases hj : j = i
    · subst hj
      rw [henter.here] at hshard
      rw [hleave.here]
      exact hshard.bracket
    · rw [henter.others j hj] at hshard
      rw [hleave.others j hj]
      exact hshard
  · have hitems := h.items
    have hleft := hleave.sameView (Shard.table_leave _)
    rwa [(henter.sameView rfl).items_eq, ← hleft.items_eq] at hitems

/-! ## One operation on a map -/

/-- What an operation may do to the tables of every shard. -/
structure Passes (m m' : Map κ ν) : Prop extends m.SameShape m' where
  shards : ∀ i, (m.shardAt i).Passes (m'.shardAt i)

theorem Passes.refl (m : Map κ ν) : m.Passes m := ⟨.refl m, fun _ => .refl _⟩

theorem Swaps.passes {m m' : Map κ ν} {i : Nat} {d : Shard κ ν} (h : m.Swaps i d m')
    (hd : (m.shardAt i).Passes d) : m.Passes m' := by
  refine ⟨h.toSameShape, fun j => ?_⟩
  by_cases hj : j = i
  · rw [hj, h.here]
    exact hd
  · rw [h.others j hj]
    exact .refl _

/-- The items of a table, current or set aside, are where the hashes of their keys lead. -/
theorem Fit.placed {held : Bool} {m : Map κ ν} (h : m.Fit held) {i g : Nat}
    (hi : i < m.shards.size) {x : Item κ ν} (hx : x ∈ (m.tableAt i g).items) :
    (m.route (m.hash x.key)).shard = i ∧ (m.route (m.hash x.key)).hash = x.hash := by
  obtain ⟨_, _, htable⟩ := (h.shards i hi).tableAt g
  have hx' : x ∈ ((m.shardAt i).tableAt g).shelves.flatten := hx
  rw [mem_flatten_iff] at hx'
  obtain ⟨j, l, hl, hx'⟩ := hx'
  have hplace := (htable.shelved.placed j l hl x hx').1
  have hshard := shard_of_placeIn hplace
  refine ⟨hshard, ?_⟩
  rw [← hshard, placeIn_route] at hplace
  exact Option.some.inj hplace

theorem Fit.placed_current {held : Bool} {m : Map κ ν} (h : m.Fit held) {i : Nat}
    (hi : i < m.shards.size) {x : Item κ ν} (hx : x ∈ (m.shardAt i).table.items) :
    (m.route (m.hash x.key)).shard = i ∧ (m.route (m.hash x.key)).hash = x.hash := by
  have hcurrent := tableAt_current (m := m) (Nat.le_refl (m.shardAt i).aside.size)
  exact h.placed hi (hcurrent ▸ hx)

/-- No two items of a fit map have equal keys. -/
theorem Fit.nodup {held : Bool} {m : Map κ ν} (h : m.Fit held) :
    (m.items.map (·.key)).Nodup := by
  rw [items_eq_flatten]
  -- a key names its shard
  refine nodup_keys_flatten (fun k => (m.route (m.hash k)).shard) fun i l hl => ?_
  rw [getElem?_holdings] at hl
  split at hl
  · rename_i hi
    obtain rfl := Option.some.inj hl
    exact ⟨(h.shards i hi).table.shelved.nodup_flatten,
      fun x hx => (h.placed_current hi hx).1⟩
  · simp at hl

theorem shard_guards_lt {m : Map κ ν} {i : Nat} (hguards : 0 < (m.shardAt i).guards) :
    i < m.shards.size := by
  refine Nat.lt_of_not_le fun hle => ?_
  unfold shardAt at hguards
  rw [Array.getD_eq_getD_getElem?, Array.getElem?_eq_none hle] at hguards
  exact absurd hguards (Nat.lt_irrefl 0)

/-- What passes over a map is followed, with the map that it comes to as the one moment. -/
theorem Passes.tracks {held held' : Bool} {m m' : Map κ ν} (h : m.Passes m') (hm : m.Fit held)
    (hm' : m'.Fit held') : m.Tracks [m'] m' := by
  refine ⟨h.toSameShape, fun i => ⟨(h.shards i).guards_eq, fun _ => (h.shards i).aside_le,
    (h.shards i).size_eq, fun hguards g hg => ⟨fun x hx => ?_, fun x hx hall => ?_⟩⟩,
    ⟨fun x hx => .inr ⟨m', List.mem_singleton_self m', hx⟩, fun x _ hall => ?_⟩⟩
  · have hi := shard_guards_lt hguards
    rcases (h.shards i).fresh hguards g hg x hx with hx | hx
    · exact .inl hx
    · exact .inr ⟨m', List.mem_singleton_self m', mem_items.mpr ⟨i, h.size_eq ▸ hi, hx⟩⟩
  · have hi := shard_guards_lt hguards
    obtain ⟨i', hi', hx'⟩ := mem_items.mp (hall m' (List.mem_singleton_self m'))
    -- the key names the shard, so the item is in the current table of the same shard
    have hold := (hm.placed hi hx).1
    have hnew := (hm'.placed_current hi' hx').1
    rw [h.hash_eq, h.route_eq, hold] at hnew
    subst hnew
    exact (h.shards i).kept hguards g hg x hx hx'
  · exact hall m' (List.mem_singleton_self m')

end Map

end VersionedMap
