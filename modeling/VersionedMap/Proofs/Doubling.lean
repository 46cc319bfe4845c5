import VersionedMap.Proofs.Dealing

/-!
# Growth loses nothing

A grown table has two shelves for each shelf of the old one, as long as every item has stood on
the shelf of its hash. Then the items that are dealt out to a new shelf all come from one old
shelf, the one that is named by one bit less of their hash: every item of the old table stands
on exactly one new shelf, and no others do.
-/

namespace VersionedMap

variable {κ ν : Type}

/-- Each shelf split in two, by one more bit of the hash. -/
def doubled (shelves : List (List (Item κ ν))) : List (List (Item κ ν)) :=
  (List.range (2 * shelves.length)).map fun j =>
    (shelves.getD (j &&& (shelves.length - 1)) []).filter fun i =>
      slot (2 * shelves.length) i.hash == j

theorem length_doubled (shelves : List (List (Item κ ν))) :
    (doubled shelves).length = 2 * shelves.length := by
  rw [doubled, List.length_map, List.length_range]

theorem slot_lt {n : Nat} (hn : 0 < n) (hash : UInt32) : slot n hash < n :=
  Nat.lt_of_le_of_lt Nat.and_le_right (Nat.sub_lt hn Nat.one_pos)

/-- Without its highest bit the new slot of a hash is the old one. -/
theorem slot_double {n e : Nat} (hn : n = 2 ^ e) (hash : UInt32) :
    slot (2 * n) hash &&& (n - 1) = slot n hash := by
  have hdouble : 2 * n = 2 ^ (e + 1) := by
    rw [hn, Nat.pow_succ, Nat.mul_comm]
  unfold slot
  rw [hdouble, hn, Nat.and_two_pow_sub_one_eq_mod, Nat.and_two_pow_sub_one_eq_mod,
    Nat.and_two_pow_sub_one_eq_mod]
  exact Nat.mod_mod_of_dvd _ (Nat.pow_dvd_pow 2 (Nat.le_succ e))

theorem mem_doubled_shelf {shelves : List (List (Item κ ν))} {j : Nat} {l : List (Item κ ν)}
    (hl : (doubled shelves)[j]? = some l) {i : Item κ ν} (hi : i ∈ l) :
    slot (2 * shelves.length) i.hash = j ∧
      ∃ m, shelves[j &&& (shelves.length - 1)]? = some m ∧ i ∈ m := by
  rw [doubled, List.getElem?_map] at hl
  obtain ⟨j', hj', rfl⟩ := Option.map_eq_some_iff.mp hl
  obtain rfl : j = j' := (List.getElem?_eq_some_iff.mp hj').2.symm.trans (by simp) |>.symm
  obtain ⟨hmem, hslot⟩ := List.mem_filter.mp hi
  refine ⟨by simpa using hslot, ?_⟩
  rw [List.getD_eq_getElem?_getD] at hmem
  cases hm : shelves[j &&& (shelves.length - 1)]? with
  | none => simp [hm] at hmem
  | some m => exact ⟨m, rfl, by simpa [hm] using hmem⟩

theorem shelved_doubled {place : κ → Option UInt32} {shelves : List (List (Item κ ν))}
    (h : Shelved place shelves) : Shelved place (doubled shelves) where
  size := by
    obtain ⟨e, he⟩ := h.size
    exact ⟨e + 1, by rw [length_doubled, he, Nat.pow_succ, Nat.mul_comm]⟩
  placed := by
    intro j l hl i hi
    obtain ⟨hslot, m, hm, hmem⟩ := mem_doubled_shelf hl hi
    rw [length_doubled]
    exact ⟨(h.placed _ m hm i hmem).1, hslot⟩
  nodup := by
    intro l hl
    rw [doubled] at hl
    obtain ⟨j, _, rfl⟩ := List.mem_map.mp hl
    refine List.Nodup.sublist (List.filter_sublist.map _) ?_
    rw [List.getD_eq_getElem?_getD]
    cases hm : shelves[j &&& (shelves.length - 1)]? with
    | none => exact List.nodup_nil
    | some m => exact h.nodup m (List.mem_iff_getElem?.mpr ⟨_, hm⟩)

/-- The new shelves hold what the old ones held. -/
theorem mem_flatten_doubled {place : κ → Option UInt32} {shelves : List (List (Item κ ν))}
    (h : Shelved place shelves) (i : Item κ ν) :
    i ∈ (doubled shelves).flatten ↔ i ∈ shelves.flatten := by
  rw [mem_flatten_iff, mem_flatten_iff]
  constructor
  · rintro ⟨j, l, hl, hi⟩
    obtain ⟨_, m, hm, hmem⟩ := mem_doubled_shelf hl hi
    exact ⟨_, m, hm, hmem⟩
  · rintro ⟨j, l, hl, hi⟩
    obtain ⟨e, he⟩ := h.size
    obtain ⟨_, hslot⟩ := h.placed j l hl i hi
    have hpos : 0 < 2 * shelves.length := by
      have := (List.getElem?_eq_some_iff.mp hl).1
      omega
    -- the old shelf of an item is what is left of the name of its new one
    have hold :
        shelves.getD (slot (2 * shelves.length) i.hash &&& (shelves.length - 1)) [] = l := by
      rw [slot_double he, hslot, List.getD_eq_getElem?_getD, hl]
      rfl
    refine ⟨slot (2 * shelves.length) i.hash, l.filter fun i' =>
      slot (2 * shelves.length) i'.hash == slot (2 * shelves.length) i.hash, ?_, ?_⟩
    · rw [doubled, List.getElem?_map, List.getElem?_range (slot_lt hpos i.hash)]
      simp only [Option.map_some]
      rw [hold]
    · exact List.mem_filter.mpr ⟨hi, by simp⟩

theorem length_flatten_doubled {place : κ → Option UInt32} {shelves : List (List (Item κ ν))}
    (h : Shelved place shelves) :
    (doubled shelves).flatten.length = shelves.flatten.length := by
  -- both sides have the same members, and none of them twice
  have hnew := (shelved_doubled h).nodup_flatten.of_map
  have hold := h.nodup_flatten.of_map
  exact ((List.perm_ext_iff_of_nodup hnew hold).mpr (mem_flatten_doubled h)).length_eq

/-! ## Dealing out is splitting -/

/-- Every item stands on the shelf of its stored hash. -/
def Placed (shelves : List (List (Item κ ν))) : Prop :=
  ∀ j, (hj : j < shelves.length) → ∀ i ∈ shelves[j], slot shelves.length i.hash = j

theorem Shelved.stored {place : κ → Option UInt32} {shelves : List (List (Item κ ν))}
    (h : Shelved place shelves) : Placed shelves :=
  fun j hj i hi => (h.placed j _ (List.getElem?_eq_getElem hj) i hi).2

/-- Of lists after each other, one is what has its number for a name. -/
theorem filter_flatten_of_name {α : Type} {L : List (List α)} {name : α → Nat}
    (h : ∀ (j : Nat) (l : List α), L[j]? = some l → ∀ x ∈ l, name x = j) {j : Nat} {l : List α}
    (hj : L[j]? = some l) : (L.flatten.filter fun x => name x == j) = l := by
  obtain ⟨hlt, rfl⟩ := List.getElem?_eq_some_iff.mp hj
  have hbefore : ((L.take j).flatten.filter fun x => name x == j) = [] := by
    rw [List.filter_eq_nil_iff]
    intro x hx
    obtain ⟨i, l, hl, hx⟩ := mem_flatten_iff.mp hx
    have hi : i < j := by
      have := (List.getElem?_eq_some_iff.mp hl).1
      rw [List.length_take] at this
      omega
    rw [List.getElem?_take_of_lt hi] at hl
    have hname := h i l hl x hx
    simp
    omega
  have hafter : ((L.drop (j + 1)).flatten.filter fun x => name x == j) = [] := by
    rw [List.filter_eq_nil_iff]
    intro x hx
    obtain ⟨i, l, hl, hx⟩ := mem_flatten_iff.mp hx
    rw [List.getElem?_drop] at hl
    have hname := h _ l hl x hx
    simp
    omega
  have hhere : (L[j].filter fun x => name x == j) = L[j] := by
    rw [List.filter_eq_self]
    intro x hx
    simp [h j L[j] hj x hx]
  conv_lhs => rw [← List.take_append_drop j L, List.drop_eq_getElem_cons hlt]
  rw [List.flatten_append, List.flatten_cons, List.filter_append, List.filter_append, hbefore,
    hhere, hafter, List.nil_append, List.append_nil]

/-- All the items for a new shelf have stood on one old shelf, if they stood where they belong. -/
theorem Placed.shelve_flatten {shelves : List (List (Item κ ν))} (h : Placed shelves) {e : Nat}
    (he : shelves.length = 2 ^ e) :
    shelve shelves.flatten (2 * shelves.length) = doubled shelves := by
  have hname : ∀ (k : Nat) (l : List (Item κ ν)), shelves[k]? = some l →
      ∀ i ∈ l, slot shelves.length i.hash = k := by
    intro k l hl i hi
    obtain ⟨hlt, rfl⟩ := List.getElem?_eq_some_iff.mp hl
    exact h k hlt i hi
  refine List.map_congr_left fun j _ => ?_
  have hold : j &&& (shelves.length - 1) < shelves.length :=
    Nat.lt_of_le_of_lt Nat.and_le_right (Nat.sub_lt (he ▸ Nat.two_pow_pos e) Nat.one_pos)
  have hget := List.getElem?_eq_getElem hold
  -- whose hash names the new shelf, its hash names this old one
  have htwice : (shelves.flatten.filter fun i => slot (2 * shelves.length) i.hash == j) =
      (shelves.flatten.filter fun i =>
        slot shelves.length i.hash == j &&& (shelves.length - 1)).filter fun i =>
          slot (2 * shelves.length) i.hash == j := by
    rw [List.filter_filter]
    refine List.filter_congr fun i _ => ?_
    cases hnew : slot (2 * shelves.length) i.hash == j with
    | false => rfl
    | true => simp [← slot_double he i.hash, eq_of_beq hnew]
  rw [htwice, filter_flatten_of_name hname hget, List.getD_eq_getElem?_getD, hget]
  rfl

namespace Table

variable {t : Table κ ν} {s : Shared κ ν}

/-- To deal out the items of a table in which they stand where they belong is to split it. -/
theorem shelves_grow_eq_doubled (h : t.Ready) (hplaced : VersionedMap.Placed t.shelves) {e : Nat}
    (he : t.size = 2 ^ e) (hs : s.pool.IsClean) : (t.grow s).1.shelves = doubled t.shelves := by
  have hlength := length_shelves t
  have hsplit := hplaced.shelve_flatten (hlength.trans he)
  rw [shelves_grow h hs, items_eq_flatten, ← hsplit, hlength]

/-- What growth makes of a table, and in what state it leaves the old one. -/
theorem grow_spec (h : t.Ready) {place : κ → Option UInt32} (hshelved : Shelved place t.shelves)
    (hs : s.pool.IsClean) :
    (t.grow s).1.shelves = doubled t.shelves ∧ (t.grow s).1.Ready ∧
      (t.grow s).1.count = t.items.length.toUInt64 ∧ (t.grow s).2.1.Ready ∧
      (t.grow s).2.2.pool.IsClean := by
  obtain ⟨e, he⟩ := hshelved.size
  rw [length_shelves] at he
  obtain ⟨hready, hold, hclean⟩ := ready_grow h hs
  exact ⟨shelves_grow_eq_doubled h hshelved.stored he hs, hready, count_grow h hs, hold, hclean⟩

end Table

end VersionedMap
