import VersionedMap.Proofs.Filling

/-!
# Chronicles

The **chronicle** of a shard has its items in the order in which they were last placed. It says how
every shelf is filled, whatever their number: a shelf has the items of its hashes, in the order of
the chronicle. Splitting a shelf in two does not change that order, so that growth shows in the
number of shelves only.

A mutation goes by the items of one hash. It can be carried out in the chronicle as well, with the
same answer, and what it does there it does on the shelf.
-/

namespace VersionedMap

variable {κ ν α : Type}

/-! ## Shelving -/

theorem shelve_nil (n : Nat) : shelve ([] : List (Item κ ν)) n = .replicate n [] := by
  refine List.eq_replicate_iff.mpr ⟨length_shelve [] n, fun l hl => ?_⟩
  obtain ⟨j, _, rfl⟩ := List.mem_map.mp hl
  rfl

/-- Splitting every shelf in two shelves the same chronicle. -/
theorem doubled_shelve {n e : Nat} (hn : n = 2 ^ e) (l : List (Item κ ν)) :
    doubled (shelve l n) = shelve l (2 * n) := by
  have hpos : 0 < n := hn ▸ Nat.two_pow_pos e
  unfold doubled
  rw [length_shelve]
  refine List.map_congr_left fun j _ => ?_
  have hj : j &&& (n - 1) < n := Nat.lt_of_le_of_lt Nat.and_le_right (by omega)
  rw [List.getD_eq_getElem?_getD, getElem?_shelve l hj, Option.getD_some, List.filter_filter]
  refine List.filter_congr fun i _ => ?_
  -- what goes to the new shelf comes from the old one
  by_cases hi : slot (2 * n) i.hash = j
  · have hold := slot_double hn i.hash
    rw [hi] at hold
    simp [hi, hold]
  · simp [hi]

theorem shelve_cons (x : Item κ ν) (l : List (Item κ ν)) (n : Nat) :
    shelve (x :: l) n = (shelve l n).set (slot n x.hash)
      (x :: l.filter fun i => slot n i.hash == slot n x.hash) := by
  refine List.ext_getElem? fun j => ?_
  by_cases hj : j < n
  · rw [getElem?_shelve _ hj, List.getElem?_set, length_shelve, List.filter_cons]
    by_cases hx : slot n x.hash = j
    · rw [if_pos (by simp [hx]), if_pos hx, hx, if_pos hj]
    · rw [if_neg (by simp [hx]), if_neg hx, getElem?_shelve _ hj]
  · rw [List.getElem?_eq_none (by rw [length_shelve]; omega),
      List.getElem?_eq_none (by rw [List.length_set, length_shelve]; omega)]

theorem perm_flatten_set {L : List (List α)} {j : Nat} {l : List α} (x : α)
    (hl : L[j]? = some l) : (L.set j (x :: l)).flatten.Perm (x :: L.flatten) := by
  induction L generalizing j with
  | nil => simp at hl
  | cons m L ih =>
    cases j with
    | zero =>
      obtain rfl : m = l := by simpa using hl
      exact .refl _
    | succ j =>
      have hrest := ih (j := j) (by simpa using hl)
      exact (hrest.append_left m).trans List.perm_middle

/-- On shelves there are the items of the chronicle, in another order. -/
theorem perm_shelve {n : Nat} (hn : 0 < n) (l : List (Item κ ν)) :
    (shelve l n).flatten.Perm l := by
  induction l with
  | nil =>
    rw [shelve_nil, List.flatten_replicate_nil]
  | cons x l ih =>
    rw [shelve_cons]
    exact (perm_flatten_set x (getElem?_shelve l (slot_lt hn x.hash))).trans (ih.cons x)

/-- What stands on shelves, one after another, is a chronicle of them. -/
theorem Shelved.shelve_flatten {place : κ → Option UInt32} {shelves : List (List (Item κ ν))}
    (h : Shelved place shelves) : shelve shelves.flatten shelves.length = shelves := by
  refine List.ext_getElem? fun j => ?_
  by_cases hj : j < shelves.length
  · have hget := List.getElem?_eq_getElem hj
    rw [getElem?_shelve _ hj, hget]
    exact congrArg some (filter_flatten_of_name (fun j l hl x hx => (h.placed j l hl x hx).2) hget)
  · rw [List.getElem?_eq_none (by rw [length_shelve]; omega),
      List.getElem?_eq_none (by omega)]

/-! ## Mutations of a list -/

theorem eraseP_filter_of_imp {p q : α → Bool} (h : ∀ x, q x = true → p x = true) (l : List α) :
    (l.filter p).eraseP q = (l.eraseP q).filter p := by
  induction l with
  | nil => rfl
  | cons x l ih =>
    cases hq : q x with
    | true => rw [List.filter_cons_of_pos (h x hq), List.eraseP_cons_of_pos hq,
        List.eraseP_cons_of_pos hq]
    | false =>
      rw [List.eraseP_cons_of_neg (by simp [hq])]
      cases hp : p x with
      | true => rw [List.filter_cons_of_pos hp, List.filter_cons_of_pos hp,
          List.eraseP_cons_of_neg (by simp [hq]), ih]
      | false => rw [List.filter_cons_of_neg (by simp [hp]),
          List.filter_cons_of_neg (by simp [hp]), ih]

theorem filter_eraseP_of_not {p q : α → Bool} (h : ∀ x, q x = true → p x = false) (l : List α) :
    (l.eraseP q).filter p = l.filter p := by
  induction l with
  | nil => rfl
  | cons x l ih =>
    cases hq : q x with
    | true => rw [List.eraseP_cons_of_pos hq, List.filter_cons_of_neg (by simp [h x hq])]
    | false => rw [List.eraseP_cons_of_neg (by simp [hq]), List.filter_cons, List.filter_cons, ih]

theorem find?_filter_of_imp {p q : α → Bool} (h : ∀ x, q x = true → p x = true) (l : List α) :
    (l.filter p).find? q = l.find? q := by
  rw [List.find?_filter]
  refine congrArg (l.find? ·) (funext fun x => ?_)
  cases hq : q x with
  | true => simp [h x hq]
  | false => simp

/-- What a mutation does to the items of a list. -/
abbrev Redaction (κ ν α : Type) : Type := List (Item κ ν) → (α × Change) × List (Item κ ν)

namespace Redaction

/-- A mutation that goes by the items of one hash, and leaves the others as they are. -/
structure Local (e : Redaction κ ν α) (hash : UInt32) : Prop where
  result_eq : ∀ p : Item κ ν → Bool, (∀ i, i.hash = hash → p i = true) →
    ∀ l, (e (l.filter p)).1 = (e l).1
  filter_eq : ∀ p : Item κ ν → Bool, (∀ i, i.hash = hash → p i = true) →
    ∀ l, (e (l.filter p)).2 = (e l).2.filter p
  others : ∀ p : Item κ ν → Bool, (∀ i, i.hash = hash → p i = false) →
    ∀ l, (e l).2.filter p = l.filter p

/-- With the items of a hash on one shelf, a mutation of the chronicle is one of the shelf. -/
theorem Local.shelve_eq {e : Redaction κ ν α} {hash : UInt32} (h : e.Local hash)
    (l : List (Item κ ν)) (n : Nat) :
    (shelve l n).set (slot n hash) (e (l.filter fun i => slot n i.hash == slot n hash)).2
      = shelve (e l).2 n := by
  refine List.ext_getElem? fun j => ?_
  by_cases hj : j < n
  · rw [getElem?_shelve _ hj, List.getElem?_set, length_shelve]
    by_cases hslot : slot n hash = j
    · rw [if_pos hslot, if_pos (hslot ▸ hj), h.filter_eq _ (fun i hi => by simp [hi]), hslot]
    · rw [if_neg hslot, getElem?_shelve _ hj, h.others _ fun i hi => by simp [hi, hslot]]
  · rw [List.getElem?_eq_none (by rw [List.length_set, length_shelve]; omega),
      List.getElem?_eq_none (by rw [length_shelve]; omega)]

/-- Removes the first item that answers a query. -/
def delete (q : Query κ) : Redaction κ ν (Option ν) := fun l =>
  match l.find? q.selects with
  | none => ((none, .unchanged), l)
  | some i => ((some i.value, .removed), l.eraseP q.selects)

/-- Puts an item at the end, in place of the first that answers a query. -/
def place [DecidableEq κ] (hash : UInt32) (k : κ) (v : ν) : Redaction κ ν (Option ν) := fun l =>
  (((l.find? (Query.exactly hash k).selects).map (·.value),
      if (l.find? (Query.exactly hash k).selects).isNone then .inserted else .unchanged),
    l.eraseP (Query.exactly hash k).selects ++ [⟨hash, k, v⟩])

/-- Puts an item at the end if no item answers a query; `a` makes the answer of the one found. -/
def placeAbsent [DecidableEq κ] (hash : UInt32) (k : κ) (v : ν) (a : Option (Item κ ν) → α) :
    Redaction κ ν α := fun l =>
  match l.find? (Query.exactly hash k).selects with
  | some i => ((a (some i), .unchanged), l)
  | none => ((a none, .inserted), l ++ [⟨hash, k, v⟩])

theorem selects_hash {q : Query κ} {i : Item κ ν} (h : q.selects i = true) : i.hash = q.hash := by
  unfold Query.selects at h
  simpa using (Bool.and_eq_true_iff.mp h).1

theorem find?_local {q : Query κ} {p : Item κ ν → Bool} (hp : ∀ i, i.hash = q.hash → p i = true)
    (l : List (Item κ ν)) : (l.filter p).find? q.selects = l.find? q.selects :=
  find?_filter_of_imp (fun _ hx => hp _ (selects_hash hx)) l

theorem local_delete (q : Query κ) : (delete (ν := ν) q).Local q.hash where
  result_eq p hp l := by
    unfold delete
    rw [find?_local hp]
    cases l.find? q.selects <;> rfl
  filter_eq p hp l := by
    unfold delete
    rw [find?_local hp]
    cases l.find? q.selects with
    | none => rfl
    | some i => exact eraseP_filter_of_imp (fun _ hx => hp _ (selects_hash hx)) l
  others p hp l := by
    unfold delete
    cases l.find? q.selects with
    | none => rfl
    | some i => exact filter_eraseP_of_not (fun _ hx => hp _ (selects_hash hx)) l

variable [DecidableEq κ]

theorem local_place (hash : UInt32) (k : κ) (v : ν) : (place hash k v).Local hash where
  result_eq p hp l := by
    unfold place
    rw [find?_local hp]
  filter_eq p hp l := by
    unfold place
    dsimp only
    rw [List.filter_append, eraseP_filter_of_imp fun _ hx => hp _ (selects_hash hx),
      List.filter_cons_of_pos (hp _ rfl)]
    rfl
  others p hp l := by
    unfold place
    dsimp only
    rw [List.filter_append, filter_eraseP_of_not fun _ hx => hp _ (selects_hash hx),
      List.filter_cons_of_neg (by rw [hp _ rfl]; simp)]
    exact List.append_nil _

theorem local_placeAbsent (hash : UInt32) (k : κ) (v : ν) (a : Option (Item κ ν) → α) :
    (placeAbsent hash k v a).Local hash where
  result_eq p hp l := by
    unfold placeAbsent
    rw [find?_local hp]
    cases l.find? (Query.exactly hash k).selects <;> rfl
  filter_eq p hp l := by
    unfold placeAbsent
    rw [find?_local hp]
    cases l.find? (Query.exactly hash k).selects with
    | some i => rfl
    | none =>
      dsimp only
      rw [List.filter_append, List.filter_cons_of_pos (hp _ rfl)]
      rfl
  others p hp l := by
    unfold placeAbsent
    cases l.find? (Query.exactly hash k).selects with
    | some i => rfl
    | none =>
      dsimp only
      rw [List.filter_append, List.filter_cons_of_neg (by rw [hp _ rfl]; simp)]
      exact List.append_nil _

end Redaction

namespace Mutation

/-- In a bucket a mutation does what `e` does to the list of its items. -/
def Redacts (f : Mutation κ ν α) (e : Redaction κ ν α) : Prop :=
  ∀ (b : Bucket κ ν) (s : Shared κ ν), s.pool.IsClean →
    (f b s).1 = (e b.items).1 ∧ (f b s).2.1.items = (e b.items).2

theorem redacts_delete (q : Query κ) : (delete (ν := ν) q).Redacts (.delete q) := by
  intro b s hs
  unfold delete Redaction.delete
  rw [Bucket.find?_eq]
  cases hfind : b.items.find? q.selects with
  | none => exact ⟨rfl, rfl⟩
  | some i =>
    have hout := Bucket.remove_fst q b s
    dsimp only
    rw [hout, hfind]
    exact ⟨rfl, Bucket.items_remove q b hs⟩

variable [DecidableEq κ]

theorem redacts_set (hash : UInt32) (k : κ) (v : ν) :
    (set hash k v).Redacts (.place hash k v) := by
  intro b s hs
  unfold set Redaction.place
  dsimp only
  rw [Bucket.replace_fst]
  exact ⟨rfl, Bucket.items_replace _ _ b hs⟩

theorem redacts_setAbsent (hash : UInt32) (k : κ) (v : ν) :
    (setAbsent hash k v).Redacts (.placeAbsent hash k v Option.isNone) := by
  intro b s hs
  unfold setAbsent Redaction.placeAbsent
  rw [Bucket.find?_eq]
  cases b.items.find? (Query.exactly hash k).selects with
  | some i => exact ⟨rfl, rfl⟩
  | none => exact ⟨rfl, Bucket.items_add _ b hs⟩

theorem redacts_getOrSet (hash : UInt32) (k : κ) (v : ν) :
    (getOrSet hash k v).Redacts
      (.placeAbsent hash k v fun i => ((i.map (·.value)).getD v, i.isSome)) := by
  intro b s hs
  unfold getOrSet Redaction.placeAbsent
  rw [Bucket.find?_eq]
  cases b.items.find? (Query.exactly hash k).selects with
  | some i => exact ⟨rfl, rfl⟩
  | none => exact ⟨rfl, Bucket.items_add _ b hs⟩

end Mutation

end VersionedMap
