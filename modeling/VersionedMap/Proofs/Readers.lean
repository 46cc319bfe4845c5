import VersionedMap.Bucket.Session
import VersionedMap.Proofs.Reclamation

/-!
# The readers of a session

A session holds its readers under numbers of its own, each with the publication that it
holds. For the counts of a bucket only the number of readers of each publication matters.
-/

namespace VersionedMap

namespace Numbered

variable {α β : Type}

/-- The numbers under which something is held. -/
def numbers (s : Numbered α) : List Nat := s.toList.map (·.1)

/-- What is held, without the numbers. -/
def values (s : Numbered α) : List α := s.toList.map (·.2)

/-- The same with other things held. -/
def map (f : α → β) (s : Numbered α) : Numbered β := s.toList.map fun e => (e.1, f e.2)

theorem get?_eq_none {s : Numbered α} {n : Nat} (h : s.get? n = none) :
    ∀ e ∈ s.toList, e.1 ≠ n := by
  intro e he hn
  unfold get? at h
  rw [Option.map_eq_none_iff, List.find?_eq_none] at h
  exact h e he (by simpa using hn)

theorem mem_of_get? {s : Numbered α} {n : Nat} {a : α} (h : s.get? n = some a) :
    (n, a) ∈ s.toList := by
  unfold get? at h
  obtain ⟨e, he, rfl⟩ := Option.map_eq_some_iff.mp h
  have hn : e.1 = n := by simpa using List.find?_some he
  rw [← hn]
  exact List.mem_of_find?_eq_some he

theorem perm_set {s : Numbered α} {n : Nat} (h : s.get? n = none) (a : α) :
    (s.set n a).toList.Perm ((n, a) :: s.toList) := by
  have hne := get?_eq_none h
  -- the number is free, so the rest is before it or after it
  have hsides : s.toList.filter (n < ·.1) = s.toList.filter fun e => !decide (e.1 < n) := by
    refine List.filter_congr fun e he => ?_
    have := hne e he
    by_cases hlt : e.1 < n
    · simp [hlt, Nat.le_of_lt hlt]
    · simp [hlt]
      omega
  have hall := List.filter_append_perm (fun e : Nat × α => decide (e.1 < n)) s.toList
  show (s.toList.filter (·.1 < n) ++ (n, a) :: s.toList.filter (n < ·.1)).Perm _
  rw [hsides]
  exact List.perm_middle.trans (hall.cons _)

theorem perm_erase {s : Numbered α} (hs : s.numbers.Nodup) {n : Nat} {a : α}
    (h : s.get? n = some a) : s.toList.Perm ((n, a) :: (s.erase n).toList) := by
  have hmem := mem_of_get? h
  obtain ⟨l₁, l₂, hl⟩ := List.append_of_mem hmem
  have hnodup : (l₁.map (·.1) ++ n :: l₂.map (·.1)).Nodup := by
    have := hs
    unfold numbers at this
    rwa [hl, List.map_append, List.map_cons] at this
  -- the number occurs once, so that erasing it removes this entry only
  have hout : ∀ e ∈ l₁ ++ l₂, e.1 ≠ n := by
    intro e he hn
    have hmid := (List.perm_middle.nodup_iff.mp hnodup)
    rw [List.nodup_cons, ← List.map_append] at hmid
    exact hmid.1 (List.mem_map.mpr ⟨e, he, hn⟩)
  have herase : (s.erase n).toList = l₁ ++ l₂ := by
    show s.toList.filter (·.1 != n) = _
    rw [hl, List.filter_append, List.filter_cons_of_neg (by simp), ← List.filter_append]
    exact List.filter_eq_self.mpr fun e he => by simpa using hout e he
  rw [herase, hl]
  exact List.perm_middle

theorem nodup_set {s : Numbered α} (hs : s.numbers.Nodup) {n : Nat} (h : s.get? n = none)
    (a : α) : (s.set n a).numbers.Nodup := by
  have hperm := (perm_set h a).map (·.1)
  refine hperm.nodup_iff.mpr (List.nodup_cons.mpr ⟨fun hmem => ?_, hs⟩)
  obtain ⟨e, he, hn⟩ := List.mem_map.mp hmem
  exact get?_eq_none h e he hn

theorem nodup_erase {s : Numbered α} (hs : s.numbers.Nodup) (n : Nat) :
    (s.erase n).numbers.Nodup :=
  hs.sublist ((List.filter_sublist).map _)

theorem get?_map (f : α → β) (s : Numbered α) (n : Nat) :
    (s.map f).get? n = (s.get? n).map f := by
  have hfind : (s.map f).toList.find? (·.1 == n)
      = (s.toList.find? (·.1 == n)).map fun e => (e.1, f e.2) := by
    show (s.toList.map fun e => (e.1, f e.2)).find? _ = _
    rw [List.find?_map]
    rfl
  unfold get?
  rw [hfind, Option.map_map, Option.map_map]
  rfl

theorem map_set (f : α → β) (s : Numbered α) (n : Nat) (a : α) :
    (s.set n a).map f = (s.map f).set n (f a) := by
  show List.map _ (s.toList.filter (·.1 < n) ++ (n, a) :: s.toList.filter (n < ·.1)) = _
  rw [List.map_append, List.map_cons]
  show _ = (s.toList.map fun e => (e.1, f e.2)).filter (·.1 < n)
    ++ (n, f a) :: (s.toList.map fun e => (e.1, f e.2)).filter (n < ·.1)
  rw [List.filter_map, List.filter_map]
  rfl

theorem map_erase (f : α → β) (s : Numbered α) (n : Nat) :
    (s.erase n).map f = (s.map f).erase n := by
  show List.map _ (s.toList.filter (·.1 != n)) = _
  show _ = (s.toList.map fun e => (e.1, f e.2)).filter (·.1 != n)
  rw [List.filter_map]
  rfl

theorem map_congr {f g : α → β} {s : Numbered α} (h : ∀ a ∈ s.values, f a = g a) :
    s.map f = s.map g := by
  refine List.map_congr_left fun e he => ?_
  rw [h e.2 (List.mem_map.mpr ⟨e, he, rfl⟩)]

theorem mem_values {s : Numbered α} {n : Nat} {a : α} (h : s.get? n = some a) :
    a ∈ s.values :=
  List.mem_map.mpr ⟨_, mem_of_get? h, rfl⟩

end Numbered

namespace Bucket.Session

variable {κ ν : Type}

/-- How many readers hold a publication. -/
def held (s : Session κ ν) (n : Nat) : Nat := s.readers.values.count n

theorem held_ne_zero {s : Session κ ν} {n : Nat} : s.held n ≠ 0 ↔ n ∈ s.readers.values := by
  unfold held
  rw [Nat.ne_zero_iff_zero_lt, List.count_pos_iff]

theorem held_set {s t : Session κ ν} {r n : Nat} (hfree : s.readers.get? r = none)
    (ht : t.readers = s.readers.set r n) : t.held = more s.held n := by
  funext m
  have hcount := ((Numbered.perm_set hfree n).map (·.2)).count_eq m
  unfold held more Numbered.values
  rw [ht, hcount, List.map_cons, List.count_cons]
  by_cases hm : m = n
  · simp [hm]
  · simp [hm, Ne.symm hm]

theorem held_erase {s t : Session κ ν} (hs : s.readers.numbers.Nodup) {r n : Nat}
    (hheld : s.readers.get? r = some n) (ht : t.readers = s.readers.erase r) :
    t.held = fewer s.held n := by
  funext m
  have hcount := ((Numbered.perm_erase hs hheld).map (·.2)).count_eq m
  rw [List.map_cons, List.count_cons] at hcount
  have hs' : s.held m = (s.readers.toList.map (·.2)).count m := rfl
  have ht' : t.held m = ((s.readers.erase r).toList.map (·.2)).count m := by rw [← ht]; rfl
  unfold fewer
  rw [ht', hs', hcount]
  by_cases hm : m = n
  · simp [hm]
  · simp [hm, Ne.symm hm]

end Bucket.Session

end VersionedMap
