import VersionedMap.Proofs.Clients
import VersionedMap.Proofs.Crew
import VersionedMap.Proofs.Filling

/-!
# Chores

A **chore** is an operation on one key: it goes by the value of its key, and turns it into another
one. So what it answers can be told from that value, whether it is carried out at once or, by the
member of a crew, in turns. Growth, which may come between, changes no value.
-/

namespace VersionedMap

variable {κ ν α : Type}

/-! ## Chores and what they do -/

/-- What can be done to a key. -/
inductive Job (ν : Type)
  | set (v : ν)
  | swap (v : ν)
  | setAbsent (v : ν)
  | getOrSet (v : ν)
  | delete
  | get
  | contains

/-- Something to be done to a key. -/
structure Chore (κ ν : Type) where
  key : κ
  job : Job ν

namespace Job

/-- What is answered where a key has a value, and what value it has then. -/
def spec : Job ν → Option ν → Answer κ ν × Option ν
  | .set v, _ => (.nothing, some v)
  | .swap v, old => (.value old, some v)
  | .setAbsent v, old => (.flag old.isNone, some (old.getD v))
  | .getOrSet v, old => (.found (old.getD v) old.isSome, some (old.getD v))
  | .delete, old => (.value old, none)
  | .get, old => (.value old, old)
  | .contains, old => (.flag old.isSome, old)

theorem spec_ne_refused (j : Job ν) (old : Option ν) (why : Refusal) :
    (j.spec old : Answer κ ν × Option ν).1 ≠ .refused why := by
  cases j <;> simp [spec]

end Job

namespace Chore

/-- A chore as an operation that is carried out at once. -/
def act : Chore κ ν → Act κ ν
  | ⟨k, .set v⟩ => .set k v
  | ⟨k, .swap v⟩ => .swap k v
  | ⟨k, .setAbsent v⟩ => .setAbsent k v
  | ⟨k, .getOrSet v⟩ => .getOrSet k v
  | ⟨k, .delete⟩ => .delete k
  | ⟨k, .get⟩ => .get k
  | ⟨k, .contains⟩ => .contains k

variable [DecidableEq κ]

/-- A chore as an order to the member of a crew. -/
def order (hash : κ → UInt64) : Chore κ ν → Order κ ν
  | ⟨k, .set v⟩ => .deed (.set k v)
  | ⟨k, .swap v⟩ => .deed (.swap k v)
  | ⟨k, .setAbsent v⟩ => .deed (.setAbsent k v)
  | ⟨k, .getOrSet v⟩ => .deed (.getOrSet k v)
  | ⟨k, .delete⟩ => .deed (.delete ⟨hash k, (k = ·)⟩)
  | ⟨k, .get⟩ => .get ⟨hash k, (k = ·)⟩
  | ⟨k, .contains⟩ => .contains ⟨hash k, (k = ·)⟩

theorem answer_act (c : Chore κ ν) (F : Finmap fun _ : κ => ν) :
    c.act.answer F = (c.job.spec (F.lookup c.key)).1 := by
  obtain ⟨k, j⟩ := c
  cases j <;> rfl

theorem lookup_after (c : Chore κ ν) (F : Finmap fun _ : κ => ν) (k : κ) :
    (c.act.after F).lookup k =
      if k = c.key then (c.job.spec (F.lookup c.key) : Answer κ ν × Option ν).2
      else F.lookup k := by
  obtain ⟨key, j⟩ := c
  have hinsert (v : ν) : (F.insert key v).lookup k = if k = key then some v else F.lookup k := by
    split
    · rename_i hk
      rw [hk, Finmap.lookup_insert]
    · rename_i hk
      exact Finmap.lookup_insert_of_ne F hk
  have hself : F.lookup k = if k = key then F.lookup key else F.lookup k := by
    split
    · rename_i hk
      rw [hk]
    · rfl
  cases j with
  | set v | swap v => exact hinsert v
  | setAbsent v | getOrSet v => exact Map.lookup_insertAbsent F key k v
  | delete =>
    show (F.erase key).lookup k = if k = key then none else F.lookup k
    split
    · rename_i hk
      rw [hk, Finmap.lookup_erase]
    · rename_i hk
      exact Finmap.lookup_erase_ne hk
  | get | contains => exact hself

end Chore

/-! ## The values of a map -/

namespace Map

variable [DecidableEq κ] {m : Map κ ν}

/-- What a map shows of a key. -/
def valueAt (m : Map κ ν) (k : κ) : Option ν := valueOf m.items k

theorem dlookup_items (l : List (Item κ ν)) (k : κ) :
    List.dlookup k (l.map fun i => (⟨i.key, i.value⟩ : Sigma fun _ : κ => ν)) = valueOf l k := by
  unfold valueOf
  induction l with
  | nil => rfl
  | cons i l ih =>
    rw [List.map_cons, List.find?_cons]
    by_cases hk : i.key = k
    · subst hk
      rw [List.dlookup_cons_eq]
      simp
    · rw [List.dlookup_cons_ne _ _ (Ne.symm hk), ih]
      simp [hk]

/-- A sound map represents the finite map of its items. -/
theorem Sound.represents (h : m.Sound) : ∃ F, m.Represents F := by
  refine ⟨(m.items.map fun i => (⟨i.key, i.value⟩ : Sigma fun _ : κ => ν)).toFinmap, h, fun k => ?_⟩
  rw [Finmap.dlookup_list_toFinmap, dlookup_items]

/-- From `m` to `m'` a chore is done: the value of its key is what it is turned into. -/
structure Does (m : Map κ ν) (c : Chore κ ν) (m' : Map κ ν) : Prop where
  sound : m'.Sound
  value_eq : ∀ k, m'.valueAt k =
    if k = c.key then (c.job.spec (m.valueAt c.key) : Answer κ ν × Option ν).2 else m.valueAt k

theorem Represents.does {F : Finmap fun _ : κ => ν} (h : m.Represents F) {c : Chore κ ν}
    {m' : Map κ ν} (h' : m'.Represents (c.act.after F)) : m.Does c m' where
  sound := h'.sound
  value_eq k := by
    unfold valueAt
    rw [← h'.lookup_eq, c.lookup_after, h.lookup_eq, h.lookup_eq]

end Map

/-! ## Alone -/

section Alone

variable [DecidableEq κ] {m : Map κ ν}

/-- What operations answer that are carried out one after another, and the map then. -/
def alone : List (Chore κ ν) → Map κ ν → List (Answer κ ν) × Map κ ν
  | [], m => ([], m)
  | c :: l, m =>
    let (a, m) := Attempt.settle (c.act.run m)
    let (as, m) := alone l m
    (a :: as, m)

/-- A chore that is carried out at once. -/
theorem Chore.settle_run (c : Chore κ ν) (h : m.Sound) :
    (Attempt.settle (c.act.run m)).1 = (c.job.spec (m.valueAt c.key)).1 ∧
      m.Does c (Attempt.settle (c.act.run m)).2 := by
  obtain ⟨F, hrep⟩ := h.represents
  obtain ⟨m', hrun, hrep'⟩ := c.act.run_faithful hrep
  rw [hrun]
  refine ⟨?_, hrep.does hrep'⟩
  show c.act.answer F = _
  rw [c.answer_act, hrep.lookup_eq]
  rfl

theorem alone_concat (l : List (Chore κ ν)) (c : Chore κ ν) (m : Map κ ν) :
    alone (l ++ [c]) m = ((alone l m).1 ++ [(Attempt.settle (c.act.run (alone l m).2)).1],
      (Attempt.settle (c.act.run (alone l m).2)).2) := by
  induction l generalizing m with
  | nil => rfl
  | cons c' l ih =>
    show ((Attempt.settle (c'.act.run m)).1 :: (alone (l ++ [c]) _).1, (alone (l ++ [c]) _).2) = _
    rw [ih]
    rfl

theorem Map.Sound.alone (h : m.Sound) (l : List (Chore κ ν)) : (alone l m).2.Sound := by
  induction l generalizing m with
  | nil => exact h
  | cons c l ih => exact ih (c.settle_run h).2.sound

/-- One chore more, after those that were carried out before. -/
theorem alone_next (h : m.Sound) (l : List (Chore κ ν)) (c : Chore κ ν) :
    (alone (l ++ [c]) m).1 = (alone l m).1 ++ [(c.job.spec ((alone l m).2.valueAt c.key)).1] ∧
      (alone l m).2.Does c (alone (l ++ [c]) m).2 := by
  obtain ⟨hanswer, hdoes⟩ := c.settle_run (h.alone l)
  rw [alone_concat]
  exact ⟨by rw [hanswer], hdoes⟩

theorem length_alone (l : List (Chore κ ν)) (m : Map κ ν) : (alone l m).1.length = l.length := by
  induction l generalizing m with
  | nil => rfl
  | cons c l ih => exact congrArg (· + 1) (ih _)

theorem alone_prefix (l l' : List (Chore κ ν)) (m : Map κ ν) :
    (alone l m).1 <+: (alone (l ++ l') m).1 := by
  induction l generalizing m with
  | nil => exact List.nil_prefix
  | cons c l ih => exact List.cons_prefix_cons.mpr ⟨rfl, ih _⟩

theorem alone_ne_refused (h : m.Sound) (l : List (Chore κ ν)) (why : Refusal) :
    .refused why ∉ (alone l m).1 := by
  induction l generalizing m with
  | nil => simp [alone]
  | cons c l ih =>
    obtain ⟨hanswer, hdoes⟩ := c.settle_run h
    intro hmem
    rcases List.mem_cons.mp hmem with heq | hmem
    · exact c.job.spec_ne_refused _ why (hanswer.symm.trans heq.symm)
    · exact ih hdoes.sound hmem

/-- What chores are for, one after another: the answers, and the values of all keys then. -/
def foretold : List (Chore κ ν) → (κ → Option ν) → List (Answer κ ν) × (κ → Option ν)
  | [], f => ([], f)
  | c :: l, f =>
    let (a, w) := c.job.spec (f c.key)
    let (as, f) := foretold l fun k => if k = c.key then w else f k
    (a :: as, f)

/-- Chores that are carried out alone come to what they are for. -/
theorem alone_foretold (h : m.Sound) (l : List (Chore κ ν)) :
    (alone l m).1 = (foretold l m.valueAt).1 ∧
      (alone l m).2.valueAt = (foretold l m.valueAt).2 := by
  induction l generalizing m with
  | nil => exact ⟨rfl, rfl⟩
  | cons c l ih =>
    obtain ⟨hanswer, hdoes⟩ := c.settle_run h
    obtain ⟨hanswers, hvalues⟩ := ih hdoes.sound
    rw [funext (f := Map.valueAt _) hdoes.value_eq] at hanswers hvalues
    refine ⟨?_, hvalues⟩
    show (Attempt.settle (c.act.run m)).1 :: (alone l (Attempt.settle (c.act.run m)).2).1 = _
    rw [hanswer, hanswers]
    rfl

end Alone

end VersionedMap
