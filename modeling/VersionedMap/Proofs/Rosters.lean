import VersionedMap.Version.Session

/-!
# A version is a list

A version keeps its first item apart from the others, and its successors are filled in more than
one way: both parts are copied, or the items are pushed one by one with one of them left out. To
whoever uses versions none of this shows. Told without its layout a version is a **roster**, an
identifier, a count, a link and a list of items; a session with versions answers as one with
rosters does, command by command, as long as only versions without items are made successors.
-/

namespace VersionedMap

variable {κ ν α : Type}

/-! ## How a list is laid out -/

namespace Contents

theorem slot_eq (c : Contents α) : c.slot = c.toList.head? := by
  cases hslot : c.slot with
  | none => simp [toList, hslot, c.packed hslot]
  | some a => simp [toList, hslot]

theorem toList_overflow (c : Contents α) : c.overflow.toList = c.toList.tail := by
  cases hslot : c.slot with
  | none => simp [toList, hslot, c.packed hslot]
  | some a => simp [toList, hslot]

/-- A list has one layout only. -/
theorem ext_toList {c d : Contents α} (h : c.toList = d.toList) : c = d := by
  have hslot : c.slot = d.slot := by rw [slot_eq, slot_eq, h]
  have hoverflow : c.overflow = d.overflow := by
    rw [← Array.toList_inj, toList_overflow, toList_overflow, h]
  cases c
  cases d
  cases hslot
  cases hoverflow
  rfl

end Contents

/-! ## The first item that answers -/

theorem eraseP_append_cons {before after : List α} {p : α → Bool} {x : α}
    (hbefore : ∀ y ∈ before, p y = false) (hx : p x = true) :
    (before ++ x :: after).eraseP p = before ++ after := by
  rw [List.eraseP_append_right _ (by simpa using hbefore), List.eraseP_cons_of_pos hx]

/-- What is taken away is the first element that is looked for. -/
theorem exists_eraseP_of_find? {l : List α} {p : α → Bool} {x : α} (h : l.find? p = some x) :
    ∃ before after, l = before ++ x :: after ∧ (∀ y ∈ before, p y = false) ∧
      l.eraseP p = before ++ after := by
  obtain ⟨hx, before, after, rfl, hbefore⟩ := List.find?_eq_some_iff_append.mp h
  have hnone : ∀ y ∈ before, p y = false := by
    intro y hy
    simpa using hbefore y hy
  exact ⟨before, after, rfl, hnone, eraseP_append_cons hnone hx⟩

namespace Query

variable {q : Query κ} {i : Item κ ν}

/-- The item has the hash that is asked for, and a key that is admitted. -/
def Answers (q : Query κ) (i : Item κ ν) : Prop := i.hash = q.hash ∧ q.admits i.key = true

theorem selects_iff : q.selects i = true ↔ q.Answers i := by
  unfold selects Answers
  rw [Bool.and_eq_true, beq_iff_eq]

theorem selects_eq_false_iff : q.selects i = false ↔ ¬ q.Answers i := by
  rw [← selects_iff, Bool.not_eq_true]

/-- `i` is the first item of a list that answers, and stands between `before` and `after`. -/
structure First (q : Query κ) (l before : List (Item κ ν)) (i : Item κ ν)
    (after : List (Item κ ν)) : Prop where
  eq : l = before ++ i :: after
  answers : q.Answers i
  passed : ∀ j ∈ before, ¬ q.Answers j

theorem find?_eq_none_iff {l : List (Item κ ν)} :
    l.find? q.selects = none ↔ ∀ i ∈ l, ¬ q.Answers i := by
  rw [List.find?_eq_none]
  refine forall₂_congr fun i _ => ?_
  rw [selects_iff]

theorem find?_eq_some_iff {l : List (Item κ ν)} :
    l.find? q.selects = some i ↔ ∃ before after, q.First l before i after := by
  constructor
  · intro h
    obtain ⟨before, after, heq, hbefore, _⟩ := exists_eraseP_of_find? h
    exact ⟨before, after, heq, selects_iff.mp (List.find?_some h),
      fun j hj => selects_eq_false_iff.mp (hbefore j hj)⟩
  · rintro ⟨before, after, rfl, hi, hbefore⟩
    rw [List.find?_append, find?_eq_none_iff.mpr hbefore, Option.none_or,
      List.find?_cons_of_pos (selects_iff.mpr hi)]

theorem First.eraseP_eq {l before after : List (Item κ ν)} (h : q.First l before i after) :
    l.eraseP q.selects = before ++ after := by
  have hpassed : ∀ j ∈ before, q.selects j = false := by
    intro j hj
    exact selects_eq_false_iff.mpr (h.passed j hj)
  rw [h.eq]
  exact eraseP_append_cons hpassed (selects_iff.mpr h.answers)

theorem eraseP_of_forall_not {l : List (Item κ ν)} (h : ∀ i ∈ l, ¬ q.Answers i) :
    l.eraseP q.selects = l :=
  List.eraseP_of_forall_not fun i hi => by
    rw [selects_iff]
    exact h i hi

end Query

/-! ## Versions by themselves -/

namespace Version

/-- What the layout of a version comes to. -/
structure IsList (v : Version κ ν) : Prop where
  packed : v.contents.slot = none → v.contents.overflow = #[]
  slot_eq : v.contents.slot = v.items.head?
  overflow_eq : v.contents.overflow.toList = v.items.tail
  size_eq : v.size = v.items.length
  found : ∀ q i, v.find? q = some i ↔ ∃ before after, q.First v.items before i after
  missed : ∀ q, v.find? q = none ↔ ∀ i ∈ v.items, ¬ q.Answers i

theorem isList (v : Version κ ν) : v.IsList where
  packed := v.contents.packed
  slot_eq := v.contents.slot_eq
  overflow_eq := v.contents.toList_overflow
  size_eq := v.length_items.symm
  found q i := by rw [find?_eq, Query.find?_eq_some_iff]
  missed q := by rw [find?_eq, Query.find?_eq_none_iff]

theorem items_eq_nil {v : Version κ ν} (h : v.size = 0) : v.items = [] := by
  rw [← List.length_eq_zero_iff, length_items, h]

theorem toList_contents {v : Version κ ν} (h : v.size = 0) : v.contents.toList = [] :=
  items_eq_nil h

/-- `w` is made of the version `v`, as the successor of `head` with these items. -/
structure Follows (v head w : Version κ ν) (items : List (Item κ ν)) : Prop where
  stamp_eq : w.stamp = v.stamp
  id_eq : w.id = nextId head.id
  id_ne_zero : w.id ≠ 0
  internal_eq : w.internal = v.internal
  prev_eq : w.prev = some head.stamp
  items_eq : w.items = items

theorem follows_of_items (v head : Version κ ν) (c : Contents (Item κ ν)) :
    v.Follows head { v.follow head with contents := c } c.toList :=
  ⟨rfl, rfl, nextId_ne_zero _, rfl, rfl, rfl⟩

theorem follows_follow {v : Version κ ν} (hv : v.size = 0) (head : Version κ ν) :
    v.Follows head (v.follow head) [] := by
  have hfollows := v.follows_of_items head v.contents
  rwa [toList_contents hv] at hfollows

theorem follows_followCopy {v : Version κ ν} (hv : v.size = 0) (head : Version κ ν) :
    v.Follows head (v.followCopy head) head.items := by
  have hfollows := v.follows_of_items head (v.contents.append head.contents)
  rwa [Contents.toList_append, toList_contents hv] at hfollows

theorem follows_followWithout {v : Version κ ν} (hv : v.size = 0) (head : Version κ ν)
    (q : Query κ) :
    v.Follows head (v.followWithout head q).2 (head.items.eraseP q.selects) := by
  have hfollows := v.follows_of_items head (v.contents.pushAll (head.items.eraseP q.selects))
  rwa [Contents.toList_pushAll, toList_contents hv] at hfollows

/-- A copy of all items has the layout of what was copied. -/
theorem followCopy_eq {v : Version κ ν} (hv : v.size = 0) (head : Version κ ν) :
    v.followCopy head = { v.follow head with contents := head.contents } := by
  have hcontents : v.contents.append head.contents = head.contents := by
    refine Contents.ext_toList ?_
    rw [Contents.toList_append, toList_contents hv, List.nil_append]
  unfold followCopy
  rw [hcontents]

/-- A copy can be made part by part. -/
theorem followCopy_parts {v : Version κ ν} (hv : v.size = 0) (head : Version κ ν) :
    (v.followCopy head).contents.slot = head.contents.slot ∧
    (v.followCopy head).contents.overflow = v.contents.overflow ++ head.contents.overflow := by
  have hslot : v.contents.slot = none := by
    rw [v.isList.slot_eq, items_eq_nil hv]
    rfl
  rw [followCopy_eq hv, v.contents.packed hslot, Array.empty_append]
  exact ⟨rfl, rfl⟩

/-- Where nothing is left out, items pushed one by one are a copy. -/
theorem followWithout_of_forall_not {v head : Version κ ν} {q : Query κ} (hv : v.size = 0)
    (hnone : ∀ i ∈ head.items, ¬ q.Answers i) :
    v.followWithout head q = (none, v.followCopy head) := by
  have hcontents : v.contents.pushAll (head.items.eraseP q.selects) = head.contents := by
    refine Contents.ext_toList ?_
    rw [Query.eraseP_of_forall_not hnone, Contents.toList_pushAll, toList_contents hv,
      List.nil_append]
    rfl
  have hfind : head.find? q = none := (head.isList.missed q).mpr hnone
  unfold followWithout
  rw [hcontents, hfind, followCopy_eq hv]

/-- One turn of a loop that pushes items and passes over the first that answers. -/
def passOver (q : Query κ) (out : Option (Item κ ν) × Version κ ν) (i : Item κ ν) :
    Option (Item κ ν) × Version κ ν :=
  if out.1.isNone && q.selects i then (some i, out.2) else (out.1, out.2.push i)

/-- Once an item has been passed over, the others are pushed. -/
theorem foldl_passOver_some (q : Query κ) (i : Item κ ν) (l : List (Item κ ν))
    (v : Version κ ν) :
    l.foldl (passOver q) (some i, v) = (some i, { v with contents := v.contents.pushAll l }) := by
  induction l generalizing v with
  | nil => rfl
  | cons j l ih => exact ih (v.push j)

theorem foldl_passOver_none (q : Query κ) (l : List (Item κ ν)) (v : Version κ ν) :
    l.foldl (passOver q) (none, v) =
      (l.find? q.selects, { v with contents := v.contents.pushAll (l.eraseP q.selects) }) := by
  -- until one answers, every item is pushed
  induction l generalizing v with
  | nil => rfl
  | cons j l ih =>
    cases hj : q.selects j with
    | true =>
      have hturn : passOver q (none, v) j = (some j, v) := by simp [passOver, hj]
      rw [List.foldl_cons, hturn, foldl_passOver_some, List.find?_cons_of_pos hj,
        List.eraseP_cons_of_pos hj]
    | false =>
      have hturn : passOver q (none, v) j = (none, v.push j) := by simp [passOver, hj]
      have hnot : ¬ q.selects j = true := by simp [hj]
      rw [List.foldl_cons, hturn, ih, List.find?_cons_of_neg hnot, List.eraseP_cons_of_neg hnot]
      rfl

/-- A successor with one item left out can be made in one pass over the items. -/
theorem followWithout_eq_foldl (v head : Version κ ν) (q : Query κ) :
    v.followWithout head q = head.items.foldl (passOver q) (none, v.follow head) := by
  rw [foldl_passOver_none, ← find?_eq]
  rfl

/-! ## Rosters -/

deriving instance DecidableEq for Item

/-- A version told without its layout. -/
structure Roster (κ ν : Type) where
  id : UInt32 := 0
  internal : Int32 := 0
  /-- The number of the roster that this one supersedes. -/
  prev : Option Nat := none
  items : List (Item κ ν) := []
deriving DecidableEq

namespace Roster

/-- What a command answers, told by rosters. -/
inductive Reply (κ ν : Type)
  | number (n : Nat)
  | item (i : Option (Item κ ν))
  /-- A roster after the command, and the item it was made without. -/
  | roster (omitted : Option (Item κ ν)) (r : Roster κ ν)
  | refused (r : Refusal)
deriving DecidableEq

/-- Changes roster `e`, and answers with what became of it. -/
def change (l : List (Roster κ ν)) (e : Nat)
    (f : Argument (Roster κ ν → Option (Item κ ν) × Roster κ ν)) :
    Reply κ ν × List (Roster κ ν) :=
  match l[e]?, f with
  | none, _ => (.refused .noEntry, l)
  | some _, .error why => (.refused why, l)
  | some r, .ok f =>
    let (omitted, r) := f r
    (.roster omitted r, l.set e r)

/-- Makes roster `e` the successor of another one, with what is taken from the items there. -/
def succeed (l : List (Roster κ ν)) (e : Nat) (head : Argument Nat)
    (f : Argument (List (Item κ ν) → Option (Item κ ν) × List (Item κ ν))) :
    Reply κ ν × List (Roster κ ν) :=
  match l[e]?, head with
  | none, _ => (.refused .noEntry, l)
  | some _, .error why => (.refused why, l)
  | some _, .ok head =>
    match l[head]? with
    | none => (.refused .noEntry, l)
    | some h =>
      if e = head then (.refused .noEntry, l) else
        change l e <| f.map fun f r =>
          let (omitted, items) := f h.items
          (omitted, { r with id := nextId h.id, prev := some head, items })

/-- Carries out a command on rosters, which are numbered in the order of their creation. -/
def step (l : List (Roster κ ν)) : Command κ ν → Reply κ ν × List (Roster κ ν)
  | .create => (.number l.length, l ++ [{}])
  | .nextId id => (.number (VersionedMap.nextId id).toNat, l)
  | .search e q =>
    match l[e]?, q with
    | none, _ => (.refused .noEntry, l)
    | some _, .error why => (.refused why, l)
    | some r, .ok q => (.item (r.items.find? q.selects), l)
  | .push e i => change l e <| i.map fun i r => (none, { r with items := r.items ++ [i] })
  | .setId e id => change l e <| id.map fun id r => (none, { r with id })
  | .reset e => change l e <| .ok fun _ => (none, {})
  | .inspect e => change l e <| .ok fun r => (none, r)
  | .follow e head => succeed l e head <| .ok fun _ => (none, [])
  | .followCopy e head => succeed l e head <| .ok fun items => (none, items)
  | .followWithout e head q => succeed l e head <| q.map fun q items =>
    (items.find? q.selects, items.eraseP q.selects)

/-- The rosters after some commands. -/
def after (l : List (Roster κ ν)) : List (Command κ ν) → List (Roster κ ν)
  | [] => l
  | c :: cs => after (step l c).2 cs

/-- The answers to some commands. -/
def answers (l : List (Roster κ ν)) : List (Command κ ν) → List (Reply κ ν)
  | [] => []
  | c :: cs => (step l c).1 :: answers (step l c).2 cs

end Roster

/-- What a version is without its layout. -/
def roster (v : Version κ ν) : Roster κ ν := ⟨v.id, v.internal, v.prev, v.items⟩

/-- A reply without the layout of the version in it. -/
def Reply.view : Reply κ ν → Roster.Reply κ ν
  | .number n => .number n
  | .item i => .item i
  | .version omitted v => .roster omitted v.roster
  | .refused r => .refused r

namespace Session

/-- What a session is without the layout of its versions. -/
def rosters (s : Session κ ν) : List (Roster κ ν) := s.versions.toList.map roster

/-- The session after some commands. -/
def after (s : Session κ ν) : List (Command κ ν) → Session κ ν
  | [] => s
  | c :: cs => (s.step c).2.after cs

/-- The answers to some commands. -/
def answers (s : Session κ ν) : List (Command κ ν) → List (Reply κ ν)
  | [] => []
  | c :: cs => (s.step c).1 :: (s.step c).2.answers cs

/-- Only a version without items may be made a successor. -/
def Allows (s : Session κ ν) : Command κ ν → Prop
  | .follow e _ | .followCopy e _ | .followWithout e _ _ =>
    ∀ v, s.versions[e]? = some v → v.size = 0
  | _ => True

/-- Commands each of which is allowed when its turn comes. -/
def Careful (s : Session κ ν) : List (Command κ ν) → Prop
  | [] => True
  | c :: cs => s.Allows c ∧ (s.step c).2.Careful cs

/-- A session comes to these rosters, and every version is found at its stamp. -/
structure Told (s : Session κ ν) (l : List (Roster κ ν)) : Prop where
  rosters_eq : s.rosters = l
  stamped : ∀ (e : Nat) (v : Version κ ν), s.versions[e]? = some v → v.stamp = e

/-- A session answers and becomes what rosters answer and become. -/
def Shows (out : Reply κ ν × Session κ ν) (seen : Roster.Reply κ ν × List (Roster κ ν)) : Prop :=
  out.1.view = seen.1 ∧ out.2.Told seen.2

variable {s : Session κ ν} {l : List (Roster κ ν)} {e : Nat} {v w : Version κ ν}

theorem told_new : ({} : Session κ ν).Told [] where
  rosters_eq := rfl
  stamped e v hv := by cases hv

theorem Told.getElem? (h : s.Told l) (e : Nat) : l[e]? = s.versions[e]?.map roster := by
  rw [← h.rosters_eq, rosters, List.getElem?_map, Array.getElem?_toList]

theorem Told.length_eq (h : s.Told l) : l.length = s.versions.size := by
  rw [← h.rosters_eq, rosters, List.length_map, Array.length_toList]

theorem Told.create (h : s.Told l) :
    Told (s.step .create).2 (l ++ [({} : Roster κ ν)]) where
  rosters_eq := by
    rw [← h.rosters_eq]
    dsimp only [step, rosters]
    rw [Array.toList_push, List.map_append]
    rfl
  stamped e v hv := by
    dsimp only [step] at hv
    rw [Array.getElem?_push] at hv
    split at hv
    · next he =>
      cases hv
      exact he.symm
    · exact h.stamped e v hv

theorem Told.set (h : s.Told l) (hv : s.versions[e]? = some v) (hstamp : w.stamp = v.stamp) :
    Told { versions := s.versions.setIfInBounds e w } (l.set e w.roster) where
  rosters_eq := by
    rw [← h.rosters_eq, rosters, Array.toList_setIfInBounds, List.map_set]
    rfl
  stamped d u hu := by
    have hlt : e < s.versions.size := (Array.getElem?_eq_some_iff.mp hv).1
    by_cases hd : e = d
    · subst hd
      rw [Array.getElem?_setIfInBounds_self_of_lt hlt] at hu
      cases hu
      rw [hstamp, h.stamped e v hv]
    · rw [Array.getElem?_setIfInBounds_ne hd] at hu
      exact h.stamped d u hu

/-! ## One command -/

theorem change_eq (hv : s.versions[e]? = some v)
    (f : Version κ ν → Option (Item κ ν) × Version κ ν) :
    s.change e (.ok f) =
      (.version (f v).1 (f v).2, { versions := s.versions.setIfInBounds e (f v).2 }) := by
  unfold change
  rw [hv]

theorem changeBy_eq {head : Nat} {h : Version κ ν} (hv : s.versions[e]? = some v)
    (hh : s.versions[head]? = some h) (hne : e ≠ head)
    (f : Version κ ν → Version κ ν → Option (Item κ ν) × Version κ ν) :
    s.changeBy e (.ok head) (.ok f) =
      (.version (f v h).1 (f v h).2, { versions := s.versions.setIfInBounds e (f v h).2 }) := by
  unfold changeBy
  rw [hv]
  dsimp only
  rw [hh]
  dsimp only
  rw [if_neg hne]
  exact change_eq hv (f · h)

theorem shows_change (h : s.Told l) (e : Nat) {β : Type} (x : Argument β)
    {F : β → Version κ ν → Option (Item κ ν) × Version κ ν}
    {G : β → Roster κ ν → Option (Item κ ν) × Roster κ ν}
    (hFG : ∀ b v, s.versions[e]? = some v →
      (F b v).1 = (G b v.roster).1 ∧ (F b v).2.roster = (G b v.roster).2 ∧
        (F b v).2.stamp = v.stamp) :
    Shows (s.change e (x.map F)) (Roster.change l e (x.map G)) := by
  unfold change Roster.change
  rw [h.getElem? e]
  cases hv : s.versions[e]? with
  | none => exact ⟨rfl, h⟩
  | some v =>
    cases x with
    | error why => exact ⟨rfl, h⟩
    | ok b =>
      obtain ⟨homitted, hroster, hstamp⟩ := hFG b v hv
      refine ⟨?_, ?_⟩
      · show Roster.Reply.roster (F b v).1 (F b v).2.roster = _
        rw [homitted, hroster]
        rfl
      · have hset := h.set hv hstamp
        rw [hroster] at hset
        exact hset

theorem shows_changeBy (h : s.Told l) (e : Nat) (head : Argument Nat) {β : Type} (x : Argument β)
    {F : β → Version κ ν → Version κ ν → Option (Item κ ν) × Version κ ν}
    {G : β → List (Item κ ν) → Option (Item κ ν) × List (Item κ ν)}
    (hFG : ∀ b v w, s.versions[e]? = some v →
      (F b v w).1 = (G b w.items).1 ∧ v.Follows w (F b v w).2 (G b w.items).2) :
    Shows (s.changeBy e head (x.map F)) (Roster.succeed l e head (x.map G)) := by
  unfold changeBy Roster.succeed
  rw [h.getElem? e]
  cases hv : s.versions[e]? with
  | none => exact ⟨rfl, h⟩
  | some v =>
    cases head with
    | error why => exact ⟨rfl, h⟩
    | ok head =>
      dsimp only [Option.map_some]
      rw [h.getElem? head]
      cases hw : s.versions[head]? with
      | none => exact ⟨rfl, h⟩
      | some w =>
        dsimp only [Option.map_some]
        split
        · exact ⟨rfl, h⟩
        -- both sides change the version of which they know that it is there
        · have hchange := shows_change h e x (F := fun b v => F b v w)
            (G := fun b r => ((G b w.items).1,
              { r with id := nextId w.id, prev := some head, items := (G b w.items).2 }))
            fun b v hv => by
              obtain ⟨homitted, hfollows⟩ := hFG b v w hv
              refine ⟨homitted, ?_, hfollows.stamp_eq⟩
              unfold roster
              rw [hfollows.id_eq, hfollows.internal_eq, hfollows.prev_eq, hfollows.items_eq,
                h.stamped head w hw]
          cases x <;> exact hchange

/-- Whatever a session answers and becomes, rosters answer and become. -/
theorem shows_step (h : s.Told l) {c : Command κ ν} (hc : s.Allows c) :
    Shows (s.step c) (Roster.step l c) := by
  cases c with
  | create => exact ⟨congrArg Roster.Reply.number h.length_eq.symm, h.create⟩
  | nextId id => exact ⟨rfl, h⟩
  | search e q =>
    dsimp only [step, Roster.step]
    rw [h.getElem? e]
    cases s.versions[e]? with
    | none => exact ⟨rfl, h⟩
    | some v =>
      cases q with
      | error why => exact ⟨rfl, h⟩
      | ok q => exact ⟨congrArg Roster.Reply.item (v.find?_eq q), h⟩
  | push e i =>
    refine shows_change h e i fun i v _ => ⟨rfl, ?_, rfl⟩
    exact congrArg (Roster.mk v.id v.internal v.prev) (v.items_push i)
  | setId e id => exact shows_change h e id fun _ _ _ => ⟨rfl, rfl, rfl⟩
  | reset e =>
    exact shows_change h e (.ok ()) (F := fun _ v => (none, v.reset)) (G := fun _ _ => (none, {}))
      fun _ _ _ => ⟨rfl, rfl, rfl⟩
  | inspect e =>
    exact shows_change h e (.ok ()) (F := fun _ v => (none, v)) (G := fun _ r => (none, r))
      fun _ _ _ => ⟨rfl, rfl, rfl⟩
  | follow e head =>
    exact shows_changeBy h e head (.ok ()) (F := fun _ v w => (none, v.follow w))
      (G := fun _ _ => (none, [])) fun _ v w hv => ⟨rfl, follows_follow (hc v hv) w⟩
  | followCopy e head =>
    exact shows_changeBy h e head (.ok ()) (F := fun _ v w => (none, v.followCopy w))
      (G := fun _ items => (none, items)) fun _ v w hv => ⟨rfl, follows_followCopy (hc v hv) w⟩
  | followWithout e head q =>
    exact shows_changeBy h e head q fun q v w hv =>
      ⟨w.find?_eq q, follows_followWithout (hc v hv) w q⟩

/-! ## Runs -/

theorem told_after (h : s.Told l) {cs : List (Command κ ν)} (hcs : s.Careful cs) :
    (s.after cs).Told (Roster.after l cs) := by
  induction cs generalizing s l with
  | nil => exact h
  | cons c cs ih => exact ih (shows_step h hcs.1).2 hcs.2

theorem view_answers (h : s.Told l) {cs : List (Command κ ν)} (hcs : s.Careful cs) :
    (s.answers cs).map Reply.view = Roster.answers l cs := by
  -- along the run, with the same rosters before every command
  induction cs generalizing s l with
  | nil => rfl
  | cons c cs ih =>
    obtain ⟨hreply, hafter⟩ := shows_step h hcs.1
    show (s.step c).1.view :: ((s.step c).2.answers cs).map Reply.view = _ :: _
    rw [hreply, ih hafter hcs.2]

/-- Version `e` is made the successor of `head`, with these items and without `omitted`. -/
structure Makes (s : Session κ ν) (e : Nat) (v head : Version κ ν) (omitted : Option (Item κ ν))
    (items : List (Item κ ν)) (out : Reply κ ν × Session κ ν) : Prop where
  made : ∃ w, out.1 = .version omitted w ∧ out.2.versions[e]? = some w ∧
    v.Follows head w items
  /-- The version that is followed is among the others. -/
  others : ∀ d, d ≠ e → out.2.versions[d]? = s.versions[d]?

theorem makes_changeBy {head : Nat} {h : Version κ ν} (hv : s.versions[e]? = some v)
    (hh : s.versions[head]? = some h) (hne : e ≠ head)
    (f : Version κ ν → Version κ ν → Option (Item κ ν) × Version κ ν)
    {items : List (Item κ ν)} (hf : v.Follows h (f v h).2 items) :
    s.Makes e v h (f v h).1 items (s.changeBy e (.ok head) (.ok f)) := by
  have hlt : e < s.versions.size := (Array.getElem?_eq_some_iff.mp hv).1
  rw [changeBy_eq hv hh hne]
  refine ⟨⟨_, rfl, ?_, hf⟩, fun d hd => ?_⟩
  · exact Array.getElem?_setIfInBounds_self_of_lt hlt
  · exact Array.getElem?_setIfInBounds_ne (Ne.symm hd)

/-- The three ways to make version `e` a successor of version `head`. -/
structure Succession (s : Session κ ν) (e : Nat) (v : Version κ ν) (head : Nat)
    (h : Version κ ν) : Prop where
  follow : s.Makes e v h none [] (s.step (.follow e (.ok head)))
  followCopy : s.Makes e v h none h.items (s.step (.followCopy e (.ok head)))
  followWithout : ∀ q before i after, q.First h.items before i after →
    (s.step (.search head (.ok q))).1 = .item (some i) ∧
    s.Makes e v h (some i) (before ++ after) (s.step (.followWithout e (.ok head) (.ok q)))
  followWithout_missed : ∀ q, (∀ i ∈ h.items, ¬ q.Answers i) →
    (s.step (.search head (.ok q))).1 = .item none ∧
    s.step (.followWithout e (.ok head) (.ok q)) = s.step (.followCopy e (.ok head))
  part_by_part : (v.followCopy h).contents.slot = h.contents.slot ∧
    (v.followCopy h).contents.overflow = v.contents.overflow ++ h.contents.overflow
  one_pass : ∀ q, v.followWithout h q = h.items.foldl (passOver q) (none, v.follow h)

theorem succession {head : Nat} {h : Version κ ν} (hv : s.versions[e]? = some v)
    (hh : s.versions[head]? = some h) (hne : e ≠ head) (hempty : v.size = 0) :
    s.Succession e v head h := by
  have hsearch (q : Query κ) : (s.step (.search head (.ok q))).1 = .item (h.find? q) := by
    dsimp only [step]
    rw [hh]
  refine ⟨?_, ?_, fun q before i after hfirst => ?_, fun q hnone => ?_,
    followCopy_parts hempty h, v.followWithout_eq_foldl h⟩
  · exact makes_changeBy hv hh hne (fun v h => (none, v.follow h)) (follows_follow hempty h)
  · exact makes_changeBy hv hh hne (fun v h => (none, v.followCopy h))
      (follows_followCopy hempty h)
  · have hfind : h.find? q = some i := (h.isList.found q i).mpr ⟨before, after, hfirst⟩
    have homitted : (v.followWithout h q).1 = some i := hfind
    have hmakes := makes_changeBy hv hh hne (fun v h => v.followWithout h q)
      (follows_followWithout hempty h q)
    rw [homitted, hfirst.eraseP_eq] at hmakes
    rw [hsearch, hfind]
    exact ⟨rfl, hmakes⟩
  · have hfind : h.find? q = none := (h.isList.missed q).mpr hnone
    rw [hsearch, hfind]
    refine ⟨rfl, ?_⟩
    show s.changeBy e (.ok head) (.ok fun v h => v.followWithout h q) =
      s.changeBy e (.ok head) (.ok fun v h => (none, v.followCopy h))
    rw [changeBy_eq hv hh hne, changeBy_eq hv hh hne]
    dsimp only
    rw [followWithout_of_forall_not hempty hnone]

/--
**A version is a list.**

As long as only versions without items are made successors, a session with versions answers as
rosters do and comes to what they come to. At any time every version is laid out as its list is,
and whichever version without items is made the successor of another one, it gets the items of
that one, or all but the first that answers, and nothing else changes.
-/
theorem versions_are_lists {cs : List (Command κ ν)}
    (hcs : ({} : Session κ ν).Careful cs) :
    let s := ({} : Session κ ν).after cs
    (({} : Session κ ν).answers cs).map Reply.view = Roster.answers [] cs ∧
    s.Told (Roster.after [] cs) ∧
    (∀ (e : Nat) (v : Version κ ν), s.versions[e]? = some v → v.IsList) ∧
    ∀ (e head : Nat) (v h : Version κ ν), s.versions[e]? = some v → s.versions[head]? = some h →
      e ≠ head → v.size = 0 → s.Succession e v head h :=
  ⟨view_answers told_new hcs, told_after told_new hcs, fun _ v _ => v.isList,
    fun _ _ _ _ hv hh hne hempty => succession hv hh hne hempty⟩

theorem size_eq_zero_of_map (h : s.versions[e]?.map size = some 0) (v : Version κ ν)
    (hv : s.versions[e]? = some v) : v.size = 0 := by
  rw [hv] at h
  exact Option.some.inj h

/-- The first of two items that answer is the one kept apart; the identifier wraps. -/
theorem versions_are_lists_first_of_two :
    let i : Item Nat Nat := ⟨3, 1, 10⟩
    let j : Item Nat Nat := ⟨3, 2, 20⟩
    let k : Item Nat Nat := ⟨4, 1, 30⟩
    let q : Query Nat := ⟨3, fun _ => true⟩
    let full : Roster Nat Nat := { id := 0xFFFFFFFF, items := [i, j, k] }
    (({} : Session Nat Nat).answers
        [.create, .create, .push 0 (.ok i), .push 0 (.ok j), .push 0 (.ok k),
          .setId 0 (.ok 0xFFFFFFFF), .search 0 (.ok q),
          .followWithout 1 (.ok 0) (.ok q), .reset 1, .followCopy 1 (.ok 0),
          .inspect 0]).map Reply.view =
      [.number 0, .number 1, .roster none { items := [i] }, .roster none { items := [i, j] },
        .roster none { items := [i, j, k] }, .roster none full, .item (some i),
        .roster (some i) { id := 1, prev := some 0, items := [j, k] }, .roster none {},
        .roster none { id := 1, prev := some 0, items := [i, j, k] }, .roster none full] := by
  intro i j k q full
  have hcareful : ({} : Session Nat Nat).Careful
      [.create, .create, .push 0 (.ok i), .push 0 (.ok j), .push 0 (.ok k),
        .setId 0 (.ok 0xFFFFFFFF), .search 0 (.ok q),
        .followWithout 1 (.ok 0) (.ok q), .reset 1, .followCopy 1 (.ok 0), .inspect 0] := by
    refine ⟨trivial, trivial, trivial, trivial, trivial, trivial, trivial, ?_, trivial, ?_,
      trivial, trivial⟩
    · exact size_eq_zero_of_map (by decide +kernel)
    · exact size_eq_zero_of_map (by decide +kernel)
  exact (versions_are_lists hcareful).1.trans (by decide +kernel)

end Session

end Version

end VersionedMap
