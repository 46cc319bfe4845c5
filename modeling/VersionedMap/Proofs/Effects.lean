import VersionedMap.Proofs.Chores
import VersionedMap.Proofs.MapChronicles

/-!
# Deeds and the value of a key

What a deed makes of the value of a key shows by its answer: it sets the key, removes it, or spares
it. A removal may ask for the key by any means; it takes away the item that it finds, and no other.
-/

namespace VersionedMap

variable {κ ν α : Type}

/-! ## Removals -/

/-- Where nothing is twice, what is taken away is what is found. -/
theorem mem_eraseP_iff_find? {l : List α} (hl : l.Nodup) (p : α → Bool) (x : α) :
    x ∈ l.eraseP p ↔ x ∈ l ∧ l.find? p ≠ some x := by
  induction l with
  | nil => simp
  | cons y l ih =>
    obtain ⟨hy, hl⟩ := List.nodup_cons.mp hl
    cases hp : p y with
    | true =>
      rw [List.eraseP_cons_of_pos hp, List.find?_cons_of_pos hp, List.mem_cons]
      constructor
      · exact fun hx => ⟨.inr hx, fun he => hy (Option.some.inj he ▸ hx)⟩
      · rintro ⟨rfl | hx, hne⟩
        · exact absurd rfl hne
        · exact hx
    | false =>
      rw [List.eraseP_cons_of_neg (by simp [hp]), List.find?_cons_of_neg (by simp [hp]),
        List.mem_cons, List.mem_cons, ih hl]
      constructor
      · rintro (rfl | ⟨hx, hne⟩)
        · exact ⟨.inl rfl, fun he => hy (List.mem_of_find?_eq_some he)⟩
        · exact ⟨.inr hx, hne⟩
      · rintro ⟨rfl | hx, hne⟩
        · exact .inl rfl
        · exact .inr ⟨hx, hne⟩

variable [DecidableEq κ]

/-- A removal takes away the item that its lookup finds. -/
theorem Map.Fit.delete_spec {m : Map κ ν} (h : m.Fit false) (q : Lookup κ) :
    ∃ m', m.delete q = (.done ((m.find? q).map (·.value)), m') ∧ m'.Fit false ∧
      ∀ x, x ∈ m'.items ↔ x ∈ m.items ∧ m.find? q ≠ some x := by
  let μ := ((Deed.delete q : Deed κ ν).motion? m.hash).get rfl
  have hi := h.route_lt q.hash
  have hfind := h.tells_items.find?_eq h q
  obtain ⟨m', hrun, hfit, hshape, htells, _⟩ := h.tells_mutate h.tells_items rfl μ
  -- the shard of the lookup tells what is left there, and the others what they told
  have htold : μ.tell m.route (fun i => (m.shardAt i).table.items) =
      (((m.find? q).map (·.value), if (m.find? q).isSome then .removed else .unchanged),
        (m.shardAt (m.route q.hash).shard).table.items.eraseP (m.queryOf q).selects) := by
    rw [hfind]
    show Redaction.delete (m.queryOf q) (m.shardAt (m.route q.hash).shard).table.items = _
    unfold Redaction.delete
    cases hfound : (m.shardAt (m.route q.hash).shard).table.items.find? (m.queryOf q).selects with
    | none =>
      rw [List.eraseP_of_forall_not fun x hx => by simpa using List.find?_eq_none.mp hfound x hx]
      rfl
    | some x => rfl
  rw [htold] at hrun htells
  have hnodup : (m.shardAt (m.route q.hash).shard).table.items.Nodup :=
    (h.shards _ hi).table.shelved.nodup_flatten.of_map
  refine ⟨m', hrun, hfit, fun x => ?_⟩
  rw [Map.mem_items, Map.mem_items, hshape.size_eq]
  have hhere (j : Nat) (hj : j < m.shards.size) : x ∈ (m'.shardAt j).table.items ↔
      x ∈ (m.shardAt j).table.items ∧ m.find? q ≠ some x := by
    rw [(htells.perm (hshape.size_eq ▸ hj)).mem_iff]
    unfold Map.rewrite
    split
    · rename_i hij
      subst hij
      rw [hfind]
      exact mem_eraseP_iff_find? hnodup _ x
    · rename_i hij
      refine ⟨fun hx => ⟨hx, fun he => hij ?_⟩, And.left⟩
      -- what is found stands in the shard of the lookup
      rw [hfind] at he
      have hx' := List.mem_of_find?_eq_some he
      exact (h.placed_current hj hx).1.symm.trans (h.placed_current hi hx').1
  constructor
  · rintro ⟨j, hj, hx⟩
    obtain ⟨hx, hne⟩ := (hhere j hj).mp hx
    exact ⟨⟨j, hj, hx⟩, hne⟩
  · rintro ⟨⟨j, hj, hx⟩, hne⟩
    exact ⟨j, hj, (hhere j hj).mpr ⟨hx, hne⟩⟩

/-- A key without a value has no item. -/
theorem Map.valueAt_eq_none {m : Map κ ν} {k : κ} :
    m.valueAt k = none ↔ ∀ x ∈ m.items, x.key ≠ k := by
  unfold Map.valueAt valueOf
  rw [Option.map_eq_none_iff, List.find?_eq_none]
  simp

/-- What a key has for a value after a removal. -/
theorem Map.Fit.valueAt_delete {m : Map κ ν} (h : m.Fit false) (q : Lookup κ) :
    ∃ m', m.delete q = (.done ((m.find? q).map (·.value)), m') ∧ ∀ k, m'.valueAt k =
      if (m.find? q).map (·.key) = some k then none else m.valueAt k := by
  obtain ⟨m', hrun, hfit, hitems⟩ := h.delete_spec q
  refine ⟨m', hrun, fun k => ?_⟩
  split
  · rename_i hfound
    obtain ⟨y, hy, rfl⟩ := Option.map_eq_some_iff.mp hfound
    refine Map.valueAt_eq_none.mpr fun x hx hkey => ?_
    obtain ⟨hx, hne⟩ := (hitems x).mp hx
    -- an item of the same key would be the one that is found
    have hmem : y ∈ m.items := by
      rw [h.tells_items.find?_eq h q] at hy
      exact Map.mem_items.mpr ⟨_, h.route_lt q.hash, List.mem_of_find?_eq_some hy⟩
    exact hne (hy.trans (congrArg some (List.inj_on_of_nodup_map h.nodup hmem hx hkey.symm)))
  · rename_i hfound
    refine valueOf_congr hfit.nodup h.nodup fun x hx => ?_
    rw [hitems x, and_iff_left]
    exact fun he => hfound (by rw [he, ← hx]; rfl)

/-! ## Deeds -/

namespace Deed

/-- The key that a deed with this answer has set, and the value that it has set it to. -/
def setting : Deed κ ν → Answer κ ν → Option (κ × ν)
  | .set k w, .nothing | .swap k w, .value _ | .setAbsent k w, .flag true => some (k, w)
  | .getOrSet k _, .found w false => some (k, w)
  | _, _ => none

/-- A deed with this answer has removed a key: it has asked for that key only, or has found it. -/
def Removes (m : Map κ ν) (d : Deed κ ν) (a : Answer κ ν) (k : κ) : Prop :=
  ∃ q old, d = .delete q ∧ a = .value old ∧
    (q = m.lookup k ∨ (m.find? q).map (·.key) = some k)

/-- What a deed makes of the value of a key. -/
structure Affects (d : Deed κ ν) (m : Map κ ν) (a : Answer κ ν) (m' : Map κ ν) (k : κ) :
    Prop where
  spared : d.Spares a k → m'.valueAt k = m.valueAt k
  set : ∀ w, d.setting a = some (k, w) → m'.valueAt k = some w
  removed : Removes m d a k → m'.valueAt k = none

theorem affects_refused (d : Deed κ ν) (m : Map κ ν) (why : Refusal) (k : κ) :
    d.Affects m (.refused why) m k where
  spared _ := rfl
  set w hset := by cases d <;> simp [setting] at hset
  removed h := by
    obtain ⟨_, _, _, ha, _⟩ := h
    cases ha

/-- A deed on all keys, after which the map shows the same or of which no key is spared. -/
theorem affects_all {d : Deed κ ν} {m m' : Map κ ν} {a : Answer κ ν} {k : κ}
    (hset : d.setting a = none) (hdelete : ∀ q, d ≠ .delete q)
    (h : m.SameView m' ∨ ¬ d.Spares a k) : d.Affects m a m' k where
  spared hspared := by
    rcases h with hview | hnot
    · unfold Map.valueAt
      rw [hview.items_eq]
    · exact absurd hspared hnot
  set w hw := absurd (hset.symm.trans hw) (by simp)
  removed := by
    rintro ⟨q, _, hd, _⟩
    exact absurd hd (hdelete q)

/-! ### Chores and removals -/

/-- The chore that a deed is, if it is one. -/
def chore? : Deed κ ν → Option (Chore κ ν)
  | .set k w => some ⟨k, .set w⟩
  | .swap k w => some ⟨k, .swap w⟩
  | .setAbsent k w => some ⟨k, .setAbsent w⟩
  | .getOrSet k w => some ⟨k, .getOrSet w⟩
  | .delete _ | .clear | .lock | .wipe | .free => none

theorem run_chore {d : Deed κ ν} {c : Chore κ ν} (h : d.chore? = some c) (v : View) (m : Map κ ν) :
    d.run v m = v.attempt (c.act.run m) := by
  cases d with
  | set | swap | setAbsent | getOrSet =>
    obtain rfl := Option.some.inj h
    rfl
  | delete | clear | lock | wipe | free => cases h

omit [DecidableEq κ] in
/-- A chore that spares its key leaves the value as it is. -/
theorem spec_of_spares {d : Deed κ ν} {c : Chore κ ν} (h : d.chore? = some c) {old : Option ν}
    (hspared : d.Spares (c.job.spec old).1 c.key) :
    (c.job.spec old : Answer κ ν × Option ν).2 = old := by
  cases d with
  | set k w | swap k w =>
    obtain rfl := Option.some.inj h
    exact absurd rfl hspared
  | setAbsent k w =>
    obtain rfl := Option.some.inj h
    rcases hspared with hne | hflag
    · exact absurd rfl hne
    · cases old with
      | none => exact absurd (Answer.flag.inj hflag) (by simp)
      | some w' => rfl
  | getOrSet k w =>
    obtain rfl := Option.some.inj h
    rcases hspared with hne | ⟨w', hfound⟩
    · exact absurd rfl hne
    · cases old with
      | none => exact absurd (Answer.found.inj hfound).2 (by simp)
      | some w' => rfl
  | delete | clear | lock | wipe | free => cases h

omit [DecidableEq κ] in
/-- A chore that has set a key has turned its value into the one that it has set. -/
theorem spec_of_setting {d : Deed κ ν} {c : Chore κ ν} (h : d.chore? = some c) {old : Option ν}
    {k : κ} {w : ν} (hset : d.setting (c.job.spec old).1 = some (k, w)) :
    k = c.key ∧ (c.job.spec old : Answer κ ν × Option ν).2 = some w := by
  cases d with
  | set k' w' | swap k' w' =>
    obtain rfl := Option.some.inj h
    obtain ⟨rfl, rfl⟩ := Prod.mk.inj (Option.some.inj hset)
    exact ⟨rfl, rfl⟩
  | setAbsent k' w' | getOrSet k' w' =>
    obtain rfl := Option.some.inj h
    cases old with
    | none =>
      obtain ⟨rfl, rfl⟩ := Prod.mk.inj (Option.some.inj hset)
      exact ⟨rfl, rfl⟩
    | some w'' => cases hset
  | delete | clear | lock | wipe | free => cases h

theorem affects_chore {d : Deed κ ν} {c : Chore κ ν} (h : d.chore? = some c) {v : View}
    {m : Map κ ν} (hm : m.Fit false) (k : κ) :
    d.Affects m (d.run v m).1 (d.run v m).2.2 k := by
  obtain ⟨hanswer, hdoes⟩ := c.settle_run hm.sound
  rw [run_chore h]
  show d.Affects m (Attempt.settle (c.act.run m)).1 (Attempt.settle (c.act.run m)).2 k
  rw [hanswer]
  refine ⟨fun hspared => ?_, fun w hset => ?_, ?_⟩
  · rw [hdoes.value_eq]
    split
    · rename_i hk
      subst hk
      exact spec_of_spares h hspared
    · rfl
  · obtain ⟨rfl, hw⟩ := spec_of_setting h hset
    rw [hdoes.value_eq, if_pos rfl, hw]
  · rintro ⟨q, _, rfl, _⟩
    cases h

theorem affects_delete (q : Lookup κ) {v : View} {m : Map κ ν} (hm : m.Fit false) (k : κ) :
    (delete q).Affects m ((delete q).run v m).1 ((delete q).run v m).2.2 k := by
  obtain ⟨m', hrun, hvalue⟩ := hm.valueAt_delete q
  have hout : (delete q).run v m = (.value ((m.find? q).map (·.value)), v, m') := by
    show v.attempt (Attempt.answer .value (m.delete q)) = _
    rw [hrun]
    rfl
  rw [hout]
  refine ⟨fun hspared => ?_, fun w hset => (by cases hset), ?_⟩
  · rw [hvalue, if_neg]
    intro hfound
    obtain ⟨y, hy, rfl⟩ := Option.map_eq_some_iff.mp hfound
    rcases hspared with hnone | hadmits
    · rw [hy] at hnone
      cases hnone
    · rw [hm.tells_items.find?_eq hm q] at hy
      have hsel := List.find?_some hy
      simp [Query.selects, Map.queryOf, hadmits] at hsel
  · rintro ⟨q', _, hq, _, hasked⟩
    obtain rfl := Deed.delete.inj hq
    rw [hvalue]
    split
    · rfl
    · rename_i hmiss
      rcases hasked with rfl | hfound
      · -- of a key that it asks for and does not find there is no item
        obtain ⟨F, hrep⟩ := hm.sound.represents
        obtain ⟨m₁, hrun₁, hrep₁⟩ := hrep.delete k
        obtain rfl := congrArg Prod.snd (hrun.symm.trans hrun₁)
        have herased := hvalue k
        rw [if_neg hmiss] at herased
        rw [← herased]
        exact (hrep₁.lookup_eq k).symm.trans (Finmap.lookup_erase k F)
      · exact absurd hfound hmiss

/-! ### All deeds -/

/-- What a deed makes of the value of a key, by its answer. -/
theorem affects_run (d : Deed κ ν) {v : View} {m : Map κ ν} (h : m.Fit (!v.freed)) (k : κ) :
    d.Affects m (d.run v m).1 (d.run v m).2.2 k := by
  have hmotion (hv : v.freed = false) (μ : Motion κ ν m.hash) (hμ : d.motion? m.hash = some μ) :
      d.Affects m (d.run v m).1 (d.run v m).2.2 k := by
    rw [hv] at h
    rw [run_motion hμ rfl, Map.Fit.mutate_held h]
    exact affects_refused d m .wouldBlock k
  cases hv : v.freed with
  | false =>
    cases d with
    | set | swap | setAbsent | getOrSet | delete => exact hmotion hv _ rfl
    | clear =>
      rw [hv] at h
      show Affects clear m (v.attempt (Attempt.answer _ m.clear)).1 _ k
      dsimp only [run]
      rw [Map.Fit.clear_held h]
      exact affects_refused _ m .wouldBlock k
    | lock =>
      rw [hv] at h
      dsimp only [run]
      rw [Map.Fit.lock_held h]
      exact affects_refused _ m .wouldBlock k
    | wipe =>
      rw [hv] at h
      obtain ⟨m', hrun, _⟩ := Map.Fit.wipe h hv
      dsimp only [run]
      rw [hrun]
      exact affects_all rfl (fun _ => by simp) (.inr id)
    | free =>
      rw [hv] at h
      dsimp only [run]
      rw [View.free_held hv]
      exact affects_all rfl (fun _ => by simp) (.inl (Map.Fit.unlock h).2.2)
  | true =>
    rw [hv] at h
    cases d with
    | set | swap | setAbsent | getOrSet => exact affects_chore rfl h k
    | delete q => exact affects_delete q h k
    | clear =>
      obtain ⟨m', hrun, _⟩ := Map.Fit.clear h
      dsimp only [run]
      rw [hrun]
      exact affects_all rfl (fun _ => by simp) (.inr id)
    | lock =>
      obtain ⟨m', hrun, _, _, hview⟩ := Map.Fit.lock h
      dsimp only [run]
      rw [hrun]
      exact affects_all rfl (fun _ => by simp) (.inl hview)
    | wipe =>
      dsimp only [run]
      rw [View.clear_freed hv]
      exact affects_refused _ m .viewFreed k
    | free =>
      dsimp only [run]
      rw [View.free_freed hv]
      exact affects_refused _ m .viewFreed k

end Deed

end VersionedMap
