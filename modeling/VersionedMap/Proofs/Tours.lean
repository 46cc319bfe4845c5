import VersionedMap.Proofs.Guests

/-!
# Tours through a map

A scan goes from bucket to bucket and from shard to shard while its callback does to the map what
it likes. One part of it is a **leg**: it has an area of keys to itself, and a stock of items to
start from. On a leg no key is met twice, what is met was in stock or has been in the map since,
and what was in stock and has been in the map ever since is met, unless the leg ends before. Legs
with different areas make one leg, if the stock of the second follows what is seen on the first.

A leg ends early in two ways: a visit says so, or a bucket brims and the view that somebody has
taken meanwhile holds its lock.
-/

namespace VersionedMap

variable {κ ν ρ : Type}

/-! ## Legs -/

/-- Some bucket of a current table brims. -/
def Map.Brimming (m : Map κ ν) : Prop :=
  ∃ i < m.shards.size, ∃ b ∈ (m.shardAt i).table.buckets, b.Brims

/-- A bucket that brims in a current table makes the map brim, as it does one alike to it. -/
theorem Map.Alike.brimming {m m₁ : Map κ ν} (h : m.Alike m₁) {i g j : Nat}
    (hi : i < m.shards.size) (hg : (m.shardAt i).aside.size ≤ g) (hj : j < (m.tableAt i g).size)
    (hbrims : (m₁.bucketAt ⟨i, g, j⟩).Brims) : m₁.Brimming := by
  have hg₁ : (m₁.shardAt i).aside.size ≤ g := (h.shards i).aside_eq ▸ hg
  have hsize : j < (m₁.shardAt i).table.buckets.size := by
    rw [← Map.tableAt_current hg₁]
    exact Nat.lt_of_lt_of_eq hj (Table.size_congr ((h.shards i).shelves_eq g)).symm
  refine ⟨i, h.size_eq ▸ hi, (m₁.shardAt i).table.buckets[j], Array.getElem_mem hsize, ?_⟩
  unfold Map.bucketAt at hbrims
  rw [Map.tableAt_current hg₁, Array.getD_eq_getD_getElem?, Array.getElem?_eq_getElem hsize]
    at hbrims
  exact hbrims

/-- A scan stops with the visit that says so, and with no other. -/
def Halts (a : Attempt Bool) (l : List (Visit κ ν)) : Prop :=
  match a with
  | .done false => ∃ before x, l = before ++ [x] ∧ x.onward = false ∧ ∀ y ∈ before, y.onward = true
  | .done true | .waits => ∀ x ∈ l, x.onward = true

/-- What is true of a part of a scan that makes the visits `news`. -/
structure Leg (area : κ → Prop) (stock : Item κ ν → Prop) (t : Tour κ ν ρ) (m : Map κ ν)
    (a : Attempt Bool) (t' : Tour κ ν ρ) (m' : Map κ ν) (news : List (Visit κ ν)) : Prop where
  visits_eq : t'.visits = t.visits ++ news
  course : Course t.view m (Visit.logs news) t'.view m'
  inside : ∀ x ∈ news, area x.entry.1
  nodup : (news.map (·.entry.1)).Nodup
  sourced : ∀ before x after, news = before ++ x :: after →
    ∃ y : Item κ ν, y.entry = x.entry ∧ (stock y ∨ ∃ s ∈ Visit.logs before, y ∈ s.map.items)
  complete : a = .done true → ∀ y, stock y → (∀ s ∈ Visit.logs news, y ∈ s.map.items) →
    ∃ x ∈ news, x.entry = y.entry
  halts : Halts a news
  waits : a = .waits → t'.view.freed = false ∧ m'.Brimming

namespace Leg

variable {area area₁ area₂ : κ → Prop} {stock stock₁ stock₂ : Item κ ν → Prop}
  {t t₁ t₂ : Tour κ ν ρ} {m m₁ m₂ m₃ : Map κ ν} {a : Attempt Bool}
  {news news₁ news₂ : List (Visit κ ν)}

theorem logs_append (l l' : List (Visit κ ν)) :
    Visit.logs (l ++ l') = Visit.logs l ++ Visit.logs l' := List.flatMap_append

/-- A leg without visits. -/
theorem idle (h : Course t.view m [] t.view m₁) (hstock : a = .done true → ∀ y, ¬ stock y)
    (ha : a ≠ .done false) (hwaits : a = .waits → t.view.freed = false ∧ m₁.Brimming) :
    Leg area stock t m a t m₁ [] where
  visits_eq := (List.append_nil _).symm
  course := h
  inside _ hx := absurd hx (by simp)
  nodup := List.nodup_nil
  sourced before x after he := absurd he (by simp)
  complete hdone y hy _ := absurd hy (hstock hdone y)
  halts := by
    unfold Halts
    split
    · exact absurd rfl ha
    all_goals exact fun x hx => absurd hx (by simp)
  waits := hwaits

/-- In a larger area, with a larger stock unless the leg has gone through. -/
theorem mono (h : Leg area₁ stock₁ t m a t₁ m₁ news) (harea : ∀ k, area₁ k → area k)
    (hstock : ∀ y, stock₁ y → stock y) (hall : a = .done true → ∀ y, stock y → stock₁ y) :
    Leg area stock t m a t₁ m₁ news where
  visits_eq := h.visits_eq
  course := h.course
  inside x hx := harea _ (h.inside x hx)
  nodup := h.nodup
  sourced before x after he := by
    obtain ⟨y, hy, hsource⟩ := h.sourced before x after he
    exact ⟨y, hy, hsource.imp_left (hstock y)⟩
  complete hdone y hy := h.complete hdone y (hall hdone y hy)
  halts := h.halts
  waits := h.waits

/-- One leg after another. -/
theorem andThen (h : Leg area₁ stock₁ t m (.done true) t₁ m₁ news₁)
    (h' : Leg area₂ stock₂ t₁ m₁ a t₂ m₂ news₂) (harea : ∀ k, area₁ k ∨ area₂ k → area k)
    (hdisjoint : ∀ k, area₁ k → ¬ area₂ k) (hstock : ∀ y, stock₁ y → stock y)
    (hback : ∀ y, stock₂ y → stock y ∨ ∃ s ∈ Visit.logs news₁, y ∈ s.map.items)
    (hon : ∀ y, stock y → (∀ s ∈ Visit.logs news₁, y ∈ s.map.items) → stock₁ y ∨ stock₂ y) :
    Leg area stock t m a t₂ m₂ (news₁ ++ news₂) where
  visits_eq := by rw [h'.visits_eq, h.visits_eq, List.append_assoc]
  course := by
    rw [logs_append]
    exact h.course.trans h'.course
  inside x hx := by
    rcases List.mem_append.mp hx with hx | hx
    · exact harea _ (.inl (h.inside x hx))
    · exact harea _ (.inr (h'.inside x hx))
  nodup := by
    rw [List.map_append, List.nodup_append]
    refine ⟨h.nodup, h'.nodup, fun k hk k' hk' he => ?_⟩
    obtain ⟨x, hx, rfl⟩ := List.mem_map.mp hk
    obtain ⟨x', hx', rfl⟩ := List.mem_map.mp hk'
    exact hdisjoint _ (h.inside x hx) (he ▸ h'.inside x' hx')
  sourced before x after he := by
    rcases List.append_eq_append_iff.mp he with ⟨mid, rfl, hnews⟩ | ⟨mid, hnews, hrest⟩
    -- a visit of the second leg: the first one is behind it
    · obtain ⟨y, hy, hsource⟩ := h'.sourced mid x after hnews
      refine ⟨y, hy, ?_⟩
      rw [logs_append]
      rcases hsource with hstock₂ | ⟨s, hs, hmem⟩
      · exact (hback y hstock₂).imp_right fun ⟨s, hs, hmem⟩ => ⟨s, List.mem_append_left _ hs, hmem⟩
      · exact .inr ⟨s, List.mem_append_right _ hs, hmem⟩
    · cases mid with
      | nil =>
        have hnews₂ : news₂ = [] ++ x :: after := hrest.symm
        rw [List.append_nil] at hnews
        subst hnews
        obtain ⟨y, hy, hsource⟩ := h'.sourced [] x after hnews₂
        refine ⟨y, hy, ?_⟩
        rcases hsource with hstock₂ | ⟨s, hs, _⟩
        · exact hback y hstock₂
        · exact absurd hs (by simp [Visit.logs])
      | cons z mid =>
        obtain ⟨rfl, rfl⟩ := List.cons.inj hrest
        obtain ⟨y, hy, hsource⟩ := h.sourced before x mid hnews
        exact ⟨y, hy, hsource.imp_left (hstock y)⟩
  complete hdone y hy hall := by
    rw [logs_append] at hall
    have hfirst : ∀ s ∈ Visit.logs news₁, y ∈ s.map.items := fun s hs =>
      hall s (List.mem_append_left _ hs)
    rcases hon y hy hfirst with hy | hy
    · obtain ⟨x, hx, he⟩ := h.complete rfl y hy hfirst
      exact ⟨x, List.mem_append_left _ hx, he⟩
    · obtain ⟨x, hx, he⟩ := h'.complete hdone y hy fun s hs => hall s (List.mem_append_right _ hs)
      exact ⟨x, List.mem_append_right _ hx, he⟩
  halts := by
    have hfirst : ∀ x ∈ news₁, x.onward = true := h.halts
    have hall (hsecond : ∀ x ∈ news₂, x.onward = true) : ∀ x ∈ news₁ ++ news₂, x.onward = true := by
      intro x hx
      rcases List.mem_append.mp hx with hx | hx
      · exact hfirst x hx
      · exact hsecond x hx
    have hsecond := h'.halts
    match a with
    | .done false =>
      obtain ⟨before, x, rfl, hx, hbefore⟩ := hsecond
      refine ⟨news₁ ++ before, x, (List.append_assoc ..).symm, hx, fun y hy => ?_⟩
      rcases List.mem_append.mp hy with hy | hy
      · exact hfirst y hy
      · exact hbefore y hy
    | .done true => exact hall hsecond
    | .waits => exact hall hsecond
  waits := h'.waits

/-- Between two changes of the map that only readers make. -/
theorem between (halike : m.Alike m₁) (h : Leg area stock t m₁ a t₁ m₂ news)
    (hfit : m₃.Fit (!t₁.view.freed)) (halike' : m₂.Alike m₃) (hwaits : a ≠ .waits) :
    Leg area stock t m a t₁ m₃ news where
  visits_eq := h.visits_eq
  course := h.course.between halike hfit halike'
  inside := h.inside
  nodup := h.nodup
  sourced := h.sourced
  complete := h.complete
  halts := h.halts
  waits ha := absurd ha hwaits

theorem brimming_leave {i : Nat} (hleave : m.Swaps i (m.shardAt i).leave m₁) (h : m.Brimming) :
    m₁.Brimming := by
  obtain ⟨j, hj, b, hb, hbrims⟩ := h
  refine ⟨j, hleave.size_eq ▸ hj, b, ?_, hbrims⟩
  by_cases hji : j = i
  · rw [hji, hleave.here, Shard.table_leave, ← hji]
    exact hb
  · rw [hleave.others j hji]
    exact hb

/-- From when a shard is entered to when it is left. -/
theorem bracket {i : Nat} (henter : m.Swaps i (m.shardAt i).enter.2 m₁)
    (h : Leg area stock t m₁ a t₁ m₂ news) (hfit : m₃.Fit (!t₁.view.freed))
    (hleave : m₂.Swaps i (m₂.shardAt i).leave m₃) : Leg area stock t m a t₁ m₃ news where
  visits_eq := h.visits_eq
  course := h.course.bracket henter hfit hleave
  inside := h.inside
  nodup := h.nodup
  sourced := h.sourced
  complete := h.complete
  halts := h.halts
  waits ha := ⟨(h.waits ha).1, brimming_leave hleave (h.waits ha).2⟩

end Leg

/-! ## The parts of a scan -/

section Scan

variable (more : ρ → Bool) {f : κ × ν → ρ → View → Map κ ν → Stay κ ν ρ × Map κ ν}
  (hf : ∀ e r v m, m.Fit (!v.freed) →
    Course v m (f e r v m).1.log (f e r v m).1.view (f e r v m).2)

include hf

/-- One visit. -/
theorem visit_leg (x : Item κ ν) {t : Tour κ ν ρ} {m : Map κ ν} (h : m.Fit (!t.view.freed)) :
    ∃ go t' m' news, Tour.visit more f x.entry t m = (go, t', m') ∧
      Leg (· = x.key) (· = x) t m (.done go) t' m' news := by
  have hcourse := Course.note (Course.seen h) (hf x.entry t.result t.view m h)
  unfold Tour.visit
  generalize Stay.note ⟨none, t.view, m⟩ (f x.entry t.result) = out at *
  obtain ⟨s, m'⟩ := out
  refine ⟨_, _, _, [⟨x.entry, s.log, more s.result⟩], rfl, rfl, ?_, ?_, List.nodup_singleton _, ?_,
    ?_, ?_, fun hwaits => by cases hwaits⟩
  · show Course t.view m (s.log ++ []) s.view m'
    rw [List.append_nil]
    exact hcourse
  · intro y hy
    rw [List.mem_singleton.mp hy]
    rfl
  · intro before y after he
    refine ⟨x, ?_, .inl rfl⟩
    rcases List.cons_eq_append_iff.mp he with ⟨_, hy⟩ | ⟨rest, _, hrest⟩
    · exact (congrArg Visit.entry (List.cons.inj hy).1).symm
    · exact absurd hrest.symm (by simp)
  · rintro _ y rfl _
    exact ⟨_, List.mem_singleton_self _, rfl⟩
  · cases hmore : more s.result with
    | true =>
      intro y hy
      rw [List.mem_singleton.mp hy]
    | false => exact ⟨[], _, rfl, rfl, fun y hy => absurd hy (by simp)⟩

theorem visitItems_leg (l : List (Item κ ν)) (hl : (l.map (·.key)).Nodup) {t : Tour κ ν ρ}
    {m : Map κ ν} (h : m.Fit (!t.view.freed)) :
    ∃ go t' m' news, Map.visitItems (Tour.visit more f) l t m = (go, t', m') ∧
      Leg (· ∈ l.map (·.key)) (· ∈ l) t m (.done go) t' m' news := by
  induction l generalizing t m with
  | nil =>
    exact ⟨true, t, m, [], rfl,
      .idle (.alike h (.refl m)) (fun _ _ hy => absurd hy (by simp)) (by simp) (by simp)⟩
  | cons x l ih =>
    obtain ⟨hx, hl⟩ := List.nodup_cons.mp hl
    obtain ⟨go, t₁, m₁, news₁, hvisit, hone⟩ := visit_leg more hf x h
    have harea : ∀ k, k = x.key → k ∈ (x :: l).map (·.key) := fun k hk =>
      hk ▸ List.mem_cons_self
    have hstock : ∀ y, y = x → y ∈ x :: l := fun y hy => hy ▸ List.mem_cons_self
    unfold Map.visitItems
    rw [hvisit]
    cases go with
    | false => exact ⟨false, t₁, m₁, news₁, rfl, hone.mono harea hstock (by simp)⟩
    | true =>
      obtain ⟨go, t₂, m₂, news₂, hvisits, hrest⟩ := ih hl hone.course.fit
      refine ⟨go, t₂, m₂, news₁ ++ news₂, hvisits, hone.andThen hrest ?_ ?_ hstock ?_ ?_⟩
      · rintro k (hk | hk)
        · exact harea k hk
        · exact List.mem_cons_of_mem _ hk
      · rintro k rfl hk
        exact hx hk
      · exact fun y hy => .inl (List.mem_cons_of_mem x hy)
      · exact fun y hy _ => List.mem_cons.mp hy

/-- One bucket of a table that there is. -/
theorem visitBucket_leg {i g j : Nat} {t : Tour κ ν ρ} {m : Map κ ν} (h : m.Fit (!t.view.freed))
    (hi : i < m.shards.size) (hj : j < (m.tableAt i g).size) :
    ∃ a t' m' news, Map.visitBucket (Tour.visit more f) ⟨i, g, j⟩ t m = (a, t', m') ∧
      Leg (· ∈ ((m.tableAt i g).shelves.getD j []).map (·.key))
        (· ∈ (m.tableAt i g).shelves.getD j []) t m a t' m' news := by
  obtain ⟨hfit, halike⟩ := h.acquire (p := ⟨i, g, j⟩) hi
  have hnodup : (((m.tableAt i g).shelves.getD j []).map (·.key)).Nodup := by
    obtain ⟨_, _, htable⟩ := (h.shards i hi).tableAt g
    have hlt : j < (m.tableAt i g).shelves.length := Table.length_shelves (m.tableAt i g) ▸ hj
    rw [List.getD_eq_getElem?_getD, List.getElem?_eq_getElem hlt]
    exact htable.shelved.nodup _ (List.getElem_mem hlt)
  have hcases := h.acquire_cases hi hj
  unfold Map.visitBucket
  generalize m.acquire ⟨i, g, j⟩ = acquired at *
  obtain ⟨a, m₁⟩ := acquired
  rcases hcases with ⟨hnone, hout⟩ | ⟨n, hout, hseen⟩ | ⟨hheld, hg, hout, hbrims, hsame⟩
  · obtain rfl : a = .absent := hout
    refine ⟨_, _, _, [], rfl, .idle (.alike hfit halike) (fun _ y hy => ?_) (by simp) (by simp)⟩
    rw [hnone] at hy
    exact absurd hy (by simp)
  · obtain rfl : a = .held n := hout
    dsimp only at hseen ⊢
    rw [hseen]
    obtain ⟨go, t', m₂, news, hvisits, hleg⟩ := visitItems_leg more hf _ hnodup hfit
    have hi₂ : i < m₂.shards.size := by
      rw [hleg.course.tracks.size_eq, halike.size_eq]
      exact hi
    obtain ⟨hfit₃, halike₃⟩ := hleg.course.fit.release (p := ⟨i, g, j⟩) hi₂ n
    rw [hvisits]
    exact ⟨_, _, _, news, rfl, hleg.between halike hfit₃ halike₃ (by simp)⟩
  · obtain rfl : a = .waits := hout
    dsimp only at hfit halike hsame
    refine ⟨_, _, _, [], rfl, .idle (.alike hfit halike) (by simp) (by simp) fun _ =>
      ⟨by simpa using hheld, ?_⟩⟩
    exact Map.Alike.brimming halike hi hg hj (hsame ▸ hbrims)

omit hf in
/-- What stands on one of the shelves of a table. -/
theorem Shelved.mem_shelf {place : κ → Option UInt32} {shelves : List (List (Item κ ν))}
    (h : Shelved place shelves) {j : Nat} (hj : j < shelves.length) (y : Item κ ν) :
    y ∈ shelves.getD j [] ↔ y ∈ shelves.flatten ∧ slot shelves.length y.hash = j := by
  rw [List.getD_eq_getElem?_getD, List.getElem?_eq_getElem hj, Option.getD_some, mem_flatten_iff]
  constructor
  · exact fun hy => ⟨⟨j, _, List.getElem?_eq_getElem hj, hy⟩,
      (h.placed j _ (List.getElem?_eq_getElem hj) y hy).2⟩
  · rintro ⟨⟨j', l, hl, hy⟩, hslot⟩
    obtain rfl : j' = j := (h.placed j' l hl y hy).2.symm.trans hslot
    rw [List.getElem?_eq_getElem hj] at hl
    rwa [Option.some.inj hl]

/-- The keys of a shard with slots from `j` on, of `n`. -/
def Map.AreaFrom (m : Map κ ν) (i n j : Nat) (k : κ) : Prop :=
  (m.route (m.hash k)).shard = i ∧ j ≤ slot n (m.route (m.hash k)).hash

/-- The buckets of a guarded table, from one on. -/
theorem visitBuckets_leg {i g j n : Nat} {t : Tour κ ν ρ} {m : Map κ ν}
    (h : m.Fit (!t.view.freed)) (hi : i < m.shards.size) (hguards : 0 < (m.shardAt i).guards)
    (hg : g ≤ (m.shardAt i).aside.size) (hn : j + n = (m.tableAt i g).size) :
    ∃ a t' m' news, Map.visitBuckets (Tour.visit more f) i g j n t m = (a, t', m') ∧
      Leg (m.AreaFrom i (m.tableAt i g).size j)
        (fun y => y ∈ (m.tableAt i g).items ∧ j ≤ slot (m.tableAt i g).size y.hash)
        t m a t' m' news := by
  -- on the number of buckets left
  induction n generalizing j t m with
  | zero =>
    refine ⟨_, _, _, [], rfl, .idle (.alike h (.refl m)) (fun _ y hy => ?_) (by simp) (by simp)⟩
    have hlt := slot_lt (m.tableAt i g).nonempty y.hash
    have hle : j ≤ slot (m.tableAt i g).size y.hash := hy.2
    have hsize : (m.tableAt i g).buckets.size = (m.tableAt i g).size := rfl
    rw [hsize] at hlt
    omega
  | succ n ih =>
    have hj : j < (m.tableAt i g).size := by omega
    obtain ⟨held', _, htable⟩ := (h.shards i hi).tableAt g
    have hlen : (m.tableAt i g).shelves.length = (m.tableAt i g).size := Table.length_shelves _
    have hshelf (y : Item κ ν) : y ∈ (m.tableAt i g).shelves.getD j [] ↔
        y ∈ (m.tableAt i g).items ∧ slot (m.tableAt i g).size y.hash = j := by
      rw [← hlen]
      exact htable.shelved.mem_shelf (hlen.symm ▸ hj) y
    -- the keys on this shelf have this slot
    have hkeys (k : κ) (hk : k ∈ ((m.tableAt i g).shelves.getD j []).map (·.key)) :
        (m.route (m.hash k)).shard = i ∧
          slot (m.tableAt i g).size (m.route (m.hash k)).hash = j := by
      obtain ⟨y, hy, rfl⟩ := List.mem_map.mp hk
      obtain ⟨hmem, hslot⟩ := (hshelf y).mp hy
      obtain ⟨hshard, hhash⟩ := h.placed hi hmem
      exact ⟨hshard, hhash.symm ▸ hslot⟩
    have harea (k : κ) (hk : k ∈ ((m.tableAt i g).shelves.getD j []).map (·.key)) :
        m.AreaFrom i (m.tableAt i g).size j k :=
      ⟨(hkeys k hk).1, Nat.le_of_eq (hkeys k hk).2.symm⟩
    have hstock (y : Item κ ν) (hy : y ∈ (m.tableAt i g).shelves.getD j []) :
        y ∈ (m.tableAt i g).items ∧ j ≤ slot (m.tableAt i g).size y.hash :=
      ⟨((hshelf y).mp hy).1, Nat.le_of_eq ((hshelf y).mp hy).2.symm⟩
    obtain ⟨a, t₁, m₁, news₁, hvisit, hone⟩ := visitBucket_leg more hf h hi hj
    unfold Map.visitBuckets
    rw [hvisit]
    cases a with
    | waits => exact ⟨_, _, _, news₁, rfl, hone.mono harea hstock (by simp)⟩
    | done went =>
      cases went with
      | false => exact ⟨_, _, _, news₁, rfl, hone.mono harea hstock (by simp)⟩
      | true =>
        have htracks := hone.course.tracks
        have hsize := (htracks.shards i).size_eq hguards g hg
        have hcarried := (htracks.shards i).carried hguards g hg
        have hsize' : (m₁.tableAt i g).size = (m.tableAt i g).size := hsize
        obtain ⟨a, t₂, m₂, news₂, hvisits, hrest⟩ := ih (j := j + 1) hone.course.fit
          (htracks.size_eq ▸ hi) ((htracks.shards i).guards_eq ▸ hguards)
          (Nat.le_trans hg ((htracks.shards i).aside_le hguards)) (by rw [hsize']; omega)
        rw [hsize'] at hrest
        refine ⟨a, t₂, m₂, news₁ ++ news₂, hvisits, hone.andThen hrest ?_ ?_ hstock ?_ ?_⟩
        · rintro k (hk | ⟨hshard, hslot⟩)
          · exact harea k hk
          · rw [htracks.hash_eq, htracks.route_eq] at hshard hslot
            exact ⟨hshard, Nat.le_of_succ_le hslot⟩
        · rintro k hk ⟨_, hslot⟩
          rw [htracks.hash_eq, htracks.route_eq, (hkeys k hk).2] at hslot
          exact Nat.not_succ_le_self j hslot
        · rintro y ⟨hy, hslot⟩
          rcases hcarried.fresh y hy with hy | ⟨s, hs, hy⟩
          · exact .inl ⟨hy, Nat.le_of_succ_le hslot⟩
          · obtain ⟨t, ht, rfl⟩ := List.mem_map.mp hs
            exact .inr ⟨t, ht, hy⟩
        · rintro y ⟨hy, hslot⟩ hall
          by_cases hhere : slot (m.tableAt i g).size y.hash = j
          · exact .inl ((hshelf y).mpr ⟨hy, hhere⟩)
          · refine .inr ⟨hcarried.kept y hy fun s hs => ?_, by omega⟩
            obtain ⟨t, ht, rfl⟩ := List.mem_map.mp hs
            exact hall t ht

/-- One shard: the table that is current when it is entered. -/
theorem visitShard_leg {i : Nat} {t : Tour κ ν ρ} {m : Map κ ν} (h : m.Fit (!t.view.freed))
    (hi : i < m.shards.size) :
    ∃ a t' m' news, Map.visitShard (Tour.visit more f) i t m = (a, t', m') ∧
      Leg (fun k => (m.route (m.hash k)).shard = i) (· ∈ (m.shardAt i).table.items)
        t m a t' m' news := by
  obtain ⟨hfit, hswap⟩ := h.enter hi
  have hgen := Map.enter_fst m i
  unfold Map.visitShard
  generalize m.enter i = entered at *
  obtain ⟨g, m₁⟩ := entered
  dsimp only at hfit hswap hgen ⊢
  have htable : m₁.tableAt i g = (m.shardAt i).table := by
    rw [Map.tableAt_current (by rw [hswap.here, hgen]; exact Nat.le_refl _), hswap.here]
    rfl
  obtain ⟨a, t', m₂, news, hvisits, hleg⟩ := visitBuckets_leg more (j := 0)
    (n := (m₁.tableAt i g).size) hf hfit (hswap.size_eq ▸ hi)
    (by rw [hswap.here]; exact Nat.succ_pos _) (by rw [hswap.here, hgen]; exact Nat.le_refl _)
    (Nat.zero_add _)
  rw [hvisits]
  have hi₂ : i < m₂.shards.size := by
    rw [hleg.course.tracks.size_eq, hswap.size_eq]
    exact hi
  obtain ⟨hfit₃, hleave⟩ := hleg.course.fit.leave hi₂
  refine ⟨_, _, _, news, rfl, (hleg.bracket hswap hfit₃ hleave).mono (fun k hk => ?_)
    (fun y hy => htable ▸ hy.1) fun _ y hy => ⟨htable.symm ▸ hy, Nat.zero_le _⟩⟩
  rw [← hswap.route_eq, ← hswap.hash_eq]
  exact hk.1

/-- The shards from one on. -/
theorem visitShards_leg {i n : Nat} {t : Tour κ ν ρ} {m : Map κ ν} (h : m.Fit (!t.view.freed))
    (hn : i + n = m.shards.size) :
    ∃ a t' m' news, Map.visitShards (Tour.visit more f) i n t m = (a, t', m') ∧
      Leg (fun k => i ≤ (m.route (m.hash k)).shard)
        (fun y => y ∈ m.items ∧ i ≤ (m.route (m.hash y.key)).shard) t m a t' m' news := by
  induction n generalizing i t m with
  | zero =>
    refine ⟨_, _, _, [], rfl, .idle (.alike h (.refl m)) (fun _ y hy => ?_) (by simp) (by simp)⟩
    have hlt := h.route_lt (m.hash y.key)
    have hle := hy.2
    omega
  | succ n ih =>
    have hi : i < m.shards.size := by omega
    have hhere (y : Item κ ν) : y ∈ (m.shardAt i).table.items ↔
        y ∈ m.items ∧ (m.route (m.hash y.key)).shard = i := by
      constructor
      · exact fun hy => ⟨Map.mem_items.mpr ⟨i, hi, hy⟩, (h.placed_current hi hy).1⟩
      · rintro ⟨hy, hshard⟩
        obtain ⟨i', hi', hy⟩ := Map.mem_items.mp hy
        rwa [← hshard, (h.placed_current hi' hy).1]
    have harea (k : κ) (hk : (m.route (m.hash k)).shard = i) : i ≤ (m.route (m.hash k)).shard :=
      Nat.le_of_eq hk.symm
    have hstock (y : Item κ ν) (hy : y ∈ (m.shardAt i).table.items) :
        y ∈ m.items ∧ i ≤ (m.route (m.hash y.key)).shard :=
      ⟨((hhere y).mp hy).1, Nat.le_of_eq ((hhere y).mp hy).2.symm⟩
    obtain ⟨a, t₁, m₁, news₁, hvisit, hone⟩ := visitShard_leg more hf h hi
    unfold Map.visitShards
    rw [hvisit]
    cases a with
    | waits => exact ⟨_, _, _, news₁, rfl, hone.mono harea hstock (by simp)⟩
    | done went =>
      cases went with
      | false => exact ⟨_, _, _, news₁, rfl, hone.mono harea hstock (by simp)⟩
      | true =>
        have htracks := hone.course.tracks
        obtain ⟨a, t₂, m₂, news₂, hvisits, hrest⟩ := ih (i := i + 1) hone.course.fit
          (by rw [htracks.size_eq]; omega)
        simp only [htracks.hash_eq, htracks.route_eq] at hrest
        refine ⟨a, t₂, m₂, news₁ ++ news₂, hvisits, hone.andThen hrest ?_ ?_ hstock ?_ ?_⟩
        · rintro k (hk | hk)
          · exact harea k hk
          · exact Nat.le_of_succ_le hk
        · rintro k hk hk'
          rw [hk] at hk'
          exact Nat.not_succ_le_self i hk'
        · rintro y ⟨hy, hshard⟩
          rcases htracks.items.fresh y hy with hy | ⟨s, hs, hy⟩
          · exact .inl ⟨hy, Nat.le_of_succ_le hshard⟩
          · obtain ⟨t, ht, rfl⟩ := List.mem_map.mp hs
            exact .inr ⟨t, ht, hy⟩
        · rintro y ⟨hy, hshard⟩ hall
          by_cases heq : (m.route (m.hash y.key)).shard = i
          · exact .inl ((hhere y).mpr ⟨hy, heq⟩)
          · refine .inr ⟨htracks.items.kept y hy fun s hs => ?_, by omega⟩
            obtain ⟨t, ht, rfl⟩ := List.mem_map.mp hs
            exact hall t ht

/-- A whole scan is a leg through all keys, with the items of the map in stock. -/
theorem range_leg {t : Tour κ ν ρ} {m : Map κ ν} (h : m.Fit (!t.view.freed)) :
    ∃ a t' m' news, m.range (Tour.visit more f) t = (a, t', m') ∧
      Leg (fun _ => True) (· ∈ m.items) t m a t' m' news := by
  obtain ⟨a, t', m', news, hrun, hleg⟩ :=
    visitShards_leg more (i := 0) (n := m.shards.size) hf h (Nat.zero_add _)
  exact ⟨a, t', m', news, hrun, hleg.mono (fun _ _ => trivial) (fun _ hy => hy.1)
    fun _ _ hy => ⟨hy, Nat.zero_le _⟩⟩

end Scan

end VersionedMap
