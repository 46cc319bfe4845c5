import VersionedMap.Proofs.Capacity
import VersionedMap.Proofs.Chores

/-!
# Crews whose members keep to their own keys

Let every member of a crew have a list of chores, and let no two lists have a key in common. Then
whatever the order of the turns, **no update is lost**: a chore answers what it does when its list
is carried out alone, and the map shows of every key what its own list has left. For the first turn
of a chore does it as a whole, and no turn of another member changes the values of the list.

The second turns are for growth. When several members have found it due before one of them sees to
it, each of them still has a doubling to account for, or finds it done: the count stays below what
the table can have and the **growths outstanding** account for, one item each. When none is left
outstanding every table has fewer items than make growth due.
-/

namespace VersionedMap

variable {κ ν α : Type}

/-! ## Growths outstanding -/

namespace Map

variable {m m' : Map κ ν}

/-- The table of a shard has not more items than `g` growths that are outstanding account for. -/
def Short (m : Map κ ν) (i g : Nat) : Prop :=
  (m.shardAt i).table.count.toNat < growthThreshold (m.shardAt i).table.size + g

theorem SameView.short (h : m.SameView m') {i g : Nat} (hm : m.Short i g) : m'.Short i g := by
  have hcount : (m'.shardAt i).table.count = (m.shardAt i).table.count :=
    congrArg Prod.snd (h.view_eq i)
  unfold Short
  rw [hcount, (sizes_of_view (h.view_eq i)).1]
  exact hm

theorem length_items_shardAt_le (m : Map κ ν) {i : Nat} (hi : i < m.shards.size) :
    (m.shardAt i).table.items.length ≤ m.items.length :=
  length_items_le (shardAt_eq hi ▸ Array.getElem_mem hi)

/-- Only an insertion that makes growth due takes one more growth to account for it. -/
theorem Changes.short {i : Nat} {c : Change} (h : m.Changes i c m') (hm : m.Fit false)
    (hm' : m'.Fit false) (hroom : m.items.length < 2 ^ 64) (hroom' : m'.items.length < 2 ^ 64)
    {due : Bool}
    (hdue : (decide (c = .inserted) && (m'.shardAt i).table.needsGrowth) = due)
    {j g : Nat} (hs : m.Short j g) :
    m'.Short j (if j = i ∧ due = true then g + 1 else g) := by
  by_cases hji : j = i
  · subst hji
    have hcount := toNat_count (hm.shards j h.lt).table.accounted
      (Nat.lt_of_le_of_lt (m.length_items_shardAt_le h.lt) hroom)
    have hlt : j < m'.shards.size := h.size_eq ▸ h.lt
    have hcount' := toNat_count (hm'.shards j hlt).table.accounted
      (Nat.lt_of_le_of_lt (m'.length_items_shardAt_le hlt) hroom')
    have hcounts := h.counts
    unfold Short at hs ⊢
    rw [hcount] at hs
    rw [hcount', h.buckets_eq]
    cases c with
    | inserted =>
      simp only [Change.Counts] at hcounts
      rw [hcounts]
      cases hneeds : (m'.shardAt j).table.needsGrowth with
      | true =>
        rw [hneeds] at hdue
        subst hdue
        rw [if_pos ⟨rfl, rfl⟩]
        omega
      | false =>
        rw [hneeds] at hdue
        subst hdue
        have hnot := of_decide_eq_false hneeds
        rw [hcount', h.buckets_eq, hcounts] at hnot
        rw [if_neg (by simp)]
        omega
    | removed | unchanged =>
      simp only [Change.Counts] at hcounts
      split <;> omega
  · rw [if_neg fun h => hji h.1]
    unfold Short
    rw [h.others j hji]
    exact hs

theorem Grows.short {held : Bool} {i : Nat} (h : m.Grows i m') (hm : m.Fit held) {j g : Nat}
    (hs : m.Short j (if j = i then g + 1 else g)) : m'.Short j g := by
  unfold Short at hs ⊢
  by_cases hji : j = i
  · subst hji
    rw [if_pos rfl] at hs
    rw [h.count_eq, h.buckets_eq]
    have hlarger := growthThreshold_lt (hm.shards j h.lt).table.least
    omega
  · rw [if_neg hji] at hs
    rw [h.others j hji]
    exact hs

end Map

/-! ## Turns -/

section Turns

variable [DecidableEq κ] {m m' : Map κ ν}

theorem Map.SameView.valueAt_eq (h : m.SameView m') (k : κ) : m'.valueAt k = m.valueAt k := by
  unfold valueAt
  rw [h.items_eq]

/-- A finite map like another, but for one key. -/
theorem exists_turned (F : Finmap fun _ : κ => ν) (k : κ) (w : Option ν) :
    ∃ G : Finmap fun _ : κ => ν, ∀ k', G.lookup k' = if k' = k then w else F.lookup k' := by
  cases w with
  | none =>
    refine ⟨F.erase k, fun k' => ?_⟩
    split
    · rename_i hk
      rw [hk, Finmap.lookup_erase]
    · rename_i hk
      exact Finmap.lookup_erase_ne hk
  | some w =>
    refine ⟨F.insert k w, fun k' => ?_⟩
    split
    · rename_i hk
      rw [hk, Finmap.lookup_insert]
    · rename_i hk
      exact Finmap.lookup_insert_of_ne F hk

/--
What the first turn of a chore comes to: the chore is done, with the answer of one that is carried
out at once, and if that takes a growth to account for, then the member is to see to it.
-/
structure Begins (m : Map κ ν) (c : Chore κ ν) (v : View) (out : Progress κ ν × Map κ ν) :
    Prop where
  fit : out.2.Fit false
  shape : m.SameShape out.2
  does : m.Does c out.2
  cases :
    (out.1 = .over (c.job.spec (m.valueAt c.key)).1 v ∧
      (m.items.length < 2 ^ 64 → out.2.items.length < 2 ^ 64 →
        ∀ j g, m.Short j g → out.2.Short j g)) ∨
    (∃ i < m.shards.size, out.1 = .grows i (c.job.spec (m.valueAt c.key)).1 ∧
      (m.items.length < 2 ^ 64 → out.2.items.length < 2 ^ 64 →
        ∀ j g, m.Short j g → out.2.Short j (if j = i then g + 1 else g)))

/-- The first turn of a mutation that acts on the key of a chore as the chore does. -/
theorem begins_change (h : m.Fit false) (c : Chore κ ν) {v : View} {f : UInt32 → Mutation κ ν α}
    {spec : Option ν → α × Option ν} (hf : ∀ hash, (f hash).Acts hash c.key spec)
    (hmute : ∀ hash, (f hash).Mute) {answer : α → Answer κ ν}
    (hspec : ∀ old, c.job.spec old = (answer (spec old).1, (spec old).2)) :
    Begins m c v (m.startChange v (m.hash c.key) f answer) := by
  obtain ⟨F, hrep⟩ := h.sound.represents
  obtain ⟨G, hG⟩ := exists_turned F c.key (spec (F.lookup c.key)).2
  obtain ⟨due, m₁, hrun, hrepG, _⟩ := hrep.change hf hG
  obtain ⟨m₂, hrun', hchanges, hfit⟩ :=
    h.change_changes (fun hash => (hf hash).edits) (fun k hk => congrArg m.hash hk) hmute
  obtain ⟨hout, rfl⟩ := Prod.mk.inj (hrun.symm.trans hrun')
  obtain ⟨_, hdue⟩ := Prod.mk.inj (Attempt.done.inj hout)
  have hvalue (k : κ) : F.lookup k = m.valueAt k := hrep.lookup_eq k
  have hdoes : m.Does c m₁ := by
    refine ⟨hrepG.sound, fun k => ?_⟩
    show valueOf m₁.items k = _
    rw [← hrepG.lookup_eq, hG, hspec, hvalue, hvalue]
  have hanswer : answer (spec (F.lookup c.key)).1 = (c.job.spec (m.valueAt c.key)).1 := by
    rw [hspec, hvalue]
  unfold Map.startChange
  rw [hrun]
  cases due with
  | false =>
    refine ⟨hfit, hchanges.toSameShape, hdoes,
      .inl ⟨by rw [← hanswer], fun hroom hroom' j g hs => ?_⟩⟩
    have hshort := hchanges.short h hfit hroom hroom' hdue.symm hs
    rwa [if_neg (by simp)] at hshort
  | true =>
    refine ⟨hfit, hchanges.toSameShape, hdoes, .inr ⟨_, h.route_lt _, by rw [← hanswer],
      fun hroom hroom' j g hs => ?_⟩⟩
    have hshort := hchanges.short h hfit hroom hroom' hdue.symm hs
    simpa using hshort

/-- The one turn of a chore that only looks. -/
theorem begins_look (h : m.Fit false) (c : Chore κ ν) {v : View} (hidle : m.Idles m')
    (hspec : ∀ old, (c.job.spec old : Answer κ ν × Option ν).2 = old) :
    Begins m c v (.over (c.job.spec (m.valueAt c.key)).1 v, m') := by
  have hfit := hidle.fit false h
  refine ⟨hfit, hidle.toSameShape, ⟨hfit.sound, fun k => ?_⟩, .inl ⟨rfl, fun _ _ j g hs => ?_⟩⟩
  · rw [hspec, hidle.toSameView.valueAt_eq]
    split
    · rename_i hk
      rw [hk]
    · rfl
  · exact hidle.toSameView.short hs

theorem Chore.begins (c : Chore κ ν) (h : m.Fit false) (v : View) :
    Begins m c v ((c.order m.hash).start v m) := by
  obtain ⟨F, hrep⟩ := h.sound.represents
  obtain ⟨k, j⟩ := c
  have hlookup : F.lookup k = m.valueAt k := hrep.lookup_eq k
  cases j with
  | set w =>
    exact begins_change h ⟨k, .set w⟩ (fun hash => Mutation.acts_set hash k w)
      (fun hash => Mutation.mute_set hash k w) fun _ => rfl
  | swap w =>
    exact begins_change h ⟨k, .swap w⟩ (fun hash => Mutation.acts_set hash k w)
      (fun hash => Mutation.mute_set hash k w) fun _ => rfl
  | setAbsent w =>
    exact begins_change h ⟨k, .setAbsent w⟩ (fun hash => Mutation.acts_setAbsent hash k w)
      (fun hash => Mutation.mute_setAbsent hash k w) fun _ => rfl
  | getOrSet w =>
    exact begins_change h ⟨k, .getOrSet w⟩ (fun hash => Mutation.acts_getOrSet hash k w)
      (fun hash => Mutation.mute_getOrSet hash k w) fun _ => rfl
  | delete =>
    exact begins_change h ⟨k, .delete⟩ (fun hash => Mutation.acts_delete hash k)
      (fun hash => Mutation.mute_delete _) fun _ => rfl
  | get =>
    have hidle := Map.idles_look ⟨false, h⟩ (m.lookup k) Prod.snd
    obtain ⟨m', hget, _⟩ := hrep.get k
    have hrun : (m.read (m.lookup k) fun e m => (e.2, m)) = (.done (F.lookup k), m') := hget
    rw [hrun] at hidle
    rw [hlookup] at hget
    have hbegins := begins_look (v := v) h ⟨k, .get⟩ hidle fun _ => rfl
    show Begins m _ v (Order.start (.get (m.lookup k)) v m)
    unfold Order.start
    dsimp only
    rw [hget]
    exact hbegins
  | contains =>
    have hidle := Map.idles_look ⟨false, h⟩ (m.lookup k) fun _ => ()
    obtain ⟨m', hcontains, _⟩ := hrep.contains k
    have hrun : (m.read (m.lookup k) fun _ m => ((), m)).2 = m' := congrArg Prod.snd hcontains
    rw [hrun] at hidle
    rw [hlookup] at hcontains
    have hbegins := begins_look (v := v) h ⟨k, .contains⟩ hidle fun _ => rfl
    show Begins m _ v (Order.start (.contains (m.lookup k)) v m)
    unfold Order.start
    dsimp only
    rw [hcontains]
    exact hbegins

/-- The turn in which a member sees to an outstanding growth. -/
theorem finishGrowth_spec (h : m.Fit false) {i : Nat} (hi : i < m.shards.size) (v : View)
    (a : Answer κ ν) :
    ∃ m', m.finishGrowth v i a = (.over a v, m') ∧ m'.Fit false ∧ m.SameShape m' ∧
      (∀ k, m'.valueAt k = m.valueAt k) ∧
      ∀ j g, m.Short j (if j = i then g + 1 else g) → m'.Short j g := by
  unfold Map.finishGrowth
  rcases h.grow_cases hi with ⟨hnot, hgrow⟩ | ⟨_, m', hgrow, hgrows, hfit⟩
  · refine ⟨m, by rw [hgrow], h, .refl m, fun _ => rfl, fun j g hs => ?_⟩
    by_cases hji : j = i
    · subst hji
      have hcount := of_decide_eq_false hnot
      unfold Map.Short
      omega
    · rwa [if_neg hji] at hs
  · obtain ⟨m₂, hgrow', _, hmem⟩ := h.sound.grow hi
    obtain ⟨_, rfl⟩ := Prod.mk.inj (hgrow.symm.trans hgrow')
    refine ⟨m', by rw [hgrow], hfit, hgrows.toSameShape, fun k => ?_, fun j g hs =>
      hgrows.short h hs⟩
    exact valueOf_congr hfit.sound.nodup h.sound.nodup fun x _ => hmem x

end Turns

/-! ## Crews -/

/-- The growths in a shard that a member has outstanding. -/
def Stage.growths (i : Nat) : Stage κ ν → Nat
  | .growing j _ => if j = i then 1 else 0
  | .ready | .clearing _ => 0

/-- The growths in a shard that a crew has outstanding. -/
def Crew.growths (c : Crew κ ν) (i : Nat) : Nat := (c.members.map (·.stage.growths i)).sum

theorem sum_map_set {α : Type} (f : α → Nat) {l : List α} {t : Nat} {x : α} (hx : l[t]? = some x)
    (y : α) : ((l.set t y).map f).sum + f x = (l.map f).sum + f y := by
  induction l generalizing t with
  | nil => simp at hx
  | cons z l ih =>
    cases t with
    | zero =>
      obtain rfl : z = x := by simpa using hx
      simp only [List.set_cons_zero, List.map_cons, List.sum_cons]
      omega
    | succ t =>
      have hrest := ih (by simpa using hx)
      simp only [List.set_cons_succ, List.map_cons, List.sum_cons]
      omega

variable [DecidableEq κ]

/-- A crew of which each member has a list of chores, before the first turn. -/
def Crew.of (m : Map κ ν) (lists : List (List (Chore κ ν))) : Crew κ ν where
  map := m
  members := lists.map fun l => { todo := l.map (·.order m.hash) }

/--
How far a member has come with its list of chores in `n` turns, from the map `m` to the map `m'`:
the chores that it has begun are done, with the answers that they have alone.
-/
structure Member.Tends (m m' : Map κ ν) (l : List (Chore κ ν)) (n : Nat)
    (begun later : List (Chore κ ν)) (w : Member κ ν) : Prop where
  chores : l = begun ++ later
  todo : w.todo.drop w.stage.pending.length = later.map (·.order m.hash)
  answers : w.answers ++ w.stage.pending = (alone begun m).1
  values : ∀ c ∈ l, m'.valueAt c.key = (alone begun m).2.valueAt c.key
  stage : w.stage = .ready ∨ ∃ i < m.shards.size, ∃ a, w.stage = .growing i a
  left : 2 * later.length + w.stage.pending.length ≤ 2 * l.length - n

/-- The chores of different lists have different keys. -/
def Apart (lists : List (List (Chore κ ν))) : Prop :=
  lists.Pairwise fun l l' => ∀ c ∈ l, ∀ c' ∈ l', c.key ≠ c'.key

omit [DecidableEq κ] in
theorem Apart.ne {lists : List (List (Chore κ ν))} (h : Apart lists) {t u : Nat} (htu : t ≠ u)
    {l l' : List (Chore κ ν)} (hl : lists[t]? = some l) (hl' : lists[u]? = some l')
    {c c' : Chore κ ν} (hc : c ∈ l) (hc' : c' ∈ l') : c.key ≠ c'.key := by
  obtain ⟨ht, rfl⟩ := List.getElem?_eq_some_iff.mp hl
  obtain ⟨hu, rfl⟩ := List.getElem?_eq_some_iff.mp hl'
  rcases Nat.lt_or_gt_of_ne htu with hlt | hlt
  · exact List.pairwise_iff_getElem.mp h t u ht hu hlt c hc c' hc'
  · exact (List.pairwise_iff_getElem.mp h u t hu ht hlt c' hc' c hc).symm

/-- There are no more items than there were at first and chores that can have set one since. -/
theorem Map.Sound.length_items_le_of_others {m m' : Map κ ν} (hm : m.Sound) (hm' : m'.Sound)
    {lists : List (List (Chore κ ν))}
    (hothers : ∀ k, (∀ l ∈ lists, ∀ c ∈ l, c.key ≠ k) → m'.valueAt k = m.valueAt k) :
    m'.items.length ≤ m.items.length + lists.flatten.length := by
  have hsub : m'.items.map (·.key) ⊆ m.items.map (·.key) ++ lists.flatten.map (·.key) := by
    intro k hk
    refine List.mem_append.mpr ?_
    by_cases hchore : ∃ l ∈ lists, ∃ c ∈ l, c.key = k
    · obtain ⟨l, hl, c, hc, rfl⟩ := hchore
      exact .inr (List.mem_map_of_mem (List.mem_flatten.mpr ⟨l, hl, hc⟩))
    · obtain ⟨x, hx, rfl⟩ := List.mem_map.mp hk
      have hvalue := hothers x.key fun l hl c hc he => hchore ⟨l, hl, c, hc, he⟩
      have hthere : m'.valueAt x.key = some x.value :=
        (mem_iff_valueOf hm'.nodup).mpr ⟨x, hx, rfl, rfl⟩
      obtain ⟨y, hy, hyk, _⟩ := (mem_iff_valueOf hm.nodup).mp (hvalue.symm.trans hthere)
      exact .inl (List.mem_map.mpr ⟨y, hy, hyk⟩)
  have hle := (List.Nodup.subperm hm'.nodup hsub).length_le
  rwa [List.length_append, List.length_map, List.length_map, List.length_map] at hle

/-- How far a crew has come, where every member has had so many turns. -/
structure Crew.Tended (m : Map κ ν) (lists : List (List (Chore κ ν))) (turns : Nat → Nat)
    (c : Crew κ ν) : Prop where
  fit : c.map.Fit false
  shape : m.SameShape c.map
  length_eq : c.members.length = lists.length
  members : ∀ t l, lists[t]? = some l → ∃ (w : Member κ ν) (begun later : List (Chore κ ν)),
    c.members[t]? = some w ∧ w.Tends m c.map l (turns t) begun later
  others : ∀ k, (∀ l ∈ lists, ∀ ch ∈ l, ch.key ≠ k) → c.map.valueAt k = m.valueAt k
  short : m.items.length + lists.flatten.length < 2 ^ 64 →
    ∀ i < m.shards.size, c.map.Short i (c.growths i)

/-- Another chore done, after those that a member has begun before. -/
theorem Member.Tends.next {m m₁ m' : Map κ ν} {l begun later : List (Chore κ ν)} {n : Nat}
    {c : Chore κ ν} {w : Member κ ν} (h : w.Tends m m₁ l n begun (c :: later)) (hm : m.Sound)
    (hdoes : m₁.Does c m') :
    (alone (begun ++ [c]) m).1
        = (w.answers ++ w.stage.pending) ++ [(c.job.spec (m₁.valueAt c.key)).1] ∧
      ∀ c' ∈ l, m'.valueAt c'.key = (alone (begun ++ [c]) m).2.valueAt c'.key := by
  obtain ⟨hanswers, halone⟩ := alone_next hm begun c
  have hc : c ∈ l := h.chores ▸ List.mem_append_right begun List.mem_cons_self
  refine ⟨by rw [hanswers, h.answers, h.values c hc], fun c' hc' => ?_⟩
  rw [hdoes.value_eq, halone.value_eq, h.values c hc, h.values c' hc']

namespace Crew.Tended

variable {m : Map κ ν} {lists : List (List (Chore κ ν))} {turns : Nat → Nat} {c : Crew κ ν}

/-- A turn of one member, for what it comes to. -/
theorem took (h : c.Tended m lists turns) (hm : m.Sound) (hapart : Apart lists) {t : Nat}
    {l begun later : List (Chore κ ν)} {w w' : Member κ ν} {m' : Map κ ν} (hl : lists[t]? = some l)
    (hw : c.members[t]? = some w) (hfit : m'.Fit false) (hshape : c.map.SameShape m')
    (htends : w'.Tends m m' l (turns t + 1) begun later)
    (hvalues : ∀ k, (∀ ch ∈ l, ch.key ≠ k) → m'.valueAt k = c.map.valueAt k)
    (hshort : c.map.items.length < 2 ^ 64 → m'.items.length < 2 ^ 64 → ∀ i g,
      c.map.Short i (g + w.stage.growths i) → m'.Short i (g + w'.stage.growths i)) :
    (⟨m', c.members.set t w'⟩ : Crew κ ν).Tended m lists
      (fun u => if u = t then turns u + 1 else turns u) := by
  obtain ⟨htlt, _⟩ := List.getElem?_eq_some_iff.mp hw
  have hothers : ∀ k, (∀ l ∈ lists, ∀ ch ∈ l, ch.key ≠ k) → m'.valueAt k = m.valueAt k :=
    fun k hk =>
      (hvalues k fun ch hch => hk l (List.mem_of_getElem? hl) ch hch).trans (h.others k hk)
  refine ⟨hfit, h.shape.trans hshape, List.length_set.trans h.length_eq, fun u l' hl' => ?_,
    hothers, fun hroom i hi => ?_⟩
  · by_cases hut : u = t
    · subst hut
      obtain rfl : l = l' := Option.some.inj (hl.symm.trans hl')
      rw [if_pos rfl]
      exact ⟨w', begun, later, List.getElem?_set_self htlt, htends⟩
    -- the keys of another list have the values that they had
    · obtain ⟨w₀, begun₀, later₀, hw₀, htends₀⟩ := h.members u l' hl'
      rw [if_neg hut]
      refine ⟨w₀, begun₀, later₀, (List.getElem?_set_ne (Ne.symm hut)).trans hw₀,
        { htends₀ with values := fun ch hch => ?_ }⟩
      show m'.valueAt ch.key = _
      rw [hvalues ch.key fun ch' hch' => hapart.ne (Ne.symm hut) hl hl' hch' hch]
      exact htends₀.values ch hch
  · have hbefore := Nat.lt_of_le_of_lt
      (hm.length_items_le_of_others h.fit.sound h.others) hroom
    have hafter := Nat.lt_of_le_of_lt (hm.length_items_le_of_others hfit.sound hothers) hroom
    -- the growths that the others have outstanding stay the same
    have hsum := sum_map_set (fun w : Member κ ν => w.stage.growths i) hw w'
    have hw_le : w.stage.growths i ≤ c.growths i :=
      List.single_le_sum (fun _ _ => Nat.zero_le _) _
        (List.mem_map_of_mem (f := fun w : Member κ ν => w.stage.growths i)
          (List.mem_of_getElem? hw))
    have hnow := h.short hroom i hi
    rw [← Nat.sub_add_cancel hw_le] at hnow
    have hnext := hshort hbefore hafter i _ hnow
    have hgrowths : c.growths i - w.stage.growths i + w'.stage.growths i
        = (⟨m', c.members.set t w'⟩ : Crew κ ν).growths i := by
      unfold Crew.growths at hw_le ⊢
      dsimp only
      omega
    rwa [hgrowths] at hnext

/-- A turn of a member that is at the beginning of a chore. -/
theorem took_chore (h : c.Tended m lists turns) (hm : m.Sound) (hapart : Apart lists) {t : Nat}
    {l begun later : List (Chore κ ν)} {ch : Chore κ ν} {w : Member κ ν} (hl : lists[t]? = some l)
    (hw : c.members[t]? = some w) (htends : w.Tends m c.map l (turns t) begun (ch :: later))
    (hready : w.stage = .ready) :
    (c.turn t).Tended m lists (fun u => if u = t then turns u + 1 else turns u) := by
  have hpending : w.stage.pending = [] := by rw [hready]; rfl
  have htodo := htends.todo
  rw [hpending] at htodo
  have hcons : w.todo = ch.order m.hash :: later.map (·.order m.hash) := htodo
  have htail : w.todo.tail = later.map (·.order m.hash) := congrArg List.tail hcons
  have hstep : w.step c.map = (ch.order c.map.hash).start w.view c.map := by
    unfold Member.step
    rw [hready, hcons, h.shape.hash_eq]
  have hbegins := ch.begins h.fit w.view
  rw [turn_some hw, hstep]
  generalize (ch.order c.map.hash).start w.view c.map = out at *
  obtain ⟨p, m'⟩ := out
  obtain ⟨hanswers, hvalues⟩ := htends.next hm hbegins.does
  rw [hpending, List.append_nil] at hanswers
  have hch : ch ∈ l := htends.chores ▸ List.mem_append_right begun List.mem_cons_self
  have hothers (k : κ) (hk : ∀ ch ∈ l, ch.key ≠ k) : m'.valueAt k = c.map.valueAt k := by
    rw [hbegins.does.value_eq, if_neg (hk ch hch).symm]
  have hchores : l = (begun ++ [ch]) ++ later := by
    rw [htends.chores, List.append_assoc]
    rfl
  have hleft := htends.left
  rw [hpending, List.length_cons, List.length_nil] at hleft
  rcases hbegins.cases with ⟨hp, hshort⟩ | ⟨i, hi, hp, hshort⟩
  · obtain rfl : p = _ := hp
    refine h.took hm hapart hl hw hbegins.fit hbegins.shape
      ⟨hchores, htail, ?_, hvalues, .inl rfl, ?_⟩ hothers fun hroom hroom' i g hs => ?_
    · rw [hanswers]
      exact List.append_nil _
    · show 2 * later.length + 0 ≤ _
      omega
    · rw [hready] at hs
      exact hshort hroom hroom' i g hs
  · obtain rfl : p = _ := hp
    refine h.took hm hapart hl hw hbegins.fit hbegins.shape
      ⟨hchores, List.drop_one.trans htail, ?_, hvalues,
        .inr ⟨i, h.shape.size_eq ▸ hi, _, rfl⟩, ?_⟩
      hothers fun hroom hroom' j g hs => ?_
    · exact hanswers.symm
    · show 2 * later.length + 1 ≤ _
      omega
    · rw [hready] at hs
      have hmore := hshort hroom hroom' j g hs
      show m'.Short j (g + if i = j then 1 else 0)
      by_cases hij : j = i
      · rw [if_pos hij.symm]
        rwa [if_pos hij] at hmore
      · rw [if_neg (Ne.symm hij)]
        rwa [if_neg hij] at hmore

/-- A turn of a member that has a growth outstanding. -/
theorem took_growth (h : c.Tended m lists turns) (hm : m.Sound) (hapart : Apart lists) {t : Nat}
    {l begun later : List (Chore κ ν)} {w : Member κ ν} (hl : lists[t]? = some l)
    (hw : c.members[t]? = some w) (htends : w.Tends m c.map l (turns t) begun later) {i : Nat}
    (hi : i < m.shards.size) {a : Answer κ ν} (hstage : w.stage = .growing i a) :
    (c.turn t).Tended m lists (fun u => if u = t then turns u + 1 else turns u) := by
  obtain ⟨m', hrun, hfit, hshape, hvalues, hshort⟩ :=
    finishGrowth_spec h.fit (h.shape.size_eq ▸ hi) w.view a
  have hstep : w.step c.map = (.over a w.view, m') := by
    unfold Member.step
    rw [hstage]
    exact hrun
  have htodo := htends.todo
  have hanswers := htends.answers
  have hleft := htends.left
  rw [hstage] at htodo hanswers hleft
  rw [turn_some hw, hstep]
  refine h.took hm hapart hl hw hfit hshape
    ⟨htends.chores, ?_, ?_, fun ch hch => (hvalues ch.key).trans (htends.values ch hch),
      .inl rfl, ?_⟩
    (fun k _ => hvalues k) fun _ _ j g hs => ?_
  · exact (List.drop_one).symm.trans htodo
  · exact (List.append_nil _).trans hanswers
  · show 2 * later.length + 0 ≤ _
    have hone : 2 * later.length + 1 ≤ 2 * l.length - turns t := hleft
    omega
  · rw [hstage] at hs
    refine hshort j g ?_
    have hs' : c.map.Short j (g + if i = j then 1 else 0) := hs
    by_cases hij : j = i
    · rw [if_pos hij]
      rwa [if_pos hij.symm] at hs'
    · rw [if_neg hij]
      rwa [if_neg (Ne.symm hij)] at hs'

theorem turn (h : c.Tended m lists turns) (hm : m.Sound) (hapart : Apart lists) (t : Nat) :
    (c.turn t).Tended m lists (fun u => if u = t then turns u + 1 else turns u) := by
  cases hw : c.members[t]? with
  | none =>
    rw [turn_none hw]
    refine { h with members := fun u l hl => ?_ }
    have hut : u ≠ t := by
      rintro rfl
      obtain ⟨hlt, _⟩ := List.getElem?_eq_some_iff.mp hl
      rw [List.getElem?_eq_none_iff, h.length_eq] at hw
      omega
    rw [if_neg hut]
    exact h.members u l hl
  | some w =>
    obtain ⟨l, hl⟩ : ∃ l, lists[t]? = some l := by
      obtain ⟨hlt, _⟩ := List.getElem?_eq_some_iff.mp hw
      exact ⟨_, List.getElem?_eq_getElem (h.length_eq ▸ hlt)⟩
    obtain ⟨w', begun, later, hw', htends⟩ := h.members t l hl
    obtain rfl : w = w' := Option.some.inj (hw.symm.trans hw')
    rcases htends.stage with hready | ⟨i, hi, a, hstage⟩
    · cases later with
      | cons ch later => exact h.took_chore hm hapart hl hw htends hready
      -- nothing is left to be done
      | nil =>
        have hpending : w.stage.pending = [] := by rw [hready]; rfl
        have htodo := htends.todo
        rw [hpending] at htodo
        have hnil : w.todo = [] := htodo
        have hstep : w.step c.map = (.waits, c.map) := by
          unfold Member.step
          rw [hready, hnil]
        rw [turn_some hw, hstep]
        refine h.took hm hapart hl hw h.fit (.refl _) { htends with left := ?_ } (fun _ _ => rfl)
          fun _ _ _ _ hs => hs
        show 2 * 0 + w.stage.pending.length ≤ _
        rw [hpending]
        exact Nat.zero_le _
    · exact h.took_growth hm hapart hl hw htends hi hstage

theorem run (h : c.Tended m lists turns) (hm : m.Sound) (hapart : Apart lists)
    (schedule : List Nat) :
    (c.run schedule).Tended m lists fun u => turns u + schedule.count u := by
  induction schedule generalizing c turns with
  | nil => exact h
  | cons t schedule ih =>
    have hrest := ih (h.turn hm hapart t)
    have hturns : (fun u => (if u = t then turns u + 1 else turns u) + schedule.count u)
        = fun u => turns u + (t :: schedule).count u := by
      funext u
      rw [List.count_cons]
      by_cases hut : u = t
      · rw [if_pos hut, if_pos (by simp [hut])]
        omega
      · rw [if_neg hut, if_neg (by simpa using Ne.symm hut)]
        rfl
    rw [hturns] at hrest
    exact hrest

end Crew.Tended

/-! ## The crew before its first turn -/

omit [DecidableEq κ] in
/-- Without growths outstanding there are fewer items than make growth due. -/
theorem Map.Slack.short {held : Bool} {m : Map κ ν} (h : m.Slack) (hm : m.Fit held)
    (hroom : m.items.length < 2 ^ 64) {i : Nat} (hi : i < m.shards.size) : m.Short i 0 := by
  have htable := (hm.shards i hi).table
  have hcount := Map.toNat_count htable.accounted
    (Nat.lt_of_le_of_lt (m.length_items_shardAt_le hi) hroom)
  by_cases hsize : (m.shardAt i).table.size ≤ 2 ^ 64
  · have hslack := h i hi hsize
    unfold Map.Short
    omega
  -- a larger table can have more items than a word can tell
  · obtain ⟨e, he⟩ := htable.shelved.size
    rw [Table.length_shelves] at he
    have hlarge : 2 ^ 65 ≤ (m.shardAt i).table.size := by
      rw [he] at hsize ⊢
      exact Nat.pow_le_pow_right Nat.two_pos
        ((Nat.pow_lt_pow_iff_right (by decide)).mp (Nat.not_le.mp hsize))
    have hword := (m.shardAt i).table.count.toNat_lt
    unfold Map.Short growthThreshold
    omega

theorem Crew.tended_of {m : Map κ ν} (hm : Map.Reachable { freed := true } m)
    (lists : List (List (Chore κ ν))) : (Crew.of m lists).Tended m lists fun _ => 0 where
  fit := hm.fit
  shape := .refl m
  length_eq := List.length_map ..
  members t l hl := by
    refine ⟨{ todo := l.map (·.order m.hash) }, [], l, ?_, rfl, rfl, rfl, fun _ _ => rfl, .inl rfl,
      Nat.le_refl _⟩
    show (lists.map _)[t]? = _
    rw [List.getElem?_map, hl]
    rfl
  others _ _ := rfl
  short hroom i hi := by
    have hnone : (Crew.of m lists).growths i = 0 := by
      unfold Crew.growths Crew.of
      rw [List.map_map, List.sum_eq_zero]
      intro n hn
      obtain ⟨l, _, rfl⟩ := List.mem_map.mp hn
      rfl
    rw [hnone]
    exact hm.slack.short hm.fit (by omega) hi

/--
**Members who keep to their own keys do not get in each other's way.** Let the members of a crew
have lists of chores on a map that guests have brought about, no two with a key in common, and let
their turns come in any order. At every moment:

* a member has answered what its list answers when it is carried out alone, as far as it has come,
  and nothing is refused there; with two turns for every chore it has come to the end;
* what a list that is carried out alone answers, and the values it leaves, are those that its jobs
  are for, one after another;
* the map shows of the keys of a list what the chores that are done leave when they are carried out
  alone, and of other keys what it showed at first; no key is there twice;
* `len` is the number of items, as long as a word can tell it;
* where no growth is outstanding in a shard, the count of its table is less than three quarters of
  the number of buckets, as long as a word can tell the number of items and chores together.
-/
theorem Crew.run_apart {m : Map κ ν} (hm : Map.Reachable { freed := true } m)
    {lists : List (List (Chore κ ν))} (hapart : Apart lists) (schedule : List Nat) :
    (∀ t l, lists[t]? = some l → ∃ w, ((Crew.of m lists).run schedule).members[t]? = some w ∧
      w.answers <+: (alone l m).1 ∧ (∀ why, .refused why ∉ (alone l m).1) ∧
      (2 * l.length ≤ schedule.count t → w.answers = (alone l m).1 ∧ w.stage = .ready) ∧
      ∀ c ∈ l, ((Crew.of m lists).run schedule).map.valueAt c.key =
        (alone (l.take (w.answers.length + w.stage.pending.length)) m).2.valueAt c.key) ∧
    (∀ l : List (Chore κ ν), (alone l m).1 = (foretold l m.valueAt).1 ∧
      (alone l m).2.valueAt = (foretold l m.valueAt).2) ∧
    (∀ k, (∀ l ∈ lists, ∀ c ∈ l, c.key ≠ k) →
      ((Crew.of m lists).run schedule).map.valueAt k = m.valueAt k) ∧
    (((Crew.of m lists).run schedule).map.items.map (·.key)).Nodup ∧
    (((Crew.of m lists).run schedule).map.items.length < 2 ^ 64 →
      ((Crew.of m lists).run schedule).map.len =
        ((Crew.of m lists).run schedule).map.items.length) ∧
    (m.items.length + lists.flatten.length < 2 ^ 64 → ∀ i < m.shards.size,
      (∀ w ∈ ((Crew.of m lists).run schedule).members, ∀ a, w.stage ≠ .growing i a) →
        4 * (((Crew.of m lists).run schedule).map.shardAt i).table.count.toNat <
          3 * (((Crew.of m lists).run schedule).map.shardAt i).table.size) := by
  have hsound := hm.fit.sound
  have htended := (Crew.tended_of hm lists).run hsound hapart schedule
  generalize (Crew.of m lists).run schedule = c at *
  refine ⟨fun t l hl => ?_, alone_foretold hsound, htended.others, htended.fit.sound.nodup,
    htended.fit.sound.len_eq, fun hroom i hi hnone => ?_⟩
  · obtain ⟨w, begun, later, hw, htends⟩ := htended.members t l hl
    have hanswers := htends.answers
    have hlength : w.answers.length + w.stage.pending.length = begun.length := by
      rw [← List.length_append, hanswers, length_alone]
    have htake : l.take (w.answers.length + w.stage.pending.length) = begun := by
      rw [hlength, htends.chores, List.take_left]
    refine ⟨w, hw, ?_, alone_ne_refused hsound l, fun hturns => ?_, fun ch hch => ?_⟩
    · have hprefix := alone_prefix begun later m
      rw [← htends.chores, ← hanswers] at hprefix
      exact (List.prefix_append _ _).trans hprefix
    · have hleft := htends.left
      have hlater : later = [] := List.length_eq_zero_iff.mp (by omega)
      have hpending : w.stage.pending = [] := List.length_eq_zero_iff.mp (by omega)
      rw [hpending, List.append_nil] at hanswers
      have hall : l = begun := by rw [htends.chores, hlater, List.append_nil]
      refine ⟨by rw [hanswers, hall], ?_⟩
      rcases htends.stage with hready | ⟨i, _, a, hstage⟩
      · exact hready
      · rw [hstage] at hpending
        exact absurd hpending (List.cons_ne_nil _ _)
    · rw [htake]
      exact htends.values ch hch
  · have hzero : c.growths i = 0 := by
      refine List.sum_eq_zero fun n hn => ?_
      obtain ⟨w, hw, rfl⟩ := List.mem_map.mp hn
      cases hstage : w.stage with
      | ready | clearing j => rfl
      | growing j a =>
        have hne : j ≠ i := by
          rintro rfl
          exact hnone w hw a hstage
        exact if_neg hne
    have hshort := htended.short hroom i hi
    rw [hzero] at hshort
    unfold Map.Short growthThreshold at hshort
    omega

/-- Two lists of seven keys each. -/
def sevenEach : List (List (Chore Nat Nat)) :=
  [(List.range 7).map fun k => ⟨k, .set k⟩, (List.range 7).map fun k => ⟨k + 7, .setAbsent k⟩]

/-- Two members take turns about, so that both find growth due before either sees to it. -/
def sevenEachEnd : Crew Nat Nat :=
  (Crew.of (.new .single Nat.toUInt64 1 0) sevenEach).run (List.replicate 14 [0, 1]).flatten

/-- Two members with seven keys each leave fourteen items in thirty-two buckets. -/
theorem Crew.run_apart_seven :
    Apart sevenEach ∧ (∃ w, sevenEachEnd.members[1]? = some w ∧
      w.answers = (alone ((List.range 7).map fun k => ⟨k + 7, .setAbsent k⟩)
        (.new .single Nat.toUInt64 1 0)).1 ∧ w.answers = List.replicate 7 (.flag true)) ∧
    sevenEachEnd.map.len = 14 ∧ (sevenEachEnd.map.items.map (·.key)).Nodup ∧
    4 * (sevenEachEnd.map.shardAt 0).table.count.toNat <
      3 * (sevenEachEnd.map.shardAt 0).table.size := by
  have hapart : Apart sevenEach := by
    unfold Apart
    decide
  have hnew : Map.Reachable (κ := Nat) (ν := Nat) { freed := true }
      (.new .single Nat.toUInt64 1 0) := .new ..
  obtain ⟨hmembers, halone, _, hnodup, hlen, hcount⟩ :=
    Crew.run_apart hnew hapart (List.replicate 14 [0, 1]).flatten
  obtain ⟨w, hw, _, _, hend, _⟩ := hmembers 1 _ rfl
  have hitems : sevenEachEnd.map.items.length = 14 := by decide +kernel
  have hanswers := (hend (by decide)).1
  refine ⟨hapart, ⟨w, hw, hanswers, ?_⟩, ?_, hnodup, ?_⟩
  · rw [hanswers, (halone _).1]
    with_unfolding_all rfl
  · exact (hlen (hitems.trans_lt (by decide))).trans hitems
  · refine hcount (by decide +kernel) 0 (by decide +kernel) fun w hw a => ?_
    have hready : ∀ w ∈ sevenEachEnd.members, w.stage.pending = [] := by
      decide +kernel
    intro hstage
    have hnone := hready w hw
    rw [hstage] at hnone
    exact List.cons_ne_nil _ _ hnone

end VersionedMap
