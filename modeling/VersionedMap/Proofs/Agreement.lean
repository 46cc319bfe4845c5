import VersionedMap.Proofs.Onlookers
import VersionedMap.Proofs.Reach

/-!
# What a view answers and what its map answers

A view and its map go different ways to the same answers. The view looks at the newest version of
every bucket, and splits a hash among the shards itself; the map acquires versions, and its layout
knows where a hash leads. As long as the view holds the locks they agree on every **inquiry**, at
every moment, whatever else is done to the map meanwhile: until the view wipes the map, on what the
map answered before it was locked, and from then on that there is nothing.

The one way in which they differ is that the map may fail to answer: an inquiry that acquires comes
to wait for the view if its bucket brims.
-/

namespace VersionedMap

variable {κ ν σ α : Type}

/-! ## What shows -/

namespace Map

variable {m m' : Map κ ν}

/-- What is to be seen of every shard. -/
def views (m : Map κ ν) : List (List (List (Item κ ν)) × UInt64) := m.shards.toList.map Shard.view

theorem getElem?_views (m : Map κ ν) (i : Nat) :
    m.views[i]? = if i < m.shards.size then some (m.shardAt i).view else none := by
  unfold views shardAt
  rw [List.getElem?_map, Array.getElem?_toList, Array.getD_eq_getD_getElem?]
  split
  · rename_i hi
    rw [Array.getElem?_eq_getElem hi]
    rfl
  · rename_i hi
    rw [Array.getElem?_eq_none (Nat.not_lt.mp hi)]
    rfl

theorem len_eq_views (m : Map κ ν) : m.len = (m.views.map (·.2.toNat)).sum := by
  rw [len_eq_sum]
  unfold views
  rw [List.map_map]
  rfl

theorem capacity_eq_views (m : Map κ ν) : m.capacity = (m.views.map (·.1.length)).sum := by
  unfold capacity views
  rw [← Array.foldl_toList, foldl_add_eq, Nat.zero_add, List.map_map]
  refine congrArg List.sum (List.map_congr_left fun d _ => ?_)
  exact (Table.length_shelves d.table).symm

theorem items_eq_views (m : Map κ ν) : m.items = (m.views.map (·.1.flatten)).flatten := by
  unfold views
  rw [items_eq_flatten, List.map_map]
  refine congrArg List.flatten (List.map_congr_left fun d _ => ?_)
  exact Table.items_eq_flatten d.table

theorem SameView.views_eq (h : m.SameView m') : m'.views = m.views := by
  refine List.ext_getElem? fun i => ?_
  rw [getElem?_views, getElem?_views, h.size_eq, h.view_eq]

theorem Wiped.views_eq (h : m.Wiped m') :
    m'.views = m.views.map fun v => (List.replicate v.1.length [], 0) := by
  refine List.ext_getElem? fun i => ?_
  rw [List.getElem?_map, getElem?_views, getElem?_views, h.size_eq, h.view_eq]
  split
  · rw [← Table.length_shelves]
    rfl
  · rfl

theorem SameView.find?_eq (h : m.SameView m') (q : Lookup κ) : m'.find? q = m.find? q := by
  unfold find? shelfAt queryOf
  rw [h.route_eq, h.shelves_eq]

theorem SameView.len_eq (h : m.SameView m') : m'.len = m.len := by
  rw [len_eq_views, h.views_eq, ← len_eq_views]

theorem SameView.capacity_eq (h : m.SameView m') : m'.capacity = m.capacity := by
  rw [capacity_eq_views, h.views_eq, ← capacity_eq_views]

theorem Wiped.len_eq (h : m.Wiped m') : m'.len = 0 := by
  rw [len_eq_views, h.views_eq, List.map_map]
  induction m.views with
  | nil => rfl
  | cons v l ih =>
    rw [List.map_cons, List.sum_cons, ih]
    rfl

theorem Wiped.items_eq (h : m.Wiped m') : m'.items = [] := by
  rw [items_eq_views, h.views_eq, List.map_map, List.flatten_eq_nil_iff]
  intro l hl
  obtain ⟨v, _, rfl⟩ := List.mem_map.mp hl
  exact List.flatten_replicate_nil

theorem Wiped.find?_eq (h : m.Wiped m') (q : Lookup κ) : m'.find? q = none := by
  have hshelves : (m'.shardAt (m'.route q.hash).shard).table.shelves =
      List.replicate _ [] := congrArg Prod.fst (h.view_eq _)
  unfold find? shelfAt
  rw [hshelves, List.getD_eq_getElem?_getD, List.getElem?_replicate]
  split <;> rfl

theorem Wiped.capacity_eq (h : m.Wiped m') : m'.capacity = m.capacity := by
  rw [capacity_eq_views, capacity_eq_views, h.views_eq, List.map_map]
  refine congrArg List.sum (List.map_congr_left fun v _ => ?_)
  exact List.length_replicate

/-- A table finds what stands on the shelf of the hash. -/
theorem find?_table (m : Map κ ν) (q : Lookup κ) :
    (m.shardAt (m.route q.hash).shard).table.find? (m.queryOf q) = m.find? q := by
  unfold find?
  rw [← items_bucketOf]
  exact Bucket.find?_eq ..

theorem isEmpty_eq (m : Map κ ν) : m.isEmpty = (m.len == 0) := by
  rw [len_eq_sum]
  unfold isEmpty
  rw [← Array.all_toList]
  induction m.shards.toList with
  | nil => rfl
  | cons d l ih =>
    have hzero : (d.table.count == 0) = (d.table.count.toNat == 0) := by
      rw [Bool.eq_iff_iff, beq_iff_eq, beq_iff_eq, ← UInt64.toNat_inj]
      rfl
    rw [List.all_cons, ih, hzero, List.map_cons, List.sum_cons, Bool.eq_iff_iff, Bool.and_eq_true,
      beq_iff_eq, beq_iff_eq, beq_iff_eq]
    omega

end Map

/-! ## Inquiries -/

/-- What can be asked of a map and of a view alike; callbacks only look. -/
inductive Inquiry (κ ν σ α : Type)
  | len
  | isEmpty
  | contains (q : Lookup κ)
  | get (q : Lookup κ)
  | read (q : Lookup κ) (f : κ × ν → α)
  | range (f : κ × ν → σ → Bool × σ) (start : σ)
  | text (long : Bool)

/-- What is found out. -/
inductive Finding (ν σ α : Type)
  | number (n : Nat)
  | flag (b : Bool)
  | value (v : Option ν)
  | result (r : Option α)
  /-- Whether a scan went through, and what it has come to. -/
  | scanned (went : Bool) (st : σ)
  | text (s : String)
deriving DecidableEq

variable [Text.Shown κ] [Text.Shown ν]

/-- Asks a view. -/
def View.ask (v : View) (m : Map κ ν) : Inquiry κ ν σ α → Except Refusal (Finding ν σ α)
  | .len => (v.len m).map .number
  | .isEmpty => (v.isEmpty m).map .flag
  | .contains q => (v.contains m q).map .flag
  | .get q => (v.get m q).map .value
  | .read q f => (v.find? m q).map fun e => .result (e.map f)
  | .range f st => (v.range m f st).map fun (went, st) => .scanned went st
  | .text long => .ok (.text (v.text m long))

/-- Asks a map. -/
def Map.ask (m : Map κ ν) : Inquiry κ ν σ α → Attempt (Finding ν σ α) × Map κ ν
  | .len => (.done (.number m.len), m)
  | .isEmpty => (.done (.flag m.isEmpty), m)
  | .contains q =>
    let (a, m) := m.contains q
    (a.map .flag, m)
  | .get q =>
    let (a, m) := m.get q
    (a.map .value, m)
  | .read q f =>
    let (a, m) := m.read q fun e m => (f e, m)
    (a.map .result, m)
  | .range f st =>
    let (a, st, m) := m.range (Map.onlooker f) st
    (a.map fun went => .scanned went st, m)
  | .text long =>
    let (a, m) := m.text long
    (a.map .text, m)

/-- What is to be found out, going by the items. -/
def Map.finding (m : Map κ ν) : Inquiry κ ν σ α → Finding ν σ α
  | .len => .number m.len
  | .isEmpty => .flag (m.len == 0)
  | .contains q => .flag (m.find? q).isSome
  | .get q => .value ((m.find? q).map (·.value))
  | .read q f => .result ((m.find? q).map fun i => f i.entry)
  | .range f st => .scanned (View.visit f m.items st).1 (View.visit f m.items st).2
  | .text long => .text (Text.list long (m.items.map (·.entry)))

namespace Inquiry

/-- What is to be found out of a map without items. -/
def blank : Inquiry κ ν σ α → Finding ν σ α
  | .len => .number 0
  | .isEmpty => .flag true
  | .contains _ => .flag false
  | .get _ => .value none
  | .read _ _ => .result none
  | .range _ st => .scanned true st
  | .text long => .text (Text.list long ([] : List (κ × ν)))

/-- What an inquiry can come to wait at, in the map that it starts with or the one it leaves. -/
def Stuck (i : Inquiry κ ν σ α) (m m' : Map κ ν) : Prop :=
  match i with
  | .len | .isEmpty => False
  | .contains q | .get q | .read q _ => (m.bucketOf q.hash).Brims
  | .range _ _ | .text _ => m'.Brimming

end Inquiry

/-! ## Going by the items -/

namespace Map

variable {held : Bool} {m m' : Map κ ν}

/-- A view that has not been freed answers every inquiry by the items. -/
theorem Fit.view_ask (h : m.Fit held) {v : View} (hv : v.freed = false) (i : Inquiry κ ν σ α) :
    v.ask m i = .ok (m.finding i) := by
  have hcheck : v.check = .ok () := by
    unfold View.check
    rw [hv]
    rfl
  have hfind (q : Lookup κ) : v.find? m q = .ok ((m.find? q).map (·.entry)) := by
    unfold View.find?
    rw [hcheck, ← h.route_eq_splitHash, ← find?_table]
    rfl
  cases i with
  | len =>
    unfold View.ask View.len
    rw [hcheck]
    rfl
  | isEmpty =>
    unfold View.ask View.isEmpty View.len
    rw [hcheck]
    rfl
  | contains q =>
    dsimp only [View.ask, View.contains]
    rw [hfind]
    show Except.ok _ = _
    dsimp only [finding]
    cases m.find? q <;> rfl
  | get q =>
    dsimp only [View.ask, View.get]
    rw [hfind]
    show Except.ok _ = _
    dsimp only [finding]
    cases m.find? q <;> rfl
  | read q f =>
    dsimp only [View.ask]
    rw [hfind]
    show Except.ok _ = _
    dsimp only [finding]
    cases m.find? q <;> rfl
  | range f st =>
    unfold View.ask View.range
    rw [hcheck]
    rfl
  | text long =>
    unfold View.ask View.text
    rw [hv]
    rfl

/-- A map answers every inquiry by the items, or comes to wait for the view of it. -/
theorem Fit.ask (h : m.Fit held) (i : Inquiry κ ν σ α) :
    (m.ask i).1 = .done (m.finding i) ∨
      (held = true ∧ (m.ask i).1 = .waits ∧ i.Stuck m (m.ask i).2) := by
  cases i with
  | len => exact .inl rfl
  | isEmpty =>
    refine .inl ?_
    unfold Map.ask finding
    rw [isEmpty_eq]
  | contains q =>
    dsimp only [Map.ask, Map.contains, finding]
    rcases h.read_watches q fun _ => () with hread | ⟨hheld, hread, hbrims⟩
    · rw [hread]
      refine .inl ?_
      cases m.find? q <;> rfl
    · rw [hread]
      exact .inr ⟨hheld, rfl, hbrims⟩
  | get q =>
    dsimp only [Map.ask, Map.get, finding]
    rcases h.read_watches q fun e => e.2 with hread | ⟨hheld, hread, hbrims⟩
    · rw [hread]
      exact .inl rfl
    · rw [hread]
      exact .inr ⟨hheld, rfl, hbrims⟩
  | read q f =>
    dsimp only [Map.ask, finding]
    rcases h.read_watches q f with hread | ⟨hheld, hread, hbrims⟩
    · rw [hread]
      exact .inl rfl
    · rw [hread]
      exact .inr ⟨hheld, rfl, hbrims⟩
  | range f st =>
    have hends := (h.range_watches f st).ends
    dsimp only [Map.ask, finding]
    generalize m.range (onlooker f) st = out at *
    obtain ⟨a, st', m'⟩ := out
    rcases hends with hends | ⟨hheld, hwaits, hbrims⟩
    · obtain ⟨rfl, rfl⟩ := Prod.mk.inj hends
      exact .inl rfl
    · obtain rfl : a = .waits := hwaits
      exact .inr ⟨hheld, rfl, hbrims⟩
  | text long =>
    dsimp only [Map.ask, Map.text, finding]
    rcases h.entries_watches with hends | ⟨hheld, hwaits, hbrims⟩
    · rw [hends]
      exact .inl rfl
    · rw [hwaits]
      exact .inr ⟨hheld, rfl, hbrims⟩

/-- What shows the same answers the same. -/
theorem SameView.finding_eq (h : m.SameView m') (i : Inquiry κ ν σ α) :
    m'.finding i = m.finding i := by
  cases i <;> simp only [finding, h.len_eq, h.items_eq, h.find?_eq]

/-- Of a map that has been wiped nothing is to be found out. -/
theorem Wiped.finding_eq (h : m.Wiped m') (i : Inquiry κ ν σ α) : m'.finding i = i.blank := by
  cases i <;> simp only [finding, h.len_eq, h.items_eq, h.find?_eq] <;> rfl

/-! ## Under a view -/

variable [DecidableEq κ]

/--
**A view and its map answer alike.** Take a view of a map that guests can bring about, and then let
any guest work with both. At every moment until the view is freed, inside callbacks too:

* a hash leads the view where it leads the map, which in a map of one table is the table;
* the map has the buckets that it had;
* the view answers every inquiry, and the map answers the same, or comes to wait where a bucket
  brims;
* until the view is wiped, this is what the map answered before it was locked;
* from then on it is that there is nothing.
-/
theorem view_agrees_with_map {v : View} {m₀ : Map κ ν} (h : Reachable v m₀)
    (hfree : v.freed = true) :
    ∃ w m, m₀.lock = (.done w, m) ∧
      ∀ (ρ : Type) (g : Guest κ ν ρ) (before : List (Sight κ ν)) (t : Sight κ ν)
        (after : List (Sight κ ν)),
        ⟨none, w, m⟩ :: (g.run w m).1.log = before ++ t :: after →
        (∀ s ∈ before ++ [t], ¬ s.Frees) →
        (∀ hash, t.map.route hash = splitHash (foldHash hash) t.map.shards.size) ∧
        (t.map.layout = .single → ∀ hash, splitHash hash t.map.shards.size = ⟨0, hash⟩) ∧
        t.map.capacity = m₀.capacity ∧
        ∀ (σ α : Type) (i : Inquiry κ ν σ α), ∃ a, t.view.ask t.map i = .ok a ∧
          ((t.map.ask i).1 = .done a ∨
            ((t.map.ask i).1 = .waits ∧ i.Stuck t.map (t.map.ask i).2)) ∧
          ((∀ s ∈ before ++ [t], ¬ s.Wipes) → (m₀.ask i).1 = .done a) ∧
          ((∃ s ∈ before ++ [t], s.Wipes) → a = i.blank) := by
  have hfit₀ := h.fit
  rw [hfree] at hfit₀
  obtain ⟨m, hlock, hfit, _, hsame₀⟩ := hfit₀.lock
  refine ⟨{}, m, hlock, fun ρ g before t after hlog hkept => ?_⟩
  have hcourse := (Course.seen (v := {}) hfit).note (g.run_course (v := {}) hfit)
  have hsights := hcourse.sights
  have hfollows := hcourse.follows
  -- the log of who has looked first is the one of the statement
  change ∀ s ∈ ⟨none, {}, m⟩ :: (g.run {} m).1.log, _ at hsights
  change Follows {} m (⟨none, {}, m⟩ :: (g.run {} m).1.log) _ _ at hfollows
  rw [hlog] at hsights hfollows
  have htfit := hsights t (by simp)
  obtain ⟨hview, hcases⟩ := hfollows.held rfl hkept
  have hopen : t.view.freed = false := by rw [hview]
  refine ⟨htfit.route_eq_splitHash, fun hlayout hash => ?_, ?_, fun σ α i =>
    ⟨t.map.finding i, htfit.view_ask hopen i, (htfit.ask i).imp_right And.right, ?_, ?_⟩⟩
  · rw [htfit.single hlayout, splitHash_one]
  · rcases hcases with ⟨_, hsame⟩ | ⟨_, hwiped⟩
    · exact hsame.capacity_eq.trans hsame₀.capacity_eq
    · exact hwiped.capacity_eq.trans hsame₀.capacity_eq
  · intro hnone
    rcases hcases with ⟨_, hsame⟩ | ⟨⟨s, hs, hwipes⟩, _⟩
    · rw [(hsame₀.trans hsame).finding_eq i]
      exact (hfit₀.ask i).resolve_right fun hwaits => absurd hwaits.1 (by simp)
    · exact absurd hwipes (hnone s hs)
  · rintro ⟨s, hs, hwipes⟩
    rcases hcases with ⟨hnone, _⟩ | ⟨_, hwiped⟩
    · exact absurd hwipes (hnone s hs)
    · exact hwiped.finding_eq i

/-- Two keys in four shards. -/
def twoInFour : Map UInt64 UInt64 := (new .sharded id 3 0).extend [(1, 10), (2, 20)]

/-- Asks for the first of them. -/
def asksFirst : Inquiry UInt64 UInt64 Unit Unit := .get ⟨1, (· == 1)⟩

/-- Wipes the map by way of the view. -/
def wiper : Guest UInt64 UInt64 Unit := .act .wipe fun _ => .stop ()

/-- The view finds what the map had, until it wipes the map. -/
theorem view_agrees_with_map_wiped :
    ∃ w m, twoInFour.lock = (.done w, m) ∧ w.ask m asksFirst = .ok (.value (some 10)) ∧
      ∃ t ∈ (wiper.run w m).1.log, t.view.ask t.map asksFirst = .ok (.value none) ∧
        t.map.capacity = twoInFour.capacity := by
  have hreach : Reachable { freed := true } twoInFour := (Reachable.new _ _ _ _).extend _
  obtain ⟨w, m, hlock, hagree⟩ := view_agrees_with_map hreach rfl
  obtain ⟨t, hlog, a, hdeed⟩ : ∃ t, (wiper.run w m).1.log = [t] ∧ t.Wipes := ⟨_, rfl, _, rfl⟩
  refine ⟨w, m, hlock, ?_, t, hlog ▸ List.mem_singleton_self t, ?_⟩
  · obtain ⟨_, _, _, hask⟩ := hagree Unit wiper [] ⟨none, w, m⟩ _ rfl (by simp [Sight.Frees])
    obtain ⟨a, hview, _, hbefore, _⟩ := hask Unit Unit asksFirst
    have hmap : (match (twoInFour.ask asksFirst).1 with
        | .done a => decide (a = .value (some 10))
        | .waits => false) = true := by decide +kernel
    rw [hbefore (by simp [Sight.Wipes])] at hmap
    rw [hview, of_decide_eq_true hmap]
  · obtain ⟨_, _, hcapacity, hask⟩ := hagree Unit wiper [⟨none, w, m⟩] t [] (by rw [hlog]; rfl)
      (by simp [Sight.Frees, hdeed])
    obtain ⟨b, hview, _, _, hafter⟩ := hask Unit Unit asksFirst
    rw [hview, hafter ⟨t, by simp, a, hdeed⟩]
    exact ⟨rfl, hcapacity⟩

end Map

end VersionedMap
