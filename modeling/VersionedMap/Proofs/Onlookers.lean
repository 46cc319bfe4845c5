import VersionedMap.Proofs.Tours

/-!
# Onlookers

Somebody who only looks at a map, in a scan or in a read. An onlooker meets the items that are
current, all of them in their order, whether or not there is a view of the map; for every version
that it acquires is the newest, and nobody publishes meanwhile. The one thing that can happen to
it is that it comes to wait, where a bucket brims under a view.
-/

namespace VersionedMap

variable {κ ν α σ : Type}

/-! ## A view's scan -/

namespace View

theorem visit_cons (f : κ × ν → σ → Bool × σ) (x : Item κ ν) (l : List (Item κ ν)) (st : σ) :
    visit f (x :: l) st =
      if (f x.entry st).1 then visit f l (f x.entry st).2 else (false, (f x.entry st).2) := by
  rw [visit]
  cases f x.entry st with
  | mk go st' => cases go <;> rfl

theorem visit_append (f : κ × ν → σ → Bool × σ) (l l' : List (Item κ ν)) (st : σ) :
    visit f (l ++ l') st =
      if (visit f l st).1 then visit f l' (visit f l st).2 else visit f l st := by
  induction l generalizing st with
  | nil => rfl
  | cons x l ih =>
    rw [List.cons_append, visit_cons, visit_cons]
    cases (f x.entry st).1 with
    | true => exact ih _
    | false => rfl

/-- Writing down what is met gives the entries. -/
theorem visit_push (l : List (Item κ ν)) (seen : Array (κ × ν)) :
    visit (fun e seen => (true, seen.push e)) l seen
      = (true, seen ++ (l.map Item.entry).toArray) := by
  induction l generalizing seen with
  | nil => simp [visit]
  | cons x l ih =>
    rw [visit_cons, if_pos rfl, ih]
    simp

end View

namespace Map

/-! ## A map's scan -/

/-- The visitor that leaves the map as it is. -/
def onlooker (f : κ × ν → σ → Bool × σ) : Visitor κ ν σ := fun e st m =>
  let (go, st) := f e st
  (go, st, m)

theorem visitItems_onlooker (f : κ × ν → σ → Bool × σ) (l : List (Item κ ν)) (st : σ)
    (m : Map κ ν) :
    visitItems (onlooker f) l st m = ((View.visit f l st).1, (View.visit f l st).2, m) := by
  induction l generalizing st with
  | nil => rfl
  | cons x l ih =>
    rw [View.visit_cons]
    unfold visitItems onlooker
    cases f x.entry st with
    | mk go st' =>
      cases go with
      | true => exact ih st'
      | false => rfl

/-- A part of an onlooker's scan: it meets these items in order, or comes to wait. -/
structure Watches (held : Bool) (f : κ × ν → σ → Bool × σ) (l : List (Item κ ν)) (st : σ)
    (m : Map κ ν) (out : Attempt Bool × σ × Map κ ν) : Prop where
  fit : out.2.2.Fit held
  sameView : m.SameView out.2.2
  ends : (out.1, out.2.1) = (.done (View.visit f l st).1, (View.visit f l st).2) ∨
    (held = true ∧ out.1 = .waits ∧ out.2.2.Brimming)

variable {held : Bool} {f : κ × ν → σ → Bool × σ} {l l' : List (Item κ ν)} {st : σ} {m : Map κ ν}

/-- One part of a scan, and then another if the first has gone through. -/
theorem Watches.andThen {a : Attempt Bool} {st₁ : σ} {m₁ : Map κ ν}
    {out : Attempt Bool × σ × Map κ ν} (h : Watches held f l st m (a, st₁, m₁))
    (hstop : a ≠ .done true → out = (a, st₁, m₁))
    (h' : a = .done true → Watches held f l' st₁ m₁ out) : Watches held f (l ++ l') st m out := by
  rcases h.ends with hends | ⟨hheld, hwaits, hbrims⟩
  · obtain ⟨ha, hst⟩ := Prod.mk.inj hends
    dsimp only at ha hst
    cases hgo : (View.visit f l st).1 with
    | true =>
      rw [hgo] at ha
      have hrest := h' ha
      refine ⟨hrest.fit, h.sameView.trans hrest.sameView, ?_⟩
      rw [View.visit_append, if_pos hgo, ← hst]
      exact hrest.ends
    | false =>
      rw [hgo] at ha
      obtain rfl := hstop (by rw [ha]; simp)
      refine ⟨h.fit, h.sameView, ?_⟩
      rw [View.visit_append, if_neg (by rw [hgo]; simp)]
      exact .inl hends
  · obtain rfl : a = .waits := hwaits
    obtain rfl := hstop (by simp)
    exact ⟨h.fit, h.sameView, .inr ⟨hheld, rfl, hbrims⟩⟩

theorem visitBucket_watches {i g j : Nat} (h : m.Fit held) (hi : i < m.shards.size)
    (hj : j < (m.tableAt i g).size) (f : κ × ν → σ → Bool × σ) (st : σ) :
    Watches held f ((m.tableAt i g).shelves.getD j []) st m
        (visitBucket (onlooker f) ⟨i, g, j⟩ st m) ∧
      m.Alike (visitBucket (onlooker f) ⟨i, g, j⟩ st m).2.2 := by
  obtain ⟨hfit, halike⟩ := h.acquire (p := ⟨i, g, j⟩) hi
  have hcases := h.acquire_cases hi hj
  unfold visitBucket
  generalize m.acquire ⟨i, g, j⟩ = acquired at *
  obtain ⟨a, m₁⟩ := acquired
  rcases hcases with ⟨hnone, hout⟩ | ⟨n, hout, hseen⟩ | ⟨hheld, hg, hout, hbrims, hsame⟩
  · obtain rfl : a = .absent := hout
    rw [hnone]
    exact ⟨⟨hfit, halike.sameView, .inl rfl⟩, halike⟩
  · obtain rfl : a = .held n := hout
    dsimp only at hseen ⊢
    rw [hseen, visitItems_onlooker]
    obtain ⟨hfit₂, hrelease⟩ := hfit.release (p := ⟨i, g, j⟩) (halike.size_eq ▸ hi) n
    have hall := halike.trans hrelease
    exact ⟨⟨hfit₂, hall.sameView, .inl rfl⟩, hall⟩
  · obtain rfl : a = .waits := hout
    exact ⟨⟨hfit, halike.sameView, .inr ⟨hheld, rfl, halike.brimming hi hg hj (hsame ▸ hbrims)⟩⟩,
      halike⟩

theorem visitBuckets_watches {i g j n : Nat} (h : m.Fit held) (hi : i < m.shards.size)
    (hn : j + n = (m.tableAt i g).shelves.length) (f : κ × ν → σ → Bool × σ) (st : σ) :
    Watches held f ((m.tableAt i g).shelves.drop j).flatten st m
        (visitBuckets (onlooker f) i g j n st m) ∧
      m.Alike (visitBuckets (onlooker f) i g j n st m).2.2 := by
  induction n generalizing j st m with
  | zero =>
    rw [List.drop_eq_nil_of_le (by omega)]
    exact ⟨⟨h, .refl m, .inl rfl⟩, .refl m⟩
  | succ n ih =>
    have hlt : j < (m.tableAt i g).shelves.length := by omega
    obtain ⟨hone, halike⟩ :=
      visitBucket_watches h hi (Table.length_shelves (m.tableAt i g) ▸ hlt) f st
    rw [List.drop_eq_getElem_cons hlt, List.flatten_cons]
    rw [List.getD_eq_getElem?_getD, List.getElem?_eq_getElem hlt, Option.getD_some] at hone
    unfold visitBuckets
    generalize visitBucket (onlooker f) ⟨i, g, j⟩ st m = visited at *
    obtain ⟨a, st₁, m₁⟩ := visited
    -- visiting one bucket leaves the shelves of the others as they were
    have hshelves : (m₁.tableAt i g).shelves = (m.tableAt i g).shelves :=
      (halike.shards i).shelves_eq g
    cases a with
    | waits => exact ⟨hone.andThen (fun _ => rfl) (by simp), halike⟩
    | done went =>
      cases went with
      | false => exact ⟨hone.andThen (fun _ => rfl) (by simp), halike⟩
      | true =>
        obtain ⟨hrest, halike'⟩ := ih (j := j + 1) hone.fit (halike.size_eq ▸ hi)
          (by rw [hshelves]; omega) st₁
        rw [hshelves] at hrest
        exact ⟨hone.andThen (by simp) fun _ => hrest, halike.trans halike'⟩

theorem visitShard_watches {i : Nat} (h : m.Fit held) (hi : i < m.shards.size)
    (f : κ × ν → σ → Bool × σ) (st : σ) :
    Watches held f (m.shardAt i).table.items st m (visitShard (onlooker f) i st m) := by
  obtain ⟨hfit, henter⟩ := h.enter hi
  have hg := henter.enter_fst_le
  unfold visitShard
  generalize m.enter i = entered at *
  obtain ⟨g, m₁⟩ := entered
  dsimp only at hfit henter hg ⊢
  have htable : m₁.tableAt i g = (m.shardAt i).table := by
    rw [tableAt_current hg, henter.here]
    rfl
  have hi₁ : i < m₁.shards.size := henter.size_eq ▸ hi
  obtain ⟨hwatch, halike⟩ := visitBuckets_watches (j := 0) (g := g) (n := (m₁.tableAt i g).size)
    hfit hi₁ (by rw [Table.length_shelves, Nat.zero_add]) f st
  rw [List.drop_zero, htable, ← Table.items_eq_flatten] at hwatch
  rw [htable] at halike ⊢
  generalize visitBuckets (onlooker f) i g 0 (m.shardAt i).table.size st m₁ = out at *
  obtain ⟨a, st', m₂⟩ := out
  obtain ⟨hfit₃, hleave⟩ := hwatch.fit.leave (i := i) (halike.size_eq ▸ hi₁)
  refine ⟨hfit₃, ?_, hwatch.ends.imp_right fun ⟨hheld, hwaits, hbrims⟩ =>
    ⟨hheld, hwaits, Leg.brimming_leave hleave hbrims⟩⟩
  exact ((henter.sameView rfl).trans hwatch.sameView).trans
    (hleave.sameView (Shard.table_leave _))

theorem visitShards_watches {i n : Nat} (h : m.Fit held) (hn : i + n = m.shards.size)
    (f : κ × ν → σ → Bool × σ) (st : σ) :
    Watches held f (m.holdings.drop i).flatten st m (visitShards (onlooker f) i n st m) := by
  have hlen := m.length_holdings
  induction n generalizing i st m with
  | zero =>
    rw [List.drop_eq_nil_of_le (by omega)]
    exact ⟨h, .refl m, .inl rfl⟩
  | succ n ih =>
    have hlt : i < m.holdings.length := by omega
    have hget : m.holdings[i] = (m.shardAt i).table.items := by
      have hget? := getElem?_holdings m i
      rw [List.getElem?_eq_getElem hlt, if_pos (hlen ▸ hlt)] at hget?
      exact Option.some.inj hget?
    have hone := visitShard_watches h (hlen ▸ hlt) f st
    rw [List.drop_eq_getElem_cons hlt, hget, List.flatten_cons]
    unfold visitShards
    generalize visitShard (onlooker f) i st m = visited at *
    obtain ⟨a, st₁, m₁⟩ := visited
    have hsame : m.SameView m₁ := hone.sameView
    cases a with
    | waits => exact hone.andThen (fun _ => rfl) (by simp)
    | done went =>
      cases went with
      | false => exact hone.andThen (fun _ => rfl) (by simp)
      | true =>
        have hrest := ih (i := i + 1) hone.fit (by rw [hsame.size_eq]; omega) st₁
          (by rw [hsame.holdings_eq, hlen, hsame.size_eq])
        rw [hsame.holdings_eq] at hrest
        exact hone.andThen (by simp) fun _ => hrest

/-- An onlooker's scan meets the current items in their order, or comes to wait. -/
theorem Fit.range_watches (h : m.Fit held) (f : κ × ν → σ → Bool × σ) (st : σ) :
    Watches held f m.items st m (m.range (onlooker f) st) :=
  visitShards_watches h (Nat.zero_add _) f st

/-- A listing has the current entries in their order, or comes to wait. -/
theorem Fit.entries_watches (h : m.Fit held) :
    m.entries.1 = .done (m.items.map Item.entry).toArray ∨
      (held = true ∧ m.entries.1 = .waits ∧ m.entries.2.Brimming) := by
  have hvisitor : (fun e (seen : Array (κ × ν)) m => (true, seen.push e, m)) =
      (onlooker fun e seen => (true, seen.push e) : Visitor κ ν (Array (κ × ν))) := rfl
  have hends := (h.range_watches (fun e (seen : Array (κ × ν)) => (true, seen.push e)) #[]).ends
  unfold entries
  rw [hvisitor]
  generalize m.range (onlooker fun e seen => (true, seen.push e)) #[] = out at *
  obtain ⟨a, seen, m'⟩ := out
  rw [View.visit_push, Array.empty_append] at hends
  rcases hends with hends | ⟨hheld, hwaits, hbrims⟩
  · obtain ⟨rfl, rfl⟩ := Prod.mk.inj hends
    exact .inl rfl
  · obtain rfl : a = .waits := hwaits
    exact .inr ⟨hheld, rfl, hbrims⟩

/-- An onlooker's read finds the current item that answers, or comes to wait. -/
theorem Fit.read_watches (h : m.Fit held) (q : Lookup κ) (f : κ × ν → α) :
    (m.read q fun e m => (f e, m)).1 = .done ((m.find? q).map fun i => f i.entry) ∨
      (held = true ∧ (m.read q fun e m => (f e, m)).1 = .waits ∧ (m.bucketOf q.hash).Brims) := by
  rcases h.read_cases q fun e m => (f e, m) with
    ⟨hnone, m', _, _, hread⟩ | ⟨i, p, n, m', hsome, _, _, _, hread⟩ |
    ⟨hheld, hbrims, m', _, _, hread⟩
  · rw [hread, hnone]
    exact .inl rfl
  · rw [hread, hsome]
    exact .inl rfl
  · rw [hread]
    exact .inr ⟨hheld, rfl, hbrims⟩

end Map

end VersionedMap
