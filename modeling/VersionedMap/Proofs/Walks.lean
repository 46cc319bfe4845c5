import VersionedMap.Proofs.Holds

/-!
# Walks

What a guest does to a map is a **walk**: it looks and does deeds, and between them shards are
entered and left, and versions acquired and let go of, in pairs, one inside the other. While a
version is held the walk goes on with one hold more. So what is to be shown of all that guests do,
whatever runs in whatever, is shown of the few ways to make a walk.
-/

namespace VersionedMap

variable {κ ν ρ σ α : Type}

namespace Map

/-- There is such a place, and its table is guarded. -/
structure Guarded (m : Map κ ν) (p : Place) : Prop where
  shard_lt : p.shard < m.shards.size
  guards_pos : 0 < (m.shardAt p.shard).guards
  generation_le : p.generation ≤ (m.shardAt p.shard).aside.size
  bucket_lt : p.bucket < (m.tableAt p.shard p.generation).size

/-- A guarded place stays, whatever is done to the map. -/
theorem Guarded.tracks {m m' : Map κ ν} {p : Place} (h : m.Guarded p) {ms : List (Map κ ν)}
    (htracks : m.Tracks ms m') : m'.Guarded p where
  shard_lt := htracks.size_eq ▸ h.shard_lt
  guards_pos := (htracks.shards p.shard).guards_eq ▸ h.guards_pos
  generation_le := h.generation_le.trans ((htracks.shards p.shard).aside_le h.guards_pos)
  bucket_lt := by
    have hsize := (htracks.shards p.shard).size_eq h.guards_pos _ h.generation_le
    exact Nat.lt_of_lt_of_eq h.bucket_lt hsize.symm

/-- Whoever holds a publication finds its version in the bucket. -/
theorem Fit.version_acquired {held : Bool} {m : Map κ ν} (h : m.Fit held) {p : Place}
    (hp : m.Guarded p) {n : Nat} (hout : (m.acquire p).1 = .held n) :
    ∃ w, ((m.acquire p).2.bucketAt p).version? n = some w := by
  obtain ⟨_, _, htable⟩ := (h.shards p.shard hp.shard_lt).tableAt p.generation
  have hanch : (m.bucketAt p).Anchored := (Table.steady_getD htable.steady hp.bucket_lt).anchored
  have hafter : (m.acquire p).2.bucketAt p = ((m.bucketAt p).acquire m.shared).2.1 :=
    bucketAt_modifyBucket hp.shard_lt hp.bucket_lt _
  have hshort := Bucket.shortens_acquire hanch m.shared
  unfold Map.acquire at hout
  rw [modifyBucket_fst] at hout
  rw [hafter]
  rcases Bucket.acquire_cases hanch m.shared with
    ⟨_, hacq⟩ | ⟨_, _, _, hacq⟩ | ⟨hne, _, _, hacq⟩ | ⟨hne, _, hacq⟩
  · rw [hacq] at hout
    cases hout
  · rw [hacq] at hout
    cases hout
  all_goals
    -- what is acquired is the newest version, and the chain does not come to an end with it
    have hn : n = (m.bucketAt p).published := by
      rw [hacq] at hout
      exact (Bucket.Acquisition.held.inj hout).symm
    have hlive : ((m.bucketAt p).acquire m.shared).2.1.chain ≠ [] := fun hnil =>
      hne (hshort.vacant hnil)
    obtain ⟨w, l, hcons⟩ := List.exists_cons_of_ne_nil hlive
    refine ⟨w, ?_⟩
    unfold Bucket.version?
    rw [hshort.published_eq, hn, Nat.sub_self, hcons, List.getElem?_cons_zero]

end Map

/-! ## Walks -/

/-- A callback runs with an entry of the version. -/
def Hold.Handed (h : Hold κ ν) : Prop := ∃ x ∈ h.version.items, h.entry = some x.entry

theorem Hold.handed_hand {h : Hold κ ν} {H : List (Hold κ ν)} {x : Item κ ν}
    (hx : x ∈ h.version.items) (hH : ∀ h' ∈ H, h'.Handed) :
    ∀ h' ∈ h.hand x.entry :: H, h'.Handed :=
  List.forall_mem_cons.mpr ⟨⟨x, hx, rfl⟩, hH⟩

variable [DecidableEq κ]

/--
The ways to make a walk. It starts from what is held, a view and a map, and comes with some
instants to another view and map, while what was held at the start is still held. There is nothing
to be seen but by callbacks, so there is one for each version that is held then.
-/
inductive Walk : List (Hold κ ν) → View → Map κ ν → List (Instant κ ν) → View → Map κ ν → Prop
  | rest {H v m} : Walk H v m [] v m
  | look {H v m} (hH : ∀ h ∈ H, h.Handed) : Walk H v m [⟨H, ⟨none, v, m⟩⟩] v m
  | act {H v m} (hH : ∀ h ∈ H, h.Handed) (d : Deed κ ν) : Walk H v m
      [⟨H, ⟨some (d, (d.run v m).1), (d.run v m).2.1, (d.run v m).2.2⟩⟩]
      (d.run v m).2.1 (d.run v m).2.2
  | trans {H v m l v' m' l' v'' m''} :
      Walk H v m l v' m' → Walk H v' m' l' v'' m'' → Walk H v m (l ++ l') v'' m''
  /-- From when a shard is entered to when it is left. -/
  | guard {H v m i l v' m'} (hi : i < m.shards.size) :
      Walk H v (m.enter i).2 l v' m' → Walk H v m l v' (m'.leave i)
  /-- To acquire a version, and get none. -/
  | miss {H v m p} (hp : m.Guarded p) (hout : ∀ n, (m.acquire p).1 ≠ .held n) :
      Walk H v m [] v (m.acquire p).2
  /--
  From when a version is acquired to when it is let go of. Where nothing is to be seen meanwhile,
  nothing is done.
  -/
  | hold {H v m p n w l v' m'} (hp : m.Guarded p) (hout : (m.acquire p).1 = .held n)
      (hw : ((m.acquire p).2.bucketAt p).version? n = some w)
      (hseen : l ≠ [] ∨ v' = v ∧ m' = (m.acquire p).2) :
      Walk (⟨p, n, w, none⟩ :: H) v (m.acquire p).2 l v' m' → Walk H v m l v' (m'.release p n)
  /-- While a callback runs with an entry of the version that is held. -/
  | hand {h H v m x l v' m'} (hx : x ∈ h.version.items) :
      Walk (h.hand x.entry :: H) v m l v' m' → Walk (h :: H) v m l v' m'

namespace Walk

variable {H : List (Hold κ ν)} {v v' v'' : View} {m m' m'' : Map κ ν} {l l' : List (Instant κ ν)}

/-- Whoever walks takes a course. -/
theorem course (hwalk : Walk H v m l v' m') (h : m.Fit (!v.freed)) :
    Course v m (l.map (·.sight)) v' m' := by
  induction hwalk with
  | rest => exact .alike h (.refl _)
  | look _ => exact .seen h
  | act _ d => exact .deed h (d.comes_run h)
  | trans _ _ ih ih' =>
    rw [List.map_append]
    exact (ih h).trans (ih' (ih h).fit)
  | guard hi _ ih =>
    obtain ⟨hfit, henter⟩ := h.enter hi
    have hinside := ih hfit
    obtain ⟨hfit', hleave⟩ := hinside.fit.leave
      (Nat.lt_of_lt_of_eq hi (hinside.tracks.size_eq.trans henter.size_eq).symm)
    exact hinside.bracket henter hfit' hleave
  | miss hp _ =>
    obtain ⟨hfit, halike⟩ := h.acquire hp.shard_lt
    exact .alike hfit halike
  | hold hp _ _ _ _ ih =>
    obtain ⟨hfit, halike⟩ := h.acquire hp.shard_lt
    have hinside := ih hfit
    obtain ⟨hfit', halike'⟩ := hinside.fit.release
      (Nat.lt_of_lt_of_eq hp.shard_lt (hinside.tracks.size_eq.trans halike.size_eq).symm) _
    exact hinside.between halike hfit' halike'
  | hand _ _ ih => exact ih h

theorem fit (hwalk : Walk H v m l v' m') (h : m.Fit (!v.freed)) : m'.Fit (!v'.freed) :=
  (hwalk.course h).fit

/-- A guarded place is still there in the end. -/
theorem guarded (hwalk : Walk H v m l v' m') (h : m.Fit (!v.freed)) {p : Place}
    (hp : m.Guarded p) : m'.Guarded p :=
  hp.tracks (hwalk.course h).tracks

/-- A walk that looks first. -/
theorem note (hwalk : Walk H v m l v' m') (hH : ∀ h ∈ H, h.Handed) :
    Walk H v m (⟨H, ⟨none, v, m⟩⟩ :: l) v' m' :=
  (look hH).trans hwalk

/-- A walk that goes on to look around. -/
theorem noteLast (hwalk : Walk H v m l v' m') (hwalk' : Walk H v' m' l' v'' m'')
    (hH : ∀ h ∈ H, h.Handed) : Walk H v m (l ++ ⟨H, ⟨none, v', m'⟩⟩ :: l') v'' m'' :=
  hwalk.trans (hwalk'.note hH)

end Walk

/-! ## Scans -/

/--
From one state of a scan to another there is a walk, whose instants are added to those that the
state tells; and the state stays as it is to be.
-/
def Strolls (H : List (Hold κ ν)) (view : σ → View) (log : σ → List (Instant κ ν)) (kept : σ → Prop)
    (st : σ) (m : Map κ ν) (st' : σ) (m' : Map κ ν) : Prop :=
  (∃ news, log st' = log st ++ news ∧ Walk H (view st) m news (view st') m') ∧ (kept st → kept st')

namespace Strolls

variable {H : List (Hold κ ν)} {view : σ → View} {log : σ → List (Instant κ ν)} {kept : σ → Prop}
  {st st' st'' : σ} {m m' m'' : Map κ ν}

theorem refl : Strolls H view log kept st m st m :=
  ⟨⟨[], (List.append_nil _).symm, .rest⟩, id⟩

theorem trans (h : Strolls H view log kept st m st' m')
    (h' : Strolls H view log kept st' m' st'' m'') : Strolls H view log kept st m st'' m'' := by
  obtain ⟨⟨news, hlog, hwalk⟩, hkept⟩ := h
  obtain ⟨⟨news', hlog', hwalk'⟩, hkept'⟩ := h'
  refine ⟨⟨news ++ news', ?_, hwalk.trans hwalk'⟩, hkept' ∘ hkept⟩
  rw [hlog', hlog, List.append_assoc]

theorem fit (h : Strolls H view log kept st m st' m') (hfit : m.Fit (!(view st).freed)) :
    m'.Fit (!(view st').freed) :=
  h.1.elim fun _ hwalk => hwalk.2.fit hfit

theorem guarded (h : Strolls H view log kept st m st' m') (hfit : m.Fit (!(view st).freed))
    {p : Place} (hp : m.Guarded p) : m'.Guarded p :=
  h.1.elim fun _ hwalk => hwalk.2.guarded hfit hp

end Strolls

section Scans

variable {F : Hold κ ν → Visitor κ ν σ} {view : σ → View} {log : σ → List (Instant κ ν)}
  {kept : σ → Prop} {H : List (Hold κ ν)}
  (hF : ∀ (h : Hold κ ν) (x : Item κ ν), x ∈ h.version.items → ∀ st m, m.Fit (!(view st).freed) →
    Strolls (h.hand x.entry :: H) view log kept st m
      (F (h.hand x.entry) x.entry st m).2.1 (F (h.hand x.entry) x.entry st m).2.2 ∧
    log (F (h.hand x.entry) x.entry st m).2.1 ≠ log st)

include hF

/-- The visits to items of a version that is held; unless there are none, something is told. -/
theorem visitItems_strolls {h : Hold κ ν} {l : List (Item κ ν)} (hl : ∀ x ∈ l, x ∈ h.version.items)
    {st : σ} {m : Map κ ν} (hfit : m.Fit (!(view st).freed)) :
    Strolls (h :: H) view log kept st m
      (Map.visitItems (fun e => F (h.hand e) e) l st m).2.1
      (Map.visitItems (fun e => F (h.hand e) e) l st m).2.2 ∧
    (log (Map.visitItems (fun e => F (h.hand e) e) l st m).2.1 ≠ log st ∨
      (Map.visitItems (fun e => F (h.hand e) e) l st m).2 = (st, m)) := by
  induction l generalizing st m with
  | nil => exact ⟨.refl, .inr rfl⟩
  | cons x l ih =>
    have hx := hl x List.mem_cons_self
    obtain ⟨⟨⟨news, hlog, hwalk⟩, hkept⟩, hseen⟩ := hF h x hx st m hfit
    have hvisit : Strolls (h :: H) view log kept st m _ _ := ⟨⟨news, hlog, hwalk.hand hx⟩, hkept⟩
    unfold Map.visitItems
    generalize F (h.hand x.entry) x.entry st m = out at *
    obtain ⟨go, st₁, m₁⟩ := out
    cases go with
    | false => exact ⟨hvisit, .inl hseen⟩
    | true =>
      obtain ⟨hrest, _⟩ := ih (fun y hy => hl y (List.mem_cons_of_mem x hy)) (hvisit.fit hfit)
      refine ⟨hvisit.trans hrest, .inl fun heq => hseen ?_⟩
      -- what the first visit has told stays told
      obtain ⟨⟨news', hlog', _⟩, _⟩ := hrest
      dsimp only at hlog hlog' heq ⊢
      rw [hlog', hlog, List.append_assoc, List.append_right_eq_self] at heq
      rw [hlog, (List.append_eq_nil_iff.mp heq).1, List.append_nil]

theorem visitBucketHolding_strolls {p : Place} {st : σ} {m : Map κ ν}
    (hfit : m.Fit (!(view st).freed)) (hp : m.Guarded p) :
    Strolls H view log kept st m (Map.visitBucketHolding F p st m).2.1
      (Map.visitBucketHolding F p st m).2.2 := by
  have hversion (n : Nat) (hout : (m.acquire p).1 = .held n) := hfit.version_acquired hp hout
  have hhold {n w news v' m'} (hout : (m.acquire p).1 = .held n)
      (hw : ((m.acquire p).2.bucketAt p).version? n = some w)
      (hseen : news ≠ [] ∨ v' = view st ∧ m' = (m.acquire p).2)
      (hwalk : Walk (⟨p, n, w, none⟩ :: H) (view st) (m.acquire p).2 news v' m') :
      Walk H (view st) m news v' (m'.release p n) := .hold hp hout hw hseen hwalk
  have hmiss := Walk.miss (H := H) (v := view st) hp
  obtain ⟨hfit₁, _⟩ := hfit.acquire hp.shard_lt
  unfold Map.visitBucketHolding
  generalize m.acquire p = acquired at *
  obtain ⟨a, m₁⟩ := acquired
  cases a with
  | waits | absent => exact ⟨⟨[], (List.append_nil _).symm, hmiss (by simp)⟩, id⟩
  | held n =>
    obtain ⟨w, hw⟩ := hversion n rfl
    dsimp only at hw ⊢
    rw [hw]
    obtain ⟨⟨⟨news, hlog, hwalk⟩, hkept⟩, hseen⟩ :=
      visitItems_strolls hF (h := ⟨p, n, w, none⟩) (l := w.items) (fun _ hx => hx) hfit₁
    refine ⟨⟨news, hlog, hhold rfl hw ?_ hwalk⟩, hkept⟩
    rcases hseen with hne | heq
    · refine .inl fun hnil => hne ?_
      rw [hlog, hnil, List.append_nil]
    · exact .inr ⟨congrArg (view ·.1) heq, congrArg Prod.snd heq⟩

theorem visitBucketsHolding_strolls {i g j n : Nat} {st : σ} {m : Map κ ν}
    (hfit : m.Fit (!(view st).freed)) (hp : ∀ j' < j + n, m.Guarded ⟨i, g, j'⟩) :
    Strolls H view log kept st m (Map.visitBucketsHolding F i g j n st m).2.1
      (Map.visitBucketsHolding F i g j n st m).2.2 := by
  induction n generalizing j st m with
  | zero => exact .refl
  | succ n ih =>
    have hvisit := visitBucketHolding_strolls hF hfit (hp j (by omega))
    unfold Map.visitBucketsHolding
    generalize Map.visitBucketHolding F ⟨i, g, j⟩ st m = out at *
    obtain ⟨a, st₁, m₁⟩ := out
    cases a with
    | waits => exact hvisit
    | done go =>
      cases go with
      | false => exact hvisit
      | true =>
        exact hvisit.trans (ih (hvisit.fit hfit) fun j' hj' =>
          hvisit.guarded hfit (hp j' (by omega)))

theorem visitShardHolding_strolls {i : Nat} {st : σ} {m : Map κ ν}
    (hfit : m.Fit (!(view st).freed)) (hi : i < m.shards.size) :
    Strolls H view log kept st m (Map.visitShardHolding F i st m).2.1
      (Map.visitShardHolding F i st m).2.2 := by
  obtain ⟨hfit₁, hswap⟩ := hfit.enter hi
  have hgen := Map.enter_fst m i
  have hguard {news v' m'} (hwalk : Walk H (view st) (m.enter i).2 news v' m') :
      Walk H (view st) m news v' (m'.leave i) := .guard hi hwalk
  unfold Map.visitShardHolding
  generalize m.enter i = entered at *
  obtain ⟨g, m₁⟩ := entered
  dsimp only at hfit₁ hswap hgen hguard ⊢
  have hp (j : Nat) (hj : j < 0 + (m₁.tableAt i g).size) : m₁.Guarded ⟨i, g, j⟩ := by
    rw [Nat.zero_add] at hj
    refine ⟨Nat.lt_of_lt_of_eq hi hswap.size_eq.symm, ?_, ?_, hj⟩
    · rw [hswap.here]
      exact Nat.succ_pos _
    · rw [hswap.here, hgen]
      exact Nat.le_refl _
  obtain ⟨⟨news, hlog, hwalk⟩, hkept⟩ := visitBucketsHolding_strolls hF hfit₁ hp
  exact ⟨⟨news, hlog, hguard hwalk⟩, hkept⟩

theorem visitShardsHolding_strolls {i n : Nat} {st : σ} {m : Map κ ν}
    (hfit : m.Fit (!(view st).freed)) (hn : i + n = m.shards.size) :
    Strolls H view log kept st m (Map.visitShardsHolding F i n st m).2.1
      (Map.visitShardsHolding F i n st m).2.2 := by
  induction n generalizing i st m with
  | zero => exact .refl
  | succ n ih =>
    have hvisit := visitShardHolding_strolls hF hfit (i := i) (by omega)
    have hsize : (Map.visitShardHolding F i st m).2.2.shards.size = m.shards.size := by
      obtain ⟨⟨_, _, hwalk⟩, _⟩ := hvisit
      exact (hwalk.course hfit).tracks.size_eq
    unfold Map.visitShardsHolding
    generalize Map.visitShardHolding F i st m = out at *
    obtain ⟨a, st₁, m₁⟩ := out
    cases a with
    | waits => exact hvisit
    | done go =>
      cases go with
      | false => exact hvisit
      | true => exact hvisit.trans (ih (hvisit.fit hfit) (by rw [hsize]; omega))

/-- A scan whose visits are walks is one. -/
theorem rangeHolding_strolls {st : σ} {m : Map κ ν} (hfit : m.Fit (!(view st).freed)) :
    Strolls H view log kept st m (m.rangeHolding F st).2.1 (m.rangeHolding F st).2.2 :=
  visitShardsHolding_strolls hF hfit (Nat.zero_add _)

end Scans

/-! ## Reads -/

/-- A read whose callback walks does so too, or there is nothing for it to be handed. -/
theorem readHolding_walk {H : List (Hold κ ν)} {v : View} {m : Map κ ν} (h : m.Fit (!v.freed))
    (q : Lookup κ) {f : Hold κ ν → κ × ν → Map κ ν → α × Map κ ν} (view : α → View)
    (log : α → List (Instant κ ν)) (kept : α → Prop)
    (hf : ∀ (h : Hold κ ν) (x : Item κ ν), x ∈ h.version.items → ∀ m, m.Fit (!v.freed) →
      Walk (h.hand x.entry :: H) v m (log (f (h.hand x.entry) x.entry m).1)
        (view (f (h.hand x.entry) x.entry m).1) (f (h.hand x.entry) x.entry m).2 ∧
      log (f (h.hand x.entry) x.entry m).1 ≠ [] ∧ kept (f (h.hand x.entry) x.entry m).1) :
    (∃ m', (m.readHolding q f = (.waits, m') ∨ m.readHolding q f = (.done none, m')) ∧
      Walk H v m [] v m') ∨
    (∃ a m', m.readHolding q f = (.done (some a), m') ∧
      Walk H v m (log a) (view a) m' ∧ kept a) := by
  have hi := h.route_lt q.hash
  obtain ⟨hfit₁, hswap⟩ := h.enter hi
  have hgen := Map.enter_fst m (m.route q.hash).shard
  have hguard {l v' m'} (hwalk : Walk H v (m.enter (m.route q.hash).shard).2 l v' m') :
      Walk H v m l v' (m'.leave (m.route q.hash).shard) := .guard hi hwalk
  unfold Map.readHolding
  dsimp only
  generalize m.enter (m.route q.hash).shard = entered at *
  obtain ⟨g, m₁⟩ := entered
  dsimp only at hfit₁ hswap hgen hguard ⊢
  generalize hplace : (⟨(m.route q.hash).shard, g,
    (m₁.tableAt (m.route q.hash).shard g).index (m.route q.hash).hash⟩ : Place) = p
  have hp : m₁.Guarded p := by
    subst hplace
    refine ⟨Nat.lt_of_lt_of_eq hi hswap.size_eq.symm, ?_, ?_, Fin.isLt _⟩
    · rw [hswap.here]
      exact Nat.succ_pos _
    · rw [hswap.here, hgen]
      exact Nat.le_refl _
  have hversion (n : Nat) (hout : (m₁.acquire p).1 = .held n) := hfit₁.version_acquired hp hout
  have hhold {n w l v' m'} (hout : (m₁.acquire p).1 = .held n)
      (hw : ((m₁.acquire p).2.bucketAt p).version? n = some w)
      (hseen : l ≠ [] ∨ v' = v ∧ m' = (m₁.acquire p).2)
      (hwalk : Walk (⟨p, n, w, none⟩ :: H) v (m₁.acquire p).2 l v' m') :
      Walk H v m₁ l v' (m'.release p n) := .hold hp hout hw hseen hwalk
  have hmiss := Walk.miss (H := H) (v := v) hp
  obtain ⟨hfit₂, _⟩ := hfit₁.acquire hp.shard_lt
  generalize m₁.acquire p = acquired at *
  obtain ⟨a, m₂⟩ := acquired
  cases a with
  | waits => exact .inl ⟨_, .inl rfl, hguard (hmiss (by simp))⟩
  | absent => exact .inl ⟨_, .inr rfl, hguard (hmiss (by simp))⟩
  | held n =>
    obtain ⟨w, hw⟩ := hversion n rfl
    dsimp only at hw ⊢
    rw [hw]
    dsimp only
    cases hfound : w.find? ⟨(m.route q.hash).hash, q.admits⟩ with
    | none => exact .inl ⟨_, .inr rfl, hguard (hhold rfl hw (.inr ⟨rfl, rfl⟩) .rest)⟩
    | some x =>
      -- the item that is found is one of the version
      rw [Version.find?_eq] at hfound
      have hx : x ∈ w.items := List.mem_of_find?_eq_some hfound
      obtain ⟨hwalk, hseen, hkept⟩ := hf ⟨p, n, w, none⟩ x hx m₂ hfit₂
      exact .inr ⟨_, _, rfl, hguard (hhold rfl hw (.inl hseen) (.hand hx hwalk)), hkept⟩

/-! ## Guests -/

/-- The instants that a scan tells are those of what is seen on its visits. -/
def Tour.Told (st : Tour κ ν ρ × List (Instant κ ν)) : Prop :=
  st.2.map (·.sight) = Visit.logs st.1.visits

/-- The visits of a scan whose callbacks walk, as told by `g`; each is told of. -/
theorem Tour.attend_strolls (more : ρ → Bool)
    {f : κ × ν → ρ → View → Map κ ν → Stay κ ν ρ × Map κ ν}
    {g : κ × ν → ρ → List (Hold κ ν) → View → Map κ ν → List (Instant κ ν)}
    (hg : ∀ e r H v m, (∀ h ∈ H, h.Handed) → m.Fit (!v.freed) →
      Walk H v m (g e r H v m) (f e r v m).1.view (f e r v m).2 ∧
        (g e r H v m).map (·.sight) = (f e r v m).1.log)
    {H : List (Hold κ ν)} (hH : ∀ h ∈ H, h.Handed) (h : Hold κ ν) (x : Item κ ν)
    (hx : x ∈ h.version.items)
    (st : Tour κ ν ρ × List (Instant κ ν)) (m : Map κ ν) (hm : m.Fit (!st.1.view.freed)) :
    Strolls (h.hand x.entry :: H) (·.1.view) (·.2) Tour.Told st m
      (Tour.attend more f g H (h.hand x.entry) x.entry st m).2.1
      (Tour.attend more f g H (h.hand x.entry) x.entry st m).2.2 ∧
    (Tour.attend more f g H (h.hand x.entry) x.entry st m).2.1.2 ≠ st.2 := by
  have hH' := Hold.handed_hand hx hH
  obtain ⟨hwalk, hsights⟩ := hg x.entry st.1.result (h.hand x.entry :: H) st.1.view m hH' hm
  refine ⟨⟨⟨_, rfl, hwalk.note hH'⟩, fun htold => ?_⟩,
    fun heq => absurd (List.append_right_eq_self.mp heq) (List.cons_ne_nil _ _)⟩
  have htold : st.2.map (·.sight) = Visit.logs st.1.visits := htold
  show (st.2 ++ _).map (·.sight) = Visit.logs (st.1.visits ++ _)
  rw [List.map_append, Leg.logs_append, htold]
  refine congrArg (_ ++ ·) ?_
  exact (congrArg (_ :: ·) hsights).trans (List.append_nil _).symm

/-- What a guest does is a walk, and what there is to be seen on it is what the guest sees. -/
theorem Guest.walks (g : Guest κ ν ρ) {H : List (Hold κ ν)} {v : View} {m : Map κ ν}
    (hH : ∀ h ∈ H, h.Handed) (h : m.Fit (!v.freed)) :
    Walk H v m (g.instants H v m) (g.run v m).1.view (g.run v m).2 ∧
      (g.instants H v m).map (·.sight) = (g.run v m).1.log := by
  -- on the guest: callbacks are guests too, and walk while the version is held
  induction g generalizing H v m with
  | stop r => exact ⟨.rest, rfl⟩
  | look next ih => exact ih v m hH h
  | act d next ih =>
    have hdeed := Course.deed h (d.comes_run h)
    obtain ⟨hwalk, hsights⟩ := ih (d.run v m).1 hH hdeed.fit
    exact ⟨(Walk.act hH d).trans hwalk, congrArg (_ :: ·) hsights⟩
  | read q inside next ihinside ihnext =>
    have hread := readHolding_walk h q (·.1.view) (·.2) (fun a => a.2.map (·.sight) = a.1.log)
      (f := Stay.attend (fun e => (inside e).run) (fun e => (inside e).instants) H v) (H := H)
      fun h x hx m hm => by
        have hH' := Hold.handed_hand hx hH
        obtain ⟨hwalk, hsights⟩ := ihinside x.entry hH' hm
        exact ⟨hwalk.note hH', List.cons_ne_nil _ _, congrArg (_ :: ·) hsights⟩
    unfold Guest.run Guest.instants
    rw [Stay.read_attend _ fun e => (inside e).instants]
    rcases hread with ⟨m', hout | hout, hwalk⟩ | ⟨⟨s, l⟩, m', hout, hwalk, hsights⟩
    · rw [hout]
      obtain ⟨hnext, hsights⟩ := ihnext .waits hH (hwalk.fit h)
      exact ⟨hwalk.noteLast hnext hH, congrArg (_ :: ·) hsights⟩
    · rw [hout]
      obtain ⟨hnext, hsights⟩ := ihnext (.done none) hH (hwalk.fit h)
      exact ⟨hwalk.noteLast hnext hH, congrArg (_ :: ·) hsights⟩
    · rw [hout]
      obtain ⟨hnext, hsights'⟩ := ihnext (.done (some s.result)) hH (hwalk.fit h)
      refine ⟨hwalk.noteLast hnext hH, ?_⟩
      rw [List.map_append, List.map_cons]
      exact congrArg₂ (· ++ _ :: ·) hsights hsights'
  | range start inside more next ihinside ihnext =>
    have hvisit := Tour.attend_strolls more
      (fun e r H v m hH hm => ihinside e r (H := H) (m := m) hH hm) hH
    have hscan (st : Tour κ ν _ × List (Instant κ ν)) (hm : m.Fit (!st.1.view.freed)) :=
      rangeHolding_strolls hvisit hm
    replace hscan := hscan (⟨[], start, v⟩, []) h
    have hplain := Tour.range_attend more (fun e r => (inside e r).run)
      (fun e r => (inside e r).instants) H (⟨[], start, v⟩, []) m
    unfold Guest.run Guest.instants
    rw [hplain]
    unfold Map.giving
    dsimp only at hscan ⊢
    generalize m.rangeHolding (Tour.attend more (fun e r => (inside e r).run)
      (fun e r => (inside e r).instants) H) ((⟨[], start, v⟩ : Tour _ _ _), []) = out at *
    obtain ⟨went, ⟨t, l⟩, m'⟩ := out
    obtain ⟨⟨news, hlog, hwalk⟩, hkept⟩ := hscan
    obtain rfl : l = news := hlog
    have hsights : _ = Visit.logs t.visits := hkept rfl
    dsimp only at hwalk hsights ⊢
    obtain ⟨hnext, hsights'⟩ := ihnext went t.result hH (hwalk.fit h)
    refine ⟨hwalk.noteLast hnext hH, ?_⟩
    rw [List.map_append, List.map_cons]
    exact congrArg₂ (· ++ _ :: ·) hsights hsights'

end VersionedMap
