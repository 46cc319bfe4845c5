import VersionedMap.Proofs.MapChronicles

/-!
# One after another

Several who work on a map at a time have a **task** left each: a motion, clearing from some shard
on, or nothing that shows. What has gone on in one shard is a **tale**: of the motions there, in
their order, and of clearings. It does not matter whose clearing it was.

If the tales of the shards have in them what the tasks are to do and no more, the tasks can be
carried out one after another, each at once, with the same answers. What comes next is any motion
that is first in its tale. If there is none, a tale that is not at its end goes on with a clearing,
and any task that clears comes next.
-/

namespace VersionedMap

variable {κ ν α β : Type} {hash : κ → UInt64}

/-! ## Tasks -/

/-- What is left of a mutation, as it shows in the chronicles and by the answers to come. -/
inductive Task (κ ν : Type) (hash : κ → UInt64)
  | motion (μ : Motion κ ν hash)
  /-- Clears the shards from one on. -/
  | sweep (i : Nat)
  /-- Shows no more, and has these answers to come. -/
  | rest (as : List (Answer κ ν))

namespace Task

variable (route : UInt64 → Route)

/-- What a task answers that is carried out at once, and the chronicles then. -/
def effect (x : Task κ ν hash) (L : Nat → List (Item κ ν)) :
    List (Answer κ ν) × (Nat → List (Item κ ν)) :=
  match x with
  | .motion μ =>
    ([μ.answer (μ.tell route L).1.1], Map.rewrite L (route μ.key).shard (μ.tell route L).2)
  | .sweep i => ([.nothing], fun j => if i ≤ j then [] else L j)
  | .rest as => (as, L)

/-- What the task of number `t` has in the tale of a shard: its number, or that it clears. -/
def mark (x : Task κ ν hash) (t j : Nat) : Option (Option Nat) :=
  match x with
  | .motion μ => if (route μ.key).shard = j then some (some t) else none
  | .sweep i => if i ≤ j then some none else none
  | .rest _ => none

/-- Who clears the shards from one on has a clearing there, and has what it has from the next on. -/
theorem mark_sweep (i t j : Nat) : ((sweep i : Task κ ν hash).mark route t j).toList =
    (if j = i then some none else none : Option (Option Nat)).toList ++
      ((sweep (i + 1) : Task κ ν hash).mark route t j).toList := by
  unfold mark
  by_cases hji : j = i
  · simp [hji]
  · by_cases hlt : i ≤ j
    · simp [hji, hlt, show i + 1 ≤ j by omega]
    · simp [hji, hlt, show ¬ i + 1 ≤ j by omega]

variable {route} in
/-- Whose number is in a tale has a motion in its shard. -/
theorem eq_motion {x : Task κ ν hash} {t u j : Nat} (h : x.mark route u j = some (some t)) :
    u = t ∧ ∃ μ, x = .motion μ ∧ (route μ.key).shard = j := by
  cases x with
  | motion μ =>
    unfold mark at h
    dsimp only at h
    split at h
    · rename_i hj
      exact ⟨Option.some.inj (Option.some.inj h), μ, rfl, hj⟩
    · cases h
  | sweep i =>
    unfold mark at h
    dsimp only at h
    split at h <;> cases h
  | rest as => cases h

variable {route} in
/-- Who has a clearing in a tale clears that shard. -/
theorem eq_sweep {x : Task κ ν hash} {u j : Nat} (h : x.mark route u j = some none) :
    ∃ i, x = .sweep i ∧ i ≤ j := by
  cases x with
  | motion μ =>
    unfold mark at h
    dsimp only at h
    split at h <;> cases h
  | sweep i =>
    unfold mark at h
    dsimp only at h
    split at h
    · rename_i hj
      exact ⟨i, rfl, hj⟩
    · cases h
  | rest as => cases h

/-- A step of a task, in a map of `n` shards: what is left, the answers, and the chronicles. -/
inductive Steps (n : Nat) (L : Nat → List (Item κ ν)) :
    Task κ ν hash → Task κ ν hash → List (Answer κ ν) → (Nat → List (Item κ ν)) → Prop
  | rests (as bs : List (Answer κ ν)) : Steps n L (.rest (as ++ bs)) (.rest bs) as L
  | moves (μ : Motion κ ν hash) {as bs : List (Answer κ ν)}
      (h : as ++ bs = [μ.answer (μ.tell route L).1.1]) :
      Steps n L (.motion μ) (.rest bs) as
        (Map.rewrite L (route μ.key).shard (μ.tell route L).2)
  | sweeps {i : Nat} (h : i + 1 < n) :
      Steps n L (.sweep i) (.sweep (i + 1)) [] (Map.rewrite L i [])
  | swept {i : Nat} (h : i + 1 = n) :
      Steps n L (.sweep i) (.rest []) [.nothing] (Map.rewrite L i [])

/-- A task that shows in one of `n` shards at most. -/
def Single (n : Nat) : Task κ ν hash → Prop
  | .sweep i => n ≤ i + 1
  | .motion _ | .rest _ => True

variable {route} in
/-- With one step a task that shows in one shard at most has done there what it is for. -/
theorem Steps.single {n : Nat} {L L' : Nat → List (Item κ ν)} {x y : Task κ ν hash}
    {new : List (Answer κ ν)} (h : Steps route n L x y new L') (hx : x.Single n) :
    ∃ bs, y = .rest bs ∧ (x.effect route L).1 = new ++ bs ∧
      ∀ j < n, (x.effect route L).2 j = L' j := by
  cases h with
  | rests _ bs => exact ⟨bs, rfl, rfl, fun _ _ => rfl⟩
  | moves μ hanswer => exact ⟨_, rfl, hanswer.symm, fun _ _ => rfl⟩
  | sweeps hi => exact absurd hi (Nat.not_lt.mpr hx)
  | swept hi =>
    refine ⟨[], rfl, rfl, fun j hj => ?_⟩
    unfold effect Map.rewrite
    dsimp only
    exact if_congr (by omega) rfl rfl

end Task

/-! ## Tales -/

section Tales

-- `P t as` is to say that the answers `as` are right for the task of number `t`
variable (route : UInt64 → Route) (x : Nat → Task κ ν hash) (P : Nat → List (Answer κ ν) → Prop)

/-- A tale leads from one chronicle of a shard to another, with the right answers. -/
def Leads : List (Option Nat) → List (Item κ ν) → List (Item κ ν) → Prop
  | [], l, l' => l' = l
  | none :: tale, _, l' => Leads tale [] l'
  | some t :: tale, l, l' => ∃ μ, x t = .motion μ ∧
      P t [μ.answer (μ.edit (route μ.key).hash l).1.1] ∧
      Leads tale (μ.edit (route μ.key).hash l).2 l'

/-- Tales of `n` shards for tasks of these numbers, from some chronicles to others. -/
structure Accounts (ts : List Nat) (n : Nat) (L L' : Nat → List (Item κ ν))
    (tales : Nat → List (Option Nat)) : Prop where
  leads : ∀ j < n, Leads route x P (tales j) (L j) (L' j)
  marks : ∀ j < n, (tales j).Perm (ts.filterMap fun t => (x t).mark route t j)
  motions : ∀ t ∈ ts, ∀ μ, x t = .motion μ → (route μ.key).shard < n
  sweeps : ∀ t ∈ ts, ∀ i, x t = .sweep i → P t [.nothing]
  rests : ∀ t ∈ ts, ∀ as, x t = .rest as → P t as

/-- Tasks one after another, each at once, from some chronicles of `n` shards to others. -/
def InTurn (n : Nat) : List Nat → (Nat → List (Item κ ν)) → (Nat → List (Item κ ν)) → Prop
  | [], L, L' => ∀ j < n, L' j = L j
  | t :: ts, L, L' => P t ((x t).effect route L).1 ∧ InTurn n ts ((x t).effect route L).2 L'

/-- The chronicles after tasks that are carried out one after another, each at once. -/
def effects : List Nat → (Nat → List (Item κ ν)) → Nat → List (Item κ ν)
  | [], L => L
  | t :: ts, L => effects ts ((x t).effect route L).2

variable {route x P}

/-- With nothing left to be done there is nothing to be told. -/
theorem accounts_nil {ts : List Nat} (hrest : ∀ t ∈ ts, x t = .rest []) (hok : ∀ t ∈ ts, P t [])
    (n : Nat) (L : Nat → List (Item κ ν)) : Accounts route x P ts n L L fun _ => [] where
  leads _ _ := rfl
  marks j _ := by
    rw [List.filterMap_eq_nil_iff.mpr fun t ht => by rw [hrest t ht]; rfl]
  motions t ht μ hμ := by simp [hrest t ht] at hμ
  sweeps t ht i hi := by simp [hrest t ht] at hi
  rests t ht as has := by
    obtain rfl : [] = as := Task.rest.inj ((hrest t ht).symm.trans has)
    exact hok t ht

theorem Leads.congr {x' : Nat → Task κ ν hash} {Q : Nat → List (Answer κ ν) → Prop}
    (h : ∀ t μ, x' t = .motion μ → x t = .motion μ ∧ ∀ as, Q t as → P t as)
    {tale : List (Option Nat)} {l l' : List (Item κ ν)} (hleads : Leads route x' Q tale l l') :
    Leads route x P tale l l' := by
  induction tale generalizing l with
  | nil => exact hleads
  | cons e tale ih =>
    cases e with
    | none => exact ih hleads
    | some t =>
      obtain ⟨μ, hx, hok, hrest⟩ := hleads
      obtain ⟨hx', hok'⟩ := h t μ hx
      exact ⟨μ, hx', hok' _ hok, ih hrest⟩

/-! ## A step more -/

theorem perm_filterMap_erase {f g : Nat → Option α} {ts : List Nat} {t : Nat} (ht : t ∈ ts)
    (hnodup : ts.Nodup) (hf : ∀ u, u ≠ t → g u = f u) :
    (ts.filterMap f).Perm ((f t).toList ++ (ts.erase t).filterMap g) := by
  have hrest : (ts.erase t).filterMap g = (ts.erase t).filterMap f :=
    List.filterMap_congr fun u hu => hf u fun hut => hnodup.not_mem_erase (hut ▸ hu)
  have hperm := (List.perm_cons_erase ht).filterMap f
  rw [List.filterMap_cons] at hperm
  rw [hrest]
  cases hft : f t with
  | none => simpa [hft] using hperm
  | some a => simpa [hft] using hperm

section Step

variable {x' : Nat → Task κ ν hash} {Q : Nat → List (Answer κ ν) → Prop} {ts : List Nat} {n : Nat}
  {L L₁ L' : Nat → List (Item κ ν)} {tales : Nat → List (Option Nat)} {t : Nat}
  {new : List (Answer κ ν)}

/-- Tales with one event more in front, which one task has left no more. -/
theorem Accounts.event (h : Accounts route x' Q ts n L₁ L' tales) (hnodup : ts.Nodup) (ht : t ∈ ts)
    (hx : ∀ u, u ≠ t → x' u = x u) (hok : ∀ u, u ≠ t → ∀ as, Q u as → P u as)
    (e : Nat → Option (Option Nat))
    (hmark : ∀ j < n, ((x t).mark route t j).toList =
      (e j).toList ++ ((x' t).mark route t j).toList)
    (hleads : ∀ j < n, ∀ tale l, Leads route x' Q tale (L₁ j) l →
      Leads route x P ((e j).toList ++ tale) (L j) l)
    (hmotion : ∀ μ, x t = .motion μ → (route μ.key).shard < n)
    (hsweep : ∀ i, x t = .sweep i → P t [.nothing]) (hrest : ∀ as, x t = .rest as → P t as) :
    Accounts route x P ts n L L' fun j => (e j).toList ++ tales j where
  leads j hj := hleads j hj _ _ (h.leads j hj)
  marks j hj := by
    have hold := perm_filterMap_erase (f := fun t => (x' t).mark route t j) ht hnodup fun _ _ => rfl
    have hnew := perm_filterMap_erase (f := fun t => (x t).mark route t j)
      (g := fun t => (x' t).mark route t j) ht hnodup fun u hu => by rw [hx u hu]
    rw [hmark j hj, List.append_assoc] at hnew
    exact (((h.marks j hj).trans hold).append_left _).trans hnew.symm
  motions u hu μ hμ := by
    by_cases hut : u = t
    · exact hmotion μ (hut ▸ hμ)
    · exact h.motions u hu μ ((hx u hut).trans hμ)
  sweeps u hu i hi := by
    by_cases hut : u = t
    · exact hut ▸ hsweep i (hut ▸ hi)
    · exact hok u hut _ (h.sweeps u hu i ((hx u hut).trans hi))
  rests u hu as has := by
    by_cases hut : u = t
    · exact hut ▸ hrest as (hut ▸ has)
    · exact hok u hut _ (h.rests u hu as ((hx u hut).trans has))

/-- A shard told to be cleared, in front of what is told of it after. -/
theorem Leads.clear {i j : Nat} {tale : List (Option Nat)} {l : List (Item κ ν)}
    (h : Leads route x P tale (Map.rewrite L i [] j) l) :
    Leads route x P ((if j = i then some none else none : Option (Option Nat)).toList ++ tale)
      (L j) l := by
  unfold Map.rewrite at h
  by_cases hji : j = i
  · rw [if_pos hji] at h ⊢
    exact h
  · rw [if_neg hji] at h ⊢
    exact h

/-- A motion told in its shard, in front of what is told of it after. -/
theorem Leads.motion {μ : Motion κ ν hash} {j : Nat} {tale : List (Option Nat)}
    {l : List (Item κ ν)}
    (h : Leads route x P tale (Map.rewrite L (route μ.key).shard (μ.tell route L).2 j) l)
    (hx : x t = .motion μ) (hok : P t [μ.answer (μ.tell route L).1.1]) :
    Leads route x P ((if (route μ.key).shard = j then some (some t) else none :
      Option (Option Nat)).toList ++ tale) (L j) l := by
  unfold Map.rewrite at h
  by_cases hjs : (route μ.key).shard = j
  · rw [if_pos hjs.symm] at h
    rw [if_pos hjs]
    subst hjs
    exact ⟨μ, hx, hok, h⟩
  · rw [if_neg (Ne.symm hjs)] at h
    rw [if_neg hjs]
    exact h

/--
What a step of one task is for, the tales after it have not; told in front, it is told right, and so
is the beginning of every tale.
-/
theorem Accounts.cons (h : Accounts route x' Q ts n L₁ L' tales) (hnodup : ts.Nodup) (ht : t ∈ ts)
    (hx : ∀ u, u ≠ t → x' u = x u) (hok : ∀ u, u ≠ t → ∀ as, Q u as → P u as)
    (hokt : ∀ as, Q t as → P t (new ++ as))
    (hmotion : ∀ μ, x t = .motion μ → (route μ.key).shard < n)
    (hstep : Task.Steps route n L (x t) (x' t) new L₁) :
    ∃ e : Nat → Option (Option Nat),
      Accounts route x P ts n L L' (fun j => (e j).toList ++ tales j) ∧
      ∀ j < n, ∀ tale l, Leads route x' Q tale (L₁ j) l →
        Leads route x P ((e j).toList ++ tale) (L j) l := by
  -- the tales after the step go by what is left then, which is what was left before
  have hcongr (hmotions : ∀ μ, x' t ≠ .motion μ) (tale : List (Option Nat))
      (l l' : List (Item κ ν)) (hleads : Leads route x' Q tale l l') : Leads route x P tale l l' :=
    hleads.congr fun u μ hu => by
      by_cases hut : u = t
      · exact (hmotions μ (hut ▸ hu)).elim
      · exact ⟨(hx u hut).symm.trans hu, hok u hut⟩
  have hclear (hmotions : ∀ μ, x' t ≠ .motion μ) (i : Nat) (j : Nat) (_ : j < n)
      (tale : List (Option Nat)) (l : List (Item κ ν))
      (hl : Leads route x' Q tale (Map.rewrite L i [] j) l) :=
    (hcongr hmotions tale _ l hl).clear
  have hevent := fun e => h.event (x := x) (P := P) (L := L) hnodup ht hx hok (e := e)
  generalize hxt : x t = y at *
  generalize hxt' : x' t = y' at *
  cases hstep with
  | rests _ bs =>
    have hleads (j : Nat) (_ : j < n) (tale : List (Option Nat)) (l : List (Item κ ν)) :=
      hcongr nofun tale (L j) l
    refine ⟨_, hevent (fun _ => none) (fun _ _ => rfl) hleads hmotion nofun fun as has => ?_,
      hleads⟩
    obtain rfl := Task.rest.inj has
    exact hokt _ (h.rests t ht bs hxt')
  | moves μ hanswer =>
    rename_i bs
    have hok := hokt _ (h.rests t ht bs hxt')
    rw [hanswer] at hok
    have hleads (j : Nat) (_ : j < n) (tale : List (Option Nat)) (l : List (Item κ ν))
        (hl : Leads route x' Q tale
          (Map.rewrite L (route μ.key).shard (μ.tell route L).2 j) l) :=
      (hcongr nofun tale _ l hl).motion hxt hok
    exact ⟨_, hevent (fun j => if (route μ.key).shard = j then some (some t) else none)
      (fun j _ => (List.append_nil _).symm) hleads hmotion nofun nofun, hleads⟩
  | sweeps hi =>
    rename_i i
    have hleads := hclear nofun i
    exact ⟨_, hevent _ (fun j _ => Task.mark_sweep route i t j) hleads hmotion
      (fun _ _ => hokt _ (h.sweeps t ht (i + 1) hxt')) nofun, hleads⟩
  | swept hlast =>
    rename_i i
    have hleads := hclear nofun i
    refine ⟨_, hevent _ (fun j hj => ?_) hleads hmotion
      (fun _ _ => hokt _ (h.rests t ht [] hxt')) nofun, hleads⟩
    rw [Task.mark_sweep]
    unfold Task.mark
    dsimp only
    rw [if_neg (show ¬ i + 1 ≤ j by omega)]

end Step

/-! ## The order -/

section Order

variable {ts : List Nat} {n : Nat} {L L' : Nat → List (Item κ ν)} {tales : Nat → List (Option Nat)}

/-- What is told of a shard is what some task has there. -/
theorem Accounts.exists_mark (h : Accounts route x P ts n L L' tales) {j : Nat} (hj : j < n)
    {e : Option Nat} (he : e ∈ tales j) : ∃ t ∈ ts, (x t).mark route t j = some e :=
  List.mem_filterMap.mp ((h.marks j hj).mem_iff.mp he)

theorem Accounts.mem_tale (h : Accounts route x P ts n L L' tales) {j : Nat} (hj : j < n) {t : Nat}
    (ht : t ∈ ts) {e : Option Nat} (he : (x t).mark route t j = some e) : e ∈ tales j :=
  (h.marks j hj).mem_iff.mpr (List.mem_filterMap.mpr ⟨t, ht, he⟩)

/-- Carried out at once, a task leaves of a tale what comes after what it has there itself. -/
theorem Task.effect_leads {t j : Nat} {tale : List (Option Nat)} {l : List (Item κ ν)}
    (h : Leads route x P (((x t).mark route t j).toList ++ tale) (L j) l) :
    Leads route x P tale (((x t).effect route L).2 j) l := by
  cases hx : x t with
  | rest as =>
    rw [hx] at h
    exact h
  | sweep i =>
    rw [hx] at h
    unfold mark at h
    unfold effect
    dsimp only at h ⊢
    by_cases hij : i ≤ j
    · rw [if_pos hij] at h ⊢
      exact h
    · rw [if_neg hij] at h ⊢
      exact h
  | motion μ =>
    rw [hx] at h
    unfold mark at h
    unfold effect Map.rewrite
    dsimp only at h ⊢
    by_cases hjs : (route μ.key).shard = j
    · rw [if_pos hjs] at h
      rw [if_pos hjs.symm]
      subst hjs
      obtain ⟨μ', hμ', _, hrest⟩ := h
      obtain rfl := Task.motion.inj (hμ'.symm.trans hx)
      exact hrest
    · rw [if_neg hjs] at h
      rw [if_neg (Ne.symm hjs)]
      exact h

/-- What is left when one task has been carried out, with what it had in the tales gone. -/
theorem Accounts.without (h : Accounts route x P ts n L L' tales) {t : Nat} (ht : t ∈ ts)
    (hfirst : ∀ j < n, ((x t).mark route t j).toList <+: tales j) :
    Accounts route x P (ts.erase t) n ((x t).effect route L).2 L'
      fun j => (tales j).drop ((x t).mark route t j).toList.length where
  leads j hj := by
    have hleads := h.leads j hj
    rw [← List.prefix_iff_eq_append.mp (hfirst j hj)] at hleads
    exact Task.effect_leads hleads
  marks j hj := by
    have hperm := (List.perm_cons_erase ht).filterMap fun t => (x t).mark route t j
    have hmarks := (h.marks j hj).trans hperm
    rw [← List.prefix_iff_eq_append.mp (hfirst j hj), List.filterMap_cons] at hmarks
    cases he : (x t).mark route t j with
    | none => simpa [he] using hmarks
    | some e => simpa [he] using hmarks
  motions u hu := h.motions u (List.mem_of_mem_erase hu)
  sweeps u hu := h.sweeps u (List.mem_of_mem_erase hu)
  rests u hu := h.rests u (List.mem_of_mem_erase hu)

/-- A motion that is first in the tale of its shard can come next. -/
theorem Accounts.motion_next (h : Accounts route x P ts n L L' tales) {j : Nat} (hj : j < n)
    {t : Nat} {rest : List (Option Nat)} (htale : tales j = some t :: rest) :
    t ∈ ts ∧ P t ((x t).effect route L).1 ∧
      ∀ j < n, ((x t).mark route t j).toList <+: tales j := by
  obtain ⟨u, hu, hmark⟩ := h.exists_mark hj (htale ▸ List.mem_cons_self)
  obtain ⟨rfl, μ, hμ, hshard⟩ := Task.eq_motion hmark
  subst hshard
  have hleads := h.leads _ hj
  rw [htale] at hleads
  obtain ⟨μ', hμ', hok, _⟩ := hleads
  obtain rfl : μ' = μ := Task.motion.inj (hμ'.symm.trans hμ)
  refine ⟨hu, by rw [hμ]; exact hok, fun j hj => ?_⟩
  by_cases hjs : (route μ'.key).shard = j
  · rw [← hjs, hmark, htale]
    exact ⟨rest, rfl⟩
  · have hnone : (x u).mark route u j = none := by
      rw [hμ]
      exact if_neg hjs
    rw [hnone]
    exact List.nil_prefix

/-- Where no motion is first in its tale, any task that clears can come next. -/
theorem Accounts.sweep_next (h : Accounts route x P ts n L L' tales)
    (hfirst : ∀ j < n, ∀ t rest, tales j ≠ some t :: rest) {t i : Nat} (ht : t ∈ ts)
    (hi : x t = .sweep i) :
    P t ((x t).effect route L).1 ∧ ∀ j < n, ((x t).mark route t j).toList <+: tales j := by
  refine ⟨by rw [hi]; exact h.sweeps t ht i hi, fun j hj => ?_⟩
  cases hmark : (x t).mark route t j with
  | none => exact List.nil_prefix
  | some e =>
    obtain rfl : e = none := by
      cases e with
      | none => rfl
      | some u =>
        obtain ⟨_, μ, hμ, _⟩ := Task.eq_motion hmark
        cases hi.symm.trans hμ
    have hmem := h.mem_tale hj ht hmark
    cases htale : tales j with
    | nil => simp [htale] at hmem
    | cons e rest =>
      cases e with
      | none => exact ⟨rest, rfl⟩
      | some u => exact (hfirst j hj u rest htale).elim

/-- There is always a task that can come next. -/
theorem Accounts.next (h : Accounts route x P ts n L L' tales) (hts : ts ≠ []) :
    ∃ t ∈ ts, P t ((x t).effect route L).1 ∧
      ∀ j < n, ((x t).mark route t j).toList <+: tales j := by
  by_cases hfirst : ∀ j < n, ∀ t rest, tales j ≠ some t :: rest
  · obtain ⟨t, ht⟩ := List.exists_mem_of_ne_nil ts hts
    cases hx : x t with
    | rest as =>
      refine ⟨t, ht, by rw [hx]; exact h.rests t ht as hx, fun j _ => ?_⟩
      rw [hx]
      exact List.nil_prefix
    | sweep i => exact ⟨t, ht, h.sweep_next hfirst ht hx⟩
    | motion μ =>
      -- it is in the tale of its shard, which then begins with a clearing of somebody
      have hj := h.motions t ht μ hx
      have hmem := h.mem_tale hj ht (e := some t) (by rw [hx]; exact if_pos rfl)
      cases htale : tales (route μ.key).shard with
      | nil => simp [htale] at hmem
      | cons e rest =>
        cases e with
        | some u => exact (hfirst _ hj u rest htale).elim
        | none =>
          obtain ⟨u, hu, hmark⟩ := h.exists_mark hj (htale ▸ List.mem_cons_self)
          obtain ⟨i, hi, _⟩ := Task.eq_sweep hmark
          exact ⟨u, hu, h.sweep_next hfirst hu hi⟩
  · simp only [ne_eq, not_forall, not_not] at hfirst
    obtain ⟨j, hj, t, rest, htale⟩ := hfirst
    exact ⟨t, h.motion_next hj htale⟩

/--
Tasks of which there are tales can be carried out one after another, each at once, in an order that
has in every shard what its tale has.
-/
theorem Accounts.inTurn (h : Accounts route x P ts n L L' tales) :
    ∃ order, order.Perm ts ∧ InTurn route x P n order L L' ∧
      ∀ j < n, tales j = order.filterMap fun t => (x t).mark route t j := by
  obtain ⟨k, hk⟩ : ∃ k, ts.length = k := ⟨_, rfl⟩
  induction k generalizing ts L tales with
  | zero =>
    obtain rfl := List.length_eq_zero_iff.mp hk
    have htales (j : Nat) (hj : j < n) : tales j = [] := List.perm_nil.mp (h.marks j hj)
    refine ⟨[], .refl _, fun j hj => ?_, htales⟩
    have hleads := h.leads j hj
    rw [htales j hj] at hleads
    exact hleads
  | succ k ih =>
    obtain ⟨t, ht, hok, hfirst⟩ := h.next (by rintro rfl; simp at hk)
    obtain ⟨order, hperm, hturn, htales⟩ :=
      ih (h.without ht hfirst) (by rw [List.length_erase_of_mem ht]; omega)
    refine ⟨t :: order, (hperm.cons t).trans (List.perm_cons_erase ht).symm, ⟨hok, hturn⟩,
      fun j hj => ?_⟩
    rw [← List.prefix_iff_eq_append.mp (hfirst j hj), htales j hj, List.filterMap_cons]
    cases (x t).mark route t j <;> rfl

/-! ## Partway -/

/-- Tasks that can be carried out one after another can be so up to one of them. -/
theorem InTurn.upTo {us : List Nat} (h : InTurn route x P n (ts ++ us) L L') :
    InTurn route x P n ts L (effects route x ts L) := by
  induction ts generalizing L with
  | nil => exact fun _ _ => rfl
  | cons t ts ih => exact ⟨h.1, ih h.2⟩

/-- In an order of tasks only what is left for those in it makes a difference. -/
theorem effects_congr {x' : Nat → Task κ ν hash} (hx : ∀ t ∈ ts, x' t = x t)
    (L : Nat → List (Item κ ν)) : effects route x' ts L = effects route x ts L := by
  induction ts generalizing L with
  | nil => rfl
  | cons t ts ih =>
    obtain ⟨ht, hts⟩ := List.forall_mem_cons.mp hx
    unfold effects
    rw [ht, ih hts]

theorem InTurn.congr {x' : Nat → Task κ ν hash} {Q : Nat → List (Answer κ ν) → Prop}
    (h : InTurn route x' Q n ts L L') (hx : ∀ t ∈ ts, x' t = x t)
    (hok : ∀ t ∈ ts, ∀ as, Q t as → P t as) : InTurn route x P n ts L L' := by
  induction ts generalizing L with
  | nil => exact h
  | cons t ts ih =>
    obtain ⟨ht, hts⟩ := List.forall_mem_cons.mp hx
    obtain ⟨hokt, hokts⟩ := List.forall_mem_cons.mp hok
    obtain ⟨hanswers, hrest⟩ := h
    rw [ht] at hanswers hrest
    exact ⟨hokt _ hanswers, ih hrest hts hokts⟩

/-- What the beginning of a tale leads to is there at some time in the order of its tasks. -/
theorem exists_effects {order : List Nat} {j : Nat} {tale : List (Option Nat)}
    {l : List (Item κ ν)} (htale : tale <+: order.filterMap fun t => (x t).mark route t j)
    (h : Leads route x P tale (L j) l) : ∃ k, effects route x (order.take k) L j = l := by
  induction order generalizing tale L with
  | nil =>
    obtain rfl := List.prefix_nil.mp htale
    exact ⟨0, h.symm⟩
  | cons t order ih =>
    cases tale with
    | nil => exact ⟨0, h.symm⟩
    | cons e tale =>
      cases hmark : (x t).mark route t j with
      | none =>
        rw [List.filterMap_cons, hmark] at htale
        obtain ⟨k, hk⟩ := ih htale (Task.effect_leads (by rw [hmark]; exact h))
        exact ⟨k + 1, hk⟩
      | some e' =>
        rw [List.filterMap_cons, hmark] at htale
        obtain ⟨rfl, hrest⟩ := List.cons_prefix_cons.mp htale
        obtain ⟨k, hk⟩ := ih hrest (Task.effect_leads (by rw [hmark]; exact h))
        exact ⟨k + 1, hk⟩

end Order

end Tales

end VersionedMap
