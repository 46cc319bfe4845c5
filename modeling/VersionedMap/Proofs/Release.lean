import Mathlib.Algebra.Order.BigOperators.Group.List
import Mathlib.Algebra.Order.Ring.Nat
import VersionedMap.Proofs.Tasks

/-!
# After a view

When a view has ended, whoever was made to wait by it goes on. A crew **settles** if some of its
members are brief and the others only read. In every round of turns one of the brief members gets
on, so that all of them are done in the end. What has gone on in the shards meanwhile are tales of
their tasks. So there is an order in which the members could have carried out their mutations one
after another, each at once, with the same answers.
-/

namespace VersionedMap

variable {κ ν : Type} [DecidableEq κ]

/-- A member that only reads. -/
structure Member.Reader (w : Member κ ν) : Prop where
  reads : ∀ o ∈ w.todo, o.Reads
  ready : w.stage = .ready
  freed : w.view.freed = true

/-- In the turn of a reader nothing shows, and it goes on reading. -/
theorem Member.Reader.step {w : Member κ ν} (hw : w.Reader) {held : Bool} {m : Map κ ν}
    (h : m.Fit held) : m.Idles (w.step m).2 ∧ (w.take (w.step m).1).Reader := by
  unfold Member.step
  rw [hw.ready]
  dsimp only
  cases htodo : w.todo with
  | nil => exact ⟨.refl m, hw⟩
  | cons o rest =>
    have hreads := hw.reads
    rw [htodo] at hreads
    obtain ⟨hidles, hwaits | ⟨a, hover⟩⟩ :=
      Order.start_reads h (hreads o List.mem_cons_self) w.view
    · dsimp only
      rw [hwaits]
      exact ⟨hidles, hw⟩
    · dsimp only
      rw [hover]
      refine ⟨hidles, fun o ho => ?_, rfl, hw.freed⟩
      have htail : (w.take (.over a w.view)).todo = rest := congrArg List.tail htodo
      exact hreads o (List.mem_cons_of_mem _ (htail ▸ ho))

namespace Crew

/-! ## Settling -/

/--
A crew in which members `ts` are brief, and the others read, with a map shaped like `m`. One of the
brief members may have the view of the map.
-/
structure Settling (m : Map κ ν) (ts : List Nat) (L : Nat → List (Item κ ν)) (holder : Option Nat)
    (c : Crew κ ν) : Prop where
  shape : m.SameShape c.map
  fit : c.map.Fit holder.isSome
  tells : c.map.Tells L
  brief : ∀ t ∈ ts, ∃ w, c.members[t]? = some w ∧ w.Brief m.shards.size ∧
    (w.view.freed = false ↔ holder = some t)
  others : ∀ t, t ∉ ts → ∀ w, c.members[t]? = some w → w.Reader
  among : ∀ t, holder = some t → t ∈ ts

/-- A turn with which a member gets on, as its task says, and who has a view then. -/
structure Gains (m : Map κ ν) (t : Nat) (c : Crew κ ν) (L : Nat → List (Item κ ν)) (c' : Crew κ ν)
    (L' : Nat → List (Item κ ν)) (holder' : Option Nat) (w w' : Member κ ν)
    (new : List (Answer κ ν)) : Prop where
  before : c.members[t]? = some w
  after : c'.members[t]? = some w'
  others : ∀ u, u ≠ t → c'.members[u]? = c.members[u]?
  steps : Task.Steps m.route m.shards.size L (w.task m.hash) (w'.task m.hash) new L'
  answers : w'.answers = w.answers ++ new
  takes : ∀ u, holder' = some u → u = t ∧ w.Locking
  goes : ¬ w'.Locking
  left : w'.left m.shards.size < w.left m.shards.size

/-- A member that can get on: it has the view, or nobody has and it is not done. -/
def Able (c : Crew κ ν) (holder : Option Nat) (t : Nat) : Prop :=
  holder = some t ∨ (holder = none ∧ ∃ w, c.members[t]? = some w ∧ w.todo ≠ [])

variable {m : Map κ ν} {ts : List Nat} {L : Nat → List (Item κ ν)} {holder : Option Nat}
  {c : Crew κ ν} {t : Nat}

/-- What a turn with which a brief member gets on makes of the crew. -/
theorem Settling.works (h : c.Settling m ts L holder) (ht : t ∈ ts) {w : Member κ ν}
    (hw : c.members[t]? = some w) (hfree : ∀ u, holder = some u → u = t) {held : Bool}
    {L' : Nat → List (Item κ ν)} {new : List (Answer κ ν)}
    (hworks : w.Works m.hash c.map L (w.step c.map).1 (w.step c.map).2 held L' new) :
    ∃ holder' L' w w' new, (c.turn t).Settling m ts L' holder' ∧
      Gains m t c L (c.turn t) L' holder' w w' new := by
  have hmap : (c.turn t).map = (w.step c.map).2 := by rw [turn_some hw]
  have hmember := getElem?_turn hw
  have hsteps := hworks.steps
  have hbrief := hworks.brief
  have hleft := hworks.left
  rw [h.shape.size_eq, funext h.shape.route_eq] at hsteps
  rw [h.shape.size_eq] at hbrief hleft
  have hholder (u : Nat) : (if held then some t else none) = some u ↔ held = true ∧ u = t := by
    cases held <;> simp [eq_comm]
  refine ⟨if held then some t else none, L', w, w.take (w.step c.map).1, new,
    ⟨?_, ?_, hmap ▸ hworks.tells, fun u hu => ?_, fun u hu w₁ hw₁ => ?_, fun u hu => ?_⟩,
    hw, by rw [hmember, if_pos rfl], fun u hu => by rw [hmember, if_neg hu], hsteps,
    hworks.answers, fun u hu => ?_, hworks.goes, hleft⟩
  · rw [hmap]
    exact h.shape.trans hworks.shape
  · have hsome : (if held then some t else none : Option Nat).isSome = held := by
      cases held <;> rfl
    rw [hmap, hsome]
    exact hworks.fit
  · rw [hmember]
    by_cases hut : u = t
    · rw [if_pos hut]
      refine ⟨_, rfl, hbrief, ?_⟩
      rw [hworks.view, hholder, hut]
      cases held <;> simp
    · rw [if_neg hut]
      obtain ⟨w₁, hw₁, hbrief₁, hview₁⟩ := h.brief u hu
      refine ⟨w₁, hw₁, hbrief₁, hview₁.trans ?_⟩
      rw [hholder]
      exact ⟨fun hu => (hut (hfree u hu)).elim, fun hu => (hut hu.2).elim⟩
  · rw [hmember, if_neg fun hut : u = t => hu (hut ▸ ht)] at hw₁
    exact h.others u hu w₁ hw₁
  · obtain ⟨_, rfl⟩ := (hholder u).mp hu
    exact ht
  · obtain ⟨hheld, hut⟩ := (hholder u).mp hu
    exact ⟨hut, hworks.takes hheld⟩

/-- What a turn of a member that only reads makes of the crew. -/
theorem Settling.reads (h : c.Settling m ts L holder) (ht : t ∉ ts) :
    (c.turn t).Settling m ts L holder ∧ ∀ u ∈ ts, (c.turn t).members[u]? = c.members[u]? := by
  cases hw : c.members[t]? with
  | none =>
    rw [turn_none hw]
    exact ⟨h, fun _ _ => rfl⟩
  | some w =>
    obtain ⟨hidles, hreader⟩ := (h.others t ht w hw).step h.fit
    have hmap : (c.turn t).map = (w.step c.map).2 := by rw [turn_some hw]
    have hsame (u : Nat) (hu : u ∈ ts) : (c.turn t).members[u]? = c.members[u]? := by
      rw [getElem?_turn hw, if_neg fun hut : u = t => ht (hut ▸ hu)]
    refine ⟨⟨?_, ?_, ?_, fun u hu => ?_, fun u hu w₁ hw₁ => ?_, h.among⟩, hsame⟩
    · rw [hmap]
      exact h.shape.trans hidles.toSameShape
    · rw [hmap]
      exact hidles.fit _ h.fit
    · rw [hmap]
      exact hidles.toSameView.tells h.tells
    · rw [hsame u hu]
      exact h.brief u hu
    · rw [getElem?_turn hw] at hw₁
      split at hw₁
      · exact Option.some.inj hw₁ ▸ hreader
      · exact h.others u hu w₁ hw₁

/-- In a turn a member gets on that is able to, and nothing shows if none does. -/
theorem Settling.turn (h : c.Settling m ts L holder) (t : Nat) :
    ((c.turn t).Settling m ts L holder ∧ (∀ u ∈ ts, (c.turn t).members[u]? = c.members[u]?) ∧
      (t ∈ ts → ¬ c.Able holder t)) ∨
    (t ∈ ts ∧ ∃ holder' L' w w' new, (c.turn t).Settling m ts L' holder' ∧
      Gains m t c L (c.turn t) L' holder' w w' new) := by
  by_cases ht : t ∈ ts
  swap
  · obtain ⟨hturn, hsame⟩ := h.reads ht
    exact .inl ⟨hturn, hsame, fun hmem => (ht hmem).elim⟩
  obtain ⟨w, hw, hbrief, hview⟩ := h.brief t ht
  have hbrief' := h.shape.size_eq ▸ hbrief
  have hfit := h.fit
  -- who has the turn for nothing leaves everything as it was
  have hwaits (hstep : w.step c.map = (.waits, c.map)) (hunable : ¬ c.Able holder t) :
      (c.turn t).Settling m ts L holder ∧ (∀ u ∈ ts, (c.turn t).members[u]? = c.members[u]?) ∧
        (t ∈ ts → ¬ c.Able holder t) := by
    rw [turn_waits hw hstep]
    exact ⟨h, fun _ _ => rfl, fun _ => hunable⟩
  cases holder with
  | none =>
    have hfreed : w.view.freed = true := by simpa using hview
    by_cases htodo : w.todo = []
    · refine .inl (hwaits (Member.step_done (hbrief.ready_of_nil htodo).1 htodo _) ?_)
      rintro (hmine | ⟨_, w', hw', hne⟩)
      · simp at hmine
      · obtain rfl := Option.some.inj (hw.symm.trans hw')
        exact hne htodo
    · obtain ⟨held, L', new, hworks⟩ := hbrief'.works hfit h.tells h.shape.hash_eq hfreed htodo
      exact .inr ⟨ht, h.works ht hw (by simp) hworks⟩
  | some u =>
    by_cases hut : u = t
    · have hlive : w.view.freed = false := by simpa [hut] using hview
      obtain ⟨new, hworks⟩ : ∃ new, w.Works m.hash c.map L (w.step c.map).1 (w.step c.map).2
          false L new := hbrief'.works_inside hfit h.tells hlive
      exact .inr ⟨ht, h.works ht hw (fun x hx => (Option.some.inj hx).symm.trans hut) hworks⟩
    · have hfreed : w.view.freed = true := by simpa [hut] using hview
      refine .inl (hwaits (hbrief'.step_waits hfit hfreed) ?_)
      rintro (hmine | ⟨hnone, _⟩)
      · exact hut (Option.some.inj hmine)
      · simp at hnone

/-! ## Everyone gets on -/

/-- The most turns with which members `ts` can still get on in a map of `n` shards. -/
def leftAll (n : Nat) (ts : List Nat) (c : Crew κ ν) : Nat :=
  (ts.map fun t => c.members[t]?.elim 0 (·.left n)).sum

omit [DecidableEq κ] in
theorem leftAll_le (n : Nat) (ts : List Nat) (c : Crew κ ν) :
    c.leftAll n ts ≤ ts.length * (n + 2) := by
  have hle := List.sum_le_card_nsmul (ts.map fun t => c.members[t]?.elim 0 (·.left n)) (n + 2)
    fun k hk => by
      obtain ⟨t, _, rfl⟩ := List.mem_map.mp hk
      cases c.members[t]? with
      | none => exact Nat.zero_le _
      | some w => exact w.left_le n
  rw [List.length_map] at hle
  exact hle

theorem Gains.leftAll_lt {c' : Crew κ ν} {L' : Nat → List (Item κ ν)} {holder' : Option Nat}
    {w w' : Member κ ν} {new : List (Answer κ ν)} (h : Gains m t c L c' L' holder' w w' new)
    (ht : t ∈ ts) :
    c'.leftAll m.shards.size ts < c.leftAll m.shards.size ts := by
  have hlt : c'.members[t]?.elim 0 (·.left m.shards.size)
      < c.members[t]?.elim 0 (·.left m.shards.size) := by
    rw [h.before, h.after]
    exact h.left
  refine List.sum_lt_sum _ _ (fun u _ => ?_) ⟨t, ht, hlt⟩
  by_cases hut : u = t
  · exact hut ▸ Nat.le_of_lt hlt
  · rw [h.others u hut]

/-- A run takes turns from those that are left, if someone has a turn who can get on with it. -/
theorem Settling.run (h : c.Settling m ts L holder) (schedule : List Nat) :
    ∃ L' holder', (c.run schedule).Settling m ts L' holder' ∧
      (c.run schedule).leftAll m.shards.size ts ≤ c.leftAll m.shards.size ts ∧
      ((∃ t ∈ ts, t ∈ schedule ∧ c.Able holder t) →
        (c.run schedule).leftAll m.shards.size ts < c.leftAll m.shards.size ts) := by
  induction schedule generalizing c L holder with
  | nil => exact ⟨L, holder, h, Nat.le_refl _, fun ⟨_, _, hmem, _⟩ => by simp at hmem⟩
  | cons u schedule ih =>
    rw [run_cons]
    rcases h.turn u with ⟨hturn, hsame, hunable⟩ | ⟨hu, holder', L₁, w, w', new, hturn, hgains⟩
    · obtain ⟨L', holder', hrun, hle, hlt⟩ := ih hturn
      have hleft : (c.turn u).leftAll m.shards.size ts = c.leftAll m.shards.size ts :=
        congrArg List.sum (List.map_congr_left fun t ht => by rw [hsame t ht])
      rw [hleft] at hle hlt
      refine ⟨L', holder', hrun, hle, fun ⟨t, ht, hmem, hable⟩ => hlt ⟨t, ht, ?_, ?_⟩⟩
      · -- the one who can get on has its turn later
        rcases List.mem_cons.mp hmem with rfl | hmem
        · exact (hunable ht hable).elim
        · exact hmem
      · unfold Able
        rw [hsame t ht]
        exact hable
    · obtain ⟨L', holder'', hrun, hle, _⟩ := ih hturn
      have hlt := hgains.leftAll_lt hu
      exact ⟨L', holder'', hrun, by omega, fun _ => by omega⟩

omit [DecidableEq κ] in
/-- Where someone is not done, someone can get on. -/
theorem Settling.exists_able (h : c.Settling m ts L holder) (ht : t ∈ ts) {w : Member κ ν}
    (hw : c.members[t]? = some w) (htodo : w.todo ≠ []) : ∃ u ∈ ts, c.Able holder u := by
  cases hh : holder with
  | none => exact ⟨t, ht, .inr ⟨rfl, w, hw, htodo⟩⟩
  | some u => exact ⟨u, h.among u hh, .inl rfl⟩

/-- When members `ts` have had as many rounds of turns as they need at most, all are done. -/
theorem Settling.run_rounds (h : c.Settling m ts L holder) (rounds : List (List Nat))
    (hall : ∀ r ∈ rounds, ∀ t ∈ ts, t ∈ r)
    (hmany : c.leftAll m.shards.size ts ≤ rounds.length) :
    ∀ t ∈ ts, ∃ w, (c.run rounds.flatten).members[t]? = some w ∧ w.todo = [] := by
  induction rounds generalizing c L holder with
  | nil =>
    intro t ht
    obtain ⟨w, hw, _⟩ := h.brief t ht
    refine ⟨w, hw, ?_⟩
    by_contra htodo
    obtain ⟨u, hu, hable⟩ := h.exists_able ht hw htodo
    obtain ⟨_, _, _, _, hlt⟩ := h.run ts
    have hless := hlt ⟨u, hu, hu, hable⟩
    rw [List.length_nil] at hmany
    omega
  | cons r rounds ih =>
    obtain ⟨hr, hall⟩ := List.forall_mem_cons.mp hall
    obtain ⟨L', holder', hrun, hle, hlt⟩ := h.run r
    rw [List.flatten_cons, run_append]
    refine ih hrun hall ?_
    rw [List.length_cons] at hmany
    by_cases hable : ∃ t ∈ ts, c.Able holder t
    · obtain ⟨t, ht, hable⟩ := hable
      have hless := hlt ⟨t, ht, hr t ht, hable⟩
      omega
    · -- nobody can get on, so that all are done and nothing is left
      have hzero : c.leftAll m.shards.size ts = 0 := by
        refine List.sum_eq_zero fun k hk => ?_
        obtain ⟨t, ht, rfl⟩ := List.mem_map.mp hk
        obtain ⟨w, hw, hbrief, _⟩ := h.brief t ht
        have hdone : w.todo = [] := by
          by_contra htodo
          exact hable (h.exists_able ht hw htodo)
        rw [hw]
        show w.left m.shards.size = 0
        unfold Member.left
        rw [(hbrief.ready_of_nil hdone).1, hdone]
      omega

/-! ## Tales of a settling crew -/

/-- What is left for the members `ts` to do; the others do not count. -/
def tasks (m : Map κ ν) (ts : List Nat) (c : Crew κ ν) (t : Nat) : Task κ ν m.hash :=
  if t ∈ ts then c.members[t]?.elim (.rest []) (·.task m.hash) else .rest []

omit [DecidableEq κ] in
/-- The answers with which the members `ts` come to those in `answers`. -/
def Owes (answers : Nat → List (Answer κ ν)) (ts : List Nat) (c : Crew κ ν) (t : Nat)
    (as : List (Answer κ ν)) : Prop :=
  t ∈ ts → ∀ w, c.members[t]? = some w → w.answers ++ as = answers t

theorem tasks_eq (ht : t ∈ ts) {w : Member κ ν} (hw : c.members[t]? = some w) :
    c.tasks m ts t = w.task m.hash := by
  unfold tasks
  rw [if_pos ht, hw]
  rfl

theorem Settling.done_task (h : c.Settling m ts L holder) (ht : t ∈ ts) {w : Member κ ν}
    (hw : c.members[t]? = some w) (htodo : w.todo = []) :
    holder ≠ some t ∧ w.task m.hash = .rest [] := by
  obtain ⟨w', hw', hbrief, hview⟩ := h.brief t ht
  obtain rfl := Option.some.inj (hw.symm.trans hw')
  obtain ⟨hready, hfreed⟩ := hbrief.ready_of_nil htodo
  exact ⟨fun hmine => by simp [hview.mpr hmine] at hfreed, Member.task_done hready htodo⟩

/-- Members who are done have nothing more to do, and have the answers that they have. -/
theorem Settling.accounts_done (h : c.Settling m ts L holder) {answers : Nat → List (Answer κ ν)}
    (hdone : ∀ t ∈ ts, ∃ w, c.members[t]? = some w ∧ w.todo = [] ∧ w.answers = answers t)
    {us : List Nat} (hus : us ⊆ ts) :
    Accounts m.route (c.tasks m ts) (c.Owes answers ts) us m.shards.size L L fun _ => [] := by
  refine accounts_nil (fun t ht => ?_) (fun t ht _ w hw => ?_) _ L
  · obtain ⟨w, hw, htodo, _⟩ := hdone t (hus ht)
    rw [tasks_eq (hus ht) hw, (h.done_task (hus ht) hw htodo).2]
  · obtain ⟨w', hw', _, hanswers⟩ := hdone t (hus ht)
    obtain rfl := Option.some.inj (hw'.symm.trans hw)
    rw [List.append_nil, hanswers]

section Turns

variable {c' : Crew κ ν} {L' : Nat → List (Item κ ν)} {holder' : Option Nat} {w w' : Member κ ν}
  {new : List (Answer κ ν)} {answers : Nat → List (Answer κ ν)}

theorem tasks_congr (h : ∀ u ∈ ts, c'.members[u]? = c.members[u]?) :
    c'.tasks m ts = c.tasks m ts := by
  funext u
  unfold tasks
  split
  · rename_i hu
    rw [h u hu]
  · rfl

omit [DecidableEq κ] in
theorem owes_congr (h : ∀ u ∈ ts, c'.members[u]? = c.members[u]?) :
    c'.Owes answers ts = c.Owes answers ts := by
  funext u as
  unfold Owes
  exact propext ⟨fun howes hu => h u hu ▸ howes hu, fun howes hu => (h u hu).symm ▸ howes hu⟩

/-- With the turn of another, what is left for a member is what it was. -/
theorem Gains.tasks_eq (h : Gains m t c L c' L' holder' w w' new) {u : Nat} (hu : u ≠ t) :
    c'.tasks m ts u = c.tasks m ts u := by
  unfold tasks
  rw [h.others u hu]

theorem Gains.owes_other (h : Gains m t c L c' L' holder' w w' new) {u : Nat} (hu : u ≠ t)
    (as : List (Answer κ ν)) (howes : c'.Owes answers ts u as) : c.Owes answers ts u as := by
  unfold Owes
  rw [← h.others u hu]
  exact howes

theorem Gains.owes (h : Gains m t c L c' L' holder' w w' new) (as : List (Answer κ ν))
    (howes : c'.Owes answers ts t as) : c.Owes answers ts t (new ++ as) := by
  intro ht w₁ hw₁
  obtain rfl := Option.some.inj (h.before.symm.trans hw₁)
  rw [← List.append_assoc, ← h.answers]
  exact howes ht w' h.after

theorem Gains.tasks_steps (h : Gains m t c L c' L' holder' w w' new) (ht : t ∈ ts) :
    Task.Steps m.route m.shards.size L (c.tasks m ts t) (c'.tasks m ts t) new L' := by
  rw [Crew.tasks_eq ht h.before, Crew.tasks_eq ht h.after]
  exact h.steps

end Turns

omit [DecidableEq κ] in
/-- What there is in every shard is what a beginning of its tale leads to. -/
def Partway (m : Map κ ν) (x : Nat → Task κ ν m.hash) (P : Nat → List (Answer κ ν) → Prop)
    (L : Nat → List (Item κ ν)) (tales : Nat → List (Option Nat)) (c : Crew κ ν) : Prop :=
  ∃ L', c.map.Tells L' ∧
    ∀ j < m.shards.size, ∃ tale, tale <+: tales j ∧ Leads m.route x P tale (L j) (L' j)

omit [DecidableEq κ] in
/-- So it is at the beginning of the tales. -/
theorem partway_start (h : c.map.Tells L) (x : Nat → Task κ ν m.hash)
    (P : Nat → List (Answer κ ν) → Prop) (tales : Nat → List (Option Nat)) :
    Partway m x P L tales c :=
  ⟨L, h, fun _ _ => ⟨[], List.nil_prefix, rfl⟩⟩

/-- So it is at any time in a schedule. -/
def Unfolds (m : Map κ ν) (answers : Nat → List (Answer κ ν)) (ts : List Nat) (c : Crew κ ν)
    (L : Nat → List (Item κ ν)) (tales : Nat → List (Option Nat)) (schedule : List Nat) : Prop :=
  ∀ s, s <+: schedule → Partway m (c.tasks m ts) (c.Owes answers ts) L tales (c.run s)

theorem unfolds_nil {answers : Nat → List (Answer κ ν)} (h : c.map.Tells L)
    (tales : Nat → List (Option Nat)) : Unfolds m answers ts c L tales [] := by
  intro s hs
  obtain rfl := List.prefix_nil.mp hs
  exact partway_start h _ _ tales

/-- With what a turn adds in front of the tales. -/
theorem Unfolds.cons {answers : Nat → List (Answer κ ν)} {L₁ : Nat → List (Item κ ν)}
    {tales e : Nat → List (Option Nat)} {schedule : List Nat}
    (h : Unfolds m answers ts (c.turn t) L₁ tales schedule) (htells : c.map.Tells L)
    (hleads : ∀ j < m.shards.size, ∀ tale l,
      Leads m.route ((c.turn t).tasks m ts) ((c.turn t).Owes answers ts) tale (L₁ j) l →
      Leads m.route (c.tasks m ts) (c.Owes answers ts) (e j ++ tale) (L j) l) :
    Unfolds m answers ts c L (fun j => e j ++ tales j) (t :: schedule) := by
  refine forall_prefix_cons (partway_start htells _ _ _) fun s hs => ?_
  obtain ⟨L', htells', hbegins⟩ := h s hs
  refine ⟨L', htells', fun j hj => ?_⟩
  obtain ⟨tale, htale, hleads'⟩ := hbegins j hj
  exact ⟨e j ++ tale, (List.prefix_append_right_inj (e j)).mpr htale, hleads j hj _ _ hleads'⟩

/-- When all brief members are done, what has gone on are tales of what they had to do. -/
theorem Settling.accounts (h : c.Settling m ts L holder) (hnodup : ts.Nodup)
    (answers : Nat → List (Answer κ ν)) (schedule : List Nat)
    (hdone : ∀ t ∈ ts, ∃ w, (c.run schedule).members[t]? = some w ∧ w.todo = [] ∧
      w.answers = answers t) :
    ∃ L' tales, (c.run schedule).Settling m ts L' none ∧
      Accounts m.route (c.tasks m ts) (c.Owes answers ts) ts m.shards.size L L' tales ∧
      Unfolds m answers ts c L tales schedule := by
  induction schedule generalizing c L holder with
  | nil =>
    change ∀ t ∈ ts, ∃ w, c.members[t]? = some w ∧ w.todo = [] ∧ w.answers = answers t at hdone
    have hnone : holder = none := by
      cases holder with
      | none => rfl
      | some t =>
        obtain ⟨w, hw, htodo, _⟩ := hdone t (h.among t rfl)
        exact ((h.done_task (h.among t rfl) hw htodo).1 rfl).elim
    exact ⟨L, _, hnone ▸ h, h.accounts_done hdone fun _ => id, unfolds_nil h.tells _⟩
  | cons t schedule ih =>
    rcases h.turn t with ⟨hturn, hsame, _⟩ | ⟨ht, holder', L₁, w, w', new, hturn, hgains⟩
    · obtain ⟨L', tales, hsettling, haccounts, hunfolds⟩ := ih hturn hdone
      rw [tasks_congr hsame, owes_congr hsame] at haccounts
      refine ⟨L', tales, hsettling, haccounts, hunfolds.cons (e := fun _ => []) h.tells ?_⟩
      rw [tasks_congr hsame, owes_congr hsame]
      exact fun _ _ _ _ => id
    · obtain ⟨L', tales, hsettling, haccounts, hunfolds⟩ := ih hturn hdone
      obtain ⟨e, haccounts', hleads⟩ := haccounts.cons hnodup ht (fun _ => hgains.tasks_eq)
        (fun _ => hgains.owes_other) hgains.owes
        (fun μ _ => by rw [← h.shape.route_eq, ← h.shape.size_eq]; exact h.fit.route_lt _)
        (hgains.tasks_steps ht)
      exact ⟨L', _, hsettling, haccounts', hunfolds.cons h.tells hleads⟩

/-! ## One after another -/

/-- Members finish what is left of their orders one after another, each at once. -/
def finishAll (c : Crew κ ν) : List Nat → Map κ ν → List (List (Answer κ ν)) × Map κ ν
  | [], m => ([], m)
  | t :: order, m =>
    match c.members[t]? with
    | none => c.finishAll order m
    | some w =>
      let (as, m) := w.finish m
      let (rest, m) := c.finishAll order m
      ((w.answers ++ as) :: rest, m)

/-- Tasks that can be carried out one after another are carried out so by those who have them. -/
theorem Settling.finishAll_spec {L₀ : Nat → List (Item κ ν)} (h : c.Settling m ts L₀ none)
    {answers : Nat → List (Answer κ ν)} {order : List Nat} (horder : ∀ t ∈ order, t ∈ ts)
    {m₁ : Map κ ν} (hshape : m.SameShape m₁) (hfit : m₁.Fit false) (htells : m₁.Tells L)
    {L' : Nat → List (Item κ ν)}
    (hturn : InTurn m.route (c.tasks m ts) (c.Owes answers ts) m.shards.size order L L') :
    (c.finishAll order m₁).1 = order.map answers ∧ (c.finishAll order m₁).2.Fit false ∧
      m.SameShape (c.finishAll order m₁).2 ∧ (c.finishAll order m₁).2.Tells L' := by
  induction order generalizing m₁ L with
  | nil =>
    exact ⟨rfl, hfit, hshape, htells.congr fun j hj => hturn j (hshape.size_eq ▸ hj)⟩
  | cons t order ih =>
    obtain ⟨ht, horder⟩ := List.forall_mem_cons.mp horder
    obtain ⟨hanswers, hrest⟩ := hturn
    obtain ⟨w, hw, hbrief, hview⟩ := h.brief t ht
    have hfreed : w.view.freed = true := by simpa using hview
    rw [tasks_eq ht hw] at hanswers hrest
    obtain ⟨m₂, hfinish, hfit₂, hshape₂, htells₂⟩ :=
      (hshape.size_eq ▸ hbrief).finish_spec hfit htells hshape.hash_eq hfreed
    rw [funext hshape.route_eq] at hfinish htells₂
    obtain ⟨hall, hend⟩ := ih horder (hshape.trans hshape₂) hfit₂ htells₂ hrest
    unfold finishAll
    rw [hw]
    dsimp only
    rw [hfinish]
    refine ⟨?_, hend⟩
    rw [List.map_cons, ← hall]
    exact congrArg (· :: _) (hanswers ht w hw)

end Crew

end VersionedMap
