import VersionedMap.Proofs.Agreement
import VersionedMap.Proofs.MapChronicles

/-!
# Errands

Whoever runs **errands** does deeds and asks questions, of a map or of the view of it that there may
be, one after another and none within another. What an errand does can be told from the chronicles
of the map: they say what the answer is, and what becomes of them, whatever the numbers of buckets.
Of the questions three cannot be answered from the chronicles, the one for the number of buckets
and the two that are answered in the order of a scan.
-/

namespace VersionedMap

variable {κ ν σ α : Type}

/-! ## Deeds -/

section Deeds

variable [DecidableEq κ]

/-- The answer of a deed, the view then, and the chronicles then. -/
def Deed.tell (d : Deed κ ν) (v : View) (hash : κ → UInt64) (route : UInt64 → Route)
    (L : Nat → List (Item κ ν)) : Answer κ ν × View × (Nat → List (Item κ ν)) :=
  match d.motion? hash with
  | some μ =>
    if v.freed then
      (μ.answer (μ.tell route L).1.1, v, Map.rewrite L (route μ.key).shard (μ.tell route L).2)
    else (.refused .wouldBlock, v, L)
  | none =>
    match d, v.freed with
    | .clear, true => (.nothing, v, fun _ => [])
    | .lock, true => (.nothing, {}, L)
    | .wipe, false => (.nothing, v, fun _ => [])
    | .free, false => (.nothing, { freed := true }, L)
    | .wipe, true | .free, true => (.refused .viewFreed, v, L)
    | _, _ => (.refused .wouldBlock, v, L)

/-- The number of buckets of a shard after a deed, of `n` before. -/
def Deed.resize (d : Deed κ ν) (v : View) (hash : κ → UInt64) (route : UInt64 → Route)
    (L : Nat → List (Item κ ν)) (i n : Nat) : Nat :=
  match d.motion? hash with
  | some μ =>
    if v.freed ∧ i = (route μ.key).shard then
      Map.grownSize n (μ.tell route L).1.2 (μ.tell route L).2
    else n
  | none => n

/-- From a map to another, with a view of it, as the chronicles tell. -/
structure Map.Unfolds (m : Map κ ν) (resize : Nat → Nat → Nat)
    (told : View × (Nat → List (Item κ ν))) (out : View × Map κ ν) : Prop where
  view_eq : out.1 = told.1
  fit : out.2.Fit (!out.1.freed)
  shape : m.SameShape out.2
  tells : out.2.Tells told.2
  sizes : ∀ i, (out.2.shardAt i).table.size = resize i (m.shardAt i).table.size

variable {m : Map κ ν} {L : Nat → List (Item κ ν)} {v : View}

omit [DecidableEq κ] in
/-- Where nothing shows, nothing is to be told. -/
theorem Map.SameView.unfolds {m' : Map κ ν} (hview : m.SameView m') {w : View}
    (h : m'.Fit (!w.freed)) (ht : m.Tells L) : m.Unfolds (fun _ n => n) (w, L) (w, m') :=
  ⟨rfl, h, hview.toSameShape, hview.tells ht, fun i => Table.size_congr (hview.shelves_eq i)⟩

/-- A deed and what it makes of a map go as told. -/
def Deed.Unfolds (d : Deed κ ν) (v : View) (m : Map κ ν) (L : Nat → List (Item κ ν)) : Prop :=
  (d.run v m).1 = (d.tell v m.hash m.route L).1 ∧
    m.Unfolds (d.resize v m.hash m.route L) (d.tell v m.hash m.route L).2 (d.run v m).2

namespace Deed

theorem unfolds_motion {d : Deed κ ν} {μ : Motion κ ν m.hash} (hμ : d.motion? m.hash = some μ)
    (h : m.Fit (!v.freed)) (ht : m.Tells L) : d.Unfolds v m L := by
  unfold Unfolds tell resize
  rw [hμ, run_motion hμ rfl]
  obtain ⟨_ | _⟩ := v
  · rw [Map.Fit.mutate_held h]
    exact ⟨rfl, rfl, h, .refl m, ht, fun i => (if_neg (by simp)).symm⟩
  · obtain ⟨m', hrun, hfit, hshape, htells, hsizes⟩ := Map.Fit.tells_mutate h ht rfl μ
    rw [hrun]
    exact ⟨rfl, rfl, hfit, hshape, htells, fun i => (hsizes i).trans (if_congr (by simp) rfl rfl)⟩

theorem unfolds_clear (h : m.Fit (!v.freed)) (ht : m.Tells L) :
    (clear : Deed κ ν).Unfolds v m L := by
  unfold Unfolds run
  obtain ⟨_ | _⟩ := v
  · rw [Map.Fit.clear_held h]
    exact ⟨rfl, (Map.SameView.refl m).unfolds h ht⟩
  · obtain ⟨m', hrun, hfit, hshape, htells, hsizes⟩ :=
      Map.Fit.tells_clearFrom h ht (Nat.zero_add m.shards.size)
    have hclear : m.clear = (.done (), m') := hrun
    rw [hclear]
    exact ⟨rfl, rfl, hfit, hshape, htells.congr fun i _ => (if_pos (Nat.zero_le i)).symm, hsizes⟩

theorem unfolds_lock (h : m.Fit (!v.freed)) (ht : m.Tells L) : (lock : Deed κ ν).Unfolds v m L := by
  unfold Unfolds run
  obtain ⟨_ | _⟩ := v
  · rw [Map.Fit.lock_held h]
    exact ⟨rfl, (Map.SameView.refl m).unfolds h ht⟩
  · obtain ⟨m', hrun, hfit, _, hview⟩ := Map.Fit.lock h
    rw [hrun]
    exact ⟨rfl, hview.unfolds hfit ht⟩

theorem unfolds_wipe (h : m.Fit (!v.freed)) (ht : m.Tells L) : (wipe : Deed κ ν).Unfolds v m L := by
  unfold Unfolds run
  obtain ⟨_ | _⟩ := v
  · obtain ⟨m', hrun, hfit, _, hwiped⟩ := Map.Fit.wipe (v := {}) h rfl
    rw [hrun]
    refine ⟨rfl, rfl, hfit, hwiped.toSameShape, hwiped.tells, fun i => ?_⟩
    have hshelves : (m'.shardAt i).table.shelves = .replicate (m.shardAt i).table.size [] :=
      congrArg Prod.fst (hwiped.view_eq i)
    show (m'.shardAt i).table.size = _
    rw [← Table.length_shelves, hshelves, List.length_replicate]
    rfl
  · exact ⟨rfl, (Map.SameView.refl m).unfolds h ht⟩

theorem unfolds_free (h : m.Fit (!v.freed)) (ht : m.Tells L) : (free : Deed κ ν).Unfolds v m L := by
  unfold Unfolds run
  obtain ⟨_ | _⟩ := v
  · obtain ⟨hfit, _, hview⟩ := Map.Fit.unlock h
    exact ⟨rfl, hview.unfolds hfit ht⟩
  · exact ⟨rfl, (Map.SameView.refl m).unfolds h ht⟩

/-- What a deed answers and what it does to a map can be told from the chronicles. -/
theorem run_unfolds (d : Deed κ ν) (h : m.Fit (!v.freed)) (ht : m.Tells L) : d.Unfolds v m L := by
  cases d with
  | set k w | swap k w | setAbsent k w | getOrSet k w | delete q => exact unfolds_motion rfl h ht
  | clear => exact unfolds_clear h ht
  | lock => exact unfolds_lock h ht
  | wipe => exact unfolds_wipe h ht
  | free => exact unfolds_free h ht

end Deed

end Deeds

/-! ## Inquiries -/

section Inquiries

variable [Text.Shown κ] [Text.Shown ν] {m : Map κ ν}

/-- Asking a map shows nothing. -/
theorem Map.Fit.ask_stays {held : Bool} (h : m.Fit held) (i : Inquiry κ ν σ α) :
    (m.ask i).2.Fit held ∧ m.SameView (m.ask i).2 := by
  have hlook {β : Type} (q : Lookup κ) (g : κ × ν → β) :
      (m.read q fun e m => (g e, m)).2.Fit held ∧
        m.SameView (m.read q fun e m => (g e, m)).2 :=
    have hidles := idles_look ⟨held, h⟩ q g
    ⟨hidles.fit held h, hidles.toSameView⟩
  cases i with
  | len | isEmpty => exact ⟨h, .refl m⟩
  | contains q =>
    dsimp only [Map.ask, Map.contains]
    exact hlook q fun _ => ()
  | get q =>
    dsimp only [Map.ask, Map.get]
    exact hlook q fun e => e.2
  | read q f =>
    dsimp only [Map.ask]
    exact hlook q f
  | range f st =>
    have hwatches := h.range_watches f st
    exact ⟨hwatches.fit, hwatches.sameView⟩
  | text long =>
    have hwatches := h.range_watches (fun e (seen : Array (κ × ν)) => (true, seen.push e)) #[]
    have hmap : (m.ask (.text long : Inquiry κ ν σ α)).2
        = (m.range (onlooker fun e (seen : Array (κ × ν)) => (true, seen.push e)) #[]).2.2 := by
      show m.entries.2 = _
      unfold entries
      show _ = (m.range (fun e seen m => (true, seen.push e, m)) #[]).2.2
      generalize m.range (fun e seen m => (true, seen.push e, m)) #[] = out
      obtain ⟨a | _, seen, m'⟩ := out <;> rfl
    rw [hmap]
    exact ⟨hwatches.fit, hwatches.sameView⟩

/-- What a view answers when it has been freed. -/
def Inquiry.afterFree : Inquiry κ ν σ α → Except Refusal (Finding ν σ α)
  | .text _ => .ok (.text Text.freedView)
  | _ => .error .viewFreed

/-- A view that has been freed answers without looking at the map. -/
theorem View.ask_freed {v : View} (hv : v.freed = true) (m : Map κ ν) (i : Inquiry κ ν σ α) :
    v.ask m i = i.afterFree := by
  have hcheck : v.check = .error .viewFreed := by
    unfold check
    rw [hv]
    rfl
  cases i with
  | len | isEmpty | contains q | get q | read q f | range f st =>
    simp only [ask, len, isEmpty, contains, get, find?, range, hcheck]
    rfl
  | text long =>
    unfold ask View.text
    rw [hv]
    rfl

/-- A question whose answer does not go by the order of a scan. -/
def Inquiry.Plain : Inquiry κ ν σ α → Prop
  | .range _ _ | .text _ => False
  | _ => True

end Inquiries

/-! ## Errands -/

/-- One thing to do with a map, or with the view of it. -/
inductive Errand (κ ν σ α : Type)
  | act (d : Deed κ ν)
  /-- Drops the view. -/
  | drop
  /-- Asks the map. -/
  | ask (i : Inquiry κ ν σ α)
  /-- Asks the view. -/
  | peek (i : Inquiry κ ν σ α)
  | capacity
  | shardCount

/-- What comes back from an errand. -/
inductive Reply (κ ν σ α : Type)
  | did (a : Answer κ ν)
  | found (a : Attempt (Finding ν σ α))
  | seen (a : Except Refusal (Finding ν σ α))
  | buckets (n : Nat)
  | shards (n : Option Nat)

/-- An errand whose reply goes neither by the number of buckets nor by the order of a scan. -/
def Errand.Plain : Errand κ ν σ α → Prop
  | .act _ | .drop | .shardCount => True
  | .ask i | .peek i => i.Plain
  | .capacity => False

variable [DecidableEq κ] [Text.Shown κ] [Text.Shown ν]

/-- Runs an errand. -/
def Errand.run (e : Errand κ ν σ α) (v : View) (m : Map κ ν) : Reply κ ν σ α × View × Map κ ν :=
  match e with
  | .act d =>
    let (a, v, m) := d.run v m
    (.did a, v, m)
  | .drop => (.did .nothing, { freed := true }, v.close m)
  | .ask i =>
    let (a, m) := m.ask i
    (.found a, v, m)
  | .peek i => (.seen (v.ask m i), v, m)
  | .capacity => (.buckets m.capacity, v, m)
  | .shardCount => (.shards m.shardCount?, v, m)

omit [Text.Shown κ] [Text.Shown ν] in
/-- The view after an errand, and the chronicles then. -/
def Errand.tell (e : Errand κ ν σ α) (v : View) (hash : κ → UInt64) (route : UInt64 → Route)
    (L : Nat → List (Item κ ν)) : View × (Nat → List (Item κ ν)) :=
  match e with
  | .act d => (d.tell v hash route L).2
  | .drop => ({ freed := true }, L)
  | _ => (v, L)

omit [Text.Shown κ] [Text.Shown ν] in
/-- The number of buckets of a shard after an errand, of `n` before. -/
def Errand.resize (e : Errand κ ν σ α) (v : View) (hash : κ → UInt64) (route : UInt64 → Route)
    (L : Nat → List (Item κ ν)) (i n : Nat) : Nat :=
  match e with
  | .act d => d.resize v hash route L i n
  | _ => n

variable {m : Map κ ν} {L : Nat → List (Item κ ν)} {v : View}

/-- What an errand does to a map can be told from its chronicles. -/
theorem Errand.run_unfolds (e : Errand κ ν σ α) (h : m.Fit (!v.freed)) (ht : m.Tells L) :
    m.Unfolds (e.resize v m.hash m.route L) (e.tell v m.hash m.route L) (e.run v m).2 := by
  cases e with
  | act d => exact (d.run_unfolds h ht).2
  | drop =>
    unfold run View.close
    cases hv : v.freed with
    | true =>
      rw [hv] at h
      exact (Map.SameView.refl m).unfolds h ht
    | false =>
      rw [hv] at h
      obtain ⟨hfit, _, hview⟩ := h.unlock
      exact hview.unfolds hfit ht
  | ask i =>
    obtain ⟨hfit, hview⟩ := h.ask_stays i
    exact hview.unfolds hfit ht
  | peek i | capacity | shardCount => exact (Map.SameView.refl m).unfolds h ht

end VersionedMap
