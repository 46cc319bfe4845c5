import VersionedMap.Proofs.Conservation
import VersionedMap.Proofs.Waiting

/-!
# Identifiers count publications

The identifier of a version is fixed when it is drafted, takes effect when it is published, and then
stands in two places, the version and the reference word. In both it tells how many times the bucket
has published, counted from `1` and around again past the largest identifier. The versions before
it, along the links, have the identifiers of the publications before.
-/

namespace VersionedMap

variable {κ ν α : Type}

namespace Bucket

/-- Whether a command publishes, if it is not refused. -/
def Command.publishes : Command κ ν → Bool
  | .replace _ | .add _ | .remove _ | .wipe | .publish | .install _ => true
  | _ => false

/-- Whether a command was refused. -/
def Reply.isRefused : Reply κ ν → Bool
  | .refused _ => true
  | _ => false

namespace Session

variable {s : Session κ ν}

/-- Whether a command publishes. -/
def publishes (s : Session κ ν) (c : Command κ ν) : Bool := c.publishes && !(s.step c).1.isRefused

theorem published_write
    {f : Argument (Bucket κ ν → Shared κ ν → Reply κ ν × Bucket κ ν × Shared κ ν)}
    (hf : ∀ g, f = .ok g → Supersedes g ∧ ∀ b sh, (g b sh).1.isRefused = false) :
    (s.write f).2.bucket.published =
      s.bucket.published + if !(s.write f).1.isRefused then 1 else 0 := by
  unfold write
  split
  · rfl
  · cases f with
    | error why => rfl
    | ok g =>
      obtain ⟨hsup, hreply⟩ := hf g rfl
      obtain ⟨v, sh, _, _, hpublish⟩ := hsup s.bucket.lock s.shared
      have hrun : (s.bucket.exclusively g s.shared).2.1.published = s.bucket.published + 1 := by
        show ((g s.bucket.lock s.shared).2.1.unlock (g s.bucket.lock s.shared).2.2).1.published = _
        rw [(shortens_unlock _ _).published_eq, hpublish, published_publish]
        rfl
      have hanswer : (s.bucket.exclusively g s.shared).1.isRefused = false := hreply _ _
      dsimp only
      rw [hrun, hanswer]
      rfl

theorem published_acquire (b : Bucket κ ν) (sh : Shared κ ν) :
    (b.acquire sh).2.1.published = b.published := by
  rcases b.acquire_snd_cases sh with hsame | hclaim | hrebalance
  · rw [hsame]
  · rw [hclaim]
    rfl
  · rw [hrebalance]
    exact (shortens_rebalance _ sh).published_eq

theorem published_letGo (s : Session κ ν) (n : Nat) :
    (s.letGo n).bucket.published = s.bucket.published :=
  (shortens_release s.bucket n s.shared).published_eq

theorem published_acquiring (absent : Reply κ ν) {f : Nat → Session κ ν → Reply κ ν × Session κ ν}
    (hf : ∀ n t, (f n t).2.bucket.published = t.bucket.published) :
    (s.acquiring absent f).2.bucket.published = s.bucket.published := by
  have hacquire := published_acquire s.bucket s.shared
  unfold acquiring
  split
  · rfl
  · split
    · rfl
    · generalize s.bucket.acquire s.shared = out at hacquire
      obtain ⟨outcome, b, sh⟩ := out
      cases outcome with
      | waits => rfl
      | absent => exact hacquire
      | held n => exact (hf n { s with bucket := b, shared := sh }).trans hacquire

theorem published_unlock (s : Session κ ν) : s.unlock.bucket.published = s.bucket.published := by
  unfold Session.unlock
  split
  · exact (shortens_unlock _ _).published_eq
  · rfl

theorem published_withReader {r : Nat} {f : Argument (Nat → Reply κ ν × Session κ ν)}
    (hf : ∀ g n, f = .ok g → (g n).2.bucket.published = s.bucket.published) :
    (s.withReader r f).2.bucket.published = s.bucket.published := by
  unfold withReader
  split
  · rfl
  · rfl
  · rename_i n g hheld
    exact hf g n rfl

theorem bucket_prepare
    (f : Argument (Bucket κ ν → Shared κ ν → Reply κ ν × Version κ ν × Shared κ ν)) :
    (s.prepare f).2.bucket = s.bucket := by
  unfold prepare
  split <;> rfl

/-- A writer publishes the draft that it has, if it has one. -/
theorem step_publish (s : Session κ ν) : (∃ why, s.step .publish = (.refused why, s)) ∨
    ∃ v, s.step .publish = (.nothing, { s with
      bucket := (s.bucket.publish v s.shared).1
      shared := (s.bucket.publish v s.shared).2
      holder := .writer none }) := by
  dsimp only [step, withDraft]
  split
  · exact .inl ⟨_, rfl⟩
  · exact .inl ⟨_, rfl⟩
  · exact .inl ⟨_, rfl⟩
  · exact .inl ⟨_, rfl⟩
  · rename_i v g _ hg
    obtain rfl := Except.ok.inj hg
    exact .inr ⟨v, rfl⟩

/-- What a bucket has published is what it was told to publish. -/
theorem published_step {c : Command κ ν} (hc : c.setsCounts = false) :
    (s.step c).2.bucket.published = s.bucket.published + if s.publishes c then 1 else 0 := by
  cases c with
  | replace change =>
    refine published_write fun g hg => ?_
    obtain ⟨⟨q, i⟩, _, rfl⟩ := Argument.ok_of_map hg
    exact ⟨supersedes_replace q i, fun _ _ => rfl⟩
  | add i =>
    refine published_write fun g hg => ?_
    obtain ⟨i, _, rfl⟩ := Argument.ok_of_map hg
    exact ⟨supersedes_add i _, fun _ _ => rfl⟩
  | remove q =>
    refine published_write fun g hg => ?_
    obtain ⟨q, _, rfl⟩ := Argument.ok_of_map hg
    exact ⟨supersedes_remove q, fun _ _ => rfl⟩
  | wipe =>
    refine published_write fun g hg => ?_
    obtain rfl := Except.ok.inj hg
    exact ⟨supersedes_wipe _, fun _ _ => rfl⟩
  | publish =>
    unfold publishes
    rcases step_publish s with ⟨why, hrefused⟩ | ⟨v, hdone⟩
    · rw [hrefused]
      rfl
    · rw [hdone]
      exact published_publish s.bucket v s.shared
  | install items =>
    unfold publishes
    dsimp only [step, Command.publishes]
    split
    · rfl
    · cases items <;> rfl
  -- the rest publishes nothing
  | lock | lockBare | adopt | keep | inspect =>
    dsimp only [step]
    split <;> rfl
  | unlock =>
    dsimp only [step]
    split
    · exact published_unlock s
    · rfl
  | draftCopy | draftEmpty | draftWithout q => exact congrArg _ (bucket_prepare _)
  | push i | discard =>
    dsimp only [step, withDraft]
    split
    any_goals rfl
    rename_i hg
    first
      | obtain ⟨i, _, rfl⟩ := Argument.ok_of_map hg; rfl
      | obtain rfl := Except.ok.inj hg; rfl
  | acquire r =>
    dsimp only [step]
    split
    · rfl
    · exact published_acquiring _ fun _ _ => rfl
  | release r =>
    refine published_withReader fun g n hg => ?_
    obtain rfl := Except.ok.inj hg
    exact published_letGo _ n
  | itemsOf r =>
    refine published_withReader fun g n hg => ?_
    obtain rfl := Except.ok.inj hg
    rfl
  | search r q =>
    refine published_withReader fun g n hg => ?_
    obtain ⟨q, _, rfl⟩ := Argument.ok_of_map hg
    rfl
  | get q => exact published_acquiring _ fun n t => published_letGo t n
  | rebalance =>
    dsimp only [step]
    split
    · rfl
    · exact (shortens_rebalance _ _).published_eq
  | getWith word => cases hc
  | shift n => cases hc

/-! ## An acquisition -/

/-- Before the first publication nobody can acquire, and after it everybody can. -/
theorem step_acquire {s : Session κ ν} {k r : Nat} (h : s.Aged k)
    (hfree : s.readers.get? r = none) (hwaits : s.bucket.chain ≠ [] → ¬ s.Waits) :
    (s.bucket.chain = [] ∧ s.step (.acquire r) = (.version none, s)) ∨
    ∃ v head, (s.step (.acquire r)).1 = .version (some v) ∧ s.bucket.newest? = some head ∧
      v.lasting = head.lasting ∧
      (s.step (.acquire r)).2.readers.get? r = some s.bucket.published := by
  have hstep : s.step (.acquire r) = s.acquiring (.version none) fun n s =>
      (.version (s.bucket.version? n), { s with readers := s.readers.set r n }) := by
    dsimp only [step]
    rw [hfree]
  rw [hstep]
  rcases h.acquiring_cases (.version none) (fun n s =>
      (.version (s.bucket.version? n), { s with readers := s.readers.set r n })) with
    ⟨hw, _⟩ | ⟨_, hchain, heq⟩ | ⟨b, sh, _, hne, hshort, _, heq⟩
  · exact absurd hw (hwaits hw.2.1)
  · exact .inl ⟨hchain, heq⟩
  · rw [heq]
    right
    obtain ⟨head, older, hchain⟩ := List.exists_cons_of_ne_nil hne
    obtain ⟨v, rest, hfront⟩ := List.exists_cons_of_ne_nil fun hnil => hne (hshort.vacant hnil)
    have hversion : b.version? s.bucket.published = some v := by
      rw [version?, hshort.published_eq, Nat.sub_self, hfront]
      rfl
    have hlasting : v.lasting = head.lasting := by
      obtain ⟨tail, htail⟩ := hshort.prefix_lasting
      rw [lasting, lasting, hfront, hchain, List.map_cons, List.map_cons, List.cons_append] at htail
      exact (List.cons.inj htail).1
    refine ⟨v, head, congrArg Reply.version hversion, ?_, hlasting, Numbered.get?_set ..⟩
    rw [newest?, hchain]
    rfl

end Session

end Bucket

namespace Workshop

variable {w : Workshop κ ν}

/-! ## Publications of one bucket -/

/-- Whether a command sets counters by hand. -/
def Command.setsCounts : Command κ ν → Bool
  | .bucket _ c => c.setsCounts
  | .pool _ | .dismiss _ => false

/-- The publications of bucket `i` after a command, of which there were `n`. -/
def tally (w : Workshop κ ν) (i n : Nat) : Command κ ν → Nat
  | .bucket j c =>
    match w.benches[j]? with
    | some b => if j = i ∧ (b.session w.shared).publishes c = true then n + 1 else n
    | none => n
  | .dismiss j =>
    match w.benches[j]? with
    | some b => if j = i ∧ b.isFree = true then 0 else n
    | none => n
  | .pool _ => n

/-- The publications of bucket `i` in the course of some commands, after `n` of them. -/
def publications (w : Workshop κ ν) (i n : Nat) : List (Command κ ν) → Nat
  | [] => n
  | c :: cs => (w.step c).publications i (w.tally i n c) cs

theorem tally_other {i n : Nat} {c : Command κ ν} (hbucket : ∀ d, c ≠ .bucket i d)
    (hdismiss : c = .dismiss i → ∀ b, w.benches[i]? = some b → b.isFree = false) :
    w.tally i n c = n := by
  cases c with
  | pool c => rfl
  | bucket j d =>
    have hij : j ≠ i := fun heq => hbucket d (by rw [heq])
    dsimp only [tally]
    split
    · rw [if_neg fun h => hij h.1]
    · rfl
  | dismiss j =>
    dsimp only [tally]
    split
    · rename_i b hb
      refine if_neg fun h => ?_
      obtain ⟨rfl, hfree⟩ := h
      rw [hdismiss rfl b hb] at hfree
      cases hfree
    · rfl

theorem tally_bucket {i n : Nat} {b : Bench κ ν} (hb : w.benches[i]? = some b)
    (d : Bucket.Command κ ν) : w.tally i n (.bucket i d) =
      n + if (b.session w.shared).publishes d then 1 else 0 := by
  dsimp only [tally]
  rw [hb]
  dsimp only
  split <;> simp_all

theorem tally_dismiss {i n : Nat} {b : Bench κ ν} (hb : w.benches[i]? = some b)
    (hfree : b.isFree = true) : w.tally i n (.dismiss i) = 0 := by
  dsimp only [tally]
  rw [hb]
  exact if_pos ⟨rfl, hfree⟩

/-- Buckets that have published so often, with words that name their newest versions. -/
structure Counts (w : Workshop κ ν) (i n : Nat) : Prop where
  published_eq : ∀ b, w.benches[i]? = some b → b.bucket.published = n
  aged : ∀ b, w.benches[i]? = some b → ∃ k, (b.session w.shared).Aged k

theorem aged_session {b : Bench κ ν} {s t : Shared κ ν} {k : Nat} (h : (b.session s).Aged k) :
    (b.session t).Aged k :=
  ⟨h.anchored, h.locked_eq, h.draft, h.count_le⟩

theorem counts_new (capacity k i : Nat) : (new capacity k : Workshop κ ν).Counts i 0 where
  published_eq b hb := by
    rw [List.eq_of_mem_replicate (List.mem_of_getElem? hb)]
  aged b hb := by
    rw [List.eq_of_mem_replicate (List.mem_of_getElem? hb)]
    exact ⟨0, Bucket.Session.aged_new { capacity }⟩

theorem Counts.step {i n : Nat} (h : w.Counts i n) {c : Command κ ν}
    (hc : c.setsCounts = false) : (w.step c).Counts i (w.tally i n c) where
  published_eq b' hb' := by
    rcases step_at hb' with ⟨hb, hother, hkept⟩ | ⟨b, d, hb, rfl, rfl⟩ | ⟨b, hb, rfl, hfree, rfl⟩
    · rw [tally_other hother fun heq a ha => ?_]
      · exact h.published_eq b' hb
      · rw [hb] at ha
        exact Option.some.inj ha ▸ hkept heq
    · rw [tally_bucket hb, ← h.published_eq b hb]
      exact Bucket.Session.published_step hc
    · rw [tally_dismiss hb hfree]
  aged b' hb' := by
    rcases step_at hb' with ⟨hb, _⟩ | ⟨b, d, hb, rfl, rfl⟩ | ⟨_, _, _, _, rfl⟩
    · obtain ⟨k, hk⟩ := h.aged b' hb
      exact ⟨k, aged_session hk⟩
    · obtain ⟨k, hk⟩ := h.aged b hb
      exact ⟨_, aged_session (Bucket.Session.aged_step hk hc)⟩
    · have hnew : (({} : Bench κ ν).session { pool := {} }).Aged 0 := Bucket.Session.aged_new {}
      exact ⟨0, aged_session hnew⟩

theorem Counts.run {i n : Nat} (h : w.Counts i n) {cs : List (Command κ ν)}
    (hcs : ∀ c ∈ cs, c.setsCounts = false) : (w.run cs).Counts i (w.publications i n cs) := by
  induction cs generalizing w n with
  | nil => exact h
  | cons c cs ih =>
    exact ih (h.step (hcs c List.mem_cons_self)) fun c hc => hcs c (List.mem_cons_of_mem _ hc)

/-! ## What identifiers tell -/

/-- The version with a stamp. -/
def find? (w : Workshop κ ν) (x : Nat) : Option (Version κ ν) := w.versions.find? (·.stamp == x)

theorem find?_stamp (h : w.Sound) {v : Version κ ν} (hv : v ∈ w.versions) :
    w.find? v.stamp = some v := by
  unfold find?
  cases hfind : w.versions.find? (·.stamp == v.stamp) with
  | none =>
    have hnone := List.find?_eq_none.mp hfind v hv
    simp at hnone
  | some u =>
    have hstamp : u.stamp = v.stamp := by simpa using List.find?_some hfind
    rw [eq_of_stamp h (List.mem_of_find?_eq_some hfind) hv hstamp]

/-- What the identifiers of a bucket tell after `n` publications. -/
structure Identifies (w : Workshop κ ν) (b : Bench κ ν) (n : Nat) : Prop where
  /-- Before the first there is nothing. -/
  vacant : n = 0 → b.bucket.chain = [] ∧ b.bucket.word = 0
  /-- The newest version and the reference word have the identifier of the last. -/
  newest : 1 ≤ n → ∃ head, b.bucket.newest? = some head ∧ head.id.toNat = publicationId n ∧
    b.bucket.reference.id.toNat = publicationId n ∧ head.id ≠ 0
  /-- The links lead through the publications before it, one by one. -/
  walk : ∀ head, b.bucket.newest? = some head → ∀ k v, ancestor w.find? head k = some v →
    k < n ∧ b.bucket.version? (n - k) = some v ∧ v.id.toNat = publicationId (n - k)
  /-- They leave out none that is in the chain, and end with it. -/
  gapless : ∀ head, b.bucket.newest? = some head → ∀ k,
    (ancestor w.find? head k).isSome ↔ k < b.bucket.chain.length
  /-- Whatever is done next, a publication that stays is the allocation that it was. -/
  lasting : ∀ c, ∀ m ≤ n, ∀ v,
    ((b.session w.shared).step c).2.bucket.version? m = some v →
    ∃ u, b.bucket.version? m = some u ∧ u.stamp = v.stamp ∧ u.id = v.id
  /-- In a chain of a length that there are identifiers for, all are different. -/
  distinct : b.bucket.chain.length < 2 ^ 32 → b.bucket.ids.Nodup
  /-- Who acquires without having to wait gets nothing before the first publication. -/
  absent : n = 0 → ∀ r, b.readers.get? r = none →
    (b.session w.shared).step (.acquire r) = (.version none, b.session w.shared)
  /-- Afterwards that is the version of the last. -/
  acquired : 1 ≤ n → ∀ r, b.readers.get? r = none → ¬ (b.session w.shared).Waits →
    ∃ v head, ((b.session w.shared).step (.acquire r)).1 = .version (some v) ∧
      b.bucket.newest? = some head ∧ v.lasting = head.lasting ∧
      ((b.session w.shared).step (.acquire r)).2.readers.get? r = some n

theorem nodup_ids {x : Site κ ν} (h : x.Titled) (hshort : x.bucket.chain.length < 2 ^ 32) :
    x.bucket.ids.Nodup := by
  have hlen : x.bucket.ids.length = x.bucket.chain.length := List.length_map ..
  have hle := h.length_le
  refine List.pairwise_iff_getElem.mpr fun i j hi hj hij heq => ?_
  have hid := h.ids i _ (List.getElem?_eq_getElem hi)
  have hid' := h.ids j _ (List.getElem?_eq_getElem hj)
  rw [heq] at hid
  have hsame := publicationId_inj (m := x.bucket.published - j) (n := x.bucket.published - i)
    (by omega) (by omega) (by omega) (hid'.symm.trans hid)
  omega

/-- A version of the chain has the identifier of its publication. -/
theorem toNat_id {x : Site κ ν} (h : x.Titled) {k : Nat} {v : Version κ ν}
    (hv : x.bucket.chain[k]? = some v) : v.id.toNat = publicationId (x.bucket.published - k) := by
  refine h.ids k v.id ?_
  unfold Bucket.ids
  rw [List.getElem?_map, hv]
  rfl

theorem Sound.ancestor_eq (h : w.Sound) {b : Bench κ ν} (hb : b ∈ w.benches) {head : Version κ ν}
    (hhead : b.bucket.newest? = some head) (k : Nat) :
    ancestor w.find? head k = b.bucket.chain[k]? := by
  obtain ⟨older, hchain⟩ := List.head?_eq_some_iff.mp hhead
  have hlinked := (h.woven b hb).chain
  change Linked b.bucket.chain at hlinked
  rw [hchain] at hlinked ⊢
  refine hlinked.ancestor_eq (fun v hv => find?_stamp h (chain_subset hb ?_)) k
  rwa [hchain]

theorem Sound.identifies (h : w.Sound) {i n : Nat} (hcounts : w.Counts i n) {b : Bench κ ν}
    (hb : w.benches[i]? = some b) : w.Identifies b n := by
  have hmem := List.mem_of_getElem? hb
  have htitled := h.titled b hmem
  have hpub : b.bucket.published = n := hcounts.published_eq b hb
  obtain ⟨k, haged⟩ := hcounts.aged b hb
  have hanch : b.bucket.Anchored := haged.anchored
  have hvacant (hnone : n = 0) : b.bucket.chain = [] := by
    have hle : b.bucket.chain.length ≤ b.bucket.published := htitled.length_le
    exact List.length_eq_zero_iff.mp (by omega)
  have hsome (hn : 1 ≤ n) : b.bucket.chain ≠ [] := fun hnil => by
    have hnone : b.bucket.published = 0 := htitled.vacant hnil
    omega
  refine ⟨fun hnone => ⟨hvacant hnone, ?_⟩, fun hn => ?_, fun head hhead m v hv => ?_,
    fun head hhead m => ?_, fun c m hm v hv => ?_, nodup_ids htitled, fun hnone r hfree => ?_,
    fun hn r hfree hwaits => ?_⟩
  · cases hanch with
    | vacant _ hword => exact hword
    | named head older count hchain => rw [hvacant hnone] at hchain; cases hchain
  · cases hanch with
    | vacant hchain => exact absurd hchain (hsome hn)
    | named head older count hchain hword hid =>
      have hfront : head.id.toNat = publicationId n := by
        have hzero := toNat_id htitled (k := 0) (v := head) (by
          show b.bucket.chain[0]? = some head
          rw [hchain]
          rfl)
        rwa [Nat.sub_zero, show (b.site w.pool).bucket.published = n from hpub] at hzero
      refine ⟨head, ?_, hfront, ?_, hid⟩
      · rw [Bucket.newest?, hchain]
        rfl
      · rwa [Bucket.reference, hword, Reference.ofWord_word]
  · rw [h.ancestor_eq hmem hhead] at hv
    have hlt := (List.getElem?_eq_some_iff.mp hv).1
    have hle : b.bucket.chain.length ≤ b.bucket.published := htitled.length_le
    have hid := toNat_id htitled hv
    rw [show (b.site w.pool).bucket.published = n from hpub] at hid
    refine ⟨by omega, ?_, hid⟩
    rw [Bucket.version?, hpub, show n - (n - m) = m by omega, hv]
  · rw [h.ancestor_eq hmem hhead, isSome_getElem?]
  · exact (works_bench b w.shared c).lasts.version (hm.trans_eq hpub.symm) hv
  · have hnil : (b.session w.shared).bucket.chain = [] := hvacant hnone
    rcases Bucket.Session.step_acquire haged hfree fun hne => absurd hnil hne with
      ⟨_, heq⟩ | ⟨v, head, _, hhead, _⟩
    · exact heq
    · rw [Bucket.newest?, hnil] at hhead
      cases hhead
  · rcases Bucket.Session.step_acquire haged hfree fun _ => hwaits with ⟨hnil, _⟩ | hacq
    · exact absurd hnil (hsome hn)
    · rwa [show (b.session w.shared).bucket.published = n from hpub] at hacq

/--
**Identifiers count publications.**

After any commands on any number of buckets with one pool, in each bucket the newest version and the
reference word tell the number of its publications, which go around past the largest identifier, and
the links lead from one publication to the one before. An acquisition that does not have to wait
gives the version of the last publication, if there has been one.
-/
theorem identifiers_count_publications (capacity k : Nat) {cs : List (Command κ ν)}
    (hcs : ∀ c ∈ cs, c.setsCounts = false) {i : Nat} {b : Bench κ ν}
    (hb : ((new capacity k).run cs).benches[i]? = some b) :
    ((new capacity k).run cs).Identifies b ((new capacity k).publications i 0 cs) :=
  ((sound_new capacity k).run cs).identifies ((counts_new capacity k i).run hcs) hb

theorem identifiers_count_publications_discarded :
    let cs : List (Command Nat Nat) :=
      [.bucket 0 (.install (.ok [])), .bucket 0 (.acquire 7),
        .bucket 0 (.remove (.ok ⟨5, (· == 5)⟩)), .bucket 0 .lock, .bucket 0 .draftEmpty,
        .bucket 0 .discard, .bucket 0 .draftCopy, .bucket 0 .publish, .bucket 0 .draftEmpty,
        .bucket 0 .unlock, .bucket 0 .publish]
    (new 2 1 : Workshop Nat Nat).publications 0 0 cs = 3 ∧
      ∃ b, ((new 2 1).run cs).benches[0]? = some b ∧ ((new 2 1).run cs).Identifies b 3 := by
  refine ⟨by decide, _, rfl, ?_⟩
  exact identifiers_count_publications 2 1 (i := 0) (by decide) rfl

end Workshop

end VersionedMap
