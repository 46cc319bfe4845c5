import VersionedMap.Proofs.Stamps

/-!
# How versions are linked and numbered

In a chain each version names the one that it supersedes, the oldest names none, and a draft names
the version that it is to supersede. So whoever follows the links from the newest version walks the
chain, and the links lead nowhere else.

The identifiers count the publications of a bucket, from `1` to the largest there is and then from
`1` again. A draft has the identifier of the publication that it is to be.
-/

namespace VersionedMap

variable {κ ν : Type}

/-- Each version names the one after it, and the last names none. -/
def Linked : List (Version κ ν) → Prop
  | [] => True
  | v :: older => v.prev = older.head?.map (·.stamp) ∧ Linked older

/-- The identifier of the `n`th publication of a bucket. -/
def publicationId (n : Nat) : Nat := (n - 1) % (2 ^ 32 - 1) + 1

theorem toNat_nextId {id : UInt32} {n : Nat} (hn : 1 ≤ n) (h : id.toNat = publicationId n) :
    (nextId id).toNat = publicationId (n + 1) := by
  have hlt := id.toNat_lt
  have hone : (1 : UInt32).toNat = 1 := rfl
  have hsucc : (id + 1).toNat = (id.toNat + 1) % 2 ^ 32 := by rw [UInt32.toNat_add, hone]
  unfold publicationId at h ⊢
  unfold nextId
  split
  -- the largest identifier: the next one is the first again
  · rename_i hzero
    have hwrap : (id + 1).toNat = 0 := congrArg UInt32.toNat hzero
    rw [hone]
    omega
  · rename_i hzero
    have hpos : (id + 1).toNat ≠ 0 := fun h0 => hzero (UInt32.toNat_inj.mp h0)
    omega

/-- Publications that are not too far apart have different identifiers. -/
theorem publicationId_inj {m n : Nat} (hm : 1 ≤ m) (hmn : m ≤ n) (hnear : n - m < 2 ^ 32 - 1)
    (h : publicationId m = publicationId n) : m = n := by
  unfold publicationId at h
  omega

/-! ## Links -/

theorem linked_map_link (l : List (Version κ ν)) : Linked (l.map Version.link) ↔ Linked l := by
  induction l with
  | nil => exact Iff.rfl
  | cons v older ih =>
    have hhead : (older.map Version.link).head?.map (·.stamp) = older.head?.map (·.stamp) := by
      cases older <;> rfl
    rw [List.map_cons, Linked, hhead, ih]
    rfl

/-- A chain that is cut short and ended there is linked as it was. -/
theorem linked_endChain {l m : List (Version κ ν)} (h : Linked (l ++ m)) :
    Linked (Bucket.endChain l) := by
  fun_induction Bucket.endChain l with
  | case1 => trivial
  | case2 v => exact ⟨rfl, trivial⟩
  | case3 v w older ih =>
    have hhead : (Bucket.endChain (w :: older)).head?.map (·.stamp) = some w.stamp := by
      cases older <;> rfl
    exact ⟨h.1.trans hhead.symm, ih h.2⟩

theorem Linked.prev_eq {l : List (Version κ ν)} (h : Linked l) {k : Nat} {v : Version κ ν}
    (hv : l[k]? = some v) : v.prev = l[k + 1]?.map (·.stamp) := by
  induction l generalizing k with
  | nil => simp at hv
  | cons w older ih =>
    cases k with
    | zero =>
      obtain rfl : w = v := Option.some.inj hv
      rw [List.getElem?_cons_succ, ← List.head?_eq_getElem?]
      exact h.1
    | succ k =>
      rw [List.getElem?_cons_succ] at hv ⊢
      exact ih h.2 hv

/-- Links lead from a chain to nothing outside it. -/
theorem Linked.prev_mem {l : List (Version κ ν)} (h : Linked l) {v : Version κ ν} (hv : v ∈ l)
    {x : Nat} (hx : v.prev = some x) : x ∈ l.map (·.stamp) := by
  obtain ⟨k, hk⟩ := List.mem_iff_getElem?.mp hv
  rw [h.prev_eq hk] at hx
  obtain ⟨w, hw, rfl⟩ := Option.map_eq_some_iff.mp hx
  exact List.mem_map.mpr ⟨w, List.mem_of_getElem? hw, rfl⟩

/-- From `v`, `k` links on; `find` says which version has a stamp. -/
def ancestor (find : Nat → Option (Version κ ν)) (v : Version κ ν) : Nat → Option (Version κ ν)
  | 0 => some v
  | k + 1 => (ancestor find v k).bind fun w => w.prev.bind find

/-- Following the links from the newest version meets the chain, and ends with it. -/
theorem Linked.ancestor_eq {v : Version κ ν} {older : List (Version κ ν)}
    (h : Linked (v :: older)) {find : Nat → Option (Version κ ν)}
    (hfind : ∀ w ∈ v :: older, find w.stamp = some w) (k : Nat) :
    ancestor find v k = (v :: older)[k]? := by
  induction k with
  | zero => rfl
  | succ k ih =>
    rw [ancestor, ih]
    cases hk : (v :: older)[k]? with
    | none =>
      have hout := List.getElem?_eq_none_iff.mp hk
      exact (List.getElem?_eq_none (Nat.le_succ_of_le hout)).symm
    | some w =>
      rw [Option.bind_some, h.prev_eq hk]
      cases hnext : (v :: older)[k + 1]? with
      | none => rfl
      | some u => exact hfind u (List.mem_of_getElem? hnext)

namespace Bucket

/-- The identifiers along the chain, newest first. -/
def ids (b : Bucket κ ν) : List UInt32 := b.chain.map (·.id)

theorem map_id_links (b : Bucket κ ν) : b.links.map (·.id) = b.ids := by
  unfold links
  rw [List.map_map]
  rfl

theorem newest_link (b : Bucket κ ν) : b.newest?.map Version.link = b.links.head? := by
  unfold newest? links
  cases b.chain <;> rfl

theorem newest_stamp (b : Bucket κ ν) :
    b.newest?.map (·.stamp) = b.links.head?.map (·.stamp) := by
  rw [← newest_link, Option.map_map]
  rfl

theorem linked_links (b : Bucket κ ν) : Linked b.links ↔ Linked b.chain := linked_map_link b.chain

theorem length_links (b : Bucket κ ν) : b.links.length = b.chain.length := List.length_map ..

theorem links_eq_nil (b : Bucket κ ν) : b.links = [] ↔ b.chain = [] := List.map_eq_nil_iff

end Bucket

namespace Site

/-! ## Links at a site -/

variable {x y z : Site κ ν}

/-- The chain is linked, and a draft is linked to its front. -/
structure Woven (x : Site κ ν) : Prop where
  chain : Linked x.bucket.chain
  draft : ∀ v, x.draft = some v → v.prev = x.bucket.newest?.map (·.stamp)

theorem woven_new {b : Bucket κ ν} (hb : b.chain = []) (p : Pool κ ν) : Woven ⟨b, p, none⟩ where
  chain := by rw [hb]; trivial
  draft _ hv := by cases hv

theorem Opens.woven {ends : Bool} (h : Opens ends x y) (hpool : x.pool.IsClean) (hx : x.Woven) :
    y.Woven := by
  cases h with
  | idle => exact hx
  | @take b p v hlink =>
    refine ⟨hx.chain, fun w hw => ?_⟩
    obtain rfl : v = w := Option.some.inj hw
    rw [Version.prev_of_link hlink]
    unfold Bucket.successor
    cases hb : b.newest? with
    -- the first draft of a bucket supersedes nothing, for what is idle is linked to nothing
    | none => exact (congrArg (·.prev) hpool.reset_take).symm
    | some head => rfl
  | drop => exact ⟨hx.chain, fun _ hw => by cases hw⟩

theorem Move.woven (h : Move x y) (hx : x.Woven) : y.Woven := by
  cases h with
  | @mark b c p d hlinks _ =>
    refine ⟨?_, fun v hv => ?_⟩
    · show Linked c.chain
      rw [← Bucket.linked_links, hlinks, Bucket.linked_links]
      exact hx.chain
    · show v.prev = c.newest?.map (·.stamp)
      rw [Bucket.newest_stamp, hlinks, ← Bucket.newest_stamp]
      exact hx.draft v hv
  | @retire b c p d head older hchain hkept _ =>
    have hlinked : Linked ((head :: Bucket.kept older) ++ Bucket.retired older) := by
      rw [List.cons_append, Bucket.kept_append_retired, ← hchain]
      exact hx.chain
    have hnewest : c.newest?.map (·.stamp) = b.newest?.map (·.stamp) := by
      unfold Bucket.newest?
      rw [hkept, hchain, ← List.head?_map, Bucket.map_endChain fun _ => rfl]
      rfl
    refine ⟨?_, fun v hv => ?_⟩
    · show Linked c.chain
      rw [hkept]
      exact linked_endChain hlinked
    · exact (hx.draft v hv).trans hnewest.symm
  | @write b p v w hlink =>
    refine ⟨hx.chain, fun u hu => ?_⟩
    obtain rfl : w = u := Option.some.inj hu
    rw [Version.prev_of_link hlink]
    exact hx.draft v rfl
  | @publish b c p v hlinks _ =>
    refine ⟨?_, fun u hu => by cases hu⟩
    show Linked c.chain
    rw [← Bucket.linked_links, hlinks]
    exact ⟨(hx.draft v rfl).trans b.newest_stamp, b.linked_links.mpr hx.chain⟩
  | put => exact ⟨hx.chain, fun _ hv => by cases hv⟩

theorem Works.woven {ends : Bool} (h : Works ends x z) (hpool : x.pool.IsClean) (hx : x.Woven) :
    z.Woven := by
  obtain ⟨y, hopens, hmoves⟩ := h
  exact hmoves.keep Move.woven (hopens.woven hpool hx)

/-! ## Identifiers at a site -/

/-- The identifiers along the chain, and that of the draft, are those of their publications. -/
structure Titled (x : Site κ ν) : Prop where
  ids : ∀ i id, x.bucket.ids[i]? = some id → id.toNat = publicationId (x.bucket.published - i)
  length_le : x.bucket.chain.length ≤ x.bucket.published
  vacant : x.bucket.chain = [] → x.bucket.published = 0
  draft : ∀ v, x.draft = some v → v.id.toNat = publicationId (x.bucket.published + 1)

theorem titled_new (p : Pool κ ν) : Titled (⟨{}, p, none⟩ : Site κ ν) where
  ids i id hid := by simp [Bucket.ids] at hid
  length_le := Nat.le_refl 0
  vacant _ := rfl
  draft _ hv := by cases hv

/-- Versions that go from the end of the chain leave the others their identifiers. -/
theorem Titled.shorten (hx : x.Titled) {c : Bucket κ ν} (hids : c.ids <+: x.bucket.ids)
    (hvacant : c.chain = [] → x.bucket.chain = []) (hpub : c.published = x.bucket.published)
    (p : Pool κ ν) : Titled ⟨c, p, x.draft⟩ where
  ids i id hid := by
    rw [hpub]
    obtain ⟨rest, hrest⟩ := hids
    refine hx.ids i id ?_
    rw [← hrest, List.getElem?_append_left (List.getElem?_eq_some_iff.mp hid).1, hid]
  length_le := by
    have hle := hids.length_le
    simp only [Bucket.ids, List.length_map] at hle
    rw [hpub]
    exact hle.trans hx.length_le
  vacant hnil := hpub.trans (hx.vacant (hvacant hnil))
  draft v hv := by
    rw [hpub]
    exact hx.draft v hv

theorem Opens.titled {ends : Bool} (h : Opens ends x y) (hx : x.Titled) : y.Titled := by
  cases h with
  | idle => exact hx
  | @take b p v hlink =>
    refine ⟨hx.ids, hx.length_le, hx.vacant, fun w hw => ?_⟩
    obtain rfl : v = w := Option.some.inj hw
    rw [Version.id_of_link hlink]
    unfold Bucket.successor
    cases hb : b.newest? with
    | none =>
      have hnone : b.published = 0 := hx.vacant (List.head?_eq_none_iff.mp hb)
      show (1 : UInt32).toNat = publicationId (b.published + 1)
      rw [hnone]
      rfl
    | some head =>
      have hfront : b.ids[0]? = some head.id := by
        unfold Bucket.ids
        rw [List.getElem?_map, ← List.head?_eq_getElem?]
        exact congrArg (Option.map (·.id)) hb
      have hpos : 1 ≤ b.published := by
        have hlen := (List.getElem?_eq_some_iff.mp hfront).1
        rw [Bucket.ids, List.length_map] at hlen
        exact hlen.trans_le hx.length_le
      exact toNat_nextId hpos (hx.ids 0 head.id hfront)
  | drop => exact ⟨hx.ids, hx.length_le, hx.vacant, fun _ hw => by cases hw⟩

theorem Move.titled (h : Move x y) (hx : x.Titled) : y.Titled := by
  cases h with
  | @mark b c p d hlinks hpub =>
    refine hx.shorten ?_ (fun hnil => ?_) hpub p
    · have hids : c.ids = b.ids := by rw [← Bucket.map_id_links, hlinks, Bucket.map_id_links]
      exact hids ▸ List.prefix_refl _
    · rwa [← Bucket.links_eq_nil, ← hlinks, Bucket.links_eq_nil]
  | @retire b c p d head older hchain hkept hpub =>
    refine hx.shorten ?_ (fun hnil => ?_) hpub _
    · unfold Bucket.ids
      rw [hkept, Bucket.map_endChain fun _ => rfl, hchain]
      exact ((List.prefix_cons_inj head).mpr ⟨_, Bucket.kept_append_retired older⟩).map _
    · have hlen := congrArg List.length (hkept.symm.trans hnil)
      rw [Bucket.length_endChain] at hlen
      exact absurd hlen (Nat.succ_ne_zero _)
  | @write b p v w hlink =>
    refine ⟨hx.ids, hx.length_le, hx.vacant, fun u hu => ?_⟩
    obtain rfl : w = u := Option.some.inj hu
    rw [Version.id_of_link hlink]
    exact hx.draft v rfl
  | @publish b c p v hlinks hpub =>
    have hids : c.ids = v.id :: b.ids := by
      rw [← Bucket.map_id_links, hlinks, List.map_cons, Bucket.map_id_links]
      rfl
    have hlen : c.chain.length = b.chain.length + 1 := by
      rw [← Bucket.length_links, hlinks, List.length_cons, Bucket.length_links]
    refine ⟨fun i id hid => ?_, ?_, fun hnil => ?_, fun u hu => by cases hu⟩
    · show id.toNat = publicationId (c.published - i)
      rw [hpub]
      change c.ids[i]? = some id at hid
      rw [hids] at hid
      cases i with
      | zero =>
        obtain rfl : v.id = id := Option.some.inj hid
        exact hx.draft v rfl
      | succ i =>
        rw [show b.published + 1 - (i + 1) = b.published - i by omega]
        exact hx.ids i id hid
    · show c.chain.length ≤ c.published
      rw [hlen, hpub]
      exact Nat.succ_le_succ hx.length_le
    · have hnone : c.chain.length = 0 := congrArg List.length hnil
      omega
  | put => exact ⟨hx.ids, hx.length_le, hx.vacant, fun _ hv => by cases hv⟩

theorem Works.titled {ends : Bool} (h : Works ends x z) (hx : x.Titled) : z.Titled :=
  h.keep Opens.titled Move.titled hx

/-! ## Publications that stay -/

/-- A publication that is still there is the allocation that it was, under the same identifier. -/
structure Lasts (x y : Site κ ν) : Prop where
  published_le : x.bucket.published ≤ y.bucket.published
  version : ∀ {n}, n ≤ x.bucket.published → ∀ {v}, y.bucket.version? n = some v →
    ∃ u, x.bucket.version? n = some u ∧ u.stamp = v.stamp ∧ u.id = v.id

theorem Lasts.refl (x : Site κ ν) : x.Lasts x := ⟨Nat.le_refl _, fun _ _ hv => ⟨_, hv, rfl, rfl⟩⟩

theorem Lasts.trans (h : x.Lasts y) (h' : y.Lasts z) : x.Lasts z where
  published_le := h.published_le.trans h'.published_le
  version hn _ hv := by
    obtain ⟨u, hu, hstamp, hid⟩ := h'.version (hn.trans h.published_le) hv
    obtain ⟨t, ht, hstamp', hid'⟩ := h.version hn hu
    exact ⟨t, ht, hstamp'.trans hstamp, hid'.trans hid⟩

theorem lasts_of_bucket_eq (h : y.bucket = x.bucket) : x.Lasts y where
  published_le := by rw [h]
  version _ _ hv := ⟨_, h ▸ hv, rfl, rfl⟩

theorem Opens.lasts {ends : Bool} (h : Opens ends x y) : x.Lasts y := by
  cases h <;> exact lasts_of_bucket_eq rfl

/-- A version that is found in one chain where it is in the other. -/
theorem exists_of_link {b c : Bucket κ ν} {i j : Nat} (h : ∀ u, c.links[j]? = some u →
    (b.links.map fun v => (v.stamp, v.id))[i]? = some (u.stamp, u.id)) {v : Version κ ν}
    (hv : c.chain[j]? = some v) : ∃ u, b.chain[i]? = some u ∧ u.stamp = v.stamp ∧ u.id = v.id := by
  have hlink : c.links[j]? = some v.link := by
    unfold Bucket.links
    rw [List.getElem?_map, hv]
    rfl
  have hu := h _ hlink
  unfold Bucket.links at hu
  rw [List.map_map, List.getElem?_map] at hu
  obtain ⟨u, hu, heq⟩ := Option.map_eq_some_iff.mp hu
  exact ⟨u, hu, congrArg Prod.fst heq, congrArg Prod.snd heq⟩

theorem Move.lasts (h : Move x y) : x.Lasts y := by
  cases h with
  | @mark b c p d hlinks hpub =>
    refine ⟨hpub.ge, fun {n} _ {v} hv => exists_of_link (c := c) (fun u hu => ?_) hv⟩
    dsimp only at hu ⊢
    rw [hpub, hlinks] at hu
    rw [List.getElem?_map, hu]
    rfl
  | @retire b c p d head older hchain hkept hpub =>
    refine ⟨hpub.ge, fun {n} _ {v} hv => ?_⟩
    -- what is left at a depth was there before, but for the link of the last
    have hmap : (c.chain.map fun v => (v.stamp, v.id))[b.published - n]?
        = some (v.stamp, v.id) := by
      rw [List.getElem?_map, ← hpub]
      exact congrArg (Option.map _) hv
    rw [hkept, Bucket.map_endChain (fun _ => rfl), List.getElem?_map] at hmap
    obtain ⟨u, hu, heq⟩ := Option.map_eq_some_iff.mp hmap
    exact ⟨u, Bucket.getElem?_chain_kept hchain hu, congrArg Prod.fst heq, congrArg Prod.snd heq⟩
  | write | put => exact lasts_of_bucket_eq rfl
  | @publish b c p v hlinks hpub =>
    refine ⟨Nat.le_of_lt (Nat.lt_of_lt_of_eq (Nat.lt_succ_self _) hpub.symm),
      fun {n} hn {w} hw => exists_of_link (c := c) (fun u hu => ?_) hw⟩
    dsimp only at hn hu ⊢
    rw [hpub, hlinks, show b.published + 1 - n = b.published - n + 1 by omega,
      List.getElem?_cons_succ] at hu
    rw [List.getElem?_map, hu]
    rfl

theorem Works.lasts {ends : Bool} (h : Works ends x z) : x.Lasts z := by
  obtain ⟨y, hopens, hmoves⟩ := h
  exact hmoves.keep (P := x.Lasts) (fun hmove hx => hx.trans hmove.lasts) hopens.lasts

end Site

end VersionedMap
