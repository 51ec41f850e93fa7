import Fynaos.Lib.NextList
import Fynaos.Pool.Ops

/-!
# The heap as a list of pages

`Pools h ps` says that the heap `h` consists of the pages `ps`: they are linked from `pools` to `tail`,
each holds its `struct pool` and behind it a chain of blocks that ends with the page, and the frames
still to come are other pages of the direct map.

`Grew` is what every step of the heap does to it: the used blocks stay, and all stores fall in the
pages, outside the data of the blocks that were used before.
-/

namespace Fynaos

open NextList

/-! ### Pages -/

/-- A page of the heap and the blocks in it. -/
structure PoolPage where
  base : ℕ
  blocks : List (ℕ × Bool)
  direct : Direct base 4096
  aligned : 4096 ∣ base

def PoolPage.bytes (p : PoolPage) : Set ℕ := Set.Ico p.base (p.base + 4096)

def PoolPage.used (p : PoolPage) : List (ℕ × ℕ) := usedBlocks (p.base + 24) p.blocks

/-- The memory holds the page as its ghost describes it. -/
structure PoolPage.Laid (p : PoolPage) (r : Ram) : Prop where
  len : r.word p.base = 4096
  usage : r.word (p.base + 8) = 0
  nonempty : p.blocks ≠ []
  chain : Chain r (p.base + 24) 0 p.blocks (p.base + 4096)

/-- `pool->next` -/
def poolNext (r : Ram) (pool : ℕ) : Option ℕ :=
  if r.word (pool + 16) = 0 then none else some (r.word (pool + 16))

section page
variable {p q : PoolPage} {r r' : Ram} {x : ℕ}

theorem PoolPage.base_pos (p : PoolPage) : 0 < p.base := by
  have h := p.direct.1
  unfold kernelDirectBase at h
  omega

theorem PoolPage.link (p : PoolPage) : Direct (p.base + 16) 8 := p.direct.sub (by omega) (by omega)

theorem PoolPage.disjoint (h : p.base ≠ q.base) : Disjoint p.bytes q.bytes := by
  obtain ⟨i, hi⟩ := p.aligned
  obtain ⟨j, hj⟩ := q.aligned
  rw [Set.disjoint_left]
  rintro x ⟨h1, h2⟩ ⟨h3, h4⟩
  omega

theorem PoolPage.Laid.payload_subset (h : p.Laid r) {b : ℕ × ℕ} (hb : b ∈ p.used) :
    payload b ⊆ Set.Ico (p.base + 24) (p.base + 4096) := by
  have hstop := h.chain.stop_eq
  obtain ⟨h1, h2⟩ := usedBlocks_bounds hb
  intro x hx
  have h3 : b.1 + 24 ≤ x := hx.1
  have h4 : x < b.1 + b.2 := hx.2
  exact ⟨by omega, by omega⟩

theorem PoolPage.Laid.congr (h : p.Laid r)
    (heq : ∀ x ∈ p.bytes, x < p.base + 16 ∨ p.base + 24 ≤ x → r'.bytes x = r.bytes x) :
    p.Laid r' := by
  obtain ⟨hlen, husage, hne, hchain⟩ := h
  refine ⟨?_, ?_, hne, hchain.congr fun x h1 h2 => heq x ⟨by omega, h2⟩ (Or.inr h1)⟩
  · rw [← hlen]
    exact Ram.word_congr fun x h1 h2 => heq x ⟨h1, by omega⟩ (Or.inl (by omega))
  · rw [← husage]
    exact Ram.word_congr fun x h1 h2 => heq x ⟨by omega, by omega⟩ (Or.inl (by omega))

theorem poolNext_congr (h : ∀ y, x + 16 ≤ y → y < x + 24 → r'.bytes y = r.bytes y) :
    poolNext r' x = poolNext r x := by
  have hword : r'.word (x + 16) = r.word (x + 16) := Ram.word_congr fun y h1 h2 => h y h1 h2
  unfold poolNext
  rw [hword]

end page

/-! ### The heap -/

theorem mem_middle {α : Type*} {x y : α} {pre post : List α} :
    x ∈ pre ++ y :: post ↔ x = y ∨ x ∈ pre ++ post :=
  List.perm_middle.mem_iff.trans List.mem_cons

/-- The frames to come are different pages of the direct map, none of them in the heap. -/
structure FreshFrames (frames : List ℕ) (ps : List PoolPage) : Prop where
  nodup : frames.Nodup
  page : ∀ f ∈ frames, 4096 ∣ f ∧ f + 4096 ≤ 2 ^ 47
  fresh : ∀ f ∈ frames, ∀ p ∈ ps, p.base ≠ physToVirt f

/-- The heap consists of the pages `ps`. -/
structure Pools (h : Heap) (ps : List PoolPage) : Prop where
  links : IsList (poolNext h.ram) (some h.pools) (ps.map PoolPage.base)
  tail : ∃ pre p, ps = pre ++ [p] ∧ p.base = h.tail
  laid : ∀ p ∈ ps, p.Laid h.ram
  frames : FreshFrames h.frames ps

def heapBytes (ps : List PoolPage) : Set ℕ := {x | ∃ p ∈ ps, x ∈ p.bytes}

def heapUsed (ps : List PoolPage) : List (ℕ × ℕ) := ps.flatMap PoolPage.used

def heapData (ps : List PoolPage) : Set ℕ := {x | ∃ b ∈ heapUsed ps, x ∈ payload b}

/-- What a step from the pages `ps` to the pages `ps'` may do. -/
structure Grew (h : Heap) (ps : List PoolPage) (h' : Heap) (ps' : List PoolPage) : Prop where
  pools : Pools h' ps'
  bytes : heapBytes ps ⊆ heapBytes ps'
  used : heapUsed ps ⊆ heapUsed ps'
  wrote : Wrote h.ram h'.ram (heapBytes ps' \ heapData ps)

section heap
variable {h h' h'' : Heap} {ps ps' ps'' pre post : List PoolPage} {p : PoolPage} {f : ℕ}

theorem heapData_mono (hused : heapUsed ps ⊆ heapUsed ps') : heapData ps ⊆ heapData ps' :=
  fun _ ⟨b, hb, hx⟩ => ⟨b, hused hb, hx⟩

theorem Grew.refl (hp : Pools h ps) : Grew h ps h ps :=
  ⟨hp, subset_rfl, List.Subset.refl _, Wrote.refl _ _⟩

theorem Grew.trans (h₁ : Grew h ps h' ps') (h₂ : Grew h' ps' h'' ps'') : Grew h ps h'' ps'' := by
  refine ⟨h₂.pools, Set.Subset.trans h₁.bytes h₂.bytes, List.Subset.trans h₁.used h₂.used, ?_⟩
  refine (h₁.wrote.mono ?_).trans (h₂.wrote.mono ?_)
  · exact Set.sdiff_subset_sdiff_left h₂.bytes
  · exact Set.sdiff_subset_sdiff_right (heapData_mono h₁.used)

theorem Grew.interrupts (h₁ : Grew h ps h' ps') (b : Bool) :
    Grew h ps { h' with interrupts := b } ps' :=
  ⟨⟨h₁.pools.links, h₁.pools.tail, h₁.pools.laid, h₁.pools.frames⟩, h₁.bytes, h₁.used, h₁.wrote⟩

theorem Pools.bases_nodup (hp : Pools h ps) : (ps.map PoolPage.base).Nodup := hp.links.nodup

theorem Pools.head (hp : Pools h ps) : ∃ p post, ps = p :: post ∧ h.pools = p.base := by
  obtain ⟨pre, q, rfl, -⟩ := hp.tail
  have hlinks := hp.links
  cases pre with
  | nil => exact ⟨q, [], rfl, Option.some.inj hlinks.1⟩
  | cons p pre => exact ⟨p, pre ++ [q], rfl, Option.some.inj hlinks.1⟩

theorem Pools.interrupts (hp : Pools h ps) (b : Bool) : Pools { h with interrupts := b } ps :=
  ⟨hp.links, hp.tail, hp.laid, hp.frames⟩

theorem Pools.disjoint (hp : Pools h (pre ++ p :: post)) {q : PoolPage} (hq : q ∈ pre ++ post) :
    Disjoint q.bytes p.bytes := by
  have hnodup := hp.bases_nodup
  rw [List.map_append, List.map_cons, List.nodup_middle, ← List.map_append] at hnodup
  refine PoolPage.disjoint fun heq => (List.nodup_cons.mp hnodup).1 ?_
  rw [← heq]
  exact List.mem_map_of_mem hq

theorem Pools.next (hp : Pools h (pre ++ p :: post)) :
    h.ram.word (p.base + 16) = (post.map PoolPage.base).headD 0 := by
  have hlinks := hp.links
  rw [List.map_append, List.map_cons] at hlinks
  obtain ⟨-, hnext⟩ := hlinks.suffix
  cases post with
  | nil => simpa [poolNext] using hnext
  | cons q post =>
    rw [List.map_cons] at hnext ⊢
    have hsome := hnext.1
    unfold poolNext at hsome
    split_ifs at hsome
    exact Option.some.inj hsome

theorem Pools.next_last (hp : Pools h (pre ++ [p])) : h.ram.word (p.base + 16) = 0 := by
  rw [hp.next, List.map_nil, List.headD_nil]

theorem Pools.next_cons {q : PoolPage} (hp : Pools h (pre ++ p :: q :: post)) :
    h.ram.word (p.base + 16) = q.base := by
  rw [hp.next, List.map_cons, List.headD_cons]

theorem Pools.data_subset (hp : Pools h ps) {x : ℕ} (hx : x ∈ heapData ps) :
    ∃ p ∈ ps, p.base + 48 ≤ x ∧ x < p.base + 4096 := by
  obtain ⟨b, hb, hx⟩ := hx
  obtain ⟨p, hmem, hb⟩ := List.mem_flatMap.mp hb
  have hstop := (hp.laid p hmem).chain.stop_eq
  obtain ⟨h1, h2⟩ := usedBlocks_bounds hb
  have h3 : b.1 + 24 ≤ x := hx.1
  have h4 : x < b.1 + b.2 := hx.2
  exact ⟨p, hmem, by omega, by omega⟩

/-! ### An edit in one page -/

theorem Pools.edit {r : Ram} {bs : List (ℕ × Bool)} {S : Set ℕ} (hp : Pools h (pre ++ p :: post))
    (hne : bs ≠ []) (hchain : Chain r (p.base + 24) 0 bs (p.base + 4096)) (hwrote : Wrote h.ram r S)
    (hin : S ⊆ Set.Ico (p.base + 24) (p.base + 4096)) (hout : ∀ b ∈ p.used, Disjoint S (payload b))
    (hused : p.used ⊆ usedBlocks (p.base + 24) bs) :
    Grew h (pre ++ p :: post) { h with ram := r } (pre ++ { p with blocks := bs } :: post) := by
  have hpage : S ⊆ p.bytes := fun x hx => ⟨by have := (hin hx).1; omega, (hin hx).2⟩
  have hmap : (pre ++ { p with blocks := bs } :: post).map PoolPage.base =
      (pre ++ p :: post).map PoolPage.base := by
    rw [List.map_append, List.map_cons, List.map_append, List.map_cons]
  have hother : ∀ q ∈ pre ++ post, ∀ x ∈ q.bytes, r.bytes x = h.ram.bytes x := fun q hq x hx =>
    hwrote.frame x fun hS => Set.disjoint_left.mp (hp.disjoint hq) hx (hpage hS)
  have hhead : ∀ x, p.base ≤ x → x < p.base + 24 → r.bytes x = h.ram.bytes x := fun x _ hx =>
    hwrote.frame x fun hS => absurd (hin hS).1 (by omega)
  have hlaid := hp.laid p (by simp)
  refine ⟨⟨?_, ?_, ?_, ?_⟩, ?_, ?_, hwrote.mono fun x hx => ⟨?_, ?_⟩⟩
  · rw [hmap]
    refine hp.links.congr fun a ha => poolNext_congr fun y h1 h2 => ?_
    obtain ⟨q, hq, rfl⟩ := List.mem_map.mp ha
    rcases mem_middle.mp hq with rfl | hq
    · exact hhead y (by omega) h2
    · exact hother q hq y ⟨by omega, by omega⟩
  · obtain ⟨front, last, heq, hlast⟩ := hp.tail
    rcases List.eq_nil_or_concat post with rfl | ⟨post, q, rfl⟩
    · obtain ⟨-, rfl⟩ := List.append_inj' heq rfl |>.imp id List.singleton_inj.mp
      exact ⟨pre, { p with blocks := bs }, rfl, hlast⟩
    · rw [List.concat_eq_append, ← List.cons_append, ← List.append_assoc] at heq
      obtain ⟨-, rfl⟩ := List.append_inj' heq rfl |>.imp id List.singleton_inj.mp
      exact ⟨pre ++ { p with blocks := bs } :: post, q, by simp, hlast⟩
  · intro q hq
    rcases mem_middle.mp hq with rfl | hq
    · refine ⟨?_, ?_, hne, hchain⟩
      · rw [← hlaid.len]
        exact Ram.word_congr fun x h1 h2 => hhead x h1 (by dsimp only at h2; omega)
      · rw [← hlaid.usage]
        exact Ram.word_congr fun x h1 h2 => hhead x (by dsimp only at h1; omega)
          (by dsimp only at h2; omega)
    · exact (hp.laid q (mem_middle.mpr (Or.inr hq))).congr fun x hx _ => hother q hq x hx
  · obtain ⟨hnodup, hframe, hfresh⟩ := hp.frames
    refine ⟨hnodup, hframe, fun f hf q hq => ?_⟩
    have hmem : q.base ∈ (pre ++ p :: post).map PoolPage.base := by
      rw [← hmap]
      exact List.mem_map_of_mem hq
    obtain ⟨q', hq', heq⟩ := List.mem_map.mp hmem
    rw [← heq]
    exact hfresh f hf q' hq'
  · rintro x ⟨q, hq, hx⟩
    rcases mem_middle.mp hq with rfl | hq
    · exact ⟨{ q with blocks := bs }, by simp, hx⟩
    · exact ⟨q, mem_middle.mpr (Or.inr hq), hx⟩
  · intro b hb
    unfold heapUsed at hb ⊢
    rw [List.flatMap_append, List.flatMap_cons] at hb ⊢
    simp only [List.mem_append] at hb ⊢
    exact hb.imp id (Or.imp (fun hb => hused hb) id)
  · exact ⟨{ p with blocks := bs }, by simp, hpage hx⟩
  · rintro ⟨b, hb, hxb⟩
    obtain ⟨q, hq, hbq⟩ := List.mem_flatMap.mp hb
    rcases mem_middle.mp hq with rfl | hq'
    · exact Set.disjoint_left.mp (hout b hbq) hx hxb
    · obtain ⟨h1, h2⟩ := (hp.laid q hq).payload_subset hbq hxb
      exact Set.disjoint_left.mp (hp.disjoint hq') ⟨by omega, h2⟩ (hpage hx)

end heap

end Fynaos
