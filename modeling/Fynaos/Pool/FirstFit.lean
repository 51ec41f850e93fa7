import Fynaos.Pool.Exhaustion
import Fynaos.Pool.Sources

/-!
# First fit

For a request that a fresh page can serve, `kmalloc` takes the first block that fits, in the order of
the pages, and asks for one page when there is none (`kmalloc_firstFit`). To count the calls of
`alloc_frames(0)`, the heap gets its frames from a source with a counter (`Heap.counting`).
-/

namespace Fynaos

open NextList

/-- A source of frames, and how often it was called. -/
structure Counted (S : Type) where
  frames : S
  calls : ℕ

instance {S : Type} [FrameSource S] : FrameSource (Counted S) where
  allocFrames s := do
    let (page, frames) ← FrameSource.allocFrames s.frames
    return (page, ⟨frames, s.calls + 1⟩)

/-- The heap that counts the calls of `alloc_frames(0)`. -/
def Heap.counting (h : Heap) (calls : ℕ) : Heap (Counted (List ℕ)) :=
  ⟨h.ram, h.pools, h.tail, ⟨h.frames, calls⟩, h.interrupts⟩

/-- A call of `kmalloc` for `len` bytes on the pages `ps` took the first block that fits, without a
call of `alloc_frames`, or it made one such call, failed with it, and otherwise took its block from
the new page, which is the last one now. -/
structure FirstFit (h : Heap) (ps : List PoolPage) (len addr : ℕ) (h' : Heap) (calls : ℕ) : Prop where
  old : ∀ pre q post bs l bs', ps = pre ++ q :: post → q.blocks = bs ++ (l, false) :: bs' →
    (∀ b ∈ heapBlocks pre ++ bs, ¬ Fits (needed len) b) → needed len ≤ l →
      calls = 0 ∧ h'.frames = h.frames ∧ addr = q.base + 24 + totalLen bs + dataOffset ∧
        isBlockUsed (h'.ram.word (q.base + 24 + totalLen bs))
  once : ¬ HasRoom ps len → calls = 1 ∧ (addr = 0 ↔ h.frames = [])
  new : ¬ HasRoom ps len → ∀ f frames, h.frames = f :: frames →
    h'.frames = frames ∧ h'.tail = physToVirt f ∧ addr = physToVirt f + 24 + dataOffset ∧
      isBlockUsed (h'.ram.word (physToVirt f + 24)) ∧
      IsList (poolNext h'.ram) (some h'.pools) (ps.map PoolPage.base ++ [physToVirt f])

section blocks
variable {r r' : Ram} {a n len addr l l₁ v : ℕ} {bs bs' bs₁ bs₁' : List (ℕ × Bool)}

theorem first_unique (heq : bs ++ (l, false) :: bs' = bs₁ ++ (l₁, false) :: bs₁')
    (hbs : ∀ b ∈ bs, ¬ Fits n b) (hbs₁ : ∀ b ∈ bs₁, ¬ Fits n b) (hl : n ≤ l) (hl₁ : n ≤ l₁) :
    bs = bs₁ ∧ l = l₁ := by
  induction bs generalizing bs₁ with
  | nil =>
    cases bs₁ with
    | nil => exact ⟨rfl, congrArg Prod.fst (List.cons.inj heq).1⟩
    | cons c bs₁ =>
      obtain rfl := (List.cons.inj heq).1
      exact absurd ⟨rfl, hl⟩ (hbs₁ _ List.mem_cons_self)
  | cons b bs ih =>
    cases bs₁ with
    | nil =>
      obtain rfl := (List.cons.inj heq).1
      exact absurd ⟨rfl, hl₁⟩ (hbs _ List.mem_cons_self)
    | cons c bs₁ =>
      obtain ⟨rfl, htail⟩ := List.cons.inj heq
      obtain ⟨rfl, rfl⟩ := ih htail (List.forall_mem_cons.mp hbs).2 (List.forall_mem_cons.mp hbs₁).2
      exact ⟨rfl, rfl⟩

theorem HasRoom.first {ps : List PoolPage} (h : HasRoom ps len) : ∃ pre q post bs l bs',
    ps = pre ++ q :: post ∧ q.blocks = bs ++ (l, false) :: bs' ∧
      (∀ b ∈ heapBlocks pre ++ bs, ¬ Fits (needed len) b) ∧ needed len ≤ l := by
  have hblocks : ∀ {bs : List (ℕ × Bool)} {b}, b ∈ bs → Fits (needed len) b → ∃ bs₁ l bs',
      bs = bs₁ ++ (l, false) :: bs' ∧ (∀ b ∈ bs₁, ¬ Fits (needed len) b) ∧ needed len ≤ l := by
    intro bs b hb hfit
    have hsome : (bs.find? (Fits (needed len))).isSome :=
      List.find?_isSome.mpr ⟨b, hb, by simpa using hfit⟩
    obtain ⟨c, hc⟩ := Option.isSome_iff_exists.mp hsome
    obtain ⟨hc', bs₁, bs', rfl, hbs₁⟩ := List.find?_eq_some_iff_append.mp hc
    obtain ⟨hused, hl⟩ := of_decide_eq_true hc'
    refine ⟨bs₁, c.1, bs', ?_, fun b hb => ?_, hl⟩
    · rw [← hused]
    · simpa using hbs₁ b hb
  induction ps with
  | nil =>
    obtain ⟨b, hb, -⟩ := h
    cases hb
  | cons p ps ih =>
    obtain ⟨b, hb, hfit⟩ := h
    by_cases hp : ∃ b ∈ p.blocks, Fits (needed len) b
    · obtain ⟨b, hb, hfit⟩ := hp
      obtain ⟨bs, l, bs', heq, hbs, hl⟩ := hblocks hb hfit
      exact ⟨[], p, ps, bs, l, bs', rfl, heq, hbs, hl⟩
    · have hrest : b ∈ heapBlocks ps := by
        rw [heapBlocks, List.flatMap_cons] at hb
        rcases List.mem_append.mp hb with hb | hb
        · exact absurd ⟨b, hb, hfit⟩ hp
        · exact hb
      obtain ⟨pre, q, post, bs, l, bs', rfl, heq, hbs, hl⟩ := ih ⟨b, hrest, hfit⟩
      refine ⟨p :: pre, q, post, bs, l, bs', rfl, heq, fun c hc => ?_, hl⟩
      rw [heapBlocks, List.flatMap_cons, List.append_assoc] at hc
      rcases List.mem_append.mp hc with hc | hc
      · exact fun hfit => hp ⟨c, hc, hfit⟩
      · exact hbs c hc

theorem allocate_used (hrun : allocate a len r = .ok (v + 24, r')) (hv : v + 24 < 2 ^ 64)
    (hpos : 0 < v) : isBlockUsed (r'.word v) := by
  obtain ⟨r₁, first, header, heq, hheader, rfl⟩ := allocate_last hrun (by omega)
  have hfirst : wrap first = v := by
    unfold wrap at heq ⊢
    omega
  have hor : header ||| blockUsed < 2 ^ 64 := Nat.or_lt_two_pow hheader (by decide)
  rw [hfirst, Ram.word_put_self hor, isBlockUsed, decide_eq_true_iff, Nat.and_or_distrib_right]
  exact fun h0 => absurd (Nat.or_eq_zero_iff.mp h0).2 (by decide)

/-- A block of 4072 bytes that is alone in its page: the stores of `allocate` stay in front of the link
of the next page, even when the rest is too short. -/
theorem allocate_alone (hchain : Chain r (v + 24) 0 [(4072, false)] (v + 4096)) (hdir : Direct v 4096)
    (hlen : needed len ≤ 4072) : ∃ r', allocate (v + 24) len r = .ok (v + 24 + dataOffset, r') ∧
      Wrote r r' (Set.Ico (v + 24) (v + 4112) ∪ Set.Iio 24) := by
  obtain ⟨hlow, hhigh⟩ := hdir
  have hbase : kernelDirectBase = 2 ^ 64 - 2 ^ 47 := rfl
  obtain ⟨hheader, hnext, -, -, -⟩ := id hchain
  rw [if_pos rfl] at hnext
  have hrun : findBlock r (wrap (alignUp len 16 + 32)) pageSize (v + 24) = .ok (v + 24) := by
    rcases findBlock_spec (wrap (alignUp len 16 + 32)) hchain (List.cons_ne_nil _ _) (by omega)
        (by omega) (by omega) (show 1 ≤ pageSize by norm_num) with
      ⟨-, hnone⟩ | ⟨pre, l, post, heq, -, -, hrun⟩
    · exact absurd ⟨rfl, hlen⟩ (hnone _ (List.mem_singleton.mpr rfl))
    · cases pre with
      | nil => exact hrun
      | cons b pre => simp at heq
  obtain ⟨hwhole, hcut⟩ := allocate_found (l := 4072) hrun (by omega) ⟨by omega, by omega⟩ hheader
    (by norm_num) (by norm_num)
  have haddr : wrap (v + 24 + 24) = v + 24 + 24 := wrap_of_lt (by omega)
  have hmark : ∀ (r : Ram) (x : ℕ), Wrote r (r.put (v + 24) x)
      (Set.Ico (v + 24) (v + 4112) ∪ Set.Iio 24) := fun r x =>
    Wrote.put r x fun y hy => Or.inl ⟨hy.1, by have := hy.2; omega⟩
  rw [haddr] at hwhole hcut
  by_cases hlt : alignUp len 16 + 32 < 4072
  · obtain ⟨r₁, hdivide, hwrote⟩ := divide_returns (l := 4072) hheader (by norm_num) hlt (by omega) (by omega)
      (Or.inl hnext)
    refine ⟨_, hcut r₁ hlt hdivide, ((hwrote hnext).mono ?_).trans (hmark r₁ _)⟩
    -- a multiple of 16 below 4040 is at most 4032
    have h16 : alignUp len 16 = wrap (len + 15) / 16 * 16 := alignUp_sixteen len
    refine Set.union_subset_union_left _ (Set.Ico_subset_Ico_right ?_)
    omega
  · exact ⟨_, hwhole hlt, hmark r _⟩

end blocks

section counting
variable {h h' : Heap} {ps pre front post : List PoolPage} {p q : PoolPage} {len fuel calls : ℕ}

theorem Counted.allocFrames {S : Type} [FrameSource S] {s s' : S} {f : ℕ} (calls : ℕ)
    (halloc : FrameSource.allocFrames s = .ok (f, s')) :
    FrameSource.allocFrames (⟨s, calls⟩ : Counted S) = .ok (f, ⟨s', calls + 1⟩) := by
  change (FrameSource.allocFrames s >>= _) = _
  rw [halloc, ok_bind]
  rfl

theorem extendPool_counting {extended : Bool} (calls : ℕ) (hrun : extendPool h = .ok (extended, h')) :
    extendPool (h.counting calls) = .ok (extended, h'.counting (calls + 1)) := by
  have hgives : Gives (fun (s : Counted (List ℕ)) frames => s = ⟨frames, calls⟩)
      fun s frames => s = ⟨frames, calls + 1⟩ := by
    rintro s frames f frames' rfl halloc
    exact ⟨_, Counted.allocFrames calls halloc, rfl⟩
  obtain ⟨g, hcounted, hram, hpools, htail, hinterrupts, hframes⟩ :=
    Heap.Alike.extendPool (g := h.counting calls) hgives ⟨rfl, rfl, rfl, rfl, rfl⟩ hrun
  rw [hcounted, show g = h'.counting (calls + 1) from Heap.ext hram hpools htail hframes hinterrupts]

theorem kmalloc_of_counting {addr : ℕ}
    (hrun : kmalloc fuel len (h.counting 0) = .ok (addr, h'.counting calls)) :
    kmalloc fuel len h = .ok (addr, h') := by
  have hgives : Gives (fun frames (s : Counted (List ℕ)) => s.frames = frames)
      fun frames s => s.frames = frames := by
    rintro frames s f s' rfl halloc
    obtain ⟨⟨page, frames⟩, hplain, halloc⟩ := bind_eq_ok.mp halloc
    cases halloc
    exact ⟨frames, hplain, rfl⟩
  obtain ⟨g, hplain, hram, hpools, htail, hinterrupts, hframes⟩ :=
    Heap.Alike.kmalloc (g := h) hgives ⟨rfl, rfl, rfl, rfl, rfl⟩ hrun
  rw [hplain, show g = h' from Heap.ext hram hpools htail hframes.symm hinterrupts]

theorem Pools.allocate_none (hp : Pools h (front ++ p :: post))
    (hnone : ∀ b ∈ p.blocks, ¬ Fits (needed len) b) :
    allocate (p.base + sizeofPool) len h.ram = .ok (0, h.ram) := by
  rcases hp.allocate_page len with ⟨hrun, -⟩ | ⟨bs, l, bs', r', hblocks, -, hl, -, -⟩
  · exact hrun
  · exact absurd ⟨rfl, hl⟩ (hnone (l, false) (by simp [hblocks]))

theorem Pools.counting_next (fuel calls : ℕ) (hp : Pools h (front ++ p :: q :: post))
    (hnone : ∀ b ∈ p.blocks, ¬ Fits (needed len) b) :
    kmallocLoop len (fuel + 1) p.base (h.counting calls) =
      kmallocLoop len fuel q.base (h.counting calls) :=
  kmallocLoop_next (hp.allocate_none hnone) p.link hp.next_cons q.base_pos.ne'

theorem Pools.counting_skip (fuel calls : ℕ) (hp : Pools h (front ++ pre ++ q :: post))
    (hpre : ∀ b ∈ heapBlocks pre, ¬ Fits (needed len) b) {start : PoolPage}
    (hstart : (pre ++ [q]).head? = some start) :
    kmallocLoop len (fuel + pre.length) start.base (h.counting calls) =
      kmallocLoop len fuel q.base (h.counting calls) := by
  induction pre generalizing front start with
  | nil =>
    obtain rfl := Option.some.inj hstart
    rfl
  | cons p pre ih =>
    obtain rfl : p = start := Option.some.inj hstart
    have hnone : ∀ b ∈ p.blocks, ¬ Fits (needed len) b := fun b hb =>
      hpre b (List.mem_flatMap.mpr ⟨p, List.mem_cons_self, hb⟩)
    have hrest : ∀ b ∈ heapBlocks pre, ¬ Fits (needed len) b := fun b hb => by
      obtain ⟨c, hc, hbc⟩ := List.mem_flatMap.mp hb
      exact hpre b (List.mem_flatMap.mpr ⟨c, List.mem_cons_of_mem p hc, hbc⟩)
    obtain ⟨s, hs⟩ : ∃ s, (pre ++ [q]).head? = some s := by
      cases pre with
      | nil => exact ⟨q, rfl⟩
      | cons c pre => exact ⟨c, rfl⟩
    have hsplit : ∃ tail, front ++ p :: pre ++ q :: post = front ++ p :: s :: tail := by
      cases pre with
      | nil => exact ⟨post, by obtain rfl := Option.some.inj hs; simp⟩
      | cons c pre => exact ⟨pre ++ q :: post, by obtain rfl := Option.some.inj hs; simp⟩
    obtain ⟨tail, htail⟩ := hsplit
    have hnext := Pools.counting_next (fuel + pre.length) calls (htail ▸ hp) hnone
    have hp' : Pools h (front ++ [p] ++ pre ++ q :: post) := by simpa using hp
    rw [List.length_cons, ← Nat.add_assoc, hnext]
    exact ih hp' hrest hs

theorem Pools.counting_found (fuel calls : ℕ) {bs bs' : List (ℕ × Bool)} {l : ℕ}
    (hp : Pools h (front ++ q :: post))
    (hblocks : q.blocks = bs ++ (l, false) :: bs') (hbs : ∀ b ∈ bs, ¬ Fits (needed len) b)
    (hl : needed len ≤ l) : ∃ r', kmallocLoop len (fuel + 1) q.base (h.counting calls) =
        .ok (some (q.base + 24 + totalLen bs + dataOffset), Heap.counting { h with ram := r' } calls) ∧
      isBlockUsed (r'.word (q.base + 24 + totalLen bs)) := by
  rcases hp.allocate_page len with ⟨-, hnone⟩ | ⟨bs₁, l₁, bs₁', r', hblocks₁, hbs₁, hl₁, hrun, -⟩
  · exact absurd ⟨rfl, hl⟩ (hnone (l, false) (by simp [hblocks]))
  · obtain ⟨rfl, rfl⟩ := first_unique (hblocks₁.symm.trans hblocks) hbs₁ hbs hl₁ hl
    have hchain := (hp.laid q (by simp)).chain
    obtain ⟨_, hfocus, -⟩ := (hblocks₁ ▸ hchain).focus
    have hstop := hfocus.stop_eq
    have h32 := hfocus.2.2.2.1
    have htop := q.direct.2
    rw [totalLen_cons] at hstop
    exact ⟨r', kmallocLoop_found hrun (by omega), allocate_used hrun (by omega) (by omega)⟩

theorem Pools.counting_full (fuel calls : ℕ) (hp : Pools h (front ++ [p]))
    (hnone : ∀ b ∈ p.blocks, ¬ Fits (needed len) b) (hframes : h.frames = []) :
    kmallocLoop len (fuel + 1) p.base (h.counting calls) = .ok (none, h.counting (calls + 1)) :=
  kmallocLoop_full (hp.allocate_none hnone) p.link hp.next_last
    (extendPool_counting calls (extendPool_none hframes))

/-- No link is among the bytes from the first block of a page to the first words of the next page. -/
theorem Pools.links_of_wrote {r' : Ram} {v : ℕ} (hp : Pools h ps) (hv : 4096 ∣ v)
    (hlow : kernelDirectBase ≤ v)
    (hwrote : Wrote h.ram r' (Set.Ico (v + 24) (v + 4112) ∪ Set.Iio 24)) :
    IsList (poolNext r') (some h.pools) (ps.map PoolPage.base) := by
  refine hp.links.congr fun b hb => poolNext_congr fun y h1 h2 => hwrote.frame y ?_
  obtain ⟨q, -, rfl⟩ := List.mem_map.mp hb
  obtain ⟨i, rfl⟩ := hv
  obtain ⟨j, hj⟩ := q.aligned
  have hq := q.direct.1
  unfold kernelDirectBase at hq
  rintro (⟨h3, h4⟩ | h3)
  · omega
  · have h4 : y < 24 := h3
    omega

theorem Pools.counting_extend (fuel calls : ℕ) (hp : Pools h (front ++ [p]))
    (hnone : ∀ b ∈ p.blocks, ¬ Fits (needed len) b) (hlen : needed len ≤ 4072) {f : ℕ}
    {frames : List ℕ} (hframes : h.frames = f :: frames) :
    ∃ h' : Heap, kmallocLoop len (fuel + 2) p.base (h.counting calls) =
        .ok (some (physToVirt f + 24 + dataOffset), h'.counting (calls + 1)) ∧ h'.frames = frames ∧
      h'.tail = physToVirt f ∧ isBlockUsed (h'.ram.word (physToVirt f + 24)) ∧
      IsList (poolNext h'.ram) (some h'.pools) ((front ++ [p]).map PoolPage.base ++ [physToVirt f]) := by
  obtain ⟨h₁, hf, hextend, hrest, hgrew⟩ := extendPool_spec hp hframes
  have hp₁ := hgrew.pools
  have hchain : Chain h₁.ram (physToVirt f + 24) 0 [(4072, false)] (physToVirt f + 4096) :=
    (hp₁.laid (freshPage f hf) (by simp)).chain
  have hdir : Direct (physToVirt f) 4096 := (freshPage f hf).direct
  obtain ⟨r', hrun, hwrote⟩ := allocate_alone hchain hdir hlen
  have hbounds : 0 < physToVirt f + 24 ∧ physToVirt f + 24 + 24 < 2 ^ 64 := by
    have hhigh := hdir.2
    exact ⟨by omega, by omega⟩
  have hused := allocate_used hrun hbounds.2 hbounds.1
  have hnext : h₁.ram.word (p.base + 16) = (freshPage f hf).base := by
    have hp₁' := hp₁
    rw [List.append_assoc] at hp₁'
    exact hp₁'.next_cons
  have htail : h₁.tail = physToVirt f := by
    obtain ⟨pre', t, heq, ht⟩ := hp₁.tail
    have hlast : freshPage f hf = t := by simpa using congrArg List.getLast? heq
    rw [← ht, ← hlast]
    rfl
  refine ⟨{ h₁ with ram := r' }, ?_, hrest, htail, hused, ?_⟩
  · have hstep : kmallocLoop len (fuel + 1) (freshPage f hf).base (h₁.counting (calls + 1)) =
        .ok (some (physToVirt f + 24 + dataOffset), Heap.counting { h₁ with ram := r' } (calls + 1)) :=
      kmallocLoop_found hrun (by omega)
    rw [← hstep]
    exact kmallocLoop_extend (hp.allocate_none hnone) p.link hp.next_last (extendPool_counting calls hextend) hnext
  · have hlinks := hp₁.links_of_wrote (freshPage f hf).aligned hdir.1 hwrote
    rw [List.map_append, List.map_singleton] at hlinks
    exact hlinks

end counting

section firstFit
variable {h : Heap} {ps pre post : List PoolPage} {q : PoolPage} {bs bs' : List (ℕ × Bool)} {len l : ℕ}

theorem Pools.start (hp : Pools h (pre ++ q :: post)) :
    ∃ start : PoolPage, (pre ++ [q]).head? = some start ∧ h.pools = start.base := by
  obtain ⟨p, tail, heq, hpools⟩ := hp.head
  refine ⟨p, ?_, hpools⟩
  cases pre with
  | nil => rw [(List.cons.inj heq).1]; rfl
  | cons c pre => rw [List.cons_append, (List.cons.inj heq).1]; rfl

theorem Pools.kmalloc_fits (hp : Pools h (pre ++ q :: post)) (k : ℕ)
    (hblocks : q.blocks = bs ++ (l, false) :: bs')
    (hbs : ∀ b ∈ heapBlocks pre ++ bs, ¬ Fits (needed len) b) (hl : needed len ≤ l) :
    ∃ r', kmalloc (k + 1 + pre.length) len (h.counting 0) =
        .ok (q.base + 24 + totalLen bs + dataOffset, Heap.counting { h with ram := r' } 0) ∧
      isBlockUsed (r'.word (q.base + 24 + totalLen bs)) := by
  have hp₀ : Pools { h with interrupts := false } ([] ++ pre ++ q :: post) := hp.interrupts false
  obtain ⟨start, hstart, hpools⟩ := hp.start
  obtain ⟨r', hfound, hused⟩ := Pools.counting_found k 0 hp₀ hblocks
    (fun b hb => hbs b (List.mem_append_right _ hb)) hl
  have hskip := Pools.counting_skip (k + 1) 0 hp₀
    (fun b hb => hbs b (List.mem_append_left _ hb)) hstart
  rw [← hpools] at hskip
  have hrun := kmalloc_some (h := h.counting 0) (hskip.trans hfound)
  exact ⟨r', hrun, hused⟩

theorem Pools.kmalloc_opens (hp : Pools h ps) (k : ℕ) (hlen : needed len ≤ pageSize - sizeofPool)
    (hroom : ¬ HasRoom ps len) : ∃ (addr : ℕ) (h' : Heap) (calls : ℕ),
      kmalloc (k + 1 + ps.length) len (h.counting 0) = .ok (addr, h'.counting calls) ∧
      calls = 1 ∧ (addr = 0 ↔ h.frames = []) ∧ ∀ f frames, h.frames = f :: frames →
        h'.frames = frames ∧ h'.tail = physToVirt f ∧ addr = physToVirt f + 24 + dataOffset ∧
        isBlockUsed (h'.ram.word (physToVirt f + 24)) ∧
        IsList (poolNext h'.ram) (some h'.pools) (ps.map PoolPage.base ++ [physToVirt f]) := by
  obtain ⟨pre, t, rfl, -⟩ := hp.tail
  have hp₀ : Pools { h with interrupts := false } ([] ++ pre ++ [t]) := hp.interrupts false
  obtain ⟨start, hstart, hpools⟩ := hp.start
  have hnone : ∀ b ∈ heapBlocks (pre ++ [t]), ¬ Fits (needed len) b := fun b hb hfit =>
    hroom ⟨b, hb, hfit⟩
  have hlast : ∀ b ∈ t.blocks, ¬ Fits (needed len) b := fun b hb =>
    hnone b (List.mem_flatMap.mpr ⟨t, by simp, hb⟩)
  have hskip := Pools.counting_skip (k + 2) 0 hp₀
    (fun b hb => hnone b (by
      rw [heapBlocks, List.flatMap_append]
      exact List.mem_append_left _ hb)) hstart
  have hlength : k + 1 + (pre ++ [t]).length = k + 2 + pre.length := by
    rw [List.length_append, List.length_singleton]
    omega
  rw [← hpools] at hskip
  rw [hlength]
  by_cases hframes : h.frames = []
  · have hfull := Pools.counting_full (k + 1) 0 hp₀ hlast hframes
    refine ⟨_, _, _, kmalloc_none (hskip.trans hfull), rfl, iff_of_true rfl hframes, fun f frames h0 => ?_⟩
    exact absurd (hframes.symm.trans h0) (List.cons_ne_nil f frames).symm
  · obtain ⟨f, frames, hcons⟩ := List.exists_cons_of_ne_nil hframes
    obtain ⟨h', hrun, hrest, htail, hused, hlinks⟩ := Pools.counting_extend k 0 hp₀ hlast hlen hcons
    have hopened := kmalloc_some (h := h.counting 0) (hskip.trans hrun)
    refine ⟨_, { h' with interrupts := h.interrupts }, 1, hopened, rfl,
      iff_of_false (Nat.succ_ne_zero _) hframes, fun f' frames' heq => ?_⟩
    obtain ⟨rfl, rfl⟩ := List.cons.inj (hcons.symm.trans heq)
    exact ⟨hrest, htail, rfl, hused, hlinks⟩

/-- `kmalloc` on a request that a fresh page can serve. -/
theorem kmalloc_firstFit (hp : Pools h ps) (hlen : needed len ≤ pageSize - sizeofPool) :
    ∃ n, ∀ fuel, n ≤ fuel → ∃ (addr : ℕ) (h' : Heap) (calls : ℕ),
      kmalloc fuel len (h.counting 0) = .ok (addr, h'.counting calls) ∧
      kmalloc fuel len h = .ok (addr, h') ∧ FirstFit h ps len addr h' calls := by
  refine ⟨ps.length + 1, fun fuel hfuel => ?_⟩
  have hshort : ∀ {pre q post}, ps = pre ++ q :: post → fuel - 1 - pre.length + 1 + pre.length = fuel := by
    rintro pre q post rfl
    rw [List.length_append, List.length_cons] at hfuel
    omega
  by_cases hroom : HasRoom ps len
  · obtain ⟨pre, q, post, bs, l, bs', hps, hblocks, hbs, hl⟩ := hroom.first
    obtain ⟨r', hrun, -⟩ := (hps ▸ hp).kmalloc_fits (fuel - 1 - pre.length) hblocks hbs hl
    rw [hshort hps] at hrun
    refine ⟨_, _, _, hrun, kmalloc_of_counting hrun, fun pre₁ q₁ post₁ bs₁ l₁ bs₁' hps₁ hblocks₁
      hbs₁ hl₁ => ?_, fun hnot => absurd hroom hnot, fun hnot => absurd hroom hnot⟩
    obtain ⟨r₁, hrun₁, hused₁⟩ :=
      (hps₁ ▸ hp).kmalloc_fits (fuel - 1 - pre₁.length) hblocks₁ hbs₁ hl₁
    rw [hshort hps₁] at hrun₁
    obtain ⟨haddr, hheap⟩ := Prod.mk.inj (Except.ok.inj (hrun.symm.trans hrun₁))
    obtain rfl : r' = r₁ := congrArg (fun g : Heap (Counted (List ℕ)) => g.ram) hheap
    exact ⟨rfl, rfl, haddr, hused₁⟩
  · obtain ⟨addr, h', calls, hrun, hcalls, hnull, hpage⟩ :=
      hp.kmalloc_opens (fuel - 1 - ps.length) hlen hroom
    rw [show fuel - 1 - ps.length + 1 + ps.length = fuel by omega] at hrun
    refine ⟨addr, h', calls, hrun, kmalloc_of_counting hrun, fun pre q post bs l bs' hps hblocks
      hbs hl => ?_, fun _ => ⟨hcalls, hnull⟩, fun _ => hpage⟩
    refine absurd ⟨(l, false), ?_, rfl, hl⟩ hroom
    rw [hps]
    exact List.mem_flatMap.mpr ⟨q, by simp, by simp [hblocks]⟩

/-- 100 bytes from a heap of one page. -/
theorem kmalloc_firstFit_oneFrame : ∃ h hf, Pools h [freshPage 0x1000 hf] ∧
    ∃ n, ∀ fuel, n ≤ fuel → ∃ (addr : ℕ) (h' : Heap) (calls : ℕ),
      kmalloc fuel 100 (h.counting 0) = .ok (addr, h'.counting calls) ∧
      kmalloc fuel 100 h = .ok (addr, h') ∧
      FirstFit h [freshPage 0x1000 hf] 100 addr h' calls := by
  obtain ⟨h, hf, -, -, hp⟩ := oneFrame_init
  exact ⟨h, hf, hp, kmalloc_firstFit hp (by decide)⟩

end firstFit

end Fynaos
