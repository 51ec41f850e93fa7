import Fynaos.Pool.Confinement

/-!
# Failing requests

The loop of `kmalloc` asks for page after page before it knows whether a page could serve the request.
So a request that is longer than a fresh page takes every frame that is left before it fails
(`failsClean_iff`).
-/

namespace Fynaos

/-- The length of a block that can serve `len` bytes, with its `struct block`. -/
def needed (len : ℕ) : ℕ := wrap (alignUp len 16 + sizeofBlock)

/-- A request that `kmalloc` answers with `NULL` leaves the pages, their blocks and the frames to come
as they are. -/
def FailsClean (h : Heap) (ps : List PoolPage) (len : ℕ) : Prop :=
  ∃ n, ∀ fuel, n ≤ fuel → ∃ addr h', kmalloc fuel len h = .ok (addr, h') ∧
    (addr = 0 → Pools h' ps ∧ ∀ f, f ∈ h'.frames ↔ f ∈ h.frames)

def HasRoom (ps : List PoolPage) (len : ℕ) : Prop := ∃ b ∈ heapBlocks ps, Fits (needed len) b

/-- The request can be served: by a block of the heap, or by a fresh page. -/
def Servable (ps : List PoolPage) (frames : List ℕ) (len : ℕ) : Prop :=
  HasRoom ps len ∨ (frames ≠ [] ∧ needed len ≤ 4072)

section failing
variable {h h₁ : Heap} {ps ps₁ : List PoolPage} {b : ℕ × Bool} {fuel len : ℕ}

theorem Opened.blocks (ho : Opened h ps h₁ ps₁) (hb : b ∈ heapBlocks ps₁) :
    b ∈ heapBlocks ps ∨ (b = (4072, false) ∧ h.frames ≠ []) := by
  obtain ⟨taken, new, htaken, hlen, rfl, hwhole⟩ := ho
  obtain ⟨q, hq, hbq⟩ := List.mem_flatMap.mp hb
  rcases List.mem_append.mp hq with hq | hq
  · exact Or.inl (List.mem_flatMap.mpr ⟨q, hq, hbq⟩)
  · rw [hwhole q hq] at hbq
    refine Or.inr ⟨List.mem_singleton.mp hbq, fun hnil => ?_⟩
    rw [hnil] at htaken
    rw [(List.append_eq_nil_iff.mp htaken.symm).1, List.length_nil, List.length_eq_zero_iff] at hlen
    rw [hlen] at hq
    exact List.not_mem_nil hq

theorem Opened.old (ho : Opened h ps h₁ ps₁) (hb : b ∈ heapBlocks ps) : b ∈ heapBlocks ps₁ := by
  obtain ⟨taken, new, -, -, rfl, -⟩ := ho
  obtain ⟨q, hq, hbq⟩ := List.mem_flatMap.mp hb
  exact List.mem_flatMap.mpr ⟨q, List.mem_append_left new hq, hbq⟩

theorem Opened.fresh (ho : Opened h ps h₁ ps₁) (hframes : h.frames ≠ []) (hnone : h₁.frames = []) :
    (4072, false) ∈ heapBlocks ps₁ := by
  obtain ⟨taken, new, htaken, hlen, rfl, hwhole⟩ := ho
  rw [hnone, List.append_nil] at htaken
  cases new with
  | nil =>
    rw [List.length_nil] at hlen
    exact absurd (htaken.trans (List.length_eq_zero_iff.mp hlen.symm)) hframes
  | cons q new =>
    refine List.mem_flatMap.mpr ⟨q, List.mem_append_right ps List.mem_cons_self, ?_⟩
    rw [hwhole q List.mem_cons_self]
    exact List.mem_singleton_self _

theorem kmalloc_cases (len : ℕ) (hp : Pools h ps) (hfuel : ps.length + h.frames.length ≤ fuel) :
    ∃ addr h', kmalloc fuel len h = .ok (addr, h') ∧ (addr = 0 ↔ ¬ Servable ps h.frames len) ∧
      (addr = 0 → h'.frames = []) ∧ (addr = 0 → h.frames = [] → Pools h' ps) := by
  obtain ⟨h₁, ps₁, res, h₂, hgrew, hopened, -, hres, b, hrun⟩ := kmalloc_search len hp hfuel
  rcases hres with ⟨heq, hnone, hfits⟩ | ⟨pre, q, post, bs, l, bs', r', rfl, hblocks, -, hl, heq, -⟩
  · obtain ⟨rfl, rfl⟩ := Prod.mk.inj (Except.ok.inj heq)
    refine ⟨_, _, hrun, iff_of_true rfl ?_, fun _ => hnone, fun _ hframes => ?_⟩
    · rintro (⟨x, hx, hfit⟩ | ⟨hframes, hle⟩)
      · exact hfits x (hopened.old hx) hfit
      · exact hfits _ (hopened.fresh hframes hnone) ⟨rfl, hle⟩
    · obtain ⟨taken, new, htaken, hlen, rfl, -⟩ := hopened
      rw [hframes, hnone, List.append_nil] at htaken
      rw [← htaken, List.length_nil, List.length_eq_zero_iff] at hlen
      rw [hlen, List.append_nil] at hgrew
      exact hgrew.pools.interrupts b
  · obtain ⟨rfl, rfl⟩ := Prod.mk.inj (Except.ok.inj heq)
    have hmem : (l, false) ∈ heapBlocks (pre ++ q :: post) :=
      List.mem_flatMap.mpr ⟨q, by simp, by simp [hblocks]⟩
    have haddr : (some (q.base + 24 + totalLen bs + 24)).getD 0 ≠ 0 := by simp
    refine ⟨_, _, hrun, iff_of_false haddr (not_not.mpr ?_), fun h0 => absurd h0 haddr,
      fun h0 => absurd h0 haddr⟩
    rcases hopened.blocks hmem with hold | ⟨heq, hframes⟩
    · exact Or.inl ⟨_, hold, rfl, hl⟩
    · obtain ⟨rfl, -⟩ := Prod.mk.inj heq
      exact Or.inr ⟨hframes, hl⟩

/-- A failing request costs nothing when it could not have taken a frame, or would have succeeded with
one. -/
theorem failsClean_iff (hp : Pools h ps) :
    FailsClean h ps len ↔ h.frames = [] ∨ HasRoom ps len ∨ needed len ≤ 4072 := by
  have hservable : ∀ {frames}, frames ≠ [] →
      (Servable ps frames len ↔ HasRoom ps len ∨ needed len ≤ 4072) := fun hne =>
    or_congr_right (and_iff_right hne)
  constructor
  · rintro ⟨n, hclean⟩
    obtain ⟨addr, h', hrun, hfail⟩ := hclean _ (Nat.le_max_left n (ps.length + h.frames.length))
    obtain ⟨addr', h₁, hrun', hnull, hnone, -⟩ := kmalloc_cases len hp (Nat.le_max_right n _)
    obtain ⟨rfl, rfl⟩ := Prod.mk.inj (Except.ok.inj (hrun.symm.trans hrun'))
    by_cases hframes : h.frames = []
    · exact Or.inl hframes
    refine Or.inr ((hservable hframes).mp (not_not.mp fun hnot => ?_))
    obtain ⟨f, hf⟩ := List.exists_mem_of_ne_nil _ hframes
    have hf' := ((hfail (hnull.mpr hnot)).2 f).mpr hf
    rw [hnone (hnull.mpr hnot)] at hf'
    exact List.not_mem_nil hf'
  · intro hcond
    refine ⟨ps.length + h.frames.length, fun fuel hfuel => ?_⟩
    obtain ⟨addr, h', hrun, hnull, hnone, hpools⟩ := kmalloc_cases len hp hfuel
    refine ⟨addr, h', hrun, fun h0 => ?_⟩
    by_cases hframes : h.frames = []
    · rw [hnone h0, hframes]
      exact ⟨hpools h0 hframes, fun _ => Iff.rfl⟩
    · exact absurd ((hservable hframes).mpr (hcond.resolve_left hframes)) (hnull.mp h0)

/-- Whatever its bound, `kmalloc` returns `NULL` when the request cannot be served, and only then. -/
theorem kmalloc_null_iff {addr : ℕ} {h' : Heap} (hp : Pools h ps)
    (hrun : kmalloc fuel len h = .ok (addr, h')) : addr = 0 ↔ ¬ Servable ps h.frames len := by
  obtain ⟨addr₁, h₁, hrun₁, hnull, -⟩ := kmalloc_cases len hp
    (Nat.le_max_right fuel (ps.length + h.frames.length))
  rw [kmalloc_fuel (Nat.le_max_left _ _) hrun] at hrun₁
  obtain ⟨rfl, -⟩ := Prod.mk.inj (Except.ok.inj hrun₁)
  exact hnull

theorem Pools.take {f : ℕ} {frames : List ℕ} (hp : Pools h ps) (hframes : h.frames = f :: frames) :
    Pools { h with frames := frames } ps := by
  obtain ⟨hnodup, hpage, hfresh⟩ := hp.frames
  rw [hframes] at hnodup hpage hfresh
  exact ⟨hp.links, hp.tail, hp.laid, (List.nodup_cons.mp hnodup).2,
    fun g hg => hpage g (List.mem_cons_of_mem f hg),
    fun g hg => hfresh g (List.mem_cons_of_mem f hg)⟩

theorem Pools.frame_ne {f : ℕ} {frames : List ℕ} (hp : Pools h ps) (hframes : h.frames = f :: frames) :
    f ≠ invalidAddress := by
  have hbelow := (hp.frames.page f (by rw [hframes]; exact List.mem_cons_self)).2
  unfold invalidAddress
  omega

end failing

/-- A machine with two pages of memory for the heap. -/
def twoFrames : Heap := ⟨⟨fun _ => 0, []⟩, 0, 0, [0x1000, 0x2000], true⟩

theorem twoFrames_init : ∃ h hf, initPool twoFrames = .ok (true, h) ∧ h.frames = [0x2000] ∧
    Pools h [freshPage 0x1000 hf] :=
  initPool_spec ⟨by decide, by decide, fun _ _ _ hp => absurd hp List.not_mem_nil⟩ rfl

/-- There is a second page, and 100 bytes need none. -/
theorem failsClean_iff_twoFrames : ∃ h hf, Pools h [freshPage 0x1000 hf] ∧ h.frames = [0x2000] ∧
    FailsClean h [freshPage 0x1000 hf] 100 := by
  obtain ⟨h, hf, -, hframes, hp⟩ := twoFrames_init
  exact ⟨h, hf, hp, hframes, (failsClean_iff hp).mpr (Or.inr (Or.inr (by decide)))⟩

theorem freshPage_not_servable {f : ℕ} {hf : 4096 ∣ f ∧ f + 4096 ≤ 2 ^ 47} (frames : List ℕ) :
    ¬ Servable [freshPage f hf] frames 5000 := by
  have hlen : needed 5000 = 5040 := rfl
  rintro (⟨b, hb, -, hl⟩ | ⟨-, hl⟩)
  · obtain rfl := List.mem_singleton.mp hb
    rw [hlen] at hl
    exact absurd hl (by norm_num)
  · rw [hlen] at hl
    exact absurd hl (by norm_num)

/-- 5000 bytes are more than a page. The request fails, and the second page is gone. -/
theorem too_long_takes_frame : ∃ h hf h', initPool twoFrames = .ok (true, h) ∧
    h.frames = [0x2000] ∧ Pools h [freshPage 0x1000 hf] ∧ kmalloc 2 5000 h = .ok (0, h') ∧
    h'.frames = [] ∧ ¬ FailsClean h [freshPage 0x1000 hf] 5000 := by
  obtain ⟨h, hf, hinit, hframes, hp⟩ := twoFrames_init
  have hfuel : [freshPage 0x1000 hf].length + h.frames.length ≤ 2 := by rw [hframes]; rfl
  obtain ⟨addr, h', hrun, hnull, hnone, -⟩ := kmalloc_cases 5000 hp hfuel
  obtain rfl := hnull.mpr (freshPage_not_servable h.frames)
  refine ⟨h, hf, h', hinit, hframes, hp, hrun, hnone rfl, ?_⟩
  rintro ⟨n, hclean⟩
  obtain ⟨addr₂, h₂, hrun₂, hfail⟩ := hclean _ (Nat.le_max_left n 2)
  rw [kmalloc_fuel (Nat.le_max_right n 2) hrun] at hrun₂
  obtain ⟨rfl, rfl⟩ := Prod.mk.inj (Except.ok.inj hrun₂)
  have hgone := ((hfail rfl).2 0x2000).mpr (by rw [hframes]; exact List.mem_singleton_self _)
  rw [hnone rfl] at hgone
  exact List.not_mem_nil hgone

end Fynaos
