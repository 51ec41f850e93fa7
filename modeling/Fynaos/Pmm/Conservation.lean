import Fynaos.Pmm.Runs

/-!
# Conservation of frames

In every state of a run the free blocks and the held blocks share out exactly the frames the
allocator was given (`Conserved`), and every call a client may make returns and moves exactly one
block between the two sides (`Served`). Both are read off the invariant `Kept`.
-/

namespace Fynaos

open Buddy NextList

variable {D : Block → Prop} {U : Set ℕ} {σ τ : Run}

/-- The lists are well formed, and the blocks on them together with the held blocks are pairwise
disjoint with union `U`. -/
structure Conserved (U : Set ℕ) (σ : Run) : Prop where
  list : ∀ k ≤ frameMaxOrder, IsList σ.pmm.next (σ.pmm.mmFreeRegion k) (σ.pmm.freeList k)
  acyclic : ∀ k ≤ frameMaxOrder, (σ.pmm.freeList k).Nodup
  node : ∀ k ≤ frameMaxOrder, ∀ p ∈ σ.pmm.freeList k, (σ.pmm.mmFrames p).order = k ∧ 2 ^ k ∣ p
  heads : (σ.pmm.freeBlocks.map Block.base).Nodup
  disjoint : (σ.pmm.freeBlocks ++ σ.allocated).Pairwise fun b c => Disjoint b.span c.span
  union : ∀ x, x ∈ U ↔ ∃ b ∈ σ.pmm.freeBlocks ++ σ.allocated, x ∈ b.span

/-- Every call of a client returns. An allocation takes its block out of the free frames, a free puts
the whole block back. -/
structure Served (σ : Run) : Prop where
  alloc : ∀ k ≤ frameMaxOrder, ∃ a s', allocFrames k σ.pmm = .ok (a, s') ∧
    ((a = invalidAddress ∧ s' = σ.pmm) ∨
      (a ≠ invalidAddress ∧ (Block.mk (a >>> pageShift) k).Aligned ∧
        (Block.mk (a >>> pageShift) k).span ⊆ σ.pmm.freeCells ∧
        s'.freeCells = σ.pmm.freeCells \ (Block.mk (a >>> pageShift) k).span))
  free : ∀ b ∈ σ.allocated, ∃ s', freeFrame (b.base <<< pageShift) σ.pmm = .ok s' ∧
    s'.freeCells = σ.pmm.freeCells ∪ b.span ∧ Disjoint σ.pmm.freeCells b.span

theorem Kept.conserved (h : Kept D U σ) : Conserved U σ := by
  obtain ⟨L, hcore, -⟩ := h.core
  have hmem : ∀ b, b ∈ σ.pmm.freeBlocks ++ σ.allocated ↔ b ∈ blocksOf L ∪ {b | b ∈ σ.allocated} :=
    fun b => by rw [List.mem_append, hcore.mem_freeBlocks]; rfl
  have hblock : ∀ k ≤ frameMaxOrder, ∀ p ∈ σ.pmm.freeList k,
      (⟨p, k⟩ : Block) ∈ blocksOf L ∪ {b | b ∈ σ.allocated} := fun k hk p hp =>
    Or.inl ⟨hk, hcore.freeList_eq hk ▸ hp⟩
  refine ⟨fun k hk => ?_, fun k hk => ?_, fun k hk p hp => ?_, ?_, ?_, fun x => ?_⟩
  · rw [hcore.freeList_eq hk]
    exact hcore.list k hk
  · rw [hcore.freeList_eq hk]
    exact (hcore.list k hk).nodup
  · exact ⟨hcore.order _ (hblock k hk p hp), hcore.tiling.aligned _ (hblock k hk p hp)⟩
  · refine hcore.freeBlocks_nodup.map_on fun b hb c hc heq => ?_
    rw [hcore.mem_freeBlocks] at hb hc
    exact (hcore.eq_of_base_mem (Or.inl hb) (Or.inl hc) (heq ▸ b.base_mem_span)).symm
  · have hnodup : (σ.pmm.freeBlocks ++ σ.allocated).Nodup := by
      refine List.nodup_append'.mpr ⟨hcore.freeBlocks_nodup, h.nodup, fun b hb hb' => ?_⟩
      exact Set.disjoint_left.mp hcore.apart (hcore.mem_freeBlocks.mp hb) hb'
    refine hnodup.pairwise_of_forall_ne fun b hb c hc hne => ?_
    exact hcore.tiling.disjoint ((hmem b).mp hb) ((hmem c).mp hc) hne
  · simp only [hcore.tiling.cover, hmem]

theorem Kept.mem_freeCells (h : Kept D U σ) {x : ℕ} :
    x ∈ σ.pmm.freeCells ↔ x ∈ U ∧ ∀ b ∈ σ.allocated, x ∉ b.span := by
  obtain ⟨L, hcore, -⟩ := h.core
  constructor
  · intro hx
    refine ⟨hcore.cover_cases.mpr (Or.inl hx), fun b hb hxb => ?_⟩
    obtain ⟨c, hc, hxc⟩ := hcore.mem_freeCells.mp hx
    have heq := hcore.tiling.eq_of_meet (Or.inl hc) (Or.inr hb) hxc hxb
    exact Set.disjoint_left.mp hcore.apart hc (heq ▸ hb)
  · rintro ⟨hxU, hnone⟩
    refine (hcore.cover_cases.mp hxU).resolve_right ?_
    rintro ⟨b, hb, hxb⟩
    exact hnone b hb hxb

theorem Kept.disjoint_allocated (h : Kept D U σ) {b c : Block} (hb : b ∈ σ.allocated)
    (hc : c ∈ σ.allocated) (hne : b ≠ c) : Disjoint b.span c.span := by
  obtain ⟨L, hcore, -⟩ := h.core
  exact hcore.tiling.disjoint (Or.inr hb) (Or.inr hc) hne

theorem Kept.served (h : Kept D U σ) : Served σ := by
  refine ⟨fun k hk => ?_, fun b hb => ?_⟩
  · rcases h.alloc hk with ⟨hrun, -⟩ | ⟨p, s', hrun, hvalid, h', -⟩
    · exact ⟨_, _, hrun, Or.inl ⟨rfl, rfl⟩⟩
    have hpfn : (p <<< pageShift) >>> pageShift = p := by
      rw [shiftLeft_page, shiftRight_page, Nat.mul_div_cancel _ (by norm_num)]
    have hnew : (⟨p, k⟩ : Block) ∈ (⟨s', ⟨p, k⟩ :: σ.allocated⟩ : Run).allocated :=
      List.mem_cons_self
    obtain ⟨L', hcore', -⟩ := h'.core
    have hnot : (⟨p, k⟩ : Block) ∉ σ.allocated := (List.nodup_cons.mp h'.nodup).1
    refine ⟨_, s', hrun, Or.inr ⟨hvalid, ?_⟩⟩
    rw [hpfn]
    refine ⟨hcore'.tiling.aligned _ (Or.inr hnew), fun x hx => ?_, ?_⟩
    · refine h.mem_freeCells.mpr ⟨hcore'.span_subset (Or.inr hnew) hx, fun b hb hxb => ?_⟩
      have hdisj := h'.disjoint_allocated hnew (List.mem_cons_of_mem _ hb)
        fun heq => hnot (heq ▸ hb)
      exact Set.disjoint_left.mp hdisj hx hxb
    · ext x
      rw [h'.mem_freeCells, Set.mem_sdiff, h.mem_freeCells, List.forall_mem_cons, and_assoc,
        and_comm (b := ∀ b ∈ σ.allocated, x ∉ b.span)]
  · obtain ⟨s', hrun, h'⟩ := h.free hb
    refine ⟨s', hrun, ?_, ?_⟩
    · ext x
      rw [h'.mem_freeCells, Set.mem_union, h.mem_freeCells]
      constructor
      · rintro ⟨hxU, hnone⟩
        refine or_iff_not_imp_right.mpr fun hxb => ⟨hxU, fun c hc hxc => ?_⟩
        by_cases hcb : c = b
        · exact hxb (hcb ▸ hxc)
        · exact hnone c ((List.mem_erase_of_ne hcb).mpr hc) hxc
      · rintro (⟨hxU, hnone⟩ | hxb)
        · exact ⟨hxU, fun c hc => hnone c (List.mem_of_mem_erase hc)⟩
        · obtain ⟨L, hcore, -⟩ := h.core
          refine ⟨hcore.span_subset (Or.inr hb) hxb, fun c hc hxc => ?_⟩
          obtain ⟨hne, hc⟩ := h.nodup.mem_erase_iff.mp hc
          exact Set.disjoint_left.mp (h.disjoint_allocated hc hb hne) hxc hxb
    · rw [Set.disjoint_left]
      exact fun x hx hxb => (h.mem_freeCells.mp hx).2 b hb hxb

/-- However the calls interleave, no frame is lost, handed out twice or taken from outside the
ranges, and no call stops the kernel. -/
theorem buddy_conservation {limit : ℕ} {boot boot' : BootAlloc} {s : Pmm} {ranges : List (ℕ × ℕ)}
    (hlimit : limit < 2 ^ 64) (hinit : initFrames limit boot Pmm.zero = .ok (boot', s))
    (hdisj : DisjointRanges ranges) (hinside : ∀ r ∈ ranges, r.2 ≤ s.mmFramesCount) :
    ∃ s₀, setupRanges ranges s = .ok s₀ ∧
      ∀ σ, Reachable s₀ σ → Conserved (cells ranges) σ ∧ Served σ := by
  obtain ⟨s₀, L, hrun, hcore, -⟩ := setupRanges_spec hlimit hinit hdisj hinside
  have hstart : Kept (fun _ => False) (cells ranges) ⟨s₀, []⟩ :=
    hcore.kept_start fun _ _ _ _ => not_false
  exact ⟨s₀, hrun, fun σ hσ => ⟨(hstart.run hσ).conserved, (hstart.run hσ).served⟩⟩

/-- A table of four frames with two ranges. -/
theorem buddy_conservation_four : ∃ boot' s s₀,
    initFrames 0x4000 ⟨0x1000, 0x1000, 0x4000⟩ Pmm.zero = .ok (boot', s) ∧
      setupRanges [(0, 2), (3, 4)] s = .ok s₀ ∧
      ∀ σ, Reachable s₀ σ → Conserved (cells [(0, 2), (3, 4)]) σ ∧ Served σ := by
  obtain ⟨boot', s, hinit⟩ : ∃ boot' s,
      initFrames 0x4000 ⟨0x1000, 0x1000, 0x4000⟩ Pmm.zero = .ok (boot', s) := ⟨_, _, rfl⟩
  have hcount : s.mmFramesCount = 4 := (initFrames_inv hinit).2.2.2.1
  have hdisj : DisjointRanges [(0, 2), (3, 4)] := by
    simp [DisjointRanges, Set.disjoint_left]
    omega
  obtain ⟨s₀, hrun, hall⟩ := buddy_conservation (by norm_num) hinit hdisj (by rw [hcount]; decide)
  exact ⟨boot', s, s₀, hinit, hrun, hall⟩

end Fynaos
