import Fynaos.Pmm.Conservation
import Mathlib.Data.List.Pairwise

/-!
# What the free lists can serve

`merge_buddy` merges as far as it can, so buddies that are not both free at the start are never both
free later (`Kept` with the predicate of that start). Two consequences. Inside each initial free
block everything coalesces again once all blocks are returned (`buddy_defragments`). And an
allocation fails only for want of an aligned free run, provided no two initial blocks are buddies
(`Kept.complete`).

The proviso is where `get_max_order` matters. It refuses a block that ends exactly at the end of the
range, so the last frame of every range is an initial block of order 0 (`last_block`), and its buddy
frame, when it is free too, stays apart from it until one of the two is allocated.
-/

namespace Fynaos

open Buddy

variable {U : Set ℕ} {σ : Run} {ranges : List (ℕ × ℕ)} {L : ℕ → List ℕ} {b : Block}

/-- `alloc_frames` fails exactly when no aligned run of frames is free. -/
def Complete (σ : Run) : Prop :=
  ∀ k ≤ frameMaxOrder, (∃ s', allocFrames k σ.pmm = .ok (invalidAddress, s')) ↔
    ¬ ∃ p, 2 ^ k ∣ p ∧ ∀ x, p ≤ x → x < p + 2 ^ k → x ∈ σ.pmm.freeCells

/-- The buddy of the last frame of a range belongs to no range. -/
def EndsApart (ranges : List (ℕ × ℕ)) : Prop :=
  ∀ r ∈ ranges, r.1 < r.2 → (r.2 - 1) ^^^ 1 ∉ cells ranges

/-! ### Completeness -/

theorem Kept.complete (h : Kept (fun _ => True) U σ) : Complete σ := by
  intro k hk
  rcases h.alloc hk with ⟨hrun, hlow⟩ | ⟨p, s', hrun, hvalid, -, ⟨b, hb, hkb⟩, -⟩
  · refine iff_of_true ⟨_, hrun⟩ ?_
    rintro ⟨p, hdvd, hfree⟩
    obtain ⟨L, hcore, hco⟩ := h.core
    obtain ⟨b, hb, hsub⟩ := hcore.free_tiling.exists_cover_of_coalesced hco (r := ⟨p, k⟩) hdvd hk
      (fun x hx => hfree x hx.1 hx.2) fun _ _ _ => trivial
    exact absurd (Block.order_le_of_subset hsub)
      (Nat.not_le_of_lt (hlow b (hcore.mem_freeBlocks.mpr hb)))
  · refine iff_of_false ?_ ?_
    · rintro ⟨t, hrun'⟩
      exact hvalid (Prod.mk.inj (Except.ok.inj (hrun.symm.trans hrun'))).1
    · rw [not_not]
      obtain ⟨L, hcore, -⟩ := h.core
      have hal := hcore.tiling.aligned b (Or.inl (hcore.mem_freeBlocks.mp hb))
      have hpow : 2 ^ k ≤ 2 ^ b.order := Nat.pow_le_pow_right (by norm_num) hkb
      exact ⟨b.base, (pow_dvd_pow 2 hkb).trans hal, fun x h1 h2 => ⟨b, hb, h1, by omega⟩⟩

theorem DisjointRanges.eq_of_mem (h : DisjointRanges ranges) {r r' : ℕ × ℕ} (hr : r ∈ ranges)
    (hr' : r' ∈ ranges) {x : ℕ} (hx : x ∈ Set.Ico r.1 r.2) (hx' : x ∈ Set.Ico r'.1 r'.2) :
    r = r' := by
  by_contra hne
  have : Std.Symm fun r r' : ℕ × ℕ => Disjoint (Set.Ico r.1 r.2) (Set.Ico r'.1 r'.2) :=
    ⟨fun _ _ hd => hd.symm⟩
  exact Set.disjoint_left.mp (List.Pairwise.forall h hr hr' hne) hx hx'

/-- No initial block is the lower one of two initial buddies. -/
theorem no_lower_buddy (hdisj : DisjointRanges ranges) (hends : EndsApart ranges) {r r' : ℕ × ℕ}
    (hr : r ∈ ranges) (hr' : r' ∈ ranges) (hb : InitialBlock r.1 r.2 b)
    (hb' : InitialBlock r'.1 r'.2 b.buddy) (hlt : b.order < frameMaxOrder)
    (hdvd : 2 ^ (b.order + 1) ∣ b.base) (hbase : b.buddy.base = b.base + 2 ^ b.order) : False := by
  have hpow : 2 ^ (b.order + 1) = 2 ^ b.order + 2 ^ b.order := by ring
  have hpos := Nat.two_pow_pos b.order
  have hmax : ¬ b.base + 2 ^ (b.order + 1) < r.2 := fun h =>
    absurd (hb.largest _ hlt hdvd h) (by omega)
  have hle := hb.le_limit
  have hbegin := hb.begin_le
  by_cases hzero : b.order = 0
  · -- the pair ends the range, or its lower half does
    have hxor : b.base ^^^ 1 = b.base + 1 := by
      have h1 : b.buddy.base = b.base ^^^ 2 ^ b.order := rfl
      rw [hzero, pow_zero] at h1 hbase
      omega
    have hlast := hends r hr (by omega)
    rw [hzero] at hmax hle hbase
    norm_num at hmax hle
    rcases Nat.eq_or_lt_of_le hle with hend | hend
    · rw [show r.2 - 1 = b.base by omega, hxor] at hlast
      have h1 := hb'.begin_le
      have h2 := hb'.le_limit
      have hpos' := Nat.two_pow_pos b.buddy.order
      exact hlast ⟨r', hr', by omega, by omega⟩
    · rw [show r.2 - 1 = b.base + 1 by omega, ← hxor, Nat.xor_assoc, Nat.xor_self,
        Nat.xor_zero] at hlast
      exact hlast ⟨r, hr, by omega, by omega⟩
  · -- a larger block ends inside its range, so its buddy was cut from the same one
    have hin := hb.lt_limit hzero
    have hsame : r = r' := by
      refine hdisj.eq_of_mem hr hr' (x := b.buddy.base) ⟨by omega, by omega⟩ ⟨hb'.begin_le, ?_⟩
      have h2 := hb'.le_limit
      have hpos' := Nat.two_pow_pos b.buddy.order
      omega
    subst hsame
    have hin' := hb'.lt_limit hzero
    rw [Block.buddy_order] at hin'
    omega

theorem initial_coalesced {S : Set Block} (hdisj : DisjointRanges ranges)
    (hends : EndsApart ranges) (hS : ∀ b ∈ S, ∃ r ∈ ranges, InitialBlock r.1 r.2 b) :
    Coalesced (fun _ => True) frameMaxOrder S := by
  intro b hb hb' hlt _
  obtain ⟨r, hr, hbr⟩ := hS b hb
  obtain ⟨r', hr', hbr'⟩ := hS _ hb'
  rcases Block.buddy_cases hbr.aligned with ⟨hdvd, hbase⟩ | ⟨hdvd, hbase⟩
  · exact no_lower_buddy hdisj hends hr hr' hbr hbr' hlt hdvd hbase
  · have hback := Block.buddy_buddy b
    exact no_lower_buddy hdisj hends hr' hr hbr' (hback.symm ▸ hbr) hlt hdvd (hback.symm ▸ hbase)

/-! ### The last frame of a range -/

section last
variable {s₀ : Pmm} {r : ℕ × ℕ}

/-- The last frame of a range is a block of its own, and so is its buddy if it is free. -/
theorem last_block (hcore : Core s₀ L ∅ (cells ranges)) (hdisj : DisjointRanges ranges)
    (hinitial : ∀ b ∈ blocksOf L, ∃ r ∈ ranges, InitialBlock r.1 r.2 b) (hr : r ∈ ranges)
    (hne : r.1 < r.2) (hmem : (r.2 - 1) ^^^ 1 ∈ cells ranges) :
    (⟨r.2 - 1, 0⟩ : Block) ∈ blocksOf L ∧ (⟨(r.2 - 1) ^^^ 1, 0⟩ : Block) ∈ blocksOf L := by
  have hlast : r.2 - 1 ∈ cells ranges := ⟨r, hr, by omega, by omega⟩
  obtain ⟨b, hb | hb, hx⟩ := (hcore.tiling.cover _).mp hlast
  swap
  · exact absurd hb (Set.notMem_empty _)
  obtain ⟨r', hr', hbr⟩ := hinitial _ hb
  obtain ⟨h1, h2⟩ := Block.mem_span.mp hx
  have hbegin := hbr.begin_le
  have hlimit := hbr.le_limit
  obtain rfl : r = r' :=
    hdisj.eq_of_mem hr hr' (x := r.2 - 1) ⟨by omega, by omega⟩ ⟨by omega, by omega⟩
  obtain rfl := hbr.eq_last hx
  refine ⟨hb, ?_⟩
  obtain ⟨c, hc | hc, hy⟩ := (hcore.tiling.cover _).mp hmem
  swap
  · exact absurd hc (Set.notMem_empty _)
  -- a larger block would contain the last frame as well
  have hzero : c.order = 0 := by
    by_contra hk
    have hsub := Block.parent_subset (a := c) (b := ⟨(r.2 - 1) ^^^ 1, 0⟩)
      (hcore.tiling.aligned c (Or.inl hc)) (one_dvd _) (Nat.pos_of_ne_zero hk) hy
      (Block.base_mem_span _)
    have hback : r.2 - 1 ∈ (Block.mk ((r.2 - 1) ^^^ 1) 0).buddy.span :=
      Block.mem_span_zero.mpr (Nat.xor_xor_cancel_right _ _).symm
    have hlast' : r.2 - 1 ∈ c.span := hsub ((Block.mem_span_parent (one_dvd _)).mpr (Or.inr hback))
    have heq := hcore.tiling.eq_of_meet (Or.inl hb) (Or.inl hc) hx hlast'
    exact hk (congrArg Block.order heq).symm
  obtain ⟨q, j⟩ := c
  obtain rfl : j = 0 := hzero
  rw [Block.mem_span_zero.mp hy]
  exact hc

end last

/-! ### Draining the larger blocks -/

theorem Kept.length_allocated_le {D : Block → Prop} {n : ℕ} (h : Kept D U σ)
    (hU : ∀ x ∈ U, x < n) : σ.allocated.length ≤ n := by
  obtain ⟨L, hcore, -⟩ := h.core
  have hnodup : (σ.allocated.map Block.base).Nodup := h.nodup.map_on fun b hb c hc heq =>
    (hcore.eq_of_base_mem (Or.inr hb) (Or.inr hc) (heq ▸ b.base_mem_span)).symm
  have hsub : σ.allocated.map Block.base ⊆ List.range n := fun x hx => by
    obtain ⟨b, hb, rfl⟩ := List.mem_map.mp hx
    exact List.mem_range.mpr (hU _ (hcore.base_mem (Or.inr hb)))
  have := (hnodup.subperm hsub).length_le
  rwa [List.length_map, List.length_range] at this

/-- As long as two free buddy frames stand apart, a complete allocator would serve order 1 from
other blocks for ever. -/
theorem drain {s₀ : Pmm} {p : ℕ} (hstart : Kept (fun _ => False) U ⟨s₀, []⟩) (heven : 2 ∣ p)
    (hp : ⟨p, 0⟩ ∈ s₀.freeBlocks) (hp' : ⟨p + 1, 0⟩ ∈ s₀.freeBlocks)
    (hall : ∀ σ, Reachable s₀ σ → Complete σ) (n : ℕ) :
    ∃ σ, Reachable s₀ σ ∧ σ.allocated.length = n ∧ ⟨p, 0⟩ ∈ σ.pmm.freeBlocks ∧
      ⟨p + 1, 0⟩ ∈ σ.pmm.freeBlocks := by
  induction n with
  | zero => exact ⟨⟨s₀, []⟩, Relation.ReflTransGen.refl, rfl, hp, hp'⟩
  | succ n ih =>
    obtain ⟨σ, hσ, hlen, hq, hq'⟩ := ih
    have hfree : ∃ q, 2 ^ 1 ∣ q ∧ ∀ x, q ≤ x → x < q + 2 ^ 1 → x ∈ σ.pmm.freeCells := by
      refine ⟨p, heven, fun x h1 h2 => ?_⟩
      rcases Nat.eq_or_lt_of_le h1 with rfl | h1
      · exact ⟨_, hq, Block.base_mem_span _⟩
      · exact ⟨_, hq', Block.mem_span_zero.mpr (by omega)⟩
    rcases (hstart.run hσ).alloc (k := 1) (by norm_num) with
      ⟨hrun, -⟩ | ⟨b, s', hrun, hvalid, -, -, hkeep⟩
    · exact absurd hfree ((hall σ hσ 1 (by norm_num)).mp ⟨_, hrun⟩)
    · have hstep := Step.alloc (by norm_num) hrun
      rw [if_neg hvalid] at hstep
      exact ⟨_, hσ.tail hstep, by simp [hlen], hkeep _ hq Nat.zero_lt_one,
        hkeep _ hq' Nat.zero_lt_one⟩

/-- Allocation is complete in every run exactly when the buddy of each range's last frame is outside
the ranges. -/
theorem complete_iff_endsApart {limit : ℕ} {boot boot' : BootAlloc} {s : Pmm}
    {ranges : List (ℕ × ℕ)} (hlimit : limit < 2 ^ 64)
    (hinit : initFrames limit boot Pmm.zero = .ok (boot', s)) (hdisj : DisjointRanges ranges)
    (hinside : ∀ r ∈ ranges, r.2 ≤ s.mmFramesCount) :
    ∃ s₀, setupRanges ranges s = .ok s₀ ∧
      ((∀ σ, Reachable s₀ σ → Complete σ) ↔ EndsApart ranges) := by
  obtain ⟨s₀, L, hrun, hcore, hinitial⟩ := setupRanges_spec hlimit hinit hdisj hinside
  refine ⟨s₀, hrun, fun hall r hr hne hmem => ?_, fun hends σ hσ => ?_⟩
  · have hstart : Kept (fun _ => False) (cells ranges) ⟨s₀, []⟩ :=
      hcore.kept_start fun _ _ _ _ => not_false
    obtain ⟨hlast, hbuddy⟩ := last_block hcore hdisj hinitial hr hne hmem
    rw [← hcore.mem_freeBlocks] at hlast hbuddy
    have hinside' : ∀ x ∈ cells ranges, x < s₀.mmFramesCount := hcore.inside
    -- one run longer than the table is long
    have hlong : ∀ p, 2 ∣ p → ⟨p, 0⟩ ∈ s₀.freeBlocks → ⟨p + 1, 0⟩ ∈ s₀.freeBlocks → False :=
      fun p heven hp hp' => by
        obtain ⟨σ, hσ, hlen, -⟩ := drain hstart heven hp hp' hall (s₀.mmFramesCount + 1)
        have := (hstart.run hσ).length_allocated_le hinside'
        omega
    rcases Block.buddy_cases (b := ⟨r.2 - 1, 0⟩) (one_dvd _) with ⟨hdvd, hbase⟩ | ⟨hdvd, hbase⟩
    · have heq : (r.2 - 1) ^^^ 1 = r.2 - 1 + 1 := hbase
      exact hlong _ hdvd hlast (heq ▸ hbuddy)
    · have heq : r.2 - 1 = ((r.2 - 1) ^^^ 1) + 1 := hbase
      exact hlong _ hdvd hbuddy (heq ▸ hlast)
  · have hstart : Kept (fun _ => True) (cells ranges) ⟨s₀, []⟩ :=
      hcore.kept_start (initial_coalesced hdisj hends hinitial)
    exact (hstart.run hσ).complete

/-- Three frames, in blocks of two and one. -/
theorem complete_iff_endsApart_three : ∃ boot' s s₀,
    initFrames 0x4000 ⟨0x1000, 0x1000, 0x4000⟩ Pmm.zero = .ok (boot', s) ∧
      setupRanges [(0, 3)] s = .ok s₀ ∧ ∀ σ, Reachable s₀ σ → Complete σ := by
  obtain ⟨boot', s, hinit⟩ : ∃ boot' s,
      initFrames 0x4000 ⟨0x1000, 0x1000, 0x4000⟩ Pmm.zero = .ok (boot', s) := ⟨_, _, rfl⟩
  have hcount : s.mmFramesCount = 4 := (initFrames_inv hinit).2.2.2.1
  have hdisj : DisjointRanges [(0, 3)] := List.pairwise_singleton _ _
  obtain ⟨s₀, hrun, hiff⟩ := complete_iff_endsApart (by norm_num) hinit hdisj
    (by rw [hcount]; decide)
  refine ⟨boot', s, s₀, hinit, hrun, hiff.mpr fun r hr _ => ?_⟩
  obtain rfl := List.mem_singleton.mp hr
  rintro ⟨r', hr', hlow, hhigh⟩
  obtain rfl := List.mem_singleton.mp hr'
  exact absurd hhigh (by decide)

/-- A range of two frames: both are free, and an allocation of order 1 fails. -/
theorem two_frames_not_complete : ∃ boot' s s₀,
    initFrames 0x4000 ⟨0x1000, 0x1000, 0x4000⟩ Pmm.zero = .ok (boot', s) ∧
      setupRanges [(0, 2)] s = .ok s₀ ∧ allocFrames 1 s₀ = .ok (invalidAddress, s₀) ∧
      0 ∈ s₀.freeCells ∧ 1 ∈ s₀.freeCells ∧ ¬ Complete ⟨s₀, []⟩ := by
  obtain ⟨boot', s, hinit⟩ : ∃ boot' s,
      initFrames 0x4000 ⟨0x1000, 0x1000, 0x4000⟩ Pmm.zero = .ok (boot', s) := ⟨_, _, rfl⟩
  have hcount : s.mmFramesCount = 4 := (initFrames_inv hinit).2.2.2.1
  have hdisj : DisjointRanges [(0, 2)] := List.pairwise_singleton _ _
  obtain ⟨s₀, L, hrun, hcore, hinitial⟩ := setupRanges_spec (by norm_num) hinit hdisj
    (by rw [hcount]; decide)
  obtain ⟨hlast, hbuddy⟩ := last_block (r := (0, 2)) hcore hdisj hinitial List.mem_cons_self
    (by norm_num) ⟨(0, 2), List.mem_cons_self, by decide⟩
  have h0 : 0 ∈ s₀.freeCells := hcore.mem_freeCells.mpr ⟨_, hbuddy, Block.base_mem_span _⟩
  have h1 : 1 ∈ s₀.freeCells := hcore.mem_freeCells.mpr ⟨_, hlast, Block.base_mem_span _⟩
  have hstart : Kept (fun _ => False) (cells [(0, 2)]) ⟨s₀, []⟩ :=
    hcore.kept_start fun _ _ _ _ => not_false
  -- a block of order 1 does not end in front of the end of the range
  have halloc : allocFrames 1 s₀ = .ok (invalidAddress, s₀) := by
    refine ((hstart.alloc (by norm_num)).resolve_right ?_).1
    rintro ⟨-, -, -, -, -, ⟨b, hb, hle⟩, -⟩
    obtain ⟨r, hr, hbr⟩ := hinitial b (hcore.mem_freeBlocks.mp hb)
    obtain rfl := List.mem_singleton.mp hr
    have hlt := hbr.lt_limit (by omega)
    have := Nat.pow_le_pow_right (n := 2) (by norm_num) hle
    omega
  refine ⟨boot', s, s₀, hinit, hrun, halloc, h0, h1, fun h => ?_⟩
  refine (h 1 (by norm_num)).mp ⟨s₀, halloc⟩ ⟨0, by norm_num, fun x _ hx => ?_⟩
  rcases (show x = 0 ∨ x = 1 by omega) with rfl | rfl
  · exact h0
  · exact h1

/-! ### Defragmentation -/

def Succeeds (k : ℕ) (s : Pmm) : Prop :=
  ∃ a s', allocFrames k s = .ok (a, s') ∧ a ≠ invalidAddress

theorem Kept.succeeds_iff {D : Block → Prop} (h : Kept D U σ) {k : ℕ} (hk : k ≤ frameMaxOrder) :
    Succeeds k σ.pmm ↔ ∃ b ∈ σ.pmm.freeBlocks, k ≤ b.order := by
  rcases h.alloc hk with ⟨hrun, hlow⟩ | ⟨p, s', hrun, hvalid, -, hex, -⟩
  · refine iff_of_false ?_ ?_
    · rintro ⟨a, t, hrun', hne⟩
      exact hne (Prod.mk.inj (Except.ok.inj (hrun'.symm.trans hrun))).1
    · rintro ⟨b, hb, hkb⟩
      exact absurd (hlow b hb) (Nat.not_lt_of_le hkb)
  · exact iff_of_true ⟨_, _, hrun, hvalid⟩ hex

/-- Once everything is returned, the initial free blocks are whole again. -/
theorem buddy_defragments {limit : ℕ} {boot boot' : BootAlloc} {s : Pmm} {ranges : List (ℕ × ℕ)}
    (hlimit : limit < 2 ^ 64) (hinit : initFrames limit boot Pmm.zero = .ok (boot', s))
    (hdisj : DisjointRanges ranges) (hinside : ∀ r ∈ ranges, r.2 ≤ s.mmFramesCount) :
    ∃ s₀, setupRanges ranges s = .ok s₀ ∧ ∀ s₁, Reachable s₀ ⟨s₁, []⟩ →
      s₁.freeCells = s₀.freeCells ∧
      (∀ b ∈ s₀.freeBlocks, ∃ c ∈ s₁.freeBlocks, b.span ⊆ c.span) ∧
      ∀ k ≤ frameMaxOrder, Succeeds k s₀ → Succeeds k s₁ := by
  obtain ⟨s₀, L, hrun, hcore, -⟩ := setupRanges_spec hlimit hinit hdisj hinside
  refine ⟨s₀, hrun, fun s₁ hs₁ => ?_⟩
  -- no two free buddies lie inside one initial block, at any time
  have hstart : Kept (fun b => ∃ c ∈ blocksOf L, b.span ⊆ c.span) (cells ranges) ⟨s₀, []⟩ := by
    refine hcore.kept_start fun b hb hb' _ ⟨c, hc, hsub⟩ => ?_
    have hal := hcore.tiling.aligned b (Or.inl hb)
    have hmem : b.base ∈ c.span := hsub (Block.span_subset_parent hal b.base_mem_span)
    obtain rfl := hcore.eq_of_base_mem (Or.inl hc) (Or.inl hb) hmem
    have := Block.order_le_of_subset hsub
    rw [Block.parent_order] at this
    omega
  have hend := hstart.run hs₁
  have hcells : s₁.freeCells = s₀.freeCells := by
    ext x
    rw [hend.mem_freeCells, hstart.mem_freeCells]
  have hcover : ∀ b ∈ s₀.freeBlocks, ∃ c ∈ s₁.freeBlocks, b.span ⊆ c.span := fun b hb => by
    obtain ⟨L₁, hcore₁, hco⟩ := hend.core
    have hb' := hcore.mem_freeBlocks.mp hb
    obtain ⟨c, hc, hsub⟩ := hcore₁.free_tiling.exists_cover_of_coalesced hco
      (hcore.tiling.aligned b (Or.inl hb')) (hcore.le b (Or.inl hb'))
      (fun x hx => hcells ▸ (⟨b, hb, hx⟩ : x ∈ s₀.freeCells)) fun _ _ hp => ⟨b, hb', hp⟩
    exact ⟨c, hcore₁.mem_freeBlocks.mpr hc, hsub⟩
  refine ⟨hcells, hcover, fun k hk hsucc => ?_⟩
  obtain ⟨b, hb, hkb⟩ := (hstart.succeeds_iff hk).mp hsucc
  obtain ⟨c, hc, hsub⟩ := hcover b hb
  exact (hend.succeeds_iff hk).mpr ⟨c, hc, hkb.trans (Block.order_le_of_subset hsub)⟩

/-- A table of four frames handed over in two ranges. -/
theorem buddy_defragments_four : ∃ boot' s s₀,
    initFrames 0x4000 ⟨0x1000, 0x1000, 0x4000⟩ Pmm.zero = .ok (boot', s) ∧
      setupRanges [(0, 3), (3, 4)] s = .ok s₀ ∧ ∀ s₁, Reachable s₀ ⟨s₁, []⟩ →
        s₁.freeCells = s₀.freeCells ∧
        (∀ b ∈ s₀.freeBlocks, ∃ c ∈ s₁.freeBlocks, b.span ⊆ c.span) ∧
        ∀ k ≤ frameMaxOrder, Succeeds k s₀ → Succeeds k s₁ := by
  obtain ⟨boot', s, hinit⟩ : ∃ boot' s,
      initFrames 0x4000 ⟨0x1000, 0x1000, 0x4000⟩ Pmm.zero = .ok (boot', s) := ⟨_, _, rfl⟩
  have hcount : s.mmFramesCount = 4 := (initFrames_inv hinit).2.2.2.1
  have hdisj : DisjointRanges [(0, 3), (3, 4)] := by
    simp [DisjointRanges, Set.disjoint_left]
    omega
  obtain ⟨s₀, hrun, hall⟩ := buddy_defragments (by norm_num) hinit hdisj (by rw [hcount]; decide)
  exact ⟨boot', s, s₀, hinit, hrun, hall⟩

end Fynaos
