import Fynaos.Pmm.Ops

/-!
# Building the free lists

`init_frames`, `unreserve_frame_region` and `init_buddy_allocator`. After `init_frames` the table is
accessible and every record is reserved with order `-1` (`initFrames_inv`); handing over disjoint
page ranges leaves the free blocks tiling exactly those ranges (`handRanges_spec`).

`InitialBlock begin limit b` is what is known of one block cut from a range: it is the largest the
loop test lets through. The test compares with `>=`, so only a block of order 0 may end at the end
of the range.
-/

namespace Fynaos

open Buddy NextList

variable {s s' : Pmm} {L : ℕ → List ℕ} {A : Set Block} {U : Set ℕ} {b : Block}

/-! ### Loops that assign to records -/

theorem modify_inv {i : ℕ} {f : Frame → Frame} (h : s.modify i f = .ok s') :
    i < s.mmFramesCount ∧ Canonical (s.frameAddr i) ∧
      s' = { s with mmFrames := Function.update s.mmFrames i (f (s.mmFrames i)) } := by
  unfold Pmm.modify Pmm.access at h
  split_ifs at h with h1 h2
  · cases h
  · cases h
    exact ⟨by omega, h2, rfl⟩
  · cases h

/-- The records of `l` went through `f`, everything else is as before. -/
structure Mapped (f : Frame → Frame) (l : List ℕ) (s s' : Pmm) : Prop where
  same : SameTable s s'
  region : s'.mmFreeRegion = s.mmFreeRegion
  mem : ∀ x ∈ l, s'.mmFrames x = f (s.mmFrames x)
  notMem : ∀ x, x ∉ l → s'.mmFrames x = s.mmFrames x

theorem Mapped.step {f : Frame → Frame} {i : ℕ} {l : List ℕ} (hi : i ∉ l)
    (h : Mapped f l { s with mmFrames := Function.update s.mmFrames i (f (s.mmFrames i)) } s') :
    Mapped f (i :: l) s s' := by
  refine ⟨h.same, h.region, fun x hx => ?_, fun x hx => ?_⟩
  · rcases List.mem_cons.mp hx with rfl | hx
    · exact (h.notMem x hi).trans (Function.update_self _ _ _)
    · have hne : x ≠ i := fun heq => hi (heq ▸ hx)
      exact (h.mem x hx).trans (congrArg f (Function.update_of_ne hne _ _))
  · rw [List.mem_cons, not_or] at hx
    exact (h.notMem x hx.2).trans (Function.update_of_ne hx.1 _ _)

theorem foldlM_modify_inv {f : Frame → Frame} {l : List ℕ} (hl : l.Nodup)
    (h : l.foldlM (fun s i => s.modify i f) s = .ok s') :
    Mapped f l s s' ∧ ∀ i ∈ l, i < s.mmFramesCount ∧ Canonical (s.frameAddr i) := by
  induction l generalizing s with
  | nil =>
    cases h
    exact ⟨⟨⟨rfl, rfl⟩, rfl, by simp, by simp⟩, by simp⟩
  | cons i l ih =>
    obtain ⟨hi, hl⟩ := List.nodup_cons.mp hl
    rw [List.foldlM_cons] at h
    cases hmod : s.modify i f with
    | error e =>
      rw [hmod] at h
      cases h
    | ok s₁ =>
      rw [hmod] at h
      obtain ⟨hlt, hcan, rfl⟩ := modify_inv hmod
      obtain ⟨hmap, hacc⟩ := ih hl h
      refine ⟨hmap.step hi, fun j hj => ?_⟩
      rcases List.mem_cons.mp hj with rfl | hj
      · exact ⟨hlt, hcan⟩
      · exact hacc j hj

theorem foldlM_modify_ok {f : Frame → Frame} {l : List ℕ} (hacc : Accessible s)
    (hlt : ∀ i ∈ l, i < s.mmFramesCount) :
    ∃ s', l.foldlM (fun s i => s.modify i f) s = .ok s' := by
  induction l generalizing s with
  | nil => exact ⟨s, rfl⟩
  | cons i l ih =>
    rw [List.foldlM_cons, hacc.modify_ok (hlt i List.mem_cons_self)]
    exact ih hacc fun j hj => hlt j (List.mem_cons_of_mem _ hj)

theorem foldlM_modify_error {f : Frame → Frame} {l : List ℕ} {e : Halt}
    (hlt : ∀ i ∈ l, i < s.mmFramesCount)
    (h : l.foldlM (fun s i => s.modify i f) s = .error e) : ∃ address, e = .fault address := by
  induction l generalizing s with
  | nil => cases h
  | cons i l ih =>
    rw [List.foldlM_cons] at h
    cases hmod : s.modify i f with
    | error e' =>
      have hi := hlt i List.mem_cons_self
      rw [hmod] at h
      cases h
      unfold Pmm.modify Pmm.access at hmod
      rw [if_neg (by omega)] at hmod
      split_ifs at hmod with hcan
      · cases hmod
      · cases hmod
        exact ⟨_, rfl⟩
    | ok s₁ =>
      rw [hmod] at h
      have hcount : s₁.mmFramesCount = s.mmFramesCount := by
        obtain ⟨-, -, rfl⟩ := modify_inv hmod
        rfl
      exact ih (fun j hj => hcount ▸ hlt j (List.mem_cons_of_mem _ hj)) h

/-! ### init_frames -/

/-- The record `init_frames` writes everywhere. -/
def freshFrame : Frame := ⟨none, frameReserved, -1⟩

/-- What a return of `init_frames` says: the guard of the boot allocator held, and the whole table
is accessible and reset. -/
theorem initFrames_inv {limit : ℕ} {boot boot' : BootAlloc}
    (h : initFrames limit boot s = .ok (boot', s')) :
    wrap (alignUp boot.bootTail 16 + wrap (limit / 4096 * 16)) < boot.bootLimit ∧
      boot' = { boot with
        bootTail := wrap (alignUp boot.bootTail 16 + wrap (limit / 4096 * 16)) } ∧
      s'.mmFramesAddr = wrap (alignUp boot.bootTail 16 + kernelDirectBase) ∧
      s'.mmFramesCount = limit / 4096 ∧ s'.mmFreeRegion = s.mmFreeRegion ∧ Accessible s' ∧
      ∀ i < s'.mmFramesCount, s'.mmFrames i = freshFrame := by
  unfold initFrames allocBootMemory at h
  simp only [shiftRight_page, bind, Except.bind] at h
  by_cases hguard : boot.bootLimit ≤ wrap (alignUp boot.bootTail 16 + wrap (limit / 4096 * 16))
  · simp only [sizeofFrame, if_pos hguard] at h
    cases h
  · simp only [sizeofFrame, if_neg hguard] at h
    cases hloop : (List.range (limit / 4096)).foldlM
        (fun s i => s.modify i fun _ => ⟨none, frameReserved, -1⟩)
        { s with mmFramesCount := limit / 4096,
                 mmFramesAddr := wrap (alignUp boot.bootTail 16 + kernelDirectBase) } with
    | error e =>
      rw [hloop] at h
      cases h
    | ok s₁ =>
      rw [hloop] at h
      cases h
      obtain ⟨hmap, hacc⟩ := foldlM_modify_inv List.nodup_range hloop
      refine ⟨by omega, rfl, hmap.same.1, hmap.same.2, hmap.region, fun i hi => ?_, fun i hi => ?_⟩
      · rw [hmap.same.2] at hi
        rw [hmap.same.frameAddr]
        exact (hacc i (List.mem_range.mpr hi)).2
      · rw [hmap.same.2] at hi
        exact hmap.mem i (List.mem_range.mpr hi)

theorem initFrames_ok {limit : ℕ} {boot : BootAlloc}
    (hfit : alignUp boot.bootTail 16 + limit / 4096 * 16 < boot.bootLimit)
    (h48 : alignUp boot.bootTail 16 + limit / 4096 * 16 ≤ 2 ^ 48) :
    ∃ boot' s', initFrames limit boot s = .ok (boot', s') := by
  have hsize : wrap (limit / 4096 * 16) = limit / 4096 * 16 := wrap_of_lt (by omega)
  have hwrap : wrap (alignUp boot.bootTail 16 + limit / 4096 * 16) =
      alignUp boot.bootTail 16 + limit / 4096 * 16 := wrap_of_lt (by omega)
  have hacc : Accessible
      { s with mmFramesCount := limit / 4096,
               mmFramesAddr := wrap (alignUp boot.bootTail 16 + kernelDirectBase) } := by
    intro i hi
    simp only at hi
    simp only [Canonical, Pmm.frameAddr, wrap, kernelDirectBase, sizeofFrame]
    omega
  obtain ⟨s', hloop⟩ := foldlM_modify_ok (f := fun _ => freshFrame) hacc
    (l := List.range (limit / 4096)) fun i hi => List.mem_range.mp hi
  refine ⟨{ boot with bootTail := alignUp boot.bootTail 16 + limit / 4096 * 16 }, s', ?_⟩
  unfold initFrames allocBootMemory
  simp only [shiftRight_page, sizeofFrame, hsize, hwrap, if_neg (Nat.not_le_of_lt hfit), bind,
    Except.bind]
  unfold freshFrame at hloop
  rw [hloop]
  rfl

theorem initFrames_error {limit : ℕ} {boot : BootAlloc} {e : Halt}
    (h : initFrames limit boot s = .error e) :
    (∃ msg, e = .panic msg) ∨ ∃ address, e = .fault address := by
  unfold initFrames allocBootMemory at h
  simp only [shiftRight_page, bind, Except.bind] at h
  by_cases hguard : boot.bootLimit ≤ wrap (alignUp boot.bootTail 16 + wrap (limit / 4096 * 16))
  · simp only [sizeofFrame, if_pos hguard] at h
    cases h
    exact Or.inl ⟨_, rfl⟩
  · simp only [sizeofFrame, if_neg hguard] at h
    cases hloop : (List.range (limit / 4096)).foldlM
        (fun s i => s.modify i fun _ => ⟨none, frameReserved, -1⟩)
        { s with mmFramesCount := limit / 4096,
                 mmFramesAddr := wrap (alignUp boot.bootTail 16 + kernelDirectBase) } with
    | error e' =>
      rw [hloop] at h
      cases h
      exact Or.inr (foldlM_modify_error (fun i hi => List.mem_range.mp hi) hloop)
    | ok s₁ =>
      rw [hloop] at h
      cases h

/-! ### unreserve_frame_region -/

def unreserve (f : Frame) : Frame := { f with flags := f.flags &&& ~~~frameReserved }

theorem unreserveFrameRegion_spec (hacc : Accessible s) (begin_ : ℕ) {limit : ℕ}
    (hlimit : limit ≤ s.mmFramesCount) :
    ∃ s', unreserveFrameRegion begin_ limit s = .ok s' ∧
      Mapped unreserve (List.range' begin_ (limit - begin_)) s s' := by
  have hlt : ∀ i ∈ List.range' begin_ (limit - begin_), i < s.mmFramesCount := fun i hi => by
    rw [List.mem_range'_1] at hi
    omega
  obtain ⟨s', hrun⟩ := foldlM_modify_ok (f := unreserve) hacc hlt
  exact ⟨s', hrun, (foldlM_modify_inv List.nodup_range' hrun).1⟩

/-! ### get_max_order -/

/-- The loop takes the largest order that passes both tests, and order 0 when none does. -/
theorem getMaxOrderFrom_spec (begin_ limit n : ℕ) :
    getMaxOrderFrom begin_ limit n ≤ n ∧ 2 ^ getMaxOrderFrom begin_ limit n ∣ begin_ ∧
      (getMaxOrderFrom begin_ limit n ≠ 0 →
        wrap (begin_ + 2 ^ getMaxOrderFrom begin_ limit n) < limit) ∧
      ∀ j ≤ n, 2 ^ j ∣ begin_ → wrap (begin_ + 2 ^ j) < limit →
        j ≤ getMaxOrderFrom begin_ limit n := by
  induction n with
  | zero => simp [getMaxOrderFrom]
  | succ n ih =>
    obtain ⟨h1, h2, h3, h4⟩ := ih
    rw [getMaxOrderFrom, Nat.and_two_pow_sub_one_eq_mod]
    split_ifs with hmod hlim
    · refine ⟨by omega, h2, h3, fun j hj hdvd hlt => ?_⟩
      rcases Nat.lt_or_ge j (n + 1) with hjn | hjn
      · exact h4 j (by omega) hdvd hlt
      · obtain rfl : j = n + 1 := by omega
        exact absurd (Nat.mod_eq_zero_of_dvd hdvd) hmod
    · refine ⟨by omega, h2, h3, fun j hj hdvd hlt => ?_⟩
      rcases Nat.lt_or_ge j (n + 1) with hjn | hjn
      · exact h4 j (by omega) hdvd hlt
      · obtain rfl : j = n + 1 := by omega
        omega
    · exact ⟨le_refl _, Nat.dvd_of_mod_eq_zero (not_not.mp hmod), fun _ => by omega,
        fun j hj _ _ => hj⟩

/-- A block cut from `[begin, limit)` by `init_buddy_allocator`. -/
structure InitialBlock (begin_ limit : ℕ) (b : Block) : Prop where
  aligned : b.Aligned
  le : b.order ≤ frameMaxOrder
  begin_le : begin_ ≤ b.base
  le_limit : b.base + 2 ^ b.order ≤ limit
  lt_limit : b.order ≠ 0 → b.base + 2 ^ b.order < limit
  largest : ∀ j ≤ frameMaxOrder, 2 ^ j ∣ b.base → b.base + 2 ^ j < limit → j ≤ b.order

theorem InitialBlock.eq_last {begin_ limit : ℕ} {b : Block} (h : InitialBlock begin_ limit b)
    (hmem : limit - 1 ∈ b.span) : b = ⟨limit - 1, 0⟩ := by
  obtain ⟨h1, h2⟩ := Block.mem_span.mp hmem
  have hend := h.le_limit
  have hpos := Nat.two_pow_pos b.order
  have hzero : b.order = 0 := by
    by_contra hne
    have hlt := h.lt_limit hne
    omega
  rw [hzero, pow_zero] at h2
  exact Block.eq_of_span_eq_order (show b.base = limit - 1 by omega) hzero

theorem getMaxOrder_spec {begin_ limit : ℕ} (hlt : begin_ < limit) (hlimit : limit ≤ 2 ^ 52) :
    InitialBlock begin_ limit ⟨begin_, getMaxOrder begin_ limit⟩ := by
  have hwrap : ∀ j ≤ frameMaxOrder, wrap (begin_ + 2 ^ j) = begin_ + 2 ^ j := fun j hj => by
    have : 2 ^ j ≤ 2 ^ 11 := Nat.pow_le_pow_right (by norm_num) hj
    exact wrap_of_lt (by omega)
  obtain ⟨h1, h2, h3, h4⟩ := getMaxOrderFrom_spec begin_ limit frameMaxOrder
  rw [hwrap _ h1] at h3
  refine ⟨h2, h1, le_refl _, ?_, h3, fun j hj hdvd hend => h4 j hj hdvd ?_⟩
  · rcases Nat.eq_zero_or_pos (getMaxOrder begin_ limit) with hzero | hpos
    · simp only [hzero, pow_zero]
      omega
    · exact le_of_lt (h3 (by unfold getMaxOrder at hpos; omega))
  · rw [hwrap j hj]
    exact hend

/-! ### init_buddy_allocator -/

/-- The state behind one round: the block's record and the head of its list. -/
def withInitial (b : Block) (s : Pmm) : Pmm :=
  { s with
    mmFrames := Function.update s.mmFrames b.base
      ⟨s.mmFreeRegion b.order, (s.mmFrames b.base).flags, b.order⟩
    mmFreeRegion := Function.update s.mmFreeRegion b.order (some b.base) }

theorem putInitial_eq (hacc : Accessible s) (hlt : b.base < s.mmFramesCount) :
    putInitial b.base b.order s = .ok (withInitial b s) := by
  unfold putInitial
  simp only [bind, Except.bind, hacc.modify_ok hlt, hacc.modify_with hlt, Function.update_idem,
    Function.update_self, Pmm.setRegion]
  rfl

theorem putInitial_spec (h : Core s L A U) (hal : b.Aligned) (hle : b.order ≤ frameMaxOrder)
    (hfree : Disjoint U b.span) (hlt : ∀ x ∈ b.span, x < s.mmFramesCount)
    (hclear : Clear (s.mmFrames b.base)) :
    ∃ s', putInitial b.base b.order s = .ok s' ∧
      Core s' (Function.update L b.order (b.base :: L b.order)) A (U ∪ b.span) ∧
      blocksOf (Function.update L b.order (b.base :: L b.order)) = insert b (blocksOf L) ∧
      SameTable s s' ∧ (∀ x, (s'.mmFrames x).flags = (s.mmFrames x).flags) := by
  have hblt := hlt _ b.base_mem_span
  have hadd : blocksOf (Function.update L b.order (b.base :: L b.order)) =
      insert b (blocksOf L) := blocksOf_push _ _ hle
  -- the head frame was in no block before
  have hbU : b.base ∉ U := fun hmem => Set.disjoint_left.mp hfree hmem b.base_mem_span
  have hne : ∀ c ∈ blocksOf L ∪ A, c.base ≠ b.base := fun c hc heq => hbU (heq ▸ h.base_mem hc)
  have hnot : b ∉ blocksOf L ∪ A := fun hmem => hne b hmem rfl
  have hfields : ∀ x, x ≠ b.base → Function.update s.mmFrames b.base
      ⟨s.mmFreeRegion b.order, (s.mmFrames b.base).flags, b.order⟩ x = s.mmFrames x :=
    fun x hx => Function.update_of_ne hx _ _
  rw [putInitial_eq h.accessible hblt, withInitial]
  refine ⟨_, rfl, ?_, hadd, ⟨rfl, rfl⟩, fun x => ?_⟩
  · have hunion : blocksOf (Function.update L b.order (b.base :: L b.order)) ∪ A =
        blocksOf L ∪ A ∪ {b} := by
      rw [hadd, Set.insert_union, Set.union_singleton]
    refine
      { access := h.access, count := h.count, inside := fun x hx => ?_,
        outside := fun x hx hxU => ?_, list := fun j hj => ?_, order := fun c hc => ?_,
        le := fun c hc => ?_, clear := fun c hc => ?_, apart := ?_, tiling := ?_ }
    · rcases hx with hx | hx
      · exact h.inside x hx
      · exact hlt x hx
    · have hxb : x ≠ b.base := fun heq => hxU (Or.inr (heq ▸ b.base_mem_span))
      simp only [hfields x hxb]
      exact h.outside x hx fun hmem => hxU (Or.inl hmem)
    · by_cases hjb : j = b.order
      · subst hjb
        simp only [Function.update_self]
        refine (h.list _ hj).push ?_ fun q hq => ?_
        · simp [Pmm.next]
        · exact Pmm.next_of_ne _ (hne ⟨q, b.order⟩ (Or.inl ⟨hj, hq⟩))
      · simp only [Function.update_of_ne hjb]
        refine (h.list j hj).congr fun q hq => ?_
        exact Pmm.next_of_ne _ (hne ⟨q, j⟩ (Or.inl ⟨hj, hq⟩))
    · rw [hunion] at hc
      rcases hc with hc | rfl
      · simp only [hfields _ (hne c hc)]
        exact h.order c hc
      · simp only [Function.update_self]
    · rw [hunion] at hc
      rcases hc with hc | rfl
      · exact h.le c hc
      · exact hle
    · rw [hadd] at hc
      rcases hc with rfl | hc
      · simp only [Function.update_self]
        exact hclear
      · simp only [hfields _ (hne c (Or.inl hc))]
        exact h.clear c hc
    · rw [hadd, Set.disjoint_insert_left]
      exact ⟨fun hmem => hnot (Or.inr hmem), h.apart⟩
    · rw [hunion]
      exact h.tiling.union (Tiling.single hal) hfree
  · by_cases hx : x = b.base
    · subst hx
      simp only [Function.update_self]
    · simp only [hfields x hx]

theorem initBuddyLoop_spec {fuel begin_ limit : ℕ} (h : Core s L A U)
    (hlimit : limit ≤ s.mmFramesCount) (hfuel : limit - begin_ ≤ fuel)
    (hfree : Disjoint U (Set.Ico begin_ limit))
    (hclear : ∀ x ∈ Set.Ico begin_ limit, Clear (s.mmFrames x)) :
    ∃ s' L' T, initBuddyLoop fuel begin_ limit s = .ok s' ∧
      Core s' L' A (U ∪ Set.Ico begin_ limit) ∧ blocksOf L' = T ∪ blocksOf L ∧
      (∀ b ∈ T, InitialBlock begin_ limit b) ∧ SameTable s s' ∧
      ∀ x, (s'.mmFrames x).flags = (s.mmFrames x).flags := by
  induction fuel generalizing s L U begin_ with
  | zero =>
    rw [initBuddyLoop, if_neg (by omega)]
    refine ⟨s, L, ∅, rfl, ?_, (Set.empty_union _).symm, by simp, ⟨rfl, rfl⟩, fun _ => rfl⟩
    rw [Set.Ico_eq_empty (by omega), Set.union_empty]
    exact h
  | succ fuel ih =>
    rw [initBuddyLoop]
    by_cases hlt : begin_ < limit
    swap
    · rw [if_neg hlt]
      refine ⟨s, L, ∅, rfl, ?_, (Set.empty_union _).symm, by simp, ⟨rfl, rfl⟩, fun _ => rfl⟩
      rw [Set.Ico_eq_empty hlt, Set.union_empty]
      exact h
    have hcount := h.count
    have hinit := getMaxOrder_spec hlt (by omega)
    rw [if_pos hlt]
    simp only [bind, Except.bind]
    generalize getMaxOrder begin_ limit = k at hinit
    obtain ⟨hal, hle, -, hend, hltl, hmax⟩ := hinit
    simp only at hend hltl hmax hle
    have hspan : ∀ x, x ∈ (Block.mk begin_ k).span → x ∈ Set.Ico begin_ limit := fun x hx => by
      obtain ⟨hx, hx'⟩ := Block.mem_span.mp hx
      exact ⟨hx, lt_of_lt_of_le hx' hend⟩
    have hpos := Nat.two_pow_pos k
    obtain ⟨s₁, hput, h₁, hadd, hsame, hfl⟩ := putInitial_spec (b := ⟨begin_, k⟩) h hal hle
      (hfree.mono_right fun x hx => hspan x hx)
      (fun x hx => lt_of_lt_of_le (hspan x hx).2 hlimit)
      (hclear begin_ (Set.mem_Ico.mpr ⟨le_refl _, hlt⟩))
    simp only at hput
    rw [hput, wrap_of_lt (by omega)]
    have hsplit : U ∪ (Block.mk begin_ k).span ∪ Set.Ico (begin_ + 2 ^ k) limit =
        U ∪ Set.Ico begin_ limit := by
      rw [Set.union_assoc]
      congr 1
      exact Set.Ico_union_Ico_eq_Ico (Nat.le_add_right _ _) hend
    have hrest : Set.Ico (begin_ + 2 ^ k) limit ⊆ Set.Ico begin_ limit :=
      Set.Ico_subset_Ico_left (Nat.le_add_right _ _)
    have hfree' : Disjoint (U ∪ (Block.mk begin_ k).span) (Set.Ico (begin_ + 2 ^ k) limit) := by
      rw [Set.disjoint_union_left]
      refine ⟨hfree.mono_right hrest, ?_⟩
      rw [Set.disjoint_left]
      intro x hx hx'
      exact absurd hx'.1 (Nat.not_le_of_lt hx.2)
    obtain ⟨s', L', T, hrun, h', hL', hT, hsame', hfl'⟩ := ih h₁ (hsame.2 ▸ hlimit) (by omega)
      hfree' fun x hx => by
        rw [Clear, hfl]
        exact hclear x (hrest hx)
    refine ⟨s', L', insert ⟨begin_, k⟩ T, hrun, hsplit ▸ h', ?_, fun b hb => ?_,
      hsame.trans hsame', fun x => (hfl' x).trans (hfl x)⟩
    · rw [hL', hadd, Set.union_insert, Set.insert_union]
    · rcases hb with rfl | hb
      · exact ⟨hal, hle, le_refl _, hend, hltl, hmax⟩
      · obtain ⟨g1, g2, g3, g4, g5, g6⟩ := hT b hb
        exact ⟨g1, g2, by omega, g4, g5, g6⟩

/-! ### A family of ranges -/

def cells (ranges : List (ℕ × ℕ)) : Set ℕ := {x | ∃ r ∈ ranges, r.1 ≤ x ∧ x < r.2}

def DisjointRanges (ranges : List (ℕ × ℕ)) : Prop :=
  ranges.Pairwise fun r r' => Disjoint (Set.Ico r.1 r.2) (Set.Ico r'.1 r'.2)

def handRanges (ranges : List (ℕ × ℕ)) (s : Pmm) : Except Halt Pmm :=
  ranges.foldlM (fun s r => initBuddyAllocator r.1 r.2 s) s

def unreserveRanges (ranges : List (ℕ × ℕ)) (s : Pmm) : Except Halt Pmm :=
  ranges.foldlM (fun s r => unreserveFrameRegion r.1 r.2 s) s

theorem cells_cons (r : ℕ × ℕ) (rs : List (ℕ × ℕ)) :
    cells (r :: rs) = Set.Ico r.1 r.2 ∪ cells rs := by
  ext x
  simp [cells]

theorem handRanges_spec {ranges : List (ℕ × ℕ)} (h : Core s L A U)
    (hdisj : DisjointRanges ranges) (hlimit : ∀ r ∈ ranges, r.2 ≤ s.mmFramesCount)
    (hfree : Disjoint U (cells ranges)) (hclear : ∀ x ∈ cells ranges, Clear (s.mmFrames x)) :
    ∃ s' L', handRanges ranges s = .ok s' ∧ Core s' L' A (U ∪ cells ranges) ∧
      (∀ b ∈ blocksOf L', b ∈ blocksOf L ∨ ∃ r ∈ ranges, InitialBlock r.1 r.2 b) ∧
      SameTable s s' ∧ ∀ x, (s'.mmFrames x).flags = (s.mmFrames x).flags := by
  induction ranges generalizing s L U with
  | nil =>
    refine ⟨s, L, rfl, ?_, fun b hb => Or.inl hb, ⟨rfl, rfl⟩, fun _ => rfl⟩
    simpa [cells] using h
  | cons r rs ih =>
    obtain ⟨hr, hrs⟩ := List.pairwise_cons.mp hdisj
    rw [cells_cons] at hfree hclear ⊢
    obtain ⟨hfree₁, hfree₂⟩ := Set.disjoint_union_right.mp hfree
    obtain ⟨s₁, L₁, T, hrun, h₁, hL₁, hT, hsame, hfl⟩ := initBuddyLoop_spec h
      (hlimit r List.mem_cons_self) (le_refl _) hfree₁ fun x hx => hclear x (Or.inl hx)
    obtain ⟨s', L', hrun', h', hL', hsame', hfl'⟩ := ih h₁ hrs
      (fun r' hr' => by rw [hsame.2]; exact hlimit r' (List.mem_cons_of_mem _ hr'))
      (by
        rw [Set.disjoint_union_left]
        refine ⟨hfree₂, ?_⟩
        rw [Set.disjoint_right]
        rintro x ⟨r', hr', hx⟩ hx'
        exact Set.disjoint_left.mp (hr r' hr') hx' hx)
      (fun x hx => by
        rw [Clear, hfl]
        exact hclear x (Or.inr hx))
    refine ⟨s', L', ?_, ?_, fun b hb => ?_, hsame.trans hsame', fun x => (hfl' x).trans (hfl x)⟩
    · rw [handRanges, List.foldlM_cons, initBuddyAllocator, hrun]
      exact hrun'
    · rw [← Set.union_assoc]
      exact h'
    · rcases hL' b hb with hb | ⟨r', hr', hb⟩
      · rw [hL₁] at hb
        rcases hb with hb | hb
        · exact Or.inr ⟨r, List.mem_cons_self, hT b hb⟩
        · exact Or.inl hb
      · exact Or.inr ⟨r', List.mem_cons_of_mem _ hr', hb⟩

theorem unreserveRanges_spec {ranges : List (ℕ × ℕ)} (hacc : Accessible s)
    (hlimit : ∀ r ∈ ranges, r.2 ≤ s.mmFramesCount) :
    ∃ s', unreserveRanges ranges s = .ok s' ∧ SameTable s s' ∧
      s'.mmFreeRegion = s.mmFreeRegion ∧
      (∀ x, x ∈ cells ranges →
        (s'.mmFrames x).flags = (s.mmFrames x).flags &&& ~~~frameReserved) ∧
      (∀ x, x ∉ cells ranges → (s'.mmFrames x).flags = (s.mmFrames x).flags) ∧
      ∀ x, (s'.mmFrames x).order = (s.mmFrames x).order := by
  induction ranges generalizing s with
  | nil =>
    exact ⟨s, rfl, ⟨rfl, rfl⟩, rfl, fun x hx => by simp [cells] at hx, fun _ _ => rfl, fun _ => rfl⟩
  | cons r rs ih =>
    obtain ⟨s₁, hrun, hmap⟩ :=
      unreserveFrameRegion_spec hacc r.1 (hlimit r List.mem_cons_self)
    obtain ⟨s', hrun', hsame', hregion', hin', hout', horder'⟩ := ih (hacc.of_same hmap.same)
      fun r' hr' => by rw [hmap.same.2]; exact hlimit r' (List.mem_cons_of_mem _ hr')
    have hrange : ∀ x, x ∈ List.range' r.1 (r.2 - r.1) ↔ r.1 ≤ x ∧ x < r.2 := fun x => by
      rw [List.mem_range'_1]
      omega
    have horder : ∀ x, (s₁.mmFrames x).order = (s.mmFrames x).order := fun x => by
      by_cases hx : x ∈ List.range' r.1 (r.2 - r.1)
      · rw [hmap.mem x hx]
        rfl
      · rw [hmap.notMem x hx]
    have hflags : ∀ x, (s₁.mmFrames x).flags = (s.mmFrames x).flags &&& ~~~frameReserved ∨
        ((s₁.mmFrames x).flags = (s.mmFrames x).flags ∧ ¬ (r.1 ≤ x ∧ x < r.2)) := fun x => by
      by_cases hx : x ∈ List.range' r.1 (r.2 - r.1)
      · left
        rw [hmap.mem x hx]
        rfl
      · right
        rw [hmap.notMem x hx]
        exact ⟨rfl, fun h => hx ((hrange x).mpr h)⟩
    refine ⟨s', ?_, hmap.same.trans hsame', hregion'.trans hmap.region, fun x hx => ?_,
      fun x hx => ?_, fun x => (horder' x).trans (horder x)⟩
    · rw [unreserveRanges, List.foldlM_cons, hrun]
      exact hrun'
    · rw [cells_cons] at hx
      by_cases hxr : x ∈ cells rs
      · rw [hin' x hxr]
        rcases hflags x with hf | ⟨hf, -⟩
        · rw [hf, BitVec.and_assoc, BitVec.and_self]
        · rw [hf]
      · rw [hout' x hxr]
        rcases hflags x with hf | ⟨-, hf⟩
        · exact hf
        · exact absurd (hx.resolve_right hxr) hf
    · rw [cells_cons, Set.mem_union, not_or] at hx
      rw [hout' x hx.2, hmap.notMem x fun hmem => hx.1 ((hrange x).mp hmem)]

end Fynaos
