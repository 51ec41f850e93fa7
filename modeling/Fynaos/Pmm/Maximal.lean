import Fynaos.Pmm.Init
import Mathlib.Order.Bounds.Defs

/-!
# How large the initial blocks are

`get_max_order` should return the largest order whose block starts at `begin` and lies inside
`[begin, limit)`. Its test `begin + count >= limit` also refuses the block that ends exactly at
`limit`, so the result is right unless such a block of positive order exists
(`getMaxOrder_isGreatest_iff`); the sum wraps around only for the block that ends at `2 ^ 64`.

`init_buddy_allocator` cuts from left to right (`initBuddyLoop_cut`). A larger aligned block that
could replace one of its blocks must end at `limit` (`replacement_end`), and the last frame of the
range is always a block of order 0, so all blocks are as large as possible exactly when `limit` is
odd or the range has one frame.
-/

namespace Fynaos

open Buddy NextList

variable {s s' : Pmm} {b c : Block} {bs : List Block} {begin_ limit : ℕ}

/-! ### One order -/

/-- The orders of the blocks at `begin` that lie inside `[begin, limit)`. -/
def fittingOrders (begin_ limit : ℕ) : Set ℕ :=
  {k | k ≤ frameMaxOrder ∧ 2 ^ k ∣ begin_ ∧ begin_ + 2 ^ k ≤ limit}

/-- No block of positive order at `begin` ends at `limit` or at the end of the address space. -/
def EndsPast (begin_ limit : ℕ) : Prop :=
  ∀ k ≤ frameMaxOrder, k ≠ 0 → 2 ^ k ∣ begin_ → begin_ + 2 ^ k ≠ limit ∧ begin_ + 2 ^ k ≠ 2 ^ 64

theorem end_le_of_dvd {k : ℕ} (hk : k ≤ frameMaxOrder) (hdvd : 2 ^ k ∣ begin_)
    (hlt : begin_ < 2 ^ 64) : begin_ + 2 ^ k ≤ 2 ^ 64 := by
  obtain ⟨m, rfl⟩ := hdvd
  have hsplit : (2 : ℕ) ^ 64 = 2 ^ k * 2 ^ (64 - k) := by
    rw [← pow_add]
    congr 1
    simp only [frameMaxOrder] at hk
    omega
  rw [hsplit] at hlt ⊢
  have hm : m + 1 ≤ 2 ^ (64 - k) := Nat.lt_of_mul_lt_mul_left hlt
  calc 2 ^ k * m + 2 ^ k = 2 ^ k * (m + 1) := by ring
    _ ≤ 2 ^ k * 2 ^ (64 - k) := Nat.mul_le_mul_left _ hm

theorem getMaxOrder_isGreatest_iff (hlt : begin_ < limit) (hlimit : limit < 2 ^ 64) :
    IsGreatest (fittingOrders begin_ limit) (getMaxOrder begin_ limit) ↔
      EndsPast begin_ limit := by
  obtain ⟨hle, hdvd, hend, hmax⟩ := getMaxOrderFrom_spec begin_ limit frameMaxOrder
  rw [← getMaxOrder] at hle hdvd hend hmax
  have hedge : ∀ k ≤ frameMaxOrder, 2 ^ k ∣ begin_ →
      wrap (begin_ + 2 ^ k) = begin_ + 2 ^ k ∨
        begin_ + 2 ^ k = 2 ^ 64 ∧ wrap (begin_ + 2 ^ k) = 0 := fun k hk hd => by
    rcases Nat.lt_or_ge (begin_ + 2 ^ k) (2 ^ 64) with h | h
    · exact Or.inl (wrap_of_lt h)
    · have heq := le_antisymm (end_le_of_dvd hk hd (by omega)) h
      exact Or.inr ⟨heq, by rw [heq]; rfl⟩
  constructor
  · intro hg k hk hk0 hd
    constructor
    · intro hstop
      -- the code refuses `k`, so its result is not above `k`, and its block ends before the limit
      have hkr : k ≤ getMaxOrder begin_ limit := hg.2 ⟨hk, hd, le_of_eq hstop⟩
      have hpow : 2 ^ k ≤ 2 ^ getMaxOrder begin_ limit := Nat.pow_le_pow_right (by norm_num) hkr
      have hfit := hg.1.2.2
      have hstrict := hend (by omega)
      rw [wrap_of_lt (by omega)] at hstrict
      omega
    · intro hstop
      have hzero : wrap (begin_ + 2 ^ k) = 0 := by rw [hstop]; rfl
      have hkr : k ≤ getMaxOrder begin_ limit := hmax k hk hd (by omega)
      have hpow : 2 ^ k ≤ 2 ^ getMaxOrder begin_ limit := Nat.pow_le_pow_right (by norm_num) hkr
      have hfit := hg.1.2.2
      omega
  · intro hpast
    refine ⟨⟨hle, hdvd, ?_⟩, ?_⟩
    · by_cases hzero : getMaxOrder begin_ limit = 0
      · rw [hzero]
        exact hlt
      · have hstrict := hend hzero
        rcases hedge _ hle hdvd with h | ⟨h, -⟩
        · omega
        · exact absurd h (hpast _ hle hzero hdvd).2
    · rintro k ⟨hk, hd, hfit⟩
      by_cases hk0 : k = 0
      · omega
      · obtain ⟨hne, -⟩ := hpast k hk hk0 hd
        refine hmax k hk hd ?_
        rw [wrap_of_lt (by omega)]
        omega

/-! ### The blocks of a range -/

/-- The free lists of `s'` are those of `s` with the blocks of `bs` in front, the last one first. -/
structure Cut (bs : List Block) (s s' : Pmm) : Prop where
  same : SameTable s s'
  order : ∀ b ∈ bs, (s'.mmFrames b.base).order = b.order
  flags : ∀ x, (s'.mmFrames x).flags = (s.mmFrames x).flags
  other : ∀ x, x ∉ bs.map Block.base → s'.mmFrames x = s.mmFrames x
  list : ∀ k l, IsList s.next (s.mmFreeRegion k) l → (∀ p ∈ l, p ∉ bs.map Block.base) →
    IsList s'.next (s'.mmFreeRegion k)
      (((bs.filter (·.order = k)).map Block.base).reverse ++ l)

theorem Cut.nil (s : Pmm) : Cut [] s s :=
  ⟨⟨rfl, rfl⟩, by simp, fun _ => rfl, fun _ _ => rfl, fun _ _ h _ => h⟩

theorem Cut.cons (h : Cut bs (withInitial b s) s') (hb : b.base ∉ bs.map Block.base) :
    Cut (b :: bs) s s' := by
  have hhead : (withInitial b s).mmFrames b.base =
      ⟨s.mmFreeRegion b.order, (s.mmFrames b.base).flags, b.order⟩ := Function.update_self _ _ _
  have hrest : ∀ x, x ≠ b.base → (withInitial b s).mmFrames x = s.mmFrames x :=
    fun x hx => Function.update_of_ne hx _ _
  refine ⟨h.same, fun c hc => ?_, fun x => ?_, fun x hx => ?_, fun k l hl hout => ?_⟩
  · rcases List.mem_cons.mp hc with rfl | hc
    · rw [h.other _ hb, hhead]
    · exact h.order c hc
  · rw [h.flags]
    by_cases hx : x = b.base
    · rw [hx, hhead]
    · rw [hrest x hx]
  · rw [List.map_cons, List.mem_cons, not_or] at hx
    rw [h.other x hx.2, hrest x hx.1]
  · have hne : ∀ p ∈ l, p ≠ b.base := fun p hp heq => hout p hp (heq ▸ List.mem_cons_self)
    have hnext : ∀ p ∈ l, (withInitial b s).next p = s.next p := fun p hp =>
      congrArg Frame.next (hrest p (hne p hp))
    have hout' : ∀ p ∈ l, p ∉ bs.map Block.base := fun p hp hmem =>
      hout p hp (List.mem_cons_of_mem _ hmem)
    by_cases hk : b.order = k
    · subst hk
      have hpush : IsList (withInitial b s).next ((withInitial b s).mmFreeRegion b.order)
          (b.base :: l) := by
        refine ⟨Function.update_self _ _ _, ?_⟩
        rw [Pmm.next, hhead]
        exact hl.congr hnext
      have hcut := h.list b.order (b.base :: l) hpush fun p hp => by
        rcases List.mem_cons.mp hp with rfl | hp
        · exact hb
        · exact hout' p hp
      simpa using hcut
    · have hkeep : (withInitial b s).mmFreeRegion k = s.mmFreeRegion k :=
        Function.update_of_ne (Ne.symm hk) _ _
      have hcut := h.list k l (hkeep ▸ hl.congr hnext) hout'
      simpa [hk] using hcut

theorem Accessible.count_le (h : Accessible s) : s.mmFramesCount ≤ 2 ^ 44 := by
  by_contra hlong
  have h0 := h 0 (by omega)
  have hlow := h (2 ^ 43) (by omega)
  have hhigh := h (2 ^ 44) (by omega)
  simp only [Canonical, Pmm.frameAddr, wrap, sizeofFrame] at h0 hlow hhigh
  omega

theorem initBuddyLoop_cut {fuel : ℕ} (hacc : Accessible s) (hlimit : limit ≤ s.mmFramesCount)
    (hfuel : limit - begin_ ≤ fuel) :
    ∃ s' bs, initBuddyLoop fuel begin_ limit s = .ok s' ∧ Cut bs s s' ∧ bs.Nodup ∧
      (∀ b ∈ bs, InitialBlock begin_ limit b) ∧
      Tiling {b | b ∈ bs} (Set.Ico begin_ limit) := by
  have hcount := hacc.count_le
  induction fuel generalizing s begin_ with
  | zero =>
    rw [initBuddyLoop, if_neg (by omega), Set.Ico_eq_empty (by omega)]
    exact ⟨s, [], rfl, Cut.nil s, List.nodup_nil, by simp, by simpa using Tiling.empty⟩
  | succ fuel ih =>
    rw [initBuddyLoop]
    by_cases hlt : begin_ < limit
    swap
    · rw [if_neg hlt, Set.Ico_eq_empty hlt]
      exact ⟨s, [], rfl, Cut.nil s, List.nodup_nil, by simp, by simpa using Tiling.empty⟩
    have hinit := getMaxOrder_spec hlt (by omega)
    rw [if_pos hlt]
    generalize getMaxOrder begin_ limit = k at hinit
    have hend : begin_ + 2 ^ k ≤ limit := hinit.le_limit
    have hpos := Nat.two_pow_pos k
    have hput := putInitial_eq (b := ⟨begin_, k⟩) hacc (Nat.lt_of_lt_of_le hlt hlimit)
    simp only at hput
    simp only [hput, ok_bind, wrap_of_lt (show begin_ + 2 ^ k < 2 ^ 64 by omega)]
    have hsame : SameTable s (withInitial ⟨begin_, k⟩ s) := ⟨rfl, rfl⟩
    obtain ⟨s', bs, hrun, hcut, hnodup, hall, htile⟩ := ih (hacc.of_same hsame) hlimit
      (show limit - (begin_ + 2 ^ k) ≤ fuel by omega) hcount
    -- the rest of the range starts behind this block
    have hnot : ∀ b ∈ bs, b.base ≠ begin_ := fun b hb heq => by
      have := (hall b hb).begin_le
      omega
    refine ⟨s', ⟨begin_, k⟩ :: bs, hrun, hcut.cons ?_, List.nodup_cons.mpr ⟨?_, hnodup⟩,
      fun b hb => ?_, ?_⟩
    · intro hmem
      obtain ⟨b, hb, heq⟩ := List.mem_map.mp hmem
      exact hnot b hb heq
    · exact fun hmem => hnot _ hmem rfl
    · rcases List.mem_cons.mp hb with rfl | hb
      · exact hinit
      · obtain ⟨g1, g2, g3, g4, g5, g6⟩ := hall b hb
        exact ⟨g1, g2, by omega, g4, g5, g6⟩
    · have hspan : (Block.mk begin_ k).span ∪ Set.Ico (begin_ + 2 ^ k) limit =
          Set.Ico begin_ limit := Set.Ico_union_Ico_eq_Ico (Nat.le_add_right _ _) hend
      have hset : {b | b ∈ (⟨begin_, k⟩ : Block) :: bs} = {⟨begin_, k⟩} ∪ {b | b ∈ bs} := by
        ext b
        simp
      rw [hset, ← hspan]
      refine (Tiling.single hinit.aligned).union htile ?_
      rw [Set.disjoint_left]
      intro x hx hx'
      exact absurd hx'.1 (Nat.not_le_of_lt hx.2)

/-! ### Replacements -/

/-- A larger aligned block inside `[begin, limit)` could take the place of `b`. -/
def Replaceable (begin_ limit : ℕ) (b : Block) : Prop :=
  ∃ c : Block, c.Aligned ∧ c.order ≤ frameMaxOrder ∧ b.order < c.order ∧ b.span ⊆ c.span ∧
    c.span ⊆ Set.Ico begin_ limit

section replace
variable {T : Set Block}

/-- A block that could replace a smaller one ends at the end of the range: the first block the loop
cut inside it starts with it, and was the largest that ends earlier. -/
theorem replacement_end (htile : Tiling T (Set.Ico begin_ limit))
    (hall : ∀ b ∈ T, InitialBlock begin_ limit b) (hb : b ∈ T) (hc : c.Aligned)
    (hle : c.order ≤ frameMaxOrder) (hlt : b.order < c.order) (hsub : b.span ⊆ c.span)
    (hin : c.span ⊆ Set.Ico begin_ limit) : c.base + 2 ^ c.order = limit := by
  have hpos := Nat.two_pow_pos c.order
  obtain ⟨d, hd, hmem⟩ := (htile.cover c.base).mp (hin c.base_mem_span)
  have hend : c.base + 2 ^ c.order ≤ limit := by
    have hlast : c.base + 2 ^ c.order - 1 ∈ c.span := Block.mem_span.mpr (by omega)
    have := (hin hlast).2
    omega
  rcases Nat.lt_or_ge d.order c.order with hdc | hdc
  · have hbase : d.base = c.base := by
      have hsub' := Block.subset_of_meet (hall d hd).aligned hc (le_of_lt hdc) hmem c.base_mem_span
      have h1 := (hsub' d.base_mem_span).1
      have h2 := hmem.1
      omega
    by_contra hne
    have := (hall d hd).largest c.order hle (hbase ▸ hc) (by omega)
    omega
  · -- the block would contain `b`
    have hsub' := Block.subset_of_meet hc (hall d hd).aligned hdc c.base_mem_span hmem
    have heq := htile.eq_of_meet hb hd b.base_mem_span (hsub' (hsub b.base_mem_span))
    rw [heq] at hlt
    omega

theorem last_mem (htile : Tiling T (Set.Ico begin_ limit))
    (hall : ∀ b ∈ T, InitialBlock begin_ limit b) (hlt : begin_ < limit) :
    ⟨limit - 1, 0⟩ ∈ T := by
  obtain ⟨b, hb, hmem⟩ := (htile.cover (limit - 1)).mp ⟨by omega, by omega⟩
  rw [← (hall b hb).eq_last hmem]
  exact hb

theorem maximal_iff (htile : Tiling T (Set.Ico begin_ limit))
    (hall : ∀ b ∈ T, InitialBlock begin_ limit b) (hlt : begin_ < limit) :
    (∀ b ∈ T, ¬ Replaceable begin_ limit b) ↔ ¬ 2 ∣ limit ∨ limit = begin_ + 1 := by
  constructor
  · intro hmax
    by_contra hcon
    obtain ⟨heven, hlong⟩ := not_or.mp hcon
    have heven := not_not.mp heven
    refine hmax _ (last_mem htile hall hlt) ⟨⟨limit - 2, 1⟩, ?_, by norm_num, by norm_num, ?_, ?_⟩
    · rw [Block.Aligned, pow_one]
      exact (Nat.dvd_sub heven (dvd_refl 2))
    · intro x hx
      rw [Block.mem_span_zero] at hx
      exact Block.mem_span.mpr (by simp only [pow_one]; omega)
    · intro x hx
      have := Block.mem_span.mp hx
      simp only [pow_one] at this
      exact ⟨by omega, by omega⟩
  · rintro hcond b hb ⟨c, hc, hle, hbc, hsub, hin⟩
    have hend := replacement_end htile hall hb hc hle hbc hsub hin
    have hbegin := (hin c.base_mem_span).1
    have htwo : 2 ∣ 2 ^ c.order := dvd_pow_self 2 (by omega)
    have hpos := Nat.le_of_dvd (Nat.two_pow_pos _) htwo
    rcases hcond with hodd | hone
    · exact hodd (hend ▸ (Nat.dvd_add (htwo.trans hc) htwo))
    · omega

end replace

theorem endsPast_of_odd (hlt : begin_ < limit) (hlimit : limit ≤ 2 ^ 44)
    (hcond : ¬ 2 ∣ limit ∨ limit = begin_ + 1) : EndsPast begin_ limit := by
  intro k hk hk0 hdvd
  have htwo : 2 ∣ 2 ^ k := dvd_pow_self 2 hk0
  have hge := Nat.le_of_dvd (Nat.two_pow_pos _) htwo
  have hpow : 2 ^ k ≤ 2 ^ 11 := Nat.pow_le_pow_right (by norm_num) hk
  refine ⟨fun hend => ?_, by omega⟩
  rcases hcond with hodd | hone
  · exact hodd (hend ▸ Nat.dvd_add (htwo.trans hdvd) htwo)
  · omega

/-- The order chosen for a block is the largest that fits exactly when no larger block ends at the
limit, and all blocks of a range are as large as possible exactly when its limit is odd or it has
one frame. The range is always tiled. -/
theorem initial_blocks_maximal (hlt : begin_ < limit) (hlimit : limit < 2 ^ 64) :
    (IsGreatest (fittingOrders begin_ limit) (getMaxOrder begin_ limit) ↔
      EndsPast begin_ limit) ∧
    ∀ s, Accessible s → limit ≤ s.mmFramesCount →
      ∃ s' bs, initBuddyAllocator begin_ limit s = .ok s' ∧ Cut bs s s' ∧ bs.Nodup ∧
        (∀ b ∈ bs, b.order ≤ frameMaxOrder) ∧ Tiling {b | b ∈ bs} (Set.Ico begin_ limit) ∧
        (IsGreatest (fittingOrders begin_ limit) (getMaxOrder begin_ limit) ∧
            (∀ b ∈ bs, ¬ Replaceable begin_ limit b) ↔ ¬ 2 ∣ limit ∨ limit = begin_ + 1) := by
  refine ⟨getMaxOrder_isGreatest_iff hlt hlimit, fun s hacc hinside => ?_⟩
  obtain ⟨s', bs, hrun, hcut, hnodup, hall, htile⟩ := initBuddyLoop_cut hacc hinside (le_refl _)
  refine ⟨s', bs, hrun, hcut, hnodup, fun b hb => (hall b hb).le, htile, ?_⟩
  rw [← maximal_iff htile hall hlt, getMaxOrder_isGreatest_iff hlt hlimit]
  refine ⟨And.right, fun hmax => ⟨?_, hmax⟩⟩
  exact endsPast_of_odd hlt (hinside.trans hacc.count_le) ((maximal_iff htile hall hlt).mp hmax)

/-- The first three frames of a table of four. -/
theorem initial_blocks_maximal_three : ∃ boot' s s' bs,
    initFrames 0x4000 ⟨0x1000, 0x1000, 0x4000⟩ Pmm.zero = .ok (boot', s) ∧
      initBuddyAllocator 0 3 s = .ok s' ∧ Cut bs s s' ∧
      Tiling {b | b ∈ bs} (Set.Ico 0 3) ∧ IsGreatest (fittingOrders 0 3) (getMaxOrder 0 3) ∧
      ∀ b ∈ bs, ¬ Replaceable 0 3 b := by
  obtain ⟨boot', s, hinit⟩ : ∃ boot' s,
      initFrames 0x4000 ⟨0x1000, 0x1000, 0x4000⟩ Pmm.zero = .ok (boot', s) := ⟨_, _, rfl⟩
  obtain ⟨-, -, -, hcount, -, hacc, -⟩ := initFrames_inv hinit
  obtain ⟨-, hall⟩ := initial_blocks_maximal (show 0 < 3 by norm_num) (by norm_num)
  obtain ⟨s', bs, hrun, hcut, -, -, htile, hiff⟩ := hall s hacc (by rw [hcount]; norm_num)
  obtain ⟨hg, hmax⟩ := hiff.mpr (Or.inl (by norm_num))
  exact ⟨boot', s, s', bs, hinit, hrun, hcut, htile, hg, hmax⟩

/-- Two frames would fit into one block of order 1. -/
theorem two_frames_not_greatest : getMaxOrder 0 2 = 0 ∧ 1 ∈ fittingOrders 0 2 ∧
    ¬ IsGreatest (fittingOrders 0 2) (getMaxOrder 0 2) := by
  have hzero : getMaxOrder 0 2 = 0 := by decide
  have hfit : 1 ∈ fittingOrders 0 2 := ⟨by norm_num, by norm_num, by norm_num⟩
  refine ⟨hzero, hfit, fun hg => ?_⟩
  have := hg.2 hfit
  omega

end Fynaos
