import Fynaos.Lib.NextList
import Fynaos.Lib.Tiling
import Fynaos.Pmm.Model

/-!
# The invariant of the frame allocator

`Core s L A U`: in the state `s`, list `k` of `mm_free_region` visits exactly the frames `L k`; the
free blocks `blocksOf L` together with the blocks of `A`, which are on no list, tile the frame set
`U`; the head frame of each of these blocks carries the block's order, and a frame outside `U` has
order `-1`. Nothing is said about the other frames of a block: their `order`, `flags` and `next` are
stale, and no argument below reads them.

Every edit of the allocator is one of four moves on the pair of block sets: `Core.take` (from a list
to `A`), `Core.give` (from `A` to a list), `Core.split` and `Core.join`. They describe the new state
by what it changes in the table, so that the specifications of the functions only have to run them.
-/

namespace Fynaos

open Buddy NextList

def Pmm.next (s : Pmm) (i : ℕ) : Option ℕ := (s.mmFrames i).next

def blocksOf (L : ℕ → List ℕ) : Set Block := {b | b.order ≤ frameMaxOrder ∧ b.base ∈ L b.order}

/-- Neither allocated nor reserved: what `merge_buddy` asks of a buddy's flags. -/
def Clear (f : Frame) : Prop := f.flags &&& (frameAllocated ||| frameReserved) = 0

/-- Allocated and not reserved. -/
def Marked (f : Frame) : Prop := f.flags &&& (frameAllocated ||| frameReserved) = frameAllocated

structure Core (s : Pmm) (L : ℕ → List ℕ) (A : Set Block) (U : Set ℕ) : Prop where
  access : ∀ i < s.mmFramesCount, Canonical (s.frameAddr i)
  count : s.mmFramesCount ≤ 2 ^ 52
  inside : ∀ x ∈ U, x < s.mmFramesCount
  outside : ∀ x < s.mmFramesCount, x ∉ U → (s.mmFrames x).order = -1
  list : ∀ k ≤ frameMaxOrder, IsList s.next (s.mmFreeRegion k) (L k)
  order : ∀ b ∈ blocksOf L ∪ A, (s.mmFrames b.base).order = b.order
  le : ∀ b ∈ blocksOf L ∪ A, b.order ≤ frameMaxOrder
  clear : ∀ b ∈ blocksOf L, Clear (s.mmFrames b.base)
  apart : Disjoint (blocksOf L) A
  tiling : Tiling (blocksOf L ∪ A) U

/-- Two states with the same table address and length. -/
def SameTable (s s' : Pmm) : Prop :=
  s'.mmFramesAddr = s.mmFramesAddr ∧ s'.mmFramesCount = s.mmFramesCount

theorem mem_blocksOf {L : ℕ → List ℕ} {b : Block} :
    b ∈ blocksOf L ↔ b.order ≤ frameMaxOrder ∧ b.base ∈ L b.order := Iff.rfl

/-! ### Accesses -/

section access
variable {s s' : Pmm} {i : ℕ}

theorem SameTable.frameAddr (h : SameTable s s') (i : ℕ) : s'.frameAddr i = s.frameAddr i := by
  rw [Pmm.frameAddr, Pmm.frameAddr, h.1]

theorem SameTable.trans {s'' : Pmm} (h : SameTable s s') (h' : SameTable s' s'') :
    SameTable s s'' := ⟨h'.1.trans h.1, h'.2.trans h.2⟩

/-- All records of the table are accessible. -/
def Accessible (s : Pmm) : Prop := ∀ i < s.mmFramesCount, Canonical (s.frameAddr i)

theorem Accessible.of_same (h : Accessible s) (hs : SameTable s s') : Accessible s' := by
  intro i hi
  rw [hs.frameAddr]
  exact h i (hs.2 ▸ hi)

theorem Accessible.access_ok (h : Accessible s) (hi : i < s.mmFramesCount) :
    s.access i = .ok () := by
  rw [Pmm.access, if_neg (by omega), if_pos (h i hi)]

theorem Accessible.read_ok (h : Accessible s) (hi : i < s.mmFramesCount) :
    s.read i = .ok (s.mmFrames i) := by
  rw [Pmm.read, h.access_ok hi]
  rfl

theorem Accessible.modify_ok (h : Accessible s) (hi : i < s.mmFramesCount) (f : Frame → Frame) :
    s.modify i f =
      .ok { s with mmFrames := Function.update s.mmFrames i (f (s.mmFrames i)) } := by
  rw [Pmm.modify, h.access_ok hi]
  rfl

/-- The accesses of a function body, which runs in states that only differ in records and lists. -/
theorem Accessible.read_with (h : Accessible s) (hi : i < s.mmFramesCount) (fr : ℕ → Frame)
    (reg : ℕ → Option ℕ) :
    Pmm.read { s with mmFrames := fr, mmFreeRegion := reg } i = .ok (fr i) :=
  Accessible.read_ok (s := { s with mmFrames := fr, mmFreeRegion := reg }) h hi

theorem Accessible.modify_with (h : Accessible s) (hi : i < s.mmFramesCount) (fr : ℕ → Frame)
    (reg : ℕ → Option ℕ) (f : Frame → Frame) :
    Pmm.modify { s with mmFrames := fr, mmFreeRegion := reg } i f =
      .ok { s with mmFrames := Function.update fr i (f (fr i)), mmFreeRegion := reg } :=
  Accessible.modify_ok (s := { s with mmFrames := fr, mmFreeRegion := reg }) h hi f

end access

namespace Core

variable {s s' : Pmm} {L L' : ℕ → List ℕ} {A : Set Block} {U : Set ℕ} {b c : Block}

theorem accessible (h : Core s L A U) : Accessible s := h.access

theorem base_mem (h : Core s L A U) (hb : b ∈ blocksOf L ∪ A) : b.base ∈ U :=
  (h.tiling.cover _).mpr ⟨b, hb, b.base_mem_span⟩

theorem base_lt (h : Core s L A U) (hb : b ∈ blocksOf L ∪ A) : b.base < s.mmFramesCount :=
  h.inside _ (h.base_mem hb)

theorem mem_lt (h : Core s L A U) {k p : ℕ} (hk : k ≤ frameMaxOrder) (hp : p ∈ L k) :
    p < s.mmFramesCount :=
  h.base_lt (b := ⟨p, k⟩) (Or.inl ⟨hk, hp⟩)

theorem eq_of_base_mem (h : Core s L A U) (hb : b ∈ blocksOf L ∪ A) (hc : c ∈ blocksOf L ∪ A)
    (hmem : c.base ∈ b.span) : c = b :=
  h.tiling.eq_of_meet hc hb c.base_mem_span hmem

theorem span_subset (h : Core s L A U) (hb : b ∈ blocksOf L ∪ A) : b.span ⊆ U :=
  fun _ hx => (h.tiling.cover _).mpr ⟨b, hb, hx⟩

/-- A block leaves its list. Orders are kept, flags may change at the head of the block. -/
theorem take (h : Core s L A U) (hb : b ∈ blocksOf L) (hs : SameTable s s')
    (hL : blocksOf L' = blocksOf L \ {b})
    (hlist : ∀ k ≤ frameMaxOrder, IsList s'.next (s'.mmFreeRegion k) (L' k))
    (horder : ∀ x, (s'.mmFrames x).order = (s.mmFrames x).order)
    (hflags : ∀ x, x ≠ b.base → (s'.mmFrames x).flags = (s.mmFrames x).flags) :
    Core s' L' (insert b A) U := by
  have hunion : blocksOf L' ∪ insert b A = blocksOf L ∪ A := by
    rw [hL, Set.union_insert, ← Set.insert_union, Set.insert_sdiff_singleton,
      Set.insert_eq_of_mem hb]
  refine
    { access := h.accessible.of_same hs, count := hs.2 ▸ h.count,
      inside := fun x hx => hs.2 ▸ h.inside x hx, outside := fun x hx hxU => ?_, list := hlist,
      order := fun c hc => ?_, le := fun c hc => h.le c (hunion ▸ hc), clear := fun c hc => ?_,
      apart := ?_, tiling := hunion ▸ h.tiling }
  · rw [horder]
    exact h.outside x (hs.2 ▸ hx) hxU
  · rw [horder]
    exact h.order c (hunion ▸ hc)
  · rw [hL] at hc
    have hne : c.base ≠ b.base := fun heq =>
      hc.2 (h.eq_of_base_mem (Or.inl hb) (Or.inl hc.1) (heq ▸ b.base_mem_span))
    rw [Clear, hflags _ hne]
    exact h.clear c hc.1
  · rw [hL, Set.disjoint_insert_right]
    exact ⟨fun hmem => hmem.2 rfl, h.apart.mono_left Set.sdiff_subset⟩

/-- A block joins a list. Orders and flags are kept. -/
theorem give (h : Core s L (insert b A) U) (hbA : b ∉ A) (hs : SameTable s s')
    (hclear : Clear (s.mmFrames b.base)) (hL : blocksOf L' = insert b (blocksOf L))
    (hlist : ∀ k ≤ frameMaxOrder, IsList s'.next (s'.mmFreeRegion k) (L' k))
    (horder : ∀ x, (s'.mmFrames x).order = (s.mmFrames x).order)
    (hflags : ∀ x, (s'.mmFrames x).flags = (s.mmFrames x).flags) : Core s' L' A U := by
  have hunion : blocksOf L' ∪ A = blocksOf L ∪ insert b A := by
    rw [hL, Set.union_insert, Set.insert_union]
  refine
    { access := h.accessible.of_same hs, count := hs.2 ▸ h.count,
      inside := fun x hx => hs.2 ▸ h.inside x hx, outside := fun x hx hxU => ?_, list := hlist,
      order := fun c hc => ?_, le := fun c hc => h.le c (hunion ▸ hc), clear := fun c hc => ?_,
      apart := ?_, tiling := hunion ▸ h.tiling }
  · rw [horder]
    exact h.outside x (hs.2 ▸ hx) hxU
  · rw [horder]
    exact h.order c (hunion ▸ hc)
  · rw [Clear, hflags]
    rw [hL] at hc
    rcases hc with rfl | hc
    · exact hclear
    · exact h.clear c hc
  · rw [hL, Set.disjoint_insert_left]
    exact ⟨hbA, h.apart.mono_right (Set.subset_insert _ _)⟩

theorem split (h : Core s L A U) (hb : b ∈ blocksOf L) (hpos : 0 < b.order) (hs : SameTable s s')
    (hL : blocksOf L' = blocksOf L \ {b} ∪ {b.left, b.right})
    (hlist : ∀ k ≤ frameMaxOrder, IsList s'.next (s'.mmFreeRegion k) (L' k))
    (hleft : (s'.mmFrames b.left.base).order = b.left.order ∧
      (s'.mmFrames b.left.base).flags = (s.mmFrames b.base).flags)
    (hright : (s'.mmFrames b.right.base).order = b.right.order ∧
      (s'.mmFrames b.right.base).flags = (s.mmFrames b.base).flags)
    (hrest : ∀ x, x ≠ b.left.base → x ≠ b.right.base →
      (s'.mmFrames x).order = (s.mmFrames x).order ∧
      (s'.mmFrames x).flags = (s.mmFrames x).flags) : Core s' L' A U := by
  have hbal : b.Aligned := h.tiling.aligned b (Or.inl hb)
  have hhalves := fun x => Block.mem_span_halves (x := x) hpos
  have hlmem : b.left.base ∈ b.span := (hhalves _).mpr (Or.inl b.left.base_mem_span)
  have hrmem : b.right.base ∈ b.span := (hhalves _).mpr (Or.inr b.right.base_mem_span)
  have hne : ∀ c ∈ blocksOf L ∪ A, c ≠ b → c.base ≠ b.left.base ∧ c.base ≠ b.right.base :=
    fun c hc hcb => ⟨fun heq => hcb (h.eq_of_base_mem (Or.inl hb) hc (heq ▸ hlmem)),
      fun heq => hcb (h.eq_of_base_mem (Or.inl hb) hc (heq ▸ hrmem))⟩
  have hbA : b ∉ A := Set.disjoint_left.mp h.apart hb
  have hunion : blocksOf L' ∪ A = (blocksOf L ∪ A) \ {b} ∪ {b.left, b.right} := by
    rw [hL, Set.union_sdiff_distrib, Set.sdiff_singleton_eq_self hbA, Set.union_right_comm]
  have hcases : ∀ c ∈ blocksOf L' ∪ A, (c ∈ blocksOf L ∪ A ∧ c ≠ b) ∨ c = b.left ∨ c = b.right :=
    fun c hc => by
      rw [hunion] at hc
      exact hc
  have hleftNot : b.left ∉ A := fun hmem => by
    have := h.eq_of_base_mem (Or.inl hb) (Or.inr hmem) hlmem
    have hord := congrArg Block.order this
    simp only [Block.left_order] at hord
    omega
  have hrightNot : b.right ∉ A := fun hmem => by
    have := h.eq_of_base_mem (Or.inl hb) (Or.inr hmem) hrmem
    have hord := congrArg Block.order this
    simp only [Block.right_order] at hord
    omega
  refine
    { access := h.accessible.of_same hs, count := hs.2 ▸ h.count,
      inside := fun x hx => hs.2 ▸ h.inside x hx, outside := fun x hx hxU => ?_, list := hlist,
      order := fun c hc => ?_, le := fun c hc => ?_, clear := fun c hc => ?_, apart := ?_,
      tiling := hunion ▸ h.tiling.split (Or.inl hb) hpos }
  · have hbU := h.span_subset (Or.inl hb)
    rw [(hrest x (fun heq => hxU (hbU (heq ▸ hlmem))) fun heq => hxU (hbU (heq ▸ hrmem))).1]
    exact h.outside x (hs.2 ▸ hx) hxU
  · rcases hcases c hc with ⟨hc, hcb⟩ | rfl | rfl
    · rw [(hrest _ (hne c hc hcb).1 (hne c hc hcb).2).1]
      exact h.order c hc
    · exact hleft.1
    · exact hright.1
  · have hble := h.le b (Or.inl hb)
    rcases hcases c hc with ⟨hc, -⟩ | rfl | rfl
    · exact h.le c hc
    · rw [Block.left_order]
      omega
    · rw [Block.right_order]
      omega
  · rw [hL] at hc
    rcases hc with ⟨hc, hcb⟩ | rfl | rfl
    · rw [Clear, (hrest _ (hne c (Or.inl hc) hcb).1 (hne c (Or.inl hc) hcb).2).2]
      exact h.clear c hc
    · rw [Clear, hleft.2]
      exact h.clear b hb
    · rw [Clear, hright.2]
      exact h.clear b hb
  · rw [hL, Set.disjoint_union_left]
    refine ⟨h.apart.mono_left Set.sdiff_subset, ?_⟩
    rw [Set.disjoint_insert_left, Set.disjoint_singleton_left]
    exact ⟨hleftNot, hrightNot⟩

theorem join (h : Core s L (insert b (insert b.buddy A)) U) (hbA : b ∉ A) (hbA' : b.buddy ∉ A)
    (hlt : b.order < frameMaxOrder) (hs : SameTable s s')
    (hregion : s'.mmFreeRegion = s.mmFreeRegion)
    (hnext : ∀ x, (s'.mmFrames x).next = (s.mmFrames x).next)
    (hflags : ∀ x, (s'.mmFrames x).flags = (s.mmFrames x).flags)
    (hparent : (s'.mmFrames b.parent.base).order = b.parent.order)
    (hrest : ∀ x, x ≠ b.parent.base → (s'.mmFrames x).order = (s.mmFrames x).order) :
    Core s' L (insert b.parent A) U := by
  have hb : b ∈ blocksOf L ∪ insert b (insert b.buddy A) := Or.inr (Or.inl rfl)
  have hb' : b.buddy ∈ blocksOf L ∪ insert b (insert b.buddy A) := Or.inr (Or.inr (Or.inl rfl))
  have hbal : b.Aligned := h.tiling.aligned b hb
  have hbL : b ∉ blocksOf L := fun hm => Set.disjoint_left.mp h.apart hm (Or.inl rfl)
  have hbL' : b.buddy ∉ blocksOf L := fun hm =>
    Set.disjoint_left.mp h.apart hm (Or.inr (Or.inl rfl))
  have hunion : blocksOf L ∪ insert b.parent A =
      (blocksOf L ∪ insert b (insert b.buddy A)) \ {b, b.buddy} ∪ {b.parent} := by
    ext c
    simp only [Set.mem_union, Set.mem_insert_iff, Set.mem_sdiff, Set.mem_singleton_iff, not_or]
    constructor
    · rintro (hc | hc | hc)
      · exact Or.inl ⟨Or.inl hc, fun heq => hbL (heq ▸ hc), fun heq => hbL' (heq ▸ hc)⟩
      · exact Or.inr hc
      · exact Or.inl ⟨Or.inr (Or.inr (Or.inr hc)), fun heq => hbA (heq ▸ hc),
          fun heq => hbA' (heq ▸ hc)⟩
    · rintro (⟨hc | hc | hc | hc, h1, h2⟩ | hc)
      · exact Or.inl hc
      · exact absurd hc h1
      · exact absurd hc h2
      · exact Or.inr (Or.inr hc)
      · exact Or.inr (Or.inl hc)
  have hpmem : b.parent.base ∈ b.span ∨ b.parent.base ∈ b.buddy.span :=
    (Block.mem_span_parent hbal).mp b.parent.base_mem_span
  -- the head frame of the parent heads no other block
  have hne : ∀ c ∈ blocksOf L ∪ insert b (insert b.buddy A), c ≠ b → c ≠ b.buddy →
      c.base ≠ b.parent.base := fun c hc h1 h2 heq => by
    rcases hpmem with hm | hm
    · exact h1 (h.eq_of_base_mem hb hc (heq ▸ hm))
    · exact h2 (h.eq_of_base_mem hb' hc (heq ▸ hm))
  have hcases : ∀ c ∈ blocksOf L ∪ insert b.parent A,
      ((c ∈ blocksOf L ∪ insert b (insert b.buddy A)) ∧ c ≠ b ∧ c ≠ b.buddy) ∨ c = b.parent :=
    fun c hc => by
      rw [hunion] at hc
      rcases hc with ⟨hc, hne⟩ | hc
      · exact Or.inl ⟨hc, fun heq => hne (Or.inl heq), fun heq => hne (Or.inr heq)⟩
      · exact Or.inr hc
  refine
    { access := h.accessible.of_same hs, count := hs.2 ▸ h.count,
      inside := fun x hx => hs.2 ▸ h.inside x hx, outside := fun x hx hxU => ?_,
      list := fun k hk => ?_, order := fun c hc => ?_, le := fun c hc => ?_,
      clear := fun c hc => ?_, apart := ?_, tiling := hunion ▸ h.tiling.join hb hb' }
  · have hpU : b.parent.base ∈ U := by
      rcases hpmem with hm | hm
      · exact h.span_subset hb hm
      · exact h.span_subset hb' hm
    rw [hrest x fun heq => hxU (heq ▸ hpU)]
    exact h.outside x (hs.2 ▸ hx) hxU
  · rw [hregion]
    exact (h.list k hk).congr fun x _ => hnext x
  · rcases hcases c hc with ⟨hc, h1, h2⟩ | rfl
    · rw [hrest _ (hne c hc h1 h2)]
      exact h.order c hc
    · exact hparent
  · rcases hcases c hc with ⟨hc, -, -⟩ | rfl
    · exact h.le c hc
    · rw [Block.parent_order]
      omega
  · rw [Clear, hflags]
    exact h.clear c hc
  · rw [Set.disjoint_insert_right]
    refine ⟨fun hm => ?_, h.apart.mono_right fun c hc => Or.inr (Or.inr hc)⟩
    -- the parent overlaps both halves, so it is no block of the old tiling
    have hsub := Block.span_subset_parent hbal
    exact h.tiling.notMem_of_subset (Or.inl hm) hsub
      (fun heq => absurd (congrArg Block.order heq) (by simp)) hb

end Core

end Fynaos
