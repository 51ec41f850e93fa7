import Fynaos.Pmm.Invariant

/-!
# What the functions of the frame allocator do

One specification for each function of `pmm.c` behind the initialization, in terms of `Core`:
`remove_frame_from_list`, `divide_buddy`, `merge_buddy`, `alloc_frames`, `free_frame`. Each says that
the call returns, which blocks it leaves on the lists, and that it keeps a set of blocks coalesced
(`Buddy.Coalesced`, for any parent condition `D`).

The heart is `buddy_free`: the two numbers `merge_buddy` compares (`order` and `flags` of one record)
identify a free block. The record may lie inside a larger block and hold stale values, but then the
larger block would contain the frame being freed as well.
-/

namespace Fynaos

open Buddy NextList

variable {s s' : Pmm} {L : ℕ → List ℕ} {A : Set Block} {U : Set ℕ} {b : Block} {k p : ℕ}
  {rest : List ℕ}

/-! ### Changing one list -/

theorem blocksOf_remove (hk : k ≤ frameMaxOrder)
    (hrest : ∀ q, q ∈ rest ↔ q ∈ L k ∧ q ≠ p) :
    blocksOf (Function.update L k rest) = blocksOf L \ {⟨p, k⟩} := by
  ext c
  obtain ⟨q, j⟩ := c
  simp only [mem_blocksOf, Set.mem_sdiff, Set.mem_singleton_iff, Block.mk.injEq]
  by_cases hj : j = k
  · subst hj
    rw [Function.update_self, hrest]
    tauto
  · rw [Function.update_of_ne hj]
    tauto

theorem blocksOf_push (L : ℕ → List ℕ) (p : ℕ) (hk : k ≤ frameMaxOrder) :
    blocksOf (Function.update L k (p :: L k)) = insert ⟨p, k⟩ (blocksOf L) := by
  ext c
  obtain ⟨q, j⟩ := c
  simp only [mem_blocksOf, Set.mem_insert_iff, Block.mk.injEq]
  by_cases hj : j = k
  · subst hj
    rw [Function.update_self, List.mem_cons]
    constructor
    · rintro ⟨h1, rfl | h2⟩
      · exact Or.inl ⟨rfl, rfl⟩
      · exact Or.inr ⟨h1, h2⟩
    · rintro (⟨rfl, -⟩ | ⟨h1, h2⟩)
      · exact ⟨hk, Or.inl rfl⟩
      · exact ⟨h1, Or.inr h2⟩
  · rw [Function.update_of_ne hj]
    tauto

theorem Core.head (h : Core s L A U) (hk : k ≤ frameMaxOrder) (hL : L k = p :: rest) :
    (⟨p, k⟩ : Block) ∈ blocksOf L ∧ s.mmFreeRegion k = some p ∧ IsList s.next (s.next p) rest ∧
      p ∉ rest := by
  have hlist := h.list k hk
  rw [hL] at hlist
  refine ⟨⟨hk, ?_⟩, hlist.1, hlist.2, (List.nodup_cons.mp hlist.nodup).1⟩
  rw [hL]
  exact List.mem_cons_self

theorem Core.tail_lists (h : Core s L A U) (hk : k ≤ frameMaxOrder) (hL : L k = p :: rest)
    {region : ℕ → Option ℕ} (hregion : region = Function.update s.mmFreeRegion k (s.next p)) :
    ∀ j ≤ frameMaxOrder, IsList s.next (region j) (Function.update L k rest j) := by
  intro j hj
  subst hregion
  by_cases hjk : j = k
  · subst hjk
    rw [Function.update_self, Function.update_self]
    exact (h.head hk hL).2.2.1
  · rw [Function.update_of_ne hjk, Function.update_of_ne hjk]
    exact h.list j hj

theorem mem_without (pre post : List ℕ) {x : ℕ} (hnot : x ∉ pre ++ post)
    (hL : L k = pre ++ x :: post) (q : ℕ) : q ∈ pre ++ post ↔ q ∈ L k ∧ q ≠ x := by
  rw [hL, List.perm_middle.mem_iff, List.mem_cons]
  constructor
  · intro hq
    exact ⟨Or.inr hq, fun heq => hnot (heq ▸ hq)⟩
  · rintro ⟨rfl | hq, hne⟩
    · exact absurd rfl hne
    · exact hq

theorem mem_rest (hnot : p ∉ rest) (hL : L k = p :: rest) (q : ℕ) :
    q ∈ rest ↔ q ∈ L k ∧ q ≠ p :=
  mem_without [] rest hnot hL q

theorem setNext_same (f : ℕ → Frame) (y : ℕ) (n : Option ℕ) (q : ℕ) :
    (Function.update f y { f y with next := n } q).order = (f q).order ∧
      (Function.update f y { f y with next := n } q).flags = (f q).flags := by
  by_cases hq : q = y
  · subst hq
    rw [Function.update_self]
    exact ⟨rfl, rfl⟩
  · rw [Function.update_of_ne hq]
    exact ⟨rfl, rfl⟩

theorem Pmm.next_of_ne {y q : ℕ} (f : Frame) (hq : q ≠ y) :
    ({ s with mmFrames := Function.update s.mmFrames y f } : Pmm).next q = s.next q :=
  congrArg Frame.next (Function.update_of_ne hq f s.mmFrames)

/-! ### remove_frame_from_list -/

theorem findFrame_inner (hacc : Accessible s) {pre post : List ℕ} {x y : ℕ} {head prev : Option ℕ}
    {fuel : ℕ} (hlist : IsList s.next head (pre ++ y :: x :: post))
    (hlt : ∀ q ∈ pre ++ y :: x :: post, q < s.mmFramesCount) (hx : x ∉ pre) (hxy : y ≠ x)
    (hfuel : pre.length + 2 ≤ fuel) : findFrame s x fuel head prev = .ok (some x, some y) := by
  induction pre generalizing head prev fuel with
  | nil =>
    obtain ⟨n, rfl⟩ : ∃ n, fuel = n + 2 := ⟨fuel - 2, by simp at hfuel; omega⟩
    obtain ⟨rfl, hnext, -⟩ := hlist
    rw [findFrame, if_neg hxy, hacc.read_ok (hlt y (by simp))]
    change findFrame s x (n + 1) (s.next y) (some y) = _
    rw [hnext, findFrame, if_pos rfl]
  | cons q pre ih =>
    obtain ⟨n, rfl⟩ : ∃ n, fuel = n + 1 := ⟨fuel - 1, by simp at hfuel; omega⟩
    obtain ⟨rfl, hnext⟩ := hlist
    rw [findFrame, if_neg fun heq => hx (by simp [heq]), hacc.read_ok (hlt q (by simp))]
    exact ih hnext (fun r hr => hlt r (List.mem_cons_of_mem _ hr))
      (fun hm => hx (List.mem_cons_of_mem _ hm)) (by simp at hfuel; omega)

theorem regionIndex_ok (hk : k ≤ frameMaxOrder) : regionIndex (k : ℤ) = .ok k := by
  rw [regionIndex, if_pos ⟨by omega, by omega⟩, Int.toNat_natCast]

theorem Core.unlink_lists {pre post : List ℕ} {x y : ℕ} (h : Core s L A U) (hk : k ≤ frameMaxOrder)
    (hL : L k = pre ++ y :: x :: post) :
    ∀ j ≤ frameMaxOrder, IsList
      ({ s with
        mmFrames := Function.update s.mmFrames y
          { s.mmFrames y with next := (s.mmFrames x).next } } : Pmm).next
      (s.mmFreeRegion j) (Function.update L k (pre ++ y :: post) j) := by
  have hyL : y ∈ L k := by simp [hL]
  have hnodup := (h.list k hk).nodup
  rw [hL, List.nodup_middle] at hnodup
  have hy : y ∉ pre ++ x :: post := (List.nodup_cons.mp hnodup).1
  intro j hj
  by_cases hjk : j = k
  · subst hjk
    rw [Function.update_self]
    refine (hL ▸ h.list j hk).unlink ?_ fun q hq => ?_
    · simp [Pmm.next]
    · refine Pmm.next_of_ne _ fun heq => hy ?_
      rw [← heq, List.perm_middle.mem_iff]
      exact List.mem_cons_of_mem x hq
  · rw [Function.update_of_ne hjk]
    refine (h.list j hj).congr fun q hq => Pmm.next_of_ne _ fun heq => hjk ?_
    have hsame := h.eq_of_base_mem (b := ⟨y, k⟩) (c := ⟨q, j⟩) (Or.inl ⟨hk, hyL⟩) (Or.inl ⟨hj, hq⟩)
      (heq ▸ Block.base_mem_span _)
    exact congrArg Block.order hsame

theorem removeFrame_spec (h : Core s L A U) (hb : b ∈ blocksOf L) :
    ∃ s' L', removeFrameFromList b.base s = .ok s' ∧ Core s' L' (insert b A) U ∧
      SameTable s s' ∧ blocksOf L' = blocksOf L \ {b} ∧
      ∀ x, (s'.mmFrames x).order = (s.mmFrames x).order ∧
        (s'.mmFrames x).flags = (s.mmFrames x).flags := by
  obtain ⟨x, k⟩ := b
  have hk : k ≤ frameMaxOrder := hb.1
  have hread := fun {q : ℕ} (hq : q ∈ L k) => h.accessible.read_ok (h.mem_lt hk hq)
  have hlist := h.list k hk
  have hlen := hlist.length_le fun q hq => h.mem_lt hk hq
  have hord : (s.mmFrames x).order = k := h.order _ (Or.inl hb)
  obtain ⟨pre, post, hsplit⟩ := List.append_of_mem hb.2
  dsimp only at hsplit
  have hnodup := hlist.nodup
  rw [hsplit, List.nodup_middle] at hnodup
  have hnot : x ∉ pre ++ post := (List.nodup_cons.mp hnodup).1
  have hrest := mem_without pre post hnot hsplit
  unfold removeFrameFromList
  rw [hread hb.2]
  simp only [bind, Except.bind, hord, regionIndex_ok hk]
  rcases List.eq_nil_or_concat pre with rfl | ⟨pre, y, rfl⟩
  · -- the block heads its list
    have hhead : s.mmFreeRegion k = some x := (h.head hk hsplit).2.1
    rw [hhead, findFrame, if_pos rfl]
    simp only [hread hb.2]
    refine ⟨s.setRegion k (s.next x), Function.update L k post, rfl, ?_, ⟨rfl, rfl⟩,
      blocksOf_remove hk hrest, fun _ => ⟨rfl, rfl⟩⟩
    exact h.take hb ⟨rfl, rfl⟩ (blocksOf_remove hk hrest) (h.tail_lists hk hsplit rfl)
      (fun _ => rfl) fun _ _ => rfl
  · -- it hangs behind `y`
    rw [List.concat_eq_append, List.append_assoc, List.singleton_append] at hsplit hnot hrest
    have hyL : y ∈ L k := by simp [hsplit]
    have hyx : y ≠ x := fun heq => hnot (by simp [heq])
    rw [hsplit] at hlen
    have hfind : findFrame s x (s.mmFramesCount + 1) (s.mmFreeRegion k) none =
        .ok (some x, some y) := findFrame_inner h.accessible (hsplit ▸ hlist)
      (fun q hq => h.mem_lt hk (hsplit ▸ hq)) (fun hm => hnot (List.mem_append_left _ hm)) hyx
      (by simp at hlen; omega)
    rw [hfind]
    simp only [hread hb.2, h.accessible.modify_ok (h.mem_lt hk hyL)]
    have hsame := setNext_same s.mmFrames y (s.mmFrames x).next
    refine ⟨_, Function.update L k (pre ++ y :: post), rfl, ?_, ⟨rfl, rfl⟩,
      blocksOf_remove hk hrest, hsame⟩
    exact h.take hb ⟨rfl, rfl⟩ (blocksOf_remove hk hrest) (h.unlink_lists hk hsplit)
      (fun q => (hsame q).1) fun q _ => (hsame q).2

/-! ### divide_buddy -/

theorem divideBuddy_eq {m : ℕ} (hacc : Accessible s) (hp : s.mmFreeRegion (m + 1) = some p)
    (hlt : p + 2 ^ m < s.mmFramesCount) :
    divideBuddy (m + 1) s = .ok
      { s with
        mmFrames := Function.update
          (Function.update s.mmFrames (p + 2 ^ m)
            ⟨s.mmFreeRegion m, (s.mmFrames p).flags, m⟩) p
          ⟨some (p + 2 ^ m), (s.mmFrames p).flags, m⟩
        mmFreeRegion := Function.update (Function.update s.mmFreeRegion (m + 1) (s.next p)) m
          (some p) } := by
  have hpos : 0 < 2 ^ m := Nat.two_pow_pos m
  have hplt : p < s.mmFramesCount := by omega
  have hne : p + 2 ^ m ≠ p := by omega
  have hne' : p ≠ p + 2 ^ m := hne.symm
  have hregion : Function.update s.mmFreeRegion (m + 1) (s.next p) m = s.mmFreeRegion m :=
    Function.update_of_ne (by omega) _ _
  unfold divideBuddy
  simp only [hp, deref, bind, Except.bind, hacc.read_ok hplt, Pmm.setRegion, Nat.add_sub_cancel]
  simp only [hacc.modify_with hlt, hacc.modify_with hplt, hacc.read_with hplt, Function.update_self,
    Function.update_of_ne hne, Function.update_of_ne hne']
  simp only [pure, Except.pure, Except.ok.injEq, Pmm.mk.injEq, true_and]
  refine ⟨?_, ?_⟩
  · funext x
    by_cases hx : x = p
    · subst hx
      simp
    · by_cases hx' : x = p + 2 ^ m
      · subst hx'
        simp only [Function.update_of_ne hx, Function.update_self, ← hregion]
        simp [Pmm.next]
      · simp only [Function.update_of_ne hx, Function.update_of_ne hx']
  · rfl

theorem divideBuddy_spec {m : ℕ} (h : Core s L A U) (hm : m + 1 ≤ frameMaxOrder)
    (hL : L (m + 1) = p :: rest) :
    ∃ s', divideBuddy (m + 1) s = .ok s' ∧
      Core s' (Function.update (Function.update L (m + 1) rest) m (p :: (p + 2 ^ m) :: L m)) A U ∧
      blocksOf (Function.update (Function.update L (m + 1) rest) m (p :: (p + 2 ^ m) :: L m)) =
        blocksOf L \ {⟨p, m + 1⟩} ∪ {⟨p, m⟩, ⟨p + 2 ^ m, m⟩} ∧
      ∀ c ∈ A, (s'.mmFrames c.base).flags = (s.mmFrames c.base).flags := by
  have hmk : m ≤ frameMaxOrder := by omega
  obtain ⟨hb, hreg, htail, hnot⟩ := h.head hm hL
  have hspan := fun x => Block.mem_span_halves (x := x) (b := ⟨p, m + 1⟩) (Nat.succ_pos m)
  have hbuddyU : p + 2 ^ m ∈ (Block.mk p (m + 1)).span :=
    (hspan _).mpr (Or.inr (Block.base_mem_span _))
  have hpU : p ∈ (Block.mk p (m + 1)).span := Block.base_mem_span _
  have hlt : p + 2 ^ m < s.mmFramesCount := h.inside _ (h.span_subset (Or.inl hb) hbuddyU)
  have hne : p ≠ p + 2 ^ m := by
    have := Nat.two_pow_pos m
    omega
  -- a frame that heads another block is neither half of this one
  have hother : ∀ c ∈ blocksOf L ∪ A, c ≠ ⟨p, m + 1⟩ → c.base ≠ p ∧ c.base ≠ p + 2 ^ m :=
    fun c hc hcb => ⟨fun heq => hcb (h.eq_of_base_mem (Or.inl hb) hc (heq ▸ hpU)),
      fun heq => hcb (h.eq_of_base_mem (Or.inl hb) hc (heq ▸ hbuddyU))⟩
  have hblocks : blocksOf (Function.update (Function.update L (m + 1) rest) m
      (p :: (p + 2 ^ m) :: L m)) = blocksOf L \ {⟨p, m + 1⟩} ∪ {⟨p, m⟩, ⟨p + 2 ^ m, m⟩} := by
    have h1 : blocksOf (Function.update L (m + 1) rest) = blocksOf L \ {⟨p, m + 1⟩} :=
      blocksOf_remove hm (mem_rest hnot hL)
    have h2 := blocksOf_push (Function.update L (m + 1) rest) (p + 2 ^ m) hmk
    rw [Function.update_of_ne (by omega : m ≠ m + 1)] at h2
    have h3 := blocksOf_push
      (Function.update (Function.update L (m + 1) rest) m ((p + 2 ^ m) :: L m)) p hmk
    rw [Function.update_idem, Function.update_self] at h3
    rw [h3, h2, h1, Set.insert_eq, Set.insert_eq, Set.union_comm, Set.union_comm {_}, Set.union_assoc,
      Set.union_comm {_}]
    rfl
  refine ⟨_, divideBuddy_eq h.accessible hreg hlt, ?_, hblocks, fun c hc => ?_⟩
  · refine h.split hb (Nat.succ_pos m) ⟨rfl, rfl⟩ hblocks (fun j hj => ?_) ?_ ?_ ?_
    · -- the lists: `m + 1` lost its head, `m` gained the two halves in front
      by_cases hjm : j = m
      · subst hjm
        simp only [Function.update_self]
        refine ⟨rfl, ?_⟩
        simp only [Pmm.next, Function.update_self, isList_cons, Function.update_of_ne hne.symm,
          true_and]
        refine (h.list j hj).congr fun q hq => ?_
        have hq' := hother ⟨q, j⟩ (Or.inl ⟨hj, hq⟩) (by simp)
        simp only [Function.update_of_ne hq'.1, Function.update_of_ne hq'.2, Pmm.next]
      · rw [Function.update_of_ne hjm]
        simp only [Function.update_of_ne hjm]
        refine (h.tail_lists hm hL rfl j hj).congr fun q hq => ?_
        have hq' : q ≠ p ∧ q ≠ p + 2 ^ m := by
          by_cases hjm' : j = m + 1
          · subst hjm'
            rw [Function.update_self] at hq
            refine hother ⟨q, m + 1⟩ (Or.inl ⟨hj, ?_⟩) fun heq => ?_
            · rw [hL]
              exact List.mem_cons_of_mem _ hq
            · have hqp : q = p := congrArg Block.base heq
              exact hnot (hqp ▸ hq)
          · rw [Function.update_of_ne hjm'] at hq
            exact hother ⟨q, j⟩ (Or.inl ⟨hj, hq⟩) fun heq => hjm' (congrArg Block.order heq)
        simp only [Pmm.next, Function.update_of_ne hq'.1, Function.update_of_ne hq'.2]
    · simp
    · simp
    · intro x hx hx'
      simp only [Block.left_base, Block.right_base, Nat.add_sub_cancel] at hx hx'
      simp only [Function.update_of_ne hx, Function.update_of_ne hx', and_self]
  · have hcb : c ≠ ⟨p, m + 1⟩ := fun heq => Set.disjoint_left.mp h.apart hb (heq ▸ hc)
    have hq' := hother c (Or.inr hc) hcb
    simp only [Function.update_of_ne hq'.1, Function.update_of_ne hq'.2]

/-! ### merge_buddy -/

theorem not_marked_of_clear {f : Frame} (hclear : Clear f) : ¬ Marked f := by
  intro hmarked
  exact absurd (hclear.symm.trans hmarked) (by decide)

/-- The tests of `merge_buddy` identify a free block: a record with the order of the block being
freed and clear flags, at the place of its buddy, heads a block on that order's list. -/
theorem Core.buddy_free (h : Core s L (insert b A) U) (hA : ∀ c ∈ A, Marked (s.mmFrames c.base))
    (hcount : b.buddy.base < s.mmFramesCount)
    (horder : (s.mmFrames b.buddy.base).order = b.order)
    (hclear : Clear (s.mmFrames b.buddy.base)) : b.buddy ∈ blocksOf L := by
  have hb : b ∈ blocksOf L ∪ insert b A := Or.inr (Or.inl rfl)
  have hal := h.tiling.aligned b hb
  have hal' := Block.buddy_aligned hal
  -- the record belongs to some block: outside the tiled frames every order is `-1`
  have hU : b.buddy.base ∈ U := by
    by_contra hnot
    have := h.outside _ hcount hnot
    omega
  obtain ⟨c, hc, hmem⟩ := (h.tiling.cover _).mp hU
  have hcal := h.tiling.aligned c hc
  rcases Nat.lt_or_ge b.order c.order with hlt | hle
  · -- inside a larger block the record may be stale, but that block holds `b` as well
    have hsub := Block.parent_subset hcal hal' hlt hmem (Block.base_mem_span _)
    rw [Block.parent_buddy] at hsub
    have hcb := h.eq_of_base_mem hc hb (hsub (Block.span_subset_parent hal b.base_mem_span))
    rw [hcb] at hlt
    omega
  · -- otherwise it heads its block, which then has the order read
    have hbase : b.buddy.base = c.base := Block.base_eq_of_mem hal' hcal hle hmem
    have hcorder := h.order c hc
    rw [← hbase, horder] at hcorder
    have hceq : c = b.buddy :=
      Block.eq_of_span_eq_order hbase.symm (by rw [Block.buddy_order]; omega)
    rw [hceq] at hc
    rcases hc with hc | hc | hc
    · exact hc
    · exact absurd hc b.buddy_ne
    · exact absurd (hA _ hc) (not_marked_of_clear hclear)

theorem setOrder_same (f : ℕ → Frame) (y : ℕ) (o : ℤ) (q : ℕ) :
    (Function.update f y { f y with order := o } q).next = (f q).next ∧
      (Function.update f y { f y with order := o } q).flags = (f q).flags ∧
      (q ≠ y → (Function.update f y { f y with order := o } q).order = (f q).order) := by
  by_cases hq : q = y
  · subst hq
    rw [Function.update_self]
    exact ⟨rfl, rfl, fun hne => absurd rfl hne⟩
  · rw [Function.update_of_ne hq]
    exact ⟨rfl, rfl, fun _ => rfl⟩

/-- One round of the merge: the buddy leaves its list and the lower half takes the next order. -/
theorem merge_step (h : Core s L (insert b A) U) (hbA : b ∉ A) (hclear : Clear (s.mmFrames b.base))
    (hlt : b.order < frameMaxOrder) (hbuddy : b.buddy ∈ blocksOf L) :
    ∃ s₁ s₂ L₁, removeFrameFromList b.buddy.base s = .ok s₁ ∧
      s₁.modify b.parent.base (fun f => { f with order := f.order + 1 }) = .ok s₂ ∧
      Core s₂ L₁ (insert b.parent A) U ∧ b.parent ∉ A ∧ Clear (s₂.mmFrames b.parent.base) ∧
      (∀ x, (s₂.mmFrames x).flags = (s.mmFrames x).flags) ∧ blocksOf L₁ ⊆ blocksOf L := by
  have hb : b ∈ blocksOf L ∪ insert b A := Or.inr (Or.inl rfl)
  have hal := h.tiling.aligned b hb
  have hbuddyA : b.buddy ∉ A := fun hmem => Set.disjoint_left.mp h.apart hbuddy (Or.inr hmem)
  have hparentA : b.parent ∉ A := fun hmem => by
    have hin : b.parent ∈ blocksOf L ∪ insert b A := Or.inr (Or.inr hmem)
    have horder := congrArg Block.order
      (h.eq_of_base_mem hin hb (Block.span_subset_parent hal b.base_mem_span))
    rw [Block.parent_order] at horder
    omega
  obtain ⟨s₁, L₁, hrun, h₁, hsame, hL₁, hfields⟩ := removeFrame_spec h hbuddy
  rw [Set.insert_comm] at h₁
  -- the head frame of the parent is the head frame of one of the two halves
  have hhead : ∃ c ∈ blocksOf L ∪ insert b A, c.base = b.parent.base ∧ c.order = b.order ∧
      Clear (s.mmFrames c.base) := by
    rcases min_choice b.base b.buddy.base with heq | heq
    · exact ⟨b, hb, heq.symm, rfl, hclear⟩
    · exact ⟨b.buddy, Or.inl hbuddy, heq.symm, rfl, h.clear _ hbuddy⟩
  obtain ⟨c, hc, hcbase, hcorder, hcclear⟩ := hhead
  have hplt : b.parent.base < s₁.mmFramesCount := by
    rw [hsame.2, ← hcbase]
    exact h.base_lt hc
  have hporder : (s₁.mmFrames b.parent.base).order = b.order := by
    rw [(hfields _).1, ← hcbase, h.order c hc, hcorder]
  have hset := setOrder_same s₁.mmFrames b.parent.base ((s₁.mmFrames b.parent.base).order + 1)
  refine ⟨s₁, _, L₁, hrun, h₁.accessible.modify_ok hplt _, ?_, hparentA, ?_,
    fun x => (hset x).2.1.trans (hfields x).2, hL₁ ▸ Set.sdiff_subset⟩
  · refine h₁.join hbA hbuddyA hlt ⟨rfl, rfl⟩ rfl (fun x => (hset x).1) (fun x => (hset x).2.1) ?_
      fun x hx => (hset x).2.2 hx
    simp only [Function.update_self, hporder, Block.parent_order, Nat.cast_add, Nat.cast_one]
  · rw [Clear, (hset _).2.1, (hfields _).2, ← hcbase]
    exact hcclear

/-- The buddy `merge_buddy` looks at. -/
def Pmm.buddyPfn (s : Pmm) (frame : ℕ) : ℕ := frame ^^^ 2 ^ (s.mmFrames frame).order.toNat

/-- All tests of one round of `merge_buddy` pass. -/
structure TestsPass (s : Pmm) (frame : ℕ) : Prop where
  below : (s.mmFrames frame).order < frameMaxOrder
  inside : s.buddyPfn frame < s.mmFramesCount
  order : (s.mmFrames (s.buddyPfn frame)).order = (s.mmFrames frame).order
  flags : (s.mmFrames (s.buddyPfn frame)).flags &&& (frameAllocated ||| frameReserved) = 0

/-- One round of the loop of `merge_buddy`: `none` where it leaves the loop. -/
def mergeRound (frame : ℕ) (s : Pmm) : Except Halt (Option (ℕ × Pmm)) := do
  let f ← s.read frame
  if f.order < frameMaxOrder then do
    let order ← regionIndex f.order
    let buddyPfn := frame ^^^ 2 ^ order
    if s.mmFramesCount ≤ buddyPfn then return none
    let b ← s.read buddyPfn
    if b.order ≠ f.order then return none
    if b.flags &&& (frameAllocated ||| frameReserved) ≠ 0 then return none
    let s ← removeFrameFromList buddyPfn s
    let frame := if buddyPfn < frame then buddyPfn else frame
    let s ← s.modify frame fun f => { f with order := f.order + 1 }
    return some (frame, s)
  else return none

theorem mergeLoop_succ (fuel frame : ℕ) (s : Pmm) :
    mergeLoop (fuel + 1) frame s = mergeRound frame s >>= fun next =>
      next.elim (.ok (frame, s)) fun x => mergeLoop fuel x.1 x.2 := by
  rw [mergeLoop, mergeRound, bind_assoc]
  refine bind_congr fun f => ?_
  by_cases hlt : f.order < frameMaxOrder
  swap
  · rw [if_neg hlt, if_neg hlt]
    rfl
  rw [if_pos hlt, if_pos hlt, bind_assoc]
  refine bind_congr fun k => ?_
  by_cases hcount : s.mmFramesCount ≤ frame ^^^ 2 ^ k
  · rw [if_pos hcount, if_pos hcount]
    rfl
  rw [if_neg hcount, if_neg hcount, bind_assoc]
  refine bind_congr fun b => ?_
  by_cases horder : b.order ≠ f.order
  · rw [if_pos horder, if_pos horder]
    rfl
  rw [if_neg horder, if_neg horder]
  by_cases hflags : b.flags &&& (frameAllocated ||| frameReserved) ≠ 0
  · rw [if_pos hflags, if_pos hflags]
    rfl
  rw [if_neg hflags, if_neg hflags]
  simp only [bind_assoc]
  rfl

theorem Core.buddyPfn_eq (h : Core s L A U) (hb : b ∈ blocksOf L ∪ A) :
    s.buddyPfn b.base = b.buddy.base := by
  rw [Pmm.buddyPfn, h.order b hb]
  rfl

theorem mergeRound_stop (h : Core s L (insert b A) U) (hnot : ¬ TestsPass s b.base) :
    mergeRound b.base s = .ok none := by
  have hb : b ∈ blocksOf L ∪ insert b A := Or.inr (Or.inl rfl)
  have hbase : b.base ^^^ 2 ^ b.order = b.buddy.base := rfl
  have hpfn := h.buddyPfn_eq hb
  have horder := h.order b hb
  rw [mergeRound, h.accessible.read_ok (h.base_lt hb), ok_bind, horder]
  by_cases hlt : (b.order : ℤ) < frameMaxOrder
  swap
  · rw [if_neg hlt]
    rfl
  rw [if_pos hlt, regionIndex_ok (h.le b hb), ok_bind, hbase]
  by_cases hcount : s.mmFramesCount ≤ b.buddy.base
  · rw [if_pos hcount]
    rfl
  rw [if_neg hcount, h.accessible.read_ok (by omega), ok_bind]
  by_cases hord : (s.mmFrames b.buddy.base).order ≠ b.order
  · rw [if_pos hord]
    rfl
  rw [if_neg hord]
  by_cases hflags : (s.mmFrames b.buddy.base).flags &&& (frameAllocated ||| frameReserved) ≠ 0
  · rw [if_pos hflags]
    rfl
  · exact absurd ⟨horder.symm ▸ hlt, by omega, by rw [hpfn, horder]; exact not_not.mp hord,
      hpfn.symm ▸ not_not.mp hflags⟩ hnot

theorem mergeRound_merge (h : Core s L (insert b A) U) (hbA : b ∉ A)
    (hA : ∀ c ∈ A, Marked (s.mmFrames c.base)) (hclear : Clear (s.mmFrames b.base))
    (htests : TestsPass s b.base) :
    b.order < frameMaxOrder ∧ b.buddy ∈ blocksOf L ∧
      ∃ s₁ s₂ L₁, removeFrameFromList b.buddy.base s = .ok s₁ ∧
        mergeRound b.base s = .ok (some (b.parent.base, s₂)) ∧
        Core s₂ L₁ (insert b.parent A) U ∧ b.parent ∉ A ∧ Clear (s₂.mmFrames b.parent.base) ∧
        (∀ x, (s₂.mmFrames x).flags = (s.mmFrames x).flags) ∧ blocksOf L₁ ⊆ blocksOf L := by
  have hb : b ∈ blocksOf L ∪ insert b A := Or.inr (Or.inl rfl)
  have hbase : b.base ^^^ 2 ^ b.order = b.buddy.base := rfl
  obtain ⟨hlt, hinside, hord, hflags⟩ := htests
  rw [h.buddyPfn_eq hb] at hinside hord hflags
  rw [h.order b hb] at hlt hord
  have hbuddy : b.buddy ∈ blocksOf L := h.buddy_free hA hinside hord hflags
  have hmin : (if b.buddy.base < b.base then b.buddy.base else b.base) = b.parent.base := by
    simp only [Block.parent]
    split_ifs <;> omega
  have hlt' : b.order < frameMaxOrder := by omega
  obtain ⟨s₁, s₂, L₁, hremove, hraise, h₂, hparentA, hpclear, hfr, hsub⟩ :=
    merge_step h hbA hclear hlt' hbuddy
  refine ⟨hlt', hbuddy, s₁, s₂, L₁, hremove, ?_, h₂, hparentA, hpclear, hfr, hsub⟩
  rw [mergeRound, h.accessible.read_ok (h.base_lt hb), ok_bind, h.order b hb, if_pos hlt,
    regionIndex_ok (h.le b hb), ok_bind, hbase, if_neg (by omega), h.accessible.read_ok hinside,
    ok_bind, if_neg (not_not.mpr hord), if_neg (not_not.mpr hflags), hremove, ok_bind]
  simp only [hmin]
  rw [hraise]
  rfl

theorem mergeLoop_spec {fuel : ℕ} (h : Core s L (insert b A) U) (hbA : b ∉ A)
    (hA : ∀ c ∈ A, Marked (s.mmFrames c.base)) (hclear : Clear (s.mmFrames b.base))
    (hfuel : frameMaxOrder - b.order ≤ fuel) :
    ∃ s' L' b', mergeLoop fuel b.base s = .ok (b'.base, s') ∧ Core s' L' (insert b' A) U ∧
      b' ∉ A ∧ Clear (s'.mmFrames b'.base) ∧ (∀ x, (s'.mmFrames x).flags = (s.mmFrames x).flags) ∧
      blocksOf L' ⊆ blocksOf L ∧ (b'.order < frameMaxOrder → b'.buddy ∉ blocksOf L') := by
  induction fuel generalizing s L b with
  | zero =>
    have hb : b ∈ blocksOf L ∪ insert b A := Or.inr (Or.inl rfl)
    have hle : ¬ b.order < frameMaxOrder := by omega
    rw [mergeLoop, h.accessible.read_ok (h.base_lt hb)]
    simp only [bind, Except.bind, h.order b hb]
    rw [if_neg (by omega)]
    exact ⟨s, L, b, rfl, h, hbA, hclear, fun _ => rfl, subset_rfl, fun hlt => absurd hlt hle⟩
  | succ fuel ih =>
    have hb : b ∈ blocksOf L ∪ insert b A := Or.inr (Or.inl rfl)
    rw [mergeLoop_succ]
    by_cases htests : TestsPass s b.base
    swap
    · rw [mergeRound_stop h htests]
      refine ⟨s, L, b, rfl, h, hbA, hclear, fun _ => rfl, subset_rfl, fun hlt hmem => htests ?_⟩
      -- a free buddy passes the tests
      have hpfn := h.buddyPfn_eq hb
      refine ⟨by rw [h.order b hb]; omega, hpfn.symm ▸ h.base_lt (Or.inl hmem), ?_,
        hpfn.symm ▸ h.clear _ hmem⟩
      rw [hpfn, h.order _ (Or.inl hmem), h.order b hb]
      rfl
    obtain ⟨-, -, s₁, s₂, L₁, -, hround, h₂, hparentA, hpclear, hfr, hsub₁⟩ :=
      mergeRound_merge h hbA hA hclear htests
    rw [hround]
    obtain ⟨s', L', b', hrun, h', hbA', hclear', hflags', hsub, hbuddy'⟩ :=
      ih h₂ hparentA
        (fun c hc => by
          rw [Marked, hfr]
          exact hA c hc)
        hpclear (by rw [Block.parent_order]; omega)
    exact ⟨s', L', b', hrun, h', hbA', hclear', fun x => (hflags' x).trans (hfr x),
      hsub.trans hsub₁, hbuddy'⟩

theorem mergeBuddy_spec (h : Core s L (insert b A) U) (hbA : b ∉ A)
    (hA : ∀ c ∈ A, Marked (s.mmFrames c.base)) (hclear : Clear (s.mmFrames b.base)) :
    ∃ s' L', mergeBuddy b.base s = .ok s' ∧ Core s' L' A U ∧
      (∀ x, (s'.mmFrames x).flags = (s.mmFrames x).flags) ∧
      ∀ D, Coalesced D frameMaxOrder (blocksOf L) → Coalesced D frameMaxOrder (blocksOf L') := by
  have hb : b ∈ blocksOf L ∪ insert b A := Or.inr (Or.inl rfl)
  have hfuel : ((frameMaxOrder : ℤ) - (b.order : ℤ)).toNat = frameMaxOrder - b.order := by omega
  obtain ⟨s₁, L₁, c, hrun, h₁, hcA, hcclear, hfr, hsub, hstop⟩ :=
    mergeLoop_spec h hbA hA hclear (le_refl (frameMaxOrder - b.order))
  have hc : c ∈ blocksOf L₁ ∪ insert c A := Or.inr (Or.inl rfl)
  have hcle := h₁.le c hc
  have hset := setNext_same s₁.mmFrames c.base (s₁.mmFreeRegion c.order)
  have hadd : blocksOf (Function.update L₁ c.order (c.base :: L₁ c.order)) =
      insert c (blocksOf L₁) := blocksOf_push _ _ hcle
  unfold mergeBuddy
  rw [h.accessible.read_ok (h.base_lt hb)]
  simp only [bind, Except.bind, h.order b hb, hfuel, hrun]
  rw [h₁.accessible.read_ok (h₁.base_lt hc)]
  simp only [h₁.order c hc, regionIndex_ok hcle]
  rw [h₁.accessible.modify_ok (h₁.base_lt hc)]
  refine ⟨_, Function.update L₁ c.order (c.base :: L₁ c.order), rfl, ?_,
    fun x => (hset x).2.trans (hfr x), fun D hco => ?_⟩
  · refine h₁.give hcA ⟨rfl, rfl⟩ hcclear hadd (fun j hj => ?_) (fun x => (hset x).1)
      fun x => (hset x).2
    have hother : ∀ q ∈ L₁ j, q ≠ c.base := fun q hq heq => by
      have hin : (⟨q, j⟩ : Block) ∈ blocksOf L₁ := ⟨hj, hq⟩
      have := h₁.eq_of_base_mem hc (Or.inl hin) (heq ▸ c.base_mem_span)
      exact Set.disjoint_left.mp h₁.apart hin (Or.inl this)
    by_cases hjc : j = c.order
    · subst hjc
      simp only [Function.update_self, Pmm.setRegion]
      refine (h₁.list _ hj).push ?_ fun q hq => Pmm.next_of_ne (s := s₁) _ (hother q hq)
      simp [Pmm.next]
    · simp only [Function.update_of_ne hjc, Pmm.setRegion]
      exact (h₁.list j hj).congr fun q hq => Pmm.next_of_ne (s := s₁) _ (hother q hq)
  · rw [hadd]
    exact (hco.subset hsub).insert hstop

/-! ### free_frame -/

theorem Core.reflag (h : Core s L A U) (hs : SameTable s s')
    (hregion : s'.mmFreeRegion = s.mmFreeRegion) (hnext : s'.next = s.next)
    (horder : ∀ x, (s'.mmFrames x).order = (s.mmFrames x).order)
    (hflags : ∀ c ∈ blocksOf L, (s'.mmFrames c.base).flags = (s.mmFrames c.base).flags) :
    Core s' L A U where
  access := h.accessible.of_same hs
  count := hs.2 ▸ h.count
  inside x hx := hs.2 ▸ h.inside x hx
  outside x hx hxU := (horder x).trans (h.outside x (hs.2 ▸ hx) hxU)
  list k hk := by
    rw [hregion, hnext]
    exact h.list k hk
  order c hc := (horder _).trans (h.order c hc)
  le := h.le
  clear c hc := by
    rw [Clear, hflags c hc]
    exact h.clear c hc
  apart := h.apart
  tiling := h.tiling

theorem setFlags_same (f : ℕ → Frame) (y : ℕ) (w : BitVec 32) (q : ℕ) :
    (Function.update f y { f y with flags := w } q).order = (f q).order ∧
      (Function.update f y { f y with flags := w } q).next = (f q).next ∧
      (q ≠ y → (Function.update f y { f y with flags := w } q).flags = (f q).flags) := by
  by_cases hq : q = y
  · subst hq
    rw [Function.update_self]
    exact ⟨rfl, rfl, fun hne => absurd rfl hne⟩
  · rw [Function.update_of_ne hq]
    exact ⟨rfl, rfl, fun _ => rfl⟩

theorem clear_of_marked {f : Frame} (h : Marked f) :
    Clear { f with flags := f.flags &&& ~~~frameAllocated } := by
  rw [Marked] at h
  rw [Clear, BitVec.and_assoc, BitVec.and_comm (~~~_), ← BitVec.and_assoc, h]
  decide

theorem marked_of_clear {f : Frame} (h : Clear f) :
    Marked { f with flags := f.flags ||| frameAllocated } := by
  rw [Clear] at h
  rw [Marked, BitVec.and_or_distrib_right, h]
  decide

/-- `free_frame` clears the flag of a held block, which is then neither held nor free, and merges. -/
theorem freeFrame_eq (h : Core s L A U) (hA : ∀ c ∈ A, Marked (s.mmFrames c.base)) (hb : b ∈ A) :
    ∃ s₁, s.modify b.base (fun f => { f with flags := f.flags &&& ~~~frameAllocated }) = .ok s₁ ∧
      freeFrame (b.base <<< pageShift) s = mergeBuddy b.base s₁ ∧
      Core s₁ L (insert b (A \ {b})) U ∧ (∀ c ∈ A \ {b}, Marked (s₁.mmFrames c.base)) ∧
      Clear (s₁.mmFrames b.base) := by
  have hpfn : (b.base <<< pageShift) >>> pageShift = b.base := by
    rw [shiftLeft_page, shiftRight_page, Nat.mul_div_cancel _ (by norm_num)]
  have hset := setFlags_same s.mmFrames b.base ((s.mmFrames b.base).flags &&& ~~~frameAllocated)
  have hne : ∀ c ∈ blocksOf L ∪ A, c ≠ b → c.base ≠ b.base := fun c hc hcb heq =>
    hcb (h.eq_of_base_mem (Or.inr hb) hc (heq ▸ b.base_mem_span))
  have hmodify := h.accessible.modify_ok (h.base_lt (Or.inr hb))
    fun f => { f with flags := f.flags &&& ~~~frameAllocated }
  refine ⟨_, hmodify, ?_, ?_, fun c hc => ?_, ?_⟩
  · simp only [freeFrame, hpfn, hmodify, ok_bind]
  · rw [Set.insert_sdiff_singleton, Set.insert_eq_of_mem hb]
    exact h.reflag ⟨rfl, rfl⟩ rfl (funext fun x => (hset x).2.1) (fun x => (hset x).1)
      fun c hc => (hset _).2.2 (hne c (Or.inl hc)
        fun heq => Set.disjoint_left.mp h.apart hc (heq ▸ hb))
  · rw [Marked, (hset _).2.2 (hne c (Or.inr hc.1) hc.2)]
    exact hA c hc.1
  · simp only [Function.update_self]
    exact clear_of_marked (hA b hb)

theorem freeFrame_spec (h : Core s L A U) (hA : ∀ c ∈ A, Marked (s.mmFrames c.base))
    (hb : b ∈ A) :
    ∃ s' L', freeFrame (b.base <<< pageShift) s = .ok s' ∧ Core s' L' (A \ {b}) U ∧
      (∀ c ∈ A \ {b}, Marked (s'.mmFrames c.base)) ∧
      ∀ D, Coalesced D frameMaxOrder (blocksOf L) → Coalesced D frameMaxOrder (blocksOf L') := by
  obtain ⟨s₁, -, heq, h₁, hmarked, hclear⟩ := freeFrame_eq h hA hb
  obtain ⟨s', L', hrun, h', hflags, hco⟩ :=
    mergeBuddy_spec h₁ (fun hmem => hmem.2 rfl) hmarked hclear
  exact ⟨s', L', heq.trans hrun, h', fun c hc => by
    rw [Marked, hflags]
    exact hmarked c hc, hco⟩

/-! ### alloc_frames -/

theorem findOrder_spec (s : Pmm) (n k : ℕ) :
    k ≤ findOrder s n k ∧ findOrder s n k ≤ k + n ∧
      (∀ j, k ≤ j → j < findOrder s n k → s.mmFreeRegion j = none) ∧
      ((s.mmFreeRegion (findOrder s n k)).isSome ∨ findOrder s n k = k + n) := by
  induction n generalizing k with
  | zero => exact ⟨le_refl _, le_refl _, fun j h1 h2 => absurd h1 (Nat.not_le_of_lt h2), Or.inr rfl⟩
  | succ n ih =>
    rw [findOrder]
    split_ifs with hsome
    · exact ⟨le_refl _, by omega, fun j h1 h2 => absurd h1 (Nat.not_le_of_lt h2), Or.inl hsome⟩
    · obtain ⟨h1, h2, h3, h4⟩ := ih (k + 1)
      refine ⟨by omega, by omega, fun j hj hjlt => ?_, h4.imp_right fun h => by omega⟩
      rcases Nat.eq_or_lt_of_le hj with rfl | hj
      · exact Option.not_isSome_iff_eq_none.mp hsome
      · exact h3 j hj hjlt

theorem divideDown_spec {n : ℕ} (h : Core s L A U) (hk : k + n ≤ frameMaxOrder)
    (hL : L (k + n) = p :: rest) :
    ∃ s' L' rest', divideDown k n s = .ok s' ∧ Core s' L' A U ∧ L' k = p :: rest' ∧
      (∀ c ∈ A, (s'.mmFrames c.base).flags = (s.mmFrames c.base).flags) ∧
      (∀ c ∈ blocksOf L, c.order < k → c ∈ blocksOf L') ∧
      ∀ D, Coalesced D frameMaxOrder (blocksOf L \ {⟨p, k + n⟩}) →
        Coalesced D frameMaxOrder (blocksOf L' \ {⟨p, k⟩}) := by
  induction n generalizing s L rest with
  | zero => exact ⟨s, L, rest, rfl, h, hL, fun _ _ => rfl, fun _ hc _ => hc, fun _ hco => hco⟩
  | succ n ih =>
    obtain ⟨hb, -, -, -⟩ := h.head hk hL
    obtain ⟨s₁, hrun, h₁, hblocks, hfl⟩ := divideBuddy_spec (m := k + n) h hk hL
    obtain ⟨s', L', rest', hrun', h', hL', hfl', hlow, hco⟩ :=
      ih h₁ (by omega) (by rw [Function.update_self])
    refine ⟨s', L', rest', ?_, h', hL', fun c hc => (hfl' c hc).trans (hfl c hc),
      fun c hc hlt => hlow c ?_ hlt, fun D hD => hco D ?_⟩
    · rw [divideDown, show k + (n + 1) = k + n + 1 from rfl, hrun]
      exact hrun'
    · rw [hblocks]
      exact Or.inl ⟨hc, fun heq => by
        rw [heq] at hlt
        dsimp only at hlt
        omega⟩
    · -- the upper half joins without its buddy: the lower half is the one being divided further
      have hal : Block.Aligned ⟨p, k + (n + 1)⟩ := h.tiling.aligned _ (Or.inl hb)
      have hright : Coalesced D frameMaxOrder
          (insert ⟨p + 2 ^ (k + n), k + n⟩ (blocksOf L \ {⟨p, k + (n + 1)⟩})) := by
        refine hD.insert fun _ hmem => ?_
        have hleft := Block.buddy_right hal (Nat.succ_pos (k + n))
        rw [show (⟨p + 2 ^ (k + n), k + n⟩ : Block) = Block.right ⟨p, k + (n + 1)⟩ from rfl,
          hleft] at hmem
        have hsub : (Block.left ⟨p, k + (n + 1)⟩).span ⊆ (Block.mk p (k + (n + 1))).span :=
          fun x hx => (Block.mem_span_halves (Nat.succ_pos (k + n))).mpr (Or.inl hx)
        exact h.tiling.notMem_of_subset (Or.inl hb) hsub
          (fun heq => absurd (congrArg Block.order heq) (by simp)) (Or.inl hmem.1)
      refine hright.subset ?_
      rw [hblocks]
      rintro c ⟨hc | rfl | rfl, hne⟩
      · exact Or.inr hc
      · exact absurd rfl hne
      · exact Or.inl rfl

section allocated
variable {s' : Pmm} (h : Core s L A U) (hk : k ≤ frameMaxOrder) (hL : L k = p :: rest)
  (hframes : s'.mmFrames = Function.update s.mmFrames p
    { s.mmFrames p with flags := (s.mmFrames p).flags ||| frameAllocated })
include h hk hL hframes

theorem Core.allocated (hsame : SameTable s s')
    (hregion : s'.mmFreeRegion = Function.update s.mmFreeRegion k (s.next p)) :
    Core s' (Function.update L k rest) (insert ⟨p, k⟩ A) U := by
  obtain ⟨hb, -, -, hnot⟩ := h.head hk hL
  have hset := setFlags_same s.mmFrames p ((s.mmFrames p).flags ||| frameAllocated)
  rw [← hframes] at hset
  refine h.take hb hsame (blocksOf_remove hk (mem_rest hnot hL)) (fun j hj => ?_)
    (fun x => (hset x).1) fun x hx => (hset x).2.2 hx
  exact (h.tail_lists hk hL hregion j hj).congr fun q _ => (hset q).2.1

theorem Core.allocated_marked (hA : ∀ c ∈ A, Marked (s.mmFrames c.base)) :
    ∀ c ∈ insert (⟨p, k⟩ : Block) A, Marked (s'.mmFrames c.base) := by
  obtain ⟨hb, -, -, -⟩ := h.head hk hL
  rintro c (rfl | hc)
  · rw [hframes, Function.update_self]
    exact marked_of_clear (h.clear _ hb)
  · have hne : c.base ≠ p := by
      intro heq
      have hbc := h.eq_of_base_mem (Or.inl hb) (Or.inr hc) (heq ▸ Block.base_mem_span _)
      exact Set.disjoint_left.mp h.apart hb (hbc ▸ hc)
    rw [hframes, Function.update_of_ne hne]
    exact hA c hc

end allocated

theorem Core.list_empty (h : Core s L A U) (hk : k ≤ frameMaxOrder)
    (hnone : s.mmFreeRegion k = none) : L k = [] := by
  have hlist := h.list k hk
  rw [hnone] at hlist
  exact isList_none hlist

/-- `alloc_frames` either finds every list from the order asked for upwards empty, or hands out an
aligned block of that order cut from a free block. -/
theorem allocFrames_spec (h : Core s L A U) (hA : ∀ c ∈ A, Marked (s.mmFrames c.base))
    (hk : k ≤ frameMaxOrder) :
    (allocFrames k s = .ok (invalidAddress, s) ∧ ∀ c ∈ blocksOf L, c.order < k) ∨
    ∃ p s' L', allocFrames k s = .ok (p <<< pageShift, s') ∧ p <<< pageShift ≠ invalidAddress ∧
      Core s' L' (insert ⟨p, k⟩ A) U ∧
      (∀ c ∈ insert (⟨p, k⟩ : Block) A, Marked (s'.mmFrames c.base)) ∧ (⟨p, k⟩ : Block) ∉ A ∧
      (∃ c ∈ blocksOf L, k ≤ c.order) ∧
      (∀ c ∈ blocksOf L, c.order < k → c ∈ blocksOf L') ∧
      ∀ D, Coalesced D frameMaxOrder (blocksOf L) → Coalesced D frameMaxOrder (blocksOf L') := by
  obtain ⟨h1, h2, h3, h4⟩ := findOrder_spec s (frameMaxOrder - k) k
  unfold allocFrames
  simp only [bind, Except.bind]
  generalize findOrder s (frameMaxOrder - k) k = m at h1 h2 h3 h4
  have hm : m ≤ frameMaxOrder := by omega
  cases hreg : s.mmFreeRegion m with
  | none =>
    left
    refine ⟨rfl, fun c hc => Nat.lt_of_not_le fun hle => ?_⟩
    have hmmax : m = frameMaxOrder := by
      rw [hreg] at h4
      simp at h4
      omega
    have hempty : s.mmFreeRegion c.order = none := by
      rcases Nat.lt_or_ge c.order m with hlt | hge
      · exact h3 c.order hle hlt
      · rw [show c.order = m by have := hc.1; omega]
        exact hreg
    exact absurd hc.2 (by rw [h.list_empty hc.1 hempty]; exact List.not_mem_nil)
  | some p =>
    right
    have hlist := h.list m hm
    rw [hreg] at hlist
    obtain ⟨rest, hL, -⟩ := isList_some hlist
    obtain ⟨n, rfl⟩ : ∃ n, m = k + n := ⟨m - k, by omega⟩
    have hbm := (h.head hm hL).1
    obtain ⟨s₁, L₁, rest₁, hrun, h₁, hL₁, hfl, hlow, hco⟩ := divideDown_spec h hm hL
    obtain ⟨hb, hreg₁, -, hnot⟩ := h₁.head hk hL₁
    have hplt : p < s₁.mmFramesCount := h₁.base_lt (Or.inl hb)
    have hcount := h₁.count
    have hshift : wrap (p <<< pageShift) = p <<< pageShift := by
      rw [shiftLeft_page]
      exact wrap_of_lt (by omega)
    have hrest : blocksOf (Function.update L₁ k rest₁) = blocksOf L₁ \ {⟨p, k⟩} :=
      blocksOf_remove hk (mem_rest hnot hL₁)
    have hA₁ : ∀ c ∈ A, Marked (s₁.mmFrames c.base) := by
      intro c hc
      rw [Marked, hfl c hc]
      exact hA c hc
    simp only [Nat.add_sub_cancel_left, hrun, deref, hreg₁]
    rw [h₁.accessible.read_ok hplt]
    simp only [Pmm.setRegion]
    rw [h₁.accessible.modify_with hplt]
    refine ⟨p, _, Function.update L₁ k rest₁, by rw [hshift]; rfl, ?_, ?_, ?_,
      fun hmem => Set.disjoint_left.mp h₁.apart hb hmem, ⟨_, hbm, h1⟩, fun c hc hlt => ?_,
      fun D hD => ?_⟩
    · rw [shiftLeft_page, invalidAddress]
      omega
    · exact h₁.allocated hk hL₁ rfl ⟨rfl, rfl⟩ rfl
    · exact h₁.allocated_marked hk hL₁ rfl hA₁
    · rw [hrest]
      exact ⟨hlow c hc hlt, fun heq => by
        rw [heq] at hlt
        exact absurd hlt (lt_irrefl k)⟩
    · rw [hrest]
      exact hco D (hD.subset Set.sdiff_subset)

end Fynaos
