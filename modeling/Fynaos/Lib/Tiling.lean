import Fynaos.Lib.Block

/-!
# Tilings by aligned blocks

`Tiling S U`: the blocks of `S` are aligned, pairwise disjoint and cover exactly `U`. Every edit is
an instance of `Tiling.replace` (exchange some blocks for others that cover the same cells):
splitting a block into halves and joining two buddies in particular.

`Coalesced D m S`: no two buddies of order below `m`, whose parent satisfies `D`, are both in `S`.
It passes to subsets, so it is kept by everything that only takes blocks away, and a block may be
added when its own buddy is missing. `Tiling.exists_cover` says what it is good for: an aligned run
covered by `S` lies inside one block of `S`, unless two buddies inside the run are both present.
-/

namespace Buddy

open Block

variable {S T T' F A : Set Block} {U V : Set ℕ}

/-- The blocks of `S` are aligned, pairwise disjoint and cover exactly `U`. -/
structure Tiling (S : Set Block) (U : Set ℕ) : Prop where
  aligned : ∀ b ∈ S, b.Aligned
  disjoint : S.PairwiseDisjoint span
  cover : ∀ x, x ∈ U ↔ ∃ b ∈ S, x ∈ b.span

namespace Tiling

theorem empty : Tiling ∅ ∅ := ⟨by simp, by simp, by simp⟩

theorem single {b : Block} (hb : b.Aligned) : Tiling {b} b.span :=
  ⟨by simpa using hb, by simp, by simp⟩

theorem eq_of_meet (h : Tiling S U) {a b : Block} (ha : a ∈ S) (hb : b ∈ S) {x : ℕ}
    (hxa : x ∈ a.span) (hxb : x ∈ b.span) : a = b := by
  by_contra hne
  exact Set.disjoint_left.mp (h.disjoint ha hb hne) hxa hxb

theorem replace (h : Tiling S U) (hT : T ⊆ S) (h' : Tiling T' V)
    (hV : ∀ x, x ∈ V ↔ ∃ b ∈ T, x ∈ b.span) : Tiling (S \ T ∪ T') U where
  aligned b hb := by
    rcases hb with hb | hb
    · exact h.aligned b hb.1
    · exact h'.aligned b hb
  disjoint := by
    refine Set.pairwiseDisjoint_union.mpr ⟨h.disjoint.subset Set.sdiff_subset, h'.disjoint, ?_⟩
    intro b hb c hc _
    rw [Set.disjoint_left]
    intro x hxb hxc
    obtain ⟨d, hd, hxd⟩ := (hV x).mp ((h'.cover x).mpr ⟨c, hc, hxc⟩)
    exact hb.2 (h.eq_of_meet hb.1 (hT hd) hxb hxd ▸ hd)
  cover x := by
    rw [h.cover]
    constructor
    · rintro ⟨b, hb, hx⟩
      by_cases hbT : b ∈ T
      · obtain ⟨c, hc, hxc⟩ := (h'.cover x).mp ((hV x).mpr ⟨b, hbT, hx⟩)
        exact ⟨c, Or.inr hc, hxc⟩
      · exact ⟨b, Or.inl ⟨hb, hbT⟩, hx⟩
    · rintro ⟨b, hb | hb, hx⟩
      · exact ⟨b, hb.1, hx⟩
      · obtain ⟨c, hc, hxc⟩ := (hV x).mp ((h'.cover x).mpr ⟨b, hb, hx⟩)
        exact ⟨c, hT hc, hxc⟩

theorem union (h : Tiling S U) (h' : Tiling T V) (hUV : Disjoint U V) : Tiling (S ∪ T) (U ∪ V) where
  aligned b hb := hb.elim (h.aligned b) (h'.aligned b)
  disjoint := by
    refine Set.pairwiseDisjoint_union.mpr ⟨h.disjoint, h'.disjoint, fun b hb c hc _ => ?_⟩
    rw [Set.disjoint_left]
    exact fun x hxb hxc => Set.disjoint_left.mp hUV ((h.cover x).mpr ⟨b, hb, hxb⟩)
      ((h'.cover x).mpr ⟨c, hc, hxc⟩)
  cover x := by
    simp only [Set.mem_union, h.cover, h'.cover, or_and_right, exists_or]

theorem halves {b : Block} (hb : b.Aligned) (hpos : 0 < b.order) :
    Tiling {b.left, b.right} b.span where
  aligned c hc := by
    rcases hc with rfl | rfl
    · exact left_aligned hb
    · exact right_aligned hb
  disjoint := by
    rw [Set.pairwiseDisjoint_insert]
    refine ⟨by simp, fun c hc _ => ?_⟩
    rw [Set.mem_singleton_iff.mp hc, ← buddy_left hb hpos]
    exact disjoint_buddy (left_aligned hb)
  cover x := by simp [mem_span_halves hpos]

theorem split (h : Tiling S U) {b : Block} (hb : b ∈ S) (hpos : 0 < b.order) :
    Tiling (S \ {b} ∪ {b.left, b.right}) U :=
  h.replace (Set.singleton_subset_iff.mpr hb) (halves (h.aligned b hb) hpos) (by simp)

theorem join (h : Tiling S U) {b : Block} (hb : b ∈ S) (hb' : b.buddy ∈ S) :
    Tiling (S \ {b, b.buddy} ∪ {b.parent}) U :=
  h.replace (Set.insert_subset hb (Set.singleton_subset_iff.mpr hb'))
    (single (parent_aligned (h.aligned b hb)))
    (by simp [mem_span_parent (h.aligned b hb)])

theorem notMem_of_subset (h : Tiling S U) {a b : Block} (hb : b ∈ S) (hsub : a.span ⊆ b.span)
    (hne : a ≠ b) : a ∉ S :=
  fun ha => hne (h.eq_of_meet ha hb a.base_mem_span (hsub a.base_mem_span))

/-- A covered aligned run lies inside one block, unless two buddies inside the run are present. -/
theorem exists_cover (h : Tiling S U) {r : Block} (hr : r.Aligned) (hsub : r.span ⊆ U)
    (hno : ∀ b ∈ S, b.buddy ∈ S → ¬ b.parent.span ⊆ r.span) : ∃ b ∈ S, r.span ⊆ b.span := by
  obtain ⟨base, order⟩ := r
  induction order generalizing base with
  | zero =>
    obtain ⟨b, hb, hx⟩ := (h.cover base).mp (hsub (base_mem_span _))
    refine ⟨b, hb, fun x hx' => ?_⟩
    rw [mem_span_zero.mp hx']
    exact hx
  | succ k ih =>
    have hpos : 0 < (Block.mk base (k + 1)).order := Nat.succ_pos k
    have hmem := fun x => mem_span_halves (x := x) hpos
    have hleft := left_aligned hr
    obtain ⟨c, hc, hcsub⟩ := ih base hleft (fun x hx => hsub ((hmem x).mpr (Or.inl hx)))
      (fun b hb hb' hp => hno b hb hb' fun x hx => (hmem x).mpr (Or.inl (hp hx)))
    obtain ⟨d, hd, hdsub⟩ := ih (base + 2 ^ k) (right_aligned hr)
      (fun x hx => hsub ((hmem x).mpr (Or.inr hx)))
      (fun b hb hb' hp => hno b hb hb' fun x hx => (hmem x).mpr (Or.inr (hp hx)))
    rcases Nat.lt_or_ge k c.order with hlt | hge
    · exact ⟨c, hc, subset_of_meet hr (h.aligned c hc) hlt (base_mem_span _)
        (hcsub (base_mem_span _))⟩
    rcases Nat.lt_or_ge k d.order with hlt | hge'
    · exact ⟨d, hd, subset_of_meet hr (h.aligned d hd) hlt
        ((hmem _).mpr (Or.inr (base_mem_span _))) (hdsub (base_mem_span _))⟩
    -- both halves are blocks of the tiling: two buddies that fill the run
    have hck : c.order = k := le_antisymm hge (order_le_of_subset hcsub)
    have hdk : d.order = k := le_antisymm hge' (order_le_of_subset hdsub)
    have hcl : Block.left ⟨base, k + 1⟩ = c :=
      Block.eq_of_meet hleft (h.aligned c hc) hck.symm (base_mem_span _) (hcsub (base_mem_span _))
    have hdr : Block.right ⟨base, k + 1⟩ = d :=
      Block.eq_of_meet (right_aligned hr) (h.aligned d hd) hdk.symm (base_mem_span _)
        (hdsub (base_mem_span _))
    refine absurd (fun x hx => ?_) (hno c hc ?_)
    · rw [← hcl, mem_span_parent hleft, buddy_left hr hpos] at hx
      exact (hmem x).mpr hx
    · rw [← hcl, buddy_left hr hpos, hdr]
      exact hd

end Tiling

/-! ### Coalesced sets of blocks -/

/-- No two buddies of order below `m` whose parent satisfies `D` are both present. -/
def Coalesced (D : Block → Prop) (m : ℕ) (S : Set Block) : Prop :=
  ∀ b ∈ S, b.buddy ∈ S → b.order < m → ¬ D b.parent

namespace Coalesced

variable {D : Block → Prop} {m : ℕ}

theorem subset (h : Coalesced D m S) (hTS : T ⊆ S) : Coalesced D m T :=
  fun b hb hb' hlt => h b (hTS hb) (hTS hb') hlt

theorem insert {b : Block} (h : Coalesced D m S) (hb : b.order < m → b.buddy ∉ S) :
    Coalesced D m (insert b S) := by
  rintro c (rfl | hc) hc' hlt
  · rcases hc' with hc' | hc'
    · exact absurd hc' (buddy_ne c)
    · exact absurd hc' (hb hlt)
  · rcases hc' with hc' | hc'
    · -- `b` is the buddy of `c`, so the buddy of `b` is present
      subst hc'
      rw [buddy_buddy] at hb
      exact absurd hc (hb hlt)
    · exact h c hc hc' hlt

end Coalesced

/-- A coalesced tiling holds every covered aligned run of order at most `m` inside one block. -/
theorem Tiling.exists_cover_of_coalesced {D : Block → Prop} {m : ℕ} (h : Tiling S U)
    (hco : Coalesced D m S) {r : Block} (hr : r.Aligned) (hle : r.order ≤ m) (hsub : r.span ⊆ U)
    (hD : ∀ b ∈ S, b.parent.span ⊆ r.span → D b.parent) : ∃ b ∈ S, r.span ⊆ b.span := by
  refine h.exists_cover hr hsub fun b hb hb' hp => ?_
  have hlt : b.order < m := by
    have := order_le_of_subset hp
    rw [parent_order] at this
    omega
  exact hco b hb hb' hlt (hD b hb hp)

end Buddy
