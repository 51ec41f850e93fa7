import Mathlib.Data.Nat.Bitwise
import Mathlib.Tactic.Ring

/-!
# Fields of a number

A number as a row of bit fields: `field n lo width` is the field of `n` at bit `lo`, and `pack` puts fields
side by side. Fields that do not overlap are read as they were written (`field_pack`), also when a mask
takes them from the middle of another number (`masked_eq`), and a number is packed from its fields
(`pack_fields`).
-/

namespace Fields

/-- A value for the `width` bits from `lo` on. -/
structure Part where
  lo : ℕ
  width : ℕ
  value : ℕ

def field (n lo width : ℕ) : ℕ := (n >>> lo) % 2 ^ width

/-- The low bits of each value at its place. -/
def pack : List Part → ℕ
  | [] => 0
  | p :: ps => (p.value % 2 ^ p.width) <<< p.lo ||| pack ps

def Part.Apart (p q : Part) : Prop := p.lo + p.width ≤ q.lo ∨ q.lo + q.width ≤ p.lo

instance (p q : Part) : Decidable (p.Apart q) := inferInstanceAs (Decidable (_ ∨ _))

variable {ps : List Part} {p : Part} {n lo width i : ℕ}

theorem testBit_field : (field n lo width).testBit i = (decide (i < width) && n.testBit (lo + i)) := by
  rw [field, Nat.testBit_mod_two_pow, Nat.testBit_shiftRight]

theorem field_lt (n lo width : ℕ) : field n lo width < 2 ^ width := Nat.mod_lt _ (Nat.two_pow_pos width)

theorem field_or (m n lo width : ℕ) : field (m ||| n) lo width = field m lo width ||| field n lo width := by
  apply Nat.eq_of_testBit_eq
  intro i
  rw [Nat.testBit_or, testBit_field, testBit_field, testBit_field, Nat.testBit_or, Bool.and_or_distrib_left]

theorem testBit_part (p : Part) (i : ℕ) : ((p.value % 2 ^ p.width) <<< p.lo).testBit i =
    (decide (p.lo ≤ i) && (decide (i - p.lo < p.width) && p.value.testBit (i - p.lo))) := by
  rw [Nat.testBit_shiftLeft, Nat.testBit_mod_two_pow]

theorem testBit_pack_of_outside (h : ∀ p ∈ ps, i < p.lo ∨ p.lo + p.width ≤ i) :
    (pack ps).testBit i = false := by
  induction ps with
  | nil => simp [pack]
  | cons p ps ih =>
    rw [pack, Nat.testBit_or, testBit_part, ih fun q hq => h q (List.mem_cons_of_mem _ hq), Bool.or_false]
    rcases h p List.mem_cons_self with hlow | hhigh
    · simp [Nat.not_le.mpr hlow]
    · have hout : ¬ i - p.lo < p.width := by omega
      simp [hout]

theorem pack_lt {k : ℕ} (h : ∀ p ∈ ps, p.lo + p.width ≤ k) : pack ps < 2 ^ k := by
  apply Nat.lt_pow_two_of_testBit
  intro i hi
  exact testBit_pack_of_outside fun p hp => Or.inr ((h p hp).trans hi)

theorem field_pack (hps : ps.Pairwise Part.Apart) (hp : p ∈ ps) :
    field (pack ps) p.lo p.width = p.value % 2 ^ p.width := by
  apply Nat.eq_of_testBit_eq
  intro i
  rw [testBit_field, Nat.testBit_mod_two_pow]
  by_cases hi : i < p.width
  · simp only [hi, decide_true, Bool.true_and]
    induction ps with
    | nil => cases hp
    | cons q ps ih =>
      obtain ⟨hq, hps⟩ := List.pairwise_cons.mp hps
      rw [pack, Nat.testBit_or, testBit_part]
      rcases List.mem_cons.mp hp with rfl | hp
      · rw [testBit_pack_of_outside fun r hr => ?_]
        · simp [hi]
        · have hapart := hq r hr
          unfold Part.Apart at hapart
          omega
      · have hout : ¬ (q.lo ≤ p.lo + i ∧ p.lo + i - q.lo < q.width) := by
          have hapart := hq p hp
          unfold Part.Apart at hapart
          omega
        rw [ih hps hp]
        rcases not_and_or.mp hout with hlow | hhigh
        · simp [hlow]
        · simp [hhigh]
  · simp [hi]

theorem testBit_pack_fields (hvalues : ∀ p ∈ ps, p.value = field n p.lo p.width) :
    (pack ps).testBit i = true ↔ n.testBit i = true ∧ ∃ p ∈ ps, p.lo ≤ i ∧ i < p.lo + p.width := by
  induction ps with
  | nil => simp [pack]
  | cons p ps ih =>
    have hbit : ((p.value % 2 ^ p.width) <<< p.lo).testBit i = true ↔
        n.testBit i = true ∧ p.lo ≤ i ∧ i < p.lo + p.width := by
      rw [testBit_part, hvalues p List.mem_cons_self, testBit_field]
      by_cases hlow : p.lo ≤ i
      · have hsum : p.lo + (i - p.lo) = i := Nat.add_sub_cancel' hlow
        have hwidth : i - p.lo < p.width ↔ i < p.lo + p.width := by omega
        simp [hlow, hsum, hwidth, and_comm]
      · simp [hlow]
    rw [pack, Nat.testBit_or, Bool.or_eq_true, hbit, ih fun q hq => hvalues q (List.mem_cons_of_mem _ hq),
      ← and_or_left]
    simp only [List.mem_cons, exists_eq_or_imp]

theorem pack_fields (hvalues : ∀ p ∈ ps, p.value = field n p.lo p.width)
    (hall : ∀ i, n.testBit i = true → ∃ p ∈ ps, p.lo ≤ i ∧ i < p.lo + p.width) : pack ps = n := by
  apply Nat.eq_of_testBit_eq
  intro i
  rw [Bool.eq_iff_iff, testBit_pack_fields hvalues]
  exact and_iff_left_of_imp (hall i)

theorem masked_eq (n lo width k : ℕ) :
    (n &&& (2 ^ width - 1) <<< lo) <<< k = (field n lo width % 2 ^ width) <<< (lo + k) := by
  apply Nat.eq_of_testBit_eq
  intro i
  rw [Nat.testBit_shiftLeft, Nat.testBit_and, Nat.testBit_shiftLeft, Nat.testBit_two_pow_sub_one,
    Nat.testBit_shiftLeft, Nat.testBit_mod_two_pow, testBit_field]
  by_cases hk : k ≤ i
  · by_cases hlo : lo ≤ i - k
    · have hsum : lo + (i - (lo + k)) = i - k := by omega
      have hdiff : i - k - lo = i - (lo + k) := by omega
      have hle : lo + k ≤ i := by omega
      rw [hsum, hdiff]
      by_cases hw : i - (lo + k) < width <;> simp [hk, hlo, hle, hw]
    · have hle : ¬ lo + k ≤ i := by omega
      simp [hlo, hle]
  · have hle : ¬ lo + k ≤ i := by omega
    simp [hk, hle]

theorem field_zero_add (n k j : ℕ) : n % 2 ^ (k + j) = n % 2 ^ k + 2 ^ k * field n k j := by
  rw [field, Nat.shiftRight_eq_div_pow, Nat.pow_add, Nat.mod_mul]

end Fields
