import Mathlib.Data.Nat.Digits.Lemmas

/-!
# Numerals

A numeral is a non-empty list of digits below the base, the highest first. Every number has one
shortest numeral, and no other numeral of that length has the same value (`shortest_spec`).
-/

namespace Numeral

variable {base n : ℕ} {l : List ℕ}

def value (base : ℕ) (l : List ℕ) : ℕ := Nat.ofDigits base l.reverse

structure Spells (base n : ℕ) (l : List ℕ) : Prop where
  ne_nil : l ≠ []
  lt_base : ∀ d ∈ l, d < base
  value_eq : value base l = n

/-- `l` is the shortest numeral for `n`, and the only one of its length. -/
structure Shortest (base n : ℕ) (l : List ℕ) : Prop extends Spells base n l where
  le_length : ∀ l', Spells base n l' → l.length ≤ l'.length
  unique : ∀ l', Spells base n l' → l'.length = l.length → l' = l

def shortest (base n : ℕ) : List ℕ := if n = 0 then [0] else (Nat.digits base n).reverse

theorem spells_shortest (hbase : 1 < base) (n : ℕ) : Spells base n (shortest base n) := by
  unfold shortest
  split_ifs with hzero
  · exact ⟨by simp, by simp; omega, by rw [hzero]; rfl⟩
  · refine ⟨?_, fun d hd => ?_, ?_⟩
    · rw [ne_eq, List.reverse_eq_nil_iff]
      exact Nat.digits_ne_nil_iff_ne_zero.mpr hzero
    · exact Nat.digits_lt_base hbase (List.mem_reverse.mp hd)
    · rw [value, List.reverse_reverse, Nat.ofDigits_digits]

theorem Spells.lt_pow (h : Spells base n l) (hbase : 1 < base) : n < base ^ l.length := by
  have hlt := Nat.ofDigits_lt_base_pow_length hbase fun d hd => h.lt_base d (List.mem_reverse.mp hd)
  rwa [List.length_reverse, ← value, h.value_eq] at hlt

theorem shortest_length_le {k : ℕ} (hbase : 1 < base) (hk : 1 ≤ k) (hn : n < base ^ k) :
    (shortest base n).length ≤ k := by
  unfold shortest
  split_ifs
  · exact hk
  · rw [List.length_reverse]
    exact (Nat.digits_length_le_iff hbase n).mpr hn

theorem shortest_spec (hbase : 1 < base) (n : ℕ) : Shortest base n (shortest base n) := by
  refine ⟨spells_shortest hbase n, fun l' h => ?_, fun l' h hlen => ?_⟩
  · exact shortest_length_le hbase (List.length_pos_iff.mpr h.ne_nil) (h.lt_pow hbase)
  · have hs := spells_shortest hbase n
    -- two numerals of one length with one value
    have heq : l'.reverse = (shortest base n).reverse := by
      refine Nat.ofDigits_inj_of_len_eq hbase ?_ (fun d hd => ?_) (fun d hd => ?_) ?_
      · rw [List.length_reverse, List.length_reverse, hlen]
      · exact h.lt_base d (List.mem_reverse.mp hd)
      · exact hs.lt_base d (List.mem_reverse.mp hd)
      · exact h.value_eq.trans hs.value_eq.symm
    exact List.reverse_injective heq

end Numeral
