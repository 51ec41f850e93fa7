import Fynaos.Snprintf.Model
import Mathlib.Data.List.Induction
import Mathlib.Data.Nat.Digits.Lemmas

/-!
# The text of a number

`numberText` is what `print_number` prints when there is room. The function moves the cursor by the
length of the text in any case, and prints all of it or nothing (`printNumber_eq`).
-/

namespace Fynaos.Snprintf

/-- The minus sign of a number. -/
def minusSign (flags : Flags) (snumber : ℤ) : List Char :=
  if flags.sign && decide (snumber < 0) then ['-'] else []

/-- The number whose digits are printed. -/
def magnitude (flags : Flags) (unumber : ℕ) (snumber : ℤ) : ℕ :=
  if flags.sign then
    if snumber < 0 then wrap (lnot (toUnsigned snumber) + 1) else toUnsigned snumber
  else unumber

/-- The digits of a number, the highest first. -/
def numberDigits (flags : Flags) (n : ℕ) : List Char :=
  if n = 0 then ['0'] else ((Nat.digits (numberBase flags) n).map (digit flags)).reverse

/-- A number with its sign, padded to the width. -/
def padded (flags : Flags) (width : ℕ) (minus digits : List Char) : List Char :=
  let pad := width - (digits.length + minus.length)
  if flags.leftAlign then minus ++ digits ++ List.replicate pad ' '
  else if flags.zeroPad then minus ++ List.replicate pad '0' ++ digits
  else List.replicate pad ' ' ++ minus ++ digits

/-- What `print_number` prints. -/
def numberText (flags : Flags) (width unumber : ℕ) (snumber : ℤ) : List Char :=
  padded flags width (minusSign flags snumber) (numberDigits flags (magnitude flags unumber snumber))

/-- The check of `print_number` for a text of `len` characters and `room` bytes up to the limit. -/
def Fits32 (len room : ℕ) : Prop := 0 < room ∧ wrap32 (len + 1) ≤ room

instance (len room : ℕ) : Decidable (Fits32 len room) := inferInstanceAs (Decidable (_ ∧ _))

section number
variable {flags : Flags} {width n u limit buffer : ℕ} {z : ℤ} {out : Out}

/-! ### Digits -/

theorem one_lt_numberBase (flags : Flags) : 1 < numberBase flags := by
  unfold numberBase
  split_ifs <;> norm_num

theorem digitLoop_eq {fuel : ℕ} (hn : n < 2 ^ fuel) :
    digitLoop flags fuel n = (Nat.digits (numberBase flags) n).map (digit flags) := by
  have hbase := one_lt_numberBase flags
  induction fuel generalizing n with
  | zero =>
    obtain rfl : n = 0 := by simpa using hn
    rw [digitLoop, Nat.digits_zero, List.map_nil]
  | succ fuel ih =>
    rw [digitLoop]
    split_ifs with hzero
    · rw [hzero, Nat.digits_zero, List.map_nil]
    · have hdiv : n / numberBase flags < 2 ^ fuel := by
        rw [Nat.div_lt_iff_lt_mul (by omega)]
        calc n < 2 ^ (fuel + 1) := hn
          _ = 2 ^ fuel * 2 := pow_succ 2 fuel
          _ ≤ 2 ^ fuel * numberBase flags := Nat.mul_le_mul_left _ hbase
      rw [ih hdiv, Nat.digits_def' hbase (Nat.pos_of_ne_zero hzero), List.map_cons]

/-- The loop reverses what is between its two ends and leaves the rest alone. -/
theorem reverseLoop_middle (mid : List Char) : ∀ (fuel : ℕ) (pre post : List Char),
    mid.length ≤ fuel →
    reverseLoop fuel pre.length (pre.length + mid.length - 1) (pre ++ mid ++ post) =
      pre ++ mid.reverse ++ post := by
  -- two characters are swapped and then lie outside
  induction mid using List.bidirectionalRec with
  | nil =>
    intro fuel pre post _
    cases fuel with
    | zero => rfl
    | succ fuel =>
      rw [reverseLoop, if_neg (by simp)]
      rfl
  | singleton a =>
    intro fuel pre post _
    cases fuel with
    | zero => rfl
    | succ fuel =>
      rw [reverseLoop, if_neg (by simp)]
      rfl
  | cons_append a mid b ih =>
    intro fuel pre post hfuel
    obtain ⟨fuel, rfl⟩ : ∃ k, fuel = k + 1 := ⟨fuel - 1, by simp at hfuel; omega⟩
    have htail : pre.length + (a :: (mid ++ [b])).length - 1 = (pre ++ a :: mid).length := by
      simp
    have hlist : pre ++ a :: (mid ++ [b]) ++ post = (pre ++ a :: mid) ++ b :: post := by simp
    have hfirst : (pre ++ a :: (mid ++ [b]) ++ post).getD pre.length '0' = a := by simp
    have hlast : (pre ++ a :: (mid ++ [b]) ++ post).getD (pre ++ a :: mid).length '0' = b := by
      rw [hlist]
      simp only [List.getD_eq_getElem?_getD, List.getElem?_append_right (le_refl _), Nat.sub_self,
        List.getElem?_cons_zero, Option.getD_some]
    have hswap : ((pre ++ a :: (mid ++ [b]) ++ post).set pre.length b).set (pre ++ a :: mid).length a =
        pre ++ [b] ++ mid ++ (a :: post) := by
      have hset : (pre ++ a :: (mid ++ [b]) ++ post).set pre.length b =
          (pre ++ b :: mid) ++ b :: post := by
        rw [List.append_assoc, List.set_append_right _ _ (le_refl _), Nat.sub_self]
        simp
      have hlen : (pre ++ a :: mid).length = (pre ++ b :: mid).length := by simp
      rw [hset, hlen, List.set_append_right _ _ (le_refl _), Nat.sub_self]
      simp
    have hnext := ih fuel (pre ++ [b]) (a :: post) (by simp at hfuel; omega)
    rw [htail, reverseLoop, if_pos (by simp), hfirst, hlast]
    dsimp only
    rw [hswap]
    have hhead : pre.length + 1 = (pre ++ [b]).length := by simp
    have hend : (pre ++ a :: mid).length - 1 = (pre ++ [b]).length + mid.length - 1 := by
      simp only [List.length_append, List.length_cons, List.length_nil]
      omega
    rw [hhead, hend, hnext]
    simp

theorem reverseLoop_eq (tmp : List Char) :
    reverseLoop tmp.length 0 (tmp.length - 1) tmp = tmp.reverse := by
  simpa using reverseLoop_middle tmp tmp.length [] [] (le_refl _)

theorem magnitude_lt (hu : u < 2 ^ 64) : magnitude flags u z < 2 ^ 64 := by
  unfold magnitude
  split_ifs
  · exact wrap_lt _
  · unfold toUnsigned
    omega
  · exact hu

theorem numberDigits_length (flags : Flags) (hn : n < 2 ^ 64) :
    1 ≤ (numberDigits flags n).length ∧ (numberDigits flags n).length ≤ 64 := by
  unfold numberDigits
  split_ifs with hzero
  · simp
  · rw [List.length_reverse, List.length_map]
    constructor
    · exact List.length_pos_iff.mpr (Nat.digits_ne_nil_iff_ne_zero.mpr hzero)
    · refine (Nat.digits_length_le_iff (one_lt_numberBase flags) n).mpr (lt_of_lt_of_le hn ?_)
      exact Nat.pow_le_pow_left (one_lt_numberBase flags) 64

theorem padded_length (flags : Flags) (width : ℕ) (minus digits : List Char) :
    (padded flags width minus digits).length = max width (digits.length + minus.length) := by
  unfold padded
  dsimp only
  split_ifs <;> simp only [List.length_append, List.length_replicate] <;> omega

/-! ### Output -/

theorem Out.write_append (out : Out) (a : ℕ) (cs cs' : List Char) :
    out.write a (cs ++ cs') = (out.write a cs).write (a + cs.length) cs' := by
  induction cs generalizing out a with
  | nil => rfl
  | cons c cs ih =>
    rw [List.cons_append, Out.write, Out.write, ih, List.length_cons]
    congr 1
    omega

theorem Out.write_nil (out : Out) (a : ℕ) : out.write a [] = out := rfl

theorem tmp_eq (hn : n < 2 ^ 64) :
    (if n = 0 then ['0'] else digitLoop flags 66 n) = (numberDigits flags n).reverse := by
  unfold numberDigits
  split_ifs
  · rfl
  · rw [List.reverse_reverse]
    exact digitLoop_eq (by omega)

/-- The three layouts of `print_number` are the three ways to pad. -/
theorem padded_write (flags : Flags) (width buffer : ℕ) (out : Out) (minus digits : List Char) :
    let pad := width - (digits.length + minus.length)
    (if flags.leftAlign then
        ((out.write buffer minus).write (buffer + minus.length) digits).write
          (buffer + minus.length + digits.length) (List.replicate pad ' ')
      else if flags.zeroPad then
        ((out.write buffer minus).write (buffer + minus.length) (List.replicate pad '0')).write
          (buffer + minus.length + pad) digits
      else
        ((out.write buffer (List.replicate pad ' ')).write (buffer + pad) minus).write
          (buffer + pad + minus.length) digits) =
      out.write buffer (padded flags width minus digits) := by
  unfold padded
  dsimp only
  split_ifs <;> simp only [Out.write_append, List.length_append, List.length_replicate, Nat.add_assoc]

theorem printNumber_eq (hu : u < 2 ^ 64) (hwidth : width < 2 ^ 32) :
    printNumber u z flags width buffer limit out =
      let text := numberText flags width u z
      let out := if Fits32 text.length (limit - buffer) then out.write buffer text else out
      (buffer + text.length,
        if buffer + text.length < limit then out.put (buffer + text.length) '\x00' else out) := by
  have hmag : magnitude flags u z < 2 ^ 64 := magnitude_lt hu
  obtain ⟨hpos, hlen⟩ := numberDigits_length flags hmag
  have hminus : (minusSign flags z).length ≤ 1 := by
    unfold minusSign
    split_ifs <;> simp
  have hm : (if flags.sign = true then
      if z < 0 then wrap (lnot (toUnsigned z) + 1) else toUnsigned z else u) =
      magnitude flags u z := rfl
  have hs : (if (flags.sign && decide (z < 0)) = true then ['-'] else []) = minusSign flags z := rfl
  unfold printNumber numberText
  dsimp only
  rw [hm, hs, tmp_eq hmag]
  have hreverse : ∀ digits : List Char, reverseLoop digits.reverse.length 0
      (digits.reverse.length - 1) digits.reverse = digits := fun digits => by
    rw [reverseLoop_eq, List.reverse_reverse]
  rw [hreverse, List.length_reverse]
  generalize numberDigits flags (magnitude flags u z) = digits at hpos hlen ⊢
  generalize minusSign flags z = minus at hminus ⊢
  have hpad : (if width > digits.length + minus.length then width - (digits.length + minus.length)
      else 0) = width - (digits.length + minus.length) := by
    split_ifs <;> omega
  have htext := padded_length flags width minus digits
  have hwrite := padded_write flags width buffer out minus digits
  rw [hpad]
  dsimp only at hwrite
  generalize padded flags width minus digits = text at htext hwrite ⊢
  have hcond : (buffer < limit ∧
      wrap32 (width - (digits.length + minus.length) + (digits.length + minus.length) + 1) ≤
        limit - buffer) ↔ Fits32 text.length (limit - buffer) := by
    rw [Fits32, htext, show width - (digits.length + minus.length) +
      (digits.length + minus.length) + 1 = max width (digits.length + minus.length) + 1 by omega]
    exact and_congr_left fun _ => (Nat.sub_pos_iff_lt).symm
  by_cases hfits : Fits32 text.length (limit - buffer)
  · rw [if_pos (hcond.mpr hfits), if_pos hfits]
    cases hleft : flags.leftAlign with
    | true =>
      rw [hleft, if_pos rfl] at hwrite
      have hlength : buffer + minus.length + digits.length +
          (width - (digits.length + minus.length)) = buffer + text.length := by omega
      simp only [Bool.not_true, Bool.and_false, Bool.false_eq_true, if_false, if_true, hwrite,
        hlength]
      split_ifs <;> rfl
    | false =>
      rw [hleft, if_neg Bool.false_ne_true] at hwrite
      cases hzero : flags.zeroPad with
      | true =>
        rw [hzero, if_pos rfl] at hwrite
        have hlength : buffer + minus.length + (width - (digits.length + minus.length)) +
            digits.length = buffer + text.length := by omega
        simp only [Bool.not_false, Bool.and_true, Bool.false_eq_true, if_false, if_true, hwrite,
          hlength, show ¬ ('0' = ' ') by decide]
        split_ifs <;> rfl
      | false =>
        rw [hzero, if_neg Bool.false_ne_true] at hwrite
        have hlength : buffer + (width - (digits.length + minus.length)) + minus.length +
            digits.length = buffer + text.length := by omega
        simp only [Bool.not_false, Bool.and_true, Bool.false_eq_true, if_false, if_true, hwrite,
          hlength]
        split_ifs <;> rfl
  · have hlength : buffer + wrap32 (width - (digits.length + minus.length) + digits.length +
        minus.length) = buffer + text.length := by
      unfold wrap32
      omega
    rw [if_neg (mt hcond.mp hfits), if_neg hfits]
    dsimp only
    rw [hlength]
    split_ifs <;> rfl

end number

end Fynaos.Snprintf
