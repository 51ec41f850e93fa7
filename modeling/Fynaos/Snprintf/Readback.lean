import Fynaos.Lib.Numeral
import Fynaos.Snprintf.Reference

/-!
# Reading a number back

`print_number` with enough room: `tmp` never holds more than 64 characters, the stores are those of
the text and of the NUL behind it, and the text is the sign and the shortest numeral of the
magnitude, padded (`printNumber_reads_back`). `readSigned` reads such a text, in any of the three
layouts (`readSigned_padded`).
-/

namespace Fynaos.Snprintf

/-- The number that `print_number` prints. -/
def printedNumber (flags : Flags) (unumber : ℕ) (snumber : ℤ) : ℤ :=
  if flags.sign then snumber else unumber

/-- The value of a text: spaces, a minus sign, digits; spaces behind them are skipped. -/
def readSigned (base : ℕ) (text : List Char) : ℤ :=
  let body := text.dropWhile (· = ' ')
  if body.head? = some '-' then -(readNumber base body.tail : ℤ) else readNumber base body

section digits
variable {flags : Flags} {n width u fuel : ℕ} {z : ℤ}

theorem numberDigits_shortest (flags : Flags) (n : ℕ) :
    numberDigits flags n = (Numeral.shortest (numberBase flags) n).map (digit flags) := by
  unfold numberDigits Numeral.shortest
  split_ifs
  · rw [List.map_singleton, digit]
    split_ifs <;> rfl
  · rw [List.map_reverse]

/-- However often the loop runs, it writes no more characters than the number has binary digits. -/
theorem digitLoop_length {k : ℕ} (hn : n < 2 ^ k) : (digitLoop flags fuel n).length ≤ k := by
  induction fuel generalizing n k with
  | zero => exact Nat.zero_le _
  | succ fuel ih =>
    rw [digitLoop]
    split_ifs with hzero
    · exact Nat.zero_le _
    · cases k with
      | zero => omega
      | succ k =>
        have hdiv : n / numberBase flags < 2 ^ k := by
          rw [Nat.div_lt_iff_lt_mul (Nat.lt_of_succ_lt (one_lt_numberBase flags))]
          calc n < 2 ^ (k + 1) := hn
            _ = 2 ^ k * 2 := pow_succ 2 k
            _ ≤ 2 ^ k * numberBase flags := Nat.mul_le_mul_left _ (one_lt_numberBase flags)
        rw [List.length_cons]
        exact Nat.succ_le_succ (ih hdiv)

theorem magnitude_eq (flags : Flags) (u : ℕ) (hlow : -2 ^ 63 ≤ z) (hhigh : z < 2 ^ 63) :
    magnitude flags u z = (printedNumber flags u z).natAbs := by
  unfold printedNumber
  cases hsign : flags.sign with
  | true =>
    rw [if_pos rfl, ← magnitude_signed hsign hlow hhigh, magnitude, magnitude, if_pos hsign,
      if_pos hsign]
  | false =>
    rw [if_neg Bool.false_ne_true, magnitude, hsign, if_neg Bool.false_ne_true, Int.natAbs_natCast]

theorem minusSign_eq (flags : Flags) (u : ℕ) (z : ℤ) :
    minusSign flags z = if printedNumber flags u z < 0 then ['-'] else [] := by
  unfold minusSign printedNumber
  cases flags.sign with
  | true => simp
  | false => simp

/-! ### Reading -/

theorem digit_ne_minus {k : ℕ} (hk : k < 16) : digit flags k ≠ '-' := by
  unfold digit
  split_ifs
  · interval_cases k <;> decide
  · interval_cases k <;> decide

theorem numberDigits_head (flags : Flags) (n : ℕ) :
    ∃ c cs, numberDigits flags n = c :: cs ∧ c ≠ ' ' ∧ c ≠ '-' := by
  have hspec := Numeral.spells_shortest (one_lt_numberBase flags) n
  rw [numberDigits_shortest]
  cases hl : Numeral.shortest (numberBase flags) n with
  | nil => exact absurd hl hspec.ne_nil
  | cons d ds =>
    have hd : d < 16 := by
      have hlt := hspec.lt_base d (by rw [hl]; exact List.mem_cons_self)
      have hle := numberBase_le flags
      omega
    have hread : digit flags d ≠ ' ' ∧ digitValue (digit flags d) = d := digit_read hd
    exact ⟨digit flags d, ds.map (digit flags), rfl, hread.1, digit_ne_minus hd⟩

theorem dropWhile_spaces {c : Char} (hc : c ≠ ' ') (k : ℕ) (cs : List Char) :
    (List.replicate k ' ' ++ c :: cs).dropWhile (· = ' ') = c :: cs := by
  induction k with
  | zero => simp [hc]
  | succ k ih =>
    rw [List.replicate_succ, List.cons_append, List.dropWhile_cons_of_pos (by simp)]
    exact ih

theorem readSigned_minus (base k : ℕ) (text : List Char) :
    readSigned base (List.replicate k ' ' ++ '-' :: text) = -(readNumber base text : ℤ) := by
  rw [readSigned, dropWhile_spaces (by decide)]
  rfl

theorem readSigned_plain {c : Char} (hspace : c ≠ ' ') (hminus : c ≠ '-') (base k : ℕ)
    (cs : List Char) :
    readSigned base (List.replicate k ' ' ++ c :: cs) = readNumber base (c :: cs) := by
  have hhead : (c :: cs).head? ≠ some '-' := fun h => hminus (Option.some.inj h)
  rw [readSigned, dropWhile_spaces hspace]
  exact if_neg hhead

/-- The three layouts are spaces, the sign and a text that reads as the magnitude. -/
theorem padded_body (flags : Flags) (width n : ℕ) (minus : List Char) :
    ∃ k c cs, padded flags width minus (numberDigits flags n) =
        List.replicate k ' ' ++ (minus ++ c :: cs) ∧
      c ≠ ' ' ∧ c ≠ '-' ∧ readNumber (numberBase flags) (c :: cs) = n := by
  obtain ⟨d, ds, hdigits, hspace, hminus⟩ := numberDigits_head flags n
  have hread : ∀ k, readNumber (numberBase flags) (numberDigits flags n ++ List.replicate k ' ') =
      n := fun k => by
    rw [readNumber, List.foldl_append, foldl_digits, foldl_spaces]
  have hzeros : ∀ k, readNumber (numberBase flags) (List.replicate k '0' ++ numberDigits flags n) =
      n := fun k => by
    rw [readNumber, List.foldl_append, foldl_zeros, foldl_digits]
  rw [padded]
  generalize width - ((numberDigits flags n).length + minus.length) = pad
  split_ifs
  · refine ⟨0, d, ds ++ List.replicate pad ' ', ?_, hspace, hminus, ?_⟩
    · rw [hdigits, List.replicate_zero, List.nil_append, List.append_assoc, List.cons_append]
    · rw [← List.cons_append, ← hdigits, hread]
  · cases pad with
    | zero =>
      refine ⟨0, d, ds, ?_, hspace, hminus, ?_⟩
      · rw [hdigits, List.replicate_zero, List.append_nil, List.replicate_zero, List.nil_append]
      · rw [← hdigits]
        exact hzeros 0
    | succ pad =>
      refine ⟨0, '0', List.replicate pad '0' ++ numberDigits flags n, ?_, by decide, by decide, ?_⟩
      · rw [List.replicate_succ, List.replicate_zero, List.nil_append, List.append_assoc,
          List.cons_append]
      · rw [← List.cons_append, ← List.replicate_succ, hzeros]
  · refine ⟨pad, d, ds, by rw [hdigits, List.append_assoc], hspace, hminus, ?_⟩
    rw [← hdigits]
    exact hzeros 0

theorem readSigned_padded (flags : Flags) (width : ℕ) (z : ℤ) :
    readSigned (numberBase flags) (padded flags width (if z < 0 then ['-'] else [])
      (numberDigits flags z.natAbs)) = z := by
  obtain ⟨k, c, cs, heq, hspace, hminus, hread⟩ :=
    padded_body flags width z.natAbs (if z < 0 then ['-'] else [])
  rw [heq]
  split_ifs with hneg
  · rw [List.singleton_append, readSigned_minus, hread]
    omega
  · rw [List.nil_append, readSigned_plain hspace hminus, hread]
    omega

end digits

/-! ### Printing -/

section printing
variable {flags : Flags} {width u : ℕ} {z : ℤ} {out : Out}

theorem Out.write_stores (out : Out) (a : ℕ) (cs : List Char) :
    (out.write a cs).stores = (List.range' a cs.length).reverse ++ out.stores := by
  induction cs generalizing out a with
  | nil => rfl
  | cons c cs ih =>
    rw [Out.write, ih, List.length_cons, List.range'_succ, List.reverse_cons, List.append_assoc]
    rfl

/-- What `print_number` leaves when it prints `text` and a NUL at `buffer`. -/
structure Printed (out out' : Out) (buffer : ℕ) (text : List Char) : Prop where
  stores : out'.stores = (List.range' buffer (text.length + 1)).reverse ++ out.stores
  char : ∀ i (h : i < text.length), out'.mem (buffer + i) = text[i]
  nul : out'.mem (buffer + text.length) = '\x00'
  other : ∀ a, a < buffer ∨ buffer + text.length < a → out'.mem a = out.mem a

theorem printed_write (out : Out) (buffer : ℕ) (text : List Char) :
    Printed out ((out.write buffer text).put (buffer + text.length) '\x00') buffer text := by
  refine ⟨?_, fun i hi => ?_, Out.put_mem_self _ _ _, fun a ha => ?_⟩
  · rw [List.range'_1_concat, List.reverse_append, List.reverse_singleton, List.append_assoc,
      ← Out.write_stores]
    rfl
  · rw [Out.put_mem_of_ne (by omega), Out.write_mem_inside hi]
  · rw [Out.put_mem_of_ne (by omega), Out.write_mem_outside (by omega)]

/-- For every number, flag set and width there is the shortest numeral of its magnitude, and every
call with room for it prints the sign and that numeral, padded to the width, and can be read. -/
theorem printNumber_reads_back (flags : Flags) (hu : u < 2 ^ 64) (hlow : -2 ^ 63 ≤ z) (hhigh : z < 2 ^ 63)
    (hwidth : width < 2 ^ 32 - 1) :
    ∃ digits, Numeral.Shortest (numberBase flags) (printedNumber flags u z).natAbs digits ∧
      (∀ fuel, (digitLoop flags fuel (magnitude flags u z)).length ≤ 64) ∧
      ∀ buffer limit out,
        let sign := if printedNumber flags u z < 0 then ['-'] else []
        let text := padded flags width sign (digits.map (digit flags))
        max width (digits.length + sign.length) < limit - buffer →
        text.length = max width (digits.length + sign.length) ∧
          (printNumber u z flags width buffer limit out).1 = buffer + text.length ∧
          Printed out (printNumber u z flags width buffer limit out).2 buffer text ∧
          readSigned (numberBase flags) text = printedNumber flags u z := by
  have hmag := magnitude_eq flags u hlow hhigh
  have hlt : magnitude flags u z < 2 ^ 64 := magnitude_lt hu
  refine ⟨_, Numeral.shortest_spec (one_lt_numberBase flags) _, fun fuel => digitLoop_length hlt,
    fun buffer limit out => ?_⟩
  dsimp only
  intro hroom
  have hlength := padded_length flags width (if printedNumber flags u z < 0 then ['-'] else [])
    ((Numeral.shortest (numberBase flags) (printedNumber flags u z).natAbs).map (digit flags))
  rw [List.length_map] at hlength
  have hshort : (if printedNumber flags u z < 0 then ['-'] else []).length ≤ 1 := by
    split_ifs <;> simp
  have hdigits : (Numeral.shortest (numberBase flags)
      (printedNumber flags u z).natAbs).length ≤ 64 := by
    refine Numeral.shortest_length_le (one_lt_numberBase flags) (by norm_num) ?_
    rw [← hmag]
    exact lt_of_lt_of_le hlt (Nat.pow_le_pow_left (one_lt_numberBase flags) 64)
  have htext : numberText flags width u z =
      padded flags width (if printedNumber flags u z < 0 then ['-'] else [])
        ((Numeral.shortest (numberBase flags) (printedNumber flags u z).natAbs).map
          (digit flags)) := by
    rw [numberText, minusSign_eq flags u, hmag, numberDigits_shortest]
  have hread := readSigned_padded flags width (printedNumber flags u z)
  rw [numberDigits_shortest] at hread
  have hrun : printNumber u z flags width buffer limit out = _ :=
    printNumber_eq hu (show width < 2 ^ 32 by omega)
  rw [htext] at hrun
  generalize padded flags width (if printedNumber flags u z < 0 then ['-'] else [])
    ((Numeral.shortest (numberBase flags) (printedNumber flags u z).natAbs).map (digit flags)) =
      text at hlength hread hrun ⊢
  -- the sum of the check does not wrap around
  have hfits : Fits32 text.length (limit - buffer) := by
    refine ⟨by omega, ?_⟩
    unfold wrap32
    omega
  dsimp only at hrun
  rw [if_pos hfits, if_pos (by omega)] at hrun
  rw [hrun]
  exact ⟨hlength, rfl, printed_write out buffer text, hread⟩

/-- The smallest 64-bit number. -/
theorem printNumber_reads_back_min :
    ∃ digits, Numeral.Shortest 10 (2 ^ 63) digits ∧
      Printed ⟨fun _ => 'x', []⟩
        (printNumber 0 (-2 ^ 63) { sign := true } 24 0 32 ⟨fun _ => 'x', []⟩).2 0
        (padded { sign := true } 24 ['-'] (digits.map (digit { sign := true }))) := by
  obtain ⟨digits, hshort, -, hall⟩ := printNumber_reads_back { sign := true } (u := 0)
    (z := -2 ^ 63) (by norm_num) (by norm_num) (by norm_num) (show 24 < 2 ^ 32 - 1 by norm_num)
  have hlen : digits.length ≤ 19 := by
    have hs := Numeral.shortest_spec (show 1 < 10 by norm_num) (2 ^ 63)
    have hle := Numeral.shortest_length_le (show 1 < 10 by norm_num) (show 1 ≤ 19 by norm_num)
      (show 2 ^ 63 < 10 ^ 19 by norm_num)
    exact (hshort.le_length _ hs.toSpells).trans hle
  obtain ⟨-, -, hprinted, -⟩ := hall 0 32 ⟨fun _ => 'x', []⟩ (by
    have hsign : printedNumber { sign := true } 0 (-2 ^ 63) < 0 := by decide
    rw [if_pos hsign, List.length_singleton]
    omega)
  exact ⟨digits, hshort, hprinted⟩

end printing

end Fynaos.Snprintf
