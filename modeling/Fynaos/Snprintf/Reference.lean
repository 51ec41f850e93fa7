import Fynaos.Snprintf.Directive

/-!
# The texts of C

What C promises for the directives, in its own terms, and where `vsnprintf` keeps the promise. An
`unsigned int` goes through `int`, so its sign is extended to 64 bits (`reference_iff`). What is printed can
be read again (`readNumber_numberText`), so another number has another text.
-/

namespace Fynaos.Snprintf

/-! ### Reference -/

/-- The digits of a number in the base of a conversion, without leading zeros. -/
def Conversion.digits : Conversion → ℕ → List Char
  | .d, n => Nat.toDigits 10 n
  | .u, n => Nat.toDigits 10 n
  | .x, n => Nat.toDigits 16 n
  | .upperX, n => (Nat.toDigits 16 n).map Char.toUpper
  | .o, n => Nat.toDigits 8 n
  | .b, n => Nat.toDigits 2 n

/-- The value of an argument as an integer of the type that a conversion takes. -/
def Conversion.value {w : ℕ} (conversion : Conversion) (bits : BitVec w) : ℤ :=
  if conversion = .d then bits.toInt else bits.toNat

/-- The text of an integer. -/
def NumberDirective.text (d : NumberDirective) (value : ℤ) : List Char :=
  let sign := if value < 0 then ['-'] else []
  let digits := d.conversion.digits value.natAbs
  if Mark.minus ∈ d.marks then List.rightpad d.width ' ' (sign ++ digits)
  else if Mark.zero ∈ d.marks then sign ++ List.leftpad (d.width - sign.length) '0' digits
  else List.leftpad d.width ' ' (sign ++ digits)

/-- The text of an item, and the arguments behind its own, when its argument has the right type. -/
def Item.reference : Item → List Arg → Option (List Char × List Arg)
  | .literal c _, args => some ([c], args)
  | .percent, args => some (['%'], args)
  | .string, .string chars :: args => some (chars, args)
  | .char, .int bits :: args => some ([Char.ofNat (bits.toNat % 256)], args)
  | .number d, .int bits :: args =>
    if d.modifier = .none then some (d.text (d.conversion.value bits), args) else none
  | .number d, .long bits :: args =>
    if d.modifier = .none then none else some (d.text (d.conversion.value bits), args)
  | _, _ => none

/-- The text of a format. -/
def reference : List Item → List Arg → Option (List Char)
  | [], _ => some []
  | item :: items, args =>
    (item.reference args).bind fun x => (reference items x.2).map fun rest => x.1 ++ rest

/-- An argument of an unsigned conversion without modifier is below `2 ^ 31`. -/
def Item.Small : Item → List Arg → Prop
  | .number d, .int bits :: _ => d.conversion = .d ∨ bits.toNat < 2 ^ 31
  | _, _ => True

/-- All of them are. -/
def Small : List Item → List Arg → Prop
  | [], _ => True
  | item :: items, args => item.Small args ∧ ∀ x ∈ item.reference args, Small items x.2

/-! ### Digits -/

/-- The flags that a conversion sets. -/
def Conversion.flags (flags : Flags) : Conversion → Flags
  | .d => { flags with sign := true }
  | .u => flags
  | .x => { flags with lowercase := true, hex := true }
  | .upperX => { flags with hex := true }
  | .o => { flags with octa := true }
  | .b => { flags with bin := true }

section digits
variable {flags : Flags} {n : ℕ} {f : Char → Char}

theorem numberDigits_toDigits (hf : ∀ d < numberBase flags, digit flags d = f (Nat.digitChar d)) :
    numberDigits flags n = (Nat.toDigits (numberBase flags) n).map f := by
  have hbase := one_lt_numberBase flags
  have hzero : digit flags 0 = '0' := by
    unfold digit
    split_ifs <;> rfl
  induction n using Nat.strong_induction_on with
  | _ n ih =>
    rw [Nat.toDigits_eq_if hbase]
    by_cases hn : n = 0
    · rw [hn, if_pos (by omega), numberDigits, if_pos rfl, List.map_cons, ← hf 0 (by omega), hzero]
      rfl
    · have hlow := hf _ (Nat.mod_lt n (by omega : numberBase flags > 0))
      have hcons : numberDigits flags n =
          ((Nat.digits (numberBase flags) (n / numberBase flags)).map (digit flags)).reverse ++
            [digit flags (n % numberBase flags)] := by
        rw [numberDigits, if_neg hn, Nat.digits_def' hbase (Nat.pos_of_ne_zero hn), List.map_cons,
          List.reverse_cons]
      split_ifs with hlt
      · rw [hcons, Nat.div_eq_of_lt hlt, Nat.digits_zero, hlow, Nat.mod_eq_of_lt hlt]
        rfl
      · have hdiv : n / numberBase flags ≠ 0 :=
          Nat.ne_of_gt (Nat.div_pos (Nat.le_of_not_lt hlt) (by omega))
        have hnext := ih (n / numberBase flags) (Nat.div_lt_self (Nat.pos_of_ne_zero hn) hbase)
        rw [numberDigits, if_neg hdiv] at hnext
        rw [hcons, hnext, List.map_append, List.map_singleton, hlow]

theorem digits_eq (conversion : Conversion) (marks : List Mark) (n : ℕ) :
    numberDigits (conversion.flags (markFlags marks)) n = conversion.digits n := by
  have hid : ∀ {flags : Flags} {base : ℕ}, numberBase flags = base →
      (∀ k < base, digit flags k = Nat.digitChar k) →
      numberDigits flags n = Nat.toDigits base n := by
    intro flags base hbase hdigit
    have hmap := numberDigits_toDigits (n := n) (f := id) (by rw [hbase]; exact hdigit)
    rwa [List.map_id, hbase] at hmap
  cases conversion with
  | d => exact hid rfl fun k hk => by interval_cases k <;> rfl
  | u => exact hid rfl fun k hk => by interval_cases k <;> rfl
  | x => exact hid rfl fun k hk => by interval_cases k <;> rfl
  | upperX =>
    refine numberDigits_toDigits fun k hk => ?_
    have hlt : k < 16 := hk
    interval_cases k <;> rfl
  | o => exact hid rfl fun k hk => by interval_cases k <;> rfl
  | b => exact hid rfl fun k hk => by interval_cases k <;> rfl

end digits

/-! ### Texts of numbers -/

section text
variable {flags : Flags} {width n m : ℕ} {z : ℤ}

theorem text_eq (d : NumberDirective) (value : ℤ) : d.text value =
    padded (d.conversion.flags (markFlags d.marks)) d.width (if value < 0 then ['-'] else [])
      (d.conversion.digits value.natAbs) := by
  have hflags : ∀ conversion : Conversion,
      (conversion.flags (markFlags d.marks)).leftAlign = decide (Mark.minus ∈ d.marks) ∧
      (conversion.flags (markFlags d.marks)).zeroPad = decide (Mark.zero ∈ d.marks) := by
    intro conversion
    cases conversion <;> exact ⟨rfl, rfl⟩
  obtain ⟨hleft, hzero⟩ := hflags d.conversion
  rw [NumberDirective.text, padded]
  generalize (if value < 0 then ['-'] else []) = sign
  generalize d.conversion.digits value.natAbs = digits
  rw [hleft, hzero]
  simp only [decide_eq_true_eq, List.rightpad, List.leftpad, List.length_append, Nat.add_comm,
    List.append_assoc, Nat.sub_sub]

theorem text_unsigned (d : NumberDirective) (hd : d.conversion ≠ .d) (n : ℕ) :
    d.text n = numberText (d.conversion.flags (markFlags d.marks)) d.width n 0 := by
  have hsign : (d.conversion.flags (markFlags d.marks)).sign = false := by
    cases hc : d.conversion with
    | d => exact absurd hc hd
    | _ => rfl
  have hnonneg : ¬ ((n : ℤ) < 0) := by omega
  rw [text_eq, numberText, minusSign, magnitude, hsign, digits_eq, if_neg hnonneg]
  rfl

theorem magnitude_signed (hsign : flags.sign = true) (hlow : -2 ^ 63 ≤ z) (hhigh : z < 2 ^ 63) :
    magnitude flags 0 z = z.natAbs := by
  rw [magnitude, if_pos hsign]
  unfold lnot toUnsigned wrap
  split_ifs <;> omega

theorem text_signed (d : NumberDirective) (hd : d.conversion = .d) (hlow : -2 ^ 63 ≤ z)
    (hhigh : z < 2 ^ 63) :
    d.text z = numberText (d.conversion.flags (markFlags d.marks)) d.width 0 z := by
  have hsign : (d.conversion.flags (markFlags d.marks)).sign = true := by
    rw [hd]
    rfl
  rw [text_eq, numberText, minusSign, magnitude_signed hsign hlow hhigh, hsign, digits_eq]
  simp

/-! ### Reading a number -/

/-- The value of a digit. -/
def digitValue (c : Char) : ℕ :=
  if c.toNat < 58 then c.toNat - 48 else if c.toNat < 71 then c.toNat - 55 else c.toNat - 87

/-- The value of a text without sign; spaces are skipped. -/
def readNumber (base : ℕ) (text : List Char) : ℕ :=
  text.foldl (fun value c => if c = ' ' then value else value * base + digitValue c) 0

theorem digit_read {k : ℕ} (hk : k < 16) :
    digit flags k ≠ ' ' ∧ digitValue (digit flags k) = k := by
  unfold digit
  split_ifs
  · interval_cases k <;> decide
  · interval_cases k <;> decide

theorem numberBase_le (flags : Flags) : numberBase flags ≤ 16 := by
  unfold numberBase
  split_ifs <;> norm_num

theorem foldl_spaces (base value k : ℕ) : (List.replicate k ' ').foldl
    (fun value c => if c = ' ' then value else value * base + digitValue c) value = value := by
  induction k with
  | zero => rfl
  | succ k ih => rw [List.replicate_succ, List.foldl_cons, if_pos rfl, ih]

theorem foldl_zeros (base k : ℕ) : (List.replicate k '0').foldl
    (fun value c => if c = ' ' then value else value * base + digitValue c) 0 = 0 := by
  induction k with
  | zero => rfl
  | succ k ih =>
    rw [List.replicate_succ, List.foldl_cons, if_neg (by decide), Nat.zero_mul, Nat.zero_add]
    exact ih

theorem foldl_digits (flags : Flags) (n : ℕ) : (numberDigits flags n).foldl
    (fun value c => if c = ' ' then value else value * numberBase flags + digitValue c) 0 = n := by
  have hread : ∀ l : List ℕ, (∀ k ∈ l, k < 16) → (l.map (digit flags)).reverse.foldl
      (fun value c => if c = ' ' then value else value * numberBase flags + digitValue c) 0 =
        Nat.ofDigits (numberBase flags) l := by
    intro l hl
    induction l with
    | nil => rfl
    | cons k l ih =>
      obtain ⟨hk, hl⟩ := List.forall_mem_cons.mp hl
      have hread : digit flags k ≠ ' ' ∧ digitValue (digit flags k) = k := digit_read hk
      obtain ⟨hspace, hvalue⟩ := hread
      rw [List.map_cons, List.reverse_cons, List.foldl_append, ih hl, List.foldl_cons,
        List.foldl_nil, if_neg hspace, hvalue, Nat.ofDigits_cons]
      ring
  unfold numberDigits
  split_ifs with hzero
  · rw [hzero, List.foldl_cons, if_neg (by decide), List.foldl_nil, Nat.zero_mul]
    rfl
  · rw [hread, Nat.ofDigits_digits]
    intro k hk
    have hlt := Nat.digits_lt_base (one_lt_numberBase flags) hk
    have hle := numberBase_le flags
    omega

theorem readNumber_numberText (hsign : flags.sign = false) :
    readNumber (numberBase flags) (numberText flags width n 0) = n := by
  have hminus : minusSign flags 0 = [] := by
    rw [minusSign, hsign]
    rfl
  have hmag : magnitude flags n 0 = n := by
    rw [magnitude, hsign]
    rfl
  rw [numberText, hminus, hmag, padded, readNumber]
  split_ifs
  · rw [List.nil_append, List.foldl_append, foldl_digits, foldl_spaces]
  · rw [List.nil_append, List.foldl_append, foldl_zeros, foldl_digits]
  · rw [List.append_nil, List.foldl_append, foldl_spaces, foldl_digits]

theorem numberText_length_mono (hsign : flags.sign = false) (h : n ≤ m) :
    (numberText flags width n 0).length ≤ (numberText flags width m 0).length := by
  have hmag : ∀ k, magnitude flags k 0 = k := by
    intro k
    rw [magnitude, hsign]
    rfl
  have hdigits : (numberDigits flags n).length ≤ (numberDigits flags m).length := by
    have hle := Nat.le_length_digits_le (numberBase flags) n m h
    unfold numberDigits
    split_ifs with hn hm hm
    · exact le_refl _
    · rw [List.length_reverse, List.length_map, List.length_singleton]
      exact List.length_pos_iff.mpr (Nat.digits_ne_nil_iff_ne_zero.mpr hm)
    · omega
    · rw [List.length_reverse, List.length_map, List.length_reverse, List.length_map]
      exact hle
  rw [numberText, numberText, padded_length, padded_length, hmag, hmag]
  omega

end text

/-! ### Items -/

section items
variable {args rest : List Arg} {ref : List Char} {item : Item} {items : List Item} {flags : Flags}
  {width : ℕ}

theorem toUnsigned_long (bits : BitVec 64) : toUnsigned bits.toInt = bits.toNat := by
  unfold toUnsigned
  rw [BitVec.toInt_eq_toNat_cond]
  have hlt := bits.isLt
  split_ifs <;> omega

theorem toUnsigned_int (bits : BitVec 32) : toUnsigned bits.toInt =
    if bits.toNat < 2 ^ 31 then bits.toNat else 2 ^ 64 - 2 ^ 32 + bits.toNat := by
  unfold toUnsigned
  rw [BitVec.toInt_eq_toNat_cond]
  have hlt := bits.isLt
  split_ifs <;> omega

theorem pieceText_number (d : NumberDirective) : pieceText (Item.number d).piece args =
    vaNumber d.modifier.len args >>= fun x =>
      .ok (numberText (d.conversion.flags (markFlags d.marks)) d.width
        (if d.conversion = .d then 0 else toUnsigned x.1) (if d.conversion = .d then x.1 else 0),
        x.2) := by
  rw [Item.piece]
  cases d.conversion <;> rfl

/-- An unsigned number below `2 ^ 31` is printed right, a larger one at least as long. -/
theorem text_int (d : NumberDirective) (hd : d.conversion ≠ .d) (bits : BitVec 32) :
    (d.text bits.toNat).length ≤ (numberText (d.conversion.flags (markFlags d.marks)) d.width
      (toUnsigned bits.toInt) 0).length ∧
    (numberText (d.conversion.flags (markFlags d.marks)) d.width (toUnsigned bits.toInt) 0 =
      d.text bits.toNat ↔ bits.toNat < 2 ^ 31) := by
  have hsign : (d.conversion.flags (markFlags d.marks)).sign = false := by
    cases hc : d.conversion with
    | d => exact absurd hc hd
    | _ => rfl
  have hvalue := toUnsigned_int bits
  rw [text_unsigned d hd]
  constructor
  · refine numberText_length_mono hsign ?_
    split_ifs at hvalue <;> omega
  · constructor
    · intro heq
      have hread := congrArg (readNumber (numberBase (d.conversion.flags (markFlags d.marks)))) heq
      rw [readNumber_numberText hsign, readNumber_numberText hsign] at hread
      split_ifs at hvalue with hsmall
      · exact hsmall
      · omega
    · intro hsmall
      rw [if_pos hsmall] at hvalue
      rw [hvalue]

theorem vaNumber_int {modifier : Modifier} (hm : modifier = .none) (bits : BitVec 32) :
    vaNumber modifier.len (.int bits :: args) = .ok (bits.toInt, args) := by
  rw [hm]
  rfl

theorem vaNumber_long {modifier : Modifier} (hm : modifier ≠ .none) (bits : BitVec 64) :
    vaNumber modifier.len (.long bits :: args) = .ok (bits.toInt, args) := by
  cases modifier with
  | none => exact absurd rfl hm
  | l => rfl
  | ll => rfl

theorem pieceText_reference (href : item.reference args = some (ref, rest)) :
    ∃ text, pieceText item.piece args = .ok (text, rest) ∧ ref.length ≤ text.length ∧
      (text = ref ↔ item.Small args) := by
  have hexact : ∀ {text : List Char}, text = ref → item.Small args → ref.length ≤ text.length ∧
      (text = ref ↔ item.Small args) := by
    intro text heq hsmall
    exact ⟨by rw [heq], iff_of_true heq hsmall⟩
  fun_cases Item.reference item args with
  | case1 c h args =>
    obtain ⟨rfl, rfl⟩ := Prod.mk.inj (Option.some.inj href)
    exact ⟨_, rfl, hexact rfl trivial⟩
  | case2 args =>
    obtain ⟨rfl, rfl⟩ := Prod.mk.inj (Option.some.inj href)
    exact ⟨_, rfl, hexact rfl trivial⟩
  | case3 chars args =>
    obtain ⟨rfl, rfl⟩ := Prod.mk.inj (Option.some.inj href)
    exact ⟨_, rfl, hexact rfl trivial⟩
  | case4 bits args =>
    obtain ⟨rfl, rfl⟩ := Prod.mk.inj (Option.some.inj href)
    have hbyte : (bits.toInt % 256).toNat = bits.toNat % 256 := by
      rw [BitVec.toInt_eq_toNat_cond]
      split_ifs <;> omega
    exact ⟨_, rfl, hexact (by rw [hbyte]) trivial⟩
  | case5 d bits args hm =>
    rw [Item.reference, if_pos hm] at href
    obtain ⟨rfl, rfl⟩ := Prod.mk.inj (Option.some.inj href)
    rw [pieceText_number, vaNumber_int hm, ok_bind]
    refine ⟨_, rfl, ?_⟩
    dsimp only
    by_cases hd : d.conversion = .d
    · have hlow := bits.le_toInt
      have hhigh := bits.toInt_lt
      rw [if_pos hd, if_pos hd]
      refine hexact ?_ (Or.inl hd)
      rw [Conversion.value, if_pos hd, text_signed d hd (by omega) (by omega)]
    · rw [if_neg hd, if_neg hd, Conversion.value, if_neg hd]
      obtain ⟨hlen, hiff⟩ := text_int d hd bits
      exact ⟨hlen, hiff.trans ⟨Or.inr, fun h => h.resolve_left hd⟩⟩
  | case6 d bits args hm =>
    rw [Item.reference, if_neg hm] at href
    cases href
  | case7 d bits args hm =>
    rw [Item.reference, if_pos hm] at href
    cases href
  | case8 d bits args hm =>
    rw [Item.reference, if_neg hm] at href
    obtain ⟨rfl, rfl⟩ := Prod.mk.inj (Option.some.inj href)
    rw [pieceText_number, vaNumber_long hm, ok_bind]
    refine ⟨_, rfl, ?_⟩
    dsimp only
    by_cases hd : d.conversion = .d
    · have hlow := bits.le_toInt
      have hhigh := bits.toInt_lt
      rw [if_pos hd, if_pos hd]
      refine hexact ?_ trivial
      rw [Conversion.value, if_pos hd, text_signed d hd (by omega) (by omega)]
    · rw [if_neg hd, if_neg hd]
      refine hexact ?_ trivial
      rw [Conversion.value, if_neg hd, text_unsigned d hd, toUnsigned_long]
  | case9 =>
    rw [Item.reference] at href
    · cases href
    all_goals assumption

theorem fullText_reference (href : reference items args = some ref) :
    ∃ full, fullText (items.map Item.piece) args = .ok full ∧ ref.length ≤ full.length ∧
      (full = ref ↔ Small items args) := by
  induction items generalizing args ref with
  | nil =>
    obtain rfl := Option.some.inj href
    exact ⟨[], rfl, le_refl _, iff_of_true rfl trivial⟩
  | cons item items ih =>
    obtain ⟨⟨ref₁, rest⟩, hitem, href⟩ := Option.bind_eq_some_iff.mp href
    obtain ⟨ref₂, hitems, rfl⟩ := Option.map_eq_some_iff.mp href
    obtain ⟨text, htext, hlen, hiff⟩ := pieceText_reference hitem
    obtain ⟨full, hfull, hlen', hiff'⟩ := ih hitems
    refine ⟨text ++ full, ?_, ?_, ?_⟩
    · rw [List.map_cons, fullText, htext, ok_bind]
      dsimp only
      rw [hfull, ok_bind, pure_eq]
    · rw [List.length_append, List.length_append]
      exact Nat.add_le_add hlen hlen'
    · have hsmall : Small (item :: items) args ↔ item.Small args ∧ Small items rest := by
        rw [Small, hitem]
        simp
      rw [hsmall, ← hiff, ← hiff']
      constructor
      · intro heq
        have hsum := congrArg List.length heq
        rw [List.length_append, List.length_append] at hsum
        dsimp only at hsum
        exact List.append_inj heq (by omega)
      · rintro ⟨rfl, rfl⟩
        rfl

end items

/-! ### The whole function -/

/-- `vsnprintf` writes a text into every buffer with room for it and its NUL. -/
def Formats (format : List Char) (args : List Arg) (text : List Char) : Prop :=
  ∀ base length mem, text.length + 1 ≤ length →
    ∃ out, vsnprintf base length format args ⟨mem, []⟩ = .ok (text.length, out) ∧
      Holds out.mem base text text.length

theorem reference_iff (items : List Item) (behind : List Char) (args : List Arg) (ref : List Char)
    (href : reference items args = some ref) :
    Formats (writeFormat items behind) args ref ↔ Small items args := by
  obtain ⟨hpieces, hnul⟩ := formatPieces_write items behind
  obtain ⟨full, hfull, -, hiff⟩ := fullText_reference href
  rw [← hpieces] at hfull
  rw [← hiff]
  constructor
  · intro hformats
    have href : Full (writeFormat items behind) args ref :=
      ⟨ref.length + 1, fun n hn base mem => hformats base n mem hn⟩
    obtain ⟨-, htext⟩ := full_iff.mp href
    exact Except.ok.inj (hfull.symm.trans htext)
  · rintro rfl base length mem hlength
    refine vsnprintf_roomy hnul hfull ⟨hlength, ?_⟩ base mem
    rintro ⟨p, hp, hs⟩
    rw [hpieces] at hp
    obtain ⟨item, -, rfl⟩ := List.mem_map.mp hp
    exfalso
    cases item with
    | number d =>
      rw [Item.piece] at hs
      cases hc : d.conversion <;> rw [hc] at hs <;> cases hs
    | _ => cases hs

/-- The directive `%u`. -/
def unsignedDirective : Item := .number ⟨[], 0, .none, .u, by norm_num⟩

theorem reference_iff_seven : Formats (writeFormat [unsignedDirective] []) [.int 7] ['7'] :=
  (reference_iff [unsignedDirective] [] [.int 7] ['7'] rfl).mpr ⟨Or.inr (by decide), fun _ _ => trivial⟩

/-- The largest `unsigned int` is printed as the largest 64-bit number. -/
theorem unsigned_int_extended :
    reference [unsignedDirective] [.int (BitVec.ofNat 32 4294967295)] = some "4294967295".toList ∧
      ¬ Formats (writeFormat [unsignedDirective] []) [.int (BitVec.ofNat 32 4294967295)]
        "4294967295".toList := by
  refine ⟨by decide +kernel, fun hformats => ?_⟩
  obtain ⟨out, hrun, -⟩ := hformats 4096 64 (fun _ => ' ') (by decide)
  have hlong : ((vsnprintf 4096 64 (writeFormat [unsignedDirective] [])
      [.int (BitVec.ofNat 32 4294967295)] ⟨fun _ => ' ', []⟩).map Prod.fst) = .ok 20 := by
    decide +kernel
  rw [hrun] at hlong
  have hten : "4294967295".toList.length = 20 := Except.ok.inj hlong
  exact absurd hten (by decide)

end Fynaos.Snprintf
