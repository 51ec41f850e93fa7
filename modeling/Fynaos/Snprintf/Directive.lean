import Fynaos.Snprintf.Truncation

/-!
# The directives of C

The part of the format language of C that `vsnprintf` supports, as an abstract syntax. A written format
is read back item by item (`formatPieces_write`).
-/

namespace Fynaos.Snprintf

/-- `-` and `0` -/
inductive Mark where
  | minus
  | zero
  deriving DecidableEq

/-- No length modifier, `l` or `ll`. -/
inductive Modifier where
  | none
  | l
  | ll
  deriving DecidableEq

/-- The integer conversions. -/
inductive Conversion where
  | d
  | u
  | x
  | upperX
  | o
  | b
  deriving DecidableEq

/-- A directive for an integer. A width of zero stands for none. -/
structure NumberDirective where
  marks : List Mark
  width : ℕ
  modifier : Modifier
  conversion : Conversion
  width_lt : width < 2 ^ 31

/-- An item of a format. -/
inductive Item where
  | literal (c : Char) (h : c ≠ '%' ∧ c ≠ '\x00')
  | percent
  | string
  | char
  | number (directive : NumberDirective)

/-! ### How a format is written -/

def Mark.write : Mark → Char
  | .minus => '-'
  | .zero => '0'

def Modifier.write : Modifier → List Char
  | .none => []
  | .l => ['l']
  | .ll => ['l', 'l']

def Conversion.write : Conversion → Char
  | .d => 'd'
  | .u => 'u'
  | .x => 'x'
  | .upperX => 'X'
  | .o => 'o'
  | .b => 'b'

/-- The digits of a width. -/
def writeWidth (width : ℕ) : List Char := if width = 0 then [] else Nat.toDigits 10 width

def NumberDirective.write (d : NumberDirective) : List Char :=
  '%' :: (d.marks.map Mark.write ++ (writeWidth d.width ++ (d.modifier.write ++ [d.conversion.write])))

def Item.write : Item → List Char
  | .literal c _ => [c]
  | .percent => ['%', '%']
  | .string => ['%', 's']
  | .char => ['%', 'c']
  | .number d => d.write

/-- A format in memory, with what stands behind its NUL. -/
def writeFormat (items : List Item) (behind : List Char) : List Char :=
  items.flatMap Item.write ++ '\x00' :: behind

/-! ### Their pieces -/

/-- The flags that the marks set. -/
def markFlags (marks : List Mark) : Flags :=
  { zeroPad := decide (Mark.zero ∈ marks), leftAlign := decide (Mark.minus ∈ marks) }

def Modifier.len : Modifier → Length
  | .none => .default
  | .l => .l
  | .ll => .ll

/-- The piece that an item becomes. -/
def Item.piece : Item → Piece
  | .literal c _ => .literal c
  | .percent => .directive '%' {} 0 .default
  | .string => .directive 's' {} 0 .default
  | .char => .directive 'c' {} 0 .default
  | .number d => .directive d.conversion.write (markFlags d.marks) d.width d.modifier.len

section parse
variable {rest : List Char} {w : ℕ}

/-- Nothing of the flags or the width is left. -/
def Behind (rest : List Char) : Prop := ∀ c ∈ rest.head?, ¬ (c = '-') ∧ ¬ ('0' ≤ c ∧ c ≤ '9')

theorem parseFlags_stop {flags : Flags} (h : ∀ c ∈ rest.head?, c ≠ '0' ∧ c ≠ '-') :
    parseFlags flags rest = (flags, rest) := by
  fun_cases parseFlags flags rest with
  | case1 format => exact absurd rfl (h '0' rfl).1
  | case2 format => exact absurd rfl (h '-' rfl).2
  | case3 => rfl

theorem parseFlags_marks (marks : List Mark) (flags : Flags)
    (h : ∀ c ∈ rest.head?, c ≠ '0' ∧ c ≠ '-') :
    parseFlags flags (marks.map Mark.write ++ rest) =
      ({ flags with
          zeroPad := flags.zeroPad || decide (Mark.zero ∈ marks)
          leftAlign := flags.leftAlign || decide (Mark.minus ∈ marks) }, rest) := by
  induction marks generalizing flags with
  | nil =>
    rw [List.map_nil, List.nil_append, parseFlags_stop h]
    simp
  | cons mark marks ih =>
    cases mark with
    | minus =>
      rw [List.map_cons, List.cons_append, Mark.write, parseFlags, ih]
      simp
    | zero =>
      rw [List.map_cons, List.cons_append, Mark.write, parseFlags, ih]
      simp

theorem digitChar_digit {d : ℕ} (hd : d < 10) :
    ('0' ≤ Nat.digitChar d ∧ Nat.digitChar d ≤ '9') ∧ (Nat.digitChar d).toNat - '0'.toNat = d := by
  interval_cases d <;> decide

theorem parseWidth_toDigits (hw : w < 2 ^ 32) :
    parseWidth 0 (Nat.toDigits 10 w ++ rest) = parseWidth w rest := by
  induction w using Nat.strong_induction_on generalizing rest with
  | _ w ih =>
    rw [Nat.toDigits_eq_if (by norm_num)]
    split_ifs with hlt
    · obtain ⟨hdigit, hvalue⟩ := digitChar_digit hlt
      rw [List.singleton_append, parseWidth, if_pos hdigit, hvalue]
      congr 1
      unfold wrap32
      omega
    · obtain ⟨hdigit, hvalue⟩ := digitChar_digit (Nat.mod_lt w (show 10 > 0 by norm_num))
      rw [List.append_assoc, ih (w / 10) (by omega) (by omega), List.singleton_append, parseWidth,
        if_pos hdigit, hvalue]
      congr 1
      unfold wrap32
      omega

theorem toDigits_head (hw : 0 < w) :
    ∃ d cs, 1 ≤ d ∧ d < 10 ∧ Nat.toDigits 10 w = Nat.digitChar d :: cs := by
  induction w using Nat.strong_induction_on with
  | _ w ih =>
    rw [Nat.toDigits_eq_if (by norm_num)]
    split_ifs with hlt
    · exact ⟨w, [], hw, hlt, rfl⟩
    · obtain ⟨d, cs, hpos, hd, hcs⟩ := ih (w / 10) (by omega) (by omega)
      exact ⟨d, cs ++ [Nat.digitChar (w % 10)], hpos, hd, by rw [hcs]; rfl⟩

theorem writeWidth_head (h : Behind rest) :
    ∀ c ∈ (writeWidth w ++ rest).head?, c ≠ '0' ∧ c ≠ '-' := by
  intro c hc
  unfold writeWidth at hc
  split_ifs at hc with hzero
  · obtain ⟨hminus, hdigit⟩ := h c hc
    refine ⟨?_, hminus⟩
    rintro rfl
    exact hdigit (by decide)
  · obtain ⟨d, cs, hpos, hd, hcs⟩ := toDigits_head (Nat.pos_of_ne_zero hzero)
    rw [hcs, List.cons_append, List.head?_cons, Option.mem_some_iff] at hc
    rw [← hc]
    interval_cases d <;> decide

theorem parseWidth_stop (h : Behind rest) : parseWidth w rest = (w, rest) := by
  cases rest with
  | nil => rfl
  | cons c rest => rw [parseWidth, if_neg (h c rfl).2]

theorem parseWidth_write (hw : w < 2 ^ 32) (h : Behind rest) :
    parseWidth 0 (writeWidth w ++ rest) = (w, rest) := by
  unfold writeWidth
  split_ifs with hzero
  · rw [hzero]
    exact parseWidth_stop h
  · rw [parseWidth_toDigits hw, parseWidth_stop h]

theorem parseLength_write (modifier : Modifier) (conversion : Conversion) :
    parseLength (modifier.write ++ conversion.write :: rest) =
      (modifier.len, conversion.write :: rest) := by
  cases modifier <;> cases conversion <;> rfl

theorem behind_write (rest : List Char) (modifier : Modifier) (conversion : Conversion) :
    Behind (modifier.write ++ conversion.write :: rest) := by
  have hbehind : ∀ {c : Char} {cs : List Char}, ¬ (c = '-') → ¬ ('0' ≤ c ∧ c ≤ '9') →
      Behind (c :: cs) := by
    intro c cs hminus hdigit c' hc'
    rw [List.head?_cons, Option.mem_some_iff] at hc'
    rw [← hc']
    exact ⟨hminus, hdigit⟩
  cases modifier with
  | none => cases conversion <;> exact hbehind (by decide) (by decide)
  | l => exact hbehind (by decide) (by decide)
  | ll => exact hbehind (by decide) (by decide)

theorem parseDirective_write (rest : List Char) (d : NumberDirective) :
    parseDirective (d.marks.map Mark.write ++ (writeWidth d.width ++
      (d.modifier.write ++ d.conversion.write :: rest))) =
      .ok (.directive d.conversion.write (markFlags d.marks) d.width d.modifier.len, rest) := by
  have hbehind := behind_write rest d.modifier d.conversion
  have hwidth : d.width < 2 ^ 32 := lt_trans d.width_lt (by norm_num)
  rw [parseDirective, parseFlags_marks d.marks {} (writeWidth_head hbehind)]
  dsimp only
  rw [parseWidth_write hwidth hbehind]
  dsimp only
  rw [parseLength_write]
  simp [markFlags]

theorem pieces_write (items : List Item) (behind : List Char) {fuel : ℕ}
    (hfuel : items.length < fuel) :
    pieces fuel (writeFormat items behind) = (items.map Item.piece, true) := by
  induction items generalizing fuel with
  | nil =>
    obtain ⟨fuel, rfl⟩ : ∃ k, fuel = k + 1 := ⟨fuel - 1, by omega⟩
    rfl
  | cons item items ih =>
    obtain ⟨fuel, rfl⟩ : ∃ k, fuel = k + 1 := ⟨fuel - 1, by omega⟩
    have hrest := ih (Nat.lt_of_succ_lt_succ hfuel)
    unfold writeFormat at hrest ⊢
    rw [List.flatMap_cons, List.append_assoc]
    generalize List.flatMap Item.write items ++ '\x00' :: behind = format at hrest ⊢
    cases item with
    | literal c h =>
      rw [Item.write, List.singleton_append, pieces, hrest]
      · rfl
      · exact h.2
      · exact h.1
    | percent =>
      have hparse : parseDirective ('%' :: format) = .ok (.directive '%' {} 0 .default, format) := rfl
      rw [Item.write, List.cons_append, List.singleton_append, pieces, hparse]
      dsimp only
      rw [hrest]
      rfl
    | string =>
      have hparse : parseDirective ('s' :: format) = .ok (.directive 's' {} 0 .default, format) := rfl
      rw [Item.write, List.cons_append, List.singleton_append, pieces, hparse]
      dsimp only
      rw [hrest]
      rfl
    | char =>
      have hparse : parseDirective ('c' :: format) = .ok (.directive 'c' {} 0 .default, format) := rfl
      rw [Item.write, List.cons_append, List.singleton_append, pieces, hparse]
      dsimp only
      rw [hrest]
      rfl
    | number d =>
      have hparse := parseDirective_write format d
      rw [Item.write, NumberDirective.write, List.cons_append, pieces]
      simp only [List.append_assoc, List.singleton_append, hparse, hrest, List.map_cons, Item.piece]

theorem length_le_write (items : List Item) : items.length ≤ (items.flatMap Item.write).length := by
  have hitem : ∀ item : Item, 1 ≤ item.write.length := by
    intro item
    cases item <;> simp [Item.write, NumberDirective.write]
  induction items with
  | nil => exact le_refl _
  | cons item items ih =>
    rw [List.length_cons, List.flatMap_cons, List.length_append]
    have hone := hitem item
    omega

theorem formatPieces_write (items : List Item) (behind : List Char) :
    formatPieces (writeFormat items behind) = items.map Item.piece ∧
      Terminated (writeFormat items behind) := by
  have hlen : items.length < (writeFormat items behind).length + 1 := by
    have hwrite := length_le_write items
    rw [writeFormat, List.length_append]
    omega
  have hpieces := pieces_write items behind hlen
  unfold formatPieces Terminated
  rw [hpieces]
  exact ⟨rfl, rfl⟩

end parse

end Fynaos.Snprintf
