import Fynaos.Snprintf.Pieces

/-!
# A run over the pieces

How far each piece moves the cursor only depends on its text and the room that is left (`advance`).
In a run without room nothing is stored below the last byte of the buffer, but the arguments are read
differently, since `%c` does not take its own (`performAll_blind`).
-/

namespace Fynaos.Snprintf

/-- The text of all pieces. -/
def fullText : List Piece → List Arg → Except Halt (List Char)
  | [], _ => .ok []
  | p :: ps, args => do
    let (text, args) ← pieceText p args
    let rest ← fullText ps args
    return text ++ rest

/-- How far a text moves the cursor when there are `room` bytes up to the limit. -/
def moved : Style → List Char → ℕ → ℕ
  | .literal, _, room => if 1 < room then 1 else 0
  | .pointer, text, room => if 2 < room then text.length else text.length - 2
  | _, text, _ => text.length

/-- How far a list of pieces moves the cursor. -/
def advance : List Piece → List Arg → ℕ → Except Halt ℕ
  | [], _, _ => .ok 0
  | p :: ps, args, room =>
    if p.style = .char ∧ room ≤ 1 then do
      let n ← advance ps args (room - 1)
      return 1 + n
    else do
      let (text, args) ← pieceText p args
      let n ← advance ps args (room - moved p.style text room)
      return moved p.style text room + n

/-- What is known about the text of a number. -/
structure NumberShaped (text : List Char) : Prop where
  pos : 1 ≤ text.length
  lt : text.length < 2 ^ 32
  not_nul : '\x00' ∉ text

/-- What is known about the text of a piece. -/
def Shaped : Style → List Char → Prop
  | .literal, text | .percent, text | .char, text => text.length = 1
  | .unknown, text => ∃ conv, text = ['%', conv]
  | .number, text => NumberShaped text
  | .pointer, text => ∃ number, text = '0' :: 'x' :: number ∧ NumberShaped number
  | .string, _ => True

section runs
variable {p : Piece} {ps : List Piece} {args rest : List Arg} {text : List Char}
  {limit buffer room : ℕ} {out : Out} {s : Printer}

/-! ### Texts -/

theorem digit_ne_nul (flags : Flags) (d : ℕ) : digit flags d ≠ '\x00' := by
  have hgetD : ∀ {l : List Char}, '\x00' ∉ l → l.getD d '0' ≠ '\x00' := by
    intro l hl
    rw [List.getD_eq_getElem?_getD]
    cases hd : l[d]? with
    | none => exact by decide
    | some c =>
      rintro rfl
      exact hl (List.mem_of_getElem? hd)
  unfold digit
  split_ifs
  · exact hgetD (by decide)
  · exact hgetD (by decide)

theorem numberDigits_not_nul (flags : Flags) (n : ℕ) : '\x00' ∉ numberDigits flags n := by
  unfold numberDigits
  split_ifs
  · decide
  · rw [List.mem_reverse, List.mem_map]
    rintro ⟨d, -, hd⟩
    exact digit_ne_nul flags d hd

theorem numberText_shaped (flags : Flags) {width u : ℕ} (hwidth : width < 2 ^ 32) (hu : u < 2 ^ 64)
    (z : ℤ) : NumberShaped (numberText flags width u z) := by
  have hmag : magnitude flags u z < 2 ^ 64 := magnitude_lt hu
  obtain ⟨hpos, hlen⟩ := numberDigits_length flags hmag
  have hminus : (minusSign flags z).length ≤ 1 ∧ '\x00' ∉ minusSign flags z := by
    unfold minusSign
    split_ifs <;> decide
  have hdigits := numberDigits_not_nul flags (magnitude flags u z)
  have hlength := padded_length flags width (minusSign flags z)
    (numberDigits flags (magnitude flags u z))
  refine ⟨?_, ?_, ?_⟩
  · rw [numberText, hlength]
    omega
  · rw [numberText, hlength]
    omega
  · have hpad : ∀ {n : ℕ} {c : Char}, c ≠ '\x00' → '\x00' ∉ List.replicate n c := fun hc h =>
      hc (List.eq_of_mem_replicate h).symm
    rw [numberText, padded]
    split_ifs <;> simp only [List.mem_append, not_or]
    · exact ⟨⟨hminus.2, hdigits⟩, hpad (by decide)⟩
    · exact ⟨⟨hminus.2, hpad (by decide)⟩, hdigits⟩
    · exact ⟨⟨hpad (by decide), hminus.2⟩, hdigits⟩

theorem pieceText_shaped (hp : p.Bounded) (h : pieceText p args = .ok (text, rest)) :
    Shaped p.style text := by
  have hnumber : ∀ {flags : Flags} {width : ℕ} {len : Length} {f : ℤ → ℕ} {g : ℤ → ℤ},
      width < 2 ^ 32 → (∀ n, f n < 2 ^ 64) → numberPiece flags width len f g args = .ok (text, rest) →
      NumberShaped text := by
    intro flags width len f g hwidth hf h
    obtain ⟨n, -, rfl⟩ := numberPiece_ok.mp h
    exact numberText_shaped flags hwidth (hf n) (g n)
  fun_cases Piece.style p with
  | case1 c =>
    cases h
    rfl
  | case2 flags width len => trivial
  | case3 flags width len =>
    rw [pieceText] at h
    obtain ⟨⟨n, args'⟩, -, h⟩ := bind_eq_ok.mp h
    cases h
    rfl
  | case4 flags width len => exact hnumber (f := fun _ => 0) (g := id) hp (fun _ => by norm_num) h
  | case5 flags width len => exact hnumber (g := fun _ => 0) hp toUnsigned_lt h
  | case6 flags width len => exact hnumber (g := fun _ => 0) hp toUnsigned_lt h
  | case7 flags width len => exact hnumber (g := fun _ => 0) hp toUnsigned_lt h
  | case8 flags width len => exact hnumber (g := fun _ => 0) hp toUnsigned_lt h
  | case9 flags width len => exact hnumber (g := fun _ => 0) hp toUnsigned_lt h
  | case10 flags width len =>
    rw [pieceText] at h
    rcases vaPointer_cases args with ⟨address, args', rfl⟩ | ⟨e, he⟩
    · cases h
      exact ⟨_, rfl, numberText_shaped _ hp address.isLt 0⟩
    · rw [he] at h
      cases h
  | case11 flags width len =>
    cases h
    rfl
  | case12 conv flags width len =>
    rw [pieceText] at h
    · cases h
      exact ⟨conv, rfl⟩
    all_goals assumption

/-! ### The cursor -/

theorem printString_fst (str : List Char) :
    (printString limit str buffer out).1 = buffer + str.length := by
  induction str generalizing buffer out with
  | nil => rfl
  | cons c str ih =>
    rw [printString, ih, List.length_cons]
    omega

theorem emit_fst (limit buffer : ℕ) (out : Out) (hshape : Shaped p.style text) :
    (emit limit p.style text buffer out).1 = buffer + moved p.style text (limit - buffer) := by
  cases hs : p.style with
  | literal =>
    rw [emit, moved]
    by_cases h : buffer + 1 < limit
    · rw [if_pos h, if_pos (by omega)]
    · rw [if_neg h, if_neg (by omega)]
      rfl
  | percent =>
    rw [hs] at hshape
    rw [emit, moved, show text.length = 1 from hshape]
    all_goals simp
  | char =>
    rw [hs] at hshape
    rw [emit, moved, show text.length = 1 from hshape]
    all_goals simp
  | string => exact printString_fst text
  | number => rfl
  | pointer =>
    rw [hs] at hshape
    obtain ⟨number, rfl, hnumber⟩ := hshape
    have hpos := hnumber.pos
    rw [emit, moved]
    by_cases h : buffer + 2 < limit
    · rw [if_pos h, if_pos (by omega)]
      simp only [emitNumber, List.drop_succ_cons, List.drop_zero, List.length_cons]
      omega
    · rw [if_neg h, if_neg (by omega)]
      simp only [emitNumber, List.drop_succ_cons, List.drop_zero, List.length_cons]
      omega
  | unknown =>
    rw [hs] at hshape
    obtain ⟨conv, rfl⟩ := hshape
    rfl

theorem performAll_advance (limit : ℕ) (args : List Arg) (buffer : ℕ) (out : Out)
    (hps : ∀ p ∈ ps, p.Bounded) :
    Printer.buffer <$> performAll limit ps ⟨args, buffer, out⟩ =
      (buffer + ·) <$> advance ps args (limit - buffer) := by
  induction ps generalizing args buffer out with
  | nil => rfl
  | cons p ps ih =>
    obtain ⟨hp, hps⟩ := List.forall_mem_cons.mp hps
    rw [performAll, perform_eq hp, advance]
    by_cases hc : p.style = .char ∧ limit - buffer ≤ 1
    · rw [if_pos ⟨hc.1, by omega⟩, if_pos hc, ok_bind, ih _ _ _ hps, map_bind, Nat.sub_sub]
      rw [map_eq_pure_bind]
      refine bind_congr fun n => ?_
      simp only [map_pure, Nat.add_assoc]
    · rw [if_neg fun h => hc ⟨h.1, by omega⟩, if_neg hc, bind_assoc, map_bind, map_bind]
      cases htext : pieceText p args with
      | error e => rw [error_bind, error_bind]
      | ok x =>
        obtain ⟨text, rest⟩ := x
        have hmove := emit_fst limit buffer out (pieceText_shaped hp htext)
        rw [ok_bind, ok_bind, ok_bind]
        dsimp only
        rw [ih _ _ _ hps, hmove, map_bind, Nat.sub_sub, map_eq_pure_bind]
        refine bind_congr fun n => ?_
        simp only [map_pure, Nat.add_assoc]

/-! ### The memory -/

theorem Out.write_mem_outside {cs : List Char} {a x : ℕ} (hx : x < a ∨ a + cs.length ≤ x) :
    (out.write a cs).mem x = out.mem x := by
  induction cs generalizing out a with
  | nil => rfl
  | cons c cs ih =>
    rw [List.length_cons] at hx
    rw [Out.write, ih (by omega)]
    exact Function.update_of_ne (by omega) _ _

theorem Out.write_mem_inside {cs : List Char} {a i : ℕ} (hi : i < cs.length) :
    (out.write a cs).mem (a + i) = cs[i] := by
  induction cs generalizing out a i with
  | nil => exact absurd hi (Nat.not_lt_zero _)
  | cons c cs ih =>
    rw [Out.write]
    cases i with
    | zero =>
      rw [Out.write_mem_outside (by omega)]
      exact Function.update_self _ _ _
    | succ i =>
      rw [show a + (i + 1) = a + 1 + i by omega, ih (Nat.lt_of_succ_lt_succ hi)]
      rfl

theorem Out.mem_stores_write {cs : List Char} {a x : ℕ} :
    x ∈ (out.write a cs).stores ↔ (a ≤ x ∧ x < a + cs.length) ∨ x ∈ out.stores := by
  induction cs generalizing out a with
  | nil =>
    rw [Out.write_nil, List.length_nil]
    simp
  | cons c cs ih =>
    rw [Out.write, ih, List.length_cons, show (out.put a c).stores = a :: out.stores from rfl,
      List.mem_cons]
    constructor
    · rintro (h | rfl | h)
      · exact Or.inl (by omega)
      · exact Or.inl (by omega)
      · exact Or.inr h
    · rintro (h | h)
      · by_cases hx : x = a
        · exact Or.inr (Or.inl hx)
        · exact Or.inl (by omega)
      · exact Or.inr (Or.inr h)

theorem Out.put_mem_of_ne {a x : ℕ} {c : Char} (hx : x ≠ a) : (out.put a c).mem x = out.mem x :=
  Function.update_of_ne hx _ _

theorem Out.put_mem_self (out : Out) (a : ℕ) (c : Char) : (out.put a c).mem a = c :=
  Function.update_self _ _ _

theorem printString_below {str : List Char} {x : ℕ} (hx : x < buffer) :
    (printString limit str buffer out).2.mem x = out.mem x := by
  induction str generalizing buffer out with
  | nil => rfl
  | cons c str ih =>
    rw [printString, ih (by omega)]
    split_ifs
    · exact Out.put_mem_of_ne (by omega)
    · rfl

theorem emitNumber_below {x : ℕ} (hx : x < buffer) :
    (emitNumber limit text buffer out).2.mem x = out.mem x := by
  have hwrite : (if Fits32 text.length (limit - buffer) then out.write buffer text else out).mem x =
      out.mem x := by
    split_ifs
    · exact Out.write_mem_outside (Or.inl hx)
    · rfl
  rw [emitNumber]
  dsimp only
  by_cases hend : buffer + text.length < limit
  · rw [if_pos hend, Out.put_mem_of_ne (by omega), hwrite]
  · rw [if_neg hend, hwrite]

theorem emit_below {style : Style} {x : ℕ} (hx : x < buffer) :
    (emit limit style text buffer out).2.mem x = out.mem x := by
  have hwrite : ∀ {n : ℕ}, (if buffer + n < limit then out.write buffer text else out).mem x =
      out.mem x := by
    intro n
    split_ifs
    · exact Out.write_mem_outside (Or.inl hx)
    · rfl
  cases style with
  | literal =>
    rw [emit]
    split_ifs
    · exact Out.write_mem_outside (Or.inl hx)
    · rfl
  | percent => exact hwrite
  | char => exact hwrite
  | string => exact printString_below hx
  | number => exact emitNumber_below hx
  | pointer =>
    rw [emit]
    split_ifs
    · rw [emitNumber_below (by omega), Out.write_mem_outside (Or.inl hx)]
    · exact emitNumber_below hx
  | unknown => exact hwrite

theorem perform_below (hp : p.Bounded) (h : perform limit p ⟨args, buffer, out⟩ = .ok s) {x : ℕ}
    (hx : x < buffer) : s.out.mem x = out.mem x ∧ buffer ≤ s.buffer := by
  rw [perform_eq hp] at h
  split_ifs at h
  · cases h
    exact ⟨rfl, Nat.le_succ _⟩
  · obtain ⟨⟨text, rest⟩, htext, h⟩ := bind_eq_ok.mp h
    cases h
    dsimp only
    rw [emit_fst limit buffer out (pieceText_shaped hp htext)]
    exact ⟨emit_below hx, Nat.le_add_right _ _⟩

theorem performAll_below (hps : ∀ p ∈ ps, p.Bounded)
    (h : performAll limit ps ⟨args, buffer, out⟩ = .ok s) {x : ℕ} (hx : x < buffer) :
    s.out.mem x = out.mem x := by
  induction ps generalizing args buffer out with
  | nil =>
    cases h
    rfl
  | cons p ps ih =>
    obtain ⟨hp, hps⟩ := List.forall_mem_cons.mp hps
    obtain ⟨t, ht, h⟩ := bind_eq_ok.mp h
    obtain ⟨hmem, hle⟩ := perform_below hp ht hx
    rw [ih hps h (by omega), hmem]

end runs

end Fynaos.Snprintf
