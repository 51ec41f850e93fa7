import Fynaos.Snprintf.Bounds

/-!
# A text at the end of the buffer

A text that fits is copied (`emit_inside`). A string that does not fit loses its end; of most other
texts nothing is printed, and a byte of the buffer stays as it was (`emit_fillsUp`, `emit_stale`).
-/

namespace Fynaos.Snprintf

/-- All of a text and the byte behind it go into the buffer. -/
def Fits : Style → ℕ → ℕ → Prop
  | .unknown, _, room => 3 < room
  | _, len, room => len < room

/-- A text that does not fit still fills the buffer with its beginning. -/
def FillsUp : Style → List Char → ℕ → Prop
  | .string, _, _ => True
  | .number, text, _ => text.length + 1 = 2 ^ 32
  | .pointer, text, room =>
    if 2 < room then room = 3 ∨ text.length - 2 + 1 = 2 ^ 32
    else text[2]? = some '0' ∧ Fits32 (text.length - 2) room
  | _, _, _ => False

section cut
variable {p : Piece} {ps : List Piece} {args : List Arg} {text : List Char}
  {limit buffer room : ℕ} {out : Out} {s : Printer}

/-! ### Without room -/

theorem moved_le_one {style : Style} (hroom : room ≤ 1) : moved style text room = moved style text 0 := by
  cases style with
  | literal => rw [moved, if_neg (by omega), moved, if_neg (by omega)]
  | pointer => rw [moved, if_neg (by omega), moved, if_neg (by omega)]
  | _ => rfl

theorem advance_le_one (hroom : room ≤ 1) : advance ps args room = advance ps args 0 := by
  induction ps generalizing args room with
  | nil => rfl
  | cons p ps ih =>
    rw [advance, advance]
    by_cases hc : p.style = .char
    · rw [if_pos ⟨hc, hroom⟩, if_pos ⟨hc, by omega⟩, ih (by omega), ih (by omega)]
    · rw [if_neg fun h => hc h.1, if_neg fun h => hc h.1]
      refine bind_congr fun x => ?_
      obtain ⟨text, rest⟩ := x
      dsimp only
      rw [moved_le_one hroom, ih (by omega), Nat.zero_sub]

theorem performAll_ok_iff (limit : ℕ) (args : List Arg) (buffer : ℕ) (out : Out)
    (hps : ∀ p ∈ ps, p.Bounded) :
    (∃ s, performAll limit ps ⟨args, buffer, out⟩ = .ok s) ↔
      ∃ n, advance ps args (limit - buffer) = .ok n := by
  have hadvance := performAll_advance limit args buffer out hps
  cases hs : performAll limit ps ⟨args, buffer, out⟩ with
  | error e =>
    rw [hs] at hadvance
    cases hn : advance ps args (limit - buffer) with
    | error e' => simp
    | ok n =>
      rw [hn] at hadvance
      cases hadvance
  | ok s =>
    rw [hs] at hadvance
    cases hn : advance ps args (limit - buffer) with
    | error e' =>
      rw [hn] at hadvance
      cases hadvance
    | ok n => simp

/-- Behind the buffer only the NUL at its end is stored. -/
theorem terminate_blind (hps : ∀ p ∈ ps, p.Bounded) (hroom : limit ≤ buffer + 1) (hlimit : 0 < limit)
    (h : performAll limit ps ⟨args, buffer, out⟩ = .ok s) :
    (∀ x, x + 1 < limit → (terminate limit s).mem x = out.mem x) ∧
      (terminate limit s).mem (limit - 1) = '\x00' := by
  have hle := performAll_buffer_le hps h
  unfold terminate
  split_ifs with hlt
  · constructor
    · intro x hx
      rw [Out.put_mem_of_ne (by omega), performAll_below hps h (by omega)]
    · rw [show limit - 1 = s.buffer by omega]
      exact Out.put_mem_self _ _ _
  · constructor
    · intro x hx
      rw [Out.put_mem_of_ne (by omega), performAll_below hps h (by omega)]
    · exact Out.put_mem_self _ _ _

theorem terminate_below (hps : ∀ p ∈ ps, p.Bounded)
    (h : performAll limit ps ⟨args, buffer, out⟩ = .ok s) {x : ℕ} (hx : x < buffer)
    (hlimit : x + 1 < limit) : (terminate limit s).mem x = out.mem x := by
  have hle := performAll_buffer_le hps h
  unfold terminate
  split_ifs
  · rw [Out.put_mem_of_ne (by omega), performAll_below hps h hx]
  · rw [Out.put_mem_of_ne (by omega), performAll_below hps h hx]

/-! ### A text that fits -/

theorem moved_of_fits (hshape : Shaped p.style text) (hfits : Fits p.style text.length room) :
    moved p.style text room = text.length := by
  cases hs : p.style with
  | literal =>
    rw [hs] at hshape hfits
    have hone : text.length = 1 := hshape
    have hroom : text.length < room := hfits
    rw [moved, if_pos (by omega), hone]
  | pointer =>
    rw [hs] at hshape hfits
    obtain ⟨number, rfl, hnumber⟩ := hshape
    have hroom : number.length + 2 < room := hfits
    rw [moved, if_pos (by omega)]
  | _ => rfl

theorem fits_lt (hshape : Shaped p.style text) (hfits : Fits p.style text.length room) :
    text.length < room := by
  cases hs : p.style with
  | unknown =>
    rw [hs] at hshape hfits
    obtain ⟨conv, rfl⟩ := hshape
    have htwo : ['%', conv].length = 2 := rfl
    have hroom : 3 < room := hfits
    omega
  | _ =>
    rw [hs] at hfits
    exact hfits

theorem printString_inside {str : List Char} {i : ℕ} (hi : i < str.length)
    (hroom : buffer + i + 1 < limit) :
    (printString limit str buffer out).2.mem (buffer + i) = str[i] := by
  induction str generalizing buffer out i with
  | nil => exact absurd hi (Nat.not_lt_zero _)
  | cons c str ih =>
    rw [printString]
    cases i with
    | zero =>
      rw [printString_below (by omega), if_pos (by omega)]
      exact Out.put_mem_self _ _ _
    | succ i =>
      rw [show buffer + (i + 1) = buffer + 1 + i by omega,
        ih (Nat.lt_of_succ_lt_succ hi) (by omega)]
      rfl

theorem emitNumber_inside {i : ℕ} (hi : i < text.length)
    (hfits : Fits32 text.length (limit - buffer)) :
    (emitNumber limit text buffer out).2.mem (buffer + i) = text[i] := by
  rw [emitNumber, if_pos hfits]
  dsimp only
  split_ifs
  · rw [Out.put_mem_of_ne (by omega), Out.write_mem_inside hi]
  · exact Out.write_mem_inside hi

theorem fits32_of_lt {len : ℕ} (hlen : len < room) : Fits32 len room := by
  unfold Fits32 wrap32
  omega

theorem emit_inside {i : ℕ} (hfits : Fits p.style text.length (limit - buffer))
    (hshape : Shaped p.style text) (hi : i < text.length) :
    (emit limit p.style text buffer out).2.mem (buffer + i) = text[i] := by
  have hwrite : ∀ {n : ℕ}, buffer + n < limit →
      (if buffer + n < limit then out.write buffer text else out).mem (buffer + i) = text[i] := by
    intro n hn
    rw [if_pos hn]
    exact Out.write_mem_inside hi
  have hlt := fits_lt hshape hfits
  cases hs : p.style with
  | literal =>
    rw [emit, if_pos (by omega)]
    exact Out.write_mem_inside hi
  | percent => exact hwrite (by omega)
  | char => exact hwrite (by omega)
  | string => exact printString_inside hi (by omega)
  | number => exact emitNumber_inside hi (fits32_of_lt hlt)
  | pointer =>
    rw [hs] at hshape
    obtain ⟨number, rfl, hnumber⟩ := hshape
    simp only [List.length_cons] at hlt hi
    rw [emit, if_pos (by omega)]
    simp only [List.drop_succ_cons, List.drop_zero, List.take_succ_cons, List.take_zero]
    by_cases htwo : i < 2
    · rw [emitNumber_below (by omega), Out.write_mem_inside (by simpa using htwo)]
      interval_cases i <;> rfl
    · obtain ⟨j, rfl⟩ : ∃ j, i = j + 2 := ⟨i - 2, by omega⟩
      rw [show buffer + (j + 2) = buffer + 2 + j by omega,
        emitNumber_inside (by omega) (fits32_of_lt (by omega))]
      rfl
  | unknown =>
    rw [hs] at hfits
    have hroom : 3 < limit - buffer := hfits
    exact hwrite (by omega)

theorem printString_behind {str : List Char} {x : ℕ} (hx : buffer + str.length ≤ x) :
    (printString limit str buffer out).2.mem x = out.mem x := by
  induction str generalizing buffer out with
  | nil => rfl
  | cons c str ih =>
    rw [List.length_cons] at hx
    rw [printString, ih (by omega)]
    split_ifs
    · exact Out.put_mem_of_ne (by omega)
    · rfl

theorem emitNumber_behind {x : ℕ} (hx : buffer + text.length ≤ x) :
    (emitNumber limit text buffer out).2.mem x = out.mem x ∨
      (emitNumber limit text buffer out).2.mem x = '\x00' := by
  have hwrite : (if Fits32 text.length (limit - buffer) then out.write buffer text else out).mem x =
      out.mem x := by
    split_ifs
    · exact Out.write_mem_outside (Or.inr hx)
    · rfl
  rw [emitNumber]
  dsimp only
  by_cases hend : buffer + text.length < limit
  · rw [if_pos hend]
    by_cases hxe : x = buffer + text.length
    · rw [hxe]
      exact Or.inr (Out.put_mem_self _ _ _)
    · rw [Out.put_mem_of_ne hxe, hwrite]
      exact Or.inl rfl
  · rw [if_neg hend, hwrite]
    exact Or.inl rfl

theorem emit_behind (out : Out) (hfits : Fits p.style text.length (limit - buffer))
    (hshape : Shaped p.style text) {x : ℕ} (hx : buffer + text.length ≤ x) :
    (emit limit p.style text buffer out).2.mem x = out.mem x ∨
      (emit limit p.style text buffer out).2.mem x = '\x00' := by
  have hwrite : ∀ {n : ℕ}, (if buffer + n < limit then out.write buffer text else out).mem x =
      out.mem x := by
    intro n
    split_ifs
    · exact Out.write_mem_outside (Or.inr hx)
    · rfl
  have hlt := fits_lt hshape hfits
  cases hs : p.style with
  | literal =>
    rw [hs] at hshape
    have hone : text.length = 1 := hshape
    rw [emit, if_pos (by omega)]
    exact Or.inl (Out.write_mem_outside (Or.inr hx))
  | percent => exact Or.inl hwrite
  | char => exact Or.inl hwrite
  | string => exact Or.inl (printString_behind hx)
  | number => exact emitNumber_behind hx
  | pointer =>
    rw [hs] at hshape
    obtain ⟨number, rfl, hnumber⟩ := hshape
    simp only [List.length_cons] at hlt hx
    rw [emit, if_pos (by omega)]
    simp only [List.drop_succ_cons, List.drop_zero, List.take_succ_cons, List.take_zero]
    have hpre : (out.write buffer ['0', 'x']).mem x = out.mem x :=
      Out.write_mem_outside (Or.inr (by simp; omega))
    rw [← hpre]
    exact emitNumber_behind (by omega)
  | unknown => exact Or.inl hwrite

/-! ### A text that does not fit -/

theorem moved_of_not_fits (hshape : Shaped p.style text)
    (hfits : ¬ Fits p.style text.length room) : room - moved p.style text room ≤ 1 := by
  cases hs : p.style with
  | literal =>
    rw [hs] at hshape hfits
    have hone : text.length = 1 := hshape
    have hroom : ¬ text.length < room := hfits
    omega
  | pointer =>
    rw [hs] at hshape hfits
    obtain ⟨number, rfl, hnumber⟩ := hshape
    have hpos := hnumber.pos
    have hroom : ¬ number.length + 2 < room := hfits
    rw [moved]
    simp only [List.length_cons]
    split_ifs <;> omega
  | unknown =>
    rw [hs] at hshape hfits
    obtain ⟨conv, rfl⟩ := hshape
    have hroom : ¬ 3 < room := hfits
    have htwo : moved .unknown ['%', conv] room = 2 := rfl
    omega
  | _ =>
    rw [hs] at hfits
    have hroom : ¬ text.length < room := hfits
    rw [moved]
    · omega
    all_goals simp

theorem emit_fillsUp (hshape : Shaped p.style text)
    (hfits : ¬ Fits p.style text.length (limit - buffer))
    (hfills : FillsUp p.style text (limit - buffer)) {i : ℕ} (hi : buffer + i + 1 < limit) :
    text[i]? = some ((emit limit p.style text buffer out).2.mem (buffer + i)) := by
  cases hs : p.style with
  | string =>
    rw [hs] at hfits
    have hroom : ¬ text.length < limit - buffer := hfits
    have hlt : i < text.length := by omega
    rw [List.getElem?_eq_getElem hlt, Option.some_inj]
    exact (printString_inside hlt hi).symm
  | number =>
    rw [hs] at hfits hfills
    have hroom : ¬ text.length < limit - buffer := hfits
    have hspecial : text.length + 1 = 2 ^ 32 := hfills
    have hlt : i < text.length := by omega
    have hpass : Fits32 text.length (limit - buffer) := by
      unfold Fits32 wrap32
      omega
    rw [List.getElem?_eq_getElem hlt, Option.some_inj]
    exact (emitNumber_inside hlt hpass).symm
  | pointer =>
    rw [hs] at hshape hfits hfills
    obtain ⟨number, rfl, hnumber⟩ := hshape
    have hpos := hnumber.pos
    have hlen := hnumber.lt
    have hroom : ¬ number.length + 2 < limit - buffer := hfits
    rw [FillsUp] at hfills
    simp only [List.length_cons] at hfills
    rw [emit]
    simp only [List.drop_succ_cons, List.drop_zero, List.take_succ_cons, List.take_zero]
    split_ifs at hfills with htwo
    · rw [if_pos (by omega)]
      by_cases hsmall : i < 2
      · rw [emitNumber_below (by omega), Out.write_mem_inside (by simpa using hsmall)]
        interval_cases i <;> rfl
      · obtain ⟨j, rfl⟩ : ∃ j, i = j + 2 := ⟨i - 2, by omega⟩
        have hpass : Fits32 number.length (limit - (buffer + 2)) := by
          unfold Fits32 wrap32
          omega
        have hlt : j < number.length := by omega
        rw [show buffer + (j + 2) = buffer + 2 + j by omega, emitNumber_inside hlt hpass]
        simp [hlt]
    · obtain ⟨hzero, hpass⟩ := hfills
      obtain rfl : i = 0 := by omega
      rw [if_neg (by omega), emitNumber_inside hpos hpass]
      simp only [List.getElem?_cons_succ, List.getElem?_cons_zero] at hzero ⊢
      rw [List.getElem?_eq_getElem hpos, Option.some_inj] at hzero
      rw [hzero]
  | _ =>
    rw [hs] at hfills
    exact hfills.elim

theorem NumberShaped.head {number : List Char} (h : NumberShaped number) :
    ∃ c, number[0]? = some c ∧ c ≠ '\x00' := by
  have hpos : 0 < number.length := h.pos
  have hget : number[0]? = some number[0] := List.getElem?_eq_getElem hpos
  refine ⟨number[0], hget, fun hc => h.not_nul ?_⟩
  rw [← hc]
  exact List.getElem_mem _

/-- A number that is not printed changes nothing when the NUL behind it would be outside as well. -/
theorem emitNumber_nothing (hfits : ¬ Fits32 text.length (limit - buffer))
    (hlen : limit ≤ buffer + text.length) : (emitNumber limit text buffer out).2 = out := by
  rw [emitNumber, if_neg hfits]
  dsimp only
  rw [if_neg (by omega)]

/-- A pointer that does not fit: either its prefix is printed and its number is not, or its number is
printed in the place of its prefix. -/
theorem emit_stale_pointer {number : List Char} (hnumber : NumberShaped number)
    (hfits : ¬ number.length + 2 < limit - buffer) (hroom : buffer + 1 < limit)
    (hfills : ¬ FillsUp .pointer ('0' :: 'x' :: number) (limit - buffer)) :
    ∃ i c, buffer + i + 1 < limit ∧ ('0' :: 'x' :: number)[i]? = some c ∧ c ≠ '\x00' ∧
      ∀ out, (emit limit .pointer ('0' :: 'x' :: number) buffer out).2.mem (buffer + i) =
          out.mem (buffer + i) ∨
        (emit limit .pointer ('0' :: 'x' :: number) buffer out).2.mem (buffer + i) ≠ c := by
  have hpos := hnumber.pos
  have hlt := hnumber.lt
  rw [FillsUp] at hfills
  simp only [List.length_cons] at hfills
  by_cases htwo : buffer + 2 < limit
  · rw [if_pos (by omega)] at hfills
    have hpass : ¬ Fits32 number.length (limit - (buffer + 2)) := by
      unfold Fits32 wrap32
      omega
    obtain ⟨c, hget, hc⟩ := hnumber.head
    refine ⟨2, c, by omega, hget, hc, fun out => Or.inl ?_⟩
    rw [emit, if_pos htwo]
    simp only [List.drop_succ_cons, List.drop_zero, List.take_succ_cons, List.take_zero]
    rw [emitNumber_nothing hpass (by omega)]
    exact Out.write_mem_outside (Or.inr (le_refl _))
  · rw [if_neg (by omega)] at hfills
    refine ⟨0, '0', by omega, rfl, by decide, fun out => ?_⟩
    rw [emit, if_neg htwo]
    simp only [List.drop_succ_cons, List.drop_zero]
    by_cases hpass : Fits32 number.length (limit - buffer)
    · refine Or.inr fun hzero => hfills ⟨?_, hpass⟩
      rw [emitNumber_inside hpos hpass] at hzero
      simp only [List.getElem?_cons_succ]
      rw [List.getElem?_eq_getElem hpos, hzero]
    · have hbig : limit ≤ buffer + number.length := by
        unfold Fits32 wrap32 at hpass
        omega
      rw [emitNumber_nothing hpass hbig]
      exact Or.inl rfl

/-- It leaves a byte of the buffer as it was, or puts a wrong one there. -/
theorem emit_stale (hshape : Shaped p.style text)
    (hfits : ¬ Fits p.style text.length (limit - buffer)) (hroom : buffer + 1 < limit)
    (hfills : ¬ FillsUp p.style text (limit - buffer)) :
    ∃ i c, buffer + i + 1 < limit ∧ text[i]? = some c ∧ c ≠ '\x00' ∧
      ∀ out, (emit limit p.style text buffer out).2.mem (buffer + i) = out.mem (buffer + i) ∨
        (emit limit p.style text buffer out).2.mem (buffer + i) ≠ c := by
  cases hs : p.style with
  | string =>
    rw [hs] at hfills
    exact absurd trivial hfills
  | number =>
    rw [hs] at hshape hfits hfills
    have hlen : ¬ text.length < limit - buffer := hfits
    have hspecial : ¬ text.length + 1 = 2 ^ 32 := hfills
    have hlt := hshape.lt
    have hpass : ¬ Fits32 text.length (limit - buffer) := by
      unfold Fits32 wrap32
      omega
    obtain ⟨c, hget, hc⟩ := NumberShaped.head hshape
    refine ⟨0, c, by omega, hget, hc, fun out => Or.inl ?_⟩
    rw [emit, emitNumber_nothing hpass (by omega)]
  | pointer =>
    rw [hs] at hshape hfits hfills
    obtain ⟨number, rfl, hnumber⟩ := hshape
    exact emit_stale_pointer hnumber hfits hroom hfills
  | unknown =>
    rw [hs] at hshape hfits
    obtain ⟨conv, rfl⟩ := hshape
    have hlen : ¬ 3 < limit - buffer := hfits
    refine ⟨0, '%', by omega, rfl, by decide, fun out => Or.inl ?_⟩
    rw [emit, if_neg (by omega)]
  | _ =>
    rw [hs] at hshape hfits
    have hone : text.length = 1 := hshape
    have hlen : ¬ text.length < limit - buffer := hfits
    omega

end cut

end Fynaos.Snprintf
