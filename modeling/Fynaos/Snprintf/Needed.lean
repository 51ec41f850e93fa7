import Fynaos.Snprintf.Truncation

/-!
# The length needed

`vsnprintf` returns how far the cursor moved. A literal character and the prefix of `%p` only move it when
they are stored, and a `%c` that is not stored leaves its argument to the next directive
(`advance_iff_steady`).
-/

namespace Fynaos.Snprintf

/-- There is no literal character and no `%p`, and what follows a `%c` needs as much when it starts
with the argument of the `%c`. -/
def Steady : List Piece → List Arg → Prop
  | [], _ => True
  | p :: ps, args =>
    match pieceText p args with
    | .error _ => False
    | .ok (_, rest) =>
      p.style ≠ .literal ∧ p.style ≠ .pointer ∧
        (p.style = .char → advance ps args 0 = List.length <$> fullText ps rest) ∧ Steady ps rest

/-- `vsnprintf` returns the length of the output for every buffer. -/
def ReturnsNeeded (format : List Char) (args : List Arg) (full : List Char) : Prop :=
  ∀ base length mem, 1 ≤ length →
    ∃ out, vsnprintf base length format args ⟨mem, []⟩ = .ok (full.length, out)

section needed
variable {p : Piece} {ps : List Piece} {args rest : List Arg} {text full : List Char}
  {room m k : ℕ}

/-! ### One piece -/

theorem bind_add_eq_ok {x : Except Halt ℕ} :
    (x >>= fun n => (pure (k + n) : Except Halt ℕ)) = .ok (k + m) ↔ x = .ok m := by
  rw [bind_eq_ok]
  constructor
  · rintro ⟨n, rfl, hn⟩
    have hsum : k + n = k + m := Except.ok.inj hn
    rw [show n = m by omega]
  · intro hx
    exact ⟨m, hx, rfl⟩

theorem advance_cons (htext : pieceText p args = .ok (text, rest))
    (hc : ¬ (p.style = .char ∧ room ≤ 1)) : advance (p :: ps) args room =
      advance ps rest (room - moved p.style text room) >>= fun n =>
        pure (moved p.style text room + n) := by
  rw [advance, if_neg hc, htext, ok_bind]

theorem advance_cons_char (hc : p.style = .char) (hroom : room ≤ 1) :
    advance (p :: ps) args room = advance ps args 0 >>= fun n => pure (1 + n) := by
  rw [advance, if_pos ⟨hc, hroom⟩, show room - 1 = 0 by omega]

/-- With one byte and with two a literal character moves the cursor differently. -/
theorem literal_not_steady (hs : p.style = .literal) (htext : pieceText p args = .ok (text, rest))
    (hall : ∀ room ≥ 1, advance (p :: ps) args room = .ok m) : False := by
  have hone := hall 1 (le_refl 1)
  have htwo := hall 2 (by norm_num)
  rw [advance_cons htext (by simp [hs]), hs] at hone htwo
  rw [show moved .literal text 1 = 0 from rfl, advance_le_one (by norm_num)] at hone
  rw [show moved .literal text 2 = 1 from rfl, advance_le_one (by norm_num)] at htwo
  obtain ⟨n, hn, hone⟩ := bind_eq_ok.mp hone
  obtain ⟨n', hn', htwo⟩ := bind_eq_ok.mp htwo
  obtain rfl : n = n' := Except.ok.inj (hn.symm.trans hn')
  have h1 : 0 + n = m := Except.ok.inj hone
  have h2 : 1 + n = m := Except.ok.inj htwo
  omega

/-- With one byte and with three a pointer moves the cursor differently. -/
theorem pointer_not_steady (hs : p.style = .pointer) (htext : pieceText p args = .ok (text, rest))
    (hlen : 3 ≤ text.length) (hall : ∀ room ≥ 1, advance (p :: ps) args room = .ok m) : False := by
  have hone := hall 1 (le_refl 1)
  have hthree := hall 3 (by norm_num)
  rw [advance_cons htext (by simp [hs]), hs] at hone hthree
  rw [show moved .pointer text 1 = text.length - 2 from rfl, advance_le_one (by omega)] at hone
  rw [show moved .pointer text 3 = text.length from rfl, advance_le_one (by omega)] at hthree
  obtain ⟨n, hn, hone⟩ := bind_eq_ok.mp hone
  obtain ⟨n', hn', hthree⟩ := bind_eq_ok.mp hthree
  obtain rfl : n = n' := Except.ok.inj (hn.symm.trans hn')
  have h1 : text.length - 2 + n = m := Except.ok.inj hone
  have h3 : text.length + n = m := Except.ok.inj hthree
  omega

/-- A character does so unless the rest needs as much with the arguments shifted. -/
theorem char_steady_iff (hs : p.style = .char) (hone : text.length = 1)
    (htext : pieceText p args = .ok (text, rest)) :
    (∀ room ≥ 1, advance (p :: ps) args room = .ok (1 + m)) ↔
      advance ps args 0 = .ok m ∧ ∀ room ≥ 1, advance ps rest room = .ok m := by
  have hmoved : ∀ room, moved p.style text room = 1 := by
    intro room
    rw [hs]
    exact hone
  constructor
  · intro hall
    constructor
    · have hfirst := hall 1 (le_refl 1)
      rwa [advance_cons_char hs (le_refl 1), bind_add_eq_ok] at hfirst
    · intro room hroom
      have hnext := hall (room + 1) (by omega)
      rwa [advance_cons htext (by omega), hmoved, bind_add_eq_ok, Nat.add_sub_cancel] at hnext
  · rintro ⟨hblind, hall⟩ room hroom
    by_cases h1 : room ≤ 1
    · rw [advance_cons_char hs h1, bind_add_eq_ok]
      exact hblind
    · rw [advance_cons htext (by omega), hmoved, bind_add_eq_ok]
      exact hall _ (by omega)

theorem other_steady_iff (hmoved : ∀ room, moved p.style text room = text.length)
    (hs : p.style ≠ .char) (htext : pieceText p args = .ok (text, rest)) :
    (∀ room ≥ 1, advance (p :: ps) args room = .ok (text.length + m)) ↔
      ∀ room ≥ 1, advance ps rest room = .ok m := by
  have hstep : ∀ room, advance (p :: ps) args room = .ok (text.length + m) ↔
      advance ps rest (room - text.length) = .ok m := by
    intro room
    rw [advance_cons htext fun h => hs h.1, hmoved, bind_add_eq_ok]
  constructor
  · intro hall room hroom
    have hnext := (hstep (room + text.length)).mp (hall _ (by omega))
    rwa [Nat.add_sub_cancel] at hnext
  · intro hall room hroom
    rw [hstep]
    by_cases hzero : room - text.length = 0
    · rw [hzero, ← advance_le_one (le_refl 1)]
      exact hall 1 (le_refl 1)
    · exact hall _ (by omega)

/-! ### A run -/

theorem advance_iff_steady (hps : ∀ p ∈ ps, p.Bounded) (hfull : fullText ps args = .ok full) :
    (∀ room ≥ 1, advance ps args room = .ok full.length) ↔ Steady ps args := by
  induction ps generalizing args full with
  | nil =>
    cases hfull
    exact iff_of_true (fun room hroom => rfl) trivial
  | cons p ps ih =>
    obtain ⟨hp, hps⟩ := List.forall_mem_cons.mp hps
    obtain ⟨text, rest, full', htext, hfull', rfl⟩ := fullText_cons hfull
    have hshape := pieceText_shaped hp htext
    have hrest := ih hps hfull'
    rw [Steady, htext, List.length_append]
    dsimp only
    rw [← hrest, hfull']
    cases hs : p.style with
    | literal =>
      refine iff_of_false (fun hall => literal_not_steady hs htext hall) fun h => h.1 rfl
    | pointer =>
      rw [hs] at hshape
      obtain ⟨number, rfl, hnumber⟩ := hshape
      have hpos := hnumber.pos
      exact iff_of_false
        (fun hall => pointer_not_steady hs htext (by simp only [List.length_cons]; omega) hall)
        fun h => h.2.1 rfl
    | char =>
      rw [hs] at hshape
      have hone : text.length = 1 := hshape
      rw [hone, char_steady_iff hs hone htext]
      constructor
      · rintro ⟨hblind, hall⟩
        exact ⟨by simp, by simp, fun _ => hblind, hall⟩
      · rintro ⟨-, -, hblind, hall⟩
        exact ⟨hblind rfl, hall⟩
    | _ =>
      rw [other_steady_iff (fun room => by rw [hs]; rfl) (by simp [hs]) htext]
      constructor
      · intro hall
        exact ⟨by simp, by simp, by simp, hall⟩
      · rintro ⟨-, -, -, hall⟩
        exact hall

end needed

/-! ### The whole function -/

theorem returnsNeeded_iff (format : List Char) (args : List Arg) (full : List Char)
    (hfull : Full format args full) :
    ReturnsNeeded format args full ↔ Steady (formatPieces format) args := by
  have hps : ∀ p ∈ formatPieces format, p.Bounded := pieces_bounded _ _
  obtain ⟨hnul, htext⟩ := full_iff.mp hfull
  rw [← advance_iff_steady hps htext]
  constructor
  · intro hreturns room hroom
    obtain ⟨out, hrun⟩ := hreturns 0 room (fun _ => ' ') hroom
    obtain ⟨-, s, hs, hlen, -⟩ := vsnprintf_ok.mp hrun
    obtain ⟨n, hn⟩ := (performAll_ok_iff _ _ _ _ hps).mp ⟨s, hs⟩
    have hbuffer := performAll_buffer hps hs hn
    rw [Nat.zero_add, Nat.sub_zero] at hn
    rw [hn]
    congr 1
    omega
  · intro hall base length mem hlength
    have hn := hall length hlength
    rw [← Nat.add_sub_cancel_left base length] at hn
    obtain ⟨s, hs⟩ := (performAll_ok_iff (base + length) args base ⟨mem, []⟩ hps).mpr ⟨_, hn⟩
    have hbuffer := performAll_buffer hps hs hn
    exact ⟨_, vsnprintf_ok.mpr ⟨hnul, s, hs, by omega, rfl⟩⟩

theorem returnsNeeded_iff_number : ReturnsNeeded "%d\x00".toList [.int 12345] "12345".toList := by
  refine (returnsNeeded_iff "%d\x00".toList [.int 12345] "12345".toList full_number).mpr ?_
  rw [pieces_five, Steady, pieceText_five]
  have hstyle : (Piece.directive 'd' {} 0 .default).style = .number := rfl
  dsimp only
  rw [hstyle]
  exact ⟨by decide, by decide, fun hchar => absurd hchar (by decide), trivial⟩

/-- A literal character without room does not count. -/
theorem literal_not_counted :
    Full "a\x00".toList [] ['a'] ∧ ¬ ReturnsNeeded "a\x00".toList [] ['a'] := by
  have hparse : formatPieces "a\x00".toList = [.literal 'a'] := by decide
  constructor
  · refine full_iff.mpr ⟨show (pieces 3 "a\x00".toList).2 = true by decide, ?_⟩
    rw [hparse]
    rfl
  · intro hreturns
    obtain ⟨out, hrun⟩ := hreturns 4096 1 (fun _ => ' ') (le_refl 1)
    have hzero : ((vsnprintf 4096 1 "a\x00".toList [] ⟨fun _ => ' ', []⟩).map Prod.fst) = .ok 0 := by
      decide +kernel
    rw [hrun] at hzero
    cases hzero

end Fynaos.Snprintf
