import Fynaos.Snprintf.Runs

/-!
# Stores outside of the buffer

`print_number` adds one to the length of its text in 32 bits. A text of `2 ^ 32 - 1` characters passes
the check with any room, and all of it is stored. Nothing else stores outside of the buffer
(`vsnprintf_inside`).
-/

namespace Fynaos.Snprintf

/-- All stores went to `[base, limit)`. -/
def StoresIn (base limit : ℕ) (out : Out) : Prop := ∀ a ∈ out.stores, base ≤ a ∧ a < limit

/-- A number of `len` characters does not take the check by surprise. -/
def NumberInside (len room : ℕ) : Prop := len + 1 = 2 ^ 32 → room = 0 ∨ len ≤ room

/-- The number in a text of `len` characters, if there is one, does not take the check by surprise. -/
def Inside : Style → ℕ → ℕ → Prop
  | .number, len, room => NumberInside len room
  | .pointer, len, room => NumberInside (len - 2) (if 2 < room then room - 2 else room)
  | _, _, _ => True

/-- No number of `2 ^ 32 - 1` characters comes where there is too little room for it. -/
def Safe : List Piece → List Arg → ℕ → Prop
  | [], _, _ => True
  | p :: ps, args, room =>
    if p.style = .char ∧ room ≤ 1 then Safe ps args (room - 1)
    else
      match pieceText p args with
      | .error _ => True
      | .ok (text, args) =>
        Inside p.style text.length room ∧ Safe ps args (room - moved p.style text room)

section bounds
variable {p : Piece} {ps : List Piece} {args : List Arg} {text : List Char}
  {base limit buffer a : ℕ} {out : Out} {c : Char} {s : Printer}

/-! ### One piece -/

theorem StoresIn.put (h : StoresIn base limit out) (hbase : base ≤ a) (hlimit : a < limit) :
    StoresIn base limit (out.put a c) := by
  intro x hx
  rcases List.mem_cons.mp hx with rfl | hx
  · exact ⟨hbase, hlimit⟩
  · exact h x hx

theorem storesIn_write (h : StoresIn base limit out) (hbase : base ≤ a) (htext : 1 ≤ text.length) :
    StoresIn base limit (out.write a text) ↔ a + text.length ≤ limit := by
  constructor
  · intro hin
    have hlast := hin (a + text.length - 1) (Out.mem_stores_write.mpr (Or.inl (by omega)))
    omega
  · intro hfit x hx
    rcases Out.mem_stores_write.mp hx with hx | hx
    · omega
    · exact h x hx

theorem printString_stores (h : StoresIn base limit out) (hbase : base ≤ buffer) :
    StoresIn base limit (printString limit text buffer out).2 := by
  induction text generalizing buffer out with
  | nil => exact h
  | cons c text ih =>
    rw [printString]
    refine ih ?_ (by omega)
    split_ifs
    · exact h.put hbase (by omega)
    · exact h

theorem emitNumber_stores (h : StoresIn base limit out) (hbase : base ≤ buffer)
    (hpos : 1 ≤ text.length) (hlen : text.length < 2 ^ 32) :
    StoresIn base limit (emitNumber limit text buffer out).2 ↔
      NumberInside text.length (limit - buffer) := by
  have hend : ∀ {o : Out}, StoresIn base limit (if buffer + text.length < limit then
      o.put (buffer + text.length) '\x00' else o) ↔ StoresIn base limit o := by
    intro o
    split_ifs with hlt
    · constructor
      · intro hput x hx
        exact hput x (List.mem_cons_of_mem _ hx)
      · intro ho
        exact ho.put (by omega) hlt
    · exact Iff.rfl
  rw [emitNumber]
  dsimp only
  rw [hend]
  by_cases hfits : Fits32 text.length (limit - buffer)
  · rw [if_pos hfits, storesIn_write h hbase hpos]
    obtain ⟨hroom, hwrap⟩ := hfits
    unfold wrap32 at hwrap
    unfold NumberInside
    omega
  · rw [if_neg hfits]
    refine iff_of_true h fun hwrap => Or.inl ?_
    unfold Fits32 wrap32 at hfits
    rw [hwrap] at hfits
    omega

theorem emit_stores (limit : ℕ) (hshape : Shaped p.style text) (h : StoresIn base limit out)
    (hbase : base ≤ buffer) :
    StoresIn base limit (emit limit p.style text buffer out).2 ↔
      Inside p.style text.length (limit - buffer) := by
  have hwrite : ∀ {n : ℕ}, 1 ≤ text.length → text.length ≤ n → StoresIn base limit
      (if buffer + n < limit then out.write buffer text else out) := by
    intro n hpos hn
    split_ifs
    · exact (storesIn_write h hbase hpos).mpr (by omega)
    · exact h
  cases hs : p.style with
  | literal =>
    rw [hs] at hshape
    have hone : text.length = 1 := hshape
    have hin := hwrite (n := 1) (by omega) (by omega)
    refine iff_of_true ?_ trivial
    rw [emit]
    split_ifs at hin ⊢
    · exact hin
    · exact hin
  | percent =>
    rw [hs] at hshape
    have hone : text.length = 1 := hshape
    exact iff_of_true (hwrite (by omega) (by omega)) trivial
  | char =>
    rw [hs] at hshape
    have hone : text.length = 1 := hshape
    exact iff_of_true (hwrite (by omega) (by omega)) trivial
  | string => exact iff_of_true (printString_stores h hbase) trivial
  | number =>
    rw [hs] at hshape
    exact emitNumber_stores h hbase hshape.pos hshape.lt
  | pointer =>
    rw [hs] at hshape
    obtain ⟨number, rfl, hpos, hlen, -⟩ := hshape
    rw [emit, Inside]
    simp only [List.drop_succ_cons, List.drop_zero, List.take_succ_cons, List.take_zero,
      List.length_cons]
    rw [show number.length + 1 + 1 - 2 = number.length by omega]
    by_cases hroom : buffer + 2 < limit
    · have hpre : StoresIn base limit (out.write buffer ['0', 'x']) :=
        (storesIn_write h hbase (by simp)).mpr (by simp; omega)
      rw [if_pos hroom, if_pos (by omega), emitNumber_stores hpre (by omega) hpos hlen,
        Nat.sub_sub]
    · rw [if_neg hroom, if_neg (by omega), emitNumber_stores h hbase hpos hlen]
  | unknown =>
    rw [hs] at hshape
    obtain ⟨conv, rfl⟩ := hshape
    have htwo : ['%', conv].length = 2 := rfl
    exact iff_of_true (hwrite (by omega) (by omega)) trivial

/-! ### A run -/

theorem performAll_stores (args : List Arg) (hps : ∀ p ∈ ps, p.Bounded) (h : StoresIn base limit out)
    (hbase : base ≤ buffer) :
    (∀ k s, performAll limit (ps.take k) ⟨args, buffer, out⟩ = .ok s → StoresIn base limit s.out) ↔
      Safe ps args (limit - buffer) := by
  induction ps generalizing args buffer out with
  | nil =>
    refine iff_of_true ?_ trivial
    intro k s hs
    rw [List.take_nil] at hs
    cases hs
    exact h
  | cons p ps ih =>
    obtain ⟨hp, hps⟩ := List.forall_mem_cons.mp hps
    -- the first piece is performed or none
    have hcons : (∀ k s, performAll limit ((p :: ps).take k) ⟨args, buffer, out⟩ = .ok s →
          StoresIn base limit s.out) ↔
        ∀ k s, (perform limit p ⟨args, buffer, out⟩ >>= performAll limit (ps.take k)) = .ok s →
          StoresIn base limit s.out := by
      constructor
      · intro hall k
        exact hall (k + 1)
      · intro hall k s hs
        cases k with
        | zero =>
          cases hs
          exact h
        | succ k => exact hall k s hs
    rw [hcons, perform_eq hp, Safe]
    by_cases hc : p.style = .char ∧ limit - buffer ≤ 1
    · rw [if_pos ⟨hc.1, by omega⟩, if_pos hc, Nat.sub_sub, ← ih _ hps h (by omega)]
      exact Iff.rfl
    · rw [if_neg fun h => hc ⟨h.1, by omega⟩, if_neg hc]
      cases htext : pieceText p args with
      | error e =>
        refine iff_of_true ?_ trivial
        intro k s hs
        rw [error_bind, error_bind] at hs
        cases hs
      | ok x =>
        obtain ⟨text, rest⟩ := x
        have hshape := pieceText_shaped hp htext
        have hmove := emit_fst limit buffer out hshape
        have hstores := emit_stores limit hshape h hbase
        have hnext : limit - (emit limit p.style text buffer out).1 =
            limit - buffer - moved p.style text (limit - buffer) := by
          rw [hmove, Nat.sub_sub]
        simp only [ok_bind]
        rw [← hstores, ← hnext]
        constructor
        · intro hall
          have hfirst := hall 0 _ rfl
          exact ⟨hfirst, (ih _ hps hfirst (by omega)).mp hall⟩
        · rintro ⟨hfirst, hsafe⟩
          exact (ih _ hps hfirst (by omega)).mpr hsafe

theorem terminate_stores (h : StoresIn base limit s.out) (hbase : base ≤ s.buffer)
    (hlimit : base < limit) : StoresIn base limit (terminate limit s) := by
  unfold terminate
  split_ifs with hlt
  · exact h.put hbase hlt
  · exact h.put (by omega) (by omega)

theorem performAll_buffer_le (hps : ∀ p ∈ ps, p.Bounded)
    (h : performAll limit ps ⟨args, buffer, out⟩ = .ok s) : buffer ≤ s.buffer := by
  have hadvance := performAll_advance limit args buffer out hps
  rw [h] at hadvance
  cases hn : advance ps args (limit - buffer) with
  | error e =>
    rw [hn] at hadvance
    cases hadvance
  | ok n =>
    rw [hn] at hadvance
    have hbuffer : s.buffer = buffer + n := Except.ok.inj hadvance
    omega

end bounds

/-! ### The whole function -/

/-- At every moment `vsnprintf` has stored in its buffer only. -/
def StaysInside (base length : ℕ) (format : List Char) (args : List Arg) (mem : ℕ → Char) : Prop :=
  (∀ k s, performAll (base + length) ((formatPieces format).take k) ⟨args, base, ⟨mem, []⟩⟩ = .ok s →
    StoresIn base (base + length) s.out) ∧
  ∀ n out, vsnprintf base length format args ⟨mem, []⟩ = .ok (n, out) →
    StoresIn base (base + length) out

theorem storesIn_nil (base limit : ℕ) (mem : ℕ → Char) : StoresIn base limit ⟨mem, []⟩ := by
  intro a ha
  cases ha

theorem staysInside_iff (base length : ℕ) (format : List Char) (args : List Arg) (mem : ℕ → Char)
    (hlength : 1 ≤ length) :
    StaysInside base length format args mem ↔ Safe (formatPieces format) args length := by
  have hps : ∀ p ∈ formatPieces format, p.Bounded := pieces_bounded _ _
  have hiff := performAll_stores args hps (storesIn_nil base (base + length) mem)
    (le_refl base)
  rw [Nat.add_sub_cancel_left] at hiff
  rw [StaysInside, hiff]
  refine and_iff_left_of_imp fun hsafe n out hrun => ?_
  rw [vsnprintf_eq] at hrun
  obtain ⟨s, hs, hrun⟩ := bind_eq_ok.mp hrun
  split_ifs at hrun
  · cases hrun
    refine terminate_stores ?_ (performAll_buffer_le hps hs) (by omega)
    refine hiff.mpr hsafe (formatPieces format).length s ?_
    rwa [List.take_length]

/-- A buffer of one byte, which the number does not fit into. -/
theorem staysInside_iff_seven : StaysInside 4096 1 "%d\x00".toList [.int 7] (fun _ => ' ') := by
  refine (staysInside_iff 4096 1 "%d\x00".toList [.int 7] (fun _ => ' ') (le_refl 1)).mpr ?_
  have hparse : formatPieces "%d\x00".toList = [.directive 'd' {} 0 .default] := by decide
  have htext : pieceText (.directive 'd' {} 0 .default) [.int 7] = .ok (['7'], []) := by decide +kernel
  rw [hparse, Safe, if_neg (by decide), htext]
  exact ⟨fun hwide => absurd hwide (by norm_num), trivial⟩

/-- With a width of `2 ^ 32 - 1` all of the text goes through a buffer of one byte. -/
theorem wide_number_not_inside :
    ¬ StaysInside 4096 1 "%4294967295d\x00".toList [.int 7] (fun _ => ' ') := by
  have hparse : formatPieces "%4294967295d\x00".toList =
      [.directive 'd' {} 4294967295 .default] := by decide
  have hlen : (numberText { sign := true } 4294967295 0 7).length = 2 ^ 32 - 1 := by
    rw [numberText, padded_length]
    decide +kernel
  intro hstays
  have hps : ∀ p ∈ formatPieces "%4294967295d\x00".toList, p.Bounded := pieces_bounded _ _
  have hsafe := (performAll_stores [.int 7] hps (storesIn_nil 4096 4097 _) (le_refl _)).mp hstays.1
  rw [hparse] at hsafe
  have hinside : NumberInside (numberText { sign := true } 4294967295 0 7).length 1 := hsafe.1
  rw [hlen] at hinside
  have hfit := hinside rfl
  omega

end Fynaos.Snprintf
