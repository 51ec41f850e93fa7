import Fynaos.Snprintf.Cut

/-!
# What is left of an output that is cut off

As long as the texts fit, or the one that does not fills the buffer up, the buffer holds the
beginning of the output (`performAll_kept`). Otherwise its previous bytes show through between the cursor
and the NUL at the end (`performAll_stale`).
-/

namespace Fynaos.Snprintf

/-- The bytes at `base` are the first `m` of a text, and a NUL. -/
def Holds (mem : ℕ → Char) (base : ℕ) (full : List Char) (m : ℕ) : Prop :=
  (∀ i < m, full[i]? = some (mem (base + i))) ∧ mem (base + m) = '\x00'

/-- The arguments can be read when there is no room for any output. -/
def Readable (ps : List Piece) (args : List Arg) : Prop := ∃ n, advance ps args 0 = .ok n

/-- The text that does not fit, if any, fills the buffer up. -/
def Kept : List Piece → List Arg → ℕ → Prop
  | [], _, _ => True
  | p :: ps, args, room =>
    if room ≤ 1 then Readable (p :: ps) args
    else
      match pieceText p args with
      | .error _ => False
      | .ok (text, args) =>
        (Fits p.style text.length room ∧ Kept ps args (room - text.length)) ∨
        (¬ Fits p.style text.length room ∧ FillsUp p.style text room ∧ Readable ps args)

section truncation
variable {p : Piece} {ps : List Piece} {args rest : List Arg} {text full : List Char}
  {base limit buffer m : ℕ} {out : Out} {mem : ℕ → Char}

/-! ### A run -/

theorem Holds.append (htext : ∀ i (hi : i < text.length), mem (base + i) = text[i])
    (h : Holds mem (base + text.length) full m) :
    Holds mem base (text ++ full) (text.length + m) := by
  obtain ⟨hbytes, hnul⟩ := h
  constructor
  · intro i hi
    by_cases hlt : i < text.length
    · rw [List.getElem?_append_left hlt, List.getElem?_eq_getElem hlt, htext i hlt]
    · rw [List.getElem?_append_right (by omega), hbytes (i - text.length) (by omega)]
      congr 2
      omega
  · rw [← Nat.add_assoc]
    exact hnul

theorem fullText_cons {p : Piece} (h : fullText (p :: ps) args = .ok full) :
    ∃ text rest full', pieceText p args = .ok (text, rest) ∧ fullText ps rest = .ok full' ∧
      full = text ++ full' := by
  rw [fullText] at h
  obtain ⟨⟨text, rest⟩, htext, h⟩ := bind_eq_ok.mp h
  obtain ⟨full', hfull, h⟩ := bind_eq_ok.mp h
  cases h
  exact ⟨text, rest, full', htext, hfull, rfl⟩

theorem perform_room (hp : p.Bounded) (hroom : buffer + 1 < limit)
    (htext : pieceText p args = .ok (text, rest)) :
    perform limit p ⟨args, buffer, out⟩ =
      .ok ⟨rest, buffer + moved p.style text (limit - buffer),
        (emit limit p.style text buffer out).2⟩ := by
  rw [perform_eq hp, if_neg fun h => by omega, htext, ok_bind, emit_fst limit buffer out (pieceText_shaped hp htext)]

theorem performAll_kept (out : Out) (hps : ∀ p ∈ ps, p.Bounded) (hroom : buffer + 1 ≤ limit)
    (hfull : fullText ps args = .ok full) (hkept : Kept ps args (limit - buffer)) :
    ∃ s, performAll limit ps ⟨args, buffer, out⟩ = .ok s ∧
      Holds (terminate limit s).mem buffer full (min (limit - buffer - 1) full.length) := by
  induction ps generalizing args buffer out full with
  | nil =>
    cases hfull
    refine ⟨_, rfl, ?_⟩
    rw [List.length_nil, Nat.min_zero]
    refine ⟨fun i hi => absurd hi (Nat.not_lt_zero _), ?_⟩
    unfold terminate
    dsimp only
    rw [if_pos (by omega)]
    exact Out.put_mem_self _ _ _
  | cons p ps ih =>
    rw [Kept] at hkept
    by_cases hone : limit - buffer ≤ 1
    · rw [if_pos hone] at hkept
      obtain ⟨n, hn⟩ := hkept
      obtain ⟨s, hs⟩ := (performAll_ok_iff limit args buffer out hps).mpr
        ⟨n, by rw [advance_le_one hone, hn]⟩
      refine ⟨s, hs, ?_⟩
      obtain ⟨-, hnul⟩ := terminate_blind hps (by omega) (by omega) hs
      rw [show limit - buffer - 1 = 0 by omega, Nat.zero_min]
      refine ⟨fun i hi => absurd hi (Nat.not_lt_zero _), ?_⟩
      rwa [show limit - 1 = buffer + 0 by omega] at hnul
    · rw [if_neg hone] at hkept
      obtain ⟨hp, hps⟩ := List.forall_mem_cons.mp hps
      obtain ⟨text, rest, full', htext, hfull', rfl⟩ := fullText_cons hfull
      have hshape := pieceText_shaped hp htext
      rw [htext] at hkept
      dsimp only at hkept
      rw [performAll, perform_room hp (by omega) htext, ok_bind]
      rcases hkept with ⟨hfits, hkept⟩ | ⟨hfits, hfills, hreadable⟩
      · have hlt := fits_lt hshape hfits
        rw [moved_of_fits hshape hfits]
        rw [Nat.sub_sub] at hkept
        obtain ⟨s, hs, hholds⟩ := ih (emit limit p.style text buffer out).2 hps (by omega)
          hfull' hkept
        refine ⟨s, hs, ?_⟩
        rw [List.length_append, show min (limit - buffer - 1) (text.length + full'.length) =
          text.length + min (limit - (buffer + text.length) - 1) full'.length by omega]
        refine Holds.append (fun i hi => ?_) hholds
        rw [terminate_below hps hs (by omega) (by omega), emit_inside hfits hshape hi]
      · have hblind := moved_of_not_fits hshape hfits
        obtain ⟨n, hn⟩ := hreadable
        obtain ⟨s, hs⟩ := (performAll_ok_iff limit rest
          (buffer + moved p.style text (limit - buffer)) (emit limit p.style text buffer out).2
          hps).mpr
          ⟨n, by rw [← Nat.sub_sub, advance_le_one hblind, hn]⟩
        refine ⟨s, hs, ?_⟩
        obtain ⟨hmem, hnul⟩ := terminate_blind hps (by omega) (by omega) hs
        have hall : ∀ i < limit - buffer - 1,
            text[i]? = some ((terminate limit s).mem (buffer + i)) := by
          intro i hi
          rw [hmem _ (by omega)]
          exact emit_fillsUp hshape hfits hfills (by omega)
        have hlong : limit - buffer - 1 ≤ text.length := by
          have hlast := hall (limit - buffer - 2) (by omega)
          have hlt := List.getElem?_eq_some_iff.mp hlast
          obtain ⟨hlt, -⟩ := hlt
          omega
        rw [List.length_append, min_eq_left (by omega)]
        constructor
        · intro i hi
          rw [List.getElem?_append_left (by omega), hall i hi]
        · rwa [show buffer + (limit - buffer - 1) = limit - 1 by omega]

/-- Otherwise the run does not end, or a byte of the output is missing. -/
theorem performAll_stale (hps : ∀ p ∈ ps, p.Bounded) (hroom : buffer + 1 ≤ limit)
    (hfull : fullText ps args = .ok full) (hkept : ¬ Kept ps args (limit - buffer)) :
    (∀ out s, performAll limit ps ⟨args, buffer, out⟩ ≠ .ok s) ∨
      ∃ i c, buffer + i + 1 < limit ∧ full[i]? = some c ∧ c ≠ '\x00' ∧
        ∀ out s, performAll limit ps ⟨args, buffer, out⟩ = .ok s →
          (terminate limit s).mem (buffer + i) = out.mem (buffer + i) ∨
            (terminate limit s).mem (buffer + i) ≠ c := by
  induction ps generalizing args buffer full with
  | nil => exact absurd trivial hkept
  | cons p ps ih =>
    rw [Kept] at hkept
    by_cases hone : limit - buffer ≤ 1
    · rw [if_pos hone] at hkept
      refine Or.inl fun out s hs => hkept ?_
      obtain ⟨n, hn⟩ := (performAll_ok_iff limit _ _ out hps).mp ⟨s, hs⟩
      exact ⟨n, by rw [← hn, advance_le_one hone]⟩
    · rw [if_neg hone] at hkept
      obtain ⟨hp, hps⟩ := List.forall_mem_cons.mp hps
      obtain ⟨text, rest, full', htext, hfull', rfl⟩ := fullText_cons hfull
      have hshape := pieceText_shaped hp htext
      rw [htext] at hkept
      dsimp only at hkept
      simp only [performAll, perform_room hp (show buffer + 1 < limit by omega) htext, ok_bind]
      by_cases hfits : Fits p.style text.length (limit - buffer)
      · have hlt := fits_lt hshape hfits
        have hrest : ¬ Kept ps rest (limit - (buffer + text.length)) := by
          rw [← Nat.sub_sub]
          exact fun h => hkept (Or.inl ⟨hfits, h⟩)
        rw [moved_of_fits hshape hfits]
        rcases ih hps (by omega) hfull' hrest with hnever | ⟨i, c, hi, hget, hc, hmem⟩
        · exact Or.inl fun out => hnever _
        · refine Or.inr ⟨text.length + i, c, by omega, ?_, hc, fun out s hs => ?_⟩
          · rw [List.getElem?_append_right (by omega), Nat.add_sub_cancel_left, hget]
          · rw [← Nat.add_assoc]
            rcases hmem _ s hs with hsame | hne
            · rw [hsame]
              rcases emit_behind _ hfits hshape (Nat.le_add_right (buffer + text.length) i)
                with h | h
              · exact Or.inl h
              · rw [h]
                exact Or.inr hc.symm
            · exact Or.inr hne
      · have hblind := moved_of_not_fits hshape hfits
        by_cases hfills : FillsUp p.style text (limit - buffer)
        · refine Or.inl fun out s hs => hkept (Or.inr ⟨hfits, hfills, ?_⟩)
          obtain ⟨n, hn⟩ := (performAll_ok_iff limit _ _ _ hps).mp ⟨s, hs⟩
          rw [← Nat.sub_sub, advance_le_one hblind] at hn
          exact ⟨n, hn⟩
        · obtain ⟨i, c, hi, hget, hc, hmem⟩ := emit_stale hshape hfits (by omega) hfills
          refine Or.inr ⟨i, c, hi, ?_, hc, fun out s hs => ?_⟩
          · obtain ⟨hlt, -⟩ := List.getElem?_eq_some_iff.mp hget
            rw [List.getElem?_append_left hlt, hget]
          · obtain ⟨hsame, -⟩ := terminate_blind hps (by omega) (by omega) hs
            rw [hsame _ hi]
            exact hmem out

end truncation

/-! ### The whole function -/

/-- `full` is what `vsnprintf` writes before its NUL into every buffer that is large enough. -/
def Full (format : List Char) (args : List Arg) (full : List Char) : Prop :=
  ∃ n₀, ∀ n ≥ n₀, ∀ base mem, ∃ out,
    vsnprintf base n format args ⟨mem, []⟩ = .ok (full.length, out) ∧
      Holds out.mem base full full.length

/-- The buffer holds the first bytes of the output and a NUL, whatever was in it, and without a
buffer nothing is stored. -/
def KeepsPrefix (base length : ℕ) (format : List Char) (args : List Arg) (full : List Char) : Prop :=
  ∀ mem, ∃ n out, vsnprintf base length format args ⟨mem, []⟩ = .ok (n, out) ∧
    (length = 0 → out.stores = []) ∧
    (1 ≤ length → Holds out.mem base full (min (length - 1) full.length))

section whole
variable {p : Piece} {ps : List Piece} {args : List Arg} {format text full : List Char}
  {room m : ℕ}

/-- There is room for a text of `len` characters and its NUL, and one byte more for a directive that
is not known. -/
def Roomy (ps : List Piece) (len room : ℕ) : Prop :=
  len + 1 ≤ room ∧ ((∃ p ∈ ps, p.style = .unknown) → len + 2 ≤ room)

theorem Roomy.tail {len len' : ℕ} (h : Roomy (p :: ps) (len + len') room) :
    Roomy ps len' (room - len) := by
  obtain ⟨hone, htwo⟩ := h
  refine ⟨by omega, fun ⟨q, hq, hs⟩ => ?_⟩
  have hroom := htwo ⟨q, List.mem_cons_of_mem _ hq, hs⟩
  omega

theorem Roomy.fits (h : Roomy (p :: ps) (text.length + m) room) (hshape : Shaped p.style text) :
    Fits p.style text.length room := by
  obtain ⟨hone, htwo⟩ := h
  cases hs : p.style with
  | unknown =>
    rw [hs] at hshape
    obtain ⟨conv, rfl⟩ := hshape
    have hroom := htwo ⟨p, List.mem_cons_self, hs⟩
    have hlen : ['%', conv].length = 2 := rfl
    exact show 3 < room by omega
  | _ => exact show text.length < room by omega

theorem advance_of_roomy (hps : ∀ p ∈ ps, p.Bounded) (hfull : fullText ps args = .ok full)
    (hroom : Roomy ps full.length room) : advance ps args room = .ok full.length := by
  induction ps generalizing args full room with
  | nil =>
    cases hfull
    rfl
  | cons p ps ih =>
    obtain ⟨hp, hps⟩ := List.forall_mem_cons.mp hps
    obtain ⟨text, rest, full', htext, hfull', rfl⟩ := fullText_cons hfull
    have hshape := pieceText_shaped hp htext
    rw [List.length_append] at hroom ⊢
    have hfits := hroom.fits hshape
    have hmoved := moved_of_fits hshape hfits
    have hchar : ¬ (p.style = .char ∧ room ≤ 1) := by
      rintro ⟨hs, hle⟩
      have hlt := fits_lt hshape hfits
      rw [hs] at hshape
      have hone : text.length = 1 := hshape
      omega
    rw [advance, if_neg hchar, htext, ok_bind]
    dsimp only
    rw [hmoved, ih hps hfull' hroom.tail, ok_bind, pure_eq]

theorem kept_of_roomy (hps : ∀ p ∈ ps, p.Bounded) (hfull : fullText ps args = .ok full)
    (hroom : Roomy ps full.length room) : Kept ps args room := by
  induction ps generalizing args full room with
  | nil => trivial
  | cons p ps ih =>
    rw [Kept]
    split_ifs with hone
    · have hn := advance_of_roomy hps hfull hroom
      rw [advance_le_one hone] at hn
      exact ⟨_, hn⟩
    · obtain ⟨hp, hps⟩ := List.forall_mem_cons.mp hps
      obtain ⟨text, rest, full', htext, hfull', rfl⟩ := fullText_cons hfull
      rw [List.length_append] at hroom
      rw [htext]
      exact Or.inl ⟨hroom.fits (pieceText_shaped hp htext), ih hps hfull' hroom.tail⟩

theorem advance_error (hps : ∀ p ∈ ps, p.Bounded) (hfull : ∀ full, fullText ps args ≠ .ok full) :
    ∃ n₀, ∀ room ≥ n₀, ∀ n, advance ps args room ≠ .ok n := by
  induction ps generalizing args with
  | nil => exact absurd rfl (hfull [])
  | cons p ps ih =>
    obtain ⟨hp, hps⟩ := List.forall_mem_cons.mp hps
    cases htext : pieceText p args with
    | error e =>
      refine ⟨2, fun room hroom n hn => ?_⟩
      rw [advance, if_neg fun h => by omega, htext, error_bind] at hn
      cases hn
    | ok x =>
      obtain ⟨text, rest⟩ := x
      have hrest : ∀ full, fullText ps rest ≠ .ok full := by
        intro full hrest
        refine hfull (text ++ full) ?_
        rw [fullText, htext, ok_bind]
        dsimp only
        rw [hrest, ok_bind, pure_eq]
      obtain ⟨n₀, hn₀⟩ := ih hps hrest
      refine ⟨text.length + n₀ + 2, fun room hroom n hn => ?_⟩
      have hshape := pieceText_shaped hp htext
      have hroomy : Roomy (p :: ps) (text.length + 0) room := ⟨by omega, fun _ => by omega⟩
      rw [advance, if_neg fun h => by omega, htext, ok_bind] at hn
      dsimp only at hn
      rw [moved_of_fits hshape (hroomy.fits hshape)] at hn
      obtain ⟨m, hm, -⟩ := bind_eq_ok.mp hn
      exact hn₀ (room - text.length) (by omega) m hm

theorem vsnprintf_ok {base length n : ℕ} {out out' : Out} :
    vsnprintf base length format args out = .ok (n, out') ↔ Terminated format ∧
      ∃ s, performAll (base + length) (formatPieces format) ⟨args, base, out⟩ = .ok s ∧
        n = s.buffer - base ∧ out' = terminate (base + length) s := by
  rw [vsnprintf_eq, bind_eq_ok, Terminated]
  constructor
  · rintro ⟨s, hs, h⟩
    split_ifs at h with hnul
    · cases h
      exact ⟨hnul, s, hs, rfl, rfl⟩
  · rintro ⟨hnul, s, hs, rfl, rfl⟩
    refine ⟨s, hs, ?_⟩
    rw [if_pos hnul]

theorem performAll_buffer {limit base n : ℕ} {out : Out} {s : Printer}
    (hps : ∀ p ∈ ps, p.Bounded) (hs : performAll limit ps ⟨args, base, out⟩ = .ok s)
    (hn : advance ps args (limit - base) = .ok n) : s.buffer = base + n := by
  have hadvance := performAll_advance limit args base out hps
  rw [hs, hn] at hadvance
  exact Except.ok.inj hadvance

theorem Holds.unique {mem : ℕ → Char} {base : ℕ} {full full' : List Char}
    (h : Holds mem base full full.length) (h' : Holds mem base full' full'.length)
    (hlen : full.length = full'.length) : full = full' := by
  apply List.ext_getElem?
  intro i
  by_cases hi : i < full.length
  · rw [h.1 i hi, h'.1 i (by omega)]
  · rw [List.getElem?_eq_none (by omega), List.getElem?_eq_none (by omega)]

theorem vsnprintf_roomy (hnul : Terminated format)
    (htext : fullText (formatPieces format) args = .ok full)
    (hroom : Roomy (formatPieces format) full.length room) (base : ℕ) (mem : ℕ → Char) :
    ∃ out, vsnprintf base room format args ⟨mem, []⟩ = .ok (full.length, out) ∧
      Holds out.mem base full full.length := by
  have hps : ∀ p ∈ formatPieces format, p.Bounded := pieces_bounded _ _
  have hpos : full.length + 1 ≤ room := hroom.1
  rw [← Nat.add_sub_cancel_left base room] at hroom
  obtain ⟨s, hs, hholds⟩ := performAll_kept ⟨mem, []⟩ hps (by omega) htext
    (kept_of_roomy hps htext hroom)
  have hbuffer := performAll_buffer hps hs (advance_of_roomy hps htext hroom)
  refine ⟨_, vsnprintf_ok.mpr ⟨hnul, s, hs, by omega, rfl⟩, ?_⟩
  rwa [min_eq_right (by omega)] at hholds

theorem full_iff : Full format args full ↔
    Terminated format ∧ fullText (formatPieces format) args = .ok full := by
  have hps : ∀ p ∈ formatPieces format, p.Bounded := pieces_bounded _ _
  have hroomy : ∀ {n len : ℕ}, len + 2 ≤ n → Roomy (formatPieces format) len n := fun h =>
    ⟨by omega, fun _ => h⟩
  constructor
  · rintro ⟨n₀, hn₀⟩
    have hnul : Terminated format := by
      obtain ⟨out, hrun, -⟩ := hn₀ n₀ (le_refl _) 0 fun _ => ' '
      exact (vsnprintf_ok.mp hrun).1
    refine ⟨hnul, ?_⟩
    by_cases hread : ∃ full', fullText (formatPieces format) args = .ok full'
    · obtain ⟨full', htext⟩ := hread
      obtain ⟨out, hrun, hholds⟩ := hn₀ (max n₀ (full'.length + 2)) (le_max_left _ _) 0 fun _ => ' '
      obtain ⟨out', hrun', hholds'⟩ :=
        vsnprintf_roomy hnul htext (hroomy (le_max_right n₀ (full'.length + 2))) 0 fun _ => ' '
      rw [hrun] at hrun'
      obtain ⟨hlen, rfl⟩ := Prod.mk.inj (Except.ok.inj hrun')
      rw [htext, hholds.unique hholds' hlen]
    · push Not at hread
      obtain ⟨n₁, hn₁⟩ := advance_error hps hread
      obtain ⟨out, hrun, -⟩ := hn₀ (max n₀ n₁) (le_max_left _ _) 0 fun _ => ' '
      obtain ⟨-, s, hs, -⟩ := vsnprintf_ok.mp hrun
      obtain ⟨n, hn⟩ := (performAll_ok_iff _ _ _ _ hps).mp ⟨s, hs⟩
      exact absurd hn (hn₁ _ (by omega) n)
  · rintro ⟨hnul, htext⟩
    exact ⟨full.length + 2, fun n hn => vsnprintf_roomy hnul htext (hroomy hn)⟩

theorem keepsPrefix_iff (base length : ℕ) (format : List Char) (args : List Arg)
    (full : List Char) (hfull : Full format args full) :
    KeepsPrefix base length format args full ↔
      1 ≤ length ∧ Kept (formatPieces format) args length := by
  have hps : ∀ p ∈ formatPieces format, p.Bounded := pieces_bounded _ _
  obtain ⟨hnul, htext⟩ := full_iff.mp hfull
  have hroom : base + length - base = length := Nat.add_sub_cancel_left base length
  constructor
  · intro hkeeps
    have hpos : 1 ≤ length := by
      -- without a buffer the last NUL is stored before it
      by_contra hzero
      obtain ⟨n, out, hrun, hnone, -⟩ := hkeeps fun _ => ' '
      obtain ⟨-, s, -, -, rfl⟩ := vsnprintf_ok.mp hrun
      have hstores := hnone (by omega)
      unfold terminate at hstores
      split_ifs at hstores <;> cases hstores
    refine ⟨hpos, ?_⟩
    by_contra hkept
    rw [← hroom] at hkept
    rcases performAll_stale hps (by omega) htext hkept with hnever | ⟨i, c, hi, hget, -, hmem⟩
    · obtain ⟨n, out, hrun, -⟩ := hkeeps fun _ => ' '
      obtain ⟨-, s, hs, -⟩ := vsnprintf_ok.mp hrun
      exact hnever _ s hs
    · -- a byte that differs from the output at every place
      obtain ⟨d, hd⟩ : ∃ d : Char, d ≠ c := by
        by_cases hspace : c = ' '
        · exact ⟨'0', by rw [hspace]; decide⟩
        · exact ⟨' ', fun h => hspace h.symm⟩
      obtain ⟨n, out, hrun, -, hholds⟩ := hkeeps fun _ => d
      obtain ⟨-, s, hs, -, rfl⟩ := vsnprintf_ok.mp hrun
      obtain ⟨hlen, -⟩ := List.getElem?_eq_some_iff.mp hget
      have hbyte := (hholds hpos).1 i (by omega)
      rw [hget, Option.some_inj] at hbyte
      rcases hmem _ s hs with hsame | hne
      · exact hd (hsame.symm.trans hbyte.symm)
      · exact hne hbyte.symm
  · rintro ⟨hpos, hkept⟩ mem
    rw [← hroom] at hkept
    obtain ⟨s, hs, hholds⟩ := performAll_kept ⟨mem, []⟩ hps (by omega) htext hkept
    refine ⟨_, _, vsnprintf_ok.mpr ⟨hnul, s, hs, rfl, rfl⟩, fun h => absurd h (by omega), fun _ => ?_⟩
    rwa [hroom] at hholds

end whole

theorem pieces_five : formatPieces "%d\x00".toList = [.directive 'd' {} 0 .default] := by decide

theorem pieceText_five : pieceText (.directive 'd' {} 0 .default) [.int 12345] =
    .ok ("12345".toList, []) := by
  have hdigits : Nat.digits 10 12345 = [5, 4, 3, 2, 1] := by norm_num
  have htext : numberText { sign := true } 0 0 12345 = "12345".toList := by
    unfold numberText numberDigits
    rw [show magnitude { sign := true } 0 12345 = 12345 by decide +kernel,
      show numberBase { sign := true } = 10 from rfl, hdigits]
    decide
  rw [← htext]
  rfl

theorem full_number : Full "%d\x00".toList [.int 12345] "12345".toList := by
  refine full_iff.mpr ⟨show (pieces 4 "%d\x00".toList).2 = true by decide, ?_⟩
  rw [pieces_five, fullText, pieceText_five, ok_bind]
  dsimp only
  rw [fullText, ok_bind, List.append_nil, pure_eq]

/-- A buffer that holds the number and its NUL. -/
theorem keepsPrefix_iff_number :
    KeepsPrefix 4096 6 "%d\x00".toList [.int 12345] "12345".toList := by
  refine (keepsPrefix_iff 4096 6 "%d\x00".toList [.int 12345] "12345".toList full_number).mpr
    ⟨by norm_num, ?_⟩
  rw [pieces_five, Kept, if_neg (by norm_num), pieceText_five]
  exact Or.inl ⟨show 5 < 6 by norm_num, trivial⟩

/-- Nothing of a number is printed when it does not fit. -/
theorem cut_number_stale : ¬ KeepsPrefix 4096 3 "%d\x00".toList [.int 12345] "12345".toList := by
  have hrun : ((vsnprintf 4096 3 "%d\x00".toList [.int 12345] ⟨fun _ => ' ', []⟩).map
      fun r => r.2.mem 4096) = .ok ' ' := by decide +kernel
  intro hkeeps
  obtain ⟨n, out, hok, -, hholds⟩ := hkeeps fun _ => ' '
  rw [hok] at hrun
  have hfirst := (hholds (by norm_num)).1 0 (by decide)
  have hspace : out.mem 4096 = ' ' := Except.ok.inj hrun
  rw [Nat.add_zero, hspace] at hfirst
  revert hfirst
  decide

end Fynaos.Snprintf
