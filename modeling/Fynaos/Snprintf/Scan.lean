import Fynaos.Snprintf.Arguments

/-!
# How far the format is read

The bytes of the format that `vsnprintf` reads, counted from its beginning (`printLoopReads`). A directive that
is cut off takes the NUL for its conversion, and the loop goes on behind it: the format is not left exactly
when its last directive has a conversion (`scansInside_iff`).
-/

namespace Fynaos.Snprintf

/-- How many bytes of the format a turn of the loop reads. They follow one another: a directive reads up to its
conversion. A read behind the known memory counts. -/
def turnReads : List Char → ℕ
  | '%' :: format =>
    match parseDirective format with
    | .error _ => format.length + 2
    | .ok (_, rest) => 1 + (format.length - rest.length)
  | _ => 1

/-- How many bytes of the format `printLoop` reads: a turn goes on where the one before it ended. -/
def printLoopReads (limit fuel : ℕ) (format : List Char) (s : Printer) : ℕ :=
  ((Loop.visited (printTurn limit) fuel (format, s)).map fun t => turnReads t.1).sum

/-- How many bytes of the format `vsnprintf` reads. -/
def vsnprintfReads (buffer length : ℕ) (format : List Char) (args : List Arg) (out : Out) : ℕ :=
  printLoopReads (buffer + length) (format.length + 1) format ⟨args, buffer, out⟩

/-- No directive is cut off by the end of the format. -/
inductive Complete : List Char → Prop where
  | nil : Complete []
  | literal {c : Char} {format : List Char} : c ≠ '%' → Complete format → Complete (c :: format)
  | directive {format rest : List Char} {piece : Piece} : parseDirective format = .ok (piece, rest) →
      Complete rest → Complete ('%' :: format)

/-- Whatever stands behind the NUL of the format, nothing behind the NUL is read, and a run in which each
`va_arg` finds an argument of its type returns, having read the format and its NUL. -/
def ScansInside (format : List Char) : Prop :=
  ∀ behind args base length mem,
    vsnprintfReads base length (format ++ '\x00' :: behind) args ⟨mem, []⟩ ≤ format.length + 1 ∧
    (vsnprintfFetches base length (format ++ '\x00' :: behind) args ⟨mem, []⟩ <+: args.map Arg.kind →
      (∃ n out, vsnprintf base length (format ++ '\x00' :: behind) args ⟨mem, []⟩ = .ok (n, out)) ∧
      vsnprintfReads base length (format ++ '\x00' :: behind) args ⟨mem, []⟩ = format.length + 1)

section scan
variable {format rest behind : List Char} {piece : Piece} {ps : List Piece} {limit fuel : ℕ}
  {s s' : Printer}

/-! ### A directive and the NUL behind it -/

theorem parseFlags_append (flags : Flags) (format behind : List Char) :
    parseFlags flags (format ++ '\x00' :: behind) =
      ((parseFlags flags format).1, (parseFlags flags format).2 ++ '\x00' :: behind) := by
  fun_induction parseFlags flags format with
  | case1 flags format ih => exact ih
  | case2 flags format ih => exact ih
  | case3 flags format hzero hminus =>
    rcases format with - | ⟨c, format⟩
    · rfl
    · rw [List.cons_append, parseFlags]
      · exact fun rest h => hzero format (by rw [(List.cons.inj h).1])
      · exact fun rest h => hminus format (by rw [(List.cons.inj h).1])

theorem parseWidth_append (width : ℕ) (format behind : List Char) :
    parseWidth width (format ++ '\x00' :: behind) =
      ((parseWidth width format).1, (parseWidth width format).2 ++ '\x00' :: behind) := by
  induction format generalizing width with
  | nil => rfl
  | cons c format ih =>
    rw [List.cons_append, parseWidth, parseWidth]
    split_ifs
    · exact ih _
    · rfl

theorem parseLength_append (format behind : List Char) :
    parseLength (format ++ '\x00' :: behind) =
      ((parseLength format).1, (parseLength format).2 ++ '\x00' :: behind) := by
  rcases format with - | ⟨c, - | ⟨d, format⟩⟩
  · rfl
  · by_cases hl : c = 'l'
    · subst hl
      rfl
    · by_cases hh : c = 'h'
      · subst hh
        rfl
      · simp [parseLength, hl, hh]
  · by_cases hl : c = 'l'
    · subst hl
      by_cases hd : d = 'l'
      · subst hd
        rfl
      · simp [parseLength, hd]
    · by_cases hh : c = 'h'
      · subst hh
        by_cases hd : d = 'h'
        · subst hd
          rfl
        · simp [parseLength, hd]
      · simp [parseLength, hl, hh]

theorem parseDirective_append (h : parseDirective format = .ok (piece, rest)) (behind : List Char) :
    parseDirective (format ++ '\x00' :: behind) = .ok (piece, rest ++ '\x00' :: behind) := by
  rw [parseDirective] at h ⊢
  rw [parseFlags_append]
  dsimp only at h ⊢
  rw [parseWidth_append]
  dsimp only
  rw [parseLength_append]
  dsimp only
  split at h
  · cases h
  · rename_i conv format heq
    cases h
    rw [heq]
    rfl

/-- A directive without one takes the NUL. -/
theorem parseDirective_cut {e : Halt} (h : parseDirective format = .error e) (behind : List Char) :
    ∃ piece, parseDirective (format ++ '\x00' :: behind) = .ok (piece, behind) := by
  rw [parseDirective] at h ⊢
  rw [parseFlags_append]
  dsimp only at h ⊢
  rw [parseWidth_append]
  dsimp only
  rw [parseLength_append]
  dsimp only
  split at h
  · rename_i heq
    rw [heq]
    exact ⟨_, rfl⟩
  · cases h

theorem complete_literal {c : Char} (hc : c ≠ '%') : Complete (c :: format) ↔ Complete format := by
  constructor
  · intro h
    cases h with
    | literal _ h => exact h
    | directive => exact absurd rfl hc
  · exact Complete.literal hc

theorem complete_directive (h : parseDirective format = .ok (piece, rest)) :
    Complete ('%' :: format) ↔ Complete rest := by
  constructor
  · intro hcomplete
    cases hcomplete with
    | literal hc => exact absurd rfl hc
    | directive h' hrest =>
      rw [h] at h'
      cases h'
      exact hrest
  · exact Complete.directive h

theorem not_complete_cut {e : Halt} (h : parseDirective format = .error e) :
    ¬ Complete ('%' :: format) := by
  intro hcomplete
  cases hcomplete with
  | literal hc => exact hc rfl
  | directive h' =>
    rw [h] at h'
    cases h'

/-! ### The bytes of all pieces -/

/-- The bytes that are read when no piece stops the run. -/
def scanned : ℕ → List Char → ℕ
  | 0, _ => 0
  | _ + 1, [] => 1
  | _ + 1, '\x00' :: _ => 1
  | fuel + 1, '%' :: format =>
    match parseDirective format with
    | .error _ => format.length + 2
    | .ok (_, rest) => 1 + (format.length - rest.length) + scanned fuel rest
  | fuel + 1, _ :: format => 1 + scanned fuel format

theorem turnReads_literal {c : Char} (hc : c ≠ '%') : turnReads (c :: format) = 1 := by
  rw [turnReads]
  exact fun _ h => hc (List.cons.inj h).1

theorem printLoopReads_cut {e : Halt} (h : parseDirective format = .error e) :
    printLoopReads limit (fuel + 1) ('%' :: format) s = format.length + 2 := by
  rw [printLoopReads, Loop.visited_error (printTurn_error h), List.map_singleton, List.sum_singleton, turnReads, h]

theorem printLoopReads_directive (h : parseDirective format = .ok (piece, rest)) :
    printLoopReads limit (fuel + 1) ('%' :: format) s = 1 + (format.length - rest.length) +
      match perform limit piece s with
      | .error _ => 0
      | .ok s => printLoopReads limit fuel rest s := by
  rw [printLoopReads, Loop.visited_step (printTurn_directive h), List.map_cons, List.sum_cons, turnReads, h]
  congr 1
  cases perform limit piece s <;> rfl

theorem printLoopReads_literal {c : Char} (hnul : c ≠ '\x00') (hpercent : c ≠ '%') :
    printLoopReads limit (fuel + 1) (c :: format) s = 1 +
      match perform limit (.literal c) s with
      | .error _ => 0
      | .ok s => printLoopReads limit fuel format s := by
  rw [printLoopReads, Loop.visited_step (printTurn_literal hnul hpercent), List.map_cons, List.sum_cons,
    turnReads_literal hpercent]
  congr 1
  cases perform limit (.literal c) s <;> rfl

theorem printLoopReads_le (limit fuel : ℕ) (format : List Char) (s : Printer) :
    printLoopReads limit fuel format s ≤ scanned fuel format := by
  fun_induction scanned fuel format generalizing s with
  | case1 => exact le_refl _
  | case2 => exact le_refl _
  | case3 => exact le_refl _
  | case4 fuel format e h =>
    rw [printLoopReads_cut h]
  | case5 fuel format piece rest h ih =>
    rw [printLoopReads_directive h]
    split
    · omega
    · exact Nat.add_le_add_left (ih _) _
  | case6 fuel c format hnul hpercent ih =>
    rw [printLoopReads_literal hnul hpercent]
    split
    · omega
    · exact Nat.add_le_add_left (ih _) _

theorem printLoopReads_eq (h : performAll limit (pieces fuel format).1 s = .ok s') :
    printLoopReads limit fuel format s = scanned fuel format := by
  fun_induction scanned fuel format generalizing s with
  | case1 => rfl
  | case2 => rfl
  | case3 => rfl
  | case4 fuel format e hparse =>
    rw [printLoopReads_cut hparse]
  | case5 fuel format piece rest hparse ih =>
    rw [pieces, hparse] at h
    obtain ⟨t, ht, h⟩ := bind_eq_ok.mp h
    rw [printLoopReads_directive hparse, ht]
    dsimp only
    rw [ih h]
  | case6 fuel c format hnul hpercent ih =>
    rw [pieces] at h
    · obtain ⟨t, ht, h⟩ := bind_eq_ok.mp h
      rw [printLoopReads_literal hnul hpercent, ht]
      dsimp only
      rw [ih h]
    · exact hnul
    · exact hpercent

theorem scanned_pos (hfuel : 0 < fuel) (format : List Char) : 1 ≤ scanned fuel format := by
  fun_cases scanned fuel format <;> omega

/-- The scan ends at the NUL, or it goes on behind it. -/
theorem scanned_cases (behind : List Char) (hnul : '\x00' ∉ format)
    (hfuel : (format ++ '\x00' :: behind).length < fuel) :
    (Complete format ∧ scanned fuel (format ++ '\x00' :: behind) = format.length + 1 ∧
      (pieces fuel (format ++ '\x00' :: behind)).2 = true) ∨
    (¬ Complete format ∧ format.length + 2 ≤ scanned fuel (format ++ '\x00' :: behind)) := by
  induction fuel generalizing format with
  | zero => exact absurd hfuel (Nat.not_lt_zero _)
  | succ fuel ih =>
    rcases format with - | ⟨c, format⟩
    · exact Or.inl ⟨Complete.nil, rfl, rfl⟩
    · rw [List.mem_cons, not_or] at hnul
      obtain ⟨hc, hnul⟩ := hnul
      rw [List.cons_append, List.length_cons] at hfuel
      rw [List.cons_append, List.length_cons]
      by_cases hpercent : c = '%'
      · subst hpercent
        rw [scanned, pieces]
        cases hparse : parseDirective format with
        | error e =>
          obtain ⟨piece, hcut⟩ := parseDirective_cut hparse behind
          have hpos : 1 ≤ scanned fuel behind := scanned_pos (by omega) _
          refine Or.inr ⟨not_complete_cut hparse, ?_⟩
          rw [hcut]
          simp only [List.length_append, List.length_cons]
          omega
        | ok x =>
          obtain ⟨piece, rest⟩ := x
          have hsuffix := parseDirective_suffix hparse
          have hle := hsuffix.length_le
          have hshort : (rest ++ '\x00' :: behind).length < fuel := by
            rw [List.length_append] at hfuel ⊢
            omega
          rw [parseDirective_append hparse, complete_directive hparse]
          dsimp only
          rcases ih (fun h => hnul (hsuffix.subset h)) hshort with ⟨hrest, hscan, hend⟩ | ⟨hrest, hscan⟩
          · refine Or.inl ⟨hrest, ?_, hend⟩
            rw [hscan]
            simp only [List.length_append, List.length_cons]
            omega
          · refine Or.inr ⟨hrest, ?_⟩
            simp only [List.length_append, List.length_cons] at hscan ⊢
            omega
      · rw [scanned, pieces, complete_literal hpercent]
        · rcases ih hnul (Nat.lt_of_succ_lt_succ hfuel) with ⟨hrest, hscan, hend⟩ | ⟨hrest, hscan⟩
          · exact Or.inl ⟨hrest, by omega, hend⟩
          · exact Or.inr ⟨hrest, by omega⟩
        all_goals first | exact fun h => hc h.symm | exact hpercent

/-! ### Arguments that suffice -/

theorem exists_argument (p : Piece) :
    ∃ front text, ∀ rest, pieceText p (front ++ rest) = .ok (text, rest) := by
  have hnumber : ∀ (flags : Flags) (width : ℕ) (len : Length) (f : ℤ → ℕ) (g : ℤ → ℤ),
      ∃ front text, ∀ rest, numberPiece flags width len f g (front ++ rest) = .ok (text, rest) := by
    intro flags width len f g
    cases len with
    | hh | h | default => exact ⟨[.int 0], _, fun _ => rfl⟩
    | l | ll => exact ⟨[.long 0], _, fun _ => rfl⟩
  fun_cases Piece.style p with
  | case1 c => exact ⟨[], [c], fun _ => rfl⟩
  | case2 flags width len => exact ⟨[.string []], [], fun _ => rfl⟩
  | case3 flags width len => exact ⟨[.int 0], _, fun _ => rfl⟩
  | case4 flags width len => exact hnumber _ _ _ (fun _ => 0) id
  | case5 flags width len => exact hnumber _ _ _ toUnsigned fun _ => 0
  | case6 flags width len => exact hnumber _ _ _ toUnsigned fun _ => 0
  | case7 flags width len => exact hnumber _ _ _ toUnsigned fun _ => 0
  | case8 flags width len => exact hnumber _ _ _ toUnsigned fun _ => 0
  | case9 flags width len => exact hnumber _ _ _ toUnsigned fun _ => 0
  | case10 flags width len => exact ⟨[.pointer 0], _, fun _ => rfl⟩
  | case11 flags width len => exact ⟨[], _, fun _ => rfl⟩
  | case12 conv flags width len =>
    refine ⟨[], ['%', conv], fun rest => ?_⟩
    rw [pieceText]
    · rfl
    all_goals assumption

theorem exists_args (hps : ∀ p ∈ ps, p.Bounded) (limit buffer : ℕ) (out : Out) :
    ∃ args s, performAll limit ps ⟨args, buffer, out⟩ = .ok s := by
  induction ps generalizing buffer out with
  | nil => exact ⟨[], _, rfl⟩
  | cons p ps ih =>
    obtain ⟨hp, hps⟩ := List.forall_mem_cons.mp hps
    by_cases hc : p.style = .char ∧ limit ≤ buffer + 1
    · obtain ⟨args, s, hs⟩ := ih hps (buffer + 1) out
      exact ⟨args, s, by rw [performAll, perform_eq hp, if_pos hc, ok_bind, hs]⟩
    · obtain ⟨front, text, htext⟩ := exists_argument p
      obtain ⟨args, s, hs⟩ := ih hps (emit limit p.style text buffer out).1
        (emit limit p.style text buffer out).2
      exact ⟨front ++ args, s, by
        rw [performAll, perform_eq hp, if_neg hc, htext, ok_bind, ok_bind, hs]⟩

end scan

/-! ### The whole function -/

theorem scansInside_iff {format : List Char} (hnul : '\x00' ∉ format) :
    ScansInside format ↔ Complete format := by
  constructor
  · intro hinside
    obtain ⟨args, s, hs⟩ := exists_args (pieces_bounded _ (format ++ '\x00' :: [])) 16 0
      ⟨fun _ => ' ', []⟩
    have hle := (hinside [] args 0 16 fun _ => ' ').1
    rw [vsnprintfReads, printLoopReads_eq hs] at hle
    rcases scanned_cases [] hnul (Nat.lt_add_one _) with ⟨hcomplete, -⟩ | ⟨-, hscan⟩
    · exact hcomplete
    · exact absurd hscan (by omega)
  · intro hcomplete behind args base length mem
    obtain ⟨-, hscan, hend⟩ := (scanned_cases behind hnul (Nat.lt_add_one _)).resolve_right
      fun h => h.1 hcomplete
    refine ⟨(printLoopReads_le _ _ _ _).trans hscan.le, fun hfetches => ⟨vsnprintf_total hend hfetches, ?_⟩⟩
    rw [vsnprintfFetches_eq, ← Nat.add_sub_cancel_left base length] at hfetches
    obtain ⟨s, hs⟩ := performAll_total ⟨mem, []⟩ (pieces_bounded _ _) hfetches
    rw [vsnprintfReads, printLoopReads_eq hs, hscan]

theorem scansInside_iff_number : ScansInside "%ld".toList :=
  (scansInside_iff (by decide)).mpr (Complete.directive rfl Complete.nil)

/-- A percent sign at the end takes the NUL for its conversion. -/
theorem percent_reads_behind : '\x00' ∉ ['%'] ∧ ¬ ScansInside ['%'] := by
  refine ⟨by decide, fun hinside => ?_⟩
  have hreads : vsnprintfReads 4096 16 "%\x00ab\x00".toList [] ⟨fun _ => ' ', []⟩ = 5 := by
    decide +kernel
  have hle := (hinside ['a', 'b', '\x00'] [] 4096 16 fun _ => ' ').1
  have hle : vsnprintfReads 4096 16 "%\x00ab\x00".toList [] ⟨fun _ => ' ', []⟩ ≤ 2 := hle
  rw [hreads] at hle
  exact absurd hle (by norm_num)

end Fynaos.Snprintf
