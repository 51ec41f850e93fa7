import Fynaos.Snprintf.Number

/-!
# A format as a list of pieces

Where a piece of the format ends does not depend on the arguments or the buffer, so `vsnprintf` runs
over a list of pieces (`vsnprintf_eq`). Each piece has a text, which depends on its argument only
(`pieceText`), and one of seven ways to bring a text into the buffer (`emit`). The one thing that depends
on the room that is left is `%c`, which does not take its argument when there is none
(`perform_eq`).
-/

namespace Fynaos.Snprintf

/-! ### Parsing -/

/-- The pieces of a format, and whether a NUL ended it. -/
def pieces : ℕ → List Char → List Piece × Bool
  | 0, _ => ([], false)
  | _ + 1, [] => ([], false)
  | _ + 1, '\x00' :: _ => ([], true)
  | fuel + 1, '%' :: format =>
    match parseDirective format with
    | .error _ => ([], false)
    | .ok (piece, format) => (piece :: (pieces fuel format).1, (pieces fuel format).2)
  | fuel + 1, c :: format => (.literal c :: (pieces fuel format).1, (pieces fuel format).2)

/-- The pieces of a format. -/
def formatPieces (format : List Char) : List Piece := (pieces (format.length + 1) format).1

/-- The format ends with a NUL that the loop sees. -/
def Terminated (format : List Char) : Prop := (pieces (format.length + 1) format).2 = true

/-- `perform` on each piece. -/
def performAll (limit : ℕ) : List Piece → Printer → Except Halt Printer
  | [], s => .ok s
  | p :: ps, s => do
    let s ← perform limit p s
    performAll limit ps s

/-- The NUL at the end of `vsnprintf`. -/
def terminate (limit : ℕ) (s : Printer) : Out :=
  if s.buffer < limit then s.out.put s.buffer '\x00' else s.out.put (limit - 1) '\x00'

/-- The width of a directive is an `unsigned int`. -/
def Piece.Bounded : Piece → Prop
  | .literal _ => True
  | .directive _ _ width _ => width < 2 ^ 32

section parse
variable {format rest : List Char} {piece : Piece} {fuel limit buffer length : ℕ} {s : Printer}
  {args : List Arg} {out : Out}

/-! ### Where a directive ends -/

theorem parseFlags_suffix (flags : Flags) (format : List Char) :
    (parseFlags flags format).2 <:+ format := by
  fun_induction parseFlags flags format with
  | case1 flags format ih => exact ih.trans (List.suffix_cons _ _)
  | case2 flags format ih => exact ih.trans (List.suffix_cons _ _)
  | case3 flags format => exact List.suffix_rfl

theorem parseWidth_suffix (width : ℕ) (format : List Char) :
    (parseWidth width format).2 <:+ format := by
  induction format generalizing width with
  | nil => exact List.suffix_rfl
  | cons c format ih =>
    rw [parseWidth]
    split_ifs
    · exact (ih _).trans (List.suffix_cons _ _)
    · exact List.suffix_rfl

theorem parseWidth_lt (width : ℕ) (hwidth : width < 2 ^ 32) (format : List Char) :
    (parseWidth width format).1 < 2 ^ 32 := by
  induction format generalizing width with
  | nil => exact hwidth
  | cons c format ih =>
    rw [parseWidth]
    split_ifs
    · apply ih
      exact Nat.mod_lt _ (by norm_num)
    · exact hwidth

theorem parseLength_suffix (format : List Char) : (parseLength format).2 <:+ format := by
  fun_cases parseLength format with
  | case1 format => exact ⟨['l', 'l'], rfl⟩
  | case2 format => exact ⟨['l'], rfl⟩
  | case3 format => exact ⟨['h', 'h'], rfl⟩
  | case4 format => exact ⟨['h'], rfl⟩
  | case5 format => exact List.suffix_rfl

theorem parseDirective_conversion (h : parseDirective format = .ok (piece, rest)) :
    ∃ conv, conv :: rest <:+ format := by
  rw [parseDirective] at h
  dsimp only at h
  split at h
  · cases h
  · rename_i conv format' heq
    cases h
    have hlength := parseLength_suffix (parseWidth 0 (parseFlags {} format).2).2
    rw [heq] at hlength
    exact ⟨conv, hlength.trans ((parseWidth_suffix 0 _).trans (parseFlags_suffix {} format))⟩

theorem parseDirective_suffix (h : parseDirective format = .ok (piece, rest)) : rest <:+ format := by
  obtain ⟨conv, hsuffix⟩ := parseDirective_conversion h
  exact (List.suffix_cons conv rest).trans hsuffix

theorem parseDirective_length_lt (h : parseDirective format = .ok (piece, rest)) :
    rest.length < format.length := by
  obtain ⟨conv, hsuffix⟩ := parseDirective_conversion h
  exact hsuffix.length_le

theorem parseDirective_bounded (h : parseDirective format = .ok (piece, rest)) : piece.Bounded := by
  rw [parseDirective] at h
  dsimp only at h
  split at h
  · cases h
  · cases h
    exact parseWidth_lt 0 (by norm_num) _

theorem parseDirective_error {e : Halt} (h : parseDirective format = .error e) : e = .wild 0 := by
  rw [parseDirective] at h
  dsimp only at h
  split at h
  · cases h
    rfl
  · cases h

theorem pieces_bounded (fuel : ℕ) (format : List Char) : ∀ p ∈ (pieces fuel format).1, p.Bounded := by
  fun_induction pieces fuel format with
  | case1 => simp
  | case2 => simp
  | case3 => simp
  | case4 => simp
  | case5 fuel format piece rest h ih =>
    exact List.forall_mem_cons.mpr ⟨parseDirective_bounded h, ih⟩
  | case6 fuel c format _ _ ih => exact List.forall_mem_cons.mpr ⟨trivial, ih⟩

/-! ### A turn of the loop -/

theorem printTurn_error {e : Halt} (h : parseDirective format = .error e) :
    printTurn limit ('%' :: format, s) = .error (.wild 0) := by
  rw [printTurn, h, parseDirective_error h]
  rfl

theorem printTurn_directive (h : parseDirective format = .ok (piece, rest)) :
    printTurn limit ('%' :: format, s) = perform limit piece s >>= fun s => .ok (.inr (rest, s)) := by
  rw [printTurn, h, ok_bind]
  rfl

theorem printTurn_literal {c : Char} (hnul : c ≠ '\x00') (hpercent : c ≠ '%') :
    printTurn limit (c :: format, s) = perform limit (.literal c) s >>= fun s => .ok (.inr (format, s)) := by
  rw [printTurn]
  · rfl
  · exact hnul
  · exact hpercent

theorem printLoop_eq (hfuel : format.length < fuel) : printLoop limit fuel format s =
    performAll limit (pieces fuel format).1 s >>= fun s =>
      if (pieces fuel format).2 then .ok s else .error (.wild 0) := by
  fun_induction pieces fuel format generalizing s with
  | case1 => omega
  | case2 => rfl
  | case3 => rfl
  | case4 fuel format e h =>
    rw [printLoop, Loop.run_error (printTurn_error h)]
    rfl
  | case5 fuel format piece rest h ih =>
    rw [List.length_cons] at hfuel
    have hrest := parseDirective_length_lt h
    rw [printLoop, Loop.run_step (printTurn_directive h), performAll, bind_assoc]
    exact bind_congr fun s => ih (by omega)
  | case6 fuel c format hnul hpercent ih =>
    rw [List.length_cons] at hfuel
    rw [printLoop, Loop.run_step (printTurn_literal hnul hpercent), performAll, bind_assoc]
    exact bind_congr fun s => ih (by omega)

theorem vsnprintf_eq : vsnprintf buffer length format args out =
    performAll (buffer + length) (formatPieces format) ⟨args, buffer, out⟩ >>= fun s =>
      if (pieces (format.length + 1) format).2 then
        .ok (s.buffer - buffer, terminate (buffer + length) s)
      else .error (.wild 0) := by
  rw [vsnprintf, printLoop_eq (Nat.lt_succ_self _), bind_assoc]
  refine bind_congr fun s => ?_
  split_ifs <;> rfl

end parse

/-! ### The text of a piece -/

/-- What a piece prints when there is room, and the arguments behind its own. -/
def pieceText : Piece → List Arg → Except Halt (List Char × List Arg)
  | .literal c, args => .ok ([c], args)
  | .directive 's' _ _ _, args => vaString args
  | .directive 'c' _ _ _, args => do
    let (n, args) ← vaInt args
    return ([Char.ofNat (n % 256).toNat], args)
  | .directive 'd' flags width len, args => do
    let (n, args) ← vaNumber len args
    return (numberText { flags with sign := true } width 0 n, args)
  | .directive 'u' flags width len, args => do
    let (n, args) ← vaNumber len args
    return (numberText flags width (toUnsigned n) 0, args)
  | .directive 'x' flags width len, args => do
    let (n, args) ← vaNumber len args
    return (numberText { flags with lowercase := true, hex := true } width (toUnsigned n) 0, args)
  | .directive 'X' flags width len, args => do
    let (n, args) ← vaNumber len args
    return (numberText { flags with hex := true } width (toUnsigned n) 0, args)
  | .directive 'o' flags width len, args => do
    let (n, args) ← vaNumber len args
    return (numberText { flags with octa := true } width (toUnsigned n) 0, args)
  | .directive 'b' flags width len, args => do
    let (n, args) ← vaNumber len args
    return (numberText { flags with bin := true } width (toUnsigned n) 0, args)
  | .directive 'p' flags width _, args => do
    let (n, args) ← vaPointer args
    return ('0' :: 'x' :: numberText { flags with hex := true } width n 0, args)
  | .directive '%' _ _ _, args => .ok (['%'], args)
  | .directive conv _ _ _, args => .ok (['%', conv], args)

/-- An integer conversion: `f n` and `g n` are what the number is taken for with and without a sign. -/
def numberPiece (flags : Flags) (width : ℕ) (len : Length) (f : ℤ → ℕ) (g : ℤ → ℤ) (args : List Arg) :
    Except Halt (List Char × List Arg) := do
  let (n, args) ← vaNumber len args
  return (numberText flags width (f n) (g n), args)

/-- How a text gets into the buffer. -/
inductive Style where
  | literal
  | percent
  | char
  | string
  | number
  | pointer
  | unknown
  deriving DecidableEq

/-- The style of a piece. -/
def Piece.style : Piece → Style
  | .literal _ => .literal
  | .directive 's' _ _ _ => .string
  | .directive 'c' _ _ _ => .char
  | .directive 'd' _ _ _ => .number
  | .directive 'u' _ _ _ => .number
  | .directive 'x' _ _ _ => .number
  | .directive 'X' _ _ _ => .number
  | .directive 'o' _ _ _ => .number
  | .directive 'b' _ _ _ => .number
  | .directive 'p' _ _ _ => .pointer
  | .directive '%' _ _ _ => .percent
  | .directive _ _ _ _ => .unknown

/-- The output of `print_number`, given its text. -/
def emitNumber (limit : ℕ) (text : List Char) (buffer : ℕ) (out : Out) : ℕ × Out :=
  let out := if Fits32 text.length (limit - buffer) then out.write buffer text else out
  (buffer + text.length,
    if buffer + text.length < limit then out.put (buffer + text.length) '\x00' else out)

/-- The output of a piece, given its text. -/
def emit (limit : ℕ) : Style → List Char → ℕ → Out → ℕ × Out
  | .literal, text, buffer, out =>
    if buffer + 1 < limit then (buffer + 1, out.write buffer text) else (buffer, out)
  | .percent, text, buffer, out | .char, text, buffer, out =>
    (buffer + 1, if buffer + 1 < limit then out.write buffer text else out)
  | .string, text, buffer, out => printString limit text buffer out
  | .number, text, buffer, out => emitNumber limit text buffer out
  | .pointer, text, buffer, out =>
    if buffer + 2 < limit then
      emitNumber limit (text.drop 2) (buffer + 2) (out.write buffer (text.take 2))
    else emitNumber limit (text.drop 2) buffer out
  | .unknown, text, buffer, out =>
    (buffer + 2, if buffer + 3 < limit then out.write buffer text else out)

section perform
variable {p : Piece} {args rest : List Arg} {text : List Char} {limit buffer : ℕ} {out : Out}

theorem toUnsigned_lt (n : ℤ) : toUnsigned n < 2 ^ 64 := by
  unfold toUnsigned
  omega

theorem numberPiece_ok {flags : Flags} {width : ℕ} {len : Length} {f : ℤ → ℕ} {g : ℤ → ℤ} :
    numberPiece flags width len f g args = .ok (text, rest) ↔
      ∃ n, vaNumber len args = .ok (n, rest) ∧ numberText flags width (f n) (g n) = text := by
  constructor
  · intro h
    obtain ⟨⟨n, args'⟩, hn, h⟩ := bind_eq_ok.mp h
    cases h
    exact ⟨n, hn, rfl⟩
  · rintro ⟨n, hn, rfl⟩
    rw [numberPiece, hn]
    rfl

theorem printSigned_eq {flags : Flags} {width : ℕ} {len : Length} (hwidth : width < 2 ^ 32) :
    printSigned limit flags width len ⟨args, buffer, out⟩ =
      numberPiece { flags with sign := true } width len (fun _ => 0) id args >>= fun x =>
        .ok ⟨x.2, (emitNumber limit x.1 buffer out).1, (emitNumber limit x.1 buffer out).2⟩ := by
  rw [printSigned, numberPiece, bind_assoc]
  refine bind_congr fun ⟨n, rest⟩ => ?_
  dsimp only
  rw [printNumber_eq (by norm_num) hwidth]
  rfl

theorem printUnsigned_eq {flags : Flags} {width : ℕ} {len : Length} (hwidth : width < 2 ^ 32) :
    printUnsigned limit flags width len ⟨args, buffer, out⟩ =
      numberPiece flags width len toUnsigned (fun _ => 0) args >>= fun x =>
        .ok ⟨x.2, (emitNumber limit x.1 buffer out).1, (emitNumber limit x.1 buffer out).2⟩ := by
  rw [printUnsigned, numberPiece, bind_assoc]
  refine bind_congr fun ⟨n, rest⟩ => ?_
  dsimp only
  rw [printNumber_eq (toUnsigned_lt _) hwidth]
  rfl

theorem vaPointer_cases (args : List Arg) :
    (∃ address rest, args = .pointer address :: rest) ∨ ∃ e, vaPointer args = .error e := by
  fun_cases vaPointer args with
  | case1 address rest => exact Or.inl ⟨address, rest, rfl⟩
  | case2 args => exact Or.inr ⟨_, rfl⟩

/-- A piece takes its argument and emits its text, but a `%c` without room only moves the cursor. -/
theorem perform_eq (hp : p.Bounded) : perform limit p ⟨args, buffer, out⟩ =
    if p.style = .char ∧ limit ≤ buffer + 1 then .ok ⟨args, buffer + 1, out⟩
    else pieceText p args >>= fun x =>
      .ok ⟨x.2, (emit limit p.style x.1 buffer out).1, (emit limit p.style x.1 buffer out).2⟩ := by
  fun_cases Piece.style p with
  | case1 c =>
    rw [if_neg (by simp)]
    simp only [perform, pieceText, ok_bind, emit]
    split_ifs <;> rfl
  | case2 flags width len =>
    rw [if_neg (by simp)]
    rfl
  | case3 flags width len =>
    simp only [perform, pieceText, emit, true_and]
    by_cases hroom : buffer + 1 < limit
    · rw [if_pos hroom, if_neg (Nat.not_le_of_lt hroom), bind_assoc]
      refine bind_congr fun ⟨n, rest⟩ => ?_
      simp only [pure_bind, if_pos hroom]
      rfl
    · rw [if_neg hroom, if_pos (Nat.le_of_not_lt hroom)]
  | case4 flags width len => exact printSigned_eq hp
  | case5 flags width len => exact printUnsigned_eq hp
  | case6 flags width len => exact printUnsigned_eq hp
  | case7 flags width len => exact printUnsigned_eq hp
  | case8 flags width len => exact printUnsigned_eq hp
  | case9 flags width len => exact printUnsigned_eq hp
  | case10 flags width len =>
    rw [if_neg (by simp), perform, pieceText]
    dsimp only
    rcases vaPointer_cases args with ⟨address, rest, rfl⟩ | ⟨e, he⟩
    · rw [vaPointer, ok_bind, ok_bind]
      dsimp only
      rw [pure_bind, emit]
      by_cases hroom : buffer + 2 < limit
      · rw [if_pos hroom, if_pos hroom, printNumber_eq address.isLt hp]
        rfl
      · rw [if_neg hroom, if_neg hroom, printNumber_eq address.isLt hp]
        rfl
    · rw [he, error_bind, error_bind, error_bind]
  | case11 flags width len =>
    rw [if_neg (by simp)]
    simp only [perform, pieceText, ok_bind, emit]
    rfl
  | case12 conv flags width len =>
    rw [if_neg (by simp), perform, pieceText]
    · rfl
    all_goals assumption

end perform

end Fynaos.Snprintf
