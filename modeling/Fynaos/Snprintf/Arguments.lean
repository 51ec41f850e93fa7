import Fynaos.Snprintf.Runs

/-!
# Which arguments are fetched

The types of the arguments that `vsnprintf` asks `va_arg` for, one after the other (`printLoopFetches`). A `%c`
without room does not ask for its own, so the fetches are the same for two buffers exactly when each `%c`
has room in both or in neither (`fetchesAlike_iff`).
-/

namespace Fynaos.Snprintf

/-- The types that `va_arg` is used with. -/
inductive Kind where
  | int
  | long
  | string
  | pointer
  deriving DecidableEq

def Arg.kind : Arg → Kind
  | .int _ => .int
  | .long _ => .long
  | .string _ => .string
  | .pointer _ => .pointer

/-- The `switch (len)` of the integer conversions. -/
def Length.kind : Length → Kind
  | .hh | .h | .default => .int
  | .l | .ll => .long

/-- The argument that belongs to a piece. -/
def Piece.kind : Piece → Option Kind
  | .literal _ => none
  | .directive 's' _ _ _ => some .string
  | .directive 'c' _ _ _ => some .int
  | .directive 'd' _ _ len => some len.kind
  | .directive 'u' _ _ len => some len.kind
  | .directive 'x' _ _ len => some len.kind
  | .directive 'X' _ _ len => some len.kind
  | .directive 'o' _ _ len => some len.kind
  | .directive 'b' _ _ len => some len.kind
  | .directive 'p' _ _ _ => some .pointer
  | .directive _ _ _ _ => none

/-- The use of `va_arg` in the branch for a piece. -/
def fetch (limit buffer : ℕ) : Piece → Option Kind
  | .directive 'c' _ _ _ => if buffer + 1 < limit then some .int else none
  | piece => piece.kind

/-- The use of `va_arg` in a turn of the loop. -/
def turnFetches (limit : ℕ) : List Char × Printer → List Kind
  | ('%' :: format, s) =>
    match parseDirective format with
    | .error _ => []
    | .ok (piece, _) => (fetch limit s.buffer piece).toList
  | _ => []

/-- The fetches of `printLoop` until it ends, or until there is no argument of the type asked for. -/
def printLoopFetches (limit fuel : ℕ) (format : List Char) (s : Printer) : List Kind :=
  (Loop.visited (printTurn limit) fuel (format, s)).flatMap (turnFetches limit)

/-- The fetches of `vsnprintf`. -/
def vsnprintfFetches (buffer length : ℕ) (format : List Char) (args : List Arg) (out : Out) :
    List Kind :=
  printLoopFetches (buffer + length) (format.length + 1) format ⟨args, buffer, out⟩

/-- The arguments of all directives. -/
def asked (ps : List Piece) : List Kind := ps.filterMap Piece.kind

/-- The caller passes the arguments of the directives. -/
def Supplied (format : List Char) (args : List Arg) : Prop :=
  asked (formatPieces format) <+: args.map Arg.kind

/-- With buffers of both lengths the fetches are the same. -/
def FetchesAlike (format : List Char) (args : List Arg) (n₁ n₂ : ℕ) : Prop :=
  ∀ base₁ mem₁ base₂ mem₂, vsnprintfFetches base₁ n₁ format args ⟨mem₁, []⟩ =
    vsnprintfFetches base₂ n₂ format args ⟨mem₂, []⟩

/-- Each `%c` has room for its character and the NUL in both buffers or in neither, when the output in
front of it is written in full. -/
def CharsAlike (ps : List Piece) (args : List Arg) (n₁ n₂ : ℕ) : Prop :=
  ∀ front p back text, ps = front ++ p :: back → p.style = .char → fullText front args = .ok text →
    (text.length + 1 < n₁ ↔ text.length + 1 < n₂)

section pieces
variable {p : Piece} {ps : List Piece} {args rest : List Arg} {text : List Char} {n : ℤ}

/-! ### The argument of a piece -/

theorem vaInt_ok : vaInt args = .ok (n, rest) ↔ ∃ bits, args = .int bits :: rest ∧ bits.toInt = n := by
  rcases args with - | ⟨a, args⟩
  · simp [vaInt]
  · cases a <;> simp [vaInt, and_comm, eq_comm]

theorem vaLong_ok :
    vaLong args = .ok (n, rest) ↔ ∃ bits, args = .long bits :: rest ∧ bits.toInt = n := by
  rcases args with - | ⟨a, args⟩
  · simp [vaLong]
  · cases a <;> simp [vaLong, and_comm, eq_comm]

theorem vaString_ok : vaString args = .ok (text, rest) ↔ args = .string text :: rest := by
  rcases args with - | ⟨a, args⟩
  · simp [vaString]
  · cases a <;> simp [vaString]

theorem vaNumber_takes {len : Length} (h : vaNumber len args = .ok (n, rest)) :
    ∃ a, args = a :: rest ∧ a.kind = len.kind := by
  cases len with
  | hh | h | default =>
    obtain ⟨bits, rfl, -⟩ := vaInt_ok.mp h
    exact ⟨.int bits, rfl, rfl⟩
  | l | ll =>
    obtain ⟨bits, rfl, -⟩ := vaLong_ok.mp h
    exact ⟨.long bits, rfl, rfl⟩

theorem vaNumber_total {len : Length} {a : Arg} (h : a.kind = len.kind) :
    ∃ n, vaNumber len (a :: args) = .ok (n, args) := by
  cases len with
  | hh | h | default =>
    cases a with
    | int bits => exact ⟨_, rfl⟩
    | long | string | pointer => cases h
  | l | ll =>
    cases a with
    | long bits => exact ⟨_, rfl⟩
    | int | string | pointer => cases h

theorem pieceText_takes (h : pieceText p args = .ok (text, rest)) :
    ∃ taken, args = taken ++ rest ∧ taken.map Arg.kind = p.kind.toList := by
  have hnumber : ∀ {flags : Flags} {width : ℕ} {len : Length} {f : ℤ → ℕ} {g : ℤ → ℤ},
      numberPiece flags width len f g args = .ok (text, rest) →
      ∃ taken, args = taken ++ rest ∧ taken.map Arg.kind = (some len.kind).toList := by
    intro flags width len f g h
    obtain ⟨n, hn, -⟩ := numberPiece_ok.mp h
    obtain ⟨a, rfl, ha⟩ := vaNumber_takes hn
    exact ⟨[a], rfl, congrArg (fun k => [k]) ha⟩
  fun_cases Piece.style p with
  | case1 c =>
    cases h
    exact ⟨[], rfl, rfl⟩
  | case2 flags width len => exact ⟨[.string text], vaString_ok.mp h, rfl⟩
  | case3 flags width len =>
    obtain ⟨⟨n, args'⟩, hn, h⟩ := bind_eq_ok.mp h
    cases h
    obtain ⟨bits, rfl, -⟩ := vaInt_ok.mp hn
    exact ⟨[.int bits], rfl, rfl⟩
  | case4 flags width len => exact hnumber (f := fun _ => 0) (g := id) h
  | case5 flags width len => exact hnumber (g := fun _ => 0) h
  | case6 flags width len => exact hnumber (g := fun _ => 0) h
  | case7 flags width len => exact hnumber (g := fun _ => 0) h
  | case8 flags width len => exact hnumber (g := fun _ => 0) h
  | case9 flags width len => exact hnumber (g := fun _ => 0) h
  | case10 flags width len =>
    rw [pieceText] at h
    rcases vaPointer_cases args with ⟨address, args', rfl⟩ | ⟨e, he⟩
    · cases h
      exact ⟨[.pointer address], rfl, rfl⟩
    · rw [he] at h
      cases h
  | case11 flags width len =>
    cases h
    exact ⟨[], rfl, rfl⟩
  | case12 conv flags width len =>
    rw [pieceText] at h
    · cases h
      refine ⟨[], rfl, ?_⟩
      rw [Piece.kind]
      · rfl
      all_goals assumption
    all_goals assumption

theorem head_kind {k : Kind} (h : [k] <+: args.map Arg.kind) :
    ∃ a rest, args = a :: rest ∧ a.kind = k := by
  rcases args with - | ⟨a, args⟩
  · simp at h
  · rw [List.map_cons, List.cons_prefix_cons] at h
    exact ⟨a, args, rfl, h.1.symm⟩

theorem pieceText_total (h : p.kind.toList <+: args.map Arg.kind) :
    ∃ text rest, pieceText p args = .ok (text, rest) := by
  have hnumber : ∀ {flags : Flags} {width : ℕ} {len : Length} {f : ℤ → ℕ} {g : ℤ → ℤ},
      [len.kind] <+: args.map Arg.kind →
        ∃ text rest, numberPiece flags width len f g args = .ok (text, rest) := by
    intro flags width len f g h
    obtain ⟨a, rest, rfl, ha⟩ := head_kind h
    obtain ⟨n, hn⟩ := vaNumber_total ha
    exact ⟨_, rest, numberPiece_ok.mpr ⟨n, hn, rfl⟩⟩
  fun_cases Piece.style p with
  | case1 c => exact ⟨_, _, rfl⟩
  | case2 flags width len =>
    obtain ⟨a, rest, rfl, ha⟩ := head_kind h
    cases a with
    | string chars => exact ⟨chars, rest, rfl⟩
    | int | long | pointer => cases ha
  | case3 flags width len =>
    obtain ⟨a, rest, rfl, ha⟩ := head_kind h
    cases a with
    | int bits => exact ⟨_, rest, rfl⟩
    | long | string | pointer => cases ha
  | case4 flags width len => exact hnumber (f := fun _ => 0) (g := id) h
  | case5 flags width len => exact hnumber (g := fun _ => 0) h
  | case6 flags width len => exact hnumber (g := fun _ => 0) h
  | case7 flags width len => exact hnumber (g := fun _ => 0) h
  | case8 flags width len => exact hnumber (g := fun _ => 0) h
  | case9 flags width len => exact hnumber (g := fun _ => 0) h
  | case10 flags width len =>
    obtain ⟨a, rest, rfl, ha⟩ := head_kind h
    cases a with
    | pointer address => exact ⟨_, rest, rfl⟩
    | int | long | string => cases ha
  | case11 flags width len => exact ⟨_, _, rfl⟩
  | case12 conv flags width len =>
    refine ⟨['%', conv], args, ?_⟩
    rw [pieceText]
    all_goals assumption

end pieces

/-! ### A run over the pieces -/

/-- The fetches when there are `room` bytes up to the limit. -/
def fetchesIn : List Piece → List Arg → ℕ → List Kind
  | [], _, _ => []
  | p :: ps, args, room =>
    if p.style = .char ∧ room ≤ 1 then fetchesIn ps args (room - 1)
    else p.kind.toList ++
      match pieceText p args with
      | .error _ => []
      | .ok (text, args) => fetchesIn ps args (room - moved p.style text room)

section runs
variable {p : Piece} {ps : List Piece} {args rest : List Arg} {text format : List Char}
  {limit buffer room fuel length : ℕ} {out : Out}

theorem style_char (h : p.style = .char) : ∃ flags width len, p = .directive 'c' flags width len := by
  fun_cases Piece.style p with
  | case3 flags width len => exact ⟨flags, width, len, rfl⟩
  | _ => simp_all [Piece.style]

theorem fetch_eq (p : Piece) :
    fetch limit buffer p = if p.style = .char ∧ limit ≤ buffer + 1 then none else p.kind := by
  fun_cases fetch limit buffer p with
  | case1 flags width len hroom => rw [if_neg fun h => absurd hroom (Nat.not_lt_of_le h.2)]; rfl
  | case2 flags width len hroom => rw [if_pos ⟨rfl, Nat.le_of_not_lt hroom⟩]
  | case3 p hc =>
    refine (if_neg fun h => ?_).symm
    obtain ⟨flags, width, len, rfl⟩ := style_char h.1
    exact hc _ _ _ rfl

theorem fetch_step (out : Out) (hp : p.Bounded) : (fetch limit buffer p).toList ++
    (match perform limit p ⟨args, buffer, out⟩ with
      | .error _ => []
      | .ok s => fetchesIn ps s.args (limit - s.buffer)) =
    fetchesIn (p :: ps) args (limit - buffer) := by
  rw [fetch_eq, perform_eq hp, fetchesIn]
  by_cases hc : p.style = .char ∧ limit ≤ buffer + 1
  · rw [if_pos hc, if_pos hc, if_pos ⟨hc.1, by omega⟩, Nat.sub_sub]
    rfl
  · rw [if_neg hc, if_neg hc, if_neg fun h => hc ⟨h.1, by omega⟩]
    cases htext : pieceText p args with
    | error e => rfl
    | ok x =>
      obtain ⟨text, rest⟩ := x
      have hmove := emit_fst limit buffer out (pieceText_shaped hp htext)
      rw [ok_bind]
      dsimp only
      rw [hmove, Nat.sub_sub]

theorem turnFetches_directive {s : Printer} {rest : List Char} (h : parseDirective format = .ok (p, rest)) :
    turnFetches limit ('%' :: format, s) = (fetch limit s.buffer p).toList := by
  rw [turnFetches, h]

theorem turnFetches_literal {s : Printer} {c : Char} (hc : c ≠ '%') :
    turnFetches limit (c :: format, s) = (fetch limit s.buffer (.literal c)).toList := by
  rw [turnFetches]
  · rfl
  · exact fun _ _ h => hc (List.cons.inj (Prod.mk.inj h).1).1

/-- The fetches do not depend on the memory. -/
theorem printLoopFetches_eq (hfuel : format.length < fuel) :
    printLoopFetches limit fuel format ⟨args, buffer, out⟩ =
      fetchesIn (pieces fuel format).1 args (limit - buffer) := by
  fun_induction pieces fuel format generalizing args buffer out with
  | case1 => omega
  | case2 => rfl
  | case3 => rfl
  | case4 fuel format e h =>
    rw [printLoopFetches, Loop.visited_error (printTurn_error h), List.flatMap_singleton, turnFetches, h]
    rfl
  | case5 fuel format piece rest h ih =>
    rw [List.length_cons] at hfuel
    have hrest := parseDirective_length_lt h
    have hpiece := parseDirective_bounded h
    rw [printLoopFetches, Loop.visited_step (printTurn_directive h), List.flatMap_cons, turnFetches_directive h,
      ← fetch_step out hpiece]
    congr 1
    cases perform limit piece ⟨args, buffer, out⟩ with
    | error e => rfl
    | ok s => exact ih (by omega)
  | case6 fuel c format hnul hpercent ih =>
    rw [List.length_cons] at hfuel
    have hc : (Piece.literal c).Bounded := trivial
    rw [printLoopFetches, Loop.visited_step (printTurn_literal hnul hpercent), List.flatMap_cons,
      turnFetches_literal hpercent, ← fetch_step out hc]
    congr 1
    cases perform limit (.literal c) ⟨args, buffer, out⟩ with
    | error e => rfl
    | ok s => exact ih (by omega)

theorem vsnprintfFetches_eq : vsnprintfFetches buffer length format args out =
    fetchesIn (formatPieces format) args length := by
  rw [vsnprintfFetches, printLoopFetches_eq (Nat.lt_succ_self _), Nat.add_sub_cancel_left]
  rfl

theorem performAll_takes {s : Printer} (hps : ∀ p ∈ ps, p.Bounded)
    (h : performAll limit ps ⟨args, buffer, out⟩ = .ok s) :
    ∃ taken, args = taken ++ s.args ∧ taken.map Arg.kind = fetchesIn ps args (limit - buffer) := by
  induction ps generalizing args buffer out with
  | nil =>
    cases h
    exact ⟨[], rfl, rfl⟩
  | cons p ps ih =>
    obtain ⟨hp, hps⟩ := List.forall_mem_cons.mp hps
    rw [← fetch_step out hp, fetch_eq]
    rw [performAll] at h
    obtain ⟨t, ht, h⟩ := bind_eq_ok.mp h
    obtain ⟨taken', hargs', htaken'⟩ := ih hps h
    rw [ht]
    dsimp only
    rw [← htaken']
    rw [perform_eq hp] at ht
    split_ifs at ht ⊢
    · cases ht
      exact ⟨taken', hargs', rfl⟩
    · obtain ⟨⟨text, rest⟩, htext, ht⟩ := bind_eq_ok.mp ht
      cases ht
      obtain ⟨taken, rfl, htaken⟩ := pieceText_takes htext
      refine ⟨taken ++ taken', ?_, ?_⟩
      · rw [List.append_assoc, ← hargs']
      · rw [List.map_append, htaken]

theorem performAll_total (out : Out) (hps : ∀ p ∈ ps, p.Bounded)
    (h : fetchesIn ps args (limit - buffer) <+: args.map Arg.kind) :
    ∃ s, performAll limit ps ⟨args, buffer, out⟩ = .ok s := by
  induction ps generalizing args buffer out with
  | nil => exact ⟨_, rfl⟩
  | cons p ps ih =>
    obtain ⟨hp, hps⟩ := List.forall_mem_cons.mp hps
    rw [performAll, perform_eq hp]
    rw [fetchesIn] at h
    by_cases hc : p.style = .char ∧ limit ≤ buffer + 1
    · rw [if_pos hc, ok_bind]
      rw [if_pos ⟨hc.1, by omega⟩, Nat.sub_sub] at h
      exact ih out hps h
    · rw [if_neg hc]
      rw [if_neg fun h => hc ⟨h.1, by omega⟩] at h
      obtain ⟨text, rest, htext⟩ := pieceText_total ((List.prefix_append _ _).trans h)
      have hmove := emit_fst limit buffer out (pieceText_shaped hp htext)
      obtain ⟨taken, rfl, htaken⟩ := pieceText_takes htext
      rw [htext, List.map_append, htaken, List.prefix_append_right_inj] at h
      rw [htext, ok_bind, ok_bind]
      refine ih _ hps ?_
      dsimp only at h ⊢
      rwa [hmove, ← Nat.sub_sub]

/-- What `printLoopFetches` lists is what the loop takes from the arguments. -/
theorem printLoop_takes {s : Printer} (hfuel : format.length < fuel)
    (h : printLoop limit fuel format ⟨args, buffer, out⟩ = .ok s) : ∃ taken, args = taken ++ s.args ∧
      taken.map Arg.kind = printLoopFetches limit fuel format ⟨args, buffer, out⟩ := by
  rw [printLoop_eq hfuel] at h
  obtain ⟨t, ht, h⟩ := bind_eq_ok.mp h
  split_ifs at h
  cases h
  rw [printLoopFetches_eq hfuel]
  exact performAll_takes (pieces_bounded _ _) ht

/-! ### Two runs -/

/-- The room is what is left of `k` bytes, or there is none in either. -/
def Tracks (room k : ℕ) : Prop := room = k ∨ (room ≤ 1 ∧ k ≤ 1)

variable {room₁ room₂ k k₁ k₂ : ℕ} {args₁ args₂ : List Arg}

theorem Tracks.moved (h : Tracks room k) (hshape : Shaped p.style text) :
    Tracks (room - moved p.style text room) (k - text.length) := by
  unfold Tracks at *
  cases hs : p.style with
  | literal =>
    rw [hs] at hshape
    have hone : text.length = 1 := hshape
    rw [Snprintf.moved]
    split_ifs <;> omega
  | pointer =>
    rw [hs] at hshape
    obtain ⟨number, rfl, hnumber⟩ := hshape
    have hpos := hnumber.pos
    rw [Snprintf.moved]
    simp only [List.length_cons]
    split_ifs <;> omega
  | _ => simp only [Snprintf.moved]; omega

theorem charsAlike_cons (htext : pieceText p args = .ok (text, rest)) :
    CharsAlike (p :: ps) args k₁ k₂ ↔ (p.style = .char → (1 < k₁ ↔ 1 < k₂)) ∧
      CharsAlike ps rest (k₁ - text.length) (k₂ - text.length) := by
  constructor
  · intro h
    refine ⟨fun hc => by simpa using h [] p ps [] rfl hc rfl, ?_⟩
    rintro front q back text' rfl hc htext'
    have hfront : fullText (p :: front) args = .ok (text ++ text') := by
      rw [fullText, htext, ok_bind]
      dsimp only
      rw [htext', ok_bind, pure_eq]
    have := h (p :: front) q back _ rfl hc hfront
    rw [List.length_append] at this
    omega
  · rintro ⟨hfirst, hrest⟩ front q back text' heq hc htext'
    rcases front with - | ⟨p', front⟩
    · obtain ⟨rfl, rfl⟩ := List.cons.inj heq
      cases htext'
      simpa using hfirst hc
    · obtain ⟨rfl, rfl⟩ := List.cons.inj heq
      rw [fullText, htext, ok_bind] at htext'
      obtain ⟨text'', htext'', h⟩ := bind_eq_ok.mp htext'
      cases h
      have := hrest front q back _ rfl hc htext''
      rw [List.length_append]
      omega

theorem fetchesIn_blind (h₁ : room₁ ≤ 1) (h₂ : room₂ ≤ 1) :
    fetchesIn ps args room₁ = fetchesIn ps args room₂ := by
  induction ps generalizing args room₁ room₂ with
  | nil => rfl
  | cons p ps ih =>
    rw [fetchesIn, fetchesIn]
    by_cases hc : p.style = .char
    · rw [if_pos ⟨hc, h₁⟩, if_pos ⟨hc, h₂⟩]
      exact ih (by omega) (by omega)
    · rw [if_neg fun h => hc h.1, if_neg fun h => hc h.1]
      congr 1
      split
      · rfl
      · exact ih (by omega) (by omega)

theorem asked_cons : asked (p :: ps) = p.kind.toList ++ asked ps := by
  rw [asked, List.filterMap_cons]
  cases p.kind <;> rfl

theorem supplied_cons (h : asked (p :: ps) <+: args.map Arg.kind) :
    ∃ text rest, pieceText p args = .ok (text, rest) ∧ asked ps <+: rest.map Arg.kind := by
  rw [asked_cons] at h
  obtain ⟨text, rest, htext⟩ := pieceText_total ((List.prefix_append _ _).trans h)
  obtain ⟨taken, rfl, htaken⟩ := pieceText_takes htext
  rw [List.map_append, htaken, List.prefix_append_right_inj] at h
  exact ⟨text, rest, htext, h⟩

theorem fetchesIn_alike (hps : ∀ p ∈ ps, p.Bounded) (hasked : asked ps <+: args.map Arg.kind)
    (h₁ : Tracks room₁ k₁) (h₂ : Tracks room₂ k₂) (h : CharsAlike ps args k₁ k₂) :
    fetchesIn ps args room₁ = fetchesIn ps args room₂ := by
  induction ps generalizing args room₁ room₂ k₁ k₂ with
  | nil => rfl
  | cons p ps ih =>
    obtain ⟨hp, hps⟩ := List.forall_mem_cons.mp hps
    obtain ⟨text, rest, htext, hrest⟩ := supplied_cons hasked
    obtain ⟨hfirst, halike⟩ := (charsAlike_cons htext).mp h
    have hshape := pieceText_shaped hp htext
    by_cases hblind : room₁ ≤ 1 ∧ room₂ ≤ 1
    · exact fetchesIn_blind hblind.1 hblind.2
    · have hroom : ∀ hc : p.style = .char, 1 < room₁ ∧ 1 < room₂ := by
        intro hc
        have := hfirst hc
        unfold Tracks at h₁ h₂
        omega
      rw [fetchesIn, fetchesIn, if_neg fun hc => absurd (hroom hc.1).1 (Nat.not_lt_of_le hc.2),
        if_neg fun hc => absurd (hroom hc.1).2 (Nat.not_lt_of_le hc.2), htext]
      dsimp only
      rw [ih hps hrest (h₁.moved hshape) (h₂.moved hshape) halike]

/-! ### A `%c` with room in one of the buffers -/

/-- How many fetches of an `int` come first. -/
def leading (l : List Kind) : ℕ := (l.takeWhile (· = .int)).length

/-- In front of the arguments of the pieces there may be `int`s that were not fetched. -/
def Shifted (ps : List Piece) (args : List Arg) : Prop :=
  ∃ j, List.replicate j Kind.int ++ asked ps <+: args.map Arg.kind

theorem Shifted.none (h : Shifted (p :: ps) args) (hp : p.kind = none) : Shifted ps args := by
  obtain ⟨j, hj⟩ := h
  rw [asked_cons, hp] at hj
  exact ⟨j, hj⟩

theorem Shifted.drop (h : Shifted (p :: ps) args) (hp : p.kind = some .int) : Shifted ps args := by
  obtain ⟨j, hj⟩ := h
  refine ⟨j + 1, ?_⟩
  rwa [asked_cons, hp, Option.toList_some, ← List.append_assoc, ← List.replicate_succ'] at hj

theorem Shifted.take (h : Shifted (p :: ps) args) (hp : p.kind = some .int) :
    ∃ text rest, pieceText p args = .ok (text, rest) ∧ Shifted ps rest := by
  obtain ⟨j, hj⟩ := h
  rw [asked_cons, hp, Option.toList_some, ← List.append_assoc, ← List.replicate_succ',
    List.replicate_succ, List.cons_append] at hj
  have hhead : p.kind.toList <+: args.map Arg.kind := by
    rw [hp]
    exact (List.prefix_append [Kind.int] _).trans hj
  obtain ⟨text, rest, htext⟩ := pieceText_total hhead
  obtain ⟨taken, rfl, htaken⟩ := pieceText_takes htext
  rw [List.map_append, htaken, hp, Option.toList_some, List.singleton_append,
    List.prefix_cons_inj] at hj
  exact ⟨text, rest, htext, j, hj⟩

theorem kind_of_char (h : p.style = .char) : p.kind = some .int := by
  obtain ⟨flags, width, len, rfl⟩ := style_char h
  rfl

theorem pieceText_none (h : p.kind = none) (args : List Arg) :
    ∃ text, pieceText p args = .ok (text, args) := by
  have hnil : p.kind.toList <+: args.map Arg.kind := by
    rw [h]
    exact List.nil_prefix
  obtain ⟨text, rest, htext⟩ := pieceText_total hnil
  obtain ⟨taken, rfl, htaken⟩ := pieceText_takes htext
  rw [h, Option.toList_none, List.map_eq_nil_iff] at htaken
  subst htaken
  exact ⟨text, htext⟩

theorem fetchesIn_cons (hc : ¬ (p.style = .char ∧ room ≤ 1))
    (htext : pieceText p args = .ok (text, rest)) : fetchesIn (p :: ps) args room =
      p.kind.toList ++ fetchesIn ps rest (room - Snprintf.moved p.style text room) := by
  rw [fetchesIn, if_neg hc, htext]

theorem fetchesIn_cons_blind (hc : p.style = .char) (hroom : room ≤ 1) :
    fetchesIn (p :: ps) args room = fetchesIn ps args (room - 1) := by
  rw [fetchesIn, if_pos ⟨hc, hroom⟩]

theorem leading_cons (l : List Kind) : leading (.int :: l) = leading l + 1 := by
  simp [leading]

/-- A run without room does not fetch an `int` more than another run before it fetches another type. -/
theorem leading_le (hroom : room₂ ≤ 1) (h₁ : Shifted ps args₁) (h₂ : Shifted ps args₂) :
    leading (fetchesIn ps args₂ room₂) ≤ leading (fetchesIn ps args₁ room₁) := by
  induction ps generalizing args₁ args₂ room₁ room₂ with
  | nil => exact le_refl _
  | cons p ps ih =>
    by_cases hint : p.kind = some .int
    · obtain ⟨text₁, rest₁, htext₁, hrest₁⟩ := h₁.take hint
      obtain ⟨text₂, rest₂, htext₂, hrest₂⟩ := h₂.take hint
      by_cases hc : p.style = .char
      · rw [fetchesIn_cons_blind hc hroom]
        by_cases hroom₁ : room₁ ≤ 1
        · rw [fetchesIn_cons_blind hc hroom₁]
          exact ih (by omega) (h₁.drop hint) (h₂.drop hint)
        · rw [fetchesIn_cons (fun h => hroom₁ h.2) htext₁, hint, Option.toList_some,
            List.singleton_append, leading_cons]
          exact (ih (by omega) hrest₁ (h₂.drop hint)).trans (Nat.le_succ _)
      · rw [fetchesIn_cons (fun h => hc h.1) htext₁, fetchesIn_cons (fun h => hc h.1) htext₂, hint,
          Option.toList_some, List.singleton_append, List.singleton_append, leading_cons, leading_cons]
        exact Nat.succ_le_succ (ih (by omega) hrest₁ hrest₂)
    · have hc : p.style ≠ .char := fun hc => hint (kind_of_char hc)
      rw [fetchesIn, if_neg fun h => hc h.1]
      cases hk : p.kind with
      | some k =>
        have hne : k ≠ .int := fun h => hint (hk.trans (congrArg some h))
        rw [Option.toList_some, List.singleton_append]
        simp [leading, hne]
      | none =>
        obtain ⟨text₁, htext₁⟩ := pieceText_none hk args₁
        obtain ⟨text₂, htext₂⟩ := pieceText_none hk args₂
        rw [fetchesIn_cons (fun h => hc h.1) htext₁, htext₂, hk]
        exact ih (by omega) (h₁.none hk) (h₂.none hk)

/-- If only one of the buffers has room for a `%c`, then the fetches differ from there on. -/
theorem fetchesIn_char_ne (hc : p.style = .char) (hasked : asked (p :: ps) <+: args.map Arg.kind)
    (h₁ : 1 < room₁) (h₂ : room₂ ≤ 1) :
    fetchesIn (p :: ps) args room₁ ≠ fetchesIn (p :: ps) args room₂ := by
  have hshifted : Shifted (p :: ps) args := ⟨0, hasked⟩
  obtain ⟨text, rest, htext, hrest⟩ := hshifted.take (kind_of_char hc)
  intro heq
  have hle : leading (fetchesIn ps args (room₂ - 1)) ≤
      leading (fetchesIn ps rest (room₁ - Snprintf.moved p.style text room₁)) :=
    leading_le (by omega) hrest (hshifted.drop (kind_of_char hc))
  rw [← fetchesIn_cons_blind hc h₂, ← heq, fetchesIn_cons (fun h => by omega) htext,
    kind_of_char hc, Option.toList_some, List.singleton_append, leading_cons] at hle
  omega

theorem alike_of_fetchesIn (hps : ∀ p ∈ ps, p.Bounded) (hasked : asked ps <+: args.map Arg.kind)
    (h₁ : Tracks room₁ k₁) (h₂ : Tracks room₂ k₂)
    (h : fetchesIn ps args room₁ = fetchesIn ps args room₂) : CharsAlike ps args k₁ k₂ := by
  induction ps generalizing args room₁ room₂ k₁ k₂ with
  | nil =>
    intro front p back text heq
    simp at heq
  | cons p ps ih =>
    obtain ⟨hp, hps⟩ := List.forall_mem_cons.mp hps
    obtain ⟨text, rest, htext, hrest⟩ := supplied_cons hasked
    have hshape := pieceText_shaped hp htext
    have hchar : p.style = .char → (1 < room₁ ↔ 1 < room₂) := by
      intro hc
      constructor
      · intro hroom
        by_contra hle
        exact fetchesIn_char_ne hc hasked hroom (Nat.le_of_not_lt hle) h
      · intro hroom
        by_contra hle
        exact fetchesIn_char_ne hc hasked hroom (Nat.le_of_not_lt hle) h.symm
    refine (charsAlike_cons htext).mpr ⟨fun hc => ?_, ?_⟩
    · have := hchar hc
      unfold Tracks at h₁ h₂
      omega
    · by_cases hblind : p.style = .char ∧ room₁ ≤ 1
      · have := hchar hblind.1
        have hone : text.length = 1 := by
          have hshape := hshape
          rw [hblind.1] at hshape
          exact hshape
        intro front q back text' _ _ _
        unfold Tracks at h₁ h₂
        omega
      · rw [fetchesIn_cons hblind htext, fetchesIn_cons (fun hc => hblind ⟨hc.1, by
          have := hchar hc.1
          omega⟩) htext, List.append_cancel_left_eq] at h
        exact ih hps hrest (h₁.moved hshape) (h₂.moved hshape) h

end runs

/-! ### The whole function -/

theorem vsnprintf_total {format : List Char} {args : List Arg} {buffer length : ℕ} {out : Out}
    (hnul : Terminated format)
    (h : vsnprintfFetches buffer length format args out <+: args.map Arg.kind) :
    ∃ n out', vsnprintf buffer length format args out = .ok (n, out') := by
  rw [vsnprintfFetches_eq, ← Nat.add_sub_cancel_left buffer length] at h
  obtain ⟨s, hs⟩ := performAll_total out (pieces_bounded _ _) h
  have hend : (pieces (format.length + 1) format).2 = true := hnul
  rw [vsnprintf_eq, formatPieces, hs, ok_bind, if_pos hend]
  exact ⟨_, _, rfl⟩

theorem fetchesAlike_iff {format : List Char} {args : List Arg} (h : Supplied format args) (n₁ n₂ : ℕ) :
    FetchesAlike format args n₁ n₂ ↔ CharsAlike (formatPieces format) args n₁ n₂ := by
  have hps : ∀ p ∈ formatPieces format, p.Bounded := pieces_bounded _ _
  constructor
  · intro halike
    have heq := halike 0 (fun _ => ' ') 0 (fun _ => ' ')
    rw [vsnprintfFetches_eq, vsnprintfFetches_eq] at heq
    exact alike_of_fetchesIn hps h (Or.inl rfl) (Or.inl rfl) heq
  · intro hchars base₁ mem₁ base₂ mem₂
    rw [vsnprintfFetches_eq, vsnprintfFetches_eq]
    exact fetchesIn_alike hps h (Or.inl rfl) (Or.inl rfl) hchars

theorem pieces_char_number : formatPieces "%c%d\x00".toList =
    [.directive 'c' {} 0 .default, .directive 'd' {} 0 .default] := by decide

theorem supplied_char_number : Supplied "%c%d\x00".toList [.int 65, .int 7] := by
  rw [Supplied, pieces_char_number]
  exact List.prefix_rfl

/-- The character fits into both buffers, the number only into the first. -/
theorem fetchesAlike_iff_char_number :
    FetchesAlike "%c%d\x00".toList [.int 65, .int 7] 16 2 := by
  refine (fetchesAlike_iff supplied_char_number 16 2).mpr fun front p back text hsplit hstyle hfront => ?_
  rw [pieces_char_number] at hsplit
  cases front with
  | nil =>
    obtain rfl : [] = text := Except.ok.inj hfront
    exact iff_of_true (by norm_num) (by norm_num)
  | cons q front =>
    obtain ⟨-, hsplit⟩ := List.cons.inj hsplit
    cases front with
    | nil =>
      obtain ⟨rfl, -⟩ := List.cons.inj hsplit
      cases hstyle
    | cons q front =>
      obtain ⟨-, hnil⟩ := List.cons.inj hsplit
      exact absurd hnil.symm (List.append_ne_nil_of_right_ne_nil _ (List.cons_ne_nil p back))

/-- Without room for the character, `%d` prints the argument of `%c`. -/
theorem char_not_fetched : Supplied "%c%d\x00".toList [.int 65, .int 7] ∧
    ¬ FetchesAlike "%c%d\x00".toList [.int 65, .int 7] 16 1 := by
  refine ⟨supplied_char_number, fun halike => ?_⟩
  have heq := halike 4096 (fun _ => ' ') 4096 (fun _ => ' ')
  have hlong : vsnprintfFetches 4096 16 "%c%d\x00".toList [.int 65, .int 7] ⟨fun _ => ' ', []⟩ =
      [.int, .int] := by decide +kernel
  have hshort : vsnprintfFetches 4096 1 "%c%d\x00".toList [.int 65, .int 7] ⟨fun _ => ' ', []⟩ =
      [.int] := by decide +kernel
  rw [hlong, hshort] at heq
  cases heq

end Fynaos.Snprintf
