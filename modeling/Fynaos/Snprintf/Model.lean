import Fynaos.Lib.Loop
import Fynaos.Types

/-!
# Formatted output

`rtl/snprintf.c`. Bytes are written as the characters they stand for, pointers into the buffer are
natural numbers and do not wrap around. A format is the memory from `format` on: the loop of
`vsnprintf` stops at the first NUL, and a format that ends in the middle of a directive makes it read
on behind that NUL. Reading behind the known memory, or an argument of another type, has no meaning
in C (`Halt.wild`).

`Out.stores` is a ghost: the addresses of all stores to the buffer, the latest first.
-/

namespace Fynaos.Snprintf

/-- Conversion to `uint64_t`. -/
def toUnsigned (n : ℤ) : ℕ := (n % 2 ^ 64).toNat

/-- An argument behind the format: `int` or `unsigned int`, a 64-bit integer, a string without its
NUL, or another pointer. -/
inductive Arg where
  | int (bits : BitVec 32)
  | long (bits : BitVec 64)
  | string (chars : List Char)
  | pointer (address : BitVec 64)
  deriving DecidableEq

/-- The flags of the source that are ever set. -/
structure Flags where
  zeroPad : Bool := false
  leftAlign : Bool := false
  sign : Bool := false
  lowercase : Bool := false
  hex : Bool := false
  octa : Bool := false
  bin : Bool := false
  deriving DecidableEq

/-- `LEN_HH` to `LEN_LL` -/
inductive Length where
  | hh
  | h
  | default
  | l
  | ll
  deriving DecidableEq

/-- The memory the output goes to. -/
structure Out where
  mem : ℕ → Char
  stores : List ℕ

/-- An assignment through a pointer to a byte. -/
def Out.put (out : Out) (a : ℕ) (c : Char) : Out := ⟨Function.update out.mem a c, a :: out.stores⟩

/-- `*buffer++ = c` for each of the characters. -/
def Out.write (out : Out) (a : ℕ) : List Char → Out
  | [] => out
  | c :: cs => (out.put a c).write (a + 1) cs

/-! ### Numbers -/

/-- `digits[d]` -/
def digit (flags : Flags) (d : ℕ) : Char :=
  if flags.lowercase then
    ['0', '1', '2', '3', '4', '5', '6', '7', '8', '9', 'a', 'b', 'c', 'd', 'e', 'f'].getD d '0'
  else
    ['0', '1', '2', '3', '4', '5', '6', '7', '8', '9', 'A', 'B', 'C', 'D', 'E', 'F'].getD d '0'

/-- `base` -/
def numberBase (flags : Flags) : ℕ :=
  if flags.hex then 16 else if flags.octa then 8 else if flags.bin then 2 else 10

/-- The loop that writes the digits to `tmp`, the lowest first. `tmp` has room for 66. -/
def digitLoop (flags : Flags) : ℕ → ℕ → List Char
  | 0, _ => []
  | fuel + 1, unumber =>
    if unumber = 0 then []
    else digit flags (unumber % numberBase flags) :: digitLoop flags fuel (unumber / numberBase flags)

/-- The loop that reverses `tmp`. -/
def reverseLoop : ℕ → ℕ → ℕ → List Char → List Char
  | 0, _, _, tmp => tmp
  | fuel + 1, tmphead, tmptail, tmp =>
    if tmphead < tmptail then
      let a := tmp.getD tmphead '0'
      reverseLoop fuel (tmphead + 1) (tmptail - 1)
        ((tmp.set tmphead (tmp.getD tmptail '0')).set tmptail a)
    else tmp

def printNumber (unumber : ℕ) (snumber : ℤ) (flags : Flags) (width buffer limit : ℕ) (out : Out) :
    ℕ × Out :=
  let fill := if flags.zeroPad && !flags.leftAlign then '0' else ' '
  let negative := flags.sign && decide (snumber < 0)
  let unumber :=
    if flags.sign then
      if snumber < 0 then wrap (lnot (toUnsigned snumber) + 1) else toUnsigned snumber
    else unumber
  let tmp := if unumber = 0 then ['0'] else digitLoop flags 66 unumber
  let tmplen := tmp.length
  let tmp := reverseLoop tmplen 0 (tmplen - 1) tmp
  let minus := if negative then ['-'] else []
  let total := tmplen + minus.length
  let pad := if width > total then width - total else 0
  let (buffer, out) :=
    if buffer < limit ∧ wrap32 (pad + total + 1) ≤ limit - buffer then
      if flags.leftAlign then
        let out := out.write buffer minus
        let out := out.write (buffer + minus.length) tmp
        let out := out.write (buffer + minus.length + tmplen) (List.replicate pad fill)
        (buffer + minus.length + tmplen + pad, out)
      else if fill = ' ' then
        let out := out.write buffer (List.replicate pad fill)
        let out := out.write (buffer + pad) minus
        let out := out.write (buffer + pad + minus.length) tmp
        (buffer + pad + minus.length + tmplen, out)
      else
        let out := out.write buffer minus
        let out := out.write (buffer + minus.length) (List.replicate pad fill)
        let out := out.write (buffer + minus.length + pad) tmp
        (buffer + minus.length + pad + tmplen, out)
    else (buffer + wrap32 (pad + tmplen + minus.length), out)
  if buffer < limit then (buffer, out.put buffer '\x00') else (buffer, out)

/-! ### The format -/

/-- The flags of a directive. -/
def parseFlags (flags : Flags) : List Char → Flags × List Char
  | '0' :: format => parseFlags { flags with zeroPad := true } format
  | '-' :: format => parseFlags { flags with leftAlign := true } format
  | format => (flags, format)

/-- Its width. -/
def parseWidth (width : ℕ) : List Char → ℕ × List Char
  | c :: format =>
    if '0' ≤ c ∧ c ≤ '9' then
      parseWidth (wrap32 (wrap32 (width * 10) + (c.toNat - '0'.toNat))) format
    else (width, c :: format)
  | [] => (width, [])

/-- Its length modifier. -/
def parseLength : List Char → Length × List Char
  | 'l' :: 'l' :: format => (.ll, format)
  | 'l' :: format => (.l, format)
  | 'h' :: 'h' :: format => (.hh, format)
  | 'h' :: format => (.h, format)
  | format => (.default, format)

/-- A piece of the format: a character that is copied, or a directive. -/
inductive Piece where
  | literal (c : Char)
  | directive (conv : Char) (flags : Flags) (width : ℕ) (len : Length)
  deriving DecidableEq

/-- What stands behind a `%`. -/
def parseDirective (format : List Char) : Except Halt (Piece × List Char) :=
  let (flags, format) := parseFlags {} format
  let (width, format) := parseWidth 0 format
  let (len, format) := parseLength format
  match format with
  | [] => .error (.wild 0)
  | conv :: format => .ok (.directive conv flags width len, format)

/-! ### Directives -/

/-- The arguments that are left, the cursor into the buffer and the memory. -/
structure Printer where
  args : List Arg
  buffer : ℕ
  out : Out

/-- `va_arg(args, int)` -/
def vaInt : List Arg → Except Halt (ℤ × List Arg)
  | .int bits :: args => .ok (bits.toInt, args)
  | args => .error (.wild args.length)

/-- `va_arg(args, long long)` -/
def vaLong : List Arg → Except Halt (ℤ × List Arg)
  | .long bits :: args => .ok (bits.toInt, args)
  | args => .error (.wild args.length)

/-- `va_arg(args, const char *)` -/
def vaString : List Arg → Except Halt (List Char × List Arg)
  | .string chars :: args => .ok (chars, args)
  | args => .error (.wild args.length)

/-- `va_arg(args, void *)` -/
def vaPointer : List Arg → Except Halt (ℕ × List Arg)
  | .pointer address :: args => .ok (address.toNat, args)
  | args => .error (.wild args.length)

/-- The `switch (len)` of the integer conversions. -/
def vaNumber : Length → List Arg → Except Halt (ℤ × List Arg)
  | .hh | .h | .default => vaInt
  | .l | .ll => vaLong

/-- The loop of `%s`. -/
def printString (limit : ℕ) : List Char → ℕ → Out → ℕ × Out
  | [], buffer, out => (buffer, out)
  | c :: str, buffer, out =>
    printString limit str (buffer + 1) (if buffer + 1 < limit then out.put buffer c else out)

/-- `%d` -/
def printSigned (limit : ℕ) (flags : Flags) (width : ℕ) (len : Length) (s : Printer) :
    Except Halt Printer := do
  let (n, args) ← vaNumber len s.args
  let (buffer, out) := printNumber 0 n { flags with sign := true } width s.buffer limit s.out
  return ⟨args, buffer, out⟩

/-- `%u`, and `%x`, `%X`, `%o` and `%b` with their flags. -/
def printUnsigned (limit : ℕ) (flags : Flags) (width : ℕ) (len : Length) (s : Printer) :
    Except Halt Printer := do
  let (n, args) ← vaNumber len s.args
  let (buffer, out) := printNumber (toUnsigned n) 0 flags width s.buffer limit s.out
  return ⟨args, buffer, out⟩

/-- The `switch` on the conversion, and the copy of a character outside of directives. -/
def perform (limit : ℕ) : Piece → Printer → Except Halt Printer
  | .literal c, s =>
    if s.buffer + 1 < limit then .ok ⟨s.args, s.buffer + 1, s.out.put s.buffer c⟩ else .ok s
  | .directive 's' _ _ _, s => do
    let (str, args) ← vaString s.args
    let (buffer, out) := printString limit str s.buffer s.out
    return ⟨args, buffer, out⟩
  | .directive 'c' _ _ _, s =>
    if s.buffer + 1 < limit then do
      let (n, args) ← vaInt s.args
      return ⟨args, s.buffer + 1, s.out.put s.buffer (Char.ofNat (n % 256).toNat)⟩
    else .ok ⟨s.args, s.buffer + 1, s.out⟩
  | .directive 'd' flags width len, s => printSigned limit flags width len s
  | .directive 'u' flags width len, s => printUnsigned limit flags width len s
  | .directive 'x' flags width len, s =>
    printUnsigned limit { flags with lowercase := true, hex := true } width len s
  | .directive 'X' flags width len, s => printUnsigned limit { flags with hex := true } width len s
  | .directive 'o' flags width len, s => printUnsigned limit { flags with octa := true } width len s
  | .directive 'b' flags width len, s => printUnsigned limit { flags with bin := true } width len s
  | .directive 'p' flags width _, s => do
    let (buffer, out) :=
      if s.buffer + 2 < limit then (s.buffer + 2, (s.out.put s.buffer '0').put (s.buffer + 1) 'x')
      else (s.buffer, s.out)
    let (n, args) ← vaPointer s.args
    let (buffer, out) := printNumber n 0 { flags with hex := true } width buffer limit out
    return ⟨args, buffer, out⟩
  | .directive '%' _ _ _, s =>
    .ok ⟨s.args, s.buffer + 1, if s.buffer + 1 < limit then s.out.put s.buffer '%' else s.out⟩
  | .directive conv _ _ _, s =>
    .ok ⟨s.args, s.buffer + 2,
      if s.buffer + 3 < limit then (s.out.put s.buffer '%').put (s.buffer + 1) conv else s.out⟩

/-- A turn of the loop of `vsnprintf`. It takes at least one character of the format. -/
def printTurn (limit : ℕ) : List Char × Printer → Except Halt (Printer ⊕ List Char × Printer)
  | ([], _) => .error (.wild 0)
  | ('\x00' :: _, s) => .ok (.inl s)
  | ('%' :: format, s) => do
    let (piece, format) ← parseDirective format
    let s ← perform limit piece s
    return .inr (format, s)
  | (c :: format, s) => do
    let s ← perform limit (.literal c) s
    return .inr (format, s)

/-- The loop of `vsnprintf`. -/
def printLoop (limit fuel : ℕ) (format : List Char) (s : Printer) : Except Halt Printer :=
  Loop.run (printTurn limit) .spin fuel (format, s)

def vsnprintf (buffer length : ℕ) (format : List Char) (args : List Arg) (out : Out) :
    Except Halt (ℕ × Out) := do
  let limit := buffer + length
  let s ← printLoop limit (format.length + 1) format ⟨args, buffer, out⟩
  let out := if s.buffer < limit then s.out.put s.buffer '\x00' else s.out.put (limit - 1) '\x00'
  return (s.buffer - buffer, out)

end Fynaos.Snprintf
