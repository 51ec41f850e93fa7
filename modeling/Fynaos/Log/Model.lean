import Fynaos.Fbcon.Model
import Fynaos.Serial.Model
import Fynaos.Snprintf.Model

/-!
# The log of the kernel

`kernel/kprintf.c` and `kernel/panic.c`: a text is formatted into a buffer of 1024 bytes, and the string in the buffer
goes to the serial port and to the console. The buffer of `vkprintf` is on the stack, so it starts with whatever is
there, and that of `vpanic` is static. A store of `vsnprintf` that misses the buffer has no meaning in C.

`vpanic` does not return: `Output.halted` says that the processor is in `halt_cpu_forever`. Something that cannot be
masked can still make it call `vpanic` again.
-/

namespace Fynaos.Log

open Snprintf Serial Fbcon

/-- `sizeof(buffer)` -/
abbrev bufferSize : ℕ := 1024

def bytes (text : List Char) : List UInt8 := text.map Char.toUInt8

/-- A string in a buffer of `n` bytes that are left. -/
def cString (mem : ℕ → Char) (a : ℕ) : ℕ → Except Halt (List Char)
  | 0 => .error (.wild a)
  | n + 1 =>
    if mem a = '\x00' then .ok []
    else do
      let text ← cString mem (a + 1) n
      return mem a :: text

/-- `vsnprintf(buffer, sizeof(buffer), fmt, args)` with the memory of the buffer, and the string in it afterwards. -/
def format (buffer : ℕ) (mem : ℕ → Char) (fmt : List Char) (args : List Arg) :
    Except Halt ((ℕ → Char) × List UInt8) := do
  let (_, out) ← vsnprintf buffer bufferSize fmt args ⟨mem, []⟩
  if out.stores.all fun a => buffer ≤ a ∧ a < buffer + bufferSize then do
    let text ← cString out.mem buffer bufferSize
    return (out.mem, bytes text)
  else .error (.wild buffer)

/-- The two devices, the variables of `panic.c` and the processor. -/
structure Output where
  wire : Wire
  console : Console
  panicUseFbcon : Bool
  inPanic : Bool
  panicBuffer : ℕ → Char
  interrupts : Bool
  halted : Bool

section calls
variable (ticks : ℕ → ℕ) (font : ℕ → ℕ → ℕ) (fuel : ℕ)

/-- `vkprintf`, with the address of its buffer and what is there. -/
def vkprintf (buffer : ℕ) (stack : ℕ → Char) (fmt : List Char) (args : List Arg) (l : Output) : Except Halt Output := do
  let (_, text) ← format buffer stack fmt args
  let wire ← uartWriteStr ticks fuel text l.wire
  return { l with wire := wire, console := fbconWrite font text l.console }

def doublePanic : List UInt8 := bytes "*** Double panic detected\n".toList

def banner : List UInt8 := bytes "kernel panic: ".toList

/-- `vpanic`, with the address of its buffer. -/
def vpanic (buffer : ℕ) (msg : List Char) (args : List Arg) (l : Output) : Except Halt Output := do
  let l := { l with interrupts := false }
  if l.inPanic then do
    let wire ← uartWriteStr ticks fuel doublePanic l.wire
    return { l with wire := wire, halted := true }
  else do
    let l := { l with inPanic := true }
    let (mem, text) ← format buffer l.panicBuffer msg args
    let wire ← uartWriteStr ticks fuel banner l.wire
    let wire ← uartWriteStr ticks fuel text wire
    let wire ← uartWrite ticks '\n'.toUInt8 fuel wire
    let l := { l with panicBuffer := mem, wire := wire }
    if l.panicUseFbcon then
      return { l with
        console := fbconWrite font (bytes ['\n']) (fbconWrite font text (fbconWrite font banner l.console))
        halted := true }
    else return { l with halted := true }

def panicUseConsole (l : Output) : Output := { l with panicUseFbcon := true }

inductive Call where
  | kprintf (buffer : ℕ) (stack : ℕ → Char) (fmt : List Char) (args : List Arg)
  | panicUseConsole
  | panic (buffer : ℕ) (msg : List Char) (args : List Arg)

def Call.run : Call → Output → Except Halt Output
  | .kprintf buffer stack fmt args, l => vkprintf ticks font fuel buffer stack fmt args l
  | .panicUseConsole, l => .ok (Log.panicUseConsole l)
  | .panic buffer msg args, l => vpanic ticks font fuel buffer msg args l

def run : List Call → Output → Except Halt Output
  | [], l => .ok l
  | c :: calls, l => do
    let l ← c.run ticks font fuel l
    run calls l

end calls

/-- The devices as `kmain` sets them up, and the variables before anything was called. -/
def start (ticks : ℕ → ℕ) (w : Wire) (fb : FramebufferTag) (memory : Memory.Bytes) (interrupts : Bool) : Output :=
  ⟨uartInit ticks w, Fbcon.start fb memory, false, false, fun _ => '\x00', interrupts, false⟩

/-! ### What the log is for -/

/-- What was printed on the line and on the screen, and the two variables of `panic.c`. -/
structure Record where
  serial : List UInt8
  screen : List (List UInt8)
  console : Bool
  panicked : Bool
  deriving DecidableEq

/-- A call whose text is `text`. -/
def Call.record (text : List UInt8) : Call → Record → Record
  | .kprintf .., r => { r with serial := r.serial ++ text, screen := r.screen ++ [text] }
  | .panicUseConsole, r => { r with console := true }
  | .panic .., r =>
    if r.panicked then { r with serial := r.serial ++ doublePanic }
    else { r with
      serial := r.serial ++ (banner ++ text ++ bytes ['\n'])
      screen := r.screen ++ if r.console then [banner, text, bytes ['\n']] else []
      panicked := true }

/-- Calls with their texts. -/
def records (calls : List (Call × List UInt8)) : Record :=
  calls.foldl (fun r c => c.1.record c.2 r) ⟨[], [], false, false⟩

end Fynaos.Log
