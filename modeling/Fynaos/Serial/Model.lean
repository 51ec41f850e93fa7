import Fynaos.Types

/-!
# The serial port

`drivers/uart.c`, and the transmitting side of the 16550 behind it. Bytes wait in a queue for the shift register, which
sends them one by one on the line; `Chip.tick` is the end of one of them. With its FIFO the chip has room for sixteen
bytes in the queue, without it for one. `ticks n` says how often that happens in front of the access `n` of a port.

The second half is about calls of `uart_write_str` that interrupt each other: between any two accesses of a port an
interrupt can come in whose handler prints as well.
-/

namespace Fynaos.Serial

/-- `COM`, which is `COM3`. -/
abbrev com : ℕ := 0x3E8

/-! ### The chip -/

/-- The registers that are written. -/
structure Config where
  ier : UInt8
  dll : UInt8
  dlm : UInt8
  lcr : UInt8
  mcr : UInt8
  fifo : Bool
  deriving DecidableEq

/-- The divisor latches are in the place of the data and of the interrupt enable register. -/
def Config.dlab (c : Config) : Bool := c.lcr &&& 0x80 ≠ 0

/-- The transmitter is connected to the receiver and not to the line. -/
def Config.loopback (c : Config) : Bool := c.mcr &&& 0x10 ≠ 0

def Config.capacity (c : Config) : ℕ := if c.fifo then 16 else 1

/-- A byte on the line, with the divisor of the clock and the line control it is sent with. -/
structure Sent where
  byte : UInt8
  divisor : ℕ
  lineControl : UInt8
  deriving DecidableEq

/-- `line` has what was sent, the latest last, and `lost` what there was no room for. -/
structure Chip where
  config : Config
  queue : List UInt8
  shift : Option UInt8
  line : List Sent
  lost : List UInt8
  deriving DecidableEq

namespace Chip

/-- The byte in the shift register has been sent, and the next one follows. -/
def tick (u : Chip) : Chip :=
  { u with
    line := if u.config.loopback then u.line else
      u.line ++ u.shift.toList.map fun b => ⟨b, u.config.dll.toNat + 256 * u.config.dlm.toNat, u.config.lcr⟩
    shift := u.queue.head?
    queue := u.queue.tail }

/-- A byte for the line. A full FIFO does not take it; without the FIFO it replaces the one that waits. -/
def transmit (v : UInt8) (u : Chip) : Chip :=
  if u.queue.length < u.config.capacity then { u with queue := u.queue ++ [v] }
  else if u.config.fifo then { u with lost := u.lost ++ [v] }
  else { u with queue := [v], lost := u.lost ++ u.queue }

/-- Switching the FIFO on or off empties it, and so does its bit 2 when it is on. -/
def fifoControl (v : UInt8) (u : Chip) : Chip :=
  let fifo : Bool := v &&& 1 ≠ 0
  if fifo = u.config.fifo ∧ ¬ (fifo ∧ v &&& 4 ≠ 0) then u
  else { u with config := { u.config with fifo := fifo }, queue := [] }

/-- A store to a register. -/
def write (register : ℕ) (v : UInt8) (u : Chip) : Chip :=
  match register with
  | 0 => if u.config.dlab then { u with config := { u.config with dll := v } } else u.transmit v
  | 1 =>
    if u.config.dlab then { u with config := { u.config with dlm := v } }
    else { u with config := { u.config with ier := v } }
  | 2 => u.fifoControl v
  | 3 => { u with config := { u.config with lcr := v } }
  | 4 => { u with config := { u.config with mcr := v } }
  | _ => u

/-- The line status: nothing waits in the queue, and nothing is being sent. -/
def lineStatus (u : Chip) : UInt8 :=
  (if u.queue = [] then 0x20 else 0) ||| (if u.queue = [] ∧ u.shift = none then 0x40 else 0)

end Chip

/-! ### The driver -/

/-- The chip, and the number of accesses so far. -/
structure Wire where
  chip : Chip
  time : ℕ

section driver
variable (ticks : ℕ → ℕ)

def Wire.now (w : Wire) : Chip := Chip.tick^[ticks w.time] w.chip

def outb (port : ℕ) (v : UInt8) (w : Wire) : Wire := ⟨(w.now ticks).write (port - com) v, w.time + 1⟩

/-- `inb(COM + 5)` -/
def inbStatus (w : Wire) : UInt8 × Wire := ((w.now ticks).lineStatus, ⟨w.now ticks, w.time + 1⟩)

def uartInit (w : Wire) : Wire :=
  let w := outb ticks (com + 1) 0x00 w
  let w := outb ticks (com + 3) 0x80 w
  let w := outb ticks (com + 0) 0x01 w
  let w := outb ticks (com + 1) 0x00 w
  let w := outb ticks (com + 3) 0x03 w
  let w := outb ticks (com + 2) 0xC7 w
  outb ticks (com + 4) 0x0B w

/-- `uart_write`, with a bound for the number of times it looks at the line status. -/
def uartWrite (ch : UInt8) : ℕ → Wire → Except Halt Wire
  | 0, _ => .error .spin
  | fuel + 1, w =>
    let (status, w) := inbStatus ticks w
    if status &&& 0x20 = 0 then uartWrite ch fuel w else .ok (outb ticks com ch w)

def uartWriteStr (fuel : ℕ) : List UInt8 → Wire → Except Halt Wire
  | [], w => .ok w
  | ch :: s, w => do
    let w ← uartWrite ticks ch fuel w
    uartWriteStr fuel s w

end driver

/-! ### Calls that interrupt each other -/

/-- A call of `uart_write_str` at work: the bytes that are left, and whether the loop of `uart_write` is over for the
first of them. -/
structure Writer where
  call : ℕ
  rest : List UInt8
  ready : Bool
  deriving DecidableEq

/-- The calls at work, the one that runs first. The other fields are ghosts: how many calls there were, what each was
asked to print, and which bytes went to the chip. -/
structure Machine where
  chip : Chip
  stack : List Writer
  calls : ℕ
  asked : ℕ → List UInt8
  written : List (ℕ × UInt8)

inductive Event where
  | tick
  | call (s : List UInt8)
  | poll
  | send
  | ret

inductive Step : Machine → Event → Machine → Prop
  | tick {m : Machine} : Step m .tick { m with chip := m.chip.tick }
  | call {m : Machine} {s : List UInt8} : Step m (.call s) { m with
      stack := ⟨m.calls, s, false⟩ :: m.stack
      calls := m.calls + 1
      asked := Function.update m.asked m.calls s }
  | poll {m : Machine} {w : Writer} {ws : List Writer} (hstack : m.stack = w :: ws) (hrest : w.rest ≠ [])
      (hwait : w.ready = false) :
      Step m .poll { m with stack := { w with ready := m.chip.lineStatus &&& 0x20 ≠ 0 } :: ws }
  | send {m : Machine} {w : Writer} {ws : List Writer} {ch : UInt8} {s : List UInt8} (hstack : m.stack = w :: ws)
      (hrest : w.rest = ch :: s) (hready : w.ready = true) : Step m .send { m with
      chip := m.chip.write 0 ch
      stack := { w with rest := s, ready := false } :: ws
      written := m.written ++ [(w.call, ch)] }
  | ret {m : Machine} {w : Writer} {ws : List Writer} (hstack : m.stack = w :: ws) (hrest : w.rest = [])
      (hwait : w.ready = false) : Step m .ret { m with stack := ws }

def Shallow (depth : ℕ) (m : Machine) : Event → Prop
  | .call _ => m.stack.length < depth
  | _ => True

def idle (chip : Chip) : Machine := ⟨chip, [], 0, fun _ => [], []⟩

def Chip.pipeline (u : Chip) : List UInt8 := u.line.map Sent.byte ++ u.shift.toList ++ u.queue

/-- The registers as `uart_init` leaves them: eight bits without parity and one stop bit, at full speed, with the
FIFO on. -/
structure Configured (u : Chip) : Prop where
  divisor : u.config.dll = 1 ∧ u.config.dlm = 0
  lcr : u.config.lcr = 0x03
  mcr : u.config.mcr = 0x0B
  fifo : u.config.fifo = true

/-- From `u` to `v` the chip got `s`: it was sent or is on the way, in order and in the right format. -/
structure Delivers (u v : Chip) (s : List UInt8) : Prop where
  lost : v.lost = u.lost
  pipeline : v.pipeline = u.pipeline ++ s
  line : ∃ sent, v.line = u.line ++ sent ∧ ∀ b ∈ sent, b.divisor = 1 ∧ b.lineControl = 0x03

/-- What a call has given to the chip. -/
def Machine.printed (m : Machine) (i : ℕ) : List UInt8 := (m.written.filter fun p => p.1 = i).map Prod.snd

/-- Of a call at work everything is written but the bytes that are left, and of a finished call everything. -/
structure Orderly (m : Machine) : Prop where
  working : ∀ w ∈ m.stack, m.printed w.call ++ w.rest = m.asked w.call
  finished : ∀ i < m.calls, (∀ w ∈ m.stack, w.call ≠ i) → m.printed i = m.asked i

end Fynaos.Serial
