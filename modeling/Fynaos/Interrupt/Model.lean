import Fynaos.Ram

/-!
# Interrupts

`kernel/interrupt.c`. The handlers of a vector are a chain of `struct interrupt_handler_info`, a
handler at offset 0 and the next node at offset 8; `interrupt_handlers` holds the heads. A handler is a
function pointer: what it returns and does to the machine is given by `Behaviour`. `kmalloc` is a
parameter (`Allocator`).
-/

namespace Fynaos.Interrupt

/-- `EINVAL` -/
abbrev eInval : ℤ := 22

/-- `ENOMEM` -/
abbrev eNomem : ℤ := 12

/-- `sizeof(struct interrupt_handler_info)` -/
abbrev handlerInfoSize : ℕ := 16

/-- What a handler returns, and what it does to the memory and the rest of the machine. -/
abbrev Behaviour (W : Type) := ℕ → Ram → W → ℤ × Ram × W

/-- What `kmalloc` does to the memory and the interrupt flag. -/
abbrev Allocator := ℕ → Ram → Bool → Except Halt (ℕ × Ram × Bool)

/-- How `interrupt_service` ends, which never returns. -/
inductive Outcome where
  | exited
  | panicked (msg : String) (vector : ℕ)
  deriving DecidableEq

/-- The handlers that were called, in order, and what became of the machine. -/
structure Service (W : Type) where
  called : List ℕ
  outcome : Outcome
  ram : Ram
  world : W

/-- The loop of `interrupt_service`. -/
def serviceLoop {W : Type} (behave : Behaviour W) (vector : ℕ) :
    ℕ → ℕ → Ram → W → Except Halt (Service W)
  | 0, _, _, _ => .error .spin
  | fuel + 1, head, r, w =>
    if head = 0 then .ok ⟨[], .panicked "Unhandled interrupt: vector=%llu" vector, r, w⟩
    else do
      let handler ← r.load head
      let (handled, r, w) := behave handler r w
      if handled = 0 then return ⟨[handler], .exited, r, w⟩
      else do
        let head ← r.load (head + 8)
        let s ← serviceLoop behave vector fuel head r w
        return ⟨handler :: s.called, s.outcome, s.ram, s.world⟩

/-- `interrupt_service`, with `interrupt_handlers` at the address `handlers`. -/
def interruptService {W : Type} (handlers : ℕ) (behave : Behaviour W) (vector fuel : ℕ) (r : Ram)
    (w : W) : Except Halt (Service W) := do
  let head ← r.load (handlers + 8 * vector)
  if vector < 32 then return ⟨[], .panicked "Unhandled exception: vector=%llu" vector, r, w⟩
  else serviceLoop behave vector fuel head r w

def connectInterrupt (handlers : ℕ) (kmalloc : Allocator) (handler number : ℕ) (r : Ram) (interrupts : Bool) :
    Except Halt (ℤ × Ram × Bool) :=
  if number < 32 then .ok (-eInval, r, interrupts)
  else do
    -- what `kmalloc` leaves in the flag is gone with `restore_interrupts`
    let flags := interrupts
    let (newNode, r, _) ← kmalloc handlerInfoSize r false
    if newNode = 0 then return (-eNomem, r, flags)
    else do
      let r ← r.store newNode handler
      let head ← r.load (handlers + 8 * number)
      let r ← r.store (newNode + 8) head
      let r ← r.store (handlers + 8 * number) newNode
      return (0, r, flags)

end Fynaos.Interrupt
