import Mathlib.Logic.Function.Basic
import Fynaos.Ram

/-!
# The processor and the assembly routines

`kernel/asm.S` and `kernel/context.S`: the entry stubs of the 256 vectors, the way back from an interrupt, and
the switch between two contexts. Each routine is straight-line code with a transfer at its end, so a
routine is the list of its instructions and the transfers are functions of their own. The instructions are those
of x86-64, in 64-bit mode; the addresses of the code itself do not appear.
-/

namespace Fynaos.Cpu

inductive Reg where
  | rax | rbx | rcx | rdx | rsi | rdi | rbp | rsp
  | r8 | r9 | r10 | r11 | r12 | r13 | r14 | r15
  deriving DecidableEq, Repr

/-- The segment registers of the data. -/
inductive DataReg where
  | ds | es | fs | gs
  deriving DecidableEq, Repr

structure Machine where
  regs : Reg → BitVec 64
  rip : BitVec 64
  cs : BitVec 16
  rflags : BitVec 64
  ss : BitVec 16
  data : DataReg → BitVec 16
  ram : Ram

inductive Instr where
  | push (src : Reg)
  | pushImm (value : ℕ)
  | pop (dst : Reg)
  | mov (src dst : Reg)
  | store (src base : Reg) (disp : ℕ)
  | load (base : Reg) (disp : ℕ) (dst : Reg)
  | addImm (value : ℕ) (dst : Reg)
  deriving DecidableEq, Repr

namespace Machine

/-- The privilege level. -/
def cpl (c : Machine) : ℕ := c.cs.toNat % 4

def setReg (c : Machine) (r : Reg) (v : BitVec 64) : Machine :=
  { c with regs := Function.update c.regs r v }

def push (v : BitVec 64) (c : Machine) : Except Halt Machine := do
  let rsp := c.regs .rsp - 8
  let ram ← c.ram.store rsp.toNat v.toNat
  return { c with regs := Function.update c.regs .rsp rsp, ram := ram }

def pushAll (vs : List (BitVec 64)) (c : Machine) : Except Halt Machine := vs.foldlM (fun c v => c.push v) c

def read (c : Machine) (a : ℕ) : Except Halt (BitVec 64) := do
  let v ← c.ram.load a
  return BitVec.ofNat 64 v

end Machine

/-- One of the status flags. -/
def setFlag (flags : BitVec 64) (bit : ℕ) (v : Bool) : BitVec 64 :=
  if v then flags ||| (1#64 <<< bit) else flags &&& ~~~(1#64 <<< bit)

def ones (n : ℕ) : ℕ := ((List.range 8).filter n.testBit).length

/-- The status flags after an addition: CF, PF, AF, ZF, SF and OF. -/
def addFlags (a b flags : BitVec 64) : BitVec 64 :=
  let sum := a + b
  let flags := setFlag flags 0 (2 ^ 64 ≤ a.toNat + b.toNat)
  let flags := setFlag flags 2 (ones sum.toNat % 2 = 0)
  let flags := setFlag flags 4 (16 ≤ a.toNat % 16 + b.toNat % 16)
  let flags := setFlag flags 6 (sum = 0)
  let flags := setFlag flags 7 sum.msb
  setFlag flags 11 (a.msb = b.msb ∧ sum.msb ≠ a.msb)

def exec (c : Machine) : Instr → Except Halt Machine
  | .push src => c.push (c.regs src)
  | .pushImm value => c.push (BitVec.ofNat 64 value)
  | .pop dst => do
    let v ← c.read (c.regs .rsp).toNat
    return (c.setReg .rsp (c.regs .rsp + 8)).setReg dst v
  | .mov src dst => return c.setReg dst (c.regs src)
  | .store src base disp => do
    let ram ← c.ram.store ((c.regs base).toNat + disp) (c.regs src).toNat
    return { c with ram := ram }
  | .load base disp dst => do
    let v ← c.read ((c.regs base).toNat + disp)
    return c.setReg dst v
  | .addImm value dst =>
    let sum := c.regs dst + BitVec.ofNat 64 value
    return { c with
      regs := Function.update c.regs dst sum
      rflags := addFlags (c.regs dst) (BitVec.ofNat 64 value) c.rflags }

def run (code : List Instr) (c : Machine) : Except Halt Machine := code.foldlM exec c

def ret (c : Machine) : Except Halt Machine := do
  let rip ← c.read (c.regs .rsp).toNat
  return { c with regs := Function.update c.regs .rsp (c.regs .rsp + 8), rip := rip }

/-! ### `kernel/asm.S` -/

/-- `struct trap_frame` -/
structure TrapFrame where
  r15 : BitVec 64
  r14 : BitVec 64
  r13 : BitVec 64
  r12 : BitVec 64
  r11 : BitVec 64
  r10 : BitVec 64
  r9 : BitVec 64
  r8 : BitVec 64
  rax : BitVec 64
  rbx : BitVec 64
  rcx : BitVec 64
  rdx : BitVec 64
  rsi : BitVec 64
  rdi : BitVec 64
  rbp : BitVec 64
  vector : BitVec 64
  errcode : BitVec 64
  rip : BitVec 64
  cs : BitVec 64
  rflags : BitVec 64
  rsp : BitVec 64
  ss : BitVec 64
  deriving DecidableEq, Repr

def TrapFrame.load (ram : Ram) (frame : ℕ) : TrapFrame :=
  let field (i : ℕ) : BitVec 64 := BitVec.ofNat 64 (ram.word (frame + 8 * i))
  ⟨field 0, field 1, field 2, field 3, field 4, field 5, field 6, field 7, field 8, field 9, field 10,
    field 11, field 12, field 13, field 14, field 15, field 16, field 17, field 18, field 19, field 20,
    field 21⟩

/-- `isr0`, ..., `isr255`, up to the jump to `isr_common`. -/
def isr (num : ℕ) : List Instr :=
  (if num ≠ 8 ∧ num ≠ 10 ∧ num ≠ 11 ∧ num ≠ 12 ∧ num ≠ 13 ∧ num ≠ 14 ∧ num ≠ 17 ∧ num ≠ 21 ∧ num ≠ 29 ∧
    num ≠ 30 then [.pushImm 0] else []) ++ [.pushImm num]

/-- The registers in the order in which `isr_common` pushes them. -/
def saved : List Reg :=
  [.rbp, .rdi, .rsi, .rdx, .rcx, .rbx, .rax, .r8, .r9, .r10, .r11, .r12, .r13, .r14, .r15]

/-- `isr_common`, up to the jump to `interrupt_service`. -/
def isrCommon : List Instr := saved.map .push ++ [.mov .rsp .rdi]

/-- The registers in the order in which `exit_interrupt_service` pops them. -/
def restored : List Reg :=
  [.r15, .r14, .r13, .r12, .r11, .r10, .r9, .r8, .rax, .rbx, .rcx, .rdx, .rsi, .rdi, .rbp]

/-- `exit_interrupt_service`, up to `iretq`. -/
def exitCode : List Instr := [.mov .rdi .rsp] ++ restored.map .pop ++ [.addImm 16 .rsp]

/-! ### `kernel/context.S` -/

/-- The fields of `struct context`, in order. -/
def contextRegs : List Reg := [.rbx, .r12, .r13, .r14, .r15, .rsp, .rbp]

def swapContext (c : Machine) : Except Halt Machine := do
  let c ← run
    [.store .rbx .rdi 0, .store .r12 .rdi 8, .store .r13 .rdi 16, .store .r14 .rdi 24,
      .store .r15 .rdi 32, .store .rsp .rdi 40, .store .rbp .rdi 48,
      .load .rsi 0 .rbx, .load .rsi 8 .r12, .load .rsi 16 .r13, .load .rsi 24 .r14,
      .load .rsi 32 .r15, .load .rsi 40 .rsp, .load .rsi 48 .rbp,
      .mov .rdi .rax] c
  ret c

end Fynaos.Cpu
