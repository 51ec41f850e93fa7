import Fynaos.Cpu.Machine
import Fynaos.Lib.Fields

/-!
# Segments, gates and interrupts of the processor

How the processor reads the GDT, the TSS and the IDT, and what it does with them: it loads segment registers, goes to
the routine of a vector (`deliver`) and comes back (`iretq`). GDTR, IDTR and TR are `TableRegs`; there is no LDT.

A check that fails is an exception in the middle of an instruction. A run ends there, with the selector, the address
or the vector that failed. It ends as well where the processor would leave 64-bit mode, for code segments of the
other modes are not modelled. The first load of a segment marks its descriptor in memory. Of the segments in use the
processor has a copy; here the descriptor is read again.
-/

namespace Fynaos.Cpu

/-- GDTR, IDTR and the descriptor that TR holds. -/
structure TableRegs where
  gdtLimit : ℕ
  gdtBase : ℕ
  idtLimit : ℕ
  idtBase : ℕ
  tssLimit : ℕ
  tssBase : ℕ
  deriving DecidableEq, Repr

/-! ### Descriptors -/

/-- A segment descriptor of 8 bytes. -/
structure Descriptor where
  base : ℕ
  limit : ℕ
  access : ℕ
  flags : ℕ
  deriving DecidableEq, Repr

namespace Descriptor

open Fields

def decode (d : ℕ) : Descriptor where
  base := field d 16 16 + 2 ^ 16 * field d 32 8 + 2 ^ 24 * field d 56 8
  limit := field d 0 16 + 2 ^ 16 * field d 48 4
  access := field d 40 8
  flags := field d 52 4

def present (d : Descriptor) : Bool := d.access.testBit 7

def dpl (d : Descriptor) : ℕ := field d.access 5 2

/-- S: neither a task state segment nor another object of the system. -/
def isSegment (d : Descriptor) : Bool := d.access.testBit 4

def isCode (d : Descriptor) : Bool := d.isSegment && d.access.testBit 3

def isConforming (d : Descriptor) : Bool := d.isCode && d.access.testBit 2

def isReadable (d : Descriptor) : Bool := d.isSegment && (!d.access.testBit 3 || d.access.testBit 1)

def isWritable (d : Descriptor) : Bool := d.isSegment && !d.access.testBit 3 && d.access.testBit 1

def isAccessed (d : Descriptor) : Bool := d.access.testBit 0

/-- L without D: a segment of 64-bit code. -/
def isLong (d : Descriptor) : Bool := d.flags.testBit 1 && !d.flags.testBit 2

/-- Code for a return to a privilege level. -/
def fitsCode (level : ℕ) (d : Descriptor) : Bool :=
  d.present && d.isCode && d.isLong && if d.isConforming then d.dpl ≤ level else d.dpl = level

/-- Code to which a gate may lead from a privilege level. -/
def fitsGate (cpl : ℕ) (d : Descriptor) : Bool := d.present && d.isCode && d.isLong && d.dpl ≤ cpl

/-- A stack for a privilege level. -/
def fitsStack (level : ℕ) (d : Descriptor) : Bool := d.present && d.isWritable && d.dpl = level

/-- A segment for DS, ES, FS and GS. -/
def fitsData (level : ℕ) (d : Descriptor) : Bool :=
  d.present && d.isReadable && (d.isConforming || level ≤ d.dpl)

end Descriptor

def descriptor (t : TableRegs) (sel : ℕ) (r : Ram) : Except Halt Descriptor :=
  if sel / 8 = 0 ∨ sel / 4 % 2 = 1 ∨ t.gdtLimit < sel / 8 * 8 + 7 then .error (.fault sel)
  else do
    let d ← r.load (t.gdtBase + sel / 8 * 8)
    return Descriptor.decode d

/-! ### Loads of segment registers -/

/-- A selector is looked up, checked and marked as accessed. -/
def loadSegment (t : TableRegs) (fits : Descriptor → Bool) (sel : ℕ) (r : Ram) :
    Except Halt (Descriptor × Ram) := do
  let d ← descriptor t sel r
  if ¬ fits d then .error (.fault sel)
  else if d.isAccessed then return (d, r)
  else do
    let word ← r.load (t.gdtBase + sel / 8 * 8)
    let r ← r.store (t.gdtBase + sel / 8 * 8) (word ||| 2 ^ 40)
    return (d, r)

def loadData (t : TableRegs) (dst : DataReg) (sel : ℕ) (c : Machine) : Except Halt Machine :=
  if sel / 4 = 0 then return { c with data := Function.update c.data dst (BitVec.ofNat 16 sel) }
  else do
    let (_, ram) ← loadSegment t (Descriptor.fitsData (max c.cpl (sel % 4))) sel c.ram
    return { c with data := Function.update c.data dst (BitVec.ofNat 16 sel), ram := ram }

/-- A selector for the stack of a privilege level. In 64-bit mode it may be null, but not for users. -/
def stackSegment (t : TableRegs) (level sel : ℕ) (r : Ram) : Except Halt Ram :=
  if sel % 4 ≠ level then .error (.fault sel)
  else if sel / 4 = 0 then if level = 3 then .error (.fault sel) else return r
  else do
    let (_, r) ← loadSegment t (Descriptor.fitsStack level) sel r
    return r

def loadStack (t : TableRegs) (sel : ℕ) (c : Machine) : Except Halt Machine := do
  let ram ← stackSegment t c.cpl sel c.ram
  return { c with ss := BitVec.ofNat 16 sel, ram := ram }

/-- `lretq` to code of the same privilege level. -/
def lretq (t : TableRegs) (c : Machine) : Except Halt Machine := do
  let sp := (c.regs .rsp).toNat
  let rip ← c.read sp
  let word ← c.read (sp + 8)
  let cs := word.setWidth 16
  if cs.toNat % 4 ≠ c.cpl ∨ ¬ Canonical rip.toNat then .error (.fault cs.toNat)
  else do
    let (_, ram) ← loadSegment t (Descriptor.fitsCode c.cpl) cs.toNat c.ram
    return { c with
      regs := Function.update c.regs .rsp (c.regs .rsp + 16)
      rip := rip
      cs := cs
      ram := ram }

/-- `ltr`: the descriptor has 16 bytes, and it is marked as busy. -/
def ltr (t : TableRegs) (sel : ℕ) (r : Ram) : Except Halt (TableRegs × Ram) := do
  let d ← descriptor t sel r
  let low ← r.load (t.gdtBase + sel / 8 * 8)
  let high ← r.load (t.gdtBase + sel / 8 * 8 + 8)
  if d.access % 32 ≠ 9 ∨ ¬ d.present ∨ t.gdtLimit < sel / 8 * 8 + 15 then .error (.fault sel)
  else do
    let r ← r.store (t.gdtBase + sel / 8 * 8) (low ||| 2 ^ 41)
    return ({ t with tssLimit := d.limit, tssBase := d.base + 2 ^ 32 * (high % 2 ^ 32) }, r)

/-! ### Gates and task states -/

/-- The stacks in a TSS: RSP0 to RSP2 and IST1 to IST7. -/
structure TaskState where
  rsp : Fin 3 → ℕ
  ist : Fin 7 → ℕ
  iomapBase : ℕ

namespace TaskState

def load (r : Ram) (a : ℕ) : TaskState where
  rsp i := r.word (a + 4 + 8 * i)
  ist i := r.word (a + 36 + 8 * i)
  iomapBase := Memory.load r.bytes (a + 102) 2

def istAt (t : TaskState) (n : ℕ) : ℕ := t.ist ⟨n % 7, Nat.mod_lt n (by norm_num)⟩

def rspAt (t : TaskState) (n : ℕ) : ℕ := t.rsp ⟨n % 3, Nat.mod_lt n (by norm_num)⟩

end TaskState

/-- An entry of the IDT. -/
structure Gate where
  offset : ℕ
  selector : ℕ
  ist : ℕ
  type : ℕ
  dpl : ℕ
  present : Bool
  deriving DecidableEq, Repr

/-- The type of a gate that clears IF. -/
abbrev interruptGate : ℕ := 0xE

namespace Gate

def load (r : Ram) (a : ℕ) : Gate :=
  let attributes := Memory.load r.bytes (a + 5) 1
  { offset := Memory.load r.bytes a 2 + 2 ^ 16 * Memory.load r.bytes (a + 6) 2 +
      2 ^ 32 * Memory.load r.bytes (a + 8) 4
    selector := Memory.load r.bytes (a + 2) 2
    ist := Memory.load r.bytes (a + 4) 1 % 8
    type := attributes % 32 -- with the S bit, which is 0 for a gate
    dpl := Fields.field attributes 5 2
    present := attributes.testBit 7 }

/-- The gates that lead to a routine. -/
def isRoutine (g : Gate) : Bool := g.type = interruptGate || g.type = 0xF

end Gate

/-! ### The way into a routine -/

/-- The exceptions with an error code: double fault, invalid TSS, segment not present, stack segment fault, general
protection, page fault, alignment check, control protection, VMM communication and security. -/
def pushesErrorCode (vector : ℕ) : Bool := vector ∈ [8, 10, 11, 12, 13, 14, 17, 21, 29, 30]

/-- Why a vector is raised. Faults, and interrupts in the middle of a repeated string instruction, come back to the
instruction (`restart`). -/
inductive Cause where
  | exception (restart : Bool) (errcode : BitVec 64)
  | interrupt (restart : Bool)
  | software
  deriving DecidableEq, Repr

namespace Cause

/-- RF in the RFLAGS that are saved: set for an instruction that will be restarted, and off after `int`. -/
def savedFlags (flags : BitVec 64) : Cause → BitVec 64
  | exception true _ | interrupt true => setFlag flags 16 true
  | exception false _ | interrupt false => flags
  | software => setFlag flags 16 false

/-- What goes to the stack on top of the state. -/
def pushed (vector : ℕ) : Cause → List (BitVec 64)
  | exception _ errcode => if pushesErrorCode vector then [errcode] else []
  | interrupt _ | software => []

/-- `int` needs the privilege that the gate asks for. -/
def mayUse (g : Gate) (cpl : ℕ) : Cause → Bool
  | software => cpl ≤ g.dpl
  | exception _ _ | interrupt _ => true

end Cause

/-- The stack on which a routine of a privilege level starts: one of its own, that of the level when this changes, or
the current one. -/
def entryStack (t : TableRegs) (g : Gate) (level : ℕ) (c : Machine) : BitVec 64 :=
  let task := TaskState.load c.ram t.tssBase
  if g.ist ≠ 0 then BitVec.ofNat 64 (task.istAt (g.ist - 1))
  else if level < c.cpl then BitVec.ofNat 64 (task.rspAt level)
  else c.regs .rsp

/-- RFLAGS in a routine: TF, NT and RF are off, and IF behind an interrupt gate. -/
def entryFlags (g : Gate) (flags : BitVec 64) : BitVec 64 :=
  let flags := setFlag (setFlag (setFlag flags 8 false) 14 false) 16 false
  if g.type = interruptGate then setFlag flags 9 false else flags

/-- A vector is raised. -/
def deliver (t : TableRegs) (vector : ℕ) (cause : Cause) (c : Machine) : Except Halt Machine :=
  let g := Gate.load c.ram (t.idtBase + 16 * vector)
  if t.idtLimit < 16 * vector + 15 ∨ ¬ g.present ∨ ¬ g.isRoutine ∨ ¬ cause.mayUse g c.cpl ∨
    ¬ Canonical g.offset then .error (.fault vector)
  else do
    let (d, ram) ← loadSegment t (Descriptor.fitsGate c.cpl) g.selector c.ram
    let level := if d.isConforming then c.cpl else d.dpl
    let top := entryStack t g level c &&& ~~~15#64
    let back := [c.ss.setWidth 64, c.regs .rsp, cause.savedFlags c.rflags, c.cs.setWidth 64, c.rip] ++
      cause.pushed vector
    let inner ← ({ c with ram := ram }.setReg .rsp top).pushAll back
    return { inner with
      rip := BitVec.ofNat 64 g.offset
      cs := BitVec.ofNat 16 (g.selector / 4 * 4 + level)
      rflags := entryFlags g c.rflags
      ss := if level < c.cpl then BitVec.ofNat 16 level else c.ss }

/-! ### The way back -/

/-- The flags that `iretq` can load at level 0: all but VM and the reserved ones. -/
def flagBits : BitVec 64 := 0x3D7FD5

/-- RFLAGS after a pop of `v`: IF needs the privilege of IOPL, and IOPL, VIF and VIP need level 0. Bit 1 is always
set. -/
def popFlags (cpl : ℕ) (flags v : BitVec 64) : BitVec 64 :=
  let free := 0x254DD5#64 ||| (if cpl ≤ flags.toNat / 2 ^ 12 % 4 then 0x200 else 0) |||
    (if cpl = 0 then 0x183000 else 0)
  (flags &&& flagBits &&& ~~~free) ||| (v &&& free) ||| 2

/-- DS, ES, FS or GS after a return to an outer level: null when the segment is none for this level. -/
def outerData (t : TableRegs) (level : ℕ) (sel : BitVec 16) (r : Ram) : BitVec 16 :=
  match descriptor t sel.toNat r with
  | .ok d => if !d.isConforming && d.dpl < level then 0 else sel
  | .error _ => 0

/-- The checks of `iretq` and the return to a machine that passes them. -/
def returnTo (t : TableRegs) (rip : BitVec 64) (cs : BitVec 16) (rflags rsp : BitVec 64) (ss : BitVec 16)
    (c : Machine) : Except Halt Machine :=
  let level := cs.toNat % 4
  if c.rflags.getLsbD 14 ∨ level < c.cpl ∨ ¬ Canonical rip.toNat then .error (.fault rip.toNat)
  else do
    let (_, ram) ← loadSegment t (Descriptor.fitsCode level) cs.toNat c.ram
    let ram ← stackSegment t level ss.toNat ram
    return {
      regs := Function.update c.regs .rsp rsp
      rip := rip
      cs := cs
      rflags := popFlags c.cpl c.rflags rflags
      ss := ss
      data := if c.cpl < level then fun dst => outerData t level (c.data dst) ram else c.data
      ram := ram }

def iretq (t : TableRegs) (c : Machine) : Except Halt Machine := do
  let sp := (c.regs .rsp).toNat
  let rip ← c.read sp
  let cs ← c.read (sp + 8)
  let rflags ← c.read (sp + 16)
  let rsp ← c.read (sp + 24)
  let ss ← c.read (sp + 32)
  returnTo t rip (cs.setWidth 16) rflags rsp (ss.setWidth 16) c

end Fynaos.Cpu
