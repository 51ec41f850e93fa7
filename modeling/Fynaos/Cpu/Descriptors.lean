import Fynaos.Cpu.Processor

/-!
# Descriptor tables

`cpu/gdt.c`, `cpu/idt.c` and `init_interrupt` of `kernel/interrupt.c`: what the kernel writes into the GDT, the
TSS and the IDT. `Statics` are the addresses of the static objects. All of them are packed, so a field is a load or a
store of its own width at its own offset. `lgdt`, `lidt` and `ltr` change `TableRegs`.
-/

namespace Fynaos

/-- The memory after a store of `n` bytes of `v` at `a`. -/
def Ram.putWidth (r : Ram) (n a v : ℕ) : Ram := ⟨Memory.store r.bytes a n v, (a, n) :: r.stores⟩

/-- An assignment through a pointer to a value of `n` bytes. -/
def Ram.storeWidth (r : Ram) (n a v : ℕ) : Except Halt Ram :=
  if Canonical (wrap a) then .ok (r.putWidth n (wrap a) v) else .error (.fault (wrap a))

end Fynaos

namespace Fynaos.Cpu

/-- The addresses of `gdt`, `tss`, `ist1`, `idt` and `isr_table`, and of the label in `init_gdt`. -/
structure Statics where
  gdt : ℕ
  tss : ℕ
  ist1 : ℕ
  idt : ℕ
  isrTable : ℕ
  label : ℕ

def makeSegmentSelector (index ti rpl : ℕ) : ℕ :=
  (index &&& 0x1FFF) <<< 3 ||| (ti &&& 1) <<< 2 ||| (rpl &&& 3)

def kernelCodeSelector : ℕ := makeSegmentSelector 1 0 0

def kernelDataSelector : ℕ := makeSegmentSelector 2 0 0

/-! ### `cpu/gdt.c` -/

def makeGdte (base limit access flags : ℕ) : ℕ :=
  (limit &&& 0x0000FFFF) <<< 0 ||| (base &&& 0x0000FFFF) <<< 16 ||| (base &&& 0x00FF0000) <<< (32 - 16) |||
    (access &&& 0xFF) <<< 40 ||| (limit &&& 0x000F0000) <<< (48 - 16) ||| (flags &&& 0xF) <<< 52 |||
    (base &&& 0xFF000000) <<< (56 - 24)

def makeSystemGdteHigh (base : ℕ) : ℕ := (base >>> 32) &&& 0xFFFFFFFF

/-- `sizeof(struct tss)` -/
abbrev sizeofTss : ℕ := 104

/-- `gdt`, before `init_gdt`. -/
def gdtStatic : List ℕ :=
  [0, makeGdte 0 0xFFFFF 0x9A 0xA, makeGdte 0 0xFFFFF 0x92 0xC, makeGdte 0 0xFFFFF 0xFA 0xA,
    makeGdte 0 0xFFFFF 0xF2 0xC, 0, 0]

/-- The part of `init_gdt` that fills the TSS. -/
def initTss (st : Statics) (r : Ram) : Except Halt Ram := do
  let r ← Ram.memset st.tss 0 sizeofTss r
  let r ← r.store (st.tss + 4) 0
  let r ← r.store (st.tss + 36) (wrap (st.ist1 + 4096))
  r.storeWidth 2 (st.tss + 102) 0xFFFF

/-- The loads of the data segments in `init_gdt`. -/
def reloadData (t : TableRegs) (c : Machine) : Except Halt Machine := do
  let c ← loadData t .ds kernelDataSelector c -- from AX, which `reloadCode` overwrites
  let c ← loadStack t kernelDataSelector c
  let c ← loadData t .es kernelDataSelector c
  let c ← loadData t .fs kernelDataSelector c
  loadData t .gs kernelDataSelector c

/-- The jump of `init_gdt` to its label, with another CS. -/
def reloadCode (st : Statics) (t : TableRegs) (c : Machine) : Except Halt Machine := do
  let c ← c.push (BitVec.ofNat 64 kernelCodeSelector)
  let c := c.setReg .rax (BitVec.ofNat 64 st.label)
  let c ← c.push (c.regs .rax)
  lretq t c

def initGdt (st : Statics) (c : Machine) (t : TableRegs) : Except Halt (Machine × TableRegs) := do
  let r ← initTss st c.ram
  let r ← r.store (st.gdt + 8 * 5) (makeGdte (st.tss &&& 0xFFFFFFFF) (sizeofTss - 1) 0x89 0)
  let r ← r.store (st.gdt + 8 * 6) (makeSystemGdteHigh st.tss)
  let t := { t with gdtLimit := 8 * 7 - 1, gdtBase := st.gdt }
  let c ← reloadData t { c with ram := r }
  let c ← reloadCode st t c
  let (t, r) ← ltr t (makeSegmentSelector 5 0 0) c.ram
  return ({ c with ram := r }, t)

def setRsp0 (st : Statics) (rsp0 : ℕ) (r : Ram) : Except Halt Ram := r.store (st.tss + 4) rsp0

/-! ### `cpu/idt.c` and `init_interrupt` -/

def setIdtEntry (st : Statics) (index isrAddr attributes ist : ℕ) (r : Ram) : Except Halt Ram := do
  let pidt := st.idt + 16 * index
  let r ← r.storeWidth 1 (pidt + 5) attributes
  let r ← r.storeWidth 1 (pidt + 4) ist
  let r ← r.storeWidth 2 (pidt + 2) kernelCodeSelector
  let r ← r.storeWidth 2 pidt (isrAddr &&& 0xFFFF)
  let r ← r.storeWidth 2 (pidt + 6) ((isrAddr >>> 16) &&& 0xFFFF)
  let r ← r.storeWidth 4 (pidt + 8) ((isrAddr >>> 32) &&& 0xFFFFFFFF)
  r.storeWidth 4 (pidt + 12) 0

def initIdt (st : Statics) (t : TableRegs) (r : Ram) : Except Halt (TableRegs × Ram) := do
  let r ← (List.range 256).foldlM (fun r i =>
    r.storeWidth 1 (st.idt + 16 * i + 5) (Memory.load r.bytes (st.idt + 16 * i + 5) 1 &&& 0x7F)) r
  return ({ t with idtLimit := 16 * 256 - 1, idtBase := st.idt }, r)

def setIdte (st : Statics) (i attr ist : ℕ) (r : Ram) : Except Halt Ram := do
  let isrAddr ← r.load (st.isrTable + 8 * i)
  setIdtEntry st i isrAddr attr ist r

/-- The attributes that `init_interrupt` gives to all gates. -/
def gateAttributes : ℕ := 0x80 ||| 0x00 ||| 0x0E

def initInterrupt (st : Statics) (t : TableRegs) (r : Ram) : Except Halt (TableRegs × Ram) := do
  let (t, r) ← initIdt st t r
  let r ← (List.range 256).foldlM (fun r i => setIdte st i gateAttributes 0 r) r
  let r ← setIdte st 2 gateAttributes 1 r
  let r ← setIdte st 8 gateAttributes 1 r
  let r ← setIdte st 18 gateAttributes 1 r
  return (t, r)

end Fynaos.Cpu
