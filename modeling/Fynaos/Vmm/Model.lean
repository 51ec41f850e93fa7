import Fynaos.Ram

/-!
# Page tables

`mm/vmm.c`. A `struct mm *` is the address of its only field `pml4`, and all tables are read and
written through the direct map. The functions of other modules that are called are parameters:
`alloc_frames(0)`, `free_frame`, `kmalloc` and `kfree`, over a state `S` of their own. `held` and `blocks`
are ghosts: the frames, and the objects of the size of a `struct mm`, that are in use in such a state.
-/

namespace Fynaos.Vmm

/-! ### Addresses and entries -/

def pml4Index (addr : ℕ) : ℕ := (addr >>> 39) &&& 0x1FF

def pdptIndex (addr : ℕ) : ℕ := (addr >>> 30) &&& 0x1FF

def pdIndex (addr : ℕ) : ℕ := (addr >>> 21) &&& 0x1FF

def ptIndex (addr : ℕ) : ℕ := (addr >>> 12) &&& 0x1FF

def pageOffset (addr : ℕ) : ℕ := addr &&& 0xFFF

abbrev pagePresent : ℕ := 1

abbrev pageWritable : ℕ := 2

abbrev pageUser : ℕ := 4

abbrev pageHuge : ℕ := 128

/-- `sizeof(struct mm)` -/
abbrev mmSize : ℕ := 8

/-- The functions of the frame allocator and the heap that are called. -/
structure Services (S : Type) where
  allocFrames : S → Except Halt (ℕ × S)
  freeFrame : ℕ → S → Except Halt S
  kmalloc : ℕ → Ram → S → Except Halt (ℕ × Ram × S)
  kfree : ℕ → Ram → S → Except Halt (Ram × S)
  held : S → Set ℕ
  blocks : S → Set ℕ

variable {S : Type}

/-! ### Walks -/

def virtToPhys (mm virt : ℕ) (r : Ram) : Except Halt ℕ := do
  let pml4 ← r.load mm
  let ppml4 := physToVirt (pml4 &&& pageMask)
  let pml4e ← r.load (ppml4 + 8 * pml4Index virt)
  if pml4e &&& pagePresent = 0 then return invalidAddress
  else do
    let ppdpt := physToVirt (pml4e &&& pageMask)
    let pdpte ← r.load (ppdpt + 8 * pdptIndex virt)
    if pdpte &&& pagePresent = 0 then return invalidAddress
    else do
      let ppd := physToVirt (pdpte &&& pageMask)
      let pde ← r.load (ppd + 8 * pdIndex virt)
      if pde &&& pagePresent = 0 then return invalidAddress
      else do
        let ppt := physToVirt (pde &&& pageMask)
        let pte ← r.load (ppt + 8 * ptIndex virt)
        if pte &&& pagePresent = 0 then return invalidAddress
        else return wrap ((pte &&& pageMask) + pageOffset virt)

/-- The part of `map_page` that is there for each of the three upper levels: an entry `table[index]`
that is not present gets a new table. -/
def ensureTable (F : Services S) (table index : ℕ) (r : Ram) (s : S) : Except Halt (Ram × S) := do
  let e ← r.load (table + 8 * index)
  if e &&& pagePresent = 0 then do
    let (frame, s) ← F.allocFrames s
    let r ← r.store (table + 8 * index) frame
    let r ← zeroPage frame r
    let e ← r.load (table + 8 * index)
    let r ← r.store (table + 8 * index) (e ||| (pagePresent ||| pageWritable ||| pageUser))
    return (r, s)
  else return (r, s)

def mapPage (F : Services S) (mm frame page attr : ℕ) (r : Ram) (s : S) :
    Except Halt (Bool × Ram × S) := do
  let pml4 ← r.load mm
  let ppml4 := physToVirt pml4
  let (r, s) ← ensureTable F ppml4 (pml4Index page) r s
  let pml4e ← r.load (ppml4 + 8 * pml4Index page)
  let ppdpt := physToVirt (pml4e &&& lnot 0xFFF)
  let (r, s) ← ensureTable F ppdpt (pdptIndex page) r s
  let pdpte ← r.load (ppdpt + 8 * pdptIndex page)
  let ppd := physToVirt (pdpte &&& lnot 0xFFF)
  let (r, s) ← ensureTable F ppd (pdIndex page) r s
  let pde ← r.load (ppd + 8 * pdIndex page)
  let ppt := physToVirt (pde &&& lnot 0xFFF)
  let pte ← r.load (ppt + 8 * ptIndex page)
  if pte &&& pagePresent ≠ 0 then return (false, r, s)
  else do
    let r ← r.store (ppt + 8 * ptIndex page) (frame ||| attr)
    return (true, r, s)

def unmapPage (mm page : ℕ) (r : Ram) : Except Halt (ℕ × Ram) := do
  let pml4 ← r.load mm
  let ppml4 := physToVirt pml4
  let pml4e ← r.load (ppml4 + 8 * pml4Index page)
  if pml4e &&& pagePresent = 0 then return (invalidAddress, r)
  else do
    let ppdpt := physToVirt (pml4e &&& lnot 0xFFF)
    let pdpte ← r.load (ppdpt + 8 * pdptIndex page)
    if pdpte &&& pagePresent = 0 then return (invalidAddress, r)
    else do
      let ppd := physToVirt (pdpte &&& lnot 0xFFF)
      let pde ← r.load (ppd + 8 * pdIndex page)
      if pde &&& pagePresent = 0 then return (invalidAddress, r)
      else do
        let ppt := physToVirt (pde &&& lnot 0xFFF)
        let pte ← r.load (ppt + 8 * ptIndex page)
        if pte &&& pagePresent = 0 then return (invalidAddress, r)
        else do
          let r ← r.store (ppt + 8 * ptIndex page) 0
          return (pte &&& lnot 0xFFF, r)

/-! ### Address spaces -/

/-- `map_kernel_for_user_mm`, with `kernel_mm` at the address `kernelMm`. -/
def mapKernelForUserMm (kernelMm mm : ℕ) (r : Ram) : Except Halt Ram := do
  let userPml4 ← r.load mm
  let kernelPml4 ← r.load kernelMm
  (List.range' 256 256).foldlM (fun r i => do
    let e ← r.load (physToVirt kernelPml4 + 8 * i)
    r.store (physToVirt userPml4 + 8 * i) e) r

def createMm (F : Services S) (r : Ram) (s : S) : Except Halt (ℕ × Ram × S) := do
  let (pml4Page, s) ← F.allocFrames s
  if pml4Page = invalidAddress then return (0, r, s)
  else do
    let (mm, r, s) ← F.kmalloc mmSize r s
    if mm = 0 then do
      let s ← F.freeFrame pml4Page s
      return (0, r, s)
    else do
      let r ← zeroPage pml4Page r
      let r ← r.store mm pml4Page
      return (mm, r, s)

/-- The loop of `free_page_table` over the entries of a table. -/
def freeEntries (r : Ram) (table : ℕ) (freeChild : ℕ → S → Except Halt S) (s : S) : Except Halt S :=
  (List.range 512).foldlM (fun s i => do
    let e ← r.load (physToVirt table + 8 * i)
    if e &&& pagePresent = 0 then return s
    else freeChild (e &&& pageMask) s) s

def freePageTable (freeFrame : ℕ → S → Except Halt S) (r : Ram) : ℕ → ℕ → S → Except Halt S
  | 0, table, s => do
    let s ← freeEntries r table freeFrame s
    freeFrame table s
  | level + 1, table, s => do
    let s ← freeEntries r table (freePageTable freeFrame r level) s
    freeFrame table s

def deleteMm (F : Services S) (mm : ℕ) (r : Ram) (s : S) : Except Halt (Ram × S) := do
  let pml4 ← r.load mm
  let s ← freePageTable F.freeFrame r 3 pml4 s
  F.kfree mm r s

/-- `current_mm` and the CR3 register. -/
structure Current where
  currentMm : ℕ
  cr3 : ℕ
  deriving DecidableEq

def swapMm (mm : ℕ) (r : Ram) (c : Current) : Except Halt Current :=
  if mm = 0 ∨ c.currentMm = mm then .ok c
  else do
    let pml4 ← r.load mm
    return ⟨mm, pml4⟩

end Fynaos.Vmm
