import Fynaos.Pmm.Model

/-!
# Handing memory over at boot

`init_memory` of `mm/mm.c`. It goes over the multiboot memory map four times: to choose the region
the boot allocator works in, to size the frame table, to unreserve the frames of usable memory, and
to hand these frames to the buddy allocator, less the kernel image and the boot allocations.
`init_kernel_mm` is empty and leaves no trace here. An entry's `reserved` word is not read.
-/

namespace Fynaos

/-- `struct multiboot2_mmap_entry` -/
structure MmapEntry where
  addr : ℕ
  len : ℕ
  type : ℕ
  deriving DecidableEq, Repr

/-- `kernel_image_phys_start` and `kernel_image_phys_end`, two symbols of the linker script. -/
structure KernelImage where
  physStart : ℕ
  physEnd : ℕ
  le : physStart ≤ physEnd

/-- One round of the first loop of `init_memory`, on `boot_begin`, `boot_limit` and `len`. -/
def chooseRound : ℕ × ℕ × ℕ → MmapEntry → ℕ × ℕ × ℕ
  | (bootBegin, bootLimit, len), e =>
    if len < e.len ∧ e.type = 1 then (e.addr, wrap (e.addr + e.len), e.len)
    else (bootBegin, bootLimit, len)

/-- The first loop of `init_memory`. -/
def chooseBoot (entries : List MmapEntry) : ℕ × ℕ × ℕ :=
  entries.foldl chooseRound (invalidAddress, invalidAddress, 0)

/-- One round of the second loop of `init_memory`. -/
def ramRound (ramLimit : ℕ) (e : MmapEntry) : ℕ :=
  let limit := wrap (e.addr + e.len)
  if ramLimit < limit ∧ e.type = 1 then limit else ramLimit

/-- The second loop of `init_memory`. -/
def ramLimit (entries : List MmapEntry) : ℕ := entries.foldl ramRound 0

/-- `boot_begin` behind the question whether the block contains the kernel image. -/
def bootBegin (image : KernelImage) (begin_ limit : ℕ) : ℕ :=
  if begin_ ≤ image.physStart ∧ image.physEnd ≤ limit then alignUp image.physEnd pageSize
  else begin_

/-- The page range that the last loop of `init_memory` passes to `init_buddy_allocator`. -/
def handOff (image : KernelImage) (bootBegin bootLimit bootTail : ℕ) (e : MmapEntry) : ℕ × ℕ :=
  let begin_ := e.addr
  let limit := wrap (begin_ + e.len)
  -- does the block contain the kernel image?
  let begin_ :=
    if begin_ ≤ image.physStart ∧ image.physEnd ≤ limit then alignUp image.physEnd pageSize
    else begin_
  -- is the block used by the boot allocator?
  let begin_ :=
    if begin_ ≤ bootBegin ∧ bootLimit ≤ limit then alignUp bootTail pageSize else begin_
  (begin_ >>> pageShift, limit >>> pageShift)

/-- The third loop of `init_memory`. -/
def unreserveUsable (entries : List MmapEntry) (s : Pmm) : Except Halt Pmm :=
  entries.foldlM (fun s e =>
    if e.type = 1 then
      unreserveFrameRegion (e.addr >>> pageShift) (wrap (e.addr + e.len) >>> pageShift) s
    else .ok s) s

/-- The last loop of `init_memory`. -/
def handOverUsable (image : KernelImage) (bootBegin bootLimit : ℕ) (boot : BootAlloc)
    (entries : List MmapEntry) (s : Pmm) : Except Halt Pmm :=
  entries.foldlM (fun s e =>
    if e.type ≠ 1 then .ok s
    else
      let (begin_, limit) := handOff image bootBegin bootLimit (getBootMemoryTail boot) e
      initBuddyAllocator begin_ limit s) s

def initMemory (image : KernelImage) (entries : List MmapEntry) : Except Halt (BootAlloc × Pmm) :=
  let (begin_, bootLimit, len) := chooseBoot entries
  if len = 0 then .error (.panic "failed to initialize the boot manager")
  else
    let bootBegin := bootBegin image begin_ bootLimit
    let boot := initBootAlloc bootBegin bootLimit
    let ramLimit := ramLimit entries
    if ramLimit = 0 then .error (.panic "failed to initialize the physical frames")
    else do
      let (boot, s) ← initFrames (ramLimit &&& pageMask) boot Pmm.zero
      let s ← unreserveUsable entries s
      let s ← handOverUsable image bootBegin bootLimit boot entries s
      return (boot, s)

end Fynaos
