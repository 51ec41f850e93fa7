import Fynaos.Ram

/-!
# The kernel heap

`mm/pool.c`. A pool is a page: a `struct pool` of 24 bytes and behind it a chain of blocks. A
`struct block` has three words, `header` (length, and usage in the top bit), `next` and `prev`, and
then `data`; the compiler pads it to 32 bytes. Pointers are addresses, `NULL` is 0.

The heap only ever asks the frame allocator for `alloc_frames(0)`. What answers is a parameter
(`FrameSource`). Most often it is the list of the frames that these calls will return, in order; behind
the last one they return `INVALID_ADDRESS`. The loops carry a bound: a chain of blocks in one page has
fewer than `PAGE_SIZE` elements, and the loop of `kmalloc` takes its bound as an argument.
-/

namespace Fynaos

/-- `sizeof(struct block)` -/
abbrev sizeofBlock : ℕ := 32

/-- The offset of `data` in `struct block`. -/
abbrev dataOffset : ℕ := 24

/-- `sizeof(struct pool)` -/
abbrev sizeofPool : ℕ := 24

def blockUsed : ℕ := 0x8000000000000000

def isBlockUsed (header : ℕ) : Bool := header &&& 0x8000000000000000 ≠ 0

def getBlockLen (header : ℕ) : ℕ := header &&& 0x7FFFFFFFFFFFFFFF

/-- 64-bit subtraction. -/
def wrapSub (a b : ℕ) : ℕ := wrap (a + (2 ^ 64 - b))

/-- What the calls of `alloc_frames(0)` take the frames from. -/
class FrameSource (S : Type) where
  allocFrames : S → Except Halt (ℕ × S)

instance : FrameSource (List ℕ) where
  allocFrames
    | [] => .ok (invalidAddress, [])
    | page :: frames => .ok (page, frames)

/-- `pools`, `tail`, the memory behind them, the frames to come and the interrupt flag. -/
@[ext]
structure Heap (S : Type := List ℕ) where
  ram : Ram
  pools : ℕ
  tail : ℕ
  frames : S
  interrupts : Bool

/-! ### Blocks -/

def divide (block dataLen : ℕ) (r : Ram) : Except Halt (Bool × Ram) := do
  let header ← r.load block
  if getBlockLen header ≤ wrap (dataLen + sizeofBlock) then return (false, r)
  let block1 := block
  let block2 := wrap (block1 + dataLen + sizeofBlock)
  let next ← r.load (block1 + 8)
  let header ← r.load block
  let r ← r.store block2 (wrapSub (getBlockLen header) (wrap (dataLen + sizeofBlock)))
  let r ← r.store block1 (wrap (dataLen + sizeofBlock))
  let r ← r.store (block1 + 8) block2
  let r ← r.store (block2 + 8) next
  let r ← r.store (block2 + 16) block1
  if next ≠ 0 then do
    let r ← r.store (next + 16) block2
    return (true, r)
  return (true, r)

def merge (block : ℕ) (r : Ram) : Except Halt Ram := do
  let first := block
  let second ← r.load (block + 8)
  let header1 ← r.load first
  let header2 ← r.load second
  let r ← r.store first (wrap (header1 + header2))
  let next ← r.load (second + 8)
  let r ← r.store (first + 8) next
  let next ← r.load (second + 8)
  if next ≠ 0 then r.store (next + 16) first
  else return r

/-- The loop of `allocate`: the first free block of at least `need` bytes, or `NULL`. -/
def findBlock (r : Ram) (need : ℕ) : ℕ → ℕ → Except Halt ℕ
  | fuel, first =>
    if first = 0 then .ok 0
    else
      match fuel with
      | 0 => .error .spin
      | fuel + 1 => do
        let header ← r.load first
        if ¬ isBlockUsed header ∧ need ≤ getBlockLen header then return first
        let next ← r.load (first + 8)
        findBlock r need fuel next

def allocate (first len : ℕ) (r : Ram) : Except Halt (ℕ × Ram) := do
  let len := alignUp len 16
  let first ← findBlock r (wrap (len + sizeofBlock)) pageSize first
  if first = 0 then return (0, r)
  let header ← r.load first
  if isBlockUsed header then return (0, r)
  let header ← r.load first
  let r ← if len < wrapSub (getBlockLen header) sizeofBlock then do
      let (_, r) ← divide first len r
      pure r
    else pure r
  let header ← r.load first
  let r ← r.store first (header ||| blockUsed)
  return (wrap (first + dataOffset), r)

/-! ### Pools -/

def initSinglePool (pool len : ℕ) (r : Ram) : Except Halt Ram := do
  let r ← r.store pool len
  let r ← r.store (pool + 16) 0
  let r ← r.store (pool + 8) 0
  let first := pool + sizeofPool
  let r ← r.store first (wrapSub len sizeofPool)
  let r ← r.store (first + 8) 0
  r.store (first + 16) 0

section pools
variable {S : Type}

/-- `alloc_frames(0)`, as the heap sees it. -/
def Heap.allocFrame [FrameSource S] (h : Heap S) : Except Halt (ℕ × Heap S) := do
  let (page, frames) ← FrameSource.allocFrames h.frames
  return (page, { h with frames := frames })

def extendPool [FrameSource S] (h : Heap S) : Except Halt (Bool × Heap S) := do
  let (page, h) ← h.allocFrame
  if page = invalidAddress then return (false, h)
  let r ← zeroPage page h.ram
  let r ← r.store (h.tail + 16) (physToVirt page)
  let pool ← r.load (h.tail + 16)
  let r ← initSinglePool pool pageSize r
  let tail ← r.load (h.tail + 16)
  return (true, { h with ram := r, tail := tail })

/-- The loop of `kmalloc` from `pool` on; no address means the way out at `return NULL`. -/
def kmallocLoop [FrameSource S] (len : ℕ) : ℕ → ℕ → Heap S → Except Halt (Option ℕ × Heap S)
  | 0, _, _ => .error .spin
  | fuel + 1, pool, h => do
    let (addr, r) ← allocate (pool + sizeofPool) len h.ram
    let h := { h with ram := r }
    if addr ≠ 0 then return (some addr, h)
    let next ← h.ram.load (pool + 16)
    if next = 0 then do
      let (extended, h) ← extendPool h
      if extended then do
        let next ← h.ram.load (pool + 16)
        kmallocLoop len fuel next h
      else return (none, h)
    else kmallocLoop len fuel next h

/-- `kmalloc`. The flags saved on entry are not restored on the way out at `return NULL`. -/
def kmalloc [FrameSource S] (fuel len : ℕ) (h : Heap S) : Except Halt (ℕ × Heap S) := do
  let flags := h.interrupts
  let h := { h with interrupts := false }
  let (addr, h) ← kmallocLoop len fuel h.pools h
  match addr with
  | some addr => return (addr, { h with interrupts := flags })
  | none => return (0, h)

def kfree (addr : ℕ) (h : Heap S) : Except Halt (Heap S) := do
  if addr = 0 then return h
  let block := wrapSub addr sizeofBlock
  let header ← h.ram.load block
  if ¬ isBlockUsed header then .error (.panic "Double free detected")
  let r ← h.ram.store block (header &&& lnot blockUsed)
  let next ← r.load (block + 8)
  let r ← if next ≠ 0 then do
      let nextHeader ← r.load next
      if ¬ isBlockUsed nextHeader then merge block r else pure r
    else pure r
  let prev ← r.load (block + 16)
  if prev ≠ 0 then do
    let prevHeader ← r.load prev
    if ¬ isBlockUsed prevHeader then do
      let r ← merge prev r
      return { h with ram := r }
    return { h with ram := r }
  return { h with ram := r }

def initPool [FrameSource S] (h : Heap S) : Except Halt (Bool × Heap S) := do
  let (page, h) ← h.allocFrame
  if page = invalidAddress then return (false, h)
  let r ← zeroPage page h.ram
  let pools := physToVirt page
  let r ← initSinglePool pools pageSize r
  return (true, { h with ram := r, pools := pools, tail := pools })

end pools

end Fynaos
