import Fynaos.Types

/-!
# The boot allocator and the physical frame allocator

`mm/boot.c` and `mm/pmm.c`. The frame table `mm_frames` is an array of `struct frame` records at a
virtual address; a `struct frame *` is the index of its record, and `NULL` is `none`. Every access
to a record goes through `Pmm.access`: the address must be canonical (otherwise the processor
raises an exception and the kernel panics), and the index must lie inside the table (an access past
it is `Halt.wild`). `mm_free_region` is a function on orders, used at `0 .. FRAME_MAX_ORDER`.

Loops over the free lists and over orders carry a bound that the code's own data gives: the table's
length for a list, the distance to `FRAME_MAX_ORDER` for an order. A loop that outlives its bound is
`Halt.spin`.
-/

namespace Fynaos

/-- `boot_begin`, `boot_tail` and `boot_limit` of `boot.c`. -/
structure BootAlloc where
  bootBegin : ℕ
  bootTail : ℕ
  bootLimit : ℕ
  deriving DecidableEq, Repr

def initBootAlloc (begin_ limit : ℕ) : BootAlloc := ⟨begin_, begin_, limit⟩

/-- `alloc_boot_memory`: the pointer and the allocator behind it. -/
def allocBootMemory (len align : ℕ) (boot : BootAlloc) : Except Halt (ℕ × BootAlloc) :=
  let tail := alignUp boot.bootTail align
  if boot.bootLimit ≤ wrap (tail + len) then .error (.panic "failed to allocate boot memory")
  else .ok (wrap (tail + kernelDirectBase), { boot with bootTail := wrap (tail + len) })

def getBootMemoryTail (boot : BootAlloc) : ℕ := boot.bootTail

/-- `struct frame` -/
structure Frame where
  next : Option ℕ
  flags : BitVec 32
  order : ℤ
  deriving DecidableEq, Repr

/-- `sizeof(struct frame)` -/
abbrev sizeofFrame : ℕ := 16

/-- `mm_frames` (the pointer and the records behind it), `mm_frames_count` and `mm_free_region`. -/
structure Pmm where
  mmFramesAddr : ℕ
  mmFrames : ℕ → Frame
  mmFramesCount : ℕ
  mmFreeRegion : ℕ → Option ℕ

namespace Pmm

/-- The statics before `init_frames`: the free lists are empty, there is no table yet. -/
def zero : Pmm := ⟨0, fun _ => ⟨none, 0, 0⟩, 0, fun _ => none⟩

def frameAddr (s : Pmm) (i : ℕ) : ℕ := wrap (s.mmFramesAddr + sizeofFrame * i)

/-- The check every access to `mm_frames[i]` passes. -/
def access (s : Pmm) (i : ℕ) : Except Halt Unit :=
  if s.mmFramesCount ≤ i then .error (.wild i)
  else if Canonical (s.frameAddr i) then .ok ()
  else .error (.fault (s.frameAddr i))

/-- `mm_frames[i]` as a value. -/
def read (s : Pmm) (i : ℕ) : Except Halt Frame := do
  s.access i
  return s.mmFrames i

/-- An assignment to fields of `mm_frames[i]`. -/
def modify (s : Pmm) (i : ℕ) (f : Frame → Frame) : Except Halt Pmm := do
  s.access i
  return { s with mmFrames := Function.update s.mmFrames i (f (s.mmFrames i)) }

/-- An assignment to `mm_free_region[k]`. -/
def setRegion (s : Pmm) (k : ℕ) (head : Option ℕ) : Pmm :=
  { s with mmFreeRegion := Function.update s.mmFreeRegion k head }

end Pmm

/-- The record a pointer points to. -/
def deref : Option ℕ → Except Halt ℕ
  | none => .error .null
  | some i => .ok i

/-- An `int` order as an index of `mm_free_region` or as a shift count below it. -/
def regionIndex (order : ℤ) : Except Halt ℕ :=
  if 0 ≤ order ∧ order ≤ frameMaxOrder then .ok order.toNat else .error (.badOrder order)

/-! ### Setting up the table -/

/-- `init_frames`: the table is taken from the boot allocator and every record is reset. The result
`!!mm_frames` has no reader. -/
def initFrames (limit : ℕ) (boot : BootAlloc) (s : Pmm) : Except Halt (BootAlloc × Pmm) := do
  let count := limit >>> pageShift
  let (addr, boot) ← allocBootMemory (wrap (count * sizeofFrame)) 16 boot
  let s := { s with mmFramesCount := count, mmFramesAddr := addr }
  let s ← (List.range count).foldlM
    (fun s i => s.modify i fun _ => ⟨none, frameReserved, -1⟩) s
  return (boot, s)

def unreserveFrameRegion (begin_ limit : ℕ) (s : Pmm) : Except Halt Pmm :=
  (List.range' begin_ (limit - begin_)).foldlM
    (fun s i => s.modify i fun f => { f with flags := f.flags &&& ~~~frameReserved }) s

/-- The loop of `get_max_order` from `order` downwards. -/
def getMaxOrderFrom (begin_ limit : ℕ) : ℕ → ℕ
  | 0 => 0 -- order 0 is returned, by the loop or behind it
  | order + 1 =>
    let count := 2 ^ (order + 1)
    if begin_ &&& (count - 1) ≠ 0 then getMaxOrderFrom begin_ limit order
    else if limit ≤ wrap (begin_ + count) then getMaxOrderFrom begin_ limit order
    else order + 1

def getMaxOrder (begin_ limit : ℕ) : ℕ := getMaxOrderFrom begin_ limit frameMaxOrder

/-- One round of `init_buddy_allocator`: the block at `begin` joins the list of its order. -/
def putInitial (begin_ order : ℕ) (s : Pmm) : Except Halt Pmm := do
  let s ← s.modify begin_ fun f => { f with order := order }
  let s ← s.modify begin_ fun f => { f with next := s.mmFreeRegion order }
  return s.setRegion order (some begin_)

/-- The loop of `init_buddy_allocator`. -/
def initBuddyLoop : ℕ → ℕ → ℕ → Pmm → Except Halt Pmm
  | fuel, begin_, limit, s =>
    if begin_ < limit then
      match fuel with
      | 0 => .error .spin
      | fuel + 1 => do
        let order := getMaxOrder begin_ limit
        let s ← putInitial begin_ order s
        initBuddyLoop fuel (wrap (begin_ + 2 ^ order)) limit s
    else .ok s

def initBuddyAllocator (begin_ limit : ℕ) (s : Pmm) : Except Halt Pmm :=
  initBuddyLoop (limit - begin_) begin_ limit s

/-! ### Splitting and merging -/

/-- The search of `remove_frame_from_list`: `cur` and `prev` when it stops. -/
def findFrame (s : Pmm) (frame : ℕ) :
    ℕ → Option ℕ → Option ℕ → Except Halt (Option ℕ × Option ℕ)
  | _, none, prev => .ok (none, prev)
  | 0, some _, _ => .error .spin
  | fuel + 1, some cur, prev =>
    if cur = frame then .ok (some cur, prev)
    else do
      let c ← s.read cur
      findFrame s frame fuel c.next (some cur)

def removeFrameFromList (frame : ℕ) (s : Pmm) : Except Halt Pmm := do
  let f ← s.read frame
  let k ← regionIndex f.order
  let (cur, prev) ← findFrame s frame (s.mmFramesCount + 1) (s.mmFreeRegion k) none
  match cur with
  | none => .error (.panic "Trying to remove not existing frame in list")
  | some cur => do
    let c ← s.read cur
    match prev with
    | some prev => s.modify prev fun p => { p with next := c.next }
    | none => return s.setRegion k c.next

def divideBuddy (order : ℕ) (s : Pmm) : Except Halt Pmm := do
  let frame ← deref (s.mmFreeRegion order)
  let buddy := frame + 2 ^ (order - 1)
  let f ← s.read frame
  let s := s.setRegion order f.next
  let s ← s.modify buddy fun b => { b with order := order - 1 }
  let s ← s.modify frame fun f => { f with order := order - 1 }
  let f ← s.read frame
  let s ← s.modify buddy fun b => { b with flags := f.flags }
  let s ← s.modify buddy fun b => { b with next := s.mmFreeRegion (order - 1) }
  let s ← s.modify frame fun f => { f with next := some buddy }
  return s.setRegion (order - 1) (some frame)

/-- The loop of `merge_buddy`: the frame at which it stops. -/
def mergeLoop : ℕ → ℕ → Pmm → Except Halt (ℕ × Pmm)
  | fuel, frame, s => do
    let f ← s.read frame
    if f.order < frameMaxOrder then
      match fuel with
      | 0 => .error .spin
      | fuel + 1 => do
        let order ← regionIndex f.order
        let buddyPfn := frame ^^^ 2 ^ order
        if s.mmFramesCount ≤ buddyPfn then return (frame, s)
        let b ← s.read buddyPfn
        if b.order ≠ f.order then return (frame, s)
        if b.flags &&& (frameAllocated ||| frameReserved) ≠ 0 then return (frame, s)
        let s ← removeFrameFromList buddyPfn s
        let frame := if buddyPfn < frame then buddyPfn else frame
        let s ← s.modify frame fun f => { f with order := f.order + 1 }
        mergeLoop fuel frame s
    else return (frame, s)

def mergeBuddy (pfn : ℕ) (s : Pmm) : Except Halt Pmm := do
  let f ← s.read pfn
  let (frame, s) ← mergeLoop (frameMaxOrder - f.order).toNat pfn s
  let f ← s.read frame
  let k ← regionIndex f.order
  let s ← s.modify frame fun f => { f with next := s.mmFreeRegion k }
  return s.setRegion k (some frame)

/-! ### Allocation -/

/-- The first loop of `alloc_frames`: `n` orders are left below `FRAME_MAX_ORDER`. -/
def findOrder (s : Pmm) : ℕ → ℕ → ℕ
  | 0, order => order
  | n + 1, order => if (s.mmFreeRegion order).isSome then order else findOrder s n (order + 1)

/-- The second loop of `alloc_frames`: divide at `order + n`, ..., `order + 1`. -/
def divideDown (order : ℕ) : ℕ → Pmm → Except Halt Pmm
  | 0, s => .ok s
  | n + 1, s => do
    let s ← divideBuddy (order + (n + 1)) s
    divideDown order n s

def allocFrames (order : ℕ) (s : Pmm) : Except Halt (ℕ × Pmm) := do
  let current := findOrder s (frameMaxOrder - order) order
  match s.mmFreeRegion current with
  | none => return (invalidAddress, s)
  | some _ => do
    let s ← divideDown order (current - order) s
    let frame ← deref (s.mmFreeRegion order)
    let f ← s.read frame
    let s := s.setRegion order f.next
    let s ← s.modify frame fun f => { f with flags := f.flags ||| frameAllocated }
    return (wrap (frame <<< pageShift), s)

def freeFrame (addr : ℕ) (s : Pmm) : Except Halt Pmm := do
  let pfn := addr >>> pageShift
  let s ← s.modify pfn fun f => { f with flags := f.flags &&& ~~~frameAllocated }
  mergeBuddy pfn s

end Fynaos
