import Fynaos.Pmm.Model
import Fynaos.Pool.Model

/-!
# The heap on the frame allocator

`mm/pool.c` with the calls of `alloc_frames(0)` as calls of `mm/pmm.c`. The functions are those of the model of the
heap, where most often a list says which frames will come; here they come from the free lists.
-/

namespace Fynaos.Kernel

/-- The statics of `pmm.c` and of `pool.c`, and the interrupt flag. -/
structure Allocators where
  pmm : Pmm
  pools : ℕ
  tail : ℕ
  interrupts : Bool

/-- `pool.c` calls `alloc_frames(0)` of `pmm.c`. -/
instance : FrameSource Pmm where
  allocFrames := Fynaos.allocFrames 0

/-- The heap with its memory. -/
def Allocators.on (m : Allocators) (r : Ram) : Heap Pmm := ⟨r, m.pools, m.tail, m.pmm, m.interrupts⟩

def Allocators.ofHeap (h : Heap Pmm) : Allocators := ⟨h.frames, h.pools, h.tail, h.interrupts⟩

def kmalloc (fuel len : ℕ) (r : Ram) (m : Allocators) : Except Halt (ℕ × Ram × Allocators) := do
  let (addr, h) ← Fynaos.kmalloc fuel len (m.on r)
  return (addr, h.ram, .ofHeap h)

def kfree (addr : ℕ) (r : Ram) (m : Allocators) : Except Halt (Ram × Allocators) := do
  let h ← Fynaos.kfree addr (m.on r)
  return (h.ram, .ofHeap h)

def initPool (r : Ram) (m : Allocators) : Except Halt (Bool × Ram × Allocators) := do
  let (done, h) ← Fynaos.initPool (m.on r)
  return (done, h.ram, .ofHeap h)

end Fynaos.Kernel
