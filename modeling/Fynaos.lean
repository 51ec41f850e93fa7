import Fynaos.Pmm.Coalescing
import Fynaos.Pmm.Merging
import Fynaos.Pmm.Maximal
import Fynaos.Mm.HandOff
import Fynaos.Pool.Undo
import Fynaos.Pool.FirstFit
import Fynaos.Pool.Coalescing
import Fynaos.Vmm.Refinement
import Fynaos.Vmm.Deletion
import Fynaos.Vmm.Erasure
import Fynaos.Vmm.CurrentMm
import Fynaos.Vmm.Exhaustion
import Fynaos.Snprintf.Needed
import Fynaos.Snprintf.Reference
import Fynaos.Snprintf.Scan
import Fynaos.Snprintf.Readback
import Fynaos.Interrupt.Dispatch
import Fynaos.Interrupt.Flag
import Fynaos.Vmm.Boot
import Fynaos.Multiboot.Malformed
import Fynaos.Multiboot.MemoryMap
import Fynaos.Fbcon.Outside
import Fynaos.Fbcon.Refinement
import Fynaos.Fbcon.Canvas
import Fynaos.Cpu.Service
import Fynaos.Cpu.Threads
import Fynaos.Kernel.Runs
import Fynaos.Log.Transcript
