import Fynaos.Mm.Model
import Fynaos.Ram

/-!
# The boot loader's information

`init/main.c` and `multiboot2.h`. The boot loader passes a block of tags, each with its type and its size.
The block is copied to `multiboot_info_buffer`, at the address `buffer`, and the tags are visited there one
after the other. Records are read at their offsets in memory, and fields that nothing reads are left out.

`Infos.headers` is a ghost: the addresses of all headers that were looked at, the latest first.
-/

namespace Fynaos.Multiboot

/-- `sizeof(multiboot_info_buffer)` -/
abbrev infoBufferSize : ℕ := 8192 * 2

/-- `sizeof(struct multiboot2_tag_header)` -/
abbrev tagHeaderSize : ℕ := 8

/-- `MULTIBOOT2_TAG_END` -/
abbrev tagEnd : ℕ := 0

/-- `MULTIBOOT2_TAG_MEMORY_MAP` -/
abbrev tagMemoryMap : ℕ := 6

/-- `MULTIBOOT2_TAG_FRAMEBUFFER_INFORMATION` -/
abbrev tagFramebufferInformation : ℕ := 8

/-- A read through a pointer to an `n`-byte value. -/
def read (r : Ram) (a n : ℕ) : Except Halt ℕ :=
  if Canonical (wrap a) then .ok (Memory.load r.bytes (wrap a) n) else .error (.fault (wrap a))

def memcpy (dst src : ℕ) : ℕ → Ram → Except Halt Ram
  | 0, r => .ok r
  | c + 1, r => do
    let b ← read r src 1
    let r ← r.storeByte dst b
    memcpy (dst + 1) (src + 1) c r

def copyMultibootInfo (buffer info : ℕ) (r : Ram) : Except Halt Ram := do
  let totalSize ← read r info 4
  if infoBufferSize ≤ totalSize then .error (.panic "Bootloader information is too big.")
  else memcpy buffer info totalSize r

/-! ### Tags -/

/-- `multiboot_mmap_info` and `multiboot_framebuffer_info` -/
structure Infos where
  mmapInfo : ℕ
  framebufferInfo : ℕ
  headers : List ℕ
  deriving DecidableEq

/-- `MULTIBOOT2_FIRST_TAG` -/
def firstTag (info : ℕ) : ℕ := info + tagHeaderSize

/-- `MULTIBOOT2_NEXT_TAG` -/
def nextTag (tag size : ℕ) : ℕ := alignUp (tag + size) 8

/-- The `switch` on the type of the tag at `i`. -/
def visit (type i : ℕ) (s : Infos) : Infos :=
  if type = tagMemoryMap then { s with mmapInfo := i }
  else if type = tagFramebufferInformation then { s with framebufferInfo := i }
  else s

/-- The loop of `parse_multiboot_info`. -/
def parseLoop (r : Ram) : ℕ → ℕ → Infos → Except Halt Infos
  | 0, _, _ => .error .spin
  | fuel + 1, i, s => do
    let type ← read r i 4
    let s := { s with headers := i :: s.headers }
    if type = tagEnd then return s
    else do
      let s := visit type i s
      let size ← read r (i + 4) 4
      parseLoop r fuel (nextTag i size) s

def parseMultibootInfo (buffer fuel : ℕ) (r : Ram) (s : Infos) : Except Halt Infos :=
  parseLoop r fuel (firstTag buffer) s

/-! ### The memory map -/

/-- `sizeof(struct multiboot2_mmap_entry)` -/
abbrev mmapEntrySize : ℕ := 24

/-- `MULTIBOOT2_MMAP_ENTRY_COUNT`. A division by zero raises the exception 0. -/
def mmapEntryCount (r : Ram) (mmap : ℕ) : Except Halt ℕ := do
  let size ← read r (mmap + 4) 4
  let entrySize ← read r (mmap + 8) 4
  if entrySize = 0 then .error (.panic "Unhandled exception: vector=%llu")
  else return wrap (size + 2 ^ 64 - tagHeaderSize) / entrySize

/-- `entries[i]`, with the fields that `init_memory` reads. -/
def readEntry (r : Ram) (entries i : ℕ) : Except Halt MmapEntry := do
  let addr ← read r (entries + mmapEntrySize * i) 8
  let len ← read r (entries + mmapEntrySize * i + 8) 8
  let type ← read r (entries + mmapEntrySize * i + 16) 4
  return ⟨addr, len, type⟩

/-- The entries that `kmain` passes to `init_memory`. -/
def mmapEntries (r : Ram) (mmap : ℕ) : Except Halt (List MmapEntry) := do
  let count ← mmapEntryCount r mmap
  (List.range count).mapM (readEntry r (mmap + 16))

end Fynaos.Multiboot
