import Fynaos.Mm.Layout
import Fynaos.Pmm.Conservation

/-!
# What `init_memory` gives away

Three questions about the state in which `init_memory` returns, all answered from `Booted`: whether
the hand-off fits the frame table (`boot_hand_off`, for page-aligned maps), whether only usable
memory is handed out (`onlyUsable_iff`), and whether the kernel image is kept (`kernelSafe_iff`).

The last two do not hold of every map. A page range begins at `addr >> PAGE_SHIFT`, the page of the
first byte, so the bytes of that page in front of the entry are given away with it. And the tests
for the kernel image ask whether one entry contains all of it; an image that only reaches into an
entry is overlooked, by the boot allocator as well as by the hand-off.
-/

namespace Fynaos

open Buddy

def Pmm.tablePhys (s : Pmm) : ℕ := wrap (s.mmFramesAddr + (2 ^ 64 - kernelDirectBase))

def Pmm.tableBytes (s : Pmm) : Set ℕ :=
  Set.Ico s.tablePhys (s.tablePhys + s.mmFramesCount * sizeofFrame)

def usableBytes (entries : List MmapEntry) : Set ℕ := {y | ∃ e ∈ usable entries, y ∈ e.bytes}

variable {image : KernelImage} {entries : List MmapEntry} {boot : BootAlloc} {s : Pmm}
  {e E : MmapEntry} {x : ℕ}

namespace Booted

theorem given_eq (h : Booted image entries boot s E) (he : e ∈ usable entries) :
    handOff image boot.bootBegin boot.bootLimit boot.bootTail e =
      (givenBegin image boot.bootTail E e, (e.addr + e.len) / 4096) := by
  have hstart := h.start_le
  have htail := h.tail_eq
  rw [h.limit_eq]
  exact handOff_eq h.map he (bootEntry_spec h.entry).1 h.limit_lt h.begin_eq (by omega) h.tail_lt

theorem mem_given (h : Booted image entries boot s E) :
    x ∈ cells (givenPages image boot entries) ↔ ∃ e ∈ usable entries,
      givenBegin image boot.bootTail E e ≤ x ∧ x < (e.addr + e.len) / 4096 := by
  constructor
  · rintro ⟨r, hr, hx⟩
    obtain ⟨e, he, rfl⟩ := List.mem_map.mp hr
    rw [h.given_eq he] at hx
    exact ⟨e, he, hx⟩
  · rintro ⟨e, he, hx⟩
    refine ⟨_, List.mem_map_of_mem he, ?_⟩
    rw [h.given_eq he]
    exact hx

theorem kept (h : Booted image entries boot s E) :
    Kept (fun _ => False) (cells (givenPages image boot entries)) ⟨s, []⟩ := by
  obtain ⟨L, hcore⟩ := h.core
  exact hcore.kept_start fun _ _ _ _ => not_false

theorem mem_freeCells (h : Booted image entries boot s E) :
    x ∈ s.freeCells ↔ ∃ e ∈ usable entries,
      givenBegin image boot.bootTail E e ≤ x ∧ x < (e.addr + e.len) / 4096 := by
  rw [h.kept.mem_freeCells, h.mem_given]
  simp

theorem addr_le_tail (h : Booted image entries boot s E) : E.addr ≤ boot.bootTail := by
  have h1 := h.begin_le
  have h2 := h.start_le
  have h3 := h.tail_eq
  omega

theorem tableBytes_eq (h : Booted image entries boot s E) :
    s.tableBytes = Set.Ico (alignUp boot.bootBegin 16) boot.bootTail := by
  have hlt := h.limit_lt E (bootEntry_spec h.entry).1
  have htail := h.tail_lt
  have heq := h.tail_eq
  have hphys : s.tablePhys = alignUp boot.bootBegin 16 := by
    rw [Pmm.tablePhys, h.tableAddr]
    simp only [wrap, kernelDirectBase]
    omega
  rw [Pmm.tableBytes, hphys, heq]

theorem pages_le_count (h : Booted image entries boot s E) (he : e ∈ usable entries) :
    (e.addr + e.len) / 4096 ≤ s.mmFramesCount := by
  rw [h.count]
  exact Nat.div_le_div_right (h.map.le_ramLimit he)

theorem mem_unreserved (h : Booted image entries boot s E) :
    x ∈ cells ((usable entries).map entryPages) ↔ ∃ e ∈ usable entries,
      e.addr / 4096 ≤ x ∧ x < (e.addr + e.len) / 4096 := by
  constructor
  · rintro ⟨r, hr, hx⟩
    obtain ⟨e, he, rfl⟩ := List.mem_map.mp hr
    rw [h.map.entryPages_eq he] at hx
    exact ⟨e, he, hx⟩
  · rintro ⟨e, he, hx⟩
    refine ⟨_, List.mem_map_of_mem he, ?_⟩
    rw [h.map.entryPages_eq he]
    exact hx

end Booted

/-! ### Returning at all -/

theorem initMemory_error {h : Halt} (hmap : UsableMap entries)
    (hrun : initMemory image entries = .error h) :
    (∃ msg, h = .panic msg) ∨ ∃ address, h = .fault address := by
  cases hE : bootEntry entries with
  | none =>
    rw [initMemory, chooseBoot_eq, hE] at hrun
    simp only [bootTriple, if_true] at hrun
    cases hrun
    exact Or.inl ⟨_, rfl⟩
  | some E =>
    rw [initMemory_eq hmap hE] at hrun
    cases hinit : initFrames (ramLimit entries &&& pageMask)
        (initBootAlloc (bootBegin image E.addr (E.addr + E.len)) (E.addr + E.len)) Pmm.zero with
    | error e =>
      rw [hinit] at hrun
      cases hrun
      exact initFrames_error hinit
    | ok p =>
      obtain ⟨boot, s₁⟩ := p
      obtain ⟨s₂, s', hrun₁, hrun₂, -⟩ := booted_of_initFrames hmap hE rfl hinit
      rw [hinit] at hrun
      simp only [bind, Except.bind, hrun₁, hrun₂] at hrun
      cases hrun

/-- `init_memory` returns when the frame table fits into the boot entry, behind the kernel image, and
below `2 ^ 48`. -/
theorem initMemory_returns (hmap : UsableMap entries) (hE : bootEntry entries = some E) {start : ℕ}
    (hstart : start = alignUp (bootBegin image E.addr (E.addr + E.len)) 16)
    (hfit : start + ramLimit entries / 4096 * 16 < E.addr + E.len)
    (h48 : start + ramLimit entries / 4096 * 16 ≤ 2 ^ 48) :
    ∃ boot s, initMemory image entries = .ok (boot, s) := by
  have hpages : (ramLimit entries &&& pageMask) / 4096 = ramLimit entries / 4096 := by
    rw [land_pageMask (ramLimit_lt entries), Nat.mul_div_cancel _ (by norm_num)]
  subst hstart
  obtain ⟨boot, s₁, hinit⟩ : ∃ boot s₁, initFrames (ramLimit entries &&& pageMask)
      (initBootAlloc (bootBegin image E.addr (E.addr + E.len)) (E.addr + E.len)) Pmm.zero =
        .ok (boot, s₁) := by
    apply initFrames_ok
    · rw [hpages]
      exact hfit
    · rw [hpages]
      exact h48
  obtain ⟨s₂, s, hrun₁, hrun₂, -⟩ := booted_of_initFrames hmap hE rfl hinit
  refine ⟨boot, s, ?_⟩
  rw [initMemory_eq hmap hE, hinit]
  simp only [bind, Except.bind, hrun₁, hrun₂]
  rfl

/-! ### The hand-off of a page-aligned map -/

def PageAligned (entries : List MmapEntry) : Prop :=
  ∀ e ∈ usable entries, 4096 ∣ e.addr ∧ 4096 ∣ e.len

instance (entries : List MmapEntry) : Decidable (PageAligned entries) :=
  inferInstanceAs (Decidable (∀ _ ∈ _, _))

/-- The hand-off of `init_memory`: free frames have a record and avoid the frame table, no frame is
free twice, and an entry with neither the kernel image nor the boot region is free as a whole. -/
structure HandedOff (image : KernelImage) (entries : List MmapEntry) (boot : BootAlloc) (s : Pmm) :
    Prop where
  indexed : ∀ x ∈ s.freeCells, x < s.mmFramesCount
  table : ∀ x ∈ s.freeCells, Disjoint (frameBytes x) s.tableBytes
  once : s.freeBlocks.Pairwise fun b c => Disjoint b.span c.span
  whole : ∀ e ∈ usable entries, ¬ e.Contains image →
    ¬ (e.addr ≤ boot.bootBegin ∧ boot.bootLimit ≤ e.addr + e.len) →
    ∀ x, frameBytes x ⊆ e.bytes → ∃! b, b ∈ s.freeBlocks ∧ x ∈ b.span

theorem Booted.free_unique (h : Booted image entries boot s E) {b c : Block}
    (hb : b ∈ s.freeBlocks) (hc : c ∈ s.freeBlocks) (hxb : x ∈ b.span) (hxc : x ∈ c.span) :
    b = c := by
  obtain ⟨L, hcore, -⟩ := h.kept.core
  exact hcore.tiling.eq_of_meet (Or.inl (hcore.mem_freeBlocks.mp hb))
    (Or.inl (hcore.mem_freeBlocks.mp hc)) hxb hxc

theorem Booted.handedOff (h : Booted image entries boot s E) (hal : PageAligned entries) :
    HandedOff image entries boot s := by
  obtain ⟨hE, hlen⟩ := bootEntry_spec h.entry
  refine ⟨fun x hx => ?_, fun x hx => ?_, ?_, fun e he himage hboot x hx => ?_⟩
  · obtain ⟨e, he, -, hlt⟩ := h.mem_freeCells.mp hx
    exact lt_of_lt_of_le hlt (h.pages_le_count he)
  · obtain ⟨e, he, hle, hlt⟩ := h.mem_freeCells.mp hx
    have hstart := h.begin_le
    have hstart' := h.start_le
    have htail := h.tail_lt
    rw [h.tableBytes_eq, frameBytes, Set.Ico_disjoint_Ico]
    by_cases heE : e = E
    · -- the boot entry is given away behind the boot allocations
      rw [givenBegin, if_pos heE] at hle
      omega
    · -- the frames of another entry lie inside that entry
      have hbegin := (addr_le_givenBegin h.addr_le_tail).trans hle
      have hdvd := hal e he
      have hdisj := h.map.disjoint_of_ne he hE heE
      rw [MmapEntry.bytes, MmapEntry.bytes, Set.Ico_disjoint_Ico] at hdisj
      omega
  · have hpair := h.kept.conserved.disjoint
    rwa [List.append_nil] at hpair
  · have hne : e ≠ E := by
      rintro rfl
      exact hboot ⟨h.begin_le, h.limit_eq.le⟩
    have hfirst : x * 4096 ∈ e.bytes := hx ⟨le_refl _, by omega⟩
    have hlast : x * 4096 + 4095 ∈ e.bytes := hx ⟨by omega, by omega⟩
    have hfree : x ∈ s.freeCells := by
      refine h.mem_freeCells.mpr ⟨e, he, ?_⟩
      rw [givenBegin, if_neg hne, if_neg himage]
      have h1 := hfirst.1
      have h2 := hlast.2
      omega
    obtain ⟨b, hb, hxb⟩ := hfree
    exact ⟨b, ⟨hb, hxb⟩, fun c hc => h.free_unique hc.1 hb hc.2 hxb⟩

/-- On a page-aligned map `init_memory` panics, faults or returns with a sound hand-off; no index
into `mm_frames` ever leaves the table. -/
theorem boot_hand_off (image : KernelImage) (hmap : UsableMap entries) (hal : PageAligned entries) :
    (∀ h, initMemory image entries = .error h →
      (∃ msg, h = .panic msg) ∨ ∃ address, h = .fault address) ∧
    ∀ boot s, initMemory image entries = .ok (boot, s) → HandedOff image entries boot s := by
  refine ⟨fun h hrun => initMemory_error hmap hrun, fun boot s hrun => ?_⟩
  obtain ⟨E, hbooted⟩ := initMemory_booted hmap hrun
  exact hbooted.handedOff hal

/-- Low memory, a reserved hole, and a large entry. -/
def pcMap : List MmapEntry := [⟨0, 0x3000, 1⟩, ⟨0x3000, 0x1000, 2⟩, ⟨0x4000, 0xC000, 1⟩]

theorem pcMap_usable : UsableMap pcMap :=
  ⟨by decide, by simp [pcMap, usable, MmapEntry.bytes, Set.Ico_disjoint_Ico]⟩

/-- The kernel image inside the large entry of `pcMap`. -/
def pcImage : KernelImage := ⟨0x6000, 0x8800, by decide⟩

theorem pcMap_returns : ∃ boot s, initMemory pcImage pcMap = .ok (boot, s) :=
  initMemory_returns pcMap_usable rfl rfl (by decide) (by decide)

theorem boot_hand_off_pc :
    (∃ boot s, initMemory pcImage pcMap = .ok (boot, s) ∧ HandedOff pcImage pcMap boot s) ∧
      ∀ h, initMemory pcImage pcMap = .error h →
        (∃ msg, h = .panic msg) ∨ ∃ address, h = .fault address := by
  obtain ⟨herror, hok⟩ := boot_hand_off pcImage pcMap_usable (by decide)
  obtain ⟨boot, s, hrun⟩ := pcMap_returns
  exact ⟨⟨boot, s, hrun, hok boot s hrun⟩, herror⟩

/-! ### Only usable memory -/

/-- Every frame that is free or unreserved lies inside the usable entries. -/
def OnlyUsable (entries : List MmapEntry) (s : Pmm) : Prop :=
  ∀ x < s.mmFramesCount,
    x ∈ s.freeCells ∨ (s.mmFrames x).flags &&& frameReserved = 0 →
      frameBytes x ⊆ usableBytes entries

/-- The bytes in front of an entry, down to the page boundary, are usable, unless the entry ends in
that page. -/
def FirstPagesUsable (entries : List MmapEntry) : Prop :=
  ∀ e ∈ usable entries, e.addr / 4096 < (e.addr + e.len) / 4096 →
    Set.Ico (e.addr / 4096 * 4096) e.addr ⊆ usableBytes entries

theorem Booted.frame_usable (h : Booted image entries boot s E) (hfirst : FirstPagesUsable entries)
    (hx : x < s.mmFramesCount) (hgiven : x ∈ s.freeCells ∨ (s.mmFrames x).flags &&& frameReserved = 0) :
    frameBytes x ⊆ usableBytes entries := by
  intro y hy
  -- free frames are unreserved ones
  have hmem : x ∈ cells ((usable entries).map entryPages) := by
    rcases hgiven with hfree | hclear
    · obtain ⟨e, he, hle, hlt⟩ := h.mem_freeCells.mp hfree
      exact h.mem_unreserved.mpr ⟨e, he, (addr_le_givenBegin h.addr_le_tail).trans hle, hlt⟩
    · exact (h.reserved x hx).mp hclear
  obtain ⟨e, he, hle, hlt⟩ := h.mem_unreserved.mp hmem
  rw [mem_frameBytes] at hy
  rcases Nat.lt_or_ge y e.addr with hbefore | hafter
  · exact hfirst e he (by omega) ⟨by omega, hbefore⟩
  · exact ⟨e, he, hafter, by omega⟩

/-- `init_memory` gives out usable memory only, exactly when the first page of each usable entry is
usable from its beginning. -/
theorem onlyUsable_iff (hmap : UsableMap entries)
    (hrun : initMemory image entries = .ok (boot, s)) :
    OnlyUsable entries s ↔ FirstPagesUsable entries := by
  obtain ⟨E, h⟩ := initMemory_booted hmap hrun
  constructor
  · intro honly e he hpage y hy
    have hcount := h.pages_le_count he
    have hmem : e.addr / 4096 ∈ cells ((usable entries).map entryPages) :=
      h.mem_unreserved.mpr ⟨e, he, le_refl _, hpage⟩
    have hclear := (h.reserved _ (by omega)).mpr hmem
    refine honly _ (by omega) (Or.inr hclear) ⟨hy.1, ?_⟩
    have := hy.2
    omega
  · exact fun hfirst x hx hgiven => h.frame_usable hfirst hx hgiven

theorem pcMap_firstPagesUsable : FirstPagesUsable pcMap := by
  intro e he hpage
  have haddr : ∀ e ∈ usable pcMap, e.addr / 4096 * 4096 = e.addr := by decide
  rw [haddr e he, Set.Ico_self]
  exact Set.empty_subset _

theorem onlyUsable_iff_pc : ∃ boot s, initMemory pcImage pcMap = .ok (boot, s) ∧ OnlyUsable pcMap s := by
  obtain ⟨boot, s, hrun⟩ := pcMap_returns
  exact ⟨boot, s, hrun, (onlyUsable_iff pcMap_usable hrun).mpr pcMap_firstPagesUsable⟩

/-- An entry that begins in the middle of frame 0. -/
def midPageMap : List MmapEntry := [⟨0x800, 0x2800, 1⟩, ⟨0x4000, 0xC000, 1⟩]

/-- Frame 0 is on a free list, although its first half is not usable. -/
theorem midPageMap_not_onlyUsable : ∃ boot s, initMemory pcImage midPageMap = .ok (boot, s) ∧
    0 ∈ s.freeCells ∧ 0 ∈ frameBytes 0 ∧ 0 ∉ usableBytes midPageMap ∧
    ¬ OnlyUsable midPageMap s := by
  have hmap : UsableMap midPageMap :=
    ⟨by decide, by simp [midPageMap, usable, MmapEntry.bytes, Set.Ico_disjoint_Ico]⟩
  obtain ⟨boot, s, hrun⟩ : ∃ boot s, initMemory pcImage midPageMap = .ok (boot, s) :=
    initMemory_returns hmap rfl rfl (by decide) (by decide)
  obtain ⟨E, h⟩ := initMemory_booted hmap hrun
  obtain rfl : ⟨0x4000, 0xC000, 1⟩ = E := Option.some.inj h.entry
  have hfree : 0 ∈ s.freeCells := h.mem_freeCells.mpr
    ⟨⟨0x800, 0x2800, 1⟩, by decide, by rw [givenBegin, if_neg (by decide)]; decide, by decide⟩
  have hbyte : 0 ∈ frameBytes 0 := mem_frameBytes.mpr rfl
  have hnot : 0 ∉ usableBytes midPageMap := by
    rintro ⟨e, he, hle, -⟩
    have : ∀ e ∈ usable midPageMap, 0 < e.addr := by decide
    exact absurd (this e he) (Nat.not_lt_of_le hle)
  obtain ⟨e, he, -, hlt⟩ := h.mem_freeCells.mp hfree
  exact ⟨boot, s, hrun, hfree, hbyte, hnot, fun honly =>
    hnot (honly 0 (lt_of_lt_of_le hlt (h.pages_le_count he)) (Or.inl hfree) hbyte)⟩

/-! ### The kernel image -/

/-- No byte of the kernel image is in the frame table, in a free frame, or in a frame that any later
allocation returns. -/
structure KernelSafe (image : KernelImage) (s : Pmm) : Prop where
  table : Disjoint s.tableBytes image.bytes
  free : ∀ x ∈ s.freeCells, Disjoint (frameBytes x) image.bytes
  allocated : ∀ σ, Reachable s σ → ∀ b ∈ σ.allocated, ∀ x ∈ b.span,
    Disjoint (frameBytes x) image.bytes

/-- The end of the frame table if it is placed at the beginning of an entry. -/
def tableEnd (entries : List MmapEntry) (e : MmapEntry) : ℕ :=
  alignUp e.addr 16 + ramLimit entries / 4096 * 16

/-- A usable entry that does not contain the whole kernel image keeps clear of it: the longest entry
with the frame table at its beginning and the pages behind that, any other entry with all pages from
that of its first byte on. -/
def ImageApart (image : KernelImage) (entries : List MmapEntry) : Prop :=
  ∀ e ∈ usable entries, ¬ e.Contains image →
    if bootEntry entries = some e then
      Disjoint (Set.Ico (alignUp e.addr 16) (tableEnd entries e)) image.bytes ∧
        Disjoint (Set.Ico ((tableEnd entries e + 4095) / 4096 * 4096)
          ((e.addr + e.len) / 4096 * 4096)) image.bytes
    else Disjoint (Set.Ico (e.addr / 4096 * 4096) ((e.addr + e.len) / 4096 * 4096)) image.bytes

def givenBytes (image : KernelImage) (boot : BootAlloc) (E e : MmapEntry) : Set ℕ :=
  Set.Ico (givenBegin image boot.bootTail E e * 4096) ((e.addr + e.len) / 4096 * 4096)

theorem Booted.free_apart_iff (h : Booted image entries boot s E) :
    (∀ x ∈ s.freeCells, Disjoint (frameBytes x) image.bytes) ↔
      ∀ e ∈ usable entries, Disjoint (givenBytes image boot E e) image.bytes := by
  simp only [Set.disjoint_left]
  constructor
  · rintro hfree e he y ⟨hle, hlt⟩
    have hmem : y / 4096 ∈ s.freeCells := h.mem_freeCells.mpr ⟨e, he, by omega, by omega⟩
    exact hfree _ hmem (mem_frameBytes.mpr rfl)
  · intro hgiven x hx y hy
    obtain ⟨e, he, hle, hlt⟩ := h.mem_freeCells.mp hx
    rw [mem_frameBytes] at hy
    exact hgiven e he ⟨by omega, by omega⟩

/-- Whatever contains the kernel image is cut behind it. -/
theorem Booted.contains_apart (h : Booted image entries boot s E) (he : e ∈ usable entries)
    (hc : e.Contains image) : Disjoint (givenBytes image boot E e) image.bytes ∧
      (e = E → Disjoint s.tableBytes image.bytes) := by
  have hstart := h.start_le
  have htail := h.tail_eq
  have hend : image.physEnd ≤ givenBegin image boot.bootTail E e * 4096 ∧
      (e = E → image.physEnd ≤ boot.bootBegin) := by
    rw [givenBegin]
    by_cases heE : e = E
    · subst heE
      have hbegin := (bootBegin_spec image (h.limit_lt e he)).2.2.1 hc
      rw [← h.begin_eq] at hbegin
      rw [if_pos rfl]
      exact ⟨by omega, fun _ => hbegin⟩
    · rw [if_neg heE, if_pos hc]
      exact ⟨by omega, fun heq => absurd heq heE⟩
  rw [givenBytes, KernelImage.bytes, h.tableBytes_eq, Set.Ico_disjoint_Ico, Set.Ico_disjoint_Ico]
  refine ⟨by omega, fun heE => ?_⟩
  have := hend.2 heE
  omega

theorem Booted.kernelSafe_of (h : Booted image entries boot s E)
    (htable : Disjoint s.tableBytes image.bytes)
    (hfree : ∀ x ∈ s.freeCells, Disjoint (frameBytes x) image.bytes) : KernelSafe image s := by
  refine ⟨htable, hfree, fun σ hσ b hb x hx => hfree x ?_⟩
  have hkept := h.kept.run hσ
  have hU : x ∈ cells (givenPages image boot entries) :=
    (hkept.conserved.union x).mpr ⟨b, List.mem_append_right _ hb, hx⟩
  exact h.mem_freeCells.mpr (h.mem_given.mp hU)

theorem Booted.boot_bytes (h : Booted image entries boot s E) (hc : ¬ E.Contains image) :
    s.tableBytes = Set.Ico (alignUp E.addr 16) (tableEnd entries E) ∧
      givenBytes image boot E E = Set.Ico ((tableEnd entries E + 4095) / 4096 * 4096)
        ((E.addr + E.len) / 4096 * 4096) := by
  have hbegin : boot.bootBegin = E.addr :=
    h.begin_eq.trans ((bootBegin_spec image (h.limit_lt E (bootEntry_spec h.entry).1)).2.2.2 hc)
  have htail : boot.bootTail = tableEnd entries E := by
    rw [h.tail_eq, hbegin, h.count, tableEnd]
  rw [h.tableBytes_eq, givenBytes, givenBegin, if_pos rfl, hbegin, htail]
  exact ⟨rfl, rfl⟩

theorem Booted.other_bytes (h : Booted image entries boot s E) (hc : ¬ e.Contains image)
    (hentry : bootEntry entries ≠ some e) : givenBytes image boot E e =
      Set.Ico (e.addr / 4096 * 4096) ((e.addr + e.len) / 4096 * 4096) := by
  have hne : e ≠ E := fun heq => hentry (heq ▸ h.entry)
  rw [givenBytes, givenBegin, if_neg hne, if_neg hc]

theorem Booted.kernelSafe (h : Booted image entries boot s E) (hapart : ImageApart image entries) :
    KernelSafe image s := by
  apply h.kernelSafe_of
  · by_cases hc : E.Contains image
    · exact (h.contains_apart (bootEntry_spec h.entry).1 hc).2 rfl
    · have hboot := hapart E (bootEntry_spec h.entry).1 hc
      rw [if_pos h.entry, ← (h.boot_bytes hc).1] at hboot
      exact hboot.1
  · refine h.free_apart_iff.mpr fun e he => ?_
    by_cases hc : e.Contains image
    · exact (h.contains_apart he hc).1
    · have hentry := hapart e he hc
      split_ifs at hentry with heE
      · obtain rfl : E = e := Option.some.inj (h.entry.symm.trans heE)
        rw [← (h.boot_bytes hc).2] at hentry
        exact hentry.2
      · rw [← h.other_bytes hc heE] at hentry
        exact hentry

/-- The kernel image is safe exactly when each usable entry contains it or keeps clear of it. -/
theorem kernelSafe_iff (hmap : UsableMap entries)
    (hrun : initMemory image entries = .ok (boot, s)) :
    KernelSafe image s ↔ ImageApart image entries := by
  obtain ⟨E, h⟩ := initMemory_booted hmap hrun
  refine ⟨fun hsafe e he hc => ?_, h.kernelSafe⟩
  have hgiven := h.free_apart_iff.mp hsafe.free e he
  split_ifs with heE
  · obtain rfl : E = e := Option.some.inj (h.entry.symm.trans heE)
    rw [← (h.boot_bytes hc).1, ← (h.boot_bytes hc).2]
    exact ⟨hsafe.table, hgiven⟩
  · rw [← h.other_bytes hc heE]
    exact hgiven

theorem pcMap_imageApart : ImageApart pcImage pcMap := by
  intro e he hnot
  have hlow : ∀ e ∈ usable pcMap, ¬ e.Contains pcImage → e = ⟨0, 0x3000, 1⟩ := by decide
  rw [hlow e he hnot, if_neg (by decide), KernelImage.bytes, Set.Ico_disjoint_Ico]
  decide

theorem kernelSafe_iff_pc : ∃ boot s, initMemory pcImage pcMap = .ok (boot, s) ∧ KernelSafe pcImage s := by
  obtain ⟨boot, s, hrun⟩ := pcMap_returns
  exact ⟨boot, s, hrun, (kernelSafe_iff pcMap_usable hrun).mpr pcMap_imageApart⟩

/-- Two adjacent usable entries. -/
def adjacentMap : List MmapEntry := [⟨0, 0x3000, 1⟩, ⟨0x3000, 0xD000, 1⟩]

/-- A kernel image that crosses from one into the other. -/
def crossingImage : KernelImage := ⟨0x2000, 0x4000, by decide⟩

/-- The frame table begins inside the kernel image, and frame 2, the first page of the image, is on a
free list. -/
theorem crossingImage_not_kernelSafe : ∃ boot s,
    initMemory crossingImage adjacentMap = .ok (boot, s) ∧
    0x3000 ∈ s.tableBytes ∧ 0x3000 ∈ crossingImage.bytes ∧
    2 ∈ s.freeCells ∧ 0x2000 ∈ frameBytes 2 ∧ 0x2000 ∈ crossingImage.bytes ∧
    ¬ KernelSafe crossingImage s := by
  have hmap : UsableMap adjacentMap :=
    ⟨by decide, by simp [adjacentMap, usable, MmapEntry.bytes, Set.Ico_disjoint_Ico]⟩
  obtain ⟨boot, s, hrun⟩ : ∃ boot s, initMemory crossingImage adjacentMap = .ok (boot, s) :=
    initMemory_returns hmap rfl rfl (by decide) (by decide)
  obtain ⟨E, h⟩ := initMemory_booted hmap hrun
  obtain rfl : ⟨0x3000, 0xD000, 1⟩ = E := Option.some.inj h.entry
  have hbegin : boot.bootBegin = 0x3000 := h.begin_eq
  have htail : boot.bootTail = 0x3100 := by
    rw [h.tail_eq, h.count, hbegin]
    rfl
  have htable : 0x3000 ∈ s.tableBytes := by
    rw [h.tableBytes_eq, hbegin, htail]
    exact ⟨by decide, by decide⟩
  have hfree : 2 ∈ s.freeCells := h.mem_freeCells.mpr
    ⟨⟨0, 0x3000, 1⟩, by decide, by rw [htail]; decide, by decide⟩
  have himage : 0x3000 ∈ crossingImage.bytes := ⟨by decide, by decide⟩
  exact ⟨boot, s, hrun, htable, himage, hfree, mem_frameBytes.mpr rfl, ⟨by decide, by decide⟩,
    fun hsafe => Set.disjoint_left.mp hsafe.table htable himage⟩

/-! ### The frame table -/

/-- The frame table in a boot entry. -/
def tableRange (image : KernelImage) (entries : List MmapEntry) (E : MmapEntry) : Set ℕ :=
  let start := alignUp (bootBegin image E.addr (E.addr + E.len)) 16
  Set.Ico start (start + ramLimit entries / 4096 * 16)

/-- No usable entry but the boot entry reaches into the frame table with the page of its first byte. -/
def TableApart (image : KernelImage) (entries : List MmapEntry) : Prop :=
  ∀ E, bootEntry entries = some E → ∀ e ∈ usable entries, e ≠ E →
    Disjoint (Set.Ico (e.addr / 4096 * 4096) e.addr) (tableRange image entries E)

theorem Booted.tableRange_eq (h : Booted image entries boot s E) : s.tableBytes = tableRange image entries E := by
  rw [h.tableBytes_eq, tableRange, ← h.begin_eq, ← h.count, ← h.tail_eq]

theorem Booted.table_apart (h : Booted image entries boot s E) (hapart : TableApart image entries) :
    ∀ x ∈ s.freeCells, Disjoint (frameBytes x) s.tableBytes := by
  intro x hx
  obtain ⟨e, he, hle, hlt⟩ := h.mem_freeCells.mp hx
  refine Set.disjoint_left.mpr fun y hy htable => ?_
  rw [mem_frameBytes] at hy
  obtain ⟨h1, h2⟩ := h.tableBytes_eq ▸ htable
  have hstart := h.begin_le
  have hstart' := h.start_le
  have htail := h.tail_lt
  by_cases heE : e = E
  · rw [givenBegin, if_pos heE] at hle
    omega
  · have hbegin := (addr_le_givenBegin h.addr_le_tail).trans hle
    rcases Nat.lt_or_ge y e.addr with hbefore | hafter
    · have hfront : y ∈ Set.Ico (e.addr / 4096 * 4096) e.addr := ⟨by omega, hbefore⟩
      exact Set.disjoint_left.mp (hapart E h.entry e he heE) hfront (h.tableRange_eq ▸ htable)
    · have hdisj := h.map.disjoint_of_ne he (bootEntry_spec h.entry).1 heE
      have hin : y ∈ e.bytes := ⟨hafter, by omega⟩
      exact Set.disjoint_left.mp hdisj hin ⟨by omega, by omega⟩

theorem pcMap_tableApart : TableApart pcImage pcMap := by
  intro E hE e he hne
  obtain rfl : ⟨0x4000, 0xC000, 1⟩ = E := Option.some.inj hE
  have haddr : ∀ e ∈ usable pcMap, e.addr / 4096 * 4096 = e.addr := by decide
  rw [haddr e he, Set.Ico_self]
  exact Set.empty_disjoint _

end Fynaos
