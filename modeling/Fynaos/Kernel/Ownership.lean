import Fynaos.Kernel.Foretold
import Fynaos.Pool.Confinement
import Fynaos.Pool.Pages
import Fynaos.Pool.Payload
import Fynaos.Vmm.Tables

/-!
# Who owns what

`Book` is the state of the allocators with what they handed out. `Good` ties it to the memory: the pages of the heap,
and the blocks handed out, are different frames of the frame allocator, and the objects handed out are data of the heap.
Every call of an allocator keeps this and stores to nothing that anybody owns (`Good.allocFrames`, `Good.freeFrame`,
`Good.kmalloc`), and so do the stores of the owners (`Good.write`).
-/

namespace Fynaos.Kernel

open Buddy NextList Vmm

/-- The allocators and what they handed out: blocks of frames and objects of the heap, those for page tables and for
`struct mm` apart from the others. -/
structure Book where
  alloc : Allocators
  frames : List Block
  objects : List (ℕ × ℕ)
  tables : List ℕ
  structs : List ℕ

def Book.held (s : Book) : List Block := s.frames ++ s.tables.map frameBlock

def Book.given (s : Book) : List (ℕ × ℕ) := s.objects ++ s.structs.map fun p => (p, mmSize)

def blockSpan (b : Block) : Set ℕ := {x | kernelDirectBase ≤ x ∧ (x - kernelDirectBase) / 4096 ∈ b.span}

def objectSpan (o : ℕ × ℕ) : Set ℕ := Set.Ico o.1 (o.1 + o.2)

def owned (s : Book) : Set ℕ := {x | (∃ b ∈ s.held, x ∈ blockSpan b) ∨ ∃ o ∈ s.given, x ∈ objectSpan o}

/-- The frame of a page of the heap. -/
def pageBlock (p : PoolPage) : Block := frameBlock (p.base - kernelDirectBase)

/-- The state of the kernel's memory, with the heap as a list of pages. -/
structure Good (U : Set ℕ) (r : Ram) (s : Book) (h : Heap) (ps : List PoolPage) : Prop where
  shows : Shows r s.alloc h
  pools : Pools h ps
  kept : Kept (fun _ => False) U ⟨s.alloc.pmm, ps.map pageBlock ++ s.held⟩
  tables : ∀ f ∈ s.tables, 4096 ∣ f
  objects : ∀ o ∈ s.given, objectSpan o ⊆ heapData ps
  apart : s.given.Pairwise fun o o' => Disjoint (objectSpan o) (objectSpan o')

/-- More than the pages that a heap can have. -/
def rounds : ℕ := 2 ^ 53

/-- The heap without the frames to come. -/
def Allocators.heap (m : Allocators) (r : Ram) : Heap := ⟨r, m.pools, m.tail, [], m.interrupts⟩

/-- A request for `len` bytes leaves no rest in the block that serves it, or one that can hold a `struct block`. -/
def Allocators.Roomy (m : Allocators) (r : Ram) (len : ℕ) : Prop :=
  ∀ ps fs, Pools (m.heap r) ps → Foretells m.pmm fs → Fynaos.Roomy ps fs len

/-- Some free block is long enough for `len` bytes. -/
def HasRoom (ps : List PoolPage) (len : ℕ) : Prop := ∃ b ∈ heapBlocks ps, Fits (wrap (alignUp len 16 + 32)) b

def granted (addr len : ℕ) (given : List (ℕ × ℕ)) : List (ℕ × ℕ) :=
  if addr = 0 then given else (addr, len) :: given

/-- The bytes of the frames of the allocator, in the direct map. -/
def frameSpace (U : Set ℕ) : Set ℕ := {x | kernelDirectBase ≤ x ∧ (x - kernelDirectBase) / 4096 ∈ U}

/-- All frames are in the direct map, below the kernel image. -/
def Mapped (U : Set ℕ) : Prop := ∀ x ∈ U, 4096 * x + 4096 ≤ physLimit

section span
variable {b c : Block} {p : PoolPage} {f : ℕ}

theorem blockSpan_disjoint (h : Disjoint b.span c.span) : Disjoint (blockSpan b) (blockSpan c) :=
  Set.disjoint_left.mpr fun _ hx hx' => Set.disjoint_left.mp h hx.2 hx'.2

theorem mem_blockSpan_frameBlock (hf : 4096 ∣ f) {x : ℕ} : x ∈ blockSpan (frameBlock f) ↔ x ∈ pageSpan f := by
  obtain ⟨k, rfl⟩ := hf
  have hbase : (frameBlock (4096 * k)).base = k := by
    rw [frameBlock, shiftRight_page, Nat.mul_div_cancel_left _ (by norm_num)]
  have hspan : ∀ y, y ∈ (frameBlock (4096 * k)).span ↔ y = k := fun y => by
    rw [Block.mem_span, hbase, frameBlock, pow_zero]
    omega
  constructor
  · rintro ⟨h1, h2⟩
    have h3 := (hspan _).mp h2
    exact ⟨by omega, by omega⟩
  · rintro ⟨h1, h2⟩
    exact ⟨by omega, (hspan _).mpr (by omega)⟩

theorem mem_blockSpan_pageBlock (p : PoolPage) {x : ℕ} : x ∈ blockSpan (pageBlock p) ↔ x ∈ p.bytes := by
  have hlow := p.direct.1
  have haligned : 4096 ∣ p.base - kernelDirectBase := by
    obtain ⟨k, hk⟩ := p.aligned
    exact ⟨k - 0xFFFF800000000, by rw [hk, kernelDirectBase_eq]; omega⟩
  rw [pageBlock, mem_blockSpan_frameBlock haligned, pageSpan, PoolPage.bytes, Nat.add_sub_cancel' hlow]

theorem pageBlock_eq {f : ℕ} (hf : f + 4096 ≤ 2 ^ 47) (hp : p.base = physToVirt f) : pageBlock p = frameBlock f := by
  rw [pageBlock, hp, Fynaos.physToVirt_eq hf, Nat.add_sub_cancel]

theorem map_pageBlock (ps : List PoolPage) :
    ps.map pageBlock = (ps.map PoolPage.base).map fun a => frameBlock (a - kernelDirectBase) := by
  rw [List.map_map]
  refine List.map_congr_left fun p _ => ?_
  rw [pageBlock, Function.comp_apply]

end span

section good
variable {U : Set ℕ} {r r' : Ram} {s s' : Book} {h : Heap} {ps : List PoolPage} {pmm : Pmm} {f k len : ℕ}
  {b : Block} {fs : List ℕ}

theorem Mapped.frameOk (hU : Mapped U) (hf : 4096 ∣ f) (hmem : f / 4096 ∈ U) : FrameOk f := by
  have hbelow := hU _ hmem
  exact ⟨hf, by rwa [Nat.mul_div_cancel' hf] at hbelow⟩

theorem FrameOk.le (hf : FrameOk f) : f + 4096 ≤ 2 ^ 47 := by
  have hbelow := hf.below
  rw [physLimit_eq] at hbelow
  omega

theorem freshFrames (hU : Mapped U) {B : List Block} (hkept : Kept (fun _ => False) U ⟨pmm, ps.map pageBlock ++ B⟩)
    (hfs : Foretells pmm fs) : FreshFrames fs ps := by
  obtain ⟨pmm', htakes, -⟩ := hfs
  obtain ⟨-, hnodup, hall⟩ := hkept.takes htakes
  have hok : ∀ f ∈ fs, FrameOk f := fun f hf => hU.frameOk (hall f hf).1 (hall f hf).2.1
  refine ⟨hnodup, fun f hf => ⟨(hall f hf).1, FrameOk.le (hok f hf)⟩, fun f hf p hp heq => (hall f hf).2.2 ?_⟩
  rw [← pageBlock_eq (FrameOk.le (hok f hf)) heq]
  exact List.mem_append_left _ (List.mem_map_of_mem hp)

theorem granted_apart {given : List (ℕ × ℕ)} {ps' : List PoolPage} {addr : ℕ}
    (hgiven : ∀ o ∈ given, objectSpan o ⊆ heapData ps)
    (hapart : given.Pairwise fun o o' => Disjoint (objectSpan o) (objectSpan o'))
    (hused : heapUsed ps ⊆ heapUsed ps') (hlen : len ≤ 2 ^ 64 - 48) (hgave : addr ≠ 0 → Gave ps ps' addr len) :
    (∀ o ∈ granted addr len given, objectSpan o ⊆ heapData ps') ∧
      (granted addr len given).Pairwise fun o o' => Disjoint (objectSpan o) (objectSpan o') := by
  have hold : ∀ o ∈ given, objectSpan o ⊆ heapData ps' := fun o ho => (hgiven o ho).trans (heapData_mono hused)
  unfold granted
  split_ifs with haddr
  · exact ⟨hold, hapart⟩
  · obtain ⟨b, hb, heq, hneed, hdisj⟩ := hgave haddr
    obtain ⟨hround, hwrap⟩ := alignUp_of_le hlen
    have hsub : objectSpan (addr, len) ⊆ payload b := Set.Ico_subset_Ico heq.ge (by dsimp only; omega)
    refine ⟨List.forall_mem_cons.mpr ⟨fun x hx => ⟨b, hb, hsub hx⟩, hold⟩, List.pairwise_cons.mpr ⟨?_, hapart⟩⟩
    exact fun o ho => Set.disjoint_of_subset hsub (hgiven o ho) hdisj

namespace Good

theorem reown (hg : Good U r s h ps) (hU : Mapped U) (halloc : s'.alloc = { s.alloc with pmm := pmm })
    (hgiven : s'.given = s.given) (htables : ∀ f ∈ s'.tables, 4096 ∣ f)
    (hkept : Kept (fun _ => False) U ⟨pmm, ps.map pageBlock ++ s'.held⟩) :
    ∃ fs, Good U r s' { h with frames := fs } ps := by
  obtain ⟨fs, hfs⟩ := hkept.foretells
  have hshows := hg.shows
  refine ⟨fs, ⟨?_, ⟨hg.pools.links, hg.pools.tail, hg.pools.laid, freshFrames hU hkept hfs⟩, ?_, htables, ?_, ?_⟩⟩
  · rw [halloc]
    exact ⟨hshows.ram, hshows.pools, hshows.tail, hshows.interrupts, hfs⟩
  · rw [halloc]
    exact hkept
  · rw [hgiven]
    exact hg.objects
  · rw [hgiven]
    exact hg.apart

theorem allocFrames (hg : Good U r s h ps) (hk : k ≤ frameMaxOrder) :
    allocFrames k s.alloc.pmm = .ok (invalidAddress, s.alloc.pmm) ∨
      ∃ p pmm, Fynaos.allocFrames k s.alloc.pmm = .ok (p <<< pageShift, pmm) ∧ p <<< pageShift ≠ invalidAddress ∧
        Kept (fun _ => False) U ⟨pmm, ps.map pageBlock ++ ⟨p, k⟩ :: s.held⟩ := by
  rcases hg.kept.alloc hk with ⟨hrun, -⟩ | ⟨p, pmm, hrun, hvalid, hkept, -⟩
  · exact Or.inl hrun
  · exact Or.inr ⟨p, pmm, hrun, hvalid, hkept.perm List.perm_middle.symm⟩

theorem freeFrame (hg : Good U r s h ps) (hb : b ∈ s.held) :
    ∃ pmm, freeFrame (b.base <<< pageShift) s.alloc.pmm = .ok pmm ∧
      Kept (fun _ => False) U ⟨pmm, ps.map pageBlock ++ s.held.erase b⟩ := by
  have hnodup := hg.kept.nodup
  have hnot : b ∉ ps.map pageBlock := fun hmem => (List.disjoint_of_nodup_append hnodup) hmem hb
  obtain ⟨pmm, hrun, hkept⟩ := hg.kept.free (List.mem_append_right _ hb)
  refine ⟨pmm, hrun, ?_⟩
  rw [List.erase_append_right _ hnot] at hkept
  exact hkept

theorem held_disjoint (hg : Good U r s h ps) (hb : b ∈ s.held) : Disjoint (blockSpan b) (heapBytes ps) := by
  refine Set.disjoint_left.mpr fun x hx hx' => ?_
  obtain ⟨p, hp, hxp⟩ := hx'
  have hmem : pageBlock p ∈ ps.map pageBlock := List.mem_map_of_mem hp
  have hne : pageBlock p ≠ b := fun heq =>
    (List.disjoint_of_nodup_append hg.kept.nodup) hmem (heq ▸ hb)
  have hdisj := hg.kept.disjoint (List.mem_append_left _ hmem) (List.mem_append_right _ hb) hne
  exact Set.disjoint_left.mp (blockSpan_disjoint hdisj) ((mem_blockSpan_pageBlock p).mpr hxp) hx

theorem data_subset (hg : Good U r s h ps) : heapData ps ⊆ heapBytes ps := by
  intro x hx
  obtain ⟨p, hp, h1, h2⟩ := hg.pools.data_subset hx
  exact ⟨p, hp, by omega, h2⟩

theorem block_space (hg : Good U r s h ps) (hb : b ∈ ps.map pageBlock ++ s.held) : blockSpan b ⊆ frameSpace U :=
  fun _ hx => ⟨hx.1, hg.kept.span_subset hb hx.2⟩

theorem heap_space (hg : Good U r s h ps) : heapBytes ps ⊆ frameSpace U := by
  rintro x ⟨p, hp, hx⟩
  exact hg.block_space (List.mem_append_left _ (List.mem_map_of_mem hp)) ((mem_blockSpan_pageBlock p).mpr hx)

theorem owned_space (hg : Good U r s h ps) : owned s ⊆ frameSpace U := by
  rintro x (⟨b, hb, hx⟩ | ⟨o, ho, hx⟩)
  · exact hg.block_space (List.mem_append_right _ hb) hx
  · exact hg.heap_space (hg.data_subset (hg.objects o ho hx))

theorem owned_disjoint (hg : Good U r s h ps) : Disjoint (owned s) (heapBytes ps \ heapData ps) := by
  refine Set.disjoint_left.mpr fun x hx hx' => ?_
  rcases hx with ⟨b, hb, hxb⟩ | ⟨o, ho, hxo⟩
  · exact Set.disjoint_left.mp (hg.held_disjoint hb) hxb hx'.1
  · exact hx'.2 (hg.objects o ho hxo)

theorem write (hg : Good U r s h ps) (hwrote : ∀ x ∈ heapBytes ps, x ∉ heapData ps → r'.bytes x = r.bytes x) :
    Good U r' s { h with ram := r' } ps := by
  have hshows := hg.shows
  refine ⟨⟨rfl, hshows.pools, hshows.tail, hshows.interrupts, hshows.frames⟩, hg.pools.write ?_, hg.kept, hg.tables,
    hg.objects, hg.apart⟩
  rw [hshows.ram]
  exact hwrote

theorem bare (hg : Good U r s h ps) : Pools (s.alloc.heap r) ps := by
  obtain ⟨hram, hpools, htail, -, -⟩ := hg.shows
  obtain ⟨hlinks, htail', hlaid, -⟩ := hg.pools
  rw [hram] at hlinks hlaid
  rw [hpools] at hlinks
  rw [htail] at htail'
  exact ⟨hlinks, htail', hlaid, List.nodup_nil, fun _ hf => absurd hf List.not_mem_nil,
    fun _ hf => absurd hf List.not_mem_nil⟩

/-- The memory and the free lists say whether a request is roomy. -/
theorem roomy_iff (hg : Good U r s h ps) : s.alloc.Roomy r len ↔ Fynaos.Roomy ps h.frames len := by
  constructor
  · exact fun hroomy => hroomy ps h.frames hg.bare hg.shows.frames
  · intro hroomy ps' fs hpools hfs
    rw [hg.bare.unique hpools rfl rfl, hg.shows.frames.unique hfs]
    exact hroomy

theorem kmalloc (hg : Good U r s h ps) (hU : Mapped U) (hroomy : s.alloc.Roomy r len) (hlen : len ≤ 2 ^ 64 - 48) :
    ∃ addr r' m, Kernel.kmalloc rounds len r s.alloc = .ok (addr, r', m) ∧ Wrote r r' (frameSpace U \ owned s) ∧
      (HasRoom ps len → addr ≠ 0) ∧
      ∀ s' : Book, s'.alloc = m → s'.held = s.held → s'.tables = s.tables →
        s'.given.Perm (granted addr len s.given) → ∃ h' ps', Good U r' s' h' ps' := by
  obtain ⟨pmm, htakes, hnone⟩ := hg.shows.frames
  have hpages : ps.length + h.frames.length ≤ rounds := by
    have hlength := (hg.kept.takes htakes).1.length_le
    simp only [List.length_append, List.length_reverse, List.length_map] at hlength
    unfold rounds
    omega
  obtain ⟨addr, h', ps', hrun, hgrew, ⟨taken, hframes, hbases⟩, hgave⟩ :=
    kmalloc_serves hg.pools (hg.roomy_iff.mp hroomy) hpages
  obtain ⟨r', m, hrun', hshows, taken', hframes', htakes'⟩ := kmalloc_follows hg.shows hrun
  obtain rfl : taken' = taken := List.append_cancel_right (hframes'.symm.trans hframes)
  obtain ⟨hkept, -, hall⟩ := hg.kept.takes htakes'
  have hok : ∀ f ∈ taken', FrameOk f := fun f hf => hU.frameOk (hall f hf).1 (hall f hf).2.1
  have hblocks : ps'.map pageBlock = ps.map pageBlock ++ taken'.map frameBlock := by
    rw [map_pageBlock, hbases, List.map_append, ← map_pageBlock, List.map_map]
    refine congrArg (ps.map pageBlock ++ ·) (List.map_congr_left fun f hf => ?_)
    rw [Function.comp_apply, (hok f hf).physToVirt_eq, Nat.add_sub_cancel_left]
  have hperm : ((taken'.map frameBlock).reverse ++ (ps.map pageBlock ++ s.held)).Perm
      (ps'.map pageBlock ++ s.held) := by
    rw [hblocks, ← List.append_assoc]
    refine List.Perm.append_right _ ?_
    exact ((List.reverse_perm _).append_right _).trans List.perm_append_comm
  have hgood : ∀ s' : Book, s'.alloc = m → s'.held = s.held → s'.tables = s.tables →
      s'.given.Perm (granted addr len s.given) → Good U r' s' h' ps' := by
    intro s' halloc hheld htables hgiven
    obtain ⟨hspans, hapart⟩ := granted_apart hg.objects hg.apart hgrew.used hlen hgave
    refine ⟨halloc ▸ hshows, hgrew.pools, ?_, htables ▸ hg.tables, fun o ho => hspans o (hgiven.subset ho),
      (hgiven.pairwise_iff fun h => h.symm).mpr hapart⟩
    rw [halloc, hheld]
    exact hkept.perm hperm
  refine ⟨addr, r', m, hrun', ?_, fun hroom => ?_, fun s' h1 h2 h3 h4 => ⟨h', ps', hgood s' h1 h2 h3 h4⟩⟩
  · -- the pages of the heap are nobody's, and neither is what is not in use in them
    have hafter := hgood ⟨m, s.frames, granted addr len s.given, s.tables, []⟩ rfl rfl rfl (by simp [Book.given])
    have hwrote := hgrew.wrote
    rw [hg.shows.ram, hshows.ram] at hwrote
    refine hwrote.mono fun x hx => ⟨hafter.heap_space hx.1, fun hown => ?_⟩
    rcases hown with ⟨b, hb, hxb⟩ | ⟨o, ho, hxo⟩
    · exact Set.disjoint_left.mp (hafter.held_disjoint hb) hxb hx.1
    · exact hx.2 (hg.objects o ho hxo)
  · obtain ⟨fuel, addr', h'', hreturns, hne, -⟩ := hg.pools.returns len (Or.inl hroom)
    have hmost := kmalloc_fuel (Nat.le_max_left fuel rounds) hreturns
    rw [kmalloc_fuel (Nat.le_max_right fuel rounds) hrun] at hmost
    obtain ⟨rfl, -⟩ := Prod.mk.inj (Except.ok.inj hmost)
    exact hne

theorem store (hg : Good U r s h ps) (hwrote : Wrote r r' (owned s)) : Good U r' s { h with ram := r' } ps :=
  hg.write fun x hx hx' => hwrote.frame x fun hmem => Set.disjoint_left.mp hg.owned_disjoint hmem ⟨hx, hx'⟩

end Good

end good

end Fynaos.Kernel
