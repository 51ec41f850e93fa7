import Fynaos.Kernel.Services
import Fynaos.Lib.Transition
import Fynaos.Mm.HandOff

/-!
# The memory of the kernel

All of `mm/` in one run: from the memory map of the boot loader through `init_memory` and `init_pool`, any calls of
`alloc_frames`, `free_frame`, `kmalloc`, `create_mm`, `map_page` and `unmap_page`, and between them the callers store
to what they were handed. The invariant has the allocators and the page tables together (`Inv`), each step keeps it
(`Step.inv`), and it says what each part of the kernel can rely on: its memory is its own (`memory_private`), the calls
return (`calls_return`), and the page tables answer from maps (`tables_answer`).

`kmalloc` is only called where no rest is left that is too short for a `struct block`, and `kfree` is not called. In the
repository nothing calls `init_pool` yet.
-/

namespace Fynaos.Kernel

open Buddy NextList Vmm

/-- The calls, and the stores of the callers. -/
inductive Act where
  | tables (act : Vmm.Act)
  | allocFrames (k : ℕ)
  | freeFrame (b : Block)
  | kmalloc (len : ℕ)
  | store (r : Ram)

inductive Step : Sys Book → Act → Sys Book → Prop
  | tables {σ τ : Sys Book} {act : Vmm.Act} (h : Vmm.Step services 0 σ act τ) : Step σ (.tables act) τ
  | allocFrames {σ : Sys Book} {k a : ℕ} {pmm : Pmm} (h : Fynaos.allocFrames k σ.frames.alloc.pmm = .ok (a, pmm)) :
      Step σ (.allocFrames k) { σ with
        frames := { σ.frames with
          alloc := { σ.frames.alloc with pmm := pmm }
          frames := if a = invalidAddress then σ.frames.frames else ⟨a >>> pageShift, k⟩ :: σ.frames.frames } }
  | freeFrame {σ : Sys Book} {b : Block} {pmm : Pmm}
      (h : Fynaos.freeFrame (b.base <<< pageShift) σ.frames.alloc.pmm = .ok pmm) :
      Step σ (.freeFrame b) { σ with
        frames := { σ.frames with
          alloc := { σ.frames.alloc with pmm := pmm }
          frames := σ.frames.frames.erase b } }
  | kmalloc {σ : Sys Book} {len addr : ℕ} {r : Ram} {m : Allocators}
      (h : Kernel.kmalloc rounds len σ.ram σ.frames.alloc = .ok (addr, r, m)) :
      Step σ (.kmalloc len) { σ with
        ram := r
        frames := { σ.frames with
          alloc := m
          objects := granted addr len σ.frames.objects } }
  | store {σ : Sys Book} {r : Ram} : Step σ (.store r) { σ with ram := r }

/-- How the calls are meant to be used. -/
def Allowed (σ : Sys Book) : Act → Prop
  | .tables act => MapCall act ∧ act ≠ .take ∧ (act = .create → σ.frames.alloc.Roomy σ.ram mmSize)
  | .allocFrames k => k ≤ frameMaxOrder
  | .freeFrame b => b ∈ σ.frames.frames
  | .kmalloc len => len ≤ 2 ^ 64 - 48 ∧ σ.frames.alloc.Roomy σ.ram len
  | .store r => Wrote σ.ram r (clientBytes σ.frames)

/-- A memory map for which `init_memory` gives nothing away but usable memory, and neither the kernel image nor the
frame table, and all of it is where the boot tables map it. -/
structure SafeMap (image : KernelImage) (entries : List MmapEntry) : Prop where
  usable : UsableMap entries
  imageApart : ImageApart image entries
  firstPages : FirstPagesUsable entries
  tableApart : TableApart image entries
  mapped : ramLimit entries ≤ 510 * 2 ^ 30

/-- The machine after `init_memory` and `init_pool`. -/
def Started (image : KernelImage) (entries : List MmapEntry) (σ : Sys Book) : Prop :=
  SafeMap image entries ∧
    ∃ boot pmm r flags r' m current, initMemory image entries = .ok (boot, pmm) ∧
      initPool r ⟨pmm, 0, 0, flags⟩ = .ok (true, r', m) ∧
      σ = ⟨r', ⟨m, [], [], [], []⟩, current, fun _ => none, ∅⟩

/-- A physical address that nobody else uses, where the boot tables map the direct map. -/
structure Spare (image : KernelImage) (entries : List MmapEntry) (pmm : Pmm) (p : ℕ) : Prop where
  usable : p ∈ usableBytes entries
  notImage : p ∉ image.bytes
  notTable : p ∉ pmm.tableBytes
  mapped : p < 510 * 2 ^ 30

/-- The frames of the allocator tile `U`, the memory is good, and the page tables are as the address spaces say. -/
structure Inv (U : Set ℕ) (σ : Sys Book) : Prop where
  good : ∃ h ps, Good U σ.ram σ.frames h ps
  tables : Vmm.Inv (guarded U) none σ

variable {U : Set ℕ} {σ₀ σ τ : Sys Book} {s s' : Book} {r : Ram} {h : Heap} {ps : List PoolPage} {act : Act}
  {image : KernelImage} {entries : List MmapEntry}

/-! ### The beginning -/

theorem initPool_good {pmm : Pmm} (hU : Mapped U) (hkept : Kept (fun _ => False) U ⟨pmm, []⟩)
    (hframe : ∀ s, allocFrames 0 pmm ≠ .ok (invalidAddress, s)) (r : Ram) (flags : Bool) :
    ∃ r' m h f hf, initPool r ⟨pmm, 0, 0, flags⟩ = .ok (true, r', m) ∧
      Good U r' ⟨m, [], [], [], []⟩ h [freshPage f hf] := by
  obtain ⟨fs, hfs⟩ := hkept.foretells
  have hfresh : FreshFrames fs [] := freshFrames hU (B := []) hkept hfs
  have hshows : Shows r ⟨pmm, 0, 0, flags⟩ ⟨r, 0, 0, fs, flags⟩ := ⟨rfl, rfl, rfl, rfl, hfs⟩
  cases fs with
  | nil => exact absurd hfs.nil (hframe pmm)
  | cons f fs =>
    obtain ⟨h', hf, hinit, hrest, hpools⟩ := initPool_spec (h := ⟨r, 0, 0, f :: fs, flags⟩) hfresh rfl
    obtain ⟨r', m, hinit', hshows', taken, hframes, htakes⟩ := initPool_follows hshows hinit
    have htaken : taken = [f] := by
      have hsame : taken ++ h'.frames = [f] ++ h'.frames := by
        rw [← hframes, hrest]
        rfl
      exact List.append_cancel_right hsame
    obtain ⟨hkept', -, -⟩ := hkept.takes htakes
    have hblock : pageBlock (freshPage f hf) = frameBlock f := pageBlock_eq hf.2 rfl
    refine ⟨r', m, h', f, hf, hinit', hshows', hpools, ?_, fun _ hf => absurd hf List.not_mem_nil,
      fun _ ho => absurd ho List.not_mem_nil, List.Pairwise.nil⟩
    rw [htaken] at hkept'
    rw [List.map_singleton, hblock]
    exact hkept'

theorem mapped_freeCells {boot : BootAlloc} {pmm : Pmm} {E : MmapEntry} (hbooted : Booted image entries boot pmm E)
    (hlow : ramLimit entries ≤ 510 * 2 ^ 30) :
    Mapped pmm.freeCells ∧ Kept (fun _ => False) pmm.freeCells ⟨pmm, []⟩ := by
  constructor
  · intro x hx
    obtain ⟨e, he, -, hlt⟩ := hbooted.mem_freeCells.mp hx
    have hram := hbooted.map.le_ramLimit he
    rw [physLimit_eq]
    omega
  · have hcells : cells (givenPages image boot entries) = pmm.freeCells := by
      ext x
      rw [hbooted.mem_given, hbooted.mem_freeCells]
    rw [← hcells]
    exact hbooted.kept

theorem SafeMap.spare {boot : BootAlloc} {pmm : Pmm} (hsafe : SafeMap image entries)
    (hboot : initMemory image entries = .ok (boot, pmm)) {x p : ℕ} (hx : x ∈ pmm.freeCells) (hp : p ∈ frameBytes x) :
    Spare image entries pmm p := by
  obtain ⟨E, hbooted⟩ := initMemory_booted hsafe.usable hboot
  obtain ⟨e, he, -, hlt⟩ := hbooted.mem_freeCells.mp hx
  have hcount : x < pmm.mmFramesCount := lt_of_lt_of_le hlt (hbooted.pages_le_count he)
  have honly := hbooted.frame_usable hsafe.firstPages hcount (Or.inl hx)
  have hkernel := (hbooted.kernelSafe hsafe.imageApart).free x hx
  have htable := hbooted.table_apart hsafe.tableApart x hx
  refine ⟨honly hp, Set.disjoint_left.mp hkernel hp, Set.disjoint_left.mp htable hp, ?_⟩
  have hram := hbooted.map.le_ramLimit he
  have hmapped := hsafe.mapped
  have hend := hp.2
  omega

theorem Started.inv (hstart : Started image entries σ) : ∃ boot pmm, initMemory image entries = .ok (boot, pmm) ∧
    Mapped pmm.freeCells ∧ Inv pmm.freeCells σ := by
  obtain ⟨hsafe, boot, pmm, r, flags, r', m, current, hboot, hpool, rfl⟩ := hstart
  obtain ⟨E, hbooted⟩ := initMemory_booted hsafe.usable hboot
  obtain ⟨hU, hkept⟩ := mapped_freeCells hbooted hsafe.mapped
  have hframe : ∀ s, allocFrames 0 pmm ≠ .ok (invalidAddress, s) := by
    intro s halloc
    rw [initPool_none halloc] at hpool
    cases hpool
  obtain ⟨r₁, m₁, h, f, hf, hinit, hg⟩ := initPool_good hU hkept hframe r flags
  rw [hpool] at hinit
  obtain ⟨rfl, rfl⟩ : r' = r₁ ∧ m = m₁ := by simpa using hinit
  exact ⟨boot, pmm, hboot, hU, ⟨h, _, hg⟩, Vmm.Inv.empty (hg.sound hU) rfl⟩

/-! ### The invariant along a run -/

/-- On good memory the real services take the steps of the guarded ones. -/
theorem tables_guarded (hU : Mapped U) (hg : Good U σ.ram σ.frames h ps) {act : Vmm.Act}
    (hallowed : Allowed σ (.tables act)) (hstep : Vmm.Step services 0 σ act τ) : Vmm.Step (guarded U) 0 σ act τ := by
  obtain ⟨hcall, htake, hroomy⟩ := hallowed
  cases hstep with
  | create hrun hne =>
    rw [← (createMm_good hg hU (hroomy rfl)).1] at hrun
    exact Vmm.Step.create hrun hne
  | createNull hrun =>
    rw [← (createMm_good hg hU (hroomy rfl)).1] at hrun
    exact Vmm.Step.createNull hrun
  | take => exact absurd rfl htake
  | map hm hrun =>
    rw [← mapPage_guarded hg hU] at hrun
    exact Vmm.Step.map hm hrun
  | unmap hm hrun => exact Vmm.Step.unmap hm hrun
  | copy => exact hcall.elim
  | swap => exact hcall.elim
  | delete => exact hcall.elim

theorem pages_subset (U : Set ℕ) (s : Book) : (⋃ f ∈ (guarded U).held s, pageSpan f) ⊆ inUse (guarded U) s := by
  intro x hx
  obtain ⟨f, hf, hxf⟩ := Set.mem_iUnion₂.mp hx
  exact Or.inl ⟨f, hf, hxf⟩

theorem Good.edited {r' : Ram} (hg : Good U r s' h ps) (hspared : Spared s s')
    (hwrote : Wrote r r' (inUse (guarded U) s')) :
    Good U r' s' { h with ram := r' } ps ∧ Wrote r r' (frameSpace U \ clientBytes s) := by
  refine ⟨hg.store (hwrote.mono hg.inUse_subset), hwrote.mono ?_⟩
  rw [← hspared.clientBytes]
  exact hg.inUse_outside

theorem tables_good (hU : Mapped U) (hinv : Inv U σ) {act : Vmm.Act} (hallowed : Allowed σ (.tables act))
    (hstep : Vmm.Step services 0 σ act τ) :
    (∃ h ps, Good U τ.ram τ.frames h ps) ∧ Wrote σ.ram τ.ram (frameSpace U \ clientBytes σ.frames) := by
  obtain ⟨⟨h, ps, hg⟩, htables⟩ := hinv
  obtain ⟨hcall, htake, hroomy⟩ := hallowed
  have hcreate : ∀ {mm r s}, createMm services σ.ram σ.frames = .ok (mm, r, s) → act = .create →
      (∃ h ps, Good U r s h ps) ∧ Wrote σ.ram r (frameSpace U \ clientBytes σ.frames) := by
    intro mm r s hrun hact
    obtain ⟨-, mm', r', s', h', ps', hrun', hg', -, hwrote, -⟩ := createMm_good hg hU (hroomy hact)
    rw [hrun] at hrun'
    obtain ⟨-, rfl, rfl⟩ : mm = mm' ∧ r = r' ∧ s = s' := by simpa using hrun'
    exact ⟨⟨h', ps', hg'⟩, hwrote⟩
  cases hstep with
  | create hrun => exact hcreate hrun rfl
  | createNull hrun => exact hcreate hrun rfl
  | take => exact absurd rfl htake
  | map hm hrun =>
    obtain ⟨⟨fs, hg'⟩, hspared⟩ := mapPage_good hg hU hrun
    rw [← mapPage_guarded hg hU] at hrun
    obtain ⟨-, -, -, hedited, -⟩ := htables.mapPage_edited (guarded_lawful hU) hm
      (hcall.allowed σ : Vmm.Allowed (guarded U) none 0 σ _) hrun
    obtain ⟨hg'', hwrote⟩ := hg'.edited hspared (hedited.wrote.mono (pages_subset U _))
    exact ⟨⟨_, ps, hg''⟩, hwrote⟩
  | unmap hm hrun =>
    obtain ⟨r', hrun', -, hedited, -⟩ := htables.trees.unmapPage _ htables.sound.frame (htables.direct hm)
      (htables.word hm) (roots_of hm) (htables.low hm fun huser => absurd huser not_isUser)
    rw [hrun] at hrun'
    obtain ⟨-, rfl⟩ := Prod.mk.inj (Except.ok.inj hrun')
    obtain ⟨hg', hwrote⟩ := hg.edited (Spared.refl _) (hedited.wrote.mono (pages_subset U _))
    exact ⟨⟨_, ps, hg'⟩, hwrote⟩
  | copy => exact hcall.elim
  | swap => exact hcall.elim
  | delete => exact hcall.elim

theorem Inv.allocated (hU : Mapped U) (hinv : Inv U σ) (hg : Good U r s h ps) (htables : s.tables = σ.frames.tables)
    (hstructs : s.structs = σ.frames.structs) (hwrote : Wrote σ.ram r (inUse (guarded U) σ.frames)ᶜ) :
    Inv U { σ with ram := r, frames := s } := by
  refine ⟨⟨h, ps, hg⟩, hinv.tables.kept hwrote (hg.sound hU) ?_ ?_ σ.clients⟩
  · intro f hf
    show f ∈ s.tables
    rw [htables]
    exact hf
  · intro p hp
    show p ∈ s.structs
    rw [hstructs]
    exact hp

/-- A step keeps the invariant. All its stores are to frames of the allocator, and only the callers store to their
bytes. -/
theorem Step.spec (hU : Mapped U) (hallowed : Allowed σ act) (hstep : Step σ act τ) (hinv : Inv U σ) :
    Inv U τ ∧ Wrote σ.ram τ.ram (frameSpace U) ∧
      ((∀ r, act ≠ .store r) → Wrote σ.ram τ.ram (clientBytes σ.frames)ᶜ) := by
  obtain ⟨h, ps, hg⟩ := hinv.good
  have haligned := hg.tables
  cases hstep with
  | @tables τ act hstep =>
    have hcall : MapCall act := hallowed.1
    obtain ⟨hgood, hwrote⟩ := tables_good hU hinv hallowed hstep
    have hsteps := tables_guarded hU hg hallowed hstep
    exact ⟨⟨hgood, hsteps.inv (guarded_lawful hU) (hcall.allowed σ) hinv.tables⟩, hwrote.mono fun _ hx => hx.1,
      fun _ => hwrote.mono fun _ hx => hx.2⟩
  | @allocFrames k a pmm hrun =>
    have hrefl : ∀ S, Wrote σ.ram σ.ram S := fun S => Wrote.refl _ S
    rcases hg.allocFrames hallowed with hfail | ⟨p, pmm', hrun', hvalid, hkept⟩
    · rw [hfail] at hrun
      obtain ⟨rfl, rfl⟩ := Prod.mk.inj (Except.ok.inj hrun)
      rw [if_pos rfl]
      exact ⟨hinv, hrefl _, fun _ => hrefl _⟩
    · rw [hrun'] at hrun
      obtain ⟨rfl, rfl⟩ := Prod.mk.inj (Except.ok.inj hrun)
      have hp : (p <<< pageShift) >>> pageShift = p := by
        rw [shiftRight_page, shiftLeft_page, Nat.mul_div_cancel _ (by norm_num)]
      rw [if_neg hvalid, hp]
      obtain ⟨fs, hg'⟩ : ∃ fs, Good U σ.ram { σ.frames with
          alloc := { σ.frames.alloc with pmm := pmm' }
          frames := ⟨p, k⟩ :: σ.frames.frames } { h with frames := fs } ps :=
        hg.reown hU rfl rfl haligned hkept
      exact ⟨hinv.allocated hU hg' rfl rfl (hrefl _), hrefl _, fun _ => hrefl _⟩
  | @freeFrame b pmm hrun =>
    have hb : b ∈ σ.frames.frames := hallowed
    obtain ⟨pmm', hrun', hkept⟩ := hg.freeFrame (List.mem_append_left _ hb)
    obtain rfl : pmm' = pmm := Except.ok.inj (hrun'.symm.trans hrun)
    rw [Book.held, List.erase_append_left _ hb] at hkept
    obtain ⟨fs, hg'⟩ : ∃ fs, Good U σ.ram { σ.frames with
        alloc := { σ.frames.alloc with pmm := pmm' }
        frames := σ.frames.frames.erase b } { h with frames := fs } ps :=
      hg.reown hU rfl rfl haligned hkept
    exact ⟨hinv.allocated hU hg' rfl rfl (Wrote.refl _ _), Wrote.refl _ _, fun _ => Wrote.refl _ _⟩
  | @kmalloc len addr r m hrun =>
    obtain ⟨hlen, hroomy⟩ := hallowed
    obtain ⟨addr', r', m', hrun', hwrote, -, hafter⟩ := hg.kmalloc hU hroomy hlen
    rw [hrun] at hrun'
    obtain ⟨rfl, rfl, rfl⟩ : addr = addr' ∧ r = r' ∧ m = m' := by simpa using hrun'
    obtain ⟨h', ps', hg'⟩ := hafter { σ.frames with
      alloc := m
      objects := granted addr len σ.frames.objects } rfl rfl rfl (by
        unfold Book.given granted
        split_ifs
        · exact List.Perm.refl _
        · exact List.Perm.refl _)
    refine ⟨hinv.allocated hU hg' rfl rfl (hwrote.mono fun x hx hin => hx.2 (hg.inUse_subset hin)),
      hwrote.mono fun x hx => hx.1, fun _ => hwrote.mono fun x hx hin => hx.2 (clientBytes_subset _ hin)⟩
  | @store r =>
    have hwrote : Wrote σ.ram r (clientBytes σ.frames) := hallowed
    have hgood := hg.store (hwrote.mono (clientBytes_subset _))
    refine ⟨hinv.allocated hU hgood rfl rfl (hwrote.mono ?_), hwrote.mono ?_, fun hno => absurd rfl (hno r)⟩
    · exact Set.subset_compl_iff_disjoint_right.mpr hg.client_disjoint
    · exact (clientBytes_subset _).trans hg.owned_space

theorem run_inv (hU : Mapped U) (hrun : Transition.Run Allowed Step σ τ) (hinv : Inv U σ) : Inv U τ :=
  hrun.invariant (fun hallowed hstep hinv => (hstep.spec hU hallowed hinv).1) hinv

/-! ### A small machine -/

theorem pcMap_safe : SafeMap pcImage pcMap :=
  ⟨pcMap_usable, pcMap_imageApart, pcMap_firstPagesUsable, pcMap_tableApart, by decide⟩

theorem pcFrames {boot : BootAlloc} {pmm : Pmm} (hboot : initMemory pcImage pcMap = .ok (boot, pmm)) :
    ∀ x ∈ [0, 1, 2], x ∈ pmm.freeCells := by
  obtain ⟨E, hbooted⟩ := initMemory_booted pcMap_usable hboot
  obtain rfl : ⟨0x4000, 0xC000, 1⟩ = E := Option.some.inj hbooted.entry
  have hbegin : givenBegin pcImage boot.bootTail ⟨0x4000, 0xC000, 1⟩ ⟨0, 0x3000, 1⟩ = 0 := by
    rw [givenBegin, if_neg (by decide), if_neg (by decide)]
    exact Nat.zero_div 4096
  intro x hx
  refine hbooted.mem_freeCells.mpr ⟨⟨0, 0x3000, 1⟩, by decide, by rw [hbegin]; exact Nat.zero_le x, ?_⟩
  have hsmall : x < 3 := by
    simp only [List.mem_cons, List.not_mem_nil, or_false] at hx
    omega
  exact hsmall

theorem pcRun : ∃ σ₀ σ τ : Sys Book, ∃ b mm sp, Started pcImage pcMap σ₀ ∧
    Allowed σ₀ (.allocFrames 0) ∧ Step σ₀ (.allocFrames 0) σ ∧ b ∈ σ.frames.frames ∧
    Allowed σ (.tables .create) ∧ Step σ (.tables .create) τ ∧ τ.spaces mm = some sp := by
  obtain ⟨boot, pmm, hboot⟩ := pcMap_returns
  obtain ⟨E, hbooted⟩ := initMemory_booted pcMap_usable hboot
  obtain ⟨hU, hkept⟩ := mapped_freeCells hbooted pcMap_safe.mapped
  have hnodup : [0, 1, 2].Nodup := by decide
  -- the heap takes the first of three frames
  obtain ⟨p₀, s₀, halloc₀, hvalid₀, -⟩ := hkept.alloc_spare hnodup (pcFrames hboot)
    (fun b hb => absurd hb List.not_mem_nil) (by decide)
  have hframe₀ : ∀ s, allocFrames 0 pmm ≠ .ok (invalidAddress, s) := by
    intro s heq
    rw [halloc₀] at heq
    exact hvalid₀ (Prod.mk.inj (Except.ok.inj heq)).1
  obtain ⟨r, m, h, f, hf, hpool, hg⟩ := initPool_good hU hkept hframe₀ ⟨fun _ => 0, []⟩ true
  -- the caller takes the second
  obtain ⟨p₁, s₁, halloc₁, hvalid₁, hkept₁⟩ := hg.kept.alloc_spare hnodup (pcFrames hboot)
    (fun b hb => by rw [List.mem_singleton.mp hb]; rfl) (show 1 < 3 by norm_num)
  have hstep : Step ⟨r, ⟨m, [], [], [], []⟩, ⟨0, 0⟩, fun _ => none, ∅⟩ (.allocFrames 0)
      ⟨r, ⟨{ m with pmm := s₁ }, [⟨p₁, 0⟩], [], [], []⟩, ⟨0, 0⟩, fun _ => none, ∅⟩ := by
    have hstep' := Step.allocFrames (σ := ⟨r, ⟨m, [], [], [], []⟩, ⟨0, 0⟩, fun _ => none, ∅⟩) halloc₁
    rw [if_neg hvalid₁, shiftRight_page, shiftLeft_page, Nat.mul_div_cancel _ (by norm_num)] at hstep'
    exact hstep'
  obtain ⟨fs, hg₁⟩ : ∃ fs, Good pmm.freeCells r ⟨{ m with pmm := s₁ }, [⟨p₁, 0⟩], [], [], []⟩
      { h with frames := fs } [freshPage f hf] :=
    hg.reown hU rfl rfl (fun _ hf => absurd hf List.not_mem_nil) (hkept₁.perm List.perm_middle.symm)
  -- and the PML4 is the third
  obtain ⟨p₂, s₂, halloc₂, hvalid₂, -⟩ := hg₁.kept.alloc_spare hnodup (pcFrames hboot)
    (fun b hb => by
      rcases List.mem_cons.mp hb with rfl | hb
      · rfl
      · rw [List.mem_singleton.mp hb]) (show 2 < 3 by norm_num)
  have hroomy : Allocators.Roomy { m with pmm := s₁ } r mmSize := by
    refine hg₁.roomy_iff.mpr fun l hl => ?_
    have hfind : (heapBlocks [freshPage f hf]).find? (Fits (wrap (alignUp mmSize 16 + 32))) = some (4072, false) := rfl
    rw [servingLen, hfind] at hl
    rw [← Option.some.inj hl]
    intro htight
    exact absurd htight.2 (by decide)
  obtain ⟨-, mm, r', s', h', ps', hcreate, -, -, -, hmm⟩ := createMm_good hg₁ hU hroomy
  have hne : mm ≠ 0 := by
    refine hmm (fun s heq => ?_) ⟨(4072, false), List.mem_singleton.mpr rfl, rfl, by decide⟩
    rw [halloc₂] at heq
    exact hvalid₂ (Prod.mk.inj (Except.ok.inj heq)).1
  refine ⟨_, _, _, ⟨p₁, 0⟩, mm, _, ⟨pcMap_safe, boot, pmm, _, true, r, m, ⟨0, 0⟩, hboot, hpool, rfl⟩,
    Nat.zero_le _, hstep, List.mem_singleton.mpr rfl, ⟨trivial, fun heq => ?_, fun _ => hroomy⟩,
    .tables (.create hcreate hne), Function.update_self ..⟩
  cases heq

/-! ### What the parts of the kernel rely on -/

/-- What is handed out is apart from everything else that is. -/
structure Apart (s : Book) : Prop where
  blocks : ∀ b ∈ s.held, ∀ c ∈ s.held, b ≠ c → Disjoint (blockSpan b) (blockSpan c)
  objects : s.given.Pairwise fun o o' => Disjoint (objectSpan o) (objectSpan o')
  apart : ∀ b ∈ s.held, ∀ o ∈ s.given, Disjoint (blockSpan b) (objectSpan o)
  nodup : s.held.Nodup

/-- A step while the callers have these bytes and do not store to them. -/
def Leaves (X : Set ℕ) (σ : Sys Book) (act : Act) : Prop :=
  Allowed σ act ∧ X ⊆ clientBytes σ.frames ∧ ∀ r, act = .store r → Wrote σ.ram r Xᶜ

theorem SafeMap.frameSpace_spare {boot : BootAlloc} {pmm : Pmm} (hsafe : SafeMap image entries)
    (hboot : initMemory image entries = .ok (boot, pmm)) :
    frameSpace pmm.freeCells ⊆ physToVirt '' {p | Spare image entries pmm p} := by
  rintro x ⟨hlow, hfree⟩
  have hspare := hsafe.spare hboot hfree (mem_frameBytes.mpr rfl)
  refine ⟨x - kernelDirectBase, hspare, ?_⟩
  have hmapped := hspare.mapped
  rw [physToVirt]
  rw [kernelDirectBase_eq] at *
  rw [wrap_of_lt (by omega)]
  omega

def heapFrame (a : ℕ) : Block := frameBlock (a - kernelDirectBase)

/-- Each frame is free, or it is a page of the heap, or it is handed out. -/
structure Accounted (free : Set ℕ) (σ : Sys Book) (pages : List ℕ) : Prop where
  links : IsList (poolNext σ.ram) (some σ.frames.alloc.pools) pages
  apart : (pages.map heapFrame ++ σ.frames.held).Pairwise fun b c => Disjoint b.span c.span
  used : ∀ b ∈ pages.map heapFrame ++ σ.frames.held, Disjoint b.span σ.frames.alloc.pmm.freeCells
  all : ∀ x, x ∈ free ↔ x ∈ σ.frames.alloc.pmm.freeCells ∨ ∃ b ∈ pages.map heapFrame ++ σ.frames.held, x ∈ b.span

/-- What a call needs to return: the address space is there, and the frames for the tables that are missing. -/
def Ready (σ : Sys Book) : Act → Prop
  | .tables (.map mm _ page _) => ∃ sp, σ.spaces mm = some sp ∧
      Supplies services (missing σ.ram sp.pml4 (upper page)) σ.frames
  | .tables (.unmap mm _) => σ.spaces mm ≠ none
  | _ => True

theorem supplies_guarded {n : ℕ} (hU : Mapped U) (hg : Good U r s h ps) (hsupply : Supplies services n s) :
    Supplies (guarded U) n s := by
  induction n generalizing s h with
  | zero => trivial
  | succ n ih =>
    obtain ⟨f, s', hserve, hvalid, hrest⟩ := hsupply
    obtain ⟨f', s₁, fs, hserve', hg', -⟩ := hg.serveFrame hU
    rw [hserve] at hserve'
    obtain ⟨rfl, rfl⟩ := Prod.mk.inj (Except.ok.inj hserve')
    exact ⟨f, s', (guarded_allocFrames hg).trans hserve, hvalid, ih hg' hrest⟩

def Act.on : Act → Option ℕ
  | .tables act => act.on
  | _ => none

/-- The functions answer from the maps of the address spaces. -/
structure Answers (σ : Sys Book) : Prop where
  lookup : ∀ {mm sp}, σ.spaces mm = some sp → ∀ v, virtToPhys mm v σ.ram =
    .ok ((sp.map (pageNumber v)).elim invalidAddress fun f => f + pageOffset v)
  map : ∀ {mm sp frame page attr done r s}, σ.spaces mm = some sp → PageEntry frame attr →
    mapPage services mm frame page attr σ.ram σ.frames = .ok (done, r, s) →
    (done = true ↔ sp.map (pageNumber page) = none) ∧ (done = false → r = σ.ram ∧ s = σ.frames)
  unmap : ∀ {mm sp}, σ.spaces mm = some sp → ∀ page, ∃ r,
    unmapPage mm page σ.ram = .ok ((sp.map (pageNumber page)).getD invalidAddress, r) ∧
      (sp.map (pageNumber page) = none → r = σ.ram)
  others : ∀ {act τ mm}, Allowed σ act → Step σ act τ → σ.spaces mm ≠ none → act.on ≠ some mm →
    ∀ v, virtToPhys mm v τ.ram = virtToPhys mm v σ.ram

end Fynaos.Kernel
