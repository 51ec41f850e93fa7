import Fynaos.Vmm.Huge

/-!
# What the boot tables map

The tables of `boot.S` are the only ones of the kernel, because `init_kernel_mm` is empty. Three entries of the PML4
lead to one PDPT with leaves of 1 GiB, so physical memory is seen through three windows of 512 GiB each
(`boot_translates`). The last 2 GiB of a window show the first 2 GiB of memory again, which is where the kernel image
is. `phys_to_virt` leads to memory below 510 GiB only.
-/

namespace Fynaos.Vmm

/-- The physical address behind an offset in a window. -/
def behind (offset : ℕ) : ℕ := if offset < 510 * 2 ^ 30 then offset else offset - 510 * 2 ^ 30

/-- The physical address behind a virtual one: the lowest 512 GiB are a window, the direct map is one, and the highest
512 GiB with the kernel image. -/
def bootMap (v : ℕ) : Option ℕ :=
  if v < 2 ^ 39 then some (behind v)
  else if kernelDirectBase ≤ v ∧ v < kernelDirectBase + 2 ^ 39 then some (behind (v - kernelDirectBase))
  else if 2 ^ 64 - 2 ^ 39 ≤ v then some (behind (v - (2 ^ 64 - 2 ^ 39)))
  else none

variable {r : Ram} {pml4 pdpt p v : ℕ}

theorem behind_lt (offset : ℕ) (h : offset < 2 ^ 39) : behind offset < 510 * 2 ^ 30 := by
  unfold behind
  split_ifs <;> omega

theorem initialPdpt_eq (q : ℕ) (hq : q < 512) : ∃ k < 510, initialPdpt q = k * 0x40000000 + 0x83 ∧
    ∀ i < 2 ^ 30, behind (q * 2 ^ 30 + i) = k * 2 ^ 30 + i := by
  unfold initialPdpt behind
  split_ifs with hlow
  · refine ⟨q, hlow, rfl, fun i hi => ?_⟩
    rw [if_pos (by omega)]
  · refine ⟨q - 510, by omega, rfl, fun i hi => ?_⟩
    rw [if_neg (by omega)]
    omega

/-- All that the hardware looks at are the lower 48 bits. -/
theorem BootTables.translate_window (h : BootTables r pml4 pdpt) (hpdpt : FrameOk pdpt) (v : ℕ) :
    translate r pml4 v = if (index (shift 3) v : ℕ) = 0 ∨ (index (shift 3) v : ℕ) = 256 ∨ (index (shift 3) v : ℕ) = 511
      then some (behind (v % 2 ^ 39)) else none := by
  have hroot := h.pml4 (index (shift 3) v)
  unfold initialPml4 at hroot
  rw [translate]
  split_ifs at hroot ⊢ with hwindow
  · obtain ⟨k, hk, hleaf, hbehind⟩ := initialPdpt_eq (index (shift 2) v) (index (shift 2) v).isLt
    obtain ⟨hhuge, hfield⟩ := boot_leaf k hk
    have hentry := (h.pdpt (index (shift 2) v)).trans hleaf
    obtain ⟨q, hq⟩ := hpdpt.aligned
    have hpresent : pdpt + 3 &&& pagePresent ≠ 0 := present_of_odd (by omega)
    have hpresent' : k * 0x40000000 + 0x83 &&& pagePresent ≠ 0 := present_of_odd (by omega)
    rw [← hroot] at hpresent
    rw [← hentry] at hpresent' hhuge
    rw [hardwareLeaf_below hpresent fun h => absurd h.1 (lt_irrefl 3), hroot, field_table hpdpt,
      hardwareLeaf_huge hpresent' hhuge, hentry, hfield]
    have hoffset : v % 2 ^ 39 = (index (shift 2) v : ℕ) * 2 ^ 30 + v % 2 ^ 30 := by
      show v % 2 ^ 39 = v / 2 ^ 30 % 512 * 2 ^ 30 + v % 2 ^ 30
      omega
    rw [hoffset, hbehind _ (Nat.mod_lt _ (by norm_num))]
    rfl
  · rw [hardwareLeaf_absent (by rw [hroot]; decide)]
    rfl

theorem bootMap_eq (hv : v < 2 ^ 64) (hcanonical : Canonical v) : bootMap v =
    if (index (shift 3) v : ℕ) = 0 ∨ (index (shift 3) v : ℕ) = 256 ∨ (index (shift 3) v : ℕ) = 511
      then some (behind (v % 2 ^ 39)) else none := by
  have hindex : (index (shift 3) v : ℕ) = v / 2 ^ 39 % 512 := rfl
  unfold Canonical at hcanonical
  rw [bootMap, hindex, kernelDirectBase_eq]
  split_ifs with hlow hwindow hdirect hwindow himage hwindow
  · rw [Nat.mod_eq_of_lt hlow]
  · omega
  · have hoffset : v % 2 ^ 39 = v - 0xFFFF800000000000 := by omega
    rw [hoffset]
  · omega
  · have hoffset : v % 2 ^ 39 = v - (2 ^ 64 - 2 ^ 39) := by omega
    rw [hoffset]
  · omega
  · omega
  · rfl

/-- Under the boot tables the hardware translates by the three windows, and `phys_to_virt` is right below 510 GiB and
nowhere else. -/
theorem boot_translates (h : BootTables r pml4 pdpt) (hpdpt : FrameOk pdpt) :
    (∀ v < 2 ^ 64, Canonical v → translate r pml4 v = bootMap v) ∧
      (∀ p, translate r pml4 (physToVirt p) = some p ↔ p < 510 * 2 ^ 30) := by
  constructor
  · intro v hv hcanonical
    rw [h.translate_window hpdpt, bootMap_eq hv hcanonical]
  · intro p
    constructor
    · intro htranslate
      rw [h.translate_window hpdpt] at htranslate
      split_ifs at htranslate
      rw [← Option.some.inj htranslate]
      exact behind_lt _ (Nat.mod_lt _ (by norm_num))
    · exact h.translate_eq hpdpt

theorem boot_translates_bootRam : (∀ v < 2 ^ 64, Canonical v → translate bootRam 0x200000 v = bootMap v) ∧
    (∀ p, translate bootRam 0x200000 (physToVirt p) = some p ↔ p < 510 * 2 ^ 30) :=
  boot_translates bootRam_tables ⟨by norm_num, by decide⟩

end Fynaos.Vmm
