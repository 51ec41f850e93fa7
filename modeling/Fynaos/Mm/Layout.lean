import Fynaos.Mm.Model
import Fynaos.Pmm.Runs
import Mathlib.Data.List.Pairwise
import Mathlib.Order.Interval.Set.Disjoint

/-!
# Where `init_memory` puts things

`Booted image entries boot s E` describes every state in which `init_memory` returns: the boot
allocator worked in the entry `E`, the frame table takes the bytes from its first 16-byte boundary
behind the kernel image on, the unreserved frames are those of the usable entries, and the free
blocks tile the page ranges `givenPages` of these entries (`initMemory_booted`).

A table beyond `2 ^ 48` is not accessible, so the usable entries end below `2 ^ 57` and no rounding
up wraps around (`Booted.limit_lt`).
-/

namespace Fynaos

open Buddy NextList

/-! ### Byte ranges -/

def MmapEntry.bytes (e : MmapEntry) : Set ℕ := Set.Ico e.addr (e.addr + e.len)

def KernelImage.bytes (image : KernelImage) : Set ℕ := Set.Ico image.physStart image.physEnd

def frameBytes (x : ℕ) : Set ℕ := Set.Ico (x * 4096) (x * 4096 + 4096)

def usable (entries : List MmapEntry) : List MmapEntry := entries.filter fun e => e.type = 1

/-- The usable entries are pairwise disjoint and do not wrap around. -/
structure UsableMap (entries : List MmapEntry) : Prop where
  nowrap : ∀ e ∈ usable entries, e.addr + e.len < 2 ^ 64
  disjoint : (usable entries).Pairwise fun e e' => Disjoint e.bytes e'.bytes

/-- The test of `init_memory` whether a block contains the kernel image. -/
def MmapEntry.Contains (e : MmapEntry) (image : KernelImage) : Prop :=
  e.addr ≤ image.physStart ∧ image.physEnd ≤ e.addr + e.len

instance (e : MmapEntry) (image : KernelImage) : Decidable (e.Contains image) :=
  inferInstanceAs (Decidable (_ ∧ _))

/-- The whole pages that `unreserve_frame_region` gets for an entry. -/
def entryPages (e : MmapEntry) : ℕ × ℕ :=
  (e.addr >>> pageShift, wrap (e.addr + e.len) >>> pageShift)

section ranges
variable {entries : List MmapEntry} {e e' : MmapEntry} {image : KernelImage} {x : ℕ}

theorem mem_usable : e ∈ usable entries ↔ e ∈ entries ∧ e.type = 1 := by
  simp [usable]

theorem usable_cons_of_eq (h : e.type = 1) : usable (e :: entries) = e :: usable entries := by
  simp [usable, h]

theorem usable_cons_of_ne (h : e.type ≠ 1) : usable (e :: entries) = usable entries := by
  simp [usable, h]

theorem UsableMap.entryPages_eq (h : UsableMap entries) (he : e ∈ usable entries) :
    entryPages e = (e.addr / 4096, (e.addr + e.len) / 4096) := by
  rw [entryPages, wrap_of_lt (h.nowrap e he), shiftRight_page, shiftRight_page]

theorem mem_frameBytes {y : ℕ} : y ∈ frameBytes x ↔ y / 4096 = x := by
  rw [frameBytes, Set.mem_Ico]
  omega

theorem UsableMap.disjoint_of_ne (h : UsableMap entries) (he : e ∈ usable entries)
    (he' : e' ∈ usable entries) (hne : e ≠ e') : Disjoint e.bytes e'.bytes := by
  have : Std.Symm fun e e' : MmapEntry => Disjoint e.bytes e'.bytes := ⟨fun _ _ hd => hd.symm⟩
  exact h.disjoint.forall he he' hne

theorem disjoint_pages (h : Disjoint e.bytes e'.bytes) :
    Disjoint (Set.Ico (e.addr / 4096) ((e.addr + e.len) / 4096))
      (Set.Ico (e'.addr / 4096) ((e'.addr + e'.len) / 4096)) := by
  rw [MmapEntry.bytes, MmapEntry.bytes, Set.Ico_disjoint_Ico] at h
  rw [Set.disjoint_left]
  rintro y ⟨h1, h2⟩ ⟨h3, h4⟩
  omega

end ranges

/-! ### The loops over the map -/

def better (best : Option MmapEntry) (e : MmapEntry) : Option MmapEntry :=
  if best.elim 0 MmapEntry.len < e.len ∧ e.type = 1 then some e else best

/-- The entry that the first loop settles on: the first of the longest usable ones. -/
def bootEntry (entries : List MmapEntry) : Option MmapEntry := entries.foldl better none

def bootTriple : Option MmapEntry → ℕ × ℕ × ℕ
  | none => (invalidAddress, invalidAddress, 0)
  | some e => (e.addr, wrap (e.addr + e.len), e.len)

section loops
variable {entries : List MmapEntry} {e E : MmapEntry} {s : Pmm}

theorem bootTriple_len (best : Option MmapEntry) :
    (bootTriple best).2.2 = best.elim 0 MmapEntry.len := by
  cases best <;> rfl

theorem chooseRound_eq (best : Option MmapEntry) (e : MmapEntry) :
    chooseRound (bootTriple best) e = bootTriple (better best e) := by
  change (if (bootTriple best).2.2 < e.len ∧ e.type = 1 then _ else bootTriple best) = _
  rw [bootTriple_len, better, apply_ite bootTriple]
  rfl

theorem foldl_chooseRound (best : Option MmapEntry) :
    entries.foldl chooseRound (bootTriple best) = bootTriple (entries.foldl better best) := by
  induction entries generalizing best with
  | nil => rfl
  | cons e es ih => rw [List.foldl_cons, List.foldl_cons, chooseRound_eq, ih]

theorem chooseBoot_eq (entries : List MmapEntry) :
    chooseBoot entries = bootTriple (bootEntry entries) := foldl_chooseRound none

theorem foldl_better {best : Option MmapEntry} (h : entries.foldl better best = some E) :
    best = some E ∨ (E ∈ usable entries ∧ 0 < E.len) := by
  induction entries generalizing best with
  | nil => exact Or.inl h
  | cons e es ih =>
    rw [List.foldl_cons] at h
    rcases ih h with hbest | ⟨hmem, hlen⟩
    · unfold better at hbest
      split_ifs at hbest with htake
      · obtain rfl := Option.some.inj hbest
        exact Or.inr ⟨mem_usable.mpr ⟨List.mem_cons_self, htake.2⟩, by omega⟩
      · exact Or.inl hbest
    · rw [mem_usable] at hmem
      exact Or.inr ⟨mem_usable.mpr ⟨List.mem_cons_of_mem _ hmem.1, hmem.2⟩, hlen⟩

theorem bootEntry_spec (h : bootEntry entries = some E) : E ∈ usable entries ∧ 0 < E.len :=
  (foldl_better h).resolve_left (by simp)

theorem le_ramRound (acc : ℕ) (e : MmapEntry) :
    acc ≤ ramRound acc e ∧ (e.type = 1 → wrap (e.addr + e.len) ≤ ramRound acc e) ∧
      (acc < 2 ^ 64 → ramRound acc e < 2 ^ 64) := by
  have hwrap := wrap_lt (e.addr + e.len)
  unfold ramRound
  dsimp only
  split_ifs with h
  · exact ⟨le_of_lt h.1, fun _ => le_refl _, fun _ => hwrap⟩
  · exact ⟨le_refl _, fun htype => Nat.le_of_not_lt fun hlt => h ⟨hlt, htype⟩, id⟩

theorem foldl_ramRound {acc : ℕ} (hacc : acc < 2 ^ 64) :
    acc ≤ entries.foldl ramRound acc ∧ entries.foldl ramRound acc < 2 ^ 64 ∧
      ∀ e ∈ usable entries, wrap (e.addr + e.len) ≤ entries.foldl ramRound acc := by
  induction entries generalizing acc with
  | nil => exact ⟨le_refl _, hacc, by simp [usable]⟩
  | cons e es ih =>
    obtain ⟨hle, htype, hlt⟩ := le_ramRound acc e
    obtain ⟨h1, h2, h3⟩ := ih (hlt hacc)
    rw [List.foldl_cons]
    refine ⟨hle.trans h1, h2, fun d hd => ?_⟩
    rw [mem_usable, List.mem_cons] at hd
    rcases hd with ⟨rfl | hd, hd'⟩
    · exact (htype hd').trans h1
    · exact h3 d (mem_usable.mpr ⟨hd, hd'⟩)

theorem ramLimit_lt (entries : List MmapEntry) : ramLimit entries < 2 ^ 64 :=
  (foldl_ramRound (by norm_num)).2.1

theorem UsableMap.le_ramLimit (h : UsableMap entries) (he : e ∈ usable entries) :
    e.addr + e.len ≤ ramLimit entries := by
  have hle : wrap (e.addr + e.len) ≤ ramLimit entries :=
    (foldl_ramRound (by norm_num)).2.2 e he
  rwa [wrap_of_lt (h.nowrap e he)] at hle

theorem unreserveUsable_eq :
    unreserveUsable entries s = unreserveRanges ((usable entries).map entryPages) s := by
  induction entries generalizing s with
  | nil => rfl
  | cons e es ih =>
    rw [unreserveUsable, List.foldlM_cons]
    by_cases htype : e.type = 1
    · rw [usable_cons_of_eq htype, List.map_cons, unreserveRanges, List.foldlM_cons, if_pos htype]
      congr 1
      funext s
      exact ih
    · rw [usable_cons_of_ne htype, if_neg htype]
      exact ih

theorem handOverUsable_eq {image : KernelImage} {begin_ limit : ℕ} {boot : BootAlloc} :
    handOverUsable image begin_ limit boot entries s =
      handRanges ((usable entries).map (handOff image begin_ limit boot.bootTail)) s := by
  induction entries generalizing s with
  | nil => rfl
  | cons e es ih =>
    rw [handOverUsable, List.foldlM_cons]
    by_cases htype : e.type = 1
    · rw [usable_cons_of_eq htype, List.map_cons, handRanges, List.foldlM_cons,
        if_neg (not_not.mpr htype)]
      congr 1
      funext s
      exact ih
    · rw [usable_cons_of_ne htype, if_pos htype]
      exact ih

end loops

/-! ### The state in which `init_memory` returns -/

/-- The page ranges passed to `init_buddy_allocator`. -/
def givenPages (image : KernelImage) (boot : BootAlloc) (entries : List MmapEntry) :
    List (ℕ × ℕ) :=
  (usable entries).map (handOff image boot.bootBegin boot.bootLimit boot.bootTail)

/-- `init_memory` returned after choosing `E` for the boot allocator. -/
structure Booted (image : KernelImage) (entries : List MmapEntry) (boot : BootAlloc) (s : Pmm)
    (E : MmapEntry) : Prop where
  map : UsableMap entries
  entry : bootEntry entries = some E
  begin_eq : boot.bootBegin = bootBegin image E.addr (E.addr + E.len)
  limit_eq : boot.bootLimit = E.addr + E.len
  begin_le : E.addr ≤ boot.bootBegin
  start_le : boot.bootBegin ≤ alignUp boot.bootBegin 16
  tableAddr : s.mmFramesAddr = wrap (alignUp boot.bootBegin 16 + kernelDirectBase)
  count : s.mmFramesCount = ramLimit entries / 4096
  tail_eq : boot.bootTail = alignUp boot.bootBegin 16 + s.mmFramesCount * 16
  tail_lt : boot.bootTail < E.addr + E.len
  limit_lt : ∀ e ∈ usable entries, e.addr + e.len < 2 ^ 57
  core : ∃ L, Core s L ∅ (cells (givenPages image boot entries))
  reserved : ∀ x < s.mmFramesCount, (s.mmFrames x).flags &&& frameReserved = 0 ↔
    x ∈ cells ((usable entries).map entryPages)

section booted
variable {image : KernelImage} {entries : List MmapEntry} {boot : BootAlloc} {s s₁ : Pmm}
  {e E : MmapEntry}

theorem table_le {addr count : ℕ} (haddr : addr < 2 ^ 64) (hdvd : 16 ∣ addr)
    (hcount : count ≤ 2 ^ 52) (hpos : 0 < count)
    (hs : s.mmFramesAddr = wrap (addr + kernelDirectBase)) (hcan : s.mmFramesCount = count)
    (hacc : Accessible s) : addr + count * 16 ≤ 2 ^ 48 := by
  obtain ⟨t, rfl⟩ := hdvd
  have h0 := hacc 0 (by omega)
  have h1 := hacc (count - 1) (by omega)
  simp only [Canonical, Pmm.frameAddr, hs, wrap, kernelDirectBase, sizeofFrame] at h0 h1
  omega

theorem alignUp_page_of_lt {a : ℕ} (ha : a < 2 ^ 63) :
    alignUp a pageSize = (a + 4095) / 4096 * 4096 := by
  rw [alignUp_page, wrap_of_lt (by omega)]

theorem alignUp_sixteen_of_lt {a : ℕ} (ha : a < 2 ^ 63) :
    alignUp a 16 = (a + 15) / 16 * 16 := by
  rw [alignUp_sixteen, wrap_of_lt (by omega)]

/-- Past the kernel image, `boot_begin` is still in its entry or just behind it. -/
theorem bootBegin_spec (image : KernelImage) (he : e.addr + e.len < 2 ^ 57) :
    e.addr ≤ bootBegin image e.addr (e.addr + e.len) ∧
      bootBegin image e.addr (e.addr + e.len) ≤ e.addr + e.len + 4095 ∧
      (e.Contains image → image.physEnd ≤ bootBegin image e.addr (e.addr + e.len)) ∧
      (¬ e.Contains image → bootBegin image e.addr (e.addr + e.len) = e.addr) := by
  have hle := image.le
  unfold bootBegin
  by_cases h : e.Contains image
  · obtain ⟨h1, h2⟩ := h
    rw [if_pos ⟨h1, h2⟩, alignUp_page_of_lt (by omega)]
    exact ⟨by omega, by omega, fun _ => by omega, fun hn => absurd ⟨h1, h2⟩ hn⟩
  · rw [if_neg (show ¬ (e.addr ≤ image.physStart ∧ image.physEnd ≤ e.addr + e.len) from h)]
    exact ⟨le_refl _, by omega, fun hc => absurd hc h, fun _ => rfl⟩

/-- The first page passed on for an entry: the boot entry is cut behind the boot allocations, another
one that contains the kernel image is cut behind the image. -/
def givenBegin (image : KernelImage) (tail : ℕ) (E e : MmapEntry) : ℕ :=
  if e = E then (tail + 4095) / 4096
  else if e.Contains image then (image.physEnd + 4095) / 4096
  else e.addr / 4096

theorem handOff_eq {begin_ tail : ℕ} (hmap : UsableMap entries) (he : e ∈ usable entries)
    (hE : E ∈ usable entries) (hlt : ∀ e ∈ usable entries, e.addr + e.len < 2 ^ 57)
    (hbegin : begin_ = bootBegin image E.addr (E.addr + E.len)) (hle : begin_ ≤ tail)
    (htail : tail < E.addr + E.len) :
    handOff image begin_ (E.addr + E.len) tail e =
      (givenBegin image tail E e, (e.addr + e.len) / 4096) := by
  have helt := hlt e he
  have hElt := hlt E hE
  obtain ⟨h1, -, -, h4⟩ := bootBegin_spec image helt
  have hhand : handOff image begin_ (E.addr + E.len) tail e =
      ((if bootBegin image e.addr (e.addr + e.len) ≤ begin_ ∧ E.addr + E.len ≤ e.addr + e.len
        then alignUp tail pageSize else bootBegin image e.addr (e.addr + e.len)) >>> pageShift,
        (e.addr + e.len) >>> pageShift) := by
    simp only [handOff, wrap_of_lt (hmap.nowrap e he)]
    rfl
  rw [hhand, shiftRight_page, shiftRight_page, givenBegin]
  by_cases heE : e = E
  · subst heE
    rw [if_pos ⟨hbegin.ge, le_refl _⟩, if_pos rfl, alignUp_page_of_lt (by omega),
      Nat.mul_div_cancel _ (by norm_num)]
  · -- another entry that reaches as far as the boot entry begins behind it
    have hdisj := hmap.disjoint_of_ne he hE heE
    have hbeginE := (bootBegin_spec image hElt).1
    rw [MmapEntry.bytes, MmapEntry.bytes, Set.Ico_disjoint_Ico] at hdisj
    rw [if_neg (by omega), if_neg heE]
    by_cases hc : e.Contains image
    · have hcE := hc.2
      rw [if_pos hc, bootBegin, if_pos (show _ ∧ _ from hc), alignUp_page_of_lt (by omega),
        Nat.mul_div_cancel _ (by norm_num)]
    · rw [if_neg hc, h4 hc]

theorem addr_le_givenBegin {tail : ℕ} (hE : E.addr ≤ tail) :
    e.addr / 4096 ≤ givenBegin image tail E e := by
  have himage := image.le
  unfold givenBegin
  split_ifs with h1 h2
  · subst h1
    omega
  · have := h2.1
    omega
  · exact le_refl _

/-- The ranges passed on lie in the whole pages of their entries, so they are disjoint as these
are. -/
theorem given_disjoint {tail : ℕ} (hmap : UsableMap entries) (hE : E.addr ≤ tail) :
    DisjointRanges ((usable entries).map fun e =>
      (givenBegin image tail E e, (e.addr + e.len) / 4096)) := by
  rw [DisjointRanges, List.pairwise_map]
  refine hmap.disjoint.imp fun {e e'} hdisj => ?_
  exact (disjoint_pages hdisj).mono (Set.Ico_subset_Ico_left (addr_le_givenBegin hE))
    (Set.Ico_subset_Ico_left (addr_le_givenBegin hE))

theorem cells_given_subset {tail : ℕ} (hmap : UsableMap entries) (hE : E.addr ≤ tail) :
    cells ((usable entries).map fun e => (givenBegin image tail E e, (e.addr + e.len) / 4096)) ⊆
      cells ((usable entries).map entryPages) := by
  rintro x ⟨r, hr, hx⟩
  obtain ⟨e, he, rfl⟩ := List.mem_map.mp hr
  refine ⟨_, List.mem_map_of_mem he, ?_⟩
  rw [hmap.entryPages_eq he]
  exact ⟨(addr_le_givenBegin hE).trans hx.1, hx.2⟩

theorem booted_of_initFrames {B : ℕ} (hmap : UsableMap entries) (hE : bootEntry entries = some E)
    (hB : B = bootBegin image E.addr (E.addr + E.len))
    (hinit : initFrames (ramLimit entries &&& pageMask) (initBootAlloc B (E.addr + E.len))
      Pmm.zero = .ok (boot, s₁)) :
    ∃ s₂ s, unreserveUsable entries s₁ = .ok s₂ ∧
      handOverUsable image B (E.addr + E.len) boot entries s₂ = .ok s ∧
      Booted image entries boot s E := by
  obtain ⟨hmem, hlen⟩ := bootEntry_spec hE
  obtain ⟨hguard, hboot, haddr, hcount, -, hacc, -⟩ := initFrames_inv hinit
  have hram := ramLimit_lt entries
  have hlimit : (ramLimit entries &&& pageMask) < 2 ^ 64 := lt_of_le_of_lt Nat.and_le_left hram
  rw [land_pageMask hram, Nat.mul_div_cancel _ (by norm_num)] at hguard hboot hcount
  simp only [initBootAlloc] at hguard hboot haddr
  have hal : 16 ∣ alignUp B 16 := by
    rw [alignUp_sixteen]
    exact Nat.dvd_mul_left _ _
  have hT : alignUp B 16 < 2 ^ 64 := by
    have := wrap_lt (B + 15)
    rw [alignUp_sixteen]
    omega
  -- the table is accessible, so memory ends far below `2 ^ 64`
  have htable : 0 < ramLimit entries / 4096 →
      alignUp B 16 + ramLimit entries / 4096 * 16 ≤ 2 ^ 48 :=
    fun hpos => table_le hT hal (by omega) hpos haddr hcount hacc
  have hlt : ∀ e ∈ usable entries, e.addr + e.len < 2 ^ 57 := fun e he => by
    have := hmap.le_ramLimit he
    omega
  have hElt := hlt E hmem
  obtain ⟨h1, h2, -, -⟩ := bootBegin_spec image hElt
  rw [← hB] at h1 h2
  have hstart : B ≤ alignUp B 16 ∧ alignUp B 16 < 2 ^ 58 := by
    rw [alignUp_sixteen_of_lt (by omega)]
    omega
  have hsize : wrap (ramLimit entries / 4096 * 16) = ramLimit entries / 4096 * 16 :=
    wrap_of_lt (by omega)
  have hwrap : wrap (alignUp B 16 + ramLimit entries / 4096 * 16) =
      alignUp B 16 + ramLimit entries / 4096 * 16 := wrap_of_lt (by omega)
  rw [hsize, hwrap] at hguard hboot
  subst hboot
  -- the ranges passed on
  have hgiven : givenPages image
      ⟨B, alignUp B 16 + ramLimit entries / 4096 * 16, E.addr + E.len⟩ entries =
      (usable entries).map fun e =>
        (givenBegin image (alignUp B 16 + ramLimit entries / 4096 * 16) E e,
          (e.addr + e.len) / 4096) :=
    List.map_congr_left fun e he =>
      handOff_eq hmap he hmem hlt hB (hstart.1.trans (Nat.le_add_right _ _)) hguard
  have hinside : ∀ e ∈ usable entries, (e.addr + e.len) / 4096 ≤ s₁.mmFramesCount :=
    fun e he => by
      rw [hcount]
      exact Nat.div_le_div_right (hmap.le_ramLimit he)
  obtain ⟨s₂, s, L, hrun₁, hrun, hsame, hcore, -, hflags⟩ := unreserve_hand_spec hlimit hinit
    (hgiven.symm ▸ given_disjoint hmap (by omega))
    (by
      intro r hr
      obtain ⟨e, he, rfl⟩ := List.mem_map.mp hr
      rw [hmap.entryPages_eq he]
      exact hinside e he)
    (by
      rw [hgiven]
      intro r hr
      obtain ⟨e, he, rfl⟩ := List.mem_map.mp hr
      exact hinside e he)
    (hgiven.symm ▸ cells_given_subset hmap (by omega))
  exact ⟨s₂, s, unreserveUsable_eq.trans hrun₁, handOverUsable_eq.trans hrun,
    { map := hmap, entry := hE, begin_eq := hB, limit_eq := rfl, begin_le := h1,
      start_le := hstart.1, tableAddr := hsame.1.trans haddr, count := hsame.2.trans hcount,
      tail_eq := by rw [hsame.2, hcount], tail_lt := hguard, limit_lt := hlt,
      core := ⟨L, hcore⟩, reserved := fun x hx => hflags x (hsame.2 ▸ hx) }⟩

theorem initMemory_eq (hmap : UsableMap entries) (hE : bootEntry entries = some E) :
    initMemory image entries = (do
      let (boot, s) ← initFrames (ramLimit entries &&& pageMask)
        (initBootAlloc (bootBegin image E.addr (E.addr + E.len)) (E.addr + E.len)) Pmm.zero
      let s ← unreserveUsable entries s
      let s ← handOverUsable image (bootBegin image E.addr (E.addr + E.len)) (E.addr + E.len) boot
        entries s
      return (boot, s)) := by
  obtain ⟨hmem, hlen⟩ := bootEntry_spec hE
  have hram := hmap.le_ramLimit hmem
  unfold initMemory
  rw [chooseBoot_eq, hE, bootTriple]
  simp only
  rw [wrap_of_lt (hmap.nowrap E hmem), if_neg (by omega), if_neg (by omega)]

theorem initMemory_booted (hmap : UsableMap entries)
    (h : initMemory image entries = .ok (boot, s)) : ∃ E, Booted image entries boot s E := by
  cases hE : bootEntry entries with
  | none =>
    rw [initMemory, chooseBoot_eq, hE] at h
    exact absurd h (by simp [bootTriple])
  | some E =>
    rw [initMemory_eq hmap hE] at h
    cases hinit : initFrames (ramLimit entries &&& pageMask)
        (initBootAlloc (bootBegin image E.addr (E.addr + E.len)) (E.addr + E.len)) Pmm.zero with
    | error e =>
      rw [hinit] at h
      cases h
    | ok p =>
      obtain ⟨boot', s₁⟩ := p
      obtain ⟨s₂, s', hrun₁, hrun, hbooted⟩ := booted_of_initFrames hmap hE rfl hinit
      rw [hinit] at h
      simp only [bind, Except.bind, hrun₁, hrun] at h
      cases h
      exact ⟨E, hbooted⟩

end booted

end Fynaos
