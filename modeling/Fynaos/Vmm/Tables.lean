import Fynaos.Vmm.Model
import Fynaos.Lib.Radix

/-!
# Tables in memory

A page table is a page frame of 512 entries in the direct map; `child` is the frame behind an
entry that is present. The four indices of an address make its path, and `virt_to_phys` and `unmap_page`
follow it (`virtToPhys_eq`, `unmapPage_eq`).
-/

namespace Fynaos.Vmm

open Radix

/-- Physical memory ends below the place of the kernel image in the direct map. -/
def physLimit : ℕ := 0xFFFFFFFF80000000 - kernelDirectBase

/-- The address of a page frame. -/
structure FrameOk (f : ℕ) : Prop where
  aligned : 4096 ∣ f
  below : f + 4096 ≤ physLimit

/-- The bytes of a page frame, in the direct map. -/
def pageSpan (f : ℕ) : Set ℕ := Set.Ico (kernelDirectBase + f) (kernelDirectBase + f + 4096)

/-- The address of an entry. -/
def entryAddr (f : ℕ) (i : Fin 512) : ℕ := kernelDirectBase + f + 8 * i

/-- The bytes of an entry. -/
def entrySpan (f : ℕ) (i : Fin 512) : Set ℕ := Set.Ico (entryAddr f i) (entryAddr f i + 8)

/-- An entry. -/
def entry (r : Ram) (f : ℕ) (i : Fin 512) : ℕ := r.word (entryAddr f i)

/-- What stands behind an entry with a given value. -/
def target (e : ℕ) : Option ℕ := if e &&& pagePresent = 0 then none else some (e &&& pageMask)

/-- The frame behind an entry that is present. -/
def child (r : Ram) (f : ℕ) (i : Fin 512) : Option ℕ := target (entry r f i)

/-- Nine bits of an address. -/
def index (k addr : ℕ) : Fin 512 := ⟨addr / 2 ^ k % 512, Nat.mod_lt _ (by norm_num)⟩

/-- The indices of an address but the last. -/
def upper (addr : ℕ) : List (Fin 512) := [index 39 addr, index 30 addr, index 21 addr]

/-- The four indices of an address. -/
def path (addr : ℕ) : List (Fin 512) := upper addr ++ [index 12 addr]

variable {S : Type} {r r' : Ram} {f g e k v a mm : ℕ} {i j : Fin 512}

/-! ### Bits -/

theorem land_low (e k : ℕ) : e &&& (2 ^ k - 1) = e % 2 ^ k := Nat.and_two_pow_sub_one_eq_mod e k

theorem pml4Index_eq (addr : ℕ) : pml4Index addr = index 39 addr := by
  rw [pml4Index, Nat.shiftRight_eq_div_pow]
  exact land_low _ 9

theorem pdptIndex_eq (addr : ℕ) : pdptIndex addr = index 30 addr := by
  rw [pdptIndex, Nat.shiftRight_eq_div_pow]
  exact land_low _ 9

theorem pdIndex_eq (addr : ℕ) : pdIndex addr = index 21 addr := by
  rw [pdIndex, Nat.shiftRight_eq_div_pow]
  exact land_low _ 9

theorem ptIndex_eq (addr : ℕ) : ptIndex addr = index 12 addr := by
  rw [ptIndex, Nat.shiftRight_eq_div_pow]
  exact land_low _ 9

theorem pageOffset_eq (addr : ℕ) : pageOffset addr = addr % 4096 := land_low addr 12

theorem lor_flags (hf : 4096 ∣ f) (hk : k < 4096) : f ||| k = f + k := by
  obtain ⟨q, rfl⟩ := hf
  exact (Nat.two_pow_add_eq_or_of_lt (i := 12) hk q).symm

theorem target_eq (he : e < 2 ^ 64) :
    target e = if e % 2 = 0 then none else some (e / 4096 * 4096) := by
  rw [target, show e &&& pagePresent = e % 2 from land_low e 1, land_pageMask he]

theorem target_flags (hf : 4096 ∣ f) (hk : k < 4096) (hpresent : k % 2 = 1) (hf64 : f < 2 ^ 64) :
    target (f ||| k) = some f := by
  obtain ⟨q, rfl⟩ := hf
  rw [lor_flags ⟨q, rfl⟩ hk, target_eq (by omega), if_neg (by omega), Option.some_inj]
  omega

theorem target_none : target e = none ↔ e &&& pagePresent = 0 := by
  unfold target
  split_ifs with h
  · exact iff_of_true rfl h
  · exact iff_of_false (fun hnone => nomatch hnone) h

theorem target_some : target e = some a ↔ e &&& pagePresent ≠ 0 ∧ e &&& pageMask = a := by
  unfold target
  split_ifs with h
  · exact iff_of_false (fun hsome => nomatch hsome) fun hsome => hsome.1 h
  · rw [Option.some_inj]
    exact (and_iff_right h).symm

/-! ### Frames -/

theorem physLimit_eq : physLimit = 0x7FFF80000000 := rfl

theorem kernelDirectBase_eq : kernelDirectBase = 0xFFFF800000000000 := rfl

theorem FrameOk.physToVirt_eq (h : FrameOk f) : physToVirt f = kernelDirectBase + f := by
  have hbelow := h.below
  rw [physLimit_eq] at hbelow
  rw [physToVirt, wrap_of_lt, Nat.add_comm]
  rw [kernelDirectBase_eq]
  omega

theorem FrameOk.page_direct (h : FrameOk f) : Direct (kernelDirectBase + f) 4096 := by
  have hbelow := h.below
  rw [physLimit_eq] at hbelow
  refine ⟨Nat.le_add_right _ _, ?_⟩
  rw [kernelDirectBase_eq]
  omega

theorem FrameOk.lt (h : FrameOk f) : f < 2 ^ 47 := by
  have hbelow := h.below
  rw [physLimit_eq] at hbelow
  omega

theorem FrameOk.entry_direct (h : FrameOk f) (i : Fin 512) : Direct (entryAddr f i) 8 := by
  obtain ⟨hlow, hhigh⟩ := h.page_direct
  have hi := i.isLt
  unfold entryAddr
  exact ⟨by omega, by omega⟩

theorem FrameOk.load_entry (h : FrameOk f) : r.load (physToVirt f + 8 * i) = .ok (entry r f i) := by
  rw [h.physToVirt_eq]
  exact (h.entry_direct i).load

theorem FrameOk.store_entry (h : FrameOk f) :
    r.store (physToVirt f + 8 * i) v = .ok (r.put (entryAddr f i) v) := by
  rw [h.physToVirt_eq]
  exact (h.entry_direct i).store

theorem entrySpan_subset (f : ℕ) (i : Fin 512) : entrySpan f i ⊆ pageSpan f := by
  rintro x ⟨h1, h2⟩
  have hi := i.isLt
  unfold entryAddr at h1 h2
  exact ⟨by omega, by omega⟩

theorem pageSpan_disjoint (hf : FrameOk f) (hg : FrameOk g) (hne : f ≠ g) :
    Disjoint (pageSpan f) (pageSpan g) := by
  refine Set.disjoint_left.mpr fun x hx hx' => ?_
  obtain ⟨p, rfl⟩ := hf.aligned
  obtain ⟨q, rfl⟩ := hg.aligned
  obtain ⟨h1, h2⟩ := hx
  obtain ⟨h3, h4⟩ := hx'
  omega

theorem entrySpan_disjoint (hf : FrameOk f) (hg : FrameOk g) (hne : ¬ (f = g ∧ i = j)) :
    Disjoint (entrySpan f i) (entrySpan g j) := by
  by_cases hfg : f = g
  · subst hfg
    have hij : (i : ℕ) ≠ j := fun h => hne ⟨rfl, Fin.ext h⟩
    refine Set.disjoint_left.mpr fun x hx hx' => ?_
    obtain ⟨h1, h2⟩ := hx
    obtain ⟨h3, h4⟩ := hx'
    unfold entryAddr at h1 h2 h3 h4
    omega
  · exact Set.disjoint_of_subset (entrySpan_subset f i) (entrySpan_subset g j)
      (pageSpan_disjoint hf hg hfg)

theorem child_eq_none : child r f i = none ↔ entry r f i &&& pagePresent = 0 := target_none

/-! ### Walks -/

/-- The tables on the way of an address are page frames. -/
def Reads (r : Ram) (a addr : ℕ) : Prop :=
  ∀ q b, q <+: upper addr → walk (child r) a q = some b → FrameOk b

theorem Reads.root {addr : ℕ} (h : Reads r a addr) : FrameOk a := h [] a List.nil_prefix rfl

theorem path_eq (addr : ℕ) :
    path addr = [index 39 addr, index 30 addr, index 21 addr, index 12 addr] := rfl

/-- The entries on the path of an address, down to one that is not present or to the last table. -/
theorem Reads.cases {addr : ℕ} (h : Reads r a addr) :
    child r a (index 39 addr) = none ∨
    ∃ b, child r a (index 39 addr) = some b ∧ FrameOk b ∧
      (child r b (index 30 addr) = none ∨
      ∃ c, child r b (index 30 addr) = some c ∧ FrameOk c ∧
        (child r c (index 21 addr) = none ∨
        ∃ d, child r c (index 21 addr) = some d ∧ FrameOk d)) := by
  cases hb : child r a (index 39 addr) with
  | none => exact Or.inl rfl
  | some b =>
    have hwalkb : walk (child r) a [index 39 addr] = some b := by
      rw [walk_cons, hb]
      rfl
    refine Or.inr ⟨b, rfl, h _ _ ⟨[index 30 addr, index 21 addr], rfl⟩ hwalkb, ?_⟩
    cases hc : child r b (index 30 addr) with
    | none => exact Or.inl rfl
    | some c =>
      have hwalkc : walk (child r) a [index 39 addr, index 30 addr] = some c := by
        rw [walk_cons, hb, Option.bind_some, walk_cons, hc]
        rfl
      refine Or.inr ⟨c, rfl, h _ _ ⟨[index 21 addr], rfl⟩ hwalkc, ?_⟩
      cases hd : child r c (index 21 addr) with
      | none => exact Or.inl rfl
      | some d =>
        refine Or.inr ⟨d, rfl, h (upper addr) _ (List.prefix_refl _) ?_⟩
        rw [upper, walk_cons, hb, Option.bind_some, walk_cons, hc, Option.bind_some, walk_cons, hd]
        rfl

theorem child_lt (h : child r f i = some g) : g + 4096 ≤ 2 ^ 64 := by
  have hlt : entry r f i < 2 ^ 64 := Ram.word_lt _ _
  rw [child, target_eq hlt] at h
  split_ifs at h
  obtain rfl := Option.some.inj h
  omega

theorem walk_path_lt (h : walk (child r) a (path v) = some f) : f + 4096 ≤ 2 ^ 64 := by
  rw [path, walk_snoc] at h
  obtain ⟨d, -, hf⟩ := Option.bind_eq_some_iff.mp h
  exact child_lt hf

theorem virtToPhys_eq (hmm : Direct mm 8) (hroot : r.word mm = a) (h : Reads r a v) :
    virtToPhys mm v r = .ok ((walk (child r) a (path v)).elim invalidAddress
      fun f => wrap (f + v % 4096)) := by
  have ha := h.root
  have hmask : a &&& pageMask = a := by
    obtain ⟨q, rfl⟩ := ha.aligned
    have hlt := ha.lt
    rw [land_pageMask (by omega)]
    omega
  rw [virtToPhys, hmm.load, ok_bind, hroot, hmask, pml4Index_eq, pdptIndex_eq, pdIndex_eq, ptIndex_eq,
    pageOffset_eq, path_eq]
  dsimp only
  rw [ha.load_entry, ok_bind, walk_cons]
  rcases h.cases with hb | ⟨b, hb, hbok, hc | ⟨c, hc, hcok, hd | ⟨d, hd, hdok⟩⟩⟩
  · rw [if_pos (target_none.mp hb), hb, pure_eq]
    rfl
  · rw [if_neg (target_some.mp hb).1, (target_some.mp hb).2, hbok.load_entry, ok_bind, hb,
      Option.bind_some, walk_cons, if_pos (target_none.mp hc), hc, pure_eq]
    rfl
  · rw [if_neg (target_some.mp hb).1, (target_some.mp hb).2, hbok.load_entry, ok_bind, hb,
      Option.bind_some, walk_cons, if_neg (target_some.mp hc).1, (target_some.mp hc).2,
      hcok.load_entry, ok_bind, hc, Option.bind_some, walk_cons, if_pos (target_none.mp hd), hd,
      pure_eq]
    rfl
  · rw [if_neg (target_some.mp hb).1, (target_some.mp hb).2, hbok.load_entry, ok_bind, hb,
      Option.bind_some, walk_cons, if_neg (target_some.mp hc).1, (target_some.mp hc).2,
      hcok.load_entry, ok_bind, hc, Option.bind_some, walk_cons, if_neg (target_some.mp hd).1,
      (target_some.mp hd).2, hdok.load_entry, ok_bind, hd, Option.bind_some, walk_cons]
    cases he : child r d (index 12 v) with
    | none => rw [if_pos (target_none.mp he), pure_eq]; rfl
    | some f => rw [if_neg (target_some.mp he).1, (target_some.mp he).2, pure_eq]; rfl

theorem unmapPage_eq (hmm : Direct mm 8) (hroot : r.word mm = a) (h : Reads r a v) :
    (walk (child r) a (path v) = none ∧ unmapPage mm v r = .ok (invalidAddress, r)) ∨
    ∃ d f, walk (child r) a (upper v) = some d ∧ child r d (index 12 v) = some f ∧
      unmapPage mm v r = .ok (f, r.put (entryAddr d (index 12 v)) 0) := by
  have ha := h.root
  have hlnot : lnot 0xFFF = pageMask := rfl
  rw [unmapPage, hmm.load, ok_bind, hroot, pml4Index_eq, pdptIndex_eq, pdIndex_eq, ptIndex_eq, hlnot]
  dsimp only
  rw [ha.load_entry, ok_bind, path, walk_append, upper, walk_cons]
  rcases h.cases with hb | ⟨b, hb, hbok, hc | ⟨c, hc, hcok, hd | ⟨d, hd, hdok⟩⟩⟩
  · rw [if_pos (target_none.mp hb), hb, pure_eq]
    exact Or.inl ⟨rfl, rfl⟩
  · rw [if_neg (target_some.mp hb).1, (target_some.mp hb).2, hbok.load_entry, ok_bind, hb,
      Option.bind_some, walk_cons, if_pos (target_none.mp hc), hc, pure_eq]
    exact Or.inl ⟨rfl, rfl⟩
  · rw [if_neg (target_some.mp hb).1, (target_some.mp hb).2, hbok.load_entry, ok_bind, hb,
      Option.bind_some, walk_cons, if_neg (target_some.mp hc).1, (target_some.mp hc).2,
      hcok.load_entry, ok_bind, hc, Option.bind_some, walk_cons, if_pos (target_none.mp hd), hd,
      pure_eq]
    exact Or.inl ⟨rfl, rfl⟩
  · rw [if_neg (target_some.mp hb).1, (target_some.mp hb).2, hbok.load_entry, ok_bind, hb,
      Option.bind_some, walk_cons, if_neg (target_some.mp hc).1, (target_some.mp hc).2,
      hcok.load_entry, ok_bind, hc, Option.bind_some, walk_cons, if_neg (target_some.mp hd).1,
      (target_some.mp hd).2, hdok.load_entry, ok_bind, hd, Option.bind_some, walk_nil,
      Option.bind_some, walk_cons]
    cases he : child r d (index 12 v) with
    | none =>
      rw [if_pos (target_none.mp he), pure_eq]
      exact Or.inl ⟨rfl, rfl⟩
    | some f =>
      rw [if_neg (target_some.mp he).1, (target_some.mp he).2, hdok.store_entry, ok_bind, pure_eq]
      exact Or.inr ⟨d, f, rfl, he, rfl⟩

/-! ### Edits -/

theorem FrameOk.ne_invalid (h : FrameOk f) : f ≠ invalidAddress := by
  have hlt := h.lt
  unfold invalidAddress
  omega

/-- A table at the address that stands for none cannot be cleared. -/
theorem zeroPage_invalid (r : Ram) : ∃ e, zeroPage invalidAddress r = .error e := by
  have haddr : ¬ Canonical (wrap (physToVirt invalidAddress)) := by decide
  refine ⟨.fault (wrap (physToVirt invalidAddress)), ?_⟩
  rw [zeroPage, show pageSize = 4095 + 1 from rfl, Ram.memset, Ram.storeByte, if_neg haddr,
    error_bind]

theorem FrameOk.zeroPage (h : FrameOk f) (r : Ram) : ∃ r', zeroPage f r = .ok r' ∧
    (∀ j, entry r' f j = 0) ∧ Wrote r r' (pageSpan f) := by
  have hdirect : Direct (physToVirt f) pageSize := by
    rw [h.physToVirt_eq]
    exact h.page_direct
  obtain ⟨r', hrun, hzero, hwrote⟩ := zeroPage_spec (r := r) hdirect
  rw [h.physToVirt_eq] at hzero hwrote
  refine ⟨r', hrun, fun j => hzero _ ?_ ?_, hwrote⟩
  · exact Nat.le_add_right _ _
  · have hj := j.isLt
    unfold entryAddr
    show kernelDirectBase + f + 8 * (j : ℕ) + 8 ≤ kernelDirectBase + f + 4096
    omega

theorem entry_put_self (hv : v < 2 ^ 64) : entry (r.put (entryAddr f i) v) f i = v :=
  Ram.word_put_self hv

theorem entry_put_of_ne (hf : FrameOk f) (hg : FrameOk g) (hne : ¬ (f = g ∧ i = j)) :
    entry (r.put (entryAddr g j) v) f i = entry r f i :=
  (Wrote.put r v (le_refl _)).word (entrySpan_disjoint hf hg hne)

end Fynaos.Vmm
