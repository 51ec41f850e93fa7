import Fynaos.Vmm.Trees

/-!
# Address spaces come and go

What `create_mm`, `map_kernel_for_user_mm` and `delete_mm` do to memory. The calls of `free_frame` in a
`delete_mm` are the nodes of the tree in the order of `visit` (`deleteMm_eq`), whatever `free_frame` does.
-/

namespace Fynaos.Vmm

open Radix

variable {S : Type} {F : Services S} {s s' : S} {r r' : Ram} {a f g k m p u : ℕ} {i : Fin 512}

/-! ### Memory in use -/

theorem entry_of_kept (h : Wrote r r' (inUse F s)ᶜ) (hf : f ∈ F.held s) :
    entry r' f i = entry r f i := by
  refine h.word (Set.disjoint_compl_right_iff_subset.mpr fun x hx => ?_)
  exact Or.inl ⟨f, hf, entrySpan_subset f i hx⟩

theorem word_of_kept (h : Wrote r r' (inUse F s)ᶜ) (hp : p ∈ F.blocks s) : r'.word p = r.word p :=
  h.word (Set.disjoint_compl_right_iff_subset.mpr fun _ hx => Or.inr ⟨p, hp, hx⟩)

theorem word_of_pages (hs : Sound F s) (h : Wrote r r' (⋃ f ∈ F.held s, pageSpan f))
    (hp : p ∈ F.blocks s) : r'.word p = r.word p :=
  h.word (Set.disjoint_iUnion₂_right.mpr fun f hf => hs.apart p hp f hf)

section more
variable (hheld : F.held s ⊆ F.held s') (hblocks : F.blocks s ⊆ F.blocks s')
include hheld hblocks

theorem inUse_mono : inUse F s ⊆ inUse F s' := by
  rintro x (⟨f, hf, hx⟩ | ⟨p, hp, hx⟩)
  · exact Or.inl ⟨f, hheld hf, hx⟩
  · exact Or.inr ⟨p, hblocks hp, hx⟩

theorem Sound.page_outside (hs' : Sound F s') (hg : g ∈ F.held s') (hnew : g ∉ F.held s) :
    pageSpan g ⊆ (inUse F s)ᶜ := by
  rintro x hx (⟨f, hf, hx'⟩ | ⟨p, hp, hx'⟩)
  · have hne : f ≠ g := fun hfg => hnew (hfg ▸ hf)
    exact Set.disjoint_left.mp
      (pageSpan_disjoint (hs'.frame f (hheld hf)) (hs'.frame g hg) hne) hx' hx
  · exact Set.disjoint_left.mp (hs'.apart p (hblocks hp) g hg) hx' hx

theorem Sound.struct_outside (hs' : Sound F s') (hp : p ∈ F.blocks s') (hnew : p ∉ F.blocks s) :
    structSpan p ⊆ (inUse F s)ᶜ := by
  rintro x hx (⟨f, hf, hx'⟩ | ⟨q, hq, hx'⟩)
  · exact Set.disjoint_left.mp (hs'.apart p hp f (hheld hf)) hx hx'
  · have hne : p ≠ q := fun hpq => hnew (hpq ▸ hq)
    exact Set.disjoint_left.mp (hs'.blocks p hp q (hblocks hq) hne) hx hx'

end more

/-! ### Creation -/

/-- What `create_mm` leaves: no address space, or the address space `m` with the empty PML4 `g`. -/
theorem createMm_spec (hF : Lawful F) (hs : Sound F s) (hrun : createMm F r s = .ok (m, r', s')) :
    Sound F s' ∧ Wrote r r' (inUse F s)ᶜ ∧
      ((m = 0 ∧ F.held s' = F.held s ∧ F.blocks s' = F.blocks s) ∨
        (m ≠ 0 ∧ m ∉ F.blocks s ∧ F.blocks s' = insert m (F.blocks s) ∧
          ∃ g, g ∉ F.held s ∧ F.held s' = insert g (F.held s) ∧ r'.word m = g ∧
            ∀ j, entry r' g j = 0)) := by
  rw [createMm] at hrun
  obtain ⟨⟨g, s₁⟩, halloc, hrun⟩ := bind_eq_ok.mp hrun
  dsimp only at hrun
  obtain ⟨hs₁, hblocks₁, halloc'⟩ := hF.alloc hs halloc
  by_cases hinvalid : g = invalidAddress
  · rw [if_pos hinvalid, pure_eq] at hrun
    obtain ⟨rfl, rfl, rfl⟩ : 0 = m ∧ r = r' ∧ s₁ = s' := by simpa using hrun
    rcases halloc' with ⟨-, hheld₁⟩ | ⟨hfresh, hheld₁⟩
    · exact ⟨hs₁, Wrote.refl _ _, Or.inl ⟨rfl, hheld₁, hblocks₁⟩⟩
    · exact absurd hinvalid (hs₁.frame g (hheld₁ ▸ Set.mem_insert g _)).ne_invalid
  · obtain ⟨-, -, hg, hfresh, hheld₁⟩ := hF.alloc_ok hs halloc hinvalid
    rw [if_neg hinvalid] at hrun
    obtain ⟨⟨p, r₂, s₂⟩, hkmalloc, hrun⟩ := bind_eq_ok.mp hrun
    dsimp only at hrun
    obtain ⟨hs₂, hheld₂, hwrote₂, hkmalloc'⟩ := hF.kmalloc hs₁ hkmalloc
    have hmore : inUse F s ⊆ inUse F s₁ := inUse_mono (hheld₁ ▸ Set.subset_insert g _) hblocks₁.superset
    have hwrote₂' : Wrote r r₂ (inUse F s)ᶜ := hwrote₂.mono (Set.compl_subset_compl.mpr hmore)
    have hgheld : g ∈ F.held s₂ := by
      rw [hheld₂, hheld₁]
      exact Set.mem_insert g _
    by_cases hzero : p = 0
    · rw [if_pos hzero] at hrun
      obtain ⟨s₃, hfree, hrun⟩ := bind_eq_ok.mp hrun
      rw [pure_eq] at hrun
      obtain ⟨rfl, rfl, rfl⟩ : 0 = m ∧ r₂ = r' ∧ s₃ = s' := by simpa using hrun
      have hblocks₂ : F.blocks s₂ = F.blocks s₁ := by
        rcases hkmalloc' with ⟨-, hblocks₂⟩ | ⟨-, hblocks₂⟩
        · exact hblocks₂
        · have hdirect := (hs₂.direct p (hblocks₂ ▸ Set.mem_insert p _)).1
          rw [hzero, kernelDirectBase_eq] at hdirect
          omega
      obtain ⟨s₃', hfree', hblocks₃, hheld₃⟩ := hF.free hs₂ hgheld
      obtain rfl : s₃' = s₃ := Except.ok.inj (hfree'.symm.trans hfree)
      refine ⟨hs₂.mono (hheld₃ ▸ Set.sdiff_subset) hblocks₃.subset, hwrote₂', Or.inl ⟨rfl, ?_, ?_⟩⟩
      · rw [hheld₃, hheld₂, hheld₁, Set.insert_sdiff_self_of_notMem hfresh]
      · rw [hblocks₃, hblocks₂, hblocks₁]
    · rw [if_neg hzero] at hrun
      obtain ⟨hnew, hblocks₂⟩ := hkmalloc'.resolve_left fun h => hzero h.1
      have hblock : p ∈ F.blocks s₂ := hblocks₂ ▸ Set.mem_insert p _
      obtain ⟨r₃, hpage, hempty, hwrote₃⟩ := hg.zeroPage r₂
      rw [hpage, ok_bind, (hs₂.direct p hblock).store, ok_bind, pure_eq] at hrun
      obtain ⟨rfl, rfl, rfl⟩ : p = m ∧ r₃.put p g = r' ∧ s₂ = s' := by simpa using hrun
      have hlt := hg.lt
      have hheld : F.held s ⊆ F.held s₂ := by
        rw [hheld₂, hheld₁]
        exact Set.subset_insert g _
      have hblocks : F.blocks s ⊆ F.blocks s₂ := by
        rw [hblocks₂, hblocks₁]
        exact Set.subset_insert p _
      have hpageNew := hs₂.page_outside hheld hblocks hgheld hfresh
      have hstructNew := hs₂.struct_outside hheld hblocks hblock (hblocks₁ ▸ hnew)
      refine ⟨hs₂, (hwrote₂'.trans (hwrote₃.mono hpageNew)).trans (Wrote.put r₃ g hstructNew),
        Or.inr ⟨hzero, hblocks₁ ▸ hnew, by rw [hblocks₂, hblocks₁], g, hfresh, ?_, ?_, fun j => ?_⟩⟩
      · rw [hheld₂, hheld₁]
      · exact Ram.word_put_self (by omega)
      · rw [← hempty j]
        refine (Wrote.put r₃ g (le_refl (structSpan p))).word ?_
        exact Set.disjoint_of_subset_left (entrySpan_subset g j) (hs₂.apart p hblock g hgheld).symm

theorem createMm_total (hF : Lawful F) (hs : Sound F s) {s₁ s₂ : S} {r₂ : Ram}
    (halloc : F.allocFrames s = .ok (g, s₁)) (hg : g ≠ invalidAddress)
    (hkmalloc : F.kmalloc mmSize r s₁ = .ok (m, r₂, s₂)) (hm : m ≠ 0) :
    ∃ r', createMm F r s = .ok (m, r', s₂) := by
  obtain ⟨hs₁, -, hgok, -, -⟩ := hF.alloc_ok hs halloc hg
  obtain ⟨hs₂, -, -, hkmalloc'⟩ := hF.kmalloc hs₁ hkmalloc
  obtain ⟨-, hblocks₂⟩ := hkmalloc'.resolve_left fun h => hm h.1
  obtain ⟨r₃, hpage, -, -⟩ := hgok.zeroPage r₂
  refine ⟨r₃.put m g, ?_⟩
  rw [createMm, halloc, ok_bind]
  dsimp only
  rw [if_neg hg, hkmalloc, ok_bind]
  dsimp only
  rw [if_neg hm, hpage, ok_bind, (hs₂.direct m (hblocks₂ ▸ Set.mem_insert m _)).store, ok_bind, pure_eq]

theorem bump_createMm {s : Bump} (hs : Sound bump s) (hframe : 4096 * above s.1 + 4096 ≤ physLimit)
    (hblock : blockAddr (above s.2) + 8 ≤ 2 ^ 64) :
    ∃ r', createMm bump r s =
      .ok (blockAddr (above s.2), r', (above s.1 :: s.1, above s.2 :: s.2)) := by
  refine createMm_total bump_lawful hs (bump_alloc hframe) ?_ (bump_kmalloc hblock) (blockAddr_ne_zero _)
  rw [physLimit_eq] at hframe
  unfold invalidAddress
  omega

/-! ### The kernel half -/

theorem copyEntries_spec (hu : FrameOk u) (hk : FrameOk k) (hne : k ≠ u) (l : List ℕ)
    (hl : ∀ i ∈ l, i < 512) :
    ∃ r', l.foldlM (fun r i => do
        let e ← r.load (physToVirt k + 8 * i)
        r.store (physToVirt u + 8 * i) e) r = .ok r' ∧
      (∀ i : Fin 512, entry r' u i = if (i : ℕ) ∈ l then entry r k i else entry r u i) ∧
      (∀ f, FrameOk f → f ≠ u → ∀ i, entry r' f i = entry r f i) ∧ Wrote r r' (pageSpan u) := by
  induction l generalizing r with
  | nil => exact ⟨r, rfl, fun i => by rw [if_neg List.not_mem_nil], fun _ _ _ _ => rfl, Wrote.refl _ _⟩
  | cons i l ih =>
    have hi : i < 512 := hl i List.mem_cons_self
    have hload : r.load (physToVirt k + 8 * i) =
        .ok (entry r k ⟨i, hi⟩) := hk.load_entry (i := ⟨i, hi⟩)
    have hstore : r.store (physToVirt u + 8 * i) (entry r k ⟨i, hi⟩) =
        .ok (r.put (entryAddr u ⟨i, hi⟩) (entry r k ⟨i, hi⟩)) := hu.store_entry (i := ⟨i, hi⟩)
    obtain ⟨r', hrun, hcopied, hother, hwrote⟩ :=
      ih (r := r.put (entryAddr u ⟨i, hi⟩) (entry r k ⟨i, hi⟩)) fun j hj =>
        hl j (List.mem_cons_of_mem i hj)
    have hput : ∀ f, FrameOk f → f ≠ u → ∀ j,
        entry (r.put (entryAddr u ⟨i, hi⟩) (entry r k ⟨i, hi⟩)) f j = entry r f j :=
      fun f hf hfu j => entry_put_of_ne hf hu fun h => hfu h.1
    refine ⟨r', ?_, fun j => ?_, fun f hf hfu j => (hother f hf hfu j).trans (hput f hf hfu j), ?_⟩
    · rw [List.foldlM_cons, hload, ok_bind, hstore, ok_bind]
      exact hrun
    · rw [hcopied j, hput k hk hne j]
      by_cases hj : (j : ℕ) ∈ l
      · rw [if_pos hj, if_pos (List.mem_cons_of_mem i hj)]
      · rw [if_neg hj]
        by_cases hji : (j : ℕ) = i
        · obtain rfl : j = ⟨i, hi⟩ := Fin.ext hji
          rw [if_pos List.mem_cons_self]
          exact entry_put_self (Ram.word_lt _ _)
        · have hnot : (j : ℕ) ∉ i :: l := by
            rw [List.mem_cons, not_or]
            exact ⟨hji, hj⟩
          rw [if_neg hnot]
          exact entry_put_of_ne hu hu fun h => hji (congrArg Fin.val h.2)
    · exact (Wrote.put r _ (entrySpan_subset u ⟨i, hi⟩)).trans hwrote

theorem mapKernelForUserMm_spec {kernelMm : ℕ} (hkernel : Direct kernelMm 8) (hm : Direct m 8)
    (hk : FrameOk k) (hu : FrameOk u) (hne : k ≠ u) (hkword : r.word kernelMm = k)
    (huword : r.word m = u) :
    ∃ r', mapKernelForUserMm kernelMm m r = .ok r' ∧
      (∀ i : Fin 512, entry r' u i = if 256 ≤ (i : ℕ) then entry r k i else entry r u i) ∧
      (∀ f, FrameOk f → f ≠ u → ∀ i, entry r' f i = entry r f i) ∧ Wrote r r' (pageSpan u) := by
  obtain ⟨r', hrun, hcopied, hother, hwrote⟩ := copyEntries_spec (r := r) hu hk hne
    (List.range' 256 256) fun i hi => by
      rw [List.mem_range'_1] at hi
      omega
  refine ⟨r', ?_, fun i => ?_, hother, hwrote⟩
  · rw [mapKernelForUserMm, hm.load, ok_bind, hkernel.load, ok_bind, huword, hkword]
    exact hrun
  · have hi := i.isLt
    have hmem : (i : ℕ) ∈ List.range' 256 256 ↔ 256 ≤ (i : ℕ) := by
      rw [List.mem_range'_1]
      omega
    rw [hcopied i]
    simp only [hmem]

/-! ### Deletion -/

/-- The nodes of the tree below `a`, down to the frames `n` levels below. -/
def nodes (r : Ram) (n a : ℕ) : List ℕ := visit (List.finRange 512) (child r) n a

theorem freeEntries_eq {freeFrame freeChild : ℕ → S → Except Halt S} (ha : FrameOk a) {n : ℕ}
    (hchild : ∀ i g, child r a i = some g → ∀ s,
      freeChild g s = (nodes r n g).foldlM (fun s f => freeFrame f s) s) :
    freeEntries r a freeChild s = ((List.finRange 512).flatMap fun i =>
      (child r a i).elim [] (nodes r n)).foldlM (fun s f => freeFrame f s) s := by
  rw [freeEntries, ← List.map_coe_finRange_eq_range, List.foldlM_map]
  induction List.finRange 512 generalizing s with
  | nil => rfl
  | cons i l ih =>
    rw [List.foldlM_cons, List.flatMap_cons, List.foldlM_append, ha.load_entry, ok_bind]
    cases hg : child r a i with
    | none =>
      rw [if_pos (target_none.mp hg), pure_eq, ok_bind, Option.elim_none, List.foldlM_nil, pure_eq,
        ok_bind]
      exact ih
    | some g =>
      rw [if_neg (target_some.mp hg).1, (target_some.mp hg).2, hchild i g hg, Option.elim_some]
      exact congrArg _ (funext fun s => ih)

theorem foldlM_one (freeFrame : ℕ → S → Except Halt S) (a : ℕ) (s : S) :
    [a].foldlM (fun s f => freeFrame f s) s = freeFrame a s := by
  rw [List.foldlM_cons]
  cases freeFrame a s <;> rfl

/-- `free_page_table` calls `free_frame` for the nodes below the table, and for the table. -/
theorem freePageTable_eq (freeFrame : ℕ → S → Except Halt S) {level : ℕ}
    (h : ∀ q b, q.length ≤ level → walk (child r) a q = some b → FrameOk b) :
    freePageTable freeFrame r level a s =
      (nodes r (level + 1) a).foldlM (fun s f => freeFrame f s) s := by
  have hsplit : ∀ n a, nodes r (n + 1) a = ((List.finRange 512).flatMap fun i =>
      (child r a i).elim [] (nodes r n)) ++ [a] := fun _ _ => rfl
  induction level generalizing a s with
  | zero =>
    rw [freePageTable, hsplit, List.foldlM_append, freeEntries_eq (n := 0) (h [] a le_rfl rfl)
      fun i g _ s => (foldlM_one freeFrame g s).symm]
    exact congrArg _ (funext fun s => (foldlM_one freeFrame a s).symm)
  | succ level ih =>
    rw [freePageTable, hsplit, List.foldlM_append,
      freeEntries_eq (n := level + 1) (h [] a (Nat.zero_le _) rfl) fun i g hg s =>
        ih fun q b hq hb => h (i :: q) b (Nat.succ_le_succ hq) (by rw [walk_cons, hg]; exact hb)]
    exact congrArg _ (funext fun s => (foldlM_one freeFrame a s).symm)

/-- The tables of an address space can be read. -/
def Readable (r : Ram) (a : ℕ) : Prop := ∀ q b, q.length < 4 → walk (child r) a q = some b → FrameOk b

theorem deleteMm_eq (hm : Direct m 8) (hword : r.word m = a) (h : Readable r a) :
    deleteMm F m r s = (do
      let s ← (nodes r 4 a).foldlM (fun s f => F.freeFrame f s) s
      F.kfree m r s) := by
  rw [deleteMm, hm.load, ok_bind, hword,
    freePageTable_eq F.freeFrame fun q b hq => h q b (Nat.lt_succ_of_le hq)]

theorem foldlM_free (hF : Lawful F) (hs : Sound F s) (l : List ℕ) (hl : l.Nodup)
    (hheld : ∀ f ∈ l, f ∈ F.held s) :
    ∃ s', l.foldlM (fun s f => F.freeFrame f s) s = .ok s' ∧ F.blocks s' = F.blocks s ∧
      F.held s' = F.held s \ {f | f ∈ l} := by
  induction l generalizing s with
  | nil => exact ⟨s, rfl, rfl, by simp⟩
  | cons f l ih =>
    obtain ⟨hnot, hl⟩ := List.nodup_cons.mp hl
    obtain ⟨s₁, hfree, hblocks₁, hheld₁⟩ := hF.free hs (hheld f List.mem_cons_self)
    have hs₁ : Sound F s₁ := hs.mono (hheld₁ ▸ Set.sdiff_subset) hblocks₁.subset
    obtain ⟨s', hrun, hblocks, hrest⟩ := ih hs₁ hl fun g hg => by
      rw [hheld₁]
      refine ⟨hheld g (List.mem_cons_of_mem f hg), ?_⟩
      rintro rfl
      exact hnot hg
    refine ⟨s', ?_, hblocks.trans hblocks₁, ?_⟩
    · rw [List.foldlM_cons, hfree, ok_bind]
      exact hrun
    · rw [hrest, hheld₁]
      ext g
      simp only [Set.mem_sdiff, Set.mem_singleton_iff, Set.mem_ofPred_eq, List.mem_cons, not_or,
        and_assoc]

theorem deleteMm_spec (hF : Lawful F) (hs : Sound F s) (hm : m ∈ F.blocks s) (hword : r.word m = a)
    (h : Readable r a) (hnodup : (nodes r 4 a).Nodup) (hheld : ∀ f ∈ nodes r 4 a, f ∈ F.held s) :
    ∃ r' s', deleteMm F m r s = .ok (r', s') ∧ Sound F s' ∧ F.blocks s' = F.blocks s \ {m} ∧
      F.held s' = F.held s \ {f | f ∈ nodes r 4 a} ∧ Wrote r r' (inUse F s')ᶜ := by
  obtain ⟨s₁, hfree, hblocks₁, hheld₁⟩ := foldlM_free hF hs _ hnodup hheld
  have hs₁ : Sound F s₁ := hs.mono (hheld₁ ▸ Set.sdiff_subset) hblocks₁.subset
  obtain ⟨r', s', hkfree, hheld', hblocks', hwrote⟩ := hF.kfree (r := r) hs₁ (hblocks₁ ▸ hm)
  refine ⟨r', s', ?_, ?_, ?_, hheld'.trans hheld₁, hwrote⟩
  · rw [deleteMm_eq (hs.direct m hm) hword h, hfree, ok_bind, hkfree]
  · exact hs₁.mono hheld'.subset (hblocks' ▸ Set.sdiff_subset)
  · rw [hblocks', hblocks₁]

end Fynaos.Vmm
