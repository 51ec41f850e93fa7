import Fynaos.Vmm.KernelHalf

/-!
# Deleting user address spaces

`delete_mm` follows the copies of the kernel's entries like its own. So it frees tables of the kernel as soon
as an entry of the upper half is present, and `leavesKernel_iff` says exactly when it does no harm.
-/

namespace Fynaos.Vmm

open Radix

variable {S : Type}

/-- The allocators, with a `free_frame` that only notes what it is called for. -/
def recording (F : Services S) : Services (S × List ℕ) where
  allocFrames t := do
    let (f, s) ← F.allocFrames t.1
    return (f, s, t.2)
  freeFrame f t := .ok (t.1, t.2 ++ [f])
  kmalloc n r t := do
    let (p, r, s) ← F.kmalloc n r t.1
    return (p, r, s, t.2)
  kfree p r t := do
    let (r, s) ← F.kfree p r t.1
    return (r, s, t.2)
  held t := F.held t.1
  blocks t := F.blocks t.1

/-- Calls of `delete_mm`, one after the other. -/
def deleteAll (F : Services S) (mms : List ℕ) (r : Ram) (s : S) : Except Halt (Ram × S) :=
  mms.foldlM (fun t mm => deleteMm F mm t.1 t.2) (r, s)

/-- The deletions free no frame twice, no table of the kernel and no frame that the kernel maps, and the
kernel's addresses stay what they are. -/
def LeavesKernel (F : Services S) (kernelMm : ℕ) (σ : Sys S) (mms : List ℕ) : Prop :=
  ∃ r s log, deleteAll (recording F) mms σ.ram (σ.frames, []) = .ok (r, s, log) ∧ log.Nodup ∧
    (∀ ksp, σ.spaces kernelMm = some ksp → ∀ f ∈ log, f ∉ ksp.tables ∪ ksp.frames) ∧
    ∀ v, virtToPhys kernelMm v r = virtToPhys kernelMm v σ.ram

/-- No entry of an upper half is present, and the frames that are freed belong to one address space
each. -/
structure Separate (kernelMm : ℕ) (σ : Sys S) (mms : List ℕ) : Prop where
  copies : ∀ mm ∈ mms, ∀ sp, σ.spaces mm = some sp → ∀ i : Fin 512, 256 ≤ (i : ℕ) →
    child σ.ram sp.pml4 i = none
  once : ∀ mm ∈ mms, ∀ mm' ∈ mms, ∀ sp sp' v w f, σ.spaces mm = some sp → σ.spaces mm' = some sp' →
    sp.map (pageNumber v) = some f → sp'.map (pageNumber w) = some f →
    mm = mm' ∧ pageNumber v = pageNumber w
  tables : ∀ mm ∈ mms, ∀ mm' ∈ mms, ∀ sp sp', σ.spaces mm = some sp → σ.spaces mm' = some sp' →
    Disjoint sp.frames sp'.tables
  kernel : ∀ mm ∈ mms, ∀ sp ksp, σ.spaces mm = some sp → σ.spaces kernelMm = some ksp →
    Disjoint sp.frames ksp.tables ∧ Disjoint (sp.tables ∪ sp.frames) ksp.frames

variable {F : Services S} {κ : Option ℕ} {σ₀ σ : Sys S} {s : S} {r : Ram} {sp ksp : Space}
  {kernelMm k : ℕ} {mms log : List ℕ}

/-! ### The calls of `free_frame` -/

theorem foldlM_recording (l : List ℕ) (s : S) (log : List ℕ) :
    l.foldlM (fun t f => (recording F).freeFrame f t) (s, log) =
      (.ok (s, log ++ l) : Except Halt (S × List ℕ)) := by
  induction l generalizing log with
  | nil => rw [List.append_nil]; rfl
  | cons f l ih =>
    rw [List.foldlM_cons]
    exact (ih (log ++ [f])).trans (by rw [List.append_assoc]; rfl)

theorem Inv.walk_of_entries (h : Inv F κ σ) (hk : σ.spaces k = some sp)
    (hentry : ∀ f ∈ F.held σ.frames, ∀ i, entry r f i = entry σ.ram f i) {q : List (Fin 512)}
    (hq : q.length ≤ 4) : walk (child r) sp.pml4 q = walk (child σ.ram) sp.pml4 q := by
  refine walk_congr fun q₁ j q₂ b hsplit hb => ?_
  refine congrArg target (hentry b (h.reached hk ?_ hb) j)
  rw [hsplit, List.length_append, List.length_cons] at hq
  omega

theorem Inv.deleteMm_recording (log : List ℕ) (hF : Lawful F) (h : Inv F κ σ)
    (hk : σ.spaces k = some sp) (hs : Sound F s) (hblock : k ∈ F.blocks s)
    (hentry : ∀ f ∈ F.held σ.frames, ∀ i, entry r f i = entry σ.ram f i)
    (hword : r.word k = σ.ram.word k) :
    ∃ r' s', Vmm.deleteMm (recording F) k r (s, log) =
        .ok (r', s', log ++ nodes σ.ram 4 (σ.ram.word k)) ∧
      F.held s' = F.held s ∧ F.blocks s' = F.blocks s \ {k} ∧ Wrote r r' (inUse F s')ᶜ := by
  have hpml4 := h.word hk
  have hreadable : Readable r (σ.ram.word k) := by
    intro q b hq hb
    rw [hpml4, h.walk_of_entries hk hentry hq.le] at hb
    exact h.readable hk q b hq hb
  have hnodes : nodes r 4 (σ.ram.word k) = nodes σ.ram 4 (σ.ram.word k) := by
    refine visit_congr fun q b hq hb i => ?_
    rw [hpml4] at hb
    exact congrArg target (hentry b (h.reached hk hq hb) i)
  obtain ⟨r', s', hkfree, hheld, hblocks, hwrote⟩ := hF.kfree (r := r) hs hblock
  refine ⟨r', s', ?_, hheld, hblocks, hwrote⟩
  rw [deleteMm_eq (hs.direct k hblock) hword hreadable, hnodes, foldlM_recording, ok_bind]
  simp only [recording, hkfree, ok_bind, pure_eq]

theorem deleteAll_recording (log : List ℕ) (hF : Lawful F) (h : Inv F κ σ) (hnodup : mms.Nodup)
    (hlive : ∀ mm ∈ mms, σ.spaces mm ≠ none) (hs : Sound F s) (hheld : F.held s = F.held σ.frames)
    (hblocks : ∀ mm ∈ mms, mm ∈ F.blocks s)
    (hentry : ∀ f ∈ F.held σ.frames, ∀ i, entry r f i = entry σ.ram f i)
    (hword : ∀ p ∈ F.blocks s, r.word p = σ.ram.word p) :
    ∃ r' s', deleteAll (recording F) mms r (s, log) =
        .ok (r', s', log ++ mms.flatMap fun mm => nodes σ.ram 4 (σ.ram.word mm)) ∧
      (∀ f ∈ F.held σ.frames, ∀ i, entry r' f i = entry σ.ram f i) ∧
      ∀ p ∈ F.blocks s, p ∉ mms → r'.word p = σ.ram.word p := by
  induction mms generalizing r s log with
  | nil => exact ⟨r, s, by rw [List.flatMap_nil, List.append_nil]; rfl, hentry, fun p hp _ => hword p hp⟩
  | cons mm mms ih =>
    obtain ⟨hnot, hnodup⟩ := List.nodup_cons.mp hnodup
    obtain ⟨sp, hsp⟩ := Option.ne_none_iff_exists'.mp (hlive mm List.mem_cons_self)
    have hmm := hblocks mm List.mem_cons_self
    obtain ⟨r₁, s₁, hdelete, hheld₁, hblocks₁, hwrote⟩ :=
      h.deleteMm_recording log hF hsp hs hmm hentry (hword mm hmm)
    have hs₁ : Sound F s₁ := hs.mono hheld₁.subset (hblocks₁ ▸ Set.sdiff_subset)
    have hleft : ∀ {p}, p ∈ F.blocks s → p ≠ mm → p ∈ F.blocks s₁ := by
      intro p hp hne
      rw [hblocks₁]
      exact ⟨hp, hne⟩
    obtain ⟨r', s', hrun, hentry', hword'⟩ := ih (r := r₁) (s := s₁)
      (log ++ nodes σ.ram 4 (σ.ram.word mm)) hnodup
      (fun m hm => hlive m (List.mem_cons_of_mem mm hm)) hs₁ (hheld₁.trans hheld)
      (fun m hm => hleft (hblocks m (List.mem_cons_of_mem mm hm)) fun heq => hnot (heq ▸ hm))
      (fun f hf i => by
        rw [entry_of_kept hwrote (by rw [hheld₁, hheld]; exact hf)]
        exact hentry f hf i)
      (fun p hp => by
        rw [word_of_kept hwrote hp]
        rw [hblocks₁] at hp
        exact hword p hp.1)
    refine ⟨r', s', ?_, hentry', fun p hp hpn => ?_⟩
    · rw [deleteAll, List.foldlM_cons, hdelete, ok_bind]
      rw [deleteAll] at hrun
      rw [hrun, List.flatMap_cons, List.append_assoc]
    · obtain ⟨hne, hout⟩ := List.ne_and_not_mem_of_not_mem_cons hpn
      exact hword' p (hleft hp hne) hout

theorem Inv.leavesKernel_of_calls (hF : Lawful F) (h : Inv F (some kernelMm) σ) (hnodup : mms.Nodup)
    (hlive : ∀ mm ∈ mms, mm ≠ kernelMm ∧ σ.spaces mm ≠ none) :
    LeavesKernel F kernelMm σ mms ↔
      (mms.flatMap fun mm => nodes σ.ram 4 (σ.ram.word mm)).Nodup ∧
        ∀ ksp, σ.spaces kernelMm = some ksp →
          ∀ f ∈ mms.flatMap fun mm => nodes σ.ram 4 (σ.ram.word mm), f ∉ ksp.tables ∪ ksp.frames := by
  have hblocks : ∀ mm ∈ mms, mm ∈ F.blocks σ.frames := by
    intro mm hmm
    obtain ⟨sp, hsp⟩ := Option.ne_none_iff_exists'.mp (hlive mm hmm).2
    exact h.block hsp
  obtain ⟨ksp, hkernel⟩ := Option.ne_none_iff_exists'.mp (h.kernel rfl)
  obtain ⟨r, s, hrun, hentry, hword⟩ := deleteAll_recording [] hF h hnodup
    (fun mm hmm => (hlive mm hmm).2) h.sound rfl hblocks (fun _ _ _ => rfl) fun _ _ => rfl
  rw [List.nil_append] at hrun
  have hkword : r.word kernelMm = ksp.pml4 :=
    (hword kernelMm (h.block hkernel) fun hin => (hlive kernelMm hin).1 rfl).trans (h.word hkernel)
  have hwalk : ∀ q, q.length ≤ 4 → walk (child r) ksp.pml4 q = walk (child σ.ram) ksp.pml4 q :=
    fun q => h.walk_of_entries hkernel hentry
  have hsame : ∀ v, Vmm.virtToPhys kernelMm v r = Vmm.virtToPhys kernelMm v σ.ram := by
    intro v
    rw [h.virtToPhys_child hkernel, virtToPhys_eq (h.direct hkernel) hkword, hwalk _ le_rfl]
    intro q b hq hb
    have hlen := hq.length_le
    rw [hwalk q (hlen.trans (by norm_num [upper]))] at hb
    exact h.readable hkernel q b (Nat.lt_succ_of_le hlen) hb
  constructor
  · rintro ⟨r', s', log, hrun', hlog, hfree, -⟩
    obtain ⟨-, -, rfl⟩ : r = r' ∧ s = s' ∧ _ = log := by
      simpa using hrun.symm.trans hrun'
    exact ⟨hlog, hfree⟩
  · rintro ⟨hlog, hfree⟩
    exact ⟨r, s, _, hrun, hlog, hfree, hsame⟩

/-! ### The condition -/

theorem Inv.mem_nodes_word (h : Inv F κ σ) (hk : σ.spaces k = some sp)
    (hcopies : ∀ i : Fin 512, 256 ≤ (i : ℕ) → child σ.ram sp.pml4 i = none) {f : ℕ} :
    f ∈ nodes σ.ram 4 (σ.ram.word k) ↔ f ∈ sp.tables ∪ sp.frames := by
  rw [h.word hk]
  exact h.mem_nodes hk fun i _ => hcopies i

theorem Inv.nodup_nodes_word (h : Inv F κ σ) (hk : σ.spaces k = some sp)
    (hcopies : ∀ i : Fin 512, 256 ≤ (i : ℕ) → child σ.ram sp.pml4 i = none) :
    (nodes σ.ram 4 (σ.ram.word k)).Nodup ↔
      (∀ v w f, sp.map (pageNumber v) = some f → sp.map (pageNumber w) = some f →
        pageNumber v = pageNumber w) ∧ Disjoint sp.frames sp.tables := by
  rw [h.word hk]
  exact h.nodup_nodes hk fun i _ => hcopies i

/-- An entry of an upper half that is present is followed to a table of the kernel. -/
theorem Inv.exists_kernel_node (h : Inv F (some kernelMm) σ)
    (hkernel : σ.spaces kernelMm = some ksp) (hne : k ≠ kernelMm) (hk : σ.spaces k = some sp)
    {i : Fin 512} (hi : 256 ≤ (i : ℕ)) (hsome : child σ.ram sp.pml4 i ≠ none) :
    ∃ b ∈ nodes σ.ram 4 (σ.ram.word k), b ∈ ksp.tables := by
  obtain ⟨b, hb⟩ := Option.ne_none_iff_exists'.mp hsome
  have hkb := h.borrowed rfl hkernel hne hk hi hb
  rw [← h.kernel_child hkernel] at hkb
  refine ⟨b, ?_, (h.tables hkernel).mp ⟨_, [i], roots_of hkernel, by norm_num, hkb⟩⟩
  rw [h.word hk]
  refine (mem_visit List.mem_finRange).mpr ⟨[i], by norm_num, ?_⟩
  rw [walk_cons, hb]
  rfl

theorem Inv.separate_of_calls (h : Inv F (some kernelMm) σ)
    (hlive : ∀ mm ∈ mms, mm ≠ kernelMm ∧ σ.spaces mm ≠ none)
    (heach : ∀ mm ∈ mms, (nodes σ.ram 4 (σ.ram.word mm)).Nodup)
    (hpair : ∀ mm ∈ mms, ∀ mm' ∈ mms, mm ≠ mm' →
      List.Disjoint (nodes σ.ram 4 (σ.ram.word mm)) (nodes σ.ram 4 (σ.ram.word mm')))
    (hfree : ∀ ksp, σ.spaces kernelMm = some ksp → ∀ mm ∈ mms,
      ∀ f ∈ nodes σ.ram 4 (σ.ram.word mm), f ∉ ksp.tables ∪ ksp.frames) :
    Separate kernelMm σ mms := by
  obtain ⟨ksp, hkernel⟩ := Option.ne_none_iff_exists'.mp (h.kernel rfl)
  have hcopies : ∀ mm ∈ mms, ∀ sp, σ.spaces mm = some sp → ∀ i : Fin 512, 256 ≤ (i : ℕ) →
      child σ.ram sp.pml4 i = none := by
    intro mm hmm sp hsp i hi
    by_contra hsome
    obtain ⟨b, hb, ht⟩ := h.exists_kernel_node hkernel (hlive mm hmm).1 hsp hi hsome
    exact hfree ksp hkernel mm hmm b hb (Or.inl ht)
  have hmem : ∀ {mm sp f}, mm ∈ mms → σ.spaces mm = some sp → f ∈ sp.tables ∪ sp.frames →
      f ∈ nodes σ.ram 4 (σ.ram.word mm) := fun hmm hsp =>
    (h.mem_nodes_word hsp (hcopies _ hmm _ hsp)).mpr
  have hown := fun mm hmm sp hsp => (h.nodup_nodes_word hsp (hcopies mm hmm sp hsp)).mp (heach mm hmm)
  have hapart : ∀ mm ∈ mms, ∀ mm' ∈ mms, ∀ sp sp' f, σ.spaces mm = some sp →
      σ.spaces mm' = some sp' → f ∈ sp.tables ∪ sp.frames → f ∈ sp'.tables ∪ sp'.frames →
      mm = mm' := by
    intro mm hmm mm' hmm' sp sp' f hsp hsp' hf hf'
    by_contra hne
    exact hpair mm hmm mm' hmm' hne (hmem hmm hsp hf) (hmem hmm' hsp' hf')
  refine ⟨hcopies, fun mm hmm mm' hmm' sp sp' v w f hsp hsp' hv hw => ?_,
    fun mm hmm mm' hmm' sp sp' hsp hsp' => ?_, fun mm hmm sp ksp' hsp hkernel' => ?_⟩
  · obtain rfl := hapart mm hmm mm' hmm' sp sp' f hsp hsp' (Or.inr ⟨v, hv⟩) (Or.inr ⟨w, hw⟩)
    obtain rfl := Option.some.inj (hsp.symm.trans hsp')
    exact ⟨rfl, (hown mm hmm sp hsp).1 v w f hv hw⟩
  · refine Set.disjoint_left.mpr fun f hf ht => ?_
    obtain rfl := hapart mm hmm mm' hmm' sp sp' f hsp hsp' (Or.inr hf) (Or.inl ht)
    obtain rfl := Option.some.inj (hsp.symm.trans hsp')
    exact Set.disjoint_left.mp (hown mm hmm sp hsp).2 hf ht
  · have hnot : ∀ f ∈ sp.tables ∪ sp.frames, f ∉ ksp'.tables ∪ ksp'.frames := fun f hf =>
      hfree ksp' hkernel' mm hmm f (hmem hmm hsp hf)
    exact ⟨Set.disjoint_left.mpr fun f hf ht => hnot f (Or.inr hf) (Or.inl ht),
      Set.disjoint_left.mpr fun f hf hk => hnot f hf (Or.inr hk)⟩

section separate
variable (h : Inv F (some kernelMm) σ) (hsep : Separate kernelMm σ mms) {mm mm' f : ℕ}
  (hmm : mm ∈ mms) (hsp : σ.spaces mm = some sp) (hf : f ∈ nodes σ.ram 4 (σ.ram.word mm))
include h hsep hmm hsp

theorem Separate.mem : f ∈ nodes σ.ram 4 (σ.ram.word mm) ↔ f ∈ sp.tables ∪ sp.frames :=
  h.mem_nodes_word hsp (hsep.copies mm hmm sp hsp)

theorem Separate.nodup : (nodes σ.ram 4 (σ.ram.word mm)).Nodup := by
  refine (h.nodup_nodes_word hsp (hsep.copies mm hmm sp hsp)).mpr ⟨fun v w f hv hw => ?_,
    hsep.tables mm hmm mm hmm sp sp hsp hsp⟩
  exact (hsep.once mm hmm mm hmm sp sp v w f hsp hsp hv hw).2

include hf

theorem Separate.notMem {sp' : Space} (hmm' : mm' ∈ mms) (hsp' : σ.spaces mm' = some sp')
    (hne : mm ≠ mm') : f ∉ nodes σ.ram 4 (σ.ram.word mm') := by
  intro hf'
  rcases (hsep.mem h hmm hsp).mp hf with ht | hfr <;>
    rcases (hsep.mem h hmm' hsp').mp hf' with ht' | hfr'
  · exact Set.disjoint_left.mp (h.tables_disjoint hsp hsp' hne) ht ht'
  · exact Set.disjoint_left.mp (hsep.tables mm' hmm' mm hmm sp' sp hsp' hsp) hfr' ht
  · exact Set.disjoint_left.mp (hsep.tables mm hmm mm' hmm' sp sp' hsp hsp') hfr ht'
  · obtain ⟨v, hv⟩ := hfr
    obtain ⟨w, hw⟩ := hfr'
    exact hne (hsep.once mm hmm mm' hmm' sp sp' v w f hsp hsp' hv hw).1

theorem Separate.notMem_kernel (hkernel : σ.spaces kernelMm = some ksp) (hne : mm ≠ kernelMm) :
    f ∉ ksp.tables ∪ ksp.frames := by
  have hmem := (hsep.mem h hmm hsp).mp hf
  obtain ⟨htables, hframes⟩ := hsep.kernel mm hmm sp ksp hsp hkernel
  rintro (hk | hk)
  · rcases hmem with ht | hfr
    · exact Set.disjoint_left.mp (h.tables_disjoint hsp hkernel hne) ht hk
    · exact Set.disjoint_left.mp htables hfr hk
  · exact Set.disjoint_left.mp hframes hmem hk

end separate

theorem Inv.separate_iff (hF : Lawful F) (h : Inv F (some kernelMm) σ) (hnodup : mms.Nodup)
    (hlive : ∀ mm ∈ mms, mm ≠ kernelMm ∧ σ.spaces mm ≠ none) :
    LeavesKernel F kernelMm σ mms ↔ Separate kernelMm σ mms := by
  rw [h.leavesKernel_of_calls hF hnodup hlive, List.nodup_flatMap]
  have hsym : Std.Symm (Function.onFun List.Disjoint fun mm => nodes σ.ram 4 (σ.ram.word mm)) :=
    ⟨fun _ _ hdisj _ hg hf => hdisj hf hg⟩
  constructor
  · rintro ⟨⟨heach, hpair⟩, hfree⟩
    refine h.separate_of_calls hlive heach (fun mm hmm mm' hmm' hne => hpair.forall hmm hmm' hne)
      fun ksp hkernel mm hmm f hf => hfree ksp hkernel f ?_
    exact List.mem_flatMap.mpr ⟨mm, hmm, hf⟩
  · intro hsep
    have hspace : ∀ mm ∈ mms, ∃ sp, σ.spaces mm = some sp := fun mm hmm =>
      Option.ne_none_iff_exists'.mp (hlive mm hmm).2
    refine ⟨⟨fun mm hmm => ?_, ?_⟩, fun ksp hkernel f hf => ?_⟩
    · obtain ⟨sp, hsp⟩ := hspace mm hmm
      exact hsep.nodup h hmm hsp
    · refine hnodup.pairwise_of_forall_ne fun mm hmm mm' hmm' hne f hf => ?_
      obtain ⟨sp, hsp⟩ := hspace mm hmm
      obtain ⟨sp', hsp'⟩ := hspace mm' hmm'
      exact hsep.notMem h hmm hsp hf hmm' hsp' hne
    · obtain ⟨mm, hmm, hf⟩ := List.mem_flatMap.mp hf
      obtain ⟨sp, hsp⟩ := hspace mm hmm
      exact hsep.notMem_kernel h hmm hsp hf hkernel (hlive mm hmm).1

theorem leavesKernel_iff (hF : Lawful F) (hstart : KernelStart F kernelMm σ₀)
    (hrun : Runs F kernelMm (Allowed F (some kernelMm) kernelMm) σ₀ σ) (hnodup : mms.Nodup)
    (hlive : ∀ mm ∈ mms, mm ≠ kernelMm ∧ σ.spaces mm ≠ none) :
    LeavesKernel F kernelMm σ mms ↔ Separate kernelMm σ mms :=
  (Runs.inv hF (fun _ _ hact => hact) hrun hstart.inv).separate_iff hF hnodup hlive

/-- A kernel with a page in its upper half, and an address space without a copy of it. -/
theorem leavesKernel_iff_bare : ∃ (σ : Sys Bump) (ksp : Space),
    Runs bump (blockAddr 0) (Allowed bump (some (blockAddr 0)) (blockAddr 0)) bare σ ∧
    σ.spaces (blockAddr 0) = some ksp ∧ ksp.map (pageNumber 0xFFFF800000000000) = some 0x7000 ∧
    LeavesKernel bump (blockAddr 0) σ [blockAddr 1] := by
  obtain ⟨σ, sp, ksp, hrun, hsp, hmap, htables, hupper, hkernel, hpage⟩ := bare_page
  have hrun' := hrun.mono fun _ _ hact => hact.1
  have hempty : sp.frames = ∅ := Set.eq_empty_iff_forall_notMem.mpr fun f ⟨v, hv⟩ => by
    rw [hmap] at hv
    cases hv
  have hone : ∀ {mm sp'}, mm ∈ [blockAddr 1] → σ.spaces mm = some sp' → sp' = sp := by
    intro mm sp' hmm hsp'
    obtain rfl := List.mem_singleton.mp hmm
    exact Option.some.inj (hsp'.symm.trans hsp)
  refine ⟨σ, ksp, hrun', hkernel, by rw [hpage, Function.update_self],
    (leavesKernel_iff bump_lawful bare_start hrun' (List.nodup_singleton _) fun mm hmm => ?_).mpr
      ⟨fun mm hmm sp' hsp' => ?_, fun mm hmm _ _ sp' _ v w f hsp' _ hv => ?_,
        fun mm hmm _ _ sp' _ hsp' _ => ?_, fun mm hmm sp' ksp' hsp' hksp' => ?_⟩⟩
  · obtain rfl := List.mem_singleton.mp hmm
    exact ⟨blockAddr_ne, by rw [hsp]; exact Option.some_ne_none sp⟩
  · rw [hone hmm hsp']
    exact hupper
  · rw [hone hmm hsp', hmap] at hv
    cases hv
  · rw [hone hmm hsp', hempty]
    exact Set.empty_disjoint _
  · rw [hone hmm hsp', hempty, Set.union_empty]
    refine ⟨Set.empty_disjoint _, Set.disjoint_left.mpr fun f hf ⟨v, hv⟩ => ?_⟩
    rw [← Option.some.inj (hkernel.symm.trans hksp'), hpage] at hv
    obtain rfl := Set.mem_singleton_iff.mp (htables hf)
    rcases update_some hv with ⟨-, heq⟩ | ⟨-, hnone⟩
    · cases heq
    · cases hnone

/-- The kernel has a page in its upper half when the copy is made. -/
theorem deleteMm_frees_kernel : ∃ (σ : Sys Bump) (sp : Space),
    Runs bump (blockAddr 0) (Allowed bump (some (blockAddr 0)) (blockAddr 0)) bare σ ∧
    σ.spaces (blockAddr 1) = some sp ∧ sp.copied = true ∧
    ¬ LeavesKernel bump (blockAddr 0) σ [blockAddr 1] := by
  obtain ⟨σ, sp, ksp, hrun, hsp, hcopied, hkernel, hpage⟩ := bare_populated
  obtain ⟨h, hshared⟩ := shared_run bump_lawful hrun bare_start.inv bare_start.shared
  refine ⟨σ, sp, hrun.mono fun _ _ hact => hact.1, hsp, hcopied, ?_⟩
  rw [h.separate_iff bump_lawful (List.nodup_singleton _) fun mm hmm => by
    obtain rfl := List.mem_singleton.mp hmm
    exact ⟨blockAddr_ne, by rw [hsp]; exact Option.some_ne_none _⟩]
  intro hsep
  have hi : 256 ≤ (index 39 0xFFFF800000000000 : ℕ) := by decide
  have hnone := hsep.copies _ List.mem_cons_self _ hsp _ hi
  rw [hshared _ _ _ _ hsp hkernel hcopied hi] at hnone
  have hwalk := h.map 0xFFFF800000000000 hkernel
  rw [hpage, Function.update_self, path_eq, walk_cons, own_empty hnone] at hwalk
  cases hwalk

end Fynaos.Vmm
