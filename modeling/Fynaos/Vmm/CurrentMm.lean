import Fynaos.Vmm.Deletion

/-!
# CR3

`swap_mm` does not load CR3 again for the address space that is current, and `delete_mm` does not look at
`current_mm`. CR3 is the PML4 of a live address space in every run that never deletes the current one
(`cr3_follows`).
-/

namespace Fynaos.Vmm

open Radix

/-- The calls of a run, each within the contract of the allocators. -/
def SwapCall {S : Type} (F : Services S) (σ : Sys S) : Act → Prop
  | .create | .take | .unmap _ _ => True
  | .map _ frame _ attr => PageEntry frame attr
  | .swap mm => mm ≠ 0 → σ.spaces mm ≠ none
  | .delete mm => ∀ sp, σ.spaces mm = some sp → Clean F none σ sp
  | .copy _ => False

/-- The current address space is not deleted. -/
def SparesCurrent {S : Type} (σ : Sys S) (act : Act) : Prop := act ≠ .delete σ.current.currentMm

/-- A swap loads the PML4 of its address space, and once it is loaded CR3 is the PML4 of one that lives. -/
structure Cr3Follows {S : Type} (F : Services S) (σ : Sys S) : Prop where
  swap : ∀ mm sp, σ.spaces mm = some sp →
    ∃ c, swapMm mm σ.ram σ.current = .ok c ∧ c.cr3 = σ.ram.word mm
  live : σ.current.currentMm ≠ 0 → σ.current.cr3 ∈ F.held σ.frames ∧
    ∃ mm sp, σ.spaces mm = some sp ∧ sp.pml4 = σ.current.cr3

/-- CR3 belongs to `current_mm`. -/
def Loaded {S : Type} (σ : Sys S) : Prop :=
  σ.current.currentMm = 0 ∨
    ∃ sp, σ.spaces σ.current.currentMm = some sp ∧ sp.pml4 = σ.current.cr3

variable {S : Type} {F : Services S} {σ₀ σ τ : Sys S} {sp : Space} {kernelMm mm : ℕ} {act : Act}

theorem SwapCall.allowed (h : SwapCall F σ act) : Allowed F none kernelMm σ act := by
  cases act with
  | create | take | swap => trivial
  | map mm frame page attr =>
    obtain ⟨hframe, hframe64, hattr, hpresent⟩ := h
    exact ⟨hframe, hframe64, hattr, hpresent, fun huser => absurd huser not_isUser⟩
  | unmap mm page => exact fun huser => absurd huser not_isUser
  | copy => exact h.elim
  | delete mm => exact ⟨(fun hκ => nomatch hκ), h⟩

theorem Inv.swapMm (h : Inv F none σ) (hloaded : Loaded σ) (hmm : σ.spaces mm = some sp) :
    ∃ c, Vmm.swapMm mm σ.ram σ.current = .ok c ∧ c.currentMm = mm ∧ c.cr3 = sp.pml4 := by
  have hne : mm ≠ 0 := by
    rintro rfl
    have hbase := (h.direct hmm).1
    rw [kernelDirectBase_eq] at hbase
    omega
  by_cases hcurrent : σ.current.currentMm = mm
  · refine ⟨σ.current, by rw [Vmm.swapMm, if_pos (Or.inr hcurrent)], hcurrent, ?_⟩
    rcases hloaded with hzero | ⟨sp', hsp', hcr3⟩
    · exact absurd (hcurrent.symm.trans hzero) hne
    · rw [hcurrent, hmm] at hsp'
      rw [← hcr3, Option.some.inj hsp']
  · refine ⟨⟨mm, sp.pml4⟩, ?_, rfl, rfl⟩
    rw [Vmm.swapMm, if_neg (not_or.mpr ⟨hne, hcurrent⟩), (h.direct hmm).load, ok_bind, pure_eq,
      h.word hmm]

theorem Loaded.step (hF : Lawful F) (h : Inv F none σ) (hloaded : Loaded σ) (hcall : SwapCall F σ act)
    (hspares : SparesCurrent σ act) (hstep : Step F kernelMm σ act τ) : Loaded τ := by
  -- an address space that keeps its PML4
  have hupdate : ∀ sp' {m sp}, σ.spaces m = some sp → sp'.pml4 = sp.pml4 →
      ∀ {c}, c = σ.current.currentMm → c = 0 ∨
        ∃ spc, Function.update σ.spaces m (some sp') c = some spc ∧ spc.pml4 = σ.current.cr3 := by
    intro sp' m sp hm hpml4 c hc
    subst hc
    refine hloaded.imp id fun ⟨spc, hspc, hcr3⟩ => ?_
    by_cases hmc : σ.current.currentMm = m
    · rw [hmc, hm] at hspc
      rw [hmc, Function.update_self]
      exact ⟨sp', rfl, by rw [hpml4, Option.some.inj hspc, hcr3]⟩
    · exact ⟨spc, by rw [Function.update_of_ne hmc, hspc], hcr3⟩
  cases hstep with
  | @create mm r s hrun hne =>
    refine hloaded.imp id fun ⟨spc, hspc, hcr3⟩ => ⟨spc, ?_, hcr3⟩
    have hfresh := h.createMm_fresh hF hne hrun
    have hmc : σ.current.currentMm ≠ mm := by
      intro heq
      rw [heq, hfresh] at hspc
      cases hspc
    exact (Function.update_of_ne hmc _ σ.spaces).trans hspc
  | createNull => exact hloaded
  | take => exact hloaded
  | @map _ frame page _ sp _ _ s hm =>
    exact hupdate (sp.mapped frame (pageNumber page) (F.held s \ F.held σ.frames)) hm rfl rfl
  | @unmap _ page _ sp _ hm => exact hupdate (sp.unmapped (pageNumber page)) hm rfl rfl
  | copy => exact hcall.elim
  | @swap mm c hrun =>
    by_cases hzero : mm = 0
    · rw [Vmm.swapMm, if_pos (Or.inl hzero)] at hrun
      rw [← Except.ok.inj hrun]
      exact hloaded
    · obtain ⟨sp, hsp⟩ := Option.ne_none_iff_exists'.mp (hcall hzero)
      obtain ⟨c', hrun', hmm, hcr3⟩ := h.swapMm hloaded hsp
      obtain rfl := Except.ok.inj (hrun'.symm.trans hrun)
      exact Or.inr ⟨sp, by rw [hmm, hsp], hcr3.symm⟩
  | @delete mm sp r s hm hrun =>
    refine hloaded.imp id fun ⟨spc, hspc, hcr3⟩ => ⟨spc, ?_, hcr3⟩
    have hmc : σ.current.currentMm ≠ mm := fun heq => hspares (by rw [heq])
    exact (Function.update_of_ne hmc _ σ.spaces).trans hspc

theorem loaded_run (hF : Lawful F)
    (hrun : Runs F kernelMm (fun σ act => SwapCall F σ act ∧ SparesCurrent σ act) σ₀ σ)
    (h : Inv F none σ₀) (hloaded : Loaded σ₀) : Inv F none σ ∧ Loaded σ := by
  induction hrun with
  | refl => exact ⟨h, hloaded⟩
  | tail _ hstep ih =>
    obtain ⟨act, ⟨hcall, hspares⟩, hstep⟩ := hstep
    exact ⟨hstep.inv hF hcall.allowed ih.1, ih.2.step hF ih.1 hcall hspares hstep⟩

theorem cr3_follows (hF : Lawful F) (hs : Sound F σ₀.frames) (hempty : σ₀.spaces = fun _ => none)
    (hnull : σ₀.current.currentMm = 0)
    (hrun : Runs F kernelMm (fun σ act => SwapCall F σ act ∧ SparesCurrent σ act) σ₀ σ) :
    Cr3Follows F σ := by
  obtain ⟨h, hloaded⟩ := loaded_run hF hrun (Inv.empty hs hempty) (Or.inl hnull)
  refine ⟨fun mm sp hmm => ?_, fun hne => ?_⟩
  · obtain ⟨c, hswap, -, hcr3⟩ := h.swapMm hloaded hmm
    exact ⟨c, hswap, hcr3.trans (h.word hmm).symm⟩
  · obtain ⟨sp, hsp, hcr3⟩ := hloaded.resolve_left hne
    exact ⟨hcr3 ▸ h.root_held hsp, _, sp, hsp, hcr3⟩

/-! ### The first address space is made current -/

theorem blank_swap : ∃ (σ : Sys Bump) (sp : Space),
    Runs bump 0 (fun σ act => SwapCall bump σ act ∧ SparesCurrent σ act) blank σ ∧
    σ.spaces = Function.update (fun _ => none) (blockAddr 1) (some sp) ∧ sp.map = (fun _ => none) ∧
    σ.current.currentMm = blockAddr 1 := by
  obtain ⟨σ₁, sp, hstep₁, hspaces, hmap, -, hcurrent, -⟩ := blank_create 0
  have hcreate : Allowed bump none 0 blank .create := trivial
  have h₁ := hstep₁.inv bump_lawful hcreate (Inv.empty blank_sound rfl)
  have hsp : σ₁.spaces (blockAddr 1) = some sp := by rw [hspaces, Function.update_self]
  obtain ⟨c, hswap, hmm, -⟩ := h₁.swapMm (Or.inl (by rw [hcurrent])) hsp
  exact ⟨_, sp, (Relation.ReflTransGen.single ⟨.create, ⟨trivial, nofun⟩, hstep₁⟩).tail
    ⟨.swap (blockAddr 1), ⟨fun _ => by rw [hsp]; exact Option.some_ne_none sp, nofun⟩, Step.swap hswap⟩,
    hspaces, hmap, hmm⟩

theorem cr3_follows_blank : ∃ σ : Sys Bump, σ.current.currentMm = blockAddr 1 ∧ Cr3Follows bump σ := by
  obtain ⟨σ, sp, hrun, -, -, hmm⟩ := blank_swap
  exact ⟨σ, hmm, cr3_follows bump_lawful blank_sound rfl rfl hrun⟩

/-- It is deleted while it is current, and CR3 stays. -/
theorem cr3_freed : ∃ σ : Sys Bump, Runs bump 0 (SwapCall bump) blank σ ∧
    σ.current.currentMm ≠ 0 ∧ σ.current.cr3 ∉ bump.held σ.frames ∧ ¬ Cr3Follows bump σ := by
  obtain ⟨σ, sp, hrun, hspaces, hmap, hmm⟩ := blank_swap
  obtain ⟨h, hloaded⟩ := loaded_run bump_lawful hrun (Inv.empty blank_sound rfl) (Or.inl rfl)
  have hsp : σ.spaces (blockAddr 1) = some sp := by rw [hspaces, Function.update_self]
  have hnone : ∀ {v f}, sp.map (pageNumber v) ≠ some f := by
    intro v f hv
    rw [hmap] at hv
    cases hv
  have hframes : sp.frames = ∅ := Set.eq_empty_of_forall_notMem fun f ⟨v, hv⟩ => hnone hv
  have hclean : Clean bump none σ sp := by
    refine ⟨fun i hX => ?_, fun v w f hv => absurd hv hnone, ?_, fun k sp' _ => ?_⟩
    · obtain ⟨k, huser, -⟩ := mem_borrowers.mp hX
      exact absurd huser not_isUser
    · rw [hframes]
      exact Set.empty_subset _
    · rw [hframes]
      exact Set.empty_disjoint _
  have hcall : SwapCall bump σ (.delete (blockAddr 1)) := by
    intro sp' hsp'
    rwa [← Option.some.inj (hsp.symm.trans hsp')]
  obtain ⟨r, s, hdelete, hheld, -⟩ := h.deleteMm bump_lawful hsp (fun hκ => nomatch hκ) hclean
  have hrun' := (hrun.mono fun _ _ hact => hact.1).tail ⟨_, hcall, Step.delete hsp hdelete⟩
  have hcr3 : σ.current.cr3 ∉ bump.held s := by
    obtain ⟨sp', hsp', heq⟩ := hloaded.resolve_left (by rw [hmm]; exact blockAddr_ne_zero 1)
    rw [hmm] at hsp'
    obtain rfl := Option.some.inj (hsp.symm.trans hsp')
    rw [hheld, ← heq]
    exact fun hin => hin.2 (Or.inl (h.pml4_mem_tables hsp))
  have hne : σ.current.currentMm ≠ 0 := by
    rw [hmm]
    exact blockAddr_ne_zero 1
  exact ⟨_, hrun', hne, hcr3, fun hfollows => hcr3 (hfollows.live hne).1⟩

end Fynaos.Vmm
