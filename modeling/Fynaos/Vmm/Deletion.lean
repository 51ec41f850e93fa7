import Fynaos.Vmm.Refinement

/-!
# Deletion gives back what was taken

The frames that are mapped were all given out by `alloc_frames` to whoever maps them, and no frame is mapped
twice (`Owned`). Then `delete_mm` calls `free_frame` once for each table that the address space ever got,
once for each frame that is still mapped, and for no other frame (`deleteMm_exact`).
-/

namespace Fynaos.Vmm

open Radix

/-- The calls of a run that maps each frame at one page at most. -/
def OwnedCall {S : Type} (σ : Sys S) : Act → Prop
  | .create | .take | .unmap _ _ | .swap _ | .delete _ => True
  | .map _ frame _ attr => frame ∈ σ.clients ∧
      (∀ k sp, σ.spaces k = some sp → frame ∉ sp.frames) ∧ attr < 4096 ∧ attr &&& pagePresent ≠ 0
  | .copy _ => False

structure Owned {S : Type} (F : Services S) (σ : Sys S) : Prop where
  held : σ.clients ⊆ F.held σ.frames
  tables : ∀ {k sp}, σ.spaces k = some sp → Disjoint σ.clients sp.tables
  mapped : ∀ {k sp}, σ.spaces k = some sp → sp.frames ⊆ σ.clients
  once : ∀ {k k' sp sp' v w f}, σ.spaces k = some sp → σ.spaces k' = some sp' →
    sp.map (pageNumber v) = some f → sp'.map (pageNumber w) = some f →
    k = k' ∧ pageNumber v = pageNumber w

variable {S : Type} {F : Services S} {σ₀ σ τ : Sys S} {sp sp' : Space} {kernelMm k mm f n v w : ℕ}
  {act : Act}

theorem Owned.clean (ho : Owned F σ) (hm : σ.spaces mm = some sp) :
    Clean F none σ sp where
  copies i hX := by
    obtain ⟨k, huser, -⟩ := mem_borrowers.mp hX
    exact absurd huser not_isUser
  once v w f hv hw := (ho.once hm hm hv hw).2
  held := (ho.mapped hm).trans ho.held
  noTable k sp' hk := Set.disjoint_of_subset_left (ho.mapped hm) (ho.tables hk)

theorem OwnedCall.allowed (h : Inv F none σ) (ho : Owned F σ) (hcall : OwnedCall σ act) :
    Allowed F none kernelMm σ act := by
  cases act with
  | create | take | swap => trivial
  | map mm frame page attr =>
    obtain ⟨hclient, -, hattr, hpresent⟩ := hcall
    have hframe := h.sound.frame frame (ho.held hclient)
    have hlt := hframe.lt
    exact ⟨hframe.aligned, by omega, hattr, hpresent, fun huser => absurd huser not_isUser⟩
  | unmap mm page => exact fun huser => absurd huser not_isUser
  | copy => exact hcall.elim
  | delete mm => exact ⟨(Option.some_ne_none mm).symm, fun sp hm => ho.clean hm⟩

/-! ### One step -/

theorem Space.mapped_some {new : Set ℕ} (h : (sp.mapped f n new).map (pageNumber v) = some w) :
    sp.map (pageNumber v) = some w ∨ (pageNumber v = n ∧ w = f ∧ sp.map n = none) := by
  by_cases hnone : sp.map n = none
  · rw [Space.mapped_map hnone] at h
    by_cases hn : pageNumber v = n
    · rw [hn, Function.update_self] at h
      exact Or.inr ⟨hn, (Option.some.inj h).symm, hnone⟩
    · rw [Function.update_of_ne hn] at h
      exact Or.inl h
  · rw [Space.mapped_map_of_ne hnone] at h
    exact Or.inl h

theorem Space.unmapped_some (h : (sp.unmapped n).map (pageNumber v) = some w) :
    sp.map (pageNumber v) = some w := by
  rw [Space.unmapped_map] at h
  by_cases hn : pageNumber v = n
  · rw [hn, Function.update_self] at h
    cases h
  · rwa [Function.update_of_ne hn] at h

theorem Owned.of_kept (ho : Owned F σ) (hheld : τ.clients ⊆ F.held τ.frames)
    (hkept : ∀ k spk, τ.spaces k = some spk → Disjoint τ.clients spk.tables ∧
      ∀ v f, spk.map (pageNumber v) = some f → f ∈ τ.clients ∧
        ∃ spo, σ.spaces k = some spo ∧ spo.map (pageNumber v) = some f) : Owned F τ where
  held := hheld
  tables hk := (hkept _ _ hk).1
  mapped hk := by
    rintro f ⟨v, hv⟩
    exact ((hkept _ _ hk).2 v f hv).1
  once hk hk' hv hw := by
    obtain ⟨-, spo, hko, hold⟩ := (hkept _ _ hk).2 _ _ hv
    obtain ⟨-, spo', hko', hold'⟩ := (hkept _ _ hk').2 _ _ hw
    exact ho.once hko hko' hold hold'

section calls
variable {r : Ram} {s : S} {frame page attr g : ℕ} {done : Bool}

theorem Owned.create (hF : Lawful F) (h : Inv F none σ) (ho : Owned F σ) (hne : mm ≠ 0)
    (hrun : createMm F σ.ram σ.frames = .ok (mm, r, s)) :
    Owned F { σ with
      ram := r, frames := s
      spaces := Function.update σ.spaces mm
        (some ⟨r.word mm, false, F.held s \ F.held σ.frames, fun _ => none⟩) } := by
  obtain ⟨-, -, ⟨hzero, -⟩ | ⟨-, -, -, g, hfresh, hheld, -⟩⟩ := createMm_spec hF h.sound hrun
  · exact absurd hzero hne
  refine ho.of_kept (ho.held.trans (hheld ▸ Set.subset_insert g _)) fun k spk hk => ?_
  rcases update_some hk with ⟨-, rfl⟩ | ⟨-, hk⟩
  · refine ⟨Set.disjoint_left.mpr fun c hc hc' => hc'.2 (ho.held hc), fun v f hv => ?_⟩
    cases hv
  · exact ⟨ho.tables hk, fun v f hv => ⟨ho.mapped hk ⟨v, hv⟩, spk, hk, hv⟩⟩

theorem Owned.take (hF : Lawful F) (h : Inv F none σ) (ho : Owned F σ)
    (hrun : F.allocFrames σ.frames = .ok (g, s)) :
    Owned F { σ with
      frames := s
      clients := σ.clients ∪ (F.held s \ F.held σ.frames) } := by
  have hmore : F.held σ.frames ⊆ F.held s := by
    obtain ⟨-, -, ⟨-, hheld⟩ | ⟨-, hheld⟩⟩ := hF.alloc h.sound hrun
    · exact hheld.superset
    · exact hheld ▸ Set.subset_insert g _
  refine ho.of_kept (Set.union_subset (ho.held.trans hmore) Set.sdiff_subset) fun k spk hk =>
    ⟨?_, fun v f hv => ⟨Or.inl (ho.mapped hk ⟨v, hv⟩), spk, hk, hv⟩⟩
  refine Set.disjoint_union_left.mpr ⟨ho.tables hk, Set.disjoint_left.mpr fun c hc hc' => ?_⟩
  exact hc.2 (h.tables_held hk hc')

theorem Owned.map (hF : Lawful F) (h : Inv F none σ) (ho : Owned F σ)
    (hcall : OwnedCall σ (.map mm frame page attr)) (hm : σ.spaces mm = some sp)
    (hrun : mapPage F mm frame page attr σ.ram σ.frames = .ok (done, r, s)) :
    Owned F { σ with
      ram := r, frames := s
      spaces := Function.update σ.spaces mm
        (some (sp.mapped frame (pageNumber page) (F.held s \ F.held σ.frames))) } := by
  have hallowed : Allowed F none 0 σ (.map mm frame page attr) := hcall.allowed h ho
  obtain ⟨hclient, hunmapped, -⟩ := hcall
  obtain ⟨-, -, -, hedited, -⟩ := h.mapPage_edited hF hm hallowed hrun
  have hcases : ∀ {k spk}, Function.update σ.spaces mm (some (sp.mapped frame (pageNumber page)
      (F.held s \ F.held σ.frames))) k = some spk → ∃ spo, σ.spaces k = some spo ∧
        (∀ c ∈ spk.tables, c ∈ spo.tables ∨ c ∉ F.held σ.frames) ∧
        ∀ v f, spk.map (pageNumber v) = some f → spo.map (pageNumber v) = some f ∨
          (k = mm ∧ pageNumber v = pageNumber page ∧ f = frame) := by
    intro k spk hk
    obtain ⟨spo, hk', -, ⟨rfl, rfl, rfl⟩ | ⟨-, rfl⟩⟩ :=
      update_cases (sp.mapped frame (pageNumber page) _) hm rfl hk
    · refine ⟨spo, hk', fun c hc => ?_, fun v f hv => ?_⟩
      · exact hc.imp id fun hc => hc.2
      · exact (Space.mapped_some hv).imp id fun hn => ⟨rfl, hn.1, hn.2.1⟩
    · exact ⟨spk, hk', fun c hc => Or.inl hc, fun v f hv => Or.inl hv⟩
  refine ⟨ho.held.trans hedited.more, fun {k spk} hk => ?_, fun {k spk} hk => ?_,
    fun {k k' spk spk' v w f} hk hk' hv hw => ?_⟩
  · obtain ⟨spo, hk', htables, -⟩ := hcases hk
    refine Set.disjoint_left.mpr fun c hc hc' => ?_
    rcases htables c hc' with hold | hnew
    · exact Set.disjoint_left.mp (ho.tables hk') hc hold
    · exact hnew (ho.held hc)
  · obtain ⟨spo, hk', -, hmap⟩ := hcases hk
    rintro f ⟨v, hv⟩
    rcases hmap v f hv with hold | ⟨-, -, rfl⟩
    · exact ho.mapped hk' ⟨v, hold⟩
    · exact hclient
  · obtain ⟨spo, hko, -, hmap⟩ := hcases hk
    obtain ⟨spo', hko', -, hmap'⟩ := hcases hk'
    rcases hmap v f hv with hold | ⟨rfl, hpage, rfl⟩
    · rcases hmap' w f hw with hold' | ⟨-, -, rfl⟩
      · exact ho.once hko hko' hold hold'
      · exact absurd ⟨v, hold⟩ (hunmapped k spo hko)
    · rcases hmap' w f hw with hold' | ⟨rfl, hpage', -⟩
      · exact absurd ⟨w, hold'⟩ (hunmapped k' spo' hko')
      · exact ⟨rfl, hpage.trans hpage'.symm⟩

theorem Owned.unmap (ho : Owned F σ) (hm : σ.spaces mm = some sp) (r : Ram) (page : ℕ) :
    Owned F { σ with
      ram := r
      spaces := Function.update σ.spaces mm (some (sp.unmapped (pageNumber page))) } := by
  refine ho.of_kept ho.held fun k spk hk => ?_
  obtain ⟨spo, hk', -, ⟨rfl, rfl, rfl⟩ | ⟨-, rfl⟩⟩ :=
    update_cases (sp.unmapped (pageNumber page)) hm rfl hk
  · have htables : Disjoint σ.clients spo.tables := ho.tables hk'
    refine ⟨htables, fun v f hv => ?_⟩
    have hold := Space.unmapped_some hv
    exact ⟨ho.mapped hk' ⟨v, hold⟩, spo, hk', hold⟩
  · exact ⟨ho.tables hk', fun v f hv => ⟨ho.mapped hk' ⟨v, hv⟩, spk, hk', hv⟩⟩

theorem Owned.clients_kept (ho : Owned F σ) (hm : σ.spaces mm = some sp)
    (hheld : F.held s = F.held σ.frames \ (sp.tables ∪ sp.frames)) :
    σ.clients \ sp.frames ⊆ F.held s := by
  rintro c ⟨hc, hnot⟩
  rw [hheld]
  refine ⟨ho.held hc, ?_⟩
  rintro (ht | hf)
  · exact Set.disjoint_left.mp (ho.tables hm) hc ht
  · exact hnot hf

theorem Owned.delete (ho : Owned F σ) (hm : σ.spaces mm = some sp)
    (hheld : F.held s = F.held σ.frames \ (sp.tables ∪ sp.frames)) (r : Ram) :
    Owned F { σ with
      ram := r, frames := s
      spaces := Function.update σ.spaces mm none
      clients := σ.clients \ sp.frames } := by
  refine ho.of_kept (ho.clients_kept hm hheld) fun k spk hk => ?_
  obtain ⟨hkm, hk'⟩ := update_none hk
  refine ⟨Set.disjoint_of_subset_left Set.sdiff_subset (ho.tables hk'), fun v f hv => ?_⟩
  refine ⟨⟨ho.mapped hk' ⟨v, hv⟩, ?_⟩, spk, hk', hv⟩
  rintro ⟨w, hw⟩
  exact hkm (ho.once hk' hm hv hw).1

end calls

theorem Owned.step (hF : Lawful F) (h : Inv F none σ) (ho : Owned F σ) (hcall : OwnedCall σ act)
    (hstep : Step F kernelMm σ act τ) : Owned F τ := by
  cases hstep with
  | create hrun hne => exact ho.create hF h hne hrun
  | createNull hrun =>
    obtain ⟨-, -, ⟨-, hheld, -⟩ | ⟨hne, -⟩⟩ := createMm_spec hF h.sound hrun
    · exact ⟨ho.held.trans hheld.superset, ho.tables, ho.mapped, ho.once⟩
    · exact absurd rfl hne
  | take hrun => exact ho.take hF h hrun
  | map hm hrun => exact ho.map hF h hcall hm hrun
  | unmap hm => exact ho.unmap hm _ _
  | copy => exact hcall.elim
  | swap => exact ⟨ho.held, ho.tables, ho.mapped, ho.once⟩
  | delete hm hrun =>
    obtain ⟨r', s', hrun', hheld, -⟩ := h.deleteMm hF hm (Option.some_ne_none _).symm (ho.clean hm)
    obtain ⟨-, rfl⟩ := Prod.mk.inj (Except.ok.inj (hrun'.symm.trans hrun))
    exact ho.delete hm hheld _

theorem owned_run (hF : Lawful F) (hrun : Runs F kernelMm OwnedCall σ₀ σ) (h : Inv F none σ₀)
    (ho : Owned F σ₀) : Inv F none σ ∧ Owned F σ := by
  induction hrun with
  | refl => exact ⟨h, ho⟩
  | tail _ hstep ih =>
    obtain ⟨act, hcall, hstep⟩ := hstep
    exact ⟨hstep.inv hF (hcall.allowed ih.1 ih.2) ih.1, ih.2.step hF ih.1 hcall hstep⟩

/-- The calls of `free_frame` in a `delete_mm`, whichever allocators are behind it. -/
def Frees (mm : ℕ) (r : Ram) (log : List ℕ) : Prop :=
  ∀ {T : Type} (G : Services T) (t : T), deleteMm G mm r t = (do
    let t ← log.foldlM (fun t f => G.freeFrame f t) t
    G.kfree mm r t)

/-- A `delete_mm` gives back the tables and the frames that are mapped, and nothing else. -/
structure GivesBack {S : Type} (F : Services S) (σ : Sys S) (mm : ℕ) (sp : Space) (log : List ℕ) :
    Prop where
  calls : Frees mm σ.ram log
  once : log.Nodup
  mem : ∀ f, f ∈ log ↔ f ∈ sp.tables ∪ sp.frames
  held : sp.tables ∪ sp.frames ⊆ F.held σ.frames
  returns : ∃ r s, deleteMm F mm σ.ram σ.frames = .ok (r, s) ∧
    F.held s = F.held σ.frames \ (sp.tables ∪ sp.frames) ∧ σ.clients \ sp.frames ⊆ F.held s

theorem deleteMm_exact (hF : Lawful F) (hs : Sound F σ₀.frames) (hempty : σ₀.spaces = fun _ => none)
    (hclients : σ₀.clients = ∅) (hrun : Runs F kernelMm OwnedCall σ₀ σ) (hm : σ.spaces mm = some sp) :
    ∃ log, GivesBack F σ mm sp log := by
  have hnone : ∀ {k sp}, σ₀.spaces k ≠ some sp := by
    intro k sp hk
    rw [hempty] at hk
    cases hk
  have howned₀ : Owned F σ₀ := by
    refine ⟨?_, fun hk => absurd hk hnone, fun hk => absurd hk hnone, fun hk => absurd hk hnone⟩
    rw [hclients]
    exact Set.empty_subset _
  obtain ⟨h, ho⟩ := owned_run hF hrun (Inv.empty hs hempty) howned₀
  have hclean := ho.clean hm
  obtain ⟨r, s, hdelete, hheld, -⟩ := h.deleteMm hF hm (Option.some_ne_none mm).symm hclean
  refine ⟨nodes σ.ram 4 sp.pml4, ?_, ?_, fun f => h.mem_nodes hm hclean.copies, ?_, r, s, hdelete, hheld,
    ho.clients_kept hm hheld⟩
  · exact fun G t => deleteMm_eq (h.direct hm) (h.word hm) (h.readable hm)
  · exact (h.nodup_nodes hm hclean.copies).mpr ⟨hclean.once, hclean.noTable mm sp hm⟩
  · exact Set.union_subset (h.tables_held hm) hclean.held

/-- A client's frame is mapped at page 5, and the address space is deleted. -/
theorem deleteMm_exact_two : ∃ σ sp, Runs bump 0 OwnedCall blank σ ∧
    σ.spaces (blockAddr 1) = some sp ∧ sp.map 5 = some 0x2000 ∧
      ∃ log, GivesBack bump σ (blockAddr 1) sp log := by
  obtain ⟨σ₁, sp₁, hstep₁, hspaces, hmap₁, hframes, -⟩ := blank_create 0
  have hsp₁ : σ₁.spaces (blockAddr 1) = some sp₁ := by rw [hspaces, Function.update_self]
  have hrun₁ : Runs bump 0 OwnedCall blank σ₁ :=
    Relation.ReflTransGen.single ⟨.create, trivial, hstep₁⟩
  have hcreate : Allowed bump none 0 blank .create := trivial
  have hinv₁ := hstep₁.inv bump_lawful hcreate (Inv.empty blank_sound rfl)
  -- the frame with the number 2
  have htake : bump.allocFrames σ₁.frames = .ok (0x2000, ([2, 1], [1])) := by
    rw [hframes]
    exact bump_alloc (s := ([1], [1])) (by decide)
  have hrun₂ := hrun₁.tail ⟨.take, trivial, Step.take htake⟩
  have hinv₂ := hinv₁.take bump_lawful htake
    (σ₁.clients ∪ (bump.held ([2, 1], [1]) \ bump.held σ₁.frames))
  have hclient : 0x2000 ∈ bump.held ([2, 1], [1]) \ bump.held σ₁.frames := by
    refine ⟨⟨2, by decide, rfl⟩, ?_⟩
    rw [hframes]
    rintro ⟨n, hn, heq⟩
    obtain rfl := List.mem_singleton.mp hn
    cases heq
  have hunmapped : ∀ k sp, σ₁.spaces k = some sp → 0x2000 ∉ sp.frames := by
    rintro k sp hk ⟨v, hv⟩
    by_cases hkm : k = blockAddr 1
    · rw [hkm, hsp₁] at hk
      obtain rfl := Option.some.inj hk
      rw [hmap₁] at hv
      cases hv
    · rw [hspaces, Function.update_of_ne hkm] at hk
      cases hk
  -- its page
  have hroom : Supplies bump (missing σ₁.ram sp₁.pml4 (upper 0x5000)) ([2, 1], [1]) := by
    have hle : missing σ₁.ram sp₁.pml4 (upper 0x5000) ≤ 3 := missing_le _ _ _
    refine bump_supplies ?_
    rw [physLimit_eq]
    change 4096 * (3 + _) ≤ _
    omega
  have hentry : PageEntry 0x2000 1 := ⟨⟨2, rfl⟩, by norm_num, by norm_num, by decide⟩
  have hanswers : Answers bump 0 _ := hinv₂.answers bump_lawful
  obtain ⟨done, r, s, hmap⟩ := hanswers.mapReturns hsp₁ hentry hroom
  have hrun₃ := hrun₂.tail ⟨.map (blockAddr 1) 0x2000 0x5000 1,
    ⟨Or.inr hclient, hunmapped, by norm_num, by decide⟩, Step.map hsp₁ hmap⟩
  refine ⟨_, sp₁.mapped 0x2000 (pageNumber 0x5000) (bump.held s \ bump.held ([2, 1], [1])), hrun₃,
    ?_, ?_, ?_⟩
  · exact Function.update_self (f := σ₁.spaces) (blockAddr 1) _
  · rw [Space.mapped_map (by rw [hmap₁])]
    rfl
  · exact deleteMm_exact bump_lawful blank_sound rfl rfl hrun₃
      (Function.update_self (f := σ₁.spaces) (blockAddr 1) _)

end Fynaos.Vmm
