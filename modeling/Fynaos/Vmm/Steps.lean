import Fynaos.Vmm.Spaces

/-!
# The invariant along a run

`Allowed` says when a call is used as intended; then it keeps the invariant (`Step.inv`). A
`delete_mm` has the most to ask (`Clean`): no entry of the PML4 is a copy of a kernel entry that is present,
and the frames that are still mapped are in use, mapped once, and no tables.
-/

namespace Fynaos.Vmm

open Radix

/-- Of an address space that can be deleted. -/
structure Clean {S : Type} (F : Services S) (κ : Option ℕ) (σ : Sys S) (sp : Space) : Prop where
  copies : ∀ i : Fin 512, sp.pml4 ∈ borrowers κ σ.spaces → 256 ≤ (i : ℕ) → child σ.ram sp.pml4 i = none
  once : ∀ v w f, sp.map (pageNumber v) = some f → sp.map (pageNumber w) = some f →
    pageNumber v = pageNumber w
  held : sp.frames ⊆ F.held σ.frames
  noTable : ∀ k sp', σ.spaces k = some sp' → Disjoint sp.frames sp'.tables

/-- How the calls are meant to be used. -/
def Allowed {S : Type} (F : Services S) (κ : Option ℕ) (kernelMm : ℕ) (σ : Sys S) : Act → Prop
  | .create | .take | .swap _ => True
  | .map mm frame page attr => 4096 ∣ frame ∧ frame < 2 ^ 64 ∧ attr < 4096 ∧
      attr &&& pagePresent ≠ 0 ∧ (IsUser κ mm → (index 39 page : ℕ) < 256)
  | .unmap mm page => IsUser κ mm → (index 39 page : ℕ) < 256
  | .copy mm => κ = some kernelMm ∧ mm ≠ kernelMm
  | .delete mm => κ ≠ some mm ∧ ∀ sp, σ.spaces mm = some sp → Clean F κ σ sp

variable {S : Type} {F : Services S} {κ : Option ℕ} {σ τ : Sys S} {sp sp' ksp : Space} {s s' : S}
  {r r' : Ram} {a b c f g k m mm v w page frame attr kernelMm : ℕ} {i : Fin 512}
  {q : List (Fin 512)} {done : Bool} {act : Act}

namespace Inv

theorem root_inj (h : Inv F κ σ) (hk : σ.spaces k = some sp) (hm : σ.spaces m = some sp')
    (heq : sp.pml4 = sp'.pml4) : k = m := by
  have hnil : ([] : List (Fin 512)).length < 4 := by norm_num
  exact (h.trees.forest.unique (roots_of hk) (roots_of hm) hnil hnil walk_nil
    (by rw [heq]; exact walk_nil)).1

theorem mem_borrowers_iff (h : Inv F κ σ) (hk : σ.spaces k = some sp) :
    sp.pml4 ∈ borrowers κ σ.spaces ↔ IsUser κ k := by
  constructor
  · rintro ⟨k', sp', huser, hk', heq⟩
    rwa [h.root_inj hk hk' heq.symm]
  · exact fun huser => ⟨k, sp, huser, hk, rfl⟩

theorem kernel_notMem (h : Inv F (some kernelMm) σ) (hk : σ.spaces kernelMm = some ksp) :
    ksp.pml4 ∉ borrowers (some kernelMm) σ.spaces := by
  rw [h.mem_borrowers_iff hk]
  rintro ⟨k, heq, hne⟩
  exact hne (Option.some.inj heq)

theorem kernel_child (h : Inv F (some kernelMm) σ) (hk : σ.spaces kernelMm = some ksp) :
    walk (own (borrowers (some kernelMm) σ.spaces) r) ksp.pml4 [i] = child r ksp.pml4 i := by
  rw [walk_cons, own_of fun hX => absurd hX (h.kernel_notMem hk)]
  cases child r ksp.pml4 i <;> rfl

theorem low (h : Inv F κ σ) (hk : σ.spaces k = some sp)
    (hlow : IsUser κ k → (index 39 page : ℕ) < 256) :
    sp.pml4 ∈ borrowers κ σ.spaces → (index 39 page : ℕ) < 256 :=
  fun hX => hlow ((h.mem_borrowers_iff hk).mp hX)

theorem root_held (h : Inv F κ σ) (hk : σ.spaces k = some sp) : sp.pml4 ∈ F.held σ.frames :=
  h.trees.mem (roots_of hk) (p := []) (by norm_num) walk_nil

theorem direct (h : Inv F κ σ) (hk : σ.spaces k = some sp) : Direct k 8 :=
  h.sound.direct k (h.block hk)

theorem tables_held (h : Inv F κ σ) (hk : σ.spaces k = some sp) : sp.tables ⊆ F.held σ.frames :=
  fun c hc => h.trees.held c ⟨k, (h.tables hk).mpr hc⟩

theorem pml4_mem_tables (h : Inv F κ σ) (hk : σ.spaces k = some sp) : sp.pml4 ∈ sp.tables :=
  (h.tables hk).mp ⟨sp.pml4, [], roots_of hk, by norm_num, walk_nil⟩

theorem tables_disjoint (h : Inv F κ σ) (hk : σ.spaces k = some sp) (hm : σ.spaces m = some sp')
    (hne : k ≠ m) : Disjoint sp.tables sp'.tables := by
  refine Set.disjoint_left.mpr fun c hc hc' => ?_
  obtain ⟨a, p, ha, hp, hwalk⟩ := (h.tables hk).mpr hc
  obtain ⟨a', p', ha', hp', hwalk'⟩ := (h.tables hm).mpr hc'
  exact hne (h.trees.forest.unique ha ha' hp hp' hwalk hwalk').1

/-! ### The calls -/

theorem edit (h : Inv F κ σ) (hm : σ.spaces m = some sp) (hs : Sound F s')
    (hblocks : F.blocks s' = F.blocks σ.frames)
    (htrees : Trees (borrowers κ σ.spaces) (roots σ.spaces) (F.held s') r')
    (hedited : Edited (borrowers κ σ.spaces) (roots σ.spaces) m (path page) (F.held σ.frames)
      (F.held s') σ.ram r')
    (hpml4 : sp'.pml4 = sp.pml4) (htables : sp'.tables = sp.tables ∪ (F.held s' \ F.held σ.frames))
    (hnew : walk (own (borrowers κ σ.spaces) r') sp.pml4 (path page) = sp'.map (pageNumber page))
    (hold : ∀ n, n ≠ pageNumber page → sp'.map n = sp.map n) :
    Inv F κ { σ with
      ram := r', frames := s', spaces := Function.update σ.spaces m (some sp') } := by
  have hroots := roots_update_of_pml4 sp' hm hpml4
  have hX : borrowers κ (Function.update σ.spaces m (some sp')) = borrowers κ σ.spaces :=
    borrowers_congr hroots
  have hword : ∀ {k spk}, σ.spaces k = some spk → r'.word k = σ.ram.word k := fun hk =>
    word_of_pages hs hedited.wrote (hblocks ▸ h.block hk)
  refine
    { sound := hs
      block := fun hk => ?_
      word := fun hk => ?_
      trees := by rw [hX, hroots]; exact htrees
      tables := fun {k spk c} hk => ?_
      map := fun {k spk} v hk => ?_
      kernel := fun hκ => update_ne_none (h.kernel hκ)
      borrowed := fun {kernelMm kspk k spk b i} hκ hkernel hne hk hi hb => ?_ }
  · obtain ⟨spo, hk', -, -⟩ := update_cases _ hm hpml4 hk
    exact hblocks ▸ h.block hk'
  · obtain ⟨spo, hk', hpml4', -⟩ := update_cases _ hm hpml4 hk
    exact (hword hk').trans ((h.word hk').trans hpml4'.symm)
  · obtain ⟨spo, hk', -, hcase⟩ := update_cases _ hm hpml4 hk
    rw [hX, hroots, hedited.tables, h.tables hk']
    rcases hcase with ⟨rfl, rfl, rfl⟩ | ⟨hkm, rfl⟩
    · rw [htables, Set.mem_union]
      exact or_congr Iff.rfl (and_iff_right rfl)
    · exact or_iff_left fun hkm' => hkm hkm'.1
  · obtain ⟨spo, hk', hpml4', hcase⟩ := update_cases _ hm hpml4 hk
    rw [hX, hpml4']
    by_cases hpage : k = m ∧ path v = path page
    · rcases hcase with ⟨rfl, rfl, rfl⟩ | ⟨hkm, -⟩
      · rw [hpage.2, hnew, path_eq_iff.mp hpage.2]
      · exact absurd hpage.1 hkm
    · rw [hedited.full (q := path v) (roots_of hk') rfl le_rfl hpage, h.map v hk']
      rcases hcase with ⟨rfl, rfl, rfl⟩ | ⟨-, rfl⟩
      · exact (hold _ fun hn => hpage ⟨rfl, path_eq_iff.mpr hn⟩).symm
      · rfl
  · subst hκ
    obtain ⟨kspo, hkernel', hkpml4, -⟩ := update_cases _ hm hpml4 hkernel
    obtain ⟨spo, hk', hpml4', -⟩ := update_cases _ hm hpml4 hk
    have hmem := (h.mem_borrowers_iff hk').mpr ⟨kernelMm, rfl, hne⟩
    rw [hpml4', child, hedited.copies _ hmem i hi] at hb
    have hold := h.borrowed rfl hkernel' hne hk' hi hb
    rw [hkpml4, ← h.kernel_child hkernel']
    exact hedited.keep (roots_of hkernel') (by norm_num) (by rw [h.kernel_child hkernel']; exact hold)

theorem mapPage_edited (hF : Lawful F) (h : Inv F κ σ) (hm : σ.spaces m = some sp)
    (hallowed : Allowed F κ kernelMm σ (.map m frame page attr))
    (hrun : mapPage F m frame page attr σ.ram σ.frames = .ok (done, r', s')) :
    Sound F s' ∧ F.blocks s' = F.blocks σ.frames ∧
      Trees (borrowers κ σ.spaces) (roots σ.spaces) (F.held s') r' ∧
      Edited (borrowers κ σ.spaces) (roots σ.spaces) m (path page) (F.held σ.frames) (F.held s')
        σ.ram r' ∧
      (sp.map (pageNumber page) ≠ none → done = false ∧ r' = σ.ram ∧ s' = σ.frames) ∧
      (sp.map (pageNumber page) = none → done = true ∧
        walk (own (borrowers κ σ.spaces) r') sp.pml4 (path page) = some frame) := by
  obtain ⟨hframe, hframe64, hattr, hpresent, hlow⟩ := hallowed
  have hodd : attr % 2 = 1 := by
    rw [show attr &&& pagePresent = attr % 2 from land_low attr 1] at hpresent
    omega
  rw [← h.map page hm]
  exact h.trees.mapPage hF h.sound (h.direct hm) (h.word hm) (roots_of hm) (h.low hm hlow) hframe hframe64
    hattr hodd hrun

theorem mapPage (hF : Lawful F) (h : Inv F κ σ) (hm : σ.spaces m = some sp)
    (hallowed : Allowed F κ kernelMm σ (.map m frame page attr))
    (hrun : Vmm.mapPage F m frame page attr σ.ram σ.frames = .ok (done, r', s')) :
    Inv F κ { σ with
      ram := r', frames := s'
      spaces := Function.update σ.spaces m
        (some (sp.mapped frame (pageNumber page) (F.held s' \ F.held σ.frames))) } ∧
      (done = true ↔ sp.map (pageNumber page) = none) ∧
      (done = false → r' = σ.ram ∧ s' = σ.frames) := by
  obtain ⟨hs, hblocks, htrees, hedited, hfull, hfree⟩ := h.mapPage_edited hF hm hallowed hrun
  by_cases hnone : sp.map (pageNumber page) = none
  · obtain ⟨rfl, hnew⟩ := hfree hnone
    refine ⟨h.edit hm hs hblocks htrees hedited rfl rfl ?_ fun n hn => ?_,
      iff_of_true rfl hnone, fun hfalse => nomatch hfalse⟩
    · rw [hnew, Space.mapped_map hnone, Function.update_self]
    · rw [Space.mapped_map hnone, Function.update_of_ne hn]
  · obtain ⟨rfl, rfl, rfl⟩ := hfull hnone
    refine ⟨h.edit hm hs hblocks htrees hedited rfl rfl ?_ fun n _ => ?_,
      iff_of_false (fun htrue => nomatch htrue) hnone, fun _ => ⟨rfl, rfl⟩⟩
    · rw [h.map page hm, Space.mapped_map_of_ne hnone]
    · rw [Space.mapped_map_of_ne hnone]

theorem unmapPage (h : Inv F κ σ) (hm : σ.spaces m = some sp) (page : ℕ)
    (hlow : IsUser κ m → (index 39 page : ℕ) < 256) :
    ∃ r', unmapPage m page σ.ram = .ok ((sp.map (pageNumber page)).getD invalidAddress, r') ∧
      Inv F κ { σ with
        ram := r'
        spaces := Function.update σ.spaces m (some (sp.unmapped (pageNumber page))) } ∧
      (sp.map (pageNumber page) = none → r' = σ.ram) := by
  obtain ⟨r', hrun, htrees, hedited, hnew, hsame⟩ := h.trees.unmapPage page h.sound.frame
    (h.direct hm) (h.word hm) (roots_of hm) (h.low hm hlow)
  rw [h.map page hm] at hrun hsame
  refine ⟨r', hrun, h.edit hm h.sound rfl htrees hedited rfl ?_ ?_ fun n hn => ?_, hsame⟩
  · rw [Set.sdiff_self, Set.union_empty]
    rfl
  · rw [hnew, Space.unmapped_map, Function.update_self]
  · rw [Space.unmapped_map, Function.update_of_ne hn]

theorem kept (h : Inv F κ σ) (hwrote : Wrote σ.ram r' (inUse F σ.frames)ᶜ) (hs : Sound F s')
    (hheld : F.held σ.frames ⊆ F.held s') (hblocks : F.blocks σ.frames ⊆ F.blocks s')
    (clients : Set ℕ) : Inv F κ { σ with ram := r', frames := s', clients := clients } := by
  have hentry : ∀ {f i}, f ∈ F.held σ.frames → entry r' f i = entry σ.ram f i := entry_of_kept hwrote
  have hown : ∀ b, IsTable (own (borrowers κ σ.spaces) σ.ram) 4 (roots σ.spaces) b → ∀ i,
      own (borrowers κ σ.spaces) r' b i = own (borrowers κ σ.spaces) σ.ram b i := fun b hb i =>
    own_congr (hentry (h.trees.held b hb))
  refine
    { sound := hs
      block := fun hk => hblocks (h.block hk)
      word := fun hk => (word_of_kept hwrote (h.block hk)).trans (h.word hk)
      trees := h.trees.of_own hown hheld
      tables := fun hk => (tableOf_frame hown).trans (h.tables hk)
      map := fun v hk => (walk_frame hown (roots_of hk) (path_length v).le).trans (h.map v hk)
      kernel := h.kernel
      borrowed := fun {kernelMm kspk k spk b i} hκ hkernel hne hk hi hb => ?_ }
  rw [child, hentry (h.root_held hk)] at hb
  rw [child, hentry (h.root_held hkernel)]
  exact h.borrowed hκ hkernel hne hk hi hb

theorem plant (h : Inv F κ σ) (hm : σ.spaces m = none) (hblock : m ∈ F.blocks σ.frames)
    (hword : σ.ram.word m = g) (hg : g ∈ F.held σ.frames)
    (hfresh : ¬ IsTable (own (borrowers κ σ.spaces) σ.ram) 4 (roots σ.spaces) g)
    (hempty : ∀ i, entry σ.ram g i = 0) (copied : Bool) :
    Inv F κ { σ with
      spaces := Function.update σ.spaces m (some ⟨g, copied, {g}, fun _ => none⟩) } := by
  have hroots : roots (Function.update σ.spaces m (some ⟨g, copied, {g}, fun _ => none⟩)) =
      Function.update (roots σ.spaces) m (some g) := roots_update _ _ _
  have hroot : roots σ.spaces m = none := by
    rw [roots, hm]
    rfl
  have hchild : ∀ i, child σ.ram g i = none := by
    intro i
    rw [child_eq_none, hempty i]
    rfl
  -- a table that was there is a borrower just when it was one
  have hX : ∀ b, b ≠ g → (b ∈ borrowers κ (Function.update σ.spaces m
      (some ⟨g, copied, {g}, fun _ => none⟩)) ↔ b ∈ borrowers κ σ.spaces) := by
    intro b hb
    apply mem_borrowers_update
    · rw [hroot]
      exact (Option.some_ne_none b).symm
    · exact fun heq => hb (Option.some.inj heq).symm
  have hcases : ∀ {k spk}, Function.update σ.spaces m (some ⟨g, copied, {g}, fun _ => none⟩) k =
      some spk → (k = m ∧ spk = ⟨g, copied, {g}, fun _ => none⟩) ∨ (k ≠ m ∧ σ.spaces k = some spk) :=
    update_some
  generalize hnew : Function.update σ.spaces m (some ⟨g, copied, {g}, fun _ => none⟩) = spaces' at *
  have hown : ∀ b, IsTable (own (borrowers κ σ.spaces) σ.ram) 4 (roots σ.spaces) b → ∀ i,
      own (borrowers κ spaces') σ.ram b i = own (borrowers κ σ.spaces) σ.ram b i := by
    intro b hb i
    have hne : b ≠ g := fun hbg => hfresh (hbg ▸ hb)
    unfold own
    rw [hX b hne]
  have hempty' : ∀ i, own (borrowers κ spaces') σ.ram g i = none := fun i => own_empty (hchild i)
  have htables : ∀ {k c}, k ≠ m → (TableOf (own (borrowers κ spaces') σ.ram) 4 (roots spaces') k c ↔
      TableOf (own (borrowers κ σ.spaces) σ.ram) 4 (roots σ.spaces) k c) := by
    intro k c hk
    refine (tableOf_congr ?_).trans (tableOf_frame hown)
    rw [hroots, Function.update_of_ne hk]
  have htable : ∀ {c}, TableOf (own (borrowers κ spaces') σ.ram) 4 (roots spaces') m c ↔ c = g :=
    tableOf_empty (by rw [hroots, Function.update_self]) hempty' (by norm_num)
  refine
    { sound := h.sound
      block := fun {k spk} hk => ?_
      word := fun {k spk} hk => ?_
      trees := ⟨?_, ?_, fun a ha => ?_⟩
      tables := fun {k spk c} hk => ?_
      map := fun {k spk} v hk => ?_
      kernel := fun {kernelMm} hκ => ?_
      borrowed := fun {kernelMm kspk k spk b i} hκ hkernel hne hk hi hb => ?_ }
  · rcases hcases hk with ⟨rfl, -⟩ | ⟨-, hk⟩
    · exact hblock
    · exact h.block hk
  · rcases hcases hk with ⟨rfl, rfl⟩ | ⟨-, hk⟩
    · exact hword
    · exact h.word hk
  · rw [hroots]
    exact h.trees.forest.plant hroot hown hempty' hfresh
  · rintro b ⟨k, hb⟩
    by_cases hk : k = m
    · subst hk
      rw [htable.mp hb]
      exact hg
    · exact h.trees.held b ⟨k, (htables hk).mp hb⟩
  · obtain ⟨k, -, hk⟩ := mem_borrowers.mp ha
    exact ⟨k, hk⟩
  · rcases hcases hk with ⟨rfl, rfl⟩ | ⟨hne, hk⟩
    · exact htable
    · rw [htables hne, h.tables hk]
  · rcases hcases hk with ⟨rfl, rfl⟩ | ⟨-, hk⟩
    · exact walk_empty hempty' (List.cons_ne_nil _ _)
    · rw [← h.map v hk]
      exact walk_frame hown (roots_of hk) (path_length v).le
  · rw [← hnew]
    exact update_ne_none (h.kernel hκ)
  · rcases hcases hkernel with ⟨rfl, -⟩ | ⟨-, hkernel⟩
    · exact absurd hm (h.kernel hκ)
    · rcases hcases hk with ⟨rfl, rfl⟩ | ⟨-, hk⟩
      · exact absurd (hb.symm.trans (hchild i)) (Option.some_ne_none b)
      · exact h.borrowed hκ hkernel hne hk hi hb

theorem createMm_fresh (hF : Lawful F) (h : Inv F κ σ) (hne : m ≠ 0)
    (hrun : createMm F σ.ram σ.frames = .ok (m, r', s')) : σ.spaces m = none := by
  obtain ⟨-, -, ⟨hzero, -⟩ | ⟨-, hnew, -⟩⟩ := createMm_spec hF h.sound hrun
  · exact absurd hzero hne
  · by_contra hsome
    obtain ⟨sp, hsp⟩ := Option.ne_none_iff_exists'.mp hsome
    exact hnew (h.block hsp)

theorem createMm (hF : Lawful F) (h : Inv F κ σ) (hne : m ≠ 0)
    (hrun : Vmm.createMm F σ.ram σ.frames = .ok (m, r', s')) :
    Inv F κ { σ with
      ram := r', frames := s'
      spaces := Function.update σ.spaces m
        (some ⟨r'.word m, false, F.held s' \ F.held σ.frames, fun _ => none⟩) } := by
  obtain ⟨hs, hwrote, ⟨hzero, -⟩ | ⟨-, -, hblocks, g, hfresh, hheld, hword, hempty⟩⟩ :=
    createMm_spec hF h.sound hrun
  · exact absurd hzero hne
  · have hkept := h.kept hwrote hs (hheld ▸ Set.subset_insert g _) (hblocks ▸ Set.subset_insert m _)
      σ.clients
    have hnoTable : ¬ IsTable (own (borrowers κ σ.spaces) r') 4 (roots σ.spaces) g := by
      rintro ⟨k, ht⟩
      have hroot := ht
      obtain ⟨a, -, ha, -, -⟩ := hroot
      obtain ⟨sp, hsp, -⟩ := roots_some.mp ha
      exact hfresh (h.tables_held hsp ((hkept.tables hsp).mp ht))
    have hgone := h.createMm_fresh hF hne hrun
    have hplant := hkept.plant (m := m) hgone (hblocks ▸ Set.mem_insert m _) hword
      (hheld ▸ Set.mem_insert g _) hnoTable hempty false
    have hone : F.held s' \ F.held σ.frames = {g} := by
      rw [hheld, Set.insert_sdiff_of_notMem _ hfresh, Set.sdiff_self, insert_empty_eq]
    rw [hone, hword]
    exact hplant

theorem createMm_null (hF : Lawful F) (h : Inv F κ σ)
    (hrun : Vmm.createMm F σ.ram σ.frames = .ok (0, r', s')) :
    Inv F κ { σ with ram := r', frames := s' } := by
  obtain ⟨hs, hwrote, ⟨-, hheld, hblocks⟩ | ⟨hne, -⟩⟩ := createMm_spec hF h.sound hrun
  · exact h.kept hwrote hs hheld.superset hblocks.superset σ.clients
  · exact absurd rfl hne

theorem take (hF : Lawful F) (h : Inv F κ σ) (hrun : F.allocFrames σ.frames = .ok (f, s'))
    (clients : Set ℕ) : Inv F κ { σ with frames := s', clients := clients } := by
  obtain ⟨hs, hblocks, hheld⟩ := hF.alloc h.sound hrun
  refine h.kept (Wrote.refl _ _) hs ?_ hblocks.superset clients
  rcases hheld with ⟨-, hheld⟩ | ⟨-, hheld⟩
  · exact hheld.superset
  · exact hheld ▸ Set.subset_insert f _

theorem copyKernel (h : Inv F (some kernelMm) σ) (hm : σ.spaces m = some sp) (hne : m ≠ kernelMm) :
    ∃ r', mapKernelForUserMm kernelMm m σ.ram = .ok r' ∧
      Inv F (some kernelMm) { σ with
        ram := r', spaces := Function.update σ.spaces m (some { sp with copied := true }) } ∧
      (∀ i : Fin 512, 256 ≤ (i : ℕ) → ∀ ksp, σ.spaces kernelMm = some ksp →
        entry r' sp.pml4 i = entry r' ksp.pml4 i) ∧
      ∀ f ∈ F.held σ.frames, f ≠ sp.pml4 → ∀ i, entry r' f i = entry σ.ram f i := by
  obtain ⟨ksp, hkernel⟩ := Option.ne_none_iff_exists'.mp (h.kernel rfl)
  have hroots := roots_update_of_pml4 { sp with copied := true } hm rfl
  have hX : borrowers (some kernelMm) (Function.update σ.spaces m (some { sp with copied := true })) =
      borrowers (some kernelMm) σ.spaces := borrowers_congr hroots
  have hmem : sp.pml4 ∈ borrowers (some kernelMm) σ.spaces :=
    (h.mem_borrowers_iff hm).mpr ⟨kernelMm, rfl, hne⟩
  have hdiff : ksp.pml4 ≠ sp.pml4 := fun heq => hne (h.root_inj hkernel hm heq).symm
  obtain ⟨r', hrun, hcopied, hother, hwrote⟩ := mapKernelForUserMm_spec (h.direct hkernel) (h.direct hm)
    (h.sound.frame _ (h.root_held hkernel)) (h.sound.frame _ (h.root_held hm)) hdiff (h.word hkernel)
    (h.word hm)
  have hsame : ∀ f ∈ F.held σ.frames, f ≠ sp.pml4 → ∀ i, entry r' f i = entry σ.ram f i :=
    fun f hf => hother f (h.sound.frame f hf)
  -- the entries that change are not the tree's own
  have hown : ∀ b, IsTable (own (borrowers (some kernelMm) σ.spaces) σ.ram) 4 (roots σ.spaces) b →
      ∀ i, own (borrowers (some kernelMm) σ.spaces) r' b i =
        own (borrowers (some kernelMm) σ.spaces) σ.ram b i := by
    intro b hb i
    by_cases hbm : b = sp.pml4
    · by_cases hi : 256 ≤ (i : ℕ)
      · unfold own
        rw [if_pos ⟨hbm ▸ hmem, hi⟩, if_pos ⟨hbm ▸ hmem, hi⟩]
      · exact own_congr (by rw [hbm, hcopied i, if_neg hi])
    · exact own_congr (hsame b (h.trees.held b hb) hbm i)
  have hword : ∀ {k spk}, σ.spaces k = some spk → r'.word k = σ.ram.word k := fun hk =>
    hwrote.word (h.sound.apart _ (h.block hk) _ (h.root_held hm))
  refine ⟨r', hrun, ?_, fun i hi ksp' hkernel' => ?_, hsame⟩
  · refine
      { sound := h.sound
        block := fun {k spk} hk => ?_
        word := fun {k spk} hk => ?_
        trees := by rw [hX, hroots]; exact h.trees.of_own hown (le_refl _)
        tables := fun {k spk c} hk => ?_
        map := fun {k spk} v hk => ?_
        kernel := fun hκ => update_ne_none (h.kernel hκ)
        borrowed := fun {kernelMm' kspk k spk b i} hκ hkernel' hne' hk hi hb => ?_ }
    · obtain ⟨spo, hk', -, -⟩ := update_cases { sp with copied := true } hm rfl hk
      exact h.block hk'
    · obtain ⟨spo, hk', hpml4, -⟩ := update_cases { sp with copied := true } hm rfl hk
      exact (hword hk').trans ((h.word hk').trans hpml4.symm)
    · obtain ⟨spo, hk', -, hcase⟩ := update_cases { sp with copied := true } hm rfl hk
      rw [hX, hroots, tableOf_frame hown, h.tables hk']
      rcases hcase with ⟨-, rfl, rfl⟩ | ⟨-, rfl⟩ <;> rfl
    · obtain ⟨spo, hk', hpml4, hcase⟩ := update_cases { sp with copied := true } hm rfl hk
      rw [hX, hpml4, walk_frame hown (roots_of hk') (path_length v).le, h.map v hk']
      rcases hcase with ⟨-, rfl, rfl⟩ | ⟨-, rfl⟩ <;> rfl
    · obtain rfl := Option.some.inj hκ
      obtain ⟨kspo, hkernelo, hkpml4, -⟩ :=
        update_cases { sp with copied := true } hm rfl hkernel'
      obtain ⟨spo, hk', hpml4, -⟩ := update_cases { sp with copied := true } hm rfl hk
      obtain rfl := Option.some.inj (hkernel.symm.trans hkernelo)
      rw [hpml4, child] at hb
      rw [hkpml4, child, hsame _ (h.root_held hkernel) hdiff]
      by_cases hkm : k = m
      · subst hkm
        obtain rfl := Option.some.inj (hm.symm.trans hk')
        rw [hcopied i, if_pos hi] at hb
        exact hb
      · have hkdiff : spo.pml4 ≠ sp.pml4 := fun heq => hkm (h.root_inj hk' hm heq)
        rw [hsame _ (h.root_held hk') hkdiff] at hb
        exact h.borrowed rfl hkernel hne' hk' hi hb
  · obtain rfl := Option.some.inj (hkernel.symm.trans hkernel')
    rw [hcopied i, if_pos hi, hsame _ (h.root_held hkernel) hdiff]

/-! ### Deletion -/

theorem virtToPhys (h : Inv F κ σ) (hk : σ.spaces k = some sp)
    (hlow : IsUser κ k → (index 39 v : ℕ) < 256) :
    virtToPhys k v σ.ram =
      .ok ((sp.map (pageNumber v)).elim invalidAddress fun f => f + pageOffset v) := by
  have hX := h.low hk hlow
  have hwalk : walk (child σ.ram) sp.pml4 (path v) = sp.map (pageNumber v) := by
    rw [h.trees.walk_child_path (roots_of hk) hX (List.prefix_refl _), h.map v hk]
  rw [virtToPhys_eq (h.direct hk) (h.word hk) (h.trees.reads h.sound.frame (roots_of hk) hX), hwalk]
  cases hf : sp.map (pageNumber v) with
  | none => rfl
  | some f =>
    have hlt := walk_path_lt (hwalk.trans hf)
    rw [pageOffset_eq]
    exact congrArg Except.ok (wrap_of_lt (by omega))

/-- A way into the upper half is a way of the kernel. -/
theorem walk_upper (h : Inv F (some kernelMm) σ) (hkernel : σ.spaces kernelMm = some ksp)
    (hk : σ.spaces k = some sp) (hne : k ≠ kernelMm) (hi : 256 ≤ (i : ℕ))
    (hb : child σ.ram sp.pml4 i = some b) (hq : q.length < 4) :
    walk (child σ.ram) sp.pml4 (i :: q) =
      walk (own (borrowers (some kernelMm) σ.spaces) σ.ram) ksp.pml4 (i :: q) := by
  rw [← h.trees.walk_child (q := i :: q) (roots_of hkernel) hq fun hX => absurd hX (h.kernel_notMem hkernel),
    walk_cons, walk_cons, hb, h.borrowed rfl hkernel hne hk hi hb]

theorem reached (h : Inv F κ σ) (hk : σ.spaces k = some sp) (hq : q.length < 4)
    (hb : walk (child σ.ram) sp.pml4 q = some b) : b ∈ F.held σ.frames := by
  by_cases hup : ∃ i q', q = i :: q' ∧ sp.pml4 ∈ borrowers κ σ.spaces ∧ 256 ≤ (i : ℕ)
  · obtain ⟨i, q', rfl, hX, hi⟩ := hup
    obtain ⟨kernelMm, rfl, hne⟩ := (h.mem_borrowers_iff hk).mp hX
    obtain ⟨ksp, hkernel⟩ := Option.ne_none_iff_exists'.mp (h.kernel rfl)
    cases hc : child σ.ram sp.pml4 i with
    | none =>
      rw [walk_cons, hc] at hb
      cases hb
    | some c =>
      rw [h.walk_upper hkernel hk hne hi hc (by rw [List.length_cons] at hq; omega)] at hb
      exact h.trees.mem (roots_of hkernel) hq hb
  · refine h.trees.mem (roots_of hk) hq ?_
    rw [← h.trees.walk_child (roots_of hk) hq.le, hb]
    intro hX i hhead
    by_contra hi
    cases q with
    | nil => cases hhead
    | cons j q => exact hup ⟨j, q, rfl, hX, by rw [Option.some.inj hhead]; exact not_lt.mp hi⟩

theorem readable (h : Inv F κ σ) (hk : σ.spaces k = some sp) : Readable σ.ram sp.pml4 :=
  fun _ b hq hb => h.sound.frame b (h.reached hk hq hb)

theorem own_nodes (h : Inv F κ σ) (hk : σ.spaces k = some sp) :
    (∃ p, p.length ≤ 4 ∧ walk (own (borrowers κ σ.spaces) σ.ram) sp.pml4 p = some f) ↔
      f ∈ sp.tables ∪ sp.frames := by
  constructor
  · rintro ⟨p, hp, hwalk⟩
    rcases Nat.lt_or_eq_of_le hp with hp | hp
    · exact Or.inl ((h.tables hk).mp ⟨_, p, roots_of hk, hp, hwalk⟩)
    · obtain ⟨v, rfl⟩ := exists_path hp
      exact Or.inr ⟨v, (h.map v hk).symm.trans hwalk⟩
  · rintro (ht | ⟨v, hv⟩)
    · obtain ⟨a, p, ha, hp, hwalk⟩ := (h.tables hk).mpr ht
      obtain rfl := Option.some.inj ((roots_of hk).symm.trans ha)
      exact ⟨p, hp.le, hwalk⟩
    · exact ⟨path v, (path_length v).le, (h.map v hk).trans hv⟩

section clean
variable (h : Inv F κ σ) (hk : σ.spaces k = some sp)
include h hk

theorem walk_of_copies
    (hcopies : ∀ i : Fin 512, sp.pml4 ∈ borrowers κ σ.spaces → 256 ≤ (i : ℕ) →
      child σ.ram sp.pml4 i = none) (hq : q.length ≤ 4) :
    walk (child σ.ram) sp.pml4 q = walk (own (borrowers κ σ.spaces) σ.ram) sp.pml4 q := by
  by_cases hup : ∃ i q', q = i :: q' ∧ sp.pml4 ∈ borrowers κ σ.spaces ∧ 256 ≤ (i : ℕ)
  · obtain ⟨i, q', rfl, hX, hi⟩ := hup
    have hnone := hcopies i hX hi
    rw [walk_cons, walk_cons, hnone, own_empty hnone, Option.bind_none, Option.bind_none]
  · refine h.trees.walk_child (roots_of hk) hq fun hX i hhead => ?_
    by_contra hi
    cases q with
    | nil => cases hhead
    | cons j q => exact hup ⟨j, q, rfl, hX, by rw [Option.some.inj hhead]; exact not_lt.mp hi⟩

theorem mem_nodes
    (hcopies : ∀ i : Fin 512, sp.pml4 ∈ borrowers κ σ.spaces → 256 ≤ (i : ℕ) →
      child σ.ram sp.pml4 i = none) :
    f ∈ nodes σ.ram 4 sp.pml4 ↔ f ∈ sp.tables ∪ sp.frames := by
  rw [nodes, mem_visit List.mem_finRange, ← h.own_nodes hk]
  refine exists_congr fun p => and_congr_right fun hp => ?_
  rw [h.walk_of_copies hk hcopies hp]

theorem nodup_nodes
    (hcopies : ∀ i : Fin 512, sp.pml4 ∈ borrowers κ σ.spaces → 256 ≤ (i : ℕ) →
      child σ.ram sp.pml4 i = none) :
    (nodes σ.ram 4 sp.pml4).Nodup ↔
      (∀ v w f, sp.map (pageNumber v) = some f → sp.map (pageNumber w) = some f →
        pageNumber v = pageNumber w) ∧ Disjoint sp.frames sp.tables := by
  have hwalk : ∀ {p}, p.length ≤ 4 → walk (child σ.ram) sp.pml4 p =
      walk (own (borrowers κ σ.spaces) σ.ram) sp.pml4 p := fun hp => h.walk_of_copies hk hcopies hp
  rw [nodes, nodup_visit List.mem_finRange (List.nodup_finRange 512)]
  constructor
  · intro hapart
    refine ⟨fun v w f hv hw => ?_, Set.disjoint_left.mpr ?_⟩
    · rw [← path_eq_iff]
      refine hapart _ _ f le_rfl le_rfl ?_ ?_
      · rw [hwalk le_rfl, h.map v hk, hv]
      · rw [hwalk le_rfl, h.map w hk, hw]
    · rintro f ⟨v, hv⟩ ht
      obtain ⟨a, p, ha, hp, hf⟩ := (h.tables hk).mpr ht
      obtain rfl := Option.some.inj ((roots_of hk).symm.trans ha)
      have heq := hapart p (path v) f hp.le le_rfl (by rw [hwalk hp.le, hf])
        (by rw [hwalk le_rfl, h.map v hk, hv])
      rw [heq, path_length] at hp
      omega
  · rintro ⟨honce, hdisj⟩ p q f hp hq hpf hqf
    rw [hwalk hp] at hpf
    rw [hwalk hq] at hqf
    -- a table and a frame that is mapped are different
    have hmixed : ∀ {p q}, p.length < 4 → q.length = 4 →
        walk (own (borrowers κ σ.spaces) σ.ram) sp.pml4 p = some f →
        walk (own (borrowers κ σ.spaces) σ.ram) sp.pml4 q = some f → False := by
      intro p q hp hq hpf hqf
      obtain ⟨v, rfl⟩ := exists_path hq
      exact Set.disjoint_left.mp hdisj ⟨v, (h.map v hk).symm.trans hqf⟩
        ((h.tables hk).mp ⟨_, p, roots_of hk, hp, hpf⟩)
    rcases Nat.lt_or_eq_of_le hp with hp | hp <;> rcases Nat.lt_or_eq_of_le hq with hq | hq
    · exact (h.trees.forest.unique (roots_of hk) (roots_of hk) hp hq hpf hqf).2
    · exact (hmixed hp hq hpf hqf).elim
    · exact (hmixed hq hp hqf hpf).elim
    · obtain ⟨v, rfl⟩ := exists_path hp
      obtain ⟨w, rfl⟩ := exists_path hq
      rw [h.map v hk] at hpf
      rw [h.map w hk] at hqf
      exact path_eq_iff.mpr (honce v w f hpf hqf)

end clean

theorem uproot (h : Inv F κ σ) (hκ : κ ≠ some m) (hs : Sound F s')
    (hwrote : Wrote σ.ram r' (inUse F s')ᶜ) (hblocks : F.blocks s' = F.blocks σ.frames \ {m})
    (hheld : ∀ k sp', k ≠ m → σ.spaces k = some sp' → sp'.tables ⊆ F.held s') (clients : Set ℕ) :
    Inv F κ { σ with
      ram := r', frames := s', clients := clients
      spaces := Function.update σ.spaces m none } := by
  have hroots := roots_update σ.spaces m none
  have hsub : ∀ k a, roots (Function.update σ.spaces m none) k = some a →
      k ≠ m ∧ roots σ.spaces k = some a := by
    intro k a ha
    obtain ⟨spk, hk, rfl⟩ := roots_some.mp ha
    exact ⟨(update_none hk).1, roots_of (update_none hk).2⟩
  have hentry : ∀ {k spk c i}, k ≠ m → σ.spaces k = some spk → c ∈ spk.tables →
      entry r' c i = entry σ.ram c i := fun hkm hk hc =>
    entry_of_kept hwrote (hheld _ _ hkm hk hc)
  have hforest : Forest (own (borrowers κ σ.spaces) σ.ram) 4
      (roots (Function.update σ.spaces m none)) :=
    h.trees.forest.mono fun k a ha => (hsub k a ha).2
  -- a table of another tree is a borrower just when it was one
  have hown : ∀ b, IsTable (own (borrowers κ σ.spaces) σ.ram) 4
      (roots (Function.update σ.spaces m none)) b → ∀ i,
      own (borrowers κ (Function.update σ.spaces m none)) r' b i =
        own (borrowers κ σ.spaces) σ.ram b i := by
    rintro b ⟨k, ht⟩ i
    have hroot := ht
    obtain ⟨a, -, ha, -, -⟩ := hroot
    obtain ⟨hkm, ha⟩ := hsub k a ha
    obtain ⟨spk, hk, -⟩ := roots_some.mp ha
    have hold := ht.mono fun k a ha => (hsub k a ha).2
    have hb : b ∈ spk.tables := (h.tables hk).mp hold
    have hmem : b ∈ borrowers κ (Function.update σ.spaces m none) ↔ b ∈ borrowers κ σ.spaces := by
      refine mem_borrowers_update (fun hbm => ?_) (Option.some_ne_none b).symm
      obtain ⟨spm, hm, rfl⟩ := roots_some.mp hbm
      exact Set.disjoint_left.mp (h.tables_disjoint hk hm hkm) hb (h.pml4_mem_tables hm)
    unfold own
    rw [hmem, child, child, hentry hkm hk hb]
  have htables : ∀ {k c}, k ≠ m →
      (TableOf (own (borrowers κ (Function.update σ.spaces m none)) r') 4
        (roots (Function.update σ.spaces m none)) k c ↔
      TableOf (own (borrowers κ σ.spaces) σ.ram) 4 (roots σ.spaces) k c) := by
    intro k c hk
    refine (tableOf_frame hown).trans (tableOf_congr ?_)
    rw [hroots, Function.update_of_ne hk]
  refine
    { sound := hs
      block := fun {k spk} hk => ?_
      word := fun {k spk} hk => ?_
      trees := ⟨hforest.frame hown, ?_, fun a ha => ?_⟩
      tables := fun {k spk c} hk => ?_
      map := fun {k spk} v hk => ?_
      kernel := fun {kernelMm} hκ' => ?_
      borrowed := fun {kernelMm kspk k spk b i} hκ' hkernel hne hk hi hb => ?_ }
  · obtain ⟨hkm, hk⟩ := update_none hk
    rw [hblocks]
    exact ⟨h.block hk, hkm⟩
  · obtain ⟨hkm, hk⟩ := update_none hk
    refine (word_of_kept hwrote ?_).trans (h.word hk)
    rw [hblocks]
    exact ⟨h.block hk, hkm⟩
  · rintro b ⟨k, ht⟩
    have hroot := ht
    obtain ⟨a, -, ha, -, -⟩ := hroot
    obtain ⟨hkm, ha⟩ := hsub k a ha
    obtain ⟨spk, hk, -⟩ := roots_some.mp ha
    exact hheld k spk hkm hk ((h.tables hk).mp ((htables hkm).mp ht))
  · obtain ⟨k, -, hk⟩ := mem_borrowers.mp ha
    exact ⟨k, hk⟩
  · obtain ⟨hkm, hk⟩ := update_none hk
    rw [htables hkm, h.tables hk]
  · obtain ⟨hkm, hk'⟩ := update_none hk
    rw [← h.map v hk']
    exact walk_frame hown (roots_of hk) (path_length v).le
  · have hkm : kernelMm ≠ m := fun heq => hκ (heq ▸ hκ')
    change Function.update σ.spaces m none kernelMm ≠ none
    rw [Function.update_of_ne hkm]
    exact h.kernel hκ'
  · obtain ⟨hkm, hk⟩ := update_none hk
    obtain ⟨hkernelm, hkernel⟩ := update_none hkernel
    rw [child, hentry hkm hk (h.pml4_mem_tables hk)] at hb
    rw [child, hentry hkernelm hkernel (h.pml4_mem_tables hkernel)]
    exact h.borrowed hκ' hkernel hne hk hi hb

theorem deleteMm (hF : Lawful F) (h : Inv F κ σ) (hm : σ.spaces m = some sp) (hκ : κ ≠ some m)
    (hclean : Clean F κ σ sp) :
    ∃ r' s', Vmm.deleteMm F m σ.ram σ.frames = .ok (r', s') ∧
      F.held s' = F.held σ.frames \ (sp.tables ∪ sp.frames) ∧
      F.blocks s' = F.blocks σ.frames \ {m} ∧
      (∀ k sp', k ≠ m → σ.spaces k = some sp' → ∀ c ∈ sp'.tables, ∀ i,
        entry r' c i = entry σ.ram c i) ∧
      ∀ clients, Inv F κ { σ with
        ram := r', frames := s', clients := clients
        spaces := Function.update σ.spaces m none } := by
  have hmem : ∀ {f}, f ∈ nodes σ.ram 4 sp.pml4 ↔ f ∈ sp.tables ∪ sp.frames :=
    h.mem_nodes hm hclean.copies
  have hset : {f | f ∈ nodes σ.ram 4 sp.pml4} = sp.tables ∪ sp.frames := by
    ext f
    rw [Set.mem_ofPred_eq]
    exact hmem
  obtain ⟨r', s', hrun, hs, hblocks, hheld, hwrote⟩ := deleteMm_spec hF h.sound (h.block hm) (h.word hm)
    (h.readable hm) ((h.nodup_nodes hm hclean.copies).mpr ⟨hclean.once, hclean.noTable m sp hm⟩)
    fun f hf => by
      rcases hmem.mp hf with ht | hf
      · exact h.tables_held hm ht
      · exact hclean.held hf
  rw [hset] at hheld
  have hothers : ∀ k sp', k ≠ m → σ.spaces k = some sp' → sp'.tables ⊆ F.held s' := by
    intro k sp' hkm hk c hc
    rw [hheld]
    refine ⟨h.tables_held hk hc, ?_⟩
    rintro (ht | hf)
    · exact Set.disjoint_left.mp (h.tables_disjoint hk hm hkm) hc ht
    · exact Set.disjoint_left.mp (hclean.noTable k sp' hk) hf hc
  exact ⟨r', s', hrun, hheld, hblocks, fun k sp' hkm hk c hc i =>
    entry_of_kept hwrote (hothers k sp' hkm hk hc), h.uproot hκ hs hwrote hblocks hothers⟩

end Inv

/-! ### Runs -/

theorem Step.inv (hF : Lawful F) (hallowed : Allowed F κ kernelMm σ act)
    (hstep : Step F kernelMm σ act τ) (h : Inv F κ σ) : Inv F κ τ := by
  cases hstep with
  | create hrun hne => exact h.createMm hF hne hrun
  | createNull hrun => exact h.createMm_null hF hrun
  | take hrun => exact h.take hF hrun _
  | map hm hrun => exact (h.mapPage hF hm hallowed hrun).1
  | unmap hm hrun =>
    obtain ⟨r', hrun', hinv, -⟩ := h.unmapPage hm _ hallowed
    obtain ⟨-, rfl⟩ := Prod.mk.inj (Except.ok.inj (hrun'.symm.trans hrun))
    exact hinv
  | copy hm hrun =>
    obtain ⟨rfl, hne⟩ := hallowed
    obtain ⟨r', hrun', hinv, -⟩ := h.copyKernel hm hne
    obtain rfl := Except.ok.inj (hrun'.symm.trans hrun)
    exact hinv
  | swap => exact { h with }
  | delete hm hrun =>
    obtain ⟨r', s', hrun', -, -, -, hinv⟩ := h.deleteMm hF hm hallowed.1 (hallowed.2 _ hm)
    obtain ⟨rfl, rfl⟩ := Prod.mk.inj (Except.ok.inj (hrun'.symm.trans hrun))
    exact hinv _

/-- The address space that a call is about. -/
def Act.on : Act → Option ℕ
  | .create | .take | .swap _ => none
  | .map mm _ _ _ | .unmap mm _ | .copy mm | .delete mm => some mm

theorem Step.space_of_ne (hF : Lawful F) (hstep : Step F kernelMm σ act τ) (h : Inv F κ σ)
    (hk : σ.spaces k = some sp) (hne : act.on ≠ some k) : τ.spaces k = some sp := by
  have hupdate : ∀ {m spo}, some m ≠ some k → Function.update σ.spaces m spo k = some sp := by
    intro m spo hmk
    rw [Function.update_of_ne fun hkm => hmk (congrArg some hkm.symm), hk]
  cases hstep with
  | @create mm _ _ hrun hzero =>
    refine hupdate fun hmk => ?_
    obtain rfl := Option.some.inj hmk
    exact absurd (hk.symm.trans (h.createMm_fresh hF hzero hrun)) (Option.some_ne_none sp)
  | createNull => exact hk
  | take => exact hk
  | map => exact hupdate hne
  | unmap => exact hupdate hne
  | copy => exact hupdate hne
  | swap => exact hk
  | delete => exact hupdate hne

theorem Runs.mono {P Q : Sys S → Act → Prop} (hPQ : ∀ σ act, P σ act → Q σ act)
    (hrun : Runs F kernelMm P σ τ) : Runs F kernelMm Q σ τ := by
  induction hrun with
  | refl => exact Relation.ReflTransGen.refl
  | tail _ hstep ih =>
    obtain ⟨act, hact, hstep⟩ := hstep
    exact ih.tail ⟨act, hPQ _ act hact, hstep⟩

theorem Runs.inv {P : Sys S → Act → Prop} (hF : Lawful F)
    (hP : ∀ σ act, P σ act → Allowed F κ kernelMm σ act) (hrun : Runs F kernelMm P σ τ)
    (h : Inv F κ σ) : Inv F κ τ := by
  induction hrun with
  | refl => exact h
  | tail _ hstep ih =>
    obtain ⟨act, hact, hstep⟩ := hstep
    exact hstep.inv hF (hP _ act hact) ih

end Fynaos.Vmm
