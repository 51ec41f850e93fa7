import Fynaos.Kernel.Ownership
import Fynaos.Vmm.Refinement

/-!
# What `vmm.c` is given

`vmm.c` on the real allocators: `services` are the functions of `pmm.c` and `pool.c`, with the frames for tables and
the objects for `struct mm` written down. They meet the contract that the theorems about page tables ask for as long
as the memory is `Good`. So the contract is proved of services that do nothing in any other state (`guarded`,
`guarded_lawful`), and where the memory is good both do the same (`mapPage_guarded`, `createMm_guarded`).
-/

namespace Fynaos.Kernel

open Buddy NextList Vmm

/-- `alloc_frames(0)` for a table. -/
def Book.tabled (s : Book) (f : ℕ) (pmm : Pmm) : Book :=
  { s with
    alloc := { s.alloc with pmm := pmm }
    tables := if f = invalidAddress then s.tables else f :: s.tables }

/-- `free_frame` of a table. -/
def Book.untabled (s : Book) (f : ℕ) (pmm : Pmm) : Book :=
  { s with
    alloc := { s.alloc with pmm := pmm }
    tables := s.tables.erase f }

/-- `kmalloc` for a `struct mm`. -/
def Book.structured (s : Book) (p : ℕ) (m : Allocators) : Book :=
  { s with
    alloc := m
    structs := if p = 0 then s.structs else p :: s.structs }

/-- The functions that `vmm.c` calls, as the other files have them. -/
def services : Services Book where
  allocFrames s := do
    let (f, pmm) ← Fynaos.allocFrames 0 s.alloc.pmm
    return (f, s.tabled f pmm)
  freeFrame f s := do
    let pmm ← Fynaos.freeFrame f s.alloc.pmm
    return s.untabled f pmm
  kmalloc len r s := do
    let (p, r, m) ← Kernel.kmalloc rounds len r s.alloc
    return (p, r, s.structured p m)
  kfree p r s := do
    let (r, m) ← Kernel.kfree p r s.alloc
    return (r, { s with alloc := m, structs := s.structs.erase p })
  held s := {f | f ∈ s.tables}
  blocks s := {p | p ∈ s.structs}

/-- The book of some good memory. -/
def Fine (U : Set ℕ) (s : Book) : Prop := ∃ r h ps, Good U r s h ps

open Classical in
/-- The services where the memory is good. Elsewhere they only write down what is given back. -/
noncomputable def guarded (U : Set ℕ) : Services Book where
  allocFrames s := if Fine U s then services.allocFrames s else .error .spin
  freeFrame f s := if Fine U s then services.freeFrame f s
    else .ok { s with tables := s.tables.filter (· ≠ f) }
  kmalloc len r s := if s.alloc.Roomy r len ∧ ∃ h ps, Good U r s h ps then services.kmalloc len r s
    else .error .spin
  kfree p r s := .ok (r, { s with structs := s.structs.filter (· ≠ p) })
  held s := {f | f ∈ s.tables}
  blocks s := {p | p ∈ s.structs}

def clientBytes (s : Book) : Set ℕ :=
  {x | (∃ b ∈ s.frames, x ∈ blockSpan b) ∨ ∃ o ∈ s.objects, x ∈ objectSpan o}

variable {U : Set ℕ} {r r₀ r' : Ram} {s s' : Book} {h : Heap} {ps : List PoolPage} {f p table index mm : ℕ}

/-! ### The contract -/

namespace Good

theorem table_mem (hf : f ∈ s.tables) : frameBlock f ∈ s.held :=
  List.mem_append_right _ (List.mem_map_of_mem hf)

theorem struct_mem (hp : p ∈ s.structs) : (p, mmSize) ∈ s.given :=
  List.mem_append_right _ (List.mem_map.mpr ⟨p, hp, rfl⟩)

theorem frameOk (hg : Good U r s h ps) (hU : Mapped U) (hf : f ∈ s.tables) : FrameOk f := by
  have hsub := hg.kept.span_subset (List.mem_append_right _ (table_mem hf))
  refine hU.frameOk (hg.tables f hf) (hsub ?_)
  rw [← shiftRight_page]
  exact (frameBlock f).base_mem_span

theorem tables_nodup (hg : Good U r s h ps) : s.tables.Nodup := by
  have hnodup := (List.nodup_append'.mp (List.nodup_append'.mp hg.kept.nodup).2.1).2.1
  exact hnodup.of_map _

theorem objects_disjoint {o o' : ℕ × ℕ} (hg : Good U r s h ps) (ho : o ∈ s.given) (ho' : o' ∈ s.given) (hne : o ≠ o') :
    Disjoint (objectSpan o) (objectSpan o') := by
  have hsymm : Std.Symm fun o o' : ℕ × ℕ => Disjoint (objectSpan o) (objectSpan o') := ⟨fun _ _ h => h.symm⟩
  exact hg.apart.forall ho ho' hne

theorem sound (hg : Good U r s h ps) (hU : Mapped U) : Vmm.Sound (guarded U) s where
  frame f hf := hg.frameOk hU hf
  direct p hp := by
    have hsub := (hg.objects _ (struct_mem hp)).trans hg.data_subset
    obtain ⟨q, -, h1, -⟩ := hsub (show p ∈ Set.Ico p (p + 8) from ⟨le_refl p, by omega⟩)
    obtain ⟨q', -, -, h2⟩ := hsub (show p + 7 ∈ Set.Ico p (p + 8) from ⟨by omega, by omega⟩)
    have hlow := q.direct.1
    have hhigh := q'.direct.2
    exact ⟨by omega, by omega⟩
  blocks p hp q hq hne := hg.objects_disjoint (struct_mem hp) (struct_mem hq) fun heq => hne (Prod.mk.inj heq).1
  apart p hp f hf := by
    have hdisj := hg.held_disjoint (table_mem hf)
    have hsub := (hg.objects _ (struct_mem hp)).trans hg.data_subset
    refine Set.disjoint_of_subset hsub (fun x hx => ?_) hdisj.symm
    exact (mem_blockSpan_frameBlock (hg.tables f hf)).mpr hx

theorem inUse_subset (hg : Good U r s h ps) : inUse (guarded U) s ⊆ owned s := by
  rintro x (⟨f, hf, hx⟩ | ⟨p, hp, hx⟩)
  · exact Or.inl ⟨_, table_mem hf, (mem_blockSpan_frameBlock (hg.tables f hf)).mpr hx⟩
  · exact Or.inr ⟨_, struct_mem hp, hx⟩

theorem serveFrame (hg : Good U r s h ps) (hU : Mapped U) :
    ∃ f s' fs, services.allocFrames s = .ok (f, s') ∧ Good U r s' { h with frames := fs } ps ∧
      s'.structs = s.structs ∧ s'.objects = s.objects ∧ s'.frames = s.frames ∧
      ((f = invalidAddress ∧ s' = s) ∨ (f ≠ invalidAddress ∧ f ∉ s.tables ∧ s'.tables = f :: s.tables)) := by
  rcases hg.allocFrames (Nat.zero_le _) with hrun | ⟨p, pmm, hrun, hvalid, hkept⟩
  · refine ⟨invalidAddress, s, h.frames, ?_, hg, rfl, rfl, rfl, Or.inl ⟨rfl, rfl⟩⟩
    rw [services]
    dsimp only
    rw [hrun, ok_bind, Book.tabled, if_pos rfl, pure_eq]
  · have hblock : frameBlock (p <<< pageShift) = ⟨p, 0⟩ := by
      rw [frameBlock, shiftRight_page, shiftLeft_page, Nat.mul_div_cancel _ (by norm_num)]
    have htables : (s.tabled (p <<< pageShift) pmm).tables = p <<< pageShift :: s.tables := if_neg hvalid
    have hheld : (s.tabled (p <<< pageShift) pmm).held =
        s.frames ++ ⟨p, 0⟩ :: s.tables.map frameBlock := by
      rw [Book.held, htables, List.map_cons, hblock]
      rfl
    have hkept' := hkept.perm (B := ps.map pageBlock ++ (s.tabled (p <<< pageShift) pmm).held) (by
      rw [hheld]
      exact (List.perm_middle.symm).append_left _)
    have haligned : ∀ f ∈ (s.tabled (p <<< pageShift) pmm).tables, 4096 ∣ f := by
      rw [htables]
      refine List.forall_mem_cons.mpr ⟨?_, hg.tables⟩
      rw [shiftLeft_page]
      exact Nat.dvd_mul_left 4096 p
    obtain ⟨fs, hg'⟩ : ∃ fs, Good U r (s.tabled (p <<< pageShift) pmm) { h with frames := fs } ps :=
      hg.reown hU rfl rfl haligned hkept'
    refine ⟨p <<< pageShift, s.tabled (p <<< pageShift) pmm, fs, ?_, hg', rfl, rfl, rfl,
      Or.inr ⟨hvalid, ?_, htables⟩⟩
    · rw [services]
      dsimp only
      rw [hrun, ok_bind, pure_eq]
    · have hnodup := hg'.tables_nodup
      rw [htables] at hnodup
      exact (List.nodup_cons.mp hnodup).1

theorem releaseFrame (hg : Good U r s h ps) (hU : Mapped U) (hf : f ∈ s.tables) :
    ∃ s' fs, services.freeFrame f s = .ok s' ∧ Good U r s' { h with frames := fs } ps ∧
      s'.structs = s.structs ∧ s'.objects = s.objects ∧ s'.frames = s.frames ∧ s'.tables = s.tables.erase f := by
  obtain ⟨pmm, hrun, hkept⟩ := hg.freeFrame (table_mem hf)
  have haddr : (frameBlock f).base <<< pageShift = f := by
    rw [frameBlock, shiftRight_page, shiftLeft_page]
    exact Nat.div_mul_cancel (hg.tables f hf)
  rw [haddr] at hrun
  have hperm : (s.held.erase (frameBlock f)).Perm (s.untabled f pmm).held := by
    have hsplit : s.held.Perm (frameBlock f :: (s.frames ++ (s.tables.erase f).map frameBlock)) := by
      refine (List.Perm.append_left s.frames ((List.perm_cons_erase hf).map frameBlock)).trans ?_
      exact List.perm_middle
    refine (hsplit.erase (frameBlock f)).trans ?_
    rw [List.erase_cons_head]
    rfl
  have haligned : ∀ g ∈ (s.untabled f pmm).tables, 4096 ∣ g := fun g hg' => hg.tables g (List.mem_of_mem_erase hg')
  obtain ⟨fs, hg'⟩ : ∃ fs, Good U r (s.untabled f pmm) { h with frames := fs } ps :=
    hg.reown hU rfl rfl haligned (hkept.perm (hperm.append_left _))
  refine ⟨s.untabled f pmm, fs, ?_, hg', rfl, rfl, rfl, rfl⟩
  rw [services]
  dsimp only
  rw [hrun, ok_bind, pure_eq]

theorem serveStruct (hg : Good U r s h ps) (hU : Mapped U) (hroomy : s.alloc.Roomy r mmSize) :
    ∃ p r' s' h' ps', services.kmalloc mmSize r s = .ok (p, r', s') ∧ Good U r' s' h' ps' ∧
      Wrote r r' (frameSpace U \ owned s) ∧ (HasRoom ps mmSize → p ≠ 0) ∧
      s'.tables = s.tables ∧ s'.objects = s.objects ∧ s'.frames = s.frames ∧
      ((p = 0 ∧ s'.structs = s.structs) ∨ (p ≠ 0 ∧ p ∉ s.structs ∧ s'.structs = p :: s.structs)) := by
  obtain ⟨p, r', m, hrun, hwrote, hroom, hafter⟩ := hg.kmalloc hU hroomy (by norm_num)
  have hgiven : (s.structured p m).given.Perm (granted p mmSize s.given) := by
    unfold Book.given Book.structured granted
    dsimp only
    split_ifs
    · exact List.Perm.refl _
    · exact List.perm_middle
  obtain ⟨h', ps', hg'⟩ := hafter (s.structured p m) rfl rfl rfl hgiven
  have hserve : services.kmalloc mmSize r s = .ok (p, r', s.structured p m) := by
    rw [services]
    dsimp only
    rw [hrun, ok_bind, pure_eq]
  refine ⟨p, r', s.structured p m, h', ps', hserve, hg', hwrote, hroom, rfl, rfl, rfl, ?_⟩
  by_cases hp : p = 0
  · exact Or.inl ⟨hp, if_pos hp⟩
  · have hstructs : (s.structured p m).structs = p :: s.structs := if_neg hp
    refine Or.inr ⟨hp, fun hmem => ?_, hstructs⟩
    have hapart := (hgiven.pairwise_iff fun h => h.symm).mp hg'.apart
    rw [granted, if_neg hp] at hapart
    have hself := (List.pairwise_cons.mp hapart).1 _ (struct_mem hmem)
    have hin : p ∈ objectSpan (p, mmSize) := ⟨le_refl p, Nat.lt_add_of_pos_right (by norm_num)⟩
    exact Set.disjoint_left.mp hself hin hin

end Good

/-! ### The callers -/

theorem clientBytes_subset (s : Book) : clientBytes s ⊆ owned s := by
  rintro x (⟨b, hb, hx⟩ | ⟨o, ho, hx⟩)
  · exact Or.inl ⟨b, List.mem_append_left _ hb, hx⟩
  · exact Or.inr ⟨o, List.mem_append_left _ ho, hx⟩

namespace Good

theorem blocks_disjoint {b c : Block} (hg : Good U r s h ps) (hb : b ∈ s.held) (hc : c ∈ s.held) (hne : b ≠ c) :
    Disjoint (blockSpan b) (blockSpan c) :=
  blockSpan_disjoint (hg.kept.disjoint (List.mem_append_right _ hb) (List.mem_append_right _ hc) hne)

theorem block_object_disjoint {b : Block} {o : ℕ × ℕ} (hg : Good U r s h ps) (hb : b ∈ s.held) (ho : o ∈ s.given) :
    Disjoint (blockSpan b) (objectSpan o) :=
  Set.disjoint_of_subset_right ((hg.objects o ho).trans hg.data_subset) (hg.held_disjoint hb)

theorem client_disjoint (hg : Good U r s h ps) : Disjoint (clientBytes s) (inUse (guarded U) s) := by
  refine Set.disjoint_left.mpr fun x hx hx' => ?_
  have hheld := (List.nodup_append'.mp hg.kept.nodup).2.1
  have hgiven := (List.pairwise_append.mp hg.apart).2.2
  rcases hx with ⟨b, hb, hxb⟩ | ⟨o, ho, hxo⟩
  · have hbheld : b ∈ s.held := List.mem_append_left _ hb
    rcases hx' with ⟨f, hf, hxf⟩ | ⟨p, hp, hxp⟩
    · have hne : b ≠ frameBlock f := fun heq =>
        List.disjoint_of_nodup_append hheld hb (heq ▸ List.mem_map_of_mem hf)
      have hdisj := hg.blocks_disjoint hbheld (table_mem hf) hne
      exact Set.disjoint_left.mp hdisj hxb ((mem_blockSpan_frameBlock (hg.tables f hf)).mpr hxf)
    · exact Set.disjoint_left.mp (hg.block_object_disjoint hbheld (struct_mem hp)) hxb hxp
  · rcases hx' with ⟨f, hf, hxf⟩ | ⟨p, hp, hxp⟩
    · have hdisj := hg.block_object_disjoint (table_mem hf) (List.mem_append_left _ ho)
      exact Set.disjoint_left.mp hdisj ((mem_blockSpan_frameBlock (hg.tables f hf)).mpr hxf) hxo
    · exact Set.disjoint_left.mp (hgiven o ho _ (List.mem_map.mpr ⟨p, hp, rfl⟩)) hxo hxp

end Good

theorem Good.inUse_outside (hg : Good U r s h ps) : inUse (guarded U) s ⊆ frameSpace U \ clientBytes s := fun _ hx =>
  ⟨hg.owned_space (hg.inUse_subset hx), fun hclient => Set.disjoint_left.mp hg.client_disjoint hclient hx⟩

theorem guarded_lawful (hU : Mapped U) : Lawful (guarded U) where
  alloc {s s' f} hs hrun := by
    unfold guarded at hrun
    dsimp only at hrun
    split_ifs at hrun with hfine
    obtain ⟨r, h, ps, hg⟩ := hfine
    obtain ⟨f', s₁, fs, hserve, hg', hstructs, -, -, hcase⟩ := hg.serveFrame hU
    rw [hserve] at hrun
    obtain ⟨rfl, rfl⟩ := Prod.mk.inj (Except.ok.inj hrun)
    refine ⟨hg'.sound hU, ?_, ?_⟩
    · show {p | p ∈ s₁.structs} = {p | p ∈ s.structs}
      rw [hstructs]
    · rcases hcase with ⟨hinvalid, rfl⟩ | ⟨-, hfresh, htables⟩
      · exact Or.inl ⟨hinvalid, rfl⟩
      · refine Or.inr ⟨hfresh, Set.ext fun g => ?_⟩
        show g ∈ s₁.tables ↔ _
        rw [htables, List.mem_cons]
        rfl
  free {s f} hs hf := by
    unfold guarded
    dsimp only
    by_cases hfine : Fine U s
    · obtain ⟨r, h, ps, hg⟩ := id hfine
      obtain ⟨s', fs, hserve, -, hstructs, -, -, htables⟩ := hg.releaseFrame hU hf
      rw [if_pos hfine, hserve]
      refine ⟨s', rfl, by rw [hstructs], Set.ext fun g => ?_⟩
      show g ∈ s'.tables ↔ _
      rw [htables, hg.tables_nodup.mem_erase_iff]
      exact and_comm
    · rw [if_neg hfine]
      refine ⟨_, rfl, rfl, Set.ext fun g => ?_⟩
      simp
  kmalloc {s s' r r' p} hs hrun := by
    unfold guarded at hrun
    dsimp only at hrun
    split_ifs at hrun with hgood
    obtain ⟨hroomy, h, ps, hg⟩ := hgood
    obtain ⟨p', r₁, s₁, h', ps', hserve, hg', hwrote, -, htables, -, -, hcase⟩ := hg.serveStruct hU hroomy
    rw [hserve] at hrun
    obtain ⟨rfl, rfl, rfl⟩ : p' = p ∧ r₁ = r' ∧ s₁ = s' := by simpa using hrun
    refine ⟨hg'.sound hU, ?_, hwrote.mono fun x hx hin => hx.2 (hg.inUse_subset hin), ?_⟩
    · show {f | f ∈ s₁.tables} = {f | f ∈ s.tables}
      rw [htables]
    · rcases hcase with ⟨hzero, hstructs⟩ | ⟨-, hfresh, hstructs⟩
      · refine Or.inl ⟨hzero, ?_⟩
        show {q | q ∈ s₁.structs} = {q | q ∈ s.structs}
        rw [hstructs]
      · refine Or.inr ⟨hfresh, Set.ext fun q => ?_⟩
        show q ∈ s₁.structs ↔ _
        rw [hstructs, List.mem_cons]
        rfl
  kfree {s r p} hs hp := by
    refine ⟨r, _, rfl, rfl, Set.ext fun q => ?_, Wrote.refl _ _⟩
    simp [guarded]

/-! ### The same as the real ones -/

/-- What is not for page tables stays as it is. -/
structure Spared (s s' : Book) : Prop where
  frames : s'.frames = s.frames
  objects : s'.objects = s.objects

theorem Spared.refl (s : Book) : Spared s s := ⟨rfl, rfl⟩

theorem Spared.trans {s'' : Book} (h : Spared s s') (h' : Spared s' s'') : Spared s s'' :=
  ⟨h'.frames.trans h.frames, h'.objects.trans h.objects⟩

theorem Spared.clientBytes (h : Spared s s') : clientBytes s' = clientBytes s := by
  unfold Kernel.clientBytes
  rw [h.frames, h.objects]

theorem bind_congr_ok {α β : Type} {x : Except Halt α} {f g : α → Except Halt β}
    (h : ∀ a, x = .ok a → f a = g a) : (x >>= f) = x >>= g := by
  cases x with
  | error e => rfl
  | ok a => exact h a rfl

theorem guarded_allocFrames (hg : Good U r₀ s h ps) : (guarded U).allocFrames s = services.allocFrames s :=
  if_pos ⟨r₀, h, ps, hg⟩

theorem guarded_kmalloc {len : ℕ} (hg : Good U r s h ps) (hroomy : s.alloc.Roomy r len) :
    (guarded U).kmalloc len r s = services.kmalloc len r s := if_pos ⟨hroomy, h, ps, hg⟩

theorem guarded_freeFrame (hg : Good U r₀ s h ps) : (guarded U).freeFrame f s = services.freeFrame f s :=
  if_pos ⟨r₀, h, ps, hg⟩

theorem ensureTable_guarded (hg : Good U r₀ s h ps) :
    ensureTable (guarded U) table index r s = ensureTable services table index r s := by
  unfold ensureTable
  rw [guarded_allocFrames hg]

theorem ensureTable_good (hg : Good U r₀ s h ps) (hU : Mapped U)
    (hrun : ensureTable services table index r s = .ok (r', s')) :
    (∃ fs, Good U r₀ s' { h with frames := fs } ps) ∧ Spared s s' := by
  rw [ensureTable] at hrun
  obtain ⟨e, -, hrun⟩ := bind_eq_ok.mp hrun
  split_ifs at hrun
  · obtain ⟨f, s₁, fs, hserve, hg₁, -, hobjects, hframes, -⟩ := hg.serveFrame hU
    rw [hserve, ok_bind] at hrun
    obtain ⟨r₁, -, hrun⟩ := bind_eq_ok.mp hrun
    obtain ⟨r₂, -, hrun⟩ := bind_eq_ok.mp hrun
    obtain ⟨e', -, hrun⟩ := bind_eq_ok.mp hrun
    obtain ⟨r₃, -, hrun⟩ := bind_eq_ok.mp hrun
    obtain ⟨-, rfl⟩ := Prod.mk.inj (Except.ok.inj hrun)
    exact ⟨⟨fs, hg₁⟩, hframes, hobjects⟩
  · obtain ⟨-, rfl⟩ := Prod.mk.inj (Except.ok.inj hrun)
    exact ⟨⟨h.frames, hg⟩, Spared.refl _⟩

theorem mapPage_guarded {frame page attr : ℕ} (hg : Good U r₀ s h ps) (hU : Mapped U) :
    mapPage (guarded U) mm frame page attr r s = mapPage services mm frame page attr r s := by
  unfold mapPage
  refine bind_congr_ok fun pml4 _ => ?_
  dsimp only
  rw [ensureTable_guarded hg]
  refine bind_congr_ok fun p hp => ?_
  obtain ⟨r₁, s₁⟩ := p
  obtain ⟨⟨fs₁, hg₁⟩, -⟩ := ensureTable_good hg hU hp
  refine bind_congr_ok fun pml4e _ => ?_
  dsimp only
  rw [ensureTable_guarded hg₁]
  refine bind_congr_ok fun p hp => ?_
  obtain ⟨r₂, s₂⟩ := p
  obtain ⟨⟨fs₂, hg₂⟩, -⟩ := ensureTable_good hg₁ hU hp
  refine bind_congr_ok fun pdpte _ => ?_
  dsimp only
  rw [ensureTable_guarded hg₂]

theorem mapPage_good {frame page attr : ℕ} {done : Bool} (hg : Good U r₀ s h ps) (hU : Mapped U)
    (hrun : mapPage services mm frame page attr r s = .ok (done, r', s')) :
    (∃ fs, Good U r₀ s' { h with frames := fs } ps) ∧ Spared s s' := by
  rw [mapPage] at hrun
  obtain ⟨pml4, -, hrun⟩ := bind_eq_ok.mp hrun
  obtain ⟨⟨r₁, s₁⟩, hrun₁, hrun⟩ := bind_eq_ok.mp hrun
  obtain ⟨⟨fs₁, hg₁⟩, hspared₁⟩ := ensureTable_good hg hU hrun₁
  obtain ⟨pml4e, -, hrun⟩ := bind_eq_ok.mp hrun
  obtain ⟨⟨r₂, s₂⟩, hrun₂, hrun⟩ := bind_eq_ok.mp hrun
  obtain ⟨⟨fs₂, hg₂⟩, hspared₂⟩ := ensureTable_good hg₁ hU hrun₂
  obtain ⟨pdpte, -, hrun⟩ := bind_eq_ok.mp hrun
  obtain ⟨⟨r₃, s₃⟩, hrun₃, hrun⟩ := bind_eq_ok.mp hrun
  obtain ⟨hgood₃, hspared₃⟩ := ensureTable_good hg₂ hU hrun₃
  obtain ⟨pde, -, hrun⟩ := bind_eq_ok.mp hrun
  obtain ⟨pte, -, hrun⟩ := bind_eq_ok.mp hrun
  have hsame : s' = s₃ := by
    split_ifs at hrun
    · cases hrun
      rfl
    · obtain ⟨r₄, -, hrun⟩ := bind_eq_ok.mp hrun
      cases hrun
      rfl
  rw [hsame]
  exact ⟨hgood₃, (hspared₁.trans hspared₂).trans hspared₃⟩

theorem Allocators.Roomy.allocFrames {m : Allocators} {pmm : Pmm} {len : ℕ} (hroomy : m.Roomy r len)
    (halloc : Fynaos.allocFrames 0 m.pmm = .ok (f, pmm)) (hf : f ≠ invalidAddress) :
    Allocators.Roomy { m with pmm := pmm } r len := by
  rintro ps fs hpools ⟨pmm', htakes, hnone⟩ l hl
  refine hroomy ps (f :: fs) hpools ⟨pmm', .cons halloc hf htakes, hnone⟩ l ?_
  unfold servingLen at hl ⊢
  split at hl
  · exact hl
  · split_ifs at hl
    exact hl

theorem allocFrames_services (hrun : services.allocFrames s = .ok (f, s')) :
    ∃ pmm, Fynaos.allocFrames 0 s.alloc.pmm = .ok (f, pmm) ∧ s'.alloc = { s.alloc with pmm := pmm } := by
  rw [services] at hrun
  obtain ⟨⟨g, pmm⟩, halloc, hrun⟩ := bind_eq_ok.mp hrun
  cases hrun
  exact ⟨pmm, halloc, rfl⟩

/-- `create_mm` on the real allocators does what it does on the guarded ones, and it returns: an address space when
there is a frame and room in the heap. -/
theorem createMm_good (hg : Good U r s h ps) (hU : Mapped U) (hroomy : s.alloc.Roomy r mmSize) :
    createMm (guarded U) r s = createMm services r s ∧
      ∃ mm r' s' h' ps', createMm services r s = .ok (mm, r', s') ∧ Good U r' s' h' ps' ∧ Spared s s' ∧
        Wrote r r' (frameSpace U \ clientBytes s) ∧
        ((∀ pmm, Fynaos.allocFrames 0 s.alloc.pmm ≠ .ok (invalidAddress, pmm)) → HasRoom ps mmSize → mm ≠ 0) := by
  obtain ⟨f, s₁, fs, hserve, hg₁, -, hobjects₁, hframes₁, hcase₁⟩ := hg.serveFrame hU
  have hspared₁ : Spared s s₁ := ⟨hframes₁, hobjects₁⟩
  rw [createMm, createMm, guarded_allocFrames hg, hserve, ok_bind, ok_bind]
  dsimp only
  rcases hcase₁ with ⟨rfl, rfl⟩ | ⟨hvalid, -, htables₁⟩
  · rw [if_pos rfl, if_pos rfl, pure_eq]
    refine ⟨rfl, 0, r, s₁, _, ps, rfl, hg₁, hspared₁, Wrote.refl _ _, fun hframe => ?_⟩
    obtain ⟨pmm, halloc, -⟩ := allocFrames_services hserve
    exact absurd halloc (hframe pmm)
  · have hroomy₁ : s₁.alloc.Roomy r mmSize := by
      obtain ⟨pmm, halloc, heq⟩ := allocFrames_services hserve
      rw [heq]
      exact hroomy.allocFrames halloc hvalid
    obtain ⟨p, r₂, s₂, h₂, ps₂, hserve₂, hg₂, hwrote₂, hroom, htables₂, hobjects₂, hframes₂, hcase₂⟩ :=
      hg₁.serveStruct hU hroomy₁
    have hspared₂ : Spared s s₂ := hspared₁.trans ⟨hframes₂, hobjects₂⟩
    have hmem : f ∈ s₂.tables := by
      rw [htables₂, htables₁]
      exact List.mem_cons_self
    have hkept : Wrote r r₂ (frameSpace U \ clientBytes s) := by
      refine hwrote₂.mono (Set.sdiff_subset_sdiff_right ?_)
      rw [← hspared₁.clientBytes]
      exact clientBytes_subset s₁
    rw [if_neg hvalid, if_neg hvalid, guarded_kmalloc hg₁ hroomy₁, hserve₂, ok_bind, ok_bind]
    dsimp only
    rcases hcase₂ with ⟨rfl, -⟩ | ⟨hne, -, hstructs⟩
    · obtain ⟨s₃, fs₃, hfree, hg₃, -, hobjects₃, hframes₃, -⟩ := hg₂.releaseFrame hU hmem
      rw [if_pos rfl, if_pos rfl, guarded_freeFrame hg₂, hfree, ok_bind, pure_eq]
      exact ⟨rfl, 0, r₂, s₃, _, ps₂, rfl, hg₃, hspared₂.trans ⟨hframes₃, hobjects₃⟩, hkept, fun _ => hroom⟩
    · have hpmem : p ∈ s₂.structs := hstructs ▸ List.mem_cons_self
      have hdirect := (hg₂.sound hU).direct p hpmem
      obtain ⟨r₃, hzero, -, hwrote⟩ := (hg₂.frameOk hU hmem).zeroPage r₂
      rw [if_neg hne, if_neg hne, hzero, ok_bind, hdirect.store, ok_bind, pure_eq]
      have hpage : Wrote r₂ r₃ (inUse (guarded U) s₂) := hwrote.mono fun x hx => Or.inl ⟨f, hmem, hx⟩
      have hmm : Wrote r₃ (r₃.put p f) (inUse (guarded U) s₂) :=
        Wrote.put r₃ f fun x hx => Or.inr ⟨p, hpmem, hx⟩
      have hboth := hpage.trans hmm
      refine ⟨rfl, p, _, s₂, _, ps₂, rfl, hg₂.store (hboth.mono hg₂.inUse_subset), hspared₂,
        hkept.trans (hboth.mono ?_), fun _ _ => hne⟩
      rw [← hspared₂.clientBytes]
      exact hg₂.inUse_outside

end Fynaos.Kernel
