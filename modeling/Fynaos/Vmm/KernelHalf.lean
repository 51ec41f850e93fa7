import Fynaos.Vmm.Refinement

/-!
# The kernel half

`map_kernel_for_user_mm` copies the entries of the kernel's PML4 and not what is behind them. The copies
see what the kernel does later as long as each of its calls finds the entry of the PML4 present
(`kernelHalf_shared`); a new entry is not seen (`new_entry_not_shared`).
-/

namespace Fynaos.Vmm

open Radix

/-- What the tables of a kernel say before the first call. -/
def kernelSpace (kernelMm : ℕ) (r : Ram) : Space where
  pml4 := r.word kernelMm
  copied := false
  tables := {c | ∃ p, p.length < 4 ∧ walk (child r) (r.word kernelMm) p = some c}
  map n := walk (child r) (r.word kernelMm) (path (n * 4096))

/-- A kernel with any tree of tables, and no other address space. -/
structure KernelStart {S : Type} (F : Services S) (kernelMm : ℕ) (σ : Sys S) : Prop where
  sound : Sound F σ.frames
  block : kernelMm ∈ F.blocks σ.frames
  spaces : σ.spaces = Function.update (fun _ => none) kernelMm (some (kernelSpace kernelMm σ.ram))
  held : (kernelSpace kernelMm σ.ram).tables ⊆ F.held σ.frames
  apart : Apart (child σ.ram) 3 (σ.ram.word kernelMm)

/-- A call for the upper half of the kernel finds its entry present, unless there is no copy yet. -/
def Populated {S : Type} (kernelMm : ℕ) (σ : Sys S) : Act → Prop
  | .map mm _ page _ => mm = kernelMm → 256 ≤ (index 39 page : ℕ) →
      (∃ sp, σ.spaces kernelMm = some sp ∧ child σ.ram sp.pml4 (index 39 page) ≠ none) ∨
        ∀ k sp, σ.spaces k = some sp → sp.copied = false
  | _ => True

/-- The copies of the kernel half are up to date. -/
def Shared {S : Type} (kernelMm : ℕ) (σ : Sys S) : Prop :=
  ∀ k sp ksp (i : Fin 512), σ.spaces k = some sp → σ.spaces kernelMm = some ksp →
    sp.copied = true → 256 ≤ (i : ℕ) → child σ.ram sp.pml4 i = child σ.ram ksp.pml4 i

variable {S : Type} {F : Services S} {σ₀ σ τ : Sys S} {σ' : Sys Bump} {sp ksp : Space} {r' : Ram} {H' : Set ℕ}
  {κ : Option ℕ} {kernelMm k m v page : ℕ} {i : Fin 512} {act : Act}

theorem pageNumber_page (v : ℕ) : pageNumber (pageNumber v * 4096) = pageNumber v := by
  unfold pageNumber
  omega

section start
variable (h : KernelStart F kernelMm σ)
include h

theorem KernelStart.eq_kernel (hk : σ.spaces k = some sp) :
    k = kernelMm ∧ sp = kernelSpace kernelMm σ.ram := by
  rw [h.spaces] at hk
  rcases update_some hk with heq | ⟨-, hk⟩
  · exact heq
  · cases hk

theorem KernelStart.kernel : σ.spaces kernelMm = some (kernelSpace kernelMm σ.ram) := by
  rw [h.spaces, Function.update_self]

theorem KernelStart.roots_some {a : ℕ} :
    roots σ.spaces k = some a ↔ kernelMm = k ∧ σ.ram.word kernelMm = a := by
  rw [Vmm.roots_some]
  constructor
  · rintro ⟨sp, hk, rfl⟩
    obtain ⟨rfl, rfl⟩ := h.eq_kernel hk
    exact ⟨rfl, rfl⟩
  · rintro ⟨rfl, rfl⟩
    exact ⟨_, h.kernel, rfl⟩

theorem KernelStart.borrowers_eq : borrowers (some kernelMm) σ.spaces = ∅ := by
  refine Set.eq_empty_of_forall_notMem fun a ha => ?_
  obtain ⟨k, ⟨kernelMm', hκ, hne⟩, hk⟩ := mem_borrowers.mp ha
  exact hne ((h.roots_some.mp hk).1.symm.trans (Option.some.inj hκ))

theorem KernelStart.own_eq : own (borrowers (some kernelMm) σ.spaces) σ.ram = child σ.ram := by
  funext f i
  refine own_of fun hf => ?_
  rw [h.borrowers_eq] at hf
  exact absurd hf (Set.notMem_empty f)

theorem KernelStart.tableOf_iff {c : ℕ} :
    TableOf (own (borrowers (some kernelMm) σ.spaces) σ.ram) 4 (roots σ.spaces) k c ↔
      k = kernelMm ∧ c ∈ (kernelSpace kernelMm σ.ram).tables := by
  rw [h.own_eq]
  constructor
  · rintro ⟨a, p, ha, hp, hc⟩
    obtain ⟨rfl, rfl⟩ := h.roots_some.mp ha
    exact ⟨rfl, p, hp, hc⟩
  · rintro ⟨rfl, p, hp, hc⟩
    exact ⟨_, p, h.roots_some.mpr ⟨rfl, rfl⟩, hp, hc⟩

theorem KernelStart.inv : Inv F (some kernelMm) σ := by
  refine
    { sound := h.sound
      block := fun {k sp} hk => (h.eq_kernel hk).1 ▸ h.block
      word := fun {k sp} hk => ?_
      trees := ⟨⟨fun {k k' a a' b p p'} hk hk' hp hp' hb hb' => ?_⟩, ?_, fun a ha => ?_⟩
      tables := fun {k sp c} hk => ?_
      map := fun {k sp} v hk => ?_
      kernel := fun hκ => ?_
      borrowed := fun {_ _ k sp b i} hκ _ hne hk _ _ => ?_ }
  · obtain ⟨rfl, rfl⟩ := h.eq_kernel hk
    rfl
  · rw [h.own_eq] at hb hb'
    obtain ⟨rfl, rfl⟩ := h.roots_some.mp hk
    obtain ⟨rfl, rfl⟩ := h.roots_some.mp hk'
    exact ⟨rfl, h.apart p p' b (Nat.le_of_lt_succ hp) (Nat.le_of_lt_succ hp') hb hb'⟩
  · rintro b ⟨k, hb⟩
    exact h.held (h.tableOf_iff.mp hb).2
  · rw [h.borrowers_eq] at ha
    exact absurd ha (Set.notMem_empty a)
  · obtain ⟨rfl, rfl⟩ := h.eq_kernel hk
    exact h.tableOf_iff.trans (and_iff_right rfl)
  · obtain ⟨rfl, rfl⟩ := h.eq_kernel hk
    rw [h.own_eq]
    change _ = walk (child σ.ram) (σ.ram.word k) (path (pageNumber v * 4096))
    rw [path_eq_iff.mpr (pageNumber_page v)]
    rfl
  · rw [← Option.some.inj hκ, h.kernel]
    exact Option.some_ne_none _
  · exact absurd ((h.eq_kernel hk).1.trans (Option.some.inj hκ)) hne

theorem KernelStart.shared : Shared kernelMm σ := by
  intro k sp ksp i hk _ hcopied
  rw [(h.eq_kernel hk).2] at hcopied
  cases hcopied

end start

/-! ### The copies over a run -/

theorem Inv.upper_kept (h : Inv F (some kernelMm) σ)
    (hedited : Edited (borrowers (some kernelMm) σ.spaces) (roots σ.spaces) m (path page)
      (F.held σ.frames) H' σ.ram r')
    (hk : σ.spaces k = some sp) (hi : 256 ≤ (i : ℕ))
    (hcase : k ≠ kernelMm ∨ k ≠ m ∨ i ≠ index 39 page ∨ child σ.ram sp.pml4 i ≠ none) :
    child r' sp.pml4 i = child σ.ram sp.pml4 i := by
  by_cases hkm : k = kernelMm
  · subst hkm
    rw [← h.kernel_child hk, ← h.kernel_child (r := σ.ram) hk]
    rcases hcase with hne | hne | hne | hsome
    · exact absurd rfl hne
    · exact hedited.other (roots_of hk) (by norm_num) fun heq => hne heq.1
    · refine hedited.other (roots_of hk) (by norm_num) fun heq => hne ?_
      obtain ⟨rest, hrest⟩ := heq.2
      exact (List.cons.inj hrest).1
    · obtain ⟨b, hb⟩ := Option.ne_none_iff_exists'.mp hsome
      rw [← h.kernel_child hk] at hb
      rw [hb]
      exact hedited.keep (roots_of hk) (by norm_num) hb
  · have hmem := (h.mem_borrowers_iff hk).mpr ⟨kernelMm, rfl, hkm⟩
    rw [child, child, hedited.copies _ hmem i hi]

theorem Shared.of_kept (h : Shared kernelMm σ)
    (hkept : ∀ k spk, τ.spaces k = some spk → k = kernelMm ∨ spk.copied = true →
      ∃ spo, σ.spaces k = some spo ∧ spk.pml4 = spo.pml4 ∧ (spk.copied = true → spo.copied = true) ∧
        ∀ i : Fin 512, 256 ≤ (i : ℕ) → child τ.ram spo.pml4 i = child σ.ram spo.pml4 i) :
    Shared kernelMm τ := by
  intro k spk ksp i hk hkernel hcopied hi
  obtain ⟨spo, hk', hpml4, hcopied', hsame⟩ := hkept k spk hk (Or.inr hcopied)
  obtain ⟨kspo, hkernel', hkpml4, -, hksame⟩ := hkept kernelMm ksp hkernel (Or.inl rfl)
  rw [hpml4, hkpml4, hsame i hi, hksame i hi]
  exact h k spo kspo i hk' hkernel' (hcopied' hcopied) hi

section calls
variable {r : Ram} {s : S} {frame attr f : ℕ} {done : Bool}

/-- A call for the lower half, or for an entry that is there, changes no entry of an upper half. -/
theorem Inv.upper_of_call (h : Inv F (some kernelMm) σ) (hm : σ.spaces m = some sp)
    (hedited : Edited (borrowers (some kernelMm) σ.spaces) (roots σ.spaces) m (path page)
      (F.held σ.frames) H' σ.ram r')
    (hold : ¬ (m = kernelMm ∧ 256 ≤ (index 39 page : ℕ) ∧ child σ.ram sp.pml4 (index 39 page) = none))
    {spo : Space} (hk : σ.spaces k = some spo) (hi : 256 ≤ (i : ℕ)) :
    child r' spo.pml4 i = child σ.ram spo.pml4 i := by
  apply h.upper_kept hedited hk hi
  by_cases hkm : k = m
  · by_cases hindex : i = index 39 page
    · obtain ⟨rfl, rfl⟩ : k = m ∧ i = index 39 page := ⟨hkm, hindex⟩
      obtain rfl := Option.some.inj (hm.symm.trans hk)
      by_cases hkernel : k = kernelMm
      · exact Or.inr (Or.inr (Or.inr fun hnone => hold ⟨hkernel, hi, hnone⟩))
      · exact Or.inl hkernel
    · exact Or.inr (Or.inr (Or.inl hindex))
  · exact Or.inr (Or.inl hkm)

theorem Shared.create (hF : Lawful F) (h : Inv F (some kernelMm) σ) (hshared : Shared kernelMm σ)
    (hne : m ≠ 0) (hrun : createMm F σ.ram σ.frames = .ok (m, r, s)) :
    Shared kernelMm { σ with
      ram := r, frames := s
      spaces := Function.update σ.spaces m
        (some ⟨r.word m, false, F.held s \ F.held σ.frames, fun _ => none⟩) } := by
  obtain ⟨-, hwrote, -⟩ := createMm_spec hF h.sound hrun
  refine hshared.of_kept fun k spk hk hcase => ?_
  rcases update_some hk with ⟨rfl, rfl⟩ | ⟨-, hk⟩
  · -- the new address space is neither the kernel's nor a copy
    rcases hcase with rfl | hcopied
    · exact absurd (h.createMm_fresh hF hne hrun) (h.kernel rfl)
    · cases hcopied
  · refine ⟨spk, hk, rfl, id, fun i _ => ?_⟩
    exact congrArg target (entry_of_kept hwrote (h.root_held hk))

theorem Shared.map (hF : Lawful F) (h : Inv F (some kernelMm) σ) (hshared : Shared kernelMm σ)
    (hallowed : Allowed F (some kernelMm) kernelMm σ (.map m frame page attr))
    (hpopulated : Populated kernelMm σ (.map m frame page attr)) (hm : σ.spaces m = some sp)
    (hrun : mapPage F m frame page attr σ.ram σ.frames = .ok (done, r, s)) :
    Shared kernelMm { σ with
      ram := r, frames := s
      spaces := Function.update σ.spaces m
        (some (sp.mapped frame (pageNumber page) (F.held s \ F.held σ.frames))) } := by
  obtain ⟨-, -, -, hedited, -⟩ := h.mapPage_edited hF hm hallowed hrun
  have hupdate := fun k spk (hk : Function.update σ.spaces m (some (sp.mapped frame (pageNumber page)
    (F.held s \ F.held σ.frames))) k = some spk) =>
      update_cases (sp.mapped frame (pageNumber page) _) hm rfl hk
  by_cases hnew : m = kernelMm ∧ 256 ≤ (index 39 page : ℕ) ∧ child σ.ram sp.pml4 (index 39 page) = none
  · -- then there is no copy
    obtain ⟨rfl, hi, hnone⟩ := hnew
    rcases hpopulated rfl hi with ⟨ksp, hkernel, hsome⟩ | hnocopy
    · obtain rfl := Option.some.inj (hm.symm.trans hkernel)
      exact absurd hnone hsome
    · intro k spk _ _ hk _ hcopied _
      obtain ⟨spo, hk', -, ⟨rfl, rfl, rfl⟩ | ⟨-, rfl⟩⟩ := hupdate k spk hk
      · exact absurd (hnocopy _ _ hk') (by rw [show spo.copied = true from hcopied]; decide)
      · exact absurd (hnocopy _ _ hk') (by rw [hcopied]; decide)
  · refine hshared.of_kept fun k spk hk _ => ?_
    obtain ⟨spo, hk', hpml4, hcase⟩ := hupdate k spk hk
    refine ⟨spo, hk', hpml4, ?_, fun i hi => h.upper_of_call hm hedited hnew hk' hi⟩
    rcases hcase with ⟨-, rfl, rfl⟩ | ⟨-, rfl⟩ <;> exact id

theorem Shared.unmap (h : Inv F (some kernelMm) σ) (hshared : Shared kernelMm σ)
    (hallowed : Allowed F (some kernelMm) kernelMm σ (.unmap m page)) (hm : σ.spaces m = some sp)
    (hrun : unmapPage m page σ.ram = .ok (f, r)) :
    Shared kernelMm { σ with
      ram := r
      spaces := Function.update σ.spaces m (some (sp.unmapped (pageNumber page))) } := by
  obtain ⟨r', hrun', -, hedited, -, hsame⟩ := h.trees.unmapPage page h.sound.frame
    (h.direct hm) (h.word hm) (roots_of hm) (h.low hm hallowed)
  obtain ⟨-, rfl⟩ := Prod.mk.inj (Except.ok.inj (hrun'.symm.trans hrun))
  refine hshared.of_kept fun k spk hk _ => ?_
  obtain ⟨spo, hk', hpml4, hcase⟩ := update_cases (sp.unmapped (pageNumber page)) hm rfl hk
  refine ⟨spo, hk', hpml4, ?_, fun i hi => ?_⟩
  · rcases hcase with ⟨-, rfl, rfl⟩ | ⟨-, rfl⟩ <;> exact id
  by_cases hnone : walk (own (borrowers (some kernelMm) σ.spaces) σ.ram) sp.pml4 (path page) = none
  · rw [show r' = σ.ram from hsame hnone]
  · refine h.upper_of_call hm hedited (fun hnew => hnone ?_) hk' hi
    rw [path_eq, walk_cons, own_empty hnew.2.2, Option.bind_none]

theorem Shared.copy (h : Inv F (some kernelMm) σ) (hshared : Shared kernelMm σ) (hne : m ≠ kernelMm)
    (hm : σ.spaces m = some sp) (hrun : mapKernelForUserMm kernelMm m σ.ram = .ok r) :
    Shared kernelMm { σ with
      ram := r, spaces := Function.update σ.spaces m (some { sp with copied := true }) } := by
  obtain ⟨r', hrun', -, hcopied, hother⟩ := h.copyKernel hm hne
  obtain rfl := Except.ok.inj (hrun'.symm.trans hrun)
  have hkept : ∀ {k sp'} {i : Fin 512}, k ≠ m → σ.spaces k = some sp' →
      child r' sp'.pml4 i = child σ.ram sp'.pml4 i := fun hkm hk =>
    congrArg target (hother _ (h.root_held hk) (fun heq => hkm (h.root_inj hk hm heq)) _)
  intro k spk ksp i hk hkernel hflag hi
  rcases update_some hkernel with ⟨heq, -⟩ | ⟨-, hkernel⟩
  · exact absurd heq.symm hne
  rcases update_some hk with ⟨-, rfl⟩ | ⟨hkm, hk⟩
  · exact congrArg target (hcopied i hi ksp hkernel)
  · exact ((hkept hkm hk).trans (hshared k spk ksp i hk hkernel hflag hi)).trans
      (hkept hne.symm hkernel).symm

theorem Shared.delete (hF : Lawful F) (h : Inv F (some kernelMm) σ) (hshared : Shared kernelMm σ)
    (hallowed : Allowed F (some kernelMm) kernelMm σ (.delete m)) (hm : σ.spaces m = some sp)
    (hrun : deleteMm F m σ.ram σ.frames = .ok (r, s)) :
    Shared kernelMm { σ with
      ram := r, frames := s
      spaces := Function.update σ.spaces m none
      clients := σ.clients \ sp.frames } := by
  obtain ⟨r', s', hrun', -, -, hothers, -⟩ := h.deleteMm hF hm hallowed.1 (hallowed.2 sp hm)
  obtain ⟨rfl, rfl⟩ := Prod.mk.inj (Except.ok.inj (hrun'.symm.trans hrun))
  refine hshared.of_kept fun k spk hk _ => ?_
  obtain ⟨hkm, hk'⟩ := update_none hk
  exact ⟨spk, hk', rfl, id, fun i _ =>
    congrArg target (hothers k spk hkm hk' _ (h.pml4_mem_tables hk') i)⟩

end calls

theorem Shared.step (hF : Lawful F) (h : Inv F (some kernelMm) σ) (hshared : Shared kernelMm σ)
    (hallowed : Allowed F (some kernelMm) kernelMm σ act) (hpopulated : Populated kernelMm σ act)
    (hstep : Step F kernelMm σ act τ) : Shared kernelMm τ := by
  cases hstep with
  | create hrun hne => exact hshared.create hF h hne hrun
  | createNull hrun =>
    obtain ⟨-, hwrote, -⟩ := createMm_spec hF h.sound hrun
    exact hshared.of_kept fun k spk hk _ => ⟨spk, hk, rfl, id, fun i _ =>
      congrArg target (entry_of_kept hwrote (h.root_held hk))⟩
  | take => exact hshared
  | map hm hrun => exact hshared.map hF h hallowed hpopulated hm hrun
  | unmap hm hrun => exact hshared.unmap h hallowed hm hrun
  | copy hm hrun => exact hshared.copy h hallowed.2 hm hrun
  | swap => exact hshared
  | delete hm hrun => exact hshared.delete hF h hallowed hm hrun

theorem shared_run (hF : Lawful F)
    (hrun : Runs F kernelMm (fun σ act => Allowed F (some kernelMm) kernelMm σ act ∧
      Populated kernelMm σ act) σ₀ σ)
    (h : Inv F (some kernelMm) σ₀) (hshared : Shared kernelMm σ₀) :
    Inv F (some kernelMm) σ ∧ Shared kernelMm σ := by
  induction hrun with
  | refl => exact ⟨h, hshared⟩
  | tail _ hstep ih =>
    obtain ⟨act, ⟨hallowed, hpopulated⟩, hstep⟩ := hstep
    exact ⟨hstep.inv hF hallowed ih.1, ih.2.step hF ih.1 hallowed hpopulated hstep⟩

theorem Inv.exists_copy (h : Inv F (some kernelMm) σ) (hm : σ.spaces m = some sp) (hne : m ≠ kernelMm) :
    ∃ τ, Step F kernelMm σ (.copy m) τ ∧
      τ.spaces = Function.update σ.spaces m (some { sp with copied := true }) ∧
      τ.frames = σ.frames := by
  obtain ⟨r, hcopy, -⟩ := h.copyKernel hm hne
  exact ⟨_, Step.copy hm hcopy, rfl, rfl⟩

theorem Inv.virtToPhys_child (h : Inv F κ σ) (hk : σ.spaces k = some sp) :
    Vmm.virtToPhys k v σ.ram = .ok ((walk (child σ.ram) sp.pml4 (path v)).elim invalidAddress
      fun f => wrap (f + v % 4096)) :=
  virtToPhys_eq (h.direct hk) (h.word hk) fun q b hq =>
    h.readable hk q b (Nat.lt_succ_of_le hq.length_le)

theorem kernelHalf_shared (hF : Lawful F) (hstart : KernelStart F kernelMm σ₀)
    (hrun : Runs F kernelMm (fun σ act => Allowed F (some kernelMm) kernelMm σ act ∧
      Populated kernelMm σ act) σ₀ σ)
    (hk : σ.spaces k = some sp) (hcopied : sp.copied = true) (hv : 256 ≤ (index 39 v : ℕ)) :
    ∃ phys, virtToPhys k v σ.ram = .ok phys ∧ virtToPhys kernelMm v σ.ram = .ok phys := by
  obtain ⟨h, hshared⟩ := shared_run hF hrun hstart.inv hstart.shared
  obtain ⟨ksp, hkernel⟩ := Option.ne_none_iff_exists'.mp (h.kernel rfl)
  refine ⟨_, h.virtToPhys_child hk, ?_⟩
  rw [h.virtToPhys_child hkernel, path_eq, walk_cons, walk_cons,
    hshared k sp ksp _ hk hkernel hcopied hv]

/-! ### A kernel without tables -/

/-- The kernel's PML4 is the first page frame, and empty. -/
def bare : Sys Bump where
  ram := blank.ram.put (blockAddr 0) 4096
  frames := ([1], [0])
  current := ⟨0, 4096⟩
  spaces := Function.update (fun _ => none) (blockAddr 0)
    (some (kernelSpace (blockAddr 0) (blank.ram.put (blockAddr 0) 4096)))
  clients := ∅

theorem bare_word : bare.ram.word (blockAddr 0) = 4096 := Ram.word_put_self (by norm_num)

theorem bare_child (i : Fin 512) : child bare.ram 4096 i = none := by
  have hok : FrameOk 4096 := ⟨dvd_refl _, by rw [physLimit_eq]; norm_num⟩
  have hzero : entry bare.ram 4096 i = 0 := by
    have hword : entry bare.ram 4096 i = entry blank.ram 4096 i :=
      (Wrote.put blank.ram 4096 (le_refl (structSpan (blockAddr 0)))).word
        (Set.disjoint_of_subset_left (entrySpan_subset 4096 i) (blockAddr_disjoint hok).symm)
    rw [hword]
    exact Memory.load_eq_zero fun _ _ _ => rfl
  rw [child_eq_none, hzero]
  rfl

theorem bare_start : KernelStart bump (blockAddr 0) bare where
  sound := bump_sound.mpr ⟨by decide, by decide⟩
  block := ⟨0, List.mem_singleton_self 0, rfl⟩
  spaces := rfl
  held := by
    rintro c ⟨p, -, hc⟩
    rw [bare_word] at hc
    obtain ⟨-, rfl⟩ := eq_of_walk_empty bare_child hc
    exact ⟨1, List.mem_singleton_self 1, rfl⟩
  apart p q c _ _ hp hq := by
    rw [bare_word] at hp hq
    rw [(eq_of_walk_empty bare_child hp).1, (eq_of_walk_empty bare_child hq).1]

theorem bare_upper (h : Inv bump (some (blockAddr 0)) σ')
    (hkernel : σ'.spaces (blockAddr 0) = some (kernelSpace (blockAddr 0) bare.ram)) :
    child σ'.ram 4096 i = none := by
  have hroot : (kernelSpace (blockAddr 0) bare.ram).pml4 = 4096 := bare_word
  by_contra hsome
  obtain ⟨b, hb⟩ := Option.ne_none_iff_exists'.mp hsome
  rw [← hroot, ← h.kernel_child hkernel] at hb
  obtain ⟨p, -, hp⟩ := (h.tables hkernel).mp ⟨_, [i], roots_of hkernel, by norm_num, hb⟩
  rw [bare_word] at hp
  obtain ⟨-, rfl⟩ := eq_of_walk_empty bare_child hp
  have hnil : walk (own (borrowers (some (blockAddr 0)) σ'.spaces) σ'.ram)
      (kernelSpace (blockAddr 0) bare.ram).pml4 [] = some 4096 := by rw [hroot]; rfl
  have heq := h.trees.forest.unique (roots_of hkernel) (roots_of hkernel) (by norm_num)
    (by norm_num) hb hnil
  exact absurd heq.2 (List.cons_ne_nil _ _)

theorem bare_create : ∃ (σ : Sys Bump) (sp : Space), Step bump (blockAddr 0) bare .create σ ∧
    σ.spaces = Function.update bare.spaces (blockAddr 1) (some sp) ∧ sp.copied = false ∧
    (∀ n, sp.map n = none) ∧ sp.tables ⊆ {0x2000} ∧ σ.frames = ([2, 1], [1, 0]) := by
  obtain ⟨r, hcreate⟩ := bump_createMm (r := bare.ram) bare_start.sound (by decide) (by decide)
  refine ⟨_, ⟨r.word (blockAddr 1), false, bump.held ([2, 1], [1, 0]) \ bump.held ([1], [0]),
    fun _ => none⟩, Step.create hcreate (blockAddr_ne_zero _), rfl, rfl, fun _ => rfl, ?_, rfl⟩
  rintro f ⟨⟨n, hn, rfl⟩, hold⟩
  rcases List.mem_cons.mp hn with rfl | hn
  · rfl
  · exact absurd ⟨n, hn, rfl⟩ hold

theorem blockAddr_ne : blockAddr 1 ≠ blockAddr 0 := fun heq => absurd (blockAddr_inj heq) (by norm_num)

theorem bare_copy : ∃ (σ : Sys Bump) (sp : Space),
    Runs bump (blockAddr 0) (fun σ act => Allowed bump (some (blockAddr 0)) (blockAddr 0) σ act ∧
      Populated (blockAddr 0) σ act) bare σ ∧
    σ.spaces (blockAddr 1) = some sp ∧ sp.copied = true ∧
    σ.spaces (blockAddr 0) = some (kernelSpace (blockAddr 0) bare.ram) ∧
    σ.frames = ([2, 1], [1, 0]) := by
  obtain ⟨σ, sp, hstep, hspaces, -, -, -, hframes⟩ := bare_create
  have hcreate : Allowed bump (some (blockAddr 0)) (blockAddr 0) bare .create := trivial
  have hinv := hstep.inv bump_lawful hcreate bare_start.inv
  have hsp : σ.spaces (blockAddr 1) = some sp := by rw [hspaces, Function.update_self]
  obtain ⟨τ, hcopy, hspaces', hframes'⟩ := hinv.exists_copy hsp blockAddr_ne
  refine ⟨τ, { sp with copied := true }, (Relation.ReflTransGen.single
    ⟨.create, ⟨trivial, trivial⟩, hstep⟩).tail ⟨.copy (blockAddr 1), ⟨⟨rfl, blockAddr_ne⟩, trivial⟩,
    hcopy⟩, ?_, rfl, ?_, hframes'.trans hframes⟩
  · rw [hspaces', Function.update_self]
  · rw [hspaces', Function.update_of_ne blockAddr_ne.symm, hspaces,
      Function.update_of_ne blockAddr_ne.symm]
    exact Function.update_self (f := fun _ => none) (blockAddr 0) _

theorem not_isUser_kernel : ¬ IsUser (some kernelMm) kernelMm :=
  fun ⟨_, hk, hne⟩ => absurd (Option.some.inj hk) hne

theorem bare_mapPage (h : Inv bump (some (blockAddr 0)) σ')
    (hkernel : σ'.spaces (blockAddr 0) = some (kernelSpace (blockAddr 0) bare.ram))
    (hframes : σ'.frames = ([2, 1], [1, 0])) :
    ∃ done r s, mapPage bump (blockAddr 0) 0x7000 0xFFFF800000000000 1 σ'.ram σ'.frames =
      .ok (done, r, s) := by
  refine h.trees.mapPage_total bump_lawful h.sound (h.direct hkernel) (h.word hkernel) (roots_of hkernel)
    (h.low hkernel fun huser => absurd huser not_isUser_kernel) ?_
  have hle : missing σ'.ram (kernelSpace (blockAddr 0) bare.ram).pml4 (upper 0xFFFF800000000000) ≤ 3 :=
    missing_le _ _ _
  refine bump_supplies ?_
  rw [hframes, physLimit_eq]
  change 4096 * (3 + _) ≤ _
  omega

theorem bare_allowed {f : ℕ} (hf : f < 16) : Allowed bump (some (blockAddr 0)) (blockAddr 0) σ'
    (.map (blockAddr 0) (4096 * f) page 1) :=
  ⟨Dvd.intro f rfl, by omega, by norm_num, by decide, fun huser => absurd huser not_isUser_kernel⟩

theorem bare_free (n : ℕ) : (kernelSpace (blockAddr 0) bare.ram).map n = none := by
  simp only [kernelSpace, bare_word]
  exact walk_empty bare_child (List.cons_ne_nil _ _)

theorem bare_map (h : Inv bump (some (blockAddr 0)) σ')
    (hkernel : σ'.spaces (blockAddr 0) = some (kernelSpace (blockAddr 0) bare.ram))
    (hframes : σ'.frames = ([2, 1], [1, 0])) :
    ∃ (τ : Sys Bump) (ksp : Space),
      Step bump (blockAddr 0) σ' (.map (blockAddr 0) 0x7000 0xFFFF800000000000 1) τ ∧
      τ.spaces = Function.update σ'.spaces (blockAddr 0) (some ksp) ∧
      ksp.map = Function.update (fun _ => none) (pageNumber 0xFFFF800000000000) (some 0x7000) ∧
      ∀ k sp, k ≠ blockAddr 0 → σ'.spaces k = some sp → ∀ i : Fin 512, 256 ≤ (i : ℕ) →
        child τ.ram sp.pml4 i = child σ'.ram sp.pml4 i := by
  obtain ⟨done, r, s, hmap⟩ := bare_mapPage h hkernel hframes
  obtain ⟨-, -, -, hedited, -⟩ := h.mapPage_edited bump_lawful hkernel (bare_allowed (f := 7) (by norm_num)) hmap
  refine ⟨_, _, Step.map hkernel hmap, rfl, ?_, fun k sp hne hk i hi => ?_⟩
  · rw [Space.mapped_map (bare_free _), funext bare_free]
  · exact h.upper_kept hedited hk hi (Or.inl hne)

/-- The kernel has a page in its upper half, and no copy is made. -/
theorem bare_page : ∃ (σ : Sys Bump) (sp ksp : Space),
    Runs bump (blockAddr 0) (fun σ act => Allowed bump (some (blockAddr 0)) (blockAddr 0) σ act ∧
      Populated (blockAddr 0) σ act) bare σ ∧
    σ.spaces (blockAddr 1) = some sp ∧ (∀ n, sp.map n = none) ∧ sp.tables ⊆ {0x2000} ∧
    (∀ i : Fin 512, 256 ≤ (i : ℕ) → child σ.ram sp.pml4 i = none) ∧
    σ.spaces (blockAddr 0) = some ksp ∧
    ksp.map = Function.update (fun _ => none) (pageNumber 0xFFFF800000000000) (some 0x7000) := by
  obtain ⟨σ₁, sp, hstep₁, hspaces, hnew, hmap, htables, hframes⟩ := bare_create
  have hcreate : Allowed bump (some (blockAddr 0)) (blockAddr 0) bare .create := trivial
  have h₁ := hstep₁.inv bump_lawful hcreate bare_start.inv
  have hkernel₁ : σ₁.spaces (blockAddr 0) = some (kernelSpace (blockAddr 0) bare.ram) := by
    rw [hspaces, Function.update_of_ne blockAddr_ne.symm]
    exact Function.update_self (f := fun _ => none) (blockAddr 0) _
  have hsp₁ : σ₁.spaces (blockAddr 1) = some sp := by rw [hspaces, Function.update_self]
  -- what an upper half has, the kernel has
  have hupper₁ : ∀ i : Fin 512, 256 ≤ (i : ℕ) → child σ₁.ram sp.pml4 i = none := by
    intro i hi
    by_contra hsome
    obtain ⟨b, hb⟩ := Option.ne_none_iff_exists'.mp hsome
    have hkb := h₁.borrowed rfl hkernel₁ blockAddr_ne hsp₁ hi hb
    rw [show (kernelSpace (blockAddr 0) bare.ram).pml4 = 4096 from bare_word, bare_upper h₁ hkernel₁] at hkb
    cases hkb
  obtain ⟨σ₂, ksp, hstep₂, hspaces₂, hpage, hkept⟩ := bare_map h₁ hkernel₁ hframes
  have hcopied₁ : ∀ k spk, σ₁.spaces k = some spk → spk.copied = false := by
    intro k spk hk
    rw [hspaces] at hk
    rcases update_some hk with ⟨-, rfl⟩ | ⟨-, hk⟩
    · exact hnew
    · rw [(bare_start.eq_kernel hk).2, kernelSpace]
  refine ⟨σ₂, sp, ksp, (Relation.ReflTransGen.single ⟨.create, ⟨trivial, trivial⟩, hstep₁⟩).tail
    ⟨_, ⟨bare_allowed (f := 7) (by norm_num), fun _ _ => Or.inr hcopied₁⟩, hstep₂⟩, ?_, hmap, htables,
    fun i hi => (hkept _ sp blockAddr_ne hsp₁ i hi).trans (hupper₁ i hi), ?_, hpage⟩
  · rw [hspaces₂, Function.update_of_ne blockAddr_ne, hsp₁]
  · rw [hspaces₂, Function.update_self]

/-- A copy is made behind it. -/
theorem bare_populated : ∃ (σ : Sys Bump) (sp ksp : Space),
    Runs bump (blockAddr 0) (fun σ act => Allowed bump (some (blockAddr 0)) (blockAddr 0) σ act ∧
      Populated (blockAddr 0) σ act) bare σ ∧
    σ.spaces (blockAddr 1) = some sp ∧ sp.copied = true ∧ σ.spaces (blockAddr 0) = some ksp ∧
    ksp.map = Function.update (fun _ => none) (pageNumber 0xFFFF800000000000) (some 0x7000) := by
  obtain ⟨σ, sp, ksp, hrun, hsp, -, -, -, hkernel, hpage⟩ := bare_page
  obtain ⟨h, -⟩ := shared_run bump_lawful hrun bare_start.inv bare_start.shared
  obtain ⟨τ, hcopy, hspaces, -⟩ := h.exists_copy hsp blockAddr_ne
  refine ⟨τ, { sp with copied := true }, ksp,
    hrun.tail ⟨.copy (blockAddr 1), ⟨⟨rfl, blockAddr_ne⟩, trivial⟩, hcopy⟩, ?_, rfl, ?_, hpage⟩
  · rw [hspaces, Function.update_self]
  · rw [hspaces, Function.update_of_ne blockAddr_ne.symm, hkernel]

/-- A second page of the kernel, which is mapped behind the copy. -/
theorem kernelHalf_shared_bare : ∃ (σ : Sys Bump) (sp : Space),
    Runs bump (blockAddr 0) (fun σ act => Allowed bump (some (blockAddr 0)) (blockAddr 0) σ act ∧
      Populated (blockAddr 0) σ act) bare σ ∧
    σ.spaces (blockAddr 1) = some sp ∧ sp.copied = true ∧
    virtToPhys (blockAddr 1) 0xFFFF800000001000 σ.ram = .ok 0x8000 ∧
    virtToPhys (blockAddr 0) 0xFFFF800000001000 σ.ram = .ok 0x8000 := by
  obtain ⟨σ, sp, ksp, hrun, hsp, hcopied, hkernel, hpage⟩ := bare_populated
  obtain ⟨h, -⟩ := shared_run bump_lawful hrun bare_start.inv bare_start.shared
  have hlow : ksp.pml4 ∈ borrowers (some (blockAddr 0)) σ.spaces → ∀ v, (index 39 v : ℕ) < 256 :=
    fun hX => absurd hX (h.kernel_notMem hkernel)
  -- it has the tables of the first one
  have hwalk : walk (child σ.ram) ksp.pml4 (upper 0xFFFF800000000000 ++ [index 12 0xFFFF800000000000]) =
      some 0x7000 := by
    refine (h.trees.walk_child_path (roots_of hkernel) (fun hX => hlow hX _) (List.prefix_refl _)).trans ?_
    rw [h.map 0xFFFF800000000000 hkernel, hpage, Function.update_self]
  rw [walk_append] at hwalk
  obtain ⟨g, hupper, -⟩ := Option.bind_eq_some_iff.mp hwalk
  have hsame : upper 0xFFFF800000000000 = upper 0xFFFF800000001000 := by decide
  have hentry : child σ.ram ksp.pml4 (index 39 0xFFFF800000001000) ≠ none := by
    intro hnone
    rw [hsame, upper, walk_cons, hnone] at hupper
    cases hupper
  obtain ⟨done, r, s, hmap⟩ : ∃ done r s, mapPage bump (blockAddr 0) 0x8000 0xFFFF800000001000 1 σ.ram σ.frames =
      .ok (done, r, s) :=
    h.trees.mapPage_total bump_lawful h.sound (h.direct hkernel) (h.word hkernel) (roots_of hkernel)
      (fun hX => hlow hX _) (by rw [← hsame, missing_of_walk hupper]; trivial)
  have hallowed : Allowed bump (some (blockAddr 0)) (blockAddr 0) σ
      (.map (blockAddr 0) 0x8000 0xFFFF800000001000 1) := bare_allowed (f := 8) (by norm_num)
  have hstep : Step bump (blockAddr 0) σ (.map (blockAddr 0) 0x8000 0xFFFF800000001000 1) _ :=
    Step.map hkernel hmap
  have hrun' := hrun.tail ⟨_, ⟨hallowed, fun _ _ => Or.inl ⟨ksp, hkernel, hentry⟩⟩, hstep⟩
  have hsp' := (Function.update_of_ne blockAddr_ne (some (ksp.mapped 0x8000 (pageNumber 0xFFFF800000001000)
    (bump.held s \ bump.held σ.frames))) σ.spaces).trans hsp
  have hkernel' := Function.update_self (f := σ.spaces) (blockAddr 0)
    (some (ksp.mapped 0x8000 (pageNumber 0xFFFF800000001000) (bump.held s \ bump.held σ.frames)))
  have hfree : ksp.map (pageNumber 0xFFFF800000001000) = none := by
    rw [hpage, Function.update_of_ne (by decide)]
  obtain ⟨phys, huser, hphys⟩ := kernelHalf_shared bump_lawful bare_start hrun' (k := blockAddr 1) hsp' hcopied
    (by decide : 256 ≤ (index 39 0xFFFF800000001000 : ℕ))
  have hvalue := (hstep.inv bump_lawful hallowed h).virtToPhys (v := 0xFFFF800000001000) hkernel'
    fun huser => absurd huser not_isUser_kernel
  rw [Space.mapped_map hfree, Function.update_self] at hvalue
  have heq : phys = 0x8000 := Except.ok.inj (hphys.symm.trans hvalue)
  exact ⟨_, sp, hrun', hsp', hcopied, heq ▸ huser, heq ▸ hphys⟩

/-- A page of the kernel whose entry in the PML4 is new is mapped after the copy. -/
theorem new_entry_not_shared : ∃ (σ : Sys Bump) (sp : Space),
    Runs bump (blockAddr 0) (Allowed bump (some (blockAddr 0)) (blockAddr 0)) bare σ ∧
    σ.spaces (blockAddr 1) = some sp ∧ sp.copied = true ∧
    virtToPhys (blockAddr 1) 0xFFFF800000000000 σ.ram = .ok invalidAddress ∧
    virtToPhys (blockAddr 0) 0xFFFF800000000000 σ.ram = .ok 0x7000 := by
  obtain ⟨σ, sp, hrun, hsp, hcopied, hkernel, hframes⟩ := bare_copy
  obtain ⟨h, hshared⟩ := shared_run bump_lawful hrun bare_start.inv bare_start.shared
  have hrun' := hrun.mono fun _ _ hact => hact.1
  obtain ⟨τ, ksp, hstep, hspaces, hpage, hkept⟩ := bare_map h hkernel hframes
  have hτ := hstep.inv bump_lawful (bare_allowed (f := 7) (by norm_num)) h
  have hsp' : τ.spaces (blockAddr 1) = some sp := by
    rw [hspaces, Function.update_of_ne blockAddr_ne, hsp]
  have hkernel' : τ.spaces (blockAddr 0) = some ksp := by rw [hspaces, Function.update_self]
  refine ⟨τ, sp, hrun'.tail ⟨_, bare_allowed (f := 7) (by norm_num), hstep⟩, hsp', hcopied, ?_, ?_⟩
  · -- the copy is as empty as it was
    have hnone : child τ.ram sp.pml4 (index 39 0xFFFF800000000000) = none := by
      have hi : 256 ≤ (index 39 0xFFFF800000000000 : ℕ) := by decide
      rw [hkept _ sp blockAddr_ne hsp _ hi, hshared _ sp _ _ hsp hkernel hcopied hi]
      exact (congrArg (child σ.ram · _) bare_word).trans (bare_upper h hkernel)
    rw [hτ.virtToPhys_child hsp', path_eq, walk_cons, hnone]
    rfl
  · rw [hτ.virtToPhys hkernel' fun huser => absurd huser not_isUser_kernel, hpage, Function.update_self]
    rfl

end Fynaos.Vmm
