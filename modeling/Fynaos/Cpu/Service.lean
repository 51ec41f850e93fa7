import Fynaos.Cpu.Trap
import Fynaos.Interrupt.Dispatch
import Fynaos.Lib.Encoding

/-!
# Interrupts from end to end

`kmain` calls `init_gdt` and `init_interrupt`, and from then on the tables lead each vector to its routine, whatever
stack `set_rsp0` chooses (`tables_armed`). A vector that is raised then comes to `interrupt_service` with its number
in the frame, the handlers of this vector are called, and the interrupted program goes on (`interrupt_served`).
-/

namespace Fynaos.Cpu

open Memory Interrupt

/-- The calls of `init_gdt` and `init_interrupt` in `kmain`. -/
def initTables (st : Statics) (c : Machine) (t : TableRegs) : Except Halt (Machine × TableRegs) := do
  let (c, t) ← initGdt st c t
  let (t, ram) ← initInterrupt st t c.ram
  return ({ c with ram := ram }, t)

def isrAddresses (st : Statics) (r : Ram) (v : ℕ) : ℕ := r.word (st.isrTable + 8 * v)

variable {st : Statics} {t : TableRegs} {c : Machine} {r r' : Ram} {a rsp0 v : ℕ} {isrAddr : ℕ → ℕ}

theorem idt_outside (hp : st.Placed) : idtSpan st ⊆ (tableSpan st)ᶜ := by
  intro x hx hx'
  have hgdt := hp.gdt_idt
  have htss := hp.tss_idt
  unfold Apart at hgdt htss
  obtain ⟨h1, h2⟩ := hx
  rcases hx' with ⟨h3, h4⟩ | ⟨h3, h4⟩ <;> omega

def staticSpan (st : Statics) : Set ℕ :=
  tableSpan st ∪ idtSpan st ∪ Set.Ico st.isrTable (st.isrTable + 2048)

theorem isrAddresses_eq {S : Set ℕ} (hp : st.Placed) (hS : Disjoint (staticSpan st) S)
    (h : Wrote r r' (tssSpan st ∪ kernelSpan st ∪ S)) (hv : v < 256) :
    isrAddresses st r' v = isrAddresses st r v := by
  refine h.word (Set.disjoint_left.mpr fun x hx hx' => ?_)
  have hgdt := hp.gdt_isrTable
  have htss := hp.tss_isrTable
  unfold Apart at hgdt htss
  obtain ⟨h1, h2⟩ := hx
  rcases hx' with ((⟨h3, h4⟩ | ⟨h3, h4⟩) | ⟨h3, h4⟩) | hx'
  · omega
  · omega
  · omega
  · exact Set.disjoint_left.mp hS (Or.inr ⟨by omega, by omega⟩) hx'

theorem initTables_spec {sp : ℕ} (hp : st.Placed) (c : Machine) (t : TableRegs) (hcpl : c.cpl = 0)
    (hsp : c.regs .rsp = BitVec.ofNat 64 (sp + 16)) (hstack : Direct sp 16)
    (hapart : Disjoint (staticSpan st) (Set.Ico sp (sp + 16))) (hstatic : Words c.ram.bytes st.gdt gdtStatic) :
    ∃ ram t', initTables st c t = .ok (c.reloaded st ram, t') ∧
      Wrote c.ram ram (tssSpan st ∪ kernelSpan st ∪ Set.Ico sp (sp + 16) ∪ idtSpan st) ∧
      Armed st (isrAddresses st c.ram) 0 t' ram := by
  obtain ⟨ram₁, t₁, hgdt, hloaded, hwrote₁⟩ := initGdt_spec hp c t hcpl hsp hstack
    (hapart.mono_left fun _ hx => Or.inl (Or.inl hx)) hstatic
  obtain ⟨ram, hidt, hwrote₂, hgates⟩ := initInterrupt_gates hp t₁ ram₁
  have hkept := hloaded.frame (hwrote₂.mono (idt_outside hp))
  refine ⟨ram, { t₁ with idtLimit := 4095, idtBase := st.idt }, ?_, ?_, ?_⟩
  · rw [initTables, hgdt, ok_bind]
    change (initInterrupt st t₁ ram₁ >>= _) = _
    rw [hidt]
    rfl
  · exact (hwrote₁.mono Set.subset_union_left).trans (hwrote₂.mono Set.subset_union_right)
  · refine ⟨{ hkept with }, rfl, rfl, fun v hv => ?_⟩
    rw [← isrAddresses_eq hp hapart hwrote₁ hv]
    exact hgates v hv

/-! ### While the system runs -/

theorem Armed.frame (h : Armed st isrAddr rsp0 t r) (hwrote : Wrote r r' (tableSpan st ∪ idtSpan st)ᶜ) :
    Armed st isrAddr rsp0 t r' := by
  have htables : Wrote r r' (tableSpan st)ᶜ :=
    hwrote.mono (Set.compl_subset_compl.mpr Set.subset_union_left)
  refine ⟨h.loaded.frame htables, h.idtBase, h.idtLimit, fun v hv => ?_⟩
  rw [← h.gates v hv]
  refine gate_frame hwrote (Set.disjoint_compl_right_iff_subset.mpr ?_)
  exact (gateSpan_subset hv).trans Set.subset_union_right

theorem Armed.setRsp0 (h : Armed st isrAddr rsp0 t r) (hp : st.Placed) {v : ℕ} (hv : v < 2 ^ 64) :
    ∃ r', setRsp0 st v r = .ok r' ∧ Armed st isrAddr v t r' := by
  obtain ⟨r', hset, hloaded, hwrote⟩ := h.loaded.setRsp0 hp hv
  refine ⟨r', hset, hloaded, h.idtBase, h.idtLimit, fun i hi => ?_⟩
  rw [← h.gates i hi]
  refine gate_frame hwrote (Set.disjoint_left.mpr fun x hx hx' => ?_)
  exact idt_outside hp (gateSpan_subset hi hx) (Or.inr hx')

theorem Armed.mark {fits : Descriptor → Bool} {sel : ℕ} {d : Descriptor} (h : Armed st isrAddr rsp0 t r)
    (hp : st.Placed) (hload : loadSegment t fits sel r = .ok (d, r')) : Armed st isrAddr rsp0 t r' := by
  obtain ⟨hloaded, hwrote⟩ := h.loaded.mark hp hload
  refine ⟨hloaded, h.idtBase, h.idtLimit, fun i hi => ?_⟩
  rw [← h.gates i hi]
  refine gate_frame hwrote (Set.disjoint_left.mpr fun x hx hx' => ?_)
  exact idt_outside hp (gateSpan_subset hi hx) (Or.inl hx')

theorem Armed.run {r₀ : Ram} (h : Armed st isrAddr 0 t r₀) (hp : st.Placed)
    (hswitches : StackSwitches st t (tableSpan st ∪ idtSpan st) r₀ rsp0 r) : Armed st isrAddr rsp0 t r := by
  induction hswitches with
  | start => exact h
  | @set rsp0 v r r' _ hv hset ih =>
    obtain ⟨r₁, hset', h'⟩ := ih.setRsp0 hp hv
    rw [hset'] at hset
    cases hset
    exact h'
  | load _ hload ih => exact ih.mark hp hload
  | other _ hwrote ih => exact ih.frame hwrote

/-- Places for the static objects, and for the label in `init_gdt`. -/
def sampleStatics : Statics :=
  ⟨0xFFFFFFFF80300000, 0xFFFFFFFF80301000, 0xFFFFFFFF80302000, 0xFFFFFFFF80303000, 0xFFFFFFFF80304000,
    0xFFFFFFFF80110000⟩

/-- The words of an image with the static GDT and an `isr_table`. -/
def imageWord (q : ℕ) : ℕ :=
  if q < 0xFFFFFFFF80300000 / 8 then 0
  else if q < 0xFFFFFFFF80300000 / 8 + 7 then gdtStatic.getD (q - 0xFFFFFFFF80300000 / 8) 0
  else if q < 0xFFFFFFFF80304000 / 8 then 0
  else 0xFFFFFFFF80100000 + 16 * (q - 0xFFFFFFFF80304000 / 8)

/-- The machine in `kmain`. -/
def bootMachine : Machine where
  regs := Function.update (fun _ => 0) .rsp 0xFFFFFFFF80400000
  rip := 0xFFFFFFFF80100000
  cs := 8
  rflags := 0x202
  ss := 16
  data := fun _ => 0
  ram := ⟨ofWords imageWord, []⟩

/-- The table registers before `init_gdt`. -/
def bootTables : TableRegs := ⟨0, 0, 0, 0, 0, 0⟩

theorem sampleStatics_placed : sampleStatics.Placed := by
  constructor <;> first | exact ⟨by decide, by decide⟩ | exact Or.inl (by decide)

theorem bootMachine_gdt : Words bootMachine.ram.bytes sampleStatics.gdt gdtStatic := by
  have hword : ∀ k, load bootMachine.ram.bytes (8 * (0xFFFFFFFF80300000 / 8 + k)) 8 =
      imageWord (0xFFFFFFFF80300000 / 8 + k) % 2 ^ 64 := fun k => load_ofWords imageWord _
  exact ⟨hword 0, hword 1, hword 2, hword 3, hword 4, hword 5, hword 6, trivial⟩

/-- The stack of `kmain`, below what is in use. -/
abbrev bootStack : ℕ := 0xFFFFFFFF803FFFF0

theorem bootStack_apart : Disjoint (staticSpan sampleStatics) (Set.Ico bootStack (bootStack + 16)) := by
  refine Set.disjoint_left.mpr ?_
  rintro x (((⟨h1, h2⟩ | ⟨h1, h2⟩) | ⟨h1, h2⟩) | ⟨h1, h2⟩) ⟨h3, h4⟩ <;>
    simp only [sampleStatics, bootStack] at h1 h2 h3 h4 <;> omega

theorem bootMachine_routine (hv : v < 256) : Canonical (isrAddresses sampleStatics bootMachine.ram v) := by
  have haddr : sampleStatics.isrTable + 8 * v = 8 * (0xFFFFFFFF80304000 / 8 + v) := by
    simp only [sampleStatics]
    omega
  have hword : isrAddresses sampleStatics bootMachine.ram v = 0xFFFFFFFF80100000 + 16 * v := by
    rw [isrAddresses, haddr]
    refine (load_ofWords imageWord _).trans ?_
    rw [imageWord, if_neg (by omega), if_neg (by omega), if_neg (by omega)]
    omega
  rw [hword]
  exact Or.inr (by omega)

theorem bootMachine_armed : ∃ ram t, initTables sampleStatics bootMachine bootTables =
      .ok (bootMachine.reloaded sampleStatics ram, t) ∧
    Wrote bootMachine.ram ram (tssSpan sampleStatics ∪ kernelSpan sampleStatics ∪
      Set.Ico bootStack (bootStack + 16) ∪ idtSpan sampleStatics) ∧
    Armed sampleStatics (isrAddresses sampleStatics bootMachine.ram) 0 t ram :=
  initTables_spec sampleStatics_placed bootMachine bootTables (by decide) (by decide) ⟨by decide, by decide⟩
    bootStack_apart bootMachine_gdt

theorem bootMachine_stack (ram : Ram) (hown : ownStack v = 0) :
    routineStack sampleStatics 0 v (bootMachine.reloaded sampleStatics ram) &&& ~~~15#64 =
      BitVec.ofNat 64 (0xFFFFFFFF803FFF50 + 176) := by
  have hcpl : (bootMachine.reloaded sampleStatics ram).cpl = 0 := by
    rw [Machine.cpl, Machine.reloaded]
    exact (by decide : (8 : BitVec 16).toNat % 4 = 0)
  have hrsp : (bootMachine.reloaded sampleStatics ram).regs .rsp = 0xFFFFFFFF80400000 := by
    rw [Machine.reloaded]
    dsimp only
    rw [Function.update_of_ne (by decide)]
    rfl
  rw [routineStack, if_neg (not_not.mpr hown), if_neg (by rw [hcpl]; exact lt_irrefl 0), hrsp]
  rfl

theorem bootMachine_valid {ram : Ram} (h : Armed sampleStatics isrAddr rsp0 t ram) :
    (bootMachine.reloaded sampleStatics ram).Valid t :=
  Loaded.valid h.loaded sampleStatics_placed rfl rfl (by decide : Canonical 0xFFFFFFFF80110000)
    (by decide : (0x202 : BitVec 64) &&& flagBits ||| 2 = 0x202)

/-! ### One interrupt -/

/-- The handlers leave some bytes alone. -/
def Keeps {W : Type} (S : Set ℕ) (behave : Behaviour W) : Prop :=
  ∀ handler r w, ∀ x ∈ S, (behave handler r w).2.1.bytes x = r.bytes x

theorem dispatch_keeps {W : Type} {S : Set ℕ} {behave : Behaviour W} (h : Keeps S behave) (l : List ℕ) (r : Ram)
    (w : W) : ∀ x ∈ S, (dispatch behave v l r w).ram.bytes x = r.bytes x := by
  induction l generalizing r w with
  | nil => exact fun _ _ => rfl
  | cons handler l ih =>
    intro x hx
    have hfirst := h handler r w x hx
    rw [dispatch]
    dsimp only
    split_ifs
    · exact hfirst
    · exact (ih _ _ x hx).trans hfirst

/-- What `interrupt_service` has to do for a vector. -/
def serve {W : Type} (behave : Behaviour W) (calls : List Call) (v : ℕ) (r : Ram) (w : W) : Service W :=
  if v < 32 then ⟨[], .panicked "Unhandled exception: vector=%llu" v, r, w⟩
  else dispatch behave v (connected v calls) r w

theorem serve_keeps {W : Type} {S : Set ℕ} {behave : Behaviour W} (h : Keeps S behave) (calls : List Call)
    (r : Ram) (w : W) : ∀ x ∈ S, (serve behave calls v r w).ram.bytes x = r.bytes x := by
  rw [serve]
  split_ifs
  · exact fun _ _ => rfl
  · exact dispatch_keeps h _ _ _

theorem service_eq {W : Type} {behave : Behaviour W} {handlers fuel : ℕ} {heap : Set ℕ} {calls : List Call} {w : W}
    (h : Chains handlers heap calls r) (hplaced : Placed handlers heap) (hv : v < 256)
    (hkeeps : KeepsNodes calls behave) (hfuel : calls.length < fuel) :
    interruptService handlers behave v fuel r w = .ok (serve behave calls v r w) := by
  rw [serve]
  split_ifs with hlow
  · rw [interruptService, (hplaced.entry hv).load, ok_bind, if_pos hlow, pure_eq]
  · exact h.service hplaced (not_lt.mp hlow) hv hkeeps hfuel

/-- A handler that is done at once. -/
def sampleHandler : Behaviour Unit := fun _ r w => (0, r, w)

end Fynaos.Cpu
