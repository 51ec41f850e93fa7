import Fynaos.Cpu.Segments

/-!
# The IDT as the processor sees it

A gate is written in seven pieces and read in six; `set_idt_entry` and the processor agree on them
(`setIdtEntry_spec`). `init_interrupt` goes over the table once to switch all gates off and once to fill them, and
then gives three vectors a stack of their own (`initInterrupt_gates`).
-/

namespace Fynaos.Cpu

open Memory Fields

def gateSpan (st : Statics) (v : ℕ) : Set ℕ := Set.Ico (st.idt + 16 * v) (st.idt + 16 * v + 16)

def idtSpan (st : Statics) : Set ℕ := Set.Ico st.idt (st.idt + 4096)

def gate (st : Statics) (v : ℕ) (r : Ram) : Gate := Gate.load r (st.idt + 16 * v)

/-- A gate for a routine of the kernel that only the kernel and the hardware may use. -/
def kernelGate (isrAddr ist : ℕ) : Gate := ⟨isrAddr, 8, ist, interruptGate, 0, true⟩

variable {st : Statics} {t : TableRegs} {r r' : Ram} {a n v i ist isrAddr : ℕ}

theorem gateSpan_subset (hv : v < 256) : gateSpan st v ⊆ idtSpan st := by
  rintro x ⟨h1, h2⟩
  exact ⟨by omega, by omega⟩

theorem gate_congr (h : ∀ x ∈ gateSpan st v, r'.bytes x = r.bytes x) : gate st v r' = gate st v r := by
  have hload : ∀ k n, k + n ≤ 16 → load r'.bytes (st.idt + 16 * v + k) n =
      load r.bytes (st.idt + 16 * v + k) n := fun k n hkn =>
    load_congr fun x h1 h2 => h x ⟨by omega, by omega⟩
  have hzero : load r'.bytes (st.idt + 16 * v) 2 = load r.bytes (st.idt + 16 * v) 2 := hload 0 2 (by norm_num)
  rw [gate, gate, Gate.load, Gate.load, hzero, hload 6 2 (by norm_num), hload 8 4 (by norm_num),
    hload 2 2 (by norm_num), hload 4 1 (by norm_num), hload 5 1 (by norm_num)]

theorem gate_frame {S : Set ℕ} (h : Wrote r r' S) (hS : Disjoint (gateSpan st v) S) :
    gate st v r' = gate st v r :=
  gate_congr fun _ hx => h.frame _ fun hx' => Set.disjoint_left.mp hS hx hx'

theorem gateSpan_disjoint (h : i ≠ v) : Disjoint (gateSpan st v) (gateSpan st i) := by
  refine Set.disjoint_left.mpr fun x hx hx' => ?_
  obtain ⟨h1, h2⟩ := hx
  obtain ⟨h3, h4⟩ := hx'
  omega

/-! ### One gate -/

def entrySet (r : Ram) (pidt isrAddr ist : ℕ) : Ram :=
  ((((((r.putWidth 1 (pidt + 5) gateAttributes).putWidth 1 (pidt + 4) ist).putWidth 2 (pidt + 2)
    kernelCodeSelector).putWidth 2 pidt (isrAddr &&& 0xFFFF)).putWidth 2 (pidt + 6)
    ((isrAddr >>> 16) &&& 0xFFFF)).putWidth 4 (pidt + 8) ((isrAddr >>> 32) &&& 0xFFFFFFFF)).putWidth 4
    (pidt + 12) 0

theorem entrySet_load (hisr : isrAddr < 2 ^ 64) (hist : ist < 8) :
    Gate.load (entrySet r a isrAddr ist) a = kernelGate isrAddr ist := by
  have hmask : ∀ x k, x &&& (2 ^ k - 1) = x % 2 ^ k := fun x k => Nat.and_two_pow_sub_one_eq_mod x k
  have h1 : isrAddr &&& 0xFFFF = isrAddr % 2 ^ 16 := hmask isrAddr 16
  have h2 : (isrAddr >>> 16) &&& 0xFFFF = isrAddr / 2 ^ 16 % 2 ^ 16 := by
    rw [Nat.shiftRight_eq_div_pow]
    exact hmask _ 16
  have h3 : (isrAddr >>> 32) &&& 0xFFFFFFFF = isrAddr / 2 ^ 32 % 2 ^ 32 := by
    rw [Nat.shiftRight_eq_div_pow]
    exact hmask _ 32
  have hcode : kernelCodeSelector = 8 := by decide
  have hattr : gateAttributes = 0x8E := by decide
  have hsum : isrAddr % 2 ^ 16 + 2 ^ 16 * (isrAddr / 2 ^ 16 % 2 ^ 16) +
      2 ^ 32 * (isrAddr / 2 ^ 32 % 2 ^ 32) = isrAddr := by omega
  simp (disch := omega) only [entrySet, Ram.putWidth, h1, h2, h3, hcode, hattr, Gate.load,
    load_store_of_disjoint, load_store_self]
  rw [hsum, Nat.mod_eq_of_lt hist]
  rfl

theorem setIdtEntry_spec (hp : st.Placed) (hi : i < 256) (hisr : isrAddr < 2 ^ 64) (hist : ist < 8) (r : Ram) :
    ∃ r', setIdtEntry st i isrAddr gateAttributes ist r = .ok r' ∧ gate st i r' = kernelGate isrAddr ist ∧
      Wrote r r' (gateSpan st i) := by
  have hdirect : ∀ k n, k + n ≤ 16 → Direct (st.idt + 16 * i + k) n := fun k n hkn =>
    hp.idt.sub (by omega) (by omega)
  have hdirect0 : Direct (st.idt + 16 * i) 2 := hdirect 0 2 (by norm_num)
  have hin : ∀ k n, k + n ≤ 16 →
      Set.Ico (st.idt + 16 * i + k) (st.idt + 16 * i + k + n) ⊆ gateSpan st i := fun k n hkn =>
    Set.Ico_subset_Ico (Nat.le_add_right _ _) (by omega)
  have hin0 : Set.Ico (st.idt + 16 * i) (st.idt + 16 * i + 2) ⊆ gateSpan st i := hin 0 2 (by norm_num)
  refine ⟨entrySet r (st.idt + 16 * i) isrAddr ist, ?_, entrySet_load hisr hist, ?_⟩
  · rw [setIdtEntry, storeWidth_eq (hdirect 5 1 (by norm_num)) (by norm_num), ok_bind,
      storeWidth_eq (hdirect 4 1 (by norm_num)) (by norm_num), ok_bind,
      storeWidth_eq (hdirect 2 2 (by norm_num)) (by norm_num), ok_bind,
      storeWidth_eq hdirect0 (by norm_num), ok_bind,
      storeWidth_eq (hdirect 6 2 (by norm_num)) (by norm_num), ok_bind,
      storeWidth_eq (hdirect 8 4 (by norm_num)) (by norm_num), ok_bind,
      storeWidth_eq (hdirect 12 4 (by norm_num)) (by norm_num), entrySet]
  · have hstores := Wrote.refl r (gateSpan st i)
    have h5 := Wrote.thenPut (v := gateAttributes) hstores (hin 5 1 (by norm_num))
    have h4 := Wrote.thenPut (v := ist) h5 (hin 4 1 (by norm_num))
    have h2 := Wrote.thenPut (v := kernelCodeSelector) h4 (hin 2 2 (by norm_num))
    have h0 := Wrote.thenPut (v := isrAddr &&& 0xFFFF) h2 hin0
    have h6 := Wrote.thenPut (v := (isrAddr >>> 16) &&& 0xFFFF) h0 (hin 6 2 (by norm_num))
    have h8 := Wrote.thenPut (v := (isrAddr >>> 32) &&& 0xFFFFFFFF) h6 (hin 8 4 (by norm_num))
    exact Wrote.thenPut h8 (hin 12 4 (by norm_num))

/-! ### The table -/

theorem isrTable_word (hp : st.Placed) (h : Wrote r r' (idtSpan st)) (hv : v < 256) :
    r'.word (st.isrTable + 8 * v) = r.word (st.isrTable + 8 * v) := by
  refine h.word (Set.disjoint_left.mpr fun x hx hx' => ?_)
  have hapart := hp.idt_isrTable
  unfold Apart at hapart
  obtain ⟨h1, h2⟩ := hx
  obtain ⟨h3, h4⟩ := hx'
  omega

theorem setIdte_spec (hp : st.Placed) (hv : v < 256) (hist : ist < 8) (r : Ram) :
    ∃ r', setIdte st v gateAttributes ist r = .ok r' ∧
      gate st v r' = kernelGate (r.word (st.isrTable + 8 * v)) ist ∧ Wrote r r' (gateSpan st v) := by
  have hdirect : Direct (st.isrTable + 8 * v) 8 := hp.isrTable.sub (Nat.le_add_right _ _) (by omega)
  obtain ⟨r', hrun, hgate, hwrote⟩ := setIdtEntry_spec hp hv (Ram.word_lt r (st.isrTable + 8 * v)) hist r
  exact ⟨r', by rw [setIdte, hdirect.load, ok_bind, hrun], hgate, hwrote⟩

theorem initIdt_spec (hp : st.Placed) (t : TableRegs) (r : Ram) : ∃ r',
    initIdt st t r = .ok ({ t with idtLimit := 4095, idtBase := st.idt }, r') ∧ Wrote r r' (idtSpan st) := by
  have hloop : ∀ (l : List ℕ) (r : Ram), (∀ i ∈ l, i < 256) → ∃ r', l.foldlM (fun r i =>
      Ram.storeWidth r 1 (st.idt + 16 * i + 5) (load r.bytes (st.idt + 16 * i + 5) 1 &&& 0x7F)) r =
        Except.ok r' ∧ Wrote r r' (idtSpan st) := by
    intro l
    induction l with
    | nil => exact fun r _ => ⟨r, rfl, Wrote.refl _ _⟩
    | cons i l ih =>
      intro r hl
      have hi := hl i List.mem_cons_self
      have hdirect : Direct (st.idt + 16 * i + 5) 1 := hp.idt.sub (by omega) (by omega)
      obtain ⟨r', hrun, hwrote⟩ := ih (r.putWidth 1 (st.idt + 16 * i + 5)
        (load r.bytes (st.idt + 16 * i + 5) 1 &&& 0x7F)) fun j hj => hl j (List.mem_cons_of_mem _ hj)
      have hin : Set.Ico (st.idt + 16 * i + 5) (st.idt + 16 * i + 5 + 1) ⊆ idtSpan st :=
        Set.Ico_subset_Ico (by omega) (by omega)
      refine ⟨r', ?_, (wrote_putWidth hin).trans hwrote⟩
      rw [List.foldlM_cons, storeWidth_eq hdirect (by norm_num)]
      exact hrun
  obtain ⟨r', hrun, hwrote⟩ := hloop (List.range 256) r fun i hi => List.mem_range.mp hi
  exact ⟨r', by rw [initIdt, hrun, ok_bind, pure_eq], hwrote⟩

/-- The vectors that `init_interrupt` gives a stack of their own. -/
def ownStack (v : ℕ) : ℕ := if v = 2 ∨ v = 8 ∨ v = 18 then 1 else 0

theorem fillGates (hp : st.Placed) {l : List ℕ} (hl : ∀ i ∈ l, i < 256) (hnodup : l.Nodup) (r : Ram) :
    ∃ r', l.foldlM (fun r i => setIdte st i gateAttributes 0 r) r = .ok r' ∧
      Wrote r r' {x | ∃ i ∈ l, x ∈ gateSpan st i} ∧
      ∀ v ∈ l, gate st v r' = kernelGate (r.word (st.isrTable + 8 * v)) 0 := by
  induction l generalizing r with
  | nil => exact ⟨r, rfl, Wrote.refl _ _, fun v hv => absurd hv List.not_mem_nil⟩
  | cons i l ih =>
    have hi := hl i List.mem_cons_self
    have hl' : ∀ j ∈ l, j < 256 := fun j hj => hl j (List.mem_cons_of_mem _ hj)
    obtain ⟨hnot, hnodup⟩ := List.nodup_cons.mp hnodup
    obtain ⟨r₁, hset, hgate, hwrote₁⟩ := setIdte_spec hp hi (by norm_num : 0 < 8) r
    obtain ⟨r', hrun, hwrote, hgates⟩ := ih hl' hnodup r₁
    refine ⟨r', ?_, ?_, ?_⟩
    · rw [List.foldlM_cons, hset]
      exact hrun
    · have hfirst : gateSpan st i ⊆ {x | ∃ j ∈ i :: l, x ∈ gateSpan st j} := fun x hx =>
        ⟨i, List.mem_cons_self, hx⟩
      refine (hwrote₁.mono hfirst).trans (hwrote.mono ?_)
      rintro x ⟨j, hj, hx⟩
      exact ⟨j, List.mem_cons_of_mem _ hj, hx⟩
    · refine List.forall_mem_cons.mpr ⟨?_, fun v hv => ?_⟩
      · rw [← hgate]
        refine gate_frame hwrote (Set.disjoint_left.mpr ?_)
        rintro x hx ⟨j, hj, hx'⟩
        have hne : j ≠ i := fun h => hnot (h ▸ hj)
        exact Set.disjoint_left.mp (gateSpan_disjoint hne) hx hx'
      · rw [hgates v hv, isrTable_word hp (hwrote₁.mono (gateSpan_subset hi)) (hl' v hv)]

theorem setIdte_over (hp : st.Placed) (hv : v < 256) (hist : ist < 8) (r : Ram) :
    ∃ r', setIdte st v gateAttributes ist r = .ok r' ∧ Wrote r r' (idtSpan st) ∧
      gate st v r' = kernelGate (r.word (st.isrTable + 8 * v)) ist ∧
      ∀ i, i ≠ v → gate st i r' = gate st i r := by
  obtain ⟨r', hrun, hgate, hwrote⟩ := setIdte_spec hp hv hist r
  exact ⟨r', hrun, hwrote.mono (gateSpan_subset hv), hgate, fun i hi =>
    gate_frame hwrote (gateSpan_disjoint hi.symm)⟩

/-- After `init_interrupt` each vector has a gate to its routine in `isr_table`, on a stack of its own for the three
vectors that need one, whatever the table held before. -/
theorem initInterrupt_gates (hp : st.Placed) (t : TableRegs) (r : Ram) : ∃ r',
    initInterrupt st t r = .ok ({ t with idtLimit := 4095, idtBase := st.idt }, r') ∧
      Wrote r r' (idtSpan st) ∧
      ∀ v < 256, gate st v r' = kernelGate (r.word (st.isrTable + 8 * v)) (ownStack v) := by
  obtain ⟨r₁, hinit, hwrote₁⟩ := initIdt_spec hp t r
  obtain ⟨r₂, hfill, hwrote₂, hgates⟩ := fillGates hp (l := List.range 256)
    (fun i hi => List.mem_range.mp hi) List.nodup_range r₁
  obtain ⟨r₃, hset₃, hwrote₃, hgate₃, hother₃⟩ := setIdte_over hp (by norm_num : 2 < 256) (by norm_num : 1 < 8) r₂
  obtain ⟨r₄, hset₄, hwrote₄, hgate₄, hother₄⟩ := setIdte_over hp (by norm_num : 8 < 256) (by norm_num : 1 < 8) r₃
  obtain ⟨r₅, hset₅, hwrote₅, hgate₅, hother₅⟩ := setIdte_over hp (by norm_num : 18 < 256) (by norm_num : 1 < 8) r₄
  have hwrote₂' : Wrote r₁ r₂ (idtSpan st) := hwrote₂.mono fun x hx => by
    obtain ⟨i, hi, hx⟩ := hx
    exact gateSpan_subset (List.mem_range.mp hi) hx
  have hto₂ := hwrote₁.trans hwrote₂'
  have hto₃ := hto₂.trans hwrote₃
  have hto₄ := hto₃.trans hwrote₄
  refine ⟨r₅, ?_, hto₄.trans hwrote₅, fun v hv => ?_⟩
  · rw [initInterrupt, hinit, ok_bind]
    dsimp only
    rw [hfill, ok_bind, hset₃, ok_bind, hset₄, ok_bind, hset₅, ok_bind, pure_eq]
  · unfold ownStack
    split_ifs with hown
    · rcases hown with rfl | rfl | rfl
      · rw [hother₅ 2 (by norm_num), hother₄ 2 (by norm_num), hgate₃, isrTable_word hp hto₂ hv]
      · rw [hother₅ 8 (by norm_num), hgate₄, isrTable_word hp hto₃ hv]
      · rw [hgate₅, isrTable_word hp hto₄ hv]
    · obtain ⟨h2, h8, h18⟩ : v ≠ 2 ∧ v ≠ 8 ∧ v ≠ 18 := by omega
      rw [hother₅ v h18, hother₄ v h8, hother₃ v h2, hgates v (List.mem_range.mpr hv),
        isrTable_word hp hwrote₁ hv]

end Fynaos.Cpu
