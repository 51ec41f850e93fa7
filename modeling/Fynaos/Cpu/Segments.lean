import Fynaos.Cpu.Descriptors
import Fynaos.Cpu.Loads

/-!
# The GDT and the TSS as the processor sees them

`MAKE_GDTE` spreads base, limit, access and flags over a descriptor, and the processor collects them again
(`decode_makeGdte`). `init_gdt` fills the TSS and its descriptor and loads all segment registers, by which the
processor marks the segments of the kernel as accessed (`loadSegments_spec`). Then the processor finds flat segments
for the kernel and for users, and the TSS of `gdt.c` with the stack for the interrupts that have one of their own
(`initGdt_spec`). Calls of `set_rsp0` change the stack for entries from user mode and nothing else
(`Loaded.setRsp0`), and further loads of segments keep all of it (`Loaded.mark`).
-/

namespace Fynaos.Cpu

open Memory Fields

def gdteParts (base limit access flags : ℕ) : List Part :=
  [⟨0, 16, limit⟩, ⟨16, 16, base⟩, ⟨32, 8, field base 16 8⟩, ⟨40, 8, access⟩, ⟨48, 4, field limit 16 4⟩,
    ⟨52, 4, flags⟩, ⟨56, 8, field base 24 8⟩]

variable {st : Statics} {t : TableRegs} {r r' : Ram} {a n v : ℕ}

theorem makeGdte_eq (base limit access flags : ℕ) :
    makeGdte base limit access flags = pack (gdteParts base limit access flags) := by
  have hlow : ∀ x k, x &&& (2 ^ k - 1) = x % 2 ^ k := fun x k => Nat.and_two_pow_sub_one_eq_mod x k
  have h1 : limit &&& 0xFFFF = limit % 2 ^ 16 := hlow limit 16
  have h2 : base &&& 0xFFFF = base % 2 ^ 16 := hlow base 16
  have h3 : access &&& 0xFF = access % 2 ^ 8 := hlow access 8
  have h4 : flags &&& 0xF = flags % 2 ^ 4 := hlow flags 4
  have h5 : (base &&& 0x00FF0000) <<< (32 - 16) = (field base 16 8 % 2 ^ 8) <<< 32 :=
    masked_eq base 16 8 16
  have h6 : (limit &&& 0x000F0000) <<< (48 - 16) = (field limit 16 4 % 2 ^ 4) <<< 48 :=
    masked_eq limit 16 4 32
  have h7 : (base &&& 0xFF000000) <<< (56 - 24) = (field base 24 8 % 2 ^ 8) <<< 56 :=
    masked_eq base 24 8 32
  simp only [makeGdte, gdteParts, pack, h1, h2, h3, h4, h5, h6, h7, Nat.or_zero, Nat.lor_assoc]

theorem decode_makeGdte (base limit access flags : ℕ) :
    Descriptor.decode (makeGdte base limit access flags) =
      ⟨base % 2 ^ 32, limit % 2 ^ 20, access % 2 ^ 8, flags % 2 ^ 4⟩ := by
  have hparts : (gdteParts base limit access flags).Pairwise Part.Apart := by
    simp [gdteParts, Part.Apart]
  have hpart : ∀ p ∈ gdteParts base limit access flags,
      field (makeGdte base limit access flags) p.lo p.width = p.value % 2 ^ p.width := by
    intro p hp
    rw [makeGdte_eq]
    exact field_pack hparts hp
  simp only [gdteParts, List.forall_mem_cons, List.not_mem_nil, false_imp_iff, implies_true, and_true] at hpart
  obtain ⟨h1, h2, h3, h4, h5, h6, h7⟩ := hpart
  rw [Descriptor.decode, h1, h2, h3, h4, h5, h6, h7]
  have hbase := field_zero_add base 16 8
  have hbase' := field_zero_add base 24 8
  have hlimit := field_zero_add limit 16 4
  have hlt := field_lt base 16 8
  have hlt' := field_lt base 24 8
  have hlt'' := field_lt limit 16 4
  congr 1 <;> omega

/-! ### `init_gdt` -/

/-- Two ranges of addresses that do not overlap. -/
def Apart (a n b k : ℕ) : Prop := a + n ≤ b ∨ b + k ≤ a

/-- The static objects are mapped, apart from each other. -/
structure Statics.Placed (st : Statics) : Prop where
  gdt : Direct st.gdt 56
  tss : Direct st.tss 104
  ist1 : Direct st.ist1 4096
  idt : Direct st.idt 4096
  isrTable : Direct st.isrTable 2048
  label : Direct st.label 1
  gdt_tss : Apart st.gdt 56 st.tss 104
  gdt_ist1 : Apart st.gdt 56 st.ist1 4096
  gdt_idt : Apart st.gdt 56 st.idt 4096
  gdt_isrTable : Apart st.gdt 56 st.isrTable 2048
  tss_ist1 : Apart st.tss 104 st.ist1 4096
  tss_idt : Apart st.tss 104 st.idt 4096
  tss_isrTable : Apart st.tss 104 st.isrTable 2048
  ist1_idt : Apart st.ist1 4096 st.idt 4096
  idt_isrTable : Apart st.idt 4096 st.isrTable 2048

/-- The bytes of the kernel's descriptors. -/
def kernelSpan (st : Statics) : Set ℕ := Set.Ico (st.gdt + 8) (st.gdt + 24)

/-- The bytes of the TSS, and of its descriptor. -/
def tssSpan (st : Statics) : Set ℕ :=
  Set.Ico st.tss (st.tss + 104) ∪ Set.Ico (st.gdt + 40) (st.gdt + 56)

/-- The bytes of the GDT and of the TSS. -/
def tableSpan (st : Statics) : Set ℕ := Set.Ico st.gdt (st.gdt + 56) ∪ Set.Ico st.tss (st.tss + 104)

/-- A segment of 64-bit code. -/
def flatCode (access : ℕ) : Descriptor := ⟨0, 0xFFFFF, access, 0xA⟩

/-- A segment of data, or a stack. -/
def flatData (access : ℕ) : Descriptor := ⟨0, 0xFFFFF, access, 0xC⟩

/-- The stack for entries from user mode, and what is left of the TSS. -/
def taskState (st : Statics) (rsp0 : ℕ) : TaskState :=
  ⟨Function.update (fun _ => 0) 0 rsp0, Function.update (fun _ => 0) 0 (wrap (st.ist1 + 4096)), 0xFFFF⟩

/-- The tables as the processor has to find them, with `rsp0` as the stack for entries from user mode. The segments of
the kernel are marked as accessed; those for users may be. -/
structure Loaded (st : Statics) (rsp0 : ℕ) (t : TableRegs) (r : Ram) : Prop where
  gdtBase : t.gdtBase = st.gdt
  gdtLimit : t.gdtLimit = 55
  kernelCode : Descriptor.decode (r.word (st.gdt + 8)) = flatCode 0x9B
  kernelData : Descriptor.decode (r.word (st.gdt + 16)) = flatData 0x93
  userCode : Descriptor.decode (r.word (st.gdt + 24) ||| 2 ^ 40) = flatCode 0xFB
  userData : Descriptor.decode (r.word (st.gdt + 32) ||| 2 ^ 40) = flatData 0xF3
  tssBase : t.tssBase = st.tss
  tssLimit : t.tssLimit = 103
  task : TaskState.load r st.tss = taskState st rsp0

theorem storeWidth_eq (h : Direct a n) (hn : 0 < n) : r.storeWidth n a v = .ok (r.putWidth n a v) := by
  rw [Ram.storeWidth, if_pos (h.canonical hn), h.wrap_eq hn]

theorem wrote_putWidth {S : Set ℕ} (hS : Set.Ico a (a + n) ⊆ S) : Wrote r (r.putWidth n a v) S := by
  refine ⟨fun x hx => Memory.store_of_notMem ?_, [(a, n)], rfl, by simpa using hS⟩
  by_contra hmem
  exact hx (hS ⟨by omega, by omega⟩)

theorem Wrote.thenPut {S : Set ℕ} (h : Wrote r r' S) (hS : Set.Ico a (a + n) ⊆ S) :
    Wrote r (r'.putWidth n a v) S := h.trans (wrote_putWidth hS)

theorem makeGdte_lt (base limit access flags : ℕ) : makeGdte base limit access flags < 2 ^ 64 := by
  rw [makeGdte_eq]
  exact pack_lt (by simp [gdteParts])

def tssGdte (st : Statics) : ℕ := makeGdte (st.tss &&& 0xFFFFFFFF) (sizeofTss - 1) 0x89 0

theorem decode_tssGdte (st : Statics) :
    Descriptor.decode (tssGdte st) = ⟨st.tss % 2 ^ 32, 103, 0x89, 0⟩ := by
  have hlow : st.tss &&& 0xFFFFFFFF = st.tss % 2 ^ 32 := Nat.and_two_pow_sub_one_eq_mod st.tss 32
  rw [tssGdte, decode_makeGdte, hlow, Nat.mod_mod]
  rfl

theorem ltr_eq (hgdt : Direct t.gdtBase 56) (hlimit : t.gdtLimit = 55) (htss : st.tss < 2 ^ 64)
    (hlow : r.word (t.gdtBase + 40) = tssGdte st)
    (hhigh : r.word (t.gdtBase + 48) = makeSystemGdteHigh st.tss) :
    ltr t (makeSegmentSelector 5 0 0) r =
      .ok ({ t with tssLimit := 103, tssBase := st.tss }, r.put (t.gdtBase + 40) (tssGdte st ||| 2 ^ 41)) := by
  have hsel : makeSegmentSelector 5 0 0 = 40 := by decide
  have hdirect : Direct (t.gdtBase + 40) 8 := hgdt.sub (by omega) (by omega)
  have hdirect' : Direct (t.gdtBase + 40 + 8) 8 := hgdt.sub (by omega) (by omega)
  have hbase : st.tss % 2 ^ 32 + 2 ^ 32 * (makeSystemGdteHigh st.tss % 2 ^ 32) = st.tss := by
    have hmask : makeSystemGdteHigh st.tss = st.tss / 2 ^ 32 % 2 ^ 32 := by
      rw [makeSystemGdteHigh, Nat.shiftRight_eq_div_pow]
      exact Nat.and_two_pow_sub_one_eq_mod _ 32
    rw [hmask]
    omega
  have havailable : ¬ (0x89 % 32 ≠ 9 ∨
      ¬ (⟨st.tss % 2 ^ 32, 103, 0x89, 0⟩ : Descriptor).present = true ∨ t.gdtLimit < 40 + 15) := by
    have hbit : (0x89 : ℕ).testBit 7 = true := by decide
    simp [Descriptor.present, hbit, hlimit]
  have hdiv : 40 / 8 * 8 = 40 := rfl
  have hfound := descriptor_eq (r := r) (by rw [hlimit]; exact hgdt)
    (show Selects t 40 by unfold Selects; omega)
  rw [hsel, ltr, hfound, ok_bind, hdiv, hdirect.load, ok_bind,
    hdirect'.load, ok_bind, hlow, Nat.add_assoc, hhigh, decode_tssGdte]
  dsimp only
  rw [if_neg havailable, hdirect.store, ok_bind, pure_eq, hbase]

theorem taskState_eq {rsp0 : ℕ} (hrsp0 : r.word (st.tss + 4) = rsp0)
    (hist1 : r.word (st.tss + 36) = wrap (st.ist1 + 4096))
    (hiomap : Memory.load r.bytes (st.tss + 102) 2 = 0xFFFF)
    (hrest : ∀ k < 11, k ≠ 0 → k ≠ 3 → k ≠ 4 → r.word (st.tss + 4 + 8 * k) = 0) :
    TaskState.load r st.tss = taskState st rsp0 := by
  have hrsp : ∀ i : Fin 3, r.word (st.tss + 4 + 8 * i) = Function.update (fun _ => 0) 0 rsp0 i := by
    intro i
    by_cases hi : i = 0
    · subst hi
      rw [Function.update_self]
      exact hrsp0
    · rw [Function.update_of_ne hi]
      have hpos : (i : ℕ) ≠ 0 := fun h => hi (Fin.ext h)
      exact hrest i (by omega) hpos (by omega) (by omega)
  have hist : ∀ i : Fin 7, r.word (st.tss + 36 + 8 * i) =
      Function.update (fun _ => 0) 0 (wrap (st.ist1 + 4096)) i := by
    intro i
    by_cases hi : i = 0
    · subst hi
      rw [Function.update_self]
      exact hist1
    · rw [Function.update_of_ne hi]
      have hpos : (i : ℕ) ≠ 0 := fun h => hi (Fin.ext h)
      have hword := hrest (4 + i) (by omega) (by omega) (by omega) (by omega)
      rw [Nat.mul_add, ← Nat.add_assoc] at hword
      exact hword
  rw [TaskState.load, taskState, hiomap, funext hrsp, funext hist]

theorem gdt_word {k : ℕ} (hp : st.Placed) (h : Wrote r r' (tssSpan st)) (hk : k < 5) :
    r'.word (st.gdt + 8 * k) = r.word (st.gdt + 8 * k) := by
  refine h.word (Set.disjoint_left.mpr fun x hx hx' => ?_)
  have hapart := hp.gdt_tss
  unfold Apart at hapart
  obtain ⟨h1, h2⟩ := hx
  rcases hx' with ⟨h3, h4⟩ | ⟨h3, h4⟩ <;> omega

theorem taskState_congr (h : ∀ x, a ≤ x → x < a + 104 → r'.bytes x = r.bytes x) :
    TaskState.load r' a = TaskState.load r a := by
  have hword : ∀ k, k + 8 ≤ 104 → r'.word (a + k) = r.word (a + k) := fun k hk =>
    Ram.word_congr fun x h1 h2 => h x (by omega) (by omega)
  have hrsp : ∀ i : Fin 3, r'.word (a + 4 + 8 * i) = r.word (a + 4 + 8 * i) := fun i => by
    rw [Nat.add_assoc]
    exact hword _ (by omega)
  have hist : ∀ i : Fin 7, r'.word (a + 36 + 8 * i) = r.word (a + 36 + 8 * i) := fun i => by
    rw [Nat.add_assoc]
    exact hword _ (by omega)
  rw [TaskState.load, TaskState.load, funext hrsp, funext hist,
    load_congr fun x h1 h2 => h x (by omega) (by omega)]

theorem initTss_spec (hp : st.Placed) (r : Ram) : ∃ r', initTss st r = .ok r' ∧
    TaskState.load r' st.tss = taskState st 0 ∧ Wrote r r' (Set.Ico st.tss (st.tss + 104)) := by
  obtain ⟨r₁, hclear, hbytes, hwrote⟩ := memset_spec (r := r) (v := 0) hp.tss
  have hdirect : ∀ k n, k + n ≤ 104 → Direct (st.tss + k) n := fun k n hkn =>
    hp.tss.sub (Nat.le_add_right _ _) (by omega)
  have hin : ∀ k n, k + n ≤ 104 →
      Set.Ico (st.tss + k) (st.tss + k + n) ⊆ Set.Ico st.tss (st.tss + 104) := fun k n hkn =>
    Set.Ico_subset_Ico (Nat.le_add_right _ _) (by omega)
  have hzero : ∀ k, k + 8 ≤ 104 → r₁.word (st.tss + k) = 0 := by
    intro k hk
    rw [Ram.word, hbytes]
    exact load_fill_zero (Nat.le_add_right _ _) (by omega)
  obtain ⟨r₂, hr₂⟩ : ∃ x, x = r₁.put (st.tss + 4) 0 := ⟨_, rfl⟩
  obtain ⟨r₃, hr₃⟩ : ∃ x, x = r₂.put (st.tss + 36) (wrap (st.ist1 + 4096)) := ⟨_, rfl⟩
  have hword : ∀ k n, k + n ≤ 102 →
      load (r₃.putWidth 2 (st.tss + 102) 0xFFFF).bytes (st.tss + k) n = load r₃.bytes (st.tss + k) n :=
    fun k n hkn => load_store_of_disjoint (by omega)
  refine ⟨r₃.putWidth 2 (st.tss + 102) 0xFFFF, ?_, ?_, ?_⟩
  · rw [initTss, hclear, ok_bind, (hdirect 4 8 (by norm_num)).store, ok_bind,
      (hdirect 36 8 (by norm_num)).store, ok_bind, storeWidth_eq (hdirect 102 2 (by norm_num)) (by norm_num),
      hr₃, hr₂]
  · refine taskState_eq ?_ ?_ (load_store_self (by norm_num)) fun k hk h0 h3 h4 => ?_
    · rw [Ram.word, hword 4 8 (by norm_num)]
      change r₃.word (st.tss + 4) = 0
      rw [hr₃, Ram.word_put_of_disjoint (by omega), hr₂, Ram.word_put_self (by norm_num)]
    · rw [Ram.word, hword 36 8 (by norm_num)]
      change r₃.word (st.tss + 36) = _
      rw [hr₃, Ram.word_put_self (wrap_lt _)]
    · rw [Nat.add_assoc, Ram.word, hword (4 + 8 * k) 8 (by omega)]
      change r₃.word (st.tss + (4 + 8 * k)) = 0
      rw [hr₃, Ram.word_put_of_disjoint (by omega), hr₂, Ram.word_put_of_disjoint (by omega),
        hzero _ (by omega)]
  · have hwrote₂ : Wrote r r₂ (Set.Ico st.tss (st.tss + 104)) := by
      rw [hr₂]
      exact hwrote.trans (Wrote.put _ _ (hin 4 8 (by norm_num)))
    have hwrote₃ : Wrote r r₃ (Set.Ico st.tss (st.tss + 104)) := by
      rw [hr₃]
      exact hwrote₂.trans (Wrote.put _ _ (hin 36 8 (by norm_num)))
    exact hwrote₃.trans (wrote_putWidth (hin 102 2 (by norm_num)))

theorem gdtStatic_decode (hp : st.Placed) (hstatic : Words r.bytes st.gdt gdtStatic)
    (h : Wrote r r' (tssSpan st)) :
    Descriptor.decode (r'.word (st.gdt + 8)) = flatCode 0x9A ∧
      Descriptor.decode (r'.word (st.gdt + 16)) = flatData 0x92 ∧
      Descriptor.decode (r'.word (st.gdt + 24)) = flatCode 0xFA ∧
      Descriptor.decode (r'.word (st.gdt + 32)) = flatData 0xF2 := by
  have hword : ∀ k < 5, r'.word (st.gdt + 8 * k) = gdtStatic.getD k 0 := by
    intro k hk
    have hlen : k < gdtStatic.length := Nat.lt_trans hk (by decide)
    rw [gdt_word hp h hk, Ram.word, hstatic.get hlen, List.getD_eq_getElem _ _ hlen]
    rfl
  have h1 : r'.word (st.gdt + 8) = _ := hword 1 (by norm_num)
  have h2 : r'.word (st.gdt + 16) = _ := hword 2 (by norm_num)
  have h3 : r'.word (st.gdt + 24) = _ := hword 3 (by norm_num)
  have h4 : r'.word (st.gdt + 32) = _ := hword 4 (by norm_num)
  rw [h1, h2, h3, h4]
  exact ⟨decode_makeGdte _ _ _ _, decode_makeGdte _ _ _ _, decode_makeGdte _ _ _ _,
    decode_makeGdte _ _ _ _⟩

/-! ### The segment registers -/

/-- The machine at the label in `init_gdt`. -/
def Machine.reloaded (st : Statics) (ram : Ram) (c : Machine) : Machine :=
  { c with
    regs := Function.update c.regs .rax (BitVec.ofNat 64 st.label)
    rip := BitVec.ofNat 64 st.label
    cs := 8
    ss := 16
    data := fun _ => 16
    ram := ram }

section kernelSegments
variable {c : Machine} {access sp : ℕ}

theorem Statics.Placed.gdtr (hp : st.Placed) (hbase : t.gdtBase = st.gdt) (hlimit : t.gdtLimit = 55) :
    Direct t.gdtBase (t.gdtLimit + 1) := by
  rw [hbase, hlimit]
  exact hp.gdt

variable (hp : st.Placed) (hbase : t.gdtBase = st.gdt) (hlimit : t.gdtLimit = 55) (hcpl : c.cpl = 0)
include hp hbase hlimit hcpl

theorem loadData_eq (haccess : access = 0x92 ∨ access = 0x93)
    (hdata : Descriptor.decode (c.ram.word (st.gdt + 16)) = flatData access) (dst : DataReg) :
    loadData t dst kernelDataSelector c = .ok { c with
      data := Function.update c.data dst 16
      ram := marked c.ram (st.gdt + 16) } := by
  have hsel : kernelDataSelector = 16 := by decide
  have hfits : Descriptor.fitsData (max c.cpl (16 % 4)) (flatData access) = true := by
    rw [hcpl]
    rcases haccess with rfl | rfl <;> decide
  have hload := loadSegment_eq (hp.gdtr hbase hlimit) (show Selects t 16 by unfold Selects; omega)
    (by rw [hbase]; exact hdata) hfits
  rw [hsel, loadData, if_neg (by norm_num), hload, ok_bind, hbase]
  rfl

theorem loadStack_eq (hdata : Descriptor.decode (c.ram.word (st.gdt + 16)) = flatData 0x93) :
    loadStack t kernelDataSelector c = .ok { c with ss := 16 } := by
  have hsel : kernelDataSelector = 16 := by decide
  have hfits : Descriptor.fitsStack 0 (flatData 0x93) = true := by decide
  have hload := loadSegment_eq (hp.gdtr hbase hlimit) (show Selects t 16 by unfold Selects; omega)
    (by rw [hbase]; exact hdata) hfits
  have hsame : marked c.ram (st.gdt + 16) = c.ram := by
    rw [marked_eq_self, hdata]
    decide
  have hdiv : 16 / 8 * 8 = 16 := rfl
  rw [hdiv, hbase, hsame] at hload
  rw [hsel, loadStack, hcpl, stackSegment, if_neg (by norm_num), if_neg (by norm_num), hload, ok_bind]
  rfl

theorem lretq_eq (hsp : c.regs .rsp = BitVec.ofNat 64 sp) (hstack : Direct sp 16)
    (hrip : c.ram.word sp = st.label) (hcs : c.ram.word (sp + 8) = 8)
    (hcode : Descriptor.decode (c.ram.word (st.gdt + 8)) = flatCode 0x9A) :
    lretq t c = .ok { c with
      regs := Function.update c.regs .rsp (BitVec.ofNat 64 (sp + 16))
      rip := BitVec.ofNat 64 st.label
      cs := 8
      ram := marked c.ram (st.gdt + 8) } := by
  have hfits : Descriptor.fitsCode 0 (flatCode 0x9A) = true := by decide
  have hload := loadSegment_eq (hp.gdtr hbase hlimit) (show Selects t 8 by unfold Selects; omega)
    (by rw [hbase]; exact hcode) hfits
  have hcanonical : Canonical (BitVec.ofNat 64 st.label).toNat := by
    have h := hp.label.canonical (by norm_num)
    rwa [hp.label.wrap_eq (by norm_num), ← toNat_ofNat_of_lt (direct_lt hp.label (by norm_num))] at h
  have hread : c.read (sp + 8) = .ok 8 := by
    rw [read_eq (hstack.sub (by omega) (by omega)), hcs]
    rfl
  have hsel : ((8 : BitVec 64).setWidth 16).toNat = 8 := by decide
  rw [lretq, hsp, toNat_ofNat_of_lt (direct_lt hstack (by norm_num)), read_eq (hstack.mono (by norm_num)), ok_bind,
    hread, ok_bind, hrip]
  dsimp only
  rw [hsel, hcpl, if_neg (by simpa using hcanonical), hload, ok_bind, BitVec.ofNat_add, hbase]
  rfl

theorem reloadData_spec (hdata : Descriptor.decode (c.ram.word (st.gdt + 16)) = flatData 0x92) :
    reloadData t c = .ok { c with
      ss := 16
      data := fun _ => 16
      ram := marked c.ram (st.gdt + 16) } := by
  obtain ⟨r, hr⟩ : ∃ x, x = marked c.ram (st.gdt + 16) := ⟨_, rfl⟩
  have hmark : Descriptor.decode (r.word (st.gdt + 16)) = flatData 0x93 := by
    rw [hr, marked_word, decode_mark, hdata]
    rfl
  have hsame : marked r (st.gdt + 16) = r := by
    rw [marked_eq_self, hmark]
    decide
  obtain ⟨m, hm⟩ : ∃ m : BitVec 16 → (DataReg → BitVec 16) → Machine,
      m = fun ss data => ⟨c.regs, c.rip, c.cs, c.rflags, ss, data, r⟩ := ⟨_, rfl⟩
  have hfirst : loadData t .ds kernelDataSelector c = .ok (m c.ss (Function.update c.data .ds 16)) := by
    rw [loadData_eq hp hbase hlimit hcpl (Or.inl rfl) hdata, ← hr, hm]
  have hstack : ∀ data, loadStack t kernelDataSelector (m c.ss data) = .ok (m 16 data) := fun data => by
    rw [hm]
    exact loadStack_eq hp hbase hlimit (c := ⟨c.regs, c.rip, c.cs, c.rflags, c.ss, data, r⟩) hcpl hmark
  have hload : ∀ dst data, loadData t dst kernelDataSelector (m 16 data) =
      .ok (m 16 (Function.update data dst 16)) := fun dst data => by
    rw [hm]
    refine (loadData_eq hp hbase hlimit (c := ⟨c.regs, c.rip, c.cs, c.rflags, 16, data, r⟩) hcpl (Or.inr rfl)
      hmark dst).trans ?_
    dsimp only
    rw [hsame]
  have hall : Function.update (Function.update (Function.update (Function.update c.data .ds 16) .es 16) .fs 16)
      .gs 16 = fun _ => 16 := by
    funext dst
    cases dst <;> rfl
  rw [reloadData, hfirst, ok_bind, hstack, ok_bind, hload, ok_bind, hload, ok_bind, hload, hall, hm, hr]

theorem reloadCode_spec (hsp : c.regs .rsp = BitVec.ofNat 64 (sp + 16)) (hstack : Direct sp 16)
    (hapart : Disjoint (tableSpan st) (Set.Ico sp (sp + 16)))
    (hcode : Descriptor.decode (c.ram.word (st.gdt + 8)) = flatCode 0x9A) :
    reloadCode st t c = .ok { c with
      regs := Function.update c.regs .rax (BitVec.ofNat 64 st.label)
      rip := BitVec.ofNat 64 st.label
      cs := 8
      ram := marked ((c.ram.put (sp + 8) 8).put sp st.label) (st.gdt + 8) } := by
  have hlabel := direct_lt hp.label (by norm_num)
  obtain ⟨regs, hregs⟩ : ∃ x, x = Function.update (Function.update c.regs .rsp (BitVec.ofNat 64 (sp + 8))) .rax
      (BitVec.ofNat 64 st.label) := ⟨_, rfl⟩
  obtain ⟨r, hr⟩ : ∃ x, x = (c.ram.put (sp + 8) 8).put sp st.label := ⟨_, rfl⟩
  have hpushCs : c.push (BitVec.ofNat 64 kernelCodeSelector) = .ok { c with
      regs := Function.update c.regs .rsp (BitVec.ofNat 64 (sp + 8))
      ram := c.ram.put (sp + 8) 8 } := push_eq hsp (hstack.sub (by omega) (by omega))
  have hpushRip : Machine.push (regs .rax) { c with
      regs := regs
      ram := c.ram.put (sp + 8) 8 } = .ok { c with
      regs := Function.update regs .rsp (BitVec.ofNat 64 sp)
      ram := r } := by
    have hrax : (regs .rax).toNat = st.label := by
      rw [hregs, Function.update_self, toNat_ofNat_of_lt hlabel]
    have hrsp : regs .rsp = BitVec.ofNat 64 (sp + 8) := by
      rw [hregs, Function.update_of_ne (by decide), Function.update_self]
    rw [push_eq hrsp (hstack.mono (by norm_num)), hrax, hr]
  have hrip : r.word sp = st.label := by
    rw [hr]
    exact Ram.word_put_self hlabel
  have hcs : r.word (sp + 8) = 8 := by
    rw [hr, Ram.word_put_of_disjoint (by omega)]
    exact Ram.word_put_self (by norm_num)
  have hkept : r.word (st.gdt + 8) = c.ram.word (st.gdt + 8) := by
    have hwrote : Wrote c.ram r (Set.Ico sp (sp + 16)) := by
      rw [hr]
      exact (Wrote.put_within (by omega) (by omega)).trans (Wrote.put_within (le_refl _) (by omega))
    exact hwrote.word (hapart.mono_left fun x hx => Or.inl ⟨by have := hx.1; omega, by have := hx.2; omega⟩)
  have hrsp : Function.update regs .rsp (BitVec.ofNat 64 sp) .rsp = BitVec.ofNat 64 sp := Function.update_self _ _ _
  have hjump := lretq_eq hp hbase hlimit
    (c := { c with
      regs := Function.update regs .rsp (BitVec.ofNat 64 sp)
      ram := r }) hcpl hrsp hstack hrip hcs (by dsimp only; rw [hkept, hcode])
  have hback : Function.update (Function.update regs .rsp (BitVec.ofNat 64 sp)) .rsp (BitVec.ofNat 64 (sp + 16)) =
      Function.update c.regs .rax (BitVec.ofNat 64 st.label) := by
    rw [hregs, Function.update_idem, Function.update_comm (by decide), Function.update_idem, ← hsp,
      Function.update_eq_self]
  rw [reloadCode, hpushCs, ok_bind]
  dsimp only
  rw [Machine.setReg]
  dsimp only
  rw [← hregs, hpushRip, ok_bind, hjump]
  dsimp only
  rw [hback, hr]

theorem reload_spec (hsp : c.regs .rsp = BitVec.ofNat 64 (sp + 16)) (hstack : Direct sp 16)
    (hapart : Disjoint (tableSpan st) (Set.Ico sp (sp + 16)))
    (hcode : Descriptor.decode (c.ram.word (st.gdt + 8)) = flatCode 0x9A)
    (hdata : Descriptor.decode (c.ram.word (st.gdt + 16)) = flatData 0x92) :
    ∃ ram, (reloadData t c >>= reloadCode st t) = .ok (c.reloaded st ram) ∧
      Wrote c.ram ram (kernelSpan st ∪ Set.Ico sp (sp + 16)) ∧
      ram.word (st.gdt + 8) = c.ram.word (st.gdt + 8) ||| 2 ^ 40 ∧
      ram.word (st.gdt + 16) = c.ram.word (st.gdt + 16) ||| 2 ^ 40 := by
  obtain ⟨r₁, hr₁⟩ : ∃ x, x = marked c.ram (st.gdt + 16) := ⟨_, rfl⟩
  obtain ⟨r₂, hr₂⟩ : ∃ x, x = (r₁.put (sp + 8) 8).put sp st.label := ⟨_, rfl⟩
  have hwrote₁ : Wrote c.ram r₁ (Set.Ico (st.gdt + 16) (st.gdt + 24)) := hr₁ ▸ marked_wrote _ _
  have hwrote₂ : Wrote r₁ r₂ (Set.Ico sp (sp + 16)) := by
    rw [hr₂]
    exact (Wrote.put_within (by omega) (by omega)).trans (Wrote.put_within (le_refl _) (by omega))
  have hwrote₃ : Wrote r₂ (marked r₂ (st.gdt + 8)) (Set.Ico (st.gdt + 8) (st.gdt + 16)) := marked_wrote _ _
  have hstacked : ∀ k, k + 8 ≤ 56 → r₂.word (st.gdt + k) = r₁.word (st.gdt + k) := fun k hk =>
    hwrote₂.word (hapart.mono_left fun x hx => Or.inl ⟨by have := hx.1; omega, by have := hx.2; omega⟩)
  have hcode₁ : r₁.word (st.gdt + 8) = c.ram.word (st.gdt + 8) :=
    hwrote₁.word (Set.disjoint_left.mpr fun x hx hx' => by have := hx.2; have := hx'.1; omega)
  refine ⟨marked r₂ (st.gdt + 8), ?_, ?_, ?_, ?_⟩
  · rw [reloadData_spec hp hbase hlimit hcpl hdata, ok_bind, ← hr₁,
      reloadCode_spec hp hbase hlimit (c := { c with
        ss := 16
        data := fun _ => 16
        ram := r₁ }) hcpl hsp hstack hapart (by dsimp only; rw [hcode₁, hcode]), hr₂]
    rfl
  · refine ((hwrote₁.mono fun x hx => Or.inl ?_).trans (hwrote₂.mono Set.subset_union_right)).trans
      (hwrote₃.mono fun x hx => Or.inl ?_)
    · exact ⟨by have := hx.1; omega, hx.2⟩
    · exact ⟨hx.1, by have := hx.2; omega⟩
  · rw [marked_word, hstacked 8 (by norm_num), hcode₁]
  · have hkept : (marked r₂ (st.gdt + 8)).word (st.gdt + 16) = r₂.word (st.gdt + 16) :=
      hwrote₃.word (Set.disjoint_left.mpr fun x hx hx' => by have := hx.1; have := hx'.2; omega)
    rw [hkept, hstacked 16 (by norm_num), hr₁, marked_word]

end kernelSegments

/-- `init_gdt` stores to the TSS, its descriptor, the descriptors of the kernel and two words of the stack. -/
theorem initGdt_spec {sp : ℕ} (hp : st.Placed) (c : Machine) (t : TableRegs) (hcpl : c.cpl = 0)
    (hsp : c.regs .rsp = BitVec.ofNat 64 (sp + 16)) (hstack : Direct sp 16)
    (hapart : Disjoint (tableSpan st) (Set.Ico sp (sp + 16))) (hstatic : Words c.ram.bytes st.gdt gdtStatic) :
    ∃ ram t', initGdt st c t = .ok (c.reloaded st ram, t') ∧ Loaded st 0 t' ram ∧
      Wrote c.ram ram (tssSpan st ∪ kernelSpan st ∪ Set.Ico sp (sp + 16)) := by
  obtain ⟨r₁, htss, htask, hwrote₁⟩ := initTss_spec hp c.ram
  have hsub : ∀ k, 40 ≤ k → k ≤ 48 → Direct (st.gdt + k) 8 := fun k _ h2 =>
    hp.gdt.sub (Nat.le_add_right _ _) (by omega)
  have hin : ∀ k, 40 ≤ k → k ≤ 48 → Set.Ico (st.gdt + k) (st.gdt + k + 8) ⊆ tssSpan st := fun k h1 h2 x hx =>
    Or.inr ⟨by have := hx.1; omega, by have := hx.2; omega⟩
  obtain ⟨r₂, hr₂⟩ : ∃ x, x = r₁.put (st.gdt + 40) (tssGdte st) := ⟨_, rfl⟩
  obtain ⟨r₃, hr₃⟩ : ∃ x, x = r₂.put (st.gdt + 48) (makeSystemGdteHigh st.tss) := ⟨_, rfl⟩
  have hwrote₂ : Wrote c.ram r₂ (tssSpan st) := by
    rw [hr₂]
    exact (hwrote₁.mono Set.subset_union_left).trans (Wrote.put _ _ (hin 40 (by norm_num) (by norm_num)))
  have hwrote₃ : Wrote c.ram r₃ (tssSpan st) := by
    rw [hr₃]
    exact hwrote₂.trans (Wrote.put _ _ (hin 48 (by norm_num) (by norm_num)))
  obtain ⟨hkcode, hkdata, hucode, hudata⟩ := gdtStatic_decode hp hstatic hwrote₃
  -- the segments
  obtain ⟨t₁, ht₁⟩ : ∃ x, x = { t with gdtLimit := 8 * 7 - 1, gdtBase := st.gdt } := ⟨_, rfl⟩
  have hbase : t₁.gdtBase = st.gdt := by rw [ht₁]
  have hlimit : t₁.gdtLimit = 55 := by rw [ht₁]
  obtain ⟨r₄, hreload, hwrote₄, hcode₄, hdata₄⟩ := reload_spec hp hbase hlimit (c := { c with ram := r₃ }) hcpl hsp
    hstack hapart hkcode hkdata
  dsimp only at hwrote₄ hcode₄ hdata₄
  have hkept : ∀ k, 24 ≤ k → k + 8 ≤ 56 → r₄.word (st.gdt + k) = r₃.word (st.gdt + k) := by
    refine fun k h1 h2 => hwrote₄.word (Set.disjoint_left.mpr ?_)
    rintro x ⟨h3, h4⟩ (⟨h5, h6⟩ | hx)
    · omega
    · exact Set.disjoint_left.mp hapart (Or.inl ⟨by omega, by omega⟩) hx
  have hlow : r₄.word (st.gdt + 40) = tssGdte st := by
    rw [hkept 40 (by norm_num) (by norm_num), hr₃, Ram.word_put_of_disjoint (by omega), hr₂]
    exact Ram.word_put_self (makeGdte_lt _ _ _ _)
  have hhigh : r₄.word (st.gdt + 48) = makeSystemGdteHigh st.tss := by
    rw [hkept 48 (by norm_num) (by norm_num), hr₃]
    exact Ram.word_put_self (lt_of_le_of_lt Nat.and_le_right (by norm_num))
  -- the task register
  obtain ⟨r₅, hr₅⟩ : ∃ x, x = r₄.put (st.gdt + 40) (tssGdte st ||| 2 ^ 41) := ⟨_, rfl⟩
  have hbusy : ∀ k, k + 8 ≤ 40 → r₅.word (st.gdt + k) = r₄.word (st.gdt + k) := fun k hk => by
    rw [hr₅, Ram.word_put_of_disjoint (by omega)]
  have htask₅ : TaskState.load r₅ st.tss = taskState st 0 := by
    rw [← htask]
    have hgdt := hp.gdt_tss
    unfold Apart at hgdt
    refine taskState_congr fun x h1 h2 => ?_
    have hspared : x ∉ kernelSpan st ∪ Set.Ico sp (sp + 16) := by
      rintro (⟨h3, h4⟩ | hx)
      · omega
      · exact Set.disjoint_left.mp hapart (Or.inr ⟨h1, h2⟩) hx
    have hmarked : r₅.bytes x = r₄.bytes x := by
      rw [hr₅]
      exact store_of_notMem (by omega)
    rw [hmarked, hwrote₄.frame x hspared, hr₃, hr₂, Ram.put, Ram.put]
    dsimp only
    rw [store_of_notMem (by omega), store_of_notMem (by omega)]
  refine ⟨r₅, { t₁ with tssLimit := 103, tssBase := st.tss }, ?_,
    ⟨hbase, hlimit, ?_, ?_, ?_, ?_, rfl, rfl, htask₅⟩, ?_⟩
  · obtain ⟨c₁, hdata, hcode⟩ := bind_eq_ok.mp hreload
    have hltr := ltr_eq (r := r₄) (hbase ▸ hp.gdt) hlimit (direct_lt hp.tss (by norm_num))
      (hbase ▸ hlow) (hbase ▸ hhigh)
    have haddr : t₁.gdtBase + 40 = st.gdt + 40 := by rw [hbase]
    rw [haddr, ← hr₅] at hltr
    rw [initGdt, htss, ok_bind, (hsub 40 (by norm_num) (by norm_num)).store, ok_bind,
      (hsub 48 (by norm_num) (by norm_num)).store, ok_bind, ← ht₁]
    change (reloadData t₁ { c with ram := (r₁.put (st.gdt + 40) (tssGdte st)).put (st.gdt + 48) _ } >>= _) = _
    rw [← hr₂, ← hr₃, hdata, ok_bind, hcode, ok_bind]
    change (ltr t₁ (makeSegmentSelector 5 0 0) r₄ >>= _) = _
    rw [hltr]
    rfl
  · rw [hbusy 8 (by norm_num), hcode₄, decode_mark, hkcode]
    rfl
  · rw [hbusy 16 (by norm_num), hdata₄, decode_mark, hkdata]
    rfl
  · rw [hbusy 24 (by norm_num), hkept 24 (by norm_num) (by norm_num), decode_mark, hucode]
    rfl
  · rw [hbusy 32 (by norm_num), hkept 32 (by norm_num) (by norm_num), decode_mark, hudata]
    rfl
  · rw [hr₅]
    refine ((hwrote₃.mono fun x hx => Or.inl (Or.inl hx)).trans (hwrote₄.mono ?_)).trans (Wrote.put _ _ ?_)
    · rintro x (hx | hx)
      · exact Or.inl (Or.inr hx)
      · exact Or.inr hx
    · exact fun x hx => Or.inl (Or.inl (hin 40 (by norm_num) (by norm_num) hx))


/-! ### `set_rsp0` -/

/-- Calls of `set_rsp0`, the last one with `rsp0`, and loads of segments, between which the rest of the kernel stores
outside of `K` only. -/
inductive StackSwitches (st : Statics) (t : TableRegs) (K : Set ℕ) (r₀ : Ram) : ℕ → Ram → Prop where
  | start : StackSwitches st t K r₀ 0 r₀
  | set {rsp0 v : ℕ} {r r' : Ram} (h : StackSwitches st t K r₀ rsp0 r) (hv : v < 2 ^ 64)
      (hrun : setRsp0 st v r = .ok r') : StackSwitches st t K r₀ v r'
  | load {rsp0 sel : ℕ} {fits : Descriptor → Bool} {d : Descriptor} {r r' : Ram}
      (h : StackSwitches st t K r₀ rsp0 r) (hrun : loadSegment t fits sel r = .ok (d, r')) :
      StackSwitches st t K r₀ rsp0 r'
  | other {rsp0 : ℕ} {r r' : Ram} (h : StackSwitches st t K r₀ rsp0 r) (hwrote : Wrote r r' Kᶜ) :
      StackSwitches st t K r₀ rsp0 r'

theorem Loaded.frame {rsp0 : ℕ} (h : Loaded st rsp0 t r) (hwrote : Wrote r r' (tableSpan st)ᶜ) :
    Loaded st rsp0 t r' := by
  have hword : ∀ k, k + 8 ≤ 56 → r'.word (st.gdt + k) = r.word (st.gdt + k) := fun k hk =>
    Ram.word_congr fun x h1 h2 => hwrote.frame x fun hx => hx (Or.inl ⟨by omega, by omega⟩)
  have htask : TaskState.load r' st.tss = TaskState.load r st.tss :=
    taskState_congr fun x h1 h2 => hwrote.frame x fun hx => hx (Or.inr ⟨h1, h2⟩)
  exact
    { h with
      kernelCode := by rw [hword 8 (by norm_num)]; exact h.kernelCode
      kernelData := by rw [hword 16 (by norm_num)]; exact h.kernelData
      userCode := by rw [hword 24 (by norm_num)]; exact h.userCode
      userData := by rw [hword 32 (by norm_num)]; exact h.userData
      task := htask.trans h.task }

/-- The first load of a user segment marks it, and other loads do nothing to these tables. -/
theorem Loaded.mark {rsp0 sel : ℕ} {fits : Descriptor → Bool} {d : Descriptor} (h : Loaded st rsp0 t r)
    (hp : st.Placed) (hload : loadSegment t fits sel r = .ok (d, r')) :
    Loaded st rsp0 t r' ∧ Wrote r r' (Set.Ico st.gdt (st.gdt + 56)) := by
  obtain ⟨⟨-, -, hlimit⟩, -, -, hmark⟩ := loadSegment_ok (hp.gdtr h.gdtBase h.gdtLimit) hload
  rw [h.gdtLimit] at hlimit
  rw [h.gdtBase] at hmark
  have hwrote : Wrote r r' (Set.Ico st.gdt (st.gdt + 56)) := by
    rw [hmark]
    exact (marked_wrote _ _).mono (Set.Ico_subset_Ico (Nat.le_add_right _ _) (by omega))
  have hword : ∀ k, r'.word (st.gdt + 8 * k) = r.word (st.gdt + 8 * k) ∨
      r'.word (st.gdt + 8 * k) = r.word (st.gdt + 8 * k) ||| 2 ^ 40 := by
    intro k
    by_cases hk : k = sel / 8
    · have haddr : st.gdt + 8 * k = st.gdt + sel / 8 * 8 := by omega
      rw [hmark, haddr]
      exact Or.inr (marked_word _ _)
    · rw [hmark]
      refine Or.inl ((marked_wrote _ _).word (Set.disjoint_left.mpr fun x hx hx' => ?_))
      obtain ⟨h1, h2⟩ := hx
      obtain ⟨h3, h4⟩ := hx'
      omega
  have hkernel : ∀ k d, Descriptor.decode (r.word (st.gdt + 8 * k)) = d → d.isAccessed = true →
      Descriptor.decode (r'.word (st.gdt + 8 * k)) = d := by
    intro k d hd haccessed
    rw [← hd, isAccessed_decode] at haccessed
    rcases hword k with hk | hk
    · rw [hk, hd]
    · rw [hk, or_mark haccessed, hd]
  have huser : ∀ k, r'.word (st.gdt + 8 * k) ||| 2 ^ 40 = r.word (st.gdt + 8 * k) ||| 2 ^ 40 := by
    intro k
    rcases hword k with hk | hk
    · rw [hk]
    · rw [hk, Nat.or_assoc, Nat.or_self]
  have htask : TaskState.load r' st.tss = TaskState.load r st.tss := by
    have hapart := hp.gdt_tss
    unfold Apart at hapart
    refine taskState_congr fun x h1 h2 => hwrote.frame x ?_
    rintro ⟨h3, h4⟩
    omega
  exact
    ⟨{ h with
      kernelCode := hkernel 1 _ h.kernelCode (by decide)
      kernelData := hkernel 2 _ h.kernelData (by decide)
      userCode := (congrArg Descriptor.decode (huser 3)).trans h.userCode
      userData := (congrArg Descriptor.decode (huser 4)).trans h.userData
      task := htask.trans h.task }, hwrote⟩

theorem Loaded.valid {rsp0 : ℕ} {c : Machine} (h : Loaded st rsp0 t c.ram) (hp : st.Placed) (hcs : c.cs = 8)
    (hss : c.ss = 16) (hrip : Canonical c.rip.toNat) (hrflags : c.rflags &&& flagBits ||| 2 = c.rflags) :
    c.Valid t := by
  have hdir := hp.gdtr h.gdtBase h.gdtLimit
  have hcpl : c.cpl = 0 := by
    rw [Machine.cpl, hcs]
    rfl
  have hcode : Descriptor.decode (c.ram.word (t.gdtBase + 8)) = flatCode 0x9B := by
    rw [h.gdtBase, h.kernelCode]
  have hdata : Descriptor.decode (c.ram.word (t.gdtBase + 16)) = flatData 0x93 := by
    rw [h.gdtBase, h.kernelData]
  have hlimit := h.gdtLimit
  refine ⟨hrip, hrflags, ⟨flatCode 0x9B, ?_⟩, ?_, fun hlevel => ?_⟩
  · have hload := loadSegment_eq hdir (show Selects t 8 by unfold Selects; omega) hcode
      (by decide : Descriptor.fitsCode 0 (flatCode 0x9B) = true)
    have hsame : marked c.ram (t.gdtBase + 8 / 8 * 8) = c.ram := by
      rw [marked_eq_self]
      exact (congrArg Descriptor.isAccessed hcode).trans (by decide)
    rw [hsame] at hload
    rw [hcpl, hcs]
    exact hload
  · have hload := loadSegment_eq hdir (show Selects t 16 by unfold Selects; omega) hdata
      (by decide : Descriptor.fitsStack 0 (flatData 0x93) = true)
    have hsame : marked c.ram (t.gdtBase + 16 / 8 * 8) = c.ram := by
      rw [marked_eq_self]
      exact (congrArg Descriptor.isAccessed hdata).trans (by decide)
    rw [hsame] at hload
    rw [hcpl, hss]
    exact congrArg (fun x => x >>= fun y => Except.ok y.2) hload
  · rw [hcpl] at hlevel
    exact absurd hlevel (lt_irrefl 0)

theorem Loaded.setRsp0 {rsp0 : ℕ} (h : Loaded st rsp0 t r) (hp : st.Placed) (hv : v < 2 ^ 64) :
    ∃ r', setRsp0 st v r = .ok r' ∧ Loaded st v t r' ∧ Wrote r r' (Set.Ico st.tss (st.tss + 104)) := by
  have hdirect : Direct (st.tss + 4) 8 := hp.tss.sub (Nat.le_add_right _ _) (by omega)
  have hapart := hp.gdt_tss
  unfold Apart at hapart
  have hgdt : ∀ k, k + 8 ≤ 56 → (r.put (st.tss + 4) v).word (st.gdt + k) = r.word (st.gdt + k) := fun k hk =>
    Ram.word_put_of_disjoint (by omega)
  have hwrote : Wrote r (r.put (st.tss + 4) v) (Set.Ico st.tss (st.tss + 104)) :=
    Wrote.put_within (Nat.le_add_right _ _) (by omega)
  have htask : TaskState.load (r.put (st.tss + 4) v) st.tss = taskState st v := by
    have hold := h.task
    rw [TaskState.load, taskState, TaskState.mk.injEq] at hold
    obtain ⟨hrsp, hist, hiomap⟩ := hold
    have hset : (r.put (st.tss + 4) v).word (st.tss + 4) = v := Ram.word_put_self hv
    apply taskState_eq hset
    · rw [Ram.word_put_of_disjoint (by omega)]
      exact congrFun hist 0
    · rw [Ram.put]
      dsimp only
      rw [load_store_of_disjoint (by omega), hiomap]
    · intro k hk h0 h3 h4
      rw [Ram.word_put_of_disjoint (by omega)]
      by_cases hlow : k < 3
      · have hword := congrFun hrsp ⟨k, hlow⟩
        rw [Function.update_of_ne fun heq => h0 (congrArg Fin.val heq)] at hword
        exact hword
      · have hword := congrFun hist ⟨k - 4, by omega⟩
        have haddr : st.tss + 36 + 8 * (k - 4) = st.tss + 4 + 8 * k := by omega
        rw [Function.update_of_ne fun heq => by have := congrArg Fin.val heq; dsimp only at this; omega] at hword
        dsimp only at hword
        rw [haddr] at hword
        exact hword
  refine ⟨r.put (st.tss + 4) v, by rw [Cpu.setRsp0, hdirect.store], ?_, hwrote⟩
  exact
    { h with
      kernelCode := by rw [hgdt 8 (by norm_num)]; exact h.kernelCode
      kernelData := by rw [hgdt 16 (by norm_num)]; exact h.kernelData
      userCode := by rw [hgdt 24 (by norm_num)]; exact h.userCode
      userData := by rw [hgdt 32 (by norm_num)]; exact h.userData
      task := htask }

end Fynaos.Cpu
