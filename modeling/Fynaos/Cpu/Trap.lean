import Fynaos.Cpu.Gates

/-!
# Into an interrupt and back

When a vector is raised the processor finds the gate in the IDT, the segment in the GDT and the stack in the TSS, and
pushes what it will need for the way back. The stub of the vector and `isr_common` complete this to a
`struct trap_frame` (`enter_spec`), in the same form whether the processor pushed an error code or not and whatever
mode it was in. `exit_interrupt_service` comes to the machine that a frame describes if this machine may run
(`exit_valid`), and to no other one (`exit_ok`).
-/

namespace Fynaos.Cpu

open Memory

/-- A vector is raised, and its stub runs up to the jump to `interrupt_service`. -/
def enter (t : TableRegs) (vector : ℕ) (cause : Cause) (c : Machine) : Except Halt Machine := do
  let c ← deliver t vector cause c
  run (isr vector ++ isrCommon) c

def exitInterruptService (t : TableRegs) (c : Machine) : Except Halt Machine := do
  let c ← run exitCode c
  iretq t c

/-- The causes for which the stub of a vector is made: where an error code is expected, an exception; and `int` only in
the kernel, for the gates are closed to users. -/
def Cause.Expected (vector : ℕ) (c : Machine) : Cause → Prop
  | .exception _ _ => True
  | .interrupt _ => pushesErrorCode vector = false
  | .software => pushesErrorCode vector = false ∧ c.cpl = 0

/-- The machine that is interrupted, with RF as it is saved. -/
def Machine.suspend (c : Machine) (cause : Cause) : Machine := { c with rflags := cause.savedFlags c.rflags }

/-! ### Trap frames -/

namespace TrapFrame

def of (c : Machine) (vector errcode : BitVec 64) : TrapFrame :=
  ⟨c.regs .r15, c.regs .r14, c.regs .r13, c.regs .r12, c.regs .r11, c.regs .r10, c.regs .r9, c.regs .r8,
    c.regs .rax, c.regs .rbx, c.regs .rcx, c.regs .rdx, c.regs .rsi, c.regs .rdi, c.regs .rbp, vector, errcode,
    c.rip, c.cs.setWidth 64, c.rflags, c.regs .rsp, c.ss.setWidth 64⟩

def regs (f : TrapFrame) : Reg → BitVec 64
  | .rax => f.rax
  | .rbx => f.rbx
  | .rcx => f.rcx
  | .rdx => f.rdx
  | .rsi => f.rsi
  | .rdi => f.rdi
  | .rbp => f.rbp
  | .rsp => f.rsp
  | .r8 => f.r8
  | .r9 => f.r9
  | .r10 => f.r10
  | .r11 => f.r11
  | .r12 => f.r12
  | .r13 => f.r13
  | .r14 => f.r14
  | .r15 => f.r15

/-- The machine that a frame describes, with the rest as it is. -/
def resume (f : TrapFrame) (c : Machine) : Machine :=
  { c with
    regs := f.regs
    rip := f.rip
    cs := f.cs.setWidth 16
    rflags := f.rflags
    ss := f.ss.setWidth 16 }

def tail (f : TrapFrame) : List (BitVec 64) := [f.vector, f.errcode, f.rip, f.cs, f.rflags, f.rsp, f.ss]

end TrapFrame

variable {st : Statics} {t : TableRegs} {c c' : Machine} {cause : Cause} {ram : Ram} {a rsp0 v : ℕ} {f : TrapFrame}
  {errcode vector : BitVec 64}

/-! ### Flags -/

theorem getLsbD_setFlag {flags : BitVec 64} {value : Bool} {bit i : ℕ} (hbit : bit < 64) :
    (setFlag flags bit value).getLsbD i = if i = bit then value else flags.getLsbD i := by
  have hone : (1#64 <<< bit).getLsbD i = decide (i = bit) := by
    rw [BitVec.getLsbD_shiftLeft, BitVec.getLsbD_one, Bool.eq_iff_iff]
    simp only [Bool.and_eq_true, Bool.not_eq_true', decide_eq_true_eq, decide_eq_false_iff_not]
    omega
  unfold setFlag
  cases value
  · rw [if_neg Bool.false_ne_true, BitVec.getLsbD_and, BitVec.getLsbD_not, hone]
    split_ifs with hi
    · simp [hi]
    · by_cases h64 : i < 64
      · simp [hi, h64]
      · simp [BitVec.getLsbD_of_ge flags i (not_lt.mp h64)]
  · rw [if_pos rfl, BitVec.getLsbD_or, hone]
    split_ifs with hi <;> simp [hi]

theorem addFlags_nt (x y flags : BitVec 64) : (addFlags x y flags).getLsbD 14 = flags.getLsbD 14 := by
  rw [addFlags]
  simp (disch := norm_num) only [getLsbD_setFlag]
  rfl

theorem setFlag_valid {flags : BitVec 64} (value : Bool) (h : flags &&& flagBits ||| 2 = flags) :
    setFlag flags 16 value &&& flagBits ||| 2 = setFlag flags 16 value := by
  apply BitVec.eq_of_getLsbD_eq
  intro i hi
  have hbit := congrArg (BitVec.getLsbD · i) h
  simp only [BitVec.getLsbD_or, BitVec.getLsbD_and, getLsbD_setFlag (show 16 < 64 by norm_num)] at hbit ⊢
  split_ifs with hrf
  · rw [hrf]
    cases value <;> decide
  · exact hbit

theorem Machine.Valid.suspend (h : c.Valid t) (cause : Cause) : (c.suspend cause).Valid t := by
  have hrflags : cause.savedFlags c.rflags &&& flagBits ||| 2 = cause.savedFlags c.rflags := by
    have hkept := h.rflags
    have hset := fun value => setFlag_valid value h.rflags
    match cause with
    | .exception true _ | .interrupt true => exact hset true
    | .exception false _ | .interrupt false => exact hkept
    | .software => exact hset false
  exact ⟨h.rip, hrflags, h.code, h.stack, h.data⟩

/-! ### Frames -/

theorem resume_of : (TrapFrame.of c vector errcode).resume c' = { c with
    data := c'.data
    ram := c'.ram } := by
  have hregs : (TrapFrame.of c vector errcode).regs = c.regs := by
    funext r
    cases r <;> rfl
  have hsel : ∀ s : BitVec 16, (s.setWidth 64).setWidth 16 = s := fun s => by
    rw [BitVec.setWidth_setWidth_of_le _ (by norm_num), BitVec.setWidth_eq]
  have hcs : (TrapFrame.of c vector errcode).cs.setWidth 16 = c.cs := hsel c.cs
  have hss : (TrapFrame.of c vector errcode).ss.setWidth 16 = c.ss := hsel c.ss
  rw [TrapFrame.resume, hregs, hcs, hss]
  rfl

theorem load_of_words (h : Words ram.bytes a ((restored.map f.regs ++ f.tail).map BitVec.toNat)) :
    TrapFrame.load ram a = f := by
  have hfield : ∀ i < 22, BitVec.ofNat 64 (ram.word (a + 8 * i)) = (restored.map f.regs ++ f.tail).getD i 0 := by
    intro i hi
    have hlen : i < ((restored.map f.regs ++ f.tail).map BitVec.toNat).length := hi
    have hlen' : i < (restored.map f.regs ++ f.tail).length := hi
    rw [Ram.word, h.get hlen, List.get_eq_getElem, List.getElem_map, List.getD_eq_getElem _ _ hlen',
      BitVec.ofNat_toNat, BitVec.setWidth_eq]
  rw [TrapFrame.load]
  simp only [hfield, Nat.reduceLT]
  rfl

theorem TrapFrame.load_congr {r r' : Ram} (h : ∀ x ∈ Set.Ico a (a + 176), r'.bytes x = r.bytes x) :
    TrapFrame.load r' a = TrapFrame.load r a := by
  have hword : ∀ i < 22, r'.word (a + 8 * i) = r.word (a + 8 * i) := fun i hi =>
    Ram.word_congr fun x h1 h2 => h x ⟨by omega, by omega⟩
  rw [TrapFrame.load, TrapFrame.load]
  simp only [hword, Nat.reduceLT]

theorem words_of_load (ram : Ram) (a : ℕ) : Words ram.bytes a
    (((restored.map (TrapFrame.load ram a).regs) ++ (TrapFrame.load ram a).tail).map BitVec.toNat) := by
  have hword : ∀ i, load ram.bytes (a + 8 * i) 8 = (BitVec.ofNat 64 (ram.word (a + 8 * i))).toNat := fun i =>
    (toNat_ofNat_of_lt (Ram.word_lt ram _)).symm
  exact ⟨hword 0, hword 1, hword 2, hword 3, hword 4, hword 5, hword 6, hword 7, hword 8, hword 9, hword 10,
    hword 11, hword 12, hword 13, hword 14, hword 15, hword 16, hword 17, hword 18, hword 19, hword 20, hword 21,
    trivial⟩

/-! ### The way back -/

theorem iretq_spec (hsp : c.regs .rsp = BitVec.ofNat 64 (a + 136)) (hdir : Direct a 176)
    (f : TrapFrame) (hf : TrapFrame.load c.ram a = f) :
    iretq t c = returnTo t f.rip (f.cs.setWidth 16) f.rflags f.rsp (f.ss.setWidth 16) c := by
  have hread : ∀ i < 22, c.read (a + 8 * i) = .ok (BitVec.ofNat 64 (c.ram.word (a + 8 * i))) := fun i hi =>
    read_eq (hdir.sub (Nat.le_add_right _ _) (by omega))
  have hlt : a + 136 < 2 ^ 64 := by
    have hend := hdir.2
    omega
  have hrip : c.read (a + 136) = .ok f.rip := hf ▸ hread 17 (by norm_num)
  have hcs : c.read (a + 136 + 8) = .ok f.cs := hf ▸ hread 18 (by norm_num)
  have hflags : c.read (a + 136 + 16) = .ok f.rflags := hf ▸ hread 19 (by norm_num)
  have hrsp : c.read (a + 136 + 24) = .ok f.rsp := hf ▸ hread 20 (by norm_num)
  have hss : c.read (a + 136 + 32) = .ok f.ss := hf ▸ hread 21 (by norm_num)
  rw [iretq, hsp, toNat_ofNat_of_lt hlt, hrip, ok_bind, hcs, ok_bind, hflags, ok_bind, hrsp, ok_bind, hss, ok_bind]

theorem exit_spec (hrdi : c.regs .rdi = BitVec.ofNat 64 a) (hdir : Direct a 176) :
    ∃ c₁ f, f = TrapFrame.load c.ram a ∧
      exitInterruptService t c = returnTo t f.rip (f.cs.setWidth 16) f.rflags f.rsp (f.ss.setWidth 16) c₁ ∧
      (∀ rflags, c₁.returned f.rip (f.cs.setWidth 16) rflags f.rsp (f.ss.setWidth 16) =
        { f.resume c with rflags := rflags }) ∧
      c₁.ram = c.ram ∧ c₁.cpl = c.cpl ∧ c₁.rflags.getLsbD 14 = c.rflags.getLsbD 14 := by
  obtain ⟨f, hf⟩ : ∃ f, TrapFrame.load c.ram a = f := ⟨_, rfl⟩
  have hwords : Words c.ram.bytes a (restored.map fun r => (f.regs r).toNat) := by
    have hall := words_of_load c.ram a
    rw [hf, List.map_append, List.map_map] at hall
    exact (words_append.mp hall).1
  obtain ⟨regs, hpops, hend, hregs⟩ := run_pops (c := c.setReg .rsp (BitVec.ofNat 64 a)) f.regs
    (by decide : Reg.rsp ∉ restored) (by simp) (hdir.mono (by decide)) hwords
  have hpops' : run (restored.map .pop) (c.setReg .rsp (BitVec.ofNat 64 a)) = .ok { c with regs := regs } := hpops
  have hlen : 8 * restored.length = 120 := rfl
  obtain ⟨rflags, hadd, hnt⟩ : ∃ rflags, exec { c with regs := regs } (.addImm 16 .rsp) = .ok { c with
      regs := Function.update regs .rsp (BitVec.ofNat 64 (a + 136))
      rflags := rflags } ∧ rflags.getLsbD 14 = c.rflags.getLsbD 14 := by
    refine ⟨addFlags (regs .rsp) 16 c.rflags, ?_, addFlags_nt _ _ _⟩
    have hsum : BitVec.ofNat 64 (a + 120) + BitVec.ofNat 64 16 = BitVec.ofNat 64 (a + 136) := by
      rw [← BitVec.ofNat_add]
    rw [exec]
    dsimp only
    rw [hend, hlen, hsum, pure_eq]
    rfl
  have hrun : run exitCode c = .ok { c with
      regs := Function.update regs .rsp (BitVec.ofNat 64 (a + 136))
      rflags := rflags } := by
    rw [exitCode, run_append, run_append, run_cons, exec, hrdi, pure_eq, ok_bind, run_nil, ok_bind, hpops', ok_bind,
      run_cons, hadd, ok_bind, run_nil]
  have hfinal : Function.update (Function.update regs .rsp (BitVec.ofNat 64 (a + 136))) .rsp f.rsp = f.regs := by
    funext r
    rw [Function.update_idem]
    by_cases hr : r = .rsp
    · subst hr
      rw [Function.update_self]
      rfl
    · have hmem : r ∈ restored := by
        cases r <;> first | exact absurd rfl hr | decide
      rw [Function.update_of_ne hr, hregs r hr, if_pos hmem]
  refine ⟨{ c with
      regs := Function.update regs .rsp (BitVec.ofNat 64 (a + 136))
      rflags := rflags }, f, hf.symm, ?_, fun rflags => ?_, rfl, rfl, hnt⟩
  · rw [exitInterruptService, hrun, ok_bind]
    exact iretq_spec (Function.update_self Reg.rsp _ regs) hdir f hf
  · rw [Machine.returned, TrapFrame.resume]
    dsimp only
    rw [hfinal]

theorem exit_valid (hrdi : c.regs .rdi = BitVec.ofNat 64 a) (hdir : Direct a 176) (hcpl : c.cpl = 0)
    (hnt : c.rflags.getLsbD 14 = false) (h : ((TrapFrame.load c.ram a).resume c).Valid t) :
    exitInterruptService t c = .ok ((TrapFrame.load c.ram a).resume c) := by
  obtain ⟨c₁, f, hf, hexit, hreturned, -, hcpl₁, hnt₁⟩ := exit_spec (t := t) hrdi hdir
  have hsame := hreturned f.rflags
  rw [← hf] at h ⊢
  rw [hexit, returnTo_valid (hcpl₁.trans hcpl) (hnt₁.trans hnt) (by rw [hsame]; exact h), hsame]
  rfl

/-- Whatever `exit_interrupt_service` comes to is what the frame says, apart from flags that are fixed and from data
segments that the level may not use. -/
theorem exit_ok (hrdi : c.regs .rdi = BitVec.ofNat 64 a) (hdir : Direct a 176) (hcpl : c.cpl = 0)
    (hgdt : Direct t.gdtBase (t.gdtLimit + 1)) (h : exitInterruptService t c = .ok c') :
    c' = { (TrapFrame.load c.ram a).resume c with
        rflags := (TrapFrame.load c.ram a).rflags &&& flagBits ||| 2
        data := c'.data
        ram := c'.ram } ∧ Wrote c.ram c'.ram (gdtSpan t) := by
  obtain ⟨c₁, f, hf, hexit, hreturned, hram₁, hcpl₁, -⟩ := exit_spec (t := t) hrdi hdir
  rw [hexit] at h
  obtain ⟨hc', hwrote⟩ := returnTo_ok hgdt (hcpl₁.trans hcpl) h
  rw [hreturned] at hc'
  rw [hram₁] at hwrote
  rw [← hf]
  exact ⟨hc', hwrote⟩

/-! ### The way in -/

/-- The tables are set up: each vector has a gate to its routine. -/
structure Armed (st : Statics) (isrAddr : ℕ → ℕ) (rsp0 : ℕ) (t : TableRegs) (r : Ram) : Prop where
  loaded : Loaded st rsp0 t r
  idtBase : t.idtBase = st.idt
  idtLimit : t.idtLimit = 4095
  gates : ∀ v < 256, gate st v r = kernelGate (isrAddr v) (ownStack v)

/-- Where the stack of a routine starts. -/
def routineStack (st : Statics) (rsp0 v : ℕ) (c : Machine) : BitVec 64 :=
  if ownStack v ≠ 0 then BitVec.ofNat 64 (wrap (st.ist1 + 4096))
  else if 0 < c.cpl then BitVec.ofNat 64 rsp0
  else c.regs .rsp

/-- What the processor pushes. -/
def backWords (v : ℕ) (cause : Cause) (c : Machine) : List (BitVec 64) :=
  [c.ss.setWidth 64, c.regs .rsp, cause.savedFlags c.rflags, c.cs.setWidth 64, c.rip] ++ cause.pushed v

/-- What the stub of a vector pushes. -/
def stubWords (v : ℕ) : List (BitVec 64) :=
  (if pushesErrorCode v then [] else [0]) ++ [BitVec.ofNat 64 v]

/-- The error code in the frame. -/
def Cause.frameError (v : ℕ) : Cause → BitVec 64
  | .exception _ errcode => if pushesErrorCode v then errcode else 0
  | .interrupt _ | .software => 0

/-- The stub pushes a zero exactly when the processor does not push an error code. -/
theorem words_eq (hcause : cause.Expected v c) :
    cause.pushed v ++ stubWords v = [cause.frameError v, BitVec.ofNat 64 v] := by
  match cause, hcause with
  | .exception _ _, _ =>
    unfold Cause.pushed stubWords Cause.frameError
    split_ifs <;> rfl
  | .interrupt _, hnone | .software, ⟨hnone, _⟩ =>
    unfold Cause.pushed stubWords Cause.frameError
    rw [hnone]
    rfl

theorem run_isr (v : ℕ) (c : Machine) : run (isr v) c = c.pushAll (stubWords v) := by
  have hiff : (v ≠ 8 ∧ v ≠ 10 ∧ v ≠ 11 ∧ v ≠ 12 ∧ v ≠ 13 ∧ v ≠ 14 ∧ v ≠ 17 ∧ v ≠ 21 ∧ v ≠ 29 ∧ v ≠ 30) ↔
      ¬ pushesErrorCode v = true := by
    simp [pushesErrorCode]
  rw [isr, stubWords]
  by_cases hpushes : pushesErrorCode v = true
  · rw [if_neg (hiff.not_left.mpr hpushes), if_pos hpushes]
    rfl
  · rw [if_pos (hiff.mpr hpushes), if_neg hpushes]
    rfl

theorem ownStack_cases (v : ℕ) : ownStack v = 0 ∨ ownStack v = 1 := by
  unfold ownStack
  split_ifs
  · exact Or.inr rfl
  · exact Or.inl rfl

theorem entryStack_eq (h : Loaded st rsp0 t c.ram) {g : Gate} (hist : g.ist = ownStack v) :
    entryStack t g 0 c = routineStack st rsp0 v c := by
  have hist1 : (taskState st rsp0).istAt (1 - 1) = wrap (st.ist1 + 4096) := rfl
  have hrsp0 : (taskState st rsp0).rspAt 0 = rsp0 := rfl
  rw [entryStack, routineStack, h.tssBase, h.task, hist]
  rcases ownStack_cases v with hown | hown
  · rw [hown, if_neg (not_not.mpr rfl), if_neg (not_not.mpr rfl), hrsp0]
  · rw [hown, if_pos Nat.one_ne_zero, if_pos Nat.one_ne_zero, hist1]

theorem fitsGate_kernel (cpl : ℕ) : Descriptor.fitsGate cpl (flatCode 0x9B) = true := by
  have hcode : (flatCode 0x9B).present && (flatCode 0x9B).isCode &&
      (flatCode 0x9B).isLong := by decide
  have hdpl : (flatCode 0x9B).dpl = 0 := by decide
  rw [Descriptor.fitsGate, hcode, hdpl]
  simp

theorem deliver_eq {isrAddr : ℕ → ℕ} (h : Armed st isrAddr rsp0 t c.ram) (hp : st.Placed) (hv : v < 256)
    (hroutine : Canonical (isrAddr v)) (hcause : cause.Expected v c) : deliver t v cause c =
      ((c.setReg .rsp (routineStack st rsp0 v c &&& ~~~15#64)).pushAll (backWords v cause c) >>= fun inner =>
        .ok { inner with
          rip := BitVec.ofNat 64 (isrAddr v)
          cs := 8
          rflags := entryFlags (kernelGate (isrAddr v) (ownStack v)) c.rflags
          ss := if 0 < c.cpl then 0 else c.ss }) := by
  obtain ⟨g, hg⟩ : ∃ g, kernelGate (isrAddr v) (ownStack v) = g := ⟨_, rfl⟩
  have hload : Gate.load c.ram (t.idtBase + 16 * v) = g := by
    rw [h.idtBase, ← hg]
    exact h.gates v hv
  have hgate : g.present = true ∧ g.isRoutine = true ∧ g.selector = 8 ∧ g.offset = isrAddr v ∧
      g.ist = ownStack v ∧ g.dpl = 0 := by
    rw [← hg]
    exact ⟨rfl, rfl, rfl, rfl, rfl, rfl⟩
  obtain ⟨hpresent, hisRoutine, hselector, hoffset, hist, hdpl⟩ := hgate
  have hmay : cause.mayUse g c.cpl = true := by
    match cause, hcause with
    | .exception _ _, _ | .interrupt _, _ => rfl
    | .software, ⟨_, hcpl⟩ => simp [Cause.mayUse, hcpl]
  have hsegment : loadSegment t (Descriptor.fitsGate c.cpl) 8 c.ram =
      .ok (flatCode 0x9B, c.ram) := by
    have hcode : Descriptor.decode (c.ram.word (t.gdtBase + 8 / 8 * 8)) = flatCode 0x9B := by
      rw [h.loaded.gdtBase]
      exact h.loaded.kernelCode
    have hlimit := h.loaded.gdtLimit
    rw [loadSegment_eq (hp.gdtr h.loaded.gdtBase hlimit) (show Selects t 8 by unfold Selects; omega) hcode
      (fitsGate_kernel _), marked_eq_self.mpr (by rw [hcode]; decide)]
  have hlevel : (if (flatCode 0x9B).isConforming = true then c.cpl else (flatCode 0x9B).dpl) = 0 := by
    rw [if_neg (by decide)]
    decide
  rw [deliver]
  dsimp only
  rw [hload, hselector, if_neg (by rw [h.idtLimit, hpresent, hisRoutine, hmay, hoffset]; simp [hroutine]; omega),
    hsegment, ok_bind]
  dsimp only
  rw [hlevel, entryStack_eq h.loaded hist, hg, hoffset]
  rfl

theorem frame_words (hcause : cause.Expected v c) : (saved.map c.regs).reverse ++
    ((stubWords v).reverse ++ (backWords v cause c).reverse) =
      restored.map (TrapFrame.of (c.suspend cause) (BitVec.ofNat 64 v) (cause.frameError v)).regs ++
        (TrapFrame.of (c.suspend cause) (BitVec.ofNat 64 v) (cause.frameError v)).tail := by
  rw [backWords, List.reverse_append, ← List.append_assoc (stubWords v).reverse, ← List.reverse_append,
    words_eq hcause]
  rfl

/-- The machine at the jump to `interrupt_service`, with a frame at `a` that describes the machine `c`. -/
structure Entered (v : ℕ) (cause : Cause) (c : Machine) (a : ℕ) (c' : Machine) : Prop where
  rdi : c'.regs .rdi = BitVec.ofNat 64 a
  rsp : c'.regs .rsp = BitVec.ofNat 64 a
  frame : TrapFrame.load c'.ram a = TrapFrame.of (c.suspend cause) (BitVec.ofNat 64 v) (cause.frameError v)
  cs : c'.cs = 8
  interrupts : c'.rflags.getLsbD 9 = false
  nested : c'.rflags.getLsbD 14 = false
  data : c'.data = c.data
  wrote : Wrote c.ram c'.ram (Set.Ico a (a + 176))

/-- The machine calls `exit_interrupt_service` with the frame at `a`, at the level and with the data segments with which
it came from `c`. -/
structure Leaving (c : Machine) (a : ℕ) (c' : Machine) : Prop where
  rdi : c'.regs .rdi = BitVec.ofNat 64 a
  cpl : c'.cpl = 0
  nested : c'.rflags.getLsbD 14 = false
  data : c'.data = c.data

theorem Entered.leaving (h : Entered v cause c a c') : Leaving c a c' := by
  refine ⟨h.rdi, ?_, h.nested, h.data⟩
  rw [Machine.cpl, h.cs]
  rfl

theorem entryFlags_off {g : Gate} (hg : g.type = interruptGate) (flags : BitVec 64) :
    (entryFlags g flags).getLsbD 9 = false ∧ (entryFlags g flags).getLsbD 14 = false := by
  rw [entryFlags, if_pos hg]
  simp (disch := norm_num) only [getLsbD_setFlag]
  exact ⟨rfl, rfl⟩

/-- From any state of the machine the routine of the vector comes to `interrupt_service` with a frame that describes
this state, on the stack that the vector and the mode ask for. -/
theorem enter_spec {isrAddr : ℕ → ℕ} (h : Armed st isrAddr rsp0 t c.ram) (hp : st.Placed) (hv : v < 256)
    (hroutine : Canonical (isrAddr v)) (hcause : cause.Expected v c) (hdir : Direct a 176)
    (hstack : routineStack st rsp0 v c &&& ~~~15#64 = BitVec.ofNat 64 (a + 176)) :
    ∃ c', enter t v cause c = .ok c' ∧ Entered v cause c a c' := by
  obtain ⟨n, hn⟩ : ∃ n, (backWords v cause c).length = n := ⟨_, rfl⟩
  obtain ⟨k, hk⟩ : ∃ k, (stubWords v).length = k := ⟨_, rfl⟩
  have hlengths : n + k = 7 := by
    have htwo := congrArg List.length (words_eq hcause)
    rw [List.length_append, hk] at htwo
    rw [← hn, backWords, List.length_append, Nat.add_assoc, htwo]
    rfl
  -- the words of the processor
  obtain ⟨ram₁, hback, hwrote₁, hwords₁⟩ := pushAll_spec (l := [])
    (c := c.setReg .rsp (routineStack st rsp0 v c &&& ~~~15#64)) (u := backWords v cause c)
    (a := a + 120 + 8 * k)
    (by rw [hn, Machine.setReg_regs, Function.update_self, hstack]; congr 1; omega)
    (hdir.sub (by omega) (by omega)) trivial
  obtain ⟨c₁, hc₁, hregs₁, hram₁, hcs₁, hflags₁, hdata₁⟩ : ∃ c₁, deliver t v cause c = .ok c₁ ∧
      c₁.regs = Function.update c.regs .rsp (BitVec.ofNat 64 (a + 120 + 8 * k)) ∧ c₁.ram = ram₁ ∧
      c₁.cs = 8 ∧ c₁.rflags = entryFlags (kernelGate (isrAddr v) (ownStack v)) c.rflags ∧ c₁.data = c.data := by
    have hdeliver := deliver_eq h hp hv hroutine hcause
    rw [hback, ok_bind] at hdeliver
    exact ⟨_, hdeliver, Function.update_idem _ _ _, rfl, rfl, rfl, rfl⟩
  -- the words of the stub
  obtain ⟨ram₂, hstub, hwrote₂, hwords₂⟩ := pushAll_spec (c := c₁) (u := stubWords v) (a := a + 120)
    (by rw [hk, hregs₁, Function.update_self]) (hdir.sub (by omega) (by omega))
    (by rw [hk, hram₁]; exact hwords₁)
  -- the registers
  obtain ⟨ram₃, hsaved, hwrote₃, hwords₃⟩ := pushAll_spec
    (c := { c₁ with
      regs := Function.update c₁.regs .rsp (BitVec.ofNat 64 (a + 120))
      ram := ram₂ }) (u := saved.map c.regs) (a := a)
    (by dsimp only; rw [Function.update_self, List.length_map]; rfl)
    (hdir.mono (by rw [List.length_map]; decide)) hwords₂
  have hregs₂ : saved.map (Function.update c₁.regs .rsp (BitVec.ofNat 64 (a + 120))) = saved.map c.regs := by
    rw [hregs₁, Function.update_idem]
    refine List.map_congr_left fun r hr => Function.update_of_ne ?_ _ _
    rintro rfl
    exact absurd hr (by decide)
  obtain ⟨c₃, hc₃, hregs₃, hram₃, hcs₃, hflags₃, hdata₃⟩ : ∃ c₃, Machine.pushAll (saved.map c.regs)
      { c₁ with
      regs := Function.update c₁.regs .rsp (BitVec.ofNat 64 (a + 120))
      ram := ram₂ } = .ok c₃ ∧
      c₃.regs .rsp = BitVec.ofNat 64 a ∧ c₃.ram = ram₃ ∧ c₃.cs = c₁.cs ∧ c₃.rflags = c₁.rflags ∧
      c₃.data = c₁.data := by
    refine ⟨_, hsaved, ?_, rfl, rfl, rfl, rfl⟩
    dsimp only
    rw [Function.update_self]
  have hrun : run (isr v ++ isrCommon) c₁ = .ok (c₃.setReg .rdi (BitVec.ofNat 64 a)) := by
    have hcommon := run_push (c := { c₁ with
      regs := Function.update c₁.regs .rsp (BitVec.ofNat 64 (a + 120))
      ram := ram₂ }) (show .rsp ∉ saved by decide)
    rw [hregs₂] at hcommon
    rw [run_append, run_isr, hstub, ok_bind, isrCommon, run_append, hcommon, hc₃, ok_bind, run_cons, exec, hregs₃,
      pure_eq, ok_bind, run_nil]
  obtain ⟨hif, hnt⟩ := entryFlags_off (g := kernelGate (isrAddr v) (ownStack v)) rfl c.rflags
  rw [← hflags₁, ← hflags₃] at hif hnt
  rw [List.append_nil, ← List.map_append, ← List.map_append, frame_words hcause, ← hram₃] at hwords₃
  refine ⟨c₃.setReg .rdi (BitVec.ofNat 64 a), by rw [enter, hc₁, ok_bind, hrun],
    ⟨?_, ?_, load_of_words hwords₃, hcs₃.trans hcs₁, hif, hnt, hdata₃.trans hdata₁, ?_⟩⟩
  · rw [Machine.setReg_regs, Function.update_self]
  · rw [Machine.setReg_regs, Function.update_of_ne (by decide), hregs₃]
  · have hback : Set.Ico (a + 120 + 8 * k) (a + 120 + 8 * k + 8 * (backWords v cause c).length) ⊆
        Set.Ico a (a + 176) := Set.Ico_subset_Ico (by omega) (by omega)
    have hstubs : Set.Ico (a + 120) (a + 120 + 8 * (stubWords v).length) ⊆ Set.Ico a (a + 176) :=
      Set.Ico_subset_Ico (by omega) (by omega)
    have hregisters : Set.Ico a (a + 8 * (saved.map c.regs).length) ⊆ Set.Ico a (a + 176) :=
      Set.Ico_subset_Ico_right (by rw [List.length_map]; exact Nat.add_le_add_left (by decide) a)
    rw [Machine.setReg_ram, hram₃]
    refine ((hwrote₁.mono hback).trans ?_).trans (hwrote₃.mono hregisters)
    rw [← hram₁]
    exact hwrote₂.mono hstubs

end Fynaos.Cpu
