import Fynaos.Cpu.Stack

/-!
# `swap_context`

The registers that a call has to keep go to one `struct context` and come from another one. A row of stores leaves the
registers as consecutive words (`run_stores`), a row of loads gets them back (`run_loads`), and `ret` continues where
the stack pointer of the other context says (`swap_spec`, `ret_spec`).
-/

namespace Fynaos.Cpu

open Memory

variable {c : Machine} {a b n k : ℕ} {base : Reg} {l : List Reg} {f : Reg → BitVec 64}

/-- Consecutive words to `base`, from the `k`th on. -/
def storesFrom (base : Reg) (l : List Reg) (k : ℕ) : List Instr :=
  (l.zipIdx k).map fun p => .store p.1 base (8 * p.2)

def loadsFrom (base : Reg) (l : List Reg) (k : ℕ) : List Instr :=
  (l.zipIdx k).map fun p => .load base (8 * p.2) p.1

theorem run_stores (hbase : (c.regs base).toNat = a) (hdir : Direct (a + 8 * k) (8 * l.length)) :
    ∃ ram, run (storesFrom base l k) c = .ok { c with ram := ram } ∧
      Wrote c.ram ram (Set.Ico (a + 8 * k) (a + 8 * k + 8 * l.length)) ∧
      Words ram.bytes (a + 8 * k) (l.map fun r => (c.regs r).toNat) := by
  induction l generalizing c k with
  | nil => exact ⟨c.ram, run_nil, Wrote.refl _ _, trivial⟩
  | cons r l ih =>
    rw [List.length_cons] at hdir ⊢
    have haddr : a + 8 * (k + 1) = a + 8 * k + 8 := by omega
    have hfirst : exec c (.store r base (8 * k)) =
        .ok { c with ram := c.ram.put (a + 8 * k) (c.regs r).toNat } := by
      rw [exec, hbase, (hdir.mono (by omega)).store, ok_bind, pure_eq]
    obtain ⟨ram, hrun, hwrote, hwords⟩ := ih (c := { c with ram := c.ram.put (a + 8 * k) (c.regs r).toNat })
      (k := k + 1) hbase (hdir.sub (by omega) (by omega))
    rw [haddr] at hwrote hwords
    refine ⟨ram, ?_, ?_, ?_, hwords⟩
    · rw [storesFrom, List.zipIdx_cons, List.map_cons, run_cons, hfirst, ok_bind]
      exact hrun
    · refine (Wrote.put_within (le_refl _) (by omega)).trans (hwrote.mono ?_)
      exact Set.Ico_subset_Ico (by omega) (by omega)
    · have hkept : ram.word (a + 8 * k) = (c.ram.put (a + 8 * k) (c.regs r).toNat).word (a + 8 * k) :=
        hwrote.word (Set.disjoint_left.mpr fun x hx hx' => by have h1 := hx.2; have h2 := hx'.1; omega)
      rw [Ram.word_put_self (c.regs r).isLt] at hkept
      exact hkept

theorem run_loads (hbase : (c.regs base).toNat = b) (hrs : base ∉ l) (hdir : Direct (b + 8 * k) (8 * l.length))
    (hwords : Words c.ram.bytes (b + 8 * k) (l.map fun r => (f r).toNat)) :
    ∃ regs, run (loadsFrom base l k) c = .ok { c with regs := regs } ∧
      ∀ r, regs r = if r ∈ l then f r else c.regs r := by
  induction l generalizing c k with
  | nil => exact ⟨c.regs, run_nil, fun r => by simp⟩
  | cons r l ih =>
    rw [List.length_cons] at hdir
    obtain ⟨hr, hrs⟩ := not_or.mp fun h => hrs (List.mem_cons.mpr h)
    obtain ⟨hword, hwords⟩ := hwords
    have haddr : b + 8 * (k + 1) = b + 8 * k + 8 := by omega
    have hfirst : exec c (.load base (8 * k) r) = .ok (c.setReg r (f r)) := by
      rw [exec, hbase, read_eq (hdir.mono (by omega)), ok_bind, pure_eq, Ram.word, hword, BitVec.ofNat_toNat,
        BitVec.setWidth_eq]
    obtain ⟨regs, hrun, hregs⟩ := ih (c := c.setReg r (f r)) (k := k + 1)
      (by rw [Machine.setReg_regs, Function.update_of_ne hr, hbase]) hrs (hdir.sub (by omega) (by omega))
      (by rw [haddr]; exact hwords)
    refine ⟨regs, ?_, fun s => ?_⟩
    · rw [loadsFrom, List.zipIdx_cons, List.map_cons, run_cons, hfirst, ok_bind]
      exact hrun
    · rw [hregs s]
      by_cases hs : s = r
      · subst hs
        simp
      · simp [hs]

theorem swapContext_code : [Instr.store .rbx .rdi 0, .store .r12 .rdi 8, .store .r13 .rdi 16, .store .r14 .rdi 24,
    .store .r15 .rdi 32, .store .rsp .rdi 40, .store .rbp .rdi 48, .load .rsi 0 .rbx, .load .rsi 8 .r12,
    .load .rsi 16 .r13, .load .rsi 24 .r14, .load .rsi 32 .r15, .load .rsi 40 .rsp, .load .rsi 48 .rbp,
    .mov .rdi .rax] =
      storesFrom .rdi contextRegs 0 ++ (loadsFrom .rsi contextRegs 0 ++ [.mov .rdi .rax]) := rfl

theorem ret_spec {sp : BitVec 64} (hsp : c.regs .rsp = sp) (hdir : Direct sp.toNat 8) : ret c = .ok { c with
    regs := Function.update c.regs .rsp (sp + 8)
    rip := BitVec.ofNat 64 (c.ram.word sp.toNat) } := by
  rw [ret, hsp, read_eq hdir, ok_bind, pure_eq]

theorem ret_ram {c' : Machine} (h : ret c = .ok c') : c'.ram = c.ram := by
  unfold ret at h
  cases hread : c.read (c.regs .rsp).toNat with
  | error e => rw [hread] at h; cases h
  | ok rip => rw [hread] at h; cases h; rfl

/-- `swap_context` stores the registers of the caller, loads those of the other context, and returns. -/
theorem swap_spec (ha : (c.regs .rdi).toNat = a) (hb : (c.regs .rsi).toNat = b) (hdirA : Direct a 56)
    (hdirB : Direct b 56) : ∃ ram regs, Wrote c.ram ram (Set.Ico a (a + 56)) ∧
      Words ram.bytes a (contextRegs.map fun r => (c.regs r).toNat) ∧
      swapContext c = ret { c with
        regs := regs
        ram := ram } ∧
      regs .rax = c.regs .rdi ∧
      ∀ f : Reg → BitVec 64, Words ram.bytes b (contextRegs.map fun r => (f r).toNat) →
        ∀ r ∈ contextRegs, regs r = f r := by
  obtain ⟨ram, hstores, hwrote, hwords⟩ := run_stores (k := 0) (l := contextRegs) ha hdirA
  obtain ⟨g, hg⟩ : ∃ g : Reg → BitVec 64, Words ram.bytes b (contextRegs.map fun r => (g r).toNat) := by
    have hword : ∀ i, load ram.bytes (b + 8 * i) 8 = (BitVec.ofNat 64 (ram.word (b + 8 * i))).toNat := fun i =>
      (toNat_ofNat_of_lt (Ram.word_lt ram _)).symm
    exact ⟨fun r => BitVec.ofNat 64 (ram.word (b + 8 * contextRegs.idxOf r)), hword 0, hword 1, hword 2, hword 3,
      hword 4, hword 5, hword 6, trivial⟩
  obtain ⟨regs, hloads, hregs⟩ := run_loads (c := { c with ram := ram }) (k := 0) (l := contextRegs) (f := g) hb
    (by decide) hdirB hg
  have hmov : run [.mov .rdi .rax] { c with
      regs := regs
      ram := ram } = .ok { c with
      regs := Function.update regs .rax (regs .rdi)
      ram := ram } := rfl
  refine ⟨ram, Function.update regs .rax (regs .rdi), hwrote, hwords, ?_, ?_, fun f hf r hr => ?_⟩
  · rw [swapContext, swapContext_code, run_append, hstores, ok_bind, run_append, hloads, ok_bind, hmov, ok_bind]
  · rw [Function.update_self, hregs, if_neg (by decide)]
  · have hrax : r ≠ .rax := by
      intro h
      rw [h] at hr
      exact absurd hr (by decide)
    have hsame := hg.unique hf (by rw [List.length_map, List.length_map])
    rw [Function.update_of_ne hrax, hregs, if_pos hr]
    exact BitVec.eq_of_toNat_eq (List.map_inj_left.mp hsame r hr)

end Fynaos.Cpu
