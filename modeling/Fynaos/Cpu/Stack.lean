import Fynaos.Cpu.Machine
import Fynaos.Lib.Words

/-!
# Registers on the stack

What a row of pushes leaves in memory (`pushAll_spec`), and what a row of pops takes from it (`run_pops`). A
stack is a list of words at the stack pointer; all of it lies in the kernel's half of the addresses.
-/

namespace Fynaos.Cpu

open Memory

variable {c : Machine} {a n : ℕ} {v : BitVec 64} {rs : List Reg} {l : List ℕ}

@[simp] theorem Machine.setReg_regs (r : Reg) : (c.setReg r v).regs = Function.update c.regs r v := rfl

@[simp] theorem Machine.setReg_ram (r : Reg) : (c.setReg r v).ram = c.ram := rfl

theorem run_nil : run [] c = .ok c := rfl

theorem run_cons (i : Instr) (code : List Instr) : run (i :: code) c = exec c i >>= run code := rfl

theorem run_append (code code' : List Instr) : run (code ++ code') c = run code c >>= run code' :=
  List.foldlM_append

theorem toNat_ofNat_of_lt {x : ℕ} (h : x < 2 ^ 64) : (BitVec.ofNat 64 x).toNat = x := by
  rw [BitVec.toNat_ofNat, Nat.mod_eq_of_lt h]

theorem direct_lt (h : Direct a n) (hn : 0 < n) : a < 2 ^ 64 := by
  have hend := h.2
  omega

theorem read_eq (hdir : Direct a 8) : c.read a = .ok (BitVec.ofNat 64 (c.ram.word a)) := by
  rw [Machine.read, hdir.load, ok_bind, pure_eq]

theorem push_eq (hsp : c.regs .rsp = BitVec.ofNat 64 (a + 8)) (hdir : Direct a 8) :
    c.push v = .ok { c with
      regs := Function.update c.regs .rsp (BitVec.ofNat 64 a)
      ram := c.ram.put a v.toNat } := by
  have hrsp : c.regs .rsp - 8 = BitVec.ofNat 64 a := by
    rw [hsp, BitVec.ofNat_add]
    exact BitVec.add_sub_cancel _ _
  rw [Machine.push, hrsp]
  rw [toNat_ofNat_of_lt (direct_lt hdir (by norm_num)), hdir.store, ok_bind, pure_eq]

theorem pushAll_spec {u : List (BitVec 64)} (hsp : c.regs .rsp = BitVec.ofNat 64 (a + 8 * u.length))
    (hdir : Direct a (8 * u.length)) (hwords : Words c.ram.bytes (a + 8 * u.length) l) :
    ∃ ram, c.pushAll u = .ok { c with regs := Function.update c.regs .rsp (BitVec.ofNat 64 a), ram := ram } ∧
      Wrote c.ram ram (Set.Ico a (a + 8 * u.length)) ∧
      Words ram.bytes a (u.reverse.map BitVec.toNat ++ l) := by
  induction u generalizing c l with
  | nil =>
    have hrsp : BitVec.ofNat 64 a = c.regs .rsp := hsp.symm
    refine ⟨c.ram, ?_, Wrote.refl _ _, by simpa using hwords⟩
    rw [Machine.pushAll, List.foldlM_nil, pure_eq, hrsp, Function.update_eq_self]
  | cons v u ih =>
    rw [List.length_cons] at hsp hdir hwords ⊢
    have htop : Direct (a + 8 * u.length) 8 := hdir.sub (by omega) (by omega)
    have hpush := push_eq (v := v) hsp htop
    have hrest : Words (c.ram.put (a + 8 * u.length) v.toNat).bytes (a + 8 * u.length) (v.toNat :: l) := by
      refine Words.push ?_ v.isLt
      rwa [Nat.add_assoc, ← Nat.mul_succ]
    obtain ⟨ram, hrun, hwrote, hl⟩ := ih (c := { c with
      regs := Function.update c.regs .rsp (BitVec.ofNat 64 (a + 8 * u.length))
      ram := c.ram.put (a + 8 * u.length) v.toNat }) (by simp) (hdir.mono (by omega)) hrest
    refine ⟨ram, ?_, ?_, ?_⟩
    · rw [Machine.pushAll, List.foldlM_cons, hpush, ok_bind]
      refine hrun.trans ?_
      rw [Function.update_idem]
    · refine (Wrote.put_within (by omega) (by omega)).trans (hwrote.mono ?_)
      exact Set.Ico_subset_Ico_right (by omega)
    · rw [List.reverse_cons, List.map_append, List.map_singleton, List.append_assoc, List.singleton_append]
      exact hl

theorem run_push (hrs : .rsp ∉ rs) : run (rs.map .push) c = c.pushAll (rs.map c.regs) := by
  induction rs generalizing c with
  | nil => rfl
  | cons r rs ih =>
    obtain ⟨-, hrs⟩ := not_or.mp fun h => hrs (List.mem_cons.mpr h)
    rw [List.map_cons, run_cons, exec, List.map_cons, Machine.pushAll, List.foldlM_cons, Machine.push]
    cases c.ram.store (c.regs .rsp - 8).toNat (c.regs r).toNat with
    | error e => rfl
    | ok ram =>
      rw [ok_bind, pure_eq, ok_bind, ok_bind, ih hrs, Machine.pushAll]
      have hregs : rs.map (Function.update c.regs .rsp (c.regs .rsp - 8)) = rs.map c.regs := by
        refine List.map_congr_left fun s hs => Function.update_of_ne ?_ _ _
        rintro rfl
        exact hrs hs
      rw [← hregs]

theorem run_pops (f : Reg → BitVec 64) (hrs : .rsp ∉ rs) (hsp : c.regs .rsp = BitVec.ofNat 64 a)
    (hdir : Direct a (8 * rs.length)) (hwords : Words c.ram.bytes a (rs.map fun r => (f r).toNat)) :
    ∃ regs, run (rs.map .pop) c = .ok { c with regs := regs } ∧
      regs .rsp = BitVec.ofNat 64 (a + 8 * rs.length) ∧
      ∀ r, r ≠ .rsp → regs r = if r ∈ rs then f r else c.regs r := by
  induction rs generalizing c a with
  | nil => exact ⟨c.regs, run_nil, hsp, fun r _ => by simp⟩
  | cons r rs ih =>
    rw [List.length_cons] at hdir ⊢
    obtain ⟨hr, hrs⟩ := not_or.mp fun h => hrs (List.mem_cons.mpr h)
    obtain ⟨hword, hwords⟩ := hwords
    have hread : c.read (c.regs .rsp).toNat = .ok (f r) := by
      rw [hsp, toNat_ofNat_of_lt (direct_lt hdir (by omega)), read_eq (hdir.mono (by omega)), Ram.word,
        hword, BitVec.ofNat_toNat, BitVec.setWidth_eq]
    have hpop : exec c (.pop r) = .ok ((c.setReg .rsp (BitVec.ofNat 64 (a + 8))).setReg r (f r)) := by
      rw [exec, hread, ok_bind, pure_eq, hsp, BitVec.ofNat_add]
      rfl
    obtain ⟨regs, hrun, hend, hregs⟩ := ih
      (c := (c.setReg .rsp (BitVec.ofNat 64 (a + 8))).setReg r (f r)) (a := a + 8) hrs
      (by simp [Function.update_of_ne hr])
      (hdir.sub (by omega) (by omega)) hwords
    refine ⟨regs, ?_, ?_, fun s hs => ?_⟩
    · rw [List.map_cons, run_cons, hpop, ok_bind, hrun]
      rfl
    · rw [hend]
      congr 1
      omega
    · rw [hregs s hs]
      by_cases hsr : s = r
      · subst hsr
        simp
      · simp [hsr, hs]

end Fynaos.Cpu
