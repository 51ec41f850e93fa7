import Fynaos.Cpu.Processor
import Fynaos.Cpu.Stack

/-!
# Loads of segment registers

A load of a segment register reads one descriptor of the GDT, and stores to it at most the mark that it was accessed
(`loadSegment_ok`). So a segment that is marked can be loaded again without a store, as long as the GDT stays as it is
(`loadSegment_frame`); this is what `Machine.Valid` asks of the segments in use.
-/

namespace Fynaos.Cpu

open Memory Fields

variable {t : TableRegs} {r r' : Ram} {c : Machine} {d : Descriptor} {fits : Descriptor → Bool}
  {a sel level w : ℕ}

def gdtSpan (t : TableRegs) : Set ℕ := Set.Ico t.gdtBase (t.gdtBase + (t.gdtLimit + 1))

/-- The selectors of the GDT. -/
def Selects (t : TableRegs) (sel : ℕ) : Prop := sel / 8 ≠ 0 ∧ sel / 4 % 2 = 0 ∧ sel / 8 * 8 + 7 ≤ t.gdtLimit

/-! ### The mark -/

/-- The memory after a descriptor was marked as accessed. -/
def marked (r : Ram) (a : ℕ) : Ram :=
  if (Descriptor.decode (r.word a)).isAccessed then r else r.put a (r.word a ||| 2 ^ 40)

theorem isAccessed_decode (w : ℕ) : (Descriptor.decode w).isAccessed = w.testBit 40 := by
  rw [Descriptor.isAccessed, Descriptor.decode, testBit_field]
  rfl

theorem decode_mark (w : ℕ) : Descriptor.decode (w ||| 2 ^ 40) =
    { Descriptor.decode w with access := (Descriptor.decode w).access ||| 1 } := by
  have hout : ∀ lo width, field (2 ^ 40) lo width = 0 → field (w ||| 2 ^ 40) lo width = field w lo width :=
    fun lo width h => by rw [field_or, h, Nat.or_zero]
  have haccess : field (w ||| 2 ^ 40) 40 8 = field w 40 8 ||| 1 := field_or _ _ _ _
  rw [Descriptor.decode, Descriptor.decode, hout 16 16 rfl, hout 32 8 rfl, hout 56 8 rfl, hout 0 16 rfl,
    hout 48 4 rfl, hout 52 4 rfl, haccess]

theorem or_mark (h : w.testBit 40 = true) : w ||| 2 ^ 40 = w := by
  apply Nat.eq_of_testBit_eq
  intro i
  rw [Nat.testBit_or, Nat.testBit_two_pow]
  by_cases hi : 40 = i
  · rw [← hi, h, Bool.true_or]
  · rw [decide_eq_false hi, Bool.or_false]

theorem marked_word (r : Ram) (a : ℕ) : (marked r a).word a = r.word a ||| 2 ^ 40 := by
  unfold marked
  split_ifs with haccessed
  · rw [isAccessed_decode] at haccessed
    exact (or_mark haccessed).symm
  · exact Ram.word_put_self (Nat.or_lt_two_pow (Ram.word_lt r a) (by norm_num))

theorem marked_wrote (r : Ram) (a : ℕ) : Wrote r (marked r a) (Set.Ico a (a + 8)) := by
  unfold marked
  split_ifs
  · exact Wrote.refl _ _
  · exact Wrote.put _ _ (le_refl _)

theorem marked_eq_self : marked r a = r ↔ (Descriptor.decode (r.word a)).isAccessed = true := by
  unfold marked
  split_ifs with haccessed
  · exact iff_of_true rfl haccessed
  · refine iff_of_false (fun h => ?_) haccessed
    have hlength := congrArg (fun r : Ram => r.stores.length) h
    rw [Ram.put] at hlength
    exact Nat.succ_ne_self _ hlength

/-! ### One load -/

section loads
variable (hdir : Direct t.gdtBase (t.gdtLimit + 1))
include hdir

theorem descriptor_eq (h : Selects t sel) :
    descriptor t sel r = .ok (Descriptor.decode (r.word (t.gdtBase + sel / 8 * 8))) := by
  obtain ⟨hnull, hlocal, hlimit⟩ := h
  have hdirect : Direct (t.gdtBase + sel / 8 * 8) 8 := hdir.sub (by omega) (by omega)
  rw [descriptor, if_neg (by omega), hdirect.load, ok_bind, pure_eq]

theorem descriptor_ok (h : descriptor t sel r = .ok d) :
    Selects t sel ∧ d = Descriptor.decode (r.word (t.gdtBase + sel / 8 * 8)) := by
  have hsel : Selects t sel := by
    unfold descriptor at h
    split_ifs at h with hbad
    unfold Selects
    omega
  rw [descriptor_eq hdir hsel] at h
  exact ⟨hsel, (Except.ok.inj h).symm⟩

theorem loadSegment_eq (h : Selects t sel) (hd : Descriptor.decode (r.word (t.gdtBase + sel / 8 * 8)) = d)
    (hfits : fits d = true) :
    loadSegment t fits sel r = .ok (d, marked r (t.gdtBase + sel / 8 * 8)) := by
  have hdirect : Direct (t.gdtBase + sel / 8 * 8) 8 := by
    obtain ⟨-, -, hlimit⟩ := h
    exact hdir.sub (by omega) (by omega)
  rw [loadSegment, descriptor_eq hdir h, ok_bind, hd, if_neg (not_not.mpr hfits), marked, hd]
  split_ifs
  · rfl
  · rw [hdirect.load, ok_bind, hdirect.store, ok_bind, pure_eq]

theorem loadSegment_ok (h : loadSegment t fits sel r = .ok (d, r')) : Selects t sel ∧
    d = Descriptor.decode (r.word (t.gdtBase + sel / 8 * 8)) ∧ fits d = true ∧
      r' = marked r (t.gdtBase + sel / 8 * 8) := by
  obtain ⟨d', hread, hrest⟩ := bind_eq_ok.mp h
  obtain ⟨hsel, hd⟩ := descriptor_ok hdir hread
  have hfits : fits d' = true := by
    by_contra hbad
    rw [if_pos hbad] at hrest
    cases hrest
  rw [loadSegment_eq hdir hsel hd.symm hfits] at h
  cases h
  exact ⟨hsel, hd, hfits, rfl⟩

theorem loadSegment_wrote (h : loadSegment t fits sel r = .ok (d, r')) : Wrote r r' (gdtSpan t) := by
  obtain ⟨⟨-, -, hlimit⟩, -, -, hmark⟩ := loadSegment_ok hdir h
  rw [hmark]
  exact (marked_wrote _ _).mono (Set.Ico_subset_Ico (Nat.le_add_right _ _) (by omega))

theorem stackSegment_wrote (h : stackSegment t level sel r = .ok r') : Wrote r r' (gdtSpan t) := by
  unfold stackSegment at h
  split_ifs at h
  · cases h
    exact Wrote.refl _ _
  · obtain ⟨⟨d, r₁⟩, hload, hr₁⟩ := bind_eq_ok.mp h
    cases hr₁
    exact loadSegment_wrote hdir hload

/-! ### Segments that are marked -/

variable (hbytes : ∀ x ∈ gdtSpan t, r'.bytes x = r.bytes x)
include hbytes

omit hdir in
theorem gdt_word_congr (h : Selects t sel) :
    r'.word (t.gdtBase + sel / 8 * 8) = r.word (t.gdtBase + sel / 8 * 8) := by
  obtain ⟨-, -, hlimit⟩ := h
  exact Ram.word_congr fun x h1 h2 => hbytes x ⟨by omega, by omega⟩

theorem loadSegment_frame (h : loadSegment t fits sel r = .ok (d, r)) :
    loadSegment t fits sel r' = .ok (d, r') := by
  obtain ⟨hsel, hd, hfits, hmark⟩ := loadSegment_ok hdir h
  have hword := gdt_word_congr hbytes hsel
  rw [loadSegment_eq hdir hsel (by rw [hword, ← hd]) hfits]
  rw [marked_eq_self.mpr]
  rw [hword]
  exact marked_eq_self.mp hmark.symm

theorem stackSegment_frame (h : stackSegment t level sel r = .ok r) : stackSegment t level sel r' = .ok r' := by
  unfold stackSegment at h ⊢
  split_ifs at h ⊢
  · rfl
  · obtain ⟨⟨d, r₁⟩, hload, hr₁⟩ := bind_eq_ok.mp h
    cases hr₁
    rw [loadSegment_frame hdir hbytes hload]
    rfl

theorem outerData_frame (sel : BitVec 16) : outerData t level sel r' = outerData t level sel r := by
  have hsame : descriptor t sel.toNat r' = descriptor t sel.toNat r := by
    by_cases hsel : Selects t sel.toNat
    · rw [descriptor_eq hdir hsel, descriptor_eq hdir hsel, gdt_word_congr hbytes hsel]
    · unfold Selects at hsel
      rw [descriptor, descriptor, if_pos (by omega), if_pos (by omega)]
  rw [outerData, outerData, hsame]

end loads

/-! ### Machines that may run -/

/-- The tables let the machine run as it is: its segments are there for its level, and marked as accessed; the address
is canonical; RFLAGS has its fixed bits. A level above 0 has no segment of an inner one. -/
structure Machine.Valid (t : TableRegs) (c : Machine) : Prop where
  rip : Canonical c.rip.toNat
  rflags : c.rflags &&& flagBits ||| 2 = c.rflags
  code : ∃ d, loadSegment t (Descriptor.fitsCode c.cpl) c.cs.toNat c.ram = .ok (d, c.ram)
  stack : stackSegment t c.cpl c.ss.toNat c.ram = .ok c.ram
  data : 0 < c.cpl → ∀ dst, outerData t c.cpl (c.data dst) c.ram = c.data dst

theorem Machine.Valid.frame (h : c.Valid t) (hdir : Direct t.gdtBase (t.gdtLimit + 1))
    (hbytes : ∀ x ∈ gdtSpan t, r.bytes x = c.ram.bytes x) : ({ c with ram := r } : Machine).Valid t := by
  obtain ⟨d, hcode⟩ := h.code
  exact
    { rip := h.rip
      rflags := h.rflags
      code := ⟨d, loadSegment_frame hdir hbytes hcode⟩
      stack := stackSegment_frame hdir hbytes h.stack
      data := fun hcpl dst => (outerData_frame hdir hbytes _).trans (h.data hcpl dst) }

theorem popFlags_zero (flags v : BitVec 64) : popFlags 0 flags v = v &&& flagBits ||| 2 := by
  have hnone : flags &&& flagBits &&& ~~~flagBits = 0#64 := by
    have hself : flagBits &&& ~~~flagBits = 0#64 := by decide
    rw [BitVec.and_assoc, hself, BitVec.and_zero]
  have hfree : 0x254DD5#64 ||| 0x200 ||| 0x183000 = flagBits := by decide
  rw [popFlags, if_pos (Nat.zero_le _), if_pos rfl, hfree, hnone, BitVec.zero_or]

/-- The machine that a return asks for, with all that is not asked for as it was. -/
def Machine.returned (c : Machine) (rip : BitVec 64) (cs : BitVec 16) (rflags rsp : BitVec 64) (ss : BitVec 16) :
    Machine :=
  { c with
    regs := Function.update c.regs .rsp rsp
    rip := rip
    cs := cs
    rflags := rflags
    ss := ss }

section returns
variable {rip rflags rsp : BitVec 64} {cs ss : BitVec 16} {c' : Machine}

/-- Back from level 0 to a machine that may run. -/
theorem returnTo_valid (hcpl : c.cpl = 0) (hnt : c.rflags.getLsbD 14 = false)
    (h : (c.returned rip cs rflags rsp ss).Valid t) :
    returnTo t rip cs rflags rsp ss c = .ok (c.returned rip cs rflags rsp ss) := by
  obtain ⟨d, hcode⟩ := h.code
  have hcode' : loadSegment t (Descriptor.fitsCode (cs.toNat % 4)) cs.toNat c.ram = .ok (d, c.ram) := hcode
  have hstack : stackSegment t (cs.toNat % 4) ss.toNat c.ram = .ok c.ram := h.stack
  have hflags : rflags &&& flagBits ||| 2 = rflags := h.rflags
  have hrip : Canonical rip.toNat := h.rip
  have hdata : (if 0 < cs.toNat % 4 then fun dst => outerData t (cs.toNat % 4) (c.data dst) c.ram
      else c.data) = c.data := by
    split_ifs with hlevel
    · exact funext (h.data hlevel)
    · rfl
  rw [returnTo]
  dsimp only
  have hpasses : ¬ (c.rflags.getLsbD 14 = true ∨ cs.toNat % 4 < c.cpl ∨ ¬ Canonical rip.toNat) := by
    rw [hnt, hcpl]
    simp only [Bool.false_eq_true, Nat.not_lt_zero, false_or, not_not]
    exact hrip
  rw [if_neg hpasses, hcode', ok_bind, hstack, ok_bind, hcpl, popFlags_zero, hflags, hdata]
  rfl

theorem returnTo_ok (hdir : Direct t.gdtBase (t.gdtLimit + 1)) (hcpl : c.cpl = 0)
    (h : returnTo t rip cs rflags rsp ss c = .ok c') :
    c' = { c.returned rip cs (rflags &&& flagBits ||| 2) rsp ss with
      data := c'.data
      ram := c'.ram } ∧ Wrote c.ram c'.ram (gdtSpan t) := by
  rw [returnTo] at h
  dsimp only at h
  have hpasses : ¬ (c.rflags.getLsbD 14 = true ∨ cs.toNat % 4 < c.cpl ∨ ¬ Canonical rip.toNat) := by
    intro hfails
    rw [if_pos hfails] at h
    cases h
  rw [if_neg hpasses] at h
  obtain ⟨⟨d, r₁⟩, hcode, h⟩ := bind_eq_ok.mp h
  obtain ⟨r₂, hstack, h⟩ := bind_eq_ok.mp h
  rw [hcpl, popFlags_zero] at h
  cases h
  exact ⟨rfl, (loadSegment_wrote hdir hcode).trans (stackSegment_wrote hdir hstack)⟩

end returns

end Fynaos.Cpu
