import Fynaos.Lib.Memory
import Fynaos.Types

/-!
# Memory as the kernel reaches it

The heap and the page tables are 64-bit words in memory, read and written through pointers. A
pointer must be canonical, as for the frame table. `stores` is a ghost: the address and the width of
every store so far, the latest first.

`Ram.word` and `Ram.put` are the same accesses without the check, which specifications use, and
`Wrote r r' S` says that a run from `r` to `r'` stored inside `S` only.
-/

namespace Fynaos

open Memory

structure Ram where
  bytes : Bytes
  stores : List (ℕ × ℕ)

def physToVirt (phys : ℕ) : ℕ := wrap (phys + kernelDirectBase)

namespace Ram

def word (r : Ram) (a : ℕ) : ℕ := Memory.load r.bytes a 8

def put (r : Ram) (a v : ℕ) : Ram := ⟨Memory.store r.bytes a 8 v, (a, 8) :: r.stores⟩

/-- A read through a pointer to a 64-bit value. -/
def load (r : Ram) (a : ℕ) : Except Halt ℕ :=
  if Canonical (wrap a) then .ok (r.word (wrap a)) else .error (.fault (wrap a))

/-- An assignment through a pointer to a 64-bit value. -/
def store (r : Ram) (a v : ℕ) : Except Halt Ram :=
  if Canonical (wrap a) then .ok (r.put (wrap a) v) else .error (.fault (wrap a))

/-- An assignment through a pointer to a byte. -/
def storeByte (r : Ram) (a v : ℕ) : Except Halt Ram :=
  if Canonical (wrap a) then
    .ok ⟨Memory.store r.bytes (wrap a) 1 v, (wrap a, 1) :: r.stores⟩
  else .error (.fault (wrap a))

def memset (dst val : ℕ) : ℕ → Ram → Except Halt Ram
  | 0, r => .ok r
  | len + 1, r => do
    let r ← r.storeByte dst val
    memset (dst + 1) val len r

end Ram

def zeroPage (a : ℕ) (r : Ram) : Except Halt Ram := Ram.memset (physToVirt a) 0 pageSize r

/-! ### Accesses to the direct map -/

/-- The `n` bytes from `a` on lie in the direct map. -/
def Direct (a n : ℕ) : Prop := kernelDirectBase ≤ a ∧ a + n ≤ 2 ^ 64

/-- From `r` to `r'` only bytes of `S` were stored to. -/
structure Wrote (r r' : Ram) (S : Set ℕ) : Prop where
  frame : ∀ x ∉ S, r'.bytes x = r.bytes x
  log : ∃ ws, r'.stores = ws ++ r.stores ∧ ∀ w ∈ ws, Set.Ico w.1 (w.1 + w.2) ⊆ S

section access
variable {r r' r'' : Ram} {a b n v : ℕ} {S T : Set ℕ}

theorem Direct.canonical (h : Direct a n) (hn : 0 < n) : Canonical (wrap a) := by
  obtain ⟨h1, h2⟩ := h
  rw [wrap_of_lt (by omega)]
  unfold kernelDirectBase at h1
  exact Or.inr (by omega)

theorem Direct.wrap_eq (h : Direct a n) (hn : 0 < n) : wrap a = a :=
  wrap_of_lt (by have := h.2; omega)

theorem Direct.sub (h : Direct a n) {k : ℕ} (hlow : a ≤ b) (hhigh : b + k ≤ a + n) : Direct b k :=
  ⟨h.1.trans hlow, hhigh.trans h.2⟩

theorem Direct.mono (h : Direct a n) {k : ℕ} (hk : k ≤ n) : Direct a k :=
  h.sub (le_refl a) (Nat.add_le_add_left hk a)

theorem Direct.load (h : Direct a 8) : r.load a = .ok (r.word a) := by
  rw [Ram.load, if_pos (h.canonical (by norm_num)), h.wrap_eq (by norm_num)]

theorem Direct.store (h : Direct a 8) : r.store a v = .ok (r.put a v) := by
  rw [Ram.store, if_pos (h.canonical (by norm_num)), h.wrap_eq (by norm_num)]

theorem Ram.canonical_of_load {e : ℕ} (h : r.load a = .ok e) : Canonical (wrap a) := by
  unfold Ram.load at h
  split_ifs at h with hcanonical
  exact hcanonical

theorem Ram.word_of_load {e : ℕ} (h : r.load a = .ok e) : r.word (wrap a) = e := by
  unfold Ram.load at h
  split_ifs at h
  exact Except.ok.inj h

theorem Ram.put_of_store (h : r.store a v = .ok r') : r.put (wrap a) v = r' := by
  unfold Ram.store at h
  split_ifs at h
  exact Except.ok.inj h

theorem Ram.word_lt (r : Ram) (a : ℕ) : r.word a < 2 ^ 64 := Memory.load_lt _ _ _

theorem Ram.word_congr (h : ∀ x, a ≤ x → x < a + 8 → r.bytes x = r'.bytes x) :
    r.word a = r'.word a := Memory.load_congr h

@[simp] theorem Ram.word_put_self (hv : v < 2 ^ 64) : (r.put a v).word a = v :=
  Memory.load_store_self hv

theorem Ram.word_put_of_disjoint (h : a + 8 ≤ b ∨ b + 8 ≤ a) : (r.put b v).word a = r.word a :=
  Memory.load_store_of_disjoint h

@[simp] theorem Ram.put_stores : (r.put a v).stores = (a, 8) :: r.stores := rfl

namespace Wrote

theorem refl (r : Ram) (S : Set ℕ) : Wrote r r S := ⟨fun _ _ => rfl, [], rfl, by simp⟩

theorem mono (h : Wrote r r' S) (hST : S ⊆ T) : Wrote r r' T := by
  obtain ⟨hframe, ws, hlog, hin⟩ := h
  exact ⟨fun x hx => hframe x fun hS => hx (hST hS), ws, hlog, fun w hw => (hin w hw).trans hST⟩

theorem trans (h : Wrote r r' S) (h' : Wrote r' r'' S) : Wrote r r'' S := by
  obtain ⟨hframe, ws, hlog, hin⟩ := h
  obtain ⟨hframe', ws', hlog', hin'⟩ := h'
  refine ⟨fun x hx => (hframe' x hx).trans (hframe x hx), ws' ++ ws, ?_, fun w hw => ?_⟩
  · rw [hlog', hlog, List.append_assoc]
  · rcases List.mem_append.mp hw with hw | hw
    · exact hin' w hw
    · exact hin w hw

theorem put (r : Ram) (v : ℕ) (hS : Set.Ico a (a + 8) ⊆ S) : Wrote r (r.put a v) S := by
  refine ⟨fun x hx => Memory.store_of_notMem ?_, [(a, 8)], rfl, by simpa using hS⟩
  by_contra hmem
  exact hx (hS ⟨by omega, by omega⟩)

theorem put_within (hlow : b ≤ a) (hhigh : a + 8 ≤ n) : Wrote r (r.put a v) (Set.Ico b n) :=
  put r v (Set.Ico_subset_Ico hlow hhigh)

theorem word (h : Wrote r r' S) (hS : Disjoint (Set.Ico a (a + 8)) S) : r'.word a = r.word a :=
  Ram.word_congr fun x h1 h2 => h.frame x (Set.disjoint_left.mp hS ⟨h1, h2⟩)

end Wrote

/-! ### Clearing a range -/

theorem memset_spec (h : Direct a n) : ∃ r', Ram.memset a v n r = .ok r' ∧
    r'.bytes = Memory.fill r.bytes a n v ∧ Wrote r r' (Set.Ico a (a + n)) := by
  induction n generalizing a r with
  | zero => exact ⟨r, rfl, rfl, Wrote.refl _ _⟩
  | succ n ih =>
    have hbyte : r.storeByte a v = .ok ⟨Memory.store r.bytes a 1 v, (a, 1) :: r.stores⟩ := by
      rw [Ram.storeByte, if_pos (h.canonical (Nat.succ_pos n)), h.wrap_eq (Nat.succ_pos n)]
    have hstep : Wrote r ⟨Memory.store r.bytes a 1 v, (a, 1) :: r.stores⟩
        (Set.Ico a (a + (n + 1))) := by
      refine ⟨fun x hx => Memory.store_of_notMem ?_, [(a, 1)], rfl, ?_⟩
      · by_contra hmem
        exact hx ⟨by omega, by omega⟩
      · simp only [List.mem_singleton, forall_eq]
        exact Set.Ico_subset_Ico_right (by omega)
    rcases Nat.eq_zero_or_pos n with rfl | hn
    · exact ⟨_, by rw [Ram.memset, hbyte]; rfl, rfl, hstep⟩
    have hrest : Direct (a + 1) n := by
      obtain ⟨h1, h2⟩ := h
      exact ⟨by omega, by omega⟩
    obtain ⟨r', hrun, hbytes, hwrote⟩ := ih (r := ⟨Memory.store r.bytes a 1 v, (a, 1) :: r.stores⟩)
      hrest
    refine ⟨r', ?_, hbytes, hstep.trans (hwrote.mono fun x hx => ?_)⟩
    · rw [Ram.memset, hbyte]
      exact hrun
    · have h1 := hx.1
      have h2 := hx.2
      exact ⟨by omega, by omega⟩

theorem zeroPage_spec (h : Direct (physToVirt a) pageSize) : ∃ r', zeroPage a r = .ok r' ∧
    (∀ x, physToVirt a ≤ x → x + 8 ≤ physToVirt a + pageSize → r'.word x = 0) ∧
    Wrote r r' (Set.Ico (physToVirt a) (physToVirt a + pageSize)) := by
  obtain ⟨r', hrun, hbytes, hwrote⟩ := memset_spec (r := r) (v := 0) h
  refine ⟨r', hrun, fun x h1 h2 => ?_, hwrote⟩
  rw [Ram.word, hbytes]
  exact Memory.load_fill_zero h1 h2

end access

end Fynaos
