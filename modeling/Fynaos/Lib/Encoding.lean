import Mathlib.Data.List.GetD
import Fynaos.Lib.Memory

/-!
# Byte lists in memory

`Holds m a l` says that the bytes of a list stand from `a` on. A list that is put together is held piece
by piece (`holds_append`), and the bytes of a number read as the number (`load_of_holds`).
-/

namespace Memory

def Holds (m : Bytes) : ℕ → List ℕ → Prop
  | _, [] => True
  | a, b :: l => m a % 256 = b % 256 ∧ Holds m (a + 1) l

/-- The `n` low bytes of a number, the lowest first. -/
def numberBytes : ℕ → ℕ → List ℕ
  | 0, _ => []
  | n + 1, v => v % 256 :: numberBytes n (v / 256)

def ofList (a : ℕ) (l : List ℕ) : Bytes := fun x => l.getD (x - a) 0

/-- The memory that holds the 64-bit number `w q` at each multiple `8 * q` of eight. -/
def ofWords (w : ℕ → ℕ) : Bytes := fun x => w (x / 8) / 256 ^ (x % 8) % 256

variable {m m' : Bytes} {a b n k v x : ℕ} {l l' : List ℕ}

theorem load_shift (h : ∀ k < n, m (a + k) % 256 = m' (b + k) % 256) : load m a n = load m' b n := by
  induction n generalizing a b with
  | zero => rfl
  | succ n ih =>
    have hfirst : m a % 256 = m' b % 256 := h 0 (Nat.succ_pos n)
    rw [load, load, hfirst, ih (a := a + 1) (b := b + 1) fun k hk => ?_]
    rw [Nat.add_assoc, Nat.add_comm 1 k, ← Nat.add_assoc, Nat.add_assoc b, Nat.add_comm 1 k,
      ← Nat.add_assoc]
    exact h (k + 1) (Nat.succ_lt_succ hk)

@[simp] theorem numberBytes_length : (numberBytes n v).length = n := by
  induction n generalizing v with
  | zero => rfl
  | succ n ih => rw [numberBytes, List.length_cons, ih]

theorem holds_append : Holds m a (l ++ l') ↔ Holds m a l ∧ Holds m (a + l.length) l' := by
  induction l generalizing a with
  | nil => simp [Holds]
  | cons b l ih =>
    rw [List.cons_append, Holds, Holds, ih, List.length_cons, and_assoc, Nat.add_right_comm,
      Nat.add_assoc]

theorem Holds.shift (h : Holds m a l) (hm : ∀ k < l.length, m (a + k) % 256 = m' (b + k) % 256) :
    Holds m' b l := by
  induction l generalizing a b with
  | nil => trivial
  | cons c l ih =>
    refine ⟨(hm 0 (Nat.succ_pos _)).symm.trans h.1, ih h.2 fun k hk => ?_⟩
    have hstep := hm (k + 1) (Nat.succ_lt_succ hk)
    rwa [Nat.add_comm k 1, ← Nat.add_assoc, ← Nat.add_assoc] at hstep

theorem load_of_holds (h : Holds m a (numberBytes n v)) (hv : v < 256 ^ n) : load m a n = v := by
  induction n generalizing a v with
  | zero =>
    rw [pow_zero] at hv
    rw [load]
    omega
  | succ n ih =>
    have hpow : 256 ^ (n + 1) = 256 * 256 ^ n := by ring
    obtain ⟨hfirst, hrest⟩ := h
    rw [load, hfirst, ih hrest (by omega)]
    omega

theorem holds_ofList (a : ℕ) (l : List ℕ) : Holds (ofList a l) a l := by
  have hdrop : ∀ k, Holds (ofList a l) (a + k) (l.drop k) := by
    intro k
    generalize hn : l.length - k = n
    induction n generalizing k with
    | zero =>
      rw [List.drop_eq_nil_of_le (by omega)]
      trivial
    | succ n ih =>
      have hk : k < l.length := by omega
      rw [List.drop_eq_getElem_cons hk]
      refine ⟨?_, ih (k + 1) (by omega)⟩
      rw [ofList, Nat.add_sub_cancel_left, List.getD_eq_getElem _ _ hk]
  exact hdrop 0

theorem load_ofWords (w : ℕ → ℕ) (q : ℕ) : load (ofWords w) (8 * q) 8 = w q % 2 ^ 64 := by
  have hload : ∀ n k, k + n = 8 → load (ofWords w) (8 * q + k) n = w q / 256 ^ k % 256 ^ n := by
    intro n
    induction n with
    | zero =>
      intro k _
      rw [pow_zero, Nat.mod_one]
      rfl
    | succ n ih =>
      intro k hk
      have hbyte : ofWords w (8 * q + k) = w q / 256 ^ k % 256 := by
        unfold ofWords
        rw [show (8 * q + k) / 8 = q by omega, show (8 * q + k) % 8 = k by omega]
      rw [load, hbyte, Nat.mod_mod, Nat.add_assoc, ih (k + 1) (by omega), pow_succ 256 k,
        ← Nat.div_div_eq_div_mul, pow_succ' 256 n, Nat.mod_mul]
  have h8 := hload 8 0 rfl
  rwa [Nat.add_zero, pow_zero, Nat.div_one] at h8

end Memory
