import Mathlib.Logic.Function.Basic
import Mathlib.Order.CompletePartialOrder
import Mathlib.Order.Interval.Set.Basic
import Mathlib.Tactic.Ring

/-!
# Byte-addressed memory

A memory gives a byte to every address. `load` and `store` move little-endian numbers of any width,
`fill` sets a range to one byte. The lemmas say when two accesses see each other: a load returns what
was stored at its own place (`load_store_self`), is blind to a store elsewhere (`load_store_of_disjoint`),
and only depends on the bytes it covers (`load_congr`).
-/

namespace Memory

/-- A byte for every address. Values from 256 on count modulo 256. -/
abbrev Bytes := ℕ → ℕ

/-- The little-endian number in the `n` bytes from `a` on. -/
def load (m : Bytes) : ℕ → ℕ → ℕ
  | _, 0 => 0
  | a, n + 1 => m a % 256 + 256 * load m (a + 1) n

/-- The `n` low bytes of `v` go to the addresses from `a` on. -/
def store (m : Bytes) : ℕ → ℕ → ℕ → Bytes
  | _, 0, _ => m
  | a, n + 1, v => store (Function.update m a (v % 256)) (a + 1) n (v / 256)

/-- The byte `v` goes to `n` addresses from `a` on, one after the other. -/
def fill (m : Bytes) : ℕ → ℕ → ℕ → Bytes
  | _, 0, _ => m
  | a, n + 1, v => fill (Function.update m a (v % 256)) (a + 1) n v

variable {m m' : Bytes} {a b n k v x : ℕ}

theorem load_congr (h : ∀ x, a ≤ x → x < a + n → m x = m' x) : load m a n = load m' a n := by
  induction n generalizing a with
  | zero => rfl
  | succ n ih =>
    rw [load, load, h a (le_refl _) (by omega)]
    rw [ih fun x h1 h2 => h x (by omega) (by omega)]

theorem load_lt (m : Bytes) (a n : ℕ) : load m a n < 256 ^ n := by
  induction n generalizing a with
  | zero => simp [load]
  | succ n ih =>
    have h1 := ih (a + 1)
    have h2 : m a % 256 < 256 := Nat.mod_lt _ (by norm_num)
    have hpow : 256 ^ (n + 1) = 256 * 256 ^ n := by ring
    rw [load, hpow]
    omega

theorem store_of_notMem (h : x < a ∨ a + n ≤ x) : store m a n v x = m x := by
  induction n generalizing m a v with
  | zero => rfl
  | succ n ih =>
    rw [store, ih (by omega)]
    exact Function.update_of_ne (by omega) _ _

theorem load_store_self (hv : v < 256 ^ n) : load (store m a n v) a n = v := by
  induction n generalizing m a v with
  | zero =>
    rw [pow_zero] at hv
    rw [load]
    omega
  | succ n ih =>
    have hpow : 256 ^ (n + 1) = 256 * 256 ^ n := by ring
    rw [load, store, store_of_notMem (by omega), Function.update_self, ih (by omega)]
    omega

theorem load_store_of_disjoint (h : a + n ≤ b ∨ b + k ≤ a) :
    load (store m b k v) a n = load m a n :=
  load_congr fun _ h1 h2 => store_of_notMem (by omega)

theorem fill_of_notMem (h : x < a ∨ a + n ≤ x) : fill m a n v x = m x := by
  induction n generalizing m a with
  | zero => rfl
  | succ n ih =>
    rw [fill, ih (by omega)]
    exact Function.update_of_ne (by omega) _ _

theorem fill_of_mem (h1 : a ≤ x) (h2 : x < a + n) : fill m a n v x = v % 256 := by
  induction n generalizing m a with
  | zero => omega
  | succ n ih =>
    rw [fill]
    rcases Nat.eq_or_lt_of_le h1 with rfl | h1
    · rw [fill_of_notMem (by omega), Function.update_self]
    · exact ih h1 (by omega)

theorem load_eq_zero (h : ∀ x, a ≤ x → x < a + n → m x = 0) : load m a n = 0 := by
  induction n generalizing a with
  | zero => rfl
  | succ n ih =>
    rw [load, h a (le_refl _) (by omega), ih fun x h1 h2 => h x (by omega) (by omega)]

theorem load_fill_zero (h1 : b ≤ a) (h2 : a + n ≤ b + k) : load (fill m b k 0) a n = 0 :=
  load_eq_zero fun _ h3 h4 => fill_of_mem (by omega) (by omega)

end Memory
