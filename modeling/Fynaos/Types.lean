import Mathlib.Data.Nat.Bitwise
import Mathlib.Tactic.NormNum
import Mathlib.Tactic.Ring

/-!
# Machine words, addresses and the ways a run can stop

`types.h` and the constants of `mm.h`. A 64-bit unsigned value is a natural number below `2 ^ 64`;
arithmetic that can leave that range goes through `wrap`, and that of 32 bits through `wrap32`. The
masks of the source are kept as masks (`&&&` with a complement); the lemmas of this module turn them
into division and remainder, which is what every later proof computes with.
-/

namespace Fynaos

/-- Unsigned 64-bit arithmetic wraps around. -/
def wrap (n : ℕ) : ℕ := n % 2 ^ 64

/-- Unsigned 32-bit arithmetic wraps around. -/
def wrap32 (n : ℕ) : ℕ := n % 2 ^ 32

/-- The 64-bit complement. -/
def lnot (n : ℕ) : ℕ := 2 ^ 64 - 1 - n

def alignUp (addr align : ℕ) : ℕ := wrap (addr + (align - 1)) &&& lnot (align - 1)

def invalidAddress : ℕ := 2 ^ 64 - 1

def kernelDirectBase : ℕ := 0xFFFF800000000000

abbrev pageSize : ℕ := 4096

abbrev pageShift : ℕ := 12

def pageMask : ℕ := lnot (pageSize - 1)

abbrev frameAllocated : BitVec 32 := 1

abbrev frameReserved : BitVec 32 := 2

abbrev frameMaxOrder : ℕ := 11

/-- Why a run does not return. `panic` is the source's own `panic`. A memory access through a
non-canonical pointer raises a general-protection exception, and `interrupt_service` panics on
every vector below 32 (`fault`). The others are states the C program gives no meaning to, or a
loop that outlives its bound; the theorems show that they do not occur. -/
inductive Halt where
  | panic (msg : String)
  | fault (address : ℕ)
  | wild (index : ℕ)
  | null
  | badOrder (order : ℤ)
  | spin
  deriving DecidableEq, Repr

section bind
variable {α β : Type} {x : Except Halt α} {f : α → Except Halt β} {a : α} {b : β} {e : Halt}

theorem ok_bind : (Except.ok a >>= f) = f a := (rfl)

theorem error_bind : (Except.error e >>= f) = .error e := (rfl)

theorem pure_eq : (pure a : Except Halt α) = .ok a := (rfl)

theorem bind_eq_ok : x >>= f = .ok b ↔ ∃ a, x = .ok a ∧ f a = .ok b := by
  cases x with
  | error e =>
    constructor
    · intro h
      cases h
    · rintro ⟨a, h, -⟩
      cases h
  | ok a =>
    constructor
    · intro h
      exact ⟨a, rfl, h⟩
    · rintro ⟨a', h, h'⟩
      cases h
      exact h'

end bind

/-- Virtual addresses of x86-64 with four-level paging: bits 47 to 63 agree. -/
def Canonical (address : ℕ) : Prop := address < 2 ^ 47 ∨ 2 ^ 64 - 2 ^ 47 ≤ address

instance (address : ℕ) : Decidable (Canonical address) := inferInstanceAs (Decidable (_ ∨ _))

/-! ### Masks as division -/

theorem wrap_lt (n : ℕ) : wrap n < 2 ^ 64 := Nat.mod_lt _ (by norm_num)

theorem wrap_of_lt {n : ℕ} (h : n < 2 ^ 64) : wrap n = n := Nat.mod_eq_of_lt h

theorem wrap32_of_lt {n : ℕ} (h : n < 2 ^ 32) : wrap32 n = n := Nat.mod_eq_of_lt h

theorem land_lnot {x k : ℕ} (hx : x < 2 ^ 64) (hk : k ≤ 64) :
    x &&& lnot (2 ^ k - 1) = x / 2 ^ k * 2 ^ k := by
  have hpow : 2 ^ k ≤ 2 ^ 64 := Nat.pow_le_pow_right (by norm_num) hk
  have hpos : 0 < 2 ^ k := Nat.two_pow_pos k
  have hlnot : lnot (2 ^ k - 1) = 2 ^ 64 - ((2 ^ k - 1) + 1) := by
    unfold lnot
    omega
  apply Nat.eq_of_testBit_eq
  intro i
  rw [Nat.testBit_and, hlnot, Nat.testBit_two_pow_sub_succ (by omega), Nat.testBit_two_pow_sub_one,
    ← Nat.shiftRight_eq_div_pow, ← Nat.shiftLeft_eq, Nat.testBit_shiftLeft, Nat.testBit_shiftRight]
  by_cases hi : i < k
  · simp [hi]
  · have hik : k ≤ i := Nat.le_of_not_lt hi
    by_cases h64 : i < 64
    · simp [hi, hik, h64]
    · have hzero : x.testBit i = false :=
        Nat.testBit_lt_two_pow (lt_of_lt_of_le hx (Nat.pow_le_pow_right (by norm_num) (by omega)))
      simp [hik, hzero]

theorem land_pageMask {x : ℕ} (hx : x < 2 ^ 64) : x &&& pageMask = x / 4096 * 4096 :=
  land_lnot (k := 12) hx (by norm_num)

theorem alignUp_page (a : ℕ) : alignUp a 4096 = wrap (a + 4095) / 4096 * 4096 :=
  land_lnot (k := 12) (wrap_lt _) (by norm_num)

theorem alignUp_sixteen (a : ℕ) : alignUp a 16 = wrap (a + 15) / 16 * 16 :=
  land_lnot (k := 4) (wrap_lt _) (by norm_num)

theorem shiftRight_page (a : ℕ) : a >>> pageShift = a / 4096 := Nat.shiftRight_eq_div_pow a 12

theorem shiftLeft_page (p : ℕ) : p <<< pageShift = p * 4096 := Nat.shiftLeft_eq p 12

end Fynaos
