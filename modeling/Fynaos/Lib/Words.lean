import Fynaos.Lib.Memory

/-!
# Lists of words in memory

`Words m a l` says that the 64-bit words from `a` on are those of a list, as a stack with its top at `a`
holds them. Storing a word below the top is a push (`Words.push`), and what is stored elsewhere does not
matter (`Words.congr`).
-/

namespace Memory

def Words (m : Bytes) : ℕ → List ℕ → Prop
  | _, [] => True
  | a, v :: l => load m a 8 = v ∧ Words m (a + 8) l

variable {m m' : Bytes} {a v i : ℕ} {l l' : List ℕ}

theorem Words.congr (h : Words m a l) (heq : ∀ x, a ≤ x → x < a + 8 * l.length → m x = m' x) :
    Words m' a l := by
  induction l generalizing a with
  | nil => trivial
  | cons v l ih =>
    rw [List.length_cons] at heq
    refine ⟨?_, ih h.2 fun x h1 h2 => heq x (by omega) (by omega)⟩
    rw [← h.1]
    exact (load_congr fun x h1 h2 => heq x h1 (by omega)).symm

theorem words_append : Words m a (l ++ l') ↔ Words m a l ∧ Words m (a + 8 * l.length) l' := by
  induction l generalizing a with
  | nil => simp [Words]
  | cons v l ih =>
    have haddr : a + 8 + 8 * l.length = a + 8 * (l.length + 1) := by ring
    rw [List.cons_append, Words, Words, ih, List.length_cons, haddr, and_assoc]

theorem Words.push (h : Words m (a + 8) l) (hv : v < 2 ^ 64) : Words (store m a 8 v) a (v :: l) :=
  ⟨load_store_self hv, h.congr fun _ h1 _ => (store_of_notMem (by omega)).symm⟩

theorem Words.get (h : Words m a l) (hi : i < l.length) : load m (a + 8 * i) 8 = l.get ⟨i, hi⟩ := by
  induction l generalizing a i with
  | nil => exact absurd hi (Nat.not_lt_zero i)
  | cons v l ih =>
    cases i with
    | zero => exact h.1
    | succ i =>
      have haddr : a + 8 * (i + 1) = a + 8 + 8 * i := by ring
      rw [haddr]
      exact ih h.2 (Nat.lt_of_succ_lt_succ hi)

theorem Words.unique (h : Words m a l) (h' : Words m a l') (hlen : l.length = l'.length) : l = l' := by
  refine List.ext_get hlen fun i hi hi' => ?_
  rw [← h.get hi, ← h'.get hi']

end Memory
