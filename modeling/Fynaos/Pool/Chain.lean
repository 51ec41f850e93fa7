import Fynaos.Pool.Model

/-!
# Chains of blocks

`Chain r a prev bs stop`: from `a` up to `stop` the memory holds the blocks `bs`, given by length and
usage, one behind the other. Each carries its header, links to the next one (the last to `NULL`) and
back to the one before it (the first to `prev`), and has room for its own `struct block`.

An edit in the middle of a chain is described by `Chain.focus`: the part in front of a block can be
put back in front of whatever replaces the rest.
-/

namespace Fynaos

/-! ### Headers -/

def blockHeader (len : ℕ) (used : Bool) : ℕ := if used then len + 2 ^ 63 else len

section header
variable {l : ℕ}

theorem getBlockLen_eq (h : ℕ) : getBlockLen h = h % 2 ^ 63 :=
  Nat.and_two_pow_sub_one_eq_mod h 63

theorem getBlockLen_blockHeader (hl : l < 2 ^ 63) (u : Bool) :
    getBlockLen (blockHeader l u) = l := by
  rw [getBlockLen_eq, blockHeader]
  split_ifs
  · omega
  · omega

theorem isBlockUsed_blockHeader (hl : l < 2 ^ 63) (u : Bool) :
    isBlockUsed (blockHeader l u) = u := by
  have hbit : l.testBit 63 = false := Nat.testBit_lt_two_pow hl
  have hand : ∀ x : ℕ, x &&& 0x8000000000000000 = (x.testBit 63).toNat * 2 ^ 63 :=
    fun x => Nat.and_two_pow x 63
  have hbit' : (l + 2 ^ 63).testBit 63 = true := by
    rw [Nat.add_comm, Nat.testBit_two_pow_add_eq, hbit]
    rfl
  unfold isBlockUsed
  rw [hand, blockHeader]
  cases u with
  | false =>
    rw [if_neg Bool.false_ne_true, hbit]
    rfl
  | true =>
    rw [if_pos rfl, hbit']
    rfl

theorem blockHeader_or (hl : l < 2 ^ 63) : blockHeader l false ||| blockUsed = blockHeader l true := by
  have h := Nat.two_pow_add_eq_or_of_lt hl 1
  simp only [blockHeader, blockUsed, if_true, Bool.false_eq_true, if_false]
  rw [Nat.mul_one, Nat.or_comm, Nat.add_comm] at h
  exact h.symm

end header

/-! ### Chains -/

/-- The blocks in memory from `a` up to `stop`. -/
def Chain (r : Ram) : ℕ → ℕ → List (ℕ × Bool) → ℕ → Prop
  | a, _, [], stop => a = stop
  | a, prev, (l, u) :: bs, stop =>
    r.word a = blockHeader l u ∧ r.word (a + 8) = (if bs = [] then 0 else a + l) ∧
      r.word (a + 16) = prev ∧ 32 ≤ l ∧ Chain r (a + l) a bs stop

def usedBlocks : ℕ → List (ℕ × Bool) → List (ℕ × ℕ)
  | _, [] => []
  | a, (l, true) :: bs => (a, l) :: usedBlocks (a + l) bs
  | a, (l, false) :: bs => usedBlocks (a + l) bs

def payload (b : ℕ × ℕ) : Set ℕ := Set.Ico (b.1 + 24) (b.1 + b.2)

def totalLen (bs : List (ℕ × Bool)) : ℕ := (bs.map Prod.fst).sum

section chain
variable {r r' : Ram} {a prev stop l : ℕ} {u : Bool} {bs pre post : List (ℕ × Bool)} {b : ℕ × Bool}

@[simp] theorem totalLen_nil : totalLen [] = 0 := rfl

@[simp] theorem totalLen_cons : totalLen (b :: bs) = b.1 + totalLen bs := List.sum_cons

theorem Chain.stop_eq (h : Chain r a prev bs stop) : stop = a + totalLen bs := by
  induction bs generalizing a prev with
  | nil => exact h.symm
  | cons b bs ih =>
    rw [ih h.2.2.2.2, totalLen_cons]
    omega

theorem Chain.len_le (h : Chain r a prev bs stop) (hb : b ∈ bs) :
    32 ≤ b.1 ∧ a + b.1 ≤ stop := by
  induction bs generalizing a prev with
  | nil => exact absurd hb List.not_mem_nil
  | cons c bs ih =>
    obtain ⟨-, -, -, hlen, hrest⟩ := h
    rcases List.mem_cons.mp hb with rfl | hb
    · have := hrest.stop_eq
      exact ⟨hlen, by omega⟩
    · obtain ⟨h1, h2⟩ := ih hrest hb
      exact ⟨h1, by omega⟩

theorem Chain.length_le (h : Chain r a prev bs stop) : a + 32 * bs.length ≤ stop := by
  induction bs generalizing a prev with
  | nil => exact h.le
  | cons b bs ih =>
    obtain ⟨-, -, -, hlen, hrest⟩ := h
    have := ih hrest
    rw [List.length_cons]
    omega

theorem Chain.congr (h : Chain r a prev bs stop)
    (heq : ∀ x, a ≤ x → x < stop → r'.bytes x = r.bytes x) : Chain r' a prev bs stop := by
  induction bs generalizing a prev with
  | nil => exact h
  | cons b bs ih =>
    obtain ⟨h1, h2, h3, h4, h5⟩ := h
    have hstop := h5.stop_eq
    have hword : ∀ x, a ≤ x → x + 8 ≤ stop → r'.word x = r.word x := fun x hx hx' =>
      Ram.word_congr fun y hy hy' => heq y (by omega) (by omega)
    refine ⟨(hword _ (by omega) (by omega)).trans h1, (hword _ (by omega) (by omega)).trans h2,
      (hword _ (by omega) (by omega)).trans h3, h4, ih h5 fun x hx hx' => heq x (by omega) hx'⟩

theorem Chain.setPrev {p : ℕ} (h : Chain r a prev bs stop) (hne : bs ≠ [])
    (heq : ∀ x, a ≤ x → x < stop → x < a + 16 ∨ a + 24 ≤ x → r'.bytes x = r.bytes x)
    (hp : r'.word (a + 16) = p) : Chain r' a p bs stop := by
  cases bs with
  | nil => exact absurd rfl hne
  | cons b bs =>
    obtain ⟨h1, h2, -, h4, h5⟩ := h
    have hstop := h5.stop_eq
    refine ⟨?_, ?_, hp, h4, h5.congr fun x hx hx' => heq x (by omega) hx' (Or.inr (by omega))⟩
    · rw [← h1]
      exact Ram.word_congr fun x hx hx' => heq x hx (by omega) (Or.inl (by omega))
    · rw [← h2]
      exact Ram.word_congr fun x hx hx' => heq x (by omega) (by omega) (Or.inl (by omega))

theorem Chain.focus (h : Chain r a prev (pre ++ b :: post) stop) :
    ∃ p, Chain r (a + totalLen pre) p (b :: post) stop ∧
      ∀ r' bs', bs' ≠ [] → (∀ x, a ≤ x → x < a + totalLen pre → r'.bytes x = r.bytes x) →
        Chain r' (a + totalLen pre) p bs' stop → Chain r' a prev (pre ++ bs') stop := by
  induction pre generalizing a prev with
  | nil => exact ⟨prev, h, fun _ _ _ _ h' => h'⟩
  | cons c pre ih =>
    obtain ⟨h1, h2, h3, h4, h5⟩ := h
    obtain ⟨p, hfocus, hback⟩ := ih h5
    rw [totalLen_cons, ← Nat.add_assoc]
    refine ⟨p, hfocus, fun r' bs' hne heq h' => ?_⟩
    have hword : ∀ x, a ≤ x → x + 8 ≤ a + c.1 → r'.word x = r.word x := fun x hx hx' =>
      Ram.word_congr fun y hy hy' => heq y (by omega) (by omega)
    refine ⟨(hword _ (by omega) (by omega)).trans h1, (hword _ (by omega) (by omega)).trans ?_,
      (hword _ (by omega) (by omega)).trans h3, h4,
      hback r' bs' hne (fun x hx hx' => heq x (by omega) hx') h'⟩
    rw [h2, if_neg (by simp), if_neg (by simp [hne])]

theorem usedBlocks_bounds {a x l : ℕ} {bs : List (ℕ × Bool)} (h : (x, l) ∈ usedBlocks a bs) :
    a ≤ x ∧ x + l ≤ a + totalLen bs := by
  induction bs generalizing a with
  | nil => exact absurd h List.not_mem_nil
  | cons b bs ih =>
    obtain ⟨len, _ | _⟩ := b
    · obtain ⟨h1, h2⟩ := ih h
      rw [totalLen_cons]
      exact ⟨by omega, by omega⟩
    · rw [totalLen_cons]
      rcases List.mem_cons.mp h with heq | h
      · obtain ⟨rfl, rfl⟩ := Prod.mk.inj heq
        exact ⟨le_refl _, by omega⟩
      · obtain ⟨h1, h2⟩ := ih h
        exact ⟨by omega, by omega⟩

theorem usedBlocks_append (a : ℕ) (pre post : List (ℕ × Bool)) :
    usedBlocks a (pre ++ post) = usedBlocks a pre ++ usedBlocks (a + totalLen pre) post := by
  induction pre generalizing a with
  | nil => rfl
  | cons b pre ih =>
    obtain ⟨len, _ | _⟩ := b
    · rw [List.cons_append, usedBlocks, usedBlocks, ih, totalLen_cons, Nat.add_assoc]
    · rw [List.cons_append, usedBlocks, usedBlocks, ih, totalLen_cons, Nat.add_assoc,
        List.cons_append]

end chain

end Fynaos
