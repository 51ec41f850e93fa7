import Mathlib.Data.Finset.Card
import Mathlib.Data.List.Nodup

/-!
# Null-terminated singly linked lists

`IsList next head l`: following the link function `next` from `head` visits exactly the nodes of
`l`, in order, and then stops. The link function is arbitrary, so the same relation describes a
list threaded through an array, a heap or a table of records. A list given this way determines its
nodes (`IsList.unique`) and so cannot visit one node twice (`IsList.nodup`): finite means acyclic.

The edits are stated for a second link function that agrees with the first where it has to, never
for a particular way of updating it: `IsList.push`, `IsList.unlink`.
-/

namespace NextList

variable {α : Type*} {next next' : α → Option α}

/-- Following `next` from `head` visits the nodes of `l` in order and ends in `none`. -/
def IsList (next : α → Option α) : Option α → List α → Prop
  | head, [] => head = none
  | head, p :: l => head = some p ∧ IsList next (next p) l

@[simp] theorem isList_nil {head : Option α} : IsList next head [] ↔ head = none := Iff.rfl

@[simp] theorem isList_cons {head : Option α} {p : α} {l : List α} :
    IsList next head (p :: l) ↔ head = some p ∧ IsList next (next p) l := Iff.rfl

theorem isList_none {l : List α} (h : IsList next none l) : l = [] := by
  cases l with
  | nil => rfl
  | cons p l => exact absurd h.1 (by simp)

theorem isList_some {p : α} {l : List α} (h : IsList next (some p) l) :
    ∃ l', l = p :: l' ∧ IsList next (next p) l' := by
  cases l with
  | nil => exact absurd h (by simp)
  | cons q l =>
    obtain ⟨hq, hl⟩ := h
    cases hq
    exact ⟨l, rfl, hl⟩

theorem IsList.unique {head : Option α} {l l' : List α} (h : IsList next head l)
    (h' : IsList next head l') : l = l' := by
  induction l generalizing head l' with
  | nil =>
    rw [isList_nil] at h
    subst h
    exact (isList_none h').symm
  | cons p l ih =>
    obtain ⟨rfl, hl⟩ := h
    obtain ⟨l'', rfl, hl''⟩ := isList_some h'
    rw [ih hl hl'']

theorem IsList.congr {head : Option α} {l : List α} (h : IsList next head l)
    (heq : ∀ p ∈ l, next' p = next p) : IsList next' head l := by
  induction l generalizing head with
  | nil => exact h
  | cons p l ih =>
    refine ⟨h.1, ?_⟩
    rw [heq p List.mem_cons_self]
    exact ih h.2 fun q hq => heq q (List.mem_cons_of_mem _ hq)

theorem IsList.suffix {head : Option α} {pre post : List α} {p : α}
    (h : IsList next head (pre ++ p :: post)) : IsList next (some p) (p :: post) := by
  induction pre generalizing head with
  | nil => exact ⟨rfl, h.2⟩
  | cons q pre ih => exact ih h.2

theorem IsList.nodup {head : Option α} {l : List α} (h : IsList next head l) : l.Nodup := by
  induction l generalizing head with
  | nil => exact List.nodup_nil
  | cons p l ih =>
    refine List.nodup_cons.mpr ⟨fun hmem => ?_, ih h.2⟩
    -- a second visit to `p` would start the same list again, one node shorter at least
    obtain ⟨pre, post, rfl⟩ := List.append_of_mem hmem
    have hinner : IsList next (some p) (p :: post) := h.2.suffix
    have hlen := congrArg List.length (h.2.unique hinner.2)
    simp at hlen
    omega

theorem IsList.length_le {next : ℕ → Option ℕ} {head : Option ℕ} {l : List ℕ} {n : ℕ}
    (h : IsList next head l) (hlt : ∀ p ∈ l, p < n) : l.length ≤ n := by
  have hcard := List.toFinset_card_of_nodup h.nodup
  have hsub : l.toFinset ⊆ Finset.range n := fun p hp => by
    rw [Finset.mem_range]
    exact hlt p (List.mem_toFinset.mp hp)
  have hle := Finset.card_le_card hsub
  rw [Finset.card_range] at hle
  omega

theorem IsList.push {head : Option α} {l : List α} {p : α} (h : IsList next head l)
    (hp : next' p = head) (heq : ∀ q ∈ l, next' q = next q) : IsList next' (some p) (p :: l) :=
  ⟨rfl, by rw [hp]; exact h.congr heq⟩

/-- Unlinking the node `x` behind `y`: `y` takes over the link of `x`. -/
theorem IsList.unlink {head : Option α} {pre post : List α} {x y : α}
    (h : IsList next head (pre ++ y :: x :: post)) (hy : next' y = next x)
    (heq : ∀ q ∈ pre ++ post, next' q = next q) : IsList next' head (pre ++ y :: post) := by
  induction pre generalizing head with
  | nil =>
    refine ⟨h.1, ?_⟩
    rw [hy]
    exact h.2.2.congr heq
  | cons q pre ih =>
    refine ⟨h.1, ?_⟩
    rw [heq q (by simp)]
    exact ih h.2 fun r hr => heq r (by simp at hr ⊢; tauto)

theorem IsList.snoc {head : Option α} {l : List α} {t x : α} (h : IsList next head (l ++ [t]))
    (ht : next' t = some x) (hx : next' x = none) (heq : ∀ q ∈ l, next' q = next q) :
    IsList next' head (l ++ [t, x]) := by
  induction l generalizing head with
  | nil => exact ⟨h.1, ht, hx⟩
  | cons q l ih =>
    refine ⟨h.1, ?_⟩
    rw [heq q List.mem_cons_self]
    exact ih h.2 fun r hr => heq r (List.mem_cons_of_mem _ hr)

end NextList
