import Mathlib.Logic.Relation

/-!
# Runs of a transition system

Steps carry labels, and a condition says which labels are meant to be used in a state. An invariant that each such
step keeps holds after every run (`Run.invariant`), and what no step of a run changes is at its end as it was at its
beginning (`Run.constant`).
-/

namespace Transition

variable {S A B : Type*}

/-- Steps with labels that are allowed. -/
def Run (Allowed : S → A → Prop) (Step : S → A → S → Prop) : S → S → Prop :=
  Relation.ReflTransGen fun s t => ∃ a, Allowed s a ∧ Step s a t

variable {Allowed : S → A → Prop} {Step : S → A → S → Prop} {Inv : S → Prop} {s t u : S} {a : A}

theorem Run.refl (s : S) : Run Allowed Step s s := Relation.ReflTransGen.refl

theorem Run.tail (h : Run Allowed Step s t) (ha : Allowed t a) (hstep : Step t a u) : Run Allowed Step s u :=
  Relation.ReflTransGen.tail h ⟨a, ha, hstep⟩

theorem Run.trans (h : Run Allowed Step s t) (h' : Run Allowed Step t u) : Run Allowed Step s u :=
  Relation.ReflTransGen.trans h h'

theorem Run.invariant (h : Run Allowed Step s t)
    (hkeep : ∀ {s a t}, Allowed s a → Step s a t → Inv s → Inv t) (hs : Inv s) : Inv t := by
  induction h with
  | refl => exact hs
  | tail _ hst ih =>
    obtain ⟨a, ha, hstep⟩ := hst
    exact hkeep ha hstep ih

theorem Run.constant {f : S → B} (h : Run Allowed Step s t)
    (hkeep : ∀ {s a t}, Allowed s a → Step s a t → Inv s → Inv t)
    (hconst : ∀ {s a t}, Allowed s a → Step s a t → Inv s → f t = f s) (hs : Inv s) : f t = f s := by
  induction h with
  | refl => rfl
  | tail hrun hst ih =>
    obtain ⟨a, ha, hstep⟩ := hst
    exact (hconst ha hstep (Run.invariant hrun hkeep hs)).trans ih

end Transition
