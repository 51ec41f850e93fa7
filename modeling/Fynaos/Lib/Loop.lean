import Mathlib.Data.List.Basic

/-!
# Loops

A loop takes turns. Each of them ends the loop with a result, goes on in another state, or fails. What is done on
the way can be read off the states in which the turns begin (`visited`), so that it takes no second loop with a log.
-/

namespace Loop

variable {S A B E : Type}

/-- At most so many turns, and `spin` if that is not enough. -/
def run (turn : S → Except E (B ⊕ S)) (spin : E) : ℕ → S → Except E B
  | 0, _ => .error spin
  | fuel + 1, s => do
    match ← turn s with
    | .inl b => return b
    | .inr s => run turn spin fuel s

/-- The states in which the turns of `run` begin. -/
def visited (turn : S → Except E (B ⊕ S)) : ℕ → S → List S
  | 0, _ => []
  | fuel + 1, s => s :: match turn s with
    | .ok (.inr s) => visited turn fuel s
    | _ => []

variable {turn : S → Except E (B ⊕ S)} {spin e : E} {fuel : ℕ} {s : S} {x : Except E A} {next : A → S}

theorem run_error (h : turn s = .error e) : run turn spin (fuel + 1) s = .error e := by
  rw [run, h]
  rfl

theorem run_step (h : turn s = x >>= fun a => .ok (.inr (next a))) :
    run turn spin (fuel + 1) s = x >>= fun a => run turn spin fuel (next a) := by
  rw [run, h]
  cases x <;> rfl

theorem visited_error (h : turn s = .error e) : visited turn (fuel + 1) s = [s] := by
  rw [visited, h]

theorem visited_step : (turn s = x >>= fun a => .ok (.inr (next a))) →
    visited turn (fuel + 1) s = s :: match x with
      | .error _ => []
      | .ok a => visited turn fuel (next a) := by
  intro h
  rw [visited, h]
  cases x <;> rfl

end Loop
