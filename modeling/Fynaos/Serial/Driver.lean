import Fynaos.Serial.Wire

/-!
# A call that nothing interrupts

`uart_write_str` is a run of the machine with one call at work (`uartWriteStr_run`), so what it is called with goes to
the chip. It returns when the chip keeps sending (`uartWriteStr_returns`).
-/

namespace Fynaos.Serial

variable {ticks : ℕ → ℕ} {w w' : Wire} {m : Machine} {d fuel i : ℕ} {ch : UInt8} {s : List UInt8} {ws : List Writer}

/-! ### A run of the machine -/

theorem ticks_run (k : ℕ) (m : Machine) :
    Transition.Run (Shallow d) Step m { m with chip := Chip.tick^[k] m.chip } := by
  induction k generalizing m with
  | zero => exact Transition.Run.refl m
  | succ k ih =>
    have hstart : Transition.Run (Shallow d) Step m m := Transition.Run.refl m
    have htick := hstart.tail (a := Event.tick) trivial Step.tick
    exact htick.trans (ih { m with chip := m.chip.tick })

theorem uartWrite_run (hrun : uartWrite ticks ch fuel w = .ok w') (hchip : m.chip = w.chip)
    (hstack : m.stack = ⟨i, ch :: s, false⟩ :: ws) : ∃ n, Transition.Run (Shallow d) Step m n ∧
      n.chip = w'.chip ∧ n.stack = ⟨i, s, false⟩ :: ws ∧ n.written = m.written ++ [(i, ch)] := by
  induction fuel generalizing w m with
  | zero => cases hrun
  | succ fuel ih =>
    rw [uartWrite, inbStatus] at hrun
    dsimp only at hrun
    -- the chip goes on, and then the driver looks at the line status
    have hnow := ticks_run (d := d) (ticks w.time) m
    have hpoll := hnow.tail (a := Event.poll) trivial (Step.poll hstack (List.cons_ne_nil _ _) rfl)
    rw [hchip] at hpoll
    split_ifs at hrun with hstatus
    · obtain ⟨n, hrun, hn⟩ := ih hrun rfl (m := { m with
        chip := Chip.tick^[ticks w.time] w.chip }) hstack
      rw [hchip] at hnow
      exact ⟨n, hnow.trans hrun, hn⟩
    · cases hrun
      have hready : decide ((Chip.tick^[ticks w.time] w.chip).lineStatus &&& 0x20 ≠ 0) = true := decide_eq_true hstatus
      have hlater := hpoll.trans (ticks_run (ticks (w.time + 1)) _)
      have hsend := hlater.tail (a := Event.send) trivial (Step.send rfl rfl hready)
      exact ⟨_, hsend, rfl, rfl, rfl⟩

theorem uartWriteStr_run (hrun : uartWriteStr ticks fuel s w = .ok w') (hchip : m.chip = w.chip)
    (hstack : m.stack = ⟨i, s, false⟩ :: ws) : ∃ n, Transition.Run (Shallow d) Step m n ∧
      n.chip = w'.chip ∧ n.stack = ⟨i, [], false⟩ :: ws ∧ n.written = m.written ++ s.map fun ch => (i, ch) := by
  induction s generalizing w m with
  | nil =>
    cases hrun
    exact ⟨m, Transition.Run.refl m, hchip, hstack, (List.append_nil _).symm⟩
  | cons ch s ih =>
    rw [uartWriteStr] at hrun
    obtain ⟨w₁, hfirst, hrest⟩ := bind_eq_ok.mp hrun
    obtain ⟨m₁, hrun₁, hchip₁, hstack₁, hwritten₁⟩ := uartWrite_run (d := d) hfirst hchip hstack
    obtain ⟨n, hrun₂, hchip₂, hstack₂, hwritten₂⟩ := ih hrest hchip₁ hstack₁
    refine ⟨n, hrun₁.trans hrun₂, hchip₂, hstack₂, ?_⟩
    rw [hwritten₂, hwritten₁, List.map_cons, List.append_assoc, List.singleton_append]

/-- The chip is set up, and its queue is not longer than the FIFO. -/
structure Steady (u : Chip) : Prop extends Configured u where
  room : u.queue.length ≤ 16

theorem uartWriteStr_delivers (h : Steady w.chip) (hrun : uartWriteStr ticks fuel s w = .ok w') :
    Steady w'.chip ∧ Delivers w.chip w'.chip s := by
  obtain ⟨n, hrun, hchip, -, hwritten⟩ := uartWriteStr_run (d := 16) (m := ⟨w.chip, [⟨0, s, false⟩], 1, fun _ => s, []⟩)
    hrun rfl rfl
  have hstart : Good w.chip 16 ⟨w.chip, [⟨0, s, false⟩], 1, fun _ => s, []⟩ :=
    ⟨h.toConfigured, by simp, by simpa using h.room, Delivers.refl _⟩
  have hgood := hrun.invariant (fun hallowed hstep => Good.step (Nat.le_refl 16) hallowed hstep) hstart
  have hroom := hgood.room
  have hdelivers := hgood.delivers
  rw [hwritten, hchip] at hdelivers
  rw [hchip] at hroom
  refine ⟨⟨hchip ▸ hgood.configured, by omega⟩, ?_⟩
  simpa [Function.comp_def] using hdelivers

/-! ### The chip keeps sending -/

/-- Bytes leave the chip again and again. -/
def Fair (ticks : ℕ → ℕ) : Prop := ∀ n, ∃ k, 0 < ticks (n + k)

theorem uartWrite_mono {fuel' : ℕ} (hle : fuel ≤ fuel') (hrun : uartWrite ticks ch fuel w = .ok w') :
    uartWrite ticks ch fuel' w = .ok w' := by
  induction fuel generalizing w fuel' with
  | zero => cases hrun
  | succ fuel ih =>
    obtain ⟨fuel', rfl⟩ := Nat.exists_eq_add_of_le' (Nat.one_le_of_lt hle)
    rw [uartWrite] at hrun ⊢
    dsimp only at hrun ⊢
    split_ifs at hrun ⊢
    · exact ih (Nat.le_of_succ_le_succ hle) hrun
    · exact hrun

theorem uartWrite_retry (h : ∃ fuel w', uartWrite ticks ch fuel ⟨w.now ticks, w.time + 1⟩ = .ok w') :
    ∃ fuel w', uartWrite ticks ch fuel w = .ok w' := by
  obtain ⟨fuel, w', hrun⟩ := h
  by_cases hstatus : (w.now ticks).lineStatus &&& 0x20 = 0
  · refine ⟨fuel + 1, w', ?_⟩
    rw [uartWrite, inbStatus]
    exact (if_pos hstatus).trans hrun
  · refine ⟨1, outb ticks com ch ⟨w.now ticks, w.time + 1⟩, ?_⟩
    rw [uartWrite, inbStatus]
    exact if_neg hstatus

theorem uartWrite_returns (hfair : Fair ticks) (ch : UInt8) (w : Wire) :
    ∃ fuel w', uartWrite ticks ch fuel w = .ok w' := by
  obtain ⟨q, hq⟩ : ∃ q, w.chip.queue.length ≤ q := ⟨_, Nat.le_refl _⟩
  obtain ⟨k, hk⟩ := hfair w.time
  -- by the length of the queue, and for one length by the time until the next byte leaves
  induction q generalizing w k with
  | zero =>
    have hempty : (w.now ticks).queue = [] := by
      rw [Wire.now, Chip.ticks_queue, List.eq_nil_of_length_eq_zero (Nat.le_zero.mp hq), List.drop_nil]
    refine ⟨1, outb ticks com ch ⟨w.now ticks, w.time + 1⟩, ?_⟩
    rw [uartWrite, inbStatus]
    exact if_neg (mt Chip.lineStatus_eq_zero.mp (not_not.mpr hempty))
  | succ q ihq =>
    have hlength : (w.now ticks).queue.length = w.chip.queue.length - ticks w.time := by
      rw [Wire.now, Chip.ticks_queue, List.length_drop]
    induction k generalizing w with
    | zero =>
      rw [Nat.add_zero] at hk
      obtain ⟨k', hk'⟩ := hfair (w.time + 1)
      apply uartWrite_retry
      exact ihq ⟨w.now ticks, w.time + 1⟩ (by dsimp only; omega) k' hk'
    | succ k ihk =>
      apply uartWrite_retry
      apply ihk ⟨w.now ticks, w.time + 1⟩
      · dsimp only
        omega
      · rwa [Nat.add_right_comm]
      · rw [Wire.now, Chip.ticks_queue, List.length_drop]

theorem uartWriteStr_returns (hfair : Fair ticks) (s : List UInt8) (w : Wire) :
    ∃ w' fuel₀, ∀ fuel ≥ fuel₀, uartWriteStr ticks fuel s w = .ok w' := by
  induction s generalizing w with
  | nil => exact ⟨w, 0, fun _ _ => rfl⟩
  | cons ch s ih =>
    obtain ⟨fuel₁, w₁, hfirst⟩ := uartWrite_returns hfair ch w
    obtain ⟨w', fuel₂, hrest⟩ := ih w₁
    refine ⟨w', max fuel₁ fuel₂, fun fuel hfuel => ?_⟩
    rw [uartWriteStr, uartWrite_mono (Nat.le_trans (Nat.le_max_left _ _) hfuel) hfirst, ok_bind]
    exact hrest fuel (Nat.le_trans (Nat.le_max_right _ _) hfuel)

theorem uartWriteStr_served (hfair : Fair ticks) (h : Steady w.chip) (s : List UInt8) :
    ∃ w' fuel₀, (∀ fuel ≥ fuel₀, uartWriteStr ticks fuel s w = .ok w') ∧
      Steady w'.chip ∧ Delivers w.chip w'.chip s := by
  obtain ⟨w', fuel₀, hrun⟩ := uartWriteStr_returns hfair s w
  exact ⟨w', fuel₀, hrun, uartWriteStr_delivers h (hrun fuel₀ (Nat.le_refl _))⟩

theorem uartWrite_served (hfair : Fair ticks) (h : Steady w.chip) (ch : UInt8) :
    ∃ w' fuel₀, (∀ fuel ≥ fuel₀, uartWrite ticks ch fuel w = .ok w') ∧
      Steady w'.chip ∧ Delivers w.chip w'.chip [ch] := by
  obtain ⟨fuel₀, w', hrun⟩ := uartWrite_returns hfair ch w
  have hstring : uartWriteStr ticks fuel₀ [ch] w = .ok w' := by rw [uartWriteStr, hrun, ok_bind, uartWriteStr]
  exact ⟨w', fuel₀, fun fuel hfuel => uartWrite_mono hfuel hrun, uartWriteStr_delivers h hstring⟩

end Fynaos.Serial
