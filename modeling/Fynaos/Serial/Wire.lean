import Fynaos.Lib.Transition
import Fynaos.Serial.Model

/-!
# No byte is lost

`uart_write` stores when the queue is empty. An interrupt may come in behind its look at the line status, and then the
handler finds the queue empty as well; so there can be a byte for each call at work, and the queue has room for sixteen
(`Good`). With more calls at work one can be lost, so sixteen is the exact bound (`calls_lossless_iff`).
-/

namespace Fynaos.Serial

variable {ticks : ℕ → ℕ} {u v : Chip} {w : Wire} {m n : Machine} {d : ℕ} {s : List UInt8}

/-! ### The chip -/

@[simp] theorem Chip.tick_config : u.tick.config = u.config := rfl

@[simp] theorem Chip.tick_queue : u.tick.queue = u.queue.tail := rfl

@[simp] theorem Chip.ticks_config (n : ℕ) : (Chip.tick^[n] u).config = u.config := by
  induction n generalizing u with
  | zero => rfl
  | succ n ih => simp [Function.iterate_succ_apply, ih]

@[simp] theorem Chip.ticks_queue (n : ℕ) : (Chip.tick^[n] u).queue = u.queue.drop n := by
  induction n generalizing u with
  | zero => rfl
  | succ n ih => simp [Function.iterate_succ_apply, ih]

theorem Chip.lineStatus_eq_zero : u.lineStatus &&& 0x20 = 0 ↔ u.queue ≠ [] := by
  unfold Chip.lineStatus
  by_cases hq : u.queue = []
  · by_cases hs : u.shift = none
    · simp only [hq, hs]
      decide
    · simp [hq, hs]
  · simp [hq]

namespace Configured

theorem loopback (h : Configured u) : u.config.loopback = false := by
  rw [Config.loopback, h.mcr]
  decide

theorem dlab (h : Configured u) : u.config.dlab = false := by
  rw [Config.dlab, h.lcr]
  decide

theorem congr (h : Configured u) (heq : v.config = u.config) : Configured v := by
  obtain ⟨hdivisor, hlcr, hmcr, hfifo⟩ := h
  rw [← heq] at hdivisor hlcr hmcr hfifo
  exact ⟨hdivisor, hlcr, hmcr, hfifo⟩

theorem write (h : Configured u) (hroom : u.queue.length < 16) (v : UInt8) :
    u.write 0 v = { u with queue := u.queue ++ [v] } := by
  have hcapacity : u.config.capacity = 16 := by simp [Config.capacity, h.fifo]
  simp [Chip.write, h.dlab, Chip.transmit, hcapacity, hroom]

theorem overrun (h : Configured u) (hfull : u.queue.length = 16) (v : UInt8) :
    u.write 0 v = { u with lost := u.lost ++ [v] } := by
  have hcapacity : u.config.capacity = 16 := by simp [Config.capacity, h.fifo]
  simp [Chip.write, h.dlab, Chip.transmit, hcapacity, hfull, h.fifo]

end Configured

theorem Delivers.refl (u : Chip) : Delivers u u [] :=
  ⟨rfl, (List.append_nil _).symm, [], (List.append_nil _).symm, by simp⟩

theorem Delivers.trans {s' : List UInt8} {x : Chip} (h : Delivers u v s) (h' : Delivers v x s') :
    Delivers u x (s ++ s') := by
  obtain ⟨hlost, hpipeline, sent, hline, hsent⟩ := h
  obtain ⟨hlost', hpipeline', sent', hline', hsent'⟩ := h'
  refine ⟨hlost'.trans hlost, ?_, sent ++ sent', ?_, ?_⟩
  · rw [hpipeline', hpipeline, List.append_assoc]
  · rw [hline', hline, List.append_assoc]
  · intro b hb
    rcases List.mem_append.mp hb with hb | hb
    · exact hsent b hb
    · exact hsent' b hb

theorem Configured.delivers_tick (h : Configured u) : Delivers u u.tick [] := by
  refine ⟨rfl, ?_, u.shift.toList.map fun b => ⟨b, 1, 0x03⟩, ?_, ?_⟩
  · simp only [Chip.pipeline, Chip.tick, h.loopback]
    cases u.shift <;> cases u.queue <;> simp
  · simp [Chip.tick, h.loopback, h.divisor, h.lcr]
  · intro b hb
    obtain ⟨c, -, rfl⟩ := List.mem_map.mp hb
    exact ⟨rfl, rfl⟩

theorem Configured.delivers_write (h : Configured u) (hroom : u.queue.length < 16) (v : UInt8) :
    Delivers u (u.write 0 v) [v] := by
  rw [h.write hroom]
  exact ⟨rfl, by simp [Chip.pipeline], [], (List.append_nil _).symm, by simp⟩

/-! ### `uart_init` -/

section init

/-- What the stores of `uart_init` make of the registers. -/
def Config.write (register : ℕ) (v : UInt8) (c : Config) : Config :=
  match register with
  | 0 => if c.dlab then { c with dll := v } else c
  | 1 => if c.dlab then { c with dlm := v } else { c with ier := v }
  | 2 => { c with fifo := v &&& 1 ≠ 0 }
  | 3 => { c with lcr := v }
  | 4 => { c with mcr := v }
  | _ => c

theorem Chip.transmit_config (v : UInt8) (u : Chip) : (u.transmit v).config = u.config := by
  unfold Chip.transmit
  split_ifs <;> rfl

theorem Chip.fifoControl_config (v : UInt8) (u : Chip) : (u.fifoControl v).config = u.config.write 2 v := by
  unfold Chip.fifoControl
  dsimp only
  split_ifs with h
  · obtain ⟨h, -⟩ := h
    rw [Config.write, h]
  · rfl

theorem Chip.write_config (register : ℕ) (v : UInt8) (u : Chip) :
    (u.write register v).config = u.config.write register v := by
  match register with
  | 0 =>
    simp only [Chip.write, Config.write]
    split_ifs
    · rfl
    · exact Chip.transmit_config v u
  | 1 =>
    simp only [Chip.write, Config.write]
    split_ifs <;> rfl
  | 2 => exact Chip.fifoControl_config v u
  | 3 => rfl
  | 4 => rfl
  | _ + 5 => rfl

theorem outb_config (port : ℕ) (v : UInt8) :
    (outb ticks port v w).chip.config = w.chip.config.write (port - com) v := by
  rw [outb, Chip.write_config, Wire.now, Chip.ticks_config]

theorem uartInit_config (ticks : ℕ → ℕ) (w : Wire) : (uartInit ticks w).chip.config =
    ⟨if w.chip.config.dlab then w.chip.config.ier else 0, 1, 0, 0x03, 0x0B, true⟩ := by
  have hfifo : (0xC7 &&& 1 : UInt8) ≠ 0 := by decide
  simp only [uartInit, outb_config, Nat.add_sub_cancel_left]
  generalize w.chip.config = c
  rw [show c.write 1 0 = if c.dlab then { c with dlm := 0 } else { c with ier := 0 } from rfl]
  split_ifs <;> simp [Config.write, Config.dlab, hfifo]

theorem Chip.fifoControl_clears (u : Chip) : (u.fifoControl 0xC7).queue = [] := by
  have hon : (0xC7 &&& 1 : UInt8) ≠ 0 := by decide
  have hclear : (0xC7 &&& 4 : UInt8) ≠ 0 := by decide
  simp [Chip.fifoControl, hon, hclear]

/-- Whatever the chip did before, it is set up, and its FIFO is empty. -/
theorem uartInit_configured (ticks : ℕ → ℕ) (w : Wire) :
    Configured (uartInit ticks w).chip ∧ (uartInit ticks w).chip.queue = [] := by
  constructor
  · have hconfig := uartInit_config ticks w
    constructor <;> simp [hconfig]
  · unfold uartInit
    generalize outb ticks (com + 3) 0x03 _ = w
    simp only [outb, Wire.now, Nat.add_sub_cancel_left, Chip.write, Chip.ticks_queue, Chip.fifoControl_clears,
      List.drop_nil]

end init

/-! ### Calls that interrupt each other -/

section calls

/-- A call that has seen the queue empty will store one byte, whatever the others do before. -/
structure Good (u : Chip) (d : ℕ) (m : Machine) : Prop where
  configured : Configured m.chip
  depth : m.stack.length ≤ d
  room : m.chip.queue.length + m.stack.countP Writer.ready ≤ d
  delivers : Delivers u m.chip (m.written.map Prod.snd)

theorem Good.start (d : ℕ) (h : Configured u) (hempty : u.queue = []) : Good u d (idle u) where
  configured := h
  depth := Nat.zero_le d
  room := by simp [idle, hempty]
  delivers := Delivers.refl u

theorem Good.tick (h : Good u d m) : Good u d { m with chip := m.chip.tick } where
  configured := h.configured.congr rfl
  depth := h.depth
  room := by
    have hroom := h.room
    simp only [Chip.tick_queue, List.length_tail]
    omega
  delivers := by
    have hdelivers := h.delivers.trans h.configured.delivers_tick
    rw [List.append_nil] at hdelivers
    exact hdelivers

theorem Good.poll {w : Writer} {ws : List Writer} (h : Good u d m) (hstack : m.stack = w :: ws)
    (hwait : w.ready = false) :
    Good u d { m with stack := { w with ready := m.chip.lineStatus &&& 0x20 ≠ 0 } :: ws } where
  configured := h.configured
  depth := by
    have hdepth := h.depth
    rw [hstack] at hdepth
    exact hdepth
  room := by
    have hdepth := h.depth
    have hroom := h.room
    have hcount := List.countP_le_length (p := Writer.ready) (l := ws)
    rw [hstack, List.length_cons] at hdepth
    rw [hstack, List.countP_cons, hwait] at hroom
    rw [List.countP_cons]
    by_cases hempty : m.chip.queue = []
    · -- nothing waits, and everybody could have seen that
      have hlength : m.chip.queue.length = 0 := by simp [hempty]
      dsimp only
      split_ifs <;> omega
    · rw [if_neg (by simpa using Chip.lineStatus_eq_zero.mpr hempty)]
      simpa using hroom
  delivers := h.delivers

theorem Good.send {w : Writer} {ws : List Writer} (hd : d ≤ 16) (h : Good u d m) (hstack : m.stack = w :: ws)
    (hready : w.ready = true) (ch : UInt8) (s : List UInt8) : Good u d { m with
      chip := m.chip.write 0 ch
      stack := { w with rest := s, ready := false } :: ws
      written := m.written ++ [(w.call, ch)] } := by
  have hdepth := h.depth
  have hroom := h.room
  rw [hstack] at hdepth
  rw [hstack, List.countP_cons, hready, if_pos rfl] at hroom
  have hdelivers := h.delivers.trans (h.configured.delivers_write (by omega) ch)
  rw [h.configured.write (by omega)] at hdelivers ⊢
  constructor
  · exact h.configured.congr rfl
  · exact hdepth
  · rw [List.countP_cons, List.length_append, List.length_singleton]
    simp only [Bool.false_eq_true, if_false]
    omega
  · rw [List.map_append]
    exact hdelivers

theorem Good.step {e : Event} (hd : d ≤ 16) (hallowed : Shallow d m e) (hstep : Step m e n) (h : Good u d m) :
    Good u d n := by
  cases hstep with
  | tick => exact h.tick
  | call =>
    refine ⟨h.configured, hallowed, ?_, h.delivers⟩
    simpa [List.countP_cons] using h.room
  | poll hstack hrest hwait => exact h.poll hstack hwait
  | send hstack hrest hready => exact h.send hd hstack hready _ _
  | ret hstack hrest hwait =>
    have hdepth := h.depth
    have hroom := h.room
    rw [hstack, List.length_cons] at hdepth
    rw [hstack, List.countP_cons] at hroom
    exact ⟨h.configured, by dsimp only; omega, by dsimp only; omega, h.delivers⟩

/-- The calls at work are different, and nobody else has written anything. -/
structure Numbered (m : Machine) : Prop where
  orderly : Orderly m
  nodup : (m.stack.map Writer.call).Nodup
  bound : ∀ w ∈ m.stack, w.call < m.calls
  fresh : ∀ i, m.calls ≤ i → m.printed i = []

theorem Numbered.start (u : Chip) : Numbered (idle u) where
  orderly := ⟨fun _ hw => absurd hw List.not_mem_nil, fun i hi => absurd hi (Nat.not_lt_zero i)⟩
  nodup := List.nodup_nil
  bound _ hw := absurd hw List.not_mem_nil
  fresh _ _ := rfl

theorem Numbered.call (h : Numbered m) (s : List UInt8) : Numbered { m with
    stack := ⟨m.calls, s, false⟩ :: m.stack
    calls := m.calls + 1
    asked := Function.update m.asked m.calls s } where
  orderly := by
    constructor
    · intro w hw
      rcases List.mem_cons.mp hw with rfl | hw
      · have hnone : m.printed m.calls = [] := h.fresh m.calls (Nat.le_refl _)
        have hasked : Function.update m.asked m.calls s m.calls = s := Function.update_self _ _ _
        exact (congrArg (· ++ s) hnone).trans hasked.symm
      · have hasked : Function.update m.asked m.calls s w.call = m.asked w.call :=
          Function.update_of_ne (Nat.ne_of_lt (h.bound w hw)) _ _
        exact (h.orderly.working w hw).trans hasked.symm
    · intro i hi hnot
      obtain ⟨hne, hnot⟩ := List.forall_mem_cons.mp hnot
      have hasked : Function.update m.asked m.calls s i = m.asked i := Function.update_of_ne (Ne.symm hne) _ _
      dsimp only at hi hne
      exact (h.orderly.finished i (by omega) hnot).trans hasked.symm
  nodup := by
    rw [List.map_cons, List.nodup_cons]
    refine ⟨fun hmem => ?_, h.nodup⟩
    obtain ⟨w, hw, heq⟩ := List.mem_map.mp hmem
    exact absurd heq (Nat.ne_of_lt (h.bound w hw))
  bound w hw := by
    rcases List.mem_cons.mp hw with rfl | hw
    · exact Nat.lt_succ_self _
    · exact Nat.lt_succ_of_lt (h.bound w hw)
  fresh i hi := h.fresh i (Nat.le_of_succ_le hi)

theorem Numbered.advance {w : Writer} {ws : List Writer} (chip : Chip) (w' : Writer) (l : List UInt8)
    (h : Numbered m) (hstack : m.stack = w :: ws) (hcall : w'.call = w.call) (hrest : w.rest = l ++ w'.rest) :
    Numbered { m with
      chip := chip
      stack := w' :: ws
      written := m.written ++ l.map fun ch => (w.call, ch) } := by
  have hprinted : ∀ i, Machine.printed { m with
      chip := chip
      stack := w' :: ws
      written := m.written ++ l.map fun ch => (w.call, ch) } i =
        m.printed i ++ if w.call = i then l else [] := by
    intro i
    simp only [Machine.printed, List.filter_append, List.map_append, List.filter_map]
    split_ifs with hi
    · simp [Function.comp_def, hi]
    · simp [Function.comp_def, hi]
  obtain ⟨hworking, hfinished⟩ := h.orderly
  have hnodup := h.nodup
  have hbound := h.bound
  rw [hstack] at hworking hfinished hnodup hbound
  obtain ⟨hself, hothers⟩ := List.forall_mem_cons.mp hworking
  obtain ⟨hnew, -⟩ := List.nodup_cons.mp hnodup
  constructor
  · constructor
    · intro x hx
      rw [hprinted]
      rcases List.mem_cons.mp hx with rfl | hx
      · rw [hcall, if_pos rfl, List.append_assoc, ← hrest]
        exact hself
      · have hne : w.call ≠ x.call := by
          intro heq
          apply hnew
          rw [heq]
          exact List.mem_map_of_mem hx
        rw [if_neg hne, List.append_nil]
        exact hothers x hx
    · intro i hi hnot
      obtain ⟨hne, hnot⟩ := List.forall_mem_cons.mp hnot
      rw [hcall] at hne
      rw [hprinted, if_neg hne, List.append_nil]
      exact hfinished i hi (List.forall_mem_cons.mpr ⟨hne, hnot⟩)
  · simpa [hcall] using hnodup
  · obtain ⟨hlt, hbound⟩ := List.forall_mem_cons.mp hbound
    rw [← hcall] at hlt
    exact List.forall_mem_cons.mpr ⟨hlt, hbound⟩
  · intro i hi
    have hlt : w.call < m.calls := hbound w List.mem_cons_self
    have hne : w.call ≠ i := Nat.ne_of_lt (Nat.lt_of_lt_of_le hlt hi)
    rw [hprinted, if_neg hne, List.append_nil]
    exact h.fresh i hi

theorem Numbered.ret {w : Writer} {ws : List Writer} (h : Numbered m) (hstack : m.stack = w :: ws)
    (hrest : w.rest = []) : Numbered { m with stack := ws } := by
  obtain ⟨hworking, hfinished⟩ := h.orderly
  have hnodup := h.nodup
  have hbound := h.bound
  rw [hstack] at hworking hfinished hnodup hbound
  obtain ⟨hself, hothers⟩ := List.forall_mem_cons.mp hworking
  refine ⟨⟨hothers, fun i hi hnot => ?_⟩, (List.nodup_cons.mp hnodup).2, (List.forall_mem_cons.mp hbound).2, h.fresh⟩
  by_cases heq : w.call = i
  · rw [hrest, List.append_nil, heq] at hself
    exact hself
  · exact hfinished i hi (List.forall_mem_cons.mpr ⟨heq, hnot⟩)

theorem Numbered.step {e : Event} (hstep : Step m e n) (h : Numbered m) : Numbered n := by
  cases hstep with
  | tick => exact ⟨⟨h.orderly.working, h.orderly.finished⟩, h.nodup, h.bound, h.fresh⟩
  | call => exact h.call _
  | @poll w _ hstack hrest hwait =>
    have hadvance := h.advance m.chip { w with ready := m.chip.lineStatus &&& 0x20 ≠ 0 } [] hstack rfl rfl
    rw [List.map_nil, List.append_nil] at hadvance
    exact hadvance
  | send hstack hrest hready => exact h.advance _ _ [_] hstack rfl hrest
  | ret hstack hrest hwait => exact h.ret hstack hrest

theorem run_good (hd : d ≤ 16) (h : Configured u) (hempty : u.queue = [])
    (hrun : Transition.Run (Shallow d) Step (idle u) m) : Good u d m ∧ Numbered m := by
  have hkeep : ∀ {m e n}, Shallow d m e → Step m e n → Good u d m ∧ Numbered m → Good u d n ∧ Numbered n := by
    intro m e n hallowed hstep hm
    exact ⟨hm.1.step hd hallowed hstep, hm.2.step hstep⟩
  exact hrun.invariant hkeep ⟨Good.start d h hempty, Numbered.start u⟩

/-! ### Seventeen calls -/

/-- Every call at work has seen the queue empty and has one byte left. -/
def AllReady (m : Machine) : Prop := ∀ w ∈ m.stack, w.ready = true ∧ ∃ ch, w.rest = [ch]

/-- Each call is interrupted between its look at the line status and its store. -/
theorem allReady_run (hempty : u.queue = []) (k : ℕ) (hk : k ≤ d) :
    ∃ m, Transition.Run (Shallow d) Step (idle u) m ∧ m.chip = u ∧ m.stack.length = k ∧ AllReady m := by
  induction k with
  | zero => exact ⟨idle u, Transition.Run.refl _, rfl, rfl, fun w hw => absurd hw List.not_mem_nil⟩
  | succ k ih =>
    obtain ⟨m, hrun, hchip, hlength, hready⟩ := ih (Nat.le_of_succ_le hk)
    have hshallow : Shallow d m (.call [0]) := by
      rw [Shallow, hlength]
      exact hk
    have hrun := hrun.tail hshallow Step.call
    have hrun := hrun.tail (a := Event.poll) trivial (Step.poll rfl (List.cons_ne_nil _ _) rfl)
    refine ⟨_, hrun, hchip, congrArg Nat.succ hlength, ?_⟩
    intro w hw
    rcases List.mem_cons.mp hw with rfl | hw
    · have hstatus := mt Chip.lineStatus_eq_zero.mp (not_not.mpr hempty)
      exact ⟨by simpa [hchip] using hstatus, 0, rfl⟩
    · exact hready w hw

/-- They all store, until there is no room. -/
theorem overrun_run {k : ℕ} (h : Configured m.chip) (hlength : m.stack.length = k) (hready : AllReady m)
    (hqueue : m.chip.queue.length ≤ 16) (hmany : 16 < m.chip.queue.length + k) :
    ∃ n, Transition.Run (Shallow d) Step m n ∧ n.chip.lost ≠ m.chip.lost := by
  induction k generalizing m with
  | zero => omega
  | succ k ih =>
    obtain ⟨w, ws, hstack⟩ := List.exists_cons_of_length_eq_add_one hlength
    rw [AllReady, hstack] at hready
    obtain ⟨⟨hw, ch, hrest⟩, hothers⟩ := List.forall_mem_cons.mp hready
    have hsend := Step.send hstack hrest hw
    rcases Nat.lt_or_ge m.chip.queue.length 16 with hroom | hfull
    · have hwrite := h.write hroom ch
      have hret := Step.ret (m := { m with
        chip := m.chip.write 0 ch
        stack := { w with rest := [], ready := false } :: ws
        written := m.written ++ [(w.call, ch)] }) rfl rfl rfl
      have hstart : Transition.Run (Shallow d) Step m m := Transition.Run.refl m
      have hsent := hstart.tail (a := Event.send) trivial hsend
      have hreturned := hsent.tail (a := Event.ret) trivial hret
      rw [hstack] at hlength
      have hlength' : (m.chip.write 0 ch).queue.length = m.chip.queue.length + 1 := by simp [hwrite]
      have hconfigured : Configured (m.chip.write 0 ch) := h.congr (by rw [hwrite])
      obtain ⟨n, hrun, hlost⟩ := ih (m := { m with
        chip := m.chip.write 0 ch
        stack := ws
        written := m.written ++ [(w.call, ch)] }) hconfigured (Nat.succ.inj hlength) hothers
        (by dsimp only; omega) (by dsimp only; omega)
      refine ⟨n, hreturned.trans hrun, ?_⟩
      rw [hwrite] at hlost
      exact hlost
    · refine ⟨_, (Transition.Run.refl m).tail (a := Event.send) trivial hsend, ?_⟩
      rw [h.overrun (Nat.le_antisymm hqueue hfull)]
      simp

/-- Sixteen calls at work are the most with which no byte is lost. -/
theorem calls_lossless_iff (d : ℕ) : (∀ ticks w m,
    Transition.Run (Shallow d) Step (idle (uartInit ticks w).chip) m →
      Delivers (uartInit ticks w).chip m.chip (m.written.map Prod.snd) ∧ Orderly m) ↔ d ≤ 16 := by
  constructor
  · intro hall
    by_contra hd
    let w : Wire := ⟨⟨⟨0, 0, 0, 0, 0, false⟩, [], none, [], []⟩, 0⟩
    obtain ⟨hconfigured, hempty⟩ := uartInit_configured (fun _ => 0) w
    obtain ⟨m, hrun, hchip, hlength, hready⟩ := allReady_run (d := d) hempty 17 (by omega)
    obtain ⟨n, hrun', hlost⟩ := overrun_run (d := d) (by rwa [hchip]) hlength hready (by simp [hchip, hempty])
      (by omega)
    obtain ⟨hdelivers, -⟩ := hall _ w n (hrun.trans hrun')
    apply hlost
    rw [hdelivers.lost, hchip]
  · intro hd ticks w m hrun
    obtain ⟨hconfigured, hempty⟩ := uartInit_configured ticks w
    obtain ⟨hgood, hnumbered⟩ := run_good hd hconfigured hempty hrun
    exact ⟨hgood.delivers, hnumbered.orderly⟩

end calls

end Fynaos.Serial
