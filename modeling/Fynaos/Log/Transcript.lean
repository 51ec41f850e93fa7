import Fynaos.Fbcon.Refinement
import Fynaos.Log.Text
import Fynaos.Serial.Driver

/-!
# The line and the screen

`Keeps` relates the devices to a record of what was printed: the chip got its bytes, and the screen is the drawing of
a terminal that got its strings. Each call keeps the relation (`Call.run_keeps`), so after any calls both devices have
the same texts (`log_recorded`), and that of a panic is on the screen if `panic_use_console` was called before.
-/

namespace Fynaos.Log

open Snprintf Serial Fbcon

/-- The arguments of the call match its format. -/
def Call.Printable : Call → Prop
  | .kprintf _ _ fmt args => Log.Printable fmt args
  | .panicUseConsole => True
  | .panic _ msg args => Log.Printable msg args

/-- The text of a call. -/
def Call.Prints (text : List UInt8) : Call → Prop
  | .kprintf _ _ fmt args => Log.Prints fmt args text
  | .panicUseConsole => text = []
  | .panic _ msg args => Log.Prints msg args text

/-- Since the chip was `u` and the screen that of `t`, what is in the record was printed. A panic disabled interrupts
and halted the processor. -/
structure Keeps (font : ℕ → ℕ → ℕ) (fb : FramebufferTag) (u : Chip) (t : Terminal (fb.height / 8) (fb.width / 8))
    (l : Output) (r : Record) : Prop where
  steady : Serial.Steady l.wire.chip
  delivers : Delivers u l.wire.chip r.serial
  screen : Shows font fb l.console (t.print r.screen)
  console : l.panicUseFbcon = r.console
  inPanic : l.inPanic = r.panicked
  halted : l.halted = r.panicked
  interrupts : r.panicked = true → l.interrupts = false

variable {ticks : ℕ → ℕ} {font : ℕ → ℕ → ℕ} {fb : FramebufferTag} {u : Chip}
  {t : Terminal (fb.height / 8) (fb.width / 8)} {l : Output} {r : Record} {fmt : List Char} {args : List Arg}

theorem print_append (t : Terminal (fb.height / 8) (fb.width / 8)) (strings strings' : List (List UInt8)) :
    t.print (strings ++ strings') = (t.print strings).print strings' := List.foldl_append

section step
variable (hfair : Fair ticks) (hfb : Accepted fb) (hroom : Fbcon.Roomy fb)
include hfair hfb hroom

theorem vkprintf_keeps (hprintable : Printable fmt args) (h : Keeps font fb u t l r) (buffer : ℕ)
    (stack : ℕ → Char) : ∃ text, Prints fmt args text ∧ ∃ l' fuel₀,
      (∀ fuel ≥ fuel₀, vkprintf ticks font fuel buffer stack fmt args l = .ok l') ∧
      Keeps font fb u t l' ((Call.kprintf buffer stack fmt args).record text r) := by
  obtain ⟨mem, text, hformat, hprints⟩ := format_ok hprintable buffer stack
  obtain ⟨wire, fuel₀, hwrite, hsteady, hdelivers⟩ := uartWriteStr_served hfair h.steady text
  refine ⟨text, hprints, { l with wire := wire, console := fbconWrite font text l.console }, fuel₀,
    fun fuel hfuel => ?_, ?_⟩
  · rw [vkprintf, hformat, ok_bind]
    dsimp only
    rw [hwrite fuel hfuel, ok_bind, pure_eq]
  · refine ⟨hsteady, h.delivers.trans hdelivers, ?_, h.console, h.inPanic, h.halted, h.interrupts⟩
    rw [Call.record, print_append]
    exact fbconWrite_shows hfb hroom text h.screen

theorem vpanic_keeps (hprintable : Printable fmt args) (h : Keeps font fb u t l r) (hfirst : r.panicked = false)
    (buffer : ℕ) : ∃ text, Prints fmt args text ∧ ∃ l' fuel₀,
      (∀ fuel ≥ fuel₀, vpanic ticks font fuel buffer fmt args l = .ok l') ∧
      Keeps font fb u t l' ((Call.panic buffer fmt args).record text r) := by
  obtain ⟨mem, text, hformat, hprints⟩ := format_ok hprintable buffer l.panicBuffer
  obtain ⟨w₁, fuel₁, hwrite₁, hsteady₁, hdelivers₁⟩ := uartWriteStr_served hfair h.steady banner
  obtain ⟨w₂, fuel₂, hwrite₂, hsteady₂, hdelivers₂⟩ := uartWriteStr_served hfair hsteady₁ text
  obtain ⟨w₃, fuel₃, hwrite₃, hsteady₃, hdelivers₃⟩ := uartWrite_served hfair hsteady₂ '\n'.toUInt8
  have hserial := h.delivers.trans ((hdelivers₁.trans hdelivers₂).trans hdelivers₃)
  have hinPanic := h.inPanic.trans hfirst
  refine ⟨text, hprints, { l with
    interrupts := false
    inPanic := true
    panicBuffer := mem
    wire := w₃
    console := if l.panicUseFbcon then
        fbconWrite font (bytes ['\n']) (fbconWrite font text (fbconWrite font banner l.console))
      else l.console
    halted := true }, max fuel₁ (max fuel₂ fuel₃), fun fuel hfuel => ?_, ?_⟩
  · rw [vpanic]
    dsimp only
    rw [hinPanic, if_neg Bool.false_ne_true, hformat, ok_bind]
    dsimp only
    rw [hwrite₁ fuel (by omega), ok_bind, hwrite₂ fuel (by omega), ok_bind, hwrite₃ fuel (by omega), ok_bind]
    split_ifs <;> rfl
  · rw [Call.record, hfirst, if_neg Bool.false_ne_true]
    refine ⟨hsteady₃, hserial, ?_, h.console, rfl, rfl, fun _ => rfl⟩
    dsimp only
    rw [print_append, ← h.console]
    split_ifs
    · exact writes_shows hfb hroom [banner, text, bytes ['\n']] h.screen
    · exact h.screen

omit hfb hroom in
/-- A panic in a panic. -/
theorem vpanic_double (h : Keeps font fb u t l r) (hagain : r.panicked = true) (buffer : ℕ) (text : List UInt8) :
    ∃ l' fuel₀, (∀ fuel ≥ fuel₀, vpanic ticks font fuel buffer fmt args l = .ok l') ∧
      Keeps font fb u t l' ((Call.panic buffer fmt args).record text r) := by
  obtain ⟨wire, fuel₀, hwrite, hsteady, hdelivers⟩ := uartWriteStr_served hfair h.steady doublePanic
  have hinPanic := h.inPanic.trans hagain
  refine ⟨{ l with interrupts := false, wire := wire, halted := true }, fuel₀, fun fuel hfuel => ?_, ?_⟩
  · rw [vpanic]
    dsimp only
    rw [if_pos hinPanic, hwrite fuel hfuel, ok_bind, pure_eq]
  · rw [Call.record, if_pos hagain]
    exact ⟨hsteady, h.delivers.trans hdelivers, h.screen, h.console, h.inPanic, hagain.symm, fun _ => rfl⟩

/-- Every call keeps the relation, with some text of its own. -/
theorem Call.run_keeps {c : Call} (hprintable : c.Printable) (h : Keeps font fb u t l r) :
    ∃ text, c.Prints text ∧ ∃ l' fuel₀, (∀ fuel ≥ fuel₀, c.run ticks font fuel l = .ok l') ∧
      Keeps font fb u t l' (c.record text r) := by
  cases c with
  | kprintf buffer stack fmt args => exact vkprintf_keeps hfair hfb hroom hprintable h buffer stack
  | panicUseConsole =>
    refine ⟨[], rfl, Log.panicUseConsole l, 0, fun _ _ => rfl, ?_⟩
    exact ⟨h.steady, h.delivers, h.screen, rfl, h.inPanic, h.halted, h.interrupts⟩
  | panic buffer msg args =>
    cases hpanicked : r.panicked with
    | false => exact vpanic_keeps hfair hfb hroom hprintable h hpanicked buffer
    | true =>
      obtain ⟨-, text, -, hprints⟩ := format_ok hprintable buffer fun _ => '\x00'
      exact ⟨text, hprints, vpanic_double hfair h hpanicked buffer text⟩

theorem run_keeps {calls : List Call} (hprintable : ∀ c ∈ calls, c.Printable) (h : Keeps font fb u t l r) :
    ∃ texts, List.Forall₂ (fun c text => c.Prints text) calls texts ∧ ∃ l' fuel₀,
      (∀ fuel ≥ fuel₀, run ticks font fuel calls l = .ok l') ∧
      Keeps font fb u t l' ((calls.zip texts).foldl (fun r c => c.1.record c.2 r) r) := by
  induction calls generalizing l r with
  | nil => exact ⟨[], List.Forall₂.nil, l, 0, fun _ _ => rfl, h⟩
  | cons c calls ih =>
    obtain ⟨hc, hcalls⟩ := List.forall_mem_cons.mp hprintable
    obtain ⟨text, htext, l₁, fuel₁, hrun₁, h₁⟩ := Call.run_keeps hfair hfb hroom hc h
    obtain ⟨texts, htexts, l₂, fuel₂, hrun₂, h₂⟩ := ih hcalls h₁
    refine ⟨text :: texts, List.Forall₂.cons htext htexts, l₂, max fuel₁ fuel₂, fun fuel hfuel => ?_, h₂⟩
    rw [run, hrun₁ fuel (by omega), ok_bind, hrun₂ fuel (by omega)]

end step

theorem start_keeps (hfb : Accepted fb) (hroom : Fbcon.Roomy fb) (ticks : ℕ → ℕ) (font : ℕ → ℕ → ℕ) (w : Wire)
    {memory : Memory.Bytes} (hblank : ∀ x < fb.width, ∀ y < fb.height, Memory.load memory (pixel fb x y) 4 = 0)
    (interrupts : Bool) : Keeps font fb (uartInit ticks w).chip (Terminal.blank hroom.rows_pos hroom.cols_pos)
      (start ticks w fb memory interrupts) ⟨[], [], false, false⟩ := by
  obtain ⟨hconfigured, hempty⟩ := uartInit_configured ticks w
  refine ⟨⟨hconfigured, by simp [start, hempty]⟩, Delivers.refl _, ?_, rfl, rfl, rfl, fun h => by cases h⟩
  have hinfo : (framebufferInit fb (powerOn memory).screen).2 = { (powerOn memory).screen with info := fb } := by
    rw [framebufferInit, if_neg (not_not.mpr hfb.type)]
  have hblack : colorValue fb 0 = 0 := by simp [colorValue, wrap32]
  unfold start Fbcon.start
  dsimp only
  rw [hinfo]
  exact fbconInit_shows hfb hroom rfl fun x hx y hy => (hblank x hx y hy).trans hblack.symm

/-- A line of output, a call of `panic_use_console` and a panic. -/
def pcCalls : List Call :=
  [.kprintf 0x8000 (fun _ => '#') "a%s\n\x00".toList [.string ['b', 'c']], .panicUseConsole,
    .panic 0x9000 "x\x00".toList []]

end Fynaos.Log
