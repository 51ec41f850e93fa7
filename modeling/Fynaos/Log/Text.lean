import Fynaos.Log.Model
import Fynaos.Snprintf.Truncation

/-!
# The text in the buffer

Of a call whose arguments match its format the buffer always holds a string, and when its output is kept to the end of
the buffer, that is the beginning of the output.
-/

namespace Fynaos.Log

open Snprintf

/-- The arguments match the format, and no number is so wide that its length wraps around. -/
structure Printable (fmt : List Char) (args : List Arg) : Prop where
  terminated : Terminated fmt
  arguments : ∃ n, advance (formatPieces fmt) args bufferSize = .ok n
  safe : Safe (formatPieces fmt) args bufferSize

/-- A string that fits into the buffer. It is the output up to a NUL, or the beginning of it. -/
structure Prints (fmt : List Char) (args : List Arg) (text : List UInt8) : Prop where
  length : text.length < bufferSize
  text : ∀ full, Full fmt args full → Snprintf.Kept (formatPieces fmt) args bufferSize →
    text = bytes ((full.take (bufferSize - 1)).takeWhile (· ≠ '\x00'))

variable {mem : ℕ → Char} {a k n buffer : ℕ} {fmt full text : List Char} {args : List Arg}

theorem cString_eq (htext : ∀ i < k, text[i]? = some (mem (a + i))) (hnul : mem (a + k) = '\x00') (hk : k < n) :
    cString mem a n = .ok ((text.take k).takeWhile (· ≠ '\x00')) := by
  induction k generalizing a n text with
  | zero =>
    obtain ⟨n, rfl⟩ := Nat.exists_eq_add_of_le' hk
    rw [Nat.add_zero] at hnul
    rw [cString, if_pos hnul, List.take_zero, List.takeWhile_nil]
  | succ k ih =>
    obtain ⟨n, rfl⟩ := Nat.exists_eq_add_of_le' (Nat.one_le_of_lt hk)
    have hfirst := htext 0 (Nat.succ_pos k)
    cases text with
    | nil => cases hfirst
    | cons c text =>
      rw [List.getElem?_cons_zero, Option.some_inj, Nat.add_zero] at hfirst
      rw [cString, List.take_succ_cons, List.takeWhile_cons, ← hfirst]
      by_cases hc : c = '\x00'
      · rw [if_pos hc, if_neg (by simpa using hc)]
      · have htail : ∀ i < k, text[i]? = some (mem (a + 1 + i)) := by
          intro i hi
          rw [Nat.add_right_comm]
          exact htext (i + 1) (Nat.succ_lt_succ hi)
        have hend : mem (a + 1 + k) = '\x00' := by
          rw [Nat.add_right_comm]
          exact hnul
        rw [if_neg hc, ih htail hend (Nat.lt_of_succ_lt_succ hk), ok_bind, if_pos (by simpa using hc), pure_eq]

theorem cString_ok (hnul : mem (a + k) = '\x00') (hk : k < n) :
    ∃ text, cString mem a n = .ok text ∧ text.length ≤ k := by
  have htext : ∀ i < k, ((List.range k).map fun i => mem (a + i))[i]? = some (mem (a + i)) := by
    intro i hi
    rw [List.getElem?_map, List.getElem?_range hi, Option.map_some]
  refine ⟨_, cString_eq htext hnul hk, ?_⟩
  apply Nat.le_trans (List.takeWhile_sublist _).length_le
  simp

theorem vsnprintf_nul {length : ℕ} {mem : ℕ → Char} {out : Out} (hlength : 1 ≤ length)
    (hrun : vsnprintf buffer length fmt args ⟨mem, []⟩ = .ok (n, out)) :
    ∃ k < length, out.mem (buffer + k) = '\x00' := by
  obtain ⟨-, s, hs, -, rfl⟩ := vsnprintf_ok.mp hrun
  have hle := performAll_buffer_le (pieces_bounded _ _) hs
  unfold terminate
  split_ifs with hlt
  · refine ⟨s.buffer - buffer, by omega, ?_⟩
    rw [Nat.add_sub_cancel' hle]
    exact Out.put_mem_self _ _ _
  · refine ⟨length - 1, by omega, ?_⟩
    rw [← Nat.add_sub_assoc hlength]
    exact Out.put_mem_self _ _ _

theorem Printable.inside (h : Printable fmt args) {mem : ℕ → Char} {out : Out}
    (hrun : vsnprintf buffer bufferSize fmt args ⟨mem, []⟩ = .ok (n, out)) :
    StoresIn buffer (buffer + bufferSize) out := by
  have hps : ∀ p ∈ formatPieces fmt, p.Bounded := pieces_bounded _ _
  have hiff := performAll_stores args hps (storesIn_nil buffer (buffer + bufferSize) mem) (Nat.le_refl buffer)
  rw [Nat.add_sub_cancel_left] at hiff
  obtain ⟨-, s, hs, -, rfl⟩ := vsnprintf_ok.mp hrun
  apply terminate_stores _ (performAll_buffer_le hps hs) (Nat.lt_add_of_pos_right (by norm_num))
  apply hiff.mpr h.safe (formatPieces fmt).length
  rwa [List.take_length]

/-- A printable call has a text, and what it is does not depend on the memory of the buffer when the output is kept. -/
theorem format_ok (h : Printable fmt args) (buffer : ℕ) (mem : ℕ → Char) :
    ∃ mem' text, format buffer mem fmt args = .ok (mem', text) ∧ Prints fmt args text := by
  have hps : ∀ p ∈ formatPieces fmt, p.Bounded := pieces_bounded _ _
  have hroom : buffer + bufferSize - buffer = bufferSize := Nat.add_sub_cancel_left buffer bufferSize
  obtain ⟨s, hs⟩ := (performAll_ok_iff (buffer + bufferSize) args buffer ⟨mem, []⟩ hps).mpr
    (by rw [hroom]; exact h.arguments)
  have hrun := vsnprintf_ok.mpr ⟨h.terminated, s, hs, rfl, rfl⟩
  obtain ⟨k, hk, hnul⟩ := vsnprintf_nul (by norm_num) hrun
  obtain ⟨text, htext, hlength⟩ := cString_ok hnul hk
  have hinside : (terminate (buffer + bufferSize) s).stores.all
      (fun a => buffer ≤ a ∧ a < buffer + bufferSize) = true := by
    simpa [List.all_eq_true, StoresIn] using h.inside hrun
  refine ⟨(terminate (buffer + bufferSize) s).mem, bytes text, ?_, ?_, ?_⟩
  · rw [format, hrun, ok_bind]
    dsimp only
    rw [if_pos hinside, htext, ok_bind, pure_eq]
  · rw [bytes, List.length_map]
    omega
  · intro full hfull hkept
    obtain ⟨-, hpieces⟩ := full_iff.mp hfull
    rw [← hroom] at hkept
    obtain ⟨s', hs', hholds⟩ := performAll_kept ⟨mem, []⟩ hps (by omega) hpieces hkept
    rw [hs] at hs'
    cases hs'
    rw [hroom] at hholds
    obtain ⟨hbytes, hend⟩ := hholds
    rw [cString_eq hbytes hend (by omega)] at htext
    rw [← Except.ok.inj htext, ← List.take_eq_take_min]

end Fynaos.Log
