import Fynaos.Cpu.Context
import Fynaos.Lib.Coroutine
import Fynaos.Lib.Encoding

/-!
# Threads

Any number of threads, each with a `struct context` and memory of its own, call `swap_context` in any order, and
compute between the calls. They are a lawful system of coroutines (`threads_lawful`): for a thread, `swap_context` is a
call that returns after a while and keeps the registers that a call has to keep (`threads_resume`).
-/

namespace Fynaos.Cpu

open Memory

/-- The places of the contexts, and the rest of what belongs to each thread, as its stack. -/
structure Layout (ι : Type) where
  context : ι → ℕ
  own : ι → Set ℕ

def Layout.span {ι : Type} (L : Layout ι) (i : ι) : Set ℕ := Set.Ico (L.context i) (L.context i + 56)

structure Layout.Placed {ι : Type} (L : Layout ι) : Prop where
  direct : ∀ i, Direct (L.context i) 56
  apart : ∀ i j, i ≠ j → Disjoint (L.span i) (L.span j)
  own : ∀ i j, Disjoint (L.own i) (L.span j)

/-- The registers that a call keeps, apart from the stack pointer. -/
def kept : List Reg := [.rbx, .r12, .r13, .r14, .r15, .rbp]

/-- What a thread sees of the machine across a call. -/
structure View where
  regs : List (BitVec 64)
  rsp : BitVec 64
  rip : BitVec 64
  memory : ℕ → ℕ

open Classical in
noncomputable def bytesOn (S : Set ℕ) (r : Ram) : ℕ → ℕ := fun x => if x ∈ S then r.bytes x else 0

/-- What a thread sees when it runs. -/
noncomputable def View.of (S : Set ℕ) (c : Machine) : View :=
  ⟨kept.map c.regs, c.regs .rsp, c.rip, bytesOn S c.ram⟩

/-- What a thread has to see when a function that it has just called returns. -/
noncomputable def View.afterCall (S : Set ℕ) (c : Machine) : View :=
  ⟨kept.map c.regs, c.regs .rsp + 8, BitVec.ofNat 64 (c.ram.word (c.regs .rsp).toNat), bytesOn S c.ram⟩

/-- The return address of a call is on the stack of the thread. -/
def Called (S : Set ℕ) (rsp : BitVec 64) : Prop :=
  Direct rsp.toNat 8 ∧ Set.Ico rsp.toNat (rsp.toNat + 8) ⊆ S

section threads
variable {ι : Type} {L : Layout ι} {c c' : Machine} {r r' : Ram} {S : Set ℕ} {i j : ι} {l : View}

theorem bytesOn_congr (h : ∀ x ∈ S, r'.bytes x = r.bytes x) : bytesOn S r' = bytesOn S r := by
  funext x
  unfold bytesOn
  split_ifs with hx
  · exact h x hx
  · rfl

/-- The context and the stack of a thread hold what it has to see next. -/
def Holds (L : Layout ι) (r : Ram) (i : ι) (l : View) : Prop :=
  ∃ f : Reg → BitVec 64, Words r.bytes (L.context i) (contextRegs.map fun s => (f s).toNat) ∧
    Called (L.own i) (f .rsp) ∧
    l = ⟨kept.map f, f .rsp + 8, BitVec.ofNat 64 (r.word (f .rsp).toNat), bytesOn (L.own i) r⟩

theorem Holds.frame (h : Holds L r i l) (hbytes : ∀ x ∈ L.span i ∪ L.own i, r'.bytes x = r.bytes x) :
    Holds L r' i l := by
  obtain ⟨f, hwords, hcalled, hl⟩ := h
  have hown : ∀ x ∈ L.own i, r'.bytes x = r.bytes x := fun x hx => hbytes x (Or.inr hx)
  have hslot : r'.word (f .rsp).toNat = r.word (f .rsp).toNat :=
    Ram.word_congr fun x h1 h2 => hown x (hcalled.2 ⟨h1, h2⟩)
  refine ⟨f, hwords.congr fun x h1 h2 => (hbytes x (Or.inl ⟨h1, h2⟩)).symm, hcalled, ?_⟩
  rw [hl, hslot, bytesOn_congr hown]

theorem Layout.Placed.others (hL : L.Placed) (hne : j ≠ i) : Disjoint (L.span j ∪ L.own j) (L.span i) :=
  Set.disjoint_union_left.mpr ⟨hL.apart j i hne, hL.own j i⟩

/-- `swap_context` leaves the caller in its context, touches nothing else, and goes on with what the other context
holds. -/
theorem swap_holds (hL : L.Placed) (hi : (c.regs .rdi).toNat = L.context i) (hj : (c.regs .rsi).toNat = L.context j)
    (hcalled : Called (L.own i) (c.regs .rsp)) : ∃ ram, Wrote c.ram ram (L.span i) ∧
      Holds L ram i (View.afterCall (L.own i) c) ∧ (∀ c', swapContext c = .ok c' → c'.ram = ram) ∧
      ∀ l, Holds L ram j l → ∃ c', swapContext c = .ok c' ∧ c'.regs .rax = c.regs .rdi ∧
        View.of (L.own j) c' = l := by
  obtain ⟨ram, regs, hwrote, hwords, hret, hrax, hregs⟩ := swap_spec hi hj (hL.direct i) (hL.direct j)
  have hown : ∀ x ∈ L.own i, ram.bytes x = c.ram.bytes x := fun x hx =>
    hwrote.frame x fun hx' => Set.disjoint_left.mp (hL.own i i) hx hx'
  have hslot : ram.word (c.regs .rsp).toNat = c.ram.word (c.regs .rsp).toNat :=
    Ram.word_congr fun x h1 h2 => hown x (hcalled.2 ⟨h1, h2⟩)
  refine ⟨ram, hwrote, ⟨c.regs, hwords, hcalled, ?_⟩, fun c' hswap => ?_, fun l hl => ?_⟩
  · rw [View.afterCall, hslot, bytesOn_congr hown]
  · rw [hret] at hswap
    exact ret_ram hswap
  · obtain ⟨f, hf, hcalled', rfl⟩ := hl
    have hsame := hregs f hf
    have hkept : kept.map regs = kept.map f :=
      List.map_congr_left fun s hs => hsame s ((by decide : kept ⊆ contextRegs) hs)
    refine ⟨_, by rw [hret, ret_spec (hsame .rsp (by decide)) hcalled'.1], ?_, ?_⟩
    · dsimp only
      rw [Function.update_of_ne (by decide), hrax]
    · have hupdate : kept.map (Function.update regs .rsp (f .rsp + 8)) = kept.map regs := by
        refine List.map_congr_left fun s hs => Function.update_of_ne ?_ _ _
        intro heq
        rw [heq] at hs
        exact absurd hs (by decide)
      rw [View.of]
      dsimp only
      rw [hupdate, hkept, Function.update_self]

/-- The threads as coroutines that share a machine. The running thread may do anything that spares the bytes of the
threads that are parked. -/
def threads (L : Layout ι) : Coroutine.System ι View Machine where
  holds c := Holds L c.ram
  compute P _ c c' := ∀ j, P j ≠ none → ∀ x ∈ L.span j ∪ L.own j, c'.ram.bytes x = c.ram.bytes x
  switch _ s c c' := (c.regs .rdi).toNat = L.context s.source ∧ (c.regs .rsi).toNat = L.context s.target ∧
    Called (L.own s.source) (c.regs .rsp) ∧ swapContext c = .ok c' ∧
    s.left = View.afterCall (L.own s.source) c ∧ s.resumed = View.of (L.own s.target) c'

theorem threads_lawful (hL : L.Placed) : (threads L).Lawful where
  compute hstep hj hholds := Holds.frame hholds (hstep _ (by rw [hj]; exact Option.some_ne_none _))
  frame := by
    rintro P s c c' j l ⟨hi, hj, hcalled, hswap, -, -⟩ hne hholds
    obtain ⟨ram, hwrote, -, hram, -⟩ := swap_holds hL hi hj hcalled
    rw [← hram c' hswap] at hwrote
    exact Holds.frame hholds fun x hx => hwrote.frame x (Set.disjoint_left.mp (hL.others hne) hx)
  left := by
    rintro P s c c' ⟨hi, hj, hcalled, hswap, hleft, -⟩
    obtain ⟨ram, -, hholds, hram, -⟩ := swap_holds hL hi hj hcalled
    rw [← hram c' hswap, ← hleft] at hholds
    exact hholds
  resumed := by
    rintro P s c c' l ⟨hi, hj, hcalled, hswap, -, hresumed⟩ hholds
    obtain ⟨ram, -, -, hram, hback⟩ := swap_holds hL hi hj hcalled
    obtain ⟨c₁, hswap₁, -, hview⟩ := hback l (hram c' hswap ▸ hholds)
    rw [hswap] at hswap₁
    rw [hresumed, ← hview, Except.ok.inj hswap₁]

/-- In every run each thread finds, when `swap_context` returns to it, what it had when it made the call, and a call
with the context of any other thread that is parked does return to that one, with the context of the caller. -/
theorem threads_resume [DecidableEq ι] (hL : L.Placed) {init : ι → Option View}
    {h : List (Coroutine.Switch ι View)} (hrun : (threads L).Run init h i c) : Coroutine.Coherent init h ∧
      ∀ j l, Coroutine.parked init h j = some l → (c.regs .rdi).toNat = L.context i →
        (c.regs .rsi).toNat = L.context j → Called (L.own i) (c.regs .rsp) →
        ∃ c', swapContext c = .ok c' ∧ c'.regs .rax = c.regs .rdi ∧ View.of (L.own j) c' = l ∧
          (threads L).Run init (⟨i, j, View.afterCall (L.own i) c, l⟩ :: h) j c' := by
  obtain ⟨hcoherent, hidle, hholds⟩ := hrun.coherent (threads_lawful hL)
  refine ⟨hcoherent, fun j l hl hi hj hcalled => ?_⟩
  have hne : j ≠ i := by
    intro heq
    rw [heq, hidle] at hl
    exact absurd hl.symm (Option.some_ne_none l)
  obtain ⟨ram, hwrote, -, -, hback⟩ := swap_holds hL hi hj hcalled
  have htarget : Holds L ram j l :=
    Holds.frame (hholds j l hl) fun x hx => hwrote.frame x (Set.disjoint_left.mp (hL.others hne) hx)
  obtain ⟨c', hswap, hrax, hview⟩ := hback l htarget
  refine ⟨c', hswap, hrax, hview, ?_⟩
  refine Coroutine.System.Run.switch (s := ⟨i, j, View.afterCall (L.own i) c, l⟩) hrun ?_
    ⟨hi, hj, hcalled, hswap, rfl, hview.symm⟩
  rw [Coroutine.next, if_neg hne, hl]
  exact Option.some_ne_none l

end threads

/-- Two threads with a page of stack each. -/
def sampleThreads : Layout Bool where
  context i := if i then 0xFFFF800000400040 else 0xFFFF800000400000
  own i := if i then Set.Ico 0xFFFF800000402000 0xFFFF800000403000 else Set.Ico 0xFFFF800000401000 0xFFFF800000402000

/-- The words of a memory in which the second thread has not run yet. -/
def threadWord (q : ℕ) : ℕ :=
  if q = 0xFFFF800000400068 / 8 then 0xFFFF800000402F00
  else if q = 0xFFFF800000402F00 / 8 then 0xFFFFFFFF80100000 else 0

/-- The first thread calls `swap_context`. -/
def sampleCaller : Machine where
  regs r := if r = .rdi then 0xFFFF800000400000 else if r = .rsi then 0xFFFF800000400040
    else if r = .rsp then 0xFFFF800000401F00 else 0
  rip := 0xFFFFFFFF80110000
  cs := 8
  rflags := 0x202
  ss := 16
  data := fun _ => 16
  ram := ⟨ofWords threadWord, []⟩

/-- Where the second thread starts. -/
noncomputable def sampleView : View :=
  ⟨[0, 0, 0, 0, 0, 0], 0xFFFF800000402F08, 0xFFFFFFFF80100000,
    bytesOn (Set.Ico 0xFFFF800000402000 0xFFFF800000403000) sampleCaller.ram⟩

theorem sampleThreads_placed : sampleThreads.Placed := by
  have hdisj : ∀ a b n k : ℕ, a + n ≤ b ∨ b + k ≤ a → Disjoint (Set.Ico a (a + n)) (Set.Ico b (b + k)) := by
    intro a b n k h
    refine Set.disjoint_left.mpr fun x hx hx' => ?_
    obtain ⟨h1, h2⟩ := hx
    obtain ⟨h3, h4⟩ := hx'
    omega
  constructor
  · intro i
    cases i <;> exact ⟨by decide, by decide⟩
  · intro i j hne
    cases i <;> cases j <;> first | exact absurd rfl hne | exact hdisj _ _ _ _ (by decide)
  · intro i j
    cases i <;> cases j <;> exact hdisj _ _ 4096 56 (by decide)

theorem sampleView_holds : Holds sampleThreads sampleCaller.ram true sampleView := by
  have hword : ∀ q, load sampleCaller.ram.bytes (8 * q) 8 = threadWord q % 2 ^ 64 := load_ofWords threadWord
  refine ⟨fun r => if r = .rsp then 0xFFFF800000402F00 else 0, ?_, ⟨⟨by decide, by decide⟩, ?_⟩, ?_⟩
  · have hctx : ∀ k, load sampleCaller.ram.bytes (8 * (0xFFFF800000400040 / 8 + k)) 8 =
        threadWord (0xFFFF800000400040 / 8 + k) % 2 ^ 64 := fun k => hword _
    exact ⟨hctx 0, hctx 1, hctx 2, hctx 3, hctx 4, hctx 5, hctx 6, trivial⟩
  · exact Set.Ico_subset_Ico (by decide) (by decide)
  · have hentry : threadWord (0xFFFF800000402F00 / 8) % 2 ^ 64 = 0xFFFFFFFF80100000 := by decide
    have haddr : 8 * (0xFFFF800000402F00 / 8) = 0xFFFF800000402F00 := by norm_num
    have hslot := (hword (0xFFFF800000402F00 / 8)).trans hentry
    rw [haddr] at hslot
    have htop : (0xFFFF800000402F00 : BitVec 64).toNat = 0xFFFF800000402F00 := by decide
    dsimp only
    rw [if_pos rfl, htop, Ram.word, hslot]
    rfl

theorem threads_resume_two : ∃ c', swapContext sampleCaller = .ok c' ∧ c'.regs .rax = sampleCaller.regs .rdi ∧
    View.of (sampleThreads.own true) c' = sampleView ∧
    (threads sampleThreads).Run (fun i => if i then some sampleView else none)
      [⟨false, true, View.afterCall (sampleThreads.own false) sampleCaller, sampleView⟩] true c' := by
  have hrun : (threads sampleThreads).Run (fun i => if i then some sampleView else none) [] false sampleCaller := by
    refine Coroutine.System.Run.start rfl fun j l hj => ?_
    cases j with
    | false => exact absurd hj.symm (Option.some_ne_none l)
    | true =>
      rw [← Option.some.inj hj]
      exact sampleView_holds
  exact (threads_resume sampleThreads_placed hrun).2 true sampleView rfl rfl rfl
    ⟨⟨by decide, by decide⟩, Set.Ico_subset_Ico (by decide) (by decide)⟩

end Fynaos.Cpu
