import Mathlib.Data.List.Basic

/-!
# Coroutines

Several threads share one state, one of them runs, and it hands over to another one by name. `System` says when a
state holds what a thread had when it was left, what the running thread may do, and what a hand-over does. In a lawful
system every thread goes on with what it had when it was last left, whatever the others did in between
(`Run.coherent`).
-/

namespace Coroutine

/-- A hand-over: what the source had when it was left, and what the target goes on with. -/
structure Switch (ι σ : Type) where
  source : ι
  target : ι
  left : σ
  resumed : σ

structure System (ι σ M : Type) where
  /-- The state holds what a thread had when it was left. -/
  holds : M → ι → σ → Prop
  /-- A step of the running thread, which may depend on the threads that are parked. -/
  compute : (ι → Option σ) → ι → M → M → Prop
  /-- A hand-over. -/
  switch : (ι → Option σ) → Switch ι σ → M → M → Prop

variable {ι σ M : Type} [DecidableEq ι]

/-- What each thread had when it was last left, unless it has gone on since. The latest switch comes first. -/
def parked (init : ι → Option σ) : List (Switch ι σ) → ι → Option σ
  | [], j => init j
  | s :: h, j => if j = s.target then none else if j = s.source then some s.left else parked init h j

/-- What a thread finds that is chosen after the running thread has been left. -/
def next (P : ι → Option σ) (s : Switch ι σ) : Option σ := if s.target = s.source then some s.left else P s.target

/-- Each thread went on with what it had when it was left. -/
def Coherent (init : ι → Option σ) : List (Switch ι σ) → Prop
  | [] => True
  | s :: h => next (parked init h) s = some s.resumed ∧ Coherent init h

namespace System

/-- A history, the running thread and the state after it. -/
inductive Run (sys : System ι σ M) (init : ι → Option σ) : List (Switch ι σ) → ι → M → Prop where
  | start {i : ι} {m : M} (hidle : init i = none) (hholds : ∀ j l, init j = some l → sys.holds m j l) :
      Run sys init [] i m
  | compute {h : List (Switch ι σ)} {i : ι} {m m' : M} (hrun : Run sys init h i m)
      (hstep : sys.compute (parked init h) i m m') : Run sys init h i m'
  | switch {h : List (Switch ι σ)} {m m' : M} {s : Switch ι σ} (hrun : Run sys init h s.source m)
      (hnext : next (parked init h) s ≠ none) (hstep : sys.switch (parked init h) s m m') :
      Run sys init (s :: h) s.target m'

/-- Nobody disturbs a parked thread, and a hand-over keeps the source and finds the target. -/
structure Lawful (sys : System ι σ M) : Prop where
  compute : ∀ {P i m m' j l}, sys.compute P i m m' → P j = some l → sys.holds m j l → sys.holds m' j l
  frame : ∀ {P s m m' j l}, sys.switch P s m m' → j ≠ s.source → sys.holds m j l → sys.holds m' j l
  left : ∀ {P s m m'}, sys.switch P s m m' → sys.holds m' s.source s.left
  resumed : ∀ {P s m m' l}, sys.switch P s m m' → sys.holds m' s.target l → s.resumed = l

variable {sys : System ι σ M} {init : ι → Option σ} {h : List (Switch ι σ)} {i : ι} {m m' : M} {s : Switch ι σ}

theorem Lawful.switch_holds (hlaw : sys.Lawful) (hidle : parked init h s.source = none)
    (hholds : ∀ j l, parked init h j = some l → sys.holds m j l) (hnext : next (parked init h) s ≠ none)
    (hstep : sys.switch (parked init h) s m m') : next (parked init h) s = some s.resumed ∧
      ∀ j l, parked init (s :: h) j = some l → sys.holds m' j l := by
  have hframe : ∀ j l, parked init h j = some l → sys.holds m' j l := by
    intro j l hj
    refine hlaw.frame hstep (fun heq => ?_) (hholds j l hj)
    rw [heq, hidle] at hj
    exact absurd hj.symm (Option.some_ne_none l)
  constructor
  · obtain ⟨l, hl⟩ := Option.ne_none_iff_exists'.mp hnext
    rw [hl]
    unfold next at hl
    split_ifs at hl with hself
    · rw [← Option.some.inj hl, hlaw.resumed hstep (hself ▸ hlaw.left hstep)]
    · rw [hlaw.resumed hstep (hframe _ _ hl)]
  · intro j l hj
    rw [parked] at hj
    split_ifs at hj with htarget hsource
    · rw [hsource, ← Option.some.inj hj]
      exact hlaw.left hstep
    · exact hframe j l hj

/-- In every run each thread goes on with what it had. -/
theorem Run.coherent (hlaw : sys.Lawful) (hrun : sys.Run init h i m) : Coherent init h ∧
    parked init h i = none ∧ ∀ j l, parked init h j = some l → sys.holds m j l := by
  induction hrun with
  | start hidle hholds => exact ⟨trivial, hidle, hholds⟩
  | compute _ hstep ih =>
    obtain ⟨hcoherent, hidle, hholds⟩ := ih
    exact ⟨hcoherent, hidle, fun j l hj => hlaw.compute hstep hj (hholds j l hj)⟩
  | switch _ hnext hstep ih =>
    obtain ⟨hcoherent, hidle, hholds⟩ := ih
    obtain ⟨hresumed, hholds'⟩ := hlaw.switch_holds hidle hholds hnext hstep
    exact ⟨⟨hresumed, hcoherent⟩, if_pos rfl, hholds'⟩

end System

end Coroutine
