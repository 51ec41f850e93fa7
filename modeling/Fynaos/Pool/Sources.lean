import Fynaos.Pool.Model

/-!
# The heap on different allocators

Heaps whose frames come from different sources do the same as long as the sources give the same frames. So what
is known of the heap that is given a list of frames is known of the heap on the frame allocator, and the calls of
`alloc_frames(0)` can be counted without another model.
-/

namespace Fynaos

variable {S T : Type}

/-- Two heaps that are the same but for the sources of their frames. -/
structure Heap.Alike (R : S → T → Prop) (g : Heap S) (h : Heap T) : Prop where
  ram : g.ram = h.ram
  pools : g.pools = h.pools
  tail : g.tail = h.tail
  interrupts : g.interrupts = h.interrupts
  frames : R g.frames h.frames

variable [FrameSource S] [FrameSource T]

/-- What the second source gives, the first one gives. -/
def Gives (R R' : S → T → Prop) : Prop :=
  ∀ s t f t', R s t → FrameSource.allocFrames t = .ok (f, t') →
    ∃ s', FrameSource.allocFrames s = .ok (f, s') ∧ R' s' t'

section alike
variable {R R' : S → T → Prop} {g : Heap S} {h h' : Heap T} {fuel len pool f : ℕ}

theorem Heap.Alike.allocFrame (hR : Gives R R') (hgh : g.Alike R h) (hrun : h.allocFrame = .ok (f, h')) :
    ∃ g', g.allocFrame = .ok (f, g') ∧ g'.Alike R' h' := by
  rw [Heap.allocFrame] at hrun
  obtain ⟨⟨page, frames⟩, halloc, hrun⟩ := bind_eq_ok.mp hrun
  cases hrun
  obtain ⟨s, halloc', hs⟩ := hR _ _ _ _ hgh.frames halloc
  rw [Heap.allocFrame, halloc', ok_bind]
  exact ⟨_, rfl, hgh.ram, hgh.pools, hgh.tail, hgh.interrupts, hs⟩

theorem Heap.Alike.extendPool {extended : Bool} (hR : Gives R R') (hgh : g.Alike R h)
    (hrun : Fynaos.extendPool h = .ok (extended, h')) :
    ∃ g', Fynaos.extendPool g = .ok (extended, g') ∧ g'.Alike R' h' := by
  rw [Fynaos.extendPool] at hrun ⊢
  obtain ⟨⟨page, h₁⟩, halloc, hrun⟩ := bind_eq_ok.mp hrun
  obtain ⟨g₁, halloc', h₁alike⟩ := hgh.allocFrame hR halloc
  rw [halloc', ok_bind]
  dsimp only at hrun ⊢
  split_ifs at hrun ⊢
  · cases hrun
    exact ⟨g₁, rfl, h₁alike⟩
  · rw [h₁alike.ram, h₁alike.tail]
    obtain ⟨r₁, hzero, hrun⟩ := bind_eq_ok.mp hrun
    obtain ⟨r₂, hstore, hrun⟩ := bind_eq_ok.mp hrun
    obtain ⟨pool, hload, hrun⟩ := bind_eq_ok.mp hrun
    obtain ⟨r₃, hinit, hrun⟩ := bind_eq_ok.mp hrun
    obtain ⟨tail, hload', hrun⟩ := bind_eq_ok.mp hrun
    cases hrun
    rw [hzero, ok_bind, hstore, ok_bind, hload, ok_bind, hinit, ok_bind, hload', ok_bind]
    exact ⟨_, rfl, rfl, h₁alike.pools, rfl, h₁alike.interrupts, h₁alike.frames⟩

theorem Heap.Alike.kmallocLoop {res : Option ℕ} (hR : Gives R R) (hgh : g.Alike R h)
    (hrun : Fynaos.kmallocLoop len fuel pool h = .ok (res, h')) :
    ∃ g', Fynaos.kmallocLoop len fuel pool g = .ok (res, g') ∧ g'.Alike R h' := by
  induction fuel generalizing pool g h with
  | zero => cases hrun
  | succ fuel ih =>
    rw [Fynaos.kmallocLoop] at hrun ⊢
    obtain ⟨⟨addr, r⟩, hallocate, hrun⟩ := bind_eq_ok.mp hrun
    rw [hgh.ram, hallocate, ok_bind]
    have hstored : Heap.Alike R { g with ram := r } { h with ram := r } :=
      ⟨rfl, hgh.pools, hgh.tail, hgh.interrupts, hgh.frames⟩
    dsimp only at hrun ⊢
    split_ifs at hrun ⊢
    · cases hrun
      exact ⟨_, rfl, hstored⟩
    obtain ⟨next, hload, hrun⟩ := bind_eq_ok.mp hrun
    rw [hload, ok_bind]
    split_ifs at hrun ⊢
    · obtain ⟨⟨extended, h₁⟩, hextend, hrun⟩ := bind_eq_ok.mp hrun
      obtain ⟨g₁, hextend', h₁alike⟩ := hstored.extendPool hR hextend
      rw [hextend', ok_bind]
      dsimp only at hrun ⊢
      split_ifs at hrun ⊢
      · obtain ⟨next, hload', hrun⟩ := bind_eq_ok.mp hrun
        rw [h₁alike.ram, hload', ok_bind]
        exact ih h₁alike hrun
      · cases hrun
        exact ⟨g₁, rfl, h₁alike⟩
    · exact ih hstored hrun

theorem Heap.Alike.kmalloc {addr : ℕ} (hR : Gives R R) (hgh : g.Alike R h)
    (hrun : Fynaos.kmalloc fuel len h = .ok (addr, h')) :
    ∃ g', Fynaos.kmalloc fuel len g = .ok (addr, g') ∧ g'.Alike R h' := by
  rw [Fynaos.kmalloc] at hrun ⊢
  dsimp only at hrun ⊢
  obtain ⟨⟨res, h₁⟩, hloop, hrun⟩ := bind_eq_ok.mp hrun
  have hdisabled : Heap.Alike R { g with interrupts := false } { h with interrupts := false } :=
    ⟨hgh.ram, hgh.pools, hgh.tail, rfl, hgh.frames⟩
  obtain ⟨g₁, hloop', h₁alike⟩ := hdisabled.kmallocLoop hR hloop
  rw [← hgh.pools] at hloop'
  rw [hloop', ok_bind]
  cases res with
  | none =>
    cases hrun
    exact ⟨g₁, rfl, h₁alike⟩
  | some addr =>
    cases hrun
    exact ⟨_, rfl, h₁alike.ram, h₁alike.pools, h₁alike.tail, hgh.interrupts, h₁alike.frames⟩

theorem Heap.Alike.initPool {done : Bool} (hR : Gives R R') (hgh : g.Alike R h)
    (hrun : Fynaos.initPool h = .ok (done, h')) :
    ∃ g', Fynaos.initPool g = .ok (done, g') ∧ g'.Alike R' h' := by
  rw [Fynaos.initPool] at hrun ⊢
  obtain ⟨⟨page, h₁⟩, halloc, hrun⟩ := bind_eq_ok.mp hrun
  obtain ⟨g₁, halloc', h₁alike⟩ := hgh.allocFrame hR halloc
  rw [halloc', ok_bind]
  dsimp only at hrun ⊢
  split_ifs at hrun ⊢
  · cases hrun
    exact ⟨g₁, rfl, h₁alike⟩
  · rw [h₁alike.ram]
    obtain ⟨r₁, hzero, hrun⟩ := bind_eq_ok.mp hrun
    obtain ⟨r₂, hinit, hrun⟩ := bind_eq_ok.mp hrun
    cases hrun
    rw [hzero, ok_bind, hinit, ok_bind]
    exact ⟨_, rfl, rfl, rfl, rfl, h₁alike.interrupts, h₁alike.frames⟩

end alike

end Fynaos
