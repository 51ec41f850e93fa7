import Fynaos.Interrupt.Model
import Fynaos.Pool.Exhaustion
import Fynaos.Vmm.Model

/-!
# The interrupt flag

`kmalloc` saves the flag and disables interrupts, and forgets to restore it on the way out at
`return NULL`. `connect_interrupt` saves the flag for itself, so it repairs what `kmalloc` did;
`create_mm` does not. `flagPreserved_iff` says when all three leave the flag as it was.

`connect_interrupt` and `create_mm` run on the heap here (`heapKmalloc`, `heapServices`).
-/

namespace Fynaos.Interrupt

/-- `kmalloc` of the heap, for `connect_interrupt`. -/
def heapKmalloc (fuel : ℕ) (h : Heap) : Allocator := fun len r interrupts => do
  let (addr, h) ← kmalloc fuel len { h with ram := r, interrupts := interrupts }
  return (addr, h.ram, h.interrupts)

/-- What `create_mm` calls, with `free` for what `free_frame` does to the frames to come. No frame and no
block is counted as in use. -/
def heapServices (fuel : ℕ) (free : ℕ → List ℕ → List ℕ) : Vmm.Services Heap where
  allocFrames h := h.allocFrame
  freeFrame f h := .ok { h with frames := free f h.frames }
  kmalloc len r h := do
    let (addr, h) ← kmalloc fuel len { h with ram := r }
    return (addr, h.ram, h)
  kfree addr r h := do
    let h ← kfree addr { h with ram := r }
    return (h.ram, h)
  held _ := ∅
  blocks _ := ∅

/-- The flag is as on entry when one of the three functions returns. -/
structure FlagPreserved (h : Heap) (free : ℕ → List ℕ → List ℕ) (handlers len handler number : ℕ) :
    Prop where
  kmalloc : ∀ fuel addr h', kmalloc fuel len h = .ok (addr, h') → h'.interrupts = h.interrupts
  connectInterrupt : ∀ fuel res r flag,
    connectInterrupt handlers (heapKmalloc fuel h) handler number h.ram h.interrupts = .ok (res, r, flag) →
    flag = h.interrupts
  createMm : ∀ fuel mm r h', Vmm.createMm (heapServices fuel free) h.ram h = .ok (mm, r, h') →
    h'.interrupts = h.interrupts

section flag
variable {h h' : Heap} {ps : List PoolPage} {free : ℕ → List ℕ → List ℕ}
  {handlers fuel len handler number addr pool : ℕ}

/-! ### `kmalloc` -/

theorem Heap.allocFrame_interrupts {f : ℕ} (hrun : h.allocFrame = .ok (f, h')) :
    h'.interrupts = h.interrupts := by
  obtain ⟨⟨page, frames⟩, -, hrun⟩ := bind_eq_ok.mp hrun
  cases hrun
  rfl

theorem extendPool_interrupts {extended : Bool} (hrun : extendPool h = .ok (extended, h')) :
    h'.interrupts = h.interrupts := by
  rw [extendPool] at hrun
  obtain ⟨⟨page, h₁⟩, halloc, hrun⟩ := bind_eq_ok.mp hrun
  have halloc := Heap.allocFrame_interrupts halloc
  dsimp only at hrun
  split_ifs at hrun
  · cases hrun
    exact halloc
  · obtain ⟨r₁, -, hrun⟩ := bind_eq_ok.mp hrun
    obtain ⟨r₂, -, hrun⟩ := bind_eq_ok.mp hrun
    obtain ⟨pool, -, hrun⟩ := bind_eq_ok.mp hrun
    obtain ⟨r₃, -, hrun⟩ := bind_eq_ok.mp hrun
    obtain ⟨tail, -, hrun⟩ := bind_eq_ok.mp hrun
    cases hrun
    exact halloc

theorem kmallocLoop_interrupts {res : Option ℕ}
    (hrun : kmallocLoop len fuel pool h = .ok (res, h')) :
    h'.interrupts = h.interrupts ∧ res ≠ some 0 := by
  induction fuel generalizing pool h with
  | zero =>
    rw [kmallocLoop] at hrun
    cases hrun
  | succ fuel ih =>
    rw [kmallocLoop] at hrun
    obtain ⟨⟨addr, r⟩, -, hrun⟩ := bind_eq_ok.mp hrun
    dsimp only at hrun
    split_ifs at hrun with haddr
    · cases hrun
      exact ⟨rfl, fun h0 => haddr (Option.some.inj h0)⟩
    obtain ⟨next, -, hrun⟩ := bind_eq_ok.mp hrun
    split_ifs at hrun
    · obtain ⟨⟨extended, h₁⟩, hextend, hrun⟩ := bind_eq_ok.mp hrun
      have hflag := extendPool_interrupts hextend
      dsimp only at hrun hflag
      split_ifs at hrun
      · obtain ⟨next, -, hrun⟩ := bind_eq_ok.mp hrun
        obtain ⟨hsame, hres⟩ := ih hrun
        exact ⟨hsame.trans hflag, hres⟩
      · cases hrun
        exact ⟨hflag, (Option.some_ne_none 0).symm⟩
    · obtain ⟨hsame, hres⟩ := ih hrun
      exact ⟨hsame, hres⟩

/-- With `NULL` interrupts stay disabled. -/
theorem kmalloc_interrupts (hrun : kmalloc fuel len h = .ok (addr, h')) :
    h'.interrupts = if addr = 0 then false else h.interrupts := by
  rw [kmalloc] at hrun
  dsimp only at hrun
  obtain ⟨⟨res, h₁⟩, hloop, hrun⟩ := bind_eq_ok.mp hrun
  obtain ⟨hflag, hres⟩ := kmallocLoop_interrupts hloop
  cases res with
  | none =>
    cases hrun
    rw [if_pos rfl]
    exact hflag
  | some addr =>
    cases hrun
    rw [if_neg fun h0 => hres (congrArg some h0)]

theorem kmalloc_keeps (hp : Pools h ps) (hrun : kmalloc fuel len h = .ok (addr, h'))
    (hcond : h.interrupts = false ∨ Servable ps h.frames len) : h'.interrupts = h.interrupts := by
  rw [kmalloc_interrupts hrun]
  rcases hcond with hoff | hservable
  · rw [hoff, ite_self]
  · rw [if_neg fun h0 => (kmalloc_null_iff hp hrun).mp h0 hservable]

/-! ### `connect_interrupt` -/

theorem connectInterrupt_keeps {allocator : Allocator} {r r' : Ram} {interrupts flag : Bool} {res : ℤ}
    (hrun : connectInterrupt handlers allocator handler number r interrupts = .ok (res, r', flag)) :
    flag = interrupts := by
  rw [connectInterrupt] at hrun
  split_ifs at hrun
  · cases hrun
    rfl
  obtain ⟨⟨newNode, r₀, left⟩, -, hrun⟩ := bind_eq_ok.mp hrun
  dsimp only at hrun
  split_ifs at hrun
  · cases hrun
    rfl
  · obtain ⟨r₁, -, hrun⟩ := bind_eq_ok.mp hrun
    obtain ⟨head, -, hrun⟩ := bind_eq_ok.mp hrun
    obtain ⟨r₂, -, hrun⟩ := bind_eq_ok.mp hrun
    obtain ⟨r₃, -, hrun⟩ := bind_eq_ok.mp hrun
    cases hrun
    rfl

/-! ### `create_mm` -/

theorem createMm_keeps {mm : ℕ} {r' : Ram} (hp : Pools h ps)
    (hrun : Vmm.createMm (heapServices fuel free) h.ram h = .ok (mm, r', h'))
    (hcond : h.interrupts = false ∨ h.frames = [] ∨ Servable ps h.frames.tail Vmm.mmSize) :
    h'.interrupts = h.interrupts := by
  rw [Vmm.createMm] at hrun
  dsimp only [heapServices] at hrun
  cases hframes : h.frames with
  | nil =>
    rw [Heap.allocFrame_nil hframes, ok_bind] at hrun
    dsimp only at hrun
    rw [if_pos rfl] at hrun
    cases hrun
    rfl
  | cons f frames =>
    rw [Heap.allocFrame_cons hframes, ok_bind] at hrun
    dsimp only at hrun
    rw [if_neg (hp.frame_ne hframes)] at hrun
    obtain ⟨⟨mm₁, r₁, h₂⟩, hkmalloc, hrun⟩ := bind_eq_ok.mp hrun
    obtain ⟨⟨mm₂, h₁⟩, hloop, heq⟩ := bind_eq_ok.mp hkmalloc
    cases heq
    rw [hframes] at hcond
    have hcond' : h.interrupts = false ∨ Servable ps frames Vmm.mmSize :=
      hcond.imp id fun hc => hc.resolve_left (List.cons_ne_nil f frames)
    have hflag := kmalloc_keeps (hp.take hframes) hloop hcond'
    dsimp only at hrun
    split_ifs at hrun
    · rw [ok_bind] at hrun
      cases hrun
      exact hflag
    · obtain ⟨r₂, -, hrun⟩ := bind_eq_ok.mp hrun
      obtain ⟨r₃, -, hrun⟩ := bind_eq_ok.mp hrun
      cases hrun
      exact hflag

theorem createMm_null (free : ℕ → List ℕ → List ℕ) {f : ℕ} {frames : List ℕ} (hp : Pools h ps)
    (hframes : h.frames = f :: frames)
    (hnot : ¬ Servable ps frames Vmm.mmSize) : ∃ fuel r' h',
      Vmm.createMm (heapServices fuel free) h.ram h = .ok (0, r', h') ∧ h'.interrupts = false := by
  obtain ⟨addr, h', hrun, hnull, -⟩ := kmalloc_cases Vmm.mmSize (hp.take hframes) (le_refl _)
  obtain rfl := hnull.mpr hnot
  have hflag := kmalloc_interrupts hrun
  refine ⟨ps.length + frames.length, h'.ram, { h' with frames := free f h'.frames }, ?_, hflag⟩
  rw [Vmm.createMm]
  dsimp only [heapServices]
  rw [Heap.allocFrame_cons hframes, ok_bind]
  dsimp only
  rw [if_neg (hp.frame_ne hframes)]
  dsimp only at hrun
  rw [hrun, ok_bind, pure_eq, ok_bind]
  dsimp only
  rw [if_pos rfl, ok_bind, pure_eq]

/-! ### All three -/

/-- The flag is preserved when it is off, or when the request and that of `create_mm` can be served. -/
theorem flagPreserved_iff (hp : Pools h ps) : FlagPreserved h free handlers len handler number ↔
    h.interrupts = false ∨ (Servable ps h.frames len ∧
      (h.frames = [] ∨ Servable ps h.frames.tail Vmm.mmSize)) := by
  constructor
  · rintro ⟨hkmalloc, -, hcreate⟩
    by_contra hcond
    obtain ⟨hoff, hcond⟩ := not_or.mp hcond
    obtain ⟨addr, h', hrun, hnull, -⟩ := kmalloc_cases len hp (le_refl _)
    by_cases hservable : Servable ps h.frames len
    · have hmm := fun hc => hcond ⟨hservable, hc⟩
      obtain ⟨hframes, hnot⟩ := not_or.mp hmm
      obtain ⟨f, frames, hcons⟩ := List.exists_cons_of_ne_nil hframes
      rw [hcons] at hnot
      obtain ⟨fuel, r', h₁, hrun₁, hflag⟩ := createMm_null free hp hcons hnot
      exact hoff ((hcreate _ _ _ _ hrun₁).symm.trans hflag)
    · have hflag := kmalloc_interrupts hrun
      rw [if_pos (hnull.mpr hservable)] at hflag
      exact hoff ((hkmalloc _ _ _ hrun).symm.trans hflag)
  · intro hcond
    refine ⟨fun fuel addr h' hrun => kmalloc_keeps hp hrun (hcond.imp id And.left),
      fun fuel res r flag hrun => connectInterrupt_keeps hrun,
      fun fuel mm r h' hrun => createMm_keeps hp hrun (hcond.imp id And.right)⟩

end flag

/-- Interrupts are enabled, the page has room for 100 bytes, and no frame is left for `create_mm`. -/
theorem flagPreserved_iff_oneFrame : ∃ h hf, Pools h [freshPage 0x1000 hf] ∧ h.interrupts = true ∧
    h.frames = [] ∧
    FlagPreserved h (fun f frames => f :: frames) 0xFFFFFFFF80000000 100 0x1234 33 := by
  obtain ⟨h, hf, -, hframes, hp⟩ := oneFrame_init
  have hservable : Servable [freshPage 0x1000 hf] h.frames 100 :=
    Or.inl ⟨(4072, false), List.mem_singleton.mpr rfl, rfl, by decide⟩
  exact ⟨_, hf, hp.interrupts true, rfl, hframes,
    (flagPreserved_iff (hp.interrupts true)).mpr (Or.inr ⟨hservable, Or.inl hframes⟩)⟩

/-- A request of 5000 bytes with interrupts enabled. -/
theorem kmalloc_leaves_disabled : ∃ h hf h', Pools h [freshPage 0x1000 hf] ∧ h.interrupts = true ∧
    kmalloc 1 5000 h = .ok (0, h') ∧ h'.interrupts = false ∧
    ∀ free handlers handler number,
      ¬ FlagPreserved h free handlers 5000 handler number := by
  obtain ⟨h, hf, -, hframes, hp⟩ := oneFrame_init
  have hp' := hp.interrupts true
  have hfuel : [freshPage 0x1000 hf].length + h.frames.length ≤ 1 := by rw [hframes]; rfl
  obtain ⟨addr, h', hrun, hnull, -⟩ := kmalloc_cases 5000 hp' hfuel
  obtain rfl := hnull.mpr (freshPage_not_servable h.frames)
  have hflag : h'.interrupts = false := kmalloc_interrupts hrun
  refine ⟨_, hf, h', hp', rfl, hrun, hflag, fun free handlers handler number hpreserved => ?_⟩
  have hsame := hpreserved.kmalloc 1 0 h' hrun
  rw [hflag] at hsame
  cases hsame

end Fynaos.Interrupt
