import Fynaos.Kernel.Model
import Fynaos.Pmm.Conservation
import Fynaos.Pool.Sources

/-!
# The frames to come

The heap on the frame allocator does what the heap does that is given its frames in advance, when these are the
frames that the free lists hold (`kmalloc_follows`). The list exists in every state of a run of the frame allocator
(`Kept.foretells`), and its frames are different ones that nobody holds (`Kept.takes`).
-/

namespace Fynaos.Kernel

open Buddy

/-- Successive calls of `alloc_frames(0)` give these frames. -/
inductive Takes : Pmm → List ℕ → Pmm → Prop where
  | nil {s : Pmm} : Takes s [] s
  | cons {s s₁ s' : Pmm} {f : ℕ} {fs : List ℕ} (halloc : allocFrames 0 s = .ok (f, s₁)) (hf : f ≠ invalidAddress)
      (hrest : Takes s₁ fs s') : Takes s (f :: fs) s'

/-- They give these frames and then fail. -/
def Foretells (s : Pmm) (fs : List ℕ) : Prop :=
  ∃ s', Takes s fs s' ∧ allocFrames 0 s' = .ok (invalidAddress, s')

/-- The heap that is given the frames that the allocator will give. -/
structure Shows (r : Ram) (m : Allocators) (h : Heap) : Prop where
  ram : h.ram = r
  pools : h.pools = m.pools
  tail : h.tail = m.tail
  interrupts : h.interrupts = m.interrupts
  frames : Foretells m.pmm h.frames

/-- The allocator will give these frames, and it has given the rest of those that it was to give. -/
def Given (s : Pmm) (fs : List ℕ) (s' : Pmm) (fs' : List ℕ) : Prop :=
  Foretells s' fs' ∧ ∃ taken, fs = taken ++ fs' ∧ Takes s taken s'

/-- Frames went from the allocator to the heap. -/
def Follows (m : Allocators) (h : Heap) (m' : Allocators) (h' : Heap) : Prop :=
  ∃ taken, h.frames = taken ++ h'.frames ∧ Takes m.pmm taken m'.pmm

section sim
variable {s s' s'' : Pmm} {f fuel len : ℕ} {fs fs' : List ℕ} {r : Ram} {m : Allocators} {h h' : Heap}

theorem Takes.append (h : Takes s fs s') (h' : Takes s' fs' s'') : Takes s (fs ++ fs') s'' := by
  induction h with
  | nil => exact h'
  | cons halloc hf _ ih => exact .cons halloc hf (ih h')

theorem Foretells.nil (h : Foretells s []) : allocFrames 0 s = .ok (invalidAddress, s) := by
  obtain ⟨s', htakes, hnone⟩ := h
  cases htakes
  exact hnone

theorem Foretells.cons (h : Foretells s (f :: fs)) :
    ∃ s', allocFrames 0 s = .ok (f, s') ∧ f ≠ invalidAddress ∧ Foretells s' fs := by
  obtain ⟨s', htakes, hnone⟩ := h
  cases htakes with
  | cons halloc hf hrest => exact ⟨_, halloc, hf, s', hrest, hnone⟩

theorem Foretells.unique (h : Foretells s fs) (h' : Foretells s fs') : fs' = fs := by
  induction fs generalizing s fs' with
  | nil =>
    cases fs' with
    | nil => rfl
    | cons f fs' =>
      obtain ⟨s', halloc, hf, -⟩ := h'.cons
      rw [h.nil] at halloc
      exact absurd (Prod.mk.inj (Except.ok.inj halloc)).1.symm hf
  | cons f fs ih =>
    obtain ⟨s₁, halloc, hf, hrest⟩ := h.cons
    cases fs' with
    | nil =>
      rw [h'.nil] at halloc
      exact absurd (Prod.mk.inj (Except.ok.inj halloc)).1.symm hf
    | cons f' fs' =>
      obtain ⟨s₁', halloc', -, hrest'⟩ := h'.cons
      rw [halloc] at halloc'
      obtain ⟨rfl, rfl⟩ := Prod.mk.inj (Except.ok.inj halloc')
      rw [ih hrest hrest']

theorem Given.gives (s : Pmm) (fs : List ℕ) : Gives (Given s fs) (Given s fs) := by
  rintro s₁ fs₁ f fs₂ ⟨hframes, taken, hsplit, htakes⟩ hrun
  cases fs₁ with
  | nil =>
    cases hrun
    exact ⟨s₁, hframes.nil, hframes, taken, hsplit, htakes⟩
  | cons f fs₁ =>
    cases hrun
    obtain ⟨s₂, halloc, hf, hrest⟩ := hframes.cons
    refine ⟨s₂, halloc, hrest, taken ++ [f], ?_, htakes.append (.cons halloc hf .nil)⟩
    rw [hsplit, List.append_assoc, List.singleton_append]

theorem Shows.alike (hs : Shows r m h) : (m.on r).Alike (Given m.pmm h.frames) h :=
  ⟨hs.ram.symm, hs.pools.symm, hs.tail.symm, hs.interrupts.symm, hs.frames, [], rfl, .nil⟩

theorem Shows.of_alike {g : Heap Pmm} (hgh : g.Alike (Given s fs) h) :
    Shows g.ram (.ofHeap g) h :=
  ⟨hgh.ram.symm, hgh.pools.symm, hgh.tail.symm, hgh.interrupts.symm, hgh.frames.1⟩

/-- `kmalloc` on the frame allocator is `kmalloc` with the frames given in advance. -/
theorem kmalloc_follows {addr : ℕ} (hs : Shows r m h) (hrun : Fynaos.kmalloc fuel len h = .ok (addr, h')) :
    ∃ r' m', kmalloc fuel len r m = .ok (addr, r', m') ∧ Shows r' m' h' ∧ Follows m h m' h' := by
  obtain ⟨g, hrun', hgh⟩ := hs.alike.kmalloc (Given.gives m.pmm h.frames) hrun
  rw [kmalloc, hrun', ok_bind]
  exact ⟨g.ram, .ofHeap g, rfl, Shows.of_alike hgh, hgh.frames.2⟩

theorem initPool_follows (hs : Shows r m h) {b : Bool} (hrun : Fynaos.initPool h = .ok (b, h')) :
    ∃ r' m', initPool r m = .ok (b, r', m') ∧ Shows r' m' h' ∧ Follows m h m' h' := by
  obtain ⟨g, hrun', hgh⟩ := hs.alike.initPool (Given.gives m.pmm h.frames) hrun
  rw [initPool, hrun', ok_bind]
  exact ⟨g.ram, .ofHeap g, rfl, Shows.of_alike hgh, hgh.frames.2⟩

theorem initPool_none (halloc : allocFrames 0 m.pmm = .ok (invalidAddress, s)) :
    initPool r m = .ok (false, r, { m with pmm := s }) := by
  have hframe : (m.on r).allocFrame = .ok (invalidAddress, { m.on r with frames := s }) := by
    change (allocFrames 0 m.pmm >>= _) = _
    rw [halloc]
    rfl
  rw [initPool, Fynaos.initPool, hframe, ok_bind]
  rfl

end sim

def frameBlock (f : ℕ) : Block := ⟨f >>> pageShift, 0⟩

end Fynaos.Kernel

/-! ### In a run of the frame allocator -/

namespace Fynaos

open Buddy Kernel

section kept
variable {D : Block → Prop} {U : Set ℕ} {s s' : Pmm} {A B : List Block} {fs : List ℕ} {f : ℕ}

theorem Kept.perm (h : Kept D U ⟨s, A⟩) (hperm : A.Perm B) : Kept D U ⟨s, B⟩ := by
  have hset : {b | b ∈ B} = {b | b ∈ A} := Set.ext fun b => hperm.symm.mem_iff
  refine ⟨?_, hperm.nodup_iff.mp h.nodup, fun b hb => h.marked b (hperm.symm.subset hb)⟩
  obtain ⟨L, hcore, hco⟩ := h.core
  exact ⟨L, by rw [hset]; exact hcore, hco⟩

theorem Kept.span_subset (h : Kept D U ⟨s, A⟩) {b : Block} (hb : b ∈ A) : b.span ⊆ U := by
  obtain ⟨L, hcore, -⟩ := h.core
  exact hcore.span_subset (Or.inr hb)

theorem Kept.disjoint (h : Kept D U ⟨s, A⟩) {b c : Block} (hb : b ∈ A) (hc : c ∈ A) (hne : b ≠ c) :
    Disjoint b.span c.span := by
  obtain ⟨L, hcore, -⟩ := h.core
  exact hcore.tiling.disjoint (Or.inr hb) (Or.inr hc) hne

theorem Kept.length_le (h : Kept D U ⟨s, A⟩) : A.length ≤ 2 ^ 52 := by
  obtain ⟨L, hcore, -⟩ := h.core
  have hnodup : (A.map Block.base).Nodup := by
    refine List.Nodup.map_on (fun b hb c hc heq => ?_) h.nodup
    exact hcore.eq_of_base_mem (Or.inr hc) (Or.inr hb) (heq ▸ c.base_mem_span)
  have hsub : A.map Block.base ⊆ List.range s.mmFramesCount := by
    intro x hx
    obtain ⟨b, hb, rfl⟩ := List.mem_map.mp hx
    exact List.mem_range.mpr (hcore.base_lt (Or.inr hb))
  have hlen := (List.subperm_of_subset hnodup hsub).length_le
  rw [List.length_map, List.length_range] at hlen
  exact hlen.trans hcore.count

theorem Kept.takes (hk : Kept D U ⟨s, A⟩) (h : Takes s fs s') :
    Kept D U ⟨s', (fs.map frameBlock).reverse ++ A⟩ ∧ fs.Nodup ∧
      ∀ f ∈ fs, 4096 ∣ f ∧ f / 4096 ∈ U ∧ frameBlock f ∉ A := by
  induction h generalizing A with
  | nil => exact ⟨hk, List.nodup_nil, fun f hf => absurd hf List.not_mem_nil⟩
  | @cons s s₁ s' f fs halloc hf _ ih =>
    rcases hk.alloc (Nat.zero_le _) with ⟨hrun, -⟩ | ⟨p, s₂, hrun, -, hk₁, -⟩
    · rw [halloc] at hrun
      exact absurd (Prod.mk.inj (Except.ok.inj hrun)).1 hf
    · rw [halloc] at hrun
      obtain ⟨rfl, rfl⟩ := Prod.mk.inj (Except.ok.inj hrun)
      have hpfn : (p <<< pageShift) / 4096 = p := by
        rw [shiftLeft_page, Nat.mul_div_cancel _ (by norm_num)]
      have hblock : frameBlock (p <<< pageShift) = ⟨p, 0⟩ := by
        rw [frameBlock, shiftRight_page, hpfn]
      obtain ⟨hk', hnodup, hfs⟩ := ih hk₁
      have hnot : (⟨p, 0⟩ : Block) ∉ A := (List.nodup_cons.mp hk₁.nodup).1
      refine ⟨?_, List.nodup_cons.mpr ⟨fun hmem => ?_, hnodup⟩, List.forall_mem_cons.mpr ⟨⟨?_, ?_, ?_⟩, ?_⟩⟩
      · rw [List.map_cons, List.reverse_cons, List.append_assoc, List.singleton_append, hblock]
        exact hk'
      · exact (hfs _ hmem).2.2 (hblock ▸ List.mem_cons_self)
      · rw [shiftLeft_page]
        exact Nat.dvd_mul_left 4096 p
      · rw [hpfn]
        exact hk₁.span_subset List.mem_cons_self (Block.base_mem_span ⟨p, 0⟩)
      · rw [hblock]
        exact hnot
      · exact fun g hg => ⟨(hfs g hg).1, (hfs g hg).2.1, fun hmem => (hfs g hg).2.2 (List.mem_cons_of_mem _ hmem)⟩

theorem Kept.alloc_spare {l : List ℕ} (hk : Kept D U ⟨s, A⟩) (hnodup : l.Nodup) (hl : ∀ x ∈ l, x ∈ U)
    (horder : ∀ b ∈ A, b.order = 0) (hlen : A.length < l.length) :
    ∃ p s', allocFrames 0 s = .ok (p <<< pageShift, s') ∧ p <<< pageShift ≠ invalidAddress ∧
      Kept D U ⟨s', ⟨p, 0⟩ :: A⟩ := by
  obtain ⟨x, hx, hnot⟩ : ∃ x ∈ l, x ∉ A.map Block.base := by
    by_contra hall
    push Not at hall
    have hle := (List.subperm_of_subset hnodup hall).length_le
    rw [List.length_map] at hle
    omega
  have hfree : x ∈ s.freeCells := by
    refine hk.mem_freeCells.mpr ⟨hl x hx, fun b hb hxb => hnot (List.mem_map.mpr ⟨b, hb, ?_⟩)⟩
    rw [Block.mem_span, horder b hb, pow_zero] at hxb
    omega
  obtain ⟨c, hc, -⟩ := hfree
  rcases hk.alloc (Nat.zero_le _) with ⟨-, hlow⟩ | ⟨p, s', hrun, hvalid, hk', -⟩
  · exact absurd (hlow c hc) (Nat.not_lt_zero _)
  · exact ⟨p, s', hrun, hvalid, hk'⟩

theorem Kept.foretells (hk : Kept D U ⟨s, A⟩) : ∃ fs, Foretells s fs := by
  obtain ⟨n, hn⟩ : ∃ n, 2 ^ 52 - A.length = n := ⟨_, rfl⟩
  induction n generalizing s A with
  | zero =>
    rcases hk.alloc (Nat.zero_le _) with ⟨hrun, -⟩ | ⟨p, s₁, -, -, hk₁, -⟩
    · exact ⟨[], s, .nil, hrun⟩
    · have hlen : A.length + 1 ≤ 2 ^ 52 := hk₁.length_le
      have hn' : 2 ^ 52 - A.length = 0 := hn
      omega
  | succ n ih =>
    rcases hk.alloc (Nat.zero_le _) with ⟨hrun, -⟩ | ⟨p, s₁, hrun, hvalid, hk₁, -⟩
    · exact ⟨[], s, .nil, hrun⟩
    · have hn' : 2 ^ 52 - A.length = n + 1 := hn
      have hlen : 2 ^ 52 - (A.length + 1) = n := by omega
      obtain ⟨fs, s', htakes, hnone⟩ := ih hk₁ hlen
      exact ⟨p <<< pageShift :: fs, s', .cons hrun hvalid htakes, hnone⟩

end kept

end Fynaos
