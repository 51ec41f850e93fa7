import Fynaos.Pmm.Runs

/-!
# What merge_buddy merges

`merge_buddy` decides by two fields of one record, which may be stale when the record lies inside a
larger block. `Merging` is the invariant of its loop: the block in hand is neither free nor held by
a client, and the other blocks are as in any state of a run. Where the tests of a round pass, the
merge is genuine (`Merging.genuine`), and the next round starts with the invariant again
(`Merging.round`), so it holds in every round of every free (`merge_buddy_genuine`).
-/

namespace Fynaos

open Buddy NextList

variable {s s' : Pmm} {A : Set Block} {U : Set ℕ} {b : Block}

/-- From one round of `merge_buddy` to a later one. -/
def MergeRounds : ℕ × Pmm → ℕ × Pmm → Prop :=
  Relation.ReflTransGen fun x y => mergeRound x.1 x.2 = .ok (some y)

/-- The buddy is on the list it is taken from, its removal returns, and the block the round leaves
is aligned and made of frames of `U`. -/
structure GenuineMerge (U : Set ℕ) (s : Pmm) (frame k : ℕ) : Prop where
  order : (s.mmFrames frame).order = k
  listed : s.buddyPfn frame ∈ s.freeList k
  removed : ∃ s', removeFrameFromList (s.buddyPfn frame) s = .ok s'
  merged : ∃ s', mergeRound frame s = .ok (some (min frame (s.buddyPfn frame), s')) ∧
    (s'.mmFrames (min frame (s.buddyPfn frame))).order = (k + 1 : ℕ)
  aligned : 2 ^ (k + 1) ∣ min frame (s.buddyPfn frame)
  inside : ∀ x, min frame (s.buddyPfn frame) ≤ x →
    x < min frame (s.buddyPfn frame) + 2 ^ (k + 1) → x ∈ U

/-- The state of `merge_buddy` at the head of its loop, with the block `b` in hand. -/
structure Merging (A : Set Block) (U : Set ℕ) (s : Pmm) (b : Block) : Prop where
  core : ∃ L, Core s L (insert b A) U
  apart : b ∉ A
  marked : ∀ c ∈ A, Marked (s.mmFrames c.base)
  clear : Clear (s.mmFrames b.base)

theorem Merging.genuine (h : Merging A U s b) (htests : TestsPass s b.base) :
    GenuineMerge U s b.base b.order := by
  obtain ⟨L, hcore⟩ := h.core
  have hb : b ∈ blocksOf L ∪ insert b A := Or.inr (Or.inl rfl)
  have hal := hcore.tiling.aligned b hb
  have hpfn := hcore.buddyPfn_eq hb
  obtain ⟨-, hbuddy, s₁, s₂, L₁, hremove, hround, h₂, -⟩ :=
    mergeRound_merge hcore h.apart h.marked h.clear htests
  have hparent : b.parent ∈ blocksOf L₁ ∪ insert b.parent A := Or.inr (Or.inl rfl)
  have hmin : min b.base (s.buddyPfn b.base) = b.parent.base := by rw [hpfn]; rfl
  refine ⟨hcore.order b hb, ?_, ⟨s₁, hpfn ▸ hremove⟩, ⟨s₂, hmin ▸ hround, ?_⟩, ?_, ?_⟩
  · rw [hcore.freeList_eq (hcore.le b hb), hpfn]
    exact hbuddy.2
  · rw [hmin]
    exact h₂.order _ hparent
  · rw [hmin]
    exact Block.parent_aligned hal
  · rw [hmin]
    intro x h1 h2
    exact h₂.span_subset hparent (Block.mem_span.mpr ⟨h1, h2⟩)

theorem Merging.round (h : Merging A U s b) {frame' : ℕ}
    (hround : mergeRound b.base s = .ok (some (frame', s'))) :
    ∃ b', frame' = b'.base ∧ Merging A U s' b' := by
  obtain ⟨L, hcore⟩ := h.core
  by_cases htests : TestsPass s b.base
  · obtain ⟨-, -, s₁, s₂, L₁, -, hround', h₂, hparentA, hclear, hfr, -⟩ :=
      mergeRound_merge hcore h.apart h.marked h.clear htests
    rw [hround'] at hround
    cases hround
    refine ⟨b.parent, rfl, ⟨L₁, h₂⟩, hparentA, fun c hc => ?_, hclear⟩
    rw [Marked, hfr]
    exact h.marked c hc
  · rw [mergeRound_stop hcore htests] at hround
    cases hround

theorem Merging.rounds (h : Merging A U s b) {x : ℕ × Pmm} (hx : MergeRounds (b.base, s) x) :
    ∃ b', x.1 = b'.base ∧ Merging A U x.2 b' := by
  induction hx with
  | refl => exact ⟨b, rfl, h⟩
  | tail _ hround ih =>
    obtain ⟨c, hc, h'⟩ := ih
    rw [hc] at hround
    exact h'.round hround

/-- In every state reachable from disjoint ranges, freeing a held block returns, and in each round
of its loop in which the tests pass the merge is genuine. -/
theorem merge_buddy_genuine {limit : ℕ} {boot boot' : BootAlloc} {ranges : List (ℕ × ℕ)}
    (hlimit : limit < 2 ^ 64) (hinit : initFrames limit boot Pmm.zero = .ok (boot', s))
    (hdisj : DisjointRanges ranges) (hinside : ∀ r ∈ ranges, r.2 ≤ s.mmFramesCount) :
    ∃ s₀, setupRanges ranges s = .ok s₀ ∧ ∀ σ, Reachable s₀ σ → ∀ b ∈ σ.allocated,
      ∃ s₁ s',
        σ.pmm.modify b.base (fun f => { f with flags := f.flags &&& ~~~frameAllocated }) = .ok s₁ ∧
        freeFrame (b.base <<< pageShift) σ.pmm = mergeBuddy b.base s₁ ∧
        mergeBuddy b.base s₁ = .ok s' ∧
        ∀ frame t, MergeRounds (b.base, s₁) (frame, t) → TestsPass t frame →
          ∃ k, GenuineMerge (cells ranges) t frame k := by
  obtain ⟨s₀, L₀, hrun, hcore₀, -⟩ := setupRanges_spec hlimit hinit hdisj hinside
  refine ⟨s₀, hrun, fun σ hσ b hb => ?_⟩
  have hstart : Kept (fun _ => False) (cells ranges) ⟨s₀, []⟩ :=
    hcore₀.kept_start fun _ _ _ _ hfalse => hfalse
  have hkept := hstart.run hσ
  obtain ⟨L, hcore, -⟩ := hkept.core
  obtain ⟨s₁, hmodify, heq, h₁, hmarked, hclear⟩ := freeFrame_eq hcore hkept.marked hb
  obtain ⟨s', -, hmerge, -⟩ :=
    mergeBuddy_spec h₁ (fun hmem => hmem.2 rfl) hmarked hclear
  have hmerging : Merging ({c | c ∈ σ.allocated} \ {b}) (cells ranges) s₁ b :=
    ⟨⟨L, h₁⟩, fun hmem => hmem.2 rfl, hmarked, hclear⟩
  refine ⟨s₁, s', hmodify, heq, hmerge, fun frame t hrounds htests => ?_⟩
  obtain ⟨c, hc, hmerging'⟩ := hmerging.rounds hrounds
  simp only at hc
  subst hc
  exact ⟨c.order, hmerging'.genuine htests⟩

/-- A table of four frames handed over in two ranges. -/
theorem merge_buddy_genuine_four : ∃ boot' s s₀,
    initFrames 0x4000 ⟨0x1000, 0x1000, 0x4000⟩ Pmm.zero = .ok (boot', s) ∧
      setupRanges [(0, 3), (3, 4)] s = .ok s₀ ∧ ∀ σ, Reachable s₀ σ → ∀ b ∈ σ.allocated,
        ∃ s₁ s',
          σ.pmm.modify b.base (fun f => { f with flags := f.flags &&& ~~~frameAllocated }) =
            .ok s₁ ∧
          freeFrame (b.base <<< pageShift) σ.pmm = mergeBuddy b.base s₁ ∧
          mergeBuddy b.base s₁ = .ok s' ∧
          ∀ frame t, MergeRounds (b.base, s₁) (frame, t) → TestsPass t frame →
            ∃ k, GenuineMerge (cells [(0, 3), (3, 4)]) t frame k := by
  obtain ⟨boot', s, hinit⟩ : ∃ boot' s,
      initFrames 0x4000 ⟨0x1000, 0x1000, 0x4000⟩ Pmm.zero = .ok (boot', s) := ⟨_, _, rfl⟩
  have hcount : s.mmFramesCount = 4 := (initFrames_inv hinit).2.2.2.1
  have hdisj : DisjointRanges [(0, 3), (3, 4)] := by
    simp [DisjointRanges, Set.disjoint_left]
    omega
  obtain ⟨s₀, hrun, hall⟩ := merge_buddy_genuine (by norm_num) hinit hdisj (by rw [hcount]; decide)
  exact ⟨boot', s, s₀, hinit, hrun, hall⟩

end Fynaos
