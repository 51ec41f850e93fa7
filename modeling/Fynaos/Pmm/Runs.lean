import Fynaos.Pmm.Init
import Mathlib.Logic.Relation

/-!
# Runs of the frame allocator

A `Run` is a state of the allocator together with the blocks its callers hold; `Step` is one call of
`alloc_frames` or `free_frame`. Runs start where `init_memory` leaves the allocator once a family of
disjoint page ranges is unreserved and handed over (`setupRanges`).

`Kept D U σ` is the invariant of all runs: the frame table and the lists are as `Core` says, with
the held blocks off the lists and marked, and no free buddies have a parent in `D`. One step keeps it
(`Step.kept`), so every run does (`Kept.run`). The predicate `D` is the run's own: the initial blocks
and the order in which they merge decide which one is wanted.
-/

namespace Fynaos

open Buddy NextList

/-! ### The free lists as data -/

def Pmm.walk (s : Pmm) : ℕ → Option ℕ → List ℕ
  | fuel + 1, some p => p :: s.walk fuel (s.next p)
  | _, _ => []

def Pmm.freeList (s : Pmm) (k : ℕ) : List ℕ := s.walk s.mmFramesCount (s.mmFreeRegion k)

def Pmm.freeBlocks (s : Pmm) : List Block :=
  (List.range (frameMaxOrder + 1)).flatMap fun k => (s.freeList k).map (Block.mk · k)

def Pmm.freeCells (s : Pmm) : Set ℕ := {x | ∃ b ∈ s.freeBlocks, x ∈ b.span}

theorem walk_eq {s : Pmm} {l : List ℕ} {head : Option ℕ} {fuel : ℕ} (h : IsList s.next head l)
    (hlen : l.length ≤ fuel) : s.walk fuel head = l := by
  induction l generalizing head fuel with
  | nil =>
    rw [isList_nil] at h
    subst h
    cases fuel <;> rfl
  | cons p l ih =>
    obtain ⟨rfl, h⟩ := h
    obtain ⟨n, rfl⟩ : ∃ n, fuel = n + 1 := ⟨fuel - 1, by simp at hlen; omega⟩
    rw [Pmm.walk, ih h (by simpa using hlen)]

namespace Core

variable {s : Pmm} {L : ℕ → List ℕ} {A : Set Block} {U : Set ℕ} {b : Block}

theorem freeList_eq (h : Core s L A U) {k : ℕ} (hk : k ≤ frameMaxOrder) : s.freeList k = L k :=
  walk_eq (h.list k hk) ((h.list k hk).length_le fun _ hp => h.mem_lt hk hp)

theorem mem_freeBlocks (h : Core s L A U) : b ∈ s.freeBlocks ↔ b ∈ blocksOf L := by
  obtain ⟨p, k⟩ := b
  rw [Pmm.freeBlocks, List.mem_flatMap, mem_blocksOf]
  constructor
  · rintro ⟨j, hj, hmem⟩
    obtain ⟨q, hq, heq⟩ := List.mem_map.mp hmem
    cases heq
    have hk : k ≤ frameMaxOrder := by
      have := List.mem_range.mp hj
      omega
    exact ⟨hk, h.freeList_eq hk ▸ hq⟩
  · rintro ⟨hk, hp⟩
    refine ⟨k, List.mem_range.mpr (Nat.lt_succ_of_le hk), List.mem_map.mpr ⟨p, ?_, rfl⟩⟩
    rw [h.freeList_eq hk]
    exact hp

theorem freeBlocks_nodup (h : Core s L A U) : s.freeBlocks.Nodup := by
  rw [Pmm.freeBlocks, List.nodup_flatMap]
  refine ⟨fun k hk => ?_, List.nodup_range.imp fun {j k} hjk => ?_⟩
  · have hk' : k ≤ frameMaxOrder := Nat.le_of_lt_succ (List.mem_range.mp hk)
    rw [h.freeList_eq hk']
    exact (h.list k hk').nodup.map fun p q heq => congrArg Block.base heq
  · intro b hb hb'
    obtain ⟨p, -, rfl⟩ := List.mem_map.mp hb
    obtain ⟨q, -, heq⟩ := List.mem_map.mp hb'
    exact hjk (congrArg Block.order heq).symm

theorem mem_freeCells (h : Core s L A U) {x : ℕ} :
    x ∈ s.freeCells ↔ ∃ b ∈ blocksOf L, x ∈ b.span := by
  simp only [Pmm.freeCells, Set.mem_ofPred_eq, h.mem_freeBlocks]

theorem free_tiling (h : Core s L A U) : Tiling (blocksOf L) s.freeCells :=
  ⟨fun b hb => h.tiling.aligned b (Or.inl hb), h.tiling.disjoint.subset Set.subset_union_left,
    fun _ => h.mem_freeCells⟩

theorem cover_cases (h : Core s L A U) {x : ℕ} :
    x ∈ U ↔ x ∈ s.freeCells ∨ ∃ b ∈ A, x ∈ b.span := by
  simp only [h.tiling.cover, h.mem_freeCells, Set.mem_union, or_and_right, exists_or]

end Core

/-! ### Steps -/

/-- A state of the allocator and the blocks its callers hold. -/
structure Run where
  pmm : Pmm
  allocated : List Block

/-- One call by a client. An allocation may fail; a free takes the address of a held block. -/
inductive Step : Run → Run → Prop where
  | alloc {σ : Run} {k a : ℕ} {s' : Pmm} (hk : k ≤ frameMaxOrder)
      (h : allocFrames k σ.pmm = .ok (a, s')) :
      Step σ ⟨s', if a = invalidAddress then σ.allocated
        else ⟨a >>> pageShift, k⟩ :: σ.allocated⟩
  | free {σ : Run} {b : Block} {s' : Pmm} (hb : b ∈ σ.allocated)
      (h : freeFrame (b.base <<< pageShift) σ.pmm = .ok s') : Step σ ⟨s', σ.allocated.erase b⟩

def Reachable (s : Pmm) (σ : Run) : Prop := Relation.ReflTransGen Step ⟨s, []⟩ σ

/-- The invariant of all runs. -/
structure Kept (D : Block → Prop) (U : Set ℕ) (σ : Run) : Prop where
  core : ∃ L, Core σ.pmm L {b | b ∈ σ.allocated} U ∧ Coalesced D frameMaxOrder (blocksOf L)
  nodup : σ.allocated.Nodup
  marked : ∀ b ∈ σ.allocated, Marked (σ.pmm.mmFrames b.base)

section kept
variable {D : Block → Prop} {U : Set ℕ} {σ τ : Run}

theorem Kept.alloc (h : Kept D U σ) {k : ℕ} (hk : k ≤ frameMaxOrder) :
    (allocFrames k σ.pmm = .ok (invalidAddress, σ.pmm) ∧
      ∀ b ∈ σ.pmm.freeBlocks, b.order < k) ∨
    ∃ p s', allocFrames k σ.pmm = .ok (p <<< pageShift, s') ∧ p <<< pageShift ≠ invalidAddress ∧
      Kept D U ⟨s', ⟨p, k⟩ :: σ.allocated⟩ ∧ (∃ b ∈ σ.pmm.freeBlocks, k ≤ b.order) ∧
      ∀ b ∈ σ.pmm.freeBlocks, b.order < k → b ∈ s'.freeBlocks := by
  obtain ⟨L, hcore, hco⟩ := h.core
  rcases allocFrames_spec hcore h.marked hk with ⟨hrun, hlow⟩ |
    ⟨p, s', L', hrun, hvalid, hcore', hmarked, hnot, ⟨c, hc, hkc⟩, hkeep, hco'⟩
  · exact Or.inl ⟨hrun, fun b hb => hlow b (hcore.mem_freeBlocks.mp hb)⟩
  · have hset : {b | b ∈ (⟨p, k⟩ : Block) :: σ.allocated} =
        insert (⟨p, k⟩ : Block) {b | b ∈ σ.allocated} := by
      ext b
      simp
    refine Or.inr ⟨p, s', hrun, hvalid, ⟨⟨L', hset ▸ hcore', hco' D hco⟩,
      List.nodup_cons.mpr ⟨hnot, h.nodup⟩, fun b hb => hmarked b (hset ▸ hb)⟩,
      ⟨c, hcore.mem_freeBlocks.mpr hc, hkc⟩, fun b hb hlt => ?_⟩
    exact hcore'.mem_freeBlocks.mpr (hkeep b (hcore.mem_freeBlocks.mp hb) hlt)

theorem Kept.free (h : Kept D U σ) {b : Block} (hb : b ∈ σ.allocated) :
    ∃ s', freeFrame (b.base <<< pageShift) σ.pmm = .ok s' ∧
      Kept D U ⟨s', σ.allocated.erase b⟩ := by
  obtain ⟨L, hcore, hco⟩ := h.core
  obtain ⟨s', L', hrun, hcore', hmarked, hco'⟩ := freeFrame_spec hcore h.marked hb
  have hset : {c | c ∈ σ.allocated.erase b} = {c | c ∈ σ.allocated} \ {b} := by
    ext c
    simp [h.nodup.mem_erase_iff, and_comm]
  exact ⟨s', hrun, ⟨⟨L', hset ▸ hcore', hco' D hco⟩, h.nodup.erase b,
    fun c hc => hmarked c (hset ▸ hc)⟩⟩

theorem Step.kept (hstep : Step σ τ) (h : Kept D U σ) : Kept D U τ := by
  cases hstep with
  | @alloc k a s' hk hrun =>
    rcases h.alloc hk with ⟨hrun', -⟩ | ⟨p, t, hrun', hvalid, h', -⟩
    · rw [hrun'] at hrun
      cases hrun
      rw [if_pos rfl]
      exact h
    · rw [hrun'] at hrun
      cases hrun
      have hpfn : (p <<< pageShift) >>> pageShift = p := by
        rw [shiftLeft_page, shiftRight_page, Nat.mul_div_cancel _ (by norm_num)]
      rw [if_neg hvalid, hpfn]
      exact h'
  | @free b s' hb hrun =>
    obtain ⟨t, hrun', h'⟩ := h.free hb
    rw [hrun'] at hrun
    cases hrun
    exact h'

theorem Kept.run (h : Kept D U σ) (hrun : Relation.ReflTransGen Step σ τ) : Kept D U τ := by
  induction hrun with
  | refl => exact h
  | tail _ hstep ih => exact hstep.kept ih

end kept

/-! ### The start of a run -/

/-- What `init_memory` does with a family of page ranges: all are unreserved, then all are handed to
the buddy allocator. -/
def setupRanges (ranges : List (ℕ × ℕ)) (s : Pmm) : Except Halt Pmm := do
  let s ← unreserveRanges ranges s
  handRanges ranges s

theorem initFrames_core {limit : ℕ} {boot boot' : BootAlloc} {s : Pmm} (hlimit : limit < 2 ^ 64)
    (hinit : initFrames limit boot Pmm.zero = .ok (boot', s)) :
    Core s (fun _ => []) ∅ ∅ ∧ ∀ i < s.mmFramesCount, s.mmFrames i = freshFrame := by
  obtain ⟨-, -, -, hcount, hregion, hacc, hfresh⟩ := initFrames_inv hinit
  have hempty : blocksOf (fun _ => []) ∪ ∅ = ∅ := by
    ext b
    simp [blocksOf]
  refine ⟨?_, hfresh⟩
  refine
    { access := hacc, count := by omega, inside := by simp, outside := fun x hx _ => ?_,
      list := fun k _ => ?_, order := by simp [hempty], le := by simp [hempty],
      clear := by simp [blocksOf], apart := by simp, tiling := ?_ }
  · rw [hfresh x hx]
    rfl
  · rw [hregion]
    rfl
  · rw [hempty]
    exact Tiling.empty

theorem unreserve_hand_spec {limit : ℕ} {boot boot' : BootAlloc} {s : Pmm}
    {ranges given : List (ℕ × ℕ)} (hlimit : limit < 2 ^ 64)
    (hinit : initFrames limit boot Pmm.zero = .ok (boot', s)) (hdisj : DisjointRanges given)
    (hinside : ∀ r ∈ ranges, r.2 ≤ s.mmFramesCount) (hgiven : ∀ r ∈ given, r.2 ≤ s.mmFramesCount)
    (hsub : cells given ⊆ cells ranges) :
    ∃ s₁ s₀ L, unreserveRanges ranges s = .ok s₁ ∧ handRanges given s₁ = .ok s₀ ∧
      SameTable s s₀ ∧ Core s₀ L ∅ (cells given) ∧
      (∀ b ∈ blocksOf L, ∃ r ∈ given, InitialBlock r.1 r.2 b) ∧
      ∀ x < s.mmFramesCount, (s₀.mmFrames x).flags &&& frameReserved = 0 ↔ x ∈ cells ranges := by
  obtain ⟨hcore, hfresh⟩ := initFrames_core hlimit hinit
  obtain ⟨s₁, hrun₁, hsame, hregion, hin, hout, horder⟩ :=
    unreserveRanges_spec hcore.accessible hinside
  have hlt : ∀ x ∈ cells ranges, x < s.mmFramesCount := by
    rintro x ⟨r, hr, hx⟩
    exact lt_of_lt_of_le hx.2 (hinside r hr)
  have hcore₁ : Core s₁ (fun _ => []) ∅ ∅ :=
    { hcore with
      access := hcore.accessible.of_same hsame
      count := hsame.2 ▸ hcore.count
      inside := by simp
      outside := fun x hx hxU => (horder x).trans (hcore.outside x (hsame.2 ▸ hx) hxU)
      list := fun k hk => (congrFun hregion k).trans (hcore.list k hk)
      order := by simp [blocksOf]
      clear := by simp [blocksOf] }
  obtain ⟨s₀, L, hrun, hcore₀, hinitial, hsame₀, hflags⟩ := handRanges_spec hcore₁ hdisj
    (fun r hr => hsame.2 ▸ hgiven r hr) (by simp) fun x hx => by
      rw [Clear, hin x (hsub hx), hfresh x (hlt x (hsub hx))]
      rfl
  rw [Set.empty_union] at hcore₀
  refine ⟨s₁, s₀, L, hrun₁, hrun, hsame.trans hsame₀, hcore₀,
    fun b hb => (hinitial b hb).resolve_left (by simp [blocksOf]), fun x hx => ?_⟩
  rw [hflags]
  by_cases hmem : x ∈ cells ranges
  · rw [hin x hmem, hfresh x hx]
    exact iff_of_true rfl hmem
  · rw [hout x hmem, hfresh x hx]
    exact iff_of_false (by decide) hmem

theorem setupRanges_spec {limit : ℕ} {boot boot' : BootAlloc} {s : Pmm} {ranges : List (ℕ × ℕ)}
    (hlimit : limit < 2 ^ 64) (hinit : initFrames limit boot Pmm.zero = .ok (boot', s))
    (hdisj : DisjointRanges ranges) (hinside : ∀ r ∈ ranges, r.2 ≤ s.mmFramesCount) :
    ∃ s₀ L, setupRanges ranges s = .ok s₀ ∧ Core s₀ L ∅ (cells ranges) ∧
      ∀ b ∈ blocksOf L, ∃ r ∈ ranges, InitialBlock r.1 r.2 b := by
  obtain ⟨s₁, s₀, L, hrun₁, hrun, -, hcore, hinitial, -⟩ :=
    unreserve_hand_spec hlimit hinit hdisj hinside hinside subset_rfl
  refine ⟨s₀, L, ?_, hcore, hinitial⟩
  rw [setupRanges, hrun₁]
  exact hrun

theorem Core.kept_start {s : Pmm} {L : ℕ → List ℕ} {U : Set ℕ} {D : Block → Prop}
    (h : Core s L ∅ U) (hco : Coalesced D frameMaxOrder (blocksOf L)) : Kept D U ⟨s, []⟩ := by
  refine ⟨⟨L, ?_, hco⟩, List.nodup_nil, by simp⟩
  have hset : {b : Block | b ∈ ([] : List Block)} = ∅ := by simp
  exact hset ▸ h

end Fynaos
