import Fynaos.Vmm.Tables

/-!
# The contract of the allocators

What `vmm.c` relies on. `alloc_frames(0)` fails or gives a frame that is not in use, `free_frame` takes
back a frame that is, `kmalloc` and `kfree` do the same for blocks of the size of a `struct mm`, and none
of them stores to memory that is in use. Under this contract an entry without a table gets a new one, or
the run stops (`ensureTable_spec`), and it does not stop as long as there are frames
(`ensureTable_total`).
-/

namespace Fynaos.Vmm

open Radix

/-- The bytes of a `struct mm`. -/
def structSpan (p : ℕ) : Set ℕ := Set.Ico p (p + 8)

/-- The bytes of the frames and the blocks in use. -/
def inUse {S : Type} (F : Services S) (s : S) : Set ℕ :=
  {x | (∃ f ∈ F.held s, x ∈ pageSpan f) ∨ ∃ p ∈ F.blocks s, x ∈ structSpan p}

/-- What is in use lies in the direct map, each thing apart from the others. -/
structure Sound {S : Type} (F : Services S) (s : S) : Prop where
  frame : ∀ f ∈ F.held s, FrameOk f
  direct : ∀ p ∈ F.blocks s, Direct p 8
  blocks : ∀ p ∈ F.blocks s, ∀ q ∈ F.blocks s, p ≠ q → Disjoint (structSpan p) (structSpan q)
  apart : ∀ p ∈ F.blocks s, ∀ f ∈ F.held s, Disjoint (structSpan p) (pageSpan f)

structure Lawful {S : Type} (F : Services S) : Prop where
  alloc : ∀ {s s' : S} {f : ℕ}, Sound F s → F.allocFrames s = .ok (f, s') →
    Sound F s' ∧ F.blocks s' = F.blocks s ∧
      ((f = invalidAddress ∧ F.held s' = F.held s) ∨
        (f ∉ F.held s ∧ F.held s' = insert f (F.held s)))
  free : ∀ {s : S} {f : ℕ}, Sound F s → f ∈ F.held s →
    ∃ s', F.freeFrame f s = .ok s' ∧ F.blocks s' = F.blocks s ∧ F.held s' = F.held s \ {f}
  kmalloc : ∀ {s s' : S} {r r' : Ram} {p : ℕ}, Sound F s → F.kmalloc mmSize r s = .ok (p, r', s') →
    Sound F s' ∧ F.held s' = F.held s ∧ Wrote r r' (inUse F s)ᶜ ∧
      ((p = 0 ∧ F.blocks s' = F.blocks s) ∨
        (p ∉ F.blocks s ∧ F.blocks s' = insert p (F.blocks s)))
  kfree : ∀ {s : S} {r : Ram} {p : ℕ}, Sound F s → p ∈ F.blocks s →
    ∃ r' s', F.kfree p r s = .ok (r', s') ∧ F.held s' = F.held s ∧
      F.blocks s' = F.blocks s \ {p} ∧ Wrote r r' (inUse F s')ᶜ

/-- The next `n` calls of `alloc_frames` succeed. -/
def Supplies {S : Type} (F : Services S) : ℕ → S → Prop
  | 0, _ => True
  | n + 1, s => ∃ f s', F.allocFrames s = .ok (f, s') ∧ f ≠ invalidAddress ∧ Supplies F n s'

/-- The number of tables that are missing on a path. -/
def missing (r : Ram) : ℕ → List (Fin 512) → ℕ
  | _, [] => 0
  | f, i :: p => match child r f i with
    | none => p.length + 1
    | some g => missing r g p

variable {S : Type} {F : Services S} {s s' : S} {r r' : Ram} {f g p : ℕ} {i : Fin 512}

theorem missing_le (r : Ram) (f : ℕ) (p : List (Fin 512)) : missing r f p ≤ p.length := by
  induction p generalizing f with
  | nil => exact le_refl 0
  | cons i p ih =>
    rw [missing]
    split
    · exact le_refl _
    · exact (ih _).trans (Nat.le_succ _)

theorem missing_of_walk {q : List (Fin 512)} (h : walk (child r) f q = some g) : missing r f q = 0 := by
  induction q generalizing f with
  | nil => rfl
  | cons i q ih =>
    rw [walk_cons] at h
    obtain ⟨b, hb, hrest⟩ := Option.bind_eq_some_iff.mp h
    rw [missing, hb]
    exact ih hrest

theorem missing_of_empty (h : ∀ j, child r g j = none) {q : List (Fin 512)} :
    missing r g q = q.length := by
  cases q with
  | nil => rfl
  | cons j q => rw [missing, h j]; rfl

theorem Sound.mono (h : Sound F s) (hheld : F.held s' ⊆ F.held s)
    (hblocks : F.blocks s' ⊆ F.blocks s) : Sound F s' where
  frame f hf := h.frame f (hheld hf)
  direct p hp := h.direct p (hblocks hp)
  blocks p hp q hq := h.blocks p (hblocks hp) q (hblocks hq)
  apart p hp f hf := h.apart p (hblocks hp) f (hheld hf)

theorem Lawful.alloc_ok (hF : Lawful F) (hs : Sound F s) (halloc : F.allocFrames s = .ok (g, s'))
    (hg : g ≠ invalidAddress) : Sound F s' ∧ F.blocks s' = F.blocks s ∧ FrameOk g ∧ g ∉ F.held s ∧
      F.held s' = insert g (F.held s) := by
  obtain ⟨hs', hblocks, ⟨hinvalid, -⟩ | ⟨hfresh, hheld⟩⟩ := hF.alloc hs halloc
  · exact absurd hinvalid hg
  · exact ⟨hs', hblocks, hs'.frame g (hheld ▸ Set.mem_insert g _), hfresh, hheld⟩

/-! ### A level of `map_page` -/

theorem ensureTable_present (hf : FrameOk f) (h : child r f i ≠ none) :
    ensureTable F (physToVirt f) i r s = .ok (r, s) := by
  rw [ensureTable, hf.load_entry, ok_bind, if_neg fun h' => h (target_none.mpr h'), pure_eq]

theorem ensureTable_absent (hf : FrameOk f) (hg : FrameOk g) (hne : f ≠ g)
    (h : child r f i = none) (halloc : F.allocFrames s = .ok (g, s')) :
    ∃ r', ensureTable F (physToVirt f) i r s = .ok (r', s') ∧ child r' f i = some g ∧
      (∀ j, child r' g j = none) ∧ Wrote r r' (entrySpan f i ∪ pageSpan g) := by
  have hlt := hg.lt
  have hgne : ∀ j, ¬ (g = f ∧ j = i) := fun j hj => hne hj.1.symm
  obtain ⟨r₁, hzero, hclear, hwrote⟩ := hg.zeroPage (r.put (entryAddr f i) g)
  have hentry : entry r₁ f i = g := by
    rw [entry, hwrote.word (Set.disjoint_of_subset_left (entrySpan_subset f i)
      (pageSpan_disjoint hf hg hne))]
    exact entry_put_self (by omega)
  refine ⟨r₁.put (entryAddr f i) (g ||| 7), ?_, ?_, fun j => ?_, ?_⟩
  · rw [ensureTable, hf.load_entry, ok_bind, if_pos (target_none.mp h), halloc, ok_bind]
    dsimp only
    rw [hf.store_entry, ok_bind, hzero, ok_bind, hf.load_entry, ok_bind, hf.store_entry, ok_bind,
      pure_eq, hentry]
    rfl
  · have hor : g ||| 7 < 2 ^ 64 := by
      rw [lor_flags hg.aligned (by norm_num)]
      omega
    rw [child, entry_put_self hor]
    exact target_flags hg.aligned (by norm_num) (by norm_num) (by omega)
  · rw [child_eq_none, entry_put_of_ne hg hf (hgne j), hclear j]
    rfl
  · refine (Wrote.put r g Set.subset_union_left).trans ?_
    refine (hwrote.mono Set.subset_union_right).trans ?_
    exact Wrote.put r₁ _ Set.subset_union_left

theorem ensureTable_spec (hF : Lawful F) (hs : Sound F s) (hheld : f ∈ F.held s)
    (hrun : ensureTable F (physToVirt f) i r s = .ok (r', s')) :
    (child r f i ≠ none ∧ r' = r ∧ s' = s) ∨
    (child r f i = none ∧ Sound F s' ∧ F.blocks s' = F.blocks s ∧
      ∃ g, FrameOk g ∧ g ∉ F.held s ∧ F.held s' = insert g (F.held s) ∧ child r' f i = some g ∧
        (∀ j, child r' g j = none) ∧ Wrote r r' (entrySpan f i ∪ pageSpan g)) := by
  have hf := hs.frame f hheld
  by_cases h : child r f i = none
  · have hload := hrun
    rw [ensureTable, hf.load_entry, ok_bind, if_pos (target_none.mp h)] at hload
    obtain ⟨⟨g, s₁⟩, halloc, hload⟩ := bind_eq_ok.mp hload
    dsimp only at hload
    by_cases hinvalid : g = invalidAddress
    · obtain ⟨e, herror⟩ := zeroPage_invalid (r.put (entryAddr f i) invalidAddress)
      rw [hinvalid, hf.store_entry, ok_bind, herror, error_bind] at hload
      cases hload
    · obtain ⟨hs₁, hblocks, hg, hfresh, hheld'⟩ := hF.alloc_ok hs halloc hinvalid
      have hne : f ≠ g := fun hfg => hfresh (hfg ▸ hheld)
      obtain ⟨r₁, hrun₁, hentry, hempty, hwrote⟩ := ensureTable_absent hf hg hne h halloc
      rw [hrun₁] at hrun
      obtain ⟨rfl, rfl⟩ := Prod.mk.inj (Except.ok.inj hrun)
      exact Or.inr ⟨h, hs₁, hblocks, g, hg, hfresh, hheld', hentry, hempty, hwrote⟩
  · rw [ensureTable_present hf h] at hrun
    obtain ⟨rfl, rfl⟩ := Prod.mk.inj (Except.ok.inj hrun)
    exact Or.inl ⟨h, rfl, rfl⟩

/-- It returns when there is a frame for the table that is missing, and leaves the frames for the tables
further down. -/
theorem ensureTable_total (hF : Lawful F) (hs : Sound F s) (hheld : f ∈ F.held s)
    {q : List (Fin 512)} (hsupply : Supplies F (missing r f (i :: q)) s) :
    ∃ r' s', ensureTable F (physToVirt f) i r s = .ok (r', s') ∧
      ∀ g, child r' f i = some g → Supplies F (missing r' g q) s' := by
  have hf := hs.frame f hheld
  cases h : child r f i with
  | some g =>
    refine ⟨r, s, ensureTable_present hf (by rw [h]; exact Option.some_ne_none g), fun g' hg' => ?_⟩
    obtain rfl : g = g' := Option.some.inj (h.symm.trans hg')
    rwa [missing, h] at hsupply
  | none =>
    rw [missing, h] at hsupply
    obtain ⟨g, s', halloc, hinvalid, hrest⟩ := hsupply
    obtain ⟨-, -, hg, hfresh, -⟩ := hF.alloc_ok hs halloc hinvalid
    have hne : f ≠ g := fun hfg => hfresh (hfg ▸ hheld)
    obtain ⟨r', hrun, hentry, hempty, -⟩ := ensureTable_absent hf hg hne h halloc
    refine ⟨r', s', hrun, fun g' hg' => ?_⟩
    obtain rfl : g = g' := Option.some.inj (hentry.symm.trans hg')
    rwa [missing_of_empty hempty]

/-! ### A simple allocator

Frames one above the other, and blocks one above the other in the kernel image: the contract can be
met. -/

/-- The numbers of the frames and of the blocks that are in use. -/
abbrev Bump := List ℕ × List ℕ

/-- A number above all of a list. -/
def above (l : List ℕ) : ℕ := l.foldr max 0 + 1

def blockAddr (n : ℕ) : ℕ := kernelDirectBase + physLimit + 8 * n

def bumpFrame (s : Bump) : Except Halt (ℕ × Bump) :=
  if 4096 * above s.1 + 4096 ≤ physLimit then .ok (4096 * above s.1, (above s.1 :: s.1, s.2))
  else .ok (invalidAddress, s)

def bumpBlock (r : Ram) (s : Bump) : Except Halt (ℕ × Ram × Bump) :=
  if blockAddr (above s.2) + 8 ≤ 2 ^ 64 then .ok (blockAddr (above s.2), r, (s.1, above s.2 :: s.2))
  else .ok (0, r, s)

def bump : Services Bump where
  allocFrames := bumpFrame
  freeFrame f s := .ok (s.1.filter (4096 * · ≠ f), s.2)
  kmalloc _ := bumpBlock
  kfree p r s := .ok (r, (s.1, s.2.filter (blockAddr · ≠ p)))
  held s := {f | ∃ n ∈ s.1, 4096 * n = f}
  blocks s := {p | ∃ n ∈ s.2, blockAddr n = p}

theorem above_notMem (l : List ℕ) : above l ∉ l := by
  have hle : ∀ {l : List ℕ} {x}, x ∈ l → x ≤ l.foldr max 0 := by
    intro l x hx
    induction l with
    | nil => cases hx
    | cons y l ih =>
      rcases List.mem_cons.mp hx with rfl | hx
      · exact le_max_left _ _
      · exact (ih hx).trans (le_max_right _ _)
  intro hmem
  exact absurd (hle hmem) (by unfold above; omega)

theorem blockAddr_inj {n k : ℕ} (h : blockAddr n = blockAddr k) : n = k := by
  unfold blockAddr at h
  omega

theorem blockAddr_ne_zero (n : ℕ) : blockAddr n ≠ 0 := by
  unfold blockAddr
  rw [kernelDirectBase_eq]
  omega

theorem structSpan_disjoint {n k : ℕ} (h : n ≠ k) :
    Disjoint (structSpan (blockAddr n)) (structSpan (blockAddr k)) := by
  refine Set.disjoint_left.mpr fun x hx hx' => ?_
  obtain ⟨h1, h2⟩ := hx
  obtain ⟨h3, h4⟩ := hx'
  unfold blockAddr at h1 h2 h3 h4
  omega

theorem blockAddr_disjoint {n : ℕ} (hf : FrameOk f) :
    Disjoint (structSpan (blockAddr n)) (pageSpan f) := by
  refine Set.disjoint_left.mpr fun x hx hx' => ?_
  have h1 := hx.1
  have h2 := hx'.2
  have hbelow := hf.below
  unfold blockAddr at h1
  omega

theorem bump_sound {s : Bump} : Sound bump s ↔
    (∀ n ∈ s.1, 4096 * n + 4096 ≤ physLimit) ∧ ∀ n ∈ s.2, blockAddr n + 8 ≤ 2 ^ 64 := by
  constructor
  · intro hs
    exact ⟨fun n hn => (hs.frame _ ⟨n, hn, rfl⟩).below, fun n hn => (hs.direct _ ⟨n, hn, rfl⟩).2⟩
  · rintro ⟨hframes, hblocks⟩
    have hframe : ∀ f ∈ bump.held s, FrameOk f := by
      rintro f ⟨n, hn, rfl⟩
      exact ⟨Nat.dvd_mul_right _ _, hframes n hn⟩
    refine ⟨hframe, ?_, ?_, ?_⟩
    · rintro p ⟨n, hn, rfl⟩
      exact ⟨by unfold blockAddr; omega, hblocks n hn⟩
    · rintro p ⟨n, -, rfl⟩ q ⟨k, -, rfl⟩ hne
      exact structSpan_disjoint fun hnk => hne (hnk ▸ rfl)
    · rintro p ⟨n, -, rfl⟩ f hf
      exact blockAddr_disjoint (hframe f hf)

theorem bump_lawful : Lawful bump where
  alloc {s s' f} hs hrun := by
    simp only [bump, bumpFrame] at hrun
    rw [bump_sound] at hs ⊢
    by_cases hroom : 4096 * above s.1 + 4096 ≤ physLimit
    · rw [if_pos hroom] at hrun
      obtain ⟨rfl, rfl⟩ := Prod.mk.inj (Except.ok.inj hrun)
      refine ⟨⟨fun n hn => ?_, hs.2⟩, rfl, Or.inr ⟨?_, ?_⟩⟩
      · rcases List.mem_cons.mp hn with rfl | hn
        · exact hroom
        · exact hs.1 n hn
      · rintro ⟨n, hn, heq⟩
        obtain rfl : n = above s.1 := by omega
        exact above_notMem s.1 hn
      · ext f
        simp [bump, eq_comm]
    · rw [if_neg hroom] at hrun
      obtain ⟨rfl, rfl⟩ := Prod.mk.inj (Except.ok.inj hrun)
      exact ⟨hs, rfl, Or.inl ⟨rfl, rfl⟩⟩
  free {s f} hs hf := by
    refine ⟨_, rfl, rfl, ?_⟩
    ext g
    simp [bump]
    grind
  kmalloc {s s' r r' p} hs hrun := by
    simp only [bump, bumpBlock] at hrun
    rw [bump_sound] at hs ⊢
    by_cases hroom : blockAddr (above s.2) + 8 ≤ 2 ^ 64
    · rw [if_pos hroom] at hrun
      obtain ⟨rfl, rfl, rfl⟩ : blockAddr (above s.2) = p ∧ r = r' ∧ _ = s' := by
        simpa using hrun
      refine ⟨⟨hs.1, fun n hn => ?_⟩, rfl, Wrote.refl _ _, Or.inr ⟨?_, ?_⟩⟩
      · rcases List.mem_cons.mp hn with rfl | hn
        · exact hroom
        · exact hs.2 n hn
      · rintro ⟨n, hn, heq⟩
        rw [blockAddr_inj heq] at hn
        exact above_notMem s.2 hn
      · ext p
        simp [bump, eq_comm]
    · rw [if_neg hroom] at hrun
      obtain ⟨rfl, rfl, rfl⟩ : 0 = p ∧ r = r' ∧ s = s' := by simpa using hrun
      exact ⟨hs, rfl, Wrote.refl _ _, Or.inl ⟨rfl, rfl⟩⟩
  kfree {s r p} hs hp := by
    refine ⟨r, _, rfl, rfl, ?_, Wrote.refl _ _⟩
    ext q
    simp [bump]
    grind

theorem bump_alloc {s : Bump} (h : 4096 * above s.1 + 4096 ≤ physLimit) :
    bump.allocFrames s = .ok (4096 * above s.1, (above s.1 :: s.1, s.2)) := by
  simp only [bump, bumpFrame, if_pos h]

theorem bump_kmalloc {s : Bump} {n : ℕ} (h : blockAddr (above s.2) + 8 ≤ 2 ^ 64) :
    bump.kmalloc n r s = .ok (blockAddr (above s.2), r, (s.1, above s.2 :: s.2)) := by
  simp only [bump, bumpBlock, if_pos h]

theorem bump_supplies {n : ℕ} {s : Bump} (h : 4096 * (above s.1 + n) ≤ physLimit) :
    Supplies bump n s := by
  induction n generalizing s with
  | zero => trivial
  | succ n ih =>
    have hroom : 4096 * above s.1 + 4096 ≤ physLimit := by omega
    refine ⟨_, _, bump_alloc hroom, ?_, ih ?_⟩
    · rw [physLimit_eq] at hroom
      unfold invalidAddress
      omega
    · have habove : above (above s.1 :: s.1) = above s.1 + 1 := by
        simp only [above, List.foldr_cons]
        omega
      change 4096 * (above (above s.1 :: s.1) + n) ≤ physLimit
      rw [habove]
      omega

end Fynaos.Vmm
