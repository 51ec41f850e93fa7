import Fynaos.Vmm.Refinement

/-!
# When `map_page` runs out of frames

`map_page` does not look at what `alloc_frames` returns. `INVALID_ADDRESS` goes into the entry, where it
reads as present, and clearing the new table faults. So a call that fails at any of the three levels never
comes back (`mapPage_out`), and `mapPage_failsClean_iff` says that `map_page` is fine exactly when there
are frames for all tables that are missing.
-/

namespace Fynaos.Vmm

open Radix

variable {S : Type}

/-- What stands for the first call of `alloc_frames` that fails. -/
def outOfFrames : Halt := .panic "out of frames"

/-- The same allocators, except that a run stops at the first call of `alloc_frames` that fails. -/
def stopping (F : Services S) : Services S :=
  { F with
    allocFrames := fun s => do
      let (f, s) ← F.allocFrames s
      if f = invalidAddress then .error outOfFrames else return (f, s) }

/-- If one of the calls of `alloc_frames` fails, then `map_page` returns `FALSE`, has stored to tables of
`mm` only, every entry of a table refers to a table or to a mapped frame as before, and all addresses are
translated as before. -/
def FailsClean (F : Services S) (σ : Sys S) (mm : ℕ) (sp : Space) (frame page attr : ℕ) : Prop :=
  mapPage (stopping F) mm frame page attr σ.ram σ.frames = .error outOfFrames →
    ∃ r s, mapPage F mm frame page attr σ.ram σ.frames = .ok (false, r, s) ∧
      Wrote σ.ram r {x | ∃ p b, p.length < 4 ∧ walk (child r) sp.pml4 p = some b ∧ x ∈ pageSpan b} ∧
      (∀ p b i f, p.length < 4 → walk (child r) sp.pml4 p = some b → child r b i = some f →
        (p.length < 3 → f ∈ F.held s) ∧ (p.length = 3 → ∃ v, sp.map (pageNumber v) = some f)) ∧
      ∀ v, virtToPhys mm v r = virtToPhys mm v σ.ram

variable {F : Services S} {κ : Option ℕ} {σ : Sys S} {sp : Space} {s s' : S} {r r' : Ram}
  {f g a mm frame page attr : ℕ} {i : Fin 512} {q : List (Fin 512)}

theorem stopping_ok (h : F.allocFrames s = .ok (g, s')) (hg : g ≠ invalidAddress) :
    (stopping F).allocFrames s = .ok (g, s') := by
  simp only [stopping, h, ok_bind, if_neg hg, pure_eq]

theorem stopping_error (h : F.allocFrames s = .ok (invalidAddress, s')) :
    (stopping F).allocFrames s = .error outOfFrames := by
  simp only [stopping, h, ok_bind, if_true]

theorem stopping_sound : Sound (stopping F) s ↔ Sound F s :=
  ⟨fun h => ⟨h.frame, h.direct, h.blocks, h.apart⟩, fun h => ⟨h.frame, h.direct, h.blocks, h.apart⟩⟩

theorem stopping_lawful (hF : Lawful F) : Lawful (stopping F) where
  alloc {s s' f} hs hrun := by
    obtain ⟨⟨g, s₁⟩, halloc, hrun⟩ := bind_eq_ok.mp hrun
    dsimp only at hrun
    split_ifs at hrun
    cases hrun
    exact (hF.alloc (stopping_sound.mp hs) halloc).imp stopping_sound.mpr id
  free hs := hF.free (stopping_sound.mp hs)
  kmalloc hs hrun := (hF.kmalloc (stopping_sound.mp hs) hrun).imp stopping_sound.mpr id
  kfree hs := hF.kfree (stopping_sound.mp hs)

theorem stopping_supplies {n : ℕ} (h : Supplies F n s) : Supplies (stopping F) n s := by
  induction n generalizing s with
  | zero => trivial
  | succ n ih =>
    obtain ⟨f, s', halloc, hf, hrest⟩ := h
    exact ⟨f, s', stopping_ok halloc hf, hf, ih hrest⟩

/-! ### One level -/

/-- The tables on a path below `f` are in use. -/
def HeldPath (F : Services S) (s : S) (r : Ram) (f : ℕ) (q : List (Fin 512)) : Prop :=
  ∀ p b, p <+: q → walk (child r) f p = some b → b ∈ F.held s

theorem HeldPath.root (h : HeldPath F s r f q) : f ∈ F.held s := h [] f List.nil_prefix rfl

theorem HeldPath.below (h : HeldPath F s r f (i :: q)) (hg : child r f i = some g) :
    HeldPath F s r g q := by
  intro p b hp hb
  obtain ⟨rest, rfl⟩ := hp
  refine h (i :: p) b ⟨rest, rfl⟩ ?_
  rw [walk_cons, hg, Option.bind_some, hb]

theorem HeldPath.ensure (h : HeldPath F s r f (i :: q)) (hF : Lawful F) (hs : Sound F s)
    (hrun : ensureTable F (physToVirt f) i r s = .ok (r', s')) :
    ∃ g, child r' f i = some g ∧ f ∈ F.held s' ∧ Sound F s' ∧ HeldPath F s' r' g q := by
  rcases ensureTable_spec hF hs h.root hrun with
    ⟨hne, rfl, rfl⟩ | ⟨-, hs', -, g, -, -, hheld, hg, hempty, -⟩
  · obtain ⟨g, hg⟩ := Option.ne_none_iff_exists'.mp hne
    exact ⟨g, hg, h.root, hs, h.below hg⟩
  · refine ⟨g, hg, hheld ▸ Set.mem_insert_of_mem g h.root, hs', fun p b _ hb => ?_⟩
    by_cases hnil : p = []
    · subst hnil
      obtain rfl := Option.some.inj hb
      exact hheld ▸ Set.mem_insert _ _
    · rw [walk_empty hempty hnil] at hb
      cases hb

/-- Without frames for all missing tables, a level fails, or there are too few for those below it. -/
theorem ensureTable_short (hF : Lawful F) (hreturns : ∀ s, ∃ f s', F.allocFrames s = .ok (f, s'))
    (hs : Sound F s) (hheld : f ∈ F.held s) (hshort : ¬ Supplies F (missing r f (i :: q)) s) :
    ((∃ e, ensureTable F (physToVirt f) i r s = .error e) ∧
        ensureTable (stopping F) (physToVirt f) i r s = .error outOfFrames) ∨
      ∃ r' s', ensureTable F (physToVirt f) i r s = .ok (r', s') ∧
        ensureTable (stopping F) (physToVirt f) i r s = .ok (r', s') ∧
        ∀ g, child r' f i = some g → ¬ Supplies F (missing r' g q) s' := by
  have hf := hs.frame f hheld
  cases h : child r f i with
  | some g =>
    have hne : child r f i ≠ none := by
      rw [h]
      exact Option.some_ne_none g
    refine Or.inr ⟨r, s, ensureTable_present hf hne, ensureTable_present hf hne, fun g' hg' => ?_⟩
    rwa [missing, hg'] at hshort
  | none =>
    rw [missing, h] at hshort
    obtain ⟨g, s', halloc⟩ := hreturns s
    by_cases hg : g = invalidAddress
    · subst hg
      obtain ⟨e, herror⟩ := zeroPage_invalid (r.put (entryAddr f i) invalidAddress)
      refine Or.inl ⟨⟨e, ?_⟩, ?_⟩
      · rw [ensureTable, hf.load_entry, ok_bind, if_pos (target_none.mp h), halloc, ok_bind]
        dsimp only
        rw [hf.store_entry, ok_bind, herror, error_bind]
      · rw [ensureTable, hf.load_entry, ok_bind, if_pos (target_none.mp h), stopping_error halloc,
          error_bind]
    · obtain ⟨-, -, hgok, hfresh, -⟩ := hF.alloc_ok hs halloc hg
      have hne : f ≠ g := fun hfg => hfresh (hfg ▸ hheld)
      obtain ⟨r', hrun, hentry, hempty, -⟩ := ensureTable_absent hf hgok hne h halloc
      have hsame : ensureTable (stopping F) (physToVirt f) i r s =
          ensureTable F (physToVirt f) i r s := by
        rw [ensureTable, ensureTable, stopping_ok halloc hg, halloc]
      refine Or.inr ⟨r', s', hrun, hsame.trans hrun, fun g' hg' hrest => ?_⟩
      obtain rfl := Option.some.inj (hentry.symm.trans hg')
      rw [missing_of_empty hempty] at hrest
      exact hshort ⟨g, s', halloc, hg, hrest⟩

/-! ### All levels -/

section levels
variable (hF : Lawful F) (hs : Sound F s) (hmm : Direct mm 8) (hword : r.word mm = a)
  (hpath : HeldPath F s r a (upper page))
include hF hs hmm hword hpath

/-- `map_page` faults when frames run out. -/
theorem mapPage_out (hreturns : ∀ s, ∃ f s', F.allocFrames s = .ok (f, s'))
    (hshort : ¬ Supplies F (missing r a (upper page)) s) :
    (∃ e, mapPage F mm frame page attr r s = .error e) ∧
      mapPage (stopping F) mm frame page attr r s = .error outOfFrames := by
  have hlnot : lnot 0xFFF = pageMask := rfl
  rw [mapPage, mapPage, hmm.load, ok_bind, ok_bind, hword, pml4Index_eq, pdptIndex_eq, pdIndex_eq,
    ptIndex_eq, hlnot]
  dsimp only
  rcases ensureTable_short hF hreturns hs hpath.root hshort with
    ⟨⟨e, he⟩, hout⟩ | ⟨r₁, s₁, hrun₁, hout₁, hshort₁⟩
  · rw [he, hout, error_bind, error_bind]
    exact ⟨⟨e, rfl⟩, rfl⟩
  obtain ⟨b, hb, ha₁, hs₁, hpath₁⟩ := hpath.ensure hF hs hrun₁
  rw [hrun₁, hout₁, ok_bind, ok_bind, (hs₁.frame a ha₁).load_entry, ok_bind, ok_bind,
    (target_some.mp hb).2]
  rcases ensureTable_short hF hreturns hs₁ hpath₁.root (hshort₁ b hb) with
    ⟨⟨e, he⟩, hout⟩ | ⟨r₂, s₂, hrun₂, hout₂, hshort₂⟩
  · rw [he, hout, error_bind, error_bind]
    exact ⟨⟨e, rfl⟩, rfl⟩
  obtain ⟨c, hc, hb₂, hs₂, hpath₂⟩ := hpath₁.ensure hF hs₁ hrun₂
  rw [hrun₂, hout₂, ok_bind, ok_bind, (hs₂.frame b hb₂).load_entry, ok_bind, ok_bind,
    (target_some.mp hc).2]
  rcases ensureTable_short hF hreturns hs₂ hpath₂.root (hshort₂ c hc) with
    ⟨⟨e, he⟩, hout⟩ | ⟨r₃, s₃, hrun₃, -, hshort₃⟩
  · rw [he, hout, error_bind, error_bind]
    exact ⟨⟨e, rfl⟩, rfl⟩
  · obtain ⟨d, hd, -⟩ := hpath₂.ensure hF hs₂ hrun₃
    exact absurd trivial (hshort₃ d hd)

theorem mapPage_supplied (hsupply : Supplies F (missing r a (upper page)) s) :
    ∃ done r' s', mapPage F mm frame page attr r s = .ok (done, r', s') := by
  have hlnot : lnot 0xFFF = pageMask := rfl
  rw [mapPage, hmm.load, ok_bind, hword, pml4Index_eq, pdptIndex_eq, pdIndex_eq, ptIndex_eq, hlnot]
  dsimp only
  obtain ⟨r₁, s₁, hrun₁, hsupply₁⟩ := ensureTable_total hF hs hpath.root hsupply
  obtain ⟨b, hb, ha₁, hs₁, hpath₁⟩ := hpath.ensure hF hs hrun₁
  rw [hrun₁, ok_bind, (hs₁.frame a ha₁).load_entry, ok_bind, (target_some.mp hb).2]
  obtain ⟨r₂, s₂, hrun₂, hsupply₂⟩ := ensureTable_total hF hs₁ hpath₁.root (hsupply₁ b hb)
  obtain ⟨c, hc, hb₂, hs₂, hpath₂⟩ := hpath₁.ensure hF hs₁ hrun₂
  rw [hrun₂, ok_bind, (hs₂.frame b hb₂).load_entry, ok_bind, (target_some.mp hc).2]
  obtain ⟨r₃, s₃, hrun₃, -⟩ := ensureTable_total hF hs₂ hpath₂.root (hsupply₂ c hc)
  obtain ⟨d, hd, hc₃, hs₃, hpath₃⟩ := hpath₂.ensure hF hs₂ hrun₃
  have hdok := hs₃.frame d hpath₃.root
  rw [hrun₃, ok_bind, (hs₃.frame c hc₃).load_entry, ok_bind, (target_some.mp hd).2,
    hdok.load_entry, ok_bind]
  split_ifs
  · exact ⟨false, r₃, s₃, rfl⟩
  · rw [hdok.store_entry]
    exact ⟨true, _, s₃, rfl⟩

end levels

/-! ### The condition -/

theorem Inv.heldPath (h : Inv F κ σ) (hk : σ.spaces mm = some sp) (page : ℕ) :
    HeldPath F σ.frames σ.ram sp.pml4 (upper page) := fun _ _ hp hb =>
  h.reached hk (Nat.lt_succ_of_le hp.length_le) hb

theorem mapPage_failsClean_iff (hF : Lawful F)
    (hreturns : ∀ s, ∃ f s', F.allocFrames s = .ok (f, s')) (h : Inv F κ σ)
    (hk : σ.spaces mm = some sp) : FailsClean F σ mm sp frame page attr ↔
      Supplies F (missing σ.ram sp.pml4 (upper page)) σ.frames := by
  constructor
  · intro hclean
    by_contra hshort
    obtain ⟨⟨e, herror⟩, hout⟩ :
        (∃ e, mapPage F mm frame page attr σ.ram σ.frames = .error e) ∧
          mapPage (stopping F) mm frame page attr σ.ram σ.frames = .error outOfFrames :=
      mapPage_out hF h.sound (h.direct hk) (h.word hk) (h.heldPath hk page) hreturns hshort
    obtain ⟨r, s, hrun, -⟩ := hclean hout
    rw [herror] at hrun
    cases hrun
  · intro hsupply hout
    obtain ⟨done, r, s, hrun⟩ := mapPage_supplied (stopping_lawful hF) (stopping_sound.mpr h.sound)
      (h.direct hk) (h.word hk) (h.heldPath hk page) (stopping_supplies hsupply)
    rw [hout] at hrun
    cases hrun

theorem bump_returns (s : Bump) : ∃ f s', bump.allocFrames s = .ok (f, s') := by
  simp only [bump, bumpFrame]
  split_ifs
  · exact ⟨_, _, rfl⟩
  · exact ⟨_, _, rfl⟩

/-- A first page, which three tables are missing for. -/
theorem mapPage_failsClean_iff_blank : ∃ (σ : Sys Bump) (sp : Space), Step bump 0 blank .create σ ∧
    σ.spaces (blockAddr 1) = some sp ∧ FailsClean bump σ (blockAddr 1) sp 0x7000 0x5000 1 := by
  obtain ⟨σ, sp, hstep, hspaces, -, hframes, -⟩ := blank_create 0
  have hcreate : Allowed bump none 0 blank .create := trivial
  have hsp : σ.spaces (blockAddr 1) = some sp := by rw [hspaces, Function.update_self]
  refine ⟨σ, sp, hstep, hsp, (mapPage_failsClean_iff bump_lawful bump_returns
    (hstep.inv bump_lawful hcreate (Inv.empty blank_sound rfl)) hsp).mpr (bump_supplies ?_)⟩
  have hle : missing σ.ram sp.pml4 (upper 0x5000) ≤ 3 := missing_le _ _ _
  rw [hframes, physLimit_eq]
  change 4096 * (2 + _) ≤ _
  omega

/-! ### The last frame -/

/-- The number of the last page frame. -/
def lastFrame : ℕ := physLimit / 4096 - 1

/-- Nothing was ever written, and all frames but the last are in use as far as the allocator is concerned. -/
def nearlyFull : Sys Bump := ⟨⟨fun _ => 0, []⟩, ([lastFrame - 1], []), ⟨0, 0⟩, fun _ => none, ∅⟩

theorem nearlyFull_sound : Sound bump nearlyFull.frames := by
  refine bump_sound.mpr ⟨fun n hn => ?_, fun _ hn => absurd hn List.not_mem_nil⟩
  obtain rfl := List.mem_singleton.mp hn
  decide

theorem bump_exhausted {s : Bump} (h : physLimit < 4096 * above s.1 + 4096) :
    bump.allocFrames s = .ok (invalidAddress, s) := by
  simp only [bump, bumpFrame, if_neg (Nat.not_le.mpr h)]

/-- The last frame becomes the PML4 of a new address space, and there is none for the tables below it. -/
theorem last_frame_faults : ∃ (σ : Sys Bump) (sp : Space), Step bump 0 nearlyFull .create σ ∧
    σ.spaces (blockAddr 1) = some sp ∧ ¬ FailsClean bump σ (blockAddr 1) sp 0x7000 0x5000 1 := by
  obtain ⟨r, hcreate⟩ : ∃ r, createMm bump nearlyFull.ram nearlyFull.frames =
      .ok (blockAddr 1, r, ([lastFrame, lastFrame - 1], [1])) :=
    bump_createMm nearlyFull_sound (by decide) (by decide)
  obtain ⟨-, -, ⟨hzero, -⟩ | ⟨-, -, -, g, -, -, hword, hempty⟩⟩ :=
    createMm_spec bump_lawful nearlyFull_sound hcreate
  · exact absurd hzero (blockAddr_ne_zero _)
  obtain ⟨σ, sp, hstep, hram, hframes, hspaces, hroot⟩ : ∃ (σ : Sys Bump) (sp : Space),
      Step bump 0 nearlyFull .create σ ∧ σ.ram = r ∧ σ.frames = ([lastFrame, lastFrame - 1], [1]) ∧
        σ.spaces = Function.update (fun _ => none) (blockAddr 1) (some sp) ∧
        sp.pml4 = r.word (blockAddr 1) :=
    ⟨_, ⟨r.word (blockAddr 1), false, bump.held ([lastFrame, lastFrame - 1], [1]) \
      bump.held nearlyFull.frames, fun _ => none⟩, Step.create hcreate (blockAddr_ne_zero _), rfl, rfl,
      rfl, rfl⟩
  have hsp : σ.spaces (blockAddr 1) = some sp := by rw [hspaces, Function.update_self]
  have hallowed : Allowed bump none 0 nearlyFull .create := trivial
  have hinv := hstep.inv bump_lawful hallowed (Inv.empty nearlyFull_sound rfl)
  have hshort : ¬ Supplies bump (missing σ.ram sp.pml4 (upper 0x5000)) σ.frames := by
    rw [hroot, hword, hram, missing_of_empty fun j => child_eq_none.mpr (by rw [hempty j]; rfl),
      hframes]
    rintro ⟨f, s, halloc, hf, -⟩
    rw [bump_exhausted (by decide)] at halloc
    exact hf (Prod.mk.inj (Except.ok.inj halloc)).1.symm
  refine ⟨σ, sp, hstep, hsp, fun hclean => ?_⟩
  obtain ⟨⟨e, herror⟩, hout⟩ :
      (∃ e, mapPage bump (blockAddr 1) 0x7000 0x5000 1 σ.ram σ.frames = .error e) ∧
        mapPage (stopping bump) (blockAddr 1) 0x7000 0x5000 1 σ.ram σ.frames = .error outOfFrames :=
    mapPage_out bump_lawful hinv.sound (hinv.direct hsp) (hinv.word hsp) (hinv.heldPath hsp 0x5000)
      bump_returns hshort
  obtain ⟨r', s, hrun, -⟩ := hclean hout
  rw [herror] at hrun
  cases hrun

end Fynaos.Vmm
