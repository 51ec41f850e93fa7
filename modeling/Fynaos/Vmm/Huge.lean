import Fynaos.Lib.Encoding
import Fynaos.Vmm.Contract
import Fynaos.Vmm.Paging

/-!
# Huge pages

`mm.h` defines `PAGE_HUGE` and the boot table sets it, but no walker looks at it: what a leaf of 1 GiB or
2 MiB maps is taken for the next table. The kernel and the hardware agree on an address exactly when the
way of the address meets neither such a leaf nor an entry with one of the bits 52 to 63, which
`PAGE_MASK` keeps (`walksAgree_iff`).
-/

namespace Fynaos.Vmm

/-! ### Agreement -/

/-- The tables on the way of `v` are page frames, and what a leaf above the last level maps is memory. -/
def WellFormed (r : Ram) (v : ℕ) : ℕ → ℕ → Prop
  | 0, table => FrameOk table
  | level + 1, table =>
    let e := entry r table (index (shift (level + 1)) v)
    FrameOk table ∧ (e &&& pagePresent ≠ 0 →
      if Huge (level + 1) e then field (shift (level + 1)) e + 2 ^ shift (level + 1) ≤ physLimit
      else WellFormed r v level (field 12 e))

/-- All entries on the way of `v` point to tables and to pages of 4 KiB, and have no bit from 52 on. -/
def Plain (r : Ram) (v : ℕ) : ℕ → ℕ → Prop
  | 0, table =>
    let e := entry r table (index (shift 0) v)
    e &&& pagePresent ≠ 0 → e < 2 ^ 52
  | level + 1, table =>
    let e := entry r table (index (shift (level + 1)) v)
    e &&& pagePresent ≠ 0 → e < 2 ^ 52 ∧ ¬ Huge (level + 1) e ∧ Plain r v level (field 12 e)

/-- A page, in the direct map. -/
def leafMemory (page : ℕ × ℕ) : Set ℕ :=
  Set.Ico (kernelDirectBase + page.1) (kernelDirectBase + page.1 + 2 ^ page.2)

/-- A run neither reads nor stores in `X`: another content of `X` gives the same result, and stays. -/
structure Spares {α : Type} (X : Set ℕ) (run : Ram → Except Halt (α × Ram)) (r : Ram) : Prop where
  reads : ∀ r', (∀ x ∉ X, r'.bytes x = r.bytes x) → (run r').map Prod.fst = (run r).map Prod.fst
  stores : ∀ y r', run r = .ok (y, r') → Wrote r r' Xᶜ

/-- The walkers treat `v` as the hardware does. -/
structure WalksAgree {S : Type} (F : Services S) (mm a v : ℕ) (r : Ram) (s : S) : Prop where
  virtToPhys : virtToPhys mm v r = .ok ((translate r a v).getD invalidAddress)
  mapPage : ∀ page, hardwareLeaf r v 3 a = some page → 12 < page.2 → ∀ frame attr,
    (∃ r' s', mapPage F mm frame v attr r s = .ok (false, r', s')) ∧
    Spares (leafMemory page)
      (fun r => (mapPage F mm frame v attr r s).map fun (mapped, r, s) => ((mapped, s), r)) r
  unmapPage : ∀ page, hardwareLeaf r v 3 a = some page → 12 < page.2 →
    Spares (leafMemory page) (unmapPage mm v) r

variable {S : Type} {F : Services S} {s : S} {r : Ram} {a e f k level mm t v x : ℕ} {i : Fin 512}
  {o : Option ℕ} {page : ℕ × ℕ}

/-! ### Entries -/

theorem entry_lt (r : Ram) (t : ℕ) (i : Fin 512) : entry r t i < 2 ^ 64 := Ram.word_lt _ _

theorem field_twelve (he : e < 2 ^ 64) : field 12 e = (e &&& pageMask) % 2 ^ 52 := by
  rw [land_pageMask he, field]
  omega

theorem field_twelve_of_lt (he : e < 2 ^ 52) : field 12 e = e &&& pageMask := by
  rw [land_pageMask (by omega), field]
  omega

/-- What is taken for a table lies in the leaf. -/
theorem huge_table (h : Huge level e) (hlevel : level ≠ 0) (he : e < 2 ^ 52) :
    field (shift level) e ≤ e &&& pageMask ∧
      (e &&& pageMask) + 4096 ≤ field (shift level) e + 2 ^ shift level := by
  have hlow := h.1
  rw [land_pageMask (by omega)]
  unfold field
  obtain rfl | rfl : level = 1 ∨ level = 2 := by omega
  · show e % 2 ^ 52 / 2 ^ 21 * 2 ^ 21 ≤ _ ∧ _ ≤ e % 2 ^ 52 / 2 ^ 21 * 2 ^ 21 + 2 ^ 21
    omega
  · show e % 2 ^ 52 / 2 ^ 30 * 2 ^ 30 ≤ _ ∧ _ ≤ e % 2 ^ 52 / 2 ^ 30 * 2 ^ 30 + 2 ^ 30
    omega

/-- An entry with high bits leads where no pointer may go. -/
theorem load_high (he : e < 2 ^ 64) (hhigh : 2 ^ 52 ≤ e) (i : Fin 512) :
    ∃ halt, r.load (physToVirt (e &&& pageMask) + 8 * i) = .error halt := by
  have hi := i.isLt
  have haddr : ¬ Canonical (wrap (physToVirt (e &&& pageMask) + 8 * i)) := by
    rw [land_pageMask he]
    unfold Canonical physToVirt wrap
    rw [kernelDirectBase_eq]
    omega
  exact ⟨_, by rw [Ram.load, if_neg haddr]⟩

theorem lt_of_follow (he : e < 2 ^ 64) (h : follow r v level (e &&& pageMask) = .ok o) : e < 2 ^ 52 := by
  by_contra hhigh
  have hload := fun i => load_high (r := r) he (Nat.le_of_not_lt hhigh) i
  cases level with
  | zero =>
    obtain ⟨halt, herror⟩ := hload (index (shift 0) v)
    rw [follow, herror, error_bind] at h
    cases h
  | succ level =>
    obtain ⟨halt, herror⟩ := hload (index (shift (level + 1)) v)
    rw [follow, herror, error_bind] at h
    cases h

theorem Ram.load_lt (h : r.load x = .ok e) : e < 2 ^ 64 := by
  rw [← Ram.word_of_load h]
  exact Ram.word_lt _ _

/-! ### One level -/

theorem WellFormed.frame (h : WellFormed r v level t) : FrameOk t := by
  cases level with
  | zero => exact h
  | succ level => exact h.1

theorem WellFormed.huge (h : WellFormed r v (level + 1) t)
    (hpresent : entry r t (index (shift (level + 1)) v) &&& pagePresent ≠ 0)
    (hhuge : Huge (level + 1) (entry r t (index (shift (level + 1)) v))) :
    field (shift (level + 1)) (entry r t (index (shift (level + 1)) v)) + 2 ^ shift (level + 1) ≤
      physLimit := by
  have hrest := h.2 hpresent
  rwa [if_pos hhuge] at hrest

theorem WellFormed.below (h : WellFormed r v (level + 1) t)
    (hpresent : entry r t (index (shift (level + 1)) v) &&& pagePresent ≠ 0)
    (hhuge : ¬ Huge (level + 1) (entry r t (index (shift (level + 1)) v))) :
    WellFormed r v level (field 12 (entry r t (index (shift (level + 1)) v))) := by
  have hrest := h.2 hpresent
  rwa [if_neg hhuge] at hrest

theorem follow_zero (ht : FrameOk t) : follow r v 0 t =
    .ok (target (entry r t (index (shift 0) v))) := by
  rw [follow, ht.load_entry, ok_bind, target]
  split <;> rfl

theorem follow_absent (ht : FrameOk t)
    (h : entry r t (index (shift (level + 1)) v) &&& pagePresent = 0) :
    follow r v (level + 1) t = .ok none := by
  rw [follow, ht.load_entry, ok_bind, if_pos h, pure_eq]

theorem follow_present (ht : FrameOk t)
    (h : entry r t (index (shift (level + 1)) v) &&& pagePresent ≠ 0) :
    follow r v (level + 1) t = follow r v level (entry r t (index (shift (level + 1)) v) &&& pageMask) := by
  rw [follow, ht.load_entry, ok_bind, if_neg h]

theorem hardwareLeaf_absent (h : entry r t (index (shift (level + 1)) v) &&& pagePresent = 0) :
    hardwareLeaf r v (level + 1) t = none := by
  rw [hardwareLeaf, if_pos h]

theorem hardwareLeaf_huge (h : entry r t (index (shift (level + 1)) v) &&& pagePresent ≠ 0)
    (hhuge : Huge (level + 1) (entry r t (index (shift (level + 1)) v))) :
    hardwareLeaf r v (level + 1) t =
      some (field (shift (level + 1)) (entry r t (index (shift (level + 1)) v)), shift (level + 1)) := by
  rw [hardwareLeaf, if_neg h, if_pos hhuge]

theorem hardwareLeaf_below (h : entry r t (index (shift (level + 1)) v) &&& pagePresent ≠ 0)
    (hhuge : ¬ Huge (level + 1) (entry r t (index (shift (level + 1)) v))) :
    hardwareLeaf r v (level + 1) t =
      hardwareLeaf r v level (field 12 (entry r t (index (shift (level + 1)) v))) := by
  rw [hardwareLeaf, if_neg h, if_neg hhuge]

/-! ### Walks without a leaf -/

theorem Plain.walks (h : WellFormed r v level t) (hplain : Plain r v level t) :
    (hardwareLeaf r v level t = none ∧ follow r v level t = .ok none) ∨
      ∃ f < 2 ^ 52, hardwareLeaf r v level t = some (f, 12) ∧ follow r v level t = .ok (some f) := by
  induction level generalizing t with
  | zero =>
    rw [follow_zero h.frame, hardwareLeaf, target]
    split
    · exact Or.inl ⟨rfl, rfl⟩
    · rename_i hpresent
      have he := hplain hpresent
      refine Or.inr ⟨entry r t (index (shift 0) v) &&& pageMask, ?_, ?_, rfl⟩
      · exact lt_of_le_of_lt Nat.and_le_left he
      · exact congrArg some (congrArg (·, 12) (field_twelve_of_lt he))
  | succ level ih =>
    by_cases hpresent : entry r t (index (shift (level + 1)) v) &&& pagePresent = 0
    · exact Or.inl ⟨hardwareLeaf_absent hpresent, follow_absent h.frame hpresent⟩
    · obtain ⟨he, hhuge, hbelow⟩ := hplain hpresent
      rw [hardwareLeaf_below hpresent hhuge, follow_present h.frame hpresent, ← field_twelve_of_lt he]
      exact ih (h.below hpresent hhuge) hbelow

theorem plain_of_follow (h : WellFormed r v level t)
    (hsmall : ∀ page, hardwareLeaf r v level t = some page → ¬ 12 < page.2)
    (hfollow : follow r v level t = .ok o)
    (hvalue : o.elim invalidAddress (fun f => wrap (f + v % 4096)) =
      ((hardwareLeaf r v level t).map fun page => page.1 + v % 2 ^ page.2).getD invalidAddress) :
    Plain r v level t := by
  induction level generalizing t with
  | zero =>
    intro hpresent
    have he := entry_lt r t (index (shift 0) v)
    rw [follow_zero h.frame, target, if_neg hpresent] at hfollow
    obtain rfl := Except.ok.inj hfollow
    rw [hardwareLeaf, if_neg hpresent] at hvalue
    have hsame : wrap ((entry r t (index (shift 0) v) &&& pageMask) + v % 4096) =
        field 12 (entry r t (index (shift 0) v)) + v % 4096 := hvalue
    rw [field_twelve he, land_pageMask he, wrap_of_lt (by omega)] at hsame
    omega
  | succ level ih =>
    intro hpresent
    have hhuge : ¬ Huge (level + 1) (entry r t (index (shift (level + 1)) v)) := by
      intro hhuge
      apply hsmall _ (hardwareLeaf_huge hpresent hhuge)
      show 12 < 12 + 9 * (level + 1)
      omega
    rw [hardwareLeaf_below hpresent hhuge] at hsmall hvalue
    rw [follow_present h.frame hpresent] at hfollow
    have hlow := lt_of_follow (entry_lt _ _ _) hfollow
    rw [← field_twelve_of_lt hlow] at hfollow
    exact ⟨hlow, hhuge, ih (h.below hpresent hhuge) hsmall hfollow hvalue⟩

/-! ### Walks into a leaf -/

theorem WellFormed.leaf (h : WellFormed r v level t) (hleaf : hardwareLeaf r v level t = some page)
    (hpage : 12 < page.2) : page.1 + 2 ^ page.2 ≤ physLimit := by
  induction level generalizing t with
  | zero =>
    rw [hardwareLeaf] at hleaf
    split at hleaf
    · cases hleaf
    · obtain rfl := Option.some.inj hleaf
      exact absurd hpage (lt_irrefl 12)
  | succ level ih =>
    by_cases hpresent : entry r t (index (shift (level + 1)) v) &&& pagePresent = 0
    · rw [hardwareLeaf_absent hpresent] at hleaf
      cases hleaf
    · by_cases hhuge : Huge (level + 1) (entry r t (index (shift (level + 1)) v))
      · rw [hardwareLeaf_huge hpresent hhuge] at hleaf
        obtain rfl := Option.some.inj hleaf
        exact h.huge hpresent hhuge
      · rw [hardwareLeaf_below hpresent hhuge] at hleaf
        exact ih (h.below hpresent hhuge) hleaf

theorem follow_dvd (h : follow r v level t = .ok (some f)) : 4096 ∣ f := by
  induction level generalizing t with
  | zero =>
    rw [follow] at h
    obtain ⟨e, hload, h⟩ := bind_eq_ok.mp h
    have he := Ram.load_lt hload
    split at h
    · cases h
    · obtain rfl := Option.some.inj (Except.ok.inj h)
      rw [land_pageMask he]
      exact Dvd.intro_left _ rfl
  | succ level ih =>
    rw [follow] at h
    obtain ⟨e, -, h⟩ := bind_eq_ok.mp h
    split at h
    · cases h
    · exact ih h

theorem present_of_follow (ht : FrameOk t) (h : follow r v level t = .ok (some f)) :
    entry r t (index (shift level) v) &&& pagePresent ≠ 0 := by
  intro habsent
  cases level with
  | zero =>
    rw [follow_zero ht, target, if_pos habsent] at h
    cases h
  | succ level =>
    rw [follow_absent ht habsent] at h
    cases h

theorem follow_of_zero (ht : FrameOk t) (h : entry r t (index (shift level) v) = 0) :
    follow r v level t = .ok none := by
  have habsent : entry r t (index (shift level) v) &&& pagePresent = 0 := by
    rw [h]
    rfl
  cases level with
  | zero => rw [follow_zero ht, target, if_pos habsent]
  | succ level => exact follow_absent ht habsent

/-- Below a leaf the kernel reads an entry in the memory that the leaf maps: when it is cleared, the walk
ends. -/
theorem exists_fake_entry (h : WellFormed r v level t) (hleaf : hardwareLeaf r v level t = some page)
    (hpage : 12 < page.2) (hfollow : follow r v level t = .ok (some f)) :
    ∃ g i, FrameOk g ∧ entrySpan g i ⊆ leafMemory page ∧ entry r g i &&& pagePresent ≠ 0 ∧
      follow (r.put (entryAddr g i) 0) v level t = .ok none := by
  induction level generalizing t with
  | zero =>
    rw [hardwareLeaf] at hleaf
    split at hleaf
    · cases hleaf
    · obtain rfl := Option.some.inj hleaf
      exact absurd hpage (lt_irrefl 12)
  | succ level ih =>
    have ht := h.frame
    have hpresent := present_of_follow ht hfollow
    rw [follow_present ht hpresent] at hfollow
    have hlow := lt_of_follow (entry_lt _ _ _) hfollow
    -- the entry of this table is the one that was cleared, or still leads on
    have hstep : ∀ g i, FrameOk g → follow (r.put (entryAddr g i) 0) v level
        (entry r t (index (shift (level + 1)) v) &&& pageMask) = .ok none →
        follow (r.put (entryAddr g i) 0) v (level + 1) t = .ok none := by
      intro g i hg hrest
      by_cases hsame : t = g ∧ index (shift (level + 1)) v = i
      · obtain ⟨rfl, rfl⟩ := hsame
        exact follow_of_zero ht (entry_put_self (by norm_num))
      · have hkeep := entry_put_of_ne (r := r) (v := 0) ht hg hsame
        rw [follow_present ht (by rw [hkeep]; exact hpresent), hkeep]
        exact hrest
    by_cases hhuge : Huge (level + 1) (entry r t (index (shift (level + 1)) v))
    · rw [hardwareLeaf_huge hpresent hhuge] at hleaf
      obtain rfl := Option.some.inj hleaf
      obtain ⟨hfirst, hlast⟩ := huge_table hhuge (Nat.succ_ne_zero level) hlow
      have hg : FrameOk (entry r t (index (shift (level + 1)) v) &&& pageMask) := by
        refine ⟨?_, hlast.trans (h.huge hpresent hhuge)⟩
        rw [land_pageMask (entry_lt _ _ _)]
        exact Dvd.intro_left _ rfl
      refine ⟨_, index (shift level) v, hg, (entrySpan_subset _ _).trans ?_, present_of_follow hg hfollow, ?_⟩
      · unfold pageSpan leafMemory
        dsimp only
        apply Set.Ico_subset_Ico
        · omega
        · omega
      · exact hstep _ _ hg (follow_of_zero hg (entry_put_self (by norm_num)))
    · rw [hardwareLeaf_below hpresent hhuge] at hleaf
      rw [← field_twelve_of_lt hlow] at hfollow hstep
      obtain ⟨g, i, hg, hin, hfake, hcleared⟩ := ih (h.below hpresent hhuge) hleaf hfollow
      exact ⟨g, i, hg, hin, hfake, hstep g i hg hcleared⟩

/-! ### The theorem -/

theorem FrameOk.land_pageMask (h : FrameOk a) : a &&& pageMask = a := by
  obtain ⟨q, rfl⟩ := h.aligned
  have hlt := h.lt
  rw [Fynaos.land_pageMask (by omega)]
  omega

/-- The fake entry is not `mm->pml4`, which is aligned. -/
theorem root_put (haligned : 8 ∣ mm) (hroot : r.word mm = a) (ha : FrameOk a) (hf : FrameOk f)
    (hfake : entry r f i &&& pagePresent ≠ 0) : (r.put (entryAddr f i) 0).word mm = a := by
  by_cases hsame : mm = entryAddr f i
  · obtain ⟨q, rfl⟩ := ha.aligned
    rw [entry, ← hsame, hroot] at hfake
    have hlow : 4096 * q &&& 2 ^ 1 - 1 = 4096 * q % 2 ^ 1 := land_low (4096 * q) 1
    have habsent : 4096 * q &&& pagePresent = 0 := hlow.trans (by omega)
    exact absurd habsent hfake
  · have hfa := hf.aligned
    rw [← hroot]
    apply Ram.word_put_of_disjoint
    unfold entryAddr at hsame ⊢
    rw [kernelDirectBase_eq] at hsame ⊢
    omega

theorem not_huge_of_walksAgree (hmm : Direct mm 8) (haligned : 8 ∣ mm) (hroot : r.word mm = a)
    (h : WellFormed r v 3 a) (hagree : WalksAgree F mm a v r s) :
    ∀ page, hardwareLeaf r v 3 a = some page → ¬ 12 < page.2 := by
  intro page hleaf hpage
  -- the result of `virt_to_phys` is the hardware's, so its walk comes to a page
  obtain ⟨f, hfollow⟩ : ∃ f, follow r v 3 a = .ok (some f) := by
    have hvalue := hagree.virtToPhys
    rw [virtToPhys_follow hmm, hroot, h.frame.land_pageMask, translate, hleaf] at hvalue
    cases hwalk : follow r v 3 a with
    | error halt =>
      rw [hwalk] at hvalue
      cases hvalue
    | ok o =>
      rw [hwalk] at hvalue
      cases o with
      | some f => exact ⟨f, rfl⟩
      | none =>
        have hinvalid : invalidAddress = page.1 + v % 2 ^ page.2 := Except.ok.inj hvalue
        have hmemory := h.leaf hleaf hpage
        have hoffset : v % 2 ^ page.2 < 2 ^ page.2 := Nat.mod_lt _ (by positivity)
        rw [physLimit_eq] at hmemory
        unfold invalidAddress at hinvalid
        omega
  -- but it depends on an entry in the memory of the leaf
  obtain ⟨g, i, hg, hin, hfake, hcleared⟩ := exists_fake_entry h hleaf hpage hfollow
  have hreads := (hagree.unmapPage page hleaf hpage).reads (r.put (entryAddr g i) 0)
    (Wrote.put r 0 hin).frame
  rw [unmapPage_follow hmm, unmapPage_follow hmm, root_put haligned hroot h.frame hg hfake, hroot,
    hfollow, hcleared] at hreads
  have hinvalid : invalidAddress = f := Except.ok.inj hreads
  have hdvd := follow_dvd hfollow
  unfold invalidAddress at hinvalid
  omega

/-- The kernel and the hardware agree on `v` exactly when its way is plain. -/
theorem walksAgree_iff (hmm : Direct mm 8) (haligned : 8 ∣ mm) (hroot : r.word mm = a)
    (h : WellFormed r v 3 a) : WalksAgree F mm a v r s ↔ Plain r v 3 a := by
  have hwalk := virtToPhys_follow (r := r) (v := v) hmm
  rw [hroot, h.frame.land_pageMask] at hwalk
  constructor
  · intro hagree
    have hsmall := not_huge_of_walksAgree hmm haligned hroot h hagree
    have hvalue := hagree.virtToPhys
    rw [hwalk] at hvalue
    cases hfollow : follow r v 3 a with
    | error halt =>
      rw [hfollow] at hvalue
      cases hvalue
    | ok o =>
      rw [hfollow] at hvalue
      exact plain_of_follow h hsmall hfollow (Except.ok.inj hvalue)
  · intro hplain
    have hvalue : virtToPhys mm v r = .ok ((translate r a v).getD invalidAddress) := by
      rw [hwalk, translate]
      obtain ⟨hleaf, hfollow⟩ | ⟨f, hf, hleaf, hfollow⟩ := hplain.walks h
      · rw [hleaf, hfollow]
        rfl
      · rw [hleaf, hfollow]
        exact congrArg Except.ok (wrap_of_lt (by omega))
    have hsmall : ∀ page, hardwareLeaf r v 3 a = some page → ¬ 12 < page.2 := by
      intro page hpage
      obtain ⟨hleaf, -⟩ | ⟨f, -, hleaf, -⟩ := hplain.walks h
      · rw [hleaf] at hpage
        cases hpage
      · rw [hleaf] at hpage
        rw [← Option.some.inj hpage]
        exact lt_irrefl 12
    exact ⟨hvalue, fun page hleaf hpage => absurd hpage (hsmall page hleaf),
      fun page hleaf hpage => absurd hpage (hsmall page hleaf)⟩

/-! ### The tables of the boot code -/

section boot
variable {pml4 pdpt p : ℕ}

theorem index_physToVirt (hp : p < 510 * 2 ^ 30) : index (shift 3) (physToVirt p) = 256 ∧
    (index (shift 2) (physToVirt p) : ℕ) = p / 2 ^ 30 ∧ physToVirt p % 2 ^ 30 = p % 2 ^ 30 := by
  have haddr : physToVirt p = kernelDirectBase + p := by
    rw [physToVirt, kernelDirectBase_eq, wrap_of_lt (by omega)]
    exact Nat.add_comm _ _
  rw [haddr, kernelDirectBase_eq]
  refine ⟨Fin.ext ?_, ?_, ?_⟩
  · show (0xFFFF800000000000 + p) / 2 ^ 39 % 512 = 256
    omega
  · show (0xFFFF800000000000 + p) / 2 ^ 30 % 512 = p / 2 ^ 30
    omega
  · omega

theorem present_of_odd (h : e % 2 = 1) : e &&& pagePresent ≠ 0 := by
  intro habsent
  rw [show pagePresent = 2 ^ 1 - 1 from rfl, land_low] at habsent
  omega

theorem field_table (ht : FrameOk t) : field 12 (t + 3) = t := by
  have hlt := ht.lt
  obtain ⟨q, rfl⟩ := ht.aligned
  unfold field
  omega

theorem boot_leaf (q : ℕ) (hq : q < 510) : Huge 2 (q * 0x40000000 + 0x83) ∧
    field (shift 2) (q * 0x40000000 + 0x83) = q * 2 ^ 30 := by
  refine ⟨⟨by norm_num, ?_⟩, ?_⟩
  · rw [show pageHuge = 2 ^ 7 from rfl, Nat.and_two_pow, Nat.testBit_eq_decide_div_mod_eq,
      decide_eq_true (by omega)]
    norm_num
  · rw [show shift 2 = 30 from rfl, field]
    omega

theorem BootTables.entries (h : BootTables r pml4 pdpt) (hp : p < 510 * 2 ^ 30) :
    entry r pml4 (index (shift 3) (physToVirt p)) = pdpt + 3 ∧
      entry r pdpt (index (shift 2) (physToVirt p)) = p / 2 ^ 30 * 0x40000000 + 0x83 := by
  obtain ⟨h3, h2, -⟩ := index_physToVirt hp
  constructor
  · rw [h3, h.pml4]
    rfl
  · rw [h.pdpt, h2, initialPdpt, if_pos (by omega)]

theorem BootTables.wellFormed (h : BootTables r pml4 pdpt) (hpml4 : FrameOk pml4) (hpdpt : FrameOk pdpt)
    (hp : p < 510 * 2 ^ 30) : WellFormed r (physToVirt p) 3 pml4 := by
  obtain ⟨hroot, hentry⟩ := h.entries hp
  obtain ⟨hhuge, hleaf⟩ := boot_leaf (p / 2 ^ 30) (by omega)
  refine ⟨hpml4, fun _ => ?_⟩
  rw [if_neg fun h => absurd h.1 (lt_irrefl 3), hroot, field_table hpdpt]
  refine ⟨hpdpt, fun _ => ?_⟩
  rw [hentry, if_pos hhuge, hleaf, physLimit_eq]
  show p / 2 ^ 30 * 2 ^ 30 + 2 ^ 30 ≤ _
  omega

theorem BootTables.hardwareLeaf_eq (h : BootTables r pml4 pdpt) (hpdpt : FrameOk pdpt)
    (hp : p < 510 * 2 ^ 30) :
    hardwareLeaf r (physToVirt p) 3 pml4 = some (p / 2 ^ 30 * 2 ^ 30, shift 2) := by
  obtain ⟨hroot, hentry⟩ := h.entries hp
  obtain ⟨hhuge, hleaf⟩ := boot_leaf (p / 2 ^ 30) (by omega)
  obtain ⟨q, hq⟩ := hpdpt.aligned
  have hpresent : pdpt + 3 &&& pagePresent ≠ 0 := present_of_odd (by omega)
  rw [← hroot] at hpresent
  rw [hardwareLeaf_below hpresent fun h => absurd h.1 (lt_irrefl 3), hroot, field_table hpdpt]
  have hpresent' : p / 2 ^ 30 * 0x40000000 + 0x83 &&& pagePresent ≠ 0 := present_of_odd (by omega)
  rw [← hentry] at hpresent' hhuge
  rw [hardwareLeaf_huge hpresent' hhuge, hentry, hleaf]

theorem BootTables.translate_eq (h : BootTables r pml4 pdpt) (hpdpt : FrameOk pdpt)
    (hp : p < 510 * 2 ^ 30) : translate r pml4 (physToVirt p) = some p := by
  obtain ⟨-, -, hoffset⟩ := index_physToVirt hp
  rw [translate, h.hardwareLeaf_eq hpdpt hp]
  refine congrArg some ?_
  show p / 2 ^ 30 * 2 ^ 30 + physToVirt p % 2 ^ 30 = p
  omega

/-- The kernel never agrees with the hardware on the direct map of the boot tables. -/
theorem BootTables.not_walksAgree (h : BootTables r pml4 pdpt) (hpml4 : FrameOk pml4)
    (hpdpt : FrameOk pdpt) (hp : p < 510 * 2 ^ 30) (hmm : Direct mm 8) (haligned : 8 ∣ mm)
    (hroot : r.word mm = pml4) : ¬ WalksAgree F mm pml4 (physToVirt p) r s := by
  intro hagree
  apply not_huge_of_walksAgree hmm haligned hroot (h.wellFormed hpml4 hpdpt hp) hagree _
    (h.hardwareLeaf_eq hpdpt hp)
  show 12 < 30
  norm_num

end boot

/-- The words of a memory with the boot tables at 2 MiB, and an `mm` in the kernel image. -/
def bootWord (q : ℕ) : ℕ :=
  if q < (kernelDirectBase + 0x200000) / 8 then 0
  else if q < (kernelDirectBase + 0x201000) / 8 then
    initialPml4 0x201000 (q - (kernelDirectBase + 0x200000) / 8)
  else if q < (kernelDirectBase + 0x202000) / 8 then
    initialPdpt (q - (kernelDirectBase + 0x201000) / 8)
  else if q = 0xFFFFFFFF80300000 / 8 then 0x200000 else 0

def bootRam : Ram := ⟨Memory.ofWords bootWord, []⟩

theorem bootRam_tables : BootTables bootRam 0x200000 0x201000 := by
  have hword : ∀ t i, 8 ∣ t → entry bootRam t i = bootWord ((kernelDirectBase + t) / 8 + i) % 2 ^ 64 := by
    rintro _ i ⟨q, rfl⟩
    rw [← Memory.load_ofWords]
    show Memory.load _ (kernelDirectBase + 8 * q + 8 * i) 8 = _
    congr 1
    rw [kernelDirectBase_eq]
    omega
  constructor
  · intro i
    have hi := i.isLt
    rw [hword _ i (by norm_num), bootWord, kernelDirectBase_eq, if_neg (by omega), if_pos (by omega),
      Nat.add_sub_cancel_left, initialPml4]
    split <;> rfl
  · intro i
    have hi := i.isLt
    rw [hword _ i (by norm_num), bootWord, kernelDirectBase_eq, if_neg (by omega), if_neg (by omega),
      if_pos (by omega), Nat.add_sub_cancel_left, initialPdpt]
    split <;> omega

theorem bootRam_root : bootRam.word 0xFFFFFFFF80300000 = 0x200000 := by decide +kernel

theorem walksAgree_iff_boot :
    WalksAgree bump 0xFFFFFFFF80300000 0x200000 (2 ^ 39) bootRam ([], []) ∧
      ¬ WalksAgree bump 0xFFFFFFFF80300000 0x200000 (physToVirt 0x5000) bootRam ([], []) := by
  have hmm : Direct 0xFFFFFFFF80300000 8 := ⟨by decide, by norm_num⟩
  have hpml4 : FrameOk 0x200000 := ⟨by norm_num, by decide⟩
  constructor
  · -- nothing is mapped from 512 GiB on
    have habsent : entry bootRam 0x200000 (index (shift 3) (2 ^ 39)) &&& pagePresent = 0 := by
      rw [bootRam_tables.pml4]
      decide
    apply (walksAgree_iff hmm (by norm_num) bootRam_root ⟨hpml4, fun h => absurd habsent h⟩).mpr
    exact fun h => absurd habsent h
  · exact bootRam_tables.not_walksAgree hpml4 ⟨by norm_num, by decide⟩ (by norm_num) hmm (by norm_num)
      bootRam_root

/-- The translation of an address of the direct map under the boot tables is lost. -/
theorem boot_address_invalid : BootTables bootRam 0x200000 0x201000 ∧
    bootRam.word 0xFFFFFFFF80300000 = 0x200000 ∧
    translate bootRam 0x200000 (physToVirt 0x5000) = some 0x5000 ∧
    virtToPhys 0xFFFFFFFF80300000 (physToVirt 0x5000) bootRam = .ok invalidAddress := by
  refine ⟨bootRam_tables, bootRam_root, ?_, by decide +kernel⟩
  exact bootRam_tables.translate_eq ⟨by norm_num, by decide⟩ (by norm_num)

end Fynaos.Vmm
