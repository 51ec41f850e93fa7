import Fynaos.Vmm.Steps

/-!
# Page tables are partial maps

Over any run of `create_mm`, `map_page` and `unmap_page`, the tables in memory and the maps from page numbers
to frames say the same (`pageTables_refine`).
-/

namespace Fynaos.Vmm

open Radix

/-- An entry that `map_page` can be asked to make. -/
def PageEntry (frame attr : ℕ) : Prop :=
  4096 ∣ frame ∧ frame < 2 ^ 64 ∧ attr < 4096 ∧ attr &&& pagePresent ≠ 0

/-- The calls of a run without a kernel half. -/
def MapCall : Act → Prop
  | .create | .take | .unmap _ _ => True
  | .map _ frame _ attr => PageEntry frame attr
  | .copy _ | .swap _ | .delete _ => False

/-- The functions answer from the maps. -/
structure Answers {S : Type} (F : Services S) (kernelMm : ℕ) (σ : Sys S) : Prop where
  lookup : ∀ {mm sp}, σ.spaces mm = some sp → ∀ v, virtToPhys mm v σ.ram =
    .ok ((sp.map (pageNumber v)).elim invalidAddress fun f => f + pageOffset v)
  mapReturns : ∀ {mm sp frame page attr}, σ.spaces mm = some sp → PageEntry frame attr →
    Supplies F (missing σ.ram sp.pml4 (upper page)) σ.frames →
    ∃ done r s, mapPage F mm frame page attr σ.ram σ.frames = .ok (done, r, s)
  map : ∀ {mm sp frame page attr done r s}, σ.spaces mm = some sp → PageEntry frame attr →
    mapPage F mm frame page attr σ.ram σ.frames = .ok (done, r, s) →
    (done = true ↔ sp.map (pageNumber page) = none) ∧ (done = false → r = σ.ram ∧ s = σ.frames)
  unmap : ∀ {mm sp}, σ.spaces mm = some sp → ∀ page, ∃ r,
    unmapPage mm page σ.ram = .ok ((sp.map (pageNumber page)).getD invalidAddress, r) ∧
      (sp.map (pageNumber page) = none → r = σ.ram)
  others : ∀ {act τ mm sp}, MapCall act → Step F kernelMm σ act τ → σ.spaces mm = some sp →
    act.on ≠ some mm → ∀ v, virtToPhys mm v τ.ram = virtToPhys mm v σ.ram

variable {S : Type} {F : Services S} {σ₀ σ τ : Sys S} {kernelMm k : ℕ} {act : Act}

theorem not_isUser : ¬ IsUser none k := fun ⟨_, h, _⟩ => nomatch h

theorem MapCall.allowed (h : MapCall act) (σ : Sys S) : Allowed F none kernelMm σ act := by
  cases act with
  | create | take => trivial
  | map mm frame page attr =>
    obtain ⟨hframe, hframe64, hattr, hpresent⟩ := h
    exact ⟨hframe, hframe64, hattr, hpresent, fun huser => absurd huser not_isUser⟩
  | unmap mm page => exact fun huser => absurd huser not_isUser
  | copy | swap | delete => exact h.elim

theorem Inv.empty {σ : Sys S} (hs : Sound F σ.frames) (hempty : σ.spaces = fun _ => none) :
    Inv F none σ := by
  have hnone : ∀ {k sp}, σ.spaces k ≠ some sp := by
    intro k sp hk
    rw [hempty] at hk
    cases hk
  have hroot : ∀ {k a}, roots σ.spaces k ≠ some a := by
    intro k a hk
    obtain ⟨sp, hsp, -⟩ := roots_some.mp hk
    exact hnone hsp
  refine
    { sound := hs
      block := fun hk => absurd hk hnone
      word := fun hk => absurd hk hnone
      trees := ⟨⟨fun hk => absurd hk hroot⟩, ?_, ?_⟩
      tables := fun hk => absurd hk hnone
      map := fun _ hk => absurd hk hnone
      kernel := fun h => nomatch h
      borrowed := fun h => nomatch h }
  · rintro b ⟨k, a, p, hk, -⟩
    exact absurd hk hroot
  · intro a ha
    obtain ⟨k, -, hk⟩ := mem_borrowers.mp ha
    exact absurd hk hroot

theorem Inv.answers (hF : Lawful F) (h : Inv F none σ) : Answers F kernelMm σ where
  lookup hk v := h.virtToPhys hk fun huser => absurd huser not_isUser
  mapReturns hk _ hsupply := h.trees.mapPage_total hF h.sound (h.direct hk) (h.word hk) (roots_of hk)
    (h.low hk fun huser => absurd huser not_isUser) hsupply
  map {mm _ frame page attr _ _ _} hk hentry hrun :=
    have hcall : MapCall (.map mm frame page attr) := hentry
    have hallowed : Allowed F none kernelMm σ (.map mm frame page attr) := hcall.allowed σ
    (h.mapPage hF hk hallowed hrun).2
  unmap hk page := by
    obtain ⟨r, hrun, -, hsame⟩ := h.unmapPage hk page fun huser => absurd huser not_isUser
    exact ⟨r, hrun, hsame⟩
  others {_ τ mm _} hcall hstep hk hne v := by
    have hτ := hstep.inv hF (hcall.allowed σ) h
    rw [hτ.virtToPhys (hstep.space_of_ne hF h hk hne) fun huser => absurd huser not_isUser,
      h.virtToPhys hk fun huser => absurd huser not_isUser]

theorem pageTables_refine (hF : Lawful F) (hs : Sound F σ₀.frames) (hempty : σ₀.spaces = fun _ => none)
    (hrun : Runs F kernelMm (fun _ => MapCall) σ₀ σ) : Answers F kernelMm σ :=
  (Runs.inv hF (fun σ _ hcall => hcall.allowed σ) hrun (Inv.empty hs hempty)).answers hF

/-- No byte was ever written, and nothing is in use. -/
def blank : Sys Bump := ⟨⟨fun _ => 0, []⟩, ([], []), ⟨0, 0⟩, fun _ => none, ∅⟩

theorem blank_sound : Sound bump blank.frames :=
  bump_sound.mpr ⟨fun _ hn => absurd hn List.not_mem_nil, fun _ hn => absurd hn List.not_mem_nil⟩

theorem blank_create (kernelMm : ℕ) : ∃ σ sp, Step bump kernelMm blank .create σ ∧
    σ.spaces = Function.update (fun _ => none) (blockAddr 1) (some sp) ∧ sp.map = (fun _ => none) ∧
    σ.frames = ([1], [1]) ∧ σ.current = ⟨0, 0⟩ ∧ σ.clients = ∅ := by
  obtain ⟨r, hcreate⟩ := bump_createMm (r := blank.ram) blank_sound (by decide) (by decide)
  exact ⟨_, ⟨r.word (blockAddr 1), false, bump.held ([1], [1]) \ bump.held ([], []), fun _ => none⟩,
    Step.create hcreate (blockAddr_ne_zero _), rfl, rfl, rfl, rfl, rfl⟩

theorem pageTables_refine_two : ∃ σ sp, Runs bump 0 (fun _ => MapCall) blank σ ∧
    σ.spaces (blockAddr 1) = some sp ∧ sp.map 5 = some 0x7000 ∧ Answers bump 0 σ := by
  obtain ⟨σ₁, sp₁, hstep₁, hspaces, hmap₁, hframes, -⟩ := blank_create 0
  have hsp₁ : σ₁.spaces (blockAddr 1) = some sp₁ := by rw [hspaces, Function.update_self]
  have hrun₁ : Runs bump 0 (fun _ => MapCall) blank σ₁ :=
    Relation.ReflTransGen.single ⟨.create, trivial, hstep₁⟩
  have hentry : PageEntry 0x7000 1 := ⟨⟨7, rfl⟩, by norm_num, by norm_num, by decide⟩
  have hanswers := pageTables_refine bump_lawful blank_sound rfl hrun₁
  have hroom : Supplies bump (missing σ₁.ram sp₁.pml4 (upper 0x5000)) σ₁.frames := by
    have hle : missing σ₁.ram sp₁.pml4 (upper 0x5000) ≤ 3 := missing_le _ _ _
    refine bump_supplies ?_
    rw [hframes, physLimit_eq]
    change 4096 * (2 + _) ≤ _
    omega
  obtain ⟨done, r, s, hmap⟩ := hanswers.mapReturns hsp₁ hentry hroom
  have hrun₂ := hrun₁.tail ⟨.map (blockAddr 1) 0x7000 0x5000 1, hentry, Step.map hsp₁ hmap⟩
  refine ⟨_, sp₁.mapped 0x7000 (pageNumber 0x5000) (bump.held s \ bump.held σ₁.frames), hrun₂, ?_, ?_,
    pageTables_refine bump_lawful blank_sound rfl hrun₂⟩
  · exact Function.update_self (f := σ₁.spaces) (blockAddr 1) _
  · rw [Space.mapped_map (by rw [hmap₁])]
    rfl

end Fynaos.Vmm
