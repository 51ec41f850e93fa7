import Fynaos.Vmm.Contract

/-!
# Address spaces as trees

`root` gives the PML4 of each address space. The tables are a forest (`Trees`), but for the upper halves
of the PML4s in `X`, which are copies of the kernel's: `own` leaves them out. Every function that
edits tables keeps the forest and changes the map of one address space only, along one path
(`Edited`): `Trees.mapPage`, `Trees.unmapPage`.
-/

namespace Fynaos.Vmm

open Radix

section own
variable {X : Set ℕ} {r r' : Ram} {f g : ℕ} {i : Fin 512}

/-- The frame behind an entry that is not a copy of the kernel's. -/
noncomputable def own (X : Set ℕ) (r : Ram) (f : ℕ) (i : Fin 512) : Option ℕ :=
  open Classical in if f ∈ X ∧ 256 ≤ (i : ℕ) then none else child r f i

theorem own_of (h : f ∈ X → (i : ℕ) < 256) : own X r f i = child r f i :=
  if_neg fun hcopy => absurd (h hcopy.1) (not_lt.mpr hcopy.2)

theorem own_empty (h : child r f i = none) : own X r f i = none := by
  unfold own
  split_ifs
  · rfl
  · exact h

theorem own_congr (h : entry r' f i = entry r f i) : own X r' f i = own X r f i := by
  unfold own child
  rw [h]

end own

/-- The tables of the address spaces. -/
structure Trees (X : Set ℕ) (root : ℕ → Option ℕ) (H : Set ℕ) (r : Ram) : Prop where
  forest : Forest (own X r) 4 root
  held : ∀ b, IsTable (own X r) 4 root b → b ∈ H
  rooted : ∀ a ∈ X, ∃ k, root k = some a

/-- From `r` to `r'` the address space `m` got the tables `H' \ H`, and entries were changed on its
path `E` only. -/
structure Edited (X : Set ℕ) (root : ℕ → Option ℕ) (m : ℕ) (E : List (Fin 512)) (H H' : Set ℕ)
    (r r' : Ram) : Prop where
  more : H ⊆ H'
  other : ∀ {k a q}, root k = some a → q.length ≤ 4 → ¬ (k = m ∧ q <+: E) →
    walk (own X r') a q = walk (own X r) a q
  keep : ∀ {k a q b}, root k = some a → q.length < 4 → walk (own X r) a q = some b →
    walk (own X r') a q = some b
  tables : ∀ {k c}, TableOf (own X r') 4 root k c ↔
    TableOf (own X r) 4 root k c ∨ (k = m ∧ c ∈ H' \ H)
  copies : ∀ a ∈ X, ∀ i : Fin 512, 256 ≤ (i : ℕ) → entry r' a i = entry r a i
  wrote : Wrote r r' (⋃ f ∈ H', pageSpan f)

variable {S : Type} {F : Services S} {s s' : S} {X H H' H'' : Set ℕ} {root : ℕ → Option ℕ}
  {r r' r'' : Ram} {m a b d f g k page attr frame mm : ℕ} {i : Fin 512} {p q : List (Fin 512)}
  {E : List (Fin 512)} {done : Bool}

namespace Edited

theorem refl (X : Set ℕ) (root : ℕ → Option ℕ) (m : ℕ) (E : List (Fin 512)) (H : Set ℕ) (r : Ram) :
    Edited X root m E H H r r where
  more := le_refl H
  other _ _ _ := rfl
  keep _ _ hq := hq
  tables := by
    intro k c
    rw [Set.sdiff_self]
    exact (or_iff_left fun h => h.2).symm
  copies _ _ _ _ := rfl
  wrote := Wrote.refl _ _

theorem trans (h : Edited X root m E H H' r r') (h' : Edited X root m E H' H'' r' r'') :
    Edited X root m E H H'' r r'' where
  more := h.more.trans h'.more
  other hk hq hE := (h'.other hk hq hE).trans (h.other hk hq hE)
  keep hk hq hb := h'.keep hk hq (h.keep hk hq hb)
  tables := by
    intro k c
    have hmore := h.more
    have hmore' := h'.more
    rw [h'.tables, h.tables, or_assoc, ← and_or_left]
    refine or_congr Iff.rfl (and_congr Iff.rfl ?_)
    constructor
    · rintro (⟨hin, hout⟩ | ⟨hin, hout⟩)
      · exact ⟨hmore' hin, hout⟩
      · exact ⟨hin, fun hc => hout (hmore hc)⟩
    · rintro ⟨hin, hout⟩
      by_cases hc : c ∈ H'
      · exact Or.inl ⟨hc, hout⟩
      · exact Or.inr ⟨hin, hc⟩
  copies a ha i hi := (h'.copies a ha i hi).trans (h.copies a ha i hi)
  wrote := (h.wrote.mono (Set.biUnion_subset_biUnion_left h'.more)).trans h'.wrote

theorem full (h : Edited X root m E H H' r r') (hk : root k = some a) (hq : q.length = E.length)
    (hE : E.length ≤ 4) (hne : ¬ (k = m ∧ q = E)) :
    walk (own X r') a q = walk (own X r) a q :=
  h.other hk (hq.trans_le hE) fun hp => hne ⟨hp.1, hp.2.eq_of_length hq⟩

end Edited

namespace Trees

/-- A table below a PML4 is no PML4, so none of its entries is a copy. -/
theorem below_notMem (h : Trees X root H r) (hm : root m = some a) (hp : p.length < 4) (hne : p ≠ [])
    (hb : walk (own X r) a p = some b) : b ∉ X := by
  intro hX
  obtain ⟨k, hk⟩ := h.rooted b hX
  exact hne (h.forest.unique hm hk hp (by norm_num) hb walk_nil).2

theorem own_below (h : Trees X root H r) (hm : root m = some a) (hp : p.length < 4) (hne : p ≠ [])
    (hb : walk (own X r) a p = some b) : own X r b i = child r b i :=
  own_of fun hX => absurd hX (h.below_notMem hm hp hne hb)

theorem mem (h : Trees X root H r) (hm : root m = some a) (hp : p.length < 4)
    (hb : walk (own X r) a p = some b) : b ∈ H :=
  h.held b ⟨m, a, p, hm, hp, hb⟩

theorem of_own (h : Trees X root H r)
    (hown : ∀ b, IsTable (own X r) 4 root b → ∀ i, own X r' b i = own X r b i) (hH : H ⊆ H') :
    Trees X root H' r' where
  forest := h.forest.frame hown
  held := by
    rintro b ⟨k, hb⟩
    exact hH (h.held b ⟨k, (tableOf_frame hown).mp hb⟩)
  rooted := h.rooted

/-! ### A new table -/

theorem link (h : Trees X root H r) (hframes : ∀ f ∈ H, FrameOk f) (hg : FrameOk g) (hfresh : g ∉ H)
    (hm : root m = some a) (hp : p.length < 3) (hf : walk (own X r) a p = some f)
    (hE : p ++ [i] <+: E) (hi : f ∈ X → (i : ℕ) < 256) (hnone : child r f i = none)
    (hsome : child r' f i = some g) (hempty : ∀ j, child r' g j = none)
    (hwrote : Wrote r r' (entrySpan f i ∪ pageSpan g)) :
    Trees X root (insert g H) r' ∧ Edited X root m E H (insert g H) r r' ∧
      ∀ {k a q}, root k = some a → q.length = 4 → walk (own X r') a q = walk (own X r) a q := by
  have hfH : f ∈ H := h.mem hm (by omega) hf
  have hsame : ∀ c ∈ H, ∀ j, ¬ (c = f ∧ j = i) → entry r' c j = entry r c j := by
    intro c hc j hne
    refine hwrote.word (Set.disjoint_union_right.mpr ⟨?_, ?_⟩)
    · exact entrySpan_disjoint (hframes c hc) (hframes f hfH) hne
    · refine Set.disjoint_of_subset_left (entrySpan_subset c j) ?_
      exact pageSpan_disjoint (hframes c hc) hg fun hcg => hfresh (hcg ▸ hc)
  have hnone' : own X r f i = none := own_empty hnone
  have hlink : Linked (own X r) (own X r') (IsTable (own X r) 4 root) f i g :=
    { entry := by rw [own_of hi, hsome]
      empty := fun j => own_empty (hempty j)
      other := fun c hc j hne => own_congr (hsame c (h.held c hc) j hne) }
  have hnew : walk (own X r) a (p ++ [i]) = none := by rw [walk_snoc, hf, Option.bind_some, hnone']
  have hwalk : ∀ {k a' q}, root k = some a' → q.length ≤ 4 → ¬ (k = m ∧ q = p ++ [i]) →
      walk (own X r') a' q = walk (own X r) a' q := fun hk hq hne =>
    (h.forest.walk_link hm (by omega) hf hnone' hlink hk hq).2 hne
  have htables : ∀ {k c}, TableOf (own X r') 4 root k c ↔
      TableOf (own X r) 4 root k c ∨ (k = m ∧ c = g) :=
    h.forest.tableOf_link hm (by omega) hf hnone' hlink
  refine ⟨⟨?_, ?_, h.rooted⟩, ⟨Set.subset_insert g H, ?_, ?_, ?_, ?_, ?_⟩, fun hk hq => ?_⟩
  · exact h.forest.link hm (by omega) hf hnone' hlink fun hg' => hfresh (h.held g hg')
  · rintro c ⟨k, hc⟩
    rcases htables.mp hc with hold | ⟨-, rfl⟩
    · exact Set.mem_insert_of_mem g (h.held c ⟨k, hold⟩)
    · exact Set.mem_insert c H
  · intro k a' q hk hq hnot
    exact hwalk hk hq fun heq => hnot ⟨heq.1, heq.2 ▸ hE⟩
  · intro k a' q b hk hq hb
    rw [hwalk hk hq.le, hb]
    rintro ⟨rfl, rfl⟩
    obtain rfl : a' = a := Option.some.inj (hk.symm.trans hm)
    rw [hnew] at hb
    cases hb
  · intro k c
    rw [htables, Set.insert_sdiff_of_notMem H hfresh, Set.sdiff_self, insert_empty_eq,
      Set.mem_singleton_iff]
  · intro c hc j hj
    obtain ⟨k, hk⟩ := h.rooted c hc
    refine hsame c (h.mem hk (p := []) (by norm_num) walk_nil) j ?_
    rintro ⟨rfl, rfl⟩
    exact absurd (hi hc) (not_lt.mpr hj)
  · refine hwrote.mono (Set.union_subset ?_ ?_)
    · exact (entrySpan_subset f i).trans
        (Set.subset_biUnion_of_mem (u := pageSpan) (Set.mem_insert_of_mem g hfH))
    · exact Set.subset_biUnion_of_mem (u := pageSpan) (Set.mem_insert g H)
  · refine hwalk hk hq.le ?_
    rintro ⟨-, rfl⟩
    rw [List.length_append, List.length_singleton] at hq
    omega

theorem ensure (hF : Lawful F) (hs : Sound F s) (h : Trees X root (F.held s) r) (hm : root m = some a)
    (hp : p.length < 3) (hf : walk (own X r) a p = some f) (hE : p ++ [i] <+: E)
    (hi : f ∈ X → (i : ℕ) < 256) (hrun : ensureTable F (physToVirt f) i r s = .ok (r', s')) :
    Sound F s' ∧ F.blocks s' = F.blocks s ∧ Trees X root (F.held s') r' ∧
      Edited X root m E (F.held s) (F.held s') r r' ∧
      (∀ {q}, q.length = 4 → walk (own X r') a q = walk (own X r) a q) ∧
      (∃ g, child r' f i = some g ∧ walk (own X r') a (p ++ [i]) = some g) ∧
      (walk (own X r) a (p ++ [i]) ≠ none → r' = r ∧ s' = s) := by
  have hsnoc : walk (own X r) a (p ++ [i]) = child r f i := by
    rw [walk_snoc, hf, Option.bind_some, own_of hi]
  rcases ensureTable_spec hF hs (h.mem hm (by omega) hf) hrun with
    ⟨hsome, rfl, rfl⟩ | ⟨hnone, hs', hblocks, g, hg, hfresh, hheld, hsome, hempty, hwrote⟩
  · obtain ⟨g, hg⟩ := Option.ne_none_iff_exists'.mp hsome
    exact ⟨hs, rfl, h, Edited.refl _ _ _ _ _ _, fun _ => rfl, ⟨g, hg, hsnoc.trans hg⟩,
      fun _ => ⟨rfl, rfl⟩⟩
  · obtain ⟨htrees, hedited, hfull⟩ :=
      h.link hs.frame hg hfresh hm hp hf hE hi hnone hsome hempty hwrote
    rw [← hheld] at htrees hedited
    have hf' : walk (own X r') a p = some f := hedited.keep hm (by omega) hf
    refine ⟨hs', hblocks, htrees, hedited, hfull hm, ⟨g, hsome, ?_⟩, fun hne => ?_⟩
    · rw [walk_snoc, hf', Option.bind_some, own_of hi, hsome]
    · exact absurd (hsnoc.trans hnone) hne

/-! ### The last level -/

theorem leaf (h : Trees X root H r) (hframes : ∀ f ∈ H, FrameOk f) (hm : root m = some a)
    (hp : p.length = 3) (hd : walk (own X r) a p = some d) {v : ℕ} (hv : v < 2 ^ 64) :
    Trees X root H (r.put (entryAddr d i) v) ∧
      Edited X root m (p ++ [i]) H H r (r.put (entryAddr d i) v) ∧
      walk (own X (r.put (entryAddr d i) v)) a (p ++ [i]) = target v := by
  have hdH : d ∈ H := h.mem hm (by omega) hd
  have hne : p ≠ [] := by
    rintro rfl
    cases hp
  have hsame : ∀ c ∈ H, ∀ j, ¬ (c = d ∧ j = i) →
      entry (r.put (entryAddr d i) v) c j = entry r c j := fun c hc j hcj =>
    entry_put_of_ne (hframes c hc) (hframes d hdH) hcj
  have hother : ∀ b, IsTable (own X r) 4 root b → ∀ j, ¬ (b = d ∧ j = i) →
      own X (r.put (entryAddr d i) v) b j = own X r b j := fun b hb j hbj =>
    own_congr (hsame b (h.held b hb) j hbj)
  have htables : ∀ {k c}, TableOf (own X (r.put (entryAddr d i) v)) 4 root k c ↔
      TableOf (own X r) 4 root k c :=
    h.forest.tableOf_leaf hm (by omega) hd hother
  refine ⟨⟨h.forest.leaf hm (by omega) hd hother, ?_, h.rooted⟩, ⟨le_refl H, ?_, ?_, ?_, ?_, ?_⟩, ?_⟩
  · rintro c ⟨k, hc⟩
    exact h.held c ⟨k, htables.mp hc⟩
  · intro k a' q hk hq hnot
    refine (h.forest.walk_leaf hm (by omega) hd hother hk hq).2 fun heq => hnot ⟨heq.1, ?_⟩
    exact ⟨[], by rw [heq.2, List.append_nil]⟩
  · intro k a' q b hk hq hb
    rw [(h.forest.walk_leaf hm (by omega) hd hother hk hq.le).2, hb]
    rintro ⟨-, rfl⟩
    rw [List.length_append, List.length_singleton] at hq
    omega
  · intro k c
    rw [Set.sdiff_self]
    exact htables.trans (or_iff_left fun hc => hc.2).symm
  · intro c hc j _
    obtain ⟨k, hk⟩ := h.rooted c hc
    refine hsame c (h.mem hk (p := []) (by norm_num) walk_nil) j ?_
    rintro ⟨rfl, -⟩
    exact h.below_notMem hm (by omega) hne hd hc
  · refine Wrote.put r v ((entrySpan_subset d i).trans ?_)
    exact Set.subset_biUnion_of_mem (u := pageSpan) hdH
  · rw [(h.forest.walk_leaf hm (by omega) hd hother hm (by rw [List.length_append, hp]; rfl)).1
      ⟨rfl, rfl⟩, own_of fun hX => absurd hX (h.below_notMem hm (by omega) hne hd), child,
      entry_put_self hv]

/-! ### The functions -/

theorem path_upper (addr : ℕ) : path addr = upper addr ++ [index 12 addr] := rfl

theorem walk_path (h : Trees X root H r) (hm : root m = some a)
    (hd : walk (own X r) a (upper page) = some d) :
    walk (own X r) a (path page) = child r d (index 12 page) := by
  rw [path_upper, walk_snoc, hd, Option.bind_some,
    h.own_below hm (p := upper page) (by norm_num [upper]) (by simp [upper]) hd]

theorem mapPage (hF : Lawful F) (hs : Sound F s) (h : Trees X root (F.held s) r) (hmm : Direct mm 8)
    (hword : r.word mm = a) (hm : root mm = some a) (hi : a ∈ X → (index 39 page : ℕ) < 256)
    (hframe : 4096 ∣ frame) (hframe64 : frame < 2 ^ 64) (hattr : attr < 4096) (hodd : attr % 2 = 1)
    (hrun : mapPage F mm frame page attr r s = .ok (done, r', s')) :
    Sound F s' ∧ F.blocks s' = F.blocks s ∧ Trees X root (F.held s') r' ∧
      Edited X root mm (path page) (F.held s) (F.held s') r r' ∧
      (walk (own X r) a (path page) ≠ none → done = false ∧ r' = r ∧ s' = s) ∧
      (walk (own X r) a (path page) = none →
        done = true ∧ walk (own X r') a (path page) = some frame) := by
  have hlnot : lnot 0xFFF = pageMask := rfl
  rw [Vmm.mapPage, hmm.load, ok_bind, hword, pml4Index_eq, pdptIndex_eq, pdIndex_eq, ptIndex_eq,
    hlnot] at hrun
  dsimp only at hrun
  -- the PML4
  have ha : a ∈ F.held s := h.mem hm (p := []) (by norm_num) walk_nil
  obtain ⟨⟨r₁, s₁⟩, hrun₁, hrun⟩ := bind_eq_ok.mp hrun
  obtain ⟨hs₁, hblocks₁, h₁, hedited₁, hfull₁, ⟨b, hb, hwalkb⟩, hsame₁⟩ :=
    h.ensure (E := path page) hF hs hm (p := []) (by norm_num) walk_nil ⟨_, rfl⟩ hi hrun₁
  dsimp only at hrun
  rw [(hs₁.frame a (hedited₁.more ha)).load_entry, ok_bind, (target_some.mp hb).2] at hrun
  -- the PDPT
  have hbX : b ∉ X := h₁.below_notMem hm (p := [index 39 page]) (by norm_num) (by simp) hwalkb
  have hbH := h₁.mem hm (p := [index 39 page]) (by norm_num) hwalkb
  obtain ⟨⟨r₂, s₂⟩, hrun₂, hrun⟩ := bind_eq_ok.mp hrun
  obtain ⟨hs₂, hblocks₂, h₂, hedited₂, hfull₂, ⟨c, hc, hwalkc⟩, hsame₂⟩ :=
    h₁.ensure (E := path page) hF hs₁ hm (p := [index 39 page]) (by norm_num) hwalkb ⟨_, rfl⟩
      (fun hX => absurd hX hbX) hrun₂
  dsimp only at hrun
  rw [(hs₂.frame b (hedited₂.more hbH)).load_entry, ok_bind, (target_some.mp hc).2] at hrun
  -- the PD
  have hcX : c ∉ X :=
    h₂.below_notMem hm (p := [index 39 page, index 30 page]) (by norm_num) (by simp) hwalkc
  have hcH := h₂.mem hm (p := [index 39 page, index 30 page]) (by norm_num) hwalkc
  obtain ⟨⟨r₃, s₃⟩, hrun₃, hrun⟩ := bind_eq_ok.mp hrun
  obtain ⟨hs₃, hblocks₃, h₃, hedited₃, hfull₃, ⟨d, hd, hwalkd⟩, hsame₃⟩ :=
    h₂.ensure (E := path page) hF hs₂ hm (p := [index 39 page, index 30 page]) (by norm_num) hwalkc
      ⟨_, rfl⟩ (fun hX => absurd hX hcX) hrun₃
  dsimp only at hrun
  rw [(hs₃.frame c (hedited₃.more hcH)).load_entry, ok_bind, (target_some.mp hd).2] at hrun
  -- the PT
  have hwalkd' : walk (own X r₃) a (upper page) = some d := hwalkd
  have hdok := hs₃.frame d (h₃.mem hm (p := upper page) (by norm_num [upper]) hwalkd')
  have hedited := (hedited₁.trans hedited₂).trans hedited₃
  have hpath : child r₃ d (index 12 page) = walk (own X r) a (path page) := by
    rw [← h₃.walk_path hm hwalkd', hfull₃ rfl, hfull₂ rfl, hfull₁ rfl]
  have hblocks : F.blocks s₃ = F.blocks s := hblocks₃.trans (hblocks₂.trans hblocks₁)
  rw [hdok.load_entry, ok_bind] at hrun
  by_cases hnone : walk (own X r) a (path page) = none
  · rw [if_neg (not_not.mpr (target_none.mp (hpath.trans hnone))), hdok.store_entry, ok_bind,
      pure_eq] at hrun
    obtain ⟨rfl, rfl, rfl⟩ : true = done ∧ _ = r' ∧ s₃ = s' := by simpa using hrun
    have hlt : frame ||| attr < 2 ^ 64 := by
      rw [lor_flags hframe hattr]
      omega
    obtain ⟨hleaf, hleafed, hnew⟩ := h₃.leaf (i := index 12 page) hs₃.frame hm (p := upper page) rfl
      hwalkd' hlt
    refine ⟨hs₃, hblocks, hleaf, hedited.trans hleafed, fun hne => absurd hnone hne,
      fun _ => ⟨rfl, ?_⟩⟩
    rw [path_upper, hnew, target_flags hframe hattr hodd hframe64]
  · rw [if_pos fun hzero => hnone (hpath.symm.trans (target_none.mpr hzero)), pure_eq] at hrun
    obtain ⟨rfl, rfl, rfl⟩ : false = done ∧ r₃ = r' ∧ s₃ = s' := by simpa using hrun
    -- all tables were there
    have hpre : ∀ {p q}, path page = p ++ q → walk (own X r) a p ≠ none := fun hsplit hp =>
      hnone (by rw [hsplit, walk_append, hp, Option.bind_none])
    obtain ⟨rfl, rfl⟩ := hsame₁ (hpre (q := [index 30 page, index 21 page, index 12 page]) rfl)
    obtain ⟨rfl, rfl⟩ := hsame₂ (hpre (q := [index 21 page, index 12 page]) rfl)
    obtain ⟨rfl, rfl⟩ := hsame₃ (hpre (q := [index 12 page]) rfl)
    exact ⟨hs₃, hblocks, h₃, hedited, fun _ => ⟨rfl, rfl, rfl⟩,
      fun hnone' => absurd hnone' hnone⟩

theorem walk_child (h : Trees X root H r) (hm : root m = some a) (hq : q.length ≤ 4)
    (hi : a ∈ X → ∀ i ∈ q.head?, (i : ℕ) < 256) : walk (child r) a q = walk (own X r) a q := by
  refine walk_congr fun q₁ j q₂ b hsplit hb => ?_
  cases q₁ with
  | nil =>
    obtain rfl : a = b := Option.some.inj hb
    exact (own_of fun hX => hi hX j (by rw [hsplit]; rfl)).symm
  | cons i₁ q₁ =>
    refine (h.own_below hm (p := i₁ :: q₁) ?_ (List.cons_ne_nil _ _) hb).symm
    have hlen := congrArg List.length hsplit
    simp only [List.length_append, List.length_cons] at hlen ⊢
    omega

theorem walk_child_path (h : Trees X root H r) (hm : root m = some a)
    (hi : a ∈ X → (index 39 page : ℕ) < 256) (hq : q <+: path page) :
    walk (child r) a q = walk (own X r) a q := by
  refine h.walk_child hm hq.length_le fun hX i hhead => ?_
  obtain ⟨rest, hrest⟩ := hq
  cases q with
  | nil => cases hhead
  | cons j q =>
    obtain rfl := Option.some.inj hhead
    rw [(List.cons.inj hrest).1]
    exact hi hX

theorem reads (h : Trees X root H r) (hframes : ∀ f ∈ H, FrameOk f) (hm : root m = some a)
    (hi : a ∈ X → (index 39 page : ℕ) < 256) : Reads r a page := by
  intro q b hq hb
  refine hframes b (h.mem hm (Nat.lt_succ_of_le hq.length_le) ?_)
  rw [← h.walk_child_path hm hi (hq.trans ⟨_, rfl⟩), hb]

theorem unmapPage (h : Trees X root H r) (page : ℕ) (hframes : ∀ f ∈ H, FrameOk f)
    (hmm : Direct mm 8) (hword : r.word mm = a) (hm : root mm = some a) (hi : a ∈ X → (index 39 page : ℕ) < 256) :
    ∃ r', Vmm.unmapPage mm page r =
        .ok ((walk (own X r) a (path page)).getD invalidAddress, r') ∧
      Trees X root H r' ∧ Edited X root mm (path page) H H r r' ∧
      walk (own X r') a (path page) = none ∧ (walk (own X r) a (path page) = none → r' = r) := by
  rw [← h.walk_child_path hm hi (List.prefix_refl _)]
  rcases unmapPage_eq hmm hword (h.reads hframes hm hi) with
    ⟨hnone, hrun⟩ | ⟨d, f, hd, hf, hrun⟩
  · refine ⟨r, ?_, h, Edited.refl _ _ _ _ _ _, ?_, fun _ => rfl⟩
    · rw [hrun, hnone]
      rfl
    · rw [← h.walk_child_path hm hi (List.prefix_refl _), hnone]
  · have hsome : walk (child r) a (path page) = some f := by
      rw [path_upper, walk_snoc, hd, Option.bind_some, hf]
    rw [h.walk_child_path hm hi ⟨_, rfl⟩] at hd
    obtain ⟨hleaf, hedited, hnew⟩ := h.leaf (i := index 12 page) (v := 0) hframes hm
      (p := upper page) rfl hd (by norm_num)
    refine ⟨_, ?_, hleaf, hedited, hnew, fun hnone => ?_⟩
    · rw [hrun, hsome]
      rfl
    · rw [hsome] at hnone
      cases hnone

theorem mapPage_total (hF : Lawful F) (hs : Sound F s) (h : Trees X root (F.held s) r)
    (hmm : Direct mm 8) (hword : r.word mm = a) (hm : root mm = some a)
    (hi : a ∈ X → (index 39 page : ℕ) < 256)
    (hsupply : Supplies F (missing r a (upper page)) s) :
    ∃ done r' s', Vmm.mapPage F mm frame page attr r s = .ok (done, r', s') := by
  have hlnot : lnot 0xFFF = pageMask := rfl
  rw [Vmm.mapPage, hmm.load, ok_bind, hword, pml4Index_eq, pdptIndex_eq, pdIndex_eq, ptIndex_eq, hlnot]
  dsimp only
  have ha : a ∈ F.held s := h.mem hm (p := []) (by norm_num) walk_nil
  obtain ⟨r₁, s₁, hrun₁, hsupply₁⟩ := ensureTable_total hF hs ha hsupply
  obtain ⟨hs₁, -, h₁, hedited₁, -, ⟨b, hb, hwalkb⟩, -⟩ :=
    h.ensure (E := path page) hF hs hm (p := []) (by norm_num) walk_nil ⟨_, rfl⟩ hi hrun₁
  rw [hrun₁, ok_bind, (hs₁.frame a (hedited₁.more ha)).load_entry, ok_bind, (target_some.mp hb).2]
  have hbX : b ∉ X := h₁.below_notMem hm (p := [index 39 page]) (by norm_num) (by simp) hwalkb
  have hbH := h₁.mem hm (p := [index 39 page]) (by norm_num) hwalkb
  obtain ⟨r₂, s₂, hrun₂, hsupply₂⟩ := ensureTable_total hF hs₁ hbH (hsupply₁ b hb)
  obtain ⟨hs₂, -, h₂, hedited₂, -, ⟨c, hc, hwalkc⟩, -⟩ :=
    h₁.ensure (E := path page) hF hs₁ hm (p := [index 39 page]) (by norm_num) hwalkb ⟨_, rfl⟩
      (fun hX => absurd hX hbX) hrun₂
  rw [hrun₂, ok_bind, (hs₂.frame b (hedited₂.more hbH)).load_entry, ok_bind, (target_some.mp hc).2]
  have hcX : c ∉ X :=
    h₂.below_notMem hm (p := [index 39 page, index 30 page]) (by norm_num) (by simp) hwalkc
  have hcH := h₂.mem hm (p := [index 39 page, index 30 page]) (by norm_num) hwalkc
  obtain ⟨r₃, s₃, hrun₃, -⟩ := ensureTable_total hF hs₂ hcH (hsupply₂ c hc)
  obtain ⟨hs₃, -, h₃, hedited₃, -, ⟨d, hd, hwalkd⟩, -⟩ :=
    h₂.ensure (E := path page) hF hs₂ hm (p := [index 39 page, index 30 page]) (by norm_num) hwalkc
      ⟨_, rfl⟩ (fun hX => absurd hX hcX) hrun₃
  rw [hrun₃, ok_bind, (hs₃.frame c (hedited₃.more hcH)).load_entry, ok_bind, (target_some.mp hd).2]
  have hdok := hs₃.frame d (h₃.mem hm (p := upper page) (by norm_num [upper]) hwalkd)
  rw [hdok.load_entry, ok_bind]
  split_ifs
  · exact ⟨false, r₃, s₃, rfl⟩
  · rw [hdok.store_entry]
    exact ⟨true, _, s₃, rfl⟩

end Trees

end Fynaos.Vmm
