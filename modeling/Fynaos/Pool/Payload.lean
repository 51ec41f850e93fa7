import Fynaos.Pool.Confinement

/-!
# What the caller of `kmalloc` may use

`kmalloc` rounds the length up, adds the size of a `struct block` and compares with the block's
length, all modulo `2 ^ 64`. For lengths up to `2 ^ 64 - 48` nothing wraps around, and the bytes that
were asked for lie in the data of the block. Beyond, the sum is 0, 16 or 32 and every free block
passes the comparison.
-/

namespace Fynaos

def spans : ℕ → List (ℕ × Bool) → List (ℕ × ℕ)
  | _, [] => []
  | a, b :: bs => (a, b.1) :: spans (a + b.1) bs

def heapSpans (ps : List PoolPage) : List (ℕ × ℕ) := ps.flatMap fun p => spans (p.base + 24) p.blocks

/-- The data of every block begins at a multiple of 16. -/
def DataAligned (ps : List PoolPage) : Prop :=
  ∀ p ∈ ps, ∀ bs b bs', p.blocks = bs ++ b :: bs' → 16 ∣ p.base + 24 + totalLen bs + 24

/-- `len` bytes from `addr` on: aligned, in one page, apart from all headers and from the data of all
other used blocks. -/
structure PayloadThere (ps : List PoolPage) (addr len : ℕ) : Prop where
  aligned : 16 ∣ addr
  noWrap : addr + len ≤ 2 ^ 64
  inside : ∃ q ∈ ps, Set.Ico addr (addr + len) ⊆ q.bytes
  headers : ∀ b ∈ heapSpans ps, Disjoint (Set.Ico addr (addr + len)) (Set.Ico b.1 (b.1 + 24))
  others : ∀ b ∈ heapUsed ps, b.1 + 24 ≠ addr → Disjoint (Set.Ico addr (addr + len)) (payload b)

/-- The pages `ps'` after a call of `kmalloc` that returned `addr`: the first block that fits, of the
old pages or of a new one, has been carved. -/
def Carved (len : ℕ) (h : Heap) (ps : List PoolPage) (addr : ℕ) (h' : Heap) (ps' : List PoolPage) :
    Prop :=
  ∃ h₁ pre q post bs l bs', Pools h₁ (pre ++ q :: post) ∧ Opened h ps h₁ (pre ++ q :: post) ∧
    q.blocks = bs ++ (l, false) :: bs' ∧
    (∀ b ∈ heapBlocks pre ++ bs, ¬ Fits (wrap (alignUp len 16 + 32)) b) ∧
    wrap (alignUp len 16 + 32) ≤ l ∧ addr = q.base + 24 + totalLen bs + 24 ∧
    ps' = pre ++ { q with blocks := bs ++ carve (alignUp len 16) l ++ bs' } :: post ∧
    (¬ Tight (alignUp len 16) l → Pools h' ps')

section payload
variable {h h' h₁ : Heap} {ps ps₁ pre post : List PoolPage} {q : PoolPage} {len addr fuel : ℕ}

theorem spans_append (a : ℕ) (bs bs' : List (ℕ × Bool)) :
    spans a (bs ++ bs') = spans a bs ++ spans (a + totalLen bs) bs' := by
  induction bs generalizing a with
  | nil => rfl
  | cons b bs ih => rw [List.cons_append, spans, spans, ih, totalLen_cons, Nat.add_assoc,
      List.cons_append]

theorem spans_bounds {a x l : ℕ} {bs : List (ℕ × Bool)} (h : (x, l) ∈ spans a bs) :
    a ≤ x ∧ x + l ≤ a + totalLen bs := by
  induction bs generalizing a with
  | nil => exact absurd h List.not_mem_nil
  | cons b bs ih =>
    rw [totalLen_cons]
    rcases List.mem_cons.mp h with heq | h
    · obtain ⟨rfl, rfl⟩ := Prod.mk.inj heq
      exact ⟨le_refl _, by omega⟩
    · obtain ⟨h1, h2⟩ := ih h
      exact ⟨by omega, by omega⟩

/-! ### Blocks of a page -/

theorem spans_carve {a n l x k : ℕ} {bs bs' : List (ℕ × Bool)} (hn : n + 32 ≤ l)
    (hx : (x, k) ∈ spans a (bs ++ carve n l ++ bs')) :
    x + k ≤ a + totalLen bs ∨ x = a + totalLen bs ∨ a + totalLen bs + n + 32 ≤ x := by
  rw [List.append_assoc, spans_append, spans_append] at hx
  rcases List.mem_append.mp hx with hx | hx
  · exact Or.inl (spans_bounds hx).2
  rcases List.mem_append.mp hx with hx | hx
  · unfold carve at hx
    split_ifs at hx
    · simp only [spans, List.mem_cons, Prod.mk.injEq, List.not_mem_nil, or_false] at hx
      rcases hx with ⟨rfl, -⟩ | ⟨rfl, -⟩
      · exact Or.inr (Or.inl rfl)
      · exact Or.inr (Or.inr (by omega))
    · simp only [spans, List.mem_singleton, Prod.mk.injEq] at hx
      exact Or.inr (Or.inl hx.1)
  · obtain ⟨len', rest, heq, hsum, -⟩ := carve_spec n l
    have := (spans_bounds hx).1
    rw [heq, totalLen_cons] at this
    dsimp only at this
    exact Or.inr (Or.inr (by omega))

theorem exists_of_mem_spans {a x k : ℕ} {bs : List (ℕ × Bool)} (h : (x, k) ∈ spans a bs) :
    ∃ b ∈ bs, b.1 = k := by
  induction bs generalizing a with
  | nil => exact absurd h List.not_mem_nil
  | cons b bs ih =>
    rcases List.mem_cons.mp h with heq | h
    · exact ⟨b, List.mem_cons_self, (Prod.mk.inj heq).2.symm⟩
    · obtain ⟨c, hc, hk⟩ := ih h
      exact ⟨c, List.mem_cons_of_mem _ hc, hk⟩

theorem usedBlocks_subset_spans (a : ℕ) (bs : List (ℕ × Bool)) : usedBlocks a bs ⊆ spans a bs := by
  induction bs generalizing a with
  | nil => exact List.Subset.refl _
  | cons b bs ih =>
    obtain ⟨l, _ | _⟩ := b
    · exact List.subset_cons_of_subset _ (ih _)
    · exact List.cons_subset_cons _ (ih _)

theorem Pools.span_subset (hp : Pools h ps) {p : PoolPage} (hmem : p ∈ ps) {b : ℕ × ℕ}
    (hb : b ∈ spans (p.base + 24) p.blocks) :
    Set.Ico b.1 (b.1 + 24) ⊆ p.bytes ∧ payload b ⊆ p.bytes := by
  have hchain := (hp.laid p hmem).chain
  have hstop := hchain.stop_eq
  obtain ⟨c, hc, hk⟩ := exists_of_mem_spans (x := b.1) (k := b.2) hb
  have hlen := (hchain.len_le hc).1
  obtain ⟨h1, h2⟩ := spans_bounds (x := b.1) (l := b.2) hb
  exact ⟨Set.Ico_subset_Ico (by omega) (by omega), Set.Ico_subset_Ico (by omega) (by omega)⟩

theorem Pools.payload_there (hp : Pools h₁ (pre ++ q :: post)) {bs bs' : List (ℕ × Bool)} {l n : ℕ}
    (hblocks : q.blocks = bs ++ (l, false) :: bs') (haddr : addr = q.base + 24 + totalLen bs + 24)
    (haligned : 16 ∣ addr) (hlen : len ≤ n) (hn : n + 32 ≤ l) :
    PayloadThere (pre ++ { q with blocks := bs ++ carve n l ++ bs' } :: post) addr len := by
  have hdir := q.direct.2
  have hstop := (hp.laid q (mem_middle.mpr (Or.inl rfl))).chain.stop_eq
  rw [hblocks, totalLen_append, totalLen_cons] at hstop
  dsimp only at hstop
  have hpage : Set.Ico addr (addr + len) ⊆ q.bytes := Set.Ico_subset_Ico (by omega) (by omega)
  -- a block of another page is out of reach
  have hother : ∀ p ∈ pre ++ post, ∀ {S : Set ℕ}, S ⊆ p.bytes → Disjoint (Set.Ico addr (addr + len)) S :=
    fun p hmem S hS => ((hp.disjoint hmem).mono_left hS).symm.mono_left hpage
  refine ⟨haligned, by omega, ⟨_, mem_middle.mpr (Or.inl rfl), hpage⟩, fun b hb => ?_,
    fun b hb hne => ?_⟩
  · obtain ⟨p, hmem, hb⟩ := List.mem_flatMap.mp hb
    rcases mem_middle.mp hmem with rfl | hmem
    · rw [Set.disjoint_left]
      rintro x ⟨h1, h2⟩ ⟨h3, h4⟩
      have hb : (b.1, b.2) ∈ spans (q.base + 24) (bs ++ carve n l ++ bs') := hb
      rcases spans_carve hn hb with h5 | h5 | h5 <;> omega
    · exact hother p hmem (hp.span_subset (mem_middle.mpr (Or.inr hmem)) hb).1
  · obtain ⟨p, hmem, hb⟩ := List.mem_flatMap.mp hb
    have hspan := usedBlocks_subset_spans _ _ hb
    rcases mem_middle.mp hmem with rfl | hmem
    · rw [Set.disjoint_left]
      rintro x ⟨h1, h2⟩ hx
      have hspan : (b.1, b.2) ∈ spans (q.base + 24) (bs ++ carve n l ++ bs') := hspan
      have h3 : b.1 + 24 ≤ x := hx.1
      have h4 : x < b.1 + b.2 := hx.2
      rcases spans_carve hn hspan with h5 | h5 | h5 <;> omega
    · exact hother p hmem (hp.span_subset (mem_middle.mpr (Or.inr hmem)) hspan).2

/-! ### The result of a call -/

theorem DataAligned.opened (ha : DataAligned ps) (ho : Opened h ps h₁ ps₁) : DataAligned ps₁ := by
  obtain ⟨taken, new, -, -, rfl, hwhole⟩ := ho
  intro p hp bs b bs' hblocks
  rcases List.mem_append.mp hp with hp | hp
  · exact ha p hp bs b bs' hblocks
  · rw [hwhole p hp] at hblocks
    obtain ⟨k, hk⟩ := p.aligned
    cases bs with
    | nil =>
      rw [hk, totalLen_nil]
      omega
    | cons c bs => simp at hblocks

theorem Pools.carved (hp : Pools h ps) (hrun : kmalloc fuel len h = .ok (addr, h'))
    (haddr : addr ≠ 0) : ∃ ps', Carved len h ps addr h' ps' := by
  obtain ⟨h₁, ps₁, res, h₂, hgrew, hopened, -, hres, b, hrun'⟩ :=
    kmalloc_search len hp (Nat.le_max_right fuel (ps.length + h.frames.length))
  rw [kmalloc_fuel (Nat.le_max_left _ _) hrun] at hrun'
  cases hrun'
  rcases hres with ⟨heq, -⟩ | ⟨pre, q, post, bs, l, bs', r', rfl, hblocks, hfirst, hl, heq, hstep⟩
  · cases heq
    exact absurd rfl haddr
  · cases heq
    exact ⟨_, h₁, pre, q, post, bs, l, bs', hgrew.pools, hopened, hblocks, hfirst, hl, rfl, rfl,
      fun htight => ((hstep htight).interrupts b).pools⟩

/-- For every well-formed heap: the memory that `kmalloc` returns is really there exactly when the
length is at most `2 ^ 64 - 48`, or there is no memory to return. -/
theorem payload_there_iff (hp : Pools h ps) (ha : DataAligned ps) (hlen : len < 2 ^ 64) :
    (∀ fuel addr h', kmalloc fuel len h = .ok (addr, h') → addr ≠ 0 →
        ∃ ps', Carved len h ps addr h' ps' ∧ PayloadThere ps' addr len) ↔
      len ≤ 2 ^ 64 - 48 ∨ (∀ b ∈ heapBlocks ps, b.2 = true) ∧ h.frames = [] := by
  constructor
  · intro hthere
    by_contra hnot
    push Not at hnot
    obtain ⟨hbig, hmemory⟩ := hnot
    have hneed := alignUp_of_gt hlen hbig
    obtain ⟨fuel, addr, h', hrun, haddr, hbase⟩ := hp.returns len (by
      by_cases hfree : ∀ b ∈ heapBlocks ps, b.2 = true
      · exact Or.inr ⟨hmemory hfree, by omega⟩
      · push Not at hfree
        obtain ⟨c, hc, hunused⟩ := hfree
        obtain ⟨p, hmem, hcp⟩ := List.mem_flatMap.mp hc
        have hc32 := ((hp.laid p hmem).chain.len_le hcp).1
        exact Or.inl ⟨c, hc, by simpa using hunused, by omega⟩)
    obtain ⟨ps', -, hpayload⟩ := hthere fuel addr h' hrun haddr
    have hdirect : kernelDirectBase = 2 ^ 64 - 2 ^ 47 := rfl
    have := hpayload.noWrap
    omega
  · intro hcond fuel addr h' hrun haddr
    obtain ⟨ps', hcarved⟩ := hp.carved hrun haddr
    refine ⟨ps', hcarved, ?_⟩
    obtain ⟨h₁, pre, q, post, bs, l, bs', hp₁, hopened, hblocks, -, hl, haddr', rfl, -⟩ := hcarved
    have hmem : q ∈ pre ++ q :: post := mem_middle.mpr (Or.inl rfl)
    rcases hcond with hsmall | ⟨hused, hframes⟩
    · obtain ⟨hround, hwrap⟩ := alignUp_of_le hsmall
      rw [hwrap] at hl
      have haligned : 16 ∣ addr := haddr' ▸ ha.opened hopened q hmem bs _ bs' hblocks
      exact hp₁.payload_there hblocks haddr' haligned hround hl
    · -- without a free block or a frame there is nothing to carve
      obtain ⟨taken, new, htaken, hlength, hps, -⟩ := hopened
      rw [hframes] at htaken
      obtain ⟨rfl, -⟩ := List.append_eq_nil_iff.mp htaken.symm
      obtain rfl := List.length_eq_zero_iff.mp hlength
      rw [List.append_nil] at hps
      have hfree := hused (l, false) (List.mem_flatMap.mpr ⟨q, hps ▸ hmem, by rw [hblocks]; simp⟩)
      exact absurd hfree Bool.false_ne_true

end payload

section fresh
variable {f : ℕ} {hf : 4096 ∣ f ∧ f + 4096 ≤ 2 ^ 47}

theorem freshPage_dataAligned : DataAligned [freshPage f hf] := by
  intro p hp bs b bs' hblocks
  obtain rfl := List.mem_singleton.mp hp
  obtain ⟨k, hk⟩ := (freshPage f hf).aligned
  cases bs with
  | nil =>
    rw [hk, totalLen_nil]
    omega
  | cons c bs => simp [freshPage] at hblocks

end fresh

theorem payload_there_iff_oneFrame : ∃ h hf, initPool oneFrame = .ok (true, h) ∧
    ∀ fuel addr h', kmalloc fuel 100 h = .ok (addr, h') → addr ≠ 0 →
      ∃ ps', Carved 100 h [freshPage 0x1000 hf] addr h' ps' ∧ PayloadThere ps' addr 100 := by
  obtain ⟨h, hf, hinit, -, hp⟩ := oneFrame_init
  exact ⟨h, hf, hinit, (payload_there_iff hp freshPage_dataAligned (by norm_num)).mpr (Or.inl (by norm_num))⟩

/-- A request of `2 ^ 64 - 1` bytes is granted, and the bytes wrap around. -/
theorem oneFrame_payload_wraps : ∃ h hf fuel addr h', initPool oneFrame = .ok (true, h) ∧
    Pools h [freshPage 0x1000 hf] ∧ kmalloc fuel (2 ^ 64 - 1) h = .ok (addr, h') ∧ addr ≠ 0 ∧
    2 ^ 64 < addr + (2 ^ 64 - 1) ∧ ∀ ps', ¬ PayloadThere ps' addr (2 ^ 64 - 1) := by
  obtain ⟨h, hf, hinit, -, hp⟩ := oneFrame_init
  have hneed : wrap (alignUp (2 ^ 64 - 1) 16 + 32) ≤ 32 := alignUp_of_gt (by norm_num) (by norm_num)
  obtain ⟨fuel, addr, h', hrun, haddr, hbase⟩ := hp.returns _
    (Or.inl ⟨(4072, false), List.mem_singleton.mpr rfl, rfl, hneed.trans (by norm_num)⟩)
  have hdirect : kernelDirectBase = 2 ^ 64 - 2 ^ 47 := rfl
  exact ⟨h, hf, fuel, addr, h', hinit, hp, hrun, haddr, by omega, fun ps' hpayload =>
    absurd hpayload.noWrap (by omega)⟩

end Fynaos
