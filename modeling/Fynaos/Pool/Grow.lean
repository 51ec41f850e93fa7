import Fynaos.Pool.Heap

/-!
# What `extend_pool` and `kmalloc` do to the heap

A new page is linked behind the last one and becomes one free block. `kmalloc` walks the pages until
a block fits and asks for new pages when none does. `servingLen` is the length of the block it will
take, and `Roomy` says that taking it does not leave a rest too short for a `struct block`.
-/

namespace Fynaos

open NextList

/-! ### New pages -/

section fresh
variable {h h' : Heap} {ps : List PoolPage} {r : Ram} {a f : ℕ} {frames : List ℕ}

theorem physToVirt_eq (hf : f + 4096 ≤ 2 ^ 47) : physToVirt f = f + kernelDirectBase := by
  have hbase : kernelDirectBase = 2 ^ 64 - 2 ^ 47 := rfl
  exact wrap_of_lt (by omega)

def freshPage (f : ℕ) (hf : 4096 ∣ f ∧ f + 4096 ≤ 2 ^ 47) : PoolPage where
  base := physToVirt f
  blocks := [(4072, false)]
  direct := by
    have hbase : kernelDirectBase = 2 ^ 64 - 2 ^ 47 := rfl
    rw [physToVirt_eq hf.2]
    exact ⟨by omega, by omega⟩
  aligned := by
    rw [physToVirt_eq hf.2]
    exact Nat.dvd_add hf.1 ⟨0xFFFF800000000, rfl⟩

theorem initSinglePool_spec (ha : Direct a 4096) : ∃ r', initSinglePool a pageSize r = .ok r' ∧
    r'.word a = 4096 ∧ r'.word (a + 8) = 0 ∧ r'.word (a + 16) = 0 ∧
    Chain r' (a + 24) 0 [(4072, false)] (a + 4096) ∧ Wrote r r' (Set.Ico a (a + 4096)) := by
  obtain ⟨h1, h2⟩ := ha
  have hstore : ∀ {r : Ram} {x v : ℕ}, a ≤ x → x + 8 ≤ a + 4096 → r.store x v = .ok (r.put x v) :=
    fun h3 h4 => Direct.store ⟨by omega, by omega⟩
  have hrest : wrapSub pageSize sizeofPool = 4072 := rfl
  obtain ⟨r', hr', hwrote⟩ : ∃ r', (((((r.put a 4096).put (a + 16) 0).put (a + 8) 0).put (a + 24)
      4072).put (a + 24 + 8) 0).put (a + 24 + 16) 0 = r' ∧ Wrote r r' (Set.Ico a (a + 4096)) := by
    refine ⟨_, rfl, ?_⟩
    exact (((((Wrote.put_within (by omega) (by omega)).trans
      (Wrote.put_within (by omega) (by omega))).trans
      (Wrote.put_within (by omega) (by omega))).trans
      (Wrote.put_within (by omega) (by omega))).trans
      (Wrote.put_within (by omega) (by omega))).trans
      (Wrote.put_within (by omega) (by omega))
  refine ⟨r', ?_, ?_, ?_, ?_, ⟨?_, ?_, ?_, by norm_num, rfl⟩, hwrote⟩
  · simp only [initSinglePool, sizeofPool, bind, Except.bind, hrest,
      hstore (le_refl a) (by omega), hstore (show a ≤ a + 16 by omega) (by omega),
      hstore (show a ≤ a + 8 by omega) (by omega), hstore (show a ≤ a + 24 by omega) (by omega),
      hstore (show a ≤ a + 24 + 8 by omega) (by omega),
      hstore (show a ≤ a + 24 + 16 by omega) (by omega)]
    rw [← hr']
  all_goals
    rw [← hr']
    simp (disch := omega) only [Ram.word_put_self, Ram.word_put_of_disjoint]
  · rfl
  · rfl

theorem Heap.allocFrame_nil {h : Heap} (hframes : h.frames = []) : h.allocFrame = .ok (invalidAddress, h) := by
  obtain ⟨r, pools, tail, frames, interrupts⟩ := h
  obtain rfl : frames = [] := hframes
  rfl

theorem Heap.allocFrame_cons {h : Heap} (hframes : h.frames = f :: frames) :
    h.allocFrame = .ok (f, { h with frames := frames }) := by
  rw [Heap.allocFrame, hframes]
  rfl

theorem extendPool_none (hframes : h.frames = []) : extendPool h = .ok (false, h) := by
  rw [extendPool, Heap.allocFrame_nil hframes, ok_bind]
  dsimp only
  rw [if_pos rfl, pure_eq]

theorem FreshFrames.snoc {hf : 4096 ∣ f ∧ f + 4096 ≤ 2 ^ 47} (h : FreshFrames (f :: frames) ps) :
    FreshFrames frames (ps ++ [freshPage f hf]) := by
  obtain ⟨hnotin, hnodup⟩ := List.nodup_cons.mp h.nodup
  refine ⟨hnodup, fun g hg => h.page g (List.mem_cons_of_mem _ hg), fun g hg q hq => ?_⟩
  have hbase : (freshPage f hf).base = physToVirt f := rfl
  rcases List.mem_append.mp hq with hq | hq
  · exact h.fresh g (List.mem_cons_of_mem _ hg) q hq
  · rw [List.mem_singleton.mp hq, hbase]
    rw [physToVirt_eq hf.2, physToVirt_eq (h.page g (List.mem_cons_of_mem _ hg)).2]
    intro heq
    exact hnotin (Nat.add_right_cancel heq ▸ hg)

section snoc
variable {pre : List PoolPage} {t : PoolPage} {hf : 4096 ∣ f ∧ f + 4096 ≤ 2 ^ 47}
  (hp : Pools h (pre ++ [t])) (hframes : h.frames = f :: frames)
include hp

theorem Pools.link_notMem_data {x : ℕ} (h1 : t.base + 16 ≤ x) (h2 : x < t.base + 24) :
    x ∉ heapData (pre ++ [t]) := by
  intro hdata
  obtain ⟨q, hq, h3, h4⟩ := hp.data_subset hdata
  by_cases heq : q.base = t.base
  · omega
  · exact Set.disjoint_left.mp (PoolPage.disjoint heq) ⟨by omega, h4⟩ ⟨by omega, by omega⟩

include hframes

theorem Pools.disjoint_fresh {q : PoolPage} (hq : q ∈ pre ++ [t]) :
    Disjoint q.bytes (freshPage f hf).bytes :=
  PoolPage.disjoint (hp.frames.fresh f (hframes ▸ List.mem_cons_self) q hq)

theorem Pools.snoc (hlink : r.word (t.base + 16) = physToVirt f)
    (hsame : ∀ x ∉ (freshPage f hf).bytes, x < t.base + 16 ∨ t.base + 24 ≤ x →
      r.bytes x = h.ram.bytes x)
    (hlaid : (freshPage f hf).Laid r) (hnext : r.word (physToVirt f + 16) = 0) :
    Pools { h with frames := frames, ram := r, tail := physToVirt f }
      (pre ++ [t] ++ [freshPage f hf]) := by
  refine ⟨?_, ⟨pre ++ [t], freshPage f hf, rfl, rfl⟩, fun q hq => ?_, (hframes ▸ hp.frames).snoc⟩
  · have hlinks := hp.links
    rw [List.map_append, List.map_singleton] at hlinks
    have hnew : (pre ++ [t] ++ [freshPage f hf]).map PoolPage.base =
        pre.map PoolPage.base ++ [t.base, physToVirt f] := by simp [freshPage]
    rw [hnew]
    refine hlinks.snoc ?_ ?_ fun a ha => ?_
    · have hpos : 0 < physToVirt f := (freshPage f hf).base_pos
      rw [poolNext, hlink, if_neg (by omega)]
    · rw [poolNext, hnext, if_pos rfl]
    · obtain ⟨q, hq, rfl⟩ := List.mem_map.mp ha
      have hqt := (show Pools h (pre ++ t :: []) from hp).disjoint (by simpa using hq)
      have hqnew : Disjoint q.bytes (freshPage f hf).bytes :=
        hp.disjoint_fresh hframes (List.mem_append_left _ hq)
      refine poolNext_congr fun y h1 h2 => ?_
      have hy : y ∈ q.bytes := ⟨by omega, by omega⟩
      refine hsame y (Set.disjoint_left.mp hqnew hy) ?_
      by_contra hcon
      exact Set.disjoint_left.mp hqt hy ⟨by omega, by omega⟩
  · rcases List.mem_append.mp hq with hq | hq
    · have hqnew : Disjoint q.bytes (freshPage f hf).bytes := hp.disjoint_fresh hframes hq
      refine (hp.laid q hq).congr fun x hx hxlink => hsame x (Set.disjoint_left.mp hqnew hx) ?_
      by_cases heq : q.base = t.base
      · rw [← heq]
        exact hxlink
      · by_contra hcon
        exact Set.disjoint_left.mp (PoolPage.disjoint heq) hx ⟨by omega, by omega⟩
    · rw [List.mem_singleton.mp hq]
      exact hlaid

theorem Pools.fresh_subset : (freshPage f hf).bytes ⊆
    heapBytes (pre ++ [t] ++ [freshPage f hf]) \ heapData (pre ++ [t]) := by
  refine fun x hx => ⟨⟨freshPage f hf, by simp, hx⟩, fun hdata => ?_⟩
  obtain ⟨q, hq, h1, h2⟩ := hp.data_subset hdata
  exact Set.disjoint_left.mp (hp.disjoint_fresh hframes hq) ⟨by omega, h2⟩ hx

end snoc

theorem extendPool_spec (hp : Pools h ps) (hframes : h.frames = f :: frames) :
    ∃ h' hf, extendPool h = .ok (true, h') ∧ h'.frames = frames ∧
      Grew h ps h' (ps ++ [freshPage f hf]) := by
  have hf := hp.frames.page f (hframes ▸ List.mem_cons_self)
  obtain ⟨pre, t, rfl, htail⟩ := hp.tail
  have hdir : Direct (physToVirt f) 4096 := (freshPage f hf).direct
  have hne : f ≠ invalidAddress := by
    unfold invalidAddress
    omega
  obtain ⟨r₁, hzero, -, hwrote₁⟩ := zeroPage_spec (r := h.ram) hdir
  obtain ⟨r₂, hinit, hlen, husage, hnext, hchain, hwrote₂⟩ :=
    initSinglePool_spec (r := r₁.put (t.base + 16) (physToVirt f)) hdir
  have hlt : physToVirt f < 2 ^ 64 := wrap_lt _
  have htnew : Disjoint t.bytes (freshPage f hf).bytes := hp.disjoint_fresh hframes (by simp)
  have hlink : r₂.word (t.base + 16) = physToVirt f := by
    rw [hwrote₂.word, Ram.word_put_self hlt]
    rw [Set.disjoint_left]
    rintro x ⟨h1, h2⟩ hx
    exact Set.disjoint_left.mp htnew ⟨by omega, by omega⟩ hx
  have hsame : ∀ x ∉ (freshPage f hf).bytes, x < t.base + 16 ∨ t.base + 24 ≤ x →
      r₂.bytes x = h.ram.bytes x := fun x hx hlink =>
    (hwrote₂.frame x hx).trans
      ((Memory.store_of_notMem (a := t.base + 16) (n := 8) (by omega)).trans (hwrote₁.frame x hx))
  have hrun : extendPool h = .ok (true,
      { h with frames := frames, ram := r₂, tail := physToVirt f }) := by
    rw [extendPool, Heap.allocFrame_cons hframes, ok_bind]
    simp only [if_neg hne, hzero, ← htail, ok_bind, t.link.store, t.link.load]
    rw [Ram.word_put_self hlt, hinit, ok_bind, hlink, pure_eq]
  have hnew : (freshPage f hf).bytes ⊆ _ := hp.fresh_subset hframes
  refine ⟨_, hf, hrun, rfl, hp.snoc hframes hlink hsame
    ⟨hlen, husage, List.cons_ne_nil _ _, hchain⟩ hnext, ?_, ?_, ?_⟩
  · rintro x ⟨q, hq, hx⟩
    exact ⟨q, List.mem_append_left _ hq, hx⟩
  · have hsplit : heapUsed (pre ++ [t] ++ [freshPage f hf]) =
        heapUsed (pre ++ [t]) ++ heapUsed [freshPage f hf] := List.flatMap_append
    rw [hsplit]
    exact List.subset_append_left _ _
  · refine ((hwrote₁.mono hnew).trans (Wrote.put _ _ fun x hx => ?_)).trans (hwrote₂.mono hnew)
    have h1 := hx.1
    have h2 := hx.2
    exact ⟨⟨t, by simp, by omega, by omega⟩, hp.link_notMem_data h1 (by omega)⟩

theorem initPool_spec (hfresh : FreshFrames h.frames []) (hframes : h.frames = f :: frames) :
    ∃ h' hf, initPool h = .ok (true, h') ∧ h'.frames = frames ∧ Pools h' [freshPage f hf] := by
  obtain ⟨hnodup, hpage, -⟩ := hfresh
  rw [hframes] at hnodup hpage
  have hf := hpage f List.mem_cons_self
  have hdir : Direct (physToVirt f) 4096 := (freshPage f hf).direct
  have hne : f ≠ invalidAddress := by
    unfold invalidAddress
    omega
  obtain ⟨r₁, hzero, -, -⟩ := zeroPage_spec (r := h.ram) hdir
  obtain ⟨r₂, hinit, hlen, husage, hnext, hchain, -⟩ := initSinglePool_spec (r := r₁) hdir
  have hrun : initPool h = .ok (true,
      { h with frames := frames, ram := r₂, pools := physToVirt f, tail := physToVirt f }) := by
    rw [initPool, Heap.allocFrame_cons hframes, ok_bind]
    simp only [if_neg hne, hzero, ok_bind]
    rw [hinit, ok_bind, pure_eq]
  have hnone : poolNext r₂ (physToVirt f) = none := by
    rw [poolNext, hnext, if_pos rfl]
  refine ⟨_, hf, hrun, rfl, ⟨⟨rfl, hnone⟩, ⟨[], freshPage f hf, rfl, rfl⟩, ?_, ?_⟩⟩
  · intro q hq
    rw [List.mem_singleton.mp hq]
    exact ⟨hlen, husage, List.cons_ne_nil _ _, hchain⟩
  · obtain ⟨hnotin, hnodup⟩ := List.nodup_cons.mp hnodup
    refine ⟨hnodup, fun g hg => hpage g (List.mem_cons_of_mem _ hg), fun g hg q hq => ?_⟩
    rw [List.mem_singleton.mp hq]
    show physToVirt f ≠ physToVirt g
    rw [physToVirt_eq hf.2, physToVirt_eq (hpage g (List.mem_cons_of_mem _ hg)).2]
    intro heq
    exact hnotin (Nat.add_right_cancel heq ▸ hg)

end fresh

/-! ### The block that serves a request -/

instance (need : ℕ) : DecidablePred (Fits need) := fun _ => inferInstanceAs (Decidable (_ ∧ _))

def heapBlocks (ps : List PoolPage) : List (ℕ × Bool) := ps.flatMap PoolPage.blocks

/-- The length of the block that `kmalloc` takes: the first one that fits, or a whole new page. -/
def servingLen (need : ℕ) (ps : List PoolPage) (frames : List ℕ) : Option ℕ :=
  match (heapBlocks ps).find? (Fits need) with
  | some b => some b.1
  | none => if frames = [] then none else some 4072

/-- The block that serves a request of `len` bytes leaves no rest, or one that can hold a
`struct block`. -/
def Roomy (ps : List PoolPage) (frames : List ℕ) (len : ℕ) : Prop :=
  ∀ l, servingLen (wrap (alignUp len 16 + 32)) ps frames = some l → ¬ Tight (alignUp len 16) l

/-- A used block of the heap whose data starts at `addr` has been carved for `len` bytes. -/
def Handed (ps : List PoolPage) (addr len : ℕ) : Prop :=
  ∃ b ∈ heapUsed ps, addr = b.1 + 24 ∧ wrap (alignUp len 16 + 32) ≤ b.2

section serving
variable {ps ps' pre post : List PoolPage} {p : PoolPage} {frames : List ℕ} {len need f : ℕ}

/-- A new page only counts when nothing fits in the old ones, and then it was counted before. -/
theorem Roomy.extend {hf : 4096 ∣ f ∧ f + 4096 ≤ 2 ^ 47} (h : Roomy ps (f :: frames) len)
    (hnone : ∀ b ∈ heapBlocks ps, ¬ Fits (wrap (alignUp len 16 + 32)) b) :
    Roomy (ps ++ [freshPage f hf]) frames len := by
  have hfind : (heapBlocks ps).find? (Fits (wrap (alignUp len 16 + 32))) = none :=
    List.find?_eq_none.mpr fun b hb => by simpa using hnone b hb
  have hpage : ¬ Tight (alignUp len 16) 4072 := h 4072 (by
    rw [servingLen, hfind]
    exact if_neg (List.cons_ne_nil _ _))
  intro l hl
  have hblocks : heapBlocks (ps ++ [freshPage f hf]) = heapBlocks ps ++ [(4072, false)] := by
    unfold heapBlocks
    rw [List.flatMap_append]
    rfl
  rw [servingLen, hblocks, List.find?_append, hfind, Option.none_or] at hl
  suffices heq : l = 4072 by
    rw [heq]
    exact hpage
  rw [List.find?_singleton] at hl
  split_ifs at hl
  all_goals exact (Option.some.inj hl).symm

theorem Roomy.first (h : Roomy (pre ++ p :: post) frames len) {bs bs' : List (ℕ × Bool)} {l : ℕ}
    (hpre : ∀ b ∈ heapBlocks pre, ¬ Fits (wrap (alignUp len 16 + 32)) b)
    (hblocks : p.blocks = bs ++ (l, false) :: bs')
    (hbs : ∀ b ∈ bs, ¬ Fits (wrap (alignUp len 16 + 32)) b)
    (hl : wrap (alignUp len 16 + 32) ≤ l) : ¬ Tight (alignUp len 16) l := by
  refine h l ?_
  have hfind : (heapBlocks (pre ++ p :: post)).find? (Fits (wrap (alignUp len 16 + 32))) =
      some (l, false) := by
    refine List.find?_eq_some_iff_append.mpr ⟨decide_eq_true ⟨rfl, hl⟩, heapBlocks pre ++ bs,
      bs' ++ heapBlocks post, ?_, fun b hb => ?_⟩
    · unfold heapBlocks
      rw [List.flatMap_append, List.flatMap_cons, hblocks]
      simp
    · rcases List.mem_append.mp hb with hb | hb
      · simpa using hpre b hb
      · simpa using hbs b hb
  rw [servingLen, hfind]

theorem Handed.mono (h : Handed ps need len) (hused : heapUsed ps ⊆ heapUsed ps') :
    Handed ps' need len := by
  obtain ⟨b, hb, hrest⟩ := h
  exact ⟨b, hused hb, hrest⟩

end serving

/-! ### `kmalloc` -/

section kmalloc
variable {h : Heap} {ps pre post : List PoolPage} {p : PoolPage} {len fuel : ℕ}

theorem Pools.allocate_page (hp : Pools h (pre ++ p :: post)) (len : ℕ) :
    (allocate (p.base + sizeofPool) len h.ram = .ok (0, h.ram) ∧
        ∀ b ∈ p.blocks, ¬ Fits (wrap (alignUp len 16 + 32)) b) ∨
      ∃ bs l bs' r', p.blocks = bs ++ (l, false) :: bs' ∧
        (∀ b ∈ bs, ¬ Fits (wrap (alignUp len 16 + 32)) b) ∧ wrap (alignUp len 16 + 32) ≤ l ∧
        allocate (p.base + sizeofPool) len h.ram =
          .ok (p.base + 24 + totalLen bs + 24, r') ∧
        (¬ Tight (alignUp len 16) l → Grew h (pre ++ p :: post) { h with ram := r' }
          (pre ++ { p with blocks := bs ++ carve (alignUp len 16) l ++ bs' } :: post)) := by
  have hlaid := hp.laid p (by simp)
  have hdir := p.direct
  rcases allocate_spec len hlaid.chain hlaid.nonempty (by have := hdir.1; omega) hdir.2
      (by omega) with hnone | ⟨bs, l, bs', r', hblocks, hbs, hl, hrun, hcarve⟩
  · exact Or.inl hnone
  refine Or.inr ⟨bs, l, bs', r', hblocks, hbs, hl, hrun, fun htight => ?_⟩
  obtain ⟨hchain, hwrote⟩ := hcarve htight
  have hold := hlaid.chain
  rw [hblocks] at hold
  obtain ⟨hin, hout⟩ := editBytes_spec hold
  obtain ⟨hkept, -⟩ := usedBlocks_carve (p.base + 24) (alignUp len 16) l bs bs'
  obtain ⟨l', rest, hcons, -⟩ := carve_spec (alignUp len 16) l
  have hused : p.used = usedBlocks (p.base + 24) (bs ++ (l, false) :: bs') := by
    rw [PoolPage.used, hblocks]
  exact hp.edit (by simp [hcons]) hchain hwrote hin (by rwa [hused]) (by rwa [hused])

section loop
variable {S : Type} [FrameSource S] {h h₁ : Heap S} {r : Ram} {pool next addr : ℕ}

theorem kmallocLoop_found (hrun : allocate (pool + sizeofPool) len h.ram = .ok (addr, r))
    (haddr : addr ≠ 0) :
    kmallocLoop len (fuel + 1) pool h = .ok (some addr, { h with ram := r }) := by
  rw [kmallocLoop, hrun, ok_bind]
  dsimp only
  rw [if_pos haddr, pure_eq]

theorem kmallocLoop_next (hrun : allocate (pool + sizeofPool) len h.ram = .ok (0, h.ram))
    (hlink : Direct (pool + 16) 8) (hnext : h.ram.word (pool + 16) = next) (hne : next ≠ 0) :
    kmallocLoop len (fuel + 1) pool h = kmallocLoop len fuel next h := by
  rw [kmallocLoop, hrun, ok_bind]
  dsimp only
  rw [if_neg (not_not.mpr rfl), hlink.load, ok_bind, hnext, if_neg hne]

theorem kmallocLoop_full (hrun : allocate (pool + sizeofPool) len h.ram = .ok (0, h.ram))
    (hlink : Direct (pool + 16) 8) (hnext : h.ram.word (pool + 16) = 0)
    (hextend : extendPool h = .ok (false, h₁)) :
    kmallocLoop len (fuel + 1) pool h = .ok (none, h₁) := by
  rw [kmallocLoop, hrun, ok_bind]
  dsimp only
  rw [if_neg (not_not.mpr rfl), hlink.load, ok_bind, hnext, if_pos rfl, hextend, ok_bind]
  dsimp only
  rw [if_neg Bool.false_ne_true, pure_eq]

theorem kmallocLoop_extend (hrun : allocate (pool + sizeofPool) len h.ram = .ok (0, h.ram))
    (hlink : Direct (pool + 16) 8) (hnext : h.ram.word (pool + 16) = 0)
    (hextend : extendPool h = .ok (true, h₁)) (hnext₁ : h₁.ram.word (pool + 16) = next) :
    kmallocLoop len (fuel + 1) pool h = kmallocLoop len fuel next h₁ := by
  rw [kmallocLoop, hrun, ok_bind]
  dsimp only
  rw [if_neg (not_not.mpr rfl), hlink.load, ok_bind, hnext, if_pos rfl, hextend, ok_bind]
  dsimp only
  rw [if_pos rfl, hlink.load, ok_bind, hnext₁]

theorem kmalloc_some (hloop : kmallocLoop len fuel h.pools { h with interrupts := false } = .ok (some addr, h₁)) :
    kmalloc fuel len h = .ok (addr, { h₁ with interrupts := h.interrupts }) := by
  rw [kmalloc]
  dsimp only
  rw [hloop, ok_bind]
  rfl

theorem kmalloc_none (hloop : kmallocLoop len fuel h.pools { h with interrupts := false } = .ok (none, h₁)) :
    kmalloc fuel len h = .ok (0, h₁) := by
  rw [kmalloc]
  dsimp only
  rw [hloop, ok_bind]
  rfl

end loop

/-- From the pages `ps` to the pages `ps₁`: some frames were taken, and each became a whole free
page. -/
def Opened (h : Heap) (ps : List PoolPage) (h₁ : Heap) (ps₁ : List PoolPage) : Prop :=
  ∃ taken new, h.frames = taken ++ h₁.frames ∧ new.length = taken.length ∧ ps₁ = ps ++ new ∧
    ∀ q ∈ new, q.blocks = [(4072, false)]

theorem Opened.refl (h : Heap) (ps : List PoolPage) : Opened h ps h ps :=
  ⟨[], [], rfl, rfl, (List.append_nil ps).symm, fun _ hq => absurd hq List.not_mem_nil⟩

/-- The way of the loop of `kmalloc` from the heap `h` to the heap `h₁`, with pages `ps₁`: new pages
may have been added, and then no block fits and no frame is left, or the block `l` of the page `q`
is the first that fits. -/
def Searched (len : ℕ) (h₁ : Heap) (ps₁ : List PoolPage) (res : Except Halt (Option ℕ × Heap)) :
    Prop :=
  (res = .ok (none, h₁) ∧ h₁.frames = [] ∧
      ∀ b ∈ heapBlocks ps₁, ¬ Fits (wrap (alignUp len 16 + 32)) b) ∨
    ∃ pre q post bs l bs' r', ps₁ = pre ++ q :: post ∧ q.blocks = bs ++ (l, false) :: bs' ∧
      (∀ b ∈ heapBlocks pre ++ bs, ¬ Fits (wrap (alignUp len 16 + 32)) b) ∧
      wrap (alignUp len 16 + 32) ≤ l ∧
      res = .ok (some (q.base + 24 + totalLen bs + 24), { h₁ with ram := r' }) ∧
      (¬ Tight (alignUp len 16) l → Grew h₁ ps₁ { h₁ with ram := r' }
        (pre ++ { q with blocks := bs ++ carve (alignUp len 16) l ++ bs' } :: post))

theorem kmallocLoop_search (hp : Pools h (pre ++ p :: post))
    (hpre : ∀ b ∈ heapBlocks pre, ¬ Fits (wrap (alignUp len 16 + 32)) b)
    (hfuel : post.length + h.frames.length < fuel) :
    ∃ h₁ ps₁, Grew h (pre ++ p :: post) h₁ ps₁ ∧ Opened h (pre ++ p :: post) h₁ ps₁ ∧
      (Roomy (pre ++ p :: post) h.frames len → Roomy ps₁ h₁.frames len) ∧
      Searched len h₁ ps₁ (kmallocLoop len fuel p.base h) := by
  induction fuel generalizing h pre p post with
  | zero => omega
  | succ fuel ih =>
    rcases hp.allocate_page len with ⟨hrun, hnone⟩ | ⟨bs, l, bs', r', hblocks, hbs, hl, hrun, hgrew⟩
    · have hpre' : ∀ b ∈ heapBlocks (pre ++ [p]), ¬ Fits (wrap (alignUp len 16 + 32)) b := by
        intro b hb
        unfold heapBlocks at hb
        rw [List.flatMap_append, List.flatMap_singleton] at hb
        exact (List.mem_append.mp hb).elim (hpre b) (hnone b)
      cases post with
      | cons q post =>
        have hnext := hp.next_cons
        have hsplit : pre ++ p :: q :: post = pre ++ [p] ++ q :: post := by simp
        rw [hsplit] at hp ⊢
        rw [List.length_cons] at hfuel
        rw [kmallocLoop_next hrun p.link hnext q.base_pos.ne']
        exact ih hp hpre' (by omega)
      | nil =>
        have hnext := hp.next_last
        cases hframes : h.frames with
        | nil =>
          refine ⟨h, _, Grew.refl hp, Opened.refl _ _, ?_, Or.inl ⟨?_, hframes, hpre'⟩⟩
          · rw [hframes]
            exact id
          · exact kmallocLoop_full hrun p.link hnext (extendPool_none hframes)
        | cons f frames =>
          obtain ⟨h₁, hf, hextend, hrest, hgrew₁⟩ := extendPool_spec hp hframes
          have hp₁ := hgrew₁.pools
          have hnext₁ : h₁.ram.word (p.base + 16) = (freshPage f hf).base := by
            have hp₁' := hp₁
            rw [List.append_assoc] at hp₁'
            exact hp₁'.next_cons
          rw [hframes, List.length_nil, List.length_cons] at hfuel
          rw [kmallocLoop_extend hrun p.link hnext hextend hnext₁]
          obtain ⟨h₂, ps₂, hgrew₂, ⟨taken, new, htaken, hlen, hnew, hwhole⟩, hroomy, hres⟩ :=
            ih (show Pools h₁ (pre ++ [p] ++ freshPage f hf :: []) from hp₁) hpre'
              (by rw [hrest, List.length_nil]; omega)
          refine ⟨h₂, ps₂, hgrew₁.trans hgrew₂, ⟨f :: taken, freshPage f hf :: new, ?_, ?_, ?_, ?_⟩,
            fun h0 => ?_, hres⟩
          · rw [hframes, ← hrest, htaken, List.cons_append]
          · rw [List.length_cons, List.length_cons, hlen]
          · rw [hnew]
            simp
          · exact List.forall_mem_cons.mpr ⟨rfl, hwhole⟩
          · rw [hrest] at hroomy
            exact hroomy (h0.extend hpre')
    · refine ⟨h, _, Grew.refl hp, Opened.refl _ _, id, Or.inr ?_⟩
      refine ⟨pre, p, post, bs, l, bs', r', rfl, hblocks, fun b hb => ?_, hl, ?_, hgrew⟩
      · exact (List.mem_append.mp hb).elim (hpre b) (hbs b)
      · exact kmallocLoop_found hrun (by omega)

theorem kmalloc_search (len : ℕ) (hp : Pools h ps) (hfuel : ps.length + h.frames.length ≤ fuel) :
    ∃ h₁ ps₁ res h₂, Grew h ps h₁ ps₁ ∧ Opened h ps h₁ ps₁ ∧
      (Roomy ps h.frames len → Roomy ps₁ h₁.frames len) ∧
      Searched len h₁ ps₁ (.ok (res, h₂)) ∧
      ∃ b, kmalloc fuel len h = .ok (res.getD 0, { h₂ with interrupts := b }) := by
  obtain ⟨p, post, rfl, hpools⟩ := hp.head
  have hp' : Pools { h with interrupts := false } ([] ++ p :: post) := hp.interrupts false
  obtain ⟨h₁, ps₁, hgrew, hopened, hroomy, hres⟩ := kmallocLoop_search hp' (fun b hb => by cases hb)
    (show post.length + h.frames.length < fuel by rw [List.length_cons] at hfuel; omega)
  rw [← hpools] at hres
  obtain ⟨res, h₂, hrun⟩ : ∃ res h₂,
      kmallocLoop len fuel h.pools { h with interrupts := false } = .ok (res, h₂) := by
    rcases id hres with ⟨hrun, -⟩ | ⟨_, _, _, _, _, _, _, -, -, -, -, hrun, -⟩
    · exact ⟨_, _, hrun⟩
    · exact ⟨_, _, hrun⟩
  rw [hrun] at hres
  refine ⟨h₁, ps₁, res, h₂, ⟨hgrew.pools, hgrew.bytes, hgrew.used, hgrew.wrote⟩, hopened, hroomy,
    hres, ?_⟩
  cases res with
  | none => exact ⟨h₂.interrupts, kmalloc_none hrun⟩
  | some addr => exact ⟨h.interrupts, kmalloc_some hrun⟩

theorem kmalloc_spec (hp : Pools h ps) (hroomy : Roomy ps h.frames len)
    (hfuel : ps.length + h.frames.length ≤ fuel) :
    ∃ addr h' ps', kmalloc fuel len h = .ok (addr, h') ∧ Grew h ps h' ps' ∧
      (addr ≠ 0 → Handed ps' addr len) := by
  obtain ⟨h₁, ps₁, res, h₂, hgrew, -, hroomy₁, hres, b, hrun⟩ := kmalloc_search len hp hfuel
  rcases hres with ⟨heq, -⟩ | ⟨pre, q, post, bs, l, bs', r', rfl, hblocks, hfirst, hl, heq, hstep⟩
  · cases heq
    exact ⟨0, _, ps₁, hrun, hgrew.interrupts b, fun h0 => absurd rfl h0⟩
  cases heq
  have htight : ¬ Tight (alignUp len 16) l := (hroomy₁ hroomy).first
    (fun x hx => hfirst x (List.mem_append_left _ hx)) hblocks
    (fun x hx => hfirst x (List.mem_append_right _ hx)) hl
  obtain ⟨-, l', hnew, hl'⟩ := usedBlocks_carve (q.base + 24) (alignUp len 16) l bs bs'
  refine ⟨_, _, _, hrun, (hgrew.trans (hstep htight)).interrupts b, fun _ =>
    ⟨(q.base + 24 + totalLen bs, l'), ?_, rfl, ?_⟩⟩
  · exact List.mem_flatMap.mpr ⟨_, mem_middle.mpr (Or.inl rfl), hnew⟩
  · rcases hl' with rfl | rfl
    · exact Nat.mod_le _ _
    · exact hl

end kmalloc

end Fynaos
