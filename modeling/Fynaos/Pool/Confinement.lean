import Fynaos.Pool.Pages

/-!
# The heap over runs of `kmalloc`

`Grown h out` is a heap after `init_pool` and any calls of `kmalloc`, with what they handed out. As
long as every request is served by a roomy block, each pool stays a chain of blocks that ends with
its page, and `kmalloc` stores to nothing but the heap's own pages, never to bytes it handed out. A
request that leaves a rest shorter than a `struct block` breaks this, and so does one whose length
wraps around: its bytes are more than the block that it gets.
-/

namespace Fynaos

/-- Whatever pages describe the heap: the block that serves a request of `len` bytes leaves no rest, or one that can
hold a `struct block`, and the length does not wrap around if there is such a block. -/
def Heap.Roomy (h : Heap) (len : ℕ) : Prop :=
  ∀ ps, Pools h ps → Fynaos.Roomy ps h.frames len ∧
    (servingLen (wrap (alignUp len 16 + 32)) ps h.frames ≠ none → len ≤ 2 ^ 64 - 48)

/-- Heaps after `init_pool` and some calls of `kmalloc`, all roomy, and the addresses they returned
with the lengths that were asked for. -/
inductive Grown : Heap → List (ℕ × ℕ) → Prop
  | start {h h' : Heap} : FreshFrames h.frames [] → initPool h = .ok (true, h') → Grown h' []
  | grow {h h' : Heap} {out : List (ℕ × ℕ)} {fuel len addr : ℕ} : Grown h out → h.Roomy len →
      kmalloc fuel len h = .ok (addr, h') → addr ≠ 0 → Grown h' ((addr, len) :: out)
  | fail {h h' : Heap} {out : List (ℕ × ℕ)} {fuel len : ℕ} : Grown h out → h.Roomy len →
      kmalloc fuel len h = .ok (0, h') → Grown h' out

def handedBytes (out : List (ℕ × ℕ)) : Set ℕ := {x | ∃ o ∈ out, x ∈ Set.Ico o.1 (o.1 + o.2)}

/-- The pages of a heap, with all the bytes it handed out in the data of used blocks. -/
structure Sound (h : Heap) (out : List (ℕ × ℕ)) (ps : List PoolPage) : Prop where
  pools : Pools h ps
  handed : ∀ o ∈ out, Set.Ico o.1 (o.1 + o.2) ⊆ heapData ps

/-! ### Lengths -/

theorem alignUp_of_le {len : ℕ} (hlen : len ≤ 2 ^ 64 - 48) : len ≤ alignUp len 16 ∧
    wrap (alignUp len 16 + 32) = alignUp len 16 + 32 := by
  rw [alignUp_sixteen, wrap_of_lt (by omega)]
  exact ⟨by omega, wrap_of_lt (by omega)⟩

theorem alignUp_of_gt {len : ℕ} (hlen : len < 2 ^ 64) (hbig : 2 ^ 64 - 48 < len) :
    wrap (alignUp len 16 + 32) ≤ 32 := by
  rw [alignUp_sixteen]
  unfold wrap
  omega

/-- The bytes asked for are in the block, if their number does not wrap around. -/
theorem Handed.subset {ps : List PoolPage} {addr len : ℕ} (h : Handed ps addr len) (hlen : len ≤ 2 ^ 64 - 48) :
    Set.Ico addr (addr + len) ⊆ heapData ps := by
  obtain ⟨b, hb, rfl, hneed⟩ := h
  obtain ⟨hround, hwrap⟩ := alignUp_of_le hlen
  intro x hx
  obtain ⟨h1, h2⟩ := hx
  exact ⟨b, hb, h1, by omega⟩

section grown
variable {h h' : Heap} {out : List (ℕ × ℕ)} {ps : List PoolPage} {fuel len addr : ℕ}

theorem kmallocLoop_fuel {k pool : ℕ} {res : Option ℕ × Heap} (hk : fuel ≤ k)
    (hrun : kmallocLoop len fuel pool h = .ok res) : kmallocLoop len k pool h = .ok res := by
  induction fuel generalizing k pool h with
  | zero =>
    rw [kmallocLoop] at hrun
    cases hrun
  | succ fuel ih =>
    obtain ⟨k, rfl⟩ : ∃ j, k = j + 1 := ⟨k - 1, by omega⟩
    rw [kmallocLoop] at hrun ⊢
    obtain ⟨⟨addr, r⟩, hallocate, hrun⟩ := bind_eq_ok.mp hrun
    rw [hallocate, ok_bind]
    dsimp only at hrun ⊢
    split_ifs at hrun ⊢ with haddr
    · exact hrun
    obtain ⟨next, hnext, hrun⟩ := bind_eq_ok.mp hrun
    rw [hnext, ok_bind]
    split_ifs at hrun ⊢ with hzero
    · obtain ⟨⟨extended, h₁⟩, hextend, hrun⟩ := bind_eq_ok.mp hrun
      rw [hextend, ok_bind]
      dsimp only at hrun ⊢
      split_ifs at hrun ⊢
      · obtain ⟨next, hnext, hrun⟩ := bind_eq_ok.mp hrun
        rw [hnext, ok_bind]
        exact ih (by omega) hrun
      · exact hrun
    · exact ih (by omega) hrun

theorem kmalloc_fuel {k : ℕ} {res : ℕ × Heap} (hk : fuel ≤ k)
    (hrun : kmalloc fuel len h = .ok res) : kmalloc k len h = .ok res := by
  rw [kmalloc] at hrun ⊢
  dsimp only at hrun ⊢
  obtain ⟨res', hloop, hrun⟩ := bind_eq_ok.mp hrun
  rw [kmallocLoop_fuel hk hloop, ok_bind]
  exact hrun

theorem Pools.serving (hp : Pools h ps) (hrun : kmalloc fuel len h = .ok (addr, h')) (haddr : addr ≠ 0) :
    servingLen (wrap (alignUp len 16 + 32)) ps h.frames ≠ none := by
  obtain ⟨h₁, ps₁, res, h₂, -, hopened, -, hres, b, hrun'⟩ :=
    kmalloc_search len hp (Nat.le_max_right fuel (ps.length + h.frames.length))
  rw [kmalloc_fuel (Nat.le_max_left _ _) hrun] at hrun'
  cases hrun'
  rcases hres with ⟨heq, -⟩ | ⟨pre, q, post, bs, l, bs', r', rfl, hblocks, -, hl, -, -⟩
  · cases heq
    exact absurd rfl haddr
  · intro hnone
    rw [servingLen] at hnone
    split at hnone
    · cases hnone
    · rename_i hfind
      split_ifs at hnone with hframes
      -- no page was added, so the block was there before
      obtain ⟨taken, new, htaken, hlength, hps, -⟩ := hopened
      rw [hframes] at htaken
      obtain ⟨rfl, -⟩ := List.append_eq_nil_iff.mp htaken.symm
      obtain rfl := List.length_eq_zero_iff.mp hlength
      rw [List.append_nil] at hps
      have hmem : (l, false) ∈ heapBlocks ps :=
        List.mem_flatMap.mpr ⟨q, hps ▸ mem_middle.mpr (Or.inl rfl), by rw [hblocks]; simp⟩
      have hfits := List.find?_eq_none.mp hfind _ hmem
      exact hfits (decide_eq_true ⟨rfl, hl⟩)

theorem Sound.kmalloc (hs : Sound h out ps) (hroomy : h.Roomy len)
    (hrun : kmalloc fuel len h = .ok (addr, h')) :
    ∃ ps', Grew h ps h' ps' ∧ Sound h' out ps' ∧ (addr ≠ 0 → Set.Ico addr (addr + len) ⊆ heapData ps') := by
  obtain ⟨hroom, hlen⟩ := hroomy ps hs.pools
  obtain ⟨addr', h₁, ps', hrun', hgrew, hhanded⟩ := kmalloc_spec hs.pools hroom
    (Nat.le_max_right fuel (ps.length + h.frames.length))
  rw [kmalloc_fuel (Nat.le_max_left _ _) hrun] at hrun'
  cases hrun'
  refine ⟨ps', hgrew, ⟨hgrew.pools, fun o ho => ?_⟩, fun haddr => ?_⟩
  · exact (hs.handed o ho).trans (heapData_mono hgrew.used)
  · exact (hhanded haddr).subset (hlen (hs.pools.serving hrun haddr))

theorem Sound.handedBytes_subset (hs : Sound h out ps) : handedBytes out ⊆ heapData ps := by
  rintro x ⟨o, ho, hx⟩
  exact hs.handed o ho hx

theorem Grown.sound (hrun : Grown h out) : ∃ ps, Sound h out ps := by
  induction hrun with
  | @start h h' hfresh hinit =>
    cases hframes : h.frames with
    | nil =>
      rw [initPool, Heap.allocFrame_nil hframes, ok_bind] at hinit
      dsimp only at hinit
      rw [if_pos rfl] at hinit
      cases hinit
    | cons f frames =>
      obtain ⟨h₁, hf, hinit', -, hp⟩ := initPool_spec hfresh hframes
      rw [hinit] at hinit'
      cases hinit'
      exact ⟨_, hp, fun o ho => absurd ho List.not_mem_nil⟩
  | grow _ hroomy hrun haddr ih =>
    obtain ⟨ps, hs⟩ := ih
    obtain ⟨ps', -, hs', hhanded⟩ := hs.kmalloc hroomy hrun
    exact ⟨ps', hs'.pools, List.forall_mem_cons.mpr ⟨hhanded haddr, hs'.handed⟩⟩
  | fail _ hroomy hrun ih =>
    obtain ⟨ps, hs⟩ := ih
    obtain ⟨ps', -, hs', -⟩ := hs.kmalloc hroomy hrun
    exact ⟨ps', hs'⟩

/-- In a run of roomy requests the heap is sound at all times, and the next roomy request returns and
stores inside the heap's pages only, outside all bytes handed out. -/
theorem heap_confined (hrun : Grown h out) : ∃ ps, Sound h out ps ∧
    ∀ len, h.Roomy len → ∃ n, ∀ fuel, n ≤ fuel → ∃ addr h' ps',
      kmalloc fuel len h = .ok (addr, h') ∧ Sound h' out ps' ∧
      Wrote h.ram h'.ram (heapBytes ps' \ handedBytes out) ∧
      (addr ≠ 0 → Set.Ico addr (addr + len) ⊆ heapData ps') := by
  obtain ⟨ps, hs⟩ := hrun.sound
  refine ⟨ps, hs, fun len hroomy => ⟨ps.length + h.frames.length, fun fuel hfuel => ?_⟩⟩
  obtain ⟨addr, h', -, hrun', -⟩ := kmalloc_spec hs.pools (hroomy ps hs.pools).1 hfuel
  obtain ⟨ps', hgrew, hs', hhanded⟩ := hs.kmalloc hroomy hrun'
  refine ⟨addr, h', ps', hrun', hs', hgrew.wrote.mono ?_, hhanded⟩
  exact Set.sdiff_subset_sdiff_right hs.handedBytes_subset

theorem Pools.returns (hp : Pools h ps) (len : ℕ)
    (hfits : (∃ b ∈ heapBlocks ps, Fits (wrap (alignUp len 16 + 32)) b) ∨
      h.frames ≠ [] ∧ wrap (alignUp len 16 + 32) ≤ 4072) :
    ∃ fuel addr h', kmalloc fuel len h = .ok (addr, h') ∧ addr ≠ 0 ∧ kernelDirectBase ≤ addr := by
  obtain ⟨h₁, ps₁, res, h₂, -, hopened, -, hres, b, hrun⟩ :=
    kmalloc_search len hp (le_refl (ps.length + h.frames.length))
  rcases hres with ⟨heq, hnone, hall⟩ |
    ⟨pre, q, post, bs, l, bs', r', rfl, hblocks, hfirst, hl, heq, hstep⟩
  · obtain ⟨taken, new, htaken, hlength, rfl, hwhole⟩ := hopened
    have hblocks : heapBlocks (ps ++ new) = heapBlocks ps ++ heapBlocks new := List.flatMap_append
    rw [hblocks] at hall
    rcases hfits with ⟨c, hc, hfit⟩ | ⟨hframes, hsmall⟩
    · exact absurd hfit (hall c (List.mem_append_left _ hc))
    · rw [hnone, List.append_nil] at htaken
      cases new with
      | nil =>
        rw [htaken, List.length_eq_zero_iff.mp hlength.symm] at hframes
        exact absurd rfl hframes
      | cons q new =>
        refine absurd ⟨rfl, hsmall⟩ (hall (4072, false) (List.mem_append_right _ ?_))
        exact List.mem_flatMap.mpr ⟨q, List.mem_cons_self, by rw [hwhole q List.mem_cons_self]; simp⟩
  · cases heq
    have := q.direct.1
    exact ⟨_, _, _, hrun, Nat.succ_ne_zero _, by show _ ≤ _ + 24; omega⟩

end grown

/-- A machine with one page of memory for the heap. -/
def oneFrame : Heap := ⟨⟨fun _ => 0, []⟩, 0, 0, [0x1000], true⟩

theorem oneFrame_fresh : FreshFrames oneFrame.frames [] :=
  ⟨by decide, by decide, fun _ _ _ hp => absurd hp List.not_mem_nil⟩

theorem oneFrame_init : ∃ h hf, initPool oneFrame = .ok (true, h) ∧ h.frames = [] ∧
    Pools h [freshPage 0x1000 hf] :=
  initPool_spec oneFrame_fresh rfl

theorem oneFrame_roomy {h : Heap} {f : ℕ} {hf : 4096 ∣ f ∧ f + 4096 ≤ 2 ^ 47} (hp : Pools h [freshPage f hf]) :
    h.Roomy 100 := by
  have hneed : wrap (alignUp 100 16 + 32) = 144 := by decide
  have hserving : servingLen 144 [freshPage f hf] h.frames = some 4072 := rfl
  intro ps hps
  rw [hp.unique hps rfl rfl, Fynaos.Roomy, hneed, hserving]
  refine ⟨fun l hl => ?_, fun _ => by norm_num⟩
  have hround : alignUp 100 16 = 112 := by decide
  obtain rfl := Option.some.inj hl
  rw [hround, Tight]
  omega

/-- 100 bytes are handed out, and then there may be more requests. -/
theorem heap_confined_oneFrame : ∃ h addr, Grown h [(addr, 100)] ∧ ∃ ps, Sound h [(addr, 100)] ps ∧
    ∀ len, h.Roomy len → ∃ n, ∀ fuel, n ≤ fuel → ∃ addr' h' ps',
      kmalloc fuel len h = .ok (addr', h') ∧ Sound h' [(addr, 100)] ps' ∧
      Wrote h.ram h'.ram (heapBytes ps' \ handedBytes [(addr, 100)]) ∧
      (addr' ≠ 0 → Set.Ico addr' (addr' + len) ⊆ heapData ps') := by
  obtain ⟨h, hf, hinit, -, hp⟩ := oneFrame_init
  have hneed : wrap (alignUp 100 16 + 32) = 144 := by decide
  obtain ⟨fuel, addr, h', hrun, haddr, -⟩ := hp.returns 100
    (Or.inl ⟨(4072, false), List.mem_singleton.mpr rfl, rfl, by rw [hneed]; norm_num⟩)
  have hgrown : Grown h' [(addr, 100)] := Grown.grow (Grown.start oneFrame_fresh hinit) (oneFrame_roomy hp) hrun haddr
  exact ⟨h', addr, hgrown, heap_confined hgrown⟩

section cramped
variable {h : Heap} {r : Ram} {f v : ℕ} {hf : 4096 ∣ f ∧ f + 4096 ≤ 2 ^ 47}

theorem alignUp_cramped : alignUp 4032 16 = 4032 := by rw [alignUp_sixteen, wrap_of_lt (by norm_num)]

theorem findBlock_fresh (hchain : Chain r (v + 24) 0 [(4072, false)] (v + 4096))
    (hlow : kernelDirectBase ≤ v) (hhigh : v + 4096 ≤ 2 ^ 64) :
    findBlock r (wrap (alignUp 4032 16 + 32)) pageSize (v + 24) = .ok (v + 24) := by
  rcases findBlock_spec (wrap (alignUp 4032 16 + 32)) hchain (List.cons_ne_nil _ _) (by omega)
      (by omega) (by omega) (show 1 ≤ pageSize by norm_num) with
    ⟨-, hnone⟩ | ⟨pre, l, post, heq, -, -, hrun⟩
  · refine absurd ⟨rfl, ?_⟩ (hnone _ (List.mem_singleton.mpr rfl))
    rw [alignUp_cramped]
    exact (Nat.mod_le _ _).trans (by norm_num)
  · cases pre with
    | nil => exact hrun
    | cons b pre => simp at heq

/-- Behind a block of 4064 bytes there is no room for another one. -/
theorem chain_cramped {bs : List (ℕ × Bool)} (h : Chain r (v + 24) 0 bs (v + 4096))
    (hfirst : r.word (v + 24) = blockHeader 4064 true) (hnext : r.word (v + 24 + 8) ≠ 0) :
    bs = [] := by
  cases bs with
  | nil => rfl
  | cons b bs =>
    obtain ⟨l, u⟩ := b
    obtain ⟨hword, hlink, -, hl, hrest⟩ := h
    have hsum := hrest.stop_eq
    obtain rfl : l = 4064 := by
      have heq := congrArg getBlockLen (hword.symm.trans hfirst)
      rwa [getBlockLen_blockHeader (by omega), getBlockLen_blockHeader (by norm_num)] at heq
    cases bs with
    | nil =>
      rw [if_pos rfl] at hlink
      exact absurd hlink hnext
    | cons c bs =>
      have hlen := hrest.2.2.2.1
      rw [totalLen_cons] at hsum
      omega

/-- 4032 bytes from a fresh page leave a rest of 8 bytes. Its links go behind the page. -/
theorem kmalloc_cramped (hp : Pools h [freshPage f hf]) (hnot : f + 8192 ≤ 2 ^ 47) :
    ∃ addr h', kmalloc 1 4032 h = .ok (addr, h') ∧ addr ≠ 0 ∧ h'.pools = physToVirt f ∧
      (physToVirt f + 4096, 8) ∈ h'.ram.stores ∧ ∀ ps, ¬ Pools h' ps := by
  have hbase : kernelDirectBase = 2 ^ 64 - 2 ^ 47 := rfl
  have hpools : h.pools = physToVirt f := Option.some.inj hp.links.1
  have hchain : Chain h.ram (physToVirt f + 24) 0 [(4072, false)] (physToVirt f + 4096) :=
    (hp.laid _ (List.mem_singleton.mpr rfl)).chain
  have hv := physToVirt_eq hf.2
  generalize physToVirt f = v at hpools hchain hv ⊢
  obtain ⟨hheader, hnext, hprev, -, -⟩ := id hchain
  rw [if_pos rfl] at hnext
  have hrun := findBlock_fresh hchain (by omega) (by omega)
  have hdivide := divide_eq (n := 4032) (l := 4072) hheader (by norm_num) (by norm_num)
    ⟨by omega, by omega⟩ (Or.inl hnext)
  rw [hnext] at hdivide
  obtain ⟨-, hcut⟩ := allocate_found (l := 4072) hrun (by omega) ⟨by omega, by omega⟩ hheader
    (by norm_num) (by norm_num)
  rw [alignUp_cramped] at hcut
  have hallocate := hcut _ (by norm_num) hdivide
  -- the memory afterwards, store by store
  obtain ⟨r, hr⟩ : ∃ r, (divided h.ram (v + 24) 4032 4072 0).put (v + 24)
      ((divided h.ram (v + 24) 4032 4072 0).word (v + 24) ||| blockUsed) = r := ⟨_, rfl⟩
  rw [hr] at hallocate
  rw [divided, if_pos rfl] at hr
  simp (disch := omega) only [Ram.word_put_self, Ram.word_put_of_disjoint] at hr
  rw [show 4032 + 32 ||| blockUsed = blockHeader 4064 true from
    blockHeader_or (l := 4064) (by norm_num)] at hr
  have hmark : blockHeader 4064 true < 2 ^ 64 := by
    rw [blockHeader, if_pos rfl]
    norm_num
  have hfirst : r.word (v + 24) = blockHeader 4064 true := by
    rw [← hr, Ram.word_put_self hmark]
  have hsecond : r.word (v + 24 + 8) = v + 24 + 4032 + 32 := by
    rw [← hr]
    simp (disch := omega) only [Ram.word_put_self, Ram.word_put_of_disjoint]
  have hstores : (v + 4096, 8) ∈ r.stores := by
    rw [← hr]
    simp [Ram.put_stores]
  have haddr : wrap (v + 24 + 24) ≠ 0 := by
    rw [wrap_of_lt (by omega)]
    omega
  refine ⟨wrap (v + 24 + 24), { h with ram := r }, ?_, haddr, hpools, hstores, fun ps hps => ?_⟩
  · have hloop : kmallocLoop 4032 1 h.pools { h with interrupts := false } =
        .ok (some (wrap (v + 24 + 24)), { h with interrupts := false, ram := r }) := by
      rw [hpools]
      exact kmallocLoop_found hallocate haddr
    exact kmalloc_some hloop
  · -- the heap is the one page, and its second block does not fit into it
    obtain ⟨p, post, rfl, hp₁⟩ := hps.head
    have hbase : p.base = v := hp₁.symm.trans hpools
    have hlaid := hps.laid p List.mem_cons_self
    have hchain' := hlaid.chain
    rw [hbase] at hchain'
    refine hlaid.nonempty (chain_cramped hchain' hfirst ?_)
    rw [hsecond]
    omega

end cramped

/-- The store behind the page happens: the heap owns the bytes from `v` to `v + 4096` and nothing
else. -/
theorem oneFrame_not_confined : ∃ h h' addr, initPool oneFrame = .ok (true, h) ∧
    kmalloc 1 4032 h = .ok (addr, h') ∧ addr ≠ 0 ∧ poolNext h.ram h.pools = none ∧
    (h.pools + 4096, 8) ∈ h'.ram.stores ∧ ∀ ps, ¬ Pools h' ps := by
  obtain ⟨h, hf, hinit, -, hp⟩ := oneFrame_init
  obtain ⟨addr, h', hrun, haddr, -, hstore, hnot⟩ := kmalloc_cramped hp (by norm_num)
  have hpools : h.pools = physToVirt 0x1000 := Option.some.inj hp.links.1
  refine ⟨h, h', addr, hinit, hrun, haddr, ?_, ?_, hnot⟩
  · rw [hpools]
    exact hp.links.2
  · rw [hpools]
    exact hstore

end Fynaos
