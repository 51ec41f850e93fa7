import Fynaos.Pool.Payload

/-!
# `kfree` after `kmalloc`

`kmalloc` returns the address of the member `data`, 24 bytes behind the block. `kfree` goes back by
`sizeof(struct block)`, which is 32 because of the padding. So it never finds the block that `kmalloc`
marked, and in an intact heap it always ends in a panic or a fault.
-/

namespace Fynaos

/-- Neighbouring free blocks counted as one. -/
def coalesce : List (ℕ × Bool) → List (ℕ × Bool)
  | [] => []
  | (l, true) :: bs => (l, true) :: coalesce bs
  | (l, false) :: bs =>
    match coalesce bs with
    | (k, false) :: bs' => (l + k, false) :: bs'
    | bs' => (l, false) :: bs'

/-- The same pages with the same blocks, up to coalescing. -/
def SamePools : List PoolPage → List PoolPage → Prop :=
  List.Forall₂ fun p q => p.base = q.base ∧ coalesce p.blocks = coalesce q.blocks

def Heap.marked (h : Heap) : Option ℕ := h.ram.stores.head?.map Prod.fst

/-- `kfree addr` undoes the `kmalloc` that led from `h` to `h'` and returned `addr`. -/
structure Undone (h h' : Heap) (addr : ℕ) : Prop where
  header : h'.marked = some (wrapSub addr sizeofBlock)
  restored : ∃ h'', kfree addr h' = .ok h'' ∧
    ∀ ps, Pools h ps → ∃ ps', Pools h'' ps' ∧ SamePools ps ps'

section undo
variable {h h' : Heap} {r r' : Ram} {ps : List PoolPage} {a fuel len addr pool : ℕ}

theorem allocate_marks (hrun : allocate a len r = .ok (addr, r')) (haddr : addr ≠ 0) :
    ∃ first, addr = wrap (first + 24) ∧ r'.stores.head? = some (wrap first, 8) := by
  obtain ⟨r₁, first, header, heq, -, rfl⟩ := allocate_last hrun haddr
  exact ⟨first, heq, rfl⟩

theorem kmallocLoop_marks (hrun : kmallocLoop len fuel pool h = .ok (some addr, h')) :
    ∃ first, addr = wrap (first + 24) ∧ h'.marked = some (wrap first) := by
  induction fuel generalizing pool h with
  | zero =>
    rw [kmallocLoop] at hrun
    cases hrun
  | succ fuel ih =>
    rw [kmallocLoop] at hrun
    obtain ⟨⟨addr', r⟩, hallocate, hrun⟩ := bind_eq_ok.mp hrun
    dsimp only at hrun
    split_ifs at hrun with haddr
    · cases hrun
      obtain ⟨first, heq, hhead⟩ := allocate_marks hallocate haddr
      exact ⟨first, heq, by rw [Heap.marked, hhead]; rfl⟩
    obtain ⟨next, -, hrun⟩ := bind_eq_ok.mp hrun
    split_ifs at hrun
    · obtain ⟨⟨extended, h₁⟩, -, hrun⟩ := bind_eq_ok.mp hrun
      dsimp only at hrun
      split_ifs at hrun
      · obtain ⟨next, -, hrun⟩ := bind_eq_ok.mp hrun
        exact ih hrun
      · cases hrun
    · exact ih hrun

/-- The address that `kmalloc` returns is 24 bytes behind the block it marked. -/
theorem kmalloc_marks (hrun : kmalloc fuel len h = .ok (addr, h')) (haddr : addr ≠ 0) :
    ∃ first, addr = wrap (first + 24) ∧ h'.marked = some (wrap first) := by
  rw [kmalloc] at hrun
  dsimp only at hrun
  obtain ⟨⟨res, h₁⟩, hloop, hrun⟩ := bind_eq_ok.mp hrun
  cases res with
  | none =>
    cases hrun
    exact absurd rfl haddr
  | some addr' =>
    have hmarks := kmallocLoop_marks hloop
    cases hrun
    exact hmarks

/-- `kfree` never undoes `kmalloc`, in whatever state the heap is. -/
theorem kfree_never_undoes (hrun : kmalloc fuel len h = .ok (addr, h')) (haddr : addr ≠ 0) :
    ¬ Undone h h' addr := by
  intro hundone
  obtain ⟨first, rfl, hmarked⟩ := kmalloc_marks hrun haddr
  have heq := Option.some.inj (hmarked.symm.trans hundone.header)
  unfold wrapSub wrap sizeofBlock at heq
  omega

theorem Chain.used_header {prev stop x l : ℕ} {bs : List (ℕ × Bool)} (hc : Chain r a prev bs stop)
    (hx : (x, l) ∈ usedBlocks a bs) : r.word x = blockHeader l true := by
  induction bs generalizing a prev with
  | nil => exact absurd hx List.not_mem_nil
  | cons b bs ih =>
    obtain ⟨k, _ | _⟩ := b
    · exact ih hc.2.2.2.2 hx
    · rcases List.mem_cons.mp hx with heq | hx
      · obtain ⟨rfl, rfl⟩ := Prod.mk.inj heq
        exact hc.1
      · exact ih hc.2.2.2.2 hx

/-- In an intact heap `kfree` does not even return. The word in front of the block is not marked used,
or the header itself is followed as a link, and no address looks like it. -/
theorem kfree_handed (hp : Pools h ps) (hhanded : Handed ps addr len) :
    kfree addr h = .error (.panic "Double free detected") ∨
      ∃ address, kfree addr h = .error (.fault address) := by
  obtain ⟨⟨x, l⟩, hused, rfl, -⟩ := hhanded
  obtain ⟨p, hmem, hx⟩ := List.mem_flatMap.mp hused
  have hchain := (hp.laid p hmem).chain
  have hstop := hchain.stop_eq
  have hbase : kernelDirectBase = 2 ^ 64 - 2 ^ 47 := rfl
  obtain ⟨hlow, hhigh⟩ := p.direct
  obtain ⟨h1, h2⟩ := usedBlocks_bounds hx
  obtain ⟨c, hc, rfl⟩ := exists_of_mem_spans (usedBlocks_subset_spans _ _ hx)
  have hlen := (hchain.len_le hc).1
  have hheader := hchain.used_header hx
  rw [blockHeader, if_pos rfl] at hheader
  dsimp only
  have hdir : Direct (x - 8) 8 := ⟨by omega, by omega⟩
  have hdir' : Direct (x - 8 + 8) 8 := ⟨by omega, by omega⟩
  have hblock : wrapSub (x + 24) sizeofBlock = x - 8 := by
    simp only [wrapSub, wrap, sizeofBlock]
    omega
  have hlink : ∀ v, (h.ram.put (x - 8) v).word (x - 8 + 8) = c.1 + 2 ^ 63 := fun v => by
    rw [Ram.word_put_of_disjoint (by omega), show x - 8 + 8 = x by omega, hheader]
  have hfault : ∀ r : Ram, r.load (c.1 + 2 ^ 63) = .error (.fault (c.1 + 2 ^ 63)) := fun r => by
    rw [Ram.load, wrap_of_lt (by omega), if_neg]
    rintro (h3 | h3) <;> omega
  rw [kfree, if_neg (by omega)]
  dsimp only
  rw [hblock, hdir.load, ok_bind]
  by_cases hmark : isBlockUsed (h.ram.word (x - 8)) = true
  · rw [if_neg (not_not.mpr hmark), hdir.store, ok_bind, hdir'.load, ok_bind, hlink,
      if_pos (by omega), hfault, error_bind]
    exact Or.inr ⟨_, rfl⟩
  · rw [if_pos hmark, error_bind]
    exact Or.inl rfl

end undo

theorem Pools.first_block {h : Heap} {f : ℕ} {hf : 4096 ∣ f ∧ f + 4096 ≤ 2 ^ 47}
    (hp : Pools h [freshPage f hf]) (hframes : h.frames = []) :
    ∃ fuel h' ps', kmalloc fuel 16 h = .ok ((freshPage f hf).base + 48, h') ∧ h'.frames = [] ∧
      Pools h' ps' ∧ h'.ram.word ((freshPage f hf).base + 16) = 0 := by
  obtain ⟨h₁, ps₁, res, h₂, -, ⟨taken, new, htaken, hlength, hps, -⟩, -, hres, b, hrun⟩ :=
    kmalloc_search 16 hp (le_refl _)
  have hlen : alignUp 16 16 = 16 := by
    rw [alignUp_sixteen, wrap_of_lt (by norm_num)]
  rw [hframes] at htaken
  obtain ⟨rfl, hframes₁⟩ := List.append_eq_nil_iff.mp htaken.symm
  obtain rfl := List.length_eq_zero_iff.mp hlength
  rw [List.append_nil] at hps
  rw [Searched, hlen, hps] at hres
  rcases hres with ⟨-, -, hnone⟩ | ⟨pre, q, post, bs, l, bs', r', heq, hblocks, -, -, hres, hstep⟩
  · refine absurd ⟨rfl, ?_⟩ (hnone (4072, false) (List.mem_singleton.mpr rfl))
    exact (Nat.mod_le _ _).trans (by norm_num)
  obtain ⟨rfl, rfl, rfl⟩ : pre = [] ∧ q = freshPage f hf ∧ post = [] := by
    cases pre with
    | nil =>
      obtain ⟨rfl, rfl⟩ := List.cons.inj heq
      exact ⟨rfl, rfl, rfl⟩
    | cons p pre => simp at heq
  obtain ⟨rfl, rfl⟩ : bs = [] ∧ l = 4072 := by
    cases bs with
    | nil => exact ⟨rfl, (Prod.mk.inj (List.cons.inj hblocks).1).1.symm⟩
    | cons c bs => simp [freshPage] at hblocks
  cases hres
  have hgrew := hstep fun htight => by
    have := htight.2
    omega
  have haddr : (freshPage f hf).base + 24 + totalLen [] + 24 = (freshPage f hf).base + 48 := by
    rw [totalLen_nil]
  rw [Option.getD_some, haddr] at hrun
  exact ⟨_, _, _, hrun, hframes₁, (hgrew.interrupts b).pools,
    (show Pools _ ([] ++ [_]) from hgrew.pools).next_last⟩

theorem kfree_never_undoes_oneFrame : ∃ h fuel addr h', initPool oneFrame = .ok (true, h) ∧
    kmalloc fuel 16 h = .ok (addr, h') ∧ addr ≠ 0 ∧ ¬ Undone h h' addr := by
  obtain ⟨h, hf, hinit, hframes, hp⟩ := oneFrame_init
  obtain ⟨fuel, h', -, hrun, -⟩ := hp.first_block hframes
  exact ⟨h, fuel, _, h', hinit, hrun, Nat.succ_ne_zero _,
    kfree_never_undoes hrun (Nat.succ_ne_zero _)⟩

/-- The first `kfree` of the first block is taken for a double free. -/
theorem oneFrame_kfree_panics : ∃ h fuel addr h', initPool oneFrame = .ok (true, h) ∧
    kmalloc fuel 16 h = .ok (addr, h') ∧ addr ≠ 0 ∧ h'.frames = h.frames ∧
    kfree addr h' = .error (.panic "Double free detected") ∧ ¬ Undone h h' addr := by
  obtain ⟨h, hf, hinit, hframes, hp⟩ := oneFrame_init
  obtain ⟨fuel, h', ps', hrun, hframes', hp', hlink⟩ := hp.first_block hframes
  have hdir := (freshPage 0x1000 hf).direct
  generalize (freshPage 0x1000 hf).base = v at hrun hlink hdir
  have hpanic : kfree (v + 48) h' = .error (.panic "Double free detected") := by
    have hblock : wrapSub (v + 48) sizeofBlock = v + 16 := by
      have := hdir.2
      simp only [wrapSub, wrap, sizeofBlock]
      omega
    have hload : h'.ram.load (v + 16) = .ok 0 := by
      rw [(hdir.sub (by omega) (by omega)).load, hlink]
    rw [kfree, if_neg (by omega)]
    dsimp only
    rw [hblock, hload, ok_bind, if_pos (by decide), error_bind]
  refine ⟨h, fuel, v + 48, h', hinit, hrun, by omega, hframes'.trans hframes.symm, hpanic, ?_⟩
  intro hundone
  obtain ⟨h'', hok, -⟩ := hundone.restored
  rw [hpanic] at hok
  cases hok

end Fynaos
