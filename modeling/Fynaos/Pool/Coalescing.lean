import Fynaos.Pool.Grow
import Fynaos.Pool.Release
import Mathlib.Data.List.Chain
import Mathlib.Logic.Relation

/-!
# Free blocks of a pool coalesce

The runs of one pool: `allocate` from its first block and `release` of its used blocks, in any order.
`poolBlocks` reads the chain from memory. `Joined` is what every state of a run looks like: no two
neighbours are free, the links agree, the lengths add up. Between two states one block is taken
(`Taken`) or returned (`Returned`), and a pool without used blocks is one free block
(`pool_coalesces`).

The invariant is `Separated` of the ghost chain. Two merges are enough because the neighbours of a
used block's free neighbours are used.
-/

namespace Fynaos

/-! ### The blocks in memory -/

structure PoolBlock where
  addr : ℕ
  len : ℕ
  used : Bool
  deriving DecidableEq

def Ram.blocks (r : Ram) : ℕ → ℕ → List PoolBlock
  | 0, _ => []
  | fuel + 1, a =>
    if a = 0 then []
    else ⟨a, getBlockLen (r.word a), isBlockUsed (r.word a)⟩ :: r.blocks fuel (r.word (a + 8))

def poolBlocks (r : Ram) (pool : ℕ) : List PoolBlock := r.blocks pageSize (pool + sizeofPool)

/-- The blocks of a chain, placed one behind the other. -/
def placed : ℕ → List (ℕ × Bool) → List PoolBlock
  | _, [] => []
  | a, b :: bs => ⟨a, b.1, b.2⟩ :: placed (a + b.1) bs

/-- What holds of a pool in every state of a run. -/
structure Joined (r : Ram) (pool : ℕ) : Prop where
  separated : (poolBlocks r pool).IsChain fun b c => b.used = true ∨ c.used = true
  adjoining : (poolBlocks r pool).IsChain fun b c => b.addr + b.len = c.addr
  next : ∀ b ∈ poolBlocks r pool, r.word (b.addr + 8) = 0 ∨
    ∃ c ∈ poolBlocks r pool, r.word (b.addr + 8) = c.addr ∧ r.word (c.addr + 16) = b.addr
  prev : ∀ b ∈ poolBlocks r pool, r.word (b.addr + 16) = 0 ∨
    ∃ c ∈ poolBlocks r pool, r.word (b.addr + 16) = c.addr ∧ r.word (c.addr + 8) = b.addr
  total : ((poolBlocks r pool).map PoolBlock.len).sum = pageSize - sizeofPool

/-- One free block is used now, whole or cut in two; `addr` is its data. -/
def Taken (before : List PoolBlock) (addr : ℕ) (after : List PoolBlock) : Prop :=
  ∃ pre b post, before = pre ++ b :: post ∧ b.used = false ∧ addr = b.addr + dataOffset ∧
    (after = pre ++ ⟨b.addr, b.len, true⟩ :: post ∨
      ∃ len, len + sizeofBlock ≤ b.len ∧
        after = pre ++ ⟨b.addr, len, true⟩ :: ⟨b.addr + len, b.len - len, false⟩ :: post)

/-- The block `b` is free now, in one with its free neighbours. -/
def Returned (before : List PoolBlock) (b : PoolBlock) (after : List PoolBlock) : Prop :=
  ∃ pre left right post, before = pre ++ left ++ b :: (right ++ post) ∧ left.length ≤ 1 ∧
    right.length ≤ 1 ∧ (∀ c ∈ left ++ right, c.used = false) ∧
    after = pre ++ ⟨(left.headD b).addr,
      (left.map PoolBlock.len).sum + b.len + (right.map PoolBlock.len).sum, false⟩ :: post

/-- The block that `allocate` takes would be cut so that the rest is shorter than a block. -/
def Splinters (blocks : List PoolBlock) (len : ℕ) : Prop :=
  ∃ b, blocks.find? (fun b => !b.used && decide (wrap (alignUp len 16 + sizeofBlock) ≤ b.len)) =
    some b ∧ Tight (alignUp len 16) b.len

/-- One call on the pool. -/
inductive PoolStep (pool : ℕ) : Ram → Ram → Prop where
  | allocate {r r' : Ram} {len addr : ℕ} (hlen : ¬ Splinters (poolBlocks r pool) len)
      (h : allocate (pool + sizeofPool) len r = .ok (addr, r')) : PoolStep pool r r'
  | release {r r' : Ram} {b : PoolBlock} (hb : b ∈ poolBlocks r pool) (hused : b.used = true)
      (h : release b.addr r = .ok r') : PoolStep pool r r'

section placed
variable {r : Ram} {a prev stop : ℕ} {bs pre post : List (ℕ × Bool)} {b : PoolBlock}

theorem placed_append (a : ℕ) (pre post : List (ℕ × Bool)) :
    placed a (pre ++ post) = placed a pre ++ placed (a + totalLen pre) post := by
  induction pre generalizing a with
  | nil => rfl
  | cons b pre ih => rw [List.cons_append, placed, placed, ih, totalLen_cons, Nat.add_assoc,
      List.cons_append]

theorem placed_length (a : ℕ) (bs : List (ℕ × Bool)) : (placed a bs).length = bs.length := by
  induction bs generalizing a with
  | nil => rfl
  | cons b bs ih => rw [placed, List.length_cons, ih, List.length_cons]

theorem placed_lens (a : ℕ) (bs : List (ℕ × Bool)) :
    ((placed a bs).map PoolBlock.len).sum = totalLen bs := by
  induction bs generalizing a with
  | nil => rfl
  | cons b bs ih => rw [placed, List.map_cons, List.sum_cons, ih, totalLen_cons]

theorem mem_placed (h : b ∈ placed a bs) :
    ∃ pre post, bs = pre ++ (b.len, b.used) :: post ∧ b.addr = a + totalLen pre := by
  induction bs generalizing a with
  | nil => exact absurd h List.not_mem_nil
  | cons c bs ih =>
    rcases List.mem_cons.mp h with rfl | h
    · exact ⟨[], bs, rfl, rfl⟩
    · obtain ⟨pre, post, rfl, haddr⟩ := ih h
      exact ⟨c :: pre, post, rfl, by rw [haddr, totalLen_cons, Nat.add_assoc]⟩

theorem mem_of_mem_placed (h : b ∈ placed a bs) : (b.len, b.used) ∈ bs := by
  obtain ⟨pre, post, rfl, -⟩ := mem_placed h
  exact List.mem_append_right _ List.mem_cons_self

theorem placed_adjoining (a : ℕ) (bs : List (ℕ × Bool)) :
    (placed a bs).IsChain fun b c => b.addr + b.len = c.addr := by
  induction bs generalizing a with
  | nil => exact List.isChain_nil
  | cons b bs ih =>
    refine List.isChain_cons.mpr ⟨fun c hc => ?_, ih _⟩
    cases bs with
    | nil => cases hc
    | cons d bs =>
      cases hc
      rfl

theorem placed_separated (h : bs.IsChain fun b c => b.2 = true ∨ c.2 = true) (a : ℕ) :
    (placed a bs).IsChain fun b c => b.used = true ∨ c.used = true := by
  induction bs generalizing a with
  | nil => exact List.isChain_nil
  | cons b bs ih =>
    obtain ⟨hhead, htail⟩ := List.isChain_cons.mp h
    refine List.isChain_cons.mpr ⟨fun c hc => ?_, ih htail _⟩
    cases bs with
    | nil => cases hc
    | cons d bs =>
      cases hc
      exact hhead d rfl

theorem Chain.blocks_eq {fuel : ℕ} (h : Chain r a prev bs stop) (hne : bs ≠ [])
    (ha : kernelDirectBase ≤ a) (hstop : stop ≤ 2 ^ 64) (hfuel : bs.length ≤ fuel) :
    r.blocks fuel a = placed a bs := by
  have hbase : kernelDirectBase = 2 ^ 64 - 2 ^ 47 := rfl
  induction bs generalizing a prev fuel with
  | nil => exact absurd rfl hne
  | cons b bs ih =>
    obtain ⟨l, u⟩ := b
    obtain ⟨fuel, rfl⟩ : ∃ k, fuel = k + 1 := ⟨fuel - 1, by simp at hfuel; omega⟩
    obtain ⟨hheader, hnext, -, hlen, hrest⟩ := h
    have hsum := hrest.stop_eq
    rw [Ram.blocks, if_neg (by omega), hheader, hnext, getBlockLen_blockHeader (by omega),
      isBlockUsed_blockHeader (by omega), placed]
    refine congrArg (List.cons _) ?_
    by_cases hbs : bs = []
    · subst hbs
      rw [if_pos rfl]
      cases fuel with
      | zero => rfl
      | succ fuel => rw [Ram.blocks, if_pos rfl, placed]
    · rw [if_neg hbs]
      exact ih hrest hbs (by omega) (by simpa using hfuel)

theorem Chain.next_prev (h : Chain r a prev bs stop) : ∀ b ∈ placed a bs,
    r.word (b.addr + 8) = 0 ∨
      ∃ c ∈ placed a bs, r.word (b.addr + 8) = c.addr ∧ r.word (c.addr + 16) = b.addr := by
  induction bs generalizing a prev with
  | nil => exact fun b hb => absurd hb List.not_mem_nil
  | cons d bs ih =>
    obtain ⟨-, hnext, -, -, hrest⟩ := h
    intro b hb
    rcases List.mem_cons.mp hb with rfl | hb
    · cases bs with
      | nil => exact Or.inl hnext
      | cons e bs =>
        obtain ⟨-, -, hprev, -, -⟩ := hrest
        refine Or.inr ⟨⟨a + d.1, e.1, e.2⟩, List.mem_cons_of_mem _ List.mem_cons_self, ?_, hprev⟩
        exact hnext
    · rcases ih hrest b hb with hzero | ⟨c, hc, h1, h2⟩
      · exact Or.inl hzero
      · exact Or.inr ⟨c, List.mem_cons_of_mem _ hc, h1, h2⟩

theorem Chain.prev_next (h : Chain r a prev bs stop) : ∀ b ∈ placed a bs,
    (b.addr = a ∧ r.word (b.addr + 16) = prev) ∨
      ∃ c ∈ placed a bs, r.word (b.addr + 16) = c.addr ∧ r.word (c.addr + 8) = b.addr := by
  induction bs generalizing a prev with
  | nil => exact fun b hb => absurd hb List.not_mem_nil
  | cons d bs ih =>
    obtain ⟨-, hnext, hprev, -, hrest⟩ := h
    intro b hb
    rcases List.mem_cons.mp hb with rfl | hb
    · exact Or.inl ⟨rfl, hprev⟩
    · have hne : bs ≠ [] := fun heq => by
        subst heq
        exact List.not_mem_nil hb
      rw [if_neg hne] at hnext
      rcases ih hrest b hb with ⟨h1, h2⟩ | ⟨c, hc, h1, h2⟩
      · exact Or.inr ⟨⟨a, d.1, d.2⟩, List.mem_cons_self, h2, by rw [h1]; exact hnext⟩
      · exact Or.inr ⟨c, List.mem_cons_of_mem _ hc, h1, h2⟩

end placed

/-! ### The invariant -/

/-- No two neighbours are free. -/
def Separated (bs : List (ℕ × Bool)) : Prop := bs.IsChain fun b c => b.2 = true ∨ c.2 = true

/-- The pool holds the blocks `bs`, and no two neighbours are free. -/
structure Holds (r : Ram) (pool : ℕ) (bs : List (ℕ × Bool)) : Prop where
  ne_nil : bs ≠ []
  chain : Chain r (pool + sizeofPool) 0 bs (pool + pageSize)
  separated : Separated bs

section separated
variable {l m n : ℕ} {bs pre post : List (ℕ × Bool)}

theorem Separated.replace (mid : List (ℕ × Bool)) (hpre : Separated pre) (hpost : Separated post)
    (hmid : Separated mid) (hleft : ∀ b ∈ pre.getLast?, ∀ c ∈ mid.head?, b.2 = true ∨ c.2 = true)
    (hright : ∀ b ∈ mid.getLast?, ∀ c ∈ post.head?, b.2 = true ∨ c.2 = true) (hne : mid ≠ []) :
    Separated (pre ++ mid ++ post) := by
  rw [Separated, List.append_assoc, List.isChain_append, List.isChain_append]
  refine ⟨hpre, ⟨hmid, hpost, hright⟩, fun b hb c hc => hleft b hb c ?_⟩
  rwa [List.head?_append_of_ne_nil _ hne] at hc

theorem Separated.carve (h : Separated (pre ++ (l, false) :: post)) (n : ℕ) :
    Separated (pre ++ carve n l ++ post) := by
  obtain ⟨hpre, htail, hleft⟩ := List.isChain_append.mp h
  obtain ⟨hright, hpost⟩ := List.isChain_cons.mp htail
  have hused : ∀ b ∈ pre.getLast?, b.2 = true := fun b hb =>
    (hleft b hb (l, false) rfl).resolve_right Bool.false_ne_true
  have hused' : ∀ c ∈ post.head?, c.2 = true := fun c hc =>
    (hright c hc).resolve_left Bool.false_ne_true
  refine Separated.replace _ hpre hpost ?_ (fun b hb _ _ => Or.inl (hused b hb))
    (fun _ _ c hc => Or.inr (hused' c hc)) ?_
  · unfold Fynaos.carve
    split_ifs
    · exact List.isChain_pair.mpr (Or.inl rfl)
    · exact List.isChain_singleton _
  · unfold Fynaos.carve
    split_ifs <;> exact List.cons_ne_nil _ _

theorem Separated.freed (h : Separated (pre ++ (l, true) :: post)) (hfreed : Freed pre l post bs) :
    Separated bs := by
  obtain ⟨pre, left, right, post, rfl, rfl, hleft, hright, hfree, hleftEnd, hrightEnd, rfl⟩ := hfreed
  obtain ⟨hpre, htail, -⟩ := List.isChain_append.mp h
  obtain ⟨-, hpost⟩ := List.isChain_cons.mp htail
  obtain ⟨hpre, -, hpreEnd⟩ := List.isChain_append.mp hpre
  obtain ⟨-, hpost, hpostEnd⟩ := List.isChain_append.mp hpost
  -- beyond a free neighbour, or in its place, there is a used block
  have hused : ∀ b ∈ pre.getLast?, b.2 = true := fun b hb => by
    cases left with
    | nil => exact hleftEnd rfl b hb
    | cons c left =>
      have hc := hfree c (List.mem_append_left _ List.mem_cons_self)
      exact (hpreEnd b hb c rfl).resolve_right (by rw [hc]; exact Bool.false_ne_true)
  have hused' : ∀ c ∈ post.head?, c.2 = true := fun c hc => by
    rcases List.eq_nil_or_concat right with rfl | ⟨right, b, rfl⟩
    · exact hrightEnd rfl c hc
    · have hb := hfree b (by simp)
      exact (hpostEnd b (by simp) c hc).resolve_left (by rw [hb]; exact Bool.false_ne_true)
  have := Separated.replace [(totalLen left + l + totalLen right, false)] hpre hpost
    (List.isChain_singleton _) (fun b hb _ _ => Or.inl (hused b hb))
    (fun _ _ c hc => Or.inr (hused' c hc)) (List.cons_ne_nil _ _)
  rwa [List.append_assoc, List.singleton_append] at this

theorem Separated.single (h : Separated bs) (hne : bs ≠ []) (hfree : ∀ b ∈ bs, b.2 = false) :
    ∃ l, bs = [(l, false)] := by
  cases bs with
  | nil => exact absurd rfl hne
  | cons b bs =>
    have hb := hfree b List.mem_cons_self
    cases bs with
    | nil => exact ⟨b.1, by rw [← hb]⟩
    | cons c bs =>
      have hc := hfree c (List.mem_cons_of_mem _ List.mem_cons_self)
      obtain ⟨hbc, -⟩ := List.isChain_cons_cons.mp h
      rw [hb, hc] at hbc
      exact absurd hbc (by decide)

end separated

section holds
variable {r r' : Ram} {pool len addr : ℕ} {bs : List (ℕ × Bool)} {b : PoolBlock}

theorem Holds.bounds (h : Holds r pool bs) (hpool : Direct pool pageSize) :
    kernelDirectBase ≤ pool + sizeofPool ∧ pool + pageSize ≤ 2 ^ 64 ∧ bs.length ≤ pageSize := by
  have hcount := h.chain.length_le
  obtain ⟨h1, h2⟩ := hpool
  simp only [sizeofPool, pageSize] at hcount h2 ⊢
  exact ⟨by omega, h2, by omega⟩

theorem Holds.blocks (h : Holds r pool bs) (hpool : Direct pool pageSize) :
    poolBlocks r pool = placed (pool + sizeofPool) bs := by
  obtain ⟨h1, h2, h3⟩ := h.bounds hpool
  exact h.chain.blocks_eq h.ne_nil h1 h2 h3

theorem Holds.total (h : Holds r pool bs) : totalLen bs = pageSize - sizeofPool := by
  have hstop := h.chain.stop_eq
  simp only [sizeofPool, pageSize] at hstop ⊢
  omega

theorem Holds.joined (h : Holds r pool bs) (hpool : Direct pool pageSize) : Joined r pool := by
  have hblocks := h.blocks hpool
  refine ⟨?_, ?_, ?_, ?_, ?_⟩
  · rw [hblocks]
    exact placed_separated h.separated _
  · rw [hblocks]
    exact placed_adjoining _ _
  · rw [hblocks]
    exact h.chain.next_prev
  · rw [hblocks]
    intro b hb
    rcases h.chain.prev_next b hb with ⟨-, hzero⟩ | hprev
    · exact Or.inl hzero
    · exact Or.inr hprev
  · rw [hblocks, placed_lens]
    exact h.total

theorem Holds.allocate (h : Holds r pool bs) (hpool : Direct pool pageSize)
    (hlen : ¬ Splinters (poolBlocks r pool) len) :
    ∃ addr r' bs', Fynaos.allocate (pool + sizeofPool) len r = .ok (addr, r') ∧
      Holds r' pool bs' ∧
      (addr = 0 ∧ r' = r ∨ Taken (poolBlocks r pool) addr (poolBlocks r' pool)) := by
  have hblocks := h.blocks hpool
  obtain ⟨h1, h2, -⟩ := h.bounds hpool
  rcases allocate_spec len h.chain h.ne_nil h1 h2 (by simp only [sizeofPool, pageSize]; omega) with
    ⟨hrun, -⟩ | ⟨pre, l, post, r', rfl, hpre, hneed, hrun, hedit⟩
  · exact ⟨0, r, bs, hrun, h, Or.inl ⟨rfl, rfl⟩⟩
  have hnot : ¬ Tight (alignUp len 16) l := by
    intro htight
    refine hlen ⟨⟨pool + sizeofPool + totalLen pre, l, false⟩, ?_, htight⟩
    rw [hblocks, placed_append, List.find?_append, List.find?_eq_none.mpr, placed, List.find?_cons]
    · simp only [sizeofBlock, hneed, Bool.not_false, decide_true, Bool.and_self, Option.none_or]
    · intro b hb htest
      rw [Bool.and_eq_true, Bool.not_eq_true', decide_eq_true_eq] at htest
      exact hpre _ (mem_of_mem_placed hb) htest
  obtain ⟨hchain, -⟩ := hedit hnot
  have h' : Holds r' pool (pre ++ carve (alignUp len 16) l ++ post) := by
    refine ⟨?_, hchain, h.separated.carve _⟩
    obtain ⟨k, rest, heq, -⟩ := carve_spec (alignUp len 16) l
    rw [heq]
    simp
  refine ⟨_, r', _, hrun, h', Or.inr ⟨placed (pool + sizeofPool) pre,
    ⟨pool + sizeofPool + totalLen pre, l, false⟩,
    placed (pool + sizeofPool + totalLen pre + l) post, ?_, rfl, rfl, ?_⟩⟩
  · rw [hblocks, placed_append, placed]
  · rw [h'.blocks hpool, List.append_assoc, placed_append]
    unfold carve
    split_ifs with hcut
    · refine Or.inr ⟨alignUp len 16 + 32, ?_, ?_⟩
      · simp only [Tight, not_and, not_lt] at hnot
        have := hnot hcut
        simp only [sizeofBlock]
        omega
      · rw [List.cons_append, List.cons_append, List.nil_append, placed, placed]
        dsimp only
        rw [Nat.add_assoc _ (alignUp len 16 + 32), Nat.add_sub_cancel' (le_of_lt hcut)]
    · exact Or.inl rfl

theorem Holds.release (h : Holds r pool bs) (hpool : Direct pool pageSize)
    (hb : b ∈ poolBlocks r pool) (hused : b.used = true) :
    ∃ r' bs', Fynaos.release b.addr r = .ok r' ∧ Holds r' pool bs' ∧
      Returned (poolBlocks r pool) b (poolBlocks r' pool) := by
  have hblocks := h.blocks hpool
  obtain ⟨h1, h2, -⟩ := h.bounds hpool
  obtain ⟨addr, l, used⟩ := b
  simp only at hused
  subst hused
  rw [hblocks] at hb
  obtain ⟨pre, post, rfl, haddr⟩ := mem_placed hb
  simp only at haddr
  subst haddr
  obtain ⟨r', bs', hrun, hfreed, hchain⟩ := release_spec h.chain h1 h2
  have hsep := h.separated.freed hfreed
  obtain ⟨pre, left, right, post, rfl, rfl, hleft, hright, hfree, -, -, rfl⟩ := hfreed
  have h' : Holds r' pool (pre ++ (totalLen left + l + totalLen right, false) :: post) :=
    ⟨by simp, hchain, hsep⟩
  refine ⟨r', _, hrun, h', placed (pool + sizeofPool) pre,
    placed (pool + sizeofPool + totalLen pre) left,
    placed (pool + sizeofPool + totalLen pre + totalLen left + l) right,
    placed (pool + sizeofPool + totalLen pre + totalLen left + l + totalLen right) post,
    ?_, ?_, ?_, fun c hc => ?_, ?_⟩
  · rw [hblocks, placed_append, placed_append, placed, placed_append, totalLen_append,
      ← Nat.add_assoc]
  · rwa [placed_length]
  · rwa [placed_length]
  · rcases List.mem_append.mp hc with hc | hc
    · exact hfree _ (List.mem_append_left _ (mem_of_mem_placed hc))
    · exact hfree _ (List.mem_append_right _ (mem_of_mem_placed hc))
  · rw [h'.blocks hpool, placed_append, placed, placed_lens, placed_lens]
    have hhead : ((placed (pool + sizeofPool + totalLen pre) left).headD
        ⟨pool + sizeofPool + totalLen (pre ++ left), l, true⟩).addr =
        pool + sizeofPool + totalLen pre := by
      cases left with
      | nil => rw [List.append_nil]; rfl
      | cons c left => rfl
    rw [hhead]
    dsimp only
    rw [← Nat.add_assoc, ← Nat.add_assoc]

theorem PoolStep.holds (hstep : PoolStep pool r r') (hpool : Direct pool pageSize)
    (h : Holds r pool bs) : ∃ bs', Holds r' pool bs' := by
  cases hstep with
  | allocate hlen hrun =>
    obtain ⟨addr', r₁, bs', hrun', h', -⟩ := h.allocate hpool hlen
    rw [hrun'] at hrun
    cases hrun
    exact ⟨bs', h'⟩
  | release hb hused hrun =>
    obtain ⟨r₁, bs', hrun', h', -⟩ := h.release hpool hb hused
    rw [hrun'] at hrun
    cases hrun
    exact ⟨bs', h'⟩

theorem Holds.run (h : Holds r pool bs) (hpool : Direct pool pageSize)
    (hrun : Relation.ReflTransGen (PoolStep pool) r r') : ∃ bs', Holds r' pool bs' := by
  induction hrun with
  | refl => exact ⟨bs, h⟩
  | tail _ hstep ih =>
    obtain ⟨bs', h'⟩ := ih
    exact hstep.holds hpool h'

end holds

/-- In every state of a run on one pool no two neighbours are free, the links and lengths agree,
`allocate` and `release` return and change one block only, and without used blocks there is one
free block. -/
theorem pool_coalesces {pool : ℕ} (hpool : Direct pool pageSize) (r₀ : Ram) :
    ∃ r₁, initSinglePool pool pageSize r₀ = .ok r₁ ∧
      ∀ r, Relation.ReflTransGen (PoolStep pool) r₁ r → Joined r pool ∧
        (∀ len, ¬ Splinters (poolBlocks r pool) len → ∃ addr r',
          allocate (pool + sizeofPool) len r = .ok (addr, r') ∧
            (addr = 0 ∧ r' = r ∨ Taken (poolBlocks r pool) addr (poolBlocks r' pool))) ∧
        (∀ b ∈ poolBlocks r pool, b.used = true → ∃ r', release b.addr r = .ok r' ∧
          Returned (poolBlocks r pool) b (poolBlocks r' pool)) ∧
        ((∀ b ∈ poolBlocks r pool, b.used = false) →
          poolBlocks r pool = [⟨pool + sizeofPool, pageSize - sizeofPool, false⟩]) := by
  obtain ⟨r₁, hinit, -, -, -, hchain, -⟩ := initSinglePool_spec (r := r₀) hpool
  have hstart : Holds r₁ pool [(4072, false)] :=
    ⟨List.cons_ne_nil _ _, hchain, List.isChain_singleton _⟩
  refine ⟨r₁, hinit, fun r hr => ?_⟩
  obtain ⟨bs, h⟩ := hstart.run hpool hr
  refine ⟨h.joined hpool, fun len hlen => ?_, fun b hb hused => ?_, fun hfree => ?_⟩
  · obtain ⟨addr, r', -, hrun, -, hcases⟩ := h.allocate hpool hlen
    exact ⟨addr, r', hrun, hcases⟩
  · obtain ⟨r', -, hrun, -, hreturned⟩ := h.release hpool hb hused
    exact ⟨r', hrun, hreturned⟩
  · have hblocks := h.blocks hpool
    have hunused : ∀ b ∈ bs, b.2 = false := fun b hb => by
      obtain ⟨pre, post, rfl⟩ := List.append_of_mem hb
      refine hfree ⟨pool + sizeofPool + totalLen pre, b.1, b.2⟩ ?_
      rw [hblocks, placed_append, placed]
      exact List.mem_append_right _ List.mem_cons_self
    obtain ⟨l, rfl⟩ := h.separated.single h.ne_nil hunused
    have htotal := h.total
    rw [totalLen_cons, totalLen_nil, Nat.add_zero] at htotal
    dsimp only at htotal
    rw [hblocks, placed, placed, htotal]

/-- The second page of the direct map. -/
theorem pool_coalesces_page : ∃ r₁,
    initSinglePool (kernelDirectBase + 0x1000) pageSize ⟨fun _ => 0, []⟩ = .ok r₁ ∧
      ∀ r, Relation.ReflTransGen (PoolStep (kernelDirectBase + 0x1000)) r₁ r →
        Joined r (kernelDirectBase + 0x1000) ∧
          ((∀ b ∈ poolBlocks r (kernelDirectBase + 0x1000), b.used = false) →
            poolBlocks r (kernelDirectBase + 0x1000) =
              [⟨kernelDirectBase + 0x1000 + sizeofPool, pageSize - sizeofPool, false⟩]) := by
  have hdir : Direct (kernelDirectBase + 0x1000) pageSize :=
    ⟨Nat.le_add_right _ _, by simp only [kernelDirectBase, pageSize]; norm_num⟩
  obtain ⟨r₁, hinit, hall⟩ := pool_coalesces hdir ⟨fun _ => 0, []⟩
  refine ⟨r₁, hinit, fun r hr => ?_⟩
  obtain ⟨hjoined, -, -, hsingle⟩ := hall r hr
  exact ⟨hjoined, hsingle⟩

end Fynaos
