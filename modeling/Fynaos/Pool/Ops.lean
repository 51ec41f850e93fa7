import Fynaos.Pool.Chain

/-!
# What the heap functions do to a chain

`allocate` takes the first free block that is long enough (`Fits`). It cuts the block in two when
anything is left over and marks the front part used (`carve`). The rest gets a `struct block` of its
own, so the chain stays a chain unless the rest is shorter than that (`Tight`).
-/

namespace Fynaos

def Fits (need : ℕ) (b : ℕ × Bool) : Prop := b.2 = false ∧ need ≤ b.1

/-- The rest behind `n` bytes of data is too short for a `struct block`. -/
def Tight (n len : ℕ) : Prop := n + 32 < len ∧ len < n + 64

/-- The blocks that `allocate` makes of a free block of length `len`. -/
def carve (n len : ℕ) : List (ℕ × Bool) :=
  if n + 32 < len then [(n + 32, true), (len - (n + 32), false)] else [(len, true)]

/-- The bytes `allocate` may store to: the block itself and the back link of the one behind it. -/
def editBytes (a len : ℕ) (post : List (ℕ × Bool)) : Set ℕ :=
  {x | a ≤ x ∧ x < a + len ∨ post ≠ [] ∧ a + len + 16 ≤ x ∧ x < a + len + 24}

def divided (r : Ram) (block n len next : ℕ) : Ram :=
  let r := ((((r.put (block + n + 32) (len - (n + 32))).put block (n + 32)).put (block + 8)
    (block + n + 32)).put (block + n + 32 + 8) next).put (block + n + 32 + 16) block
  if next = 0 then r else r.put (next + 16) (block + n + 32)

section ops
variable {r : Ram} {a prev stop n l : ℕ} {u : Bool} {bs pre post : List (ℕ × Bool)}

/-! ### The search -/

theorem findBlock_spec (need : ℕ) {fuel : ℕ} (h : Chain r a prev bs stop) (hne : bs ≠ [])
    (ha : kernelDirectBase ≤ a) (hstop : stop ≤ 2 ^ 64) (hlen : stop ≤ a + 4096)
    (hfuel : bs.length ≤ fuel) :
    (findBlock r need fuel a = .ok 0 ∧ ∀ b ∈ bs, ¬ Fits need b) ∨
      ∃ pre len post, bs = pre ++ (len, false) :: post ∧ (∀ b ∈ pre, ¬ Fits need b) ∧
        need ≤ len ∧ findBlock r need fuel a = .ok (a + totalLen pre) := by
  induction bs generalizing a prev fuel with
  | nil => exact absurd rfl hne
  | cons b bs ih =>
    obtain ⟨len, used⟩ := b
    obtain ⟨fuel, rfl⟩ : ∃ k, fuel = k + 1 := ⟨fuel - 1, by simp at hfuel; omega⟩
    obtain ⟨hheader, hnext, -, hlen', hrest⟩ := h
    have hsum := hrest.stop_eq
    have ha0 : a ≠ 0 := by
      unfold kernelDirectBase at ha
      omega
    have hload : ∀ x, a ≤ x → x + 8 ≤ a + 32 → r.load x = .ok (r.word x) := fun x h1 h2 =>
      Direct.load ⟨by omega, by omega⟩
    rw [findBlock, if_neg ha0]
    simp only [bind, Except.bind, hload a (le_refl _) (by omega), hload (a + 8) (by omega) (by omega),
      hheader, hnext, isBlockUsed_blockHeader (show len < 2 ^ 63 by omega),
      getBlockLen_blockHeader (show len < 2 ^ 63 by omega)]
    by_cases hfits : ¬ used ∧ need ≤ len
    · obtain rfl : used = false := by simpa using hfits.1
      rw [if_pos hfits]
      exact Or.inr ⟨[], len, bs, rfl, by simp, hfits.2, rfl⟩
    rw [if_neg hfits]
    have hhead : ¬ Fits need (len, used) := fun hf =>
      hfits ⟨by rw [show used = false from hf.1]; exact Bool.false_ne_true, hf.2⟩
    by_cases hbs : bs = []
    · subst hbs
      rw [if_pos rfl]
      refine Or.inl ⟨?_, by simpa using hhead⟩
      cases fuel <;> rfl
    rw [if_neg hbs]
    rcases ih hrest hbs (by omega) (by omega) (by simpa using hfuel) with
      ⟨hrun, hnone⟩ | ⟨pre, len₁, post, rfl, hpre, hneed, hrun⟩
    · exact Or.inl ⟨hrun, List.forall_mem_cons.mpr ⟨hhead, hnone⟩⟩
    · refine Or.inr ⟨(len, used) :: pre, len₁, post, rfl, List.forall_mem_cons.mpr ⟨hhead, hpre⟩,
        hneed, ?_⟩
      rw [hrun, totalLen_cons, Nat.add_assoc]

/-! ### Splitting -/

theorem divide_eq (hheader : r.word a = l) (hl : l < 2 ^ 63) (hsplit : n + 32 < l)
    (ha : Direct a (n + 56)) (hnext : r.word (a + 8) = 0 ∨ Direct (r.word (a + 8) + 16) 8) :
    divide a n r = .ok (true, divided r a n l (r.word (a + 8))) := by
  obtain ⟨h1, h2⟩ := ha
  have hwrap : wrap (n + 32) = n + 32 := wrap_of_lt (by omega)
  have hblock2 : wrap (a + n + 32) = a + n + 32 := wrap_of_lt (by omega)
  have hrest : wrapSub l (n + 32) = l - (n + 32) := by
    unfold wrapSub wrap
    omega
  have hget : getBlockLen l = l := by
    rw [getBlockLen_eq, Nat.mod_eq_of_lt hl]
  have hload : ∀ {r : Ram} {x : ℕ}, a ≤ x → x + 8 ≤ a + n + 56 → r.load x = .ok (r.word x) :=
    fun h3 h4 => Direct.load ⟨by omega, by omega⟩
  have hstore : ∀ {r : Ram} {x v : ℕ}, a ≤ x → x + 8 ≤ a + n + 56 →
      r.store x v = .ok (r.put x v) := fun h3 h4 => Direct.store ⟨by omega, by omega⟩
  simp only [divide, sizeofBlock, bind, Except.bind, hload (le_refl a) (by omega), hheader, hget,
    hwrap, hblock2, hrest, if_neg (Nat.not_le_of_lt hsplit),
    hload (show a ≤ a + 8 by omega) (by omega),
    hstore (le_refl a) (by omega), hstore (show a ≤ a + 8 by omega) (by omega),
    hstore (show a ≤ a + n + 32 by omega) (by omega),
    hstore (show a ≤ a + n + 32 + 8 by omega) (by omega),
    hstore (show a ≤ a + n + 32 + 16 by omega) (by omega), divided]
  by_cases hzero : r.word (a + 8) = 0
  · rw [if_neg (not_not.mpr hzero), if_pos hzero]
    rfl
  · rw [if_pos hzero, if_neg hzero, (hnext.resolve_left hzero).store]
    rfl

/-- Splitting a block returns even when the rest sticks out behind the end of the direct map, where
addresses start again from zero. -/
theorem divide_returns (hheader : r.word a = l) (hl : l < 2 ^ 63) (hsplit : n + 32 < l)
    (ha : kernelDirectBase ≤ a) (hend : a + n + 32 ≤ 2 ^ 64)
    (hnext : r.word (a + 8) = 0 ∨ Direct (r.word (a + 8) + 16) 8) :
    ∃ r', divide a n r = .ok (true, r') ∧
      (r.word (a + 8) = 0 → Wrote r r' (Set.Ico a (a + n + 56) ∪ Set.Iio 24)) := by
  have hbase : kernelDirectBase = 2 ^ 64 - 2 ^ 47 := rfl
  have hwrap : wrap (n + 32) = n + 32 := wrap_of_lt (by omega)
  have hget : getBlockLen l = l := by
    rw [getBlockLen_eq, Nat.mod_eq_of_lt hl]
  have hdir : Direct a 8 := ⟨ha, by omega⟩
  have hdir' : Direct (a + 8) 8 := ⟨by omega, by omega⟩
  have hstore : ∀ (r : Ram) (x v : ℕ), wrap x < 2 ^ 47 ∨ 2 ^ 64 - 2 ^ 47 ≤ wrap x →
      r.store x v = .ok (r.put (wrap x) v) := fun r x v hx => if_pos hx
  have hblock2 : ∀ k ≤ 16, wrap (wrap (a + n + 32) + k) < 2 ^ 47 ∨
      2 ^ 64 - 2 ^ 47 ≤ wrap (wrap (a + n + 32) + k) := by
    intro k hk
    unfold wrap
    omega
  have hput : ∀ {r : Ram} {x v : ℕ}, (a ≤ x ∧ x + 8 ≤ a + n + 56) ∨ x + 8 ≤ 24 →
      Wrote r (r.put x v) (Set.Ico a (a + n + 56) ∪ Set.Iio 24) := by
    intro r x v hx
    refine Wrote.put _ _ fun y hy => ?_
    have h1 := hy.1
    have h2 := hy.2
    rcases hx with hx | hx
    · exact Or.inl ⟨by omega, by omega⟩
    · exact Or.inr (show y < 24 by omega)
  have hplace : ∀ k ≤ 16, (a ≤ wrap (wrap (a + n + 32) + k) ∧
      wrap (wrap (a + n + 32) + k) + 8 ≤ a + n + 56) ∨ wrap (wrap (a + n + 32) + k) + 8 ≤ 24 := by
    intro k hk
    unfold wrap
    omega
  have hwrote := (((hput (r := r) (v := l - (n + 32)) (hplace 0 (by omega))).trans
    (hput (x := a) (v := n + 32) (Or.inl ⟨by omega, by omega⟩))).trans
    (hput (x := a + 8) (v := wrap (a + n + 32)) (Or.inl ⟨by omega, by omega⟩))).trans
    ((hput (v := r.word (a + 8)) (hplace 8 (by omega))).trans (hput (v := a) (hplace 16 (by omega))))
  have hrest : wrapSub l (n + 32) = l - (n + 32) := by
    unfold wrapSub wrap
    omega
  rw [divide]
  simp only [sizeofBlock, hdir.load, hdir'.load, ok_bind, hheader, hget, hwrap, hrest]
  rw [if_neg (Nat.not_le_of_lt hsplit), hstore _ (wrap (a + n + 32)) _ (hblock2 0 (by omega)), ok_bind,
    hdir.store, ok_bind, hdir'.store, ok_bind, hstore _ _ _ (hblock2 8 (by omega)), ok_bind,
    hstore _ _ _ (hblock2 16 (by omega)), ok_bind]
  by_cases hzero : r.word (a + 8) = 0
  · rw [if_neg (not_not.mpr hzero)]
    exact ⟨_, rfl, fun _ => hwrote⟩
  · rw [if_pos hzero, (hnext.resolve_left hzero).store]
    exact ⟨_, rfl, fun h0 => absurd h0 hzero⟩

theorem divided_chain (h : Chain r a prev ((l, false) :: post) stop) (hsplit : n + 64 ≤ l)
    (hstop : stop ≤ 2 ^ 64) :
    Chain (divided r a n l (r.word (a + 8))) a prev
        ((n + 32, false) :: (l - (n + 32), false) :: post) stop ∧
      Wrote r (divided r a n l (r.word (a + 8))) (editBytes a l post) := by
  obtain ⟨hheader, hnext, hprev, hlen, hrest⟩ := h
  have hsum := hrest.stop_eq
  -- the two blocks, with any memory that agrees on them
  have hblocks : ∀ r', (∀ x, a ≤ x → x + 8 ≤ a + l → r'.word x =
      (((((r.put (a + n + 32) (l - (n + 32))).put a (n + 32)).put (a + 8) (a + n + 32)).put
        (a + n + 32 + 8) (r.word (a + 8))).put (a + n + 32 + 16) a).word x) →
      Chain r' (a + l) (a + n + 32) post stop →
      Chain r' a prev ((n + 32, false) :: (l - (n + 32), false) :: post) stop := by
    intro r' hr' hpost
    have hword := r.word_lt (a + 8)
    have hend : a + (n + 32) + (l - (n + 32)) = a + l := by omega
    have hmid : a + (n + 32) = a + n + 32 := by omega
    refine ⟨?_, ?_, ?_, by omega, ?_, ?_, ?_, by omega, ?_⟩
    · rw [hr' _ (by omega) (by omega)]
      simp (disch := omega) only [Ram.word_put_self, Ram.word_put_of_disjoint]
      rfl
    · rw [hr' _ (by omega) (by omega)]
      simp (disch := omega) only [Ram.word_put_self, Ram.word_put_of_disjoint]
      rw [if_neg (List.cons_ne_nil _ _), hmid]
    · rw [hr' _ (by omega) (by omega)]
      simp (disch := omega) only [Ram.word_put_of_disjoint]
      exact hprev
    · rw [hmid, hr' _ (by omega) (by omega)]
      simp (disch := omega) only [Ram.word_put_self, Ram.word_put_of_disjoint]
      rfl
    · rw [hmid, hr' _ (by omega) (by omega)]
      simp (disch := omega) only [Ram.word_put_self, Ram.word_put_of_disjoint]
      rw [hnext, ← hmid, hend]
    · rw [hmid, hr' _ (by omega) (by omega)]
      simp (disch := omega) only [Ram.word_put_self]
    · rw [hend, hmid]
      exact hpost
  have hwrote : Wrote r (((((r.put (a + n + 32) (l - (n + 32))).put a (n + 32)).put (a + 8)
      (a + n + 32)).put (a + n + 32 + 8) (r.word (a + 8))).put (a + n + 32 + 16) a)
      (Set.Ico a (a + l)) := by
    exact ((((Wrote.put_within (by omega) (by omega)).trans
      (Wrote.put_within (by omega) (by omega))).trans
      (Wrote.put_within (by omega) (by omega))).trans
      (Wrote.put_within (by omega) (by omega))).trans
      (Wrote.put_within (by omega) (by omega))
  unfold divided
  dsimp only
  generalize hr₁ : ((((r.put (a + n + 32) (l - (n + 32))).put a (n + 32)).put (a + 8)
    (a + n + 32)).put (a + n + 32 + 8) (r.word (a + 8))).put (a + n + 32 + 16) a = r₁ at *
  by_cases hpost : post = []
  · subst hpost
    rw [if_pos rfl] at hnext
    rw [if_pos hnext]
    exact ⟨hblocks r₁ (fun _ _ _ => rfl) hrest, hwrote.mono fun x hx => Or.inl hx⟩
  · rw [if_neg hpost] at hnext
    rw [hnext, if_neg (by omega)]
    have hlast : Wrote r₁ (r₁.put (a + l + 16) (a + n + 32)) (Set.Ico (a + l + 16) (a + l + 24)) :=
      Wrote.put _ _ subset_rfl
    refine ⟨hblocks _ (fun x _ hx => Ram.word_put_of_disjoint (by omega)) ?_, ?_⟩
    · refine hrest.setPrev hpost (fun x h1 h2 h3 => ?_) (Ram.word_put_self (by omega))
      rw [hlast.frame x fun hx => by have := hx.1; have := hx.2; omega]
      exact hwrote.frame x fun hx => Nat.not_le_of_lt hx.2 h1
    · exact (hwrote.mono fun x hx => Or.inl hx).trans (hlast.mono fun x hx => Or.inr ⟨hpost, hx⟩)

theorem Chain.setUsed (h : Chain r a prev ((l, u) :: bs) stop) (hl : l < 2 ^ 63) (used : Bool) :
    Chain (r.put a (blockHeader l used)) a prev ((l, used) :: bs) stop := by
  obtain ⟨-, hnext, hprev, hlen, hrest⟩ := h
  have hlt : blockHeader l used < 2 ^ 64 := by
    rw [blockHeader]
    split_ifs <;> omega
  refine ⟨Ram.word_put_self hlt, (Ram.word_put_of_disjoint (by omega)).trans hnext,
    (Ram.word_put_of_disjoint (by omega)).trans hprev, hlen, hrest.congr fun x hx _ => ?_⟩
  exact Memory.store_of_notMem (by omega)

/-! ### Carving -/

theorem totalLen_append (pre post : List (ℕ × Bool)) :
    totalLen (pre ++ post) = totalLen pre + totalLen post := by
  rw [totalLen, List.map_append, List.sum_append]
  rfl

theorem carve_spec (n l : ℕ) : ∃ len rest, carve n l = (len, true) :: rest ∧
    len + totalLen rest = l ∧ (∀ a, usedBlocks a rest = []) ∧ (len = n + 32 ∨ len = l) := by
  unfold carve
  split_ifs with h
  · refine ⟨_, _, rfl, ?_, fun _ => rfl, Or.inl rfl⟩
    rw [totalLen_cons, totalLen_nil]
    omega
  · exact ⟨_, _, rfl, Nat.add_zero l, fun _ => rfl, Or.inr rfl⟩

theorem usedBlocks_carve (a n l : ℕ) (pre post : List (ℕ × Bool)) :
    usedBlocks a (pre ++ (l, false) :: post) ⊆ usedBlocks a (pre ++ carve n l ++ post) ∧
      ∃ len, (a + totalLen pre, len) ∈ usedBlocks a (pre ++ carve n l ++ post) ∧
        (len = n + 32 ∨ len = l) := by
  obtain ⟨len, rest, heq, hsum, hrest, hlen⟩ := carve_spec n l
  have hused : usedBlocks a (pre ++ carve n l ++ post) =
      usedBlocks a pre ++ (a + totalLen pre, len) :: usedBlocks (a + totalLen pre + l) post := by
    rw [heq, List.append_assoc, usedBlocks_append, List.cons_append, usedBlocks, usedBlocks_append,
      hrest, List.nil_append]
    congr 3
    omega
  rw [hused, usedBlocks_append, usedBlocks]
  refine ⟨fun b hb => ?_, len, List.mem_append_right _ List.mem_cons_self, hlen⟩
  rcases List.mem_append.mp hb with hb | hb
  · exact List.mem_append_left _ hb
  · exact List.mem_append_right _ (List.mem_cons_of_mem _ hb)

/-! ### Allocation in one chain -/

theorem editBytes_spec (h : Chain r a prev (pre ++ (l, false) :: post) stop) :
    editBytes (a + totalLen pre) l post ⊆ Set.Ico a stop ∧
      ∀ b ∈ usedBlocks a (pre ++ (l, false) :: post),
        Disjoint (editBytes (a + totalLen pre) l post) (payload b) := by
  obtain ⟨p, hfocus, -⟩ := h.focus
  obtain ⟨-, -, -, -, hrest⟩ := hfocus
  have hsum := hrest.stop_eq
  have hroom : post ≠ [] → a + totalLen pre + l + 32 ≤ stop := fun hne => by
    cases post with
    | nil => exact absurd rfl hne
    | cons c post =>
      obtain ⟨-, -, -, hlen, hrest'⟩ := hrest
      have := hrest'.stop_eq
      omega
  constructor
  · rintro x (⟨h1, h2⟩ | ⟨hne, h1, h2⟩)
    · exact ⟨by omega, by omega⟩
    · have := hroom hne
      exact ⟨by omega, by omega⟩
  · rintro ⟨x, len⟩ hb
    rw [usedBlocks_append, usedBlocks, List.mem_append] at hb
    rw [Set.disjoint_left]
    intro y hy hdata
    have h1 : x + 24 ≤ y := hdata.1
    have h2 : y < x + len := hdata.2
    rcases hb with hb | hb
    · have hlt := (usedBlocks_bounds hb).2
      rcases hy with ⟨h3, -⟩ | ⟨-, h3, -⟩ <;> omega
    · have hle := (usedBlocks_bounds hb).1
      rcases hy with ⟨-, h3⟩ | ⟨-, -, h3⟩ <;> omega

theorem allocate_none {len f : ℕ}
    (hrun : findBlock r (wrap (alignUp len 16 + 32)) pageSize a = .ok f) (hf : f = 0) :
    allocate a len r = .ok (0, r) := by
  simp only [allocate, sizeofBlock, hrun, bind, Except.bind, if_pos hf]
  rfl

/-- The last thing `allocate` does is to mark the block, whether it was divided or not. -/
theorem allocate_last {r' : Ram} {len addr : ℕ} (hrun : allocate a len r = .ok (addr, r'))
    (haddr : addr ≠ 0) : ∃ (r₁ : Ram) (first header : ℕ), addr = wrap (first + 24) ∧
      header < 2 ^ 64 ∧ r' = r₁.put (wrap first) (header ||| blockUsed) := by
  rw [allocate] at hrun
  dsimp only at hrun
  obtain ⟨first, -, hrun⟩ := bind_eq_ok.mp hrun
  split_ifs at hrun with hzero
  · cases hrun
    exact absurd rfl haddr
  obtain ⟨header, -, hrun⟩ := bind_eq_ok.mp hrun
  split_ifs at hrun with hused
  · cases hrun
    exact absurd rfl haddr
  obtain ⟨header, -, hrun⟩ := bind_eq_ok.mp hrun
  have hmark : ∀ {r₁ : Ram}, (do
      let header ← r₁.load first
      let r₂ ← r₁.store first (header ||| blockUsed)
      pure (wrap (first + dataOffset), r₂)) = Except.ok (addr, r') →
      ∃ (r₁ : Ram) (first header : ℕ), addr = wrap (first + 24) ∧
        header < 2 ^ 64 ∧ r' = r₁.put (wrap first) (header ||| blockUsed) := by
    intro r₁ hrun
    obtain ⟨header, hload, hrun⟩ := bind_eq_ok.mp hrun
    obtain ⟨r₂, hstore, hrun⟩ := bind_eq_ok.mp hrun
    obtain rfl := Ram.word_of_load hload
    obtain rfl := Ram.put_of_store hstore
    cases hrun
    exact ⟨r₁, first, _, rfl, Ram.word_lt _ _, rfl⟩
  split_ifs at hrun
  · obtain ⟨⟨divided, r₁⟩, -, hrun⟩ := bind_eq_ok.mp hrun
    exact hmark hrun
  · exact hmark hrun

theorem allocate_found {len f : ℕ}
    (hrun : findBlock r (wrap (alignUp len 16 + 32)) pageSize a = .ok f) (hf : f ≠ 0)
    (hdir : Direct f 8) (hheader : r.word f = l) (hl : l < 2 ^ 63) (h32 : 32 ≤ l) :
    (¬ alignUp len 16 + 32 < l →
      allocate a len r = .ok (wrap (f + 24), r.put f (blockHeader l true))) ∧
    ∀ r', alignUp len 16 + 32 < l → divide f (alignUp len 16) r = .ok (true, r') →
      allocate a len r = .ok (wrap (f + 24), r'.put f (r'.word f ||| blockUsed)) := by
  have hunused : isBlockUsed l = false := isBlockUsed_blockHeader hl false
  have hget : getBlockLen l = l := getBlockLen_blockHeader hl false
  have hsub : wrapSub l 32 = l - 32 := by
    unfold wrapSub wrap
    omega
  constructor
  · intro hlt
    simp only [allocate, sizeofBlock, dataOffset, hrun, bind, Except.bind, if_neg hf, hdir.load,
      hdir.store, hheader, hunused, hget, hsub, Bool.false_eq_true, if_false]
    rw [if_neg (by omega)]
    simp only [pure, Except.pure, hheader]
    rw [show l ||| blockUsed = blockHeader l true from blockHeader_or hl]
  · intro r' hlt hdivide
    simp only [allocate, sizeofBlock, dataOffset, hrun, bind, Except.bind, if_neg hf, hdir.load,
      hheader, hunused, hget, hsub, Bool.false_eq_true, if_false]
    rw [if_pos (by omega), hdivide]
    simp only [pure, Except.pure, hdir.store]

theorem allocate_spec (len : ℕ) (h : Chain r a 0 bs stop) (hne : bs ≠ [])
    (ha : kernelDirectBase ≤ a) (hstop : stop ≤ 2 ^ 64) (hlen : stop ≤ a + 4096) :
    (allocate a len r = .ok (0, r) ∧ ∀ b ∈ bs, ¬ Fits (wrap (alignUp len 16 + 32)) b) ∨
      ∃ pre l post r', bs = pre ++ (l, false) :: post ∧
        (∀ b ∈ pre, ¬ Fits (wrap (alignUp len 16 + 32)) b) ∧ wrap (alignUp len 16 + 32) ≤ l ∧
        allocate a len r = .ok (a + totalLen pre + 24, r') ∧
        (¬ Tight (alignUp len 16) l →
          Chain r' a 0 (pre ++ carve (alignUp len 16) l ++ post) stop ∧
          Wrote r r' (editBytes (a + totalLen pre) l post)) := by
  have hcount := h.length_le
  rcases findBlock_spec (wrap (alignUp len 16 + 32)) h hne ha hstop hlen
      (show bs.length ≤ pageSize by norm_num; omega) with
    ⟨hrun, hnone⟩ | ⟨pre, l, post, rfl, hpre, hneed, hrun⟩
  · exact Or.inl ⟨allocate_none hrun rfl, hnone⟩
  obtain ⟨p, hfocus, hback⟩ := h.focus
  obtain ⟨hedit, -⟩ := editBytes_spec h
  obtain ⟨hheader, hnext, hprev, h32, hrest⟩ := id hfocus
  have hsum := hrest.stop_eq
  have ha0 : 0 < a := by
    unfold kernelDirectBase at ha
    omega
  have hdir : Direct (a + totalLen pre) 8 := ⟨by omega, by omega⟩
  have hl : l < 2 ^ 63 := by omega
  have haddr : wrap (a + totalLen pre + 24) = a + totalLen pre + 24 := wrap_of_lt (by omega)
  obtain ⟨hwhole, hcut⟩ := allocate_found hrun (by omega) hdir hheader hl h32
  rw [haddr] at hwhole hcut
  -- the bytes in front of the block are out of reach
  have hfront : ∀ {r'}, Wrote r r' (editBytes (a + totalLen pre) l post) →
      ∀ x, a ≤ x → x < a + totalLen pre → r'.bytes x = r.bytes x := fun hw x _ hx =>
    hw.frame x fun hmem => by rcases hmem with ⟨h1, -⟩ | ⟨-, h1, -⟩ <;> omega
  have hmarked : ∀ {r' : Ram} {v : ℕ}, Wrote r r' (editBytes (a + totalLen pre) l post) →
      Wrote r (r'.put (a + totalLen pre) v) (editBytes (a + totalLen pre) l post) := fun hw =>
    hw.trans (Wrote.put _ _ fun x hx => Or.inl ⟨hx.1, by have := hx.2; omega⟩)
  by_cases hlt : alignUp len 16 + 32 < l
  · have hnextDirect : r.word (a + totalLen pre + 8) = 0 ∨
        Direct (r.word (a + totalLen pre + 8) + 16) 8 := by
      rw [hnext]
      split_ifs with hpost
      · exact Or.inl rfl
      · refine Or.inr ⟨by omega, ?_⟩
        cases post with
        | nil => exact absurd rfl hpost
        | cons c post =>
          have := hrest.2.2.2.1
          rw [totalLen_cons] at hsum
          omega
    by_cases htight : Tight (alignUp len 16) l
    · obtain ⟨r', hdivide, -⟩ := divide_returns hheader hl hlt (by omega) (by omega) hnextDirect
      exact Or.inr ⟨pre, l, post, _, rfl, hpre, hneed, hcut r' hlt hdivide,
        fun hnot => absurd htight hnot⟩
    have hsplit : alignUp len 16 + 64 ≤ l := by
      by_contra hnot
      exact htight ⟨hlt, by omega⟩
    have hdivide := divide_eq (l := l) hheader hl hlt ⟨by omega, by omega⟩ hnextDirect
    obtain ⟨hchain, hwrote⟩ := divided_chain hfocus hsplit (by omega)
    have hmarkChain := hchain.setUsed (by omega) true
    have hrun' := hcut _ hlt hdivide
    rw [hchain.1, blockHeader_or (show alignUp len 16 + 32 < 2 ^ 63 by omega)] at hrun'
    refine Or.inr ⟨pre, l, post, _, rfl, hpre, hneed, hrun', fun _ => ⟨?_, hmarked hwrote⟩⟩
    rw [List.append_assoc, carve, if_pos hlt]
    exact hback _ _ (List.cons_ne_nil _ _) (hfront (hmarked hwrote)) hmarkChain
  · have hmarkChain := hfocus.setUsed hl true
    have hwrote := hmarked (v := blockHeader l true) (Wrote.refl r _)
    refine Or.inr ⟨pre, l, post, _, rfl, hpre, hneed, hwhole hlt, fun _ => ⟨?_, hwrote⟩⟩
    rw [List.append_assoc, carve, if_neg hlt]
    exact hback _ _ (List.cons_ne_nil _ _) (hfront hwrote) hmarkChain

end ops

end Fynaos
