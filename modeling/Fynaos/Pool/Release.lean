import Fynaos.Pool.Ops

/-!
# Releasing a block

`release` is the body of `kfree` for a block given by its header. It clears the used bit, then merges
the block with the one behind it and the one in front of it, where these are free. On a chain the
block and its free neighbours become one free block (`release_spec`).
-/

namespace Fynaos

/-- `if (block->next && !IS_BLOCK_USED(block->next->header)) merge(block)` -/
def mergeForward (block : ℕ) (r : Ram) : Except Halt Ram := do
  let next ← r.load (block + 8)
  if next ≠ 0 then do
    let nextHeader ← r.load next
    if ¬ isBlockUsed nextHeader then merge block r else return r
  else return r

/-- `if (block->prev && !IS_BLOCK_USED(block->prev->header)) merge(block->prev)` -/
def mergeBackward (block : ℕ) (r : Ram) : Except Halt Ram := do
  let prev ← r.load (block + 16)
  if prev ≠ 0 then do
    let prevHeader ← r.load prev
    if ¬ isBlockUsed prevHeader then merge prev r else return r
  else return r

/-- The body of `kfree` for the block at `block`. -/
def release (block : ℕ) (r : Ram) : Except Halt Ram := do
  let header ← r.load block
  if ¬ isBlockUsed header then .error (.panic "Double free detected")
  else do
    let r ← r.store block (header &&& lnot blockUsed)
    let r ← mergeForward block r
    mergeBackward block r

/-- The block of length `l` between `pre` and `post` is free now, and its free neighbours are merged
with it. -/
def Freed (pre : List (ℕ × Bool)) (l : ℕ) (post bs : List (ℕ × Bool)) : Prop :=
  ∃ pre' left right post', pre = pre' ++ left ∧ post = right ++ post' ∧ left.length ≤ 1 ∧
    right.length ≤ 1 ∧ (∀ b ∈ left ++ right, b.2 = false) ∧
    (left = [] → ∀ b ∈ pre'.getLast?, b.2 = true) ∧
    (right = [] → ∀ b ∈ post'.head?, b.2 = true) ∧
    bs = pre' ++ (totalLen left + l + totalLen right, false) :: post'

section release
variable {r : Ram} {a prev stop l k : ℕ} {u : Bool} {bs pre post : List (ℕ × Bool)}

theorem kfree_release {addr : ℕ} (haddr : addr ≠ 0) (h : Heap) : kfree addr h =
    release (wrapSub addr sizeofBlock) h.ram >>= fun r => .ok { h with ram := r } := by
  rw [kfree, if_neg haddr, release, bind_assoc]
  refine bind_congr fun header => ?_
  by_cases hused : ¬ isBlockUsed header
  · rw [if_pos hused, if_pos hused]
    rfl
  rw [if_neg hused, if_neg hused, bind_assoc]
  refine bind_congr fun r => ?_
  have hback : ∀ r : Ram, (do
      let prev ← r.load (wrapSub addr sizeofBlock + 16)
      if prev ≠ 0 then do
        let prevHeader ← r.load prev
        if ¬ isBlockUsed prevHeader then do
          let r ← merge prev r
          return { h with ram := r }
        return { h with ram := r }
      return { h with ram := r }) =
      mergeBackward (wrapSub addr sizeofBlock) r >>= fun r => Except.ok { h with ram := r } := by
    intro r
    rw [mergeBackward, bind_assoc]
    refine bind_congr fun prev => ?_
    by_cases hprev : prev ≠ 0
    · rw [if_pos hprev, if_pos hprev, bind_assoc]
      refine bind_congr fun header => ?_
      by_cases hfree : ¬ isBlockUsed header
      · rw [if_pos hfree, if_pos hfree]
        rfl
      · rw [if_neg hfree, if_neg hfree]
        rfl
    · rw [if_neg hprev, if_neg hprev]
      rfl
  rw [bind_assoc, mergeForward, bind_assoc]
  refine bind_congr fun next => ?_
  by_cases hnext : next ≠ 0
  · rw [if_pos hnext, if_pos hnext, bind_assoc]
    refine bind_congr fun header => ?_
    by_cases hfree : ¬ isBlockUsed header
    · rw [if_pos hfree, if_pos hfree]
      exact bind_congr hback
    · rw [if_neg hfree, if_neg hfree, pure_bind, pure_bind]
      exact hback r
  · rw [if_neg hnext, if_neg hnext, pure_bind, pure_bind]
    exact hback r

/-! ### The two merges -/

theorem blockHeader_clear (hl : l < 2 ^ 63) :
    blockHeader l true &&& lnot blockUsed = blockHeader l false := by
  have hmask : lnot blockUsed = 2 ^ 63 - 1 := rfl
  rw [hmask, Nat.and_two_pow_sub_one_eq_mod, blockHeader, blockHeader, if_pos rfl,
    if_neg Bool.false_ne_true]
  omega

theorem merge_chain (h : Chain r a prev ((l, false) :: (k, false) :: post) stop)
    (ha : kernelDirectBase ≤ a) (hstop : stop ≤ 2 ^ 64) :
    ∃ r', merge a r = .ok r' ∧ Chain r' a prev ((l + k, false) :: post) stop ∧
      Wrote r r' (Set.Ico a stop) := by
  have hbase : kernelDirectBase = 2 ^ 64 - 2 ^ 47 := rfl
  obtain ⟨hheader, hnext, hprev, hlen, hheader₂, hnext₂, -, hlen₂, hrest⟩ := h
  have hsum := hrest.stop_eq
  have hload : ∀ {r : Ram} {x : ℕ}, a ≤ x → x + 8 ≤ stop → r.load x = .ok (r.word x) :=
    fun h1 h2 => Direct.load ⟨by omega, by omega⟩
  have hstore : ∀ {r : Ram} {x v : ℕ}, a ≤ x → x + 8 ≤ stop → r.store x v = .ok (r.put x v) :=
    fun h1 h2 => Direct.store ⟨by omega, by omega⟩
  rw [if_neg (List.cons_ne_nil _ _)] at hnext
  have hsumHeader : wrap (blockHeader l false + blockHeader k false) = l + k := by
    rw [blockHeader, blockHeader, if_neg Bool.false_ne_true, if_neg Bool.false_ne_true]
    exact wrap_of_lt (by omega)
  -- the link of the second block survives the first two stores
  have hlink : ∀ v, ((r.put a (l + k)).put (a + 8) v).word (a + l + 8) =
      (r.put a (l + k)).word (a + l + 8) := fun v => Ram.word_put_of_disjoint (by omega)
  have hlink₁ : (r.put a (l + k)).word (a + l + 8) = r.word (a + l + 8) :=
    Ram.word_put_of_disjoint (by omega)
  have hword := r.word_lt (a + l + 8)
  have hwrote : Wrote r ((r.put a (l + k)).put (a + 8) (r.word (a + l + 8))) (Set.Ico a stop) :=
    (Wrote.put_within (by omega) (by omega)).trans (Wrote.put_within (by omega) (by omega))
  -- the merged block, with any memory that agrees on it
  have hblock : ∀ r', (∀ x, a ≤ x → x + 8 ≤ a + l + k →
      r'.word x = ((r.put a (l + k)).put (a + 8) (r.word (a + l + 8))).word x) →
      Chain r' (a + l + k) a post stop → Chain r' a prev ((l + k, false) :: post) stop := by
    intro r' hr' hpost
    refine ⟨?_, ?_, ?_, by omega, ?_⟩
    · rw [hr' _ (by omega) (by omega)]
      simp (disch := omega) only [Ram.word_put_self, Ram.word_put_of_disjoint]
      rfl
    · rw [hr' _ (by omega) (by omega)]
      simp (disch := omega) only [Ram.word_put_self]
      rw [hnext₂, Nat.add_assoc]
    · rw [hr' _ (by omega) (by omega)]
      simp (disch := omega) only [Ram.word_put_of_disjoint]
      exact hprev
    · rw [← Nat.add_assoc]
      exact hpost
  rw [merge, hload (by omega) (by omega), ok_bind, hnext, hload (le_refl a) (by omega), ok_bind,
    hload (by omega) (by omega), ok_bind, hheader, hheader₂, hsumHeader,
    hstore (le_refl a) (by omega), ok_bind, hload (by omega) (by omega), ok_bind, hlink₁,
    hstore (by omega) (by omega), ok_bind, hload (by omega) (by omega), ok_bind, hlink, hlink₁]
  generalize hr₁ : (r.put a (l + k)).put (a + 8) (r.word (a + l + 8)) = r₁ at hwrote hblock
  by_cases hpost : post = []
  · subst hpost
    rw [if_pos rfl] at hnext₂
    rw [hnext₂, if_neg (not_not.mpr rfl)]
    exact ⟨r₁, rfl, hblock r₁ (fun _ _ _ => rfl) hrest, hwrote⟩
  · rw [if_neg hpost] at hnext₂
    have hroom : a + l + k + 32 ≤ stop := by
      cases post with
      | nil => exact absurd rfl hpost
      | cons c post =>
        obtain ⟨-, -, -, hlen₃, hrest'⟩ := hrest
        have := hrest'.stop_eq
        omega
    rw [hnext₂, if_pos (by omega), hstore (by omega) (by omega)]
    have hlast : Wrote r₁ (r₁.put (a + l + k + 16) a) (Set.Ico (a + l + k + 16) (a + l + k + 24)) :=
      Wrote.put _ _ subset_rfl
    refine ⟨_, rfl, hblock _ (fun x _ hx => Ram.word_put_of_disjoint (by omega)) ?_,
      hwrote.trans (Wrote.put_within (by omega) (by omega))⟩
    refine hrest.setPrev hpost (fun x h1 h2 h3 => ?_) (Ram.word_put_self (by omega))
    rw [hlast.frame x fun hx => by have := hx.1; have := hx.2; omega, ← hr₁]
    have hput₁ : Wrote r ((r.put a (l + k)).put (a + 8) (r.word (a + l + 8))) (Set.Ico a (a + l)) :=
      (Wrote.put_within (by omega) (by omega)).trans
        (Wrote.put_within (by omega) (by omega))
    exact hput₁.frame x fun hx => by have := hx.2; omega

theorem mergeForward_spec (h : Chain r a prev ((l, false) :: post) stop)
    (ha : kernelDirectBase ≤ a) (hstop : stop ≤ 2 ^ 64) :
    ∃ r' right post', mergeForward a r = .ok r' ∧ post = right ++ post' ∧ right.length ≤ 1 ∧
      (∀ b ∈ right, b.2 = false) ∧ (right = [] → ∀ b ∈ post'.head?, b.2 = true) ∧
      Chain r' a prev ((l + totalLen right, false) :: post') stop ∧ Wrote r r' (Set.Ico a stop) := by
  have hbase : kernelDirectBase = 2 ^ 64 - 2 ^ 47 := rfl
  have hfirst := h
  obtain ⟨-, hnext, -, hlen, hrest⟩ := h
  have hsum := hrest.stop_eq
  have hdir : Direct (a + 8) 8 := ⟨by omega, by omega⟩
  rw [mergeForward, hdir.load, ok_bind, hnext]
  cases post with
  | nil =>
    rw [if_pos rfl, if_neg (not_not.mpr rfl)]
    exact ⟨r, [], [], rfl, rfl, Nat.zero_le _, by simp, by simp, hfirst, Wrote.refl r _⟩
  | cons b post =>
    obtain ⟨k, used⟩ := b
    obtain ⟨hheader, -, -, hlen₂, hrest'⟩ := hrest
    have hsum' := hrest'.stop_eq
    have hdir₂ : Direct (a + l) 8 := ⟨by omega, by omega⟩
    rw [if_neg (List.cons_ne_nil _ _), if_pos (by omega), hdir₂.load, ok_bind, hheader,
      isBlockUsed_blockHeader (by omega)]
    cases used with
    | true =>
      rw [if_neg (not_not.mpr rfl)]
      exact ⟨r, [], (k, true) :: post, rfl, rfl, Nat.zero_le _, by simp, by simp, hfirst,
        Wrote.refl r _⟩
    | false =>
      obtain ⟨r', hmerge, hchain, hwrote⟩ := merge_chain hfirst ha hstop
      rw [if_pos Bool.false_ne_true]
      exact ⟨r', [(k, false)], post, hmerge, rfl, le_refl _, by simp, by simp, hchain, hwrote⟩

theorem mergeBackward_spec (h : Chain r a prev ((l, u) :: (k, false) :: post) stop)
    (ha : kernelDirectBase ≤ a) (hstop : stop ≤ 2 ^ 64) :
    ∃ r', mergeBackward (a + l) r = .ok r' ∧ Wrote r r' (Set.Ico a stop) ∧
      Chain r' a prev (if u then (l, true) :: (k, false) :: post else (l + k, false) :: post)
        stop := by
  have hbase : kernelDirectBase = 2 ^ 64 - 2 ^ 47 := rfl
  have hfirst := h
  obtain ⟨hheader, -, -, hlen, -, -, hprev, hlen₂, hrest⟩ := h
  have hsum := hrest.stop_eq
  have hdir : Direct (a + l + 16) 8 := ⟨by omega, by omega⟩
  have hdir₂ : Direct a 8 := ⟨by omega, by omega⟩
  rw [mergeBackward, hdir.load, ok_bind, hprev, if_pos (by omega), hdir₂.load, ok_bind, hheader,
    isBlockUsed_blockHeader (by omega)]
  cases u with
  | true =>
    rw [if_neg (not_not.mpr rfl), if_pos rfl]
    exact ⟨r, rfl, Wrote.refl r _, hfirst⟩
  | false =>
    obtain ⟨r', hmerge, hchain, hwrote⟩ := merge_chain hfirst ha hstop
    rw [if_pos Bool.false_ne_true, if_neg Bool.false_ne_true]
    exact ⟨r', hmerge, hwrote, hchain⟩

/-! ### The whole release -/

theorem release_spec (h : Chain r a 0 (pre ++ (l, true) :: post) stop)
    (ha : kernelDirectBase ≤ a) (hstop : stop ≤ 2 ^ 64) :
    ∃ r' bs, release (a + totalLen pre) r = .ok r' ∧ Freed pre l post bs ∧
      Chain r' a 0 bs stop := by
  have hbase : kernelDirectBase = 2 ^ 64 - 2 ^ 47 := rfl
  obtain ⟨p, hfocus, hback⟩ := h.focus
  obtain ⟨hheader, -, -, hlen, hrest⟩ := id hfocus
  have hsum := hrest.stop_eq
  have hdir : Direct (a + totalLen pre) 8 := ⟨by omega, by omega⟩
  have hl : l < 2 ^ 63 := by omega
  have hclear := hfocus.setUsed hl false
  obtain ⟨r₂, right, post', hforward, rfl, hright, hrightFree, hrightEnd, hchain, hwrote⟩ :=
    mergeForward_spec hclear (by omega) hstop
  have hrun : release (a + totalLen pre) r = mergeBackward (a + totalLen pre) r₂ := by
    rw [release, hdir.load, ok_bind, hheader, isBlockUsed_blockHeader hl,
      if_neg (not_not.mpr rfl), hdir.store, ok_bind, blockHeader_clear hl, hforward, ok_bind]
  -- nothing in front of the block has changed so far
  have hfront : ∀ x, a ≤ x → x < a + totalLen pre → r₂.bytes x = r.bytes x := fun x _ hx =>
    (hwrote.frame x fun hmem => Nat.not_le_of_lt hx hmem.1).trans
      (Memory.store_of_notMem (Or.inl hx))
  have hwhole := hback r₂ _ (List.cons_ne_nil _ _) hfront hchain
  rw [hrun]
  rcases List.eq_nil_or_concat pre with rfl | ⟨pre', b, rfl⟩
  · obtain ⟨-, -, hprev, -, -⟩ := id hwhole
    have hdir₂ : Direct (a + totalLen [] + 16) 8 := ⟨by omega, by rw [totalLen_nil] at hsum ⊢; omega⟩
    rw [mergeBackward, hdir₂.load, ok_bind, totalLen_nil, Nat.add_zero, hprev,
      if_neg (not_not.mpr rfl)]
    refine ⟨r₂, _, rfl, ⟨[], [], right, post', rfl, rfl, Nat.zero_le _, hright, by simpa using
      hrightFree, by simp, hrightEnd, ?_⟩, hwhole⟩
    rw [totalLen_nil, Nat.zero_add]
  · obtain ⟨j, u⟩ := b
    rw [List.concat_eq_append] at *
    rw [List.append_assoc, List.singleton_append] at hwhole
    obtain ⟨p', hfocus', hback'⟩ := hwhole.focus
    have hplace : a + totalLen (pre' ++ [(j, u)]) = a + totalLen pre' + j := by
      rw [totalLen_append, totalLen_cons, totalLen_nil]
      omega
    obtain ⟨r', hbackward, hwrote', hchain'⟩ := mergeBackward_spec hfocus' (by omega) hstop
    have hend := hback' r' _ (by split_ifs <;> exact List.cons_ne_nil _ _)
      (fun x _ hx => hwrote'.frame x fun hmem => Nat.not_le_of_lt hx hmem.1) hchain'
    rw [hplace]
    cases u with
    | true =>
      rw [if_pos rfl] at hend
      refine ⟨r', _, hbackward, ⟨pre' ++ [(j, true)], [], right, post', by simp, rfl,
        Nat.zero_le _, hright, by simpa using hrightFree, by simp, hrightEnd, ?_⟩, hend⟩
      rw [totalLen_nil, Nat.zero_add, List.append_assoc, List.singleton_append]
    | false =>
      rw [if_neg Bool.false_ne_true] at hend
      refine ⟨r', _, hbackward, ⟨pre', [(j, false)], right, post', rfl, rfl, le_refl _, hright,
        ?_, by simp, hrightEnd, ?_⟩, hend⟩
      · intro b hb
        rcases List.mem_cons.mp hb with rfl | hb
        · rfl
        · exact hrightFree b hb
      · rw [totalLen_cons, totalLen_nil, Nat.add_zero, Nat.add_assoc]

end release

end Fynaos
