import Fynaos.Pool.Grow

/-!
# What the heap takes and what it gives

A call of `kmalloc` turns frames into pages, one after the other, and gives bytes that belonged to nobody
(`kmalloc_serves`). What is stored to these bytes does not matter to the heap (`Pools.write`).
-/

namespace Fynaos

open NextList

/-- From the pages `ps` to the pages `ps'`: some frames were taken, and became the pages behind the old ones. -/
def Took (h : Heap) (ps : List PoolPage) (h' : Heap) (ps' : List PoolPage) : Prop :=
  ∃ taken, h.frames = taken ++ h'.frames ∧
    ps'.map PoolPage.base = ps.map PoolPage.base ++ taken.map physToVirt

/-- A used block for `len` bytes from `addr` on, none of which were in use before. -/
def Gave (ps ps' : List PoolPage) (addr len : ℕ) : Prop :=
  ∃ b ∈ heapUsed ps', addr = b.1 + 24 ∧ wrap (alignUp len 16 + 32) ≤ b.2 ∧ Disjoint (payload b) (heapData ps)

section serve
variable {h h' h'' : Heap} {ps ps' ps'' pre post : List PoolPage} {p q : PoolPage} {len fuel addr : ℕ}

theorem Took.refl (h : Heap) (ps : List PoolPage) : Took h ps h ps := ⟨[], rfl, (List.append_nil _).symm⟩

theorem Took.trans (h₁ : Took h ps h' ps') (h₂ : Took h' ps' h'' ps'') : Took h ps h'' ps'' := by
  obtain ⟨taken, hframes, hbases⟩ := h₁
  obtain ⟨taken', hframes', hbases'⟩ := h₂
  refine ⟨taken ++ taken', by rw [hframes, hframes', List.append_assoc], ?_⟩
  rw [hbases', hbases, List.map_append, List.append_assoc]

theorem Gave.mono (h : Gave ps' ps'' addr len) (hused : heapUsed ps ⊆ heapUsed ps') : Gave ps ps'' addr len := by
  obtain ⟨b, hb, haddr, hlen, hdisj⟩ := h
  exact ⟨b, hb, haddr, hlen, Set.disjoint_of_subset_right (heapData_mono hused) hdisj⟩

theorem Pools.free_disjoint (hp : Pools h (pre ++ p :: post)) {bs bs' : List (ℕ × Bool)} {l : ℕ}
    (hblocks : p.blocks = bs ++ (l, false) :: bs') :
    Disjoint (Set.Ico (p.base + 24 + totalLen bs) (p.base + 24 + totalLen bs + l)) (heapData (pre ++ p :: post)) := by
  have hchain := (hp.laid p (by simp)).chain
  have hstop := hchain.stop_eq
  rw [hblocks, totalLen_append, totalLen_cons] at hstop
  dsimp only at hstop
  refine Set.disjoint_left.mpr fun x hx hdata => ?_
  obtain ⟨h1, h2⟩ := hx
  obtain ⟨b, hb, hxb⟩ := hdata
  obtain ⟨q, hq, hbq⟩ := List.mem_flatMap.mp hb
  have h3 : b.1 + 24 ≤ x := hxb.1
  have h4 : x < b.1 + b.2 := hxb.2
  rcases mem_middle.mp hq with rfl | hq'
  · rw [PoolPage.used, hblocks, usedBlocks_append, usedBlocks] at hbq
    rcases List.mem_append.mp hbq with hbq | hbq
    · have hend := (usedBlocks_bounds (x := b.1) (l := b.2) hbq).2
      omega
    · have hstart := (usedBlocks_bounds (x := b.1) (l := b.2) hbq).1
      omega
  · obtain ⟨h5, h6⟩ := (hp.laid q hq).payload_subset hbq hxb
    exact Set.disjoint_left.mp (hp.disjoint hq') ⟨by omega, h6⟩ ⟨by omega, by omega⟩

theorem mem_usedBlocks_carve (a n l : ℕ) (bs bs' : List (ℕ × Bool)) :
    ∃ len, (a + totalLen bs, len) ∈ usedBlocks a (bs ++ carve n l ++ bs') ∧ len ≤ l ∧
      (len = n + 32 ∨ len = l) := by
  obtain ⟨len, rest, heq, hsum, -, hlen⟩ := carve_spec n l
  refine ⟨len, ?_, by omega, hlen⟩
  rw [heq, List.append_assoc, usedBlocks_append, List.cons_append, usedBlocks]
  exact List.mem_append_right _ List.mem_cons_self

theorem kmallocLoop_serves (hp : Pools h (pre ++ p :: post))
    (hpre : ∀ b ∈ heapBlocks pre, ¬ Fits (wrap (alignUp len 16 + 32)) b)
    (hroomy : Roomy (pre ++ p :: post) h.frames len) (hfuel : post.length + h.frames.length < fuel) :
    ∃ res h' ps', kmallocLoop len fuel p.base h = .ok (res, h') ∧ Grew h (pre ++ p :: post) h' ps' ∧
      Took h (pre ++ p :: post) h' ps' ∧ ∀ addr, res = some addr → Gave (pre ++ p :: post) ps' addr len := by
  induction fuel generalizing h pre p post with
  | zero => omega
  | succ fuel ih =>
    rcases hp.allocate_page len with ⟨hrun, hnone⟩ | ⟨bs, l, bs', r', hblocks, hbs, hl, hrun, hgrew⟩
    · have hpre' : ∀ b ∈ heapBlocks (pre ++ [p]), ¬ Fits (wrap (alignUp len 16 + 32)) b := by
        intro b hb
        unfold heapBlocks at hb
        rw [List.flatMap_append, List.flatMap_singleton] at hb
        exact (List.mem_append.mp hb).elim (hpre b) (hnone b)
      cases post with
      | cons q post =>
        have hnext := hp.next_cons
        have hsplit : pre ++ p :: q :: post = pre ++ [p] ++ q :: post := by simp
        rw [hsplit] at hp hroomy ⊢
        rw [List.length_cons] at hfuel
        rw [kmallocLoop_next hrun p.link hnext q.base_pos.ne']
        exact ih hp hpre' hroomy (by omega)
      | nil =>
        have hnext := hp.next_last
        cases hframes : h.frames with
        | nil =>
          exact ⟨none, h, _, kmallocLoop_full hrun p.link hnext (extendPool_none hframes), Grew.refl hp,
            Took.refl _ _, fun _ heq => absurd heq.symm (Option.some_ne_none _)⟩
        | cons f frames =>
          obtain ⟨h₁, hf, hextend, hrest, hgrew₁⟩ := extendPool_spec hp hframes
          have hp₁ := hgrew₁.pools
          have hnext₁ : h₁.ram.word (p.base + 16) = (freshPage f hf).base := by
            have hp₁' := hp₁
            rw [List.append_assoc] at hp₁'
            exact hp₁'.next_cons
          rw [hframes] at hroomy
          rw [hframes, List.length_nil, List.length_cons] at hfuel
          have hroomy₁ : Roomy (pre ++ [p] ++ freshPage f hf :: []) h₁.frames len := by
            rw [hrest]
            exact hroomy.extend hpre'
          have htook : Took h (pre ++ [p]) h₁ (pre ++ [p] ++ [freshPage f hf]) := by
            refine ⟨[f], by rw [hframes, hrest]; rfl, ?_⟩
            rw [List.map_append (f := PoolPage.base), List.map_singleton, List.map_singleton]
            rfl
          rw [kmallocLoop_extend hrun p.link hnext hextend hnext₁]
          obtain ⟨res, h₂, ps₂, hloop, hgrew₂, htook₂, hgave⟩ :=
            ih (show Pools h₁ (pre ++ [p] ++ freshPage f hf :: []) from hp₁) hpre' hroomy₁
              (by rw [hrest, List.length_nil]; omega)
          exact ⟨res, h₂, ps₂, hloop, hgrew₁.trans hgrew₂, htook.trans htook₂,
            fun addr haddr => (hgave addr haddr).mono hgrew₁.used⟩
    · have htight : ¬ Tight (alignUp len 16) l := hroomy.first hpre hblocks hbs hl
      obtain ⟨l', hnew, hle, hl'⟩ := mem_usedBlocks_carve (p.base + 24) (alignUp len 16) l bs bs'
      refine ⟨some (p.base + 24 + totalLen bs + 24), _, _, kmallocLoop_found hrun (by omega), hgrew htight,
        ⟨[], rfl, by simp⟩, fun addr haddr => ?_⟩
      refine ⟨(p.base + 24 + totalLen bs, l'), ?_, (Option.some.inj haddr).symm, ?_, ?_⟩
      · exact List.mem_flatMap.mpr ⟨_, mem_middle.mpr (Or.inl rfl), hnew⟩
      · rcases hl' with rfl | rfl
        · exact Nat.mod_le _ _
        · exact hl
      · refine Set.disjoint_of_subset_left ?_ (hp.free_disjoint hblocks)
        exact Set.Ico_subset_Ico (Nat.le_add_right _ 24) (Nat.add_le_add_left hle _)

/-- A roomy call of `kmalloc` returns. The heap has taken frames for new pages, and given bytes that were not in
use. -/
theorem kmalloc_serves (hp : Pools h ps) (hroomy : Roomy ps h.frames len)
    (hfuel : ps.length + h.frames.length ≤ fuel) : ∃ addr h' ps', kmalloc fuel len h = .ok (addr, h') ∧
      Grew h ps h' ps' ∧ Took h ps h' ps' ∧ (addr ≠ 0 → Gave ps ps' addr len) := by
  obtain ⟨p, post, rfl, hpools⟩ := hp.head
  have hp' : Pools { h with interrupts := false } ([] ++ p :: post) := hp.interrupts false
  obtain ⟨res, h', ps', hloop, hgrew, htook, hgave⟩ := kmallocLoop_serves hp' (fun b hb => by cases hb) hroomy
    (show post.length + h.frames.length < fuel by rw [List.length_cons] at hfuel; omega)
  have hgrew' : Grew h (p :: post) h' ps' := ⟨hgrew.pools, hgrew.bytes, hgrew.used, hgrew.wrote⟩
  rw [← hpools] at hloop
  cases res with
  | none => exact ⟨0, h', ps', kmalloc_none hloop, hgrew', htook, fun h0 => absurd rfl h0⟩
  | some addr => exact ⟨addr, _, ps', kmalloc_some hloop, hgrew'.interrupts _, htook, fun _ => hgave addr rfl⟩

/-! ### The pages are there to be read -/

theorem Chain.unique {r : Ram} {a prev prev' stop : ℕ} {bs bs' : List (ℕ × Bool)} (hchain : Chain r a prev bs stop)
    (hchain' : Chain r a prev' bs' stop) (hstop : stop < a + 2 ^ 63) : bs = bs' := by
  have hne : ∀ {prev b bs}, ¬ Chain r stop prev (b :: bs) stop := by
    intro prev b bs h
    have hlen := (h.len_le List.mem_cons_self).1
    have hle := (h.len_le List.mem_cons_self).2
    omega
  induction bs generalizing a prev prev' bs' with
  | nil =>
    obtain rfl : a = stop := hchain
    cases bs' with
    | nil => rfl
    | cons b bs' => exact absurd hchain' hne
  | cons b bs ih =>
    cases bs' with
    | nil =>
      obtain rfl : a = stop := hchain'
      exact absurd hchain hne
    | cons b' bs' =>
      have hle := (hchain.len_le List.mem_cons_self).2
      have hle' := (hchain'.len_le List.mem_cons_self).2
      obtain ⟨l, u⟩ := b
      obtain ⟨l', u'⟩ := b'
      dsimp only at hle hle'
      obtain ⟨hheader, -, -, -, hrest⟩ := hchain
      obtain ⟨hheader', -, -, -, hrest'⟩ := hchain'
      have heq : blockHeader l u = blockHeader l' u' := hheader.symm.trans hheader'
      have hl : l = l' := by
        rw [← getBlockLen_blockHeader (show l < 2 ^ 63 by omega) u, heq, getBlockLen_blockHeader (by omega)]
      have hu : u = u' := by
        rw [← isBlockUsed_blockHeader (show l < 2 ^ 63 by omega) u, heq, isBlockUsed_blockHeader (by omega)]
      subst hl hu
      rw [ih hrest hrest' (by omega)]

theorem Pools.unique (hp : Pools h ps) (hp' : Pools h' ps') (hram : h'.ram = h.ram) (hpools : h'.pools = h.pools) :
    ps' = ps := by
  have hlinks := hp'.links
  rw [hram, hpools] at hlinks
  have hbases : ps'.map PoolPage.base = ps.map PoolPage.base := hlinks.unique hp.links
  have hsame : ∀ p ∈ ps, ∀ q ∈ ps', q.base = p.base → q = p := by
    intro p hmem q hmem' hbase
    have hchain := (hp.laid p hmem).chain
    have hchain' := (hp'.laid q hmem').chain
    rw [hram, hbase] at hchain'
    have hblocks := hchain'.unique hchain (by omega)
    cases p
    cases q
    dsimp only at hbase hblocks
    subst hbase hblocks
    rfl
  have hlen : ps'.length = ps.length := by
    rw [← List.length_map (f := PoolPage.base), hbases, List.length_map]
  refine List.ext_getElem hlen fun i h1 h2 => hsame _ (List.getElem_mem h2) _ (List.getElem_mem h1) ?_
  have hi := List.getElem_of_eq hbases (i := i) (by rwa [List.length_map])
  rwa [List.getElem_map, List.getElem_map] at hi

/-! ### Data -/

theorem Chain.write {r r' : Ram} {a prev stop : ℕ} {bs : List (ℕ × Bool)} (hchain : Chain r a prev bs stop)
    (heq : ∀ x, a ≤ x → x < stop → (∀ b ∈ usedBlocks a bs, x ∉ payload b) → r'.bytes x = r.bytes x) :
    Chain r' a prev bs stop := by
  induction bs generalizing a prev with
  | nil => exact hchain
  | cons b bs ih =>
    obtain ⟨l, u⟩ := b
    obtain ⟨hheader, hnext, hprev, hlen, hrest⟩ := hchain
    have hstop := hrest.stop_eq
    have hsub : ∀ c ∈ usedBlocks a ((l, u) :: bs), c = (a, l) ∨ c ∈ usedBlocks (a + l) bs := by
      intro c hc
      cases u with
      | false => exact Or.inr hc
      | true => exact List.mem_cons.mp hc
    have hhead : ∀ x, a ≤ x → x < a + 24 → r'.bytes x = r.bytes x := by
      intro x h1 h2
      refine heq x h1 (by omega) fun c hc hx => ?_
      have h3 : c.1 + 24 ≤ x := hx.1
      rcases hsub c hc with rfl | hc
      · dsimp only at h3
        omega
      · have hbound := (usedBlocks_bounds (x := c.1) (l := c.2) hc).1
        omega
    have hword : ∀ x, a ≤ x → x + 8 ≤ a + 24 → r'.word x = r.word x := fun x h1 h2 =>
      Ram.word_congr fun y h3 h4 => hhead y (by omega) (by omega)
    refine ⟨(hword a (le_refl a) (by omega)).trans hheader, (hword _ (by omega) (by omega)).trans hnext,
      (hword _ (by omega) (by omega)).trans hprev, hlen, ih hrest fun x h1 h2 hout => ?_⟩
    refine heq x (by omega) h2 fun c hc hx => ?_
    rcases hsub c hc with rfl | hc
    · have h3 : x < a + l := hx.2
      omega
    · exact hout c hc hx

theorem Pools.write (hp : Pools h ps) {r : Ram}
    (heq : ∀ x ∈ heapBytes ps, x ∉ heapData ps → r.bytes x = h.ram.bytes x) : Pools { h with ram := r } ps := by
  have hout : ∀ p ∈ ps, ∀ x ∈ p.bytes, (∀ b ∈ p.used, x ∉ payload b) → r.bytes x = h.ram.bytes x := by
    intro p hmem x hx hnot
    refine heq x ⟨p, hmem, hx⟩ fun hdata => ?_
    obtain ⟨b, hb, hxb⟩ := hdata
    obtain ⟨q, hq, hbq⟩ := List.mem_flatMap.mp hb
    obtain ⟨h1, h2⟩ := (hp.laid q hq).payload_subset hbq hxb
    by_cases hbase : q.base = p.base
    · have hqp : q = p := List.inj_on_of_nodup_map hp.bases_nodup hq hmem hbase
      exact hnot b (hqp ▸ hbq) hxb
    · exact Set.disjoint_left.mp (PoolPage.disjoint hbase) ⟨by omega, h2⟩ hx
  have hfront : ∀ p ∈ ps, ∀ x, p.base ≤ x → x < p.base + 24 → r.bytes x = h.ram.bytes x := by
    intro p hmem x h1 h2
    refine hout p hmem x ⟨h1, by omega⟩ fun b hb hx => ?_
    have h3 := ((hp.laid p hmem).payload_subset hb hx).1
    omega
  refine ⟨hp.links.congr fun a ha => ?_, hp.tail, fun p hmem => ?_, hp.frames⟩
  · obtain ⟨p, hmem, rfl⟩ := List.mem_map.mp ha
    exact poolNext_congr fun y h1 h2 => hfront p hmem y (by omega) h2
  · obtain ⟨hlen, husage, hne, hchain⟩ := hp.laid p hmem
    have hword : ∀ x, p.base ≤ x → x + 8 ≤ p.base + 24 → r.word x = h.ram.word x := fun x h1 h2 =>
      Ram.word_congr fun y h3 h4 => hfront p hmem y (by omega) (by omega)
    refine ⟨(hword _ (le_refl _) (by omega)).trans hlen, (hword _ (by omega) (by omega)).trans husage, hne,
      hchain.write fun x h1 h2 hnot => ?_⟩
    exact hout p hmem x ⟨by omega, h2⟩ hnot

end serve

end Fynaos
