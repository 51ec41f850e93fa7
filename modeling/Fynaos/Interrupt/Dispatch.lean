import Fynaos.Interrupt.Model
import Fynaos.Lib.NextList
import Mathlib.Data.Set.Lattice

/-!
# Registrations and dispatch

A `Run` is a history of `connect_interrupt` calls, between which the rest of the kernel may store
anywhere but in the chains. As long as all numbers are below 256 the chain of each vector holds the
handlers connected to it, the latest first (`Chains.run`), and `interrupt_service` goes through them
(`interrupts_dispatched`). The one check that is missing is that of the number against the length
of `interrupt_handlers`.
-/

namespace Fynaos.Interrupt

open NextList

/-! ### Runs -/

/-- A call of `connect_interrupt`: its arguments, the node that `kmalloc` gave and the result. -/
structure Call where
  handler : BitVec 64
  number : BitVec 32
  node : ℕ
  result : ℤ

def used (calls : List Call) : List ℕ := (calls.filter fun c => c.result = 0).map Call.node

/-- The handlers successfully connected to a vector, the latest first. -/
def connected (v : ℕ) (calls : List Call) : List ℕ :=
  (calls.filter fun c => c.number.toNat = v ∧ c.result = 0).map fun c => c.handler.toNat

def nodeSpan (node : ℕ) : Set ℕ := Set.Ico node (node + 16)

def chainSpan (calls : List Call) : Set ℕ := {x | ∃ n ∈ used calls, x ∈ nodeSpan n}

/-- The array `interrupt_handlers`. -/
def tableSpan (handlers : ℕ) : Set ℕ := Set.Ico handlers (handlers + 8 * 256)

/-- `kmalloc` gives NULL or a part of the heap that is not in use, and stores in the rest of the heap
only. -/
def Kmalloc (heap : Set ℕ) (calls : List Call) (kmalloc : Allocator) (r : Ram) : Prop :=
  ∃ node r' flag, kmalloc handlerInfoSize r false = .ok (node, r', flag) ∧ Wrote r r' (heap \ chainSpan calls) ∧
    (node ≠ 0 → Direct node 16 ∧ nodeSpan node ⊆ heap \ chainSpan calls)

/-- The array is mapped and does not belong to the heap. -/
structure Placed (handlers : ℕ) (heap : Set ℕ) : Prop where
  direct : Direct handlers (8 * 256)
  apart : Disjoint heap (tableSpan handlers)

/-- A history of calls, the latest first, and the memory after it. -/
inductive Run (handlers : ℕ) (heap : Set ℕ) : List Call → Ram → Prop where
  | start {r : Ram} (h : ∀ v < 256, r.word (handlers + 8 * v) = 0) : Run handlers heap [] r
  | connect {calls : List Call} {r r₁ r' : Ram} {kmalloc : Allocator} {interrupts interrupts' flag : Bool}
      {call : Call} (h : Run handlers heap calls r) (hkmalloc : Kmalloc heap calls kmalloc r)
      (hnode : kmalloc handlerInfoSize r false = .ok (call.node, r₁, flag))
      (hrun : connectInterrupt handlers kmalloc call.handler.toNat call.number.toNat r interrupts =
        .ok (call.result, r', interrupts')) : Run handlers heap (call :: calls) r'
  | other {calls : List Call} {r r' : Ram} (h : Run handlers heap calls r)
      (hwrote : Wrote r r' (chainSpan calls ∪ tableSpan handlers)ᶜ) : Run handlers heap calls r'

/-! ### The invariant -/

def pointer (x : ℕ) : Option ℕ := if x = 0 then none else some x

/-- `next` -/
def nodeNext (r : Ram) (node : ℕ) : Option ℕ := pointer (r.word (node + 8))

/-- The nodes are in the heap, and the chain of each vector holds its handlers. -/
structure Chains (handlers : ℕ) (heap : Set ℕ) (calls : List Call) (r : Ram) : Prop where
  node : ∀ n ∈ used calls, n ≠ 0 ∧ Direct n 16 ∧ nodeSpan n ⊆ heap
  chain : ∀ v < 256, ∃ l, (∀ n ∈ l, n ∈ used calls) ∧
    IsList (nodeNext r) (pointer (r.word (handlers + 8 * v))) l ∧ l.map r.word = connected v calls

section dispatch
variable {handlers : ℕ} {heap : Set ℕ} {calls : List Call} {r r' : Ram} {call : Call}
  {kmalloc : Allocator} {interrupts interrupts' flag : Bool} {handler number node v : ℕ}

theorem used_cons : used (call :: calls) =
    if call.result = 0 then call.node :: used calls else used calls := by
  unfold used
  rw [List.filter_cons]
  split_ifs with h1 h2 h2
  · rfl
  · exact absurd (of_decide_eq_true h1) h2
  · exact absurd (decide_eq_true h2) h1
  · rfl

theorem connected_cons : connected v (call :: calls) =
    if call.number.toNat = v ∧ call.result = 0 then call.handler.toNat :: connected v calls
    else connected v calls := by
  unfold connected
  rw [List.filter_cons]
  split_ifs with h1 h2 h2
  · rfl
  · exact absurd (of_decide_eq_true h1) h2
  · exact absurd (decide_eq_true h2) h1
  · rfl

theorem Placed.entry (h : Placed handlers heap) (hv : v < 256) : Direct (handlers + 8 * v) 8 :=
  h.direct.sub (by omega) (by omega)

theorem entry_subset (hv : v < 256) :
    Set.Ico (handlers + 8 * v) (handlers + 8 * v + 8) ⊆ tableSpan handlers := by
  rintro x ⟨h1, h2⟩
  exact ⟨by omega, by omega⟩

theorem low_subset (n : ℕ) : Set.Ico n (n + 8) ⊆ nodeSpan n :=
  Set.Ico_subset_Ico_right (by omega)

theorem high_subset (n : ℕ) : Set.Ico (n + 8) (n + 8 + 8) ⊆ nodeSpan n := by
  rintro x ⟨h1, h2⟩
  exact ⟨by omega, by omega⟩

theorem nodeSpan_subset {n : ℕ} (hn : n ∈ used calls) : nodeSpan n ⊆ chainSpan calls :=
  fun _ hx => ⟨n, hn, hx⟩

theorem Chains.frame {S : Set ℕ} (h : Chains handlers heap calls r) (hwrote : Wrote r r' S)
    (hchain : Disjoint (chainSpan calls) S) (htable : Disjoint (tableSpan handlers) S) :
    Chains handlers heap calls r' := by
  refine ⟨h.node, fun v hv => ?_⟩
  obtain ⟨l, hl, hlist, hmap⟩ := h.chain v hv
  have hspan : ∀ n ∈ l, Disjoint (nodeSpan n) S := fun n hn =>
    Set.disjoint_of_subset_left (nodeSpan_subset (hl n hn)) hchain
  refine ⟨l, hl, ?_, ?_⟩
  · rw [hwrote.word (Set.disjoint_of_subset_left (entry_subset hv) htable)]
    refine hlist.congr fun n hn => ?_
    rw [nodeNext, nodeNext, hwrote.word (Set.disjoint_of_subset_left (high_subset n) (hspan n hn))]
  · rw [← hmap]
    refine List.map_congr_left fun n hn => ?_
    exact hwrote.word (Set.disjoint_of_subset_left (low_subset n) (hspan n hn))

/-! ### One call -/

theorem connect_spec (interrupts : Bool) (hplaced : Placed handlers heap) (hk : Kmalloc heap calls kmalloc r)
    (hlow : 32 ≤ number) (hhigh : number < 256) (hhandler : handler < 2 ^ 64) :
    ∃ node r₁ flag, kmalloc handlerInfoSize r false = .ok (node, r₁, flag) ∧
      (node = 0 → connectInterrupt handlers kmalloc handler number r interrupts = .ok (-eNomem, r₁, interrupts) ∧
        Wrote r r₁ (heap \ chainSpan calls)) ∧
      (node ≠ 0 → Direct node 16 ∧ nodeSpan node ⊆ heap \ chainSpan calls ∧
        ∃ r', connectInterrupt handlers kmalloc handler number r interrupts = .ok (0, r', interrupts) ∧
          Wrote r r' (heap \ chainSpan calls ∪
            Set.Ico (handlers + 8 * number) (handlers + 8 * number + 8)) ∧
          r'.word node = handler ∧ r'.word (node + 8) = r.word (handlers + 8 * number) ∧
          r'.word (handlers + 8 * number) = node) := by
  obtain ⟨node, r₁, flag, hrun, hwrote, hfresh⟩ := hk
  refine ⟨node, r₁, flag, hrun, fun hnull => ?_, fun hnode => ?_⟩
  · refine ⟨?_, hwrote⟩
    rw [connectInterrupt, if_neg (by omega), hrun, ok_bind]
    dsimp only
    rw [if_pos hnull, pure_eq]
  · obtain ⟨hdirect, hspan⟩ := hfresh hnode
    have hentry := hplaced.entry hhigh
    have hsmall : node < 2 ^ 64 := by
      have hend := hdirect.2
      omega
    -- the array is not in the heap
    have hapart : Disjoint (nodeSpan node)
        (Set.Ico (handlers + 8 * number) (handlers + 8 * number + 8)) :=
      Set.disjoint_of_subset (hspan.trans Set.sdiff_subset) (entry_subset hhigh) hplaced.apart
    have hside : handlers + 8 * number + 8 ≤ node ∨ node + 16 ≤ handlers + 8 * number := by
      by_contra hboth
      have hnodeSpan : max node (handlers + 8 * number) ∈ nodeSpan node :=
        ⟨le_max_left _ _, by omega⟩
      exact Set.disjoint_left.mp hapart hnodeSpan ⟨le_max_right _ _, by omega⟩
    have hhead : (r₁.put node handler).word (handlers + 8 * number) =
        r.word (handlers + 8 * number) := by
      rw [Ram.word_put_of_disjoint (by omega)]
      refine hwrote.word (Set.disjoint_of_subset (entry_subset hhigh) Set.sdiff_subset ?_)
      exact hplaced.apart.symm
    refine ⟨hdirect, hspan, ((r₁.put node handler).put (node + 8)
      ((r₁.put node handler).word (handlers + 8 * number))).put (handlers + 8 * number) node,
      ?_, ?_, ?_, ?_, ?_⟩
    · rw [connectInterrupt, if_neg (by omega), hrun, ok_bind]
      dsimp only
      rw [if_neg hnode, (hdirect.mono (by norm_num)).store, ok_bind, hentry.load, ok_bind,
        (hdirect.sub (show node ≤ node + 8 by omega) (by omega)).store, ok_bind,
        hentry.store, ok_bind, pure_eq]
    · refine (hwrote.mono Set.subset_union_left).trans ?_
      refine (Wrote.put r₁ handler
        (((low_subset node).trans hspan).trans Set.subset_union_left)).trans ?_
      refine (Wrote.put _ ((r₁.put node handler).word (handlers + 8 * number))
        (((high_subset node).trans hspan).trans Set.subset_union_left)).trans ?_
      exact Wrote.put _ _ Set.subset_union_right
    · rw [Ram.word_put_of_disjoint (by omega), Ram.word_put_of_disjoint (by omega),
        Ram.word_put_self hhandler]
    · rw [Ram.word_put_of_disjoint (by omega), Ram.word_put_self (Ram.word_lt _ _), hhead]
    · exact Ram.word_put_self hsmall

theorem Chains.failed (h : Chains handlers heap calls r) (hresult : call.result ≠ 0) :
    Chains handlers heap (call :: calls) r := by
  have hused : used (call :: calls) = used calls := by rw [used_cons, if_neg hresult]
  refine ⟨by rw [hused]; exact h.node, fun v hv => ?_⟩
  rw [hused, connected_cons, if_neg fun h => hresult h.2]
  exact h.chain v hv

theorem Chains.linked (h : Chains handlers heap calls r) (hplaced : Placed handlers heap)
    (hnode : call.node ≠ 0) (hresult : call.result = 0) (hnumber : call.number.toNat < 256)
    (hdirect : Direct call.node 16) (hspan : nodeSpan call.node ⊆ heap \ chainSpan calls)
    (hwrote : Wrote r r' (heap \ chainSpan calls ∪ Set.Ico (handlers + 8 * call.number.toNat)
      (handlers + 8 * call.number.toNat + 8)))
    (hhandler : r'.word call.node = call.handler.toNat)
    (hnext : r'.word (call.node + 8) = r.word (handlers + 8 * call.number.toNat))
    (hhead : r'.word (handlers + 8 * call.number.toNat) = call.node) :
    Chains handlers heap (call :: calls) r' := by
  have hused : used (call :: calls) = call.node :: used calls := by rw [used_cons, if_pos hresult]
  -- the nodes in use are not written
  have hold : ∀ n ∈ used calls, r'.word n = r.word n ∧ r'.word (n + 8) = r.word (n + 8) := by
    intro n hn
    have hapart : Disjoint (nodeSpan n) (heap \ chainSpan calls ∪
        Set.Ico (handlers + 8 * call.number.toNat) (handlers + 8 * call.number.toNat + 8)) := by
      refine Set.disjoint_union_right.mpr ⟨?_, ?_⟩
      · exact Set.disjoint_left.mpr fun x hx hx' => hx'.2 (nodeSpan_subset hn hx)
      · exact Set.disjoint_of_subset (h.node n hn).2.2 (entry_subset hnumber) hplaced.apart
    exact ⟨hwrote.word (Set.disjoint_of_subset_left (low_subset n) hapart),
      hwrote.word (Set.disjoint_of_subset_left (high_subset n) hapart)⟩
  refine ⟨fun n hn => ?_, fun v hv => ?_⟩
  · rw [hused] at hn
    rcases List.mem_cons.mp hn with rfl | hn
    · exact ⟨hnode, hdirect, hspan.trans Set.sdiff_subset⟩
    · exact h.node n hn
  · obtain ⟨l, hl, hlist, hmap⟩ := h.chain v hv
    have hcongr : IsList (nodeNext r') (pointer (r.word (handlers + 8 * v))) l := by
      refine hlist.congr fun n hn => ?_
      rw [nodeNext, nodeNext, (hold n (hl n hn)).2]
    have hwords : l.map r'.word = connected v calls := by
      rw [← hmap]
      exact List.map_congr_left fun n hn => (hold n (hl n hn)).1
    rw [hused, connected_cons]
    by_cases hnum : call.number.toNat = v
    · subst hnum
      refine ⟨call.node :: l, ?_, ?_, ?_⟩
      · exact List.forall_mem_cons.mpr
          ⟨List.mem_cons_self, fun n hn => List.mem_cons_of_mem _ (hl n hn)⟩
      · rw [hhead]
        refine ⟨if_neg hnode, ?_⟩
        rw [nodeNext, hnext]
        exact hcongr
      · rw [if_pos ⟨rfl, hresult⟩, List.map_cons, hhandler, hwords]
    · refine ⟨l, fun n hn => List.mem_cons_of_mem _ (hl n hn), ?_, ?_⟩
      · have hentry : r'.word (handlers + 8 * v) = r.word (handlers + 8 * v) := by
          refine hwrote.word (Set.disjoint_union_right.mpr ⟨?_, ?_⟩)
          · exact Set.disjoint_of_subset (entry_subset hv) Set.sdiff_subset hplaced.apart.symm
          · refine Set.disjoint_left.mpr fun x hx hx' => ?_
            have h1 := hx.1
            have h2 := hx.2
            have h3 := hx'.1
            have h4 := hx'.2
            omega
        rw [hentry]
        exact hcongr
      · rw [if_neg fun h => hnum h.1, hwords]

theorem Chains.connect (h : Chains handlers heap calls r) (hplaced : Placed handlers heap)
    (hnumber : call.number.toNat < 256) (hk : Kmalloc heap calls kmalloc r) {r₁ : Ram}
    (hnode : kmalloc handlerInfoSize r false = .ok (call.node, r₁, flag))
    (hrun : connectInterrupt handlers kmalloc call.handler.toNat call.number.toNat r interrupts =
      .ok (call.result, r', interrupts')) : Chains handlers heap (call :: calls) r' := by
  by_cases hlow : call.number.toNat < 32
  · rw [connectInterrupt, if_pos hlow] at hrun
    obtain ⟨hresult, hpair⟩ := Prod.mk.inj (Except.ok.inj hrun)
    obtain ⟨rfl, -⟩ := Prod.mk.inj hpair
    refine h.failed ?_
    rw [← hresult]
    decide
  · obtain ⟨node, r₂, flag', hnode', hnull, hsome⟩ :=
      connect_spec interrupts hplaced hk (by omega) hnumber call.handler.isLt
    rw [hnode] at hnode'
    obtain ⟨rfl, hpair⟩ := Prod.mk.inj (Except.ok.inj hnode')
    obtain ⟨rfl, -⟩ := Prod.mk.inj hpair
    by_cases hzero : call.node = 0
    · obtain ⟨hfail, hwrote⟩ := hnull hzero
      rw [hfail] at hrun
      obtain ⟨hresult, hpair⟩ := Prod.mk.inj (Except.ok.inj hrun)
      obtain ⟨rfl, -⟩ := Prod.mk.inj hpair
      have hkeep := h.frame hwrote (Set.disjoint_left.mpr fun x hx hx' => hx'.2 hx)
        (Set.disjoint_of_subset_right Set.sdiff_subset hplaced.apart.symm)
      refine hkeep.failed ?_
      rw [← hresult]
      decide
    · obtain ⟨hdirect, hspan, r'', hok, hwrote, hhandler, hnext, hhead⟩ := hsome hzero
      rw [hok] at hrun
      obtain ⟨hresult, hpair⟩ := Prod.mk.inj (Except.ok.inj hrun)
      obtain ⟨rfl, -⟩ := Prod.mk.inj hpair
      exact h.linked hplaced hzero hresult.symm hnumber hdirect hspan hwrote hhandler hnext hhead

/-- Every run keeps the invariant while the numbers are below 256. -/
theorem Chains.run (hplaced : Placed handlers heap) (h : Run handlers heap calls r)
    (hnumber : ∀ c ∈ calls, c.number.toNat < 256) : Chains handlers heap calls r := by
  induction h with
  | start h =>
    refine ⟨fun n hn => absurd hn List.not_mem_nil, fun v hv => ⟨[], ?_, ?_, rfl⟩⟩
    · exact fun n hn => absurd hn List.not_mem_nil
    · rw [h v hv]
      rfl
  | connect h hk hnode hrun ih =>
    obtain ⟨hnum, hrest⟩ := List.forall_mem_cons.mp hnumber
    exact (ih hrest).connect hplaced hnum hk hnode hrun
  | other h hwrote ih =>
    refine (ih hnumber).frame hwrote ?_ ?_
    · exact Set.disjoint_compl_right_iff_subset.mpr Set.subset_union_left
    · exact Set.disjoint_compl_right_iff_subset.mpr Set.subset_union_right

/-! ### Dispatch -/

/-- The handlers of a list are called in order until one returns 0. -/
def dispatch {W : Type} (behave : Behaviour W) (vector : ℕ) : List ℕ → Ram → W → Service W
  | [], r, w => ⟨[], .panicked "Unhandled interrupt: vector=%llu" vector, r, w⟩
  | handler :: rest, r, w =>
    let (handled, r, w) := behave handler r w
    if handled = 0 then ⟨[handler], .exited, r, w⟩
    else
      let s := dispatch behave vector rest r w
      ⟨handler :: s.called, s.outcome, s.ram, s.world⟩

/-- The handlers leave the nodes of the chains alone. -/
def KeepsNodes {W : Type} (calls : List Call) (behave : Behaviour W) : Prop :=
  ∀ handler r w, ∀ x ∈ chainSpan calls, (behave handler r w).2.1.bytes x = r.bytes x

theorem serviceLoop_eq {W : Type} {behave : Behaviour W} {vector fuel : ℕ} {l : List ℕ} {head : ℕ}
    {w : W} (hkeeps : KeepsNodes calls behave)
    (hnodes : ∀ n ∈ used calls, n ≠ 0 ∧ Direct n 16 ∧ nodeSpan n ⊆ heap)
    (hl : ∀ n ∈ l, n ∈ used calls) (hlist : IsList (nodeNext r) (pointer head) l)
    (hfuel : l.length < fuel) :
    serviceLoop behave vector fuel head r w = .ok (dispatch behave vector (l.map r.word) r w) := by
  induction l generalizing fuel head r w with
  | nil =>
    obtain ⟨fuel, rfl⟩ : ∃ k, fuel = k + 1 := ⟨fuel - 1, by omega⟩
    have hnull : head = 0 := by
      by_contra hne
      have hsome : pointer head = some head := if_neg hne
      rw [isList_nil, hsome] at hlist
      cases hlist
    rw [serviceLoop, if_pos hnull]
    rfl
  | cons n l ih =>
    rw [List.length_cons] at hfuel
    obtain ⟨fuel, rfl⟩ : ∃ k, fuel = k + 1 := ⟨fuel - 1, by omega⟩
    obtain ⟨hn, htail⟩ := List.forall_mem_cons.mp hl
    obtain ⟨hne, hdirect, -⟩ := hnodes n hn
    obtain ⟨hhead, hlist⟩ := hlist
    obtain rfl : head = n := by
      unfold pointer at hhead
      split_ifs at hhead with hzero
      exact Option.some.inj hhead
    have hnext : Direct (head + 8) 8 := hdirect.sub (by omega) (by omega)
    -- what the handler does is not seen in the chain
    have hsame : ∀ n ∈ used calls, ∀ a, Set.Ico a (a + 8) ⊆ nodeSpan n →
        (behave (r.word head) r w).2.1.word a = r.word a := by
      intro n hn a ha
      refine Ram.word_congr fun x h1 h2 => ?_
      exact hkeeps _ _ _ x (nodeSpan_subset hn (ha ⟨h1, h2⟩))
    rw [serviceLoop, if_neg hne, (hdirect.mono (by norm_num)).load, ok_bind, List.map_cons, dispatch]
    dsimp only
    split_ifs with hhandled
    · rfl
    · have hrest : IsList (nodeNext (behave (r.word head) r w).2.1)
          (pointer ((behave (r.word head) r w).2.1.word (head + 8))) l := by
        rw [hsame head hn (head + 8) (high_subset head)]
        refine hlist.congr fun m hm => ?_
        rw [nodeNext, nodeNext, hsame m (htail m hm) (m + 8) (high_subset m)]
      have hwords : l.map (behave (r.word head) r w).2.1.word = l.map r.word :=
        List.map_congr_left fun m hm => hsame m (htail m hm) m (low_subset m)
      rw [hnext.load, ok_bind, ih htail hrest (by omega), ok_bind, hwords, pure_eq]

theorem Chains.service {W : Type} {behave : Behaviour W} {fuel : ℕ} {w : W}
    (h : Chains handlers heap calls r) (hplaced : Placed handlers heap) (hlow : 32 ≤ v)
    (hhigh : v < 256) (hkeeps : KeepsNodes calls behave) (hfuel : calls.length < fuel) :
    interruptService handlers behave v fuel r w =
      .ok (dispatch behave v (connected v calls) r w) := by
  obtain ⟨l, hl, hlist, hmap⟩ := h.chain v hhigh
  have hlen : l.length ≤ calls.length := by
    calc l.length = (l.map r.word).length := (List.length_map _).symm
      _ = (connected v calls).length := by rw [hmap]
      _ ≤ calls.length := by
        rw [connected, List.length_map]
        exact List.length_filter_le _ _
  rw [interruptService, (hplaced.entry hhigh).load, ok_bind, if_neg (by omega), ← hmap]
  exact serviceLoop_eq hkeeps h.node hl hlist (by omega)

end dispatch

/-! ### The contract -/

/-- What a call returns: `EINVAL` for a number that is not that of an interrupt, `ENOMEM` when `kmalloc`
gives NULL, and with both the memory outside of the heap stays as it was. -/
def Connects (handlers : ℕ) (heap : Set ℕ) (kmalloc : Allocator) (handler number : ℕ) (r : Ram)
    (interrupts : Bool) : Prop :=
  ∃ result r' interrupts',
    connectInterrupt handlers kmalloc handler number r interrupts = .ok (result, r', interrupts') ∧
    (¬ (32 ≤ number ∧ number < 256) → result = -eInval ∧ Wrote r r' heap) ∧
    (32 ≤ number ∧ number < 256 → (∀ r₁ flag, kmalloc handlerInfoSize r false ≠ .ok (0, r₁, flag)) → result = 0) ∧
    (32 ≤ number ∧ number < 256 → (∃ r₁ flag, kmalloc handlerInfoSize r false = .ok (0, r₁, flag)) →
      result = -eNomem ∧ Wrote r r' heap)

theorem interrupts_dispatched {handlers : ℕ} {heap : Set ℕ} {calls : List Call} {r : Ram}
    (hplaced : Placed handlers heap) (hrun : Run handlers heap calls r)
    (hnumber : ∀ c ∈ calls, c.number.toNat < 256) :
    (∀ kmalloc handler number interrupts, Kmalloc heap calls kmalloc r → handler < 2 ^ 64 → number < 256 →
      Connects handlers heap kmalloc handler number r interrupts) ∧
    ∀ (W : Type) (behave : Behaviour W) (w : W) (v fuel : ℕ), KeepsNodes calls behave → 32 ≤ v →
      v < 256 → calls.length < fuel →
      interruptService handlers behave v fuel r w =
        .ok (dispatch behave v (connected v calls) r w) := by
  have hchains := Chains.run hplaced hrun hnumber
  constructor
  · intro kmalloc handler number interrupts hk hhandler hhigh
    by_cases hlow : number < 32
    · refine ⟨-eInval, r, interrupts, by rw [connectInterrupt, if_pos hlow], fun _ => ⟨rfl, Wrote.refl r heap⟩,
        fun h => absurd h.1 (by omega), fun h => absurd h.1 (by omega)⟩
    · obtain ⟨node, r₁, flag, hnode, hnull, hsome⟩ :=
        connect_spec interrupts hplaced hk (Nat.le_of_not_lt hlow) hhigh hhandler
      by_cases hzero : node = 0
      · obtain ⟨hfail, hwrote⟩ := hnull hzero
        refine ⟨_, r₁, interrupts, hfail, fun h => absurd ⟨Nat.le_of_not_lt hlow, hhigh⟩ h,
          fun _ h => absurd hnode (by rw [hzero]; exact h r₁ flag),
          fun _ _ => ⟨rfl, hwrote.mono Set.sdiff_subset⟩⟩
      · obtain ⟨-, -, r', hok, -⟩ := hsome hzero
        refine ⟨0, r', interrupts, hok, fun h => absurd ⟨Nat.le_of_not_lt hlow, hhigh⟩ h, fun _ _ => rfl, ?_⟩
        rintro - ⟨r₂, flag', hr₂⟩
        rw [hnode] at hr₂
        exact absurd (Prod.mk.inj (Except.ok.inj hr₂)).1 hzero
  · intro W behave w v fuel hkeeps hlow hhigh hfuel
    exact hchains.service hplaced hlow hhigh hkeeps hfuel

/-! ### Two registrations -/

/-- The page that `kmalloc` takes memory from in the examples. -/
def samplePage : ℕ := 0xFFFF800000400000

/-- A place for the array. -/
def sampleTable : ℕ := 0xFFFFFFFF80200000

def sampleRam : Ram := ⟨fun _ => 0, []⟩

/-- The first node of the page. -/
def sampleKmalloc : Allocator := fun _ r interrupts => .ok (samplePage, r, interrupts)

theorem samplePlaced : Placed sampleTable (Set.Ico samplePage (samplePage + 4096)) := by
  refine ⟨⟨by decide, by decide⟩, Set.disjoint_left.mpr fun x hx hx' => ?_⟩
  have h1 := hx.2
  have h2 := hx'.1
  unfold samplePage at h1
  unfold sampleTable at h2
  omega

theorem sampleRun : Run sampleTable (Set.Ico samplePage (samplePage + 4096)) [] sampleRam :=
  Run.start fun _ _ => Memory.load_eq_zero fun _ _ _ => rfl

theorem sampleKmalloc_fresh (r : Ram) :
    Kmalloc (Set.Ico samplePage (samplePage + 4096)) [] sampleKmalloc r := by
  refine ⟨samplePage, r, false, rfl, Wrote.refl _ _, fun _ => ⟨⟨by decide, by decide⟩, ?_⟩⟩
  rintro x ⟨h1, h2⟩
  refine ⟨⟨h1, lt_trans h2 (Nat.add_lt_add_left (by norm_num) _)⟩, ?_⟩
  rintro ⟨n, hn, -⟩
  exact List.not_mem_nil hn

/-- The first call, for vector 32. -/
def sampleCall : Call := ⟨4096, 32, samplePage, 0⟩

theorem chainSpan_sampleCall : chainSpan [sampleCall] = nodeSpan samplePage := by
  ext x
  simp [chainSpan, used, sampleCall]

/-- The second node of the page. -/
def nextKmalloc : Allocator := fun _ r interrupts => .ok (samplePage + 16, r, interrupts)

/-- There is no memory, and interrupts stay disabled. -/
def nullKmalloc : Allocator := fun _ r _ => .ok (0, r, false)

theorem nextKmalloc_fresh (r : Ram) :
    Kmalloc (Set.Ico samplePage (samplePage + 4096)) [sampleCall] nextKmalloc r := by
  refine ⟨samplePage + 16, r, false, rfl, Wrote.refl _ _, fun _ => ⟨⟨by decide, by decide⟩, ?_⟩⟩
  rw [chainSpan_sampleCall]
  generalize samplePage = page
  rintro x ⟨h1, h2⟩
  exact ⟨⟨by omega, by omega⟩, fun hx => absurd hx.2 (by omega)⟩

/-- A device at 4096 that interrupts, and one at 8192 that does not. -/
def sharedHandler : Behaviour Unit := fun handler r w => (if handler = 4096 then 0 else 1, r, w)

/-- Two handlers share a vector, and there is no memory for a third one. -/
theorem interrupts_dispatched_timer : ∃ r s,
    Run sampleTable (Set.Ico samplePage (samplePage + 4096)) [⟨8192, 32, samplePage + 16, 0⟩, sampleCall] r ∧
    interruptService sampleTable sharedHandler 32 3 r () = .ok s ∧ s.called = [8192, 4096] ∧
    s.outcome = .exited ∧
    Connects sampleTable (Set.Ico samplePage (samplePage + 4096)) nullKmalloc 4096 33 r true := by
  obtain ⟨node, r, flag, hnode, -, hlinked⟩ := connect_spec true samplePlaced
    (sampleKmalloc_fresh sampleRam) (le_refl 32) (by norm_num) (show 4096 < 2 ^ 64 by norm_num)
  cases hnode
  obtain ⟨-, -, r₁, hconnect, -⟩ := hlinked (by decide)
  have hfirst : Run sampleTable (Set.Ico samplePage (samplePage + 4096)) [sampleCall] r₁ :=
    Run.connect sampleRun (sampleKmalloc_fresh sampleRam) rfl hconnect
  obtain ⟨node, r, flag, hnode, -, hlinked⟩ := connect_spec true samplePlaced
    (nextKmalloc_fresh r₁) (le_refl 32) (by norm_num) (show 8192 < 2 ^ 64 by norm_num)
  cases hnode
  obtain ⟨-, -, r₂, hconnect, -⟩ := hlinked (by decide)
  have hboth : Run sampleTable (Set.Ico samplePage (samplePage + 4096))
      [⟨8192, 32, samplePage + 16, 0⟩, sampleCall] r₂ :=
    Run.connect hfirst (nextKmalloc_fresh r₁) rfl hconnect
  obtain ⟨hconnects, hservice⟩ := interrupts_dispatched samplePlaced hboth (by decide)
  have hserved := hservice Unit sharedHandler () 32 3 (fun _ _ _ _ _ => rfl) (le_refl 32) (by norm_num)
    (by norm_num)
  have hconnected : connected 32 [⟨8192, 32, samplePage + 16, 0⟩, sampleCall] = [8192, 4096] := by decide
  rw [hconnected] at hserved
  exact ⟨r₂, _, hboth, hserved, rfl, rfl, hconnects nullKmalloc 4096 33 true
    ⟨0, r₂, false, rfl, Wrote.refl _ _, fun hne => absurd rfl hne⟩ (by norm_num) (by norm_num)⟩

/-- The number 256 is accepted, and the node goes behind the array. -/
theorem number_not_checked :
    (∃ r', connectInterrupt sampleTable sampleKmalloc 4096 256 sampleRam true = .ok (0, r', true) ∧
      sampleRam.word (sampleTable + 8 * 256) = 0 ∧
      r'.word (sampleTable + 8 * 256) = samplePage) ∧
    ¬ Connects sampleTable (Set.Ico samplePage (samplePage + 4096)) sampleKmalloc 4096 256
      sampleRam true := by
  have hnode : Direct samplePage 8 := ⟨by decide, by decide⟩
  have hnext : Direct (samplePage + 8) 8 := ⟨by decide, by decide⟩
  have hentry : Direct (sampleTable + 8 * 256) 8 := ⟨by decide, by decide⟩
  have hrun : connectInterrupt sampleTable sampleKmalloc 4096 256 sampleRam true =
      .ok (0, ((sampleRam.put samplePage 4096).put (samplePage + 8)
        ((sampleRam.put samplePage 4096).word (sampleTable + 8 * 256))).put (sampleTable + 8 * 256)
        samplePage, true) := by
    rw [connectInterrupt, if_neg (by norm_num), sampleKmalloc, ok_bind]
    dsimp only
    rw [if_neg (by decide), hnode.store, ok_bind, hentry.load, ok_bind, hnext.store, ok_bind,
      hentry.store, ok_bind, pure_eq]
  constructor
  · refine ⟨_, hrun, Memory.load_eq_zero fun _ _ _ => rfl, ?_⟩
    exact Ram.word_put_self (by decide)
  · rintro ⟨result, r', interrupts', hok, hinvalid, -⟩
    obtain ⟨hresult, -⟩ := hinvalid (by norm_num)
    rw [hrun] at hok
    have hzero : 0 = result := (Prod.mk.inj (Except.ok.inj hok)).1
    rw [hresult] at hzero
    exact absurd hzero (by decide)

end Fynaos.Interrupt
