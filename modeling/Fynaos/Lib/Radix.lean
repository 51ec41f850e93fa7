import Mathlib.Data.List.Nodup
import Mathlib.Data.List.Pairwise
import Mathlib.Order.Nat

/-!
# Radix trees in a memory of tables

A memory gives to a table and an index the node behind that entry, if there is one. `walk` follows a
path of indices. Nodes at a distance below `depth` of a root are tables, those at distance `depth`
are what the trees map their paths to. In a `Forest` no table is reached twice, neither from two roots nor
along two paths, and so an edit of one entry is seen along one path only (`Forest.walk_update`).

`visit` lists the nodes below a table in the order of a recursive walk, which meets each of them once just
when no two paths share a node (`nodup_visit`).
-/

namespace Radix

variable {α ι κ : Type*}

/-- The node behind a path. -/
def walk (child : α → ι → Option α) : α → List ι → Option α
  | a, [] => some a
  | a, i :: p => (child a i).bind fun b => walk child b p

/-- A table of the tree with the root of `k`. -/
def TableOf (child : α → ι → Option α) (depth : ℕ) (root : κ → Option α) (k : κ) (b : α) : Prop :=
  ∃ a p, root k = some a ∧ p.length < depth ∧ walk child a p = some b

def IsTable (child : α → ι → Option α) (depth : ℕ) (root : κ → Option α) (b : α) : Prop :=
  ∃ k, TableOf child depth root k b

/-- No table is reached twice. -/
structure Forest (child : α → ι → Option α) (depth : ℕ) (root : κ → Option α) : Prop where
  unique : ∀ {k k' : κ} {a a' b : α} {p p' : List ι}, root k = some a → root k' = some a' →
    p.length < depth → p'.length < depth → walk child a p = some b → walk child a' p' = some b →
    k = k' ∧ p = p'

variable {child child' : α → ι → Option α} {depth : ℕ} {root root' : κ → Option α} {k k' : κ}
  {a b c r r' : α} {i j : ι} {p q : List ι}

@[simp] theorem walk_nil : walk child a [] = some a := rfl

@[simp] theorem walk_cons : walk child a (i :: p) = (child a i).bind fun b => walk child b p := rfl

theorem walk_append : walk child a (p ++ q) = (walk child a p).bind fun b => walk child b q := by
  induction p generalizing a with
  | nil => rfl
  | cons i p ih =>
    rw [List.cons_append, walk_cons, walk_cons, Option.bind_assoc]
    exact congrArg _ (funext fun b => ih)

theorem walk_snoc : walk child a (p ++ [i]) = (walk child a p).bind fun b => child b i := by
  rw [walk_append]
  refine congrArg _ (funext fun b => ?_)
  rw [walk_cons]
  cases child b i <;> rfl

theorem walk_congr (h : ∀ q₁ j q₂ b, p = q₁ ++ j :: q₂ → walk child a q₁ = some b →
    child' b j = child b j) : walk child' a p = walk child a p := by
  induction p generalizing a with
  | nil => rfl
  | cons i p ih =>
    rw [walk_cons, walk_cons, h [] i p a rfl rfl]
    cases hb : child a i with
    | none => rfl
    | some b =>
      refine ih fun q₁ j q₂ c hp hc => h (i :: q₁) j q₂ c (by rw [hp]; rfl) ?_
      rw [walk_cons, hb]
      exact hc

theorem walk_empty (h : ∀ i, child a i = none) (hp : p ≠ []) : walk child a p = none := by
  cases p with
  | nil => exact absurd rfl hp
  | cons i p => rw [walk_cons, h i, Option.bind_none]

theorem eq_of_walk_empty (h : ∀ i, child a i = none) (hp : walk child a p = some b) :
    p = [] ∧ b = a := by
  by_cases hnil : p = []
  · subst hnil
    exact ⟨rfl, (Option.some.inj hp).symm⟩
  · rw [walk_empty h hnil] at hp
    cases hp

theorem tableOf_empty (hr : root k = some r) (h : ∀ i, child r i = none) (hdepth : 0 < depth) :
    TableOf child depth root k c ↔ c = r := by
  constructor
  · rintro ⟨a, p, ha, -, hp⟩
    obtain rfl : r = a := Option.some.inj (hr.symm.trans ha)
    exact (eq_of_walk_empty h hp).2
  · rintro rfl
    exact ⟨c, [], hr, hdepth, walk_nil⟩

/-! ### Memory outside of the trees -/

theorem walk_frame (h : ∀ b, IsTable child depth root b → ∀ i, child' b i = child b i)
    (hk : root k = some a) (hp : p.length ≤ depth) : walk child' a p = walk child a p := by
  refine walk_congr fun q₁ j q₂ b hq hb => h b ⟨k, a, q₁, hk, ?_, hb⟩ j
  rw [hq, List.length_append, List.length_cons] at hp
  omega

theorem tableOf_frame (h : ∀ b, IsTable child depth root b → ∀ i, child' b i = child b i) :
    TableOf child' depth root k c ↔ TableOf child depth root k c := by
  constructor
  · rintro ⟨a, p, hk, hp, hwalk⟩
    exact ⟨a, p, hk, hp, by rw [← hwalk, walk_frame h hk hp.le]⟩
  · rintro ⟨a, p, hk, hp, hwalk⟩
    exact ⟨a, p, hk, hp, by rw [walk_frame h hk hp.le, hwalk]⟩

theorem Forest.frame (hf : Forest child depth root)
    (h : ∀ b, IsTable child depth root b → ∀ i, child' b i = child b i) :
    Forest child' depth root := by
  refine ⟨fun {k k' a a' b p p'} hk hk' hp hp' hb hb' => hf.unique (b := b) hk hk' hp hp' ?_ ?_⟩
  · rw [← hb, walk_frame h hk hp.le]
  · rw [← hb', walk_frame h hk' hp'.le]

theorem Forest.mono (hf : Forest child depth root) (h : ∀ k a, root' k = some a → root k = some a) :
    Forest child depth root' :=
  ⟨fun hk hk' hp hp' hb hb' => hf.unique (h _ _ hk) (h _ _ hk') hp hp' hb hb'⟩

theorem tableOf_congr (h : root' k = root k) :
    TableOf child depth root' k c ↔ TableOf child depth root k c := by
  rw [TableOf, TableOf, h]

theorem TableOf.mono (ht : TableOf child depth root' k c)
    (h : ∀ k a, root' k = some a → root k = some a) : TableOf child depth root k c := by
  obtain ⟨a, p, hk, hp, hwalk⟩ := ht
  exact ⟨a, p, h k a hk, hp, hwalk⟩

/-! ### Edits of one entry -/

theorem Forest.walk_update (hf : Forest child depth root) (hr : root k = some r)
    (hp : p.length < depth) (ha : walk child r p = some a)
    (h : ∀ b, IsTable child depth root b → ∀ j, ¬ (b = a ∧ j = i) → child' b j = child b j)
    (hr' : root k' = some r') (hq : q.length ≤ depth)
    (hthrough : ∀ q₂, q₂ ≠ [] → ¬ (k' = k ∧ q = p ++ i :: q₂)) :
    (k' = k ∧ q = p ++ [i] → walk child' r' q = child' a i) ∧
      (¬ (k' = k ∧ q = p ++ [i]) → walk child' r' q = walk child r' q) := by
  -- the entry is only read along the path `p ++ [i]`
  have hsame : ∀ {k' r' q}, root k' = some r' → q.length ≤ depth →
      (∀ q₂, ¬ (k' = k ∧ q = p ++ i :: q₂)) → walk child' r' q = walk child r' q := by
    intro k' r' q hr' hq hnot
    refine walk_congr fun q₁ j q₂ b hsplit hb => h b ⟨k', r', q₁, hr', ?_, hb⟩ j ?_
    · rw [hsplit, List.length_append, List.length_cons] at hq
      omega
    · rintro ⟨rfl, rfl⟩
      have hlen : q₁.length < depth := by
        rw [hsplit, List.length_append, List.length_cons] at hq
        omega
      obtain ⟨rfl, rfl⟩ := hf.unique hr' hr hlen hp hb ha
      exact hnot q₂ ⟨rfl, hsplit⟩
  constructor
  · rintro ⟨rfl, rfl⟩
    obtain rfl : r' = r := Option.some.inj (hr'.symm.trans hr)
    rw [walk_snoc, hsame hr hp.le, ha, Option.bind_some]
    rintro q₂ ⟨-, hq₂⟩
    exact List.cons_ne_nil i q₂ (List.self_eq_append_right.mp hq₂)
  · intro hnot
    refine hsame hr' hq fun q₂ hq₂ => ?_
    by_cases hnil : q₂ = []
    · exact hnot ⟨hq₂.1, by rw [hq₂.2, hnil]⟩
    · exact hthrough q₂ hnil hq₂

/-- An empty table `b` is put behind an empty entry. -/
structure Linked (child child' : α → ι → Option α) (IsOld : α → Prop) (a : α) (i : ι) (b : α) :
    Prop where
  entry : child' a i = some b
  empty : ∀ j, child' b j = none
  other : ∀ c, IsOld c → ∀ j, ¬ (c = a ∧ j = i) → child' c j = child c j

theorem Forest.walk_link (hf : Forest child depth root) (hr : root k = some r)
    (hp : p.length < depth) (ha : walk child r p = some a) (hnone : child a i = none)
    (h : Linked child child' (IsTable child depth root) a i b) (hr' : root k' = some r')
    (hq : q.length ≤ depth) :
    (k' = k ∧ q = p ++ [i] → walk child' r' q = some b) ∧
      (¬ (k' = k ∧ q = p ++ [i]) → walk child' r' q = walk child r' q) := by
  by_cases hthrough : ∃ q₂, q₂ ≠ [] ∧ k' = k ∧ q = p ++ i :: q₂
  · obtain ⟨q₂, hne, rfl, rfl⟩ := hthrough
    obtain rfl : r' = r := Option.some.inj (hr'.symm.trans hr)
    have hself : ∀ q₂, p ≠ p ++ i :: q₂ := fun q₂ hq₂ =>
      List.cons_ne_nil i q₂ (List.self_eq_append_right.mp hq₂)
    have hlast := (hf.walk_update hr hp ha h.other hr (q := p) hp.le fun q₂ _ hq₂ =>
      hself q₂ hq₂.2).2 fun hq₂ => hself [] hq₂.2
    constructor
    · rintro ⟨-, hq₂⟩
      have htail := List.append_cancel_left hq₂
      exact absurd (List.cons.inj htail).2 hne
    · intro _
      rw [walk_append, walk_append, hlast, ha, Option.bind_some, Option.bind_some, walk_cons,
        walk_cons, h.entry, hnone, Option.bind_some, Option.bind_none, walk_empty h.empty hne]
  · have hedit := hf.walk_update hr hp ha h.other hr' hq fun q₂ hne hq₂ =>
      hthrough ⟨q₂, hne, hq₂⟩
    exact ⟨fun hq₂ => by rw [hedit.1 hq₂, h.entry], hedit.2⟩

theorem Forest.tableOf_link (hf : Forest child depth root) (hr : root k = some r)
    (hp : p.length + 1 < depth) (ha : walk child r p = some a) (hnone : child a i = none)
    (h : Linked child child' (IsTable child depth root) a i b) :
    TableOf child' depth root k' c ↔ TableOf child depth root k' c ∨ (k' = k ∧ c = b) := by
  have hwalk : ∀ {k' r' q}, root k' = some r' → q.length < depth →
      (k' = k ∧ q = p ++ [i] → walk child' r' q = some b) ∧
        (¬ (k' = k ∧ q = p ++ [i]) → walk child' r' q = walk child r' q) := fun hr' hq =>
    hf.walk_link hr (by omega) ha hnone h hr' hq.le
  constructor
  · rintro ⟨r', q, hr', hq, hc⟩
    by_cases hnew : k' = k ∧ q = p ++ [i]
    · rw [(hwalk hr' hq).1 hnew] at hc
      exact Or.inr ⟨hnew.1, (Option.some.inj hc).symm⟩
    · rw [(hwalk hr' hq).2 hnew] at hc
      exact Or.inl ⟨r', q, hr', hq, hc⟩
  · rintro (⟨r', q, hr', hq, hc⟩ | ⟨rfl, rfl⟩)
    · refine ⟨r', q, hr', hq, ?_⟩
      rw [(hwalk hr' hq).2, hc]
      rintro ⟨rfl, rfl⟩
      obtain rfl : r' = r := Option.some.inj (hr'.symm.trans hr)
      rw [walk_snoc, ha, Option.bind_some, hnone] at hc
      cases hc
    · have hlen : (p ++ [i]).length < depth := by
        rw [List.length_append, List.length_singleton]
        exact hp
      exact ⟨r, p ++ [i], hr, hlen, (hwalk hr hlen).1 ⟨rfl, rfl⟩⟩

theorem Forest.link (hf : Forest child depth root) (hr : root k = some r) (hp : p.length < depth)
    (ha : walk child r p = some a) (hnone : child a i = none)
    (h : Linked child child' (IsTable child depth root) a i b)
    (hb : ¬ IsTable child depth root b) : Forest child' depth root := by
  have hcases : ∀ {k' r' q c}, root k' = some r' → q.length < depth → walk child' r' q = some c →
      (k' = k ∧ q = p ++ [i] ∧ c = b) ∨ (c ≠ b ∧ walk child r' q = some c) := by
    intro k' r' q c hr' hq hc
    have hwalk := hf.walk_link hr hp ha hnone h hr' hq.le
    by_cases hnew : k' = k ∧ q = p ++ [i]
    · rw [hwalk.1 hnew] at hc
      exact Or.inl ⟨hnew.1, hnew.2, (Option.some.inj hc).symm⟩
    · rw [hwalk.2 hnew] at hc
      refine Or.inr ⟨?_, hc⟩
      rintro rfl
      exact hb ⟨k', r', q, hr', hq, hc⟩
  refine ⟨fun hk hk' hp₁ hp₂ hc hc' => ?_⟩
  rcases hcases hk hp₁ hc with ⟨rfl, rfl, rfl⟩ | ⟨hne, hold⟩
  · rcases hcases hk' hp₂ hc' with ⟨rfl, rfl, -⟩ | ⟨hne, -⟩
    · exact ⟨rfl, rfl⟩
    · exact absurd rfl hne
  · rcases hcases hk' hp₂ hc' with ⟨-, -, rfl⟩ | ⟨-, hold'⟩
    · exact absurd rfl hne
    · exact hf.unique hk hk' hp₁ hp₂ hold hold'

theorem Forest.walk_leaf (hf : Forest child depth root) (hr : root k = some r)
    (hp : p.length + 1 = depth) (ha : walk child r p = some a)
    (h : ∀ b, IsTable child depth root b → ∀ j, ¬ (b = a ∧ j = i) → child' b j = child b j)
    (hr' : root k' = some r') (hq : q.length ≤ depth) :
    (k' = k ∧ q = p ++ [i] → walk child' r' q = child' a i) ∧
      (¬ (k' = k ∧ q = p ++ [i]) → walk child' r' q = walk child r' q) := by
  refine hf.walk_update hr (by omega) ha h hr' hq fun q₂ hne hq₂ => ?_
  have hlen := congrArg List.length hq₂.2
  have hpos : 0 < q₂.length := List.length_pos_iff.mpr hne
  rw [List.length_append, List.length_cons] at hlen
  omega

theorem Forest.walk_table_leaf (hf : Forest child depth root) (hr : root k = some r)
    (hp : p.length + 1 = depth) (ha : walk child r p = some a)
    (h : ∀ b, IsTable child depth root b → ∀ j, ¬ (b = a ∧ j = i) → child' b j = child b j)
    (hr' : root k' = some r') (hq : q.length < depth) : walk child' r' q = walk child r' q := by
  refine (hf.walk_leaf hr hp ha h hr' hq.le).2 fun hnew => ?_
  rw [hnew.2, List.length_append, List.length_singleton] at hq
  omega

theorem Forest.tableOf_leaf (hf : Forest child depth root) (hr : root k = some r)
    (hp : p.length + 1 = depth) (ha : walk child r p = some a)
    (h : ∀ b, IsTable child depth root b → ∀ j, ¬ (b = a ∧ j = i) → child' b j = child b j) :
    TableOf child' depth root k' c ↔ TableOf child depth root k' c := by
  have hwalk : ∀ {r' q}, root k' = some r' → q.length < depth →
      walk child' r' q = walk child r' q := hf.walk_table_leaf hr hp ha h
  constructor
  · rintro ⟨r', q, hr', hq, hc⟩
    exact ⟨r', q, hr', hq, by rw [← hwalk hr' hq, hc]⟩
  · rintro ⟨r', q, hr', hq, hc⟩
    exact ⟨r', q, hr', hq, by rw [hwalk hr' hq, hc]⟩

theorem Forest.leaf (hf : Forest child depth root) (hr : root k = some r)
    (hp : p.length + 1 = depth) (ha : walk child r p = some a)
    (h : ∀ b, IsTable child depth root b → ∀ j, ¬ (b = a ∧ j = i) → child' b j = child b j) :
    Forest child' depth root := by
  have hwalk : ∀ {k' r' q}, root k' = some r' → q.length < depth →
      walk child' r' q = walk child r' q := hf.walk_table_leaf hr hp ha h
  refine ⟨fun {k k' a a' b p p'} hk hk' hp₁ hp₂ hc hc' => hf.unique (b := b) hk hk' hp₁ hp₂ ?_ ?_⟩
  · rw [← hwalk hk hp₁, hc]
  · rw [← hwalk hk' hp₂, hc']

/-! ### A tree that comes or goes -/

section update
variable [DecidableEq κ]

theorem update_none (h : Function.update root k none k' = some a) : k' ≠ k ∧ root k' = some a := by
  by_cases hkk : k' = k
  · rw [hkk, Function.update_self] at h
    cases h
  · rw [Function.update_of_ne hkk] at h
    exact ⟨hkk, h⟩

theorem update_some (h : Function.update root k (some b) k' = some a) :
    (k' = k ∧ a = b) ∨ (k' ≠ k ∧ root k' = some a) := by
  by_cases hkk : k' = k
  · rw [hkk, Function.update_self] at h
    exact Or.inl ⟨hkk, (Option.some.inj h).symm⟩
  · rw [Function.update_of_ne hkk] at h
    exact Or.inr ⟨hkk, h⟩

theorem Forest.plant (hf : Forest child depth root) (hk : root k = none)
    (hframe : ∀ c, IsTable child depth root c → ∀ i, child' c i = child c i)
    (hempty : ∀ i, child' b i = none) (hb : ¬ IsTable child depth root b) :
    Forest child' depth (Function.update root k (some b)) := by
  have hold := hf.frame hframe
  have hb' : ¬ IsTable child' depth root b := by
    rintro ⟨k', ht⟩
    exact hb ⟨k', (tableOf_frame hframe).mp ht⟩
  have hnew : ∀ {q c}, walk child' b q = some c → q = [] ∧ c = b := eq_of_walk_empty hempty
  refine ⟨fun h₁ h₂ hp₁ hp₂ hc₁ hc₂ => ?_⟩
  rcases update_some h₁ with ⟨rfl, rfl⟩ | ⟨-, hr₁⟩
  · obtain ⟨rfl, rfl⟩ := hnew hc₁
    rcases update_some h₂ with ⟨rfl, rfl⟩ | ⟨-, hr₂⟩
    · exact ⟨rfl, (hnew hc₂).1.symm⟩
    · exact absurd ⟨_, _, _, hr₂, hp₂, hc₂⟩ hb'
  · rcases update_some h₂ with ⟨rfl, rfl⟩ | ⟨-, hr₂⟩
    · obtain ⟨rfl, rfl⟩ := hnew hc₂
      exact absurd ⟨_, _, _, hr₁, hp₁, hc₁⟩ hb'
    · exact hold.unique hr₁ hr₂ hp₁ hp₂ hc₁ hc₂

end update

/-! ### Visiting all nodes -/

/-- The nodes up to a distance `n` below `a`, the deeper ones first. -/
def visit (all : List ι) (child : α → ι → Option α) : ℕ → α → List α
  | 0, a => [a]
  | n + 1, a => (all.flatMap fun i => (child a i).elim [] (visit all child n)) ++ [a]

variable {all : List ι} {n : ℕ}

theorem mem_visit (hall : ∀ i, i ∈ all) :
    c ∈ visit all child n a ↔ ∃ p, p.length ≤ n ∧ walk child a p = some c := by
  induction n generalizing a with
  | zero =>
    rw [visit, List.mem_singleton]
    constructor
    · rintro rfl
      exact ⟨[], le_refl _, rfl⟩
    · rintro ⟨p, hp, hc⟩
      obtain rfl := List.length_eq_zero_iff.mp (Nat.le_zero.mp hp)
      exact (Option.some.inj hc).symm
  | succ n ih =>
    rw [visit, List.mem_append, List.mem_flatMap, List.mem_singleton]
    constructor
    · rintro (⟨i, -, hi⟩ | rfl)
      · cases hb : child a i with
        | none =>
          rw [hb] at hi
          exact absurd hi List.not_mem_nil
        | some b =>
          rw [hb] at hi
          obtain ⟨p, hp, hc⟩ := ih.mp hi
          exact ⟨i :: p, Nat.succ_le_succ hp, by rw [walk_cons, hb]; exact hc⟩
      · exact ⟨[], Nat.zero_le _, rfl⟩
    · rintro ⟨p, hp, hc⟩
      cases p with
      | nil => exact Or.inr (Option.some.inj hc).symm
      | cons i p =>
        refine Or.inl ⟨i, hall i, ?_⟩
        cases hb : child a i with
        | none =>
          rw [walk_cons, hb] at hc
          cases hc
        | some b =>
          rw [walk_cons, hb] at hc
          exact ih.mpr ⟨p, Nat.le_of_succ_le_succ hp, hc⟩

theorem visit_congr
    (h : ∀ p b, p.length < n → walk child a p = some b → ∀ i, child' b i = child b i) :
    visit all child' n a = visit all child n a := by
  induction n generalizing a with
  | zero => rfl
  | succ n ih =>
    rw [visit, visit]
    congr 1
    refine List.flatMap_congr fun i _ => ?_
    rw [h [] a (Nat.succ_pos n) walk_nil i]
    cases hb : child a i with
    | none => rfl
    | some b =>
      refine ih fun p c hp hc => h (i :: p) c (Nat.succ_lt_succ hp) ?_
      rw [walk_cons, hb]
      exact hc

def Apart (child : α → ι → Option α) (n : ℕ) (a : α) : Prop :=
  ∀ p q c, p.length ≤ n → q.length ≤ n → walk child a p = some c → walk child a q = some c → p = q

/-- A recursive walk meets no node twice just when no node is reached along two paths. -/
theorem nodup_visit (hall : ∀ i, i ∈ all) (hnodup : all.Nodup) :
    (visit all child n a).Nodup ↔ Apart child n a := by
  induction n generalizing a with
  | zero =>
    refine iff_of_true (List.nodup_singleton a) fun p q c hp hq _ _ => ?_
    rw [List.length_eq_zero_iff.mp (Nat.le_zero.mp hp), List.length_eq_zero_iff.mp (Nat.le_zero.mp hq)]
  | succ n ih =>
    have hbelow : ∀ {i c}, c ∈ (child a i).elim [] (visit all child n) ↔
        ∃ p, p.length ≤ n ∧ walk child a (i :: p) = some c := by
      intro i c
      cases hb : child a i with
      | none => simp [hb]
      | some b => simpa [hb] using mem_visit hall
    rw [visit, List.nodup_append', List.nodup_flatMap]
    constructor
    · rintro ⟨⟨hbranch, hbranches⟩, -, hself⟩ p q c hp hq hpc hqc
      -- a node below one entry is not the table itself
      have hnot : ∀ {i p}, p.length ≤ n → walk child a (i :: p) ≠ some a := by
        intro i p hp hwalk
        have hmem : a ∈ all.flatMap fun i => (child a i).elim [] (visit all child n) :=
          List.mem_flatMap.mpr ⟨i, hall i, hbelow.mpr ⟨p, hp, hwalk⟩⟩
        exact hself hmem (List.mem_singleton_self a)
      cases p with
      | nil =>
        obtain rfl : a = c := Option.some.inj hpc
        cases q with
        | nil => rfl
        | cons j q => exact absurd hqc (hnot (Nat.le_of_succ_le_succ hq))
      | cons i p =>
        cases q with
        | nil =>
          obtain rfl : a = c := Option.some.inj hqc
          exact absurd hpc (hnot (Nat.le_of_succ_le_succ hp))
        | cons j q =>
          have hi := hbelow.mpr ⟨p, Nat.le_of_succ_le_succ hp, hpc⟩
          have hj := hbelow.mpr ⟨q, Nat.le_of_succ_le_succ hq, hqc⟩
          by_cases hij : i = j
          · subst hij
            cases hb : child a i with
            | none =>
              rw [walk_cons, hb] at hpc
              cases hpc
            | some b =>
              rw [walk_cons, hb] at hpc hqc
              have hnd := hbranch i (hall i)
              rw [hb] at hnd
              rw [ih.mp hnd p q c (Nat.le_of_succ_le_succ hp) (Nat.le_of_succ_le_succ hq) hpc hqc]
          · have : Std.Symm (Function.onFun List.Disjoint
                fun i => (child a i).elim [] (visit all child n)) :=
              ⟨fun _ _ h _ hj hi => h hi hj⟩
            have hdisj := hbranches.forall (hall i) (hall j) hij
            exact absurd hj (hdisj hi)
    · intro hapart
      refine ⟨⟨fun i _ => ?_, ?_⟩, List.nodup_singleton a, ?_⟩
      · cases hb : child a i with
        | none => exact List.nodup_nil
        | some b =>
          refine ih.mpr fun p q c hp hq hpc hqc => ?_
          have heq := hapart (i :: p) (i :: q) c (Nat.succ_le_succ hp) (Nat.succ_le_succ hq)
            (by rw [walk_cons, hb]; exact hpc) (by rw [walk_cons, hb]; exact hqc)
          exact (List.cons.inj heq).2
      · refine hnodup.imp fun {i j} hij c hi hj => ?_
        obtain ⟨p, hp, hpc⟩ := hbelow.mp hi
        obtain ⟨q, hq, hqc⟩ := hbelow.mp hj
        have heq := hapart (i :: p) (j :: q) c (Nat.succ_le_succ hp) (Nat.succ_le_succ hq) hpc hqc
        exact hij (List.cons.inj heq).1
      · intro c hc hself
        obtain rfl := List.mem_singleton.mp hself
        obtain ⟨i, -, hi⟩ := List.mem_flatMap.mp hc
        obtain ⟨p, hp, hpc⟩ := hbelow.mp hi
        have heq := hapart (i :: p) [] c (Nat.succ_le_succ hp) (Nat.zero_le _) hpc rfl
        cases heq

end Radix
