import Fynaos.Vmm.Tables

/-!
# The walk of the hardware

How x86-64 translates an address with four levels of tables, and the tables of `boot/boot.S`. Level 3 is the
PML4, level 0 the page table. Bits 12 to 51 of an entry are an address. On levels 2 and 1 an entry with
`PAGE_HUGE` is no table but a leaf, a page of 1 GiB or of 2 MiB.

The walkers of `mm/vmm.c` have one way down for all of them (`follow`), which only looks at `PAGE_PRESENT`.
-/

namespace Fynaos.Vmm

variable {r : Ram} {a e k mm n v : ℕ}

/-- The lowest bit of an address that the tables of a level look at. -/
def shift (level : ℕ) : ℕ := 12 + 9 * level

/-- The address in an entry, when it is a multiple of `2 ^ k`. -/
def field (k e : ℕ) : ℕ := e % 2 ^ 52 / 2 ^ k * 2 ^ k

/-- An entry that is present is a leaf above the last level. -/
def Huge (level e : ℕ) : Prop := level < 3 ∧ e &&& pageHuge ≠ 0

instance (level e : ℕ) : Decidable (Huge level e) := inferInstanceAs (Decidable (_ ∧ _))

/-- The page that the hardware finds for `v` from a table on: where it starts, and the logarithm of its
size. -/
def hardwareLeaf (r : Ram) (v : ℕ) : ℕ → ℕ → Option (ℕ × ℕ)
  | 0, table =>
    let e := entry r table (index (shift 0) v)
    if e &&& pagePresent = 0 then none else some (field (shift 0) e, shift 0)
  | level + 1, table =>
    let e := entry r table (index (shift (level + 1)) v)
    if e &&& pagePresent = 0 then none
    else if Huge (level + 1) e then some (field (shift (level + 1)) e, shift (level + 1))
    else hardwareLeaf r v level (field 12 e)

/-- The physical address of `v`, when `a` is the PML4. -/
def translate (r : Ram) (a v : ℕ) : Option ℕ :=
  (hardwareLeaf r v 3 a).map fun page => page.1 + v % 2 ^ page.2

/-! ### The tables of the boot code -/

def initialPml4 (initialPdpt i : ℕ) : ℕ :=
  if i = 0 ∨ i = 256 ∨ i = 511 then initialPdpt + 0x03 else 0

def initialPdpt (i : ℕ) : ℕ :=
  if i < 510 then i * 0x40000000 + 0x83 else (i - 510) * 0x40000000 + 0x83

/-- The two tables of `boot.S` are in memory. -/
structure BootTables (r : Ram) (pml4 pdpt : ℕ) : Prop where
  pml4 : ∀ i : Fin 512, entry r pml4 i = initialPml4 pdpt i
  pdpt : ∀ i : Fin 512, entry r pdpt i = initialPdpt i

/-! ### The walk of the kernel -/

/-- The frame behind the last entry, as `virt_to_phys` and `unmap_page` come to it from a table on. -/
def follow (r : Ram) (v : ℕ) : ℕ → ℕ → Except Halt (Option ℕ)
  | 0, table => do
    let e ← r.load (physToVirt table + 8 * index (shift 0) v)
    if e &&& pagePresent = 0 then return none else return some (e &&& pageMask)
  | level + 1, table => do
    let e ← r.load (physToVirt table + 8 * index (shift (level + 1)) v)
    if e &&& pagePresent = 0 then return none else follow r v level (e &&& pageMask)

section follow
variable {α β : Type} {p : α → β} {o : Option ℕ → β} {y : α} {rest : ℕ → Except Halt α} {table : ℕ}

theorem map_follow_succ (level : ℕ) (hnone : p y = o none)
    (hrest : ∀ e, (rest e).map p = (follow r v level (e &&& pageMask)).map o) :
    Except.map p (do
      let e ← r.load (physToVirt table + 8 * index (shift (level + 1)) v)
      if e &&& pagePresent = 0 then return y else rest e) = (follow r v (level + 1) table).map o := by
  rw [follow]
  cases r.load (physToVirt table + 8 * index (shift (level + 1)) v) with
  | error => rfl
  | ok e =>
    rw [ok_bind, ok_bind]
    split
    · exact congrArg Except.ok hnone
    · exact hrest e

theorem map_follow_zero (hnone : p y = o none)
    (hrest : ∀ e, r.load (physToVirt table + 8 * index (shift 0) v) = .ok e →
      (rest e).map p = .ok (o (some (e &&& pageMask)))) :
    Except.map p (do
      let e ← r.load (physToVirt table + 8 * index (shift 0) v)
      if e &&& pagePresent = 0 then return y else rest e) = (follow r v 0 table).map o := by
  rw [follow]
  cases h : r.load (physToVirt table + 8 * index (shift 0) v) with
  | error => rfl
  | ok e =>
    rw [ok_bind, ok_bind]
    split
    · exact congrArg Except.ok hnone
    · exact hrest e h

end follow

theorem indices_eq (v : ℕ) : pml4Index v = index (shift 3) v ∧ pdptIndex v = index (shift 2) v ∧
    pdIndex v = index (shift 1) v ∧ ptIndex v = index (shift 0) v :=
  ⟨pml4Index_eq v, pdptIndex_eq v, pdIndex_eq v, ptIndex_eq v⟩

theorem virtToPhys_follow (hmm : Direct mm 8) : virtToPhys mm v r =
    (follow r v 3 (r.word mm &&& pageMask)).map fun o =>
      o.elim invalidAddress fun f => wrap (f + v % 4096) := by
  have hid : ∀ x : Except Halt ℕ, x = x.map id := by
    intro x
    cases x <;> rfl
  obtain ⟨h3, h2, h1, h0⟩ := indices_eq v
  rw [virtToPhys, hmm.load, ok_bind, h3, h2, h1, h0, pageOffset_eq]
  dsimp only
  rw [hid (_ >>= _)]
  refine map_follow_succ 2 (by rfl) ?_
  intro pml4e
  refine map_follow_succ 1 (by rfl) ?_
  intro pdpte
  refine map_follow_succ 0 (by rfl) ?_
  intro pde
  refine map_follow_zero (by rfl) ?_
  intro pte _
  rfl

theorem Ram.store_of_load (h : r.load a = .ok e) (x : ℕ) : ∃ r', r.store a x = .ok r' := by
  exact ⟨_, if_pos (Ram.canonical_of_load h)⟩

theorem unmapPage_follow (hmm : Direct mm 8) : (unmapPage mm v r).map Prod.fst =
    (follow r v 3 (r.word mm)).map fun o => o.getD invalidAddress := by
  obtain ⟨h3, h2, h1, h0⟩ := indices_eq v
  rw [unmapPage, hmm.load, ok_bind, h3, h2, h1, h0]
  dsimp only
  refine map_follow_succ 2 (by rfl) ?_
  intro pml4e
  refine map_follow_succ 1 (by rfl) ?_
  intro pdpte
  refine map_follow_succ 0 (by rfl) ?_
  intro pde
  refine map_follow_zero (by rfl) ?_
  intro pte hload
  obtain ⟨r', hstore⟩ := Ram.store_of_load hload 0
  rw [hstore]
  rfl

end Fynaos.Vmm
