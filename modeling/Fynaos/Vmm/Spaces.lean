import Fynaos.Vmm.Lifetime

/-!
# Runs over any number of address spaces

A state holds the memory, the state of the allocators, `current_mm` with CR3, and for each address space
what is known of it: its PML4, whether the kernel half was copied into it, the frames that `alloc_frames`
gave for its tables, and its map from page numbers to frames, which changes as `map_page` and `unmap_page`
promise (`Space.mapped`, `Space.unmapped`). `clients` are the frames given to other callers.

The invariant `Inv` ties these to the tables in memory. With `κ = some kernelMm` the
upper halves of all other address spaces are the kernel's; with `κ = none` there is no kernel and each
address space has both halves to itself.
-/

namespace Fynaos.Vmm

open Radix

/-- Bits 12 to 47 of an address. -/
def pageNumber (addr : ℕ) : ℕ := addr / 4096 % 2 ^ 36

structure Space where
  pml4 : ℕ
  copied : Bool
  tables : Set ℕ
  map : ℕ → Option ℕ

/-- A page that is in the map stays as it is. -/
def Space.mapped (sp : Space) (frame n : ℕ) (new : Set ℕ) : Space :=
  { sp with
    tables := sp.tables ∪ new
    map := if sp.map n = none then Function.update sp.map n (some frame) else sp.map }

def Space.unmapped (sp : Space) (n : ℕ) : Space :=
  { sp with map := Function.update sp.map n none }

/-- The frames that are mapped. -/
def Space.frames (sp : Space) : Set ℕ := {f | ∃ v, sp.map (pageNumber v) = some f}

structure Sys (S : Type) where
  ram : Ram
  frames : S
  current : Current
  spaces : ℕ → Option Space
  clients : Set ℕ

/-- The calls. `take` is an `alloc_frames(0)` of some other part of the kernel. -/
inductive Act where
  | create
  | take
  | map (mm frame page attr : ℕ)
  | unmap (mm page : ℕ)
  | copy (mm : ℕ)
  | swap (mm : ℕ)
  | delete (mm : ℕ)

inductive Step {S : Type} (F : Services S) (kernelMm : ℕ) : Sys S → Act → Sys S → Prop
  | create {σ : Sys S} {mm : ℕ} {r : Ram} {s : S} :
      createMm F σ.ram σ.frames = .ok (mm, r, s) → mm ≠ 0 →
      Step F kernelMm σ .create { σ with
        ram := r, frames := s
        spaces := Function.update σ.spaces mm
          (some ⟨r.word mm, false, F.held s \ F.held σ.frames, fun _ => none⟩) }
  | createNull {σ : Sys S} {r : Ram} {s : S} :
      createMm F σ.ram σ.frames = .ok (0, r, s) →
      Step F kernelMm σ .create { σ with ram := r, frames := s }
  | take {σ : Sys S} {f : ℕ} {s : S} :
      F.allocFrames σ.frames = .ok (f, s) →
      Step F kernelMm σ .take { σ with
        frames := s
        clients := σ.clients ∪ (F.held s \ F.held σ.frames) }
  | map {σ : Sys S} {mm frame page attr : ℕ} {sp : Space} {done : Bool} {r : Ram} {s : S} :
      σ.spaces mm = some sp → mapPage F mm frame page attr σ.ram σ.frames = .ok (done, r, s) →
      Step F kernelMm σ (.map mm frame page attr) { σ with
        ram := r, frames := s
        spaces := Function.update σ.spaces mm
          (some (sp.mapped frame (pageNumber page) (F.held s \ F.held σ.frames))) }
  | unmap {σ : Sys S} {mm page f : ℕ} {sp : Space} {r : Ram} :
      σ.spaces mm = some sp → unmapPage mm page σ.ram = .ok (f, r) →
      Step F kernelMm σ (.unmap mm page) { σ with
        ram := r
        spaces := Function.update σ.spaces mm (some (sp.unmapped (pageNumber page))) }
  | copy {σ : Sys S} {mm : ℕ} {sp : Space} {r : Ram} :
      σ.spaces mm = some sp → mapKernelForUserMm kernelMm mm σ.ram = .ok r →
      Step F kernelMm σ (.copy mm) { σ with
        ram := r
        spaces := Function.update σ.spaces mm (some { sp with copied := true }) }
  | swap {σ : Sys S} {mm : ℕ} {c : Current} :
      swapMm mm σ.ram σ.current = .ok c →
      Step F kernelMm σ (.swap mm) { σ with current := c }
  | delete {σ : Sys S} {mm : ℕ} {sp : Space} {r : Ram} {s : S} :
      σ.spaces mm = some sp → deleteMm F mm σ.ram σ.frames = .ok (r, s) →
      Step F kernelMm σ (.delete mm) { σ with
        ram := r, frames := s
        spaces := Function.update σ.spaces mm none
        clients := σ.clients \ sp.frames }

/-- A run whose steps all meet a condition. -/
def Runs {S : Type} (F : Services S) (kernelMm : ℕ) (P : Sys S → Act → Prop) : Sys S → Sys S → Prop :=
  Relation.ReflTransGen fun σ τ => ∃ act, P σ act ∧ Step F kernelMm σ act τ

/-- The PML4s. -/
def roots (spaces : ℕ → Option Space) (k : ℕ) : Option ℕ := (spaces k).map Space.pml4

/-- There is a kernel and this is not its address space. -/
def IsUser (κ : Option ℕ) (k : ℕ) : Prop := ∃ kernelMm, κ = some kernelMm ∧ k ≠ kernelMm

/-- The PML4s whose upper half is the kernel's. -/
def borrowers (κ : Option ℕ) (spaces : ℕ → Option Space) : Set ℕ :=
  {a | ∃ k sp, IsUser κ k ∧ spaces k = some sp ∧ sp.pml4 = a}

structure Inv {S : Type} (F : Services S) (κ : Option ℕ) (σ : Sys S) : Prop where
  sound : Sound F σ.frames
  block : ∀ {k sp}, σ.spaces k = some sp → k ∈ F.blocks σ.frames
  word : ∀ {k sp}, σ.spaces k = some sp → σ.ram.word k = sp.pml4
  trees : Trees (borrowers κ σ.spaces) (roots σ.spaces) (F.held σ.frames) σ.ram
  tables : ∀ {k sp c}, σ.spaces k = some sp →
    (TableOf (own (borrowers κ σ.spaces) σ.ram) 4 (roots σ.spaces) k c ↔ c ∈ sp.tables)
  map : ∀ {k sp} (v : ℕ), σ.spaces k = some sp →
    walk (own (borrowers κ σ.spaces) σ.ram) sp.pml4 (path v) = sp.map (pageNumber v)
  kernel : ∀ {kernelMm}, κ = some kernelMm → σ.spaces kernelMm ≠ none
  borrowed : ∀ {kernelMm ksp k sp b} {i : Fin 512}, κ = some kernelMm →
    σ.spaces kernelMm = some ksp → k ≠ kernelMm → σ.spaces k = some sp → 256 ≤ (i : ℕ) →
    child σ.ram sp.pml4 i = some b → child σ.ram ksp.pml4 i = some b

variable {S : Type} {F : Services S} {κ : Option ℕ} {σ τ : Sys S} {sp sp' : Space} {s s' : S}
  {r r' : Ram} {a b f g k m n v w : ℕ} {spaces : ℕ → Option Space}

/-! ### Page numbers -/

theorem path_eq_iff : path v = path w ↔ pageNumber v = pageNumber w := by
  simp only [path_eq, List.cons.injEq, and_true, index, Fin.mk.injEq, pageNumber]
  norm_num
  omega

theorem path_length (v : ℕ) : (path v).length = 4 := rfl

theorem exists_path {q : List (Fin 512)} (hq : q.length = 4) : ∃ v, path v = q := by
  obtain ⟨i, j, k, l, rfl⟩ : ∃ i j k l, q = [i, j, k, l] := by
    match q, hq with
    | [i, j, k, l], _ => exact ⟨i, j, k, l, rfl⟩
  refine ⟨((((i : ℕ) * 512 + j) * 512 + k) * 512 + l) * 4096, ?_⟩
  simp only [path_eq, List.cons.injEq, and_true, index, Fin.ext_iff]
  norm_num
  omega

/-! ### The map of an address space -/

theorem Space.mapped_map (h : sp.map n = none) (new : Set ℕ) :
    (sp.mapped f n new).map = Function.update sp.map n (some f) := if_pos h

theorem Space.mapped_map_of_ne (h : sp.map n ≠ none) (new : Set ℕ) : (sp.mapped f n new).map = sp.map :=
  if_neg h

theorem Space.unmapped_map (sp : Space) (n : ℕ) :
    (sp.unmapped n).map = Function.update sp.map n none := rfl

/-! ### Roots -/

theorem roots_some : roots spaces k = some a ↔ ∃ sp, spaces k = some sp ∧ sp.pml4 = a :=
  Option.map_eq_some_iff

theorem roots_of (h : spaces k = some sp) : roots spaces k = some sp.pml4 := by rw [roots, h]; rfl

theorem roots_update (spaces : ℕ → Option Space) (m : ℕ) (o : Option Space) :
    roots (Function.update spaces m o) = Function.update (roots spaces) m (o.map Space.pml4) := by
  funext k
  by_cases hk : k = m
  · rw [hk, Function.update_self, roots, Function.update_self]
  · rw [Function.update_of_ne hk, roots, Function.update_of_ne hk, roots]

theorem roots_update_of_pml4 (sp' : Space) (h : spaces m = some sp) (hpml4 : sp'.pml4 = sp.pml4) :
    roots (Function.update spaces m (some sp')) = roots spaces := by
  rw [roots_update, Option.map_some, hpml4, ← roots_of h, Function.update_eq_self]

theorem update_cases (sp' : Space) (h : spaces m = some sp) (hpml4 : sp'.pml4 = sp.pml4) {spk : Space}
    (hk : Function.update spaces m (some sp') k = some spk) :
    ∃ spo, spaces k = some spo ∧ spk.pml4 = spo.pml4 ∧
      ((k = m ∧ spk = sp' ∧ spo = sp) ∨ (k ≠ m ∧ spk = spo)) := by
  rcases update_some hk with ⟨rfl, rfl⟩ | ⟨hkm, hk⟩
  · exact ⟨sp, h, hpml4, Or.inl ⟨rfl, rfl, rfl⟩⟩
  · exact ⟨spk, hk, rfl, Or.inr ⟨hkm, rfl⟩⟩

theorem update_ne_none (h : spaces k ≠ none) : Function.update spaces m (some sp') k ≠ none := by
  by_cases hkm : k = m
  · rw [hkm, Function.update_self]
    exact Option.some_ne_none sp'
  · rwa [Function.update_of_ne hkm]

theorem mem_borrowers : a ∈ borrowers κ spaces ↔ ∃ k, IsUser κ k ∧ roots spaces k = some a := by
  constructor
  · rintro ⟨k, sp, hk, hsp, rfl⟩
    exact ⟨k, hk, roots_of hsp⟩
  · rintro ⟨k, hk, ha⟩
    obtain ⟨sp, hsp, rfl⟩ := roots_some.mp ha
    exact ⟨k, sp, hk, hsp, rfl⟩

theorem borrowers_congr {spaces' : ℕ → Option Space} (h : roots spaces' = roots spaces) :
    borrowers κ spaces' = borrowers κ spaces := by
  ext a
  rw [mem_borrowers, mem_borrowers, h]

theorem mem_borrowers_update {o : Option Space} (hold : roots spaces m ≠ some b)
    (hnew : o.map Space.pml4 ≠ some b) :
    b ∈ borrowers κ (Function.update spaces m o) ↔ b ∈ borrowers κ spaces := by
  rw [mem_borrowers, mem_borrowers]
  refine exists_congr fun k => and_congr_right fun _ => ?_
  rw [roots_update]
  by_cases hk : k = m
  · rw [hk, Function.update_self]
    exact iff_of_false hnew hold
  · rw [Function.update_of_ne hk]

end Fynaos.Vmm
