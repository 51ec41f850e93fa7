import Fynaos.Multiboot.Tags

/-!
# Blocks that are not well formed

The walk over the tags believes every size. With any bytes in the block it ends inside the buffer exactly
when each tag that it comes to has a size other than zero and leaves room for the header of the next one
(`parsesSafely_iff`). That there is an end tag does not have to be asked for: the rest of the buffer is
zero, and the addresses grow.
-/

namespace Fynaos.Multiboot

open Memory

/-- The buffer behind the copy: the bytes of the block, and zeros. -/
def blockBytes (m : Bytes) (info total : ℕ) : Bytes := fun k => if k < total then m (info + k) else 0

/-- The next multiple of 8 behind the tag at an offset. -/
def nextOffset (c : Bytes) (off : ℕ) : ℕ := (off + load c (off + 4) 4 + 7) / 8 * 8

inductive Reached (c : Bytes) : ℕ → Prop where
  | first : Reached c 8
  | next {off : ℕ} : Reached c off → load c off 4 ≠ tagEnd → Reached c (nextOffset c off)

/-- Each tag in front of an end tag has a size, and there is room for the next header. -/
def Linked (c : Bytes) : Prop := ∀ off, Reached c off → load c off 4 ≠ tagEnd →
  load c (off + 4) 4 ≠ 0 ∧ nextOffset c off + tagHeaderSize ≤ infoBufferSize

/-- The header at an address is in the buffer. -/
def Inside (buffer i : ℕ) : Prop := buffer ≤ i ∧ i + tagHeaderSize ≤ buffer + infoBufferSize

/-- `parse_multiboot_info` ends, and all headers that it reads are in the buffer. -/
def ParsesSafely (buffer : ℕ) (r : Ram) : Prop :=
  ∃ fuel s', parseMultibootInfo buffer fuel r ⟨0, 0, []⟩ = .ok s' ∧ ∀ i ∈ s'.headers, Inside buffer i

/-- The buffer with some content. -/
structure Filled (buffer : ℕ) (c : Bytes) (r : Ram) : Prop where
  direct : Direct buffer infoBufferSize
  aligned : 8 ∣ buffer
  bytes : ∀ k < infoBufferSize, r.bytes (buffer + k) % 256 = c k % 256

section malformed
variable {r r' : Ram} {c : Bytes} {buffer info off size fuel i : ℕ} {s s' : Infos}

/-! ### One step -/

theorem nextTag_inside (hdir : Direct buffer infoBufferSize) (h8 : 8 ∣ buffer)
    (hoff : off + 8 ≤ infoBufferSize) (hsize : size < 2 ^ 32) :
    (Inside buffer (nextTag (buffer + off) size) ↔
      (off + size + 7) / 8 * 8 + tagHeaderSize ≤ infoBufferSize) ∧
    (Inside buffer (nextTag (buffer + off) size) →
      nextTag (buffer + off) size = buffer + (off + size + 7) / 8 * 8) := by
  have hbase : kernelDirectBase = 2 ^ 64 - 2 ^ 47 := rfl
  have hbuffer : infoBufferSize = 16384 := rfl
  have hheader : tagHeaderSize = 8 := rfl
  obtain ⟨hlow, hhigh⟩ := hdir
  have hnext : nextTag (buffer + off) size = wrap (buffer + off + size + 7) / 8 * 8 :=
    land_lnot (k := 3) (wrap_lt _) (by norm_num)
  unfold Inside
  by_cases hlt : buffer + off + size + 7 < 2 ^ 64
  · rw [hnext, wrap_of_lt hlt]
    omega
  · have hwrap : wrap (buffer + off + size + 7) = buffer + off + size + 7 - 2 ^ 64 := by
      unfold wrap
      omega
    rw [hnext, hwrap]
    omega

theorem Filled.read (h : Filled buffer c r) (hoff : off + 4 ≤ infoBufferSize) :
    read r (buffer + off) 4 = .ok (load c off 4) := by
  obtain ⟨hlow, hhigh⟩ := h.direct
  have hdir : Direct (buffer + off) 4 := ⟨by omega, by omega⟩
  rw [read_direct hdir (by norm_num)]
  refine congrArg Except.ok (load_shift fun k hk => ?_)
  rw [Nat.add_assoc]
  exact h.bytes _ (by omega)

theorem Filled.step (h : Filled buffer c r) (hoff : off + 8 ≤ infoBufferSize)
    (htype : load c off 4 ≠ tagEnd) : parseLoop r (fuel + 1) (buffer + off) s =
      parseLoop r fuel (nextTag (buffer + off) (load c (off + 4) 4))
        (visit (load c off 4) (buffer + off) { s with headers := (buffer + off) :: s.headers }) := by
  rw [parseLoop, h.read (by omega), ok_bind]
  dsimp only
  rw [if_neg htype, Nat.add_assoc, h.read (by omega), ok_bind]

theorem parseLoop_headers (hrun : parseLoop r fuel i s = .ok s') :
    i ∈ s'.headers ∧ ∀ j ∈ s.headers, j ∈ s'.headers := by
  induction fuel generalizing i s with
  | zero => cases hrun
  | succ fuel ih =>
    obtain ⟨type, -, hrun⟩ := bind_eq_ok.mp hrun
    dsimp only at hrun
    split_ifs at hrun with hend
    · cases hrun
      exact ⟨List.mem_cons_self, fun j hj => List.mem_cons_of_mem _ hj⟩
    · obtain ⟨size, -, hrun⟩ := bind_eq_ok.mp hrun
      obtain ⟨-, hold⟩ := ih hrun
      rw [visit_headers] at hold
      exact ⟨hold _ List.mem_cons_self, fun j hj => hold _ (List.mem_cons_of_mem _ hj)⟩

/-- A tag without a size is visited for ever. -/
theorem Filled.stuck (h : Filled buffer c r) (hoff : off + 8 ≤ infoBufferSize) (h8 : 8 ∣ off)
    (htype : load c off 4 ≠ tagEnd) (hsize : load c (off + 4) 4 = 0) :
    parseLoop r fuel (buffer + off) s ≠ .ok s' := by
  have hbuffer : infoBufferSize = 16384 := rfl
  have haligned := h.aligned
  have hhigh := h.direct.2
  have hnext : nextTag (buffer + off) 0 = buffer + off := by
    rw [nextTag, Nat.add_zero, alignUp_eight (by omega)]
    omega
  induction fuel generalizing s with
  | zero =>
    intro hrun
    cases hrun
  | succ fuel ih =>
    rw [h.step hoff htype, hsize, hnext]
    exact ih

/-! ### All steps -/

theorem Reached.eq_first (h : Reached c off) (hend : load c (nextOffset c 8) 4 = tagEnd) :
    load c off 4 ≠ tagEnd → off = 8 := by
  induction h with
  | first => exact fun _ => rfl
  | next _ htype ih =>
    intro hnext
    obtain rfl := ih htype
    exact absurd hend hnext

theorem Reached.aligned (h : Reached c off) : 8 ∣ off := by
  cases h with
  | first => exact dvd_refl 8
  | next => exact Nat.dvd_mul_left 8 _

theorem linked_of_parsesSafely (h : Filled buffer c r) (hsafe : ParsesSafely buffer r) : Linked c := by
  have hstep : ∀ off, 8 ∣ off → load c off 4 ≠ tagEnd → (∃ fuel s s',
      parseLoop r fuel (buffer + off) s = .ok s' ∧ ∀ i ∈ s'.headers, Inside buffer i) →
      (load c (off + 4) 4 ≠ 0 ∧ nextOffset c off + tagHeaderSize ≤ infoBufferSize) ∧
      ∃ fuel s s', parseLoop r fuel (buffer + nextOffset c off) s = .ok s' ∧
        ∀ i ∈ s'.headers, Inside buffer i := by
    rintro off h8 htype ⟨fuel, s, s', hrun, hinside⟩
    have hoff : off + 8 ≤ infoBufferSize := by
      have hthis := (hinside _ (parseLoop_headers hrun).1).2
      rw [tagHeaderSize] at hthis
      omega
    cases fuel with
    | zero => cases hrun
    | succ fuel =>
      have hsize : load c (off + 4) 4 ≠ 0 := fun hsize => h.stuck hoff h8 htype hsize hrun
      rw [h.step hoff htype] at hrun
      obtain ⟨hiff, heq⟩ := nextTag_inside h.direct h.aligned hoff (load_lt c (off + 4) 4)
      have hnext := hinside _ (parseLoop_headers hrun).1
      rw [heq hnext] at hrun
      exact ⟨⟨hsize, hiff.mp hnext⟩, fuel, _, s', hrun, hinside⟩
  have hall : ∀ off, Reached c off → ∃ fuel s s', parseLoop r fuel (buffer + off) s = .ok s' ∧
      ∀ i ∈ s'.headers, Inside buffer i := by
    intro off hreached
    induction hreached with
    | first =>
      obtain ⟨fuel, s', hrun, hinside⟩ := hsafe
      exact ⟨fuel, _, s', hrun, hinside⟩
    | next hreached htype ih => exact (hstep _ hreached.aligned htype ih).2
  exact fun off hreached htype => (hstep off hreached.aligned htype (hall off hreached)).1

theorem parsesSafely_of_linked (h : Filled buffer c r) (hlinked : Linked c) :
    ParsesSafely buffer r := by
  have hall : ∀ n off, infoBufferSize - off ≤ n → Reached c off → off + 8 ≤ infoBufferSize →
      ∀ s, (∀ i ∈ s.headers, Inside buffer i) → ∃ fuel s',
        parseLoop r fuel (buffer + off) s = .ok s' ∧ ∀ i ∈ s'.headers, Inside buffer i := by
    intro n
    induction n with
    | zero => intro off hn _ hoff; omega
    | succ n ih =>
      intro off hn hreached hoff s hs
      have hthis : Inside buffer (buffer + off) := ⟨Nat.le_add_right _ _, by rw [tagHeaderSize]; omega⟩
      have hheaders : ∀ i ∈ (buffer + off) :: s.headers, Inside buffer i :=
        List.forall_mem_cons.mpr ⟨hthis, hs⟩
      by_cases htype : load c off 4 = tagEnd
      · refine ⟨1, { s with headers := (buffer + off) :: s.headers }, ?_, hheaders⟩
        rw [parseLoop, h.read (by omega), ok_bind]
        dsimp only
        rw [if_pos htype, pure_eq]
      · obtain ⟨hsize, hroom⟩ := hlinked off hreached htype
        have h8 := hreached.aligned
        obtain ⟨hiff, heq⟩ := nextTag_inside h.direct h.aligned hoff (load_lt c (off + 4) 4)
        have hgrows : off < nextOffset c off := by
          unfold nextOffset
          omega
        obtain ⟨fuel, s', hrun, hinside⟩ := ih (nextOffset c off) (by omega)
          (Reached.next hreached htype) hroom
          (visit (load c off 4) (buffer + off) { s with headers := (buffer + off) :: s.headers })
          (by rw [visit_headers]; exact hheaders)
        refine ⟨fuel + 1, s', ?_, hinside⟩
        rw [h.step hoff htype, heq (hiff.mpr hroom)]
        exact hrun
  exact hall _ 8 le_rfl Reached.first (by norm_num) _ fun i hi => absurd hi List.not_mem_nil

/-! ### Behind the copy -/

theorem Placed.filled (h : Placed buffer info)
    (hzero : ∀ k < infoBufferSize, r.bytes (buffer + k) = 0)
    (hcopy : copyMultibootInfo buffer info r = .ok r') :
    Filled buffer (blockBytes r.bytes info (load r.bytes info 4)) r' := by
  have hinfo := h.info_lt
  have hlt : load r.bytes info 4 < infoBufferSize := by
    by_contra hle
    rw [copyMultibootInfo, read_low (by omega), ok_bind, if_pos (Nat.le_of_not_lt hle)] at hcopy
    cases hcopy
  obtain ⟨r₁, hrun, hcopied, hwrote⟩ := copyMultibootInfo_spec h rfl hlt
  obtain rfl : r₁ = r' := Except.ok.inj (hrun.symm.trans hcopy)
  refine ⟨h.direct, h.aligned, fun k hk => ?_⟩
  unfold blockBytes
  by_cases hin : k < load r.bytes info 4
  · rw [if_pos hin, hcopied k hin]
  · rw [if_neg hin, hwrote.frame _ fun hx => absurd hx.2 (by omega), hzero k hk]

/-- With the buffer cleared at boot. -/
theorem parsesSafely_iff (hplaced : Placed buffer info)
    (hzero : ∀ k < infoBufferSize, r.bytes (buffer + k) = 0)
    (hcopy : copyMultibootInfo buffer info r = .ok r') :
    ParsesSafely buffer r' ↔ Linked (blockBytes r.bytes info (load r.bytes info 4)) :=
  ⟨linked_of_parsesSafely (hplaced.filled hzero hcopy),
    parsesSafely_of_linked (hplaced.filled hzero hcopy)⟩

end malformed

/-! ### A block of 16 bytes -/

/-- A tag of type 1 with a given size, and nothing behind it. -/
def oneTag (size : ℕ) : List ℕ := numberBytes 4 16 ++ (numberBytes 4 0 ++ header 1 size)

/-- A memory with that block at 0x10000 and zeros elsewhere. -/
def oneTagRam (size : ℕ) : Ram := ⟨ofList 0x10000 (oneTag size), []⟩

theorem oneTag_size (size : ℕ) : load (oneTagRam size).bytes 0x10000 4 = 16 := by
  have hholds := holds_ofList 0x10000 (oneTag size)
  rw [oneTag, holds_append] at hholds
  rw [oneTagRam, oneTag]
  dsimp only
  exact load_of_holds hholds.1 (by norm_num)

theorem oneTag_zero (size k : ℕ) : (oneTagRam size).bytes (0xFFFFFFFF80200000 + k) = 0 := by
  have hlength : (oneTag size).length = 16 := by simp [oneTag]
  have hle : (oneTag size).length ≤ 0xFFFFFFFF80200000 + k - 0x10000 := by omega
  rw [oneTagRam]
  dsimp only
  rw [ofList, List.getD_eq_default _ _ hle]

theorem oneTag_copy (size : ℕ) :
    ∃ r', copyMultibootInfo 0xFFFFFFFF80200000 0x10000 (oneTagRam size) = .ok r' := by
  obtain ⟨r', hrun, -⟩ := copyMultibootInfo_spec samplePlaced (oneTag_size size) (by norm_num)
  exact ⟨r', hrun⟩

/-- A tag that is its header alone. The zeros of the buffer are the END tag. -/
theorem parsesSafely_iff_oneTag : ∃ r',
    copyMultibootInfo 0xFFFFFFFF80200000 0x10000 (oneTagRam 8) = .ok r' ∧
    ParsesSafely 0xFFFFFFFF80200000 r' := by
  obtain ⟨r', hcopy⟩ := oneTag_copy 8
  refine ⟨r', hcopy, (parsesSafely_iff samplePlaced (fun k _ => oneTag_zero 8 k) hcopy).mpr ?_⟩
  rw [oneTag_size]
  have hend : load (blockBytes (oneTagRam 8).bytes 0x10000 16) 16 4 = tagEnd := by decide +kernel
  have hnext : nextOffset (blockBytes (oneTagRam 8).bytes 0x10000 16) 8 = 16 := by decide +kernel
  intro off hreached htype
  obtain rfl := hreached.eq_first (by rw [hnext, hend]) htype
  exact ⟨by decide +kernel, by rw [hnext]; decide⟩

/-- A tag of size 0. -/
theorem empty_tag_hangs : ∃ r',
    copyMultibootInfo 0xFFFFFFFF80200000 0x10000 (oneTagRam 0) = .ok r' ∧
    ¬ ParsesSafely 0xFFFFFFFF80200000 r' := by
  obtain ⟨r', hcopy⟩ := oneTag_copy 0
  have hfilled := samplePlaced.filled (fun k _ => oneTag_zero 0 k) hcopy
  rw [oneTag_size] at hfilled
  refine ⟨r', hcopy, fun hsafe => ?_⟩
  have htype : load (blockBytes (oneTagRam 0).bytes 0x10000 16) 8 4 ≠ tagEnd := by decide +kernel
  exact (linked_of_parsesSafely hfilled hsafe 8 Reached.first htype).1 (by decide +kernel)

end Fynaos.Multiboot
