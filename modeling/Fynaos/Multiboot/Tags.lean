import Fynaos.Lib.Encoding
import Fynaos.Multiboot.Model

/-!
# The walk over the tags

A list of tags as Multiboot2 lays it out in memory (`encodeInfo`). The copy in `multiboot_info_buffer` has
all its bytes (`copyMultibootInfo_spec`), and `parse_multiboot_info` visits the tags one by one and stops at
the end tag behind them (`parse_visits`): a payload is never taken for a header.
-/

namespace Fynaos.Multiboot

open Memory

/-! ### Layout -/

/-- A tag behind its header, with the bytes that pad it to a multiple of 8. -/
structure Tag where
  type : ℕ
  payload : List ℕ
  padding : List ℕ
  type_ne : type ≠ tagEnd
  type_lt : type < 2 ^ 32
  padded : 8 ∣ payload.length + padding.length
  short : padding.length < 8

def Tag.size (t : Tag) : ℕ := tagHeaderSize + t.payload.length

def header (type size : ℕ) : List ℕ := numberBytes 4 type ++ numberBytes 4 size

def Tag.encode (t : Tag) : List ℕ := header t.type t.size ++ (t.payload ++ t.padding)

def encodeTags : List Tag → List ℕ
  | [] => header tagEnd tagHeaderSize
  | t :: tags => t.encode ++ encodeTags tags

def encodeInfo (reserved : ℕ) (tags : List Tag) : List ℕ :=
  numberBytes 4 (8 + (encodeTags tags).length) ++ (numberBytes 4 reserved ++ encodeTags tags)

/-- The addresses of the tags and of the end tag. -/
def positions : ℕ → List Tag → List ℕ
  | base, [] => [base]
  | base, t :: tags => base :: positions (base + t.encode.length) tags

/-- The address of the last tag of a type. -/
def lastTag (type : ℕ) : ℕ → List Tag → Option ℕ
  | _, [] => none
  | base, t :: tags =>
    (lastTag type (base + t.encode.length) tags).or (if t.type = type then some base else none)

/-- The block is where a boot loader puts it, at a 32-bit address, and the buffer in the kernel image. -/
structure Placed (buffer info : ℕ) : Prop where
  info_lt : info < 2 ^ 32
  direct : Direct buffer infoBufferSize
  aligned : 8 ∣ buffer

/-- From `s` to `s'` the tags behind the header of the copy were visited, as they are in the block. -/
structure Visits (buffer : ℕ) (tags : List Tag) (r : Ram) (s s' : Infos) : Prop where
  copied : Holds r.bytes (firstTag buffer) (encodeTags tags)
  headers : s'.headers = (positions (firstTag buffer) tags).reverse ++ s.headers
  inside : ∀ i ∈ positions (firstTag buffer) tags,
    buffer ≤ i ∧ i + tagHeaderSize ≤ buffer + (8 + (encodeTags tags).length)
  mmapInfo : s'.mmapInfo = (lastTag tagMemoryMap (firstTag buffer) tags).getD s.mmapInfo
  framebufferInfo : s'.framebufferInfo =
    (lastTag tagFramebufferInformation (firstTag buffer) tags).getD s.framebufferInfo

section copy
variable {r r' : Ram} {a n dst src buffer info total : ℕ}

/-! ### The copy -/

theorem read_direct (h : Direct a n) (hn : 0 < n) : read r a n = .ok (load r.bytes a n) := by
  rw [read, if_pos (h.canonical hn), h.wrap_eq hn]

theorem read_low (h : a < 2 ^ 47) : read r a n = .ok (load r.bytes a n) := by
  have hwrap : wrap a = a := wrap_of_lt (by omega)
  have hlow : Canonical a := Or.inl h
  rw [read, hwrap, if_pos hlow]

theorem storeByte_direct {v : ℕ} (h : Direct a 1) :
    ∃ r', r.storeByte a v = .ok r' ∧ r'.bytes a = v % 256 ∧ Wrote r r' (Set.Ico a (a + 1)) := by
  refine ⟨⟨store r.bytes a 1 v, (a, 1) :: r.stores⟩, ?_, Function.update_self _ _ _, ?_, ?_⟩
  · rw [Ram.storeByte, if_pos (h.canonical Nat.one_pos), h.wrap_eq Nat.one_pos]
  · intro x hx
    refine store_of_notMem ?_
    by_contra hmem
    exact hx ⟨by omega, by omega⟩
  · exact ⟨[(a, 1)], rfl, by simp⟩

theorem memcpy_spec (hsrc : src + n ≤ 2 ^ 47) (hdst : Direct dst n) :
    ∃ r', memcpy dst src n r = .ok r' ∧
      (∀ k < n, r'.bytes (dst + k) % 256 = r.bytes (src + k) % 256) ∧
      Wrote r r' (Set.Ico dst (dst + n)) := by
  have hbase : kernelDirectBase = 2 ^ 64 - 2 ^ 47 := rfl
  induction n generalizing dst src r with
  | zero => exact ⟨r, rfl, fun k hk => absurd hk (Nat.not_lt_zero k), Wrote.refl _ _⟩
  | succ n ih =>
    obtain ⟨hlow, hhigh⟩ := id hdst
    obtain ⟨r₁, hbyte, hfirst, hstep⟩ :=
      storeByte_direct (r := r) (v := load r.bytes src 1) (hdst.mono (Nat.succ_pos n))
    have hrest : Direct (dst + 1) n := ⟨by omega, by omega⟩
    obtain ⟨r', hrun, hcopied, hwrote⟩ := ih (r := r₁) (show src + 1 + n ≤ 2 ^ 47 by omega) hrest
    refine ⟨r', ?_, fun k hk => ?_, (hstep.mono ?_).trans (hwrote.mono ?_)⟩
    · rw [memcpy, read_low (by omega), ok_bind, hbyte, ok_bind, hrun]
    · rcases k with - | k
      · rw [hwrote.frame _ fun h => absurd h.1 (by omega), Nat.add_zero, hfirst, load, load]
        simp
      · have hsame : r₁.bytes (src + 1 + k) = r.bytes (src + 1 + k) :=
          hstep.frame _ fun h => absurd h.1 (by omega)
        rw [Nat.add_comm k 1, ← Nat.add_assoc, ← Nat.add_assoc, hcopied k (by omega), hsame]
    · exact Set.Ico_subset_Ico_right (by omega)
    · exact Set.Ico_subset_Ico (by omega) (by omega)

theorem copyMultibootInfo_spec (hplaced : Placed buffer info) (htotal : load r.bytes info 4 = total)
    (hlt : total < infoBufferSize) : ∃ r', copyMultibootInfo buffer info r = .ok r' ∧
      (∀ k < total, r'.bytes (buffer + k) % 256 = r.bytes (info + k) % 256) ∧
      Wrote r r' (Set.Ico buffer (buffer + total)) := by
  have hinfo := hplaced.info_lt
  have hsize : infoBufferSize = 16384 := rfl
  obtain ⟨r', hrun, hcopied, hwrote⟩ := memcpy_spec (r := r) (show info + total ≤ 2 ^ 47 by omega)
    (hplaced.direct.mono hlt.le)
  refine ⟨r', ?_, hcopied, hwrote⟩
  rw [copyMultibootInfo, read_low (by omega), ok_bind, htotal, if_neg (by omega), hrun]

end copy

/-! ### The walk -/

section walk
variable {r : Ram} {a base buffer info type size fuel : ℕ} {t : Tag} {tags : List Tag} {s : Infos}

theorem alignUp_eight {a : ℕ} (ha : a + 7 < 2 ^ 64) : alignUp a 8 = (a + 7) / 8 * 8 := by
  have hmask : alignUp a 8 = wrap (a + 7) / 8 * 8 := land_lnot (k := 3) (wrap_lt _) (by norm_num)
  rw [hmask, wrap_of_lt ha]

@[simp] theorem header_length : (header type size).length = 8 := by
  rw [header, List.length_append, numberBytes_length, numberBytes_length]

theorem Tag.encode_length (t : Tag) :
    t.encode.length = t.size + t.padding.length ∧ 8 ∣ t.encode.length := by
  have hpadded := t.padded
  have hlength : t.encode.length = 8 + (t.payload.length + t.padding.length) := by
    rw [Tag.encode, List.length_append, header_length, List.length_append]
  refine ⟨?_, by omega⟩
  rw [hlength, Tag.size, tagHeaderSize]
  omega

theorem Tag.next (t : Tag) (h8 : 8 ∣ base) (hlt : base + t.encode.length < 2 ^ 64) :
    nextTag base t.size = base + t.encode.length := by
  obtain ⟨hlength, hdvd⟩ := t.encode_length
  have hshort := t.short
  rw [nextTag, alignUp_eight (by omega)]
  omega

theorem read_header (hdir : Direct base 8) (hholds : Holds r.bytes base (header type size))
    (htype : type < 2 ^ 32) (hsize : size < 2 ^ 32) :
    read r base 4 = .ok type ∧ read r (base + 4) 4 = .ok size := by
  obtain ⟨hlow, hhigh⟩ := id hdir
  obtain ⟨hfirst, hsecond⟩ := holds_append.mp hholds
  rw [numberBytes_length] at hsecond
  have hdir₄ : Direct (base + 4) 4 := ⟨by omega, by omega⟩
  rw [read_direct (hdir.mono (by norm_num)) (by norm_num), read_direct hdir₄ (by norm_num),
    load_of_holds hfirst htype, load_of_holds hsecond hsize]
  exact ⟨rfl, rfl⟩

theorem visit_mmapInfo (type i : ℕ) (s : Infos) : (visit type i s).mmapInfo =
    (if type = tagMemoryMap then some i else none).getD s.mmapInfo := by
  unfold visit
  split_ifs <;> rfl

theorem visit_framebufferInfo (type i : ℕ) (s : Infos) : (visit type i s).framebufferInfo =
    (if type = tagFramebufferInformation then some i else none).getD s.framebufferInfo := by
  unfold visit
  split_ifs with h h' h'
  · rw [h] at h'
    cases h'
  · rfl
  · rfl
  · rfl

theorem visit_headers (type i : ℕ) (s : Infos) : (visit type i s).headers = s.headers := by
  unfold visit
  split_ifs <;> rfl

theorem encodeTags_length (tags : List Tag) :
    8 ≤ (encodeTags tags).length ∧ 8 ∣ (encodeTags tags).length := by
  induction tags with
  | nil => rw [encodeTags, header_length]; decide
  | cons t tags ih =>
    have hdvd := t.encode_length.2
    rw [encodeTags, List.length_append]
    omega

theorem parseLoop_tag (fuel : ℕ) (s : Infos) (hdir : Direct base (encodeTags (t :: tags)).length) (h8 : 8 ∣ base)
    (hholds : Holds r.bytes base (encodeTags (t :: tags)))
    (hlt : (encodeTags (t :: tags)).length < 2 ^ 32) :
    parseLoop r (fuel + 1) base s = parseLoop r fuel (base + t.encode.length)
      (visit t.type base { s with headers := base :: s.headers }) := by
  obtain ⟨htag, -⟩ := holds_append.mp hholds
  obtain ⟨hheader, -⟩ := holds_append.mp htag
  obtain ⟨hlength, -⟩ := t.encode_length
  have hend := (encodeTags_length tags).1
  rw [encodeTags, List.length_append] at hdir hlt
  have h8le : 8 ≤ t.size := Nat.le_add_right _ _
  have hhigh := hdir.2
  obtain ⟨htype, hsize⟩ := read_header (hdir.mono (by omega)) hheader t.type_lt (by omega)
  rw [parseLoop, htype, ok_bind]
  dsimp only
  rw [if_neg t.type_ne, hsize, ok_bind, t.next h8 (by omega)]

theorem parseLoop_tags (s : Infos) (hdir : Direct base (encodeTags tags).length) (h8 : 8 ∣ base)
    (hholds : Holds r.bytes base (encodeTags tags)) (hlt : (encodeTags tags).length < 2 ^ 32)
    (hfuel : tags.length < fuel) :
    ∃ s', parseLoop r fuel base s = .ok s' ∧ s'.headers = (positions base tags).reverse ++ s.headers ∧
      s'.mmapInfo = (lastTag tagMemoryMap base tags).getD s.mmapInfo ∧
      s'.framebufferInfo = (lastTag tagFramebufferInformation base tags).getD s.framebufferInfo := by
  obtain ⟨fuel, rfl⟩ : ∃ k, fuel = k + 1 := ⟨fuel - 1, by omega⟩
  induction tags generalizing base s fuel with
  | nil =>
    obtain ⟨htype, -⟩ := read_header (hdir.mono (encodeTags_length []).1) hholds (by norm_num)
      (by norm_num)
    refine ⟨{ s with headers := base :: s.headers }, ?_, rfl, rfl, rfl⟩
    rw [parseLoop, htype, ok_bind]
    dsimp only
    rw [if_pos rfl, pure_eq]
  | cons t tags ih =>
    obtain ⟨hlow, hhigh⟩ := id hdir
    have hdvd := t.encode_length.2
    have hrun := parseLoop_tag fuel s hdir h8 hholds hlt
    rw [List.length_cons] at hfuel
    rw [encodeTags, List.length_append] at hhigh hlt
    obtain ⟨fuel, rfl⟩ : ∃ k, fuel = k + 1 := ⟨fuel - 1, by omega⟩
    obtain ⟨s', hs', hheaders, hmmap, hframebuffer⟩ := @ih (base + t.encode.length)
      (visit t.type base { s with headers := base :: s.headers }) ⟨by omega, by omega⟩
      (by omega) (holds_append.mp hholds).2 (by omega) fuel (by omega)
    refine ⟨s', hrun.trans hs', ?_, ?_, ?_⟩
    · rw [hheaders, visit_headers, positions, List.reverse_cons, List.append_assoc]
      rfl
    · rw [hmmap, visit_mmapInfo, lastTag, Option.getD_or]
    · rw [hframebuffer, visit_framebufferInfo, lastTag, Option.getD_or]

theorem positions_inside (hmem : a ∈ positions base tags) :
    base ≤ a ∧ a + 8 ≤ base + (encodeTags tags).length := by
  induction tags generalizing base with
  | nil =>
    obtain rfl := List.mem_singleton.mp hmem
    rw [encodeTags, header_length]
    omega
  | cons t tags ih =>
    have hend := (encodeTags_length tags).1
    have hlength := t.encode_length.1
    rw [encodeTags, List.length_append]
    rcases List.mem_cons.mp hmem with rfl | hmem
    · omega
    · have := ih hmem
      omega

/-- `copy_multiboot_info` and `parse_multiboot_info` on a block of tags. -/
theorem parse_visits {reserved : ℕ} (hplaced : Placed buffer info)
    (hholds : Holds r.bytes info (encodeInfo reserved tags))
    (htotal : (encodeInfo reserved tags).length < infoBufferSize) (mmapInfo framebufferInfo : ℕ) :
    ∃ r', copyMultibootInfo buffer info r = .ok r' ∧ ∀ fuel, tags.length < fuel →
      ∃ s', parseMultibootInfo buffer fuel r' ⟨mmapInfo, framebufferInfo, []⟩ = .ok s' ∧
        Visits buffer tags r' ⟨mmapInfo, framebufferInfo, []⟩ s' := by
  have hsize : infoBufferSize = 16384 := rfl
  have hlength : (encodeInfo reserved tags).length = 8 + (encodeTags tags).length := by
    simp [encodeInfo]
    omega
  rw [hlength] at htotal
  have hload : load r.bytes info 4 = 8 + (encodeTags tags).length :=
    load_of_holds (holds_append.mp hholds).1 (by omega)
  obtain ⟨r', hcopy, hcopied, -⟩ := copyMultibootInfo_spec hplaced hload htotal
  have hblock : Holds r'.bytes buffer (encodeInfo reserved tags) :=
    hholds.shift fun k hk => (hcopied k (by omega)).symm
  have htags : Holds r'.bytes (firstTag buffer) (encodeTags tags) := by
    have hbehind := (holds_append.mp (holds_append.mp hblock).2).2
    rwa [numberBytes_length, numberBytes_length] at hbehind
  obtain ⟨hlow, hhigh⟩ := hplaced.direct
  have haligned := hplaced.aligned
  have hfirst : firstTag buffer = buffer + 8 := rfl
  refine ⟨r', hcopy, fun fuel hfuel => ?_⟩
  have hdir : Direct (firstTag buffer) (encodeTags tags).length := ⟨by omega, by omega⟩
  obtain ⟨s', hrun, hheaders, hmmap, hframebuffer⟩ :=
    parseLoop_tags ⟨mmapInfo, framebufferInfo, []⟩ hdir (by omega) htags (by omega) hfuel
  refine ⟨s', hrun, htags, hheaders, fun i hi => ?_, hmmap, hframebuffer⟩
  have hinside := positions_inside hi
  rw [tagHeaderSize]
  omega

end walk

/-! ### A block with two tags -/

/-- A memory map without entries and a framebuffer tag, shorter than a real one. -/
def sampleTags : List Tag :=
  [⟨6, [24, 0, 0, 0, 0, 0, 0, 0], [], by decide, by decide, by decide, by decide⟩,
    ⟨8, [1, 2, 3], [0, 0, 0, 0, 0], by decide, by decide, by decide, by decide⟩]

theorem samplePlaced : Placed 0xFFFFFFFF80200000 0x10000 :=
  ⟨by norm_num, ⟨by rw [show kernelDirectBase = 0xFFFF800000000000 from rfl]; norm_num, by norm_num⟩,
    by norm_num⟩

theorem parse_visits_sample : ∃ r r', copyMultibootInfo 0xFFFFFFFF80200000 0x10000 r = .ok r' ∧
    ∀ fuel, sampleTags.length < fuel → ∃ s',
      parseMultibootInfo 0xFFFFFFFF80200000 fuel r' ⟨0, 0, []⟩ = .ok s' ∧
        Visits 0xFFFFFFFF80200000 sampleTags r' ⟨0, 0, []⟩ s' := by
  have hlength : (encodeInfo 0 sampleTags).length < infoBufferSize := by decide
  obtain ⟨m, hholds⟩ : ∃ m, Holds m 0x10000 (encodeInfo 0 sampleTags) := ⟨_, holds_ofList _ _⟩
  have hblock : Holds (Ram.mk m []).bytes 0x10000 (encodeInfo 0 sampleTags) := hholds
  exact ⟨⟨m, []⟩, parse_visits samplePlaced hblock hlength 0 0⟩

end Fynaos.Multiboot
