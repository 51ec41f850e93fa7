import Mathlib.Data.List.Forall2
import Fynaos.Multiboot.Tags

/-!
# The memory map tag

The tag says how far its entries are apart. The count goes by that (`mmapEntryCount_eq`), but `entries[i]` goes
by the size of the compiled `struct multiboot2_mmap_entry`, so from the second entry on the map is
right only if the two are equal (`decodesAll_iff`).
-/

namespace Fynaos.Multiboot

open Memory

/-- An entry and the bytes up to the next one. -/
structure MapRecord where
  entry : MmapEntry
  rest : List ℕ
  addr_lt : entry.addr < 2 ^ 64
  len_lt : entry.len < 2 ^ 64
  type_lt : entry.type < 2 ^ 32

def MapRecord.encode (e : MapRecord) : List ℕ :=
  numberBytes 8 e.entry.addr ++ (numberBytes 8 e.entry.len ++ (numberBytes 4 e.entry.type ++ e.rest))

def encodeRecords : List MapRecord → List ℕ
  | [] => []
  | e :: records => e.encode ++ encodeRecords records

def encodeMmap (entrySize version : ℕ) (records : List MapRecord) : List ℕ :=
  header tagMemoryMap (16 + records.length * entrySize) ++
    (numberBytes 4 entrySize ++ (numberBytes 4 version ++ encodeRecords records))

/-- From each tag with `n` entries of a size, `init_memory` gets these entries. -/
def DecodesAll (entrySize n : ℕ) : Prop := ∀ (r : Ram) (mmap version : ℕ) (records : List MapRecord),
  records.length = n → (∀ e ∈ records, e.encode.length = entrySize) →
  Direct mmap (16 + n * entrySize) → Holds r.bytes mmap (encodeMmap entrySize version records) →
  mmapEntryCount r mmap = .ok n ∧ mmapEntries r mmap = .ok (records.map MapRecord.entry)

section mmap
variable {r : Ram} {m : Bytes} {a entrySize mmap n version i : ℕ} {records : List MapRecord}
  {e : MapRecord}

theorem mapM_ok_iff {α β : Type} {f : α → Except Halt β} {l : List α} {l' : List β} :
    l.mapM f = .ok l' ↔ List.Forall₂ (fun a b => f a = .ok b) l l' := by
  induction l generalizing l' with
  | nil =>
    rw [List.mapM_nil, List.forall₂_nil_left_iff, pure_eq]
    exact ⟨fun h => (Except.ok.inj h).symm, fun h => congrArg Except.ok h.symm⟩
  | cons a l ih =>
    rw [List.mapM_cons, bind_eq_ok, List.forall₂_cons_left_iff]
    constructor
    · rintro ⟨b, hb, h⟩
      obtain ⟨bs, hbs, h⟩ := bind_eq_ok.mp h
      cases h
      exact ⟨b, bs, hb, ih.mp hbs, rfl⟩
    · rintro ⟨b, bs, hb, hbs, rfl⟩
      exact ⟨b, hb, by rw [ih.mpr hbs, ok_bind, pure_eq]⟩

/-! ### An entry -/

theorem MapRecord.encode_length (e : MapRecord) : e.encode.length = 20 + e.rest.length := by
  simp [encode]
  omega

theorem readEntry_holds (hdir : Direct (a + 24 * i) 20) (hholds : Holds r.bytes (a + 24 * i) e.encode) :
    readEntry r a i = .ok e.entry := by
  obtain ⟨hlow, hhigh⟩ := id hdir
  obtain ⟨haddr, hrest⟩ := holds_append.mp hholds
  obtain ⟨hlen, hrest⟩ := holds_append.mp hrest
  obtain ⟨htype, -⟩ := holds_append.mp hrest
  rw [numberBytes_length] at hlen htype
  rw [numberBytes_length, Nat.add_assoc] at htype
  have hdir₈ : Direct (a + 24 * i + 8) 8 := ⟨by omega, by omega⟩
  have hdir₁₆ : Direct (a + 24 * i + 16) 4 := ⟨by omega, by omega⟩
  rw [readEntry, read_direct (hdir.mono (by norm_num)) (by norm_num), ok_bind,
    read_direct hdir₈ (by norm_num), ok_bind, read_direct hdir₁₆ (by norm_num), ok_bind, pure_eq,
    load_of_holds haddr e.addr_lt, load_of_holds hlen e.len_lt, load_of_holds htype e.type_lt]

theorem holds_record (hholds : Holds m a (encodeRecords records))
    (hsize : ∀ e ∈ records, e.encode.length = entrySize) (hi : i < records.length) :
    Holds m (a + entrySize * i) (records[i]).encode := by
  induction records generalizing a i with
  | nil => exact absurd hi (Nat.not_lt_zero i)
  | cons e records ih =>
    obtain ⟨hfirst, hrest⟩ := holds_append.mp hholds
    rw [hsize e List.mem_cons_self] at hrest
    cases i with
    | zero => exact hfirst
    | succ i =>
      have hnext := ih hrest (fun e he => hsize e (List.mem_cons_of_mem _ he))
        (Nat.lt_of_succ_lt_succ hi)
      rwa [Nat.add_assoc, Nat.add_comm entrySize, ← Nat.mul_succ] at hnext

/-! ### The count -/

/-- The 8 bytes of the header that are not subtracted do not make up an entry. -/
theorem mmapEntryCount_eq (h24 : 24 ≤ entrySize) (h32 : entrySize < 2 ^ 32)
    (hlt : 16 + records.length * entrySize < 2 ^ 32)
    (hdir : Direct mmap (16 + records.length * entrySize))
    (hholds : Holds r.bytes mmap (encodeMmap entrySize version records)) :
    mmapEntryCount r mmap = .ok records.length := by
  obtain ⟨hlow, hhigh⟩ := id hdir
  obtain ⟨hheader, hrest⟩ := holds_append.mp hholds
  obtain ⟨hentrySize, -⟩ := holds_append.mp hrest
  rw [header_length] at hentrySize
  obtain ⟨-, hsize⟩ := read_header (hdir.mono (by omega)) hheader (by norm_num) hlt
  have hdir₈ : Direct (mmap + 8) 4 := ⟨by omega, by omega⟩
  have hcount : (8 + records.length * entrySize) / entrySize = records.length := by
    rw [Nat.add_mul_div_right _ _ (by omega), Nat.div_eq_of_lt (by omega), Nat.zero_add]
  have hwrap : wrap (16 + records.length * entrySize + 2 ^ 64 - tagHeaderSize) =
      8 + records.length * entrySize := by
    unfold wrap
    rw [tagHeaderSize]
    omega
  rw [mmapEntryCount, hsize, ok_bind, read_direct hdir₈ (by norm_num),
    load_of_holds hentrySize (by norm_num; omega), ok_bind, if_neg (by omega), hwrap, hcount, pure_eq]

/-! ### All entries -/

theorem mmapEntries_eq (h24 : 24 ≤ entrySize) (h32 : entrySize < 2 ^ 32)
    (hlt : 16 + records.length * entrySize < 2 ^ 32)
    (hdir : Direct mmap (16 + records.length * entrySize))
    (hsize : ∀ e ∈ records, e.encode.length = entrySize)
    (hholds : Holds r.bytes mmap (encodeMmap entrySize version records))
    (hstride : entrySize = 24 ∨ records.length ≤ 1) :
    mmapEntries r mmap = .ok (records.map MapRecord.entry) := by
  obtain ⟨hlow, hhigh⟩ := id hdir
  have hrecords : Holds r.bytes (mmap + 16) (encodeRecords records) := by
    have hbehind := (holds_append.mp (holds_append.mp (holds_append.mp hholds).2).2).2
    rwa [header_length, numberBytes_length, numberBytes_length] at hbehind
  rw [mmapEntries, mmapEntryCount_eq h24 h32 hlt hdir hholds, ok_bind, mapM_ok_iff,
    List.forall₂_iff_get]
  refine ⟨by simp, fun i hi hi' => ?_⟩
  rw [List.length_range] at hi
  have hsame : 24 * i = entrySize * i := by
    rcases hstride with rfl | hle
    · rfl
    · obtain rfl : i = 0 := by omega
      simp
  have hend : entrySize * i + entrySize ≤ records.length * entrySize := by
    rw [← Nat.mul_succ, Nat.mul_comm]
    exact Nat.mul_le_mul_right _ hi
  have hrecord := holds_record hrecords hsize hi
  rw [← hsame] at hrecord hend
  have hread : readEntry r (mmap + 16) i = .ok (records[i]).entry :=
    readEntry_holds ⟨by omega, by omega⟩ hrecord
  simpa using hread

end mmap

/-! ### Entries of another size -/

/-- A usable byte at the address 1, in an entry of at least 32 bytes. -/
def wideRecord (entrySize : ℕ) : MapRecord where
  entry := ⟨1, 1, 1⟩
  rest := numberBytes 4 0 ++ (numberBytes 8 0 ++ List.replicate (entrySize - 32) 0)
  addr_lt := by norm_num
  len_lt := by norm_num
  type_lt := by norm_num

theorem not_decodesAll {entrySize n : ℕ} (h32 : 32 ≤ entrySize) (hn : 2 ≤ n)
    (hlt : 16 + n * entrySize < 2 ^ 32) : ¬ DecodesAll entrySize n := by
  intro hall
  have hbase : kernelDirectBase = 2 ^ 64 - 2 ^ 47 := rfl
  have hsize : ∀ e ∈ List.replicate n (wideRecord entrySize), e.encode.length = entrySize := by
    intro e he
    rw [List.eq_of_mem_replicate he, MapRecord.encode_length]
    simp [wideRecord]
    omega
  obtain ⟨m, hholds⟩ : ∃ m, Holds m kernelDirectBase
      (encodeMmap entrySize 0 (List.replicate n (wideRecord entrySize))) := ⟨_, holds_ofList _ _⟩
  obtain ⟨hcount, hentries⟩ := hall ⟨m, []⟩ kernelDirectBase 0 _ List.length_replicate hsize
    ⟨le_rfl, by omega⟩ hholds
  rw [mmapEntries, hcount, ok_bind, mapM_ok_iff, List.forall₂_iff_get] at hentries
  -- the second entry is looked for in the rest of the first one
  have hsecond : readEntry ⟨m, []⟩ (kernelDirectBase + 16) 1 = .ok ⟨1, 1, 1⟩ := by
    have hread := hentries.2 1 (by rw [List.length_range]; omega)
      (by rw [List.length_map, List.length_replicate]; omega)
    simpa [wideRecord] using hread
  have hrecords := (holds_append.mp (holds_append.mp (holds_append.mp hholds).2).2).2
  rw [header_length, numberBytes_length, numberBytes_length] at hrecords
  have hfirst := holds_record hrecords hsize (i := 0) (by rw [List.length_replicate]; omega)
  rw [List.getElem_replicate] at hfirst
  have hrest := (holds_append.mp (holds_append.mp (holds_append.mp hfirst).2).2).2
  rw [numberBytes_length, numberBytes_length, numberBytes_length] at hrest
  have hzero := (holds_append.mp (holds_append.mp hrest).2).1
  rw [numberBytes_length] at hzero
  have hload : load m (kernelDirectBase + 16 + mmapEntrySize * 1) 8 = 0 :=
    load_of_holds hzero (by norm_num)
  have hdir : Direct (kernelDirectBase + 16 + mmapEntrySize * 1) 8 := by
    rw [mmapEntrySize]
    exact ⟨by omega, by omega⟩
  rw [readEntry, read_direct hdir (by norm_num), ok_bind, hload] at hsecond
  obtain ⟨len, -, hsecond⟩ := bind_eq_ok.mp hsecond
  obtain ⟨type, -, hsecond⟩ := bind_eq_ok.mp hsecond
  cases hsecond

theorem decodesAll_iff {entrySize n : ℕ} (h24 : 24 ≤ entrySize) (h8 : 8 ∣ entrySize)
    (h32 : entrySize < 2 ^ 32) (hlt : 16 + n * entrySize < 2 ^ 32) :
    DecodesAll entrySize n ↔ entrySize = 24 ∨ n ≤ 1 := by
  constructor
  · intro hall
    by_contra hnot
    exact not_decodesAll (by omega) (by omega) hlt hall
  · rintro hstride r mmap version records rfl hsize hdir hholds
    exact ⟨mmapEntryCount_eq h24 h32 hlt hdir hholds,
      mmapEntries_eq h24 h32 hlt hdir hsize hholds hstride⟩

theorem decodesAll_iff_three : DecodesAll 24 3 :=
  (decodesAll_iff (by norm_num) (by norm_num) (by norm_num) (by norm_num)).mpr (Or.inl rfl)

/-- Two entries of 32 bytes. -/
theorem wide_entries_misread : ¬ DecodesAll 32 2 := not_decodesAll le_rfl le_rfl (by norm_num)

end Fynaos.Multiboot
