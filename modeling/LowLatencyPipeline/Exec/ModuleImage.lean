import LowLatencyPipeline.Library.Reading

/-!
# The check of a module's image

`check_elf` of `exec/loader.cpp`, on the image of a module file that `load_strategy` has mapped.
`Mapping` is an image in the memory around it; the check reads memory by address, and an address is
computed in 64 bits, as is the end of the program header table before it is compared with the
length.

* **What the check is worth** (`checkElf_sound_iff`): its reads stay in the image, and what it
  accepts has its whole table there without a `PT_TLS` entry, iff the end of the table of an
  x86-64 shared object does not wrap to a value within the length.
* `checkElf_wraps`: an offset just below `2 ^ 64` is accepted, and read in front of the image.
-/

namespace LowLatencyPipeline

namespace Exec

open Bytes

/-! ### The ELF header -/

/-- `ELFMAG`. -/
def ELFMAG : List UInt8 := [0x7f, 0x45, 0x4c, 0x46]

/-- `ELFCLASS64`. -/
def ELFCLASS64 : ℕ := 2

/-- `ET_DYN`. -/
def ET_DYN : ℕ := 3

/-- `EM_X86_64`. -/
def EM_X86_64 : ℕ := 62

/-- `PT_TLS`. -/
def PT_TLS : ℕ := 7

/-- `sizeof(Elf64_Ehdr)`. -/
def EHDR_SIZE : ℕ := 64

/-- `sizeof(Elf64_Phdr)`. -/
def PHDR_SIZE : ℕ := 56

/-- A number of `n` bytes at an offset, as the machine reads it. -/
def field (off n : ℕ) (bs : List UInt8) : ℕ := ofLE (slice off n bs)

/-- `e_ident[EI_CLASS]`. -/
def eClass (eh : List UInt8) : ℕ := field 4 1 eh

/-- `e_type`. -/
def eType (eh : List UInt8) : ℕ := field 16 2 eh

/-- `e_machine`. -/
def eMachine (eh : List UInt8) : ℕ := field 18 2 eh

/-- `e_phoff`. -/
def ePhoff (eh : List UInt8) : ℕ := field 32 8 eh

/-- `e_phnum`. -/
def ePhnum (eh : List UInt8) : ℕ := field 56 2 eh

/-- `p_type`. -/
def pType (ph : List UInt8) : ℕ := field 0 4 ph

/-! ### The check -/

/-- The address of a program header. -/
def phdrAt (img phoff : UInt64) (i : ℕ) : UInt64 := img + phoff + UInt64.ofNat i * 56

/-- The loop over the program headers, with `n` of them left from the `i`-th on. -/
def checkPhdrs (img phoff : UInt64) : ℕ → ℕ → Reading (Except String Unit)
  | 0, _ => return .ok ()
  | n + 1, i => do
    let ph ← .read (phdrAt img phoff i).toNat PHDR_SIZE
    if pType ph = PT_TLS then return .error "module has thread-local storage (PT_TLS)"
    else checkPhdrs img phoff n (i + 1)

/-- `check_elf`. -/
def checkElf (img len : UInt64) : Reading (Except String Unit) := do
  if len.toNat < EHDR_SIZE then return .error "not an ELF file"
  else
    let magic ← .read img.toNat ELFMAG.length
    if magic ≠ ELFMAG then return .error "not an ELF file"
    else
      let eh ← .read img.toNat EHDR_SIZE
      if eClass eh ≠ ELFCLASS64 ∨ eMachine eh ≠ EM_X86_64 ∨ eType eh ≠ ET_DYN then
        return .error "not an x86-64 shared object"
      else
        -- the end of the table in 64 bits
        let phoff := UInt64.ofNat (ePhoff eh)
        if phoff + UInt64.ofNat (ePhnum eh) * 56 > len then
          return .error "truncated program headers"
        else checkPhdrs img phoff (ePhnum eh) 0

theorem field_lt (off n : ℕ) (bs : List UInt8) : field off n bs < 256 ^ n := by
  have hlt := ofBE_lt (slice off n bs).reverse
  rw [ofBE, List.reverse_reverse, List.length_reverse] at hlt
  exact hlt.trans_le (Nat.pow_le_pow_right (by decide) (List.length_take_le _ _))

/-! ### Images -/

/-- A module file mapped into memory. A file has a signed 64-bit size. -/
structure Mapping where
  mem : List UInt8
  img : UInt64
  len : UInt64
  mapped : img.toNat + len.toNat ≤ mem.length
  space : mem.length ≤ 2 ^ 64
  size : len.toNat < 2 ^ 63

namespace Mapping

/-- A file mapped at the second page, behind zeros. -/
def ofFile (bytes : List UInt8) (h : bytes.length < 2 ^ 63) : Mapping where
  mem := List.replicate 4096 0 ++ bytes
  img := 4096
  len := UInt64.ofNat bytes.length
  mapped := by
    rw [UInt64.toNat_ofNat', Nat.mod_eq_of_lt (by omega), List.length_append,
      List.length_replicate]
    rfl
  space := by
    rw [List.length_append, List.length_replicate]
    omega
  size := by
    rw [UInt64.toNat_ofNat', Nat.mod_eq_of_lt (by omega)]
    exact h

variable (m : Mapping)

/-- The bytes of the file. -/
def image : List UInt8 := slice m.img.toNat m.len.toNat m.mem

/-- The verdict of `check_elf`. -/
def verdict : Except String Unit := ((checkElf m.img m.len).run m.mem).1

/-- The addresses that `check_elf` reads. -/
def reads : List ℕ := ((checkElf m.img m.len).run m.mem).2

/-- An address in the image. -/
def Inside (addr : ℕ) : Prop := m.img.toNat ≤ addr ∧ addr < m.img.toNat + m.len.toNat

end Mapping

/-- The image of an x86-64 shared object, by its header. -/
structure SharedObject (image : List UInt8) : Prop where
  length : EHDR_SIZE ≤ image.length
  magic : slice 0 4 image = ELFMAG
  eClass : eClass image = ELFCLASS64
  eMachine : eMachine image = EM_X86_64
  eType : eType image = ET_DYN

/-- The whole program header table lies in the image and has no `PT_TLS` entry. -/
structure WellFormed (image : List UInt8) : Prop where
  table : ePhoff image + PHDR_SIZE * ePhnum image ≤ image.length
  noTls : ∀ i < ePhnum image, pType (slice (ePhoff image + PHDR_SIZE * i) PHDR_SIZE image) ≠ PT_TLS

/-- The check reads inside of the image only, and accepts only well-formed images. -/
structure Mapping.Sound (m : Mapping) : Prop where
  inside : ∀ addr ∈ m.reads, m.Inside addr
  accepted : m.verdict = .ok () → WellFormed m.image

/-- The end of the table does not wrap to a value within the length. -/
def EndKept (image : List UInt8) : Prop :=
  ePhoff image + PHDR_SIZE * ePhnum image < 2 ^ 64 ∨
    2 ^ 64 + image.length < ePhoff image + PHDR_SIZE * ePhnum image

/-! ### The loop -/

section Loop

variable {img phoff : UInt64} {mem : List UInt8} {n i : ℕ}

/-- What one round of the loop does. -/
theorem checkPhdrs_run : (checkPhdrs img phoff (n + 1) i).run mem =
    let ph := slice (phdrAt img phoff i).toNat PHDR_SIZE mem
    let rest := if pType ph = PT_TLS
      then (.error "module has thread-local storage (PT_TLS)", [])
      else (checkPhdrs img phoff n (i + 1)).run mem
    (rest.1, List.range' (phdrAt img phoff i).toNat PHDR_SIZE ++ rest.2) := by
  rw [checkPhdrs, Reading.bind_run, Reading.read_run, Reading.ite_run, Reading.pure_run]

/-- The loop reads program headers. -/
theorem mem_checkPhdrs {addr : ℕ} (h : addr ∈ ((checkPhdrs img phoff n i).run mem).2) :
    ∃ k, i ≤ k ∧ k < i + n ∧ (phdrAt img phoff k).toNat ≤ addr ∧
      addr < (phdrAt img phoff k).toNat + PHDR_SIZE := by
  induction n generalizing i with
  | zero => exact absurd h List.not_mem_nil
  | succ n ih =>
    rw [checkPhdrs_run] at h
    rcases List.mem_append.1 h with hhere | hrest
    · obtain ⟨hle, hlt⟩ := List.mem_range'_1.1 hhere
      exact ⟨i, le_rfl, by omega, hle, hlt⟩
    · split_ifs at hrest
      · exact absurd hrest List.not_mem_nil
      · obtain ⟨k, hik, hkn, hread⟩ := ih hrest
        exact ⟨k, by omega, by omega, hread⟩

/-- The first header is always read. -/
theorem mem_checkPhdrs_first (hn : 0 < n) :
    (phdrAt img phoff i).toNat ∈ ((checkPhdrs img phoff n i).run mem).2 := by
  obtain ⟨n, rfl⟩ : ∃ k, n = k + 1 := ⟨n - 1, by omega⟩
  rw [checkPhdrs_run]
  exact List.mem_append_left _ (List.mem_range'_1.2 ⟨le_rfl, Nat.lt_add_of_pos_right (by decide)⟩)

/-- The loop accepts where no header is `PT_TLS`. -/
theorem checkPhdrs_ok (h : ((checkPhdrs img phoff n i).run mem).1 = .ok ()) {k : ℕ} (hik : i ≤ k)
    (hkn : k < i + n) : pType (slice (phdrAt img phoff k).toNat PHDR_SIZE mem) ≠ PT_TLS := by
  induction n generalizing i with
  | zero => omega
  | succ n ih =>
    rw [checkPhdrs_run] at h
    dsimp only at h
    split_ifs at h with htls
    rcases Nat.eq_or_lt_of_le hik with rfl | hlt
    · exact htls
    · exact ih h hlt (by omega)

end Loop

/-! ### The whole check -/

namespace Mapping

variable (m : Mapping)

theorem length_image : m.image.length = m.len.toNat := by
  have hmapped := m.mapped
  rw [image, slice, List.length_take, List.length_drop]
  omega

/-- A part of the image, by address. -/
theorem slice_image {off n : ℕ} (h : off + n ≤ m.len.toNat) :
    slice off n m.image = slice (m.img.toNat + off) n m.mem := by
  rw [image, slice_slice h, slice, List.drop_drop, slice]

/-- The copied header is the front of the image. -/
theorem slice_header (hlen : EHDR_SIZE ≤ m.len.toNat) {off n : ℕ} (h : off + n ≤ EHDR_SIZE) :
    slice off n (slice m.img.toNat EHDR_SIZE m.mem) = slice off n m.image := by
  rw [slice_slice h, slice_image m (h.trans hlen), slice, List.drop_drop, slice]

/-- The reads of the header. -/
theorem inside_of_header (hlen : EHDR_SIZE ≤ m.len.toNat) {n addr : ℕ} (hn : n ≤ EHDR_SIZE)
    (h : addr ∈ List.range' m.img.toNat n) : m.Inside addr := by
  obtain ⟨hle, hlt⟩ := List.mem_range'_1.1 h
  exact ⟨hle, by omega⟩

/-- `e_phoff` of the image, as the code holds it. -/
def phoff : UInt64 := UInt64.ofNat (ePhoff m.image)

/-- The end of the table, as the code computes it. -/
def tableEnd : UInt64 := m.phoff + UInt64.ofNat (ePhnum m.image) * 56

/-- **What the check can do**: refuse a header, or a table whose computed end is behind the image,
after reading no more than the header; or go through the table. -/
theorem checkElf_cases :
    (¬(SharedObject m.image ∧ m.tableEnd ≤ m.len) ∧ m.verdict ≠ .ok () ∧
        ∀ addr ∈ m.reads, m.Inside addr) ∨
      (SharedObject m.image ∧ m.tableEnd ≤ m.len ∧
        m.verdict = ((checkPhdrs m.img m.phoff (ePhnum m.image) 0).run m.mem).1 ∧
        m.reads = List.range' m.img.toNat ELFMAG.length ++ (List.range' m.img.toNat EHDR_SIZE ++
          ((checkPhdrs m.img m.phoff (ePhnum m.image) 0).run m.mem).2)) := by
  unfold verdict reads
  by_cases hlen : m.len.toNat < EHDR_SIZE
  · refine .inl ⟨fun h => ?_, ?_⟩
    · have := h.1.length
      rw [length_image] at this
      omega
    · rw [checkElf, if_pos hlen]
      exact ⟨by simp, fun addr h => absurd h List.not_mem_nil⟩
  have hle : EHDR_SIZE ≤ m.len.toNat := Nat.le_of_not_lt hlen
  have hmagic : slice m.img.toNat ELFMAG.length m.mem = slice 0 4 m.image :=
    (m.slice_image (le_trans (by decide : 0 + 4 ≤ EHDR_SIZE) hle)).symm
  have hfield : ∀ off n, off + n ≤ EHDR_SIZE →
      field off n (slice m.img.toNat EHDR_SIZE m.mem) = field off n m.image := fun off n h =>
    congrArg ofLE (m.slice_header hle h)
  have hclass : eClass (slice m.img.toNat EHDR_SIZE m.mem) = eClass m.image :=
    hfield 4 1 (by decide : 4 + 1 ≤ 64)
  have htype : eType (slice m.img.toNat EHDR_SIZE m.mem) = eType m.image :=
    hfield 16 2 (by decide : 16 + 2 ≤ 64)
  have hmachine : eMachine (slice m.img.toNat EHDR_SIZE m.mem) = eMachine m.image :=
    hfield 18 2 (by decide : 18 + 2 ≤ 64)
  have hphoff : ePhoff (slice m.img.toNat EHDR_SIZE m.mem) = ePhoff m.image :=
    hfield 32 8 (by decide : 32 + 8 ≤ 64)
  have hphnum : ePhnum (slice m.img.toNat EHDR_SIZE m.mem) = ePhnum m.image :=
    hfield 56 2 (by decide : 56 + 2 ≤ 64)
  rw [checkElf, if_neg hlen]
  simp only [Reading.bind_run, Reading.read_run, Reading.ite_run, Reading.pure_run, hmagic, hclass,
    htype, hmachine, hphoff, hphnum]
  -- what is read before the table
  have hbefore : ∀ addr ∈ List.range' m.img.toNat ELFMAG.length ++
      (List.range' m.img.toNat EHDR_SIZE ++ []), m.Inside addr := fun addr h => by
    rcases List.mem_append.1 h with h | h
    · exact m.inside_of_header hle (by decide) h
    · rw [List.append_nil] at h
      exact m.inside_of_header hle le_rfl h
  by_cases hm : slice 0 4 m.image = ELFMAG
  · rw [if_neg (not_not.2 hm)]
    split_ifs with hheader hend
    · refine .inl ⟨fun h => ?_, by simp, hbefore⟩
      rcases hheader with hne | hne | hne
      · exact hne h.1.eClass
      · exact hne h.1.eMachine
      · exact hne h.1.eType
    · exact .inl ⟨fun h => absurd h.2 (UInt64.not_le.2 hend), by simp, hbefore⟩
    · push Not at hheader
      refine .inr ⟨⟨by rwa [length_image], hm, hheader.1, hheader.2.1, hheader.2.2⟩,
        UInt64.not_lt.1 hend, rfl, rfl⟩
  · rw [if_pos hm]
    refine .inl ⟨fun h => hm h.1.magic, by simp, fun addr h => ?_⟩
    rw [List.append_nil] at h
    exact m.inside_of_header hle (by decide) h

theorem toNat_phoff : m.phoff.toNat = ePhoff m.image := by
  have hlt : ePhoff m.image < 256 ^ 8 := field_lt _ _ _
  rw [phoff, UInt64.toNat_ofNat', Nat.mod_eq_of_lt (by omega)]

theorem toNat_tableEnd :
    m.tableEnd.toNat = (ePhoff m.image + PHDR_SIZE * ePhnum m.image) % 2 ^ 64 := by
  have hlt : ePhnum m.image < 256 ^ 2 := field_lt _ _ _
  rw [tableEnd, UInt64.toNat_add, UInt64.toNat_mul, toNat_phoff, UInt64.toNat_ofNat',
    show (56 : UInt64).toNat = 56 from rfl, PHDR_SIZE]
  omega

theorem toNat_phdrAt (i : ℕ) :
    (phdrAt m.img m.phoff i).toNat = (m.img.toNat + ePhoff m.image + PHDR_SIZE * i) % 2 ^ 64 := by
  rw [phdrAt, UInt64.toNat_add, UInt64.toNat_add, UInt64.toNat_mul, toNat_phoff,
    UInt64.toNat_ofNat', show (56 : UInt64).toNat = 56 from rfl, PHDR_SIZE]
  omega

/-- A header of a table in the image lies where it should. -/
theorem toNat_phdrAt_of_le (h : ePhoff m.image + PHDR_SIZE * ePhnum m.image ≤ m.len.toNat) {i : ℕ}
    (hi : i < ePhnum m.image) :
    (phdrAt m.img m.phoff i).toNat = m.img.toNat + (ePhoff m.image + PHDR_SIZE * i) ∧
      ePhoff m.image + PHDR_SIZE * i + PHDR_SIZE ≤ m.len.toNat := by
  have hmapped := m.mapped
  have hspace := m.space
  rw [toNat_phdrAt, PHDR_SIZE] at *
  omega

variable {m}

/-- A table whose end wraps is read in front of the image. -/
theorem not_inside_of_wraps (h : 2 ^ 64 ≤ ePhoff m.image + PHDR_SIZE * ePhnum m.image) :
    ¬m.Inside (phdrAt m.img m.phoff 0).toNat := by
  have hphoff : ePhoff m.image < 256 ^ 8 := field_lt _ _ _
  have hphnum : ePhnum m.image < 256 ^ 2 := field_lt _ _ _
  have hmapped := m.mapped
  have hspace := m.space
  have hsize := m.size
  rw [PHDR_SIZE] at h
  rw [Inside, toNat_phdrAt]
  omega

/-- A table whose computed end is exact is read and checked as it should be. -/
theorem sound_of_le (h : ePhoff m.image + PHDR_SIZE * ePhnum m.image ≤ m.len.toNat)
    (hlen : EHDR_SIZE ≤ m.len.toNat)
    (hverdict : m.verdict = ((checkPhdrs m.img m.phoff (ePhnum m.image) 0).run m.mem).1)
    (hreads : m.reads = List.range' m.img.toNat ELFMAG.length ++
      (List.range' m.img.toNat EHDR_SIZE ++
        ((checkPhdrs m.img m.phoff (ePhnum m.image) 0).run m.mem).2)) : m.Sound := by
  refine ⟨fun addr haddr => ?_, fun hok => ⟨m.length_image ▸ h, fun i hi => ?_⟩⟩
  · rw [hreads] at haddr
    rcases List.mem_append.1 haddr with hmagic | haddr
    · exact m.inside_of_header hlen (by decide) hmagic
    rcases List.mem_append.1 haddr with hheader | haddr
    · exact m.inside_of_header hlen le_rfl hheader
    obtain ⟨k, -, hk, hle, hlt⟩ := mem_checkPhdrs haddr
    obtain ⟨hat, hend⟩ := m.toNat_phdrAt_of_le h (by omega : k < ePhnum m.image)
    rw [hat] at hle hlt
    exact ⟨by omega, by omega⟩
  · obtain ⟨hat, hend⟩ := m.toNat_phdrAt_of_le h hi
    have htls := checkPhdrs_ok (hverdict ▸ hok) i.zero_le (by omega : i < 0 + ePhnum m.image)
    rwa [hat, ← m.slice_image hend] at htls

/-- **The check of a module's image.** Whatever is mapped, the check reads the image only and
accepts well-formed images only, iff the end of the table of an x86-64 shared object does not wrap
to a value within the length. -/
theorem checkElf_sound_iff (m : Mapping) :
    m.Sound ↔ (SharedObject m.image → EndKept m.image) := by
  have hphoff : ePhoff m.image < 256 ^ 8 := field_lt _ _ _
  have hphnum : ePhnum m.image < 256 ^ 2 := field_lt _ _ _
  have hend := m.toNat_tableEnd
  have hsize := m.size
  rw [EndKept, length_image]
  rcases m.checkElf_cases with ⟨hrefused, hverdict, hinside⟩ | ⟨hobj, hle, hverdict, hreads⟩
  · refine iff_of_true ⟨hinside, fun hok => absurd hok hverdict⟩ fun hobj => ?_
    have hlt : m.len.toNat < m.tableEnd.toNat :=
      UInt64.lt_iff_toNat_lt.1 (UInt64.not_le.1 fun hle => hrefused ⟨hobj, hle⟩)
    rw [PHDR_SIZE] at *
    omega
  · have hle : m.tableEnd.toNat ≤ m.len.toNat := UInt64.le_iff_toNat_le.1 hle
    constructor
    · intro hsound hobj
      by_contra hwraps
      rw [PHDR_SIZE] at *
      refine not_inside_of_wraps (by rw [PHDR_SIZE]; omega) (hsound.inside _ ?_)
      rw [hreads]
      exact List.mem_append_right _ (List.mem_append_right _ (mem_checkPhdrs_first (by omega)))
    · intro hkept
      have hlen : EHDR_SIZE ≤ m.len.toNat := m.length_image ▸ hobj.length
      refine sound_of_le ?_ hlen hverdict hreads
      have := hkept hobj
      rw [PHDR_SIZE] at *
      omega

/-- Every file has a mapping. -/
theorem image_ofFile {bytes : List UInt8} (h : bytes.length < 2 ^ 63) :
    (ofFile bytes h).image = bytes := by
  have hlen : (UInt64.ofNat bytes.length).toNat = bytes.length := by
    rw [UInt64.toNat_ofNat', Nat.mod_eq_of_lt (by omega)]
  have hskip : (List.replicate 4096 (0 : UInt8)).length ≤ (4096 : UInt64).toNat := by
    rw [List.length_replicate]
    rfl
  rw [image, ofFile]
  dsimp only
  rw [slice_skip hskip, hlen, List.length_replicate]
  exact List.take_length

/-- The header of a shared object with one program header, 56 bytes in front of the image. -/
def wrappedHeader : List UInt8 :=
  [0x7f, 0x45, 0x4c, 0x46, 2, 1, 1, 0, 0, 0, 0, 0, 0, 0, 0, 0,
    3, 0, 62, 0, 1, 0, 0, 0, 0, 0, 0, 0, 0, 0, 0, 0,
    0xc8, 0xff, 0xff, 0xff, 0xff, 0xff, 0xff, 0xff, 0, 0, 0, 0, 0, 0, 0, 0,
    0, 0, 0, 0, 64, 0, 56, 0, 1, 0, 0, 0, 0, 0, 0, 0]

/-- The image is accepted, and its table was read from the page before it. -/
theorem checkElf_wraps :
    (ofFile wrappedHeader (by decide)).verdict = .ok () ∧
      ¬(ofFile wrappedHeader (by decide)).Sound := by
  refine ⟨by decide +kernel, fun hsound => ?_⟩
  have hread : 4040 ∈ (ofFile wrappedHeader (by decide)).reads := by decide +kernel
  exact absurd (hsound.inside 4040 hread).1 (by decide)

end Mapping

end Exec

end LowLatencyPipeline
