/-
Module: SampoOS.Kickstart.ElfImage
Purpose: The 64-bit ELF format as far as Kickstart relies on it, and the ELF
  loader's reading of it.
Trusted boundary: none
Main exports: fileField, ElfImage.programHeader, ElfImage.Loadable,
  ElfImage.Headed, ElfImage.Sized, elfInitialize_spec, readProgHeader_spec
-/
import SampoOS.Kickstart.Elf
import SampoOS.Lib.Paging

namespace SampoOS.Kickstart

open ByteMemory
open Paging (Canonical)

/-! ## The format -/

/-- A field of a file, in a byte order. -/
def fileField (endianness : ElfEndian) (file : Nat → UInt8) (pos n : Nat) : Nat :=
  match endianness with
  | .little => leValue (fun i => file (pos + i)) n
  | .big => beValue (fun i => file (pos + i)) n

namespace ElfImage

/-- `EI_DATA`. -/
def endianness (file : Nat → UInt8) : ElfEndian :=
  if file 5 = 1 then .little else .big

/-- A field of a file, in the file's own byte order. -/
def field (file : Nat → UInt8) (pos n : Nat) : Nat :=
  fileField (endianness file) file pos n

/-- `e_machine`. -/
def machine (file : Nat → UInt8) : Nat := field file 18 2

/-- `e_entry`. -/
def entry (file : Nat → UInt8) : Nat := field file 24 8

/-- `e_phoff`. -/
def phOff (file : Nat → UInt8) : Nat := field file 32 8

/-- `e_phentsize`. -/
def phEntSize (file : Nat → UInt8) : Nat := field file 54 2

/-- `e_phnum`. -/
def phNum (file : Nat → UInt8) : Nat := field file 56 2

/-- An `Elf64_Phdr` at a position. -/
def programHeaderAt (endianness : ElfEndian) (file : Nat → UInt8) (pos : Nat) :
    ProgramHeader where
  type := fileField endianness file pos 4
  flags := fileField endianness file (pos + 4) 4
  fOff := fileField endianness file (pos + 8) 8
  vaddr := fileField endianness file (pos + 16) 8
  fileLen := fileField endianness file (pos + 32) 8
  memLen := fileField endianness file (pos + 40) 8

/-- The program header with a given index. -/
def programHeader (file : Nat → UInt8) (i : Nat) : ProgramHeader :=
  programHeaderAt (endianness file) file (phOff file + phEntSize file * i)

end ElfImage

/-- The number of 4 KiB pages that a length takes. -/
def pageCount (length : Nat) : Nat := (length + 4095) / 4096

/-- A segment that the loader can place: whole pages above the first 2 MiB that
are canonical and do not wrap around. -/
structure PlaceableSegment (ph : ProgramHeader) : Prop where
  aligned : 4096 ∣ ph.vaddr
  notEmpty : 0 < ph.memLen
  small : ph.memLen < 2 ^ 32 - 4096
  content : ph.fileLen ≤ ph.memLen
  canonical : ∀ j < pageCount ph.memLen, Canonical (ph.vaddr + 4096 * j)
  noWrap : ph.vaddr + 4096 * pageCount ph.memLen ≤ 2 ^ 64
  outside : 0x200000 ≤ ph.vaddr

/-- A segment of a size that the loader can hold, wherever it is to be mapped: as
many bytes as are copied, a 32-bit count, fit its pages. -/
structure SizedSegment (ph : ProgramHeader) : Prop where
  notEmpty : 0 < ph.memLen
  small : ph.memLen < 2 ^ 32 - 4096
  content : ph.fileLen % 2 ^ 32 ≤ 4096 * pageCount ph.memLen

theorem PlaceableSegment.sized {ph : ProgramHeader}
    (placeable : PlaceableSegment ph) : SizedSegment ph := by
  refine ⟨placeable.notEmpty, placeable.small, ?_⟩
  have content := placeable.content
  rw [pageCount]
  omega

theorem PlaceableSegment.fits {ph : ProgramHeader} (placeable : PlaceableSegment ph) :
    ph.fileLen ≤ 4096 * pageCount ph.memLen := by
  have content := placeable.content
  rw [pageCount]
  omega

/-- The pages of two segments are disjoint. -/
def SegmentsApart (a b : ProgramHeader) : Prop :=
  a.vaddr + 4096 * pageCount a.memLen ≤ b.vaddr ∨
    b.vaddr + 4096 * pageCount b.memLen ≤ a.vaddr

/-- A 64-bit file of `size` bytes that contains its headers and contents, and
whose loadable segments can be placed apart from each other. -/
structure ElfImage.Loadable (file : Nat → UInt8) (size : Nat) : Prop where
  is64 : file 4 = 2
  header : 64 ≤ size
  headers : ∀ i < ElfImage.phNum file,
    ElfImage.phOff file + ElfImage.phEntSize file * i + 56 ≤ size
  contents : ∀ i < ElfImage.phNum file,
    (ElfImage.programHeader file i).type = ptLoad →
    (ElfImage.programHeader file i).fOff +
      (ElfImage.programHeader file i).fileLen ≤ size
  segments : ∀ i < ElfImage.phNum file,
    (ElfImage.programHeader file i).type = ptLoad →
    PlaceableSegment (ElfImage.programHeader file i)
  apart : ∀ i < ElfImage.phNum file, ∀ j < ElfImage.phNum file, i ≠ j →
    (ElfImage.programHeader file i).type = ptLoad →
    (ElfImage.programHeader file j).type = ptLoad →
    SegmentsApart (ElfImage.programHeader file i) (ElfImage.programHeader file j)

/-- A 64-bit file whose first `size` bytes contain its headers. -/
structure ElfImage.Headed (file : Nat → UInt8) (size : Nat) : Prop where
  is64 : file 4 = 2
  header : 64 ≤ size
  headers : ∀ i < ElfImage.phNum file,
    ElfImage.phOff file + ElfImage.phEntSize file * i + 56 ≤ size

/-- A file whose loadable segments have sizes that the loader can hold. -/
def ElfImage.Sized (file : Nat → UInt8) : Prop :=
  ∀ i < ElfImage.phNum file, (ElfImage.programHeader file i).type = ptLoad →
    SizedSegment (ElfImage.programHeader file i)

theorem ElfImage.Loadable.headed {file : Nat → UInt8} {size : Nat}
    (loadable : ElfImage.Loadable file size) : ElfImage.Headed file size :=
  ⟨loadable.is64, loadable.header, loadable.headers⟩

theorem ElfImage.Loadable.sized {file : Nat → UInt8} {size : Nat}
    (loadable : ElfImage.Loadable file size) : ElfImage.Sized file :=
  fun i below isLoad => (loadable.segments i below isLoad).sized

/-! ## Reading it -/

/-- Memory that holds a file from an address on, as far as `size`. -/
def HoldsFile (m : Memory) (base size : Nat) (file : Nat → UInt8) : Prop :=
  ∀ i < size, m (base + i) = file i

theorem elfReadUint_eq {h : ElfHeader} {m : Memory} {base size pos n : Nat}
    {file : Nat → UInt8} (holds : HoldsFile m base size file)
    (inside : pos + n ≤ size) (positive : 0 < n) (low : base + size ≤ 2 ^ 32) :
    elfReadUint h m ((base + pos) % 2 ^ 32) n =
      fileField h.endianness file pos n := by
  have same : ∀ i < n, m (base + pos + i) = file (pos + i) := by
    intro i below
    rw [Nat.add_assoc]
    exact holds (pos + i) (by omega)
  rw [elfReadUint, Nat.mod_eq_of_lt (by omega)]
  cases h.endianness with
  | little =>
      rw [if_pos rfl, readLe_eq]
      exact leValue_congr same
  | big =>
      rw [if_neg (by decide), readBe_eq]
      exact beValue_congr same

/-- The program header that the loader reads is the one in the file. -/
theorem readProgHeader_spec {h : ElfHeader} {m : Memory} {base size pos : Nat}
    {file : Nat → UInt8} (holds : HoldsFile m base size file)
    (inside : pos + 56 ≤ size) (low : base + size ≤ 2 ^ 32)
    (is64 : h.elfClass = .class64) :
    readProgHeader h m (base + pos) =
      ElfImage.programHeaderAt h.endianness file pos := by
  have field : ∀ offset n, 0 < n → offset + n ≤ 56 →
      elfReadUint h m ((base + pos + offset) % 2 ^ 32) n =
        fileField h.endianness file (pos + offset) n := by
    intro offset n positive fits
    rw [Nat.add_assoc]
    exact elfReadUint_eq holds (by omega) positive low
  have notClass32 : h.elfClass ≠ .class32 := by
    rw [is64]
    decide
  simp only [readProgHeader, elfReadWord, elfReadOff, elfReadAddr, elfReadU32,
    elfReadU64, if_neg notClass32, ElfImage.programHeaderAt]
  rw [field 0 4 (by decide) (by decide), field (0 + 4) 4 (by decide) (by decide),
    field (0 + 4 + 4) 8 (by decide) (by decide),
    field (0 + 4 + 4 + 8) 8 (by decide) (by decide),
    field (0 + 4 + 4 + 8 + 8 + 8) 8 (by decide) (by decide),
    field (0 + 4 + 4 + 8 + 8 + 8 + 8) 8 (by decide) (by decide)]
  rfl

/-- The rest of the ELF header is read as it is laid out. -/
theorem readElfHeader_spec {h : ElfHeader} {m : Memory} {size : Nat}
    {file : Nat → UInt8} (holds : HoldsFile m h.basePtr size file)
    (large : 64 ≤ size) (low : h.basePtr + size ≤ 2 ^ 32)
    (is64 : h.elfClass = .class64)
    (order : h.endianness = ElfImage.endianness file) :
    readElfHeader h m 20 =
      { h with
        entryPoint := ElfImage.entry file
        progHeaderOffset := ElfImage.phOff file
        progHeaderCount := ElfImage.phNum file
        progHeaderLen := ElfImage.phEntSize file } := by
  have field : ∀ pos n, 0 < n → pos + n ≤ 64 →
      elfReadUint h m ((h.basePtr + pos) % 2 ^ 32) n =
        ElfImage.field file pos n := by
    intro pos n positive fits
    rw [ElfImage.field, ← order]
    exact elfReadUint_eq holds (by omega) positive low
  have notClass32 : h.elfClass ≠ .class32 := by
    rw [is64]
    decide
  simp only [readElfHeader, elfReadWord, elfReadHalf, elfReadOff, elfReadAddr,
    elfReadU16, elfReadU64, if_neg notClass32]
  rw [field (20 + 4) 8 (by decide) (by decide),
    field (20 + 4 + 8) 8 (by decide) (by decide),
    field (20 + 4 + 8 + 8 + 8 + 4 + 2) 2 (by decide) (by decide),
    field (20 + 4 + 8 + 8 + 8 + 4 + 2 + 2) 2 (by decide) (by decide)]
  rfl

/-- `elf_initialize` from the type of a 64-bit file on. -/
theorem elfInitializeType_spec {s s' : KickstartState} {size : Nat}
    {file : Nat → UInt8} (holds : HoldsFile s.memory s.header.basePtr size file)
    (large : 64 ≤ size) (low : s.header.basePtr + size ≤ 2 ^ 32)
    (is64 : s.header.elfClass = .class64)
    (order : s.header.endianness = ElfImage.endianness file)
    (accepted : elfInitializeType s = (true, s')) :
    s' = { s with header := s'.header, serial := s'.serial } ∧
      s'.header =
        { s.header with
          arch := if ElfImage.machine file = em386 then .x86 else .amd64
          entryPoint := ElfImage.entry file
          progHeaderOffset := ElfImage.phOff file
          progHeaderCount := ElfImage.phNum file
          progHeaderLen := ElfImage.phEntSize file } := by
  have machine : elfReadU16 s.header s.memory
      ((s.header.basePtr + (16 + 2)) % 2 ^ 32) = ElfImage.machine file := by
    rw [elfReadU16, elfReadUint_eq holds (by omega) (by decide) low, order]
    rfl
  simp only [elfInitializeType, elfReadHalf, machine] at accepted
  split at accepted
  · cases accepted
  split at accepted
  · cases accepted
  have header := readElfHeader_spec
    (h := { s.header with
      arch := if ElfImage.machine file = em386 then .x86 else .amd64 })
    holds large low is64 order
  rw [header] at accepted
  cases accepted
  exact ⟨rfl, rfl⟩

/-- A byte order that `elf_initialize` finds is the one of the file. -/
theorem elfEndianOf_eq {file : Nat → UInt8} {endianness : ElfEndian}
    (found : elfEndianOf (file 5) = some endianness) :
    endianness = ElfImage.endianness file := by
  rw [elfEndianOf] at found
  rw [ElfImage.endianness]
  split at found
  next one =>
    cases found
    rw [if_pos one]
  next notOne =>
    split at found <;> cases found
    rw [if_neg notOne]

/-- A file that `elf_initialize` accepts: the static header then describes it,
and nothing else has changed but the serial output. -/
theorem elfInitialize_spec {s s' : KickstartState} {base size : Nat}
    {file : Nat → UInt8} (holds : HoldsFile s.memory base size file)
    (loadable : 64 ≤ size) (is64 : file 4 = 2) (low : base + size ≤ 2 ^ 32)
    (accepted : elfInitialize base s = (true, s')) :
    s' = { s with header := s'.header, serial := s'.serial } ∧
      s'.header =
        { basePtr := base
          elfClass := .class64
          endianness := ElfImage.endianness file
          arch := if ElfImage.machine file = em386 then .x86 else .amd64
          entryPoint := ElfImage.entry file
          progHeaderOffset := ElfImage.phOff file
          progHeaderCount := ElfImage.phNum file
          progHeaderLen := ElfImage.phEntSize file } := by
  have byte : ∀ i < 64, s.memory ((base + i) % 2 ^ 32) = file i := by
    intro i below
    rw [Nat.mod_eq_of_lt (by omega)]
    exact holds i (by omega)
  rw [elfInitialize] at accepted
  dsimp only at accepted
  split at accepted
  · cases accepted
  have class64 : elfClassOf 2 = some .class64 := rfl
  rw [byte 4 (by decide), byte 5 (by decide), is64, class64] at accepted
  dsimp only at accepted
  cases found : elfEndianOf (file 5) with
  | none =>
      rw [found] at accepted
      cases accepted
  | some endianness =>
      rw [found] at accepted
      obtain rfl := elfEndianOf_eq found
      exact elfInitializeType_spec holds loadable low rfl rfl accepted

end SampoOS.Kickstart
