/-
Module: SampoOS.Kickstart.ElfEncoding
Purpose: The ELF format of both classes and both byte orders: how the header and
  the program headers are encoded, and the ELF loader's decoding of the header.
Trusted boundary: none
Main exports: EncodedElfHeader, EncodedElfHeader.encode, EncodedProgramHeader,
  EncodedProgramHeader.encode, AcceptedHeader, elfReadUint_word,
  elfInitialize_accepts_iff, readElfHeader_encoded
-/
import SampoOS.Kickstart.ElfImage
import SampoOS.Lib.RecordLayout

namespace SampoOS.Kickstart

open ByteMemory
open RecordLayout

/-! ## The format -/

/-- The number of bytes of an address or a file offset. -/
def ElfClass.addrSize : ElfClass → Nat
  | .class32 => 4
  | .class64 => 8

/-- `EI_CLASS`. -/
def ElfClass.byte : ElfClass → UInt8
  | .class32 => 1
  | .class64 => 2

/-- `EI_DATA`. -/
def ElfEndian.byte : ElfEndian → UInt8
  | .little => 1
  | .big => 2

/-- The bytes of a word in a byte order. -/
def ElfEndian.word : ElfEndian → Nat → Nat → List UInt8
  | .little => leBytes
  | .big => beBytes

theorem ElfEndian.length_word (endianness : ElfEndian) (n v : Nat) :
    (endianness.word n v).length = n := by
  cases endianness with
  | little => exact length_leBytes n v
  | big => exact length_beBytes n v

/-- The values of an `Elf32_Ehdr` or an `Elf64_Ehdr`; `ident` is what follows
`EI_DATA` in `e_ident`. -/
structure EncodedElfHeader where
  elfClass : ElfClass
  endianness : ElfEndian
  ident : List UInt8
  type : UInt16
  machine : UInt16
  version : UInt32
  entry : Nat
  phOff : Nat
  shOff : Nat
  flags : UInt32
  ehSize : UInt16
  phEntSize : UInt16
  phNum : UInt16
  shEntSize : UInt16
  shNum : UInt16
  shStrNdx : UInt16
  identLength : ident.length = 10
  entryFits : entry < 256 ^ elfClass.addrSize
  phOffFits : phOff < 256 ^ elfClass.addrSize
  shOffFits : shOff < 256 ^ elfClass.addrSize

namespace EncodedElfHeader

/-- The fields behind `e_ident`. -/
def fields (header : EncodedElfHeader) : List Field :=
  [⟨2, header.type.toNat⟩, ⟨2, header.machine.toNat⟩, ⟨4, header.version.toNat⟩,
    ⟨header.elfClass.addrSize, header.entry⟩,
    ⟨header.elfClass.addrSize, header.phOff⟩,
    ⟨header.elfClass.addrSize, header.shOff⟩,
    ⟨4, header.flags.toNat⟩, ⟨2, header.ehSize.toNat⟩,
    ⟨2, header.phEntSize.toNat⟩, ⟨2, header.phNum.toNat⟩,
    ⟨2, header.shEntSize.toNat⟩, ⟨2, header.shNum.toNat⟩,
    ⟨2, header.shStrNdx.toNat⟩]

/-- `e_ident`. -/
def identBytes (header : EncodedElfHeader) : List UInt8 :=
  [0x7F, 0x45, 0x4C, 0x46, header.elfClass.byte, header.endianness.byte] ++
    header.ident

def encode (header : EncodedElfHeader) : List UInt8 :=
  header.identBytes ++ recordBytes header.endianness.word header.fields

@[simp] theorem length_fields (header : EncodedElfHeader) :
    header.fields.length = 13 := rfl

theorem length_identBytes (header : EncodedElfHeader) :
    header.identBytes.length = 16 := by
  rw [identBytes, List.length_append, header.identLength]
  rfl

end EncodedElfHeader

/-- The values of an `Elf32_Phdr` or an `Elf64_Phdr`. -/
structure EncodedProgramHeader (elfClass : ElfClass) where
  type : UInt32
  flags : UInt32
  offset : Nat
  vaddr : Nat
  paddr : Nat
  fileSz : Nat
  memSz : Nat
  align : Nat
  offsetFits : offset < 256 ^ elfClass.addrSize
  vaddrFits : vaddr < 256 ^ elfClass.addrSize
  paddrFits : paddr < 256 ^ elfClass.addrSize
  fileSzFits : fileSz < 256 ^ elfClass.addrSize
  memSzFits : memSz < 256 ^ elfClass.addrSize
  alignFits : align < 256 ^ elfClass.addrSize

namespace EncodedProgramHeader

/-- The flags stand behind the sizes in the 32-bit format, and behind the type in
the 64-bit format. -/
def fields {elfClass : ElfClass} (ph : EncodedProgramHeader elfClass) :
    List Field :=
  match elfClass with
  | .class32 =>
      [⟨4, ph.type.toNat⟩, ⟨4, ph.offset⟩, ⟨4, ph.vaddr⟩, ⟨4, ph.paddr⟩,
        ⟨4, ph.fileSz⟩, ⟨4, ph.memSz⟩, ⟨4, ph.flags.toNat⟩, ⟨4, ph.align⟩]
  | .class64 =>
      [⟨4, ph.type.toNat⟩, ⟨4, ph.flags.toNat⟩, ⟨8, ph.offset⟩, ⟨8, ph.vaddr⟩,
        ⟨8, ph.paddr⟩, ⟨8, ph.fileSz⟩, ⟨8, ph.memSz⟩, ⟨8, ph.align⟩]

def encode {elfClass : ElfClass} (endianness : ElfEndian)
    (ph : EncodedProgramHeader elfClass) : List UInt8 :=
  recordBytes endianness.word ph.fields

end EncodedProgramHeader

/-! ## Reading a word -/

/-- A word that memory holds in the byte order of the file is read. -/
theorem elfReadUint_word {h : ElfHeader} {m : Memory} {a n v : Nat}
    (holds : HoldsBytes m a (h.endianness.word n v)) (positive : 0 < n)
    (low : a + n ≤ 2 ^ 32) (fits : v < 256 ^ n) :
    elfReadUint h m (a % 2 ^ 32) n = v := by
  rw [elfReadUint, Nat.mod_eq_of_lt (by omega)]
  cases order : h.endianness with
  | little =>
      rw [order] at holds
      rw [if_pos rfl, readLe_eq, loadLe_of_holdsBytes holds, Nat.mod_eq_of_lt fits]
  | big =>
      rw [order] at holds
      rw [if_neg (by decide), readBe_eq, beValue_of_holdsBytes holds,
        Nat.mod_eq_of_lt fits]

/-- A field of a record that memory holds is read. -/
theorem elfReadUint_field {h : ElfHeader} {m : Memory} {a : Nat}
    {fields : List Field}
    (holds : HoldsBytes m a (recordBytes h.endianness.word fields))
    (fit : ∀ field ∈ fields, field.Fits)
    (low : a + (fields.map Field.width).sum ≤ 2 ^ 32)
    (i : Nat) (below : i < fields.length) :
    elfReadUint h m ((a + fieldOffset fields i) % 2 ^ 32) fields[i].width =
      fields[i].value := by
  have inside := fieldOffset_add_width_le below
  have fits := fit fields[i] (List.getElem_mem below)
  exact elfReadUint_word
    (holdsBytes_recordBytes h.endianness.length_word holds i below)
    fits.positive (by omega) fits.value

/-- `elf_read_addr` reads a word of the size that the class says. -/
theorem elfReadAddr_eq (h : ElfHeader) (m : Memory) (bytes offset : Nat) :
    elfReadAddr h m bytes offset =
      (elfReadUint h m ((bytes + offset) % 2 ^ 32) h.elfClass.addrSize,
        offset + h.elfClass.addrSize) := by
  rw [elfReadAddr]
  cases h.elfClass with
  | class32 => rfl
  | class64 => rfl

/-- `elf_read_off` does the same. -/
theorem elfReadOff_eq (h : ElfHeader) (m : Memory) (bytes offset : Nat) :
    elfReadOff h m bytes offset =
      (elfReadUint h m ((bytes + offset) % 2 ^ 32) h.elfClass.addrSize,
        offset + h.elfClass.addrSize) :=
  elfReadAddr_eq h m bytes offset

/-! ## e_ident -/

/-- The state in which `elf_initialize` goes on behind `e_ident`. -/
def identified (base : Nat) (elfClass : ElfClass) (endianness : ElfEndian)
    (s : KickstartState) : KickstartState :=
  serialPrintf "ELF file class: %d-bit\n"
    [if elfClass = .class32 then 32 else 64]
    { s with
      header := { s.header with
        basePtr := base
        elfClass := elfClass
        endianness := endianness } }

theorem elfClassOf_isSome (byte : UInt8) :
    (∃ elfClass, elfClassOf byte = some elfClass) ↔ byte = 1 ∨ byte = 2 := by
  rw [elfClassOf]
  split
  next one => simp [one]
  next notOne =>
    split
    next two => simp [two]
    next notTwo => simp [notOne, notTwo]

theorem elfEndianOf_isSome (byte : UInt8) :
    (∃ endianness, elfEndianOf byte = some endianness) ↔ byte = 1 ∨ byte = 2 := by
  rw [elfEndianOf]
  split
  next one => simp [one]
  next notOne =>
    split
    next two => simp [two]
    next notTwo => simp [notOne, notTwo]

/-- The first four bytes of an ELF file. -/
def ElfMagic (file : Nat → UInt8) : Prop :=
  file 0 = 0x7F ∧ file 1 = 0x45 ∧ file 2 = 0x4C ∧ file 3 = 0x46

section Ident

variable {s : KickstartState} {base : Nat} {file : Nat → UInt8}

/-- Any fault of `e_ident` makes `elf_initialize` reject the file. -/
theorem elfInitialize_rejects
    (byte : ∀ i < 6, s.memory ((base + i) % 2 ^ 32) = file i)
    (fault : ¬ ElfMagic file ∨ elfClassOf (file 4) = none ∨
      elfEndianOf (file 5) = none) :
    (elfInitialize base s).1 = false := by
  simp only [elfInitialize, byte 0 (by decide), byte 1 (by decide),
    byte 2 (by decide), byte 3 (by decide), byte 4 (by decide), byte 5 (by decide)]
  split
  next => rfl
  next magic =>
    cases foundClass : elfClassOf (file 4) with
    | none => rfl
    | some elfClass =>
        cases foundOrder : elfEndianOf (file 5) with
        | none => rfl
        | some endianness =>
            rw [foundClass, foundOrder] at fault
            simp only [reduceCtorEq, or_false] at fault
            exact absurd fault magic

/-- Without a fault, it goes on with the type of the file. -/
theorem elfInitialize_identified {elfClass : ElfClass} {endianness : ElfEndian}
    (byte : ∀ i < 6, s.memory ((base + i) % 2 ^ 32) = file i)
    (magic : ElfMagic file) (knownClass : elfClassOf (file 4) = some elfClass)
    (knownOrder : elfEndianOf (file 5) = some endianness) :
    elfInitialize base s =
      elfInitializeType (identified base elfClass endianness s) := by
  simp only [elfInitialize, byte 0 (by decide), byte 1 (by decide),
    byte 2 (by decide), byte 3 (by decide), byte 4 (by decide), byte 5 (by decide)]
  split
  next other => exact absurd magic other
  next =>
    rw [knownClass]
    dsimp only
    rw [knownOrder]
    rfl

end Ident

/-! ## Decoding the header -/

theorem ElfClass.addrSize_pos (elfClass : ElfClass) : 0 < elfClass.addrSize := by
  cases elfClass <;> decide

theorem EncodedElfHeader.fields_fit (header : EncodedElfHeader) :
    ∀ field ∈ header.fields, field.Fits := by
  have half : ∀ v : UInt16, Field.Fits ⟨2, v.toNat⟩ :=
    fun v => ⟨Nat.zero_lt_succ _, v.toNat_lt⟩
  have word : ∀ v : UInt32, Field.Fits ⟨4, v.toNat⟩ :=
    fun v => ⟨Nat.zero_lt_succ _, v.toNat_lt⟩
  have positive := header.elfClass.addrSize_pos
  simp only [EncodedElfHeader.fields, List.forall_mem_cons]
  exact ⟨half _, half _, word _, ⟨positive, header.entryFits⟩,
    ⟨positive, header.phOffFits⟩, ⟨positive, header.shOffFits⟩, word _, half _,
    half _, half _, half _, half _, half _, by simp⟩

/-- The width of the header behind `e_ident`. -/
theorem EncodedElfHeader.width_fields (header : EncodedElfHeader) :
    (header.fields.map Field.width).sum = 24 + 3 * header.elfClass.addrSize := by
  simp only [EncodedElfHeader.fields, List.map_cons, List.map_nil, List.sum_cons,
    List.sum_nil]
  omega

theorem EncodedElfHeader.length_encode (header : EncodedElfHeader) :
    header.encode.length = 40 + 3 * header.elfClass.addrSize := by
  rw [encode, List.length_append, length_identBytes,
    length_recordBytes header.endianness.length_word, width_fields]
  omega

section Header

variable {m : Memory} {header : EncodedElfHeader}

/-- The fields behind `e_ident` are read, whichever class and byte order. -/
theorem EncodedElfHeader.read_field {h : ElfHeader}
    (holds : HoldsBytes m h.basePtr header.encode)
    (low : h.basePtr + header.encode.length ≤ 2 ^ 32)
    (order : h.endianness = header.endianness) (i : Nat)
    (below : i < header.fields.length) {offset : Nat}
    (place : offset = 16 + fieldOffset header.fields i) :
    elfReadUint h m ((h.basePtr + offset) % 2 ^ 32) header.fields[i].width =
      header.fields[i].value := by
  rw [encode, holdsBytes_append, length_identBytes, ← order] at holds
  rw [length_encode] at low
  have width := header.width_fields
  rw [place, ← Nat.add_assoc]
  exact elfReadUint_field holds.2 header.fields_fit (by omega) i below

/-- The end of `elf_initialize` reads the encoded values. -/
theorem readElfHeader_encoded {h : ElfHeader}
    (holds : HoldsBytes m h.basePtr header.encode)
    (low : h.basePtr + header.encode.length ≤ 2 ^ 32)
    (sameClass : h.elfClass = header.elfClass)
    (order : h.endianness = header.endianness) :
    readElfHeader h m 20 =
      { h with
        entryPoint := header.entry
        progHeaderOffset := header.phOff
        progHeaderCount := header.phNum.toNat
        progHeaderLen := header.phEntSize.toNat } := by
  have size : h.elfClass.addrSize = header.elfClass.addrSize := by rw [sameClass]
  have read := @header.read_field m h holds low order
  simp only [readElfHeader, elfReadAddr_eq, elfReadOff_eq, elfReadWord,
    elfReadHalf, elfReadU16, size]
  congr 1
  · exact read 3 (by simp) (by simp [EncodedElfHeader.fields])
  · exact read 4 (by simp) (by simp [EncodedElfHeader.fields]; omega)
  · exact read 9 (by simp) (by simp [EncodedElfHeader.fields]; omega)
  · exact read 8 (by simp) (by simp [EncodedElfHeader.fields]; omega)

/-- A header of a kind that Kickstart loads. -/
structure EncodedElfHeader.Executable (header : EncodedElfHeader) : Prop where
  type : header.type = 2
  machine : header.machine = 3 ∨ header.machine = 62

/-- The static header that stands for an encoded one. -/
def EncodedElfHeader.decoded (base : Nat) (header : EncodedElfHeader) :
    ElfHeader where
  basePtr := base
  elfClass := header.elfClass
  endianness := header.endianness
  arch := if header.machine = 3 then .x86 else .amd64
  entryPoint := header.entry
  progHeaderOffset := header.phOff
  progHeaderCount := header.phNum.toNat
  progHeaderLen := header.phEntSize.toNat

/-- `elf_initialize` from the type on, on an encoded header. -/
theorem elfInitializeType_encoded {s : KickstartState}
    (holds : HoldsBytes s.memory s.header.basePtr header.encode)
    (low : s.header.basePtr + header.encode.length ≤ 2 ^ 32)
    (sameClass : s.header.elfClass = header.elfClass)
    (order : s.header.endianness = header.endianness)
    (executable : header.Executable) :
    (elfInitializeType s).1 = true ∧
      (elfInitializeType s).2.header = header.decoded s.header.basePtr := by
  have read := @header.read_field s.memory s.header holds low order
  have type : elfReadUint s.header s.memory
      ((s.header.basePtr + 16) % 2 ^ 32) 2 = etExec := by
    rw [show etExec = header.type.toNat by rw [executable.type]; rfl]
    exact read 0 (by simp) (by simp)
  have machine : elfReadUint s.header s.memory
      ((s.header.basePtr + (16 + 2)) % 2 ^ 32) 2 = header.machine.toNat :=
    read 1 (by simp) (by simp [EncodedElfHeader.fields])
  have known : ¬ (header.machine.toNat ≠ em386 ∧ header.machine.toNat ≠ emX8664) := by
    rcases executable.machine with isX86 | isAmd64
    · rw [isX86]; decide
    · rw [isAmd64]; decide
  have arch : (if header.machine.toNat = em386 then ElfArch.x86 else .amd64) =
      if header.machine = 3 then .x86 else .amd64 := by
    rcases executable.machine with isX86 | isAmd64
    · rw [isX86]; rfl
    · rw [isAmd64]; rfl
  have rest := readElfHeader_encoded
    (h := { s.header with
      arch := if header.machine.toNat = em386 then .x86 else .amd64 })
    holds low sameClass order
  simp only [elfInitializeType, elfReadHalf, elfReadU16, type, machine,
    if_neg known, ne_eq, not_true_eq_false, if_false, rest]
  refine ⟨trivial, ?_⟩
  rw [serialPrintf, EncodedElfHeader.decoded, ← sameClass, ← order, ← arch]

/-- `elf_initialize` accepts an encoded header and stores its values. -/
theorem elfInitialize_encoded {s : KickstartState} {base : Nat}
    (holds : HoldsBytes s.memory base header.encode)
    (low : base + header.encode.length ≤ 2 ^ 32)
    (executable : header.Executable) :
    (elfInitialize base s).1 = true ∧
      (elfInitialize base s).2.header = header.decoded base := by
  have ident := (holdsBytes_append.mp holds).1
  have long := header.length_identBytes
  have length := header.length_encode
  have byte : ∀ i < 6,
      s.memory ((base + i) % 2 ^ 32) = header.identBytes.getD i 0 := by
    intro i below
    rw [Nat.mod_eq_of_lt (by omega), ident i (by omega),
      List.getD_eq_getElem _ _ (by omega)]
  have knownClass : elfClassOf header.elfClass.byte = some header.elfClass := by
    cases header.elfClass <;> rfl
  have knownOrder :
      elfEndianOf header.endianness.byte = some header.endianness := by
    cases header.endianness <;> rfl
  rw [elfInitialize_identified byte ⟨rfl, rfl, rfl, rfl⟩ knownClass knownOrder]
  exact elfInitializeType_encoded holds low rfl rfl executable

end Header

/-! ## Accepted headers -/

/-- What `elf_initialize` asks of the bytes of a file. -/
structure AcceptedHeader (file : Nat → UInt8) : Prop where
  magic : ElfMagic file
  elfClass : file 4 = 1 ∨ file 4 = 2
  data : file 5 = 1 ∨ file 5 = 2
  type : ElfImage.field file 16 2 = 2
  machine : ElfImage.field file 18 2 = 3 ∨ ElfImage.field file 18 2 = 62

theorem elfInitializeType_accepts_iff {s : KickstartState} {size : Nat}
    {file : Nat → UInt8} (holds : HoldsFile s.memory s.header.basePtr size file)
    (large : 64 ≤ size) (low : s.header.basePtr + size ≤ 2 ^ 32)
    (order : s.header.endianness = ElfImage.endianness file) :
    (elfInitializeType s).1 = true ↔
      ElfImage.field file 16 2 = 2 ∧
        (ElfImage.field file 18 2 = 3 ∨ ElfImage.field file 18 2 = 62) := by
  have field : ∀ pos, pos + 2 ≤ 64 →
      elfReadUint s.header s.memory ((s.header.basePtr + pos) % 2 ^ 32) 2 =
        ElfImage.field file pos 2 := by
    intro pos inside
    rw [ElfImage.field, ← order]
    exact elfReadUint_eq holds (by omega) (by decide) low
  simp only [elfInitializeType, elfReadHalf, elfReadU16,
    field 16 (by decide), field (16 + 2) (by decide)]
  split
  next notExec => exact iff_of_false (by simp) fun accepted => notExec accepted.1
  next isExec =>
    split
    next unknown =>
      refine iff_of_false (by simp) fun accepted => ?_
      exact accepted.2.elim unknown.1 unknown.2
    next known =>
      refine iff_of_true rfl ⟨not_not.mp isExec, ?_⟩
      by_contra neither
      exact known (not_or.mp neither)

/-- `elf_initialize` accepts exactly those files. -/
theorem elfInitialize_accepts_iff {s : KickstartState} {base size : Nat}
    {file : Nat → UInt8} (holds : HoldsFile s.memory base size file)
    (large : 64 ≤ size) (low : base + size ≤ 2 ^ 32) :
    (elfInitialize base s).1 = true ↔ AcceptedHeader file := by
  have byte : ∀ i < 6, s.memory ((base + i) % 2 ^ 32) = file i := by
    intro i below
    rw [Nat.mod_eq_of_lt (by omega), holds i (by omega)]
  constructor
  · intro accepted
    by_cases fault : ¬ ElfMagic file ∨ elfClassOf (file 4) = none ∨
        elfEndianOf (file 5) = none
    · rw [elfInitialize_rejects byte fault] at accepted
      cases accepted
    · simp only [not_or, not_not, ← ne_eq, Option.ne_none_iff_exists'] at fault
      obtain ⟨magic, ⟨elfClass, knownClass⟩, ⟨endianness, knownOrder⟩⟩ := fault
      rw [elfInitialize_identified byte magic knownClass knownOrder] at accepted
      have order := elfEndianOf_eq knownOrder
      obtain ⟨type, machine⟩ := (elfInitializeType_accepts_iff
        (s := identified base elfClass endianness s) holds large low order).mp
        accepted
      exact ⟨magic, (elfClassOf_isSome _).mp ⟨_, knownClass⟩,
        (elfEndianOf_isSome _).mp ⟨_, knownOrder⟩, type, machine⟩
  · intro accepted
    obtain ⟨elfClass, knownClass⟩ := (elfClassOf_isSome _).mpr accepted.elfClass
    obtain ⟨endianness, knownOrder⟩ := (elfEndianOf_isSome _).mpr accepted.data
    rw [elfInitialize_identified byte accepted.magic knownClass knownOrder]
    exact (elfInitializeType_accepts_iff
      (s := identified base elfClass endianness s) holds large low
      (elfEndianOf_eq knownOrder)).mpr ⟨accepted.type, accepted.machine⟩

/-- The ELF header parser accepts exactly the headers of its format, and it
decodes what the format encodes. -/
theorem elfInitialize_parses_header (s : KickstartState) (base : Nat) :
    (∀ bytes : List UInt8, 64 ≤ bytes.length → base + bytes.length ≤ 2 ^ 32 →
        HoldsBytes s.memory base bytes →
        ((elfInitialize base s).1 = true ↔
          AcceptedHeader fun i => bytes.getD i 0)) ∧
      ∀ header : EncodedElfHeader, header.Executable →
        base + header.encode.length ≤ 2 ^ 32 →
        HoldsBytes s.memory base header.encode →
        (elfInitialize base s).1 = true ∧
          (elfInitialize base s).2.header = header.decoded base := by
  constructor
  · intro bytes large low holds
    have file : HoldsFile s.memory base bytes.length fun i => bytes.getD i 0 := by
      intro i below
      rw [holds i below]
      exact (List.getD_eq_getElem bytes 0 below).symm
    exact elfInitialize_accepts_iff file large low
  · intro header executable low holds
    exact elfInitialize_encoded holds low executable

/-- A 32-bit big-endian header. -/
def bigEndianHeader : EncodedElfHeader where
  elfClass := .class32
  endianness := .big
  ident := List.replicate 10 0
  type := 2
  machine := 62
  version := 1
  entry := 0x12345678
  phOff := 52
  shOff := 0
  flags := 0
  ehSize := 52
  phEntSize := 32
  phNum := 3
  shEntSize := 40
  shNum := 0
  shStrNdx := 0
  identLength := rfl
  entryFits := by decide
  phOffFits := by decide
  shOffFits := by decide

/-- Kickstart with some bytes at 2 MiB. -/
def bytesAt2MiB (bytes : List UInt8) : KickstartState where
  memory := memoryOf 0x200000 bytes
  memoryRegions := []
  topPageStructure := 0
  pageType := .bits32
  header := ⟨0, .class64, .little, .amd64, 0, 0, 0, 0⟩
  programEntryPoint := 0
  serial := []
  allocations := []

theorem bytesAt2MiB_holds (bytes : List UInt8) :
    HoldsBytes (bytesAt2MiB bytes).memory 0x200000 bytes :=
  holdsBytes_memoryOf 0x200000 bytes

/-- The header is decoded, and the rule for arbitrary bytes applies to it. -/
theorem bigEndianHeader_parses :
    ((elfInitialize 0x200000 (bytesAt2MiB bigEndianHeader.encode)).1 = true ∧
        (elfInitialize 0x200000 (bytesAt2MiB bigEndianHeader.encode)).2.header =
          bigEndianHeader.decoded 0x200000) ∧
      ((elfInitialize 0x200000
          (bytesAt2MiB (bigEndianHeader.encode ++ List.replicate 12 0))).1 = true ↔
        AcceptedHeader fun i =>
          (bigEndianHeader.encode ++ List.replicate 12 0).getD i 0) := by
  constructor
  · apply (elfInitialize_parses_header _ _).2
    · exact ⟨rfl, Or.inr rfl⟩
    · rw [bigEndianHeader.length_encode]
      decide
    · exact bytesAt2MiB_holds _
  · apply (elfInitialize_parses_header _ _).1
    · rw [List.length_append, bigEndianHeader.length_encode, List.length_replicate]
      decide
    · rw [List.length_append, bigEndianHeader.length_encode, List.length_replicate]
      decide
    · exact bytesAt2MiB_holds _

end SampoOS.Kickstart
