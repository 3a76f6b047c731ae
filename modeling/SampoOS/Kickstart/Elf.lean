/-
Module: SampoOS.Kickstart.Elf
Purpose: Kickstart's ELF loader: reading the header of the kernel file, and
  loading its segments into freshly mapped memory.
Trusted boundary: none
Main exports: elfInitialize, readProgHeader, loadSegment, elfExpand
-/
import SampoOS.Kickstart.Pager

namespace SampoOS.Kickstart

open ByteMemory (Memory readLe readBe)

/-! ## Reading multi-byte data -/

/-- `elf_read_u16`, `elf_read_u32` and `elf_read_u64`: a word of `n` bytes in
the byte order of the file. -/
def elfReadUint (h : ElfHeader) (m : Memory) (bytes n : Nat) : Nat :=
  if h.endianness = .little then readLe m bytes n else readBe m bytes n

/-- `elf_read_u16`. -/
def elfReadU16 (h : ElfHeader) (m : Memory) (bytes : Nat) : Nat :=
  elfReadUint h m bytes 2

/-- `elf_read_u32`. -/
def elfReadU32 (h : ElfHeader) (m : Memory) (bytes : Nat) : Nat :=
  elfReadUint h m bytes 4

/-- `elf_read_u64`. -/
def elfReadU64 (h : ElfHeader) (m : Memory) (bytes : Nat) : Nat :=
  elfReadUint h m bytes 8

/-- `elf_read_addr`: the value, and the advanced offset. -/
def elfReadAddr (h : ElfHeader) (m : Memory) (bytes offset : Nat) : Nat × Nat :=
  let ptr := (bytes + offset) % 2 ^ 32
  if h.elfClass = .class32 then (elfReadU32 h m ptr, offset + 4)
  else (elfReadU64 h m ptr, offset + 8)

/-- `elf_read_off`. -/
def elfReadOff (h : ElfHeader) (m : Memory) (bytes offset : Nat) : Nat × Nat :=
  let ptr := (bytes + offset) % 2 ^ 32
  if h.elfClass = .class32 then (elfReadU32 h m ptr, offset + 4)
  else (elfReadU64 h m ptr, offset + 8)

/-- `elf_read_word`. -/
def elfReadWord (h : ElfHeader) (m : Memory) (bytes offset : Nat) : Nat × Nat :=
  (elfReadU32 h m ((bytes + offset) % 2 ^ 32), offset + 4)

/-- `elf_read_half`. -/
def elfReadHalf (h : ElfHeader) (m : Memory) (bytes offset : Nat) : Nat × Nat :=
  (elfReadU16 h m ((bytes + offset) % 2 ^ 32), offset + 2)

/-! ## elf_initialize -/

/-- `ET_EXEC`. -/
def etExec : Nat := 2

/-- `EM_386`. -/
def em386 : Nat := 3

/-- `EM_X86_64`. -/
def emX8664 : Nat := 62

/-- The class that a byte of `e_ident` stands for. -/
def elfClassOf (byte : UInt8) : Option ElfClass :=
  if byte = 1 then some .class32 else if byte = 2 then some .class64 else none

/-- The byte order that a byte of `e_ident` stands for. -/
def elfEndianOf (byte : UInt8) : Option ElfEndian :=
  if byte = 1 then some .little else if byte = 2 then some .big else none

/-- The end of `elf_initialize`, behind the machine: the entry point, and where
the program headers are. -/
def readElfHeader (h : ElfHeader) (m : Memory) (offset : Nat) : ElfHeader :=
  -- The version is skipped.
  let (_, offset) := elfReadWord h m h.basePtr offset
  let (entryPoint, offset) := elfReadAddr h m h.basePtr offset
  let (progHeaderOffset, offset) := elfReadOff h m h.basePtr offset
  -- So are the section offset, the flags and the size of this header.
  let (_, offset) := elfReadOff h m h.basePtr offset
  let (_, offset) := elfReadWord h m h.basePtr offset
  let (_, offset) := elfReadHalf h m h.basePtr offset
  let (progHeaderLen, offset) := elfReadHalf h m h.basePtr offset
  let (progHeaderCount, _) := elfReadHalf h m h.basePtr offset
  { h with
    entryPoint := entryPoint
    progHeaderOffset := progHeaderOffset
    progHeaderLen := progHeaderLen
    progHeaderCount := progHeaderCount }

/-- `elf_initialize`, from the type of the file on. -/
def elfInitializeType (s : KickstartState) : Bool × KickstartState :=
  let h := s.header
  let (eType, offset) := elfReadHalf h s.memory h.basePtr 16
  if eType ≠ etExec then
    (false, serialWrite "ELF file is not a proper executable\n" s)
  else
    let (eMachine, offset) := elfReadHalf h s.memory h.basePtr offset
    if eMachine ≠ em386 ∧ eMachine ≠ emX8664 then
      (false, serialPrintf "Got %u\n" [eMachine]
        (serialWrite
          "ELF file is not compatible with the current architecture\n" s))
    else
      let arch := if eMachine = em386 then ElfArch.x86 else ElfArch.amd64
      let h := readElfHeader { h with arch := arch } s.memory offset
      (true, serialPrintf "Program entry point is at 0x%x%x\n"
        [(h.entryPoint >>> 32) % 2 ^ 32, h.entryPoint &&& 0xFFFFFFFF]
        { s with header := h })

/-- `elf_initialize`. -/
def elfInitialize (elfBasePtr : Nat) (s : KickstartState) :
    Bool × KickstartState :=
  let byte := fun offset => s.memory ((elfBasePtr + offset) % 2 ^ 32)
  let s := { s with header := { s.header with basePtr := elfBasePtr } }
  if ¬ (byte 0 = 0x7F ∧ byte 1 = 0x45 ∧ byte 2 = 0x4C ∧ byte 3 = 0x46) then
    (false, serialWrite "File is not a valid ELF file\n" s)
  else
    match elfClassOf (byte 4) with
    | none => (false, serialWrite "ELF file has unknown class\n" s)
    | some elfClass =>
        let s := serialPrintf "ELF file class: %d-bit\n"
          [if elfClass = .class32 then 32 else 64]
          { s with header := { s.header with elfClass := elfClass } }
        match elfEndianOf (byte 5) with
        | none => (false, serialWrite "ELF file has unknown endianness\n" s)
        | some endianness =>
            elfInitializeType
              { s with header := { s.header with endianness := endianness } }

/-! ## elf_expand -/

/-- `PT_LOAD`. -/
def ptLoad : Nat := 1

/-- `PF_X`. -/
def pfX : Nat := 0x1

/-- `PF_W`. -/
def pfW : Nat := 0x2

/-- `PF_R`. -/
def pfR : Nat := 0x4

/-- What `elf_expand` reads of a program header. -/
structure ProgramHeader where
  type : Nat
  flags : Nat
  fOff : Nat
  vaddr : Nat
  fileLen : Nat
  memLen : Nat
deriving Repr, DecidableEq

/-- The fields of a program header, in the order in which `elf_expand` reads
them. -/
def readProgHeader (h : ElfHeader) (m : Memory) (progHeader : Nat) :
    ProgramHeader :=
  let (type, offset) := elfReadWord h m progHeader 0
  let (flags, offset) := elfReadWord h m progHeader offset
  let (fOff, offset) := elfReadOff h m progHeader offset
  let (vaddr, offset) := elfReadAddr h m progHeader offset
  -- The physical address is skipped.
  let (_, offset) := elfReadAddr h m progHeader offset
  let fileLen := elfReadU64 h m ((progHeader + offset) % 2 ^ 32)
  let offset := offset + 8
  let memLen := elfReadU64 h m ((progHeader + offset) % 2 ^ 32)
  { type, flags, fOff, vaddr, fileLen, memLen }

/-- `segment_perms`. -/
def segmentPerms (flags : Nat) : Nat :=
  let perms := 0
  let perms := if flags &&& pfR ≠ 0 then perms ||| pagePermRead else perms
  let perms := if flags &&& pfW ≠ 0 then perms ||| pagePermWrite else perms
  if flags &&& pfX ≠ 0 then perms ||| pagePermExec else perms

/-- `pages_needed`, a `size_t`. -/
def pagesNeeded (memLen : Nat) : Nat :=
  (memLen / 0x1000 % 2 ^ 32 + if memLen &&& 0x0FFF ≠ 0 then 1 else 0) % 2 ^ 32

/-- Map the pages of a segment to its block, one after the other. -/
def mapSegment (segmentRegion vaddr perms pages : Nat) (s : KickstartState) :
    Option KickstartState :=
  (List.range pages).foldlM
    (fun s i => mapPage ((segmentRegion + i * 0x1000) % 2 ^ 32)
      ((vaddr + i * 0x1000 % 2 ^ 32) % 2 ^ 64) perms s) s

/-- The body of the loop in `elf_expand`, for a loadable segment. -/
def loadSegment (ph : ProgramHeader) (s : KickstartState) :
    Option (Bool × KickstartState) :=
  let perms := segmentPerms ph.flags
  let s := serialPrintf
    "Segment of length 0x%x%x is going to get mapped to virtual address 0x%x%x\n"
    [(ph.memLen >>> 32) % 2 ^ 32, ph.memLen &&& 0xFFFFFFFF,
      (ph.vaddr >>> 32) % 2 ^ 32, ph.vaddr &&& 0xFFFFFFFF] s
  let pages := pagesNeeded ph.memLen
  (allocateRegionWithType pages .kernel s).bind fun (segmentRegion, s) =>
    if segmentRegion = 0 then
      some (false, serialWrite "Couldn't allocate segment!\n" s)
    else
      let s := serialPrintf "Kernel segment is to be mapped to physical page 0x%x\n"
        [segmentRegion] s
      let s := serialPrintf "Pages needed: %u\n" [pages] s
      let s := { s with
        memory := memset s.memory segmentRegion 0 (pages * 0x1000 % 2 ^ 32) }
      (mapSegment segmentRegion ph.vaddr perms pages s).map fun s =>
        let fileSegment := (s.header.basePtr + ph.fOff) % 2 ^ 64 % 2 ^ 32
        (true,
          { s with
            memory :=
              memcpy s.memory segmentRegion fileSegment (ph.fileLen % 2 ^ 32) })

/-- The loop of `elf_expand`, over the indices of the program headers. -/
def loadSegments (progHeaderBase : Nat) :
    List Nat → KickstartState → Option (Bool × KickstartState)
  | [], s => some (true, s)
  | i :: rest, s =>
      let progHeader :=
        (progHeaderBase + s.header.progHeaderLen * i) % 2 ^ 32
      let ph := readProgHeader s.header s.memory progHeader
      if ph.type ≠ ptLoad then loadSegments progHeaderBase rest s
      else
        (loadSegment ph s).bind fun (loaded, s) =>
          if loaded then loadSegments progHeaderBase rest s else some (false, s)

/-- `elf_expand`. -/
def elfExpand (s : KickstartState) : Option (Bool × KickstartState) :=
  let progHeaderBase :=
    (s.header.basePtr + s.header.progHeaderOffset) % 2 ^ 64 % 2 ^ 32
  let expanded :=
    match s.header.arch with
    | .x86 => some (true, s)
    | .amd64 =>
        loadSegments progHeaderBase (List.range s.header.progHeaderCount) s
  expanded.map fun (loaded, s) =>
    if loaded then (true, { s with programEntryPoint := s.header.entryPoint })
    else (false, s)

end SampoOS.Kickstart
