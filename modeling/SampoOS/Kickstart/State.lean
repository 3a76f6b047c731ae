/-
Module: SampoOS.Kickstart.State
Purpose: Kickstart's memory and static variables, and the parts of string.c
  and serial.c that the pager and the ELF loader use.
Trusted boundary: none
Main exports: KickstartState, memset, memcpy, serialWrite, serialPrintf,
  allocateRegionWithType, Succeeded, Allocated, allocateRegionWithType_spec
-/
import SampoOS.Kickstart.AvailableMemory
import SampoOS.Lib.ByteMemory

namespace SampoOS.Kickstart

open ByteMemory (Memory)

/-! ## Static variables -/

/-- `enum page_type`. -/
inductive PageType where
  | bits32
  | bits64
deriving Repr, DecidableEq

/-- `enum elf_class`. -/
inductive ElfClass where
  | class32
  | class64
deriving Repr, DecidableEq

/-- `enum elf_endian`. -/
inductive ElfEndian where
  | little
  | big
deriving Repr, DecidableEq

/-- `enum elf_arch`. -/
inductive ElfArch where
  | x86
  | amd64
deriving Repr, DecidableEq

/-- `struct elf_header`. -/
structure ElfHeader where
  basePtr : Nat
  elfClass : ElfClass
  endianness : ElfEndian
  arch : ElfArch
  entryPoint : Nat
  progHeaderOffset : Nat
  progHeaderCount : Nat
  progHeaderLen : Nat
deriving Repr, DecidableEq

/-- Kickstart runs without paging, so `memory` is the physical memory that its
32-bit pointers address.  `serial` is what was written to the serial port, each
format with its numbers.  `allocations` is a history variable that no code
reads: the block that each request for memory was given. -/
structure KickstartState where
  memory : Memory
  memoryRegions : RegionTable
  topPageStructure : Nat
  pageType : PageType
  header : ElfHeader
  programEntryPoint : Nat
  serial : List (String × List Nat)
  allocations : List (Option MemoryRegion)

/-! ## string.c and serial.c -/

/-- `memset`. -/
def memset (m : Memory) (dest ch count : Nat) : Memory :=
  ByteMemory.fill 32 m dest (UInt8.ofNat ch) count

/-- `memcpy`. -/
def memcpy (m : Memory) (dest src count : Nat) : Memory :=
  ByteMemory.copy 32 m dest src count

/-- `serial_printf`, before the numbers are formatted. -/
def serialPrintf (format : String) (arguments : List Nat)
    (s : KickstartState) : KickstartState :=
  { s with serial := s.serial ++ [(format, arguments)] }

/-- `serial_write`. -/
def serialWrite (text : String) (s : KickstartState) : KickstartState :=
  serialPrintf text [] s

/-- Two states that differ at most in memory and serial output. -/
structure SameControl (s s' : KickstartState) : Prop where
  regions : s'.memoryRegions = s.memoryRegions
  root : s'.topPageStructure = s.topPageStructure
  type : s'.pageType = s.pageType
  header : s'.header = s.header
  entryPoint : s'.programEntryPoint = s.programEntryPoint
  allocations : s'.allocations = s.allocations

theorem SameControl.refl (s : KickstartState) : SameControl s s :=
  ⟨rfl, rfl, rfl, rfl, rfl, rfl⟩

theorem SameControl.trans {s s' s'' : KickstartState} (first : SameControl s s')
    (second : SameControl s' s'') : SameControl s s'' where
  regions := second.regions.trans first.regions
  root := second.root.trans first.root
  type := second.type.trans first.type
  header := second.header.trans first.header
  entryPoint := second.entryPoint.trans first.entryPoint
  allocations := second.allocations.trans first.allocations

theorem serialPrintf_sameControl (format : String) (arguments : List Nat)
    (s : KickstartState) : SameControl s (serialPrintf format arguments s) :=
  ⟨rfl, rfl, rfl, rfl, rfl, rfl⟩

/-! ## Allocations -/

/-- `pmm_allocate_region_with_type`, on the static region table. -/
def allocateRegionWithType (regionPageCount : Nat) (type : MemoryRegionType)
    (s : KickstartState) : Option (Nat × KickstartState) := do
  let (ret, regions) ←
    pmmAllocateRegionWithType s.memoryRegions regionPageCount type
  return (ret,
    { s with
      memoryRegions := regions
      allocations := s.allocations ++
        [allocatedBlock s.memoryRegions regionPageCount type] })

/-- `pmm_allocate_region`, on the static region table. -/
def allocateRegion (regionPageCount : Nat) (s : KickstartState) :
    Option (Nat × KickstartState) :=
  allocateRegionWithType regionPageCount .allocated s

/-- A request was given a block that lies entirely below 4 GiB and does not
start at address 0. -/
def Succeeded (outcome : Option MemoryRegion) : Prop :=
  ∃ block, outcome = some block ∧ 0 < block.addrStart ∧
    block.addrStart < 2 ^ 32 ∧ block.addrEnd ≤ 2 ^ 32

theorem succeeded_of_low {blocks : List MemoryRegion}
    (low : ∀ block ∈ blocks, 0 < block.addrStart ∧ block.addrStart < 2 ^ 32 ∧
      block.addrEnd ≤ 2 ^ 32) : ∀ outcome ∈ blocks.map some, Succeeded outcome := by
  intro outcome inside
  obtain ⟨block, member, rfl⟩ := List.mem_map.mp inside
  exact ⟨block, rfl, low block member⟩

/-- What a successful request for `count` pages does. -/
structure Allocated (s : KickstartState) (count ret : Nat)
    (type : MemoryRegionType) (s' : KickstartState) : Prop where
  only : s' = { s with
    memoryRegions := s'.memoryRegions
    allocations := s.allocations ++
      [some { addrStart := ret, addrEnd := ret + 4096 * count, type := type }] }
  chosen : (firstFit s.memoryRegions count).map MemoryRegion.addrStart = some ret
  notNull : 0 < ret
  aligned : 4096 ∣ ret
  low : ret + 4096 * count ≤ 2 ^ 32
  block : Set.Ico ret (ret + 4096 * count) ⊆ availableBytes s.memoryRegions
  left : availableBytes s'.memoryRegions ⊆
    availableBytes s.memoryRegions \ Set.Ico ret (ret + 4096 * count)
  invariant : AvailableInvariant s'.memoryRegions

namespace Allocated

variable {s s' : KickstartState} {count ret : Nat} {type : MemoryRegionType}

theorem memory_eq (allocated : Allocated s count ret type s') :
    s'.memory = s.memory := by
  rw [allocated.only]

theorem pageType_eq (allocated : Allocated s count ret type s') :
    s'.pageType = s.pageType := by
  rw [allocated.only]

theorem root_eq (allocated : Allocated s count ret type s') :
    s'.topPageStructure = s.topPageStructure := by
  rw [allocated.only]

theorem header_eq (allocated : Allocated s count ret type s') :
    s'.header = s.header := by
  rw [allocated.only]

theorem entryPoint_eq (allocated : Allocated s count ret type s') :
    s'.programEntryPoint = s.programEntryPoint := by
  rw [allocated.only]

end Allocated

/-- A request changes the region table and the history, and returns the pointer
to the block that it records. -/
theorem allocateRegionWithType_cases {s s' : KickstartState} {count ret : Nat}
    {type : MemoryRegionType}
    (ran : allocateRegionWithType count type s = some (ret, s')) :
    ∃ regions,
      pmmAllocateRegionWithType s.memoryRegions count type =
          some (ret, regions) ∧
        s' = { s with
          memoryRegions := regions
          allocations := s.allocations ++
            [allocatedBlock s.memoryRegions count type] } := by
  simp only [allocateRegionWithType, Option.bind_eq_bind,
    Option.bind_eq_some_iff, Prod.exists, Option.pure_def, Option.some.injEq,
    Prod.mk.injEq] at ran
  obtain ⟨ret, regions, ran, rfl, rfl⟩ := ran
  exact ⟨regions, ran, rfl⟩

/-- A request whose outcome is a success returns the pages of its block, which
were available and no longer are. -/
theorem allocateRegionWithType_spec {s s' : KickstartState} {count ret : Nat}
    {type : MemoryRegionType} (invariant : AvailableInvariant s.memoryRegions)
    (positive : 0 < count) (fits : count < 2 ^ 20) (taken : type ≠ .available)
    (ran : allocateRegionWithType count type s = some (ret, s'))
    (succeeded : ∀ outcome ∈ s'.allocations, Succeeded outcome) :
    Allocated s count ret type s' := by
  obtain ⟨regions, allocated, rfl⟩ := allocateRegionWithType_cases ran
  obtain ⟨block, given, notNull, low, high⟩ := succeeded
    (allocatedBlock s.memoryRegions count type) (by simp)
  have length := allocationLength_eq fits
  rcases pmmAllocateRegionWithType_cases allocated with
    ⟨missing, _, _⟩ | ⟨region, made, chosen, something, step⟩
  · simp [allocatedBlock, missing] at given
  · have same : made = block := Option.some.inj (something.symm.trans given)
    subst same
    obtain ⟨inside, holds⟩ := firstFit_mem chosen
    obtain ⟨_, available, _⟩ := fitsAllocation_iff.mp holds
    have shape := step.block_eq
    have start : made.addrStart = region.addrStart := by rw [shape]
    have noWrap : region.addrStart + allocationLength count < 2 ^ 64 := by omega
    have pointer : ret = made.addrStart :=
      step.ret_eq.trans (by rw [start, Nat.mod_eq_of_lt (by omega)])
    rw [Nat.mod_eq_of_lt noWrap, ← start, ← pointer, length,
      Nat.mul_comm count] at shape
    obtain ⟨kept, left, inBlock, aligned⟩ := step.available invariant taken noWrap
      (by rw [length]; exact Nat.dvd_mul_left _ _)
    have bytes : made.bytes = Set.Ico ret (ret + 4096 * count) := by
      rw [shape]
      rfl
    rw [bytes] at left inBlock
    refine ⟨?_, ?_, by omega, pointer ▸ aligned, ?_, inBlock, left, kept⟩
    · rw [something, shape]
    · rw [chosen, pointer, start, Option.map_some]
    · rw [shape] at high
      exact high

/-- A request is decided by the region table. -/
theorem allocateRegionWithType_eq {s : KickstartState} {count ret : Nat}
    {type : MemoryRegionType} {regions : RegionTable}
    (ran : pmmAllocateRegionWithType s.memoryRegions count type =
      some (ret, regions)) :
    allocateRegionWithType count type s =
      some (ret,
        { s with
          memoryRegions := regions
          allocations := s.allocations ++
            [allocatedBlock s.memoryRegions count type] }) := by
  simp [allocateRegionWithType, ran]

theorem exists_allocateRegionWithType {s : KickstartState} {count ret : Nat}
    {type : MemoryRegionType} {regions : RegionTable}
    (ran : pmmAllocateRegionWithType s.memoryRegions count type =
      some (ret, regions)) :
    ∃ s', allocateRegionWithType count type s = some (ret, s') ∧
      s'.memoryRegions = regions ∧
      s'.allocations = s.allocations ++
        [allocatedBlock s.memoryRegions count type] :=
  ⟨_, allocateRegionWithType_eq ran, rfl, rfl⟩

/-- Requests are only ever added to the history. -/
theorem allocateRegionWithType_allocations {s s' : KickstartState}
    {count ret : Nat} {type : MemoryRegionType}
    (ran : allocateRegionWithType count type s = some (ret, s')) :
    s.allocations ⊆ s'.allocations := by
  obtain ⟨_, _, rfl⟩ := allocateRegionWithType_cases ran
  exact List.subset_append_left _ _

theorem allocateRegionWithType_memory {s s' : KickstartState} {count ret : Nat}
    {type : MemoryRegionType}
    (ran : allocateRegionWithType count type s = some (ret, s')) :
    s'.memory = s.memory := by
  obtain ⟨_, _, rfl⟩ := allocateRegionWithType_cases ran
  rfl

end SampoOS.Kickstart
