/-
Module: SampoOS.Bootinfo
Purpose: The memory map and boot information that Kickstart hands to the
  kernel.
Trusted boundary: none
Main exports: MemoryRegionType, MemoryRegion, RegionTable, SampoBootinfo,
  MemoryRegion.bytes, bytesOfType
-/
import Mathlib.Order.Interval.Set.Basic
import Mathlib.Data.Set.Lattice
import Mathlib.Order.CompletePartialOrder

namespace SampoOS

/-- `enum sampo_bootinfo_memory_region_type`.  The `type` field that stores it
is a `uint64_t`; `other code` stands for the value `7 + code`, beyond the
enumeration. -/
inductive MemoryRegionType where
  | available
  | reserved
  | reclaimable
  | nvs
  | badMem
  | allocated
  | kernel
  | other (code : Nat)
deriving Repr, DecidableEq

/-- The value of the enumeration. -/
def MemoryRegionType.code : MemoryRegionType → Nat
  | .available => 0
  | .reserved => 1
  | .reclaimable => 2
  | .nvs => 3
  | .badMem => 4
  | .allocated => 5
  | .kernel => 6
  | .other code => 7 + code

/-- `struct sampo_bootinfo_memory_region`. -/
structure MemoryRegion where
  addrStart : Nat
  addrEnd : Nat
  type : MemoryRegionType
deriving Repr, DecidableEq

/-- The used part of the array of regions, `memory_regions[0 ..
memory_region_count)`; its length is `memory_region_count`. -/
abbrev RegionTable := List MemoryRegion

/-- `struct sampo_bootinfo`: the region table, which the kernel reaches through
`memory_map.memory_regions_ptr`, and the physical address of the PML4. -/
structure SampoBootinfo where
  memoryRegions : RegionTable
  bootstrapPagingStructurePtr : Nat
deriving Repr, DecidableEq

/-- The physical bytes of a region. -/
def MemoryRegion.bytes (region : MemoryRegion) : Set Nat :=
  Set.Ico region.addrStart region.addrEnd

@[simp] theorem MemoryRegion.mem_bytes {region : MemoryRegion} {x : Nat} :
    x ∈ region.bytes ↔ region.addrStart ≤ x ∧ x < region.addrEnd :=
  Iff.rfl

/-- Two regions share no byte. -/
def MemoryRegion.Apart (a b : MemoryRegion) : Prop := Disjoint a.bytes b.bytes

theorem MemoryRegion.apart_iff {a b : MemoryRegion} :
    a.Apart b ↔ ∀ x, x ∈ a.bytes → x ∉ b.bytes :=
  Set.disjoint_left

theorem MemoryRegion.Apart.symm {a b : MemoryRegion} (apart : a.Apart b) :
    b.Apart a :=
  Disjoint.symm apart

/-- Carving a piece out of a region keeps it apart from the others. -/
theorem MemoryRegion.Apart.mono {a b piece : MemoryRegion} (apart : a.Apart b)
    (start : a.addrStart ≤ piece.addrStart) (stop : piece.addrEnd ≤ a.addrEnd) :
    piece.Apart b :=
  Disjoint.mono_left (Set.Ico_subset_Ico start stop) apart

/-- The bytes that a table records with a given type. -/
def bytesOfType (table : RegionTable) (type : MemoryRegionType) : Set Nat :=
  {x | ∃ region ∈ table, region.type = type ∧ x ∈ region.bytes}

theorem mem_bytesOfType {table : RegionTable} {type : MemoryRegionType}
    {x : Nat} : x ∈ bytesOfType table type ↔
      ∃ region ∈ table, region.type = type ∧ x ∈ region.bytes :=
  Iff.rfl

/-- The memory that the table offers for allocation. -/
abbrev availableBytes (table : RegionTable) : Set Nat :=
  bytesOfType table .available

theorem bytesOfType_perm {table table' : RegionTable} (perm : table.Perm table')
    (type : MemoryRegionType) :
    bytesOfType table type = bytesOfType table' type := by
  ext x
  simp [mem_bytesOfType, perm.mem_iff]

theorem bytesOfType_cons (region : MemoryRegion) (rest : RegionTable)
    (type : MemoryRegionType) :
    bytesOfType (region :: rest) type =
      {x | region.type = type ∧ x ∈ region.bytes} ∪ bytesOfType rest type := by
  ext x
  simp [mem_bytesOfType]

end SampoOS
