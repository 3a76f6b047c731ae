/-
Module: SampoOS.Kickstart.Pmm
Purpose: Kickstart's physical memory manager: the region table, its sort, and
  the operations that add, reserve, allocate and release regions.
Trusted boundary: none
Main exports: pmmSortRegions, pmmAddRegion, pmmReserveMemoryRegion,
  pmmAllocateRegionWithType, pmmAllocateRegion, pmmDeallocate
-/
import SampoOS.Bootinfo
import SampoOS.Lib.BitFields
import SampoOS.Lib.BubbleSort

namespace SampoOS.Kickstart

open BitFields (clearLow alignUp)

/-!
Kickstart is built for i686: `size_t` and `uintptr_t` are 32 bits wide, while
the bounds in the table are `uint64_t`.  Addresses are natural numbers here and
each operation reduces them where the C types do.  An operation that writes
outside `memory_regions` has no result.
-/

/-- The length of the `memory_regions` array. -/
def memoryRegionsLength : Nat := 1024

/-- Write `memory_regions[memory_region_count]` and count it. -/
def pushRegion (table : RegionTable) (region : MemoryRegion) :
    Option RegionTable :=
  if table.length < memoryRegionsLength then some (table ++ [region]) else none

/-- An "invalid" region, of length 0. -/
def isEmpty (region : MemoryRegion) : Bool :=
  region.addrStart == region.addrEnd

/-- The exchange test of `pmm_sort_regions`: an invalid region is moved on
unconditionally, any other one when it starts later than its neighbour. -/
def sortExchanges (a b : MemoryRegion) : Bool :=
  if isEmpty a then true else decide (a.addrStart > b.addrStart)

/-- `pmm_sort_regions`: count the invalid regions, bubble sort, and drop that
many entries from the end. -/
def pmmSortRegions (table : RegionTable) : RegionTable :=
  let invalidCount := table.countP isEmpty
  (BubbleSort.bubbleSort sortExchanges table).take (table.length - invalidCount)

/-- The rounding of a region's start in `pmm_add_region`: free memory upwards,
reserved memory downwards, anything else not at all. -/
def roundStart (regionType : MemoryRegionType) (start : Nat) : Nat :=
  if start &&& 0x0FFF ≠ 0 then
    match regionType with
    | .available => alignUp 64 12 start
    | .reserved => clearLow 64 12 start
    | _ => start
  else start

/-- The rounding of a region's end in `pmm_add_region`: free memory downwards,
reserved memory upwards, anything else not at all. -/
def roundEnd (regionType : MemoryRegionType) (stop : Nat) : Nat :=
  if stop &&& 0x0FFF ≠ 0 then
    match regionType with
    | .available => clearLow 64 12 stop
    | .reserved => alignUp 64 12 stop
    | _ => stop
  else stop

/-- The entry that `pmm_add_region` records. -/
def roundedRegion (regionType : MemoryRegionType) (start stop : Nat) :
    MemoryRegion :=
  { addrStart := roundStart regionType start
    addrEnd := roundEnd regionType stop
    type := regionType }

/-- `pmm_add_region`. -/
def pmmAddRegion (table : RegionTable) (regionType : MemoryRegionType)
    (start stop : Nat) : Option RegionTable := do
  let table ← pushRegion table (roundedRegion regionType start stop)
  return pmmSortRegions table

/-- `start &= ~0x0FFF`, on a 32-bit address that is not page-aligned. -/
def reserveStart (start : Nat) : Nat :=
  if start &&& 0x0FFF ≠ 0 then clearLow 32 12 start else start

/-- `end = (end + 0x0FFF) & ~0xFFF`, on a 32-bit address that is not
page-aligned. -/
def reserveEnd (stop : Nat) : Nat :=
  if stop &&& 0x0FFF ≠ 0 then alignUp 32 12 stop else stop

/-- The test of the search in `pmm_reserve_memory_region`. -/
def containsRange (start stop : Nat) (region : MemoryRegion) : Bool :=
  !decide (region.addrStart > start) && !decide (region.addrEnd < stop) &&
    decide (region.type = .available)

/-- The three ways in which `new_region` lies in `containing_region`: at its
start, at its end, or totally enclosed, when the rest is split in two. -/
def cutContaining (table : RegionTable) (i : Nat)
    (containing newRegion : MemoryRegion) : Option RegionTable :=
  if newRegion.addrStart = containing.addrStart then
    some (table.modify i fun region =>
      { region with addrStart := newRegion.addrEnd })
  else if newRegion.addrEnd = containing.addrEnd then
    some (table.modify i fun region =>
      { region with addrEnd := newRegion.addrStart })
  else do
    let table ← pushRegion table
      { addrStart := newRegion.addrEnd
        addrEnd := containing.addrEnd
        type := containing.type }
    return table.modify i fun region =>
      { region with addrEnd := newRegion.addrStart }

/-- `pmm_reserve_memory_region`: carve the page-rounded range out of the first
available region that contains it; without such a region, do nothing. -/
def pmmReserveMemoryRegion (table : RegionTable) (start stop : Nat) :
    Option RegionTable :=
  let start := reserveStart start
  let stop := reserveEnd stop
  match table.findIdx? (containsRange start stop) with
  | none => some table
  | some i => do
      let newRegion : MemoryRegion :=
        { addrStart := start, addrEnd := stop, type := .allocated }
      let containing := table[i]?.getD newRegion
      let table ← pushRegion table newRegion
      let table ← cutContaining table i containing newRegion
      return pmmSortRegions table

/-- `uint64_t len = region_page_count * 0x1000`, a 32-bit product. -/
def allocationLength (regionPageCount : Nat) : Nat :=
  regionPageCount * 0x1000 % 2 ^ 32

/-- The test of the search in `pmm_allocate_region_with_type`: an available
region from 1 MiB on that is long enough. -/
def fitsAllocation (len : Nat) (region : MemoryRegion) : Bool :=
  !decide (region.addrStart < 0x100000) && decide (region.type = .available) &&
    !decide ((region.addrStart + len) % 2 ^ 64 > region.addrEnd)

/-- `pmm_allocate_region_with_type`: take the pages from the front of the first
region that fits.  The result is the 32-bit pointer, 0 for `NULL`; the table is
sorted only when that pointer is not `NULL`. -/
def pmmAllocateRegionWithType (table : RegionTable) (regionPageCount : Nat)
    (type : MemoryRegionType) : Option (Nat × RegionTable) :=
  if regionPageCount = 0 then some (0, table)
  else
    let len := allocationLength regionPageCount
    match table.findIdx? (fitsAllocation len) with
    | none => some (0, table)
    | some i => do
        let start := (table[i]?.map MemoryRegion.addrStart).getD 0
        let potentialEnd := (start + len) % 2 ^ 64
        let table ← pushRegion table
          { addrStart := start, addrEnd := potentialEnd, type := type }
        let ret := start % 2 ^ 32
        let table := table.modify i fun region =>
          { region with addrStart := potentialEnd }
        return (ret, if ret ≠ 0 then pmmSortRegions table else table)

/-- `pmm_allocate_region`. -/
def pmmAllocateRegion (table : RegionTable) (regionPageCount : Nat) :
    Option (Nat × RegionTable) :=
  pmmAllocateRegionWithType table regionPageCount .allocated

/-- The inner loop of the coalescing in `pmm_deallocate`: `head` absorbs the
available regions that follow it without a gap, and leaves them invalid. -/
def absorb (head : MemoryRegion) :
    List MemoryRegion → MemoryRegion × List MemoryRegion
  | [] => (head, [])
  | current :: rest =>
      if current.type ≠ .available then (head, current :: rest)
      else if isEmpty current then
        let (head, rest) := absorb head rest
        (head, current :: rest)
      else if head.addrEnd ≠ current.addrStart then (head, current :: rest)
      else
        let (head, rest) :=
          absorb { head with addrEnd := current.addrEnd } rest
        (head, { current with addrStart := current.addrEnd } :: rest)

/-- One turn of the outer coalescing loop, for the region at index `i`. -/
def coalesceAt (table : RegionTable) (i : Nat) : RegionTable :=
  match table.drop i with
  | [] => table
  | head :: rest =>
      if head.type ≠ .available then table
      else if isEmpty head then table
      else
        let (head, rest) := absorb head rest
        table.take i ++ head :: rest

/-- The coalescing loops of `pmm_deallocate`. -/
def coalesce (table : RegionTable) : RegionTable :=
  (List.range table.length).foldl coalesceAt table

/-- `pmm_deallocate`, on a 32-bit address. -/
def pmmDeallocate (table : RegionTable) (addr : Nat) : RegionTable :=
  let pageAddr := if addr &&& 0x0FFF ≠ 0 then clearLow 64 12 addr else addr
  match table.findIdx? fun region => !decide (region.addrStart < pageAddr) with
  | none => pmmSortRegions (coalesce table)
  | some i =>
      match table[i]? with
      | none => table
      | some region =>
          if region.addrStart > pageAddr then table
          else if region.type ≠ .reserved then table
          else
            let table := table.modify i fun region =>
              { region with type := .available }
            pmmSortRegions (coalesce table)

end SampoOS.Kickstart
