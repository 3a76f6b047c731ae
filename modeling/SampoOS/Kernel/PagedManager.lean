/-
Module: SampoOS.Kernel.PagedManager
Purpose: init_memory_manager with all of its accesses through the page tables to the
  one physical memory, in which a store may fault or hit whatever is mapped there.
Trusted boundary: the memory manager's variables, the stack and the boot
  information are no part of that memory.
Main exports: Paged.loadRegion, Paged.addRegion, Paged.pmmMarkPageBusy,
  Paged.populatePhysmap, Paged.initMemoryManager, Paged.physmapOf
-/
import SampoOS.Kernel.MemoryManager
import SampoOS.Lib.VirtualMemory

namespace SampoOS.Kernel.Paged

open Paging (loadWord storeWord fillBytes readByte writeByte)

/-!
The functions of `MemoryManager` that use the manager's pages, once more.  There these
pages are memory of their own; here the field `virtual` of a state plays no part, and
a function that faults has no result.
-/

/-! ## The physmap -/

/-- Read `n` bytes through the page tables. -/
def load (s : KernelState) (addr n : Nat) : Option Nat :=
  loadWord s.physical s.root addr n

/-- Write `n` bytes through the page tables. -/
def store (addr n value : Nat) (s : KernelState) : Option KernelState :=
  (storeWord s.physical s.root addr value n).map fun m => { s with physical := m }

/-- Read a `struct physmem_region`. -/
def loadRegion (s : KernelState) (ptr : Nat) : Option PhysmemRegion := do
  let addr ← load s ptr 8
  let len ← load s ((ptr + 8) % 2 ^ 64) 8
  let allocMap ← load s ((ptr + 16) % 2 ^ 64) 8
  let type ← load s ((ptr + 24) % 2 ^ 64) 4
  return { addr := addr, len := len, allocMap := allocMap, type := .ofCode type }

/-- Write the fields of a `struct physmem_region`. -/
def storeRegion (ptr : Nat) (region : PhysmemRegion) (s : KernelState) :
    Option KernelState := do
  let s ← store ptr 8 region.addr s
  let s ← store ((ptr + 8) % 2 ^ 64) 8 region.len s
  let s ← store ((ptr + 16) % 2 ^ 64) 8 region.allocMap s
  store ((ptr + 24) % 2 ^ 64) 4 region.type.code s

/-- The entries of the physmap, as the code reads them. -/
def physmapOf (s : KernelState) : Option (List PhysmemRegion) :=
  (List.range s.physmemLen).mapM fun i => loadRegion s (physmapEntry s i)

/-- Write `physmap[physmem_len]` and count it. -/
def addRegion (region : PhysmemRegion) (s : KernelState) : Option KernelState := do
  let s ← storeRegion (physmapEntry s s.physmemLen) region s
  return { s with physmemLen := (s.physmemLen + 1) % 2 ^ 64 }

/-- The loop of `pmm_mark_page_busy` over the entries from `i` on: the first of them
that does not start behind the page. -/
def findEntry (page : Nat) (s : KernelState) : Nat → Nat → Option (Option PhysmemRegion)
  | 0, _ => some none
  | remaining + 1, i => do
      let region ← loadRegion s (physmapEntry s i)
      if page < region.addr then findEntry page s remaining (i + 1)
      else return some region

/-- `pmm_mark_page_busy`. -/
def pmmMarkPageBusy (page : Nat) (s : KernelState) : Option KernelState := do
  match ← findEntry page s s.physmemLen 0 with
  | none => return s
  | some region =>
      if region.type ≠ .available then return s
      else
        let pageIdx := (page - region.addr) / pageSize
        let addr := (region.allocMap + pageIdx / 8) % 2 ^ 64
        let byte ← readByte s.physical s.root addr
        let m ← writeByte s.physical s.root addr
          (byte ||| UInt8.ofNat (1 <<< (pageIdx % 8)))
        return { s with physical := m }

/-! ## init_memory_manager -/

/-- The second pass of `init_memory_manager`. -/
def populatePhysmap : Nat → List MemoryRegion → Nat → KernelState → Option KernelState
  | _, [], _, s => some s
  | skipped + 1, _ :: rest, bitmapAddr, s =>
      populatePhysmap skipped rest bitmapAddr s
  | 0, region :: rest, bitmapAddr, s =>
      if combinable region then
        let (regionEnd, merged) := combine region.addrEnd rest
        let size := sub64 regionEnd region.addrStart
        (addRegion
          { addr := region.addrStart
            len := size
            allocMap := bitmapAddr
            type := physmemType region.type } s).bind
          (populatePhysmap merged rest
            ((bitmapAddr + bitmapRequiredBytes size) % 2 ^ 64))
      else
        (addRegion
          { addr := region.addrStart
            len := sub64 region.addrEnd region.addrStart
            allocMap := 0
            type := physmemType region.type } s).bind
          (populatePhysmap 0 rest bitmapAddr)

/-- A loop over the pages from one address to another that marks each as busy.
The fuel runs out only if the loop does not end. -/
def markPages : Nat → Nat → Nat → KernelState → Option KernelState
  | 0, _, _, _ => none
  | fuel + 1, page, stop, s =>
      if page < stop then
        (pmmMarkPageBusy page s).bind
          (markPages fuel ((page + pageSize) % 2 ^ 64) stop)
      else some s

/-- The marking of all ALLOCATED regions, at the end of `init_memory_manager`. -/
def markAllocated (table : RegionTable) (s : KernelState) : Option KernelState :=
  table.foldlM (fun s region =>
    if region.type ≠ .allocated then some s
    else markPages pageFuel region.addrStart region.addrEnd s) s

/-- Clear the pages of the manager, put the physmap behind the bitmap, and
populate it. -/
def setUpPhysmap (table : RegionTable) (physManagerPtr : Nat) (s : KernelState) :
    Option KernelState :=
  let counts := regionCounts table
  (fillBytes 64 s.physical s.root physManagerPtr 0
    (counts.physManagerPageCount * pageSize % 2 ^ 64)).bind fun m =>
      populatePhysmap 0 table physManagerPtr
        { s with
          physical := m
          physmap := (physManagerPtr + counts.bitmapPageCount * pageSize) % 2 ^ 64 }

/-- `init_memory_manager`. -/
def initMemoryManager (kernEnd : Nat) (bootinfo : SampoBootinfo)
    (s : KernelState) : Option KernelState := do
  let s ← startManager kernEnd bootinfo s
  let table := bootinfo.memoryRegions
  let pageCount := (regionCounts table).physManagerPageCount
  let physManagerAddr := findManager table pageCount
  if physManagerAddr = 0 then return s
  else
    let (physManagerPtr, s) ← virtMapPagesKernelEnd physManagerAddr pageCount
      (virtMapRead ||| virtMapWrite) s
    let s ← setUpPhysmap table physManagerPtr s
    let s ← markAllocated table s
    markPages pageFuel physManagerAddr
      ((physManagerAddr + pageCount * pageSize % 2 ^ 64) % 2 ^ 64) s

end SampoOS.Kernel.Paged
