/-
Module: SampoOS.Kernel.MemoryManager
Purpose: The kernel's memory manager: its physmap with a bitmap for each
  available region, the two passes of its initialisation, and its page mapper.
Trusted boundary: the pages that the page mapper provides behave as memory of
  their own, apart from the page tables and the boot information.  PagedManager has the
  same functions on the one physical memory, and PagedRefinement says when they agree.
Main exports: KernelState, virtMapPagesKernelEnd, countRegions, findManager,
  populatePhysmap, pmmMarkPageBusy, initMemoryManager
-/
import SampoOS.Bootinfo
import SampoOS.Kernel.PageWindow

namespace SampoOS.Kernel

open BitFields (clearLow alignUp)
open ByteMemory (Memory loadLe storeLe)
open Paging (translate)

/-!
The kernel is built for x86-64: `size_t` and `uintptr_t` are 64 bits wide.
Addresses and sizes are natural numbers, which each operation reduces where the C
types do.  A function that faults or does not end has no result.
-/

/-! ## State -/

/-- `enum physmem_region_type`; `other code` stands for the value `code + 5`,
beyond the enumeration. -/
inductive PhysmemRegionType where
  | available
  | reserved
  | acpiReclaim
  | nvs
  | badMem
  | other (code : Nat)
deriving Repr, DecidableEq

/-- The value of the enumeration. -/
def PhysmemRegionType.code : PhysmemRegionType → Nat
  | .available => 0
  | .reserved => 1
  | .acpiReclaim => 2
  | .nvs => 3
  | .badMem => 4
  | .other code => code + 5

/-- The type that a value stands for. -/
def PhysmemRegionType.ofCode : Nat → PhysmemRegionType
  | 0 => .available
  | 1 => .reserved
  | 2 => .acpiReclaim
  | 3 => .nvs
  | 4 => .badMem
  | code + 5 => .other code

/-- `struct physmem_region`; `allocMap` is a pointer. -/
structure PhysmemRegion where
  addr : Nat
  len : Nat
  allocMap : Nat
  type : PhysmemRegionType
deriving Repr, DecidableEq

/-- `sizeof(struct physmem_region)`. -/
def physmemRegionSize : Nat := 32

/-- The kernel's memory and static variables.  `physical` is the memory that
holds the page tables from `root` on, `virtual` the memory behind the pages that
the memory manager has mapped for itself, as long as these are mapped to frames that
nothing else uses. -/
structure KernelState where
  physical : Memory
  root : Nat
  virtual : Memory
  kernelEndAddr : Nat
  physmemLen : Nat
  physmap : Nat

/-! ## virt_map_pages_kernel_end -/

/-- `PAGE_PRESENT`. -/
def pagePresent : Nat := 1 <<< 0

/-- `PAGE_WRITABLE`. -/
def pageWritable : Nat := 1 <<< 1

/-- `NX_BIT`. -/
def nxBit : Nat := 1 <<< 63

/-- `VIRT_MAP_READ`. -/
def virtMapRead : Nat := 1 <<< 0

/-- `VIRT_MAP_WRITE`. -/
def virtMapWrite : Nat := 1 <<< 1

/-- `VIRT_MAP_EXEC`. -/
def virtMapExec : Nat := 1 <<< 2

/-- Read a `uint64_t` through the page tables. -/
def readVirtual (s : KernelState) (addr : Nat) : Option Nat :=
  (translate s.physical s.root addr).map fun location =>
    loadLe s.physical location 8

/-- Write a `uint64_t` through the page tables. -/
def writeVirtual (s : KernelState) (addr value : Nat) : Option KernelState :=
  (translate s.physical s.root addr).map fun location =>
    { s with physical := storeLe s.physical location 8 value }

/-- The page-table entry that `virt_map_pages_kernel_end` writes. -/
def pageTableEntry (physicalPageAddr mappingPerms : Nat) : Nat :=
  let pte := physicalPageAddr ||| pagePresent
  let pte := if mappingPerms &&& virtMapWrite ≠ 0 then pte ||| pageWritable else pte
  if mappingPerms &&& virtMapExec = 0 then pte ||| nxBit else pte

/-- One turn of the loop in `virt_map_pages_kernel_end`: map a page at the end of
the kernel, or refuse to. -/
def virtMapPage (physicalPageAddr mappingPerms : Nat) (s : KernelState) :
    Option (Bool × KernelState) :=
  let addr := s.kernelEndAddr
  (readVirtual s (getPml4FromAddr addr + 8 * virtaddrToPml4eIdx addr)).bind
    fun pml4e =>
      if pagePresent &&& pml4e = 0 then some (false, s)
      else do
        -- A PDPT or PD entry that is not present is read past.
        let _ ← readVirtual s (getPdptFromAddr addr + 8 * virtaddrToPdpeIdx addr)
        let _ ← readVirtual s (getPdFromAddr addr + 8 * virtaddrToPdeIdx addr)
        let pte ← readVirtual s (getPtFromAddr addr + 8 * virtaddrToPteIdx addr)
        if pagePresent &&& pte ≠ 0 then return (false, s)
        else
          let s ← writeVirtual s (getPtFromAddr addr + 8 * virtaddrToPteIdx addr)
            (pageTableEntry physicalPageAddr mappingPerms)
          return (true, { s with kernelEndAddr := (addr + pageSize) % 2 ^ 64 })

/-- The loop of `virt_map_pages_kernel_end`. -/
def virtMapPages (mappingPerms : Nat) :
    Nat → Nat → KernelState → Option (Bool × KernelState)
  | 0, _, s => some (true, s)
  | pageCount + 1, physicalPageAddr, s =>
      (virtMapPage physicalPageAddr mappingPerms s).bind fun (mapped, s) =>
        if mapped then
          virtMapPages mappingPerms pageCount
            ((physicalPageAddr + pageSize) % 2 ^ 64) s
        else some (false, s)

/-- `virt_map_pages_kernel_end`.  The result is the pointer, 0 for `NULL`. -/
def virtMapPagesKernelEnd (physicalPageAddr pageCount mappingPerms : Nat)
    (s : KernelState) : Option (Nat × KernelState) :=
  (virtMapPages mappingPerms pageCount physicalPageAddr s).map
    fun (mapped, s') => (if mapped then s.kernelEndAddr else 0, s')

/-! ## The physmap -/

/-- The address of `physmap[i]`. -/
def physmapEntry (s : KernelState) (i : Nat) : Nat :=
  (s.physmap + physmemRegionSize * i) % 2 ^ 64

/-- Read a `struct physmem_region`. -/
def loadRegion (m : Memory) (ptr : Nat) : PhysmemRegion where
  addr := loadLe m ptr 8
  len := loadLe m ((ptr + 8) % 2 ^ 64) 8
  allocMap := loadLe m ((ptr + 16) % 2 ^ 64) 8
  type := PhysmemRegionType.ofCode (loadLe m ((ptr + 24) % 2 ^ 64) 4)

/-- Write the fields of a `struct physmem_region`. -/
def storeRegion (m : Memory) (ptr : Nat) (region : PhysmemRegion) : Memory :=
  let m := storeLe m ptr 8 region.addr
  let m := storeLe m ((ptr + 8) % 2 ^ 64) 8 region.len
  let m := storeLe m ((ptr + 16) % 2 ^ 64) 8 region.allocMap
  storeLe m ((ptr + 24) % 2 ^ 64) 4 region.type.code

/-- Write `physmap[physmem_len]` and count it. -/
def addRegion (region : PhysmemRegion) (s : KernelState) : KernelState :=
  { s with
    virtual := storeRegion s.virtual (physmapEntry s s.physmemLen) region
    physmemLen := (s.physmemLen + 1) % 2 ^ 64 }

/-- The search and the edit that `pmm_mark_page_busy` and `pmm_free_page` share:
change the byte of the page in the bitmap of the first region that does not start
behind the page, if that region is available. -/
def editPage (edit : UInt8 → Nat → UInt8) (page : Nat) (s : KernelState) :
    KernelState :=
  match (List.range s.physmemLen).find? fun i =>
      !decide (page < (loadRegion s.virtual (physmapEntry s i)).addr) with
  | none => s
  | some i =>
      let region := loadRegion s.virtual (physmapEntry s i)
      if region.type ≠ .available then s
      else
        let pageIdx := (page - region.addr) / pageSize
        let byte := (region.allocMap + pageIdx / 8) % 2 ^ 64
        { s with
          virtual := Function.update s.virtual byte
            (edit (s.virtual byte) (pageIdx % 8)) }

/-- `pmm_mark_page_busy`. -/
def pmmMarkPageBusy (page : Nat) (s : KernelState) : KernelState :=
  editPage (fun byte bit => byte ||| UInt8.ofNat (1 <<< bit)) page s

/-- `pmm_free_page`. -/
def pmmFreePage (page : Nat) (s : KernelState) : KernelState :=
  editPage (fun byte bit => byte &&& ~~~ UInt8.ofNat (1 <<< bit)) page s

/-! ## init_memory_manager -/

/-- A difference of two `size_t`. -/
def sub64 (a b : Nat) : Nat := (a + (2 ^ 64 - b)) % 2 ^ 64

/-- The region can be part of a combined region. -/
def combinable (region : MemoryRegion) : Bool :=
  decide (region.type = .available) || decide (region.type = .allocated)

/-- The loop that both passes of `init_memory_manager` have: the end of the
combined region, and by how many regions it moves the outer loop on. -/
def combine (combinedEnd : Nat) : List MemoryRegion → Nat × Nat
  | [] => (combinedEnd, 0)
  | peekRegion :: rest =>
      if combinable peekRegion && decide (peekRegion.addrStart = combinedEnd) then
        let (combinedEnd, merged) := combine peekRegion.addrEnd rest
        (combinedEnd, merged + 1)
      else (combinedEnd, 0)

/-- What the first pass counts. -/
structure RegionCounts where
  combinedRegionCount : Nat
  bitmapBitCount : Nat
deriving Repr, DecidableEq

/-- The bits that a combined region adds to `bitmap_bit_count`. -/
def bitmapBits (addrStart combinedEnd : Nat) : Nat :=
  let regionSize := sub64 combinedEnd addrStart / pageSize
  clearLow 64 3 ((regionSize + 0x7) % 2 ^ 64)

/-- The first pass of `init_memory_manager`; it skips the regions that its inner
loop has moved it past. -/
def countRegions : Nat → List MemoryRegion → RegionCounts → RegionCounts
  | _, [], counts => counts
  | skipped + 1, _ :: rest, counts => countRegions skipped rest counts
  | 0, region :: rest, counts =>
      let combinedRegionCount := (counts.combinedRegionCount + 1) % 2 ^ 64
      if combinable region then
        let (combinedEnd, merged) := combine region.addrEnd rest
        countRegions merged rest
          { combinedRegionCount := combinedRegionCount
            bitmapBitCount := (counts.bitmapBitCount +
              bitmapBits region.addrStart combinedEnd) % 2 ^ 64 }
      else
        countRegions 0 rest
          { counts with combinedRegionCount := combinedRegionCount }

/-- The counts of a whole table. -/
def regionCounts (table : RegionTable) : RegionCounts := countRegions 0 table ⟨0, 0⟩

namespace RegionCounts

/-- `bitmap_page_count`. -/
def bitmapPageCount (counts : RegionCounts) : Nat :=
  counts.bitmapBitCount / 8 / pageSize + 1

/-- `regions_page_count`. -/
def regionsPageCount (counts : RegionCounts) : Nat :=
  counts.combinedRegionCount * physmemRegionSize % 2 ^ 64 / pageSize + 1

/-- `phys_manager_page_count`. -/
def physManagerPageCount (counts : RegionCounts) : Nat :=
  (counts.bitmapPageCount + counts.regionsPageCount) % 2 ^ 64

end RegionCounts

/-- The test of the search for `phys_manager_addr`. -/
def fitsManager (pageCount : Nat) (region : MemoryRegion) : Bool :=
  decide (region.type = .available) && !decide (region.addrStart < 0x100000) &&
    !decide (region.addrEnd <
      (region.addrStart + pageCount * pageSize % 2 ^ 64) % 2 ^ 64)

/-- `phys_manager_addr`, 0 if there is no region for it. -/
def findManager (table : RegionTable) (pageCount : Nat) : Nat :=
  ((table.find? (fitsManager pageCount)).map MemoryRegion.addrStart).getD 0

/-- `bitmap_required_bytes`, for a combined region of a size. -/
def bitmapRequiredBytes (combinedRegionSize : Nat) : Nat :=
  let combinedRegionSize := alignUp 64 12 combinedRegionSize
  let combinedPageCount := combinedRegionSize / pageSize
  combinedPageCount / 8 + if combinedPageCount % 8 ≠ 0 then 1 else 0

/-- The type that a region of the boot information gets in the physmap. -/
def physmemType : MemoryRegionType → PhysmemRegionType
  | .available => .available
  | .allocated => .available
  | .reclaimable => .acpiReclaim
  | .nvs => .nvs
  | .badMem => .badMem
  | _ => .reserved

/-- The second pass of `init_memory_manager`. -/
def populatePhysmap : Nat → List MemoryRegion → Nat → KernelState → KernelState
  | _, [], _, s => s
  | skipped + 1, _ :: rest, bitmapAddr, s =>
      populatePhysmap skipped rest bitmapAddr s
  | 0, region :: rest, bitmapAddr, s =>
      if combinable region then
        let (regionEnd, merged) := combine region.addrEnd rest
        let size := sub64 regionEnd region.addrStart
        populatePhysmap merged rest
          ((bitmapAddr + bitmapRequiredBytes size) % 2 ^ 64)
          (addRegion
            { addr := region.addrStart
              len := size
              allocMap := bitmapAddr
              type := physmemType region.type } s)
      else
        populatePhysmap 0 rest bitmapAddr
          (addRegion
            { addr := region.addrStart
              len := sub64 region.addrEnd region.addrStart
              allocMap := 0
              type := physmemType region.type } s)

/-- A loop over the pages from one address to another that marks each as busy.
The fuel runs out only if the loop does not end. -/
def markPages : Nat → Nat → Nat → KernelState → Option KernelState
  | 0, _, _, _ => none
  | fuel + 1, page, stop, s =>
      if page < stop then
        markPages fuel ((page + pageSize) % 2 ^ 64) stop (pmmMarkPageBusy page s)
      else some s

/-- A loop that comes back to the same page does not end. -/
def pageFuel : Nat := 2 ^ 52 + 1

/-- The marking of all ALLOCATED regions, at the end of `init_memory_manager`. -/
def markAllocated (table : RegionTable) (s : KernelState) : Option KernelState :=
  table.foldlM (fun s region =>
    if region.type ≠ .allocated then some s
    else markPages pageFuel region.addrStart region.addrEnd s) s

/-- The start of `init_memory_manager`: the end of the kernel, and the fractal
mapping. -/
def startManager (kernEnd : Nat) (bootinfo : SampoBootinfo) (s : KernelState) :
    Option KernelState :=
  let bootstrapKernel := bootinfo.bootstrapPagingStructurePtr
  writeVirtual { s with kernelEndAddr := alignUp 64 12 kernEnd }
    ((bootstrapKernel + 8 * fractalMapPml4Idx) % 2 ^ 64)
    (nxBit ||| bootstrapKernel ||| pageWritable ||| pagePresent)

/-- Clear the pages of the manager, put the physmap behind the bitmap, and
populate it. -/
def setUpPhysmap (table : RegionTable) (physManagerPtr : Nat) (s : KernelState) :
    KernelState :=
  let counts := regionCounts table
  populatePhysmap 0 table physManagerPtr
    { s with
      virtual := ByteMemory.fill 64 s.virtual physManagerPtr 0
        (counts.physManagerPageCount * pageSize % 2 ^ 64)
      physmap := (physManagerPtr + counts.bitmapPageCount * pageSize) % 2 ^ 64 }

/-- `init_memory_manager`. -/
def initMemoryManager (kernEnd : Nat) (bootinfo : SampoBootinfo)
    (s : KernelState) : Option KernelState := do
  let s ← startManager kernEnd bootinfo s
  let table := bootinfo.memoryRegions
  let pageCount := (regionCounts table).physManagerPageCount
  let physManagerAddr := findManager table pageCount
  if physManagerAddr = 0 then return s
  else
    let (physManagerPtr, s) ← virtMapPagesKernelEnd physManagerAddr pageCount
      (virtMapRead ||| virtMapWrite) s
    let s ← markAllocated table (setUpPhysmap table physManagerPtr s)
    markPages pageFuel physManagerAddr
      ((physManagerAddr + pageCount * pageSize % 2 ^ 64) % 2 ^ 64) s

end SampoOS.Kernel
