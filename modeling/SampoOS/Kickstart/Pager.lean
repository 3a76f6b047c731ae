/-
Module: SampoOS.Kickstart.Pager
Purpose: Kickstart's pager: building the 64-bit page tables that the kernel is
  entered with.
Trusted boundary: none
Main exports: nextTable, pageEntry, mapPage, initializePager,
  pagerFillBootinfo
-/
import SampoOS.Kickstart.State

namespace SampoOS.Kickstart

open BitFields (clearLow)
open ByteMemory (loadLe storeLe)

/-- `PAGE_PERM_READ`. -/
def pagePermRead : Nat := 1 <<< 0

/-- `PAGE_PERM_WRITE`. -/
def pagePermWrite : Nat := 1 <<< 1

/-- `PAGE_PERM_EXEC`. -/
def pagePermExec : Nat := 1 <<< 2

/-- One level of `map_page`, written out there for the PML4, the PDPT and the
page directory: read the entry, and find the table it points to, or allocate
that table, clear it and link it as present and writable. -/
def nextTable (table index : Nat) (s : KickstartState) :
    Option (Nat × KickstartState) :=
  let entryPtr := (table + 0x08 * index) % 2 ^ 32
  let entry := loadLe s.memory entryPtr 8
  if entry = 0 then do
    let (addr, s) ← allocateRegion 1 s
    let memory := memset s.memory addr 0 0x1000
    return (addr,
      { s with memory := storeLe memory entryPtr 8 (addr ||| 0x2 ||| 0x1) })
  else some (clearLow 32 12 (entry % 2 ^ 32), s)

/-- The page-table entry that `map_page` writes. -/
def pageEntry (physAddr permFlags : Nat) : Nat :=
  let pte := physAddr ||| 0x1
  let pte := if permFlags &&& pagePermWrite ≠ 0 then pte ||| 0x2 else pte
  if permFlags &&& pagePermExec = 0 then pte ||| 1 <<< 63 else pte

/-- The end of `map_page`, at the page table: report a page that is mapped
already, write the entry of any other. -/
def mapEntry (ptAddr ptIdx physAddr virtAddr permFlags : Nat)
    (s : KickstartState) : KickstartState :=
  let entryPtr := (ptAddr + 0x08 * ptIdx) % 2 ^ 32
  let pte := loadLe s.memory entryPtr 8
  if pte ≠ 0 then
    let mappedAddress := clearLow 64 12 pte
    serialPrintf
      "Virtual address 0x%x%x is already mapped to physical address 0x%x%x!\n"
      [(virtAddr >>> 32) % 2 ^ 32, virtAddr &&& 0xFFFFFFFF,
        (mappedAddress >>> 32) % 2 ^ 32, mappedAddress &&& 0xFFFFFFFF] s
  else
    { s with
      memory := storeLe s.memory entryPtr 8 (pageEntry physAddr permFlags) }

/-- `map_page`. -/
def mapPage (physAddr virtAddr permFlags : Nat) (s : KickstartState) :
    Option KickstartState :=
  match s.pageType with
  | .bits32 => some s
  | .bits64 => do
      let ptIdx := (virtAddr >>> 12) &&& 0x1FF
      let pdIdx := (virtAddr >>> 21) &&& 0x1FF
      let pdpIdx := (virtAddr >>> 30) &&& 0x1FF
      let pml4Idx := (virtAddr >>> 39) &&& 0x1FF
      let (pdpAddr, s) ← nextTable s.topPageStructure pml4Idx s
      let (pdAddr, s) ← nextTable pdpAddr pdpIdx s
      let (ptAddr, s) ← nextTable pdAddr pdIdx s
      return mapEntry ptAddr ptIdx physAddr virtAddr permFlags s

/-- The four tables for the first 2 MiB, in `initialize_pager`: clear them and
link each to the next one. -/
def linkIdentTables (pml4Addr : Nat) (s : KickstartState) : KickstartState :=
  let memory := memset s.memory pml4Addr 0 0x4000
  let identPdpAddr := (pml4Addr + 0x1000) % 2 ^ 32
  let identPdAddr := (identPdpAddr + 0x1000) % 2 ^ 32
  let identPtAddr := (identPdAddr + 0x1000) % 2 ^ 32
  let memory := storeLe memory pml4Addr 8 (identPdpAddr ||| 0x2 ||| 0x1)
  let memory := storeLe memory identPdpAddr 8 (identPdAddr ||| 0x2 ||| 0x1)
  let memory := storeLe memory identPdAddr 8 (identPtAddr ||| 0x2 ||| 0x1)
  { s with memory := memory }

/-- Map the first 2 MiB to themselves, in `initialize_pager`. -/
def mapIdentity (s : KickstartState) : Option KickstartState :=
  ((List.range 512).map fun i => i * 0x1000).foldlM
    (fun s page => mapPage page page
      (pagePermRead ||| pagePermWrite ||| pagePermExec) s) s

/-- `initialize_pager`. -/
def initializePager (type : PageType) (s : KickstartState) :
    Option (Bool × KickstartState) :=
  let s := { s with pageType := type }
  match type with
  | .bits32 =>
      some (false, serialWrite "32-bit paging is not supported currently\n" s)
  | .bits64 =>
      (allocateRegion 4 s).bind fun (pml4Addr, s) =>
        let s := { s with topPageStructure := pml4Addr }
        if pml4Addr = 0 then
          some (false, serialWrite "Could not allocate page tables\n" s)
        else
          (mapIdentity (linkIdentTables pml4Addr s)).map fun s => (true, s)

/-- `pager_fill_bootinfo`. -/
def pagerFillBootinfo (s : KickstartState) (info : SampoBootinfo) :
    SampoBootinfo :=
  { info with bootstrapPagingStructurePtr := s.topPageStructure }

end SampoOS.Kickstart
