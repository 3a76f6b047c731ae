/-
Module: SampoOS.Kickstart.Main
Purpose: The stages of kickstart_main behind the Multiboot information, and the
  page tables that it hands over to the kernel.
Trusted boundary: Kickstart's own code and static variables lie apart from the
  memory that it hands out; the answer of cpuid is a parameter.
Main exports: bootKernel, kickstartBoot, kickstartBoot_enters, MappedToItself,
  ModuleHeaders, BootInputs, kickstartBoot_maps_topStructure_iff
-/
import Mathlib.Order.Interval.Set.Disjoint
import SampoOS.Kickstart.ElfPages

namespace SampoOS.Kickstart

open Paging

/-! ## kickstart_main -/

/-- One turn of the loop in `kickstart_main` that prints the memory map. -/
def printRegion (s : KickstartState) (region : MemoryRegion) : KickstartState :=
  let s := serialPrintf "\tRegion start - 0x%x%x\n"
    [(region.addrStart >>> 32) % 2 ^ 32, region.addrStart &&& 0xFFFFFFFF] s
  let s := serialPrintf "\tRegion end   - 0x%x%x\n"
    [(region.addrEnd >>> 32) % 2 ^ 32, region.addrEnd &&& 0xFFFFFFFF] s
  let s := serialPrintf "\tRegion type  - %d\n" [region.type.code % 2 ^ 32] s
  serialWrite "\n" s

/-- The output of the memory map in `kickstart_main`. -/
def printMemoryMap (s : KickstartState) : KickstartState :=
  s.memoryRegions.foldl printRegion
    (serialWrite "Parsed memory map (rounded to nearest page boundaries):\n" s)

/-- `pmm_fill_bootinfo`. -/
def pmmFillBootinfo (s : KickstartState) (info : SampoBootinfo) : SampoBootinfo :=
  { info with memoryRegions := s.memoryRegions }

/-- `kickstart_main` from `elf_initialize` on.  It returns the boot information
when it enters the kernel. -/
def bootKernel (hasLongmode : Bool) (kernelElfLocation : Nat)
    (bootinfo : SampoBootinfo) (s : KickstartState) :
    Option (Option SampoBootinfo × KickstartState) :=
  let (parsed, s) := elfInitialize kernelElfLocation s
  if parsed = false then
    some (none, serialWrite "Failed to parse the kernel! Halting!\n" s)
  else
    let s := serialWrite "Kernel ELF successfully parsed!\n" s
    if s.header.arch = .amd64 ∧ hasLongmode = false then
      some (none, serialWrite
        "Cannot boot AMD64 version of SampoOS on a non-AMD64 machine! Halting!\n"
        s)
    else
      (initializePager (if s.header.arch = .amd64 then .bits64 else .bits32)
          s).bind fun (paged, s) =>
        if paged = false then
          some (none, serialWrite "Could not setup page mapping! Halting!\n" s)
        else
          (elfExpand s).map fun (expanded, s) =>
            if expanded = false then
              (none,
                serialWrite "Could not load kernel segments! Halting!\n" s)
            else
              let s := printMemoryMap s
              let bootinfo := pagerFillBootinfo s (pmmFillBootinfo s bootinfo)
              (if s.header.arch = .amd64 then some bootinfo else none, s)

/-- `kickstart_main` behind the walk over the Multiboot tags, which found the
kernel's module there or did not. -/
def kickstartBoot (kickstartStart kickstartEnd : Nat) (hasLongmode : Bool)
    (kernelElf : Option (Nat × Nat)) (bootinfo : SampoBootinfo)
    (s : KickstartState) : Option (Option SampoBootinfo × KickstartState) :=
  match kernelElf with
  | none =>
      some (none, serialWrite
        "Bootloader could not load the kernel. Halting!\n" s)
  | some (kernelElfLocation, kernelElfEnd) =>
      if s.memoryRegions.length = 0 then
        some (none, serialWrite
          "Got no memory regions from Multiboot. Halting!\n" s)
      else
        (pmmReserveMemoryRegion s.memoryRegions kickstartStart
            kickstartEnd).bind fun regions =>
          (pmmReserveMemoryRegion regions kernelElfLocation
              kernelElfEnd).bind fun regions =>
            bootKernel hasLongmode kernelElfLocation bootinfo
              { s with memoryRegions := regions }

/-! ## Its stages -/

theorem foldl_printRegion_only (regions : RegionTable) : ∀ s : KickstartState,
    regions.foldl printRegion s =
      { s with serial := (regions.foldl printRegion s).serial } := by
  induction regions with
  | nil => exact fun _ => rfl
  | cons region rest inductionHypothesis =>
      intro s
      rw [List.foldl_cons, inductionHypothesis (printRegion s region)]
      rfl

/-- Printing the memory map changes only the serial output. -/
theorem printMemoryMap_only (s : KickstartState) :
    printMemoryMap s = { s with serial := (printMemoryMap s).serial } :=
  foldl_printRegion_only _ _

theorem serialWrite_header (text : String) (s : KickstartState) :
    (serialWrite text s).header = s.header := rfl

theorem printMemoryMap_header (s : KickstartState) :
    (printMemoryMap s).header = s.header := by
  rw [printMemoryMap_only]

/-- What has happened when `kickstart_main` enters the kernel. -/
structure Entered (hasLongmode : Bool) (kernelElfLocation : Nat)
    (bootinfo entered : SampoBootinfo) (s initialized ready loaded done :
      KickstartState) : Prop where
  parsed : elfInitialize kernelElfLocation s = (true, initialized)
  wide : initialized.header.arch = .amd64
  longmode : hasLongmode = true
  paged : initializePager .bits64
    (serialWrite "Kernel ELF successfully parsed!\n" initialized) =
      some (true, ready)
  expanded : elfExpand ready = some (true, loaded)
  wideLoaded : loaded.header.arch = .amd64
  printed : done = printMemoryMap loaded
  info : entered = pagerFillBootinfo done (pmmFillBootinfo done bootinfo)

/-- `kickstart_main` enters the kernel exactly when all its stages succeed. -/
theorem bootKernel_enters {hasLongmode : Bool} {kernelElfLocation : Nat}
    {bootinfo entered : SampoBootinfo} {s done : KickstartState} :
    bootKernel hasLongmode kernelElfLocation bootinfo s =
        some (some entered, done) ↔
      ∃ initialized ready loaded, Entered hasLongmode kernelElfLocation bootinfo
        entered s initialized ready loaded done := by
  constructor
  · intro ran
    rw [bootKernel] at ran
    rcases parse : elfInitialize kernelElfLocation s with ⟨parsed, initialized⟩
    rw [parse] at ran
    dsimp only at ran
    split at ran
    · cases ran
    next accepted =>
      split at ran
      · cases ran
      next capable =>
        rw [Option.bind_eq_some_iff] at ran
        obtain ⟨⟨paged, ready⟩, pager, ran⟩ := ran
        dsimp only at ran
        split at ran
        · cases ran
        next running =>
          rw [Option.map_eq_some_iff] at ran
          obtain ⟨⟨expanded, loaded⟩, expand, ran⟩ := ran
          dsimp only at ran
          split at ran
          · cases ran
          next full =>
            rw [Bool.not_eq_false] at accepted running full
            subst accepted running full
            rw [serialWrite_header] at capable pager
            rw [printMemoryMap_header] at ran
            -- Only a 64-bit kernel gets past the pager.
            have wide : initialized.header.arch = .amd64 := by
              by_contra narrow
              rw [if_neg narrow] at pager
              cases pager
            rw [if_pos wide] at pager
            have longmode : hasLongmode = true := by
              rw [← Bool.not_eq_false]
              exact fun missing => capable ⟨wide, missing⟩
            split at ran
            next wideLoaded =>
              cases ran
              exact ⟨initialized, ready, loaded, parse, wide, longmode, pager,
                expand, wideLoaded, rfl, rfl⟩
            · cases ran
  · rintro ⟨initialized, ready, loaded, entry⟩
    obtain ⟨parsed, wide, rfl, paged, expanded, wideLoaded, rfl, rfl⟩ := entry
    rw [bootKernel, parsed]
    dsimp only
    rw [serialWrite_header, if_neg (by decide), if_neg (by simp), if_pos wide, paged,
      Option.bind_some]
    dsimp only
    rw [if_neg (by decide), expanded, Option.map_some]
    dsimp only
    rw [if_neg (by decide), printMemoryMap_header, if_pos wideLoaded]

/-- `kickstart_main` reaches its later stages once both images are reserved. -/
theorem kickstartBoot_enters {kickstartStart kickstartEnd kernelElfLocation
    kernelElfEnd : Nat} {hasLongmode : Bool} {bootinfo entered : SampoBootinfo}
    {s done : KickstartState} :
    kickstartBoot kickstartStart kickstartEnd hasLongmode
        (some (kernelElfLocation, kernelElfEnd)) bootinfo s =
        some (some entered, done) ↔
      s.memoryRegions.length ≠ 0 ∧ ∃ first reserved,
        pmmReserveMemoryRegion s.memoryRegions kickstartStart kickstartEnd =
            some first ∧
          pmmReserveMemoryRegion first kernelElfLocation kernelElfEnd =
            some reserved ∧
          bootKernel hasLongmode kernelElfLocation bootinfo
            { s with memoryRegions := reserved } = some (some entered, done) := by
  rw [kickstartBoot]
  split
  next empty => simp [empty]
  next some =>
    simp only [Option.bind_eq_some_iff, ne_eq, some, not_false_iff, true_and]
    constructor
    · rintro ⟨first, image, reserved, module, ran⟩
      exact ⟨first, reserved, image, module, ran⟩
    · rintro ⟨first, reserved, image, module, ran⟩
      exact ⟨first, image, reserved, module, ran⟩

/-! ## The page tables that are handed over -/

/-- The bytes of a page are mapped at their own addresses, writable. -/
def MappedToItself (memory : ByteMemory.Memory) (root page : Nat) : Prop :=
  ∀ k < 4096, ∃ mapping, translatePage memory root (page + k) = some mapping ∧
    mapping.frame + (page + k) % 4096 = page + k ∧ mapping.writable = true

/-- No segment is ever mapped to the top structure, so that it is mapped at its
own address only with the first 2 MiB. -/
theorem PlacementInvariant.topStructure_mapped_iff {file : Nat → UInt8}
    {base size : Nat} {h : ElfHeader} {ready s : KickstartState}
    {headers : List ProgramHeader} {tables : Tables}
    {placed : List (ProgramHeader × MemoryRegion)}
    (invariant : PlacementInvariant file base size h ready headers s tables placed) :
    MappedToItself s.memory ready.topPageStructure ready.topPageStructure ↔
      ready.topPageStructure < 0x200000 := by
  rw [← invariant.root]
  have root := invariant.pager.root
  have aligned := invariant.pager.tree.aligned root
  have low := invariant.pager.low root
  have walked := invariant.pager.tree.translatePage_eq root
  constructor
  · intro mapped
    obtain ⟨mapping, translated, itself, _⟩ := mapped 0 (by decide)
    rw [walked] at translated
    have frame : mapping.frame = s.topPageStructure := by omega
    rcases invariant.frame translated with small | ⟨segment, inside, inBlock⟩
    · rw [pageNumber] at small
      omega
    · -- The frames of a segment lie in its block, the top structure does not.
      rw [frame] at inBlock
      have inPager : s.topPageStructure ∈ pagerBytes s tables :=
        Or.inl ⟨[], _, root, Nat.le_refl _, by omega⟩
      exact absurd inBlock
        (Set.disjoint_left.mp (invariant.apart segment inside) inPager)
  · intro small k below
    have page : pageNumber (s.topPageStructure + k) < 512 := by
      rw [pageNumber]
      omega
    refine ⟨_, (walked _).trans (mapCalls_keeps (if_pos page)), ?_, rfl⟩
    dsimp only
    rw [pageNumber]
    omega

/-- A kernel of one segment boots with three allocations. -/
theorem oneSegment_boots {s : KickstartState} (bootinfo : SampoBootinfo)
    {first reserved second third fourth : RegionTable}
    {kickstartStart kickstartEnd modStart pml4Addr segmentRegion table : Nat}
    (present : s.memoryRegions.length ≠ 0)
    (image : pmmReserveMemoryRegion s.memoryRegions kickstartStart kickstartEnd =
      some first)
    (module : pmmReserveMemoryRegion first modStart (modStart + 121) = some reserved)
    (regions : AvailableInvariant reserved)
    (holds : HoldsFile s.memory modStart 121 oneSegmentFile)
    (low : modStart + 121 ≤ 2 ^ 32)
    (kept : Disjoint (availableBytes reserved) (Set.Ico modStart (modStart + 121)))
    (accepted : (elfInitialize modStart { s with memoryRegions := reserved }).1 =
      true)
    (tables : pmmAllocateRegionWithType reserved 4 .allocated =
      some (pml4Addr, second))
    (block : pmmAllocateRegionWithType second 1 .kernel =
      some (segmentRegion, third))
    (page : pmmAllocateRegionWithType third 1 .allocated = some (table, fourth))
    (succeeded : ∀ outcome ∈ s.allocations ++ [allocatedBlock reserved 4 .allocated] ++
      [allocatedBlock second 1 .kernel] ++ [allocatedBlock third 1 .allocated],
      Succeeded outcome) :
    ∃ entered done, kickstartBoot kickstartStart kickstartEnd true
        (some (modStart, modStart + 121)) bootinfo s = some (some entered, done) ∧
      ∀ outcome ∈ done.allocations, Succeeded outcome := by
  have parsed : elfInitialize modStart { s with memoryRegions := reserved } =
      (true, (elfInitialize modStart { s with memoryRegions := reserved }).2) :=
    Prod.ext accepted rfl
  generalize (elfInitialize modStart { s with memoryRegions := reserved }).2 =
    initialized at parsed
  have wide := elfInitialize_wide (s := { s with memoryRegions := reserved }) holds
    low oneSegmentFile_loadable.headed (by decide) parsed
  obtain ⟨read, sameRegions, sameHistory⟩ := elfInitialize_reads
    (s := { s with memoryRegions := reserved }) regions holds low kept
    oneSegmentFile_loadable.headed parsed wide
  have message := serialPrintf_sameControl
    "Kernel ELF successfully parsed!\n" [] initialized
  have messageRegions := message.regions.trans sameRegions
  have messageHistory := message.allocations.trans sameHistory
  obtain ⟨ready, loaded, paged, expanded, header, recorded⟩ := oneSegment_loads
    (read.congr message rfl) (by rw [messageRegions]; exact tables) block page
    (by rw [messageRegions, messageHistory]; exact succeeded)
  rw [messageRegions, messageHistory] at recorded
  refine ⟨_, printMemoryMap loaded, kickstartBoot_enters.mpr ⟨present, first,
    reserved, image, module, bootKernel_enters.mpr ⟨initialized, ready, loaded,
      parsed, wide, rfl, paged, expanded, ?_, rfl, rfl⟩⟩, ?_⟩
  · rw [header, message.header, wide]
  · rw [printMemoryMap_only]
    dsimp only
    rw [recorded]
    exact succeeded

/-- What the boot relies on to load the module: once both images are reserved, the
available regions share no byte, the file's headers lie outside them and below
4 GiB, and the segments have sizes that the loader can hold. -/
structure ModuleHeaders (file : Nat → UInt8) (size : Nat) (s : KickstartState)
    (kickstartStart kickstartEnd kernelElfLocation kernelElfEnd : Nat)
    (reserved : RegionTable) : Prop where
  reserves : ∃ first,
    pmmReserveMemoryRegion s.memoryRegions kickstartStart kickstartEnd =
        some first ∧
      pmmReserveMemoryRegion first kernelElfLocation kernelElfEnd = some reserved
  regions : AvailableInvariant reserved
  holds : HoldsFile s.memory kernelElfLocation size file
  low : kernelElfLocation + size ≤ 2 ^ 32
  kept : Disjoint (availableBytes reserved)
    (Set.Ico kernelElfLocation (kernelElfLocation + size))
  headed : ElfImage.Headed file size
  sized : ElfImage.Sized file

/-- What `kickstart_main` finds behind the walk over the tags: the table of a
memory map, and a kernel below 4 GiB whose module stays out of the memory that is
available once both images are reserved. -/
structure BootInputs (entries : List FirmwareEntry) (file : Nat → UInt8)
    (s : KickstartState)
    (kickstartStart kickstartEnd kernelElfLocation kernelElfEnd : Nat)
    (first reserved : RegionTable) : Prop where
  memory : FirmwareMemory entries
  added : pmmAddRegions [] entries = some s.memoryRegions
  imageProper : kickstartStart < kickstartEnd
  imageEnd : kickstartEnd ≤ 0x200000
  moduleProper : kernelElfLocation < kernelElfEnd
  moduleLow : kernelElfEnd ≤ 0xFFFFF000
  holds : HoldsFile s.memory kernelElfLocation (kernelElfEnd - kernelElfLocation)
    file
  loadable : ElfImage.Loadable file (kernelElfEnd - kernelElfLocation)
  image : pmmReserveMemoryRegion s.memoryRegions kickstartStart kickstartEnd =
    some first
  module : pmmReserveMemoryRegion first kernelElfLocation kernelElfEnd =
    some reserved
  kept : Disjoint (availableBytes reserved)
    (Set.Ico kernelElfLocation kernelElfEnd)

theorem BootInputs.available {entries : List FirmwareEntry} {file : Nat → UInt8}
    {s : KickstartState}
    {kickstartStart kickstartEnd kernelElfLocation kernelElfEnd : Nat}
    {first reserved : RegionTable}
    (inputs : BootInputs entries file s kickstartStart kickstartEnd
      kernelElfLocation kernelElfEnd first reserved) :
    AvailableInvariant reserved := by
  have imageEnd := inputs.imageEnd
  have read := inputs.memory.availableInvariant inputs.added
  have afterImage := (pmmReserveMemoryRegion_available read inputs.imageProper
    (by omega) inputs.image).1
  exact (pmmReserveMemoryRegion_available afterImage inputs.moduleProper
    inputs.moduleLow inputs.module).1

theorem BootInputs.moduleHeaders {entries : List FirmwareEntry}
    {file : Nat → UInt8} {s : KickstartState}
    {kickstartStart kickstartEnd kernelElfLocation kernelElfEnd : Nat}
    {first reserved : RegionTable}
    (inputs : BootInputs entries file s kickstartStart kickstartEnd
      kernelElfLocation kernelElfEnd first reserved) :
    ModuleHeaders file (kernelElfEnd - kernelElfLocation) s kickstartStart
      kickstartEnd kernelElfLocation kernelElfEnd reserved := by
  have moduleProper := inputs.moduleProper
  have moduleLow := inputs.moduleLow
  refine ⟨⟨first, inputs.image, inputs.module⟩, inputs.available, inputs.holds,
    by omega, ?_, inputs.loadable.headed, inputs.loadable.sized⟩
  rw [show kernelElfLocation + (kernelElfEnd - kernelElfLocation) = kernelElfEnd
    by omega]
  exact inputs.kept

section BootRun

variable {file : Nat → UInt8} {size : Nat}
  {s done : KickstartState} {bootinfo entered : SampoBootinfo}
  {kickstartStart kickstartEnd kernelElfLocation kernelElfEnd : Nat}
  {reserved : RegionTable} {hasLongmode : Bool}

/-- Where the top structure lies, and when it is mapped there. -/
theorem kickstartBoot_topStructure
    (module : ModuleHeaders file size s kickstartStart kickstartEnd
      kernelElfLocation kernelElfEnd reserved)
    (ran : kickstartBoot kickstartStart kickstartEnd hasLongmode
      (some (kernelElfLocation, kernelElfEnd)) bootinfo s =
        some (some entered, done))
    (succeeded : ∀ outcome ∈ done.allocations, Succeeded outcome) :
    (firstFit reserved 4).map MemoryRegion.addrStart =
        some entered.bootstrapPagingStructurePtr ∧
      (MappedToItself done.memory done.topPageStructure
          entered.bootstrapPagingStructurePtr ↔
        entered.bootstrapPagingStructurePtr < 0x200000) := by
  obtain ⟨first, image, reserve⟩ := module.reserves
  obtain ⟨_, first', reserved', image', reserve', ran⟩ := kickstartBoot_enters.mp ran
  obtain rfl : first = first' := Option.some.inj (image.symm.trans image')
  obtain rfl : reserved = reserved' := Option.some.inj (reserve.symm.trans reserve')
  obtain ⟨initialized, ready, loaded, entry⟩ := bootKernel_enters.mp ran
  -- The stages up to the message leave the table as reserved.
  obtain ⟨read, sameRegions, _⟩ := elfInitialize_reads
    (s := { s with memoryRegions := reserved }) module.regions module.holds
    module.low module.kept module.headed entry.parsed entry.wide
  have message := serialPrintf_sameControl
    "Kernel ELF successfully parsed!\n" [] initialized
  have read' := read.congr message rfl
  -- The top structure is the block that the pager asks for first.
  have printed := entry.printed.trans (printMemoryMap_only loaded)
  have history : done.allocations = loaded.allocations := by rw [printed]
  rw [history] at succeeded
  obtain ⟨s₁, tables, placed, invariant, isLoaded⟩ := read'.placed module.headed
    module.sized entry.paged entry.expanded succeeded
  obtain ⟨_, built⟩ := initializePager_spec read'.regions entry.paged
    fun outcome inside => succeeded outcome
      (elfExpand_allocations entry.expanded inside)
  have chosen := built.top
  rw [message.regions.trans sameRegions] at chosen
  have sameTop : done.topPageStructure = ready.topPageStructure := by
    rw [printed, isLoaded]
    exact invariant.root
  have sameMemory : done.memory = s₁.memory := by rw [printed, isLoaded]
  have pointer : entered.bootstrapPagingStructurePtr = done.topPageStructure := by
    rw [entry.info]
    rfl
  rw [pointer, sameTop, sameMemory]
  exact ⟨chosen, invariant.topStructure_mapped_iff⟩

end BootRun

end SampoOS.Kickstart
