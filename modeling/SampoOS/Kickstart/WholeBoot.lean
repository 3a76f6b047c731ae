/-
Module: SampoOS.Kickstart.WholeBoot
Purpose: kickstart_main from the Multiboot2 information on: what the machine
  looks like when it enters the kernel.
Trusted boundary: Kickstart's own code and static variables lie apart from the
  memory that it hands out.
Main exports: BootMachine, kickstartMain_enters, kickstartMain_account,
  kickstartMain_owns_memory
-/
import SampoOS.Kickstart.BootMemory
import SampoOS.Kickstart.ElfEncoding
import SampoOS.Kickstart.MultibootDecode

namespace SampoOS.Kickstart

open ByteMemory

/-- A machine on which a Multiboot2 bootloader starts Kickstart: memory holds the
information, the name of the kernel and the kernel's module, and nothing has been
handed out yet.  `loaded` is the table of the memory map, `first` and `reserved`
are what reserving Kickstart's image and the module makes of it. -/
structure BootMachine (info : MultibootInfo) (file : Nat → UInt8)
    (s : KickstartState)
    (kickstartStart kickstartEnd kernelName addr kernelElfLocation kernelElfEnd : Nat)
    (loaded first reserved : RegionTable) : Prop where
  holdsInfo : HoldsBytes s.memory addr info.encode
  infoLow : addr + info.encode.length ≤ 2 ^ 32
  holdsName : HoldsBytes s.memory kernelName (kernelCmdline ++ [0])
  nameLow : kernelName + kernelCmdline.length < 2 ^ 32
  kernel : (info.tags.filterMap MultibootTag.kernelModule).getLast? =
    some (kernelElfLocation, kernelElfEnd)
  noRegions : s.memoryRegions = []
  noRequests : s.allocations = []
  map : FirmwareMap (info.tags.flatMap MultibootTag.firmwareEntries)
  inputs : BootInputs (info.tags.flatMap MultibootTag.firmwareEntries) file
    { s with memoryRegions := loaded } kickstartStart kickstartEnd
    kernelElfLocation kernelElfEnd first reserved

/-- Neither the messages of a state nor where they come from matter. -/
theorem BootInputs.congr {entries : List FirmwareEntry} {file : Nat → UInt8}
    {s s' : KickstartState}
    {kickstartStart kickstartEnd kernelElfLocation kernelElfEnd : Nat}
    {first reserved : RegionTable}
    (inputs : BootInputs entries file s kickstartStart kickstartEnd
      kernelElfLocation kernelElfEnd first reserved)
    (memory : s'.memory = s.memory) (regions : s'.memoryRegions = s.memoryRegions) :
    BootInputs entries file s' kickstartStart kickstartEnd kernelElfLocation
      kernelElfEnd first reserved where
  memory := inputs.memory
  added := regions ▸ inputs.added
  imageProper := inputs.imageProper
  imageEnd := inputs.imageEnd
  moduleProper := inputs.moduleProper
  moduleLow := inputs.moduleLow
  holds := memory ▸ inputs.holds
  loadable := inputs.loadable
  image := regions ▸ inputs.image
  module := inputs.module
  kept := inputs.kept

section Machine

variable {info : MultibootInfo} {file : Nat → UInt8} {s done : KickstartState}
  {bootinfo entered : SampoBootinfo} {loaded first reserved : RegionTable}
  {kickstartStart kickstartEnd kernelName addr kernelElfLocation kernelElfEnd fuel
    magic : Nat} {serialInit hasLongmode : Bool}

/-- A machine that enters the kernel has gone through the boot behind the walk,
from a state with the table of its memory map. -/
theorem kickstartMain_enters
    (machine : BootMachine info file s kickstartStart kickstartEnd kernelName addr
      kernelElfLocation kernelElfEnd loaded first reserved)
    (enough : info.encode.length ≤ fuel)
    (ran : kickstartMain kickstartStart kickstartEnd kernelName fuel serialInit
      hasLongmode bootinfo addr magic s = some (some entered, done)) :
    ∃ walked : KickstartState, walked.memory = s.memory ∧
      walked.memoryRegions = loaded ∧ walked.allocations = [] ∧
      BootInputs (info.tags.flatMap MultibootTag.firmwareEntries) file walked
        kickstartStart kickstartEnd kernelElfLocation kernelElfEnd first reserved ∧
      kickstartBoot kickstartStart kickstartEnd hasLongmode
        (some (kernelElfLocation, kernelElfEnd)) bootinfo walked =
          some (some entered, done) := by
  have isMagic : magic = multiboot2BootloaderMagic := by
    by_contra other
    rw [kickstartMain, if_pos other] at ran
    cases ran
  have hasSerial : serialInit = true := by
    by_contra missing
    rw [Bool.not_eq_true] at missing
    rw [kickstartMain, if_neg (not_not.mpr isMagic), if_pos missing] at ran
    cases ran
  subst isMagic hasSerial
  obtain ⟨serial, boots⟩ := kickstartMain_eq kickstartStart kickstartEnd hasLongmode
    bootinfo machine.holdsInfo machine.infoLow machine.holdsName machine.nameLow
    enough
  have added : pmmAddRegions [] (info.tags.flatMap MultibootTag.firmwareEntries) =
      some loaded := machine.inputs.added
  rw [ran, machine.kernel, machine.noRegions, added, Option.bind_some] at boots
  exact ⟨{ s with memoryRegions := loaded, serial := serial }, rfl, rfl,
    machine.noRequests, machine.inputs.congr rfl rfl, boots.symm⟩

/-- In every boot whose blocks all lie below 4 GiB, the table that the kernel is
given is an exact account of the memory that the firmware offered: what is no
longer available was taken for the images, the page tables and the segments, in
blocks that share no byte and are recorded. -/
theorem kickstartMain_account
    (machine : BootMachine info file s kickstartStart kickstartEnd kernelName addr
      kernelElfLocation kernelElfEnd loaded first reserved)
    (enough : info.encode.length ≤ fuel)
    (ran : kickstartMain kickstartStart kickstartEnd kernelName fuel serialInit
      hasLongmode bootinfo addr magic s = some (some entered, done))
    (succeeded : ∀ outcome ∈ done.allocations, Succeeded outcome) :
    MemoryAccount (info.tags.flatMap MultibootTag.firmwareEntries) loaded
      entered.memoryRegions
      (grantedBlocks done.allocations ++ takenByImages loaded first kickstartStart
        kickstartEnd kernelElfLocation kernelElfEnd) := by
  obtain ⟨walked, _, regions, fresh, inputs, boots⟩ :=
    kickstartMain_enters machine enough ran
  rw [← regions]
  exact kickstartBoot_account inputs machine.map fresh boots succeeded

/-- In every boot whose blocks all lie below 4 GiB, Kickstart writes only memory
that it took for the page tables and the segments after both images were reserved,
and the address space that it enters the kernel with leads nowhere but to the
first 2 MiB and to the segments' blocks. -/
theorem kickstartMain_owns_memory
    (machine : BootMachine info file s kickstartStart kickstartEnd kernelName addr
      kernelElfLocation kernelElfEnd loaded first reserved)
    (enough : info.encode.length ≤ fuel)
    (ran : kickstartMain kickstartStart kickstartEnd kernelName fuel serialInit
      hasLongmode bootinfo addr magic s = some (some entered, done))
    (succeeded : ∀ outcome ∈ done.allocations, Succeeded outcome) :
    OwnsMemory reserved s entered done := by
  obtain ⟨walked, memory, _, fresh, inputs, boots⟩ :=
    kickstartMain_enters machine enough ran
  obtain ⟨granted, untouched, tables, frames⟩ :=
    kickstartBoot_owns_memory inputs machine.map fresh boots succeeded
  rw [memory] at untouched
  exact ⟨granted, untouched, tables, frames⟩

end Machine

/-! ## A small machine -/

/-- A tag with as many zero bytes behind it as it takes to end at a multiple of
8. -/
def TagContent.tag (content : TagContent) : MultibootTag where
  content := content
  padding := List.replicate ((8 - content.size % 8) % 8) 0
  padded := by
    rw [List.length_replicate]
    omega
  short := by
    rw [List.length_replicate]
    omega

theorem plainEntry_wide : 24 ≤ (24 : UInt32).toNat := by decide

theorem plainEntry_multiple : 8 ∣ (24 : UInt32).toNat := by decide

/-- A memory map whose entries have no bytes behind their fields but the reserved
ones. -/
def plainMmap (entries : List MmapEntry)
    (plain : ∀ entry ∈ entries, entry.rest.length = 4) : TagContent :=
  .mmap
    { entrySize := 24
      entryVersion := 0
      entries := entries
      wide := plainEntry_wide
      multiple := plainEntry_multiple
      sizes := fun entry member => by
        rw [plain entry member]
        rfl }

/-- A memory map of half a mebibyte, and the kernel behind 64 KiB of it. -/
def halfMebibyteInfo : MultibootInfo where
  totalSize := 96
  reserved := 0
  tags :=
    [(plainMmap [⟨0x100000, 0x80000, 1, [0, 0, 0, 0]⟩]
        (List.forall_mem_singleton.mpr rfl)).tag,
     (TagContent.module
        { modStart := 0x110000
          modEnd := 0x110079
          cmdline := kernelCmdline
          rest := []
          noNul := kernelCmdline_noNul }).tag]

/-- The information at 0x9000 with the name of the kernel behind it, and a kernel
of one segment where the module is. -/
def halfMebibyteMachine : KickstartState :=
  bareMachine fun x =>
    if 0x110000 ≤ x then oneSegmentFile (x - 0x110000)
    else memoryOf 0x9000 (halfMebibyteInfo.encode ++ (kernelCmdline ++ [0])) x

theorem halfMebibyteMachine_boots : BootMachine halfMebibyteInfo oneSegmentFile
    halfMebibyteMachine 0x100000 0x108000 0x9060 0x9000 0x110000 0x110079
    [⟨0x100000, 0x180000, .available⟩]
    [⟨0x100000, 0x108000, .allocated⟩, ⟨0x108000, 0x180000, .available⟩]
    [⟨0x100000, 0x108000, .allocated⟩, ⟨0x108000, 0x110000, .available⟩,
      ⟨0x110000, 0x111000, .allocated⟩, ⟨0x111000, 0x180000, .available⟩] := by
  have length : halfMebibyteInfo.encode.length = 96 := by decide +kernel
  have nameLength : kernelCmdline.length = 16 := by decide
  have held : HoldsBytes halfMebibyteMachine.memory 0x9000
      (halfMebibyteInfo.encode ++ (kernelCmdline ++ [0])) := by
    intro i below
    have small : i < 113 := by
      rw [List.length_append, List.length_append, length, nameLength] at below
      exact below
    rw [halfMebibyteMachine, bareMachine]
    dsimp only
    rw [if_neg (by omega)]
    exact holdsBytes_memoryOf 0x9000 _ i below
  obtain ⟨holdsInfo, holdsName⟩ := holdsBytes_append.mp held
  rw [length] at holdsName
  have entries : halfMebibyteInfo.tags.flatMap MultibootTag.firmwareEntries =
      [⟨.available, 0x100000, 0x180000⟩] := by decide
  refine ⟨holdsInfo, by omega, holdsName, by omega, by decide, rfl, rfl, ?_, ?_⟩
  · rw [entries]
    exact ⟨by decide, by decide, by simp, by decide⟩
  · rw [entries]
    refine ⟨⟨by decide, by decide, by simp⟩, by decide, by decide, by decide,
      by decide, by decide, ?_, oneSegmentFile_loadable, by decide, by decide,
      disjoint_availableBytes (by decide)⟩
    intro i _
    rw [halfMebibyteMachine, bareMachine]
    dsimp only
    rw [if_pos (by omega), Nat.add_sub_cancel_left]

/-- The small machine enters the kernel, with blocks for the page tables, for the
segment and for one more page table. -/
theorem halfMebibyteMachine_enters : ∃ entered done,
    kickstartMain 0x100000 0x108000 0x9060 96 true true ⟨[], 0⟩ 0x9000
        multiboot2BootloaderMagic halfMebibyteMachine = some (some entered, done) ∧
      (∀ outcome ∈ done.allocations, Succeeded outcome) ∧
      done.allocations = [some ⟨0x108000, 0x10C000, .allocated⟩,
        some ⟨0x10C000, 0x10D000, .kernel⟩, some ⟨0x10D000, 0x10E000, .allocated⟩] := by
  have machine := halfMebibyteMachine_boots
  have enough : halfMebibyteInfo.encode.length ≤ 96 := by decide +kernel
  obtain ⟨serial, boots⟩ := kickstartMain_eq 0x100000 0x108000 true ⟨[], 0⟩
    machine.holdsInfo machine.infoLow machine.holdsName machine.nameLow enough
  have added : pmmAddRegions [] (halfMebibyteInfo.tags.flatMap
      MultibootTag.firmwareEntries) = some [⟨0x100000, 0x180000, .available⟩] :=
    machine.inputs.added
  rw [machine.kernel, machine.noRegions, added, Option.bind_some] at boots
  have given : ∀ outcome ∈ ([⟨0x108000, 0x10C000, .allocated⟩,
      ⟨0x10C000, 0x10D000, .kernel⟩, ⟨0x10D000, 0x10E000, .allocated⟩] :
        List MemoryRegion).map some, Succeeded outcome :=
    succeeded_of_low (by decide)
  have inputs : BootInputs _ oneSegmentFile { halfMebibyteMachine with
      memoryRegions := [⟨0x100000, 0x180000, .available⟩], serial := serial }
      0x100000 0x108000 0x110000 0x110079 _ _ := machine.inputs.congr rfl rfl
  have accepts : ∀ s : KickstartState, s.memory = halfMebibyteMachine.memory →
      (elfInitialize 0x110000 s).1 = true := by
    intro s memory
    have held : HoldsFile s.memory 0x110000 121 oneSegmentFile :=
      memory ▸ inputs.holds
    rw [elfInitialize_accepts_iff held (by decide) (by decide)]
    exact ⟨⟨by decide, by decide, by decide, by decide⟩, by decide, by decide,
      by decide, by decide⟩
  obtain ⟨entered, done, ran, succeeded⟩ := oneSegment_boots ⟨[], 0⟩
    (by exact Nat.succ_ne_zero 0) inputs.image inputs.module inputs.available inputs.holds
    (by decide) inputs.kept (accepts _ rfl) rfl rfl rfl given
  refine ⟨entered, done, boots.trans ran, succeeded, ?_⟩
  -- The loader makes the requests that it makes for a kernel of one segment.
  obtain ⟨started, ready, loaded, stages⟩ := inputs.stages ran
  obtain ⟨ready', loaded', paged, expanded, _, recorded⟩ := oneSegment_loads
    stages.read (by rw [stages.regions]; rfl) rfl rfl
    (by rw [stages.regions, stages.allocations]; exact given)
  obtain rfl : ready = ready' :=
    (Prod.mk.inj (Option.some.inj (stages.paged.symm.trans paged))).2
  obtain rfl : loaded = loaded' :=
    (Prod.mk.inj (Option.some.inj (stages.expanded.symm.trans expanded))).2
  rw [stages.printed.allocations, recorded, stages.regions, stages.allocations]
  rfl

/-- What the small machine hands over. -/
theorem halfMebibyteMachine_hands_over {entered : SampoBootinfo}
    {done : KickstartState}
    (ran : kickstartMain 0x100000 0x108000 0x9060 96 true true ⟨[], 0⟩ 0x9000
      multiboot2BootloaderMagic halfMebibyteMachine = some (some entered, done))
    (succeeded : ∀ outcome ∈ done.allocations, Succeeded outcome)
    (history : done.allocations = [some ⟨0x108000, 0x10C000, .allocated⟩,
      some ⟨0x10C000, 0x10D000, .kernel⟩, some ⟨0x10D000, 0x10E000, .allocated⟩]) :
    entered.memoryRegions = [⟨0x100000, 0x108000, .allocated⟩,
        ⟨0x108000, 0x10C000, .allocated⟩, ⟨0x10C000, 0x10D000, .kernel⟩,
        ⟨0x10D000, 0x10E000, .allocated⟩, ⟨0x10E000, 0x110000, .available⟩,
        ⟨0x110000, 0x111000, .allocated⟩, ⟨0x111000, 0x180000, .available⟩] ∧
      entered.bootstrapPagingStructurePtr = 0x108000 := by
  obtain ⟨_, _, _, fresh, inputs, boots⟩ := kickstartMain_enters
    halfMebibyteMachine_boots (by decide +kernel) ran
  have replayed := kickstartBoot_requests (RequestInvariant.replays _) inputs boots
    succeeded (by rw [fresh]; rfl)
  rw [history] at replayed
  have chosen := (kickstartBoot_topStructure inputs.moduleHeaders boots succeeded).1
  exact ⟨Option.some.inj (replayed.symm.trans (by decide)),
    Option.some.inj (chosen.symm.trans (by decide))⟩

/-- It accounts for its half mebibyte. -/
theorem kickstartMain_account_halfMebibyte : ∃ entered done,
    kickstartMain 0x100000 0x108000 0x9060 96 true true ⟨[], 0⟩ 0x9000
        multiboot2BootloaderMagic halfMebibyteMachine = some (some entered, done) ∧
      MemoryAccount [⟨.available, 0x100000, 0x180000⟩]
        [⟨0x100000, 0x180000, .available⟩] entered.memoryRegions
        (grantedBlocks done.allocations ++
          [⟨0x110000, 0x111000, .allocated⟩, ⟨0x100000, 0x108000, .allocated⟩]) := by
  obtain ⟨entered, done, ran, succeeded, _⟩ := halfMebibyteMachine_enters
  have account := kickstartMain_account halfMebibyteMachine_boots
    (by decide +kernel) ran succeeded
  have entries : halfMebibyteInfo.tags.flatMap MultibootTag.firmwareEntries =
      [⟨.available, 0x100000, 0x180000⟩] := by decide
  have taken : takenByImages [⟨0x100000, 0x180000, .available⟩]
      [⟨0x100000, 0x108000, .allocated⟩, ⟨0x108000, 0x180000, .available⟩]
      0x100000 0x108000 0x110000 0x110079 =
      [⟨0x110000, 0x111000, .allocated⟩, ⟨0x100000, 0x108000, .allocated⟩] := by
    decide
  rw [entries, taken] at account
  exact ⟨entered, done, ran, account⟩

/-- It owns what it writes and maps. -/
theorem kickstartMain_owns_halfMebibyte : ∃ entered done,
    kickstartMain 0x100000 0x108000 0x9060 96 true true ⟨[], 0⟩ 0x9000
        multiboot2BootloaderMagic halfMebibyteMachine = some (some entered, done) ∧
      OwnsMemory [⟨0x100000, 0x108000, .allocated⟩, ⟨0x108000, 0x110000, .available⟩,
        ⟨0x110000, 0x111000, .allocated⟩, ⟨0x111000, 0x180000, .available⟩]
        halfMebibyteMachine entered done := by
  obtain ⟨entered, done, ran, succeeded, _⟩ := halfMebibyteMachine_enters
  exact ⟨entered, done, ran, kickstartMain_owns_memory halfMebibyteMachine_boots
    (by decide +kernel) ran succeeded⟩

end SampoOS.Kickstart
