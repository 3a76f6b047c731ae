/-
Module: SampoOS.Handover.InitialisedKernel
Purpose: The kernel that Kickstart has entered and that has set up its memory
  manager: its memory, its address space and its physmap.
Trusted boundary: none
Main exports: KernelInitialised, kickstartMain_tree, kickstartMain_installs,
  kickstartMain_initMemoryManager, kickstartMain_physmap_firmwareKept
-/
import SampoOS.Handover.KernelSpace
import SampoOS.Kickstart.KernelImage

namespace SampoOS

open ByteMemory (Memory)
open Paging
open Kickstart Kernel

/-- The memory and the address space of a kernel that has set up its memory
manager: what the boot has handed over is in place, outside of the window of the
fractal mapping the pages of the manager come on top and nothing else does, they lie
in memory that was available at the hand-over and hold the physmap, and besides them
only page tables were written. -/
structure KernelInitialised (file : Nat → UInt8) (entered : SampoBootinfo)
    (done : KickstartState) (kernEnd : Nat) (after : KernelState) : Prop where
  kernelEnd : after.kernelEndAddr = (BitFields.alignUp 64 12 kernEnd +
    4096 * mappedPages entered.memoryRegions) % 2 ^ 64
  identity : ∀ v, pageNumber v < 512 →
    translatePage after.physical entered.bootstrapPagingStructurePtr v =
      some { frame := pageNumber v * 4096, writable := true, executable := true }
  segments : ∀ ph ∈ loadedHeaders file,
    (∀ page, InSegment ph page → OutsideSlot fractalMapPml4Idx page) →
    HoldsSegment file after.physical entered.bootstrapPagingStructurePtr ph
  manager : ∀ i < mappedPages entered.memoryRegions, translatePage after.physical
      entered.bootstrapPagingStructurePtr (BitFields.alignUp 64 12 kernEnd + 4096 * i) =
    some (requestedMapping (managerAddr entered.memoryRegions + 4096 * i)
      (virtMapRead ||| virtMapWrite))
  nothingElse : ∀ v mapping, OutsideWindow v →
    translatePage after.physical entered.bootstrapPagingStructurePtr v = some mapping →
    pageNumber v < 512 ∨ (∃ ph ∈ loadedHeaders file, InSegment ph (pageNumber v)) ∨
      ∃ i < mappedPages entered.memoryRegions, pageNumber v =
        pageNumber (BitFields.alignUp 64 12 kernEnd + 4096 * i)
  unowned : managerFrames entered.memoryRegions ⊆ availableBytes entered.memoryRegions
  physmap : managerAddr entered.memoryRegions ≠ 0 → Paged.physmapOf after =
    some (physmapRegions (BitFields.alignUp 64 12 kernEnd) entered.memoryRegions)
  untouched : ∀ x, x ∉ grantedTo done.allocations .allocated →
    x ∉ managerFrames entered.memoryRegions → after.physical x = done.memory x

/-- The manager's frames are available memory. -/
theorem HandoverInvariant.managerFrames_available {table : RegionTable}
    (invariant : HandoverInvariant table) :
    managerFrames table ⊆ availableBytes table := by
  rw [managerFrames, mappedPages]
  split
  next =>
    rintro x ⟨low, high⟩
    omega
  next found => exact invariant.manager_available found

section Machine

variable {info : MultibootInfo} {file : Nat → UInt8} {s done : KickstartState}
  {bootinfo entered : SampoBootinfo} {loaded first reserved : RegionTable}
  {kickstartStart kickstartEnd kernelName addr kernelElfLocation kernelElfEnd fuel
    magic kernEnd : Nat} {serialInit hasLongmode : Bool} {k after : KernelState}

/-- The page tables that a kernel is entered with lie in blocks for page tables, and
a root in the first 2 MiB is mapped to itself. -/
theorem kickstartMain_tree
    (machine : BootMachine info file s kickstartStart kickstartEnd kernelName addr
      kernelElfLocation kernelElfEnd loaded first reserved)
    (enough : info.encode.length ≤ fuel)
    (ran : kickstartMain kickstartStart kickstartEnd kernelName fuel serialInit
      hasLongmode bootinfo addr magic s = some (some entered, done))
    (succeeded : ∀ outcome ∈ done.allocations, Succeeded outcome)
    (lowRoot : entered.bootstrapPagingStructurePtr < 0x200000) :
    ∃ tables space, tables [] = some entered.bootstrapPagingStructurePtr ∧
      PageTree done.memory tables space ∧
      tableBytes tables ⊆ grantedTo done.allocations .allocated ∧
      ∃ mapping, space (pageNumber entered.bootstrapPagingStructurePtr) = some mapping ∧
        mapping.frame = entered.bootstrapPagingStructurePtr := by
  obtain ⟨_, _, _, _, inputs, boots⟩ := kickstartMain_enters machine enough ran
  obtain ⟨tables, space, ledger, pointer⟩ := kickstartBoot_ledger inputs boots succeeded
  obtain ⟨image, _⟩ := kickstartBoot_kernelImage inputs boots succeeded
  have isRoot : tables [] = some entered.bootstrapPagingStructurePtr := by
    rw [pointer]
    exact ledger.pager.root
  have tree : PageTree done.memory tables space := ledger.pager.tree
  refine ⟨tables, space, isRoot, tree, ledger.owned, ?_⟩
  have page : pageNumber entered.bootstrapPagingStructurePtr =
      entered.bootstrapPagingStructurePtr / 4096 := by
    rw [pageNumber]
    omega
  refine ⟨_, (tree.translatePage_eq isRoot _).symm.trans (image.identity _ (by omega)), ?_⟩
  dsimp only
  rw [page, Nat.div_mul_cancel (tree.aligned isRoot)]

/-- As long as no mapping is lost and no block for the kernel is written, its segments
stay in place. -/
theorem kickstartMain_segments_kept {m : Memory}
    (machine : BootMachine info file s kickstartStart kickstartEnd kernelName addr
      kernelElfLocation kernelElfEnd loaded first reserved)
    (enough : info.encode.length ≤ fuel)
    (ran : kickstartMain kickstartStart kickstartEnd kernelName fuel serialInit
      hasLongmode bootinfo addr magic s = some (some entered, done))
    (succeeded : ∀ outcome ∈ done.allocations, Succeeded outcome)
    (keeps : ∀ v mapping, OutsideWindow v →
      translatePage done.memory entered.bootstrapPagingStructurePtr v = some mapping →
      translatePage m entered.bootstrapPagingStructurePtr v = some mapping)
    (untouched : ∀ x ∈ grantedTo done.allocations .kernel, m x = done.memory x)
    {ph : ProgramHeader} (isLoaded : ph ∈ loadedHeaders file)
    (outsidePages : ∀ page, InSegment ph page → OutsideSlot fractalMapPml4Idx page) :
    HoldsSegment file m entered.bootstrapPagingStructurePtr ph := by
  obtain ⟨walked, _, _, fresh, inputs, boots⟩ :=
    kickstartMain_enters machine enough ran
  obtain ⟨image, _⟩ := kickstartBoot_kernelImage inputs boots succeeded
  have owned := kickstartBoot_owns_memory inputs machine.map fresh boots succeeded
  obtain ⟨i, isIndex, rfl, isLoad⟩ := mem_loadedHeaders.mp isLoaded
  have placeable := inputs.loadable.segments i isIndex isLoad
  refine (image.segments _ isLoaded).congr fun offset below mapping translated => ?_
  have inSegment := placeable.inSegment below
  have outsideWindow := (outsideSlot_iff _).mp (outsidePages _ inSegment)
  refine ⟨keeps _ mapping outsideWindow translated, ?_⟩
  rcases owned.frames _ mapping translated with ⟨low, _⟩ | inBlocks
  · exact absurd low (Nat.not_lt.mpr (inSegment.high placeable))
  · exact untouched _ (inBlocks ⟨Nat.le_add_right _ _, by omega⟩)

/-- A kernel that Kickstart has entered with its page tables in the first 2 MiB comes
through `init_memory_manager`, if it can map the pages for it and the marks stay in the
bitmap. -/
theorem kickstartMain_installs
    (machine : BootMachine info file s kickstartStart kickstartEnd kernelName addr
      kernelElfLocation kernelElfEnd loaded first reserved)
    (enough : info.encode.length ≤ fuel)
    (ran : kickstartMain kickstartStart kickstartEnd kernelName fuel serialInit
      hasLongmode bootinfo addr magic s = some (some entered, done))
    (succeeded : ∀ outcome ∈ done.allocations, Succeeded outcome)
    (lowRoot : entered.bootstrapPagingStructurePtr < 0x200000)
    (sameTables : ∀ x ∈ grantedTo done.allocations .allocated,
      k.physical x = done.memory x)
    (root : k.root = entered.bootstrapPagingStructurePtr)
    (ready : ManagerReady kernEnd entered k) :
    CombinableTable entered.memoryRegions ∧
    ∃ tables space after space', PageTree k.physical tables space ∧
      tables [] = some k.root ∧
      tableBytes tables ⊆ grantedTo done.allocations .allocated ∧
      (∀ v, translatePage done.memory entered.bootstrapPagingStructurePtr v =
        space (pageNumber v)) ∧
      Paged.initMemoryManager kernEnd entered k = some after ∧
      ManagerInstalled kernEnd entered.memoryRegions tables space k after space' := by
  obtain ⟨walked, _, _, fresh, inputs, boots⟩ :=
    kickstartMain_enters machine enough ran
  have handed := kickstartBoot_combinableTable inputs machine.map
    (firmwareEntries_multiboot info.tags) boots succeeded
  have account := kickstartBoot_account inputs machine.map fresh boots succeeded
  obtain ⟨image, _⟩ := kickstartBoot_kernelImage inputs boots succeeded
  obtain ⟨tables, space, isRoot, tree, owned, itself⟩ :=
    kickstartMain_tree machine enough ran succeeded lowRoot
  have before := tree.translatePage_eq isRoot
  have zero : space 0 ≠ none := by
    have mapped := (before 0).symm.trans (image.identity 0 (by decide))
    rw [show pageNumber 0 = 0 by decide] at mapped
    rw [mapped]
    exact Option.some_ne_none _
  rw [← root] at isRoot itself
  have handedTree : PageTree k.physical tables space :=
    tree.congr fun x inTables => sameTables x (owned inTables)
  obtain ⟨after, space', init, installed⟩ := initMemoryManager_space handedTree isRoot
    root.symm (by omega) itself zero handed
    ((account.granted_unavailable .allocated).mono_left owned) ready
  exact ⟨handed, tables, space, after, space', handedTree, isRoot, owned, before, init,
    installed⟩

/-- Such a kernel has kept its image and everything else that the boot has set up, and
has taken its own pages from memory that nobody owned. -/
theorem kickstartMain_initMemoryManager
    (machine : BootMachine info file s kickstartStart kickstartEnd kernelName addr
      kernelElfLocation kernelElfEnd loaded first reserved)
    (enough : info.encode.length ≤ fuel)
    (ran : kickstartMain kickstartStart kickstartEnd kernelName fuel serialInit
      hasLongmode bootinfo addr magic s = some (some entered, done))
    (succeeded : ∀ outcome ∈ done.allocations, Succeeded outcome)
    (lowRoot : entered.bootstrapPagingStructurePtr < 0x200000)
    (memory : k.physical = done.memory)
    (root : k.root = entered.bootstrapPagingStructurePtr)
    (ready : ManagerReady kernEnd entered k) :
    ∃ after, Paged.initMemoryManager kernEnd entered k = some after ∧
      KernelInitialised file entered done kernEnd after := by
  obtain ⟨walked, _, _, fresh, inputs, boots⟩ :=
    kickstartMain_enters machine enough ran
  obtain ⟨image, _⟩ := kickstartBoot_kernelImage inputs boots succeeded
  have account := kickstartBoot_account inputs machine.map fresh boots succeeded
  obtain ⟨handed, tables, space, after, space', tree, isRoot, owned, before, init,
    installed⟩ := kickstartMain_installs machine enough ran succeeded lowRoot
      (fun _ _ => by rw [memory]) root ready
  have available := handed.managerFrames_available
  have now : ∀ v, OutsideWindow v →
      translatePage after.physical entered.bootstrapPagingStructurePtr v =
        space' (pageNumber v) := by
    intro v outsideWindow
    rw [← root]
    exact installed.tree.translatePage_eq ((outsideSlot_iff v).mpr outsideWindow)
  have keeps : ∀ v mapping, OutsideWindow v →
      translatePage done.memory entered.bootstrapPagingStructurePtr v = some mapping →
      translatePage after.physical entered.bootstrapPagingStructurePtr v =
        some mapping := by
    intro v mapping outsideWindow translated
    rw [now v outsideWindow]
    exact installed.run.keeps ((before v).symm.trans translated)
  have untouched : ∀ x, x ∉ grantedTo done.allocations .allocated →
      x ∉ managerFrames entered.memoryRegions → after.physical x = done.memory x := by
    intro x notTable notManager
    rw [installed.untouched x (fun inTables => notTable (owned inTables)) notManager,
      memory]
  refine ⟨after, init, installed.kernelEnd, ?_, ?_, ?_, ?_, available,
    installed.physmap, untouched⟩
  · intro v low
    have outsideWindow : OutsideWindow v := by
      rw [← outsideSlot_iff, OutsideSlot, fractalMapPml4Idx]
      omega
    exact keeps v _ outsideWindow (image.identity v low)
  · intro ph isLoaded
    refine kickstartMain_segments_kept machine enough ran succeeded keeps
      (fun x isKernel => untouched x ?_ fun inFrames => ?_) isLoaded
    · exact Set.disjoint_left.mp (account.granted_disjoint
        (show MemoryRegionType.kernel ≠ .allocated by decide)) isKernel
    · exact Set.disjoint_left.mp (account.granted_unavailable .kernel) isKernel
        (available inFrames)
  · intro i below
    have outsideWindow : OutsideWindow (BitFields.alignUp 64 12 kernEnd + 4096 * i) := by
      have inCount : i < managerPageCount entered.memoryRegions := by
        rw [mappedPages] at below
        split at below
        · exact absurd below (Nat.not_lt_zero i)
        · exact below
      have wrapped := ready.outside i inCount
      rw [OutsideWindow, tableIndex] at wrapped ⊢
      omega
    rw [now _ outsideWindow]
    exact installed.run.added i below
  · intro v mapping outsideWindow mapped
    rw [now v outsideWindow] at mapped
    rcases installed.run.cases mapped with old | ⟨i, below, page, _⟩
    · rcases image.nothingElse v mapping ((before v).trans old) with low | inSegment
      · exact Or.inl low
      · exact Or.inr (Or.inl inSegment)
    · exact Or.inr (Or.inr ⟨i, below, page⟩)

/-- From the firmware to the kernel: of a memory map of whole pages, the physmap that the
kernel then finds through its page tables describes what the firmware offered. -/
theorem kickstartMain_physmap_firmwareKept
    (machine : BootMachine info file s kickstartStart kickstartEnd kernelName addr
      kernelElfLocation kernelElfEnd loaded first reserved)
    (whole : WholePageMap (info.tags.flatMap MultibootTag.firmwareEntries))
    (enough : info.encode.length ≤ fuel)
    (ran : kickstartMain kickstartStart kickstartEnd kernelName fuel serialInit
      hasLongmode bootinfo addr magic s = some (some entered, done))
    (succeeded : ∀ outcome ∈ done.allocations, Succeeded outcome)
    (lowRoot : entered.bootstrapPagingStructurePtr < 0x200000)
    (memory : k.physical = done.memory)
    (root : k.root = entered.bootstrapPagingStructurePtr)
    (ready : ManagerReady kernEnd entered k)
    (found : managerAddr entered.memoryRegions ≠ 0) :
    ∃ after regions, Paged.initMemoryManager kernEnd entered k = some after ∧
      Paged.physmapOf after = some regions ∧
      FirmwareKept (info.tags.flatMap MultibootTag.firmwareEntries)
        (grantedTo done.allocations .kernel) regions ∧
      PhysmapInvariant regions := by
  obtain ⟨after, init, initialised⟩ := kickstartMain_initMemoryManager machine enough ran
    succeeded lowRoot memory root ready
  obtain ⟨kept, invariant⟩ := kickstartMain_physmapRegions_kept machine whole enough ran
    succeeded (BitFields.alignUp 64 12 kernEnd)
  exact ⟨after, _, init, initialised.physmap found, kept, invariant⟩

end Machine

/-- A kernel that finds its page tables at 0x108000, before its memory is filled in. -/
def handedKernel : KernelState where
  physical := fun _ => 0
  root := 0x108000
  virtual := fun _ => 0
  kernelEndAddr := 0
  physmemLen := 0
  physmap := 0

/-- What Kickstart hands over on the small machine. -/
def halfMebibyteBootinfo : SampoBootinfo where
  memoryRegions :=
    [⟨0x100000, 0x108000, .allocated⟩, ⟨0x108000, 0x10C000, .allocated⟩,
      ⟨0x10C000, 0x10D000, .kernel⟩, ⟨0x10D000, 0x10E000, .allocated⟩,
      ⟨0x10E000, 0x110000, .available⟩, ⟨0x110000, 0x111000, .allocated⟩,
      ⟨0x111000, 0x180000, .available⟩]
  bootstrapPagingStructurePtr := 0x108000

theorem halfMebibyte_pages :
    ∀ i < managerPageCount halfMebibyteBootinfo.memoryRegions,
      OutsideWindow ((BitFields.alignUp 64 12 0x200002 + 4096 * i) % 2 ^ 64) ∧
        Canonical ((BitFields.alignUp 64 12 0x200002 + 4096 * i) % 2 ^ 64) := by
  rw [show managerPageCount halfMebibyteBootinfo.memoryRegions = 2 by decide]
  decide

theorem halfMebibyte_inBitmap : MarksInBitmap halfMebibyteBootinfo.memoryRegions :=
  marksMiss_of_lt (fun _ inside => inside) 0x112000 (by decide) (by decide)

/-- The small kernel can set up its manager behind the page of its segment. -/
theorem halfMebibyte_ready {k : KernelState} {tables : Tables} {space : AddressSpace}
    (tree : PageTree k.physical tables space) (isRoot : tables [] = some k.root)
    (root : k.root = 0x108000) (fresh : k.physmemLen = 0)
    (itself : ∃ mapping, space (pageNumber k.root) = some mapping ∧
      mapping.frame = k.root)
    (free : ∀ i < 2, (tables [0, 0, 1]).isSome ∧ space (513 + i) = none) :
    ManagerReady 0x200002 halfMebibyteBootinfo k := by
  have pages : managerPageCount halfMebibyteBootinfo.memoryRegions = 2 := by decide
  have addresses : ∀ i < 2,
      (BitFields.alignUp 64 12 0x200002 + 4096 * i) % 2 ^ 64 = 0x201000 + 4096 * i := by
    intro i below
    rw [show BitFields.alignUp 64 12 0x200002 = 0x201000 by decide]
    omega
  have maps : ∃ mapped, ManagerMapped 0x200002 halfMebibyteBootinfo k 0x201000 mapped :=
    managerMapped_of_free tree isRoot root.symm (by omega) itself (by decide)
      fun i below => by
        have inTwo : i < 2 := pages ▸ below
        refine ⟨(halfMebibyte_pages i below).1, ?_⟩
        have path : pageTablePath (0x201000 + 4096 * i) = [0, 0, 1] := by
          simp only [pageTablePath, tableIndex, List.cons.injEq, and_true]
          omega
        have page : pageNumber (0x201000 + 4096 * i) = 513 + i := by
          rw [pageNumber]
          omega
        rw [addresses i inTwo, path, page]
        exact free i inTwo
  obtain ⟨mapped, manager⟩ := maps
  exact ⟨fresh, fun i below => (halfMebibyte_pages i below).1,
    fun i below => (halfMebibyte_pages i below).2,
    fun _ => ⟨_, mapped, manager, by decide⟩, halfMebibyte_inBitmap⟩

/-- Behind the page of its segment the small kernel has free pages. -/
theorem oneSegment_free {m : Memory} {root : Nat} {tables : Tables}
    {space : AddressSpace} (tree : PageTree m tables space)
    (isRoot : tables [] = some root) (image : KernelImage oneSegmentFile m root) {i : Nat}
    (below : i < 2) : (tables [0, 0, 1]).isSome ∧ space (513 + i) = none := by
  have walked := tree.translatePage_eq isRoot
  have headers : loadedHeaders oneSegmentFile =
      [{ type := ptLoad, flags := pfR ||| pfX, fOff := 120, vaddr := 0x200000,
         fileLen := 1, memLen := 2 }] := by decide
  constructor
  · by_contra missing
    rw [Option.not_isSome_iff_eq_none] at missing
    have unmapped : space 512 = none := tree.unmapped (by decide) missing
      (show pagePath 512 = [0, 0, 1] ++ [0] by decide)
    obtain ⟨mapping, mapped, _⟩ := image.segments
      { type := ptLoad, flags := pfR ||| pfX, fOff := 120, vaddr := 0x200000,
        fileLen := 1, memLen := 2 }
      (by rw [headers]; exact List.mem_singleton_self _) 0 (by decide)
    rw [walked] at mapped
    have other : space 512 = some mapping := mapped
    rw [unmapped] at other
    cases other
  · by_contra mapped
    obtain ⟨mapping, isMapped⟩ := Option.ne_none_iff_exists'.mp mapped
    have page : pageNumber (4096 * (513 + i)) = 513 + i := by
      rw [pageNumber]
      omega
    rw [← page, ← walked] at isMapped
    rcases image.nothingElse _ mapping isMapped with low | ⟨ph, isLoaded, j, inPages, same⟩
    · omega
    · rw [headers, List.mem_singleton] at isLoaded
      subst isLoaded
      have onePage : pageCount 2 = 1 := by decide
      dsimp only at inPages same
      rw [page, pageNumber] at same
      omega

/-- The small machine is entered with a tree of page tables in which there is room for
the manager. -/
theorem halfMebibyteMachine_tree : ∃ done tables space,
    kickstartMain 0x100000 0x108000 0x9060 96 true true ⟨[], 0⟩ 0x9000
        multiboot2BootloaderMagic halfMebibyteMachine =
          some (some halfMebibyteBootinfo, done) ∧
      (∀ outcome ∈ done.allocations, Succeeded outcome) ∧
      PageTree done.memory tables space ∧ tables [] = some 0x108000 ∧
      tableBytes tables ⊆ grantedTo done.allocations .allocated ∧
      (∃ mapping, space (pageNumber 0x108000) = some mapping ∧
        mapping.frame = 0x108000) ∧
      ∀ i < 2, (tables [0, 0, 1]).isSome ∧ space (513 + i) = none := by
  obtain ⟨entered, done, ran, succeeded, history⟩ := halfMebibyteMachine_enters
  obtain ⟨regions, root⟩ := halfMebibyteMachine_hands_over ran succeeded history
  obtain rfl : entered = halfMebibyteBootinfo := by
    rw [halfMebibyteBootinfo, ← regions, ← root]
  obtain ⟨_, _, _, _, inputs, boots⟩ :=
    kickstartMain_enters halfMebibyteMachine_boots (by decide +kernel) ran
  obtain ⟨image, _⟩ := kickstartBoot_kernelImage inputs boots succeeded
  obtain ⟨tables, space, isRoot, tree, owned, itself⟩ := kickstartMain_tree
    halfMebibyteMachine_boots (by decide +kernel) ran succeeded (by decide)
  exact ⟨done, tables, space, ran, succeeded, tree, isRoot, owned, itself,
    fun i below => oneSegment_free tree isRoot image below⟩

theorem kickstartMain_initMemoryManager_halfMebibyte : ∃ entered done after,
    kickstartMain 0x100000 0x108000 0x9060 96 true true ⟨[], 0⟩ 0x9000
        multiboot2BootloaderMagic halfMebibyteMachine = some (some entered, done) ∧
      Paged.initMemoryManager 0x200002 entered
        { handedKernel with physical := done.memory } = some after ∧
      KernelInitialised oneSegmentFile entered done 0x200002 after := by
  obtain ⟨done, tables, space, ran, succeeded, tree, isRoot, _, itself, free⟩ :=
    halfMebibyteMachine_tree
  have ready : ManagerReady 0x200002 halfMebibyteBootinfo
      { handedKernel with physical := done.memory } :=
    halfMebibyte_ready tree isRoot rfl rfl itself free
  obtain ⟨after, init, initialised⟩ := kickstartMain_initMemoryManager
    halfMebibyteMachine_boots (by decide +kernel) ran succeeded (by decide) rfl rfl ready
  exact ⟨_, done, after, ran, init, initialised⟩

/-- From half a mebibyte the kernel is left with all but the page of its segment. -/
theorem kickstartMain_physmap_halfMebibyte : ∃ entered done after regions,
    kickstartMain 0x100000 0x108000 0x9060 96 true true ⟨[], 0⟩ 0x9000
        multiboot2BootloaderMagic halfMebibyteMachine = some (some entered, done) ∧
      Paged.initMemoryManager 0x200002 entered
        { handedKernel with physical := done.memory } = some after ∧
      Paged.physmapOf after = some regions ∧
      FirmwareKept [⟨.available, 0x100000, 0x180000⟩]
        (grantedTo done.allocations .kernel) regions ∧
      PhysmapInvariant regions := by
  obtain ⟨done, tables, space, ran, succeeded, tree, isRoot, _, itself, free⟩ :=
    halfMebibyteMachine_tree
  have ready : ManagerReady 0x200002 halfMebibyteBootinfo
      { handedKernel with physical := done.memory } :=
    halfMebibyte_ready tree isRoot rfl rfl itself free
  have entries : halfMebibyteInfo.tags.flatMap MultibootTag.firmwareEntries =
      [⟨.available, 0x100000, 0x180000⟩] := by decide
  obtain ⟨after, regions, init, read, kept⟩ := kickstartMain_physmap_firmwareKept
    halfMebibyteMachine_boots (by rw [entries]; exact ⟨by decide, by simp⟩)
    (by decide +kernel) ran succeeded (by decide) rfl rfl ready (by decide)
  rw [entries] at kept
  exact ⟨_, done, after, regions, ran, init, read, kept⟩

end SampoOS
