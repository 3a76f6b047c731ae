/-
Module: SampoOS.Handover.KernelStart
Purpose: The whole way from enter_64bit_kernel through _start to kernel_arch_init, which
  reads the boot information that Kickstart has left.
Trusted boundary: the processor, as far as LongMode describes it; Kickstart's code, stack
  and static variables lie in its image.
Main exports: StartPlaced, ArchInitCalled, kickstartMain_callsKernelArchInit
-/
import SampoOS.Handover.EnterKernel
import SampoOS.Kernel.Start

namespace SampoOS

open ByteMemory
open Paging
open Kickstart Kernel
open LongMode (Code Cpu PlacedAt)
open RecordArray (Place)

/-- The entry point of an ELF program is `_start`, whose code lies in an executable
segment, and the 8 bytes below the top of its stack lie in one that can be written. -/
structure StartPlaced (file : Nat → UInt8) (symbols : StartSymbols) (view : Code)
    (stop : Nat) (writeProtect : Bool) : Prop where
  placed : PlacedAt view (ElfImage.entry file) (start symbols) stop
  code : ∃ ph ∈ loadedHeaders file, ph.flags &&& pfX ≠ 0 ∧
    ph.vaddr ≤ ElfImage.entry file ∧ stop ≤ ph.vaddr + 4096 * pageCount ph.memLen
  stack : ∃ ph ∈ loadedHeaders file, segmentAllows ph writeProtect .write = true ∧
    ph.vaddr + 8 ≤ symbols.stackTop ∧
    symbols.stackTop ≤ ph.vaddr + 4096 * pageCount ph.memLen
  aligned : 8 ∣ symbols.stackTop
  high : symbols.stackTop < 2 ^ 64

/-- `kernel_arch_init` is entered in 64-bit mode, with a pointer through which it reads
what the boot has handed over; only the kernel's own memory has been written. -/
structure ArchInitCalled (symbols : StartSymbols) (info : Nat) (entered : SampoBootinfo)
    (done : KickstartState) (c c' : Cpu) : Prop where
  long : c'.longMode = true
  wide : c'.wide = true
  interrupts : c'.interrupts = false
  rip : c'.rip = symbols.kernelArchInit
  argument : c'.register .di = info
  root : entryFrame c'.cr3 = entered.bootstrapPagingStructurePtr
  space : ∀ v, translatePage c'.memory (entryFrame c'.cr3) v =
    translatePage done.memory entered.bootstrapPagingStructurePtr v
  reads : ∀ k : KernelState, k.physical = c'.memory → k.root = entryFrame c'.cr3 →
    readBootinfo k info = some entered
  memory : ∀ x ∉ grantedTo done.allocations .kernel, c'.memory x = c.memory x

section Machine

variable {info : MultibootInfo} {file : Nat → UInt8} {s done : KickstartState}
  {bootinfo entered : SampoBootinfo} {loaded first reserved : RegionTable}
  {kickstartStart kickstartEnd kernelName addr kernelElfLocation kernelElfEnd fuel
    magic stop : Nat} {serialInit hasLongmode : Bool} {c : Cpu} {code view : Code}
  {symbols : EnterSymbols} {startSymbols : StartSymbols} {base : ByteMemory.Memory}
  {place : Place memoryRegionLayout 32}

section Boot

variable (machine : BootMachine info file s kickstartStart kickstartEnd kernelName addr
    kernelElfLocation kernelElfEnd loaded first reserved)
  (enough : info.encode.length ≤ fuel)
  (ran : kickstartMain kickstartStart kickstartEnd kernelName fuel serialInit
    hasLongmode bootinfo addr magic s = some (some entered, done))
  (succeeded : ∀ outcome ∈ done.allocations, Succeeded outcome)

include machine enough ran succeeded

section Segments

variable (long : c.longMode = true) (noExecute : c.noExecuteEnable = true)
  (kernel : KernelImage file c.memory (entryFrame c.cr3))
  (same : ∀ v, translatePage c.memory (entryFrame c.cr3) v =
    translatePage done.memory entered.bootstrapPagingStructurePtr v)

include long noExecute kernel same

/-- What is loaded for `_start` is what the processor fetches there. -/
theorem StartPlaced.sees {writeProtect : Bool}
    (startPlaced : StartPlaced file startSymbols view stop writeProtect)
    (startLoaded : ∀ v, ElfImage.entry file ≤ v → v < stop → ∀ mapping,
      translatePage done.memory entered.bootstrapPagingStructurePtr v = some mapping →
        code (mapping.frame + v % 4096) = view v) :
    LongMode.Sees code view (ElfImage.entry file) stop c := by
  intro v above below
  obtain ⟨ph, isLoaded, executable, start, behind⟩ := startPlaced.code
  obtain ⟨placeable, _⟩ :=
    kickstartMain_segment_frames machine enough ran succeeded isLoaded
  have inSegment : v - ph.vaddr < 4096 * pageCount ph.memLen := by omega
  obtain ⟨mapping, translated, _, accesses⟩ :=
    (kernel.segments ph isLoaded).physical long noExecute placeable inSegment
  have aligned := placeable.aligned
  have sum : ph.vaddr + (v - ph.vaddr) = v := by omega
  have offset : (v - ph.vaddr) % 4096 = v % 4096 := by omega
  rw [sum] at translated accesses
  rw [accesses, segmentAllows, if_pos (decide_eq_true executable), Option.bind_some,
    offset]
  exact startLoaded v above below mapping (same v ▸ translated)

/-- The top of the stack is in a block for the kernel, where it is written and read. -/
theorem StartPlaced.reaches_stack
    (startPlaced : StartPlaced file startSymbols view stop c.writeProtect) :
    8 ≤ startSymbols.stackTop ∧ ∃ frame,
      c.physical .write (startSymbols.stackTop - 8) = some frame ∧
      c.physical .read (startSymbols.stackTop - 8) = some frame ∧
      Set.Ico frame (frame + 8) ⊆ grantedTo done.allocations .kernel := by
  obtain ⟨ph, isLoaded, writable, aboveSegment, inSegment⟩ := startPlaced.stack
  obtain ⟨placeable, frames⟩ :=
    kickstartMain_segment_frames machine enough ran succeeded isLoaded
  have alignedSegment := placeable.aligned
  have alignedStack := startPlaced.aligned
  have belowEnd : startSymbols.stackTop - 8 - ph.vaddr < 4096 * pageCount ph.memLen := by
    omega
  obtain ⟨mapping, translated, _, accesses⟩ :=
    (kernel.segments ph isLoaded).physical long noExecute placeable belowEnd
  have inFrames := frames _ belowEnd mapping (same _ ▸ translated)
  have sum : ph.vaddr + (startSymbols.stackTop - 8 - ph.vaddr) =
      startSymbols.stackTop - 8 := by omega
  rw [sum] at accesses
  refine ⟨by omega, _, (accesses .write).trans (if_pos writable),
    (accesses .read).trans (if_pos rfl), Set.Subset.trans ?_ inFrames⟩
  exact Set.Ico_subset_Ico (Nat.le_add_right _ _) (by omega)

end Segments

end Boot

/-- From `enter_64bit_kernel` the processor comes to `kernel_arch_init`, which reads the
boot information that `kickstart_main` has filled in. -/
theorem kickstartMain_callsKernelArchInit
    (machine : BootMachine info file s kickstartStart kickstartEnd kernelName addr
      kernelElfLocation kernelElfEnd loaded first reserved)
    (enough : info.encode.length ≤ fuel)
    (ran : kickstartMain kickstartStart kickstartEnd kernelName fuel serialInit
      hasLongmode bootinfo addr magic s = some (some entered, done))
    (succeeded : ∀ outcome ∈ done.allocations, Succeeded outcome)
    (imageKept : Disjoint (availableBytes reserved) (Set.Ico kickstartStart kickstartEnd))
    (infoPlaced : BootinfoPlace place symbols.bootinfo kickstartStart kickstartEnd)
    (image : ∀ x ∉ Set.Ico kickstartStart kickstartEnd, base x = done.memory x)
    (memory : c.memory = handedMemory place symbols.bootinfo
      (bootArrayCalls (info.tags.flatMap MultibootTag.firmwareEntries) kickstartStart
        kickstartEnd kernelElfLocation kernelElfEnd done.allocations)
      entered.bootstrapPagingStructurePtr base)
    (placed : EnterPlaced symbols code c.memory kickstartStart kickstartEnd)
    (root : loadLe c.memory symbols.topPageStructure 4 = done.topPageStructure)
    (entry : loadLe c.memory symbols.programEntryPoint 8 = done.programEntryPoint)
    (isStart : c.rip = symbols.enter64bitKernel) (isProtected : c.cr0.testBit 0 = true)
    (unpaged : c.paging = false) (narrow : c.wide = false)
    (startPlaced : StartPlaced file startSymbols view stop c.writeProtect)
    (startLoaded : ∀ v, ElfImage.entry file ≤ v → v < stop → ∀ mapping,
      translatePage done.memory entered.bootstrapPagingStructurePtr v = some mapping →
        code (mapping.frame + v % 4096) = view v) :
    ∃ c', LongMode.run code 25 c = some c' ∧
      ArchInitCalled startSymbols symbols.bootinfo entered done c c' := by
  obtain ⟨walked, _, _, fresh, inputs, boots⟩ := kickstartMain_enters machine enough ran
  have account := kickstartBoot_account inputs machine.map fresh boots succeeded
  have imageEnd := inputs.imageEnd
  have granted : ∀ {type x}, x ∈ grantedTo done.allocations type →
      x ∉ Set.Ico kickstartStart kickstartEnd :=
    kickstartMain_granted_outside machine enough ran succeeded imageKept
  have keepsTables := fun m =>
    kickstartMain_keepsTables (m := m) machine enough ran succeeded
  obtain ⟨holds, outsideImage⟩ := kickstartMain_holdsBootinfo machine enough ran succeeded
    infoPlaced memory
  obtain ⟨c₁, steps, inLongMode, wide, rip, isBootinfo, frame, kernel, _⟩ :=
    kickstartMain_inLongMode machine enough ran succeeded imageKept
      (fun x outside => (outsideImage x outside).trans (image x outside)) placed root entry
      isStart isProtected unpaged narrow
  have same : ∀ v, translatePage c₁.memory (entryFrame c₁.cr3) v =
      translatePage done.memory entered.bootstrapPagingStructurePtr v := by
    intro v
    rw [frame]
    refine keepsTables _ (fun x inTables => ?_) v
    rw [inLongMode.memory, outsideImage x (granted inTables), image x (granted inTables)]
  have sees : LongMode.Sees code view (ElfImage.entry file) stop c₁ :=
    StartPlaced.sees machine enough ran succeeded inLongMode.long inLongMode.noExecute
      kernel same startPlaced startLoaded
  rw [← inLongMode.writeProtect] at startPlaced
  obtain ⟨notEmpty, frame₁, writes, reads, stackFrame⟩ :=
    StartPlaced.reaches_stack machine enough ran succeeded inLongMode.long
      inLongMode.noExecute kernel same startPlaced
  -- What the kernel writes into its own blocks leaves the page tables as they are.
  have kept : ∀ m : ByteMemory.Memory,
      (∀ x ∉ grantedTo done.allocations .kernel, m x = c₁.memory x) → ∀ v,
        translatePage m (entryFrame c₁.cr3) v =
          translatePage c₁.memory (entryFrame c₁.cr3) v := by
    intro m outside v
    rw [same, frame]
    refine keepsTables m (fun x inTables => ?_) v
    have notKernel := Set.disjoint_left.mp (account.granted_disjoint
      (show MemoryRegionType.allocated ≠ .kernel by decide)) inTables
    rw [outside x notKernel, inLongMode.memory, outsideImage x (granted inTables),
      image x (granted inTables)]
  have argument : c₁.register .ax < 2 ^ 64 := by
    have inImage := infoPlaced.infoInside (show symbols.bootinfo ∈
      Set.Ico symbols.bootinfo (symbols.bootinfo + 24) from ⟨Nat.le_refl _, by omega⟩)
    have below := inImage.2
    rw [isBootinfo]
    omega
  obtain ⟨c₂, moreSteps, called⟩ := start_runs inLongMode.long sees
    (rip ▸ startPlaced.placed) (Nat.le_of_eq rip.symm) (Nat.le_refl stop)
    startPlaced.aligned notEmpty startPlaced.high argument writes reads
    (fun m outside v => kept m (fun x notKernel =>
      outside x fun inFrame => notKernel (stackFrame inFrame)) v)
  have onlyKernel : ∀ x ∉ grantedTo done.allocations .kernel, c₂.memory x = c₁.memory x :=
    fun x notKernel => called.memory x fun inFrame => notKernel (stackFrame inFrame)
  have holds₂ : HoldsBootinfo place symbols.bootinfo entered c₂.memory := by
    refine holds.congr infoPlaced fun x inImage => ?_
    rw [onlyKernel x fun inKernel => granted inKernel inImage, inLongMode.memory]
  refine ⟨c₂, ?_, ?_, called.wide.trans wide, called.interrupts, called.rip,
    called.argument.trans isBootinfo, called.space.cr3 ▸ frame,
    fun v => (called.space.tables v).trans (same v), ?_, ?_⟩
  · rw [LongMode.run_add 19 6, steps, Option.bind_some, moreSteps]
  · have long := inLongMode.long
    rw [Cpu.longMode, Cpu.paging, Cpu.longEnable] at long ⊢
    rw [called.space.cr0, called.space.efer, long]
  · intro k physical isRoot
    rw [← physical] at holds₂
    refine holds₂.read infoPlaced inputs.imageEnd fun v inFirst =>
      ⟨{ frame := pageNumber v * 4096, writable := true, executable := true }, ?_, rfl⟩
    rw [physical, isRoot, called.space.tables]
    exact kernel.identity v inFirst
  · intro x notKernel
    rw [onlyKernel x notKernel, inLongMode.memory]

end Machine

/-! ## The small machine -/

/-- The symbols of the small kernel, whose stack ends with its only page. -/
def halfMebibyteStart : StartSymbols where
  stackTop := 0x201000
  kernelArchInit := 0x200800

/-- `_start` of the small kernel, at an address. -/
def halfMebibyteStartCode (addr : Nat) : Code :=
  LongMode.assemble addr ((start halfMebibyteStart).zip [10, 3, 1, 1, 1, 5])

theorem halfMebibyteStart_placed {writeProtect : Bool} (clear : writeProtect = false) :
    StartPlaced oneSegmentFile halfMebibyteStart (halfMebibyteStartCode 0x200000) 0x200015
      writeProtect where
  placed := by
    have isStart : ElfImage.entry oneSegmentFile = 0x200000 := by decide
    rw [isStart]
    exact LongMode.assemble_placed (by decide)
  code := ⟨_, mem_loadedHeaders.mpr ⟨0, by decide, rfl, by decide⟩, by decide, by decide,
    by decide⟩
  stack := by
    subst clear
    exact ⟨_, mem_loadedHeaders.mpr ⟨0, by decide, rfl, by decide⟩, by decide, by decide,
      by decide⟩
  aligned := by decide
  high := by decide

/-- The code of the small machine, with its kernel's page at 0x10C000. -/
def halfMebibyteAllCode : Code := fun x =>
  if x < 0x10C000 then halfMebibyteCode x else halfMebibyteStartCode 0x10C000 x

/-- The only page for the kernel. -/
theorem halfMebibyte_kernelFrame {history : List (Option MemoryRegion)} {frame : Nat}
    (isHistory : history = [some ⟨0x108000, 0x10C000, .allocated⟩,
      some ⟨0x10C000, 0x10D000, .kernel⟩, some ⟨0x10D000, 0x10E000, .allocated⟩])
    (inKernel : Set.Ico frame (frame + 4096) ⊆ grantedTo history .kernel) :
    frame = 0x10C000 := by
  have only : grantedTo history .kernel ⊆ Set.Ico 0x10C000 0x10D000 := by
    rintro x ⟨block, member, isType, inBlock⟩
    rw [mem_grantedBlocks, isHistory] at member
    simp only [List.mem_cons, Option.some.injEq, List.not_mem_nil, or_false] at member
    rcases member with rfl | rfl | rfl
    · cases isType
    · exact inBlock
    · cases isType
  have start := only (inKernel ⟨Nat.le_refl frame, by omega⟩)
  have stop := only (inKernel (show frame + 4095 ∈ Set.Ico frame (frame + 4096) from
    ⟨by omega, by omega⟩))
  have above := start.1
  have below := stop.2
  omega

/-- The small machine comes to its kernel's `kernel_arch_init`. -/
theorem kickstartMain_callsKernelArchInit_halfMebibyte : ∃ done c c',
    kickstartMain 0x100000 0x108000 0x9060 96 true true ⟨[], 0⟩ 0x9000
        multiboot2BootloaderMagic halfMebibyteMachine =
          some (some halfMebibyteBootinfo, done) ∧
      LongMode.run halfMebibyteAllCode 25 (halfMebibyteCpu c) = some c' ∧
      ArchInitCalled halfMebibyteStart 0x107100 halfMebibyteBootinfo done
        (halfMebibyteCpu c) c' := by
  obtain ⟨entered, done, ran, succeeded, history⟩ := halfMebibyteMachine_enters
  obtain ⟨regions, root⟩ := halfMebibyteMachine_hands_over ran succeeded history
  obtain rfl : entered = halfMebibyteBootinfo := by
    rw [halfMebibyteBootinfo, ← regions, ← root]
  let memory := handedMemory halfMebibyteArray 0x107100
    (bootArrayCalls (halfMebibyteInfo.tags.flatMap MultibootTag.firmwareEntries) 0x100000
      0x108000 0x110000 0x110079 done.allocations) 0x108000 (withStatics done.memory)
  obtain ⟨_, outside⟩ := kickstartMain_holdsBootinfo (m := memory)
    halfMebibyteMachine_boots (by decide +kernel) ran succeeded
    (halfMebibyteArray_placed (Nat.le_refl 0x107118)) rfl
  have statics : HoldsBytes memory 0x107200 halfMebibyteStatics := by
    intro i below
    rw [← withStatics_holds done.memory i below]
    exact outside _ fun inArray => absurd inArray.2 (by omega)
  obtain ⟨isRoot, isEntry⟩ := halfMebibyteStatics_values ran succeeded statics
  have placed : EnterPlaced halfMebibyteSymbols halfMebibyteAllCode memory 0x100000
      0x108000 :=
    halfMebibyteCode_placed (fun x _ below => (if_pos (by omega)).symm) statics
  have loaded : ∀ i < 21, halfMebibyteStartCode 0x10C000 (0x10C000 + i) =
      halfMebibyteStartCode 0x200000 (0x200000 + i) := by decide
  have startLoaded : ∀ v, ElfImage.entry oneSegmentFile ≤ v → v < 0x200015 → ∀ mapping,
      translatePage done.memory 0x108000 v = some mapping →
        halfMebibyteAllCode (mapping.frame + v % 4096) =
          halfMebibyteStartCode 0x200000 v := by
    intro v above below mapping translated
    have isStart : ElfImage.entry oneSegmentFile = 0x200000 := by decide
    rw [isStart] at above
    obtain ⟨i, rfl⟩ := Nat.exists_eq_add_of_le above
    have short : i < 21 := by omega
    obtain ⟨_, frames⟩ := kickstartMain_segment_frames halfMebibyteMachine_boots
      (by decide +kernel) ran succeeded
      (mem_loadedHeaders.mpr ⟨0, by decide, oneSegmentFile_programHeader, rfl⟩)
    have onePage : 4096 * pageCount 2 = 4096 := by decide
    have frame := halfMebibyte_kernelFrame history
      (frames i (Nat.lt_of_lt_of_eq (by omega) onePage.symm) mapping translated)
    have offset : (0x200000 + i) % 4096 = i := by omega
    rw [frame, offset, ← loaded i short]
    exact if_neg (by omega)
  obtain ⟨c', steps, called⟩ := kickstartMain_callsKernelArchInit
    (c := halfMebibyteCpu memory) halfMebibyteMachine_boots (by decide +kernel) ran
    succeeded
    (disjoint_availableBytes (by decide)) (halfMebibyteArray_placed (by decide))
    (fun x outside => if_neg outside) rfl
    placed isRoot isEntry rfl (show Nat.testBit 1 0 = true by decide)
    (show Nat.testBit 1 31 = false by decide) rfl
    (halfMebibyteStart_placed (show Nat.testBit 1 16 = false by decide)) startLoaded
  exact ⟨done, memory, c', ran, steps, called⟩

end SampoOS
