/-
Module: SampoOS.Handover.EnterKernel
Purpose: The processor's way from enter_64bit_kernel into the kernel that a boot has
  loaded, and what the kernel's accesses go to.
Trusted boundary: the processor, as far as LongMode describes it; Kickstart's code and
  static variables lie in its image.
Main exports: segmentAllows, SegmentSeen, KernelEntered, kickstartMain_entersKernel
-/
import SampoOS.Handover.BootinfoMemory
import SampoOS.Kickstart.EnterLongMode

namespace SampoOS

open ByteMemory
open Paging
open Kickstart
open LongMode (Access Code Cpu assemble)

/-! ## What the kernel sees -/

/-- What a program header allows, and what is allowed beyond it where pages are not
write-protected from the kernel. -/
def segmentAllows (ph : ProgramHeader) (writeProtect : Bool) : Access → Bool
  | .fetch => decide (ph.flags &&& pfX ≠ 0)
  | .read => true
  | .write => decide (ph.flags &&& pfW ≠ 0) || !writeProtect

/-- The accesses to a segment that are allowed go to the bytes of the file and the
zeros behind them, and the others fault. -/
def SegmentSeen (file : Nat → UInt8) (ph : ProgramHeader) (c : Cpu) : Prop :=
  ∀ k < 4096 * pageCount ph.memLen, ∃ p,
    c.memory p = (if k < ph.fileLen then file (ph.fOff + k) else 0) ∧
    ∀ access, c.physical access (ph.vaddr + k) =
      if segmentAllows ph c.writeProtect access then some p else none

/-- The processor is at the kernel's entry point in 64-bit mode, has the boot
information in `rax`, and reaches its first 2 MiB, the kernel's segments and nothing
else. -/
structure KernelEntered (file : Nat → UInt8) (bootinfoAddr : Nat) (c : Cpu) : Prop where
  long : c.longMode = true
  wide : c.wide = true
  rip : c.rip = ElfImage.entry file
  bootinfo : c.register .ax = bootinfoAddr
  flat : c.Flat 0 0x200000
  segments : ∀ ph ∈ loadedHeaders file, SegmentSeen file ph c
  nothingElse : ∀ access v p, c.physical access v = some p →
    pageNumber v < 512 ∨ ∃ ph ∈ loadedHeaders file, InSegment ph (pageNumber v)

/-- Every byte of a segment has a canonical address. -/
theorem Kickstart.PlaceableSegment.canonical_byte {ph : ProgramHeader}
    (placeable : PlaceableSegment ph) {k : Nat} (below : k < 4096 * pageCount ph.memLen) :
    Canonical (ph.vaddr + k) := by
  have aligned := placeable.aligned
  have noWrap := placeable.noWrap
  have onPage := placeable.canonical (k / 4096) (by omega)
  rw [Canonical] at onPage ⊢
  omega

section Accesses

variable {file : Nat → UInt8} {c : Cpu} {ph : ProgramHeader}

/-- In long mode, with no-execute pages, what the page tables say is what accesses do. -/
theorem Kickstart.HoldsSegment.physical (long : c.longMode = true)
    (noExecute : c.noExecuteEnable = true)
    (holds : HoldsSegment file c.memory (entryFrame c.cr3) ph)
    (placeable : PlaceableSegment ph) {k : Nat} (below : k < 4096 * pageCount ph.memLen) :
    ∃ mapping,
      translatePage c.memory (entryFrame c.cr3) (ph.vaddr + k) = some mapping ∧
      c.memory (mapping.frame + k % 4096) =
        (if k < ph.fileLen then file (ph.fOff + k) else 0) ∧
      ∀ access, c.physical access (ph.vaddr + k) =
        if segmentAllows ph c.writeProtect access then some (mapping.frame + k % 4096)
        else none := by
  obtain ⟨mapping, translated, byte, writable, executable⟩ := holds k below
  have aligned := placeable.aligned
  refine ⟨mapping, translated, byte, fun access => ?_⟩
  have allowed : c.allows access mapping = segmentAllows ph c.writeProtect access := by
    cases access <;> simp only [Cpu.allows, segmentAllows, noExecute, Bool.or_true,
      Bool.true_and, writable, executable]
  have offset : (ph.vaddr + k) % 4096 = k % 4096 := by omega
  rw [Cpu.physical_of_long long, if_pos (placeable.canonical_byte below), translated,
    Option.bind_some, allowed, offset]

end Accesses

/-! ## From Kickstart into the kernel -/

section Machine

variable {info : MultibootInfo} {file : Nat → UInt8} {s done : KickstartState}
  {bootinfo entered : SampoBootinfo} {loaded first reserved : RegionTable}
  {kickstartStart kickstartEnd kernelName addr kernelElfLocation kernelElfEnd fuel
    magic : Nat} {serialInit hasLongmode : Bool} {c : Cpu} {code : Code}
  {symbols : EnterSymbols} {m : ByteMemory.Memory}

section Boot

variable (machine : BootMachine info file s kickstartStart kickstartEnd kernelName addr
    kernelElfLocation kernelElfEnd loaded first reserved)
  (enough : info.encode.length ≤ fuel)
  (ran : kickstartMain kickstartStart kickstartEnd kernelName fuel serialInit
    hasLongmode bootinfo addr magic s = some (some entered, done))
  (succeeded : ∀ outcome ∈ done.allocations, Succeeded outcome)

include machine enough ran succeeded

/-- Nothing that is written outside the page tables changes the address space. -/
theorem kickstartMain_keepsTables
    (tables : ∀ x ∈ grantedTo done.allocations .allocated, m x = done.memory x) (v : Nat) :
    translatePage m entered.bootstrapPagingStructurePtr v =
      translatePage done.memory entered.bootstrapPagingStructurePtr v := by
  obtain ⟨walked, _, _, fresh, inputs, boots⟩ := kickstartMain_enters machine enough ran
  have owned := kickstartBoot_owns_memory inputs machine.map fresh boots succeeded
  obtain ⟨_, space, tree, isRoot, inBlocks⟩ := owned.tables
  have tree' := tree.congr fun x inTables => tables x (inBlocks inTables)
  rw [tree'.translatePage_eq isRoot, tree.translatePage_eq isRoot]

/-- The pages of a loaded segment lie in blocks for the kernel. -/
theorem kickstartMain_segment_frames
    {ph : ProgramHeader} (isLoaded : ph ∈ loadedHeaders file) :
    PlaceableSegment ph ∧ ∀ k < 4096 * pageCount ph.memLen, ∀ mapping,
      translatePage done.memory entered.bootstrapPagingStructurePtr (ph.vaddr + k) =
        some mapping →
      Set.Ico mapping.frame (mapping.frame + 4096) ⊆
        grantedTo done.allocations .kernel := by
  obtain ⟨walked, _, _, fresh, inputs, boots⟩ := kickstartMain_enters machine enough ran
  have owned := kickstartBoot_owns_memory inputs machine.map fresh boots succeeded
  obtain ⟨i, isIndex, rfl, isLoad⟩ := mem_loadedHeaders.mp isLoaded
  have placeable := inputs.loadable.segments i isIndex isLoad
  refine ⟨placeable, fun k below mapping translated => ?_⟩
  rcases owned.frames _ mapping translated with ⟨inFirst, _⟩ | inKernel
  · exact absurd inFirst (Nat.not_lt.mpr ((placeable.inSegment below).high placeable))
  · exact inKernel

end Boot

/-- The processor comes from `enter_64bit_kernel` to the entry point of the kernel. -/
theorem kickstartMain_inLongMode
    (machine : BootMachine info file s kickstartStart kickstartEnd kernelName addr
      kernelElfLocation kernelElfEnd loaded first reserved)
    (enough : info.encode.length ≤ fuel)
    (ran : kickstartMain kickstartStart kickstartEnd kernelName fuel serialInit
      hasLongmode bootinfo addr magic s = some (some entered, done))
    (succeeded : ∀ outcome ∈ done.allocations, Succeeded outcome)
    (imageKept : Disjoint (availableBytes reserved) (Set.Ico kickstartStart kickstartEnd))
    (memory : ∀ x ∉ Set.Ico kickstartStart kickstartEnd, c.memory x = done.memory x)
    (placed : EnterPlaced symbols code c.memory kickstartStart kickstartEnd)
    (root : loadLe c.memory symbols.topPageStructure 4 = done.topPageStructure)
    (entry : loadLe c.memory symbols.programEntryPoint 8 = done.programEntryPoint)
    (start : c.rip = symbols.enter64bitKernel) (isProtected : c.cr0.testBit 0 = true)
    (unpaged : c.paging = false) (narrow : c.wide = false) :
    ∃ c', LongMode.run code 19 c = some c' ∧
      InLongMode c entered.bootstrapPagingStructurePtr c' ∧ c'.wide = true ∧
      c'.rip = ElfImage.entry file ∧ c'.register .ax = symbols.bootinfo ∧
      entryFrame c'.cr3 = entered.bootstrapPagingStructurePtr ∧
      KernelImage file c'.memory (entryFrame c'.cr3) ∧ c'.Flat 0 0x200000 := by
  have granted : ∀ type, ∀ x ∈ grantedTo done.allocations type,
      c.memory x = done.memory x := fun type x inGranted =>
    memory x (kickstartMain_granted_outside machine enough ran succeeded imageKept
      inGranted)
  have same := kickstartMain_keepsTables machine enough ran succeeded (granted .allocated)
  obtain ⟨walked, _, _, fresh, inputs, boots⟩ := kickstartMain_enters machine enough ran
  obtain ⟨image, isEntry⟩ := kickstartBoot_kernelImage inputs boots succeeded
  have owned := kickstartBoot_owns_memory inputs machine.map fresh boots succeeded
  obtain ⟨_, _, tree, isRoot, _⟩ := owned.tables
  have aligned := tree.aligned isRoot
  obtain ⟨_, _, _, pointer⟩ := kickstartBoot_ledger inputs boots succeeded
  have imageEnd := inputs.imageEnd
  rw [← pointer] at root
  have rootLow : loadLe c.memory symbols.topPageStructure 4 < 256 ^ 4 := loadLe_lt ..
  rw [root] at rootLow
  have isFrame : entryFrame entered.bootstrapPagingStructurePtr =
      entered.bootstrapPagingStructurePtr := by
    rw [entryFrame]
    omega
  have itself : ∀ v < 0x200000, translatePage c.memory
      (entryFrame entered.bootstrapPagingStructurePtr) v =
        some { frame := v / 4096 * 4096, writable := true, executable := true } := by
    intro v low
    have page : pageNumber v = v / 4096 := by
      rw [pageNumber]
      omega
    rw [isFrame, same, image.identity v (by omega), page]
  obtain ⟨c', steps, inLongMode, wide, rip, isBootinfo⟩ := enter64bitKernel_runs placed
    (by omega) start isProtected unpaged narrow fun v _ below => by
      rw [root]
      exact itself v (by omega)
  rw [root] at inLongMode
  have frame : entryFrame c'.cr3 = entered.bootstrapPagingStructurePtr := by
    rw [inLongMode.root, isFrame]
  refine ⟨c', steps, inLongMode, wide, rip.trans (entry.trans isEntry), isBootinfo, frame,
    ?_, ?_⟩
  · rw [frame, inLongMode.memory]
    refine ⟨fun v inFirst => (same v).trans (image.identity v inFirst),
      fun ph isLoaded => ?_,
      fun v mapping translated => image.nothingElse v mapping (same v ▸ translated)⟩
    obtain ⟨_, frames⟩ :=
      kickstartMain_segment_frames machine enough ran succeeded isLoaded
    exact (image.segments _ isLoaded).congr fun k below mapping translated =>
      ⟨(same _).trans translated, granted .kernel _
        (frames k below mapping translated ⟨Nat.le_add_right _ _, by omega⟩)⟩
  · refine Cpu.flat_of_identity inLongMode.long (by decide) fun v _ below => ?_
    rw [inLongMode.memory, inLongMode.root]
    exact itself v below

/-- Where Kickstart's image is kept out of the memory that is available, the processor
comes from `enter_64bit_kernel` to the entry point of the kernel, sees the kernel's
segments there, and has not changed any memory. -/
theorem kickstartMain_entersKernel
    (machine : BootMachine info file s kickstartStart kickstartEnd kernelName addr
      kernelElfLocation kernelElfEnd loaded first reserved)
    (enough : info.encode.length ≤ fuel)
    (ran : kickstartMain kickstartStart kickstartEnd kernelName fuel serialInit
      hasLongmode bootinfo addr magic s = some (some entered, done))
    (succeeded : ∀ outcome ∈ done.allocations, Succeeded outcome)
    (imageKept : Disjoint (availableBytes reserved) (Set.Ico kickstartStart kickstartEnd))
    (memory : ∀ x ∉ Set.Ico kickstartStart kickstartEnd, c.memory x = done.memory x)
    (placed : EnterPlaced symbols code c.memory kickstartStart kickstartEnd)
    (root : loadLe c.memory symbols.topPageStructure 4 = done.topPageStructure)
    (entry : loadLe c.memory symbols.programEntryPoint 8 = done.programEntryPoint)
    (start : c.rip = symbols.enter64bitKernel) (isProtected : c.cr0.testBit 0 = true)
    (unpaged : c.paging = false) (narrow : c.wide = false) :
    ∃ c', LongMode.run code 19 c = some c' ∧ c'.memory = c.memory ∧
      c'.writeProtect = c.writeProtect ∧ KernelEntered file symbols.bootinfo c' := by
  obtain ⟨c', steps, inLongMode, wide, rip, isBootinfo, _, image, flat⟩ :=
    kickstartMain_inLongMode machine enough ran succeeded imageKept memory placed root
      entry start isProtected unpaged narrow
  refine ⟨c', steps, inLongMode.memory, inLongMode.writeProtect, inLongMode.long, wide,
    rip, isBootinfo, flat, ?_, ?_⟩
  · intro ph isLoaded k below
    obtain ⟨placeable, _⟩ :=
      kickstartMain_segment_frames machine enough ran succeeded isLoaded
    obtain ⟨mapping, _, byte, accesses⟩ := (image.segments ph isLoaded).physical
      inLongMode.long inLongMode.noExecute placeable below
    exact ⟨_, byte, accesses⟩
  · intro access v p reached
    rw [Cpu.physical_of_long inLongMode.long, Option.ite_none_right_eq_some,
      Option.bind_eq_some_iff] at reached
    obtain ⟨_, mapping, translated, _⟩ := reached
    exact image.nothingElse v mapping translated

end Machine

/-! ## The small machine -/

/-- The symbols of the small machine's image, behind its array and `bootinfo`. -/
def halfMebibyteSymbols : EnterSymbols where
  enter64bitKernel := 0x107300
  jumpToKernel := 0x107340
  gdt64 := 0x107200
  topPageStructure := 0x107222
  programEntryPoint := 0x107226
  bootinfo := 0x107100

/-- The instructions with the lengths that they have in the image. -/
def halfMebibyteCode : Code :=
  assemble 0x107300 ((enter64bitKernel halfMebibyteSymbols ++
    jumpToKernel halfMebibyteSymbols).zip
      [5, 2, 5, 5, 2, 3, 3, 3, 5, 3, 3, 3, 5, 3, 7, 7, 8, 8, 2])

/-- The GDT, `top_page_structure` and `program_entry_point`. -/
def halfMebibyteStatics : List UInt8 :=
  gdt64 0x107200 ++ (leBytes 4 0x108000 ++ leBytes 8 0x200000)

/-- A processor in protected mode at `enter_64bit_kernel`. -/
def halfMebibyteCpu (m : ByteMemory.Memory) : Cpu where
  register := fun _ => 0
  rip := 0x107300
  cr0 := 1
  cr3 := 0
  cr4 := 0
  efer := 0
  gdtBase := 0
  gdtLimit := 0
  wide := false
  interrupts := false
  memory := m

/-- Memory with the static variables of the small machine in its image. -/
def withStatics (m : ByteMemory.Memory) : ByteMemory.Memory := fun x =>
  if 0x100000 ≤ x ∧ x < 0x108000 then memoryOf 0x107200 halfMebibyteStatics x else m x

theorem withStatics_holds (m : ByteMemory.Memory) :
    HoldsBytes (withStatics m) 0x107200 halfMebibyteStatics := by
  intro i below
  have short : i < 46 := below
  have inImage : 0x100000 ≤ 0x107200 + i ∧ 0x107200 + i < 0x108000 := by omega
  exact (if_pos inImage).trans (holdsBytes_memoryOf 0x107200 halfMebibyteStatics i below)

theorem halfMebibyteCode_placed {code : Code} {m : ByteMemory.Memory}
    (same : ∀ x, 0x107300 ≤ x → x < 0x107352 → halfMebibyteCode x = code x)
    (holds : HoldsBytes m 0x107200 halfMebibyteStatics) :
    EnterPlaced halfMebibyteSymbols code m 0x100000 0x108000 where
  above := by decide
  placed := by
    have all : LongMode.PlacedAt halfMebibyteCode 0x107300
        (enter64bitKernel halfMebibyteSymbols ++ jumpToKernel halfMebibyteSymbols)
        0x107352 := LongMode.assemble_placed (by decide)
    obtain ⟨middle, front, back⟩ := (all.congr same).append
    exact ⟨middle, Nat.le_trans back.le (by decide), front⟩
  jumpAbove := by decide
  jumpPlaced := by
    have jump : LongMode.PlacedAt halfMebibyteCode 0x107340
        (jumpToKernel halfMebibyteSymbols) 0x107352 :=
      ⟨8, by decide, rfl, 8, by decide, rfl, 2, by decide, rfl, rfl⟩
    exact ⟨0x107352, by decide,
      jump.congr fun x above => same x (Nat.le_trans (by decide) above)⟩
  gdtAbove := by decide
  gdtBelow := by decide
  gdt := (holdsBytes_append.mp holds).1
  entryAbove := by decide
  entryBelow := by decide

/-- The static variables have the values that the small machine's boot gives them. -/
theorem halfMebibyteStatics_values {done : KickstartState} {m : ByteMemory.Memory}
    (ran : kickstartMain 0x100000 0x108000 0x9060 96 true true ⟨[], 0⟩ 0x9000
      multiboot2BootloaderMagic halfMebibyteMachine =
        some (some halfMebibyteBootinfo, done))
    (succeeded : ∀ outcome ∈ done.allocations, Succeeded outcome)
    (holds : HoldsBytes m 0x107200 halfMebibyteStatics) :
    loadLe m 0x107222 4 = done.topPageStructure ∧
      loadLe m 0x107226 8 = done.programEntryPoint := by
  obtain ⟨_, _, _, _, inputs, boots⟩ :=
    kickstartMain_enters halfMebibyteMachine_boots (by decide +kernel) ran
  obtain ⟨_, _, _, pointer⟩ := kickstartBoot_ledger inputs boots succeeded
  obtain ⟨_, isEntry⟩ := kickstartBoot_kernelImage inputs boots succeeded
  have isStart : ElfImage.entry oneSegmentFile = 0x200000 := by decide
  obtain ⟨root, entry⟩ := holdsBytes_append.mp (holdsBytes_append.mp holds).2
  exact ⟨(loadLe_of_holdsBytes root).trans pointer,
    (loadLe_of_holdsBytes entry).trans (isEntry.trans isStart).symm⟩

/-- The small machine comes into its kernel of one segment at 2 MiB. -/
theorem kickstartMain_entersKernel_halfMebibyte : ∃ done c',
    kickstartMain 0x100000 0x108000 0x9060 96 true true ⟨[], 0⟩ 0x9000
        multiboot2BootloaderMagic halfMebibyteMachine =
          some (some halfMebibyteBootinfo, done) ∧
      LongMode.run halfMebibyteCode 19 (halfMebibyteCpu (withStatics done.memory)) =
        some c' ∧
      KernelEntered oneSegmentFile 0x107100 c' := by
  obtain ⟨done, _, _, ran, succeeded, _⟩ := halfMebibyteMachine_tree
  obtain ⟨root, entry⟩ := halfMebibyteStatics_values ran succeeded
    (withStatics_holds done.memory)
  obtain ⟨c', steps, _, _, seen⟩ := kickstartMain_entersKernel
    (c := halfMebibyteCpu (withStatics done.memory)) halfMebibyteMachine_boots
    (by decide +kernel) ran succeeded (disjoint_availableBytes (by decide))
    (fun x outside => if_neg outside)
    (halfMebibyteCode_placed (fun _ _ _ => rfl) (withStatics_holds done.memory)) root entry
    rfl (show Nat.testBit 1 0 = true by decide) (show Nat.testBit 1 31 = false by decide)
    rfl
  exact ⟨done, c', ran, steps, seen⟩

end SampoOS
