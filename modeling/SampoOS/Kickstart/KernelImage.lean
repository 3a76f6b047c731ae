/-
Module: SampoOS.Kickstart.KernelImage
Purpose: The address space that the kernel is entered with, page by page: the first
  2 MiB, the segments of its file, and nothing else.
Trusted boundary: Kickstart's own code and static variables lie apart from the
  memory that it hands out.
Main exports: HoldsSegment, KernelImage, kickstartBoot_kernelImage,
  kickstartMain_kernelImage
-/
import SampoOS.Kickstart.WholeBoot

namespace SampoOS.Kickstart

open ByteMemory
open Paging

/-! ## Segments in memory -/

/-- A segment as the kernel sees it: its pages are mapped with the permissions of
the program header, and hold the bytes of the file and zeros behind them. -/
def HoldsSegment (file : Nat → UInt8) (m : Memory) (root : Nat) (ph : ProgramHeader) :
    Prop :=
  ∀ k < 4096 * pageCount ph.memLen, ∃ mapping,
    translatePage m root (ph.vaddr + k) = some mapping ∧
    m (mapping.frame + k % 4096) =
      (if k < ph.fileLen then file (ph.fOff + k) else 0) ∧
    mapping.writable = decide (ph.flags &&& pfW ≠ 0) ∧
    mapping.executable = decide (ph.flags &&& pfX ≠ 0)

/-- Only the mappings of a segment and the bytes behind them matter. -/
theorem HoldsSegment.congr {file : Nat → UInt8} {m m' : Memory} {root root' : Nat}
    {ph : ProgramHeader} (holds : HoldsSegment file m root ph)
    (mapped : ∀ k < 4096 * pageCount ph.memLen, ∀ mapping,
      translatePage m root (ph.vaddr + k) = some mapping →
      translatePage m' root' (ph.vaddr + k) = some mapping ∧
        m' (mapping.frame + k % 4096) = m (mapping.frame + k % 4096)) :
    HoldsSegment file m' root' ph := by
  intro k below
  obtain ⟨mapping, translated, byte, permissions⟩ := holds k below
  obtain ⟨translated', same⟩ := mapped k below mapping translated
  exact ⟨mapping, translated', same.trans byte, permissions⟩

/-- The page of every byte is one of the segment's. -/
theorem PlaceableSegment.inSegment {ph : ProgramHeader} (placeable : PlaceableSegment ph)
    {k : Nat} (below : k < 4096 * pageCount ph.memLen) :
    InSegment ph (pageNumber (ph.vaddr + k)) := by
  have aligned := placeable.aligned
  refine ⟨k / 4096, by omega, ?_⟩
  rw [pageNumber, pageNumber]
  congr 1
  omega

/-- The loadable segments of a file. -/
def loadedHeaders (file : Nat → UInt8) : List ProgramHeader :=
  ((List.range (ElfImage.phNum file)).map (ElfImage.programHeader file)).filter
    fun ph => decide (ph.type = ptLoad)

theorem mem_loadedHeaders {file : Nat → UInt8} {ph : ProgramHeader} :
    ph ∈ loadedHeaders file ↔ ∃ i < ElfImage.phNum file,
      ElfImage.programHeader file i = ph ∧ ph.type = ptLoad := by
  simp only [loadedHeaders, List.mem_filter, List.mem_map, List.mem_range,
    decide_eq_true_eq]
  constructor
  · rintro ⟨⟨i, below, isHeader⟩, isLoad⟩
    exact ⟨i, below, isHeader, isLoad⟩
  · rintro ⟨i, below, isHeader, isLoad⟩
    exact ⟨⟨i, below, isHeader⟩, isLoad⟩

/-- The address space of a kernel: the first 2 MiB are mapped to themselves, every
loadable segment is in place, and no other page is mapped. -/
structure KernelImage (file : Nat → UInt8) (m : Memory) (root : Nat) : Prop where
  identity : ∀ v, pageNumber v < 512 → translatePage m root v =
    some { frame := pageNumber v * 4096, writable := true, executable := true }
  segments : ∀ ph ∈ loadedHeaders file, HoldsSegment file m root ph
  nothingElse : ∀ v mapping, translatePage m root v = some mapping →
    pageNumber v < 512 ∨ ∃ ph ∈ loadedHeaders file, InSegment ph (pageNumber v)

/-- A segment that the loader holds is seen by the kernel. -/
theorem SegmentHeld.holdsSegment {file : Nat → UInt8} {ph : ProgramHeader}
    {s : KickstartState} {tables : Tables} {space : AddressSpace} {segmentRegion : Nat}
    (held : SegmentHeld file ph s tables space segmentRegion)
    (tree : PageTree s.memory tables space)
    (root : tables [] = some s.topPageStructure) (aligned : 4096 ∣ ph.vaddr) :
    HoldsSegment file s.memory s.topPageStructure ph := by
  intro k below
  have page : pageNumber (ph.vaddr + k) = pageNumber (ph.vaddr + 4096 * (k / 4096)) := by
    rw [pageNumber, pageNumber]
    congr 1
    omega
  have translated := held.mapped (k / 4096) (by omega)
  rw [← page, ← tree.translatePage_eq root] at translated
  refine ⟨_, translated, ?_, rfl, rfl⟩
  have byte : segmentRegion + 4096 * (k / 4096) + k % 4096 = segmentRegion + k := by
    omega
  dsimp only
  rw [byte]
  exact held.bytes k below

/-- When all program headers are done, the image is complete. -/
theorem LoadInvariant.kernelImage {file : Nat → UInt8} {base size top : Nat}
    {h : ElfHeader} {s : KickstartState} {tables : Tables} {space : AddressSpace}
    (invariant : LoadInvariant file base size h top
      (List.range (ElfImage.phNum file)) s tables space)
    (loadable : ElfImage.Loadable file size) :
    KernelImage file s.memory s.topPageStructure := by
  have walked := invariant.pager.tree.translatePage_eq invariant.pager.root
  refine ⟨?_, ?_, ?_⟩
  · intro v low
    rw [walked, invariant.identity _ low, identitySpace, if_pos low]
  · intro ph inside
    obtain ⟨i, below, rfl, isLoad⟩ := mem_loadedHeaders.mp inside
    obtain ⟨segmentRegion, held⟩ :=
      invariant.loaded i (List.mem_range.mpr below) isLoad
    exact held.holdsSegment invariant.pager.tree invariant.pager.root
      (loadable.segments i below isLoad).aligned
  · intro v mapping translated
    rw [walked] at translated
    rcases invariant.origin _ mapping translated with low | ⟨i, isIndex, isLoad, inPage⟩
    · exact Or.inl low
    · exact Or.inr ⟨_, mem_loadedHeaders.mpr ⟨i, List.mem_range.mp isIndex, rfl, isLoad⟩,
        inPage⟩

/-! ## A whole boot -/

/-- A boot hands over the kernel's image. -/
theorem kickstartBoot_kernelImage {entries : List FirmwareEntry} {file : Nat → UInt8}
    {s done : KickstartState} {bootinfo entered : SampoBootinfo}
    {kickstartStart kickstartEnd kernelElfLocation kernelElfEnd : Nat}
    {first reserved : RegionTable} {hasLongmode : Bool}
    (inputs : BootInputs entries file s kickstartStart kickstartEnd
      kernelElfLocation kernelElfEnd first reserved)
    (ran : kickstartBoot kickstartStart kickstartEnd hasLongmode
      (some (kernelElfLocation, kernelElfEnd)) bootinfo s =
        some (some entered, done))
    (succeeded : ∀ outcome ∈ done.allocations, Succeeded outcome) :
    KernelImage file done.memory entered.bootstrapPagingStructurePtr ∧
      done.programEntryPoint = ElfImage.entry file := by
  obtain ⟨started, ready, loaded, stages⟩ := inputs.stages ran
  have history := stages.printed.allocations
  rw [history] at succeeded
  obtain ⟨s₁, tables, space, invariant, isLoaded⟩ := stages.read.loads inputs.loadable
    stages.paged stages.expanded succeeded
  have image := invariant.kernelImage inputs.loadable
  have memory : done.memory = s₁.memory := by
    rw [stages.untouched, isLoaded]
  have root : entered.bootstrapPagingStructurePtr = s₁.topPageStructure := by
    rw [stages.info]
    dsimp only
    rw [stages.printed.root, isLoaded]
  refine ⟨?_, ?_⟩
  · rw [memory, root]
    exact image
  · rw [stages.printed.entryPoint, isLoaded]
    dsimp only
    rw [invariant.header, stages.entry]

section Machine

variable {info : MultibootInfo} {file : Nat → UInt8} {s done : KickstartState}
  {bootinfo entered : SampoBootinfo} {loaded first reserved : RegionTable}
  {kickstartStart kickstartEnd kernelName addr kernelElfLocation kernelElfEnd fuel
    magic : Nat} {serialInit hasLongmode : Bool}

/-- Every machine that enters the kernel with all blocks below 4 GiB enters it at
the entry point of its file, in an address space that holds the first 2 MiB at
their own addresses and the segments of the file at theirs, with their contents and
permissions, and nothing else. -/
theorem kickstartMain_kernelImage
    (machine : BootMachine info file s kickstartStart kickstartEnd kernelName addr
      kernelElfLocation kernelElfEnd loaded first reserved)
    (enough : info.encode.length ≤ fuel)
    (ran : kickstartMain kickstartStart kickstartEnd kernelName fuel serialInit
      hasLongmode bootinfo addr magic s = some (some entered, done))
    (succeeded : ∀ outcome ∈ done.allocations, Succeeded outcome) :
    KernelImage file done.memory entered.bootstrapPagingStructurePtr ∧
      done.programEntryPoint = ElfImage.entry file := by
  obtain ⟨_, _, _, _, inputs, boots⟩ := kickstartMain_enters machine enough ran
  exact kickstartBoot_kernelImage inputs boots succeeded

end Machine

/-- The small machine enters its kernel of one segment at 2 MiB. -/
theorem kickstartMain_kernelImage_halfMebibyte : ∃ entered done,
    kickstartMain 0x100000 0x108000 0x9060 96 true true ⟨[], 0⟩ 0x9000
        multiboot2BootloaderMagic halfMebibyteMachine = some (some entered, done) ∧
      KernelImage oneSegmentFile done.memory entered.bootstrapPagingStructurePtr ∧
      done.programEntryPoint = ElfImage.entry oneSegmentFile := by
  obtain ⟨entered, done, ran, succeeded, _⟩ := halfMebibyteMachine_enters
  exact ⟨entered, done, ran, kickstartMain_kernelImage halfMebibyteMachine_boots
    (by decide +kernel) ran succeeded⟩

end SampoOS.Kickstart
