/-
Module: SampoOS.Kickstart.SegmentBlock
Purpose: Whether the block that `elf_expand` takes for a segment is as large as
  the segment, and whether what it writes for the segment stays inside.
Trusted boundary: none
Main exports: loadSegment_rejects_iff, SizeKept, loadSegment_keepsSize_iff,
  segmentBytes, WritesInBlock, BlockFits, elfExpand_writesInBlock_iff
-/
import SampoOS.Kickstart.ElfLoad
import SampoOS.Kickstart.ElfRun

namespace SampoOS.Kickstart

open ByteMemory

/-! ## Rejected segments -/

/-- A request returns `NULL` exactly if no region fits it, or if the first one
that does starts at a multiple of 4 GiB. -/
theorem pmmAllocateRegionWithType_null_iff {table after : RegionTable}
    {regionPageCount ret : Nat} {type : MemoryRegionType}
    (allocated : pmmAllocateRegionWithType table regionPageCount type =
      some (ret, after)) :
    ret = 0 ↔ ∀ region, firstFit table regionPageCount = some region →
      region.addrStart % 2 ^ 32 = 0 := by
  rcases pmmAllocateRegionWithType_cases allocated with
    ⟨missing, null, _⟩ | ⟨region, block, chosen, _, step⟩
  · exact iff_of_true null fun region chosen => by simp [missing] at chosen
  · rw [step.ret_eq, chosen]
    constructor
    · intro null region' same
      rwa [← Option.some.inj same]
    · intro null
      exact null region rfl

/-- A segment is rejected exactly if its request returns `NULL`; nothing is
written then. -/
theorem loadSegment_rejects_iff {ph : ProgramHeader} {s : KickstartState}
    {segmentRegion : Nat} {regions : RegionTable}
    (allocated : pmmAllocateRegionWithType s.memoryRegions (pagesNeeded ph.memLen)
      .kernel = some (segmentRegion, regions)) :
    (∃ s', loadSegment ph s = some (false, s')) ↔ segmentRegion = 0 := by
  rw [loadSegment]
  dsimp only
  generalize start : serialPrintf _ _ s = s₀
  have same : s₀.memoryRegions = s.memoryRegions := by
    rw [← start]
    rfl
  rw [← same] at allocated
  rw [allocateRegionWithType_eq allocated, Option.bind_some]
  by_cases null : segmentRegion = 0
  · simp [null]
  · simp [null]

theorem loadSegment_rejected {ph : ProgramHeader} {s s' : KickstartState}
    (ran : loadSegment ph s = some (false, s')) :
    s'.memory = s.memory ∧
      ∃ regions, pmmAllocateRegionWithType s.memoryRegions (pagesNeeded ph.memLen)
        .kernel = some (0, regions) := by
  simp only [loadSegment, Option.bind_eq_some_iff, Prod.exists] at ran
  obtain ⟨segmentRegion, s₁, given, ran⟩ := ran
  obtain ⟨regions, allocated, rfl⟩ := allocateRegionWithType_cases given
  split at ran
  next null =>
    cases ran
    rw [null] at allocated
    exact ⟨rfl, regions, allocated⟩
  next =>
    rw [Option.map_eq_some_iff] at ran
    obtain ⟨_, _, same⟩ := ran
    cases same

/-! ## The size of the block -/

/-- A size whose page count and length in bytes the loader computes without loss,
if a region is found for it that is not taken for `NULL`. -/
def SizeKept (table : RegionTable) (memLen : Nat) : Prop :=
  ∀ region, firstFit table (pagesNeeded memLen) = some region →
    region.addrStart % 2 ^ 32 ≠ 0 →
    memLen ≤ 2 ^ 32 - 4096 ∧
      region.addrStart + 4096 * pageCount memLen < 2 ^ 64

theorem pagesNeeded_eq_of_le {memLen : Nat} (small : memLen ≤ 2 ^ 32 - 4096) :
    pagesNeeded memLen = pageCount memLen := by
  rw [pagesNeeded, pageCount, and_pageOffset]
  split <;> omega

theorem pagesNeeded_zero : pagesNeeded 0 = 0 := rfl

/-- A block is never longer than 4 GiB less one page. -/
theorem allocationLength_le (regionPageCount : Nat) :
    allocationLength regionPageCount ≤ 2 ^ 32 - 4096 := by
  rw [allocationLength]
  omega

/-- A segment is rejected, or the block recorded for it has its size, if and only
if that size is kept. -/
theorem loadSegment_keepsSize_iff {ph : ProgramHeader} {s : KickstartState}
    {segmentRegion : Nat} {regions : RegionTable}
    (invariant : TableInvariant s.memoryRegions)
    (allocated : pmmAllocateRegionWithType s.memoryRegions (pagesNeeded ph.memLen)
      .kernel = some (segmentRegion, regions)) :
    ((∃ s', loadSegment ph s = some (false, s')) ∨
        ∃ block ∈ regions,
          allocatedBlock s.memoryRegions (pagesNeeded ph.memLen) .kernel =
              some block ∧
            ph.memLen ≤ block.addrEnd - block.addrStart) ↔
      SizeKept s.memoryRegions ph.memLen := by
  rw [loadSegment_rejects_iff allocated]
  have null := pmmAllocateRegionWithType_null_iff allocated
  rcases pmmAllocateRegionWithType_cases allocated with
    ⟨missing, isNull, _⟩ | ⟨region, block, chosen, something, step⟩
  · exact iff_of_true (Or.inl isNull) fun region chosen => by simp [missing] at chosen
  · by_cases isNull : segmentRegion = 0
    · exact iff_of_true (Or.inl isNull) fun region chosen notNull =>
        absurd (null.mp isNull region chosen) notNull
    have notNull : region.addrStart % 2 ^ 32 ≠ 0 := by rwa [← step.ret_eq]
    have notEmpty : ph.memLen ≠ 0 := by
      intro empty
      rw [empty, pagesNeeded_zero, firstFit, if_pos rfl] at chosen
      cases chosen
    have shape := step.block_eq
    have short := allocationLength_le (pagesNeeded ph.memLen)
    constructor
    · rintro (isNull' | ⟨block', _, same, large⟩) region' chosen' _
      · exact absurd isNull' isNull
      obtain rfl := Option.some.inj (chosen.symm.trans chosen')
      obtain rfl := Option.some.inj (something.symm.trans same)
      rw [shape] at large
      dsimp only at large
      have small : ph.memLen ≤ 2 ^ 32 - 4096 := by omega
      rw [pagesNeeded_eq_of_le small, allocationLength, pageCount] at large
      rw [pageCount]
      omega
    · intro kept
      obtain ⟨small, noWrap⟩ := kept region chosen notNull
      have length : allocationLength (pagesNeeded ph.memLen) =
          4096 * pageCount ph.memLen := by
        rw [pagesNeeded_eq_of_le small, allocationLength, pageCount]
        omega
      have count : ph.memLen ≤ 4096 * pageCount ph.memLen := by
        rw [pageCount]
        omega
      obtain ⟨_, _, _, carves⟩ := step.carvesFrom invariant (by omega)
        (by omega) isNull
      refine Or.inr ⟨block, carves.mem_after.mpr (Or.inl rfl), something, ?_⟩
      rw [shape, length]
      dsimp only
      omega

/-- A segment of 4 GiB and one byte. -/
def hugeSegment : ProgramHeader where
  type := ptLoad
  flags := pfR
  fOff := 0
  vaddr := 0x200000
  fileLen := 0
  memLen := 0x100000001

/-- One page is taken for it out of a free mebibyte. -/
theorem hugeSegment_allocated :
    pmmAllocateRegionWithType freeMebibyte.memoryRegions
        (pagesNeeded hugeSegment.memLen) .kernel =
      some (0x100000,
        [⟨0x100000, 0x101000, .kernel⟩, ⟨0x101000, 0x200000, .available⟩]) := by
  decide

/-- So its size decides whether it is kept. -/
theorem hugeSegment_keepsSize_iff :
    ((∃ s', loadSegment hugeSegment freeMebibyte = some (false, s')) ∨
        ∃ block ∈ [(⟨0x100000, 0x101000, .kernel⟩ : MemoryRegion),
            ⟨0x101000, 0x200000, .available⟩],
          allocatedBlock freeMebibyte.memoryRegions
              (pagesNeeded hugeSegment.memLen) .kernel = some block ∧
            hugeSegment.memLen ≤ block.addrEnd - block.addrStart) ↔
      SizeKept freeMebibyte.memoryRegions hugeSegment.memLen :=
  loadSegment_keepsSize_iff freeMebibyte_regions hugeSegment_allocated

/-- The segment is neither rejected nor given a block of its size. -/
theorem hugeSegment_truncated :
    ¬ ∀ (ph : ProgramHeader) (s : KickstartState) (segmentRegion : Nat)
        (regions : RegionTable), TableInvariant s.memoryRegions →
        ph.memLen < 2 ^ 64 →
        pmmAllocateRegionWithType s.memoryRegions (pagesNeeded ph.memLen) .kernel =
          some (segmentRegion, regions) →
        (∃ s', loadSegment ph s = some (false, s')) ∨
          ∃ block ∈ regions,
            allocatedBlock s.memoryRegions (pagesNeeded ph.memLen) .kernel =
                some block ∧
              ph.memLen ≤ block.addrEnd - block.addrStart := by
  intro keeps
  rcases keeps hugeSegment freeMebibyte _ _ freeMebibyte_regions (by decide)
    hugeSegment_allocated with rejected | ⟨block, inside, _, large⟩
  · exact absurd ((loadSegment_rejects_iff hugeSegment_allocated).mp rejected)
      (by decide)
  · simp only [List.mem_cons, List.not_mem_nil, or_false] at inside
    rcases inside with rfl | rfl
    · exact absurd large (by decide)
    · exact absurd large (by decide)

/-! ## The writes for a segment -/

/-- The addresses that `memset` and `memcpy` write for a segment. -/
def segmentBytes (segmentRegion : Nat) (ph : ProgramHeader) : Set Nat :=
  cyclicRange 32 segmentRegion (pagesNeeded ph.memLen * 0x1000 % 2 ^ 32) ∪
    cyclicRange 32 segmentRegion (ph.fileLen % 2 ^ 32)

/-- The two calls change no other address. -/
theorem SegmentSteps.outside {ph : ProgramHeader} {segmentRegion x : Nat}
    {s s₀ s₁ s₂ s₃ s' : KickstartState}
    (steps : SegmentSteps ph s s₀ segmentRegion s₁ s₂ s₃ s')
    (outside : x ∉ segmentBytes segmentRegion ph) :
    s₂.memory x = s₁.memory x ∧ s'.memory x = s₃.memory x := by
  rw [segmentBytes, Set.mem_union, not_or] at outside
  rw [steps.memory₂, steps.memory']
  exact ⟨(fill_cyclic x).2 outside.1, copy_outside outside.2⟩

/-- In a run of `elf_expand` from `start`, the segment that is loaded in `s` is
either rejected before anything is written for it, and `elf_expand` returns
`false`; or what is written for it lies in the block that was returned for it. -/
def WritesInBlock (start : KickstartState) (ph : ProgramHeader)
    (s : KickstartState) (loaded : Bool) (s' : KickstartState) : Prop :=
  (loaded = false ∧ elfExpand start = some (false, s') ∧ s'.memory = s.memory) ∨
    loaded = true ∧ ∃ s₀ segmentRegion s₁ s₂ s₃,
      SegmentSteps ph s s₀ segmentRegion s₁ s₂ s₃ s' ∧
        segmentBytes segmentRegion ph ⊆
          Set.Ico segmentRegion (segmentRegion + 4096 * pagesNeeded ph.memLen)

/-- A block that the contents in the file fit in, and that ends by 4 GiB as its
pointer counts, if a region is found for it that is not taken for `NULL`. -/
def BlockFits (table : RegionTable) (ph : ProgramHeader) : Prop :=
  ∀ region, firstFit table (pageCount ph.memLen) = some region →
    region.addrStart % 2 ^ 32 ≠ 0 →
    ph.fileLen ≤ 4096 * pageCount ph.memLen ∧
      region.addrStart % 2 ^ 32 + 4096 * pageCount ph.memLen ≤ 2 ^ 32

/-- When the writes for a segment lie in its block. -/
theorem segmentBytes_subset_iff {segmentRegion : Nat} {ph : ProgramHeader}
    (positive : 0 < segmentRegion) (word : segmentRegion < 2 ^ 32)
    (notEmpty : 0 < ph.memLen) (small : ph.memLen < 2 ^ 32 - 4096)
    (fileWord : ph.fileLen < 2 ^ 32) :
    segmentBytes segmentRegion ph ⊆
        Set.Ico segmentRegion (segmentRegion + 4096 * pagesNeeded ph.memLen) ↔
      ph.fileLen ≤ 4096 * pageCount ph.memLen ∧
        segmentRegion + 4096 * pageCount ph.memLen ≤ 2 ^ 32 := by
  have bounds := pageCount_bounds notEmpty small
  rw [segmentBytes, pagesNeeded_eq small, Set.union_subset_iff,
    cyclicRange_subset_Ico positive word, cyclicRange_subset_Ico positive word,
    Nat.mod_eq_of_lt fileWord, Nat.mod_eq_of_lt (by omega)]
  omega

section Steps

variable {ph : ProgramHeader} {segmentRegion : Nat}
  {s s₀ s₁ s₂ s₃ s' : KickstartState}

theorem SegmentSteps.allocated
    (steps : SegmentSteps ph s s₀ segmentRegion s₁ s₂ s₃ s') :
    ∃ regions, pmmAllocateRegionWithType s.memoryRegions (pagesNeeded ph.memLen)
      .kernel = some (segmentRegion, regions) := by
  obtain ⟨regions, allocated, _⟩ := allocateRegionWithType_cases steps.given
  rw [steps.announced.regions] at allocated
  exact ⟨regions, allocated⟩

/-- A segment that is loaded has the block of the first region that fits, and its
pointer is not `NULL`. -/
theorem SegmentSteps.region_eq
    (steps : SegmentSteps ph s s₀ segmentRegion s₁ s₂ s₃ s')
    (ran : loadSegment ph s = some (true, s')) :
    segmentRegion ≠ 0 ∧
      ∃ region, firstFit s.memoryRegions (pagesNeeded ph.memLen) = some region ∧
        segmentRegion = region.addrStart % 2 ^ 32 := by
  obtain ⟨regions, allocated⟩ := steps.allocated
  have notNull : segmentRegion ≠ 0 := by
    intro null
    obtain ⟨_, rejected⟩ := (loadSegment_rejects_iff allocated).mpr null
    rw [ran] at rejected
    cases rejected
  refine ⟨notNull, ?_⟩
  rcases pmmAllocateRegionWithType_cases allocated with
    ⟨_, null, _⟩ | ⟨region, _, chosen, _, step⟩
  · exact absurd null notNull
  · exact ⟨region, chosen, step.ret_eq⟩

end Steps

section Run

variable {start s s' : KickstartState} {i : Nat} {loaded : Bool}

theorem ElfExpandReads.rejected (reads : ElfExpandReads start i s)
    (isLoad : (progHeaderRead (progHeaderBase start.header) s i).type = ptLoad)
    (ran : loadSegment (progHeaderRead (progHeaderBase start.header) s i) s =
      some (false, s')) :
    elfExpand start = some (false, s') := by
  obtain ⟨rest, same⟩ := reads.reads.loop
  rw [elfExpand, reads.amd64]
  dsimp only
  rw [progHeaderBase] at same isLoad ran
  rw [same, loadSegments]
  dsimp only
  rw [progHeaderRead] at isLoad ran
  rw [if_neg (not_not.mpr isLoad), ran]
  rfl

/-- In every run of `elf_expand`, what is written for a segment lies in its block
if and only if the block fits. -/
theorem elfExpand_writesInBlock_iff {ph : ProgramHeader}
    (reads : ElfExpandReads start i s)
    (isRead : progHeaderRead (progHeaderBase start.header) s i = ph)
    (isLoad : ph.type = ptLoad) (notEmpty : 0 < ph.memLen)
    (small : ph.memLen < 2 ^ 32 - 4096) (fileWord : ph.fileLen < 2 ^ 32)
    (ran : loadSegment ph s = some (loaded, s')) :
    WritesInBlock start ph s loaded s' ↔ BlockFits s.memoryRegions ph := by
  subst isRead
  generalize headerIs : progHeaderRead (progHeaderBase start.header) s i = ph at *
  have pages := pagesNeeded_eq small
  cases loaded with
  | false =>
      obtain ⟨kept, regions, allocated⟩ := loadSegment_rejected ran
      rw [← headerIs] at isLoad ran
      refine iff_of_true
        (Or.inl ⟨rfl, reads.rejected isLoad ran, kept⟩)
        fun region chosen notNull => ?_
      rw [← pages] at chosen
      exact absurd ((pmmAllocateRegionWithType_null_iff allocated).mp rfl region
        chosen) notNull
  | true =>
      have inBlock : ∀ {s₀ segmentRegion s₁ s₂ s₃},
          SegmentSteps ph s s₀ segmentRegion s₁ s₂ s₃ s' →
          (segmentBytes segmentRegion ph ⊆ Set.Ico segmentRegion
              (segmentRegion + 4096 * pagesNeeded ph.memLen) ↔
            BlockFits s.memoryRegions ph) := by
        intro s₀ segmentRegion s₁ s₂ s₃ steps
        obtain ⟨notNull, region, chosen, pointer⟩ := steps.region_eq ran
        rw [pages] at chosen
        rw [segmentBytes_subset_iff (by omega) (by omega) notEmpty small fileWord,
          BlockFits, chosen, pointer]
        rw [pointer] at notNull
        constructor
        · intro fits region' same _
          rwa [← Option.some.inj same]
        · intro fits
          exact fits region rfl notNull
      obtain ⟨s₀, segmentRegion, s₁, s₂, s₃, steps⟩ := loadSegment_eq_some ran
      constructor
      · rintro (⟨rejected, _⟩ | ⟨_, _, _, _, _, _, steps', inside⟩)
        · cases rejected
        · exact (inBlock steps').mp inside
      · intro fits
        exact Or.inr ⟨rfl, s₀, segmentRegion, s₁, s₂, s₃, steps,
          (inBlock steps).mpr fits⟩

end Run

/-- The file of one segment with a longer `p_filesz`. -/
def overlongFile (i : Nat) : UInt8 := if i = 97 then 0x20 else oneSegmentFile i

/-- Its program header. -/
def overlongSegment : ProgramHeader where
  type := ptLoad
  flags := pfR ||| pfX
  fOff := 120
  vaddr := 0x200000
  fileLen := 0x2001
  memLen := 2

theorem overlongFile_headed : ElfImage.Headed overlongFile 121 := by
  refine ⟨by decide, by decide, fun i below => ?_⟩
  have one : ElfImage.phNum overlongFile = 1 := by decide
  obtain rfl : i = 0 := by omega
  decide

theorem overlongFile_programHeader :
    ElfImage.programHeader overlongFile 0 = overlongSegment := by
  decide

/-- Kickstart with that file behind a free mebibyte. -/
def overlongAt : KickstartState :=
  { freeMebibyte with
    memory := fun x => if 0x300000 ≤ x then overlongFile (x - 0x300000) else 0 }

/-- The segment is read and loaded. -/
theorem overlongAt_loads : ∃ ready loaded, ElfExpandReads ready 0 ready ∧
    progHeaderRead (progHeaderBase ready.header) ready 0 = overlongSegment ∧
    loadSegment overlongSegment ready = some (true, loaded) := by
  have holds : HoldsFile overlongAt.memory 0x300000 121 overlongFile := by
    intro i _
    rw [overlongAt]
    dsimp only
    rw [if_pos (by omega), Nat.add_sub_cancel_left]
  have regions : TableInvariant overlongAt.memoryRegions := freeMebibyte_regions
  have unavailable : Disjoint (availableBytes overlongAt.memoryRegions)
      (Set.Ico 0x300000 (0x300000 + 121)) := disjoint_availableBytes (by decide)
  obtain ⟨initialized, _, read, sameRegions, history⟩ :=
    elfInitialize_accepts regions.available holds (by decide) unavailable
      overlongFile_headed (by decide) (by decide)
  have given : ∀ outcome ∈ ([⟨0x100000, 0x104000, .allocated⟩,
      ⟨0x104000, 0x105000, .kernel⟩] : List MemoryRegion).map some,
      Succeeded outcome := succeeded_of_low (by decide)
  obtain ⟨ready, loaded, _, sameHeader, isRead, ran, _⟩ := onePage_segment read
    overlongFile_headed (by decide) overlongFile_programHeader (by decide) (by decide)
    (by rw [sameRegions]; rfl) rfl (by rw [sameRegions, history]; exact given)
    (mapPage_at2MiB rfl _ _)
  have describes := read.describes
  have base : progHeaderBase ready.header =
      (0x300000 + ElfImage.phOff overlongFile) % 2 ^ 64 % 2 ^ 32 := by
    rw [progHeaderBase, sameHeader, describes.basePtr, describes.offset]
  refine ⟨ready, loaded, ⟨by rw [sameHeader, read.wide], ?_⟩, ?_, ran⟩
  · rw [sameHeader, describes.count]
    exact .here
  · rw [base, progHeaderRead]
    exact isRead

/-- Whether it is written inside its block depends on the block. -/
theorem overlongSegment_writesInBlock_iff : ∃ ready loaded,
    ElfExpandReads ready 0 ready ∧
      (WritesInBlock ready overlongSegment ready true loaded ↔
        BlockFits ready.memoryRegions overlongSegment) := by
  obtain ⟨ready, loaded, reads, isRead, ran⟩ := overlongAt_loads
  exact ⟨ready, loaded, reads,
    elfExpand_writesInBlock_iff reads isRead rfl (by decide) (by decide)
      (by decide) ran⟩

/-- The copy of its 0x2001 bytes leaves its block of one page. -/
theorem overlongSegment_overruns :
    ¬ ∀ (start s s' : KickstartState) (i : Nat) (loaded : Bool)
        (ph : ProgramHeader), ElfExpandReads start i s →
        progHeaderRead (progHeaderBase start.header) s i = ph →
        ph.type = ptLoad → 0 < ph.memLen → ph.memLen < 2 ^ 32 - 4096 →
        ph.fileLen < 2 ^ 32 → loadSegment ph s = some (loaded, s') →
        WritesInBlock start ph s loaded s' := by
  intro inside
  obtain ⟨ready, loaded, reads, isRead, ran⟩ := overlongAt_loads
  rcases inside ready ready loaded 0 true overlongSegment reads isRead rfl
    (by decide) (by decide) (by decide) ran with
    ⟨rejected, _⟩ | ⟨_, _, segmentRegion, _, _, _, steps, inBlock⟩
  · cases rejected
  · obtain ⟨notNull, region, _, pointer⟩ := steps.region_eq ran
    have fits := (segmentBytes_subset_iff (by omega) (by omega) (by decide)
      (by decide) (by decide)).mp inBlock
    exact absurd fits.1 (by decide)

end SampoOS.Kickstart
