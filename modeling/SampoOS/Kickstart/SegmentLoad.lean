/-
Module: SampoOS.Kickstart.SegmentLoad
Purpose: What loading one segment does to its block, to the page tables and to
  everything else.
Trusted boundary: none
Main exports: segmentPages, SegmentMapped, BlockCleared, BlockMapped,
  SegmentPlaced, SegmentLoaded, loadSegment_placed, loadSegment_spec
-/
import SampoOS.Kickstart.ElfImage
import SampoOS.Kickstart.PagerHistory
import SampoOS.Kickstart.PagerRefinement

namespace SampoOS.Kickstart

open ByteMemory
open Paging

/-! ## The pages of a segment -/

theorem pagesNeeded_eq {memLen : Nat} (small : memLen < 2 ^ 32 - 4096) :
    pagesNeeded memLen = pageCount memLen := by
  rw [pagesNeeded, pageCount, show (0x0FFF : Nat) = 2 ^ 12 - 1 from rfl,
    Nat.and_two_pow_sub_one_eq_mod]
  split <;> omega

theorem pageCount_bounds {memLen : Nat} (notEmpty : 0 < memLen)
    (small : memLen < 2 ^ 32 - 4096) :
    0 < pageCount memLen ∧ pageCount memLen < 2 ^ 20 ∧
      memLen ≤ 4096 * pageCount memLen := by
  rw [pageCount]
  omega

/-- What the program header asks for, page by page. -/
theorem requestedMapping_segmentPerms (frame flags : Nat) :
    requestedMapping frame (segmentPerms flags) =
      { frame := frame
        writable := decide (flags &&& pfW ≠ 0)
        executable := decide (flags &&& pfX ≠ 0) } := by
  rw [requestedMapping, segmentPerms]
  by_cases read : flags &&& pfR ≠ 0 <;> by_cases write : flags &&& pfW ≠ 0 <;>
    by_cases exec : flags &&& pfX ≠ 0 <;>
    simp [read, write, exec, pagePermRead, pagePermWrite, pagePermExec]

/-- The calls of `map_page` for a segment. -/
def segmentCalls (segmentRegion : Nat) (ph : ProgramHeader) : List MapCall :=
  (List.range (pageCount ph.memLen)).map fun i =>
    { physAddr := segmentRegion + 4096 * i
      virtAddr := ph.vaddr + 4096 * i
      permFlags := segmentPerms ph.flags }

theorem mapSegment_eq_mapPages (segmentRegion vaddr perms pages : Nat)
    (s : KickstartState) :
    mapSegment segmentRegion vaddr perms pages s =
      mapPages ((List.range pages).map fun i =>
        { physAddr := (segmentRegion + i * 0x1000) % 2 ^ 32
          virtAddr := (vaddr + i * 0x1000 % 2 ^ 32) % 2 ^ 64
          permFlags := perms }) s := by
  simp [mapSegment, mapPages, List.foldlM_map]

/-- The calls of `map_page` for a segment, as they are made: with 32-bit physical
and 64-bit virtual addresses. -/
def wrappedCalls (segmentRegion : Nat) (ph : ProgramHeader) : List MapCall :=
  (List.range (pageCount ph.memLen)).map fun i =>
    { physAddr := (segmentRegion + i * 0x1000) % 2 ^ 32
      virtAddr := (ph.vaddr + i * 0x1000 % 2 ^ 32) % 2 ^ 64
      permFlags := segmentPerms ph.flags }

/-- The pages of a segment, as the page tables tell them apart. -/
def segmentPages (ph : ProgramHeader) : List Nat :=
  (List.range (pageCount ph.memLen)).map fun j => pageNumber (ph.vaddr + 4096 * j)

/-- The walk does not look at the bits that an address may lose. -/
theorem pageNumber_wrapped (vaddr : Nat) {i : Nat} (below : i < 2 ^ 20) :
    pageNumber ((vaddr + i * 0x1000 % 2 ^ 32) % 2 ^ 64) =
      pageNumber (vaddr + 4096 * i) := by
  rw [pageNumber, pageNumber]
  omega

theorem pagesOf_wrappedCalls {ph : ProgramHeader} (segmentRegion : Nat)
    (sized : pageCount ph.memLen ≤ 2 ^ 20) :
    pagesOf (wrappedCalls segmentRegion ph) = segmentPages ph := by
  rw [pagesOf, wrappedCalls, segmentPages, List.map_map]
  apply List.map_congr_left
  intro i inside
  rw [List.mem_range] at inside
  exact pageNumber_wrapped ph.vaddr (by omega)

theorem mapCalls_wrappedCalls {ph : ProgramHeader} {segmentRegion : Nat}
    (low : segmentRegion + 4096 * pageCount ph.memLen ≤ 2 ^ 32)
    (space : AddressSpace) :
    mapCalls (wrappedCalls segmentRegion ph) space =
      mapCalls (segmentCalls segmentRegion ph) space := by
  rw [mapCalls, mapCalls, wrappedCalls, segmentCalls, List.foldl_map,
    List.foldl_map]
  apply List.foldl_ext
  intro space i inside
  rw [List.mem_range] at inside
  dsimp only
  rw [pageNumber_wrapped ph.vaddr (by omega),
    Nat.mod_eq_of_lt (show segmentRegion + i * 0x1000 < 2 ^ 32 by omega),
    Nat.mul_comm i]

/-- A segment is mapped to its block, page by page. -/
def SegmentMapped (ph : ProgramHeader) (segmentRegion : Nat)
    (space : AddressSpace) : Prop :=
  ∀ j < pageCount ph.memLen, space (pageNumber (ph.vaddr + 4096 * j)) =
    some { frame := segmentRegion + 4096 * j
           writable := decide (ph.flags &&& pfW ≠ 0)
           executable := decide (ph.flags &&& pfX ≠ 0) }

/-- A page belongs to a segment. -/
def InSegment (ph : ProgramHeader) (page : Nat) : Prop :=
  ∃ j < pageCount ph.memLen, page = pageNumber (ph.vaddr + 4096 * j)

/-- The pages of a segment are distinct. -/
theorem segment_pageNumber_inj {ph : ProgramHeader}
    (placeable : PlaceableSegment ph) {i j : Nat}
    (insideI : i < pageCount ph.memLen) (insideJ : j < pageCount ph.memLen) :
    pageNumber (ph.vaddr + 4096 * i) = pageNumber (ph.vaddr + 4096 * j) ↔
      i = j := by
  rw [pageNumber_eq_iff (placeable.canonical i insideI)
    (placeable.canonical j insideJ)]
  have aligned := placeable.aligned
  omega

/-- Mappings that exist stay. -/
theorem mapCalls_keeps {calls : List MapCall} {space : AddressSpace}
    {page : Nat} {mapping : PageMapping} (mapped : space page = some mapping) :
    mapCalls calls space page = some mapping := by
  rw [mapCalls, foldl_mapFirst, mapped, Option.some_or]

/-- A segment none of whose pages was mapped is mapped to its block. -/
theorem mapCalls_segmentCalls {ph : ProgramHeader} {segmentRegion : Nat}
    {space : AddressSpace} (placeable : PlaceableSegment ph)
    (unmapped : ∀ page, InSegment ph page → space page = none) :
    SegmentMapped ph segmentRegion
      (mapCalls (segmentCalls segmentRegion ph) space) := by
  intro j inside
  have same : ∀ i ∈ List.range (pageCount ph.memLen),
      decide (pageNumber (ph.vaddr + 4096 * i) =
        pageNumber (ph.vaddr + 4096 * j)) = decide (i = j) := fun i member =>
    decide_eq_decide.mpr (segment_pageNumber_inj placeable
      (List.mem_range.mp member) inside)
  rw [mapCalls, foldl_mapFirst, unmapped _ ⟨j, inside, rfl⟩, Option.none_or,
    segmentCalls, List.find?_map]
  dsimp only [Function.comp_def]
  rw [List.find?_congr same, find?_range_eq, if_pos inside, Option.map_some,
    Option.map_some, requestedMapping_segmentPerms]

/-- A page is mapped from before, or by a call for it. -/
theorem mapCalls_origin {calls : List MapCall} {space : AddressSpace} {page : Nat}
    {mapping : PageMapping} (mapped : mapCalls calls space page = some mapping) :
    space page = some mapping ∨ ∃ call ∈ calls, pageNumber call.virtAddr = page ∧
      mapping = requestedMapping call.physAddr call.permFlags := by
  rw [mapCalls, foldl_mapFirst, Option.or_eq_some_iff] at mapped
  rcases mapped with old | ⟨_, new⟩
  · exact Or.inl old
  · obtain ⟨call, found, requested⟩ := Option.map_eq_some_iff.mp new
    have samePage := List.find?_some found
    rw [decide_eq_true_eq] at samePage
    exact Or.inr ⟨call, List.mem_of_find?_eq_some found, samePage, requested.symm⟩

/-- Mapping a segment adds no other pages. -/
theorem mapCalls_segmentCalls_origin {ph : ProgramHeader} {segmentRegion : Nat}
    {space : AddressSpace} {page : Nat} {mapping : PageMapping}
    (mapped : mapCalls (segmentCalls segmentRegion ph) space page =
      some mapping) : space page = some mapping ∨ InSegment ph page := by
  refine (mapCalls_origin mapped).imp_right ?_
  rintro ⟨call, inside, rfl, _⟩
  simp only [segmentCalls, List.mem_map, List.mem_range] at inside
  obtain ⟨j, below, rfl⟩ := inside
  exact ⟨j, below, rfl⟩

/-! ## Loading one segment -/

/-- What loading a segment does to everything but its block. -/
structure SegmentPlaced (ph : ProgramHeader) (s : KickstartState)
    (tables : Tables) (space : AddressSpace) (segmentRegion : Nat)
    (s' : KickstartState) (tables' : Tables) : Prop where
  pager : PagerInvariant s' tables'
    (mapCalls (segmentCalls segmentRegion ph) space)
  claimed : pagerBytes s' tables' ⊆ pagerBytes s tables
  block : Set.Ico segmentRegion (segmentRegion + 4096 * pageCount ph.memLen) ⊆
    pagerBytes s tables
  apart : Disjoint (pagerBytes s' tables')
    (Set.Ico segmentRegion (segmentRegion + 4096 * pageCount ph.memLen))
  frame : ∀ x ∉ pagerBytes s tables, s'.memory x = s.memory x
  header : s'.header = s.header
  root : s'.topPageStructure = s.topPageStructure

/-- What loading a segment into a block does. -/
structure SegmentLoaded (ph : ProgramHeader) (source : Nat) (s : KickstartState)
    (tables : Tables) (space : AddressSpace) (segmentRegion : Nat)
    (s' : KickstartState) (tables' : Tables) : Prop extends
    SegmentPlaced ph s tables space segmentRegion s' tables' where
  bytes : ∀ k < 4096 * pageCount ph.memLen, s'.memory (segmentRegion + k) =
    if k < ph.fileLen then s.memory (source + k) else 0

/-- Ranges that share no byte do not overlap. -/
theorem ranges_apart {a b m n : Nat}
    (apart : ∀ x, a ≤ x → x < a + m → ¬ (b ≤ x ∧ x < b + n)) :
    a + m ≤ b ∨ b + n ≤ a ∨ m = 0 ∨ n = 0 := by
  have left := apart a
  have right := apart b
  omega

/-- The steps of loading a segment: it is announced, its block is requested and
cleared, its pages are mapped, and its contents are copied. -/
structure SegmentSteps (ph : ProgramHeader) (s s₀ : KickstartState)
    (segmentRegion : Nat) (s₁ s₂ s₃ s' : KickstartState) : Prop where
  announced : SameControl s s₀
  memory₀ : s₀.memory = s.memory
  quiet₀ : refusals s₀ = refusals s
  given : allocateRegionWithType (pagesNeeded ph.memLen) .kernel s₀ =
    some (segmentRegion, s₁)
  prepared : SameControl s₁ s₂
  memory₂ : s₂.memory = memset s₁.memory segmentRegion 0
    (pagesNeeded ph.memLen * 0x1000 % 2 ^ 32)
  quiet₂ : refusals s₂ = refusals s₁
  mapped : mapSegment segmentRegion ph.vaddr (segmentPerms ph.flags)
    (pagesNeeded ph.memLen) s₂ = some s₃
  copied : SameControl s₃ s'
  memory' : s'.memory = memcpy s₃.memory segmentRegion
    ((s₃.header.basePtr + ph.fOff) % 2 ^ 64 % 2 ^ 32) (ph.fileLen % 2 ^ 32)
  quiet' : refusals s' = refusals s₃

theorem loadSegment_eq_some {s s' : KickstartState} {ph : ProgramHeader}
    (ran : loadSegment ph s = some (true, s')) :
    ∃ s₀ segmentRegion s₁ s₂ s₃,
      SegmentSteps ph s s₀ segmentRegion s₁ s₂ s₃ s' := by
  simp only [loadSegment, Option.bind_eq_some_iff, Prod.exists] at ran
  obtain ⟨segmentRegion, s₁, given, ran⟩ := ran
  split at ran
  · cases ran
  rw [Option.map_eq_some_iff] at ran
  obtain ⟨s₃, mapped, same⟩ := ran
  cases same
  refine ⟨_, segmentRegion, s₁, { serialPrintf "Pages needed: %u\n"
      [pagesNeeded ph.memLen] (serialPrintf
        "Kernel segment is to be mapped to physical page 0x%x\n" [segmentRegion]
        s₁) with memory := _ }, s₃, {
    announced := serialPrintf_sameControl _ _ s
    memory₀ := rfl
    quiet₀ := ?_
    given := given
    prepared := ⟨rfl, rfl, rfl, rfl, rfl, rfl⟩
    memory₂ := rfl
    quiet₂ := ?_
    mapped := mapped
    copied := ⟨rfl, rfl, rfl, rfl, rfl, rfl⟩
    memory' := rfl
    quiet' := refusals_congr rfl }⟩
  · rw [refusals_serialPrintf]
    simp [alreadyMapped]
  · have quiet : refusals (serialPrintf "Pages needed: %u\n"
        [pagesNeeded ph.memLen] (serialPrintf
          "Kernel segment is to be mapped to physical page 0x%x\n"
          [segmentRegion] s₁)) = refusals s₁ := by
      rw [refusals_serialPrintf, refusals_serialPrintf]
      simp [alreadyMapped]
    exact quiet

/-- Copying into a block writes nothing else, wherever the bytes come from. -/
theorem memcpy_outside {m : Memory} {dest source count length x : Nat}
    (short : count ≤ length) (low : dest + length ≤ 2 ^ 32)
    (outside : ¬ (dest ≤ x ∧ x < dest + length)) :
    memcpy m dest source count x = m x := by
  rw [memcpy]
  apply copy_outside
  rintro ⟨k, below, rfl⟩
  by_cases last : dest + k < 2 ^ 32
  · rw [Nat.mod_eq_of_lt last] at outside
    omega
  · omega

/-- Copying a file segment that the pager cannot touch into its block. -/
theorem memcpy_apply {m : Memory} {dest source count : Nat}
    (destLow : dest + count ≤ 2 ^ 32) (sourceLow : source + count ≤ 2 ^ 32)
    (apart : ∀ x, source ≤ x → x < source + count →
      ¬ (dest ≤ x ∧ x < dest + count)) (x : Nat) :
    memcpy m dest (source % 2 ^ 32) count x =
      if dest ≤ x ∧ x < dest + count then m (source + (x - dest)) else m x := by
  by_cases nothing : count = 0
  · subst nothing
    rw [if_neg (by omega)]
    rfl
  · have order := ranges_apart apart
    rw [memcpy, Nat.mod_eq_of_lt (by omega),
      copy_apply destLow sourceLow (by omega)]

/-- The pager with the cleared block of a segment, before the block is
mapped. -/
structure BlockCleared (s : KickstartState) (tables : Tables)
    (space : AddressSpace) (segmentRegion length : Nat) (s' : KickstartState) :
    Prop where
  pager : PagerInvariant s' tables space
  block : Set.Ico segmentRegion (segmentRegion + length) ⊆ pagerBytes s tables
  left : pagerBytes s' tables ⊆
    pagerBytes s tables \ Set.Ico segmentRegion (segmentRegion + length)
  cleared : ∀ x, s'.memory x =
    if segmentRegion ≤ x ∧ x < segmentRegion + length then 0 else s.memory x

/-- The block of a segment is taken out of the available memory. -/
theorem blockCleared {s s₀ s₁ s₂ : KickstartState} {tables : Tables}
    {space : AddressSpace} {segmentRegion count : Nat}
    (pager : PagerInvariant s tables space) (control₀ : SameControl s s₀)
    (memory₀ : s₀.memory = s.memory)
    (allocated : Allocated s₀ count segmentRegion .kernel s₁)
    (control₂ : SameControl s₁ s₂)
    (memory₂ : s₂.memory = memset s₁.memory segmentRegion 0 (4096 * count)) :
    BlockCleared s tables space segmentRegion (4096 * count) s₂ := by
  have low := allocated.low
  obtain ⟨pager₀, bytes₀⟩ := pager.congr control₀ fun x _ => by rw [memory₀]
  obtain ⟨pager₁, bytes₁⟩ := pager₀.allocated allocated
  have cleared : ∀ x, s₂.memory x = if segmentRegion ≤ x ∧
      x < segmentRegion + 4096 * count then 0 else s.memory x := by
    intro x
    rw [memory₂, memset, fill_apply low, allocated.memory_eq, memory₀]
    rfl
  obtain ⟨pager₂, bytes₂⟩ := pager₁.congr control₂ fun x inTables => by
    have outside : ¬ (segmentRegion ≤ x ∧ x < segmentRegion + 4096 * count) :=
      (bytes₁ (Or.inl inTables)).2
    rw [cleared, if_neg outside, allocated.memory_eq, memory₀]
  refine ⟨pager₂, ?_, ?_, cleared⟩
  · rw [← bytes₀]
    exact allocated.block.trans Set.subset_union_right
  · rw [bytes₂, ← bytes₀]
    exact bytes₁

/-- A segment whose block is taken, cleared and mapped, before its contents are
copied from `s₃` to `s'`. -/
structure BlockMapped (ph : ProgramHeader) (s : KickstartState) (tables : Tables)
    (space : AddressSpace) (segmentRegion : Nat) (s₂ s₃ s' : KickstartState) :
    Prop where
  cleared : BlockCleared s tables space segmentRegion
    (4096 * pageCount ph.memLen) s₂
  positive : 0 < segmentRegion
  aligned : 4096 ∣ segmentRegion
  low : segmentRegion + 4096 * pageCount ph.memLen ≤ 2 ^ 32
  header : s₂.header = s.header
  root : s₂.topPageStructure = s.topPageStructure
  blocks : ∃ block, block.addrStart = segmentRegion ∧
    kernelBlocks s₂ = kernelBlocks s ++ [block]
  quiet : refusals s₂ = refusals s
  mapped : mapPages (wrappedCalls segmentRegion ph) s₂ = some s₃
  copied : SameControl s₃ s'
  memory' : s'.memory = memcpy s₃.memory segmentRegion
    ((s₃.header.basePtr + ph.fOff) % 2 ^ 64 % 2 ^ 32) (ph.fileLen % 2 ^ 32)
  quiet' : refusals s' = refusals s₃

theorem loadSegment_blockMapped {s s' : KickstartState} {tables : Tables}
    {space : AddressSpace} {ph : ProgramHeader}
    (pager : PagerInvariant s tables space) (sized : SizedSegment ph)
    (ran : loadSegment ph s = some (true, s'))
    (succeeded : ∀ outcome ∈ s'.allocations, Succeeded outcome) :
    ∃ segmentRegion s₂ s₃,
      BlockMapped ph s tables space segmentRegion s₂ s₃ s' := by
  have bounds := pageCount_bounds sized.notEmpty sized.small
  obtain ⟨s₀, segmentRegion, s₁, s₂, s₃, steps⟩ := loadSegment_eq_some ran
  have mapped := steps.mapped
  rw [mapSegment_eq_mapPages, pagesNeeded_eq sized.small] at mapped
  have grows : s₁.allocations ⊆ s'.allocations := by
    rw [← steps.prepared.allocations, steps.copied.allocations]
    exact mapPages_allocations mapped
  have given := steps.given
  rw [pagesNeeded_eq sized.small] at given
  have allocated := allocateRegionWithType_spec
    (by rw [steps.announced.regions]; exact pager.regions) bounds.1 bounds.2.1
    (by decide) given fun outcome inside => succeeded outcome (grows inside)
  have memory₂ := steps.memory₂
  rw [pagesNeeded_eq sized.small, Nat.mod_eq_of_lt (by omega),
    Nat.mul_comm (pageCount ph.memLen)] at memory₂
  refine ⟨segmentRegion, s₂, s₃,
    { cleared := blockCleared pager steps.announced steps.memory₀ allocated
        steps.prepared memory₂
      positive := allocated.notNull
      aligned := allocated.aligned
      low := allocated.low
      header := ?_
      root := ?_
      blocks := ?_
      quiet := ?_
      mapped := mapped
      copied := steps.copied
      memory' := steps.memory'
      quiet' := steps.quiet' }⟩
  · rw [steps.prepared.header, allocated.header_eq, steps.announced.header]
  · rw [steps.prepared.root, allocated.root_eq, steps.announced.root]
  · rw [kernelBlocks, steps.prepared.allocations, allocated.only,
      List.filterMap_append, steps.announced.allocations]
    exact ⟨_, rfl, rfl⟩
  · have serial : s₁.serial = s₀.serial := by rw [allocated.only]
    rw [steps.quiet₂, refusals_congr serial, steps.quiet₀]

namespace BlockMapped

variable {ph : ProgramHeader} {s s₂ s₃ s' : KickstartState} {tables : Tables}
  {space : AddressSpace} {segmentRegion : Nat}

theorem frames (block : BlockMapped ph s tables space segmentRegion s₂ s₃ s') :
    ∀ call ∈ wrappedCalls segmentRegion ph,
      4096 ∣ call.physAddr ∧ call.physAddr < 2 ^ 52 := by
  have aligned := block.aligned
  have low := block.low
  intro call inside
  simp only [wrappedCalls, List.mem_map, List.mem_range] at inside
  obtain ⟨i, below, rfl⟩ := inside
  dsimp only
  omega

/-- Mapping the pages of a segment refuses none of them exactly when they are
distinct and none was mapped before. -/
theorem accepted (block : BlockMapped ph s tables space segmentRegion s₂ s₃ s')
    (sized : SizedSegment ph)
    (succeeded : ∀ outcome ∈ s'.allocations, Succeeded outcome) :
    refusals s ≤ refusals s' ∧
      (refusals s' = refusals s ↔ (segmentPages ph).Nodup ∧
        ∀ page ∈ segmentPages ph, space page = none) := by
  have bounds := pageCount_bounds sized.notEmpty sized.small
  rw [block.copied.allocations] at succeeded
  have spec := mapPages_refusals block.cleared.pager block.frames block.mapped
    succeeded
  rw [pagesOf_wrappedCalls segmentRegion (by omega), block.quiet,
    ← block.quiet'] at spec
  exact spec

end BlockMapped

namespace BlockMapped

variable {ph : ProgramHeader} {s s₂ s₃ s' : KickstartState} {tables tables' : Tables}
  {space : AddressSpace} {segmentRegion source : Nat}

/-- Copying writes nothing but the block. -/
theorem copied_outside
    (isMapped : BlockMapped ph s tables space segmentRegion s₂ s₃ s')
    (sized : SizedSegment ph) {x : Nat} (outside : ¬ (segmentRegion ≤ x ∧
      x < segmentRegion + 4096 * pageCount ph.memLen)) :
    s'.memory x = s₃.memory x := by
  rw [isMapped.memory']
  exact memcpy_outside sized.content isMapped.low outside

/-- Mapping and copying a segment, wherever its contents come from. -/
theorem placed (isMapped : BlockMapped ph s tables space segmentRegion s₂ s₃ s')
    (sized : SizedSegment ph)
    (succeeded : ∀ outcome ∈ s'.allocations, Succeeded outcome) :
    ∃ tables', SegmentPlaced ph s tables space segmentRegion s' tables' ∧
      Extends s₂ tables s₃ tables' := by
  have low := isMapped.low
  obtain ⟨pager₂, block, left, cleared⟩ := isMapped.cleared
  rw [isMapped.copied.allocations] at succeeded
  obtain ⟨tables', pager₃, extends₃⟩ := mapPages_spec pager₂ isMapped.frames
    isMapped.mapped succeeded
  rw [mapCalls_wrappedCalls low] at pager₃
  have claimed : pagerBytes s₃ tables' ⊆ pagerBytes s tables \
      Set.Ico segmentRegion (segmentRegion + 4096 * pageCount ph.memLen) :=
    extends₃.claimed.trans left
  obtain ⟨pager', bytes'⟩ := pager₃.congr isMapped.copied fun x inTables =>
    isMapped.copied_outside sized (claimed (Or.inl inTables)).2
  refine ⟨tables', ⟨pager', ?_, block, ?_, ?_, ?_, ?_⟩, extends₃⟩
  · rw [bytes']
    exact claimed.trans Set.sdiff_subset
  · rw [bytes', Set.disjoint_left]
    exact fun x inPager => (claimed inPager).2
  · intro x outside
    have outsideBlock : ¬ (segmentRegion ≤ x ∧
        x < segmentRegion + 4096 * pageCount ph.memLen) :=
      fun inBlock => outside (block inBlock)
    have untouched : x ∉ pagerBytes s₂ tables :=
      fun inside => outside (left inside).1
    rw [isMapped.copied_outside sized outsideBlock, extends₃.frame x untouched,
      cleared, if_neg outsideBlock]
  · rw [isMapped.copied.header, extends₃.header, isMapped.header]
  · rw [isMapped.copied.root, extends₃.root, isMapped.root]

/-- Copying puts the contents at the beginning of the block. -/
theorem copied_apply
    (isMapped : BlockMapped ph s tables space segmentRegion s₂ s₃ s')
    (fits : ph.fileLen ≤ 4096 * pageCount ph.memLen) (header : s₃.header = s.header)
    (sourceEq : source = s.header.basePtr + ph.fOff)
    (sourceLow : source + ph.fileLen ≤ 2 ^ 32)
    (sourceApart : ∀ x, source ≤ x → x < source + ph.fileLen →
      x ∉ pagerBytes s tables) (x : Nat) :
    s'.memory x = if segmentRegion ≤ x ∧ x < segmentRegion + ph.fileLen then
        s₃.memory (source + (x - segmentRegion)) else s₃.memory x := by
  have low := isMapped.low
  have positive := isMapped.positive
  rw [isMapped.memory', Nat.mod_mod_of_dvd _ (by decide), header, ← sourceEq,
    Nat.mod_eq_of_lt (show ph.fileLen < 2 ^ 32 by omega)]
  apply memcpy_apply (by omega) sourceLow
  intro y above below inBlock
  exact sourceApart y above below
    (isMapped.cleared.block ⟨inBlock.1, by omega⟩)

/-- Copying the contents of a segment, which lie out of the pager's reach, ends
its loading. -/
theorem loaded (source : Nat)
    (isMapped : BlockMapped ph s tables space segmentRegion s₂ s₃ s')
    (sized : SizedSegment ph) (fits : ph.fileLen ≤ 4096 * pageCount ph.memLen)
    (sourceEq : source = s.header.basePtr + ph.fOff)
    (sourceLow : source + ph.fileLen ≤ 2 ^ 32)
    (sourceApart : ∀ x, source ≤ x → x < source + ph.fileLen →
      x ∉ pagerBytes s tables)
    (succeeded : ∀ outcome ∈ s'.allocations, Succeeded outcome) :
    ∃ tables', SegmentLoaded ph source s tables space segmentRegion s' tables' := by
  obtain ⟨tables', placed, extends₃⟩ := isMapped.placed sized succeeded
  obtain ⟨_, block, left, cleared⟩ := isMapped.cleared
  have header : s₃.header = s.header := extends₃.header.trans isMapped.header
  have copied := isMapped.copied_apply fits header sourceEq sourceLow sourceApart
  refine ⟨tables', placed, ?_⟩
  intro k below
  have unclaimed : segmentRegion + k ∉ pagerBytes s₂ tables :=
    fun inside => (left inside).2 ⟨by omega, by omega⟩
  by_cases inFile : k < ph.fileLen
  · have apart := sourceApart (source + k) (by omega) (by omega)
    have outside : ¬ (segmentRegion ≤ source + k ∧
        source + k < segmentRegion + 4096 * pageCount ph.memLen) :=
      fun inBlock => apart (block inBlock)
    have untouched : source + k ∉ pagerBytes s₂ tables :=
      fun inside => apart (left inside).1
    rw [copied, if_pos (by omega), if_pos inFile, Nat.add_sub_cancel_left,
      extends₃.frame _ untouched, cleared, if_neg outside]
  · rw [copied, if_neg (by omega), if_neg inFile, extends₃.frame _ unclaimed,
      cleared, if_pos (by omega)]

end BlockMapped

/-- Loading a segment, wherever its contents come from. -/
theorem loadSegment_placed {s s' : KickstartState} {tables : Tables}
    {space : AddressSpace} {ph : ProgramHeader}
    (pager : PagerInvariant s tables space) (sized : SizedSegment ph)
    (ran : loadSegment ph s = some (true, s'))
    (succeeded : ∀ outcome ∈ s'.allocations, Succeeded outcome) :
    ∃ segmentRegion s₂ s₃ tables',
      BlockMapped ph s tables space segmentRegion s₂ s₃ s' ∧
        SegmentPlaced ph s tables space segmentRegion s' tables' := by
  obtain ⟨segmentRegion, s₂, s₃, isMapped⟩ := loadSegment_blockMapped pager sized
    ran succeeded
  obtain ⟨tables', placed, _⟩ := isMapped.placed sized succeeded
  exact ⟨segmentRegion, s₂, s₃, tables', isMapped, placed⟩

/-- Loading a segment whose contents fit its pages and lie out of the pager's
reach. -/
theorem loadSegment_spec (source : Nat) {s s' : KickstartState}
    {tables : Tables} {space : AddressSpace} {ph : ProgramHeader}
    (pager : PagerInvariant s tables space) (sized : SizedSegment ph)
    (fits : ph.fileLen ≤ 4096 * pageCount ph.memLen)
    (sourceEq : source = s.header.basePtr + ph.fOff)
    (sourceLow : source + ph.fileLen ≤ 2 ^ 32)
    (sourceApart : ∀ x, source ≤ x → x < source + ph.fileLen →
      x ∉ pagerBytes s tables)
    (ran : loadSegment ph s = some (true, s'))
    (succeeded : ∀ outcome ∈ s'.allocations, Succeeded outcome) :
    ∃ segmentRegion tables',
      SegmentLoaded ph source s tables space segmentRegion s' tables' := by
  obtain ⟨segmentRegion, s₂, s₃, isMapped⟩ := loadSegment_blockMapped pager sized
    ran succeeded
  obtain ⟨tables', loaded⟩ := isMapped.loaded source sized fits sourceEq sourceLow
    sourceApart succeeded
  exact ⟨segmentRegion, tables', loaded⟩

theorem loadSegment_allocations {s s' : KickstartState} {ph : ProgramHeader}
    (ran : loadSegment ph s = some (true, s')) :
    s.allocations ⊆ s'.allocations := by
  obtain ⟨s₀, _, s₁, s₂, s₃, steps⟩ := loadSegment_eq_some ran
  have mapped := steps.mapped
  rw [mapSegment_eq_mapPages] at mapped
  have first := allocateRegionWithType_allocations steps.given
  have second := mapPages_allocations mapped
  rw [steps.announced.allocations] at first
  rw [steps.prepared.allocations] at second
  rw [steps.copied.allocations]
  exact List.Subset.trans first second

end SampoOS.Kickstart
