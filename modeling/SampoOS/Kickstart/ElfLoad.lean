/-
Module: SampoOS.Kickstart.ElfLoad
Purpose: Loading a kernel preserves its contents: what the pages of every
  segment hold after elf_expand.
Trusted boundary: none
Main exports: LoadInvariant, LoopInvariant, LoopInvariant.run, ElfRead,
  ElfRead.loads, elfInitialize_reads, elfExpand_preserves_contents
-/
import SampoOS.Kickstart.SegmentLoad

namespace SampoOS.Kickstart

open ByteMemory
open Paging

/-! ## All segments -/

/-- No page of a segment lies in the first 2 MiB. -/
theorem InSegment.high {ph : ProgramHeader} (placeable : PlaceableSegment ph)
    {page : Nat} (inside : InSegment ph page) : 512 ≤ page := by
  obtain ⟨j, below, rfl⟩ := inside
  have canonical := placeable.canonical j below
  have outside := placeable.outside
  simp only [Canonical] at canonical
  rw [pageNumber]
  omega

/-- Segments that lie apart share no page. -/
theorem SegmentsApart.pages {a b : ProgramHeader} (apart : SegmentsApart a b)
    (placeableA : PlaceableSegment a) (placeableB : PlaceableSegment b)
    {page : Nat} (inA : InSegment a page) : ¬ InSegment b page := by
  obtain ⟨i, insideA, rfl⟩ := inA
  rintro ⟨j, insideB, same⟩
  rw [pageNumber_eq_iff (placeableA.canonical i insideA)
    (placeableB.canonical j insideB)] at same
  have alignedA := placeableA.aligned
  have alignedB := placeableB.aligned
  rcases apart with before | behind <;> omega

/-- A part of a file lies out of the pager's reach if the file does. -/
theorem contents_apart {bytes : Set Nat} {base size offset length : Nat}
    (apart : ∀ i < size, base + i ∉ bytes) (inside : offset + length ≤ size) :
    ∀ x, base + offset ≤ x → x < base + offset + length → x ∉ bytes := by
  intro x above under
  have position : x = base + (x - base) := by omega
  rw [position]
  exact apart (x - base) (by omega)

/-- A segment's block holds its contents, is mapped at its address, and is out of
the pager's reach. -/
structure SegmentHeld (file : Nat → UInt8) (ph : ProgramHeader)
    (s : KickstartState) (tables : Tables) (space : AddressSpace)
    (segmentRegion : Nat) : Prop where
  mapped : SegmentMapped ph segmentRegion space
  bytes : ∀ k < 4096 * pageCount ph.memLen, s.memory (segmentRegion + k) =
    if k < ph.fileLen then file (ph.fOff + k) else 0
  apart : Disjoint (pagerBytes s tables)
    (Set.Ico segmentRegion (segmentRegion + 4096 * pageCount ph.memLen))

/-- The invariant of the loop in `elf_expand`, once the program headers with the
indices `seen` are done. -/
structure LoadInvariant (file : Nat → UInt8) (base size : Nat) (h : ElfHeader)
    (top : Nat) (seen : List Nat) (s : KickstartState) (tables : Tables)
    (space : AddressSpace) : Prop where
  pager : PagerInvariant s tables space
  root : s.topPageStructure = top
  holds : HoldsFile s.memory base size file
  fileApart : ∀ i < size, base + i ∉ pagerBytes s tables
  header : s.header = h
  loaded : ∀ i ∈ seen, (ElfImage.programHeader file i).type = ptLoad →
    ∃ segmentRegion, SegmentHeld file (ElfImage.programHeader file i) s tables
      space segmentRegion
  identity : ∀ page < 512, space page = identitySpace page
  origin : ∀ page mapping, space page = some mapping → page < 512 ∨
    ∃ i ∈ seen, (ElfImage.programHeader file i).type = ptLoad ∧
      InSegment (ElfImage.programHeader file i) page

namespace LoadInvariant

variable {file : Nat → UInt8} {base size top : Nat} {h : ElfHeader}
  {seen : List Nat} {s s' : KickstartState} {tables tables' : Tables}
  {space : AddressSpace} {i segmentRegion : Nat}

/-- Program headers of other types are skipped. -/
theorem skip (invariant : LoadInvariant file base size h top seen s tables space)
    (notLoad : (ElfImage.programHeader file i).type ≠ ptLoad) :
    LoadInvariant file base size h top (seen ++ [i]) s tables space where
  pager := invariant.pager
  root := invariant.root
  holds := invariant.holds
  fileApart := invariant.fileApart
  header := invariant.header
  loaded := by
    intro j inside isLoad
    rcases List.mem_append.mp inside with inside | inside
    · exact invariant.loaded j inside isLoad
    · rw [List.mem_singleton] at inside
      exact absurd (inside ▸ isLoad) notLoad
  identity := invariant.identity
  origin := by
    intro page mapping mapped
    rcases invariant.origin page mapping mapped with low | ⟨j, inside, rest⟩
    · exact Or.inl low
    · exact Or.inr ⟨j, List.mem_append_left _ inside, rest⟩

/-- None of the pages of a segment that is still to come is mapped. -/
theorem unmapped (invariant : LoadInvariant file base size h top seen s tables space)
    (loadable : ElfImage.Loadable file size)
    (inFile : ∀ j ∈ seen, j < ElfImage.phNum file) (below : i < ElfImage.phNum file)
    (new : i ∉ seen) (isLoad : (ElfImage.programHeader file i).type = ptLoad)
    {page : Nat} (inside : InSegment (ElfImage.programHeader file i) page) :
    space page = none := by
  have placeable := loadable.segments i below isLoad
  rw [Option.eq_none_iff_forall_ne_some]
  intro mapping mapped
  rcases invariant.origin page mapping mapped with low | ⟨j, seenJ, isLoadJ, inJ⟩
  · have high := inside.high placeable
    omega
  · have different : j ≠ i := by
      rintro rfl
      exact new seenJ
    have apart := loadable.apart j (inFile j seenJ) i below different isLoadJ isLoad
    exact apart.pages (loadable.segments j (inFile j seenJ) isLoadJ) placeable inJ
      inside

/-- Loading the next segment keeps the segments before it. -/
theorem load (invariant : LoadInvariant file base size h top seen s tables space)
    (placeable : PlaceableSegment (ElfImage.programHeader file i))
    (inside : (ElfImage.programHeader file i).fOff +
      (ElfImage.programHeader file i).fileLen ≤ size)
    (isLoad : (ElfImage.programHeader file i).type = ptLoad)
    (unmapped : ∀ page, InSegment (ElfImage.programHeader file i) page →
      space page = none)
    (step : SegmentLoaded (ElfImage.programHeader file i)
      (base + (ElfImage.programHeader file i).fOff) s tables space segmentRegion
      s' tables') :
    LoadInvariant file base size h top (seen ++ [i]) s' tables'
      (mapCalls (segmentCalls segmentRegion (ElfImage.programHeader file i))
        space) where
  pager := step.pager
  root := step.root.trans invariant.root
  holds := by
    intro j below
    rw [step.frame _ (invariant.fileApart j below)]
    exact invariant.holds j below
  fileApart := fun j below inPager =>
    invariant.fileApart j below (step.claimed inPager)
  header := step.header.trans invariant.header
  loaded := by
    intro j member isLoadJ
    rcases List.mem_append.mp member with member | member
    · obtain ⟨region, held⟩ := invariant.loaded j member isLoadJ
      refine ⟨region, ⟨?_, ?_, held.apart.mono_left step.claimed⟩⟩
      · exact fun k below => mapCalls_keeps (held.mapped k below)
      · intro k below
        have outside : region + k ∉ pagerBytes s tables := fun inPager =>
          Set.disjoint_left.mp held.apart inPager ⟨by omega, by omega⟩
        rw [step.frame _ outside]
        exact held.bytes k below
    · rw [List.mem_singleton] at member
      subst member
      refine ⟨segmentRegion, ⟨mapCalls_segmentCalls placeable unmapped, ?_,
        step.apart⟩⟩
      intro k below
      rw [step.bytes k below]
      by_cases inFile : k < (ElfImage.programHeader file j).fileLen
      · rw [if_pos inFile, if_pos inFile, Nat.add_assoc]
        exact invariant.holds _ (by omega)
      · rw [if_neg inFile, if_neg inFile]
  identity := by
    intro page low
    have mapped := invariant.identity page low
    rw [identitySpace, if_pos low] at mapped ⊢
    exact mapCalls_keeps mapped
  origin := by
    intro page mapping mapped
    rcases mapCalls_segmentCalls_origin mapped with old | new
    · rcases invariant.origin page mapping old with low | ⟨j, member, rest⟩
      · exact Or.inl low
      · exact Or.inr ⟨j, List.mem_append_left _ member, rest⟩
    · exact Or.inr ⟨i, by simp, isLoad, new⟩

end LoadInvariant

theorem loadSegments_allocations {progHeaderBase : Nat} {rest : List Nat} :
    ∀ {s s' : KickstartState}, loadSegments progHeaderBase rest s =
      some (true, s') → s.allocations ⊆ s'.allocations := by
  induction rest with
  | nil =>
      intro s s' ran
      simp only [loadSegments, Option.some.injEq, Prod.mk.injEq] at ran
      rw [ran.2]
      exact List.Subset.refl _
  | cons i rest inductionHypothesis =>
      intro s s' ran
      rw [loadSegments] at ran
      dsimp only at ran
      split at ran
      · exact inductionHypothesis ran
      · rw [Option.bind_eq_some_iff] at ran
        obtain ⟨⟨loaded, s₁⟩, first, ran⟩ := ran
        cases loaded with
        | false => simp at ran
        | true =>
            exact List.Subset.trans (loadSegment_allocations first)
              (inductionHypothesis ran)

/-- The header that `elf_initialize` leaves for a 64-bit file. -/
structure Describes (h : ElfHeader) (file : Nat → UInt8) (base : Nat) : Prop where
  basePtr : h.basePtr = base
  elfClass : h.elfClass = .class64
  endianness : h.endianness = ElfImage.endianness file
  offset : h.progHeaderOffset = ElfImage.phOff file
  length : h.progHeaderLen = ElfImage.phEntSize file
  count : h.progHeaderCount = ElfImage.phNum file

/-- What the steps of the loop in `elf_expand` have to keep: a program header of
another type is skipped, and a segment is loaded. -/
structure LoopInvariant (file : Nat → UInt8) (base size : Nat) (h : ElfHeader)
    (P : List Nat → KickstartState → Prop) : Prop where
  header : ∀ {seen s}, P seen s → s.header = h
  holds : ∀ {seen s}, P seen s → HoldsFile s.memory base size file
  skip : ∀ {seen s i}, P seen s →
    (ElfImage.programHeader file i).type ≠ ptLoad → P (seen ++ [i]) s
  load : ∀ {seen s s' i}, P seen s → (∀ j ∈ seen, j < ElfImage.phNum file) →
    i ∉ seen → i < ElfImage.phNum file →
    (ElfImage.programHeader file i).type = ptLoad →
    loadSegment (ElfImage.programHeader file i) s = some (true, s') →
    (∀ outcome ∈ s'.allocations, Succeeded outcome) → P (seen ++ [i]) s'

/-- The loop of `elf_expand` reads the program headers of the file. -/
theorem readProgHeader_loop {file : Nat → UInt8} {base size i : Nat}
    {s : KickstartState} (describes : Describes s.header file base)
    (holds : HoldsFile s.memory base size file) (low : base + size ≤ 2 ^ 32)
    (inside : ElfImage.phOff file + ElfImage.phEntSize file * i + 56 ≤ size) :
    readProgHeader s.header s.memory
        (((base + ElfImage.phOff file) % 2 ^ 64 % 2 ^ 32 +
          s.header.progHeaderLen * i) % 2 ^ 32) =
      ElfImage.programHeader file i := by
  have position : ((base + ElfImage.phOff file) % 2 ^ 64 % 2 ^ 32 +
      s.header.progHeaderLen * i) % 2 ^ 32 =
      base + (ElfImage.phOff file + ElfImage.phEntSize file * i) := by
    rw [describes.length, Nat.mod_eq_of_lt (by omega),
      Nat.mod_eq_of_lt (by omega), Nat.mod_eq_of_lt (by omega), Nat.add_assoc]
  rw [position, readProgHeader_spec holds inside low describes.elfClass,
    describes.endianness]
  rfl

/-- An invariant of the steps is one of the loop. -/
theorem LoopInvariant.run {file : Nat → UInt8} {base size : Nat} {h : ElfHeader}
    {P : List Nat → KickstartState → Prop}
    (keeps : LoopInvariant file base size h P) (describes : Describes h file base)
    (headed : ElfImage.Headed file size) (low : base + size ≤ 2 ^ 32)
    {rest : List Nat} :
    ∀ {seen : List Nat} {s s' : KickstartState}, P seen s →
      (∀ i ∈ seen ++ rest, i < ElfImage.phNum file) → (seen ++ rest).Nodup →
      loadSegments ((base + ElfImage.phOff file) % 2 ^ 64 % 2 ^ 32) rest s =
        some (true, s') →
      (∀ outcome ∈ s'.allocations, Succeeded outcome) → P (seen ++ rest) s' := by
  induction rest with
  | nil =>
      intro seen s s' invariant _ _ ran _
      simp only [loadSegments, Option.some.injEq, Prod.mk.injEq] at ran
      rw [← ran.2, List.append_nil]
      exact invariant
  | cons i rest inductionHypothesis =>
      intro seen s s' invariant inFile nodup ran succeeded
      have below : i < ElfImage.phNum file := inFile i (by simp)
      rw [← keeps.header invariant] at describes
      have read := readProgHeader_loop describes (keeps.holds invariant) low
        (headed.headers i below)
      rw [keeps.header invariant] at describes
      have regroup : seen ++ i :: rest = (seen ++ [i]) ++ rest := by simp
      rw [regroup] at inFile nodup ⊢
      rw [loadSegments] at ran
      dsimp only at ran
      rw [read] at ran
      split at ran
      next notLoad =>
        exact inductionHypothesis (keeps.skip invariant notLoad) inFile nodup ran
          succeeded
      next isLoad =>
        rw [ne_eq, not_not] at isLoad
        rw [Option.bind_eq_some_iff] at ran
        obtain ⟨⟨loaded, s₁⟩, first, ran⟩ := ran
        cases loaded with
        | false => simp at ran
        | true =>
            have new : i ∉ seen := by
              intro member
              have unique := (List.nodup_append.mp
                (List.nodup_append.mp nodup).1).2.2 i member i (by simp)
              exact unique rfl
            have invariant₁ := keeps.load invariant
              (fun j member => inFile j (by simp [member])) new below isLoad first
              fun outcome member =>
                succeeded outcome (loadSegments_allocations ran member)
            exact inductionHypothesis invariant₁ inFile nodup ran succeeded

/-- The invariant of the segments' contents is kept by the loop. -/
theorem LoadInvariant.loop {file : Nat → UInt8} {base size top : Nat} {h : ElfHeader}
    (describes : Describes h file base) (loadable : ElfImage.Loadable file size)
    (low : base + size ≤ 2 ^ 32) :
    LoopInvariant file base size h fun seen s => ∃ tables space,
      LoadInvariant file base size h top seen s tables space where
  header := by
    rintro seen s ⟨_, _, invariant⟩
    exact invariant.header
  holds := by
    rintro seen s ⟨_, _, invariant⟩
    exact invariant.holds
  skip := by
    rintro seen s i ⟨tables, space, invariant⟩ notLoad
    exact ⟨tables, space, invariant.skip notLoad⟩
  load := by
    rintro seen s s' i ⟨tables, space, invariant⟩ inFile new below isLoad ran
      succeeded
    have placeable := loadable.segments i below isLoad
    have content := loadable.contents i below isLoad
    obtain ⟨segmentRegion, tables', step⟩ := loadSegment_spec
      (base + (ElfImage.programHeader file i).fOff) invariant.pager placeable.sized
      placeable.fits (by rw [invariant.header, describes.basePtr]) (by omega)
      (contents_apart invariant.fileApart content) ran succeeded
    exact ⟨tables', _, invariant.load placeable content isLoad
      (fun page => invariant.unmapped loadable inFile below new isLoad) step⟩

/-- A successful `elf_expand` of a 64-bit file is a successful run of its
loop. -/
theorem elfExpand_eq_some {s s' : KickstartState} (wide : s.header.arch = .amd64) :
    elfExpand s = some (true, s') ↔
      ∃ s₁, loadSegments
          ((s.header.basePtr + s.header.progHeaderOffset) % 2 ^ 64 % 2 ^ 32)
          (List.range s.header.progHeaderCount) s = some (true, s₁) ∧
        s' = { s₁ with programEntryPoint := s₁.header.entryPoint } := by
  simp only [elfExpand, wide, Option.map_eq_some_iff, Prod.exists]
  constructor
  · rintro ⟨loaded, s₁, ran, same⟩
    cases loaded with
    | false => simp at same
    | true => exact ⟨s₁, ran, (Prod.mk.inj same).2.symm⟩
  · rintro ⟨s₁, ran, rfl⟩
    exact ⟨true, s₁, ran, rfl⟩

theorem elfExpand_allocations {s s' : KickstartState}
    (ran : elfExpand s = some (true, s')) : s.allocations ⊆ s'.allocations := by
  cases arch : s.header.arch with
  | x86 =>
      simp only [elfExpand, arch, Option.map_some, Option.some.injEq, if_true,
        Prod.mk.injEq, true_and] at ran
      rw [← ran]
      exact List.Subset.refl _
  | amd64 =>
      obtain ⟨s₁, loaded, rfl⟩ := (elfExpand_eq_some arch).mp ran
      have grows := loadSegments_allocations loaded
      exact grows

/-- A state in which the header of a 64-bit file has been read, and the file lies
out of the allocator's reach. -/
structure ElfRead (s : KickstartState) (file : Nat → UInt8) (base size : Nat) :
    Prop where
  regions : AvailableInvariant s.memoryRegions
  holds : HoldsFile s.memory base size file
  low : base + size ≤ 2 ^ 32
  unavailable : Disjoint (availableBytes s.memoryRegions)
    (Set.Ico base (base + size))
  describes : Describes s.header file base
  wide : s.header.arch = .amd64

namespace ElfRead

variable {s s' ready done : KickstartState} {file : Nat → UInt8} {base size : Nat}

/-- Messages change nothing about it. -/
theorem congr (read : ElfRead s file base size) (control : SameControl s s')
    (memory : s'.memory = s.memory) : ElfRead s' file base size := by
  obtain ⟨regions, holds, low, unavailable, describes, wide⟩ := read
  rw [← control.regions] at regions unavailable
  rw [← memory] at holds
  rw [← control.header] at describes wide
  exact ⟨regions, holds, low, unavailable, describes, wide⟩

theorem outside (read : ElfRead s file base size) {i : Nat} (below : i < size) :
    base + i ∉ availableBytes s.memoryRegions := fun isAvailable =>
  Set.disjoint_left.mp read.unavailable isAvailable ⟨by omega, by omega⟩

/-- The state after `initialize_pager` starts the loop of `elf_expand`. -/
theorem starts (read : ElfRead s file base size)
    (paged : initializePager .bits64 s = some (true, ready))
    (succeeded : ∀ outcome ∈ ready.allocations, Succeeded outcome) :
    ∃ tables, LoadInvariant file base size s.header ready.topPageStructure []
      ready tables identitySpace := by
  obtain ⟨tables, built⟩ := initializePager_spec read.regions paged succeeded
  refine ⟨tables, built.pager, rfl, ?_, ?_, built.header, by simp,
    fun _ _ => rfl, ?_⟩
  · intro i below
    rw [built.frame _ (read.outside below)]
    exact read.holds i below
  · exact fun i below inPager => read.outside below (built.claimed inPager)
  · intro page mapping mapped
    rw [identitySpace] at mapped
    split at mapped
    next small => exact Or.inl small
    · cases mapped

/-- A successful `elf_expand` has loaded all segments. -/
theorem loads (read : ElfRead s file base size)
    (loadable : ElfImage.Loadable file size)
    (paged : initializePager .bits64 s = some (true, ready))
    (expanded : elfExpand ready = some (true, done))
    (succeeded : ∀ outcome ∈ done.allocations, Succeeded outcome) :
    ∃ s₁ tables space, LoadInvariant file base size s.header
        ready.topPageStructure (List.range (ElfImage.phNum file)) s₁ tables space ∧
      done = { s₁ with programEntryPoint := s₁.header.entryPoint } := by
  obtain ⟨tables, invariant⟩ := read.starts paged fun outcome inside =>
    succeeded outcome (elfExpand_allocations expanded inside)
  have describes := read.describes
  obtain ⟨s₁, ran, rfl⟩ := (elfExpand_eq_some
    (by rw [invariant.header, read.wide])).mp expanded
  rw [invariant.header, describes.basePtr, describes.offset,
    describes.count] at ran
  obtain ⟨tables', space', invariant'⟩ := (LoadInvariant.loop describes loadable
    read.low).run describes loadable.headed read.low ⟨tables, _, invariant⟩
    (by simp) (by simpa using List.nodup_range) ran succeeded
  exact ⟨s₁, tables', space', invariant', rfl⟩

end ElfRead

/-- An `elf_initialize` that accepts a 64-bit file for x86-64 reads its header. -/
theorem elfInitialize_reads {s s' : KickstartState} {file : Nat → UInt8}
    {base size : Nat} (regions : AvailableInvariant s.memoryRegions)
    (holds : HoldsFile s.memory base size file) (low : base + size ≤ 2 ^ 32)
    (unavailable : Disjoint (availableBytes s.memoryRegions)
      (Set.Ico base (base + size)))
    (headed : ElfImage.Headed file size)
    (accepted : elfInitialize base s = (true, s'))
    (wide : s'.header.arch = .amd64) :
    ElfRead s' file base size ∧ s'.memoryRegions = s.memoryRegions ∧
      s'.allocations = s.allocations := by
  obtain ⟨only, header⟩ := elfInitialize_spec holds headed.header headed.is64
    low accepted
  have sameRegions : s'.memoryRegions = s.memoryRegions := by rw [only]
  have sameMemory : s'.memory = s.memory := by rw [only]
  refine ⟨⟨?_, ?_, low, ?_, ?_, wide⟩, sameRegions, by rw [only]⟩
  · rw [sameRegions]
    exact regions
  · rw [sameMemory]
    exact holds
  · rw [sameRegions]
    exact unavailable
  · rw [header]
    exact ⟨rfl, rfl, rfl, rfl, rfl, rfl⟩

theorem elfInitialize_wide {s s' : KickstartState} {file : Nat → UInt8}
    {base size : Nat} (holds : HoldsFile s.memory base size file)
    (low : base + size ≤ 2 ^ 32) (headed : ElfImage.Headed file size)
    (machine : ElfImage.machine file = emX8664)
    (accepted : elfInitialize base s = (true, s')) :
    s'.header.arch = .amd64 := by
  rw [(elfInitialize_spec holds headed.header headed.is64 low accepted).2,
    machine]
  rfl

/-- A file for x86-64 that `elf_initialize` accepts in a state without files or
blocks in its way. -/
theorem elfInitialize_accepts {s : KickstartState} {file : Nat → UInt8}
    {base size : Nat} (regions : AvailableInvariant s.memoryRegions)
    (holds : HoldsFile s.memory base size file) (low : base + size ≤ 2 ^ 32)
    (unavailable : Disjoint (availableBytes s.memoryRegions)
      (Set.Ico base (base + size)))
    (headed : ElfImage.Headed file size)
    (machine : ElfImage.machine file = emX8664)
    (accepted : (elfInitialize base s).1 = true) :
    ∃ initialized, elfInitialize base s = (true, initialized) ∧
      ElfRead initialized file base size ∧
      initialized.memoryRegions = s.memoryRegions ∧
      initialized.allocations = s.allocations := by
  have parsed : elfInitialize base s = (true, (elfInitialize base s).2) :=
    Prod.ext accepted rfl
  exact ⟨_, parsed, elfInitialize_reads regions holds low unavailable headed
    parsed (elfInitialize_wide holds low headed machine parsed)⟩

/-- Loading a kernel preserves its contents: each byte of each loadable segment
is mapped, holds the byte of the file or zero, and is writable and executable
exactly as the program header says. -/
theorem elfExpand_preserves_contents {start initialized ready done : KickstartState}
    {file : Nat → UInt8} {base size : Nat}
    (regions : TableInvariant start.memoryRegions)
    (holds : HoldsFile start.memory base size file)
    (low : base + size ≤ 2 ^ 32)
    (unavailable : Disjoint (availableBytes start.memoryRegions)
      (Set.Ico base (base + size)))
    (loadable : ElfImage.Loadable file size)
    (machine : ElfImage.machine file = emX8664)
    (accepted : elfInitialize base start = (true, initialized))
    (paged : initializePager .bits64 initialized = some (true, ready))
    (expanded : elfExpand ready = some (true, done))
    (succeeded : ∀ outcome ∈ done.allocations, Succeeded outcome) :
    ∀ i < ElfImage.phNum file, (ElfImage.programHeader file i).type = ptLoad →
      ∀ k < (ElfImage.programHeader file i).memLen,
        ∃ mapping, translatePage done.memory done.topPageStructure
            ((ElfImage.programHeader file i).vaddr + k) = some mapping ∧
          done.memory (mapping.frame +
              ((ElfImage.programHeader file i).vaddr + k) % 4096) =
            (if k < (ElfImage.programHeader file i).fileLen then
              file ((ElfImage.programHeader file i).fOff + k) else 0) ∧
          mapping.writable =
            decide ((ElfImage.programHeader file i).flags &&& pfW ≠ 0) ∧
          mapping.executable =
            decide ((ElfImage.programHeader file i).flags &&& pfX ≠ 0) := by
  obtain ⟨read, _⟩ := elfInitialize_reads regions.available holds low unavailable
    loadable.headed accepted
    (elfInitialize_wide holds low loadable.headed machine accepted)
  obtain ⟨s₁, tables, space, invariant, rfl⟩ := read.loads loadable paged expanded
    succeeded
  intro i below isLoad k inSegment
  obtain ⟨segmentRegion, held⟩ := invariant.loaded i (by simpa using below) isLoad
  have placeable := loadable.segments i below isLoad
  generalize ElfImage.programHeader file i = ph at held placeable inSegment ⊢
  have bounds := pageCount_bounds placeable.notEmpty placeable.small
  have aligned := placeable.aligned
  have samePage : pageNumber (ph.vaddr + k) =
      pageNumber (ph.vaddr + 4096 * (k / 4096)) := by
    rw [pageNumber, pageNumber]
    congr 1
    omega
  have translated := held.mapped (k / 4096) (by omega)
  rw [← samePage] at translated
  have walked := (invariant.pager.tree.translatePage_eq invariant.pager.root
    (ph.vaddr + k)).trans translated
  have offset : segmentRegion + 4096 * (k / 4096) + (ph.vaddr + k) % 4096 =
      segmentRegion + k := by omega
  refine ⟨_, walked, ?_, rfl, rfl⟩
  dsimp only
  rw [offset]
  exact held.bytes k (by omega)

/-! ## A kernel of one segment -/

/-- A segment of one page loads with the allocation of its block and those that
mapping the page takes. -/
theorem loadSegment_onePage {s : KickstartState} {tables : Tables}
    {space : AddressSpace} {ph : ProgramHeader} {segmentRegion : Nat}
    {regions : RegionTable} {taken : List (Option MemoryRegion)}
    (pager : PagerInvariant s tables space) (word : ph.vaddr < 2 ^ 64)
    (onePage : pagesNeeded ph.memLen = 1)
    (block : pmmAllocateRegionWithType s.memoryRegions 1 .kernel =
      some (segmentRegion, regions))
    (succeeded : ∀ outcome ∈ s.allocations ++
      [allocatedBlock s.memoryRegions 1 .kernel], Succeeded outcome)
    (maps : ∀ s₂, PagerInvariant s₂ tables space → s₂.memoryRegions = regions →
      ∃ s₃, mapPage segmentRegion ph.vaddr (segmentPerms ph.flags) s₂ = some s₃ ∧
        s₃.header = s₂.header ∧
        s₃.allocations = s₂.allocations ++ taken) :
    ∃ s', loadSegment ph s = some (true, s') ∧ s'.header = s.header ∧
      s'.allocations = s.allocations ++
        [allocatedBlock s.memoryRegions 1 .kernel] ++ taken := by
  rw [loadSegment]
  dsimp only
  rw [onePage]
  generalize start : serialPrintf _ _ s = s₀
  have control₀ : SameControl s s₀ := start ▸ serialPrintf_sameControl _ _ s
  have memory₀ : s₀.memory = s.memory := by
    rw [← start]
    rfl
  rw [← control₀.regions] at block succeeded
  rw [← control₀.allocations] at succeeded
  obtain ⟨s₁, given, regions₁, history₁⟩ := exists_allocateRegionWithType block
  have allocated := allocateRegionWithType_spec
    (by rw [control₀.regions]; exact pager.regions) (by decide) (by decide)
    (by decide) given (by rw [history₁]; exact succeeded)
  rw [given, Option.bind_some, if_neg (Nat.ne_of_gt allocated.notNull)]
  generalize prepared : ({ serialPrintf "Pages needed: %u\n" [1]
    (serialPrintf "Kernel segment is to be mapped to physical page 0x%x\n"
      [segmentRegion] s₁) with memory := _ } : KickstartState) = s₂
  have control₂ : SameControl s₁ s₂ := by
    rw [← prepared]
    exact ⟨rfl, rfl, rfl, rfl, rfl, rfl⟩
  have memory₂ : s₂.memory = memset s₁.memory segmentRegion 0 (4096 * 1) := by
    rw [← prepared]
    dsimp only
    rw [show 1 * 0x1000 % 2 ^ 32 = 4096 * 1 by decide]
    rfl
  have pager₂ := (blockCleared pager control₀ memory₀ allocated control₂
    memory₂).pager
  obtain ⟨s₃, mapped, header₃, history₃⟩ := maps s₂ pager₂
    (control₂.regions.trans regions₁)
  have low := allocated.low
  have calls : mapPages [⟨segmentRegion, ph.vaddr, segmentPerms ph.flags⟩] s₂ =
      some s₃ := mapPages_cons.mpr ⟨s₃, mapped, rfl⟩
  have ran : mapSegment segmentRegion ph.vaddr (segmentPerms ph.flags) 1 s₂ =
      some s₃ := by
    rw [mapSegment_eq_mapPages, List.range_one, List.map_singleton, Nat.zero_mul,
      Nat.zero_mod, Nat.add_zero, Nat.add_zero, Nat.mod_eq_of_lt word,
      Nat.mod_eq_of_lt (show segmentRegion < 2 ^ 32 by omega)]
    exact calls
  rw [ran, Option.map_some]
  refine ⟨_, rfl, ?_, ?_⟩
  · rw [header₃, control₂.header, allocated.header_eq, control₀.header]
  · rw [history₃, control₂.allocations, history₁, control₀.regions,
      control₀.allocations]

/-- The segment of a kernel of one segment of one page is loaded by the
allocations for the tables, for its block and for mapping the page. -/
theorem onePage_segment {s : KickstartState} {file : Nat → UInt8}
    {base size pml4Addr segmentRegion : Nat} {ph : ProgramHeader}
    {first second : RegionTable} {taken : List (Option MemoryRegion)}
    (read : ElfRead s file base size) (headed : ElfImage.Headed file size)
    (one : ElfImage.phNum file = 1) (isHeader : ElfImage.programHeader file 0 = ph) (word : ph.vaddr < 2 ^ 64)
    (onePage : pagesNeeded ph.memLen = 1)
    (tables : pmmAllocateRegionWithType s.memoryRegions 4 .allocated =
      some (pml4Addr, first))
    (block : pmmAllocateRegionWithType first 1 .kernel = some (segmentRegion, second))
    (succeeded : ∀ outcome ∈ s.allocations ++
      [allocatedBlock s.memoryRegions 4 .allocated] ++
        [allocatedBlock first 1 .kernel], Succeeded outcome)
    (maps : ∀ s₂, PagerInvariant s₂ (identTables pml4Addr) identitySpace →
      s₂.memoryRegions = second →
      ∃ s₃, mapPage segmentRegion ph.vaddr (segmentPerms ph.flags) s₂ = some s₃ ∧
        s₃.header = s₂.header ∧
        s₃.allocations = s₂.allocations ++ taken) :
    ∃ ready loaded, initializePager .bits64 s = some (true, ready) ∧
      ready.header = s.header ∧
      readProgHeader ready.header ready.memory
        (((base + ElfImage.phOff file) % 2 ^ 64 % 2 ^ 32 +
          ready.header.progHeaderLen * 0) % 2 ^ 32) = ph ∧
      loadSegment ph ready = some (true, loaded) ∧
      loaded.header = s.header ∧
      loaded.allocations = s.allocations ++
        [allocatedBlock s.memoryRegions 4 .allocated] ++
          [allocatedBlock first 1 .kernel] ++ taken := by
  have describes := read.describes
  -- The pager takes its four tables.
  obtain ⟨s₁, given, regions₁, history₁⟩ :=
    exists_allocateRegionWithType (s := { s with pageType := .bits64 }) tables
  have succeeded₁ : ∀ outcome ∈ s₁.allocations, Succeeded outcome := by
    rw [history₁]
    exact fun outcome inside => succeeded outcome (List.mem_append_left _ inside)
  obtain ⟨ready, paged, control, pager⟩ := initializePager_isSome read.regions given
    succeeded₁
  have regionsReady : ready.memoryRegions = first := control.regions.trans regions₁
  have historyReady : ready.allocations = s₁.allocations := control.allocations
  obtain ⟨_, started⟩ := read.starts paged (by rw [historyReady]; exact succeeded₁)
  -- The loader takes a block for the only segment.
  have below : 0 < ElfImage.phNum file := by rw [one]; exact Nat.one_pos
  have header := (readProgHeader_loop (by rw [started.header]; exact describes)
    started.holds read.low (headed.headers 0 below)).trans isHeader
  rw [← regionsReady] at block
  obtain ⟨loaded, ran, header₂, history₂⟩ := loadSegment_onePage pager word onePage
    block (by rw [historyReady, history₁, regionsReady]; exact succeeded) maps
  refine ⟨ready, loaded, paged, started.header, header, ran,
    header₂.trans started.header, ?_⟩
  rw [history₂, historyReady, history₁, regionsReady]

/-- A kernel of one segment of one page is loaded by these allocations. -/
theorem onePage_loads {s : KickstartState} {file : Nat → UInt8}
    {base size pml4Addr segmentRegion : Nat} {ph : ProgramHeader}
    {first second : RegionTable} {taken : List (Option MemoryRegion)}
    (read : ElfRead s file base size) (headed : ElfImage.Headed file size)
    (one : ElfImage.phNum file = 1) (isHeader : ElfImage.programHeader file 0 = ph)
    (isLoad : ph.type = ptLoad) (word : ph.vaddr < 2 ^ 64)
    (onePage : pagesNeeded ph.memLen = 1)
    (tables : pmmAllocateRegionWithType s.memoryRegions 4 .allocated =
      some (pml4Addr, first))
    (block : pmmAllocateRegionWithType first 1 .kernel = some (segmentRegion, second))
    (succeeded : ∀ outcome ∈ s.allocations ++
      [allocatedBlock s.memoryRegions 4 .allocated] ++
        [allocatedBlock first 1 .kernel], Succeeded outcome)
    (maps : ∀ s₂, PagerInvariant s₂ (identTables pml4Addr) identitySpace →
      s₂.memoryRegions = second →
      ∃ s₃, mapPage segmentRegion ph.vaddr (segmentPerms ph.flags) s₂ = some s₃ ∧
        s₃.header = s₂.header ∧
        s₃.allocations = s₂.allocations ++ taken) :
    ∃ ready done, initializePager .bits64 s = some (true, ready) ∧
      elfExpand ready = some (true, done) ∧ done.header = s.header ∧
      done.allocations = s.allocations ++
        [allocatedBlock s.memoryRegions 4 .allocated] ++
          [allocatedBlock first 1 .kernel] ++ taken := by
  have describes := read.describes
  obtain ⟨ready, loaded, paged, sameHeader, isRead, ran, header, history⟩ :=
    onePage_segment read headed one isHeader word onePage tables block succeeded maps
  have looped : loadSegments ((base + ElfImage.phOff file) % 2 ^ 64 % 2 ^ 32) [0]
      ready = some (true, loaded) := by
    rw [loadSegments]
    dsimp only
    rw [isRead, if_neg (not_not.mpr isLoad), ran, Option.bind_some]
    rfl
  have expanded : elfExpand ready =
      some (true, { loaded with programEntryPoint := loaded.header.entryPoint }) := by
    refine (elfExpand_eq_some ?_).mpr ⟨loaded, ?_, rfl⟩
    · rw [sameHeader, read.wide]
    · rw [sameHeader, describes.basePtr, describes.offset, describes.count, one]
      exact looped
  exact ⟨ready, _, paged, expanded, header, history⟩

/-- A kernel file with one segment at 2 MiB, of one byte in the file and one
zero byte behind it. -/
def oneSegmentBytes : List UInt8 :=
  [0x7F, 0x45, 0x4C, 0x46, 2, 1, 1, 0, 0, 0, 0, 0, 0, 0, 0, 0,
    2, 0, 62, 0, 1, 0, 0, 0, 0, 0, 0x20, 0, 0, 0, 0, 0,
    64, 0, 0, 0, 0, 0, 0, 0, 0, 0, 0, 0, 0, 0, 0, 0,
    0, 0, 0, 0, 64, 0, 56, 0, 1, 0, 64, 0, 0, 0, 0, 0,
    1, 0, 0, 0, 5, 0, 0, 0, 120, 0, 0, 0, 0, 0, 0, 0,
    0, 0, 0x20, 0, 0, 0, 0, 0, 0, 0, 0x20, 0, 0, 0, 0, 0,
    1, 0, 0, 0, 0, 0, 0, 0, 2, 0, 0, 0, 0, 0, 0, 0,
    0, 0x10, 0, 0, 0, 0, 0, 0, 0xF4]

/-- The file of these bytes. -/
def oneSegmentFile (i : Nat) : UInt8 := oneSegmentBytes.getD i 0

theorem oneSegmentFile_programHeader :
    ElfImage.programHeader oneSegmentFile 0 =
      { type := ptLoad, flags := pfR ||| pfX, fOff := 120, vaddr := 0x200000,
        fileLen := 1, memLen := 2 } := by
  decide

theorem oneSegmentFile_loadable : ElfImage.Loadable oneSegmentFile 121 := by
  have only : ∀ i < ElfImage.phNum oneSegmentFile, i = 0 := by
    have one : ElfImage.phNum oneSegmentFile = 1 := by decide
    omega
  refine ⟨by decide, by decide, ?_, ?_, ?_, ?_⟩
  · intro i below
    rw [only i below]
    decide
  · intro i below _
    rw [only i below, oneSegmentFile_programHeader]
    decide
  · intro i below _
    rw [only i below, oneSegmentFile_programHeader]
    exact ⟨by decide, by decide, by decide, by decide, by decide, by decide,
      by decide⟩
  · intro i belowI j belowJ different
    rw [only i belowI, only j belowJ] at different
    exact absurd rfl different

/-- With the first tables, the page at 2 MiB is mapped by one allocation. -/
theorem mapPage_at2MiB {pml4Addr table : Nat} {regions after : RegionTable}
    (page : pmmAllocateRegionWithType regions 1 .allocated = some (table, after))
    (physAddr permFlags : Nat) :
    ∀ s, PagerInvariant s (identTables pml4Addr) identitySpace →
      s.memoryRegions = regions →
      ∃ s', mapPage physAddr 0x200000 permFlags s = some s' ∧
        s'.header = s.header ∧
        s'.allocations = s.allocations ++ [allocatedBlock regions 1 .allocated] := by
  have foundPdp : identTables pml4Addr [tableIndex 3 0x200000] =
      some (pml4Addr + 0x1000) := by
    simp [identTables, tableIndex]
  have foundPd : identTables pml4Addr [tableIndex 3 0x200000,
      tableIndex 2 0x200000] = some (pml4Addr + 0x2000) := by
    simp [identTables, tableIndex]
  have missing : identTables pml4Addr [tableIndex 3 0x200000,
      tableIndex 2 0x200000, tableIndex 1 0x200000] = none := by
    simp [identTables, tableIndex]
  intro s pager same
  rw [← same] at page
  obtain ⟨s', mapped, control⟩ := mapPage_missing pager physAddr permFlags
    foundPdp foundPd missing (allocateRegionWithType_eq page)
  refine ⟨s', mapped, control.header, ?_⟩
  rw [control.allocations, same]

/-- A kernel of one segment is loaded by three allocations. -/
theorem oneSegment_loads {s : KickstartState} {base pml4Addr segmentRegion table : Nat}
    {first second third : RegionTable} (read : ElfRead s oneSegmentFile base 121)
    (tables : pmmAllocateRegionWithType s.memoryRegions 4 .allocated =
      some (pml4Addr, first))
    (block : pmmAllocateRegionWithType first 1 .kernel = some (segmentRegion, second))
    (page : pmmAllocateRegionWithType second 1 .allocated = some (table, third))
    (succeeded : ∀ outcome ∈ s.allocations ++
      [allocatedBlock s.memoryRegions 4 .allocated] ++
        [allocatedBlock first 1 .kernel] ++ [allocatedBlock second 1 .allocated],
      Succeeded outcome) :
    ∃ ready done, initializePager .bits64 s = some (true, ready) ∧
      elfExpand ready = some (true, done) ∧ done.header = s.header ∧
      done.allocations = s.allocations ++
        [allocatedBlock s.memoryRegions 4 .allocated] ++
          [allocatedBlock first 1 .kernel] ++
            [allocatedBlock second 1 .allocated] :=
  onePage_loads read oneSegmentFile_loadable.headed (by decide)
    oneSegmentFile_programHeader rfl (by decide) (by decide) tables block
    (fun outcome inside => succeeded outcome (List.mem_append_left _ inside))
    (mapPage_at2MiB page _ _)

/-- A state with this file at an address. -/
def oneSegmentAt (base : Nat) (regions : RegionTable) : KickstartState :=
  { freeMebibyte with
    memory := fun x => if base ≤ x then oneSegmentFile (x - base) else 0
    memoryRegions := regions }

theorem oneSegmentAt_holds (base : Nat) (regions : RegionTable) :
    HoldsFile (oneSegmentAt base regions).memory base 121 oneSegmentFile := by
  intro i _
  rw [oneSegmentAt]
  dsimp only
  rw [if_pos (by omega), Nat.add_sub_cancel_left]

theorem oneSegmentAt_regions : TableInvariant
    (oneSegmentAt 0x300000 freeMebibyte.memoryRegions).memoryRegions :=
  freeMebibyte_regions

theorem oneSegmentAt_unavailable : Disjoint
    (availableBytes (oneSegmentAt 0x300000 freeMebibyte.memoryRegions).memoryRegions)
    (Set.Ico 0x300000 (0x300000 + 121)) :=
  disjoint_availableBytes (by decide)

/-- Behind the free mebibyte, this file is read and loaded. -/
theorem oneSegmentAt_loads : ∃ initialized ready done,
    elfInitialize 0x300000 (oneSegmentAt 0x300000 freeMebibyte.memoryRegions) =
      (true, initialized) ∧
    initializePager .bits64 initialized = some (true, ready) ∧
    elfExpand ready = some (true, done) ∧
    ∀ outcome ∈ done.allocations, Succeeded outcome := by
  obtain ⟨initialized, parsed, read, sameRegions, history⟩ :=
    elfInitialize_accepts oneSegmentAt_regions.available
      (oneSegmentAt_holds 0x300000 freeMebibyte.memoryRegions) (by decide)
      oneSegmentAt_unavailable oneSegmentFile_loadable.headed (by decide)
      (by decide)
  have given : ∀ outcome ∈ ([⟨0x100000, 0x104000, .allocated⟩,
      ⟨0x104000, 0x105000, .kernel⟩, ⟨0x105000, 0x106000, .allocated⟩] :
        List MemoryRegion).map some, Succeeded outcome :=
    succeeded_of_low (by decide)
  obtain ⟨ready, done, paged, expanded, _, recorded⟩ := oneSegment_loads read
    (by rw [sameRegions]; rfl) rfl rfl (by rw [sameRegions, history]; exact given)
  refine ⟨initialized, ready, done, parsed, paged, expanded, ?_⟩
  rw [recorded, sameRegions, history]
  exact given

/-- The second byte of the segment is mapped, zero, and only executable. -/
theorem elfExpand_preserves_oneSegment : ∃ done : KickstartState,
    ∃ mapping, translatePage done.memory done.topPageStructure 0x200001 =
        some mapping ∧
      done.memory (mapping.frame + 1) = 0 ∧ mapping.writable = false ∧
      mapping.executable = true := by
  obtain ⟨initialized, ready, done, parsed, paged, expanded, succeeded⟩ :=
    oneSegmentAt_loads
  obtain ⟨mapping, translated, byte, writable, executable⟩ :=
    elfExpand_preserves_contents oneSegmentAt_regions
      (oneSegmentAt_holds 0x300000 freeMebibyte.memoryRegions) (by decide)
      oneSegmentAt_unavailable oneSegmentFile_loadable (by decide) parsed paged
      expanded succeeded 0 (by decide) (by decide) 1 (by decide)
  exact ⟨done, mapping, translated, byte, writable, executable⟩

end SampoOS.Kickstart
