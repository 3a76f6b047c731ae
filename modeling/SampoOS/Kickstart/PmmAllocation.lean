/-
Module: SampoOS.Kickstart.PmmAllocation
Purpose: What a caller of pmm_allocate_region_with_type can rely on: the pointer
  it gets, the block it owns, and the table after a failure.
Trusted boundary: none
Main exports: AllocatorTable, SearchableTable, LowestFit, ReturnsRecordedBlock,
  pmmAllocateRegionWithType_returns_recorded_iff,
  pmmAllocateRegionWithType_null_unchanged_iff
-/
import Mathlib.Data.List.Pairwise
import SampoOS.Kickstart.PmmSpec

namespace SampoOS.Kickstart

/-- A table that the allocator can be called on: it keeps the table invariant,
its regions are ordered, the available ones end at or below 2^52, and an entry
of the array is free. -/
structure AllocatorTable (table : RegionTable) : Prop where
  keeps : TableInvariant table
  proper : ∀ region ∈ table, region.addrStart < region.addrEnd
  bounded : ∀ region ∈ table, region.type = .available →
    region.addrEnd ≤ 2 ^ 52
  room : table.length < memoryRegionsLength

/-- What the search of an allocation relies on, whether an entry of the array is
free or not. -/
structure SearchableTable (table : RegionTable) : Prop where
  keeps : TableInvariant table
  proper : ∀ region ∈ table, region.addrStart < region.addrEnd
  bounded : ∀ region ∈ table, region.type = .available →
    region.addrEnd ≤ 2 ^ 52

theorem AllocatorTable.ordered {table : RegionTable}
    (good : AllocatorTable table) : SearchableTable table :=
  ⟨good.keeps, good.proper, good.bounded⟩

/-- A table of a single available region. -/
theorem AllocatorTable.single {start stop : Nat} (proper : start < stop)
    (bounded : stop ≤ 2 ^ 52) (alignedStart : 4096 ∣ start)
    (alignedEnd : 4096 ∣ stop) :
    AllocatorTable [{ addrStart := start, addrEnd := stop, type := .available }] where
  keeps :=
    { sorted := List.pairwise_singleton _ _
      nonempty := by
        simp only [List.mem_singleton, forall_eq]
        omega
      aligned := by
        simp only [List.mem_singleton, forall_eq]
        exact fun _ => ⟨alignedStart, alignedEnd⟩
      separate := List.pairwise_singleton _ _ }
  proper := by
    simp only [List.mem_singleton, forall_eq]
    exact proper
  bounded := by
    simp only [List.mem_singleton, forall_eq]
    exact fun _ => bounded
  room := by simp [memoryRegionsLength]

/-! ## The region an allocation is taken from -/

/-- Memory an allocation of `len` bytes may be taken from: available, from
1 MiB on, and long enough. -/
structure Fits (len : Nat) (region : MemoryRegion) : Prop where
  available : region.type = .available
  high : 0x100000 ≤ region.addrStart
  long : region.addrStart + len ≤ region.addrEnd

instance (len : Nat) (region : MemoryRegion) : Decidable (Fits len region) :=
  decidable_of_iff
    (region.type = .available ∧ 0x100000 ≤ region.addrStart ∧
      region.addrStart + len ≤ region.addrEnd)
    ⟨fun ⟨available, high, long⟩ => ⟨available, high, long⟩,
      fun fits => ⟨fits.available, fits.high, fits.long⟩⟩

/-- The lowest entry of the table that fits. -/
structure LowestFit (table : RegionTable) (len : Nat) (region : MemoryRegion) :
    Prop where
  inside : region ∈ table
  fits : Fits len region
  lowest : ∀ other ∈ table, Fits len other →
    region.addrStart ≤ other.addrStart

namespace SearchableTable

variable {table : RegionTable}

/-- Below 2^52 the 64-bit end of a block does not wrap, so the search tests
what it means to test. -/
theorem fitsAllocation_iff_fits (good : SearchableTable table) {len : Nat}
    (short : len < 2 ^ 32) {region : MemoryRegion} (inside : region ∈ table) :
    fitsAllocation len region = true ↔ Fits len region := by
  rw [fitsAllocation_iff]
  constructor
  · rintro ⟨high, available, long⟩
    have proper := good.proper region inside
    have bounded := good.bounded region inside available
    rw [Nat.mod_eq_of_lt (by omega)] at long
    exact ⟨available, high, long⟩
  · rintro ⟨available, high, long⟩
    have bounded := good.bounded region inside available
    rw [Nat.mod_eq_of_lt (by omega)]
    exact ⟨high, available, long⟩

/-- Two entries of which one is available start at different addresses. -/
theorem eq_of_addrStart_eq (good : SearchableTable table)
    {a b : MemoryRegion} (insideA : a ∈ table) (insideB : b ∈ table)
    (available : a.type = .available) (start : a.addrStart = b.addrStart) :
    a = b := by
  by_contra different
  have : Std.Symm Separate := ⟨fun _ _ separate => separate.symm⟩
  have apart : a.Apart b := good.keeps.separate.forall insideA insideB different
    (Or.inl available)
  have properA := good.proper a insideA
  have properB := good.proper b insideB
  exact MemoryRegion.apart_iff.mp apart a.addrStart
    (MemoryRegion.mem_bytes.mpr ⟨Nat.le_refl _, properA⟩)
    (MemoryRegion.mem_bytes.mpr ⟨by omega, by omega⟩)

/-- The first region that fits is the lowest one, since the table is sorted. -/
theorem find?_eq_some_iff (good : SearchableTable table) {len : Nat}
    (short : len < 2 ^ 32) {region : MemoryRegion} :
    table.find? (fitsAllocation len) = some region ↔
      LowestFit table len region := by
  have firstIsLowest : ∀ first,
      table.find? (fitsAllocation len) = some first →
      LowestFit table len first := by
    intro first found
    obtain ⟨fits, before, behind, split, misses⟩ :=
      List.find?_eq_some_iff_append.mp found
    have inside : first ∈ table := by simp [split]
    refine ⟨inside, (good.fitsAllocation_iff_fits short inside).mp fits, ?_⟩
    intro other member otherFits
    have hit := (good.fitsAllocation_iff_fits short member).mpr otherFits
    have sorted := good.keeps.sorted
    rw [split, Sorted, List.pairwise_append, List.pairwise_cons] at sorted
    rw [split, List.mem_append, List.mem_cons] at member
    rcases member with member | rfl | member
    · exact absurd hit (by simpa using misses other member)
    · exact Nat.le_refl _
    · exact sorted.2.1.1 other member
  constructor
  · exact firstIsLowest region
  · intro low
    have hit := (good.fitsAllocation_iff_fits short low.inside).mpr low.fits
    obtain ⟨first, found⟩ : ∃ first, table.find? (fitsAllocation len) = some first :=
      Option.isSome_iff_exists.mp (List.find?_isSome.mpr ⟨region, low.inside, hit⟩)
    have lowFirst := firstIsLowest first found
    rw [found, Option.some.injEq]
    apply good.eq_of_addrStart_eq lowFirst.inside low.inside
      lowFirst.fits.available
    exact Nat.le_antisymm (lowFirst.lowest region low.inside low.fits)
      (low.lowest first lowFirst.inside lowFirst.fits)

theorem firstFit_eq_some_iff (good : SearchableTable table)
    {regionPageCount : Nat} {region : MemoryRegion} :
    firstFit table regionPageCount = some region ↔
      regionPageCount ≠ 0 ∧
        LowestFit table (allocationLength regionPageCount) region := by
  have short : allocationLength regionPageCount < 2 ^ 32 :=
    Nat.mod_lt _ (by decide)
  rw [firstFit]
  by_cases nothing : regionPageCount = 0
  · simp [nothing]
  · rw [if_neg nothing, good.find?_eq_some_iff short]
    exact ⟨fun low => ⟨nothing, low⟩, fun low => low.2⟩

end SearchableTable

/-! ## The pointer and the block -/

/-- The caller is given the lowest region that fits, by a pointer that is its
address, and owns the block that the table records; without such a region it is
given `NULL`. -/
def ReturnsRecordedBlock (table : RegionTable) (regionPageCount : Nat)
    (type : MemoryRegionType) : Prop :=
  ∃ ret after,
    pmmAllocateRegionWithType table regionPageCount type = some (ret, after) ∧
      (∀ region, LowestFit table (4096 * regionPageCount) region →
        let block : MemoryRegion :=
          { addrStart := ret
            addrEnd := ret + 4096 * regionPageCount
            type := type }
        ret ≠ 0 ∧ ret = region.addrStart ∧ block ∈ after ∧
          ∃ before behind, table = before ++ region :: behind ∧
            CarvesFrom before region behind block after) ∧
      ((∀ region ∈ table, ¬ Fits (4096 * regionPageCount) region) → ret = 0)

/-- For every count of pages that `size_t` can express in bytes, the pointer
and the record agree if and only if the lowest region that fits, should there be
one, starts below 4 GiB. -/
theorem pmmAllocateRegionWithType_returns_recorded_iff {table : RegionTable}
    (good : AllocatorTable table) {regionPageCount : Nat}
    (positive : 1 ≤ regionPageCount) (fits : regionPageCount < 2 ^ 20)
    (type : MemoryRegionType) :
    ReturnsRecordedBlock table regionPageCount type ↔
      ∀ region, LowestFit table (4096 * regionPageCount) region →
        region.addrStart < 2 ^ 32 := by
  have length : allocationLength regionPageCount = 4096 * regionPageCount := by
    rw [allocationLength_eq fits, Nat.mul_comm]
  have chosenIff : ∀ region, firstFit table regionPageCount = some region ↔
      LowestFit table (4096 * regionPageCount) region := by
    intro region
    rw [good.ordered.firstFit_eq_some_iff, length]
    exact ⟨fun chosen => chosen.2, fun low => ⟨by omega, low⟩⟩
  constructor
  · rintro ⟨ret, after, allocated, returned, _⟩ region low
    obtain ⟨_, pointer, _⟩ := returned region low
    obtain ⟨block, _, step⟩ :=
      AllocationStep.of_firstFit ((chosenIff region).mpr low) allocated
    have truncated : ret < 2 ^ 32 := by
      rw [step.ret_eq]
      exact Nat.mod_lt _ (by decide)
    omega
  · intro lowMemory
    obtain ⟨ret, after, allocated⟩ :=
      pmmAllocateRegionWithType_isSome regionPageCount type good.room
    refine ⟨ret, after, allocated, ?_, ?_⟩
    · intro region low
      have pointerFits := lowMemory region low
      have high := low.fits.high
      have bounded := good.bounded region low.inside low.fits.available
      obtain ⟨block, _, step⟩ :=
        AllocationStep.of_firstFit ((chosenIff region).mpr low) allocated
      have pointer : ret = region.addrStart := by
        rw [step.ret_eq, Nat.mod_eq_of_lt pointerFits]
      have notNull : ret ≠ 0 := by omega
      have noWrap : region.addrStart + allocationLength regionPageCount <
          2 ^ 64 := by omega
      have recorded : block =
          { addrStart := ret
            addrEnd := ret + 4096 * regionPageCount
            type := type } := by
        rw [step.block_eq, Nat.mod_eq_of_lt noWrap, length, pointer]
      obtain ⟨before, behind, split, carves⟩ :=
        step.carvesFrom good.keeps (by omega) noWrap notNull
      rw [recorded] at carves
      exact ⟨notNull, pointer, carves.mem_after.mpr (Or.inl rfl), before,
        behind, split, carves⟩
    · intro nothing
      rcases pmmAllocateRegionWithType_cases allocated with
        ⟨_, null, _⟩ | ⟨region, _, chosen, _⟩
      · exact null
      · have low := (chosenIff region).mp chosen
        exact absurd low.fits (nothing region low.inside)

/-- Two pages taken from memory that starts at 1 MiB. -/
theorem pmmAllocateRegionWithType_returns_recorded_low :
    ReturnsRecordedBlock [⟨0x100000, 0x200000, .available⟩] 2 .kernel ↔
      ∀ region,
        LowestFit [⟨0x100000, 0x200000, .available⟩] (4096 * 2) region →
        region.addrStart < 2 ^ 32 :=
  pmmAllocateRegionWithType_returns_recorded_iff
    (AllocatorTable.single (by decide) (by decide) (by decide) (by decide))
    (by decide) (by decide) .kernel

/-- A page taken from memory that starts at 5 GiB is recorded there, while the
pointer says 1 GiB. -/
theorem pmmAllocateRegionWithType_truncates_pointer :
    ¬ ∀ (table : RegionTable) (regionPageCount : Nat) (type : MemoryRegionType),
      AllocatorTable table → 1 ≤ regionPageCount → regionPageCount < 2 ^ 20 →
      type = .allocated ∨ type = .kernel →
      ReturnsRecordedBlock table regionPageCount type := by
  intro returns
  obtain ⟨ret, after, allocated, returned, _⟩ := returns
    [⟨0x140000000, 0x140004000, .available⟩] 1 .allocated
    (AllocatorTable.single (by decide) (by decide) (by decide) (by decide))
    (by decide) (by decide) (Or.inl rfl)
  have computed : pmmAllocateRegionWithType
      [⟨0x140000000, 0x140004000, .available⟩] 1 .allocated =
      some (0x40000000, [⟨0x140000000, 0x140001000, .allocated⟩,
        ⟨0x140001000, 0x140004000, .available⟩]) := by decide
  rw [computed, Option.some.injEq, Prod.mk.injEq] at allocated
  obtain ⟨rfl, rfl⟩ := allocated
  have pointer := (returned ⟨0x140000000, 0x140004000, .available⟩
    ⟨by simp, by decide, by simp⟩).2.1
  exact absurd pointer (by decide)

/-! ## Failure -/

/-- An allocation that returns `NULL` has changed nothing if and only if the
lowest region that fits, should there be one, does not start at a multiple of
4 GiB. -/
theorem pmmAllocateRegionWithType_null_unchanged_iff {table : RegionTable}
    (good : AllocatorTable table) (regionPageCount : Nat)
    (type : MemoryRegionType) :
    (∀ after,
        pmmAllocateRegionWithType table regionPageCount type = some (0, after) →
        after = table) ↔
      ∀ region, regionPageCount ≠ 0 →
        LowestFit table (allocationLength regionPageCount) region →
        region.addrStart % 2 ^ 32 ≠ 0 := by
  constructor
  · intro unchanged region asked low reads_null
    obtain ⟨ret, after, allocated⟩ :=
      pmmAllocateRegionWithType_isSome regionPageCount type good.room
    have chosen := good.ordered.firstFit_eq_some_iff.mpr ⟨asked, low⟩
    obtain ⟨block, _, step⟩ := AllocationStep.of_firstFit chosen allocated
    obtain rfl : ret = 0 := by rw [step.ret_eq, reads_null]
    have grown := step.length_of_null
    rw [unchanged after allocated] at grown
    omega
  · intro notNull after allocated
    rcases pmmAllocateRegionWithType_cases allocated with
      ⟨_, _, same⟩ | ⟨region, block, chosen, _, step⟩
    · exact same
    · obtain ⟨asked, low⟩ := good.ordered.firstFit_eq_some_iff.mp chosen
      exact absurd step.ret_eq.symm (notNull region asked low)

/-- A request that no memory is long enough for. -/
theorem pmmAllocateRegionWithType_null_unchanged_low :
    (∀ after,
        pmmAllocateRegionWithType [⟨0x100000, 0x104000, .available⟩] 5 .kernel =
          some (0, after) →
        after = [⟨0x100000, 0x104000, .available⟩]) ↔
      ∀ region, 5 ≠ 0 →
        LowestFit [⟨0x100000, 0x104000, .available⟩] (allocationLength 5) region →
        region.addrStart % 2 ^ 32 ≠ 0 :=
  pmmAllocateRegionWithType_null_unchanged_iff
    (AllocatorTable.single (by decide) (by decide) (by decide) (by decide))
    5 .kernel

/-- At 4 GiB the block is recorded and cut off its region, the table is left
unsorted, and the caller is told `NULL`. -/
theorem pmmAllocateRegionWithType_null_records_block :
    ¬ ∀ (table : RegionTable) (regionPageCount : Nat) (type : MemoryRegionType)
      (after : RegionTable), AllocatorTable table →
      pmmAllocateRegionWithType table regionPageCount type = some (0, after) →
      after = table := by
  intro unchanged
  have same := unchanged [⟨0x100000000, 0x100004000, .available⟩] 1 .allocated
    [⟨0x100001000, 0x100004000, .available⟩,
      ⟨0x100000000, 0x100001000, .allocated⟩]
    (AllocatorTable.single (by decide) (by decide) (by decide) (by decide))
    (by decide)
  exact absurd same (by decide)

end SampoOS.Kickstart
