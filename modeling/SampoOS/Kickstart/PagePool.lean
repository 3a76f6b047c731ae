/-
Module: SampoOS.Kickstart.PagePool
Purpose: The pages that single-page allocations hand out: the lowest one first,
  each of them once.
Trusted boundary: none
Main exports: freePages, SearchableTable.allocate, PageTaken,
  SearchableTable.allocatePage
-/
import Mathlib.Order.Bounds.Basic
import SampoOS.Kickstart.PmmAllocation

namespace SampoOS.Kickstart

/-- The pages that an allocation of one page may be given: those of the available
regions that start at or above 1 MiB. -/
def freePages (table : RegionTable) : Set Nat :=
  {page | ∃ region ∈ table, region.type = .available ∧
    0x100000 ≤ region.addrStart ∧ 4096 * page ∈ region.bytes}

/-- A page whose address is a multiple of 4 GiB has the pointer `NULL`. -/
theorem pointer_eq_zero_iff (page : Nat) :
    4096 * page % 2 ^ 32 = 0 ↔ 2 ^ 20 ∣ page := by
  omega

/-! ## Allocations that return a pointer -/

/-- An allocation whose pointer is not `NULL` leaves a table that the next one
can be called on. -/
theorem SearchableTable.allocate {table after : RegionTable}
    {regionPageCount ret : Nat} {type : MemoryRegionType}
    (good : SearchableTable table) (positive : 0 < regionPageCount)
    (fits : regionPageCount < 2 ^ 20) (taken : type ≠ .available)
    (ran : pmmAllocateRegionWithType table regionPageCount type =
      some (ret, after))
    (notNull : ret ≠ 0) : SearchableTable after := by
  rcases pmmAllocateRegionWithType_cases ran with
    ⟨_, null, _⟩ | ⟨region, block, chosen, _, step⟩
  · exact absurd null notNull
  · obtain ⟨inside, holds⟩ := firstFit_mem chosen
    obtain ⟨_, available, _⟩ := fitsAllocation_iff.mp holds
    have length := allocationLength_eq fits
    have bounded := good.bounded region inside available
    have proper := good.proper region inside
    have noWrap : region.addrStart + allocationLength regionPageCount <
        2 ^ 64 := by omega
    have aligned := good.keeps.aligned region inside available
    have carves := step.carves good.keeps (by omega) noWrap notNull
    have blockStart : block.addrStart = region.addrStart := by rw [step.block_eq]
    have blockEnd : block.addrEnd =
        region.addrStart + regionPageCount * 4096 := by
      rw [step.block_eq, ← length]
      exact Nat.mod_eq_of_lt noWrap
    have blockType : block.type = type := by rw [step.block_eq]
    refine ⟨?_, ?_, ?_⟩
    · apply carves.preserves_invariant good.keeps
      · rw [blockStart]
        exact aligned.1
      · rw [blockEnd]
        exact Nat.dvd_add aligned.1 (Nat.dvd_mul_left _ _)
    · intro entry member
      rcases carves.origin member with rfl | ⟨old, isOld, _, _, _, same | ordered⟩
      · rw [blockStart, blockEnd]
        omega
      · rw [same]
        exact good.proper old isOld
      · exact ordered
    · intro entry member isAvailable
      rcases carves.origin member with rfl | ⟨old, isOld, sameType, _, below, _⟩
      · exact absurd (blockType.symm.trans isAvailable) taken
      · have limit := good.bounded old isOld (sameType.trans isAvailable)
        omega

/-! ## Allocations of one page -/

namespace SearchableTable

variable {table after before behind : RegionTable} {region block : MemoryRegion}

/-- A free page is one that a region which fits one page holds. -/
theorem fits_of_freePage (good : SearchableTable table) {page : Nat}
    (free : page ∈ freePages table) :
    ∃ region ∈ table, Fits (allocationLength 1) region ∧
      region.addrStart ≤ 4096 * page := by
  obtain ⟨region, inside, available, high, low, below⟩ := free
  have aligned := good.keeps.aligned region inside available
  refine ⟨region, inside, ⟨available, high, ?_⟩, low⟩
  rw [allocationLength_eq (by decide)]
  omega

/-- The first region that fits one page starts with the lowest free page. -/
theorem isLeast_freePages (good : SearchableTable table)
    (chosen : firstFit table 1 = some region) :
    ∃ page, IsLeast (freePages table) page ∧ region.addrStart = 4096 * page := by
  obtain ⟨_, low⟩ := good.firstFit_eq_some_iff.mp chosen
  obtain ⟨page, start⟩ :=
    (good.keeps.aligned region low.inside low.fits.available).1
  have proper := good.proper region low.inside
  refine ⟨page, ⟨⟨region, low.inside, low.fits.available, low.fits.high, ?_⟩, ?_⟩,
    start⟩
  · rw [MemoryRegion.mem_bytes]
    omega
  · intro other free
    obtain ⟨holder, inside, fits, under⟩ := good.fits_of_freePage free
    have lowest := low.lowest holder inside fits
    omega

/-- Without a region that fits one page there is no free page. -/
theorem freePages_eq_empty (good : SearchableTable table)
    (missing : firstFit table 1 = none) : freePages table = ∅ := by
  rw [Set.eq_empty_iff_forall_notMem]
  intro page free
  obtain ⟨region, inside, fits, _⟩ := good.fits_of_freePage free
  rw [firstFit, if_neg (by decide), List.find?_eq_none] at missing
  exact missing region inside
    ((good.fitsAllocation_iff_fits (by decide) inside).mpr fits)

/-- Carving the first page out of a region takes that page and no other. -/
theorem freePages_carved (good : SearchableTable (before ++ region :: behind))
    (carves : CarvesFrom before region behind block after)
    (taken : block.type ≠ .available) (high : 0x100000 ≤ region.addrStart)
    {page : Nat} (start : region.addrStart = 4096 * page)
    (blockStart : block.addrStart = 4096 * page)
    (blockEnd : block.addrEnd = 4096 * page + 4096) :
    freePages after = freePages (before ++ region :: behind) \ {page} := by
  have regionApart := good.keeps.apart_others carves.available
  have pageInside : 4096 * page ∈ region.bytes := by
    have proper := carves.proper
    have stop := carves.stop
    rw [MemoryRegion.mem_bytes]
    omega
  ext other
  rw [Set.mem_sdiff, Set.mem_singleton_iff]
  constructor
  · rintro ⟨entry, inside, available, entryHigh, inEntry⟩
    rcases carves.mem_after.mp inside with rfl | inside | inside
    · exact absurd available taken
    · obtain ⟨_, proper, above, below, ends⟩ := carves.remainder inside
      rw [MemoryRegion.mem_bytes] at inEntry
      refine ⟨⟨region, by simp, carves.available, high, ?_⟩, by omega⟩
      rw [MemoryRegion.mem_bytes]
      omega
    · refine ⟨⟨entry, ?_, available, entryHigh, inEntry⟩, ?_⟩
      · rcases List.mem_append.mp inside with inside | inside <;> simp [inside]
      · rintro rfl
        exact MemoryRegion.apart_iff.mp (regionApart entry inside) _ pageInside
          inEntry
  · rintro ⟨⟨entry, inside, available, entryHigh, inEntry⟩, different⟩
    rcases List.mem_cons.mp (List.perm_middle.mem_iff.mp inside) with
      rfl | others
    · rw [MemoryRegion.mem_bytes] at inEntry
      refine ⟨{ entry with addrStart := block.addrEnd }, carves.mem_after.mpr
        (Or.inr (Or.inl (mem_remainders.mpr (Or.inr ⟨rfl, by omega⟩)))),
        available, by dsimp only; omega, ?_⟩
      rw [MemoryRegion.mem_bytes]
      dsimp only
      omega
    · exact ⟨entry, carves.mem_after.mpr (Or.inr (Or.inr others)), available,
        entryHigh, inEntry⟩

end SearchableTable

/-- What an allocation of one page does while a page is free: it takes the lowest
one, and cuts its address to a pointer of 32 bits. -/
structure PageTaken (table : RegionTable) (type : MemoryRegionType)
    (page ret : Nat) (after : RegionTable) : Prop where
  least : IsLeast (freePages table) page
  recorded : ∃ block, allocatedBlock table 1 type = some block ∧
    block.addrStart = 4096 * page
  pointer : ret = 4096 * page % 2 ^ 32
  ordered : ret ≠ 0 → SearchableTable after
  left : ret ≠ 0 → freePages after = freePages table \ {page}

/-- An allocation of one page takes the lowest free page, if there is one. -/
theorem SearchableTable.allocatePage {table after : RegionTable} {ret : Nat}
    {type : MemoryRegionType} (good : SearchableTable table)
    (taken : type ≠ .available)
    (ran : pmmAllocateRegionWithType table 1 type = some (ret, after)) :
    (freePages table = ∅ ∧ allocatedBlock table 1 type = none ∧ ret = 0) ∨
      ∃ page, PageTaken table type page ret after := by
  rcases pmmAllocateRegionWithType_cases ran with
    ⟨missing, null, _⟩ | ⟨region, block, chosen, something, step⟩
  · exact Or.inl ⟨good.freePages_eq_empty missing,
      by rw [allocatedBlock, missing, Option.map_none], null⟩
  · obtain ⟨page, least, start⟩ := good.isLeast_freePages chosen
    obtain ⟨inside, holds⟩ := firstFit_mem chosen
    obtain ⟨high, available, _⟩ := fitsAllocation_iff.mp holds
    have bounded := good.bounded region inside available
    have proper := good.proper region inside
    have length : allocationLength 1 = 4096 := by decide
    have blockStart : block.addrStart = 4096 * page := by
      rw [step.block_eq]
      exact start
    have blockEnd : block.addrEnd = 4096 * page + 4096 := by
      rw [step.block_eq, length, ← start]
      exact Nat.mod_eq_of_lt (by omega)
    refine Or.inr ⟨page, least, ⟨block, something, blockStart⟩,
      by rw [step.ret_eq, start], ?_, ?_⟩
    · exact good.allocate (by decide) (by decide) taken ran
    · intro notNull
      obtain ⟨before, behind, rfl, carves⟩ := step.carvesFrom good.keeps
        (by decide) (by omega) notNull
      apply good.freePages_carved carves _ high start blockStart blockEnd
      rw [step.block_eq]
      exact taken

end SampoOS.Kickstart
