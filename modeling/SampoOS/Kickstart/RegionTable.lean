/-
Module: SampoOS.Kickstart.RegionTable
Purpose: The invariant of Kickstart's region table, and carving a block out of
  an available region as a relation between tables.
Trusted boundary: none
Main exports: Separate, TableInvariant, remainders, Carves,
  Carves.preserves_invariant, Carves.availableBytes_eq, Carves.keeps,
  pmmSortRegions_settles, pmmSortRegions_eq_stableSort
-/
import SampoOS.Kickstart.Pmm

namespace SampoOS.Kickstart

open BubbleSort (TombstonesOrdered Settled tombstoneSwap live)

/-! ## Sorting -/

theorem isEmpty_iff {region : MemoryRegion} :
    isEmpty region = true ↔ region.addrStart = region.addrEnd := by
  simp [isEmpty]

theorem isEmpty_false_iff {region : MemoryRegion} :
    isEmpty region = false ↔ region.addrStart ≠ region.addrEnd := by
  simp [isEmpty]

/-- The exchange test of the sort is the one of a sort with tombstones, the
empty regions being the tombstones. -/
theorem sortExchanges_eq :
    sortExchanges = tombstoneSwap isEmpty MemoryRegion.addrStart := by
  funext a b
  cases emptyA : isEmpty a <;>
    simp [sortExchanges, tombstoneSwap, emptyA]

/-- No region with bytes stands before an empty one that starts earlier. -/
abbrev SortSafe (table : RegionTable) : Prop :=
  TombstonesOrdered isEmpty MemoryRegion.addrStart table

/-- On a safe table the sort keeps exactly the non-empty regions, in order. -/
theorem pmmSortRegions_settles {table : RegionTable} (safe : SortSafe table) :
    Settled isEmpty MemoryRegion.addrStart table
      (BubbleSort.bubbleSort sortExchanges table) (pmmSortRegions table) := by
  rw [pmmSortRegions, sortExchanges_eq]
  exact BubbleSort.bubbleSort_settles safe

/-- The sort of a safe table is the stable sort of its non-empty regions by
their start. -/
theorem pmmSortRegions_eq_stableSort {table : RegionTable}
    (safe : SortSafe table) :
    pmmSortRegions table =
      (table.filter fun region => !isEmpty region).mergeSort
        fun a b => decide (a.addrStart ≤ b.addrStart) :=
  (pmmSortRegions_settles safe).eq_sortByKey

/-- Two regions with the same start keep their order, whatever empty regions
stand around them. -/
theorem pmmSortRegions_eq_stableSort_tie :
    pmmSortRegions
        [⟨0x3000, 0x3000, .available⟩, ⟨0x2000, 0x4000, .reserved⟩,
          ⟨0x2000, 0x2000, .available⟩, ⟨0x1000, 0x2000, .available⟩,
          ⟨0x5000, 0x5000, .available⟩, ⟨0x2000, 0x3000, .allocated⟩] =
      ([⟨0x3000, 0x3000, .available⟩, ⟨0x2000, 0x4000, .reserved⟩,
          ⟨0x2000, 0x2000, .available⟩, ⟨0x1000, 0x2000, .available⟩,
          ⟨0x5000, 0x5000, .available⟩,
          ⟨0x2000, 0x3000, .allocated⟩].filter
        fun region => !isEmpty region).mergeSort
          fun a b => decide (a.addrStart ≤ b.addrStart) :=
  pmmSortRegions_eq_stableSort (by
    simp [SortSafe, TombstonesOrdered, isEmpty])

/-- A table is sorted by the start of its regions. -/
abbrev Sorted (table : RegionTable) : Prop :=
  table.Pairwise fun a b => a.addrStart ≤ b.addrStart

theorem sortSafe_of_nonempty {table : RegionTable}
    (nonempty : ∀ region ∈ table, isEmpty region = false) : SortSafe table :=
  List.pairwise_of_forall_mem_list fun _ _ b inside _ emptyB => by
    simp [nonempty b inside] at emptyB

/-- Moving the start of one region of a sorted table forwards, possibly onto
its end, leaves the table safe to sort, whatever non-empty regions are
appended. -/
theorem sortSafe_of_shrunk {before behind : RegionTable} {shrunk : MemoryRegion}
    (behindNonempty : ∀ region ∈ behind, isEmpty region = false)
    (beforeNonempty : ∀ region ∈ before, isEmpty region = false)
    (below : ∀ region ∈ before, region.addrStart ≤ shrunk.addrStart) :
    SortSafe (before ++ shrunk :: behind) := by
  rw [SortSafe, TombstonesOrdered, List.pairwise_append, List.pairwise_cons]
  refine ⟨sortSafe_of_nonempty beforeNonempty, ⟨?_, sortSafe_of_nonempty behindNonempty⟩, ?_⟩
  · intro b inside _ emptyB
    simp [behindNonempty b inside] at emptyB
  · intro a insideA b insideB _ emptyB
    rcases List.mem_cons.mp insideB with rfl | insideB
    · exact below a insideA
    · simp [behindNonempty b insideB] at emptyB

/-- Sorting never invents a region. -/
theorem mem_of_mem_pmmSortRegions {table : RegionTable} {region : MemoryRegion}
    (inside : region ∈ pmmSortRegions table) : region ∈ table :=
  (BubbleSort.bubbleSort_perm table).mem_iff.mp (List.mem_of_mem_take inside)

/-! ## The table invariant -/

/-- Two regions share no byte, if one of them is available. -/
def Separate (a b : MemoryRegion) : Prop :=
  a.type = .available ∨ b.type = .available → a.Apart b

theorem Separate.symm {a b : MemoryRegion} (separate : Separate a b) :
    Separate b a :=
  fun available => (separate available.symm).symm

/-- What every operation of the memory manager relies on and restores. -/
structure TableInvariant (table : RegionTable) : Prop where
  sorted : Sorted table
  nonempty : ∀ region ∈ table, region.addrStart ≠ region.addrEnd
  aligned : ∀ region ∈ table, region.type = .available →
    4096 ∣ region.addrStart ∧ 4096 ∣ region.addrEnd
  separate : table.Pairwise Separate

theorem TableInvariant.empty : TableInvariant [] :=
  ⟨List.Pairwise.nil, by simp, by simp, List.Pairwise.nil⟩

theorem pairwise_separate_perm {table table' : RegionTable}
    (perm : table.Perm table') (separate : table.Pairwise Separate) :
    table'.Pairwise Separate :=
  (perm.pairwise_iff fun holds => holds.symm).mp separate

/-- In a table that keeps the invariant, an available region shares no byte
with any of the other entries. -/
theorem TableInvariant.apart_others {before behind : RegionTable}
    {region : MemoryRegion}
    (invariant : TableInvariant (before ++ region :: behind))
    (available : region.type = .available) :
    ∀ other ∈ before ++ behind, region.Apart other := by
  have reordered := pairwise_separate_perm List.perm_middle invariant.separate
  intro other inside
  exact (List.pairwise_cons.mp reordered).1 other inside (Or.inl available)

/-! ## Carving -/

/-- What is left of a region on either side of a block inside it. -/
def remainders (region block : MemoryRegion) : List MemoryRegion :=
  [{ region with addrEnd := block.addrStart },
    { region with addrStart := block.addrEnd }].filter fun r => !isEmpty r

theorem mem_remainders {region block rest : MemoryRegion} :
    rest ∈ remainders region block ↔
      (rest = { region with addrEnd := block.addrStart } ∧
          region.addrStart ≠ block.addrStart) ∨
        (rest = { region with addrStart := block.addrEnd } ∧
          block.addrEnd ≠ region.addrEnd) := by
  simp only [remainders, List.mem_filter, List.mem_cons, List.not_mem_nil,
    or_false, Bool.not_eq_true', isEmpty_false_iff]
  constructor
  · rintro ⟨rfl | rfl, nonempty⟩
    · exact Or.inl ⟨rfl, nonempty⟩
    · exact Or.inr ⟨rfl, nonempty⟩
  · rintro (⟨rfl, nonempty⟩ | ⟨rfl, nonempty⟩)
    · exact ⟨Or.inl rfl, nonempty⟩
    · exact ⟨Or.inr rfl, nonempty⟩

/-- `block` is taken out of the available region `region`, the rest of which
stays in the table. -/
structure CarvesFrom (before : RegionTable) (region : MemoryRegion)
    (behind : RegionTable) (block : MemoryRegion) (after : RegionTable) :
    Prop where
  available : region.type = .available
  start : region.addrStart ≤ block.addrStart
  proper : block.addrStart < block.addrEnd
  stop : block.addrEnd ≤ region.addrEnd
  sorted : Sorted after
  perm : after.Perm
    (block :: remainders region block ++ (before ++ behind))

/-- `after` is `table` with `block` carved out of an available region. -/
def Carves (table : RegionTable) (block : MemoryRegion)
    (after : RegionTable) : Prop :=
  ∃ before region behind, table = before ++ region :: behind ∧
    CarvesFrom before region behind block after

namespace CarvesFrom

variable {before behind after : RegionTable} {region block : MemoryRegion}

theorem mem_after (carves : CarvesFrom before region behind block after)
    {entry : MemoryRegion} :
    entry ∈ after ↔ entry = block ∨ entry ∈ remainders region block ∨
      entry ∈ before ++ behind := by
  rw [carves.perm.mem_iff, List.cons_append, List.mem_cons, List.mem_append]

/-- A remainder is an available, non-empty part of the region, apart from the
block. -/
theorem remainder (carves : CarvesFrom before region behind block after)
    {rest : MemoryRegion} (inside : rest ∈ remainders region block) :
    rest.type = .available ∧ rest.addrStart < rest.addrEnd ∧
      region.addrStart ≤ rest.addrStart ∧ rest.addrEnd ≤ region.addrEnd ∧
      (rest.addrEnd = block.addrStart ∨ rest.addrStart = block.addrEnd) := by
  have start := carves.start
  have proper := carves.proper
  have stop := carves.stop
  rcases mem_remainders.mp inside with ⟨rfl, nonempty⟩ | ⟨rfl, nonempty⟩
  · exact ⟨carves.available, by dsimp only; omega, by dsimp only; omega,
      by dsimp only; omega, Or.inl rfl⟩
  · exact ⟨carves.available, by dsimp only; omega, by dsimp only; omega,
      by dsimp only; omega, Or.inr rfl⟩

theorem block_apart_remainder
    (carves : CarvesFrom before region behind block after)
    {rest : MemoryRegion} (inside : rest ∈ remainders region block) :
    block.Apart rest := by
  have proper := carves.proper
  rw [MemoryRegion.apart_iff]
  intro x inBlock inRest
  rw [MemoryRegion.mem_bytes] at inBlock inRest
  rcases (carves.remainder inside).2.2.2.2 with stop | start <;> omega

theorem remainders_apart
    (carves : CarvesFrom before region behind block after) :
    (remainders region block).Pairwise MemoryRegion.Apart := by
  have proper := carves.proper
  apply List.Pairwise.filter
  rw [List.pairwise_pair, MemoryRegion.apart_iff]
  intro x left right
  rw [MemoryRegion.mem_bytes] at left right
  dsimp only at left right
  omega

/-- A symmetric relation that holds of regions without a common byte is kept
pairwise by carving. -/
theorem pairwise_after {R : MemoryRegion → MemoryRegion → Prop}
    (carves : CarvesFrom before region behind block after)
    (symmetric : ∀ {a b}, R a b → R b a)
    (ofApart : ∀ {a b : MemoryRegion}, a.Apart b → R a b)
    (regionApart : ∀ other ∈ before ++ behind, region.Apart other)
    (pairwise : (before ++ region :: behind).Pairwise R) : after.Pairwise R := by
  have others := List.pairwise_cons.mp
    ((List.perm_middle.pairwise_iff symmetric).mp pairwise)
  refine (carves.perm.pairwise_iff symmetric).mpr ?_
  rw [List.cons_append, List.pairwise_cons, List.pairwise_append]
  refine ⟨?_, carves.remainders_apart.imp ofApart, others.2, ?_⟩
  · intro entry inside
    apply ofApart
    rcases List.mem_append.mp inside with inside | inside
    · exact carves.block_apart_remainder inside
    · exact (regionApart entry inside).mono carves.start carves.stop
  · intro rest insideRest entry inside
    have within := carves.remainder insideRest
    exact ofApart
      ((regionApart entry inside).mono within.2.2.1 within.2.2.2.1)

/-- Carving a page-aligned block keeps the table invariant. -/
theorem preserves_invariant
    (carves : CarvesFrom before region behind block after)
    (invariant : TableInvariant (before ++ region :: behind))
    (alignedStart : 4096 ∣ block.addrStart) (alignedEnd : 4096 ∣ block.addrEnd) :
    TableInvariant after := by
  have regionInside : region ∈ before ++ region :: behind := by simp
  have others : ∀ entry ∈ before ++ behind, entry ∈ before ++ region :: behind := by
    intro entry inside
    rcases List.mem_append.mp inside with inside | inside <;> simp [inside]
  have regionApart := invariant.apart_others carves.available
  refine ⟨carves.sorted, ?_, ?_, ?_⟩
  · intro entry inside
    rcases carves.mem_after.mp inside with rfl | inside | inside
    · exact Nat.ne_of_lt carves.proper
    · exact Nat.ne_of_lt (carves.remainder inside).2.1
    · exact invariant.nonempty entry (others entry inside)
  · intro entry inside available
    rcases carves.mem_after.mp inside with rfl | inside | inside
    · exact ⟨alignedStart, alignedEnd⟩
    · have aligned := invariant.aligned region regionInside carves.available
      rcases mem_remainders.mp inside with ⟨rfl, _⟩ | ⟨rfl, _⟩
      · exact ⟨aligned.1, alignedStart⟩
      · exact ⟨alignedEnd, aligned.2⟩
    · exact invariant.aligned entry (others entry inside) available
  · exact carves.pairwise_after (fun holds => holds.symm)
      (fun apart _ => apart) regionApart invariant.separate

/-- A region is its block together with what is left on either side. -/
theorem region_bytes (carves : CarvesFrom before region behind block after)
    (x : Nat) :
    x ∈ region.bytes ↔
      x ∈ block.bytes ∨ ∃ rest ∈ remainders region block, x ∈ rest.bytes := by
  have start := carves.start
  have proper := carves.proper
  have stop := carves.stop
  simp only [MemoryRegion.mem_bytes]
  constructor
  · intro inside
    by_cases low : x < block.addrStart
    · exact Or.inr ⟨{ region with addrEnd := block.addrStart },
        mem_remainders.mpr (Or.inl ⟨rfl, by omega⟩), inside.1, low⟩
    · by_cases high : block.addrEnd ≤ x
      · exact Or.inr ⟨{ region with addrStart := block.addrEnd },
          mem_remainders.mpr (Or.inr ⟨rfl, by omega⟩), high, inside.2⟩
      · exact Or.inl ⟨by omega, by omega⟩
  · rintro (inBlock | ⟨rest, inside, inRest⟩)
    · omega
    · have within := carves.remainder inside
      omega

/-- Carving takes exactly the block's bytes out of the available memory. -/
theorem availableBytes_eq
    (carves : CarvesFrom before region behind block after)
    (invariant : TableInvariant (before ++ region :: behind))
    (taken : block.type ≠ .available) :
    availableBytes after =
      availableBytes (before ++ region :: behind) \ block.bytes := by
  have regionApart := invariant.apart_others carves.available
  have elsewhere : ∀ entry ∈ before ++ behind, ∀ x ∈ entry.bytes,
      x ∉ block.bytes := fun entry inside x inEntry inBlock =>
    MemoryRegion.apart_iff.mp (regionApart entry inside) x
      ((carves.region_bytes x).mpr (Or.inl inBlock)) inEntry
  ext x
  rw [Set.mem_sdiff, mem_bytesOfType, mem_bytesOfType]
  constructor
  · rintro ⟨entry, inside, available, inEntry⟩
    rcases carves.mem_after.mp inside with rfl | inside | inside
    · exact absurd available taken
    · exact ⟨⟨region, by simp, carves.available,
        (carves.region_bytes x).mpr (Or.inr ⟨entry, inside, inEntry⟩)⟩,
        fun inBlock => MemoryRegion.apart_iff.mp
          (carves.block_apart_remainder inside) x inBlock inEntry⟩
    · refine ⟨⟨entry, ?_, available, inEntry⟩, elsewhere entry inside x inEntry⟩
      rcases List.mem_append.mp inside with inside | inside <;> simp [inside]
  · rintro ⟨⟨entry, inside, available, inEntry⟩, outside⟩
    have reordered := List.perm_middle.mem_iff.mp inside
    rcases List.mem_cons.mp reordered with rfl | others
    · rcases (carves.region_bytes x).mp inEntry with inBlock | ⟨rest, left, inRest⟩
      · exact absurd inBlock outside
      · exact ⟨rest, carves.mem_after.mpr (Or.inr (Or.inl left)),
          (carves.remainder left).1, inRest⟩
    · exact ⟨entry, carves.mem_after.mpr (Or.inr (Or.inr others)), available,
        inEntry⟩

/-- Every entry that is not available survives the carving of a block. -/
theorem keeps (carves : CarvesFrom before region behind block after)
    {entry : MemoryRegion} (inside : entry ∈ before ++ region :: behind)
    (taken : entry.type ≠ .available) : entry ∈ after := by
  rcases List.mem_cons.mp (List.perm_middle.mem_iff.mp inside) with rfl | others
  · exact absurd carves.available taken
  · exact carves.mem_after.mpr (Or.inr (Or.inr others))

end CarvesFrom

namespace Carves

variable {table after : RegionTable} {block : MemoryRegion}

theorem preserves_invariant (carves : Carves table block after)
    (invariant : TableInvariant table) (alignedStart : 4096 ∣ block.addrStart)
    (alignedEnd : 4096 ∣ block.addrEnd) : TableInvariant after := by
  obtain ⟨before, region, behind, rfl, carvesFrom⟩ := carves
  exact carvesFrom.preserves_invariant invariant alignedStart alignedEnd

theorem availableBytes_eq (carves : Carves table block after)
    (invariant : TableInvariant table) (taken : block.type ≠ .available) :
    availableBytes after = availableBytes table \ block.bytes := by
  obtain ⟨before, region, behind, rfl, carvesFrom⟩ := carves
  exact carvesFrom.availableBytes_eq invariant taken

theorem keeps (carves : Carves table block after) {entry : MemoryRegion}
    (inside : entry ∈ table) (taken : entry.type ≠ .available) :
    entry ∈ after := by
  obtain ⟨before, region, behind, rfl, carvesFrom⟩ := carves
  exact carvesFrom.keeps inside taken

/-- The block itself is recorded. -/
theorem records (carves : Carves table block after) : block ∈ after := by
  obtain ⟨before, region, behind, rfl, carvesFrom⟩ := carves
  exact carvesFrom.mem_after.mpr (Or.inl rfl)

/-- Carving keeps bounds ordered and below a limit. -/
theorem bounded {limit : Nat} (carves : Carves table block after)
    (bounds : ∀ region ∈ table, region.addrStart < region.addrEnd ∧
      region.addrEnd ≤ limit) :
    ∀ entry ∈ after, entry.addrStart < entry.addrEnd ∧ entry.addrEnd ≤ limit := by
  obtain ⟨before, region, behind, rfl, carvesFrom⟩ := carves
  intro entry inside
  have regionBounds := bounds region (by simp)
  rcases carvesFrom.mem_after.mp inside with rfl | inside | inside
  · have proper := carvesFrom.proper
    have stop := carvesFrom.stop
    omega
  · have rest := carvesFrom.remainder inside
    omega
  · apply bounds
    rcases List.mem_append.mp inside with inside | inside <;> simp [inside]

/-- A carved block consists of memory that was available. -/
theorem block_available (carves : Carves table block after) :
    block.bytes ⊆ availableBytes table := by
  obtain ⟨before, region, behind, rfl, carvesFrom⟩ := carves
  intro x inBlock
  exact ⟨region, by simp, carvesFrom.available,
    (carvesFrom.region_bytes x).mpr (Or.inl inBlock)⟩

/-- Entries of the new table are the block or lie inside an entry of the same
type of the old one. -/
theorem origin (carves : Carves table block after) {entry : MemoryRegion}
    (inside : entry ∈ after) :
    entry = block ∨ ∃ old ∈ table, old.type = entry.type ∧
      old.addrStart ≤ entry.addrStart ∧ entry.addrEnd ≤ old.addrEnd ∧
      (entry = old ∨ entry.addrStart < entry.addrEnd) := by
  obtain ⟨before, region, behind, rfl, carvesFrom⟩ := carves
  rcases carvesFrom.mem_after.mp inside with rfl | inside | inside
  · exact Or.inl rfl
  · obtain ⟨available, proper, start, stop, _⟩ := carvesFrom.remainder inside
    exact Or.inr ⟨region, by simp, carvesFrom.available.trans available.symm,
      start, stop, Or.inr proper⟩
  · refine Or.inr ⟨entry, ?_, rfl, Nat.le_refl _, Nat.le_refl _, Or.inl rfl⟩
    rcases List.mem_append.mp inside with inside | inside <;> simp [inside]

end Carves

end SampoOS.Kickstart
