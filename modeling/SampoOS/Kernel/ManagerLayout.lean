/-
Module: SampoOS.Kernel.ManagerLayout
Purpose: The two passes of init_memory_manager agree: what the second one
  writes fits what the first one counted.
Trusted boundary: none
Main exports: BootTable, PagedTable, ManagerMapped, setUpPhysmap_physmap,
  slice, LayoutAgrees, setUpPhysmap_layoutAgrees
-/
import Mathlib.Algebra.BigOperators.Ring.List
import SampoOS.Kernel.KernelEndRun
import SampoOS.Kernel.Physmap

namespace SampoOS.Kernel

open BitFields (clearLow_eq)
open ByteMemory

/-! ## Tables -/

/-- A table that the kernel can be given: its bounds are `uint64_t`, and the
array of 24-byte entries is not larger than `PTRDIFF_MAX`. -/
structure BootTable (table : RegionTable) : Prop where
  words : ∀ region ∈ table, region.addrStart < 2 ^ 64 ∧ region.addrEnd < 2 ^ 64
  array : 24 * table.length < 2 ^ 63

/-- The size of the AVAILABLE and ALLOCATED regions together. -/
def combinableSize (table : RegionTable) : Nat :=
  (table.map fun region => if combinable region then
    region.addrEnd - region.addrStart else 0).sum

/-- A table whose AVAILABLE and ALLOCATED regions consist of whole pages, and
not of more than there are. -/
structure PagedTable (table : RegionTable) : Prop extends BootTable table where
  aligned : ∀ region ∈ table, combinable region = true →
    4096 ∣ region.addrStart ∧ 4096 ∣ region.addrEnd
  ordered : ∀ region ∈ table, combinable region = true →
    region.addrStart ≤ region.addrEnd
  total : combinableSize table ≤ 2 ^ 64

/-! ## The run up to the physmap -/

/-- The pages that the memory manager takes for itself. -/
def managerPageCount (table : RegionTable) : Nat :=
  (regionCounts table).physManagerPageCount

/-- Where they lie in physical memory, 0 if nowhere. -/
def managerAddr (table : RegionTable) : Nat :=
  findManager table (managerPageCount table)

/-- `init_memory_manager` has found a region for its own data, and has mapped
it at `ptr`. -/
structure ManagerMapped (kernEnd : Nat) (bootinfo : SampoBootinfo)
    (s : KernelState) (ptr : Nat) (mapped : KernelState) : Prop where
  found : managerAddr bootinfo.memoryRegions ≠ 0
  runs : ((startManager kernEnd bootinfo s).bind
    (virtMapPagesKernelEnd (managerAddr bootinfo.memoryRegions)
      (managerPageCount bootinfo.memoryRegions) (virtMapRead ||| virtMapWrite))) =
    some (ptr, mapped)

/-- What the page mapper leaves alone. -/
structure OnlyTables (s s' : KernelState) : Prop where
  root : s'.root = s.root
  virtual : s'.virtual = s.virtual
  physmemLen : s'.physmemLen = s.physmemLen
  physmap : s'.physmap = s.physmap

theorem OnlyTables.trans {s s' s'' : KernelState} (first : OnlyTables s s')
    (second : OnlyTables s' s'') : OnlyTables s s'' where
  root := second.root.trans first.root
  virtual := second.virtual.trans first.virtual
  physmemLen := second.physmemLen.trans first.physmemLen
  physmap := second.physmap.trans first.physmap

theorem writeVirtual_onlyTables {s s' : KernelState} {addr value : Nat}
    (ran : writeVirtual s addr value = some s') :
    OnlyTables s s' ∧ s'.kernelEndAddr = s.kernelEndAddr := by
  rw [writeVirtual, Option.map_eq_some_iff] at ran
  obtain ⟨_, _, rfl⟩ := ran
  exact ⟨⟨rfl, rfl, rfl, rfl⟩, rfl⟩

/-- Mapping pages writes their entries, and no variable but the end of the
kernel. -/
theorem PagesMapped.onlyTables {mappingPerms physicalPageAddr : Nat}
    {s s' : KernelState} {locations : List Nat}
    (pages : PagesMapped mappingPerms physicalPageAddr s locations s') :
    OnlyTables s s' := by
  rw [pages.only]
  exact ⟨rfl, rfl, rfl, rfl⟩

namespace ManagerMapped

variable {kernEnd ptr : Nat} {bootinfo : SampoBootinfo} {s mapped : KernelState}

theorem onlyTables (manager : ManagerMapped kernEnd bootinfo s ptr mapped) :
    OnlyTables s mapped := by
  obtain ⟨started, start, ran⟩ := Option.bind_eq_some_iff.mp manager.runs
  rw [virtMapPagesKernelEnd, Option.map_eq_some_iff] at ran
  obtain ⟨⟨_, _⟩, run, same⟩ := ran
  simp only [Prod.mk.injEq] at same
  obtain ⟨_, rfl⟩ := same
  obtain ⟨_, pages, _⟩ := virtMapPages_run _ run
  have first := (writeVirtual_onlyTables start).1
  exact OnlyTables.trans ⟨first.root, first.virtual, first.physmemLen,
    first.physmap⟩ pages.onlyTables

/-- The pointer is the end of the kernel, on a page boundary, or `NULL`. -/
theorem pointer (manager : ManagerMapped kernEnd bootinfo s ptr mapped) :
    4096 ∣ ptr ∧ ptr < 2 ^ 64 := by
  obtain ⟨started, start, ran⟩ := Option.bind_eq_some_iff.mp manager.runs
  rw [virtMapPagesKernelEnd, Option.map_eq_some_iff] at ran
  obtain ⟨⟨isMapped, _⟩, _, same⟩ := ran
  simp only [Prod.mk.injEq] at same
  obtain ⟨rfl, _⟩ := same
  have kernelEnd : started.kernelEndAddr = BitFields.alignUp 64 12 kernEnd :=
    (writeVirtual_onlyTables start).2
  have low : (kernEnd + (2 ^ 12 - 1)) % 2 ^ 64 < 2 ^ 64 :=
    Nat.mod_lt _ (Nat.two_pow_pos 64)
  split
  · rw [kernelEnd, BitFields.alignUp, clearLow_eq (by decide) low]
    exact ⟨Nat.dvd_mul_left _ _, by omega⟩
  · exact ⟨Nat.dvd_zero _, by decide⟩

end ManagerMapped

/-! ## The entries -/

theorem sub64_eq {a b : Nat} (ordered : b ≤ a) (word : a < 2 ^ 64) :
    sub64 a b = a - b := by
  rw [sub64]
  omega

theorem sub64_lt (a b : Nat) : sub64 a b < 2 ^ 64 :=
  Nat.mod_lt _ (Nat.two_pow_pos 64)

namespace BootTable

variable {table : RegionTable}

theorem groups_length (boot : BootTable table) :
    24 * (combinedRegions 0 table).length < 2 ^ 63 := by
  have shorter := (grouped table).length_le
  have array := boot.array
  omega

theorem regionCounts_eq (boot : BootTable table) :
    regionCounts table =
      { combinedRegionCount := (combinedRegions 0 table).length
        bitmapBitCount :=
          ((combinedRegions 0 table).map CombinedRegion.bits).sum % 2 ^ 64 } := by
  have short := boot.groups_length
  rw [regionCounts, countRegions_eq table 0 ⟨0, 0⟩ (by decide) (by decide)]
  dsimp only
  rw [Nat.zero_add, Nat.zero_add, Nat.mod_eq_of_lt (by omega)]

theorem entries_fit (boot : BootTable table) (ptr : Nat) :
    ∀ entry ∈ physmapRegions ptr table, entry.Fits := by
  intro entry inside
  simp only [physmapRegions, placedEntries, List.mem_map, Prod.exists] at inside
  obtain ⟨group, offset, place, rfl⟩ := inside
  have isGroup : group ∈ combinedRegions 0 table := by
    rw [← map_fst_placed (combinedRegions 0 table) 0]
    exact List.mem_map_of_mem place
  refine ⟨(boot.words _ ((grouped table).region_mem group isGroup)).1,
    sub64_lt _ _, ?_, ?_⟩
  · simp only [CombinedRegion.entry]
    split
    · exact Nat.mod_lt _ (Nat.two_pow_pos 64)
    · exact Nat.two_pow_pos 64
  · simp only [CombinedRegion.entry]
    cases group.region.type <;> simp [physmemType, PhysmemRegionType.code]

theorem length_physmapRegions (ptr : Nat) (table : RegionTable) :
    (physmapRegions ptr table).length = (combinedRegions 0 table).length := by
  rw [physmapRegions, placedEntries, List.length_map,
    ← List.length_map (f := Prod.fst), map_fst_placed]

end BootTable

/-- The state in which the physmap is populated: the manager's pages are
cleared. -/
def clearedManager (table : RegionTable) (ptr : Nat) (s : KernelState) :
    KernelState :=
  { s with
    virtual := fill 64 s.virtual ptr 0 (managerPageCount table * pageSize % 2 ^ 64)
    physmap := (ptr + (regionCounts table).bitmapPageCount * pageSize) % 2 ^ 64 }

theorem setUpPhysmap_eq {table : RegionTable} {ptr : Nat} {s : KernelState}
    (word : ptr < 2 ^ 64) :
    setUpPhysmap table ptr s =
      addRegions (physmapRegions ptr table) (clearedManager table ptr s) := by
  have populated := populatePhysmap_eq ptr table 0 0 (clearedManager table ptr s)
  rw [Nat.add_zero, Nat.mod_eq_of_lt word] at populated
  exact populated

section Populated

variable {table : RegionTable} {ptr : Nat} {s : KernelState}

theorem clearedManager_array (boot : BootTable table) (page : 4096 ∣ ptr)
    (fresh : s.physmemLen = 0) :
    PhysmapArray (clearedManager table ptr s)
      ((clearedManager table ptr s).physmemLen +
        (physmapRegions ptr table).length) := by
  have short := boot.groups_length
  have bitmap : 4096 ∣ (regionCounts table).bitmapPageCount * pageSize :=
    Nat.dvd_mul_left _ _
  refine ⟨?_, Nat.mod_lt _ (Nat.two_pow_pos 64), ?_⟩
  · rw [clearedManager]
    dsimp only
    omega
  · rw [show (clearedManager table ptr s).physmemLen = 0 from fresh,
      BootTable.length_physmapRegions, physmemRegionSize]
    omega

/-- The physmap holds an entry for each combined region of the table. -/
theorem setUpPhysmap_physmap (boot : BootTable table) (page : 4096 ∣ ptr)
    (word : ptr < 2 ^ 64) (fresh : s.physmemLen = 0) :
    (setUpPhysmap table ptr s).physmemLen = (combinedRegions 0 table).length ∧
      physmapOf (setUpPhysmap table ptr s) = physmapRegions ptr table := by
  have added := addRegions_physmap (physmapRegions ptr table)
    (clearedManager_array boot page fresh) (boot.entries_fit ptr)
  have none : (clearedManager table ptr s).physmemLen = 0 := fresh
  have empty : physmapOf (clearedManager table ptr s) = [] := by
    rw [physmapOf, none]
    rfl
  rw [none, empty, Nat.zero_add, BootTable.length_physmapRegions,
    List.nil_append] at added
  rw [setUpPhysmap_eq word]
  exact added

end Populated

/-! ## Slices -/

/-- The bytes of the bitmap that belong to an entry. -/
def slice (region : PhysmemRegion) : Set Nat :=
  cyclicRange 64 region.allocMap (bitmapRequiredBytes region.len)

/-- A slice lies behind the offset it is placed at, and before the sum. -/
theorem placed_within (groups : List CombinedRegion) : ∀ {offset : Nat},
    ∀ place ∈ placed offset groups, offset ≤ place.2 ∧
      place.2 + place.1.sliceBytes ≤
        offset + (groups.map CombinedRegion.sliceBytes).sum := by
  induction groups with
  | nil => simp [placed]
  | cons group rest inductionHypothesis =>
      intro offset place inside
      rw [List.map_cons, List.sum_cons]
      rcases List.mem_cons.mp inside with rfl | inside
      · dsimp only
        omega
      · have later := inductionHypothesis place inside
        omega

/-- Slices are placed one behind the other. -/
theorem placed_pairwise (groups : List CombinedRegion) : ∀ {offset : Nat},
    (placed offset groups).Pairwise fun a b => a.2 + a.1.sliceBytes ≤ b.2 := by
  induction groups with
  | nil => exact List.Pairwise.nil
  | cons group rest inductionHypothesis =>
      exact List.pairwise_cons.mpr
        ⟨fun place inside => (placed_within rest place inside).1,
          inductionHypothesis⟩

namespace PagedTable

variable {table : RegionTable}

/-- The size of a combined region is a number of whole pages. -/
theorem size_eq (paged : PagedTable table) {group : CombinedRegion}
    (inside : group ∈ combinedRegions 0 table)
    (isCombinable : combinable group.region = true) :
    group.size = group.stop - group.region.addrStart ∧ 4096 ∣ group.size ∧
      group.size + 4096 ≤ 2 ^ 64 := by
  have words := (grouped table).bounds (P := (· < 2 ^ 64))
    (fun region isRegion _ => paged.words region isRegion) group inside
    isCombinable
  have aligned := (grouped table).bounds (P := (4096 ∣ ·)) paged.aligned group
    inside isCombinable
  have ordered := (grouped table).start_le_stop paged.ordered group inside
    isCombinable
  rw [CombinedRegion.size, sub64_eq ordered words.2]
  omega

/-- Both passes round the bits of a combined region to the same bytes. -/
theorem bits_eq (paged : PagedTable table) {group : CombinedRegion}
    (inside : group ∈ combinedRegions 0 table) :
    group.bits = 8 * group.sliceBytes := by
  rw [CombinedRegion.bits, CombinedRegion.sliceBytes]
  split
  next isCombinable =>
    obtain ⟨_, aligned, small⟩ := paged.size_eq inside isCombinable
    rw [bitmapBits, ← CombinedRegion.size, bitmapRequiredBytes,
      BitFields.alignUp_eq (by decide) (by omega), pageSize,
      clearLow_eq (by decide) (Nat.mod_lt _ (Nat.two_pow_pos 64))]
    split <;> omega
  next => rfl

/-- Every page of a combined region has its bit. -/
theorem size_le (paged : PagedTable table) {group : CombinedRegion}
    (inside : group ∈ combinedRegions 0 table)
    (isCombinable : combinable group.region = true) :
    group.size ≤ 4096 * (8 * bitmapRequiredBytes group.size) ∧
      8 * bitmapRequiredBytes group.size ≤ group.size / 4096 + 7 := by
  obtain ⟨_, aligned, small⟩ := paged.size_eq inside isCombinable
  rw [bitmapRequiredBytes, BitFields.alignUp_eq (by decide) (by omega), pageSize]
  split <;> omega

theorem sum_bits (paged : PagedTable table) :
    ((combinedRegions 0 table).map CombinedRegion.bits).sum =
      8 * ((combinedRegions 0 table).map CombinedRegion.sliceBytes).sum := by
  rw [List.map_congr_left fun group inside => paged.bits_eq inside,
    List.sum_map_mul_left]

/-- The bits of all combined regions: one for each page, and up to seven of
padding for each region. -/
theorem sum_bits_le (groups : List CombinedRegion)
    (each : ∀ group ∈ groups, group.bits ≤
      (if combinable group.region then group.stop - group.region.addrStart
        else 0) / 4096 + 7) :
    4096 * (groups.map CombinedRegion.bits).sum ≤
      (groups.map fun group => if combinable group.region then
        group.stop - group.region.addrStart else 0).sum +
          4096 * 7 * groups.length := by
  induction groups with
  | nil => simp
  | cons group rest inductionHypothesis =>
      have head := each group (by simp)
      have tail := inductionHypothesis fun other inside =>
        each other (List.mem_cons_of_mem _ inside)
      rw [List.map_cons, List.sum_cons, List.map_cons, List.sum_cons,
        List.length_cons]
      omega

/-- The bits do not overflow the counter. -/
theorem sum_bits_lt (paged : PagedTable table) :
    ((combinedRegions 0 table).map CombinedRegion.bits).sum < 2 ^ 62 := by
  have each : ∀ group ∈ combinedRegions 0 table, group.bits ≤
      (if combinable group.region then group.stop - group.region.addrStart
        else 0) / 4096 + 7 := by
    intro group inside
    rw [paged.bits_eq inside, CombinedRegion.sliceBytes]
    split
    next isCombinable =>
      rw [← (paged.size_eq inside isCombinable).1]
      exact (paged.size_le inside isCombinable).2
    next => omega
  have whole := sum_bits_le _ each
  have total := paged.total
  have short := paged.toBootTable.groups_length
  rw [(grouped table).sum_lengths paged.ordered, ← combinableSize] at whole
  omega

/-- The counts of the first pass, and the pages they ask for. -/
theorem counts (paged : PagedTable table) :
    (regionCounts table).bitmapBitCount =
        8 * ((combinedRegions 0 table).map CombinedRegion.sliceBytes).sum ∧
      ((combinedRegions 0 table).map CombinedRegion.sliceBytes).sum ≤
        (regionCounts table).bitmapPageCount * pageSize ∧
      physmemRegionSize * (combinedRegions 0 table).length ≤
        (regionCounts table).regionsPageCount * pageSize ∧
      managerPageCount table = (regionCounts table).bitmapPageCount +
        (regionCounts table).regionsPageCount ∧
      managerPageCount table * pageSize < 2 ^ 64 := by
  have bits := paged.sum_bits
  have small := paged.sum_bits_lt
  have short := paged.toBootTable.groups_length
  rw [bits] at small
  rw [managerPageCount, paged.toBootTable.regionCounts_eq, bits,
    Nat.mod_eq_of_lt (by omega)]
  simp only [RegionCounts.physManagerPageCount, RegionCounts.bitmapPageCount,
    RegionCounts.regionsPageCount, physmemRegionSize, pageSize]
  refine ⟨trivial, by omega, by omega, by omega, by omega⟩

end PagedTable

/-! ## The layout -/

/-- The layout of the manager's pages: first the bitmap, which the slices of the
available entries share, then the array of entries. -/
structure LayoutAgrees (table : RegionTable) (ptr : Nat) (s : KernelState) :
    Prop where
  count : s.physmemLen = (regionCounts table).combinedRegionCount
  array : cyclicRange 64 s.physmap (physmemRegionSize * s.physmemLen) ⊆
    cyclicRange 64
      ((ptr + (regionCounts table).bitmapPageCount * pageSize) % 2 ^ 64)
      ((regionCounts table).regionsPageCount * pageSize)
  inside : ∀ region ∈ physmapOf s, region.type = .available →
    slice region ⊆
      cyclicRange 64 ptr ((regionCounts table).bitmapPageCount * pageSize)
  enough : ∀ region ∈ physmapOf s, region.type = .available →
    region.len ≤ pageSize * (8 * bitmapRequiredBytes region.len)
  apart : (physmapOf s).Pairwise fun a b => a.type = .available →
    b.type = .available → Disjoint (slice a) (slice b)
  behind : ∀ region ∈ physmapOf s, region.type = .available →
    Disjoint (slice region)
      (cyclicRange 64 s.physmap (physmemRegionSize * s.physmemLen))

theorem physmemType_available {type : MemoryRegionType} :
    physmemType type = .available ↔ type = .available ∨ type = .allocated := by
  cases type <;> simp [physmemType]

theorem combinable_iff {region : MemoryRegion} :
    combinable region = true ↔
      region.type = .available ∨ region.type = .allocated := by
  simp [combinable]

/-- The slice of an available entry, by its place. -/
theorem slice_entry {group : CombinedRegion} {bitmapAddr : Nat}
    (available : (group.entry bitmapAddr).type = .available) :
    combinable group.region = true ∧
      slice (group.entry bitmapAddr) =
        cyclicRange 64 bitmapAddr group.sliceBytes := by
  have isCombinable : combinable group.region = true :=
    combinable_iff.mpr (physmemType_available.mp available)
  refine ⟨isCombinable, ?_⟩
  rw [slice, CombinedRegion.entry, CombinedRegion.sliceBytes,
    if_pos isCombinable, if_pos isCombinable]

section Layout

variable {table : RegionTable} {ptr : Nat} {s : KernelState}

/-- An available entry of the physmap is a combined region with its place. -/
theorem mem_physmapRegions {entry : PhysmemRegion}
    (inside : entry ∈ physmapRegions ptr table) :
    ∃ place ∈ placed 0 (combinedRegions 0 table),
      entry = place.1.entry ((ptr + place.2) % 2 ^ 64) ∧
        place.1 ∈ combinedRegions 0 table := by
  simp only [physmapRegions, placedEntries, List.mem_map] at inside
  obtain ⟨place, isPlace, rfl⟩ := inside
  refine ⟨place, isPlace, rfl, ?_⟩
  rw [← map_fst_placed (combinedRegions 0 table) 0]
  exact List.mem_map_of_mem isPlace

/-- What populating the physmap of a paged table lays out. -/
theorem setUpPhysmap_layoutAgrees (paged : PagedTable table) (page : 4096 ∣ ptr)
    (word : ptr < 2 ^ 64) (fresh : s.physmemLen = 0) :
    LayoutAgrees table ptr (setUpPhysmap table ptr s) := by
  obtain ⟨length, entries⟩ := setUpPhysmap_physmap paged.toBootTable page word
    fresh
  obtain ⟨_, bitmap, array, pages, fits⟩ := paged.counts
  have only := addRegions_only (physmapRegions ptr table)
    (clearedManager table ptr s)
  rw [← setUpPhysmap_eq word] at only
  have base : (setUpPhysmap table ptr s).physmap =
      (ptr + (regionCounts table).bitmapPageCount * pageSize) % 2 ^ 64 :=
    only.physmap
  rw [pages, Nat.add_mul] at fits
  have within : ∀ place ∈ placed 0 (combinedRegions 0 table), 0 ≤ place.2 ∧
      place.2 + place.1.sliceBytes ≤
        0 + ((combinedRegions 0 table).map CombinedRegion.sliceBytes).sum :=
    placed_within (combinedRegions 0 table)
  refine ⟨?_, ?_, ?_, ?_, ?_, ?_⟩
  · rw [length, paged.toBootTable.regionCounts_eq]
  · rw [length, base]
    rintro x ⟨k, below, rfl⟩
    exact ⟨k, Nat.lt_of_lt_of_le below array, rfl⟩
  · rw [entries]
    intro region inside available
    obtain ⟨place, isPlace, rfl, _⟩ := mem_physmapRegions inside
    rw [(slice_entry available).2]
    exact cyclicRange_subset (by have := within place isPlace; omega)
  · rw [entries]
    intro region inside available
    obtain ⟨place, _, rfl, isGroup⟩ := mem_physmapRegions inside
    exact (paged.size_le isGroup (slice_entry available).1).1
  · rw [entries, physmapRegions, placedEntries, List.pairwise_map]
    apply (placed_pairwise (combinedRegions 0 table)).imp_of_mem
    intro a b _ insideB order availableA availableB
    rw [(slice_entry availableA).2, (slice_entry availableB).2]
    exact cyclicRange_disjoint order (by have := within b insideB; omega)
  · rw [entries, length, base]
    intro region inside available
    obtain ⟨place, isPlace, rfl, _⟩ := mem_physmapRegions inside
    rw [(slice_entry available).2]
    exact cyclicRange_disjoint (by have := within place isPlace; omega) (by omega)

end Layout

/-- Whatever table the kernel is given, the physmap that it populates has as
many entries as the first pass counted, and slices and entries stay in the pages
that were counted for them, without overlapping. -/
theorem initMemoryManager_layoutAgrees {kernEnd ptr : Nat}
    {bootinfo : SampoBootinfo} {s mapped : KernelState}
    (boot : BootTable bootinfo.memoryRegions)
    (aligned : ∀ region ∈ bootinfo.memoryRegions, combinable region = true →
      4096 ∣ region.addrStart ∧ 4096 ∣ region.addrEnd)
    (ordered : ∀ region ∈ bootinfo.memoryRegions, combinable region = true →
      region.addrStart ≤ region.addrEnd)
    (total : combinableSize bootinfo.memoryRegions < 2 ^ 63)
    (fresh : s.physmemLen = 0)
    (manager : ManagerMapped kernEnd bootinfo s ptr mapped) :
    LayoutAgrees bootinfo.memoryRegions ptr
      (setUpPhysmap bootinfo.memoryRegions ptr mapped) := by
  have pointer := manager.pointer
  exact setUpPhysmap_layoutAgrees ⟨boot, aligned, ordered, by omega⟩ pointer.1
    pointer.2 (manager.onlyTables.physmemLen.trans fresh)

/-! ## A small kernel -/

/-- Page tables at 0x1000 that map their first table to itself, with a page
table for the 2 MiB from address 0 on. -/
def smallTables : Memory :=
  storeLe (storeLe (storeLe (storeLe (fun _ => 0) 0x1000 8 0x2003) 0x2000 8
    0x3003) 0x3000 8 0x4003) 0x4008 8 0x1003

/-- A kernel with these page tables, before it has set up anything. -/
def smallKernel : KernelState where
  physical := smallTables
  root := 0x1000
  virtual := fun _ => 0
  kernelEndAddr := 0
  physmemLen := 0
  physmap := 0

/-- A memory map with two holes. -/
def smallBootinfo : SampoBootinfo where
  memoryRegions :=
    [⟨0x1000, 0x8000, .allocated⟩, ⟨0x8000, 0x9000, .reserved⟩,
      ⟨0x100000, 0x140000, .available⟩, ⟨0x140000, 0x150000, .allocated⟩,
      ⟨0x160000, 0x170000, .available⟩]
  bootstrapPagingStructurePtr := 0x1000

/-- The small kernel maps its manager. -/
theorem smallKernel_mapped :
    ∃ ptr mapped, ManagerMapped 0x5800 smallBootinfo smallKernel ptr mapped := by
  have ran : ((startManager 0x5800 smallBootinfo smallKernel).bind
      (virtMapPagesKernelEnd (managerAddr smallBootinfo.memoryRegions)
        (managerPageCount smallBootinfo.memoryRegions)
        (virtMapRead ||| virtMapWrite))).isSome = true := by decide +kernel
  obtain ⟨⟨ptr, mapped⟩, runs⟩ := Option.isSome_iff_exists.mp ran
  exact ⟨ptr, mapped, by decide, runs⟩

theorem smallBootinfo_bootTable : BootTable smallBootinfo.memoryRegions :=
  ⟨by decide, by decide⟩

theorem initMemoryManager_layoutAgrees_small :
    ∃ ptr mapped, LayoutAgrees smallBootinfo.memoryRegions ptr
      (setUpPhysmap smallBootinfo.memoryRegions ptr mapped) := by
  obtain ⟨ptr, mapped, manager⟩ := smallKernel_mapped
  exact ⟨ptr, mapped, initMemoryManager_layoutAgrees smallBootinfo_bootTable
    (by decide) (by decide) (by decide) rfl manager⟩

end SampoOS.Kernel
