/-
Module: SampoOS.Kernel.MergedRegions
Purpose: The physmap describes the same memory as the table it is populated
  from, with adjacent usable regions merged.
Trusted boundary: none
Main exports: PhysmemRegion.bytes, entryBytes, OrderedTable, MemoryMapKept,
  physmapRegions_bytes, initMemoryManager_keeps_memoryMap
-/
import Mathlib.Order.Interval.Set.Disjoint
import SampoOS.Kernel.ManagerLayout

namespace SampoOS.Kernel

/-! ## Memory maps -/

/-- The physical bytes of an entry. -/
def PhysmemRegion.bytes (region : PhysmemRegion) : Set Nat :=
  Set.Ico region.addr (region.addr + region.len)

@[simp] theorem PhysmemRegion.mem_bytes {region : PhysmemRegion} {x : Nat} :
    x ∈ region.bytes ↔ region.addr ≤ x ∧ x < region.addr + region.len :=
  Iff.rfl

/-- The bytes that entries of a type describe. -/
def entryBytes (regions : List PhysmemRegion) (type : PhysmemRegionType) :
    Set Nat :=
  {x | ∃ region ∈ regions, region.type = type ∧ x ∈ region.bytes}

/-- The types that have a counterpart of their own in the physmap. -/
def keptTypes : List MemoryRegionType :=
  [.available, .allocated, .reclaimable, .nvs, .badMem]

/-- A table that is sorted by start, with non-empty disjoint regions. -/
structure OrderedTable (table : RegionTable) : Prop where
  sorted : table.Pairwise fun a b => a.addrStart ≤ b.addrStart
  proper : ∀ region ∈ table, region.addrStart < region.addrEnd
  apart : table.Pairwise MemoryRegion.Apart

/-- Each region ends before the next one starts. -/
theorem OrderedTable.ascends {table : RegionTable} (ordered : OrderedTable table) :
    table.Pairwise fun a b => a.addrEnd ≤ b.addrStart := by
  refine (ordered.sorted.and ordered.apart).imp_of_mem ?_
  intro a b insideA insideB ⟨order, apart⟩
  have properB := ordered.proper b insideB
  by_contra overlap
  exact MemoryRegion.apart_iff.mp apart b.addrStart ⟨order, by omega⟩
    ⟨Nat.le_refl _, properB⟩

/-- A table that is sorted by start, with disjoint regions, none of which is empty
if it can be combined. -/
structure SortedTable (table : RegionTable) : Prop where
  sorted : table.Pairwise fun a b => a.addrStart ≤ b.addrStart
  proper : ∀ region ∈ table, combinable region = true →
    region.addrStart < region.addrEnd
  apart : table.Pairwise MemoryRegion.Apart

theorem OrderedTable.sortedTable {table : RegionTable}
    (ordered : OrderedTable table) : SortedTable table :=
  ⟨ordered.sorted, fun region inside _ => ordered.proper region inside,
    ordered.apart⟩

/-- Each combinable region ends before the next one of them starts. -/
theorem SortedTable.ascends {table : RegionTable} (sorted : SortedTable table) :
    table.Pairwise fun a b => combinable a = true → combinable b = true →
      a.addrEnd ≤ b.addrStart := by
  refine (sorted.sorted.and sorted.apart).imp_of_mem ?_
  intro a b _ insideB ⟨order, apart⟩ _ combinableB
  have properB := sorted.proper b insideB combinableB
  by_contra overlap
  exact MemoryRegion.apart_iff.mp apart b.addrStart ⟨order, by omega⟩
    ⟨Nat.le_refl _, properB⟩

/-- The physmap keeps the memory map of a table, and merges as far as it can. -/
structure MemoryMapKept (table : RegionTable) (regions : List PhysmemRegion) :
    Prop where
  available : entryBytes regions .available =
    bytesOfType table .available ∪ bytesOfType table .allocated
  acpiReclaim : entryBytes regions .acpiReclaim = bytesOfType table .reclaimable
  nvs : entryBytes regions .nvs = bytesOfType table .nvs
  badMem : entryBytes regions .badMem = bytesOfType table .badMem
  reserved : entryBytes regions .reserved =
    {x | ∃ region ∈ table, region.type ∉ keptTypes ∧ x ∈ region.bytes}
  ascending : regions.Pairwise fun a b => a.addr + a.len ≤ b.addr
  merged : ∀ a ∈ regions, ∀ b ∈ regions, a.type = .available →
    b.type = .available → a.addr + a.len ≠ b.addr

/-! ## The entries of a table -/

/-- The combinable groups are proper intervals if the combinable regions are. -/
theorem Grouped.proper_combinable {table : List MemoryRegion}
    {groups : List CombinedRegion} (cut : Grouped table groups)
    (proper : ∀ region ∈ table, combinable region = true →
      region.addrStart < region.addrEnd) :
    ∀ group ∈ groups, combinable group.region = true →
      group.region.addrStart < group.stop := by
  induction cut with
  | nil => simp
  | single isSingle tail inductionHypothesis =>
      intro group inside isCombinable
      rcases List.mem_cons.mp inside with rfl | inside
      · simp [isSingle] at isCombinable
      · exact inductionHypothesis (fun region isRegion =>
          proper region (List.mem_cons_of_mem _ isRegion)) group inside isCombinable
  | @merged first front behind stop groups isCombinable chain ends tail
      inductionHypothesis =>
      intro group inside _
      rcases List.mem_cons.mp inside with rfl | inside
      · exact Nat.lt_of_lt_of_le (proper first (by simp) isCombinable)
          (chain.start_le_stop fun region isRegion =>
            Nat.le_of_lt (proper region (by simp [isRegion])
              (chain.combinable_of_mem region isRegion)))
      · exact inductionHypothesis (fun region isRegion =>
          proper region (by simp [isRegion])) group inside ‹_›

/-- All groups of an ordered table are proper intervals. -/
theorem Grouped.proper {table : List MemoryRegion} {groups : List CombinedRegion}
    (cut : Grouped table groups)
    (proper : ∀ region ∈ table, region.addrStart < region.addrEnd) :
    ∀ group ∈ groups, group.region.addrStart < group.stop := by
  intro group inside
  cases isCombinable : combinable group.region with
  | true =>
      exact cut.proper_combinable (fun region isRegion _ => proper region isRegion)
        group inside isCombinable
  | false =>
      rw [cut.stop_of_single group inside isCombinable]
      exact proper _ (cut.region_mem group inside)

section Entries

variable {table : RegionTable} {ptr : Nat}

/-- The stop of a group fits its C type. -/
theorem BootTable.stop_lt (boot : BootTable table) :
    ∀ group ∈ combinedRegions 0 table, group.stop < 2 ^ 64 := by
  intro group inside
  cases isCombinable : combinable group.region with
  | true =>
      exact ((grouped table).bounds (P := (· < 2 ^ 64))
        (fun region isRegion _ => boot.words region isRegion) group inside
        isCombinable).2
  | false =>
      rw [(grouped table).stop_of_single group inside isCombinable]
      exact (boot.words _ ((grouped table).region_mem group inside)).2

/-- The entry of a group that does not end before it starts covers its bytes. -/
theorem BootTable.entry_stop (boot : BootTable table) {group : CombinedRegion}
    (inside : group ∈ combinedRegions 0 table)
    (order : group.region.addrStart ≤ group.stop) (bitmapAddr : Nat) :
    (group.entry bitmapAddr).addr + (group.entry bitmapAddr).len = group.stop := by
  have size : group.size = group.stop - group.region.addrStart :=
    sub64_eq order (boot.stop_lt group inside)
  rw [CombinedRegion.entry, size]
  dsimp only
  omega

/-- An entry covers the bytes of its group. -/
theorem entry_stop (boot : BootTable table) (ordered : OrderedTable table)
    {group : CombinedRegion} (inside : group ∈ combinedRegions 0 table)
    (bitmapAddr : Nat) :
    (group.entry bitmapAddr).addr + (group.entry bitmapAddr).len = group.stop :=
  boot.entry_stop inside
    (Nat.le_of_lt ((grouped table).proper ordered.proper group inside)) bitmapAddr

theorem SortedTable.entry_stop (sorted : SortedTable table) (boot : BootTable table)
    {group : CombinedRegion} (inside : group ∈ combinedRegions 0 table)
    (isCombinable : combinable group.region = true) (bitmapAddr : Nat) :
    (group.entry bitmapAddr).addr + (group.entry bitmapAddr).len = group.stop :=
  boot.entry_stop inside (Nat.le_of_lt ((grouped table).proper_combinable
    sorted.proper group inside isCombinable)) bitmapAddr

/-- The entries of a type cover the bytes of the groups that get this type. -/
theorem entryBytes_eq (boot : BootTable table) (ordered : OrderedTable table)
    (type : PhysmemRegionType) :
    entryBytes (physmapRegions ptr table) type =
      {x | ∃ group ∈ combinedRegions 0 table,
        physmemType group.region.type = type ∧ x ∈ group.bytes} := by
  ext x
  constructor
  · rintro ⟨entry, inside, isType, member⟩
    obtain ⟨place, _, rfl, isGroup⟩ := mem_physmapRegions inside
    rw [PhysmemRegion.mem_bytes, entry_stop boot ordered isGroup] at member
    exact ⟨place.1, isGroup, isType, member⟩
  · rintro ⟨group, inside, isType, member⟩
    have placedGroup := inside
    rw [← map_fst_placed (combinedRegions 0 table) 0] at placedGroup
    obtain ⟨place, isPlace, rfl⟩ := List.mem_map.mp placedGroup
    refine ⟨place.1.entry ((ptr + place.2) % 2 ^ 64), ?_, isType, ?_⟩
    · exact List.mem_map.mpr ⟨place, isPlace, rfl⟩
    · rw [PhysmemRegion.mem_bytes, entry_stop boot ordered inside]
      exact member

/-- The entries of a type cover the bytes of the regions that get this type. -/
theorem physmapRegions_bytes (boot : BootTable table) (ordered : OrderedTable table)
    (type : PhysmemRegionType) :
    entryBytes (physmapRegions ptr table) type =
      {x | ∃ region ∈ table, physmemType region.type = type ∧ x ∈ region.bytes} := by
  rw [entryBytes_eq boot ordered]
  ext x
  have weak : ∀ region ∈ table, combinable region = true →
      region.addrStart ≤ region.addrEnd := fun region inside _ =>
    Nat.le_of_lt (ordered.proper region inside)
  by_cases isAvailable : type = .available
  · -- The merged regions are the available ones.
    subst isAvailable
    have same := (grouped table).mem_combinable weak x
    simp only [combinable_iff, ← physmemType_available] at same
    exact same
  · have isSingle : ∀ region : MemoryRegion, physmemType region.type = type →
        combinable region = false := by
      intro region isType
      cases isCombinable : combinable region with
      | false => rfl
      | true =>
          exact absurd (isType.symm.trans (physmemType_available.mpr
            (combinable_iff.mp isCombinable))) isAvailable
    constructor
    · rintro ⟨group, inside, isType, member⟩
      refine ⟨group.region, (grouped table).region_mem group inside, isType, ?_⟩
      rw [CombinedRegion.mem_bytes, (grouped table).stop_of_single group inside
        (isSingle _ isType)] at member
      exact member
    · rintro ⟨region, inside, isType, member⟩
      exact ⟨⟨region, region.addrEnd⟩,
        ((grouped table).mem_single region (isSingle region isType)).mp inside,
        isType, member⟩

/-- The entries stand in ascending order and do not overlap. -/
theorem physmapRegions_ascending (boot : BootTable table)
    (ordered : OrderedTable table) :
    (physmapRegions ptr table).Pairwise fun a b => a.addr + a.len ≤ b.addr := by
  have groups := (grouped table).ascending ordered.ascends
  rw [← map_fst_placed (combinedRegions 0 table) 0, List.pairwise_map] at groups
  rw [physmapRegions, placedEntries, List.pairwise_map]
  refine groups.imp_of_mem ?_
  intro a b insideA _ order
  have isGroup : a.1 ∈ combinedRegions 0 table := by
    rw [← map_fst_placed (combinedRegions 0 table) 0]
    exact List.mem_map_of_mem insideA
  rw [entry_stop boot ordered isGroup]
  exact order

/-- The entries of a sorted table are sorted. -/
theorem physmapRegions_sorted
    (sorted : table.Pairwise fun a b => a.addrStart ≤ b.addrStart) :
    (physmapRegions ptr table).Pairwise fun a b => a.addr ≤ b.addr := by
  have groups := sorted.sublist (grouped table).regions_sublist
  rw [List.pairwise_map, ← map_fst_placed (combinedRegions 0 table) 0,
    List.pairwise_map] at groups
  rw [physmapRegions, placedEntries, List.pairwise_map]
  exact groups

/-- Its available entries do not overlap. -/
theorem SortedTable.available_ascending (sorted : SortedTable table)
    (boot : BootTable table) :
    (physmapRegions ptr table).Pairwise fun a b => a.type = .available →
      b.type = .available → a.addr + a.len ≤ b.addr := by
  have groups := (grouped table).ascending_combinable sorted.ascends
  rw [← map_fst_placed (combinedRegions 0 table) 0, List.pairwise_map] at groups
  rw [physmapRegions, placedEntries, List.pairwise_map]
  refine groups.imp_of_mem ?_
  intro a b insideA _ order availableA availableB
  have isGroup : a.1 ∈ combinedRegions 0 table := by
    rw [← map_fst_placed (combinedRegions 0 table) 0]
    exact List.mem_map_of_mem insideA
  have combinableA := (slice_entry availableA).1
  rw [sorted.entry_stop boot isGroup combinableA]
  exact order combinableA (slice_entry availableB).1

/-- Two available entries do not touch. -/
theorem physmapRegions_merged (boot : BootTable table)
    (ordered : OrderedTable table) :
    ∀ a ∈ physmapRegions ptr table, ∀ b ∈ physmapRegions ptr table,
      a.type = .available → b.type = .available → a.addr + a.len ≠ b.addr := by
  intro a insideA b insideB availableA availableB
  obtain ⟨placeA, _, rfl, groupA⟩ := mem_physmapRegions insideA
  obtain ⟨placeB, _, rfl, groupB⟩ := mem_physmapRegions insideB
  rw [entry_stop boot ordered groupA]
  have proper := (grouped table).proper ordered.proper
  have gaps := (grouped table).apart ordered.ascends ordered.proper
  have backwards : (combinedRegions 0 table).Pairwise fun a b =>
      combinable b.region = true → combinable a.region = true →
        b.stop ≠ a.region.addrStart := by
    apply ((grouped table).ascending ordered.ascends).imp_of_mem
    intro a b insideA insideB order _ _
    have properA := proper a insideA
    have properB := proper b insideB
    omega
  have alone : ∀ group ∈ combinedRegions 0 table,
      combinable group.region = true → combinable group.region = true →
        group.stop ≠ group.region.addrStart := fun group inside _ _ =>
    Nat.ne_of_gt (proper group inside)
  exact List.Pairwise.forall_of_forall_of_flip alone gaps backwards groupA groupB
    (slice_entry availableA).1 (slice_entry availableB).1

theorem physmapRegions_keptMap (boot : BootTable table)
    (ordered : OrderedTable table) :
    MemoryMapKept table (physmapRegions ptr table) := by
  have bytes : ∀ type, entryBytes (physmapRegions ptr table) type =
      {x | ∃ region ∈ table, physmemType region.type = type ∧ x ∈ region.bytes} :=
    physmapRegions_bytes boot ordered
  refine ⟨?_, ?_, ?_, ?_, ?_, physmapRegions_ascending boot ordered,
    physmapRegions_merged boot ordered⟩
  · ext x
    simp only [bytes, physmemType_available, Set.mem_ofPred_eq, Set.mem_union,
      mem_bytesOfType, or_and_right, and_or_left, exists_or]
  · rw [bytes]
    ext x
    have kind : ∀ type, physmemType type = .acpiReclaim ↔ type = .reclaimable := by
      intro type
      cases type <;> simp [physmemType]
    simp only [kind, Set.mem_ofPred_eq, mem_bytesOfType]
  · rw [bytes]
    ext x
    have kind : ∀ type, physmemType type = .nvs ↔ type = .nvs := by
      intro type
      cases type <;> simp [physmemType]
    simp only [kind, Set.mem_ofPred_eq, mem_bytesOfType]
  · rw [bytes]
    ext x
    have kind : ∀ type, physmemType type = .badMem ↔ type = .badMem := by
      intro type
      cases type <;> simp [physmemType]
    simp only [kind, Set.mem_ofPred_eq, mem_bytesOfType]
  · rw [bytes]
    ext x
    have kind : ∀ type, physmemType type = .reserved ↔ type ∉ keptTypes := by
      intro type
      cases type <;> simp [physmemType, keptTypes]
    simp only [kind, Set.mem_ofPred_eq]

end Entries

/-- Populating the physmap from any ordered table keeps its memory map: usable
regions are merged where they touch, and nothing is lost or counted twice. -/
theorem initMemoryManager_keeps_memoryMap {kernEnd ptr : Nat}
    {bootinfo : SampoBootinfo} {s mapped : KernelState}
    (boot : BootTable bootinfo.memoryRegions)
    (ordered : OrderedTable bootinfo.memoryRegions) (fresh : s.physmemLen = 0)
    (manager : ManagerMapped kernEnd bootinfo s ptr mapped) :
    MemoryMapKept bootinfo.memoryRegions
      (physmapOf (setUpPhysmap bootinfo.memoryRegions ptr mapped)) := by
  have pointer := manager.pointer
  rw [(setUpPhysmap_physmap boot pointer.1 pointer.2
    (manager.onlyTables.physmemLen.trans fresh)).2]
  exact physmapRegions_keptMap boot ordered

theorem smallBootinfo_ordered : OrderedTable smallBootinfo.memoryRegions :=
  ⟨by decide, by decide, by
    simp [smallBootinfo, MemoryRegion.Apart, MemoryRegion.bytes,
      Set.Ico_disjoint_Ico]⟩

theorem initMemoryManager_keeps_memoryMap_small :
    ∃ ptr mapped, MemoryMapKept smallBootinfo.memoryRegions
      (physmapOf (setUpPhysmap smallBootinfo.memoryRegions ptr mapped)) := by
  obtain ⟨ptr, mapped, manager⟩ := smallKernel_mapped
  exact ⟨ptr, mapped, initMemoryManager_keeps_memoryMap smallBootinfo_bootTable
    smallBootinfo_ordered rfl manager⟩

end SampoOS.Kernel
