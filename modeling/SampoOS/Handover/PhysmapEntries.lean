/-
Module: SampoOS.Handover.PhysmapEntries
Purpose: Which firmware memory maps give the kernel a physmap of whole,
  disjoint pages, and which marks of its initialisation leave it so.
Trusted boundary: none
Main exports: multibootTypes, WholePageMap, PhysmapInvariant,
  physmapRegions_invariant, populated_physmapInvariant_iff,
  handover_physmapInvariant_iff
-/
import SampoOS.Kickstart.PmmBounds
import SampoOS.Kernel.StrayMarks

namespace SampoOS

open Kickstart Kernel

/-! ## Firmware maps -/

/-- The types that Kickstart gives to the entries of the Multiboot memory map. -/
def multibootTypes : List MemoryRegionType :=
  [.available, .reserved, .reclaimable, .nvs, .badMem]

/-- The entry has a byte in the page. -/
def Touches (entry : FirmwareEntry) (page : Nat) : Prop :=
  entry.start < (page + 1) * 4096 ∧ page * 4096 < entry.stop

/-- The entries that Kickstart does not round consist of whole pages, and no two
of those that it rounds outwards have bytes in the same page. -/
structure WholePageMap (entries : List FirmwareEntry) : Prop where
  aligned : ∀ entry ∈ entries,
    entry.type = .reclaimable ∨ entry.type = .nvs ∨ entry.type = .badMem →
      4096 ∣ entry.start ∧ 4096 ∣ entry.stop
  ownPages : entries.Pairwise fun a b =>
    a.type = .reserved → b.type = .reserved →
      ∀ page, ¬ (Touches a page ∧ Touches b page)

/-- What the kernel documents about the entries of its physmap. -/
structure PhysmapInvariant (regions : List PhysmemRegion) : Prop where
  aligned : ∀ region ∈ regions,
    pageSize ∣ region.addr ∧ pageSize ∣ region.len
  apart : regions.Pairwise fun a b => Disjoint a.bytes b.bytes
  ascending : regions.Pairwise fun a b => a.addr < b.addr

/-- The invariant depends on the bounds of the entries alone. -/
theorem physmapInvariant_congr {regions regions' : List PhysmemRegion}
    (same : regions'.map PhysmemRegion.bounds = regions.map PhysmemRegion.bounds) :
    PhysmapInvariant regions' ↔ PhysmapInvariant regions := by
  have byBounds : ∀ regions : List PhysmemRegion, PhysmapInvariant regions ↔
      (∀ bounds ∈ regions.map PhysmemRegion.bounds,
        pageSize ∣ bounds.1 ∧ pageSize ∣ bounds.2) ∧
      ((regions.map PhysmemRegion.bounds).Pairwise fun a b =>
        Disjoint (Set.Ico a.1 (a.1 + a.2)) (Set.Ico b.1 (b.1 + b.2))) ∧
      (regions.map PhysmemRegion.bounds).Pairwise fun a b => a.1 < b.1 := by
    intro regions
    rw [List.forall_mem_map, List.pairwise_map, List.pairwise_map]
    exact ⟨fun ⟨aligned, apart, ascending⟩ => ⟨aligned, apart, ascending⟩,
      fun ⟨aligned, apart, ascending⟩ => ⟨aligned, apart, ascending⟩⟩
  rw [byBounds, byBounds, same]

/-! ## Rounded entries -/

section Rounded

variable {a b : FirmwareEntry}

/-- Rounded outwards, an entry covers the pages that it touches. -/
theorem mem_rounded_reserved (proper : a.start < a.stop)
    (bounded : a.stop ≤ 2 ^ 52) (reserved : a.type = .reserved) (x : Nat) :
    x ∈ a.rounded.bytes ↔ Touches a (x / 4096) := by
  rw [FirmwareEntry.rounded, reserved, roundedRegion_reserved (by omega) bounded,
    MemoryRegion.mem_bytes, Touches]
  dsimp only
  omega

theorem apart_reserved_iff (properA : a.start < a.stop)
    (boundedA : a.stop ≤ 2 ^ 52) (reservedA : a.type = .reserved)
    (properB : b.start < b.stop) (boundedB : b.stop ≤ 2 ^ 52)
    (reservedB : b.type = .reserved) :
    a.rounded.Apart b.rounded ↔ ∀ page, ¬ (Touches a page ∧ Touches b page) := by
  rw [MemoryRegion.apart_iff]
  simp only [mem_rounded_reserved properA boundedA reservedA,
    mem_rounded_reserved properB boundedB reservedB]
  constructor
  · intro apart page touched
    have first : page * 4096 / 4096 = page := Nat.mul_div_cancel _ (by decide)
    exact apart (page * 4096) (first.symm ▸ touched.1) (first.symm ▸ touched.2)
  · intro apart x inA inB
    exact apart (x / 4096) ⟨inA, inB⟩

/-- An entry of whole pages that is not rounded meets no other rounded entry. -/
theorem apart_of_aligned (properA : a.start < a.stop)
    (boundedA : a.stop ≤ 2 ^ 52) (notAvailable : b.type ≠ .available)
    (notReserved : b.type ≠ .reserved)
    (aligned : 4096 ∣ b.start ∧ 4096 ∣ b.stop)
    (apart : Disjoint (Set.Ico a.start a.stop) (Set.Ico b.start b.stop)) :
    a.rounded.Apart b.rounded := by
  have unrounded : b.rounded =
      { addrStart := b.start, addrEnd := b.stop, type := b.type } :=
    roundedRegion_other _ _ notAvailable notReserved
  rw [MemoryRegion.apart_iff]
  intro x inA inB
  rw [unrounded, MemoryRegion.mem_bytes] at inB
  dsimp only at inB
  obtain ⟨y, member, page⟩ := FirmwareEntry.exists_mem_page properA boundedA inA
  have inside : y ∈ Set.Ico b.start b.stop := by
    rw [Set.mem_Ico]
    omega
  exact Set.disjoint_left.mp apart member inside

end Rounded

theorem unrounded_type {entry : FirmwareEntry}
    (multiboot : entry.type ∈ multibootTypes)
    (notAvailable : entry.type ≠ .available)
    (notReserved : entry.type ≠ .reserved) :
    entry.type = .reclaimable ∨ entry.type = .nvs ∨ entry.type = .badMem := by
  simpa [multibootTypes, notAvailable, notReserved] using multiboot

/-- In a map of whole pages, rounding keeps any two entries apart. -/
theorem WholePageMap.rounded_apart {entries : List FirmwareEntry}
    (whole : WholePageMap entries) (map : FirmwareMap entries)
    (multiboot : ∀ entry ∈ entries, entry.type ∈ multibootTypes) :
    (entries.map FirmwareEntry.rounded).Pairwise MemoryRegion.Apart := by
  rw [List.pairwise_map]
  apply (map.apart.and whole.ownPages).imp_of_mem
  intro a b insideA insideB ⟨apart, ownPages⟩
  have properA := map.proper a insideA
  have boundedA := map.bounded a insideA
  have properB := map.proper b insideB
  have boundedB := map.bounded b insideB
  by_cases oneAvailable : a.type = .available ∨ b.type = .available
  · exact FirmwareMap.separate_rounded properA boundedA properB boundedB apart
      oneAvailable
  · obtain ⟨availableA, availableB⟩ := not_or.mp oneAvailable
    by_cases reservedB : b.type = .reserved
    · by_cases reservedA : a.type = .reserved
      · exact (apart_reserved_iff properA boundedA reservedA properB boundedB
          reservedB).mpr (ownPages reservedA reservedB)
      · have aligned := whole.aligned a insideA
          (unrounded_type (multiboot a insideA) availableA reservedA)
        exact (apart_of_aligned properB boundedB availableA reservedA aligned
          apart.symm).symm
    · have aligned := whole.aligned b insideB
        (unrounded_type (multiboot b insideB) availableB reservedB)
      exact apart_of_aligned properA boundedA availableB reservedB aligned apart

/-- The regions that a map of whole pages is rounded to consist of whole pages. -/
theorem WholePageMap.rounded_aligned {entries : List FirmwareEntry}
    (whole : WholePageMap entries) (map : FirmwareMap entries)
    (multiboot : ∀ entry ∈ entries, entry.type ∈ multibootTypes)
    {entry : FirmwareEntry} (inside : entry ∈ entries) :
    4096 ∣ entry.rounded.addrStart ∧ 4096 ∣ entry.rounded.addrEnd := by
  have proper := map.proper entry inside
  have bounded := map.bounded entry inside
  by_cases available : entry.type = .available
  · exact FirmwareEntry.rounded_available_aligned proper bounded available
  · by_cases reserved : entry.type = .reserved
    · rw [FirmwareEntry.rounded, reserved,
        roundedRegion_reserved (by omega) bounded]
      exact ⟨Nat.dvd_mul_left _ _, Nat.dvd_mul_left _ _⟩
    · rw [FirmwareEntry.rounded, roundedRegion_other _ _ available reserved]
      exact whole.aligned entry inside
        (unrounded_type (multiboot entry inside) available reserved)

/-! ## The table -/

section Table

variable {entries : List FirmwareEntry} {table : RegionTable}

theorem table_perm (map : FirmwareMap entries)
    (added : pmmAddRegions [] entries = some table) :
    table.Perm (entries.map FirmwareEntry.rounded) := by
  have perm := (map.exact_table added).perm
  rwa [BubbleSort.live_eq_self] at perm
  intro region inside
  obtain ⟨entry, member, rfl⟩ := List.mem_map.mp inside
  exact isEmpty_false_iff.mpr (Nat.ne_of_lt (map.roundedProper entry member))

theorem table_bootTable (map : FirmwareMap entries)
    (added : pmmAddRegions [] entries = some table) : BootTable table where
  words := fun region inside => by
    have bounds := map.table_bounds added region inside
    omega
  array := by
    have short := length_le_of_pmmAddRegions (Nat.zero_le _) added
    rw [memoryRegionsLength] at short
    omega

/-- The regions of the table that can be combined are the available ones. -/
theorem available_of_combinable (map : FirmwareMap entries)
    (multiboot : ∀ entry ∈ entries, entry.type ∈ multibootTypes)
    (added : pmmAddRegions [] entries = some table) {region : MemoryRegion}
    (inside : region ∈ table) (isCombinable : combinable region = true) :
    region.type = .available := by
  obtain ⟨entry, member, rfl⟩ := (map.mem_table added).mp inside
  rcases combinable_iff.mp isCombinable with available | allocated
  · exact available
  · have listed := multiboot entry member
    rw [show entry.type = .allocated from allocated] at listed
    simp [multibootTypes] at listed

/-- Whatever the map, the kernel can rely on the pages of what is available. -/
theorem pagedTable_of_map (map : FirmwareMap entries)
    (multiboot : ∀ entry ∈ entries, entry.type ∈ multibootTypes)
    (added : pmmAddRegions [] entries = some table) : PagedTable table := by
  have invariant := map.tableInvariant added
  have available : ∀ region ∈ table, combinable region = true →
      region.type = .available := fun region inside isCombinable =>
    available_of_combinable map multiboot added inside isCombinable
  exact .of_apart (table_bootTable map added)
    (fun region inside isCombinable =>
      invariant.aligned region inside (available region inside isCombinable))
    (fun region inside _ => (map.table_bounds added region inside).1) invariant.sorted
    (invariant.separate.imp_of_mem fun insideA _ separate combinableA _ =>
      separate (Or.inl (available _ insideA combinableA)))

/-- A map of whole pages is handed over as an ordered table. -/
theorem WholePageMap.orderedTable (whole : WholePageMap entries)
    (map : FirmwareMap entries)
    (multiboot : ∀ entry ∈ entries, entry.type ∈ multibootTypes)
    (added : pmmAddRegions [] entries = some table) : OrderedTable table where
  sorted := (map.tableInvariant added).sorted
  proper := fun region inside => (map.table_bounds added region inside).1
  apart := ((table_perm map added).pairwise_iff fun apart => apart.symm).mpr
    (whole.rounded_apart map multiboot)

end Table

/-! ## The entries -/

section Entries

variable {table : RegionTable} {ptr : Nat}

/-- Where the slice of a group lies does not matter to the bytes of its entry. -/
theorem pairwise_entries_iff {R : PhysmemRegion → PhysmemRegion → Prop}
    (anywhere : ∀ (a b : CombinedRegion) (i j : Nat),
      R (a.entry i) (b.entry j) ↔ R (a.entry 0) (b.entry 0)) :
    (physmapRegions ptr table).Pairwise R ↔
      (combinedRegions 0 table).Pairwise fun a b => R (a.entry 0) (b.entry 0) := by
  rw [physmapRegions, placedEntries, List.pairwise_map,
    ← map_fst_placed (combinedRegions 0 table) 0, List.pairwise_map,
    map_fst_placed]
  apply List.Pairwise.iff
  intro a b
  exact anywhere a.1 b.1 _ _

/-- A region that cannot be combined has an entry of its own. -/
theorem exists_entry_of_single (boot : BootTable table) (ptr : Nat) {region : MemoryRegion}
    (inside : region ∈ table) (isSingle : combinable region = false)
    (proper : region.addrStart ≤ region.addrEnd) :
    ∃ entry ∈ physmapRegions ptr table, entry.addr = region.addrStart ∧
      entry.len = region.addrEnd - region.addrStart := by
  have isGroup : (⟨region, region.addrEnd⟩ : CombinedRegion) ∈
      combinedRegions 0 table :=
    ((grouped table).mem_single region isSingle).mp inside
  rw [← map_fst_placed (combinedRegions 0 table) 0] at isGroup
  obtain ⟨place, isPlace, same⟩ := List.mem_map.mp isGroup
  refine ⟨place.1.entry ((ptr + place.2) % 2 ^ 64),
    List.mem_map.mpr ⟨place, isPlace, rfl⟩, ?_, ?_⟩
  · rw [same]
    rfl
  · rw [same]
    exact sub64_eq proper (boot.words region inside).2

/-- The entries of single regions are apart only if the regions are. -/
theorem pairwise_apart_of_entries (boot : BootTable table)
    (proper : ∀ region ∈ table, region.addrStart ≤ region.addrEnd)
    (apart : (physmapRegions ptr table).Pairwise fun a b =>
      Disjoint a.bytes b.bytes) :
    (table.filter fun region => !combinable region).Pairwise
      MemoryRegion.Apart := by
  have groups := (pairwise_entries_iff (R := fun a b => Disjoint a.bytes b.bytes)
    fun _ _ _ _ => Iff.rfl).mp apart
  have same : ∀ group ∈ (combinedRegions 0 table).filter
      (fun group => !combinable group.region),
      (group.entry 0).bytes = group.region.bytes := by
    intro group inside
    obtain ⟨isGroup, isSingle⟩ := List.mem_filter.mp inside
    have isRegion := (grouped table).region_mem group isGroup
    have stop := (grouped table).stop_of_single group isGroup (by simpa using isSingle)
    have order := proper group.region isRegion
    have size : group.size = group.region.addrEnd - group.region.addrStart := by
      rw [CombinedRegion.size, stop]
      exact sub64_eq order (boot.words _ isRegion).2
    ext x
    rw [PhysmemRegion.mem_bytes, MemoryRegion.mem_bytes, CombinedRegion.entry,
      size]
    dsimp only
    omega
  rw [← (grouped table).filter_single, List.pairwise_map]
  apply (groups.filter _).imp_of_mem
  intro a b insideA insideB disjoint
  rw [same a insideA, same b insideB] at disjoint
  exact disjoint

/-- The physmap of an ordered table of whole pages keeps its invariant. -/
theorem physmapRegions_invariant (boot : BootTable table)
    (ordered : OrderedTable table)
    (aligned : ∀ region ∈ table,
      4096 ∣ region.addrStart ∧ 4096 ∣ region.addrEnd) :
    PhysmapInvariant (physmapRegions ptr table) := by
  have ascending : (physmapRegions ptr table).Pairwise fun a b =>
      a.addr + a.len ≤ b.addr := physmapRegions_ascending boot ordered
  have bounds : ∀ entry ∈ physmapRegions ptr table,
      4096 ∣ entry.addr ∧ 4096 ∣ entry.addr + entry.len ∧ 0 < entry.len := by
    intro entry inside
    obtain ⟨place, _, rfl, isGroup⟩ := mem_physmapRegions inside
    rw [entry_stop boot ordered isGroup]
    have order := (grouped table).proper ordered.proper place.1 isGroup
    have isRegion := (grouped table).region_mem place.1 isGroup
    have stop := entry_stop boot ordered isGroup ((ptr + place.2) % 2 ^ 64)
    have start : (place.1.entry ((ptr + place.2) % 2 ^ 64)).addr =
        place.1.region.addrStart := rfl
    refine ⟨(aligned _ isRegion).1, ?_, by omega⟩
    cases isCombinable : combinable place.1.region with
    | true =>
        exact ((grouped table).bounds (P := (4096 ∣ ·))
          (fun region isRegion _ => aligned region isRegion) place.1 isGroup
          isCombinable).2
    | false =>
        rw [(grouped table).stop_of_single place.1 isGroup isCombinable]
        exact (aligned _ isRegion).2
  refine ⟨?_, ?_, ?_⟩
  · intro entry inside
    obtain ⟨start, stop, _⟩ := bounds entry inside
    exact ⟨start, (Nat.dvd_add_right start).mp stop⟩
  · apply ascending.imp
    intro a b order
    exact Set.Ico_disjoint_Ico.mpr (by omega)
  · apply ascending.imp_of_mem
    intro a b insideA _ order
    have positive := (bounds a insideA).2.2
    omega

end Entries

/-! ## The handover -/

/-- Whatever firmware map Kickstart has read, the entries for its table keep the
documented invariant if and only if the map is one of whole pages. -/
theorem populated_physmapInvariant_iff {entries : List FirmwareEntry}
    {table : RegionTable} {ptr : Nat} (map : FirmwareMap entries)
    (multiboot : ∀ entry ∈ entries, entry.type ∈ multibootTypes)
    (added : pmmAddRegions [] entries = some table) :
    PhysmapInvariant (physmapRegions ptr table) ↔ WholePageMap entries := by
  have boot := table_bootTable map added
  have ordered : ∀ region ∈ table, region.addrStart ≤ region.addrEnd :=
    fun region inside => Nat.le_of_lt (map.table_bounds added region inside).1
  constructor
  · intro keeps
    constructor
    · intro entry inside type
      have notAvailable : entry.type ≠ .available := by
        rcases type with type | type | type <;> simp [type]
      have notReserved : entry.type ≠ .reserved := by
        rcases type with type | type | type <;> simp [type]
      have isSingle : combinable entry.rounded = false := by
        rcases type with type | type | type <;>
          simp [combinable, FirmwareEntry.rounded, type]
      have handed : entry.rounded ∈ table :=
        (map.mem_table added).mpr ⟨entry, inside, rfl⟩
      obtain ⟨region, listed, addr, len⟩ := exists_entry_of_single boot ptr
        handed isSingle (ordered _ handed)
      obtain ⟨start, length⟩ := keeps.aligned region listed
      rw [addr] at start
      rw [len] at length
      rw [pageSize, FirmwareEntry.rounded,
        roundedRegion_other _ _ notAvailable notReserved] at start length
      dsimp only at start length
      have proper := map.proper entry inside
      omega
    · have apart := pairwise_apart_of_entries boot ordered keeps.apart
      have perm := (table_perm map added).filter fun region => !combinable region
      rw [perm.pairwise_iff fun apart => apart.symm, List.pairwise_filter,
        List.pairwise_map] at apart
      apply apart.imp_of_mem
      intro a b insideA insideB apart reservedA reservedB
      apply (apart_reserved_iff (map.proper a insideA) (map.bounded a insideA)
        reservedA (map.proper b insideB) (map.bounded b insideB) reservedB).mp
      apply apart
      · simp [combinable, FirmwareEntry.rounded, reservedA]
      · simp [combinable, FirmwareEntry.rounded, reservedB]
  · intro whole
    apply physmapRegions_invariant boot
      (whole.orderedTable map multiboot added)
    intro region inside
    obtain ⟨entry, member, rfl⟩ := (map.mem_table added).mp inside
    exact whole.rounded_aligned map multiboot member

/-- Whatever firmware map Kickstart has read, `init_memory_manager` returns; and the
physmap that it leaves behind keeps the documented invariant if and only if the map is
one of whole pages and no mark falls on the bounds of entries or on the first entry,
unless the first mark that does falls on anything but an offset in a page. -/
theorem handover_physmapInvariant_iff {entries : List FirmwareEntry}
    {kernEnd ptr : Nat} {bootinfo : SampoBootinfo} {s mapped : KernelState}
    (map : FirmwareMap entries)
    (multiboot : ∀ entry ∈ entries, entry.type ∈ multibootTypes)
    (added : pmmAddRegions [] entries = some bootinfo.memoryRegions)
    (fresh : s.physmemLen = 0)
    (manager : ManagerMapped kernEnd bootinfo s ptr mapped) :
    ∃ after, initMemoryManager kernEnd bootinfo s = some after ∧
      (MarksMiss (keyBits bootinfo.memoryRegions) bootinfo.memoryRegions ∨
          MarksHitOffset bootinfo.memoryRegions →
        (PhysmapInvariant (physmapOf after) ↔ WholePageMap entries ∧
          MarksMiss (keyBits bootinfo.memoryRegions) bootinfo.memoryRegions)) := by
  have paged := pagedTable_of_map map multiboot added
  have sorted := (map.tableInvariant added).sorted
  obtain ⟨aligned, word⟩ := manager.pointer
  have freshMapped := manager.onlyTables.physmemLen.trans fresh
  refine ⟨_, initMemoryManager_eq paged manager, ?_⟩
  rintro (misses | hit)
  · rw [physmapInvariant_congr
      (misses.bounds paged sorted manager.found aligned word freshMapped),
      populated_physmapInvariant_iff map multiboot added]
    exact ⟨fun whole => ⟨whole, misses⟩, And.left⟩
  · constructor
    · intro keeps
      obtain ⟨region, inside, notWhole⟩ :=
        hit.unaligned paged sorted manager.found aligned word freshMapped
      exact absurd (keeps.aligned region inside) notWhole
    · exact fun ⟨_, misses⟩ => absurd misses hit.not_miss

/-- The boot information of a machine with the given table. -/
def bootinfoOf (table : RegionTable) : SampoBootinfo where
  memoryRegions := table
  bootstrapPagingStructurePtr := 0x1000

/-- The small kernel maps its manager on such a machine. -/
theorem smallKernel_maps {table : RegionTable}
    (found : managerAddr table ≠ 0)
    (ran : ((startManager 0x5800 (bootinfoOf table) smallKernel).bind
      (virtMapPagesKernelEnd (managerAddr table) (managerPageCount table)
        (virtMapRead ||| virtMapWrite))).isSome = true) :
    ∃ ptr mapped,
      ManagerMapped 0x5800 (bootinfoOf table) smallKernel ptr mapped := by
  obtain ⟨⟨ptr, mapped⟩, runs⟩ := Option.isSome_iff_exists.mp ran
  exact ⟨ptr, mapped, found, runs⟩

/-- Marks with small numbers stay in the bitmap. -/
theorem marksMiss_of_lt {bits : Set Nat} {table : RegionTable}
    (outside : ∀ k ∈ bits, bitmapEnd table ≤ k) (stop : Nat)
    (pages : ∀ page ∈ busyPages table, page < stop)
    (low : stop ≤ 4096 * bitmapEnd table) : MarksMiss bits table := by
  intro first _ _ page busy _ inside
  have behind := outside _ inside
  have below := pages page busy
  rw [firstIndex, pageSize] at behind
  omega

/-- Memory with a reserved page and ACPI tables of whole pages behind it. -/
theorem handover_physmapInvariant_wholePages :
    ∃ after, initMemoryManager 0x5800
        (bootinfoOf [⟨0x100000, 0x140000, .available⟩,
          ⟨0x140000, 0x141000, .reserved⟩,
          ⟨0x141000, 0x143000, .nvs⟩]) smallKernel = some after ∧
      (PhysmapInvariant (physmapOf after) ↔
        WholePageMap [⟨.available, 0x100000, 0x140800⟩,
          ⟨.reserved, 0x140800, 0x141000⟩, ⟨.nvs, 0x141000, 0x143000⟩] ∧
        MarksMiss (keyBits [⟨0x100000, 0x140000, .available⟩,
            ⟨0x140000, 0x141000, .reserved⟩, ⟨0x141000, 0x143000, .nvs⟩])
          [⟨0x100000, 0x140000, .available⟩, ⟨0x140000, 0x141000, .reserved⟩,
            ⟨0x141000, 0x143000, .nvs⟩]) := by
  have map : FirmwareMap [⟨.available, 0x100000, 0x140800⟩,
      ⟨.reserved, 0x140800, 0x141000⟩, ⟨.nvs, 0x141000, 0x143000⟩] :=
    ⟨by decide, by decide, by simp [Set.Ico_disjoint_Ico], by decide⟩
  have added : pmmAddRegions [] [⟨.available, 0x100000, 0x140800⟩,
      ⟨.reserved, 0x140800, 0x141000⟩, ⟨.nvs, 0x141000, 0x143000⟩] =
      some (bootinfoOf [⟨0x100000, 0x140000, .available⟩,
        ⟨0x140000, 0x141000, .reserved⟩,
        ⟨0x141000, 0x143000, .nvs⟩]).memoryRegions := by decide
  obtain ⟨ptr, mapped, manager⟩ := smallKernel_maps
    (show managerAddr [⟨0x100000, 0x140000, .available⟩,
      ⟨0x140000, 0x141000, .reserved⟩, ⟨0x141000, 0x143000, .nvs⟩] ≠ 0 by decide)
    (by decide +kernel)
  obtain ⟨after, ran, iff⟩ :=
    handover_physmapInvariant_iff map (by decide) added rfl manager
  exact ⟨after, ran, iff (Or.inl (marksMiss_of_lt (fun _ inside => inside.1.1) 0x102000 (by decide)
    (by decide)))⟩

/-- ACPI tables that end inside a page become an entry that does. -/
theorem handover_breaks_pageMultiples :
    ¬ ∀ (entries : List FirmwareEntry) (kernEnd ptr : Nat)
      (bootinfo : SampoBootinfo) (s mapped after : KernelState),
      FirmwareMap entries →
      (∀ entry ∈ entries, entry.type ∈ multibootTypes) →
      pmmAddRegions [] entries = some bootinfo.memoryRegions →
      s.physmemLen = 0 → ManagerMapped kernEnd bootinfo s ptr mapped →
      initMemoryManager kernEnd bootinfo s = some after →
      PhysmapInvariant (physmapOf after) := by
  intro keeps
  let table : RegionTable :=
    [⟨0x100000, 0x140000, .available⟩, ⟨0x140000, 0x140800, .nvs⟩]
  obtain ⟨ptr, mapped, manager⟩ := smallKernel_maps
    (show managerAddr table ≠ 0 by decide) (by decide +kernel)
  have boot : BootTable table := ⟨by decide, by decide⟩
  have map : FirmwareMap
      [⟨.available, 0x100000, 0x140000⟩, ⟨.nvs, 0x140000, 0x140800⟩] :=
    ⟨by decide, by decide, by simp [Set.Ico_disjoint_Ico], by decide⟩
  have added : pmmAddRegions []
      [⟨.available, 0x100000, 0x140000⟩, ⟨.nvs, 0x140000, 0x140800⟩] =
      some (bootinfoOf table).memoryRegions := by decide
  have paged := pagedTable_of_map map (by decide) added
  obtain ⟨aligned, word⟩ := manager.pointer
  have fresh : mapped.physmemLen = 0 := manager.onlyTables.physmemLen
  have invariant := keeps _ 0x5800 ptr (bootinfoOf table) smallKernel mapped _ map
    (by decide) added rfl manager (initMemoryManager_eq paged manager)
  have misses : MarksMiss (keyBits table) table :=
    marksMiss_of_lt (fun _ inside => inside.1.1) 0x102000 (by decide) (by decide)
  have populated := (physmapInvariant_congr (misses.bounds paged
    (map.tableInvariant added).sorted manager.found aligned word fresh)).mp invariant
  obtain ⟨region, listed, _, len⟩ := exists_entry_of_single boot ptr
    (show ⟨0x140000, 0x140800, .nvs⟩ ∈ table by decide) (by decide) (by decide)
  have multiple := (populated.aligned region listed).2
  rw [len] at multiple
  exact absurd multiple (by decide)

end SampoOS
