/-
Module: SampoOS.Kernel.BitmapExact
Purpose: For which tables the bitmap that init_memory_manager leaves behind
  tells of every page whether it is in use.
Trusted boundary: none
Main exports: BitmapExact, FirstRegionServes, initMemoryManager_bitmapExact_iff
-/
import SampoOS.Kernel.StrayMarks

namespace SampoOS.Kernel

open ByteMemory
open Bitmap (BitAddress bitAt markAll missing bitNumber)

/-- The bitmap tells of every page of every available entry whether the page is
in use. -/
def BitmapExact (table : RegionTable) (regions : List PhysmemRegion)
    (m : Memory) : Prop :=
  ∀ region ∈ regions, region.type = .available → ∀ page, 4096 ∣ page →
    page ∈ region.bytes →
    (bitAt m (pagePosition region page) = true ↔ page ∈ wantedBytes table)

/-- The manager's pages do not wrap around, the first region of the table is
AVAILABLE or ALLOCATED, and every combined region with memory in use starts as
many pages behind the first region as there are bits before its slice. -/
structure FirstRegionServes (table : RegionTable) : Prop where
  noWrap : managerAddr table + managerPageCount table * pageSize < 2 ^ 64
  combinable : ∀ first ∈ table.head?, combinable first = true
  inLine : ∀ first ∈ table.head?,
    ∀ place ∈ placed 0 (combinedRegions 0 table),
      (place.1.bytes ∩ wantedBytes table).Nonempty →
        place.1.region.addrStart = first.addrStart + pageSize * (8 * place.2)

section Exact

variable {table : RegionTable} {ptr : Nat} {mapped : KernelState}

/-- Memory in use is in AVAILABLE or ALLOCATED regions. -/
theorem wantedBytes_placed (sorted : SortedTable table)
    (found : managerAddr table ≠ 0)
    (noWrap : managerAddr table + managerPageCount table * pageSize < 2 ^ 64)
    {x : Nat} (wanted : x ∈ wantedBytes table) : Placed table x := by
  rcases wanted with ⟨region, inside, allocated, member⟩ | ⟨low, high⟩
  · exact placed_of_region sorted inside (combinable_iff.mpr (Or.inr allocated))
      member
  · refine (managerPages_apart sorted found low ?_).1
    rw [managerStop]
    omega

/-- Where the first region serves, the first entry serves every busy page. -/
theorem FirstRegionServes.firstEntryServes (serves : FirstRegionServes table)
    (paged : PagedTable table) (sorted : SortedTable table)
    (found : managerAddr table ≠ 0) {s : KernelState}
    (entries : physmapOf s = physmapRegions ptr table) {page : Nat}
    (busy : page ∈ busyPages table) : FirstEntryServes s page := by
  obtain ⟨isPage, isPlaced⟩ := busyPages_placed paged sorted found busy
  have wanted := ((mem_busyPages paged found serves.noWrap).mp busy).2
  obtain ⟨own, isOwn, available, member⟩ :=
    isPlaced.entry paged.toBootTable sorted ptr
  cases table with
  | nil => simp [physmapRegions, combinedRegions, placed, placedEntries] at isOwn
  | cons first rest =>
      have isCombinable := serves.combinable first rfl
      obtain ⟨stop, others, shape⟩ := physmapRegions_cons first rest ptr
      rw [FirstEntryServes, entries, shape]
      intro entry isFirst reached
      obtain rfl := Option.some.inj isFirst
      refine Or.inl ⟨physmemType_available.mpr (combinable_iff.mp isCombinable),
        own, shape ▸ isOwn, available, member, ?_⟩
      obtain ⟨place, inside, isIn⟩ := isPlaced
      obtain ⟨placeCombinable, bytes⟩ := inPlace_iff.mp isIn
      have line := serves.inLine first rfl place inside ⟨page, bytes, wanted⟩
      have aligned := ((grouped (first :: rest)).bounds (P := (4096 ∣ ·))
        paged.aligned place.1 (place_group inside) placeCombinable).1
      rw [(pagePosition_own paged.toBootTable sorted isOwn available member).2,
        ownIndex_eq sorted inside isIn, pagePosition_first isCombinable]
      congr 1
      have low := bytes.1
      rw [placeIndex, pageSize] at *
      omega

/-- Where the first region serves, the marks leave the physmap as it was populated. -/
theorem FirstRegionServes.samePhysmap (serves : FirstRegionServes table)
    (paged : PagedTable table) (sorted : SortedTable table)
    (found : managerAddr table ≠ 0) (aligned : 4096 ∣ ptr) (word : ptr < 2 ^ 64)
    (fresh : mapped.physmemLen = 0) :
    SamePhysmap (setUpPhysmap table ptr mapped)
      (markEach (busyPages table) (setUpPhysmap table ptr mapped)) := by
  have populated := setUpPhysmap_populated paged sorted aligned word fresh
  have entries := (setUpPhysmap_physmap paged.toBootTable aligned word fresh).2
  exact markEach_samePhysmap populated.array populated.sorted _ fun page busy =>
    (serves.firstEntryServes paged sorted found entries busy).markMisses populated

/-- Where the first region serves, the bitmap is exact. -/
theorem FirstRegionServes.bitmapExact (serves : FirstRegionServes table)
    (paged : PagedTable table) (sorted : SortedTable table)
    (found : managerAddr table ≠ 0) (aligned : 4096 ∣ ptr) (word : ptr < 2 ^ 64)
    (fresh : mapped.physmemLen = 0) :
    BitmapExact table (physmapRegions ptr table)
      (markEach (busyPages table) (setUpPhysmap table ptr mapped)).virtual := by
  have populated := setUpPhysmap_populated paged sorted aligned word fresh
  have entries := (setUpPhysmap_physmap paged.toBootTable aligned word fresh).2
  have marks := markEach_served populated
    (fun page => bitNumber 64 ptr (ownIndex table page)) (busyPages table)
    (fun page busy => serves.firstEntryServes paged sorted found entries busy)
    (fun page busy => by
      obtain ⟨own, isOwn, available, member⟩ := (busyPages_placed paged sorted
        found busy).2.entry paged.toBootTable sorted ptr
      exact ⟨own, entries.symm ▸ isOwn, available, member,
        (pagePosition_own paged.toBootTable sorted isOwn available member).2⟩)
    _ (.refl _)
  intro region inside available page isPage member
  obtain ⟨isPlaced, position⟩ :=
    pagePosition_own paged.toBootTable sorted inside available member
  have low : ∀ q ∈ (busyPages table).map fun page =>
      bitNumber 64 ptr (ownIndex table page), q.bit < 8 := by
    intro q isMark
    obtain ⟨_, _, rfl⟩ := List.mem_map.mp isMark
    exact Bitmap.bitNumber_bit 64 ptr _
  have clear := setUpPhysmap_clear (s := mapped) paged aligned word fresh
    (ownIndex_lt paged sorted isPlaced).1
  rw [marks, Bitmap.bitAt_markAll _ low, position, clear, Bool.false_or,
    decide_eq_true_eq, List.mem_map]
  constructor
  · rintro ⟨busy, isBusy, same⟩
    obtain ⟨busyPage, busyPlaced⟩ := busyPages_placed paged sorted found isBusy
    have small := (ownIndex_lt paged sorted isPlaced).2
    have busySmall := (ownIndex_lt paged sorted busyPlaced).2
    have index := Bitmap.bitNumber_injective (w := 64) (by omega) (by omega) same
    obtain rfl := ownIndex_injective paged sorted busyPage isPage busyPlaced
      isPlaced index
    exact ((mem_busyPages paged found serves.noWrap).mp isBusy).2
  · intro wanted
    exact ⟨page, (mem_busyPages paged found serves.noWrap).mpr ⟨isPage, wanted⟩, rfl⟩

/-! ## Only there -/

/-- The bits of pages in use. -/
def wantedBits (table : RegionTable) (ptr : Nat) (pages : List Nat) :
    Finset BitAddress :=
  (pages.map fun page => bitNumber 64 ptr (ownIndex table page)).toFinset

theorem mem_wantedBits {pages : List Nat} {q : BitAddress} :
    q ∈ wantedBits table ptr pages ↔
      ∃ page ∈ pages, bitNumber 64 ptr (ownIndex table page) = q := by
  rw [wantedBits, List.mem_toFinset, List.mem_map]

/-- Different pages have different bits. -/
theorem card_wantedBits (ptr : Nat) (paged : PagedTable table)
    (sorted : SortedTable table)
    {pages : List Nat} (distinct : pages.Nodup)
    (isPlaced : ∀ page ∈ pages, 4096 ∣ page ∧ Placed table page) :
    (wantedBits table ptr pages).card = pages.length := by
  rw [wantedBits, List.toFinset_card_of_nodup, List.length_map]
  apply List.Nodup.map_on ?_ distinct
  intro p insideP q insideQ same
  obtain ⟨alignedP, placedP⟩ := isPlaced p insideP
  obtain ⟨alignedQ, placedQ⟩ := isPlaced q insideQ
  have smallP := (ownIndex_lt paged sorted placedP).2
  have smallQ := (ownIndex_lt paged sorted placedQ).2
  exact ownIndex_injective paged sorted alignedP alignedQ placedP placedQ
    (Bitmap.bitNumber_injective (w := 64) (by omega) (by omega) same)

/-- An exact bitmap misses none of the bits of pages in use. -/
theorem BitmapExact.missing_eq {m : Memory} (paged : PagedTable table)
    (sorted : SortedTable table)
    (exact : BitmapExact table (physmapRegions ptr table) m) {pages : List Nat}
    (wanted : ∀ page ∈ pages, 4096 ∣ page ∧ Placed table page ∧
      page ∈ wantedBytes table) :
    (missing m (wantedBits table ptr pages)).card = 0 := by
  rw [Finset.card_eq_zero, Finset.eq_empty_iff_forall_notMem]
  intro q isMissing
  obtain ⟨isWanted, clear⟩ := Bitmap.mem_missing.mp isMissing
  obtain ⟨page, inside, rfl⟩ := mem_wantedBits.mp isWanted
  obtain ⟨isPage, isPlaced, inUse⟩ := wanted page inside
  obtain ⟨own, isOwn, available, member⟩ :=
    isPlaced.entry paged.toBootTable sorted ptr
  have set := (exact own isOwn available page isPage member).mpr inUse
  rw [(pagePosition_own paged.toBootTable sorted isOwn available member).2,
    clear] at set
  exact Bool.false_ne_true set

/-- Before the marking all of them are missing. -/
theorem missing_setUpPhysmap (mapped : KernelState) (paged : PagedTable table)
    (sorted : SortedTable table) (aligned : 4096 ∣ ptr) (word : ptr < 2 ^ 64)
    (fresh : mapped.physmemLen = 0) {pages : List Nat}
    (isPlaced : ∀ page ∈ pages, Placed table page) :
    missing (setUpPhysmap table ptr mapped).virtual (wantedBits table ptr pages) =
      wantedBits table ptr pages := by
  apply Finset.filter_true_of_mem
  intro q isWanted
  obtain ⟨page, inside, rfl⟩ := mem_wantedBits.mp isWanted
  exact setUpPhysmap_clear paged aligned word fresh
    (ownIndex_lt paged sorted (isPlaced page inside)).1

/-- If the bitmap is exact, the manager's pages do not wrap around: else too few
pages are marked. -/
theorem BitmapExact.noWrap (paged : PagedTable table)
    (sorted : SortedTable table) (found : managerAddr table ≠ 0)
    (aligned : 4096 ∣ ptr) (word : ptr < 2 ^ 64) (fresh : mapped.physmemLen = 0)
    (exact : BitmapExact table (physmapRegions ptr table)
      (markEach (busyPages table) (setUpPhysmap table ptr mapped)).virtual) :
    managerAddr table + managerPageCount table * pageSize < 2 ^ 64 := by
  by_contra wraps
  obtain ⟨_, _, _, _, fits⟩ := paged.counts
  obtain ⟨start, startWord, _, _⟩ := managerAddr_aligned paged found
  have stop : managerStop table ≤ managerAddr table := by
    rw [managerStop]
    omega
  have noPages : managerPages table = [] := by
    rw [List.eq_nil_iff_forall_not_mem]
    intro page isManager
    have bounds := (mem_managerPages paged found).mp isManager
    omega
  -- The first page of the manager is in use, but not marked.
  obtain ⟨region, inside, available, startEq, _⟩ := managerAddr_region found
  have proper := sorted.proper region inside
    (combinable_iff.mpr (Or.inl available))
  have firstMember : managerAddr table ∈ region.bytes := by
    rw [MemoryRegion.mem_bytes]
    omega
  have firstPlaced := placed_of_region sorted inside
    (combinable_iff.mpr (Or.inl available)) firstMember
  have firstWanted : managerAddr table ∈ wantedBytes table :=
    Or.inr ⟨Nat.le_refl _, by omega⟩
  have notAllocated : managerAddr table ∉ allocatedPages table := by
    intro isAllocated
    obtain ⟨other, isOther, allocated, inOther⟩ :=
      ((mem_allocatedPages paged).mp isAllocated).2
    have different : region ≠ other := by
      rintro rfl
      simp [available] at allocated
    exact MemoryRegion.apart_iff.mp
      (sorted.apart_of_ne inside isOther different) _ firstMember inOther
  have wanted : ∀ page ∈ managerAddr table :: allocatedPages table,
      4096 ∣ page ∧ Placed table page ∧ page ∈ wantedBytes table := by
    intro page member
    rcases List.mem_cons.mp member with rfl | member
    · exact ⟨start, firstPlaced, firstWanted⟩
    · obtain ⟨isPage, isPlaced⟩ := busyPages_placed paged sorted found
        (List.mem_append_left _ member)
      exact ⟨isPage, isPlaced, Or.inl ((mem_allocatedPages paged).mp member).2⟩
  have none := exact.missing_eq paged sorted wanted
  have all := missing_setUpPhysmap mapped paged sorted aligned word
    fresh fun page member => (wanted page member).2.1
  have count := card_wantedBits ptr paged sorted
    (List.nodup_cons.mpr ⟨notAllocated, allocatedPages_nodup paged sorted⟩)
    fun page member => ⟨(wanted page member).1, (wanted page member).2.1⟩
  have slow := card_missing_le_markEach (wantedBits table ptr
    (managerAddr table :: allocatedPages table)) (busyPages table)
    (setUpPhysmap table ptr mapped)
  rw [none, all, count, busyPages, noPages, List.append_nil,
    List.length_cons] at slow
  omega

/-- If the bitmap is exact, marking has set for every busy page a bit of the first
entry that is the own bit of some busy page. -/
theorem BitmapExact.firstEntry_numbers (paged : PagedTable table)
    (sorted : SortedTable table) (found : managerAddr table ≠ 0)
    (aligned : 4096 ∣ ptr) (word : ptr < 2 ^ 64) (fresh : mapped.physmemLen = 0)
    (exact : BitmapExact table (physmapRegions ptr table)
      (markEach (busyPages table) (setUpPhysmap table ptr mapped)).virtual)
    {first : MemoryRegion} {rest : List MemoryRegion}
    (isTable : table = first :: rest) :
    ∀ page ∈ busyPages table, combinable first = true ∧ first.addrStart ≤ page ∧
      ∃ other ∈ busyPages table,
        ownIndex table other = (page - first.addrStart) / pageSize := by
  have noWrap := exact.noWrap paged sorted found aligned word fresh
  have populated := setUpPhysmap_populated paged sorted aligned word fresh
  have entries := (setUpPhysmap_physmap paged.toBootTable aligned word fresh).2
  have isPlaced : ∀ page ∈ busyPages table, 4096 ∣ page ∧ Placed table page :=
    fun _ busy => busyPages_placed paged sorted found busy
  have inUse : ∀ page ∈ busyPages table, 4096 ∣ page ∧ Placed table page ∧
      page ∈ wantedBytes table := fun page busy =>
    ⟨(isPlaced page busy).1, (isPlaced page busy).2,
      ((mem_busyPages paged found noWrap).mp busy).2⟩
  -- There are as many own bits as busy pages, and none is left to be marked.
  have none := exact.missing_eq paged sorted inUse
  have all := missing_setUpPhysmap mapped paged sorted aligned word
    fresh fun page busy => (isPlaced page busy).2
  have count := card_wantedBits ptr paged sorted
    (busyPages_nodup paged sorted found) isPlaced
  obtain ⟨stop, others, shape⟩ := physmapRegions_cons first rest ptr
  rw [← isTable] at shape
  have hits := markEach_hits populated (entries.trans shape)
    (wantedBits table ptr (busyPages table)) (fun q isWanted => by
      obtain ⟨page, busy, rfl⟩ := mem_wantedBits.mp isWanted
      obtain ⟨own, isOwn, available, member⟩ :=
        (isPlaced page busy).2.entry paged.toBootTable sorted ptr
      have isEntry : own ∈ physmapOf (setUpPhysmap table ptr mapped) :=
        entries.symm ▸ isOwn
      refine ⟨own, isEntry, available, ?_⟩
      rw [← (pagePosition_own paged.toBootTable sorted isOwn available member).2]
      exact pagePosition_mem_slice populated isEntry available member)
    (busyPages table) _ (.refl _) (by rw [all, count]) none
  intro page busy
  obtain ⟨available, reached, isWanted⟩ := hits page busy
  have isCombinable : combinable first = true :=
    combinable_iff.mpr (physmemType_available.mp available)
  rw [pagePosition_first isCombinable] at isWanted
  obtain ⟨other, isBusy, same⟩ := mem_wantedBits.mp isWanted
  have small := (ownIndex_lt paged sorted (isPlaced other isBusy).2).2
  have pageWord : page < 2 ^ 64 := by
    obtain ⟨place, inside, isIn⟩ := (isPlaced page busy).2
    have below := (inPlace_iff.mp isIn).2.2
    have word := paged.toBootTable.stop_lt _ (place_group inside)
    omega
  refine ⟨isCombinable, reached, other, isBusy, Bitmap.bitNumber_injective
    (w := 64) (by omega) ?_ same⟩
  rw [pageSize]
  omega

/-- If the bitmap is exact, every busy page has its own bit where the first
entry has one for it. -/
theorem BitmapExact.ownIndex_eq_first (paged : PagedTable table)
    (sorted : SortedTable table) (found : managerAddr table ≠ 0)
    (aligned : 4096 ∣ ptr) (word : ptr < 2 ^ 64) (fresh : mapped.physmemLen = 0)
    (exact : BitmapExact table (physmapRegions ptr table)
      (markEach (busyPages table) (setUpPhysmap table ptr mapped)).virtual)
    {first : MemoryRegion} {rest : List MemoryRegion}
    (isTable : table = first :: rest) :
    ∀ page ∈ busyPages table, combinable first = true ∧ first.addrStart ≤ page ∧
      (page - first.addrStart) / pageSize = ownIndex table page := by
  have numbers := exact.firstEntry_numbers paged sorted found aligned word fresh
    isTable
  have isPlaced : ∀ page ∈ (busyPages table).toFinset,
      4096 ∣ page ∧ Placed table page := fun _ busy =>
    busyPages_placed paged sorted found (List.mem_toFinset.mp busy)
  have increasingOwn : StrictMonoOn (ownIndex table) (busyPages table).toFinset := by
    intro p insideP q insideQ before
    obtain ⟨alignedP, placedP⟩ := isPlaced p insideP
    obtain ⟨alignedQ, placedQ⟩ := isPlaced q insideQ
    exact ownIndex_strictMono paged sorted alignedP alignedQ placedP placedQ before
  have increasingFirst : StrictMonoOn
      (fun page => (page - first.addrStart) / pageSize)
      (busyPages table).toFinset := by
    intro p insideP q insideQ before
    have alignedP := (isPlaced p insideP).1
    have alignedQ := (isPlaced q insideQ).1
    have reached := (numbers p (List.mem_toFinset.mp insideP)).2.1
    dsimp only
    rw [pageSize]
    omega
  have images : (busyPages table).toFinset.image
      (fun page => (page - first.addrStart) / pageSize) ⊆
      (busyPages table).toFinset.image (ownIndex table) := by
    intro k inside
    obtain ⟨page, member, rfl⟩ := Finset.mem_image.mp inside
    obtain ⟨_, _, other, isBusy, same⟩ :=
      numbers page (List.mem_toFinset.mp member)
    exact Finset.mem_image.mpr ⟨other, List.mem_toFinset.mpr isBusy, same⟩
  intro page busy
  exact ⟨(numbers page busy).1, (numbers page busy).2.1,
    eq_of_image_subset increasingFirst increasingOwn images page
      (List.mem_toFinset.mpr busy)⟩

/-- The page of a byte in use is busy. -/
theorem busyPages_of_wanted (paged : PagedTable table)
    (found : managerAddr table ≠ 0)
    (noWrap : managerAddr table + managerPageCount table * pageSize < 2 ^ 64)
    {x : Nat} (wanted : x ∈ wantedBytes table) :
    x / 4096 * 4096 ∈ busyPages table := by
  obtain ⟨start, _, _, _⟩ := managerAddr_aligned paged found
  refine (mem_busyPages paged found noWrap).mpr ⟨Nat.dvd_mul_left _ _, ?_⟩
  rcases wanted with ⟨region, inside, allocated, member⟩ | ⟨low, high⟩
  · have aligned := paged.aligned region inside
      (combinable_iff.mpr (Or.inr allocated))
    rw [MemoryRegion.mem_bytes] at member
    exact Or.inl ⟨region, inside, allocated, by
      rw [MemoryRegion.mem_bytes]
      omega⟩
  · exact Or.inr ⟨by omega, by omega⟩

/-- If the bitmap is exact, the first region serves. -/
theorem BitmapExact.firstRegionServes (paged : PagedTable table)
    (sorted : SortedTable table) (found : managerAddr table ≠ 0)
    (aligned : 4096 ∣ ptr) (word : ptr < 2 ^ 64) (fresh : mapped.physmemLen = 0)
    (exact : BitmapExact table (physmapRegions ptr table)
      (markEach (busyPages table) (setUpPhysmap table ptr mapped)).virtual) :
    FirstRegionServes table := by
  have noWrap := exact.noWrap paged sorted found aligned word fresh
  have inUse : managerAddr table ∈ wantedBytes table := by
    obtain ⟨_, _, _, pages, _⟩ := paged.counts
    refine Or.inr ⟨Nat.le_refl _, ?_⟩
    rw [pages, RegionCounts.bitmapPageCount, pageSize]
    omega
  refine ⟨noWrap, ?_, ?_⟩
  · intro first isFirst
    obtain ⟨rest, isTable⟩ := List.head?_eq_some_iff.mp isFirst
    exact (exact.ownIndex_eq_first paged sorted found aligned word fresh isTable _
      (busyPages_of_wanted paged found noWrap inUse)).1
  · rintro first isFirst place inside ⟨x, bytes, wanted⟩
    obtain ⟨rest, isTable⟩ := List.head?_eq_some_iff.mp isFirst
    have busy := busyPages_of_wanted paged found noWrap wanted
    obtain ⟨isCombinable, reached, index⟩ := exact.ownIndex_eq_first paged sorted
      found aligned word fresh isTable _ busy
    obtain ⟨own, isOwn, isIn⟩ := wantedBytes_placed sorted found noWrap wanted
    have placeCombinable := (wantedBytes_placed sorted found noWrap
      wanted).combinable sorted inside bytes
    obtain rfl := place_unique sorted isOwn inside isIn
      (inPlace_iff.mpr ⟨placeCombinable, bytes⟩)
    have start := ((grouped table).bounds (P := (4096 ∣ ·)) paged.aligned own.1
      (place_group isOwn) placeCombinable).1
    have firstStart := (paged.aligned first (by simp [isTable]) isCombinable).1
    rw [CombinedRegion.mem_bytes] at bytes
    have pageIn : inPlace (x / 4096 * 4096) own = true := by
      refine inPlace_iff.mpr ⟨placeCombinable, ?_⟩
      rw [CombinedRegion.mem_bytes]
      omega
    have low := (inPlace_iff.mp pageIn).2.1
    rw [ownIndex_eq sorted isOwn pageIn, placeIndex, pageSize] at index
    rw [pageSize]
    omega

end Exact

/-- `init_memory_manager` returns, and the bitmap it leaves behind is exact if
and only if the first region serves; then the entries are those it has populated. -/
theorem initMemoryManager_bitmapExact_iff {kernEnd ptr : Nat}
    {bootinfo : SampoBootinfo} {s mapped : KernelState}
    (boot : BootTable bootinfo.memoryRegions)
    (sorted : SortedTable bootinfo.memoryRegions)
    (aligned : ∀ region ∈ bootinfo.memoryRegions, combinable region = true →
      4096 ∣ region.addrStart ∧ 4096 ∣ region.addrEnd)
    (fresh : s.physmemLen = 0)
    (manager : ManagerMapped kernEnd bootinfo s ptr mapped) :
    ∃ after, initMemoryManager kernEnd bootinfo s = some after ∧
      (BitmapExact bootinfo.memoryRegions
          (physmapOf (setUpPhysmap bootinfo.memoryRegions ptr mapped))
          after.virtual ↔
        FirstRegionServes bootinfo.memoryRegions) ∧
      (FirstRegionServes bootinfo.memoryRegions → physmapOf after =
        physmapOf (setUpPhysmap bootinfo.memoryRegions ptr mapped)) := by
  have paged := sorted.paged boot aligned
  obtain ⟨page, word⟩ := manager.pointer
  have freshMapped := manager.onlyTables.physmemLen.trans fresh
  refine ⟨_, initMemoryManager_eq paged manager, ?_, fun serves =>
    (serves.samePhysmap paged sorted manager.found page word freshMapped).entries⟩
  rw [(setUpPhysmap_physmap boot page word freshMapped).2]
  exact ⟨fun exact => exact.firstRegionServes paged sorted manager.found page
      word freshMapped,
    fun serves => serves.bitmapExact paged sorted manager.found page word
      freshMapped⟩

/-- A memory map without holes: one combined region. -/
def plainBootinfo : SampoBootinfo where
  memoryRegions :=
    [⟨0x100000, 0x108000, .allocated⟩, ⟨0x108000, 0x200000, .available⟩]
  bootstrapPagingStructurePtr := 0x1000

theorem plainBootinfo_mapped :
    ∃ ptr mapped, ManagerMapped 0x5800 plainBootinfo smallKernel ptr mapped := by
  have ran : ((startManager 0x5800 plainBootinfo smallKernel).bind
      (virtMapPagesKernelEnd (managerAddr plainBootinfo.memoryRegions)
        (managerPageCount plainBootinfo.memoryRegions)
        (virtMapRead ||| virtMapWrite))).isSome = true := by decide +kernel
  obtain ⟨⟨ptr, mapped⟩, runs⟩ := Option.isSome_iff_exists.mp ran
  exact ⟨ptr, mapped, by decide, runs⟩

theorem initMemoryManager_bitmapExact_plain : ∃ ptr mapped after,
    initMemoryManager 0x5800 plainBootinfo smallKernel = some after ∧
      BitmapExact plainBootinfo.memoryRegions
        (physmapOf (setUpPhysmap plainBootinfo.memoryRegions ptr mapped))
        after.virtual := by
  obtain ⟨ptr, mapped, manager⟩ := plainBootinfo_mapped
  have sorted : SortedTable plainBootinfo.memoryRegions :=
    ⟨by decide, by decide, by
      simp [plainBootinfo, MemoryRegion.Apart, MemoryRegion.bytes,
        Set.Ico_disjoint_Ico]⟩
  obtain ⟨after, ran, iff, _⟩ := initMemoryManager_bitmapExact_iff
    ⟨by decide, by decide⟩ sorted (by decide) rfl manager
  have places : placed 0 (combinedRegions 0 plainBootinfo.memoryRegions) =
      [(⟨⟨0x100000, 0x108000, .allocated⟩, 0x200000⟩, 0)] := by decide
  have serves : FirstRegionServes plainBootinfo.memoryRegions := by
    refine ⟨by decide, by decide, ?_⟩
    intro first isFirst place inside _
    rw [places, List.mem_singleton] at inside
    subst inside
    obtain rfl := Option.some.inj isFirst
    rfl
  exact ⟨ptr, mapped, after, ran, iff.mpr serves⟩

/-- With two holes in the memory map, the bits of ALLOCATED pages and of the
manager's pages behind the first hole are set elsewhere. -/
theorem initMemoryManager_bitmap_wrong :
    ¬ ∀ (kernEnd ptr : Nat) (bootinfo : SampoBootinfo) (s mapped after : KernelState),
      BootTable bootinfo.memoryRegions → OrderedTable bootinfo.memoryRegions →
      (∀ region ∈ bootinfo.memoryRegions, combinable region = true →
        4096 ∣ region.addrStart ∧ 4096 ∣ region.addrEnd) →
      s.physmemLen = 0 → ManagerMapped kernEnd bootinfo s ptr mapped →
      initMemoryManager kernEnd bootinfo s = some after →
      BitmapExact bootinfo.memoryRegions
        (physmapOf (setUpPhysmap bootinfo.memoryRegions ptr mapped))
        after.virtual := by
  intro allExact
  obtain ⟨ptr, mapped, manager⟩ := smallKernel_mapped
  have sorted := smallBootinfo_ordered.sortedTable
  have paged := sorted.paged smallBootinfo_bootTable (by decide)
  obtain ⟨page, word⟩ := manager.pointer
  have fresh : mapped.physmemLen = 0 := manager.onlyTables.physmemLen
  have exact := allExact _ _ _ _ _ _ smallBootinfo_bootTable smallBootinfo_ordered
    (by decide) rfl manager (initMemoryManager_eq paged manager)
  rw [(setUpPhysmap_physmap smallBootinfo_bootTable page word fresh).2] at exact
  have serves := exact.firstRegionServes paged sorted manager.found
    page word fresh
  have line := serves.inLine ⟨0x1000, 0x8000, .allocated⟩ rfl
    (⟨⟨0x100000, 0x140000, .available⟩, 0x150000⟩, 1) (by decide)
    ⟨0x140000, by simp, Or.inl ⟨⟨0x140000, 0x150000, .allocated⟩, by decide, rfl,
      by simp⟩⟩
  simp [pageSize] at line

end SampoOS.Kernel
