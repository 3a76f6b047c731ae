/-
Module: SampoOS.Kickstart.PmmSpec
Purpose: What each operation of the physical memory manager does to a table
  that keeps the invariant.
Trusted boundary: none
Main exports: reservedBlock, ReservationStep, pmmReserveMemoryRegion_spec, firstFit,
  allocatedBlock, AllocationStep, pmmAllocateRegionWithType_cases
-/
import SampoOS.Kickstart.RegionTable

namespace SampoOS.Kickstart

open BitFields (clearLow alignUp clearLow_eq alignUp_eq)

/-! ## Rounding -/

theorem and_pageOffset (a : Nat) : a &&& 0x0FFF = a % 4096 :=
  Nat.and_two_pow_sub_one_eq_mod a 12

private theorem clearLow_page {w a : Nat} (wide : 12 ≤ w) (word : a < 2 ^ w) :
    clearLow w 12 a = a / 4096 * 4096 :=
  clearLow_eq wide word

private theorem alignUp_page {w a : Nat} (wide : 12 ≤ w)
    (fits : a + 4095 < 2 ^ w) : alignUp w 12 a = (a + 4095) / 4096 * 4096 :=
  alignUp_eq wide fits

/-- Rounding the start of a reservation gives the page it lies in. -/
theorem reserveStart_eq {start : Nat} (word : start < 2 ^ 32) :
    reserveStart start = start / 4096 * 4096 := by
  rw [reserveStart, and_pageOffset, clearLow_page (by decide) word]
  split <;> omega

/-- Rounding the end of a reservation gives the next page boundary. -/
theorem reserveEnd_eq {stop : Nat} (fits : stop ≤ 0xFFFFF000) :
    reserveEnd stop = (stop + 4095) / 4096 * 4096 := by
  rw [reserveEnd, and_pageOffset]
  split
  · exact alignUp_page (by decide) (by omega)
  · omega

/-- The ends of a non-empty range are inside the rounded one. -/
theorem reserve_covers {start stop : Nat} (proper : start < stop)
    (fits : stop ≤ 0xFFFFF000) :
    reserveStart start ≤ start ∧ stop ≤ reserveEnd stop ∧
      4096 ∣ reserveStart start ∧ 4096 ∣ reserveEnd stop := by
  rw [reserveStart_eq (by omega), reserveEnd_eq fits]
  omega

/-- A non-empty range covers at least one page. -/
theorem reserve_proper {start stop : Nat} (nonempty : start < stop)
    (fits : stop ≤ 0xFFFFF000) : reserveStart start < reserveEnd stop := by
  have covers := reserve_covers nonempty fits
  omega

/-- Available memory is rounded inwards. -/
theorem roundedRegion_available {start stop : Nat} (startFits : start ≤ 2 ^ 52)
    (stopFits : stop ≤ 2 ^ 52) :
    roundedRegion .available start stop =
      { addrStart := (start + 4095) / 4096 * 4096
        addrEnd := stop / 4096 * 4096
        type := .available } := by
  simp only [roundedRegion, roundStart, roundEnd, and_pageOffset,
    MemoryRegion.mk.injEq, and_true]
  refine ⟨?_, ?_⟩
  · split
    · exact alignUp_page (by decide) (by omega)
    · omega
  · split
    · exact clearLow_page (by decide) (by omega)
    · omega

/-- Reserved memory is rounded outwards. -/
theorem roundedRegion_reserved {start stop : Nat} (startFits : start ≤ 2 ^ 52)
    (stopFits : stop ≤ 2 ^ 52) :
    roundedRegion .reserved start stop =
      { addrStart := start / 4096 * 4096
        addrEnd := (stop + 4095) / 4096 * 4096
        type := .reserved } := by
  simp only [roundedRegion, roundStart, roundEnd, and_pageOffset,
    MemoryRegion.mk.injEq, and_true]
  refine ⟨?_, ?_⟩
  · split
    · exact clearLow_page (by decide) (by omega)
    · omega
  · split
    · exact alignUp_page (by decide) (by omega)
    · omega

/-- Memory of any other type keeps its bounds. -/
theorem roundedRegion_other {type : MemoryRegionType} (start stop : Nat)
    (notAvailable : type ≠ .available) (notReserved : type ≠ .reserved) :
    roundedRegion type start stop =
      { addrStart := start, addrEnd := stop, type := type } := by
  cases type <;> simp_all [roundedRegion, roundStart, roundEnd]

@[simp] theorem roundedRegion_type (type : MemoryRegionType) (start stop : Nat) :
    (roundedRegion type start stop).type = type := rfl

/-! ## Table edits -/

theorem pushRegion_eq_some {table after : RegionTable} {region : MemoryRegion} :
    pushRegion table region = some after ↔
      table.length < memoryRegionsLength ∧ after = table ++ [region] := by
  rw [pushRegion]
  split <;> simp_all [eq_comm]

theorem exists_split_of_findIdx? {table : RegionTable}
    {test : MemoryRegion → Bool} {i : Nat}
    (found : table.findIdx? test = some i) :
    ∃ before region behind, table = before ++ region :: behind ∧
      before.length = i ∧ test region = true ∧
      ∀ entry ∈ before, test entry = false := by
  induction table generalizing i with
  | nil => simp at found
  | cons head rest inductionHypothesis =>
      rw [List.findIdx?_cons] at found
      cases hit : test head with
      | true =>
          simp only [hit, if_true, Option.some.injEq] at found
          exact ⟨[], head, rest, rfl, by simpa using found, hit, by simp⟩
      | false =>
          simp only [hit, Bool.false_eq_true, if_false, Option.map_eq_some_iff]
            at found
          obtain ⟨j, tail, rfl⟩ := found
          obtain ⟨before, region, behind, rfl, rfl, holds, misses⟩ :=
            inductionHypothesis tail
          refine ⟨head :: before, region, behind, rfl, by simp, holds, ?_⟩
          intro entry inside
          rcases List.mem_cons.mp inside with rfl | inside
          · exact hit
          · exact misses entry inside

theorem find?_split {before behind : RegionTable} {region : MemoryRegion}
    {test : MemoryRegion → Bool} (holds : test region = true)
    (misses : ∀ entry ∈ before, test entry = false) :
    (before ++ region :: behind).find? test = some region := by
  rw [List.find?_append, List.find?_eq_none.mpr fun entry inside => by
    simp [misses entry inside], List.find?_cons_of_pos holds]
  rfl

theorem find?_eq_none_of_findIdx? {test : MemoryRegion → Bool}
    {table : RegionTable} (missing : table.findIdx? test = none) :
    table.find? test = none := by
  rw [List.find?_eq_none]
  intro region inside
  simp [List.findIdx?_eq_none_iff.mp missing region inside]

theorem getElem?_split (before behind : RegionTable) (region : MemoryRegion) :
    (before ++ region :: behind)[before.length]? = some region := by
  simp

theorem modify_split (before behind : RegionTable) (region : MemoryRegion)
    (f : MemoryRegion → MemoryRegion) :
    (before ++ region :: behind).modify before.length f =
      before ++ f region :: behind := by
  induction before with
  | nil => simp
  | cons head before inductionHypothesis => simp [inductionHypothesis]

/-! ## Carving through the sort -/

/-- Shrinking a region in place, possibly to nothing, and appending entries with
bytes leaves a table that is safe to sort, and says which of its entries are not
empty. -/
theorem sortSafe_cut {before behind appended : RegionTable}
    {region shrunk : MemoryRegion}
    (invariant : TableInvariant (before ++ region :: behind))
    (later : region.addrStart ≤ shrunk.addrStart)
    (appendedNonempty : ∀ entry ∈ appended, isEmpty entry = false) :
    SortSafe (before ++ shrunk :: (behind ++ appended)) ∧
      BubbleSort.live isEmpty (before ++ shrunk :: (behind ++ appended)) =
        before ++ (BubbleSort.live isEmpty [shrunk] ++ (behind ++ appended)) := by
  have beforeNonempty : ∀ entry ∈ before, isEmpty entry = false :=
    fun entry inside => isEmpty_false_iff.mpr
      (invariant.nonempty entry (by simp [inside]))
  have behindNonempty : ∀ entry ∈ behind ++ appended, isEmpty entry = false := by
    intro entry inside
    rcases List.mem_append.mp inside with inside | inside
    · exact isEmpty_false_iff.mpr (invariant.nonempty entry (by simp [inside]))
    · exact appendedNonempty entry inside
  have below : ∀ entry ∈ before, entry.addrStart ≤ shrunk.addrStart :=
    fun entry inside => Nat.le_trans
      ((List.pairwise_append.mp invariant.sorted).2.2 entry inside region
        (by simp)) later
  refine ⟨sortSafe_of_shrunk behindNonempty beforeNonempty below, ?_⟩
  rw [BubbleSort.live_append, BubbleSort.live_eq_self beforeNonempty,
    ← List.singleton_append, BubbleSort.live_append,
    BubbleSort.live_eq_self behindNonempty]

/-- The edits that reserving and allocating make before the sort: the region is
shrunk in place, the block and whatever else is left are appended. -/
theorem carvesFrom_pmmSortRegions {before behind extra : RegionTable}
    {region shrunk block : MemoryRegion}
    (invariant : TableInvariant (before ++ region :: behind))
    (available : region.type = .available)
    (start : region.addrStart ≤ block.addrStart)
    (proper : block.addrStart < block.addrEnd)
    (stop : block.addrEnd ≤ region.addrEnd)
    (later : region.addrStart ≤ shrunk.addrStart)
    (extraNonempty : ∀ entry ∈ extra, isEmpty entry = false)
    (rest : (BubbleSort.live isEmpty [shrunk] ++ extra).Perm
      (remainders region block)) :
    CarvesFrom before region behind block
      (pmmSortRegions (before ++ shrunk :: (behind ++ block :: extra))) := by
  have appendedNonempty : ∀ entry ∈ block :: extra, isEmpty entry = false := by
    intro entry inside
    rcases List.mem_cons.mp inside with rfl | inside
    · exact isEmpty_false_iff.mpr (Nat.ne_of_lt proper)
    · exact extraNonempty entry inside
  obtain ⟨safe, alive⟩ := sortSafe_cut invariant later appendedNonempty
  have settled := pmmSortRegions_settles safe
  refine ⟨available, start, proper, stop, settled.sorted, ?_⟩
  have reorder : (before ++ (BubbleSort.live isEmpty [shrunk] ++
      (behind ++ block :: extra))).Perm
      (block :: (BubbleSort.live isEmpty [shrunk] ++ extra) ++
        (before ++ behind)) := by
    rw [List.perm_iff_count]
    intro entry
    simp only [List.count_append, List.count_cons, List.cons_append]
    omega
  exact ((alive ▸ settled.perm).trans reorder).trans
    ((rest.cons block).append_right _)

/-! ## Reserving -/

theorem containsRange_iff {start stop : Nat} {region : MemoryRegion} :
    containsRange start stop region = true ↔
      region.addrStart ≤ start ∧ stop ≤ region.addrEnd ∧
        region.type = .available := by
  simp [containsRange, and_assoc]

/-- The block that `pmm_reserve_memory_region` carves out, if it does. -/
def reservedBlock (table : RegionTable) (start stop : Nat) :
    Option MemoryRegion :=
  (table.find? (containsRange (reserveStart start) (reserveEnd stop))).map
    fun _ =>
      { addrStart := reserveStart start
        addrEnd := reserveEnd stop
        type := .allocated }

/-- What cutting a block out of a region leaves: the region shrunk in place, and
the pieces that are appended. -/
inductive Cut (region block : MemoryRegion) : MemoryRegion → RegionTable → Prop
  | tail (atStart : block.addrStart = region.addrStart) :
      Cut region block { region with addrStart := block.addrEnd } []
  | front (notStart : block.addrStart ≠ region.addrStart)
      (atEnd : block.addrEnd = region.addrEnd) :
      Cut region block { region with addrEnd := block.addrStart } []
  | enclosed (notStart : block.addrStart ≠ region.addrStart)
      (notEnd : block.addrEnd ≠ region.addrEnd) :
      Cut region block { region with addrEnd := block.addrStart }
        [{ region with addrStart := block.addrEnd }]

/-- What a reservation does to the table before the sort. -/
structure ReservationStep (table : RegionTable) (start stop : Nat)
    (region block : MemoryRegion) (after : RegionTable) : Prop where
  contains : containsRange (reserveStart start) (reserveEnd stop) region = true
  block_eq : block =
    { addrStart := reserveStart start
      addrEnd := reserveEnd stop
      type := .allocated }
  edit : ∃ before behind shrunk extra, table = before ++ region :: behind ∧
    Cut region block shrunk extra ∧
    after = pmmSortRegions (before ++ shrunk :: (behind ++ block :: extra))

/-- A reservation leaves the table as it is, or cuts its block out of the first
region that contains it. -/
theorem pmmReserveMemoryRegion_cases {table after : RegionTable}
    {start stop : Nat}
    (reserved : pmmReserveMemoryRegion table start stop = some after) :
    (reservedBlock table start stop = none ∧ after = table) ∨
      ∃ region block, reservedBlock table start stop = some block ∧
        ReservationStep table start stop region block after := by
  simp only [pmmReserveMemoryRegion] at reserved
  cases found : table.findIdx?
      (containsRange (reserveStart start) (reserveEnd stop)) with
  | none =>
      simp only [found, Option.some.injEq] at reserved
      have missing := find?_eq_none_of_findIdx? found
      exact Or.inl ⟨by rw [reservedBlock, missing]; rfl, reserved.symm⟩
  | some i =>
      obtain ⟨before, region, behind, rfl, rfl, holds, misses⟩ :=
        exists_split_of_findIdx? found
      refine Or.inr ⟨region, _, by rw [reservedBlock, find?_split holds misses]; rfl,
        holds, rfl, ?_⟩
      simp only [found, getElem?_split, Option.getD_some, Option.bind_eq_bind,
        Option.bind_eq_some_iff, pushRegion_eq_some, Option.pure_def,
        Option.some.injEq] at reserved
      obtain ⟨_, ⟨_, rfl⟩, edited, edit, rfl⟩ := reserved
      rw [cutContaining, List.append_assoc, List.cons_append] at edit
      by_cases atStart : reserveStart start = region.addrStart
      · rw [if_pos atStart, modify_split, Option.some.injEq] at edit
        subst edit
        exact ⟨before, behind, _, _, rfl, .tail atStart, rfl⟩
      · rw [if_neg atStart] at edit
        by_cases atEnd : reserveEnd stop = region.addrEnd
        · rw [if_pos atEnd, modify_split, Option.some.injEq] at edit
          subst edit
          exact ⟨before, behind, _, _, rfl, .front atStart atEnd, rfl⟩
        · simp only [if_neg atEnd, Option.bind_eq_bind, Option.bind_eq_some_iff,
            pushRegion_eq_some, Option.pure_def, Option.some.injEq] at edit
          obtain ⟨_, ⟨_, rfl⟩, rfl⟩ := edit
          rw [List.append_assoc, List.cons_append, modify_split,
            List.append_assoc, List.singleton_append]
          exact ⟨before, behind, _, _, rfl, .enclosed atStart atEnd, rfl⟩

/-- Reserving a non-empty range carves it out of the available region that
contains it, or leaves the table alone when no region does. -/
theorem pmmReserveMemoryRegion_spec {table after : RegionTable}
    {start stop : Nat} (invariant : TableInvariant table)
    (proper : reserveStart start < reserveEnd stop)
    (reserved : pmmReserveMemoryRegion table start stop = some after) :
    (reservedBlock table start stop = none ∧ after = table) ∨
      ∃ block, reservedBlock table start stop = some block ∧
        Carves table block after := by
  rcases pmmReserveMemoryRegion_cases reserved with
    nothing | ⟨region, block, something, holds, isBlock, edit⟩
  · exact Or.inl nothing
  · obtain ⟨before, behind, shrunk, extra, rfl, cut, rfl⟩ := edit
    refine Or.inr ⟨block, something, before, region, behind, rfl, ?_⟩
    obtain ⟨startInside, stopInside, available⟩ := containsRange_iff.mp holds
    subst isBlock
    cases cut with
    | tail atStart =>
        dsimp only at atStart
        apply carvesFrom_pmmSortRegions invariant available startInside proper
          stopInside (by dsimp only; omega) (by simp)
        simp [BubbleSort.live, remainders, isEmpty, atStart]
    | front notStart atEnd =>
        dsimp only at notStart atEnd
        apply carvesFrom_pmmSortRegions invariant available startInside proper
          stopInside (by dsimp only; omega) (by simp)
        simp [BubbleSort.live, remainders, isEmpty, atEnd, notStart.symm]
    | enclosed notStart notEnd =>
        dsimp only at notStart notEnd
        apply carvesFrom_pmmSortRegions invariant available startInside proper
          stopInside (by dsimp only; omega)
        · simp [isEmpty, notEnd]
        · simp [BubbleSort.live, remainders, isEmpty, notEnd, notStart.symm]

/-- A reservation leaves the table as it is, or sorts one that is safe to
sort. -/
theorem pmmReserveMemoryRegion_sortSafe {table after : RegionTable}
    {start stop : Nat} (invariant : TableInvariant table)
    (proper : reserveStart start < reserveEnd stop)
    (reserved : pmmReserveMemoryRegion table start stop = some after) :
    after = table ∨
      ∃ unsorted, SortSafe unsorted ∧ after = pmmSortRegions unsorted := by
  rcases pmmReserveMemoryRegion_cases reserved with
    ⟨_, same⟩ | ⟨region, block, _, holds, isBlock, edit⟩
  · exact Or.inl same
  · obtain ⟨before, behind, shrunk, extra, rfl, cut, rfl⟩ := edit
    obtain ⟨startInside, _, _⟩ := containsRange_iff.mp holds
    subst isBlock
    refine Or.inr ⟨_, (sortSafe_cut invariant ?_ ?_).1, rfl⟩
    · cases cut <;> dsimp only <;> omega
    · rw [List.forall_mem_cons]
      refine ⟨isEmpty_false_iff.mpr (Nat.ne_of_lt proper), ?_⟩
      cases cut with
      | enclosed _ notEnd => simpa [isEmpty] using notEnd
      | _ => simp

/-! ## Allocating -/

theorem fitsAllocation_iff {len : Nat} {region : MemoryRegion} :
    fitsAllocation len region = true ↔
      0x100000 ≤ region.addrStart ∧ region.type = .available ∧
        (region.addrStart + len) % 2 ^ 64 ≤ region.addrEnd := by
  simp [fitsAllocation, and_assoc]

/-- The region that `pmm_allocate_region_with_type` takes its pages from. -/
def firstFit (table : RegionTable) (regionPageCount : Nat) :
    Option MemoryRegion :=
  if regionPageCount = 0 then none
  else table.find? (fitsAllocation (allocationLength regionPageCount))

theorem firstFit_mem {table : RegionTable} {regionPageCount : Nat}
    {region : MemoryRegion}
    (chosen : firstFit table regionPageCount = some region) :
    region ∈ table ∧
      fitsAllocation (allocationLength regionPageCount) region = true := by
  rw [firstFit] at chosen
  split at chosen
  · cases chosen
  · exact ⟨List.mem_of_find?_eq_some chosen, List.find?_some chosen⟩

/-- The block that `pmm_allocate_region_with_type` records, if there is one. -/
def allocatedBlock (table : RegionTable) (regionPageCount : Nat)
    (type : MemoryRegionType) : Option MemoryRegion :=
  (firstFit table regionPageCount).map fun region =>
    { addrStart := region.addrStart
      addrEnd := (region.addrStart + allocationLength regionPageCount) % 2 ^ 64
      type := type }

/-- What an allocation does to the table before the sort. -/
structure AllocationStep (table : RegionTable) (regionPageCount : Nat)
    (type : MemoryRegionType) (region block : MemoryRegion)
    (ret : Nat) (after : RegionTable) : Prop where
  fits : fitsAllocation (allocationLength regionPageCount) region = true
  block_eq : block =
    { addrStart := region.addrStart
      addrEnd := (region.addrStart + allocationLength regionPageCount) % 2 ^ 64
      type := type }
  ret_eq : ret = region.addrStart % 2 ^ 32
  edit : ∃ before behind, table = before ++ region :: behind ∧
    let unsorted := before ++ { region with addrStart := block.addrEnd } ::
      (behind ++ [block])
    after = if ret ≠ 0 then pmmSortRegions unsorted else unsorted

/-- An allocation fails without touching the table, or takes its block from the
front of the first region that fits. -/
theorem pmmAllocateRegionWithType_cases {table after : RegionTable}
    {regionPageCount ret : Nat} {type : MemoryRegionType}
    (allocated : pmmAllocateRegionWithType table regionPageCount type =
      some (ret, after)) :
    (firstFit table regionPageCount = none ∧ ret = 0 ∧ after = table) ∨
      ∃ region block, firstFit table regionPageCount = some region ∧
        allocatedBlock table regionPageCount type = some block ∧
        AllocationStep table regionPageCount type region block ret after := by
  rw [pmmAllocateRegionWithType] at allocated
  by_cases none_asked : regionPageCount = 0
  · simp only [none_asked, if_true, Option.some.injEq, Prod.mk.injEq] at allocated
    exact Or.inl ⟨by simp [firstFit, none_asked], allocated.1.symm,
      allocated.2.symm⟩
  · simp only [if_neg none_asked] at allocated
    cases found : table.findIdx?
        (fitsAllocation (allocationLength regionPageCount)) with
    | none =>
        simp only [found, Option.some.injEq, Prod.mk.injEq] at allocated
        have missing : firstFit table regionPageCount = none := by
          rw [firstFit, if_neg none_asked, find?_eq_none_of_findIdx? found]
        exact Or.inl ⟨missing, allocated.1.symm, allocated.2.symm⟩
    | some i =>
        obtain ⟨before, region, behind, rfl, rfl, holds, misses⟩ :=
          exists_split_of_findIdx? found
        have chosen : firstFit (before ++ region :: behind) regionPageCount =
            some region := by
          rw [firstFit, if_neg none_asked, find?_split holds misses]
        refine Or.inr ⟨region, _, chosen,
          by rw [allocatedBlock, chosen]; rfl, holds, rfl, ?_, before, behind,
          rfl, ?_⟩
        · simp only [found, getElem?_split, Option.map_some, Option.getD_some,
            Option.bind_eq_bind, Option.bind_eq_some_iff, Option.pure_def,
            Option.some.injEq, Prod.mk.injEq] at allocated
          obtain ⟨_, _, rfl, _⟩ := allocated
          rfl
        · simp only [found, getElem?_split, Option.map_some, Option.getD_some,
            Option.bind_eq_bind, Option.bind_eq_some_iff, pushRegion_eq_some,
            Option.pure_def, Option.some.injEq, Prod.mk.injEq] at allocated
          obtain ⟨_, ⟨_, rfl⟩, rfl, rfl⟩ := allocated
          simp only [List.append_assoc, List.cons_append, modify_split]

/-- A region that fits is where the block is taken from. -/
theorem AllocationStep.of_firstFit {table after : RegionTable}
    {region : MemoryRegion} {regionPageCount ret : Nat} {type : MemoryRegionType}
    (chosen : firstFit table regionPageCount = some region)
    (allocated : pmmAllocateRegionWithType table regionPageCount type =
      some (ret, after)) :
    ∃ block, allocatedBlock table regionPageCount type = some block ∧
      AllocationStep table regionPageCount type region block ret after := by
  rcases pmmAllocateRegionWithType_cases allocated with
    ⟨missing, _⟩ | ⟨first, block, isFirst, something, step⟩
  · rw [chosen] at missing
    cases missing
  · obtain rfl : region = first := Option.some.inj (chosen.symm.trans isFirst)
    exact ⟨block, something, step⟩

/-- Allocating a block whose pointer is not `NULL` carves it out of the first
region that fits. -/
theorem AllocationStep.carvesFrom {table after : RegionTable}
    {regionPageCount ret : Nat} {type : MemoryRegionType}
    {region block : MemoryRegion}
    (step : AllocationStep table regionPageCount type region block ret after)
    (invariant : TableInvariant table)
    (positive : 0 < allocationLength regionPageCount)
    (noWrap : region.addrStart + allocationLength regionPageCount < 2 ^ 64)
    (notNull : ret ≠ 0) :
    ∃ before behind, table = before ++ region :: behind ∧
      CarvesFrom before region behind block after := by
  obtain ⟨fits, rfl, _, before, behind, rfl, edit⟩ := step
  obtain ⟨_, available, stopInside⟩ := fitsAllocation_iff.mp fits
  dsimp only at edit
  rw [if_pos notNull] at edit
  subst edit
  rw [Nat.mod_eq_of_lt noWrap] at stopInside ⊢
  refine ⟨before, behind, rfl, ?_⟩
  apply carvesFrom_pmmSortRegions invariant available (by simp)
    (by dsimp only; omega) stopInside (by dsimp only; omega) (by simp)
  simp [BubbleSort.live, remainders, isEmpty]

/-- An allocation edits the table to one that is safe to sort, whether or not it
then sorts it. -/
theorem AllocationStep.sortSafe {table after : RegionTable}
    {regionPageCount ret : Nat} {type : MemoryRegionType}
    {region block : MemoryRegion}
    (step : AllocationStep table regionPageCount type region block ret after)
    (invariant : TableInvariant table)
    (positive : 0 < allocationLength regionPageCount)
    (noWrap : region.addrStart + allocationLength regionPageCount < 2 ^ 64) :
    ∃ unsorted, SortSafe unsorted ∧
      after = if ret ≠ 0 then pmmSortRegions unsorted else unsorted := by
  obtain ⟨_, rfl, _, before, behind, rfl, edit⟩ := step
  refine ⟨_, (sortSafe_cut invariant ?_ ?_).1, edit⟩
  · dsimp only
    rw [Nat.mod_eq_of_lt noWrap]
    exact Nat.le_add_right _ _
  · rw [List.forall_mem_singleton, isEmpty_false_iff, Nat.mod_eq_of_lt noWrap]
    dsimp only
    omega

theorem AllocationStep.carves {table after : RegionTable}
    {regionPageCount ret : Nat} {type : MemoryRegionType}
    {region block : MemoryRegion}
    (step : AllocationStep table regionPageCount type region block ret after)
    (invariant : TableInvariant table)
    (positive : 0 < allocationLength regionPageCount)
    (noWrap : region.addrStart + allocationLength regionPageCount < 2 ^ 64)
    (notNull : ret ≠ 0) : Carves table block after := by
  obtain ⟨before, behind, split, carvesFrom⟩ :=
    step.carvesFrom invariant positive noWrap notNull
  exact ⟨before, region, behind, split, carvesFrom⟩

/-- A block whose pointer reads as `NULL` is recorded all the same. -/
theorem AllocationStep.length_of_null {table after : RegionTable}
    {regionPageCount : Nat} {type : MemoryRegionType}
    {region block : MemoryRegion}
    (step : AllocationStep table regionPageCount type region block 0 after) :
    after.length = table.length + 1 := by
  obtain ⟨_, _, _, before, behind, rfl, edit⟩ := step
  rw [edit, if_neg (by simp)]
  simp
  omega

/-- Allocating fits the array while one entry is free. -/
theorem pmmAllocateRegionWithType_isSome {table : RegionTable}
    (regionPageCount : Nat) (type : MemoryRegionType)
    (room : table.length < memoryRegionsLength) :
    ∃ ret after, pmmAllocateRegionWithType table regionPageCount type =
      some (ret, after) := by
  rw [pmmAllocateRegionWithType]
  split
  · exact ⟨_, _, rfl⟩
  · simp only [pushRegion, if_pos room]
    cases table.findIdx? (fitsAllocation (allocationLength regionPageCount)) with
    | none => exact ⟨_, _, rfl⟩
    | some i => exact ⟨_, _, rfl⟩

/-- A page count below 2^20 has a byte length that fits `size_t`. -/
theorem allocationLength_eq {regionPageCount : Nat}
    (fits : regionPageCount < 2 ^ 20) :
    allocationLength regionPageCount = regionPageCount * 4096 :=
  Nat.mod_eq_of_lt (by omega)

end SampoOS.Kickstart
