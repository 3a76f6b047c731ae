/-
Module: SampoOS.Kickstart.PmmBounds
Purpose: Which entries of memory_regions the operations of the physical memory
  manager access, and when all of them lie inside the array.
Trusted boundary: none
Main exports: RegionCall, Footprint, RegionCall.footprint, RegionCall.HasRoom,
  RegionCall.staysInBounds_iff, RegionCall.isSome_run,
  regionCalls_inBounds_iff_hasRoom
-/
import SampoOS.Kickstart.PmmRuns

namespace SampoOS.Kickstart

/-! ## Accesses -/

/-- The indices of `memory_regions` that an operation reads or writes, and the
values that it raises `memory_region_count` to before the sort. -/
structure Footprint where
  indices : List Nat
  counts : List Nat

/-- All accesses are inside the array and the count never exceeds its length. -/
def Footprint.InBounds (footprint : Footprint) : Prop :=
  (∀ index ∈ footprint.indices, index < memoryRegionsLength) ∧
    ∀ count ∈ footprint.counts, count ≤ memoryRegionsLength

/-- The loops of `pmm_sort_regions` over `count` entries: one that counts the
invalid regions, and two nested ones that compare the entries `j` and `j + 1`. -/
def sortIndices (count : Nat) : List Nat :=
  List.range count ++
    (List.range count).flatMap fun i =>
      (List.range (count - i - 1)).flatMap fun j => [j, j + 1]

/-- A search loop: it reads the entries up to the one that it stops at. -/
def searchIndices (test : MemoryRegion → Bool) (table : RegionTable) :
    List Nat :=
  match table.findIdx? test with
  | none => List.range table.length
  | some i => List.range (i + 1)

/-- `pmm_add_region` writes the entry behind the last one and sorts. -/
def pmmAddRegionFootprint (table : RegionTable) : Footprint :=
  let count := table.length + 1
  { indices := table.length :: sortIndices count
    counts := [count] }

/-- `pmm_reserve_memory_region` writes the entry behind the last one, the
containing region, and a second new entry when that region is split in two. -/
def pmmReserveMemoryRegionFootprint (table : RegionTable) (start stop : Nat) :
    Footprint :=
  let start := reserveStart start
  let stop := reserveEnd stop
  let searched := searchIndices (containsRange start stop) table
  match table.findIdx? (containsRange start stop) with
  | none => { indices := searched, counts := [] }
  | some i =>
      let newRegion : MemoryRegion :=
        { addrStart := start, addrEnd := stop, type := .allocated }
      let containing := table[i]?.getD newRegion
      let count := table.length + 1
      if newRegion.addrStart = containing.addrStart ∨
          newRegion.addrEnd = containing.addrEnd then
        { indices := searched ++ table.length :: i :: sortIndices count
          counts := [count] }
      else
        { indices := searched ++
            table.length :: i :: count :: sortIndices (count + 1)
          counts := [count, count + 1] }

/-- `pmm_allocate_region_with_type` writes the entry behind the last one and the
region it takes the pages from, and sorts if the pointer is not `NULL`. -/
def pmmAllocateRegionWithTypeFootprint (table : RegionTable)
    (regionPageCount : Nat) : Footprint :=
  if regionPageCount = 0 then { indices := [], counts := [] }
  else
    let len := allocationLength regionPageCount
    let searched := searchIndices (fitsAllocation len) table
    match table.findIdx? (fitsAllocation len) with
    | none => { indices := searched, counts := [] }
    | some i =>
        let ret := (table[i]?.map MemoryRegion.addrStart).getD 0 % 2 ^ 32
        let count := table.length + 1
        { indices := searched ++ table.length :: i ::
            if ret ≠ 0 then sortIndices count else []
          counts := [count] }

/-! ## Calls -/

/-- A call of one of the four operations that may add entries. -/
inductive RegionCall where
  | add (regionType : MemoryRegionType) (start stop : Nat)
  | reserve (start stop : Nat)
  | allocate (regionPageCount : Nat)
  | allocateWithType (regionPageCount : Nat) (type : MemoryRegionType)
deriving Repr, DecidableEq

namespace RegionCall

/-- The table after the call. -/
def run (table : RegionTable) : RegionCall → Option RegionTable
  | .add regionType start stop => pmmAddRegion table regionType start stop
  | .reserve start stop => pmmReserveMemoryRegion table start stop
  | .allocate regionPageCount =>
      (pmmAllocateRegion table regionPageCount).map Prod.snd
  | .allocateWithType regionPageCount type =>
      (pmmAllocateRegionWithType table regionPageCount type).map Prod.snd

/-- What the call accesses. -/
def footprint (table : RegionTable) : RegionCall → Footprint
  | .add .. => pmmAddRegionFootprint table
  | .reserve start stop => pmmReserveMemoryRegionFootprint table start stop
  | .allocate regionPageCount =>
      pmmAllocateRegionWithTypeFootprint table regionPageCount
  | .allocateWithType regionPageCount _ =>
      pmmAllocateRegionWithTypeFootprint table regionPageCount

/-- The call accesses nothing outside the array and leaves no more entries than
it has. -/
def StaysInBounds (call : RegionCall) (table : RegionTable) : Prop :=
  (call.footprint table).InBounds ∧
    ∀ after ∈ call.run table, after.length ≤ memoryRegionsLength

/-- The free entries that an allocation asks for: one if some region fits. -/
def AllocationHasRoom (table : RegionTable) (regionPageCount : Nat) : Prop :=
  ∀ _region ∈ firstFit table regionPageCount,
    table.length + 1 ≤ memoryRegionsLength

/-- The free entries that a call needs: one to add a region or to allocate from
one; to reserve, one at either end of the containing region and two inside it. -/
def HasRoom (call : RegionCall) (table : RegionTable) : Prop :=
  match call with
  | .add .. => table.length + 1 ≤ memoryRegionsLength
  | .reserve start stop =>
      ∀ region ∈ table.find?
          (containsRange (reserveStart start) (reserveEnd stop)),
        if reserveStart start = region.addrStart ∨
            reserveEnd stop = region.addrEnd then
          table.length + 1 ≤ memoryRegionsLength
        else table.length + 2 ≤ memoryRegionsLength
  | .allocate regionPageCount => AllocationHasRoom table regionPageCount
  | .allocateWithType regionPageCount _ =>
      AllocationHasRoom table regionPageCount

end RegionCall

/-! ## One call -/

theorem lt_of_mem_sortIndices {count index : Nat}
    (inside : index ∈ sortIndices count) : index < count := by
  simp only [sortIndices, List.mem_append, List.mem_range, List.mem_flatMap,
    List.mem_cons, List.not_mem_nil, or_false] at inside
  rcases inside with below | ⟨i, _, j, _, rfl | rfl⟩ <;> omega

theorem lt_of_mem_searchIndices {test : MemoryRegion → Bool}
    {table : RegionTable} {index : Nat}
    (inside : index ∈ searchIndices test table) : index < table.length := by
  rw [searchIndices] at inside
  cases found : table.findIdx? test with
  | none =>
      rw [found] at inside
      exact List.mem_range.mp inside
  | some i =>
      rw [found] at inside
      have below := (List.findIdx?_eq_some_iff_findIdx_eq.mp found).1
      have upTo := List.mem_range.mp inside
      omega

/-- A search reads entries of the table; what is accessed besides decides. -/
theorem forall_lt_search_append {test : MemoryRegion → Bool}
    {table : RegionTable} {others : List Nat} {bound : Nat}
    (short : table.length ≤ bound) (inside : ∀ index ∈ others, index < bound) :
    ∀ index ∈ searchIndices test table ++ others, index < bound := by
  rw [List.forall_mem_append]
  exact ⟨fun index searched =>
    Nat.lt_of_lt_of_le (lt_of_mem_searchIndices searched) short, inside⟩

theorem forall_lt_sort {count bound : Nat} (room : count ≤ bound) :
    ∀ index ∈ sortIndices count, index < bound := fun _ inside =>
  Nat.lt_of_lt_of_le (lt_of_mem_sortIndices inside) room

private theorem find?_eq_some_of_findIdx? {test : MemoryRegion → Bool}
    {table : RegionTable} {i : Nat} (found : table.findIdx? test = some i) :
    ∃ region, table[i]? = some region ∧ table.find? test = some region ∧
      i < table.length := by
  obtain ⟨before, region, behind, rfl, rfl, holds, misses⟩ :=
    exists_split_of_findIdx? found
  exact ⟨region, getElem?_split before behind region, find?_split holds misses,
    by simp⟩

namespace RegionCall

variable {table : RegionTable}

theorem add_inBounds_iff :
    (pmmAddRegionFootprint table).InBounds ↔
      table.length + 1 ≤ memoryRegionsLength := by
  constructor
  · intro inBounds
    exact inBounds.2 (table.length + 1) (by simp [pmmAddRegionFootprint])
  · intro room
    constructor
    · exact List.forall_mem_cons.mpr ⟨room, forall_lt_sort room⟩
    · intro count inside
      obtain rfl := List.mem_singleton.mp inside
      exact room

theorem reserve_inBounds_iff (short : table.length ≤ memoryRegionsLength)
    (start stop : Nat) :
    (pmmReserveMemoryRegionFootprint table start stop).InBounds ↔
      (RegionCall.reserve start stop).HasRoom table := by
  simp only [pmmReserveMemoryRegionFootprint, HasRoom]
  cases found : table.findIdx?
      (containsRange (reserveStart start) (reserveEnd stop)) with
  | none =>
      rw [find?_eq_none_of_findIdx? found]
      exact iff_of_true ⟨fun index inside =>
        Nat.lt_of_lt_of_le (lt_of_mem_searchIndices inside) short, by simp⟩ (by simp)
  | some i =>
      obtain ⟨region, stored, first, below⟩ := find?_eq_some_of_findIdx? found
      simp only [stored, first, Option.getD_some, Option.mem_def,
        Option.some.injEq, forall_eq']
      split
      · constructor
        · intro inBounds
          exact inBounds.2 (table.length + 1) (by simp)
        · intro room
          refine ⟨?_, by simpa using room⟩
          apply forall_lt_search_append short
          rw [List.forall_mem_cons, List.forall_mem_cons]
          exact ⟨room, by omega, forall_lt_sort room⟩
      · constructor
        · intro inBounds
          exact inBounds.2 (table.length + 2) (by simp)
        · intro room
          refine ⟨?_, by simp; omega⟩
          apply forall_lt_search_append short
          rw [List.forall_mem_cons, List.forall_mem_cons, List.forall_mem_cons]
          exact ⟨by omega, by omega, by omega, forall_lt_sort room⟩

theorem allocate_inBounds_iff (short : table.length ≤ memoryRegionsLength)
    (regionPageCount : Nat) :
    (pmmAllocateRegionWithTypeFootprint table regionPageCount).InBounds ↔
      AllocationHasRoom table regionPageCount := by
  rw [pmmAllocateRegionWithTypeFootprint, AllocationHasRoom, firstFit]
  by_cases nothing : regionPageCount = 0
  · simp [nothing, Footprint.InBounds]
  · simp only [if_neg nothing]
    cases found : table.findIdx?
        (fitsAllocation (allocationLength regionPageCount)) with
    | none =>
        rw [find?_eq_none_of_findIdx? found]
        exact iff_of_true ⟨fun index inside =>
          Nat.lt_of_lt_of_le (lt_of_mem_searchIndices inside) short, by simp⟩
            (by simp)
    | some i =>
        obtain ⟨region, stored, first, below⟩ := find?_eq_some_of_findIdx? found
        simp only [first, Option.mem_def, Option.some.injEq, forall_eq']
        constructor
        · intro inBounds
          exact inBounds.2 (table.length + 1) (by simp)
        · intro room
          refine ⟨?_, by simpa using room⟩
          apply forall_lt_search_append short
          rw [List.forall_mem_cons, List.forall_mem_cons]
          refine ⟨room, by omega, ?_⟩
          split
          · exact forall_lt_sort room
          · simp

theorem footprint_inBounds_iff (short : table.length ≤ memoryRegionsLength)
    (call : RegionCall) :
    (call.footprint table).InBounds ↔ call.HasRoom table := by
  cases call with
  | add regionType start stop => exact add_inBounds_iff
  | reserve start stop => exact reserve_inBounds_iff short start stop
  | allocate regionPageCount => exact allocate_inBounds_iff short regionPageCount
  | allocateWithType regionPageCount type =>
      exact allocate_inBounds_iff short regionPageCount

end RegionCall

/-! ## The result of a call -/

theorem length_le_of_pushRegion {table after : RegionTable}
    {region : MemoryRegion} (pushed : pushRegion table region = some after) :
    after.length ≤ memoryRegionsLength := by
  obtain ⟨room, rfl⟩ := pushRegion_eq_some.mp pushed
  rw [List.length_append, List.length_singleton]
  exact room

theorem length_pmmSortRegions_le (table : RegionTable) :
    (pmmSortRegions table).length ≤ table.length := by
  rw [pmmSortRegions, List.length_take,
    (BubbleSort.bubbleSort_perm table).length_eq]
  exact Nat.min_le_right _ _

theorem length_le_of_cutContaining {table after : RegionTable} {i : Nat}
    {containing newRegion : MemoryRegion}
    (short : table.length ≤ memoryRegionsLength)
    (edited : cutContaining table i containing newRegion = some after) :
    after.length ≤ memoryRegionsLength := by
  rw [cutContaining] at edited
  split at edited
  · rw [← Option.some.inj edited, List.length_modify]
    exact short
  · split at edited
    · rw [← Option.some.inj edited, List.length_modify]
      exact short
    · simp only [Option.bind_eq_bind, Option.bind_eq_some_iff, Option.pure_def,
        Option.some.injEq] at edited
      obtain ⟨grown, pushed, rfl⟩ := edited
      rw [List.length_modify]
      exact length_le_of_pushRegion pushed

theorem length_le_of_pmmReserveMemoryRegion {table after : RegionTable}
    {start stop : Nat} (short : table.length ≤ memoryRegionsLength)
    (reserved : pmmReserveMemoryRegion table start stop = some after) :
    after.length ≤ memoryRegionsLength := by
  simp only [pmmReserveMemoryRegion] at reserved
  cases found : table.findIdx?
      (containsRange (reserveStart start) (reserveEnd stop)) with
  | none =>
      simp only [found, Option.some.injEq] at reserved
      rw [← reserved]
      exact short
  | some i =>
      simp only [found, Option.bind_eq_bind, Option.bind_eq_some_iff,
        Option.pure_def, Option.some.injEq] at reserved
      obtain ⟨grown, pushed, edited, cut, rfl⟩ := reserved
      apply Nat.le_trans (length_pmmSortRegions_le edited)
      exact length_le_of_cutContaining (length_le_of_pushRegion pushed) cut

theorem length_le_of_pmmAllocateRegionWithType {table after : RegionTable}
    {regionPageCount ret : Nat} {type : MemoryRegionType}
    (short : table.length ≤ memoryRegionsLength)
    (allocated : pmmAllocateRegionWithType table regionPageCount type =
      some (ret, after)) : after.length ≤ memoryRegionsLength := by
  rw [pmmAllocateRegionWithType] at allocated
  split at allocated
  · rw [← (Prod.mk.inj (Option.some.inj allocated)).2]
    exact short
  · simp only at allocated
    split at allocated
    · rw [← (Prod.mk.inj (Option.some.inj allocated)).2]
      exact short
    · simp only [Option.bind_eq_bind, Option.bind_eq_some_iff, Option.pure_def,
        Option.some.injEq, Prod.mk.injEq] at allocated
      obtain ⟨grown, pushed, _, rfl⟩ := allocated
      have bound := length_le_of_pushRegion pushed
      split
      · apply Nat.le_trans (length_pmmSortRegions_le _)
        rwa [List.length_modify]
      · rwa [List.length_modify]

theorem length_le_of_pmmAddRegion {table after : RegionTable}
    {regionType : MemoryRegionType} {start stop : Nat}
    (added : pmmAddRegion table regionType start stop = some after) :
    after.length ≤ memoryRegionsLength := by
  simp only [pmmAddRegion, Option.bind_eq_bind, Option.bind_eq_some_iff,
    Option.pure_def, Option.some.injEq] at added
  obtain ⟨grown, pushed, rfl⟩ := added
  exact Nat.le_trans (length_pmmSortRegions_le grown)
    (length_le_of_pushRegion pushed)

theorem length_le_of_pmmAddRegions {entries : List FirmwareEntry} :
    ∀ {table after : RegionTable}, table.length ≤ memoryRegionsLength →
      pmmAddRegions table entries = some after →
      after.length ≤ memoryRegionsLength := by
  induction entries with
  | nil =>
      intro table after short added
      simp only [pmmAddRegions, List.foldlM_nil, Option.pure_def,
        Option.some.injEq] at added
      exact added ▸ short
  | cons entry rest inductionHypothesis =>
      intro table after short added
      rw [pmmAddRegions_cons, Option.bind_eq_some_iff] at added
      obtain ⟨next, first, added⟩ := added
      exact inductionHypothesis (length_le_of_pmmAddRegion first) added

namespace RegionCall

variable {table : RegionTable}

theorem length_le_of_run {after : RegionTable} {call : RegionCall}
    (short : table.length ≤ memoryRegionsLength)
    (ran : call.run table = some after) : after.length ≤ memoryRegionsLength := by
  cases call with
  | add regionType start stop =>
      exact length_le_of_pmmAddRegion ran
  | reserve start stop =>
      exact length_le_of_pmmReserveMemoryRegion short ran
  | allocate regionPageCount =>
      obtain ⟨⟨ret, _⟩, allocated, rfl⟩ := Option.map_eq_some_iff.mp ran
      exact length_le_of_pmmAllocateRegionWithType short allocated
  | allocateWithType regionPageCount type =>
      obtain ⟨⟨ret, _⟩, allocated, rfl⟩ := Option.map_eq_some_iff.mp ran
      exact length_le_of_pmmAllocateRegionWithType short allocated

theorem isSome_pmmReserveMemoryRegion {start stop : Nat} :
    (pmmReserveMemoryRegion table start stop).isSome = true ↔
      (RegionCall.reserve start stop).HasRoom table := by
  simp only [pmmReserveMemoryRegion, HasRoom]
  cases found : table.findIdx?
      (containsRange (reserveStart start) (reserveEnd stop)) with
  | none => simp [find?_eq_none_of_findIdx? found]
  | some i =>
      obtain ⟨region, stored, first, below⟩ := find?_eq_some_of_findIdx? found
      simp only [stored, first, Option.getD_some, Option.mem_def,
        Option.some.injEq, forall_eq', pushRegion, cutContaining]
      by_cases atStart : reserveStart start = region.addrStart
      · simp only [atStart, true_or, if_true]
        split <;> simp <;> omega
      · by_cases atEnd : reserveEnd stop = region.addrEnd
        · simp only [atStart, atEnd, or_true, if_true, if_false]
          split <;> simp <;> omega
        · simp only [atStart, atEnd, or_self, if_false]
          split
          · simp only [Option.bind_eq_bind, Option.bind_some, List.length_append,
              List.length_singleton]
            split <;> simp <;> omega
          · simp
            omega

theorem isSome_pmmAllocateRegionWithType {regionPageCount : Nat}
    {type : MemoryRegionType} :
    (pmmAllocateRegionWithType table regionPageCount type).isSome = true ↔
      AllocationHasRoom table regionPageCount := by
  rw [pmmAllocateRegionWithType, AllocationHasRoom, firstFit]
  by_cases nothing : regionPageCount = 0
  · simp [nothing]
  · simp only [if_neg nothing]
    cases found : table.findIdx?
        (fitsAllocation (allocationLength regionPageCount)) with
    | none => simp [find?_eq_none_of_findIdx? found]
    | some i =>
        obtain ⟨region, _, first, _⟩ := find?_eq_some_of_findIdx? found
        simp only [first, Option.mem_def, Option.some.injEq, forall_eq',
          pushRegion]
        split <;> simp <;> omega

/-- The operations have a result exactly when the entries they need are free. -/
theorem isSome_run (call : RegionCall) :
    (call.run table).isSome = true ↔ call.HasRoom table := by
  cases call with
  | add regionType start stop =>
      simp only [run, pmmAddRegion, pushRegion, HasRoom]
      split <;> simp <;> omega
  | reserve start stop => exact isSome_pmmReserveMemoryRegion
  | allocate regionPageCount =>
      rw [run, pmmAllocateRegion, Option.isSome_map]
      exact isSome_pmmAllocateRegionWithType
  | allocateWithType regionPageCount type =>
      rw [run, Option.isSome_map]
      exact isSome_pmmAllocateRegionWithType

/-- From a table that fits the array, a call stays inside it exactly when the
entries it needs are free. -/
theorem staysInBounds_iff (short : table.length ≤ memoryRegionsLength)
    (call : RegionCall) : call.StaysInBounds table ↔ call.HasRoom table := by
  rw [StaysInBounds, footprint_inBounds_iff short]
  exact ⟨fun stays => stays.1,
    fun room => ⟨room, fun _ ran => length_le_of_run short ran⟩⟩

end RegionCall

/-! ## Runs of calls -/

/-- A property of every call of a run, in the table that the calls before it
have left. -/
def Along (P : RegionCall → RegionTable → Prop) :
    RegionTable → List RegionCall → Prop
  | _, [] => True
  | table, call :: rest =>
      P call table ∧ ∀ after ∈ call.run table, Along P after rest

theorem along_inBounds_iff_hasRoom {calls : List RegionCall} :
    ∀ {table : RegionTable}, table.length ≤ memoryRegionsLength →
      (Along RegionCall.StaysInBounds table calls ↔
        Along RegionCall.HasRoom table calls) := by
  induction calls with
  | nil => exact fun _ => Iff.rfl
  | cons call rest inductionHypothesis =>
      intro table short
      rw [Along, Along, call.staysInBounds_iff short]
      apply and_congr_right
      intro room
      constructor
      · intro stays after ran
        exact (inductionHypothesis (RegionCall.length_le_of_run short ran)).mp
          (stays after ran)
      · intro room after ran
        exact (inductionHypothesis (RegionCall.length_le_of_run short ran)).mpr
          (room after ran)

/-- From the empty table on, a run of calls accesses only entries of the array
if and only if every call of it finds the free entries that it needs. -/
theorem regionCalls_inBounds_iff_hasRoom (calls : List RegionCall) :
    Along RegionCall.StaysInBounds [] calls ↔ Along RegionCall.HasRoom [] calls :=
  along_inBounds_iff_hasRoom (Nat.zero_le _)

/-! ## A firmware map that is too long -/

/-- A region with bytes that is added to such regions is kept. -/
theorem pmmSortRegions_append_nonempty {table : RegionTable}
    {region : MemoryRegion} (nonempty : ∀ entry ∈ table, isEmpty entry = false)
    (live : isEmpty region = false) :
    (pmmSortRegions (table ++ [region])).length = table.length + 1 ∧
      ∀ entry ∈ pmmSortRegions (table ++ [region]), isEmpty entry = false := by
  have allNonempty : ∀ entry ∈ table ++ [region], isEmpty entry = false := by
    intro entry inside
    rcases List.mem_append.mp inside with inside | inside
    · exact nonempty entry inside
    · rwa [List.mem_singleton.mp inside]
  have settled := pmmSortRegions_settles (sortSafe_of_nonempty allNonempty)
  have perm := settled.perm
  rw [BubbleSort.live_eq_self allNonempty] at perm
  refine ⟨by simpa using perm.length_eq, ?_⟩
  intro entry inside
  exact allNonempty entry (perm.mem_iff.mp inside)

/-- The `pmm_add_region` call for an entry of the memory map. -/
def FirmwareEntry.addCall (entry : FirmwareEntry) : RegionCall :=
  .add entry.type entry.start entry.stop

/-- Reading more entries with bytes than the table has free entries runs over
the end of the array. -/
theorem not_along_staysInBounds_of_adds {entries : List FirmwareEntry} :
    ∀ {table : RegionTable},
      (∀ entry ∈ entries, isEmpty entry.rounded = false) →
      (∀ region ∈ table, isEmpty region = false) →
      table.length ≤ memoryRegionsLength →
      memoryRegionsLength < table.length + entries.length →
      ¬ Along RegionCall.StaysInBounds table
        (entries.map FirmwareEntry.addCall) := by
  induction entries with
  | nil =>
      intro table _ _ short long
      simp at long
      omega
  | cons entry rest inductionHypothesis =>
      intro table entriesLive tableLive short long stays
      have room := (RegionCall.staysInBounds_iff short _).mp stays.1
      have added : entry.addCall.run table =
          some (pmmSortRegions (table ++ [entry.rounded])) :=
        pmmAddRegion_eq_some.mpr ⟨room, rfl⟩
      have next := pmmSortRegions_append_nonempty tableLive
        (entriesLive entry (by simp))
      refine inductionHypothesis
        (fun other inside => entriesLive other (by simp [inside])) next.2
        (by rw [next.1]; exact room) ?_ (stays.2 _ added)
      rw [next.1]
      rw [List.length_cons] at long
      omega

/-- A memory map of 1025 single reserved pages, every second page of memory. -/
def alternatePages : List FirmwareEntry :=
  (List.range 1025).map fun i =>
    { type := .reserved, start := 0x2000 * i, stop := 0x2000 * i + 0x1000 }

/-- The last page of that map is written behind the end of the array. -/
theorem regionCalls_overrun :
    ¬ ∀ calls : List RegionCall, Along RegionCall.StaysInBounds [] calls := by
  intro stays
  have nonempty : ∀ entry ∈ alternatePages, isEmpty entry.rounded = false := by
    intro entry inside
    obtain ⟨i, below, rfl⟩ := List.mem_map.mp inside
    have := List.mem_range.mp below
    rw [FirmwareEntry.rounded, roundedRegion_reserved (by dsimp only; omega)
      (by dsimp only; omega), isEmpty_false_iff]
    dsimp only
    omega
  have long : memoryRegionsLength <
      ([] : RegionTable).length + alternatePages.length := by
    rw [alternatePages, List.length_map, List.length_range]
    decide
  have overrun := not_along_staysInBounds_of_adds nonempty
    (fun region inside => absurd inside List.not_mem_nil) (Nat.zero_le _) long
  exact not_forall_of_exists_not ⟨_, overrun⟩ stays

end SampoOS.Kickstart
