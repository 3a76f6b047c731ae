/-
Module: SampoOS.Kickstart.RegionArray
Purpose: pmm.c over the bytes of memory_regions, and the region table that the array
  represents.
Trusted boundary: the array, and the record on the stack that the sort uses, do not
  wrap around the address space and lie apart.
Main exports: MemoryRegionType.ofCode, memoryRegionLayout, RegionArray, Represents,
  Represents.push, Represents.sort
-/
import SampoOS.Kickstart.Pmm
import SampoOS.Lib.RecordArray

namespace SampoOS

/-- The type that a value of the `type` field stands for. -/
def MemoryRegionType.ofCode : Nat → MemoryRegionType
  | 0 => .available
  | 1 => .reserved
  | 2 => .reclaimable
  | 3 => .nvs
  | 4 => .badMem
  | 5 => .allocated
  | 6 => .kernel
  | code + 7 => .other code

@[simp] theorem MemoryRegionType.ofCode_code (type : MemoryRegionType) :
    ofCode type.code = type := by
  cases type with
  | other value => rw [MemoryRegionType.code, Nat.add_comm, ofCode]
  | _ => rfl

@[simp] theorem MemoryRegionType.code_ofCode (value : Nat) :
    (ofCode value).code = value := by
  match value with
  | 0 | 1 | 2 | 3 | 4 | 5 | 6 => rfl
  | value + 7 => rw [ofCode, MemoryRegionType.code, Nat.add_comm]

namespace Kickstart

open BitFields (clearLow)
open ByteMemory (Memory loadLe storeLe loadLe_lt loadLe_storeLe
  loadLe_storeLe_disjoint storeLe_outside)
open RecordArray (Layout Place)

/-! ## The array -/

/-- `struct sampo_bootinfo_memory_region`, as it lies in memory. -/
def memoryRegionLayout : Layout MemoryRegion where
  size := 24
  load m a :=
    { addrStart := loadLe m a 8
      addrEnd := loadLe m (a + 8) 8
      type := .ofCode (loadLe m (a + 16) 8) }
  load_congr := by
    intro m m' a b same
    have field : ∀ k, k + 8 ≤ 24 → loadLe m (a + k) 8 = loadLe m' (b + k) 8 := by
      intro k inRecord
      refine ByteMemory.leValue_congr fun i below => ?_
      rw [Nat.add_assoc, Nat.add_assoc]
      exact same (k + i) (by omega)
    have start := field 0 (by decide)
    rw [Nat.add_zero, Nat.add_zero] at start
    rw [start, field 8 (by decide), field 16 (by decide)]

/-- Memory, with `memory_regions` in it, and `memory_region_count`. -/
structure RegionArray where
  memory : Memory
  memoryRegionCount : Nat

section Operations

variable (place : Place memoryRegionLayout 32)

/-- Write `memory_regions[i].addr_start`. -/
def setAddrStart (m : Memory) (i value : Nat) : Memory :=
  storeLe m (place.addr i) 8 value

/-- Write `memory_regions[i].addr_end`. -/
def setAddrEnd (m : Memory) (i value : Nat) : Memory :=
  storeLe m (place.addr i + 8) 8 value

/-- Write `memory_regions[i].type`. -/
def setType (m : Memory) (i : Nat) (type : MemoryRegionType) : Memory :=
  storeLe m (place.addr i + 16) 8 type.code

namespace RegionArray

/-- Write `memory_regions[memory_region_count]` and count it. -/
def push (region : MemoryRegion) (s : RegionArray) : RegionArray :=
  let i := s.memoryRegionCount
  let m := setAddrStart place s.memory i region.addrStart
  let m := setAddrEnd place m i region.addrEnd
  { memory := setType place m i region.type
    memoryRegionCount := i + 1 }

/-- `pmm_sort_regions`; the record that it exchanges through is the buffer. -/
def pmmSortRegions (s : RegionArray) : RegionArray :=
  let invalidCount := (List.range s.memoryRegionCount).countP fun i =>
    isEmpty (place.get s.memory i)
  { memory := place.sort
      (fun m j => sortExchanges (place.get m j) (place.get m (j + 1)))
      s.memoryRegionCount s.memory
    memoryRegionCount := s.memoryRegionCount - invalidCount }

/-- `pmm_add_region`. -/
def pmmAddRegion (regionType : MemoryRegionType) (start stop : Nat)
    (s : RegionArray) : RegionArray :=
  pmmSortRegions place (push place (roundedRegion regionType start stop) s)

/-- The three ways in which `new_region`, the last one, lies in
`containing_region`. -/
def cutContaining (i : Nat) (s : RegionArray) : RegionArray :=
  let newRegion := place.get s.memory (s.memoryRegionCount - 1)
  let containing := place.get s.memory i
  if newRegion.addrStart = containing.addrStart then
    { s with memory := setAddrStart place s.memory i newRegion.addrEnd }
  else if newRegion.addrEnd = containing.addrEnd then
    { s with memory := setAddrEnd place s.memory i newRegion.addrStart }
  else
    let s := push place
      { addrStart := newRegion.addrEnd
        addrEnd := containing.addrEnd
        type := containing.type } s
    { s with memory := setAddrEnd place s.memory i newRegion.addrStart }

/-- `pmm_reserve_memory_region`. -/
def pmmReserveMemoryRegion (start stop : Nat) (s : RegionArray) : RegionArray :=
  let start := reserveStart start
  let stop := reserveEnd stop
  match (List.range s.memoryRegionCount).find? fun i =>
      containsRange start stop (place.get s.memory i) with
  | none => s
  | some i =>
      pmmSortRegions place
        (cutContaining place i
          (push place { addrStart := start, addrEnd := stop, type := .allocated } s))

/-- `pmm_allocate_region_with_type`. -/
def pmmAllocateRegionWithType (regionPageCount : Nat) (type : MemoryRegionType)
    (s : RegionArray) : Nat × RegionArray :=
  if regionPageCount = 0 then (0, s)
  else
    let len := allocationLength regionPageCount
    match (List.range s.memoryRegionCount).find? fun i =>
        fitsAllocation len (place.get s.memory i) with
    | none => (0, s)
    | some i =>
        let start := (place.get s.memory i).addrStart
        let potentialEnd := (start + len) % 2 ^ 64
        let s := push place
          { addrStart := start, addrEnd := potentialEnd, type := type } s
        let ret := (place.get s.memory i).addrStart % 2 ^ 32
        let s := { s with memory := setAddrStart place s.memory i potentialEnd }
        (ret, if ret ≠ 0 then pmmSortRegions place s else s)

/-- The inner loop of the coalescing in `pmm_deallocate`, over the indices behind
`head`. -/
def absorb (head : Nat) : List Nat → Memory → Memory
  | [], m => m
  | j :: rest, m =>
      let current := place.get m j
      if current.type ≠ .available then m
      else if isEmpty current then absorb head rest m
      else if (place.get m head).addrEnd ≠ current.addrStart then m
      else
        let m := setAddrEnd place m head current.addrEnd
        absorb head rest (setAddrStart place m j (place.get m j).addrEnd)

/-- One turn of the outer coalescing loop. -/
def coalesceAt (count : Nat) (m : Memory) (i : Nat) : Memory :=
  let head := place.get m i
  if head.type ≠ .available then m
  else if isEmpty head then m
  else absorb place i (List.range' (i + 1) (count - (i + 1))) m

/-- The coalescing loops of `pmm_deallocate`. -/
def coalesce (s : RegionArray) : RegionArray :=
  { s with
    memory := (List.range s.memoryRegionCount).foldl
      (coalesceAt place s.memoryRegionCount) s.memory }

/-- `pmm_deallocate`, on a 32-bit address. -/
def pmmDeallocate (addr : Nat) (s : RegionArray) : RegionArray :=
  let pageAddr := if addr &&& 0x0FFF ≠ 0 then clearLow 64 12 addr else addr
  match (List.range s.memoryRegionCount).find? fun i =>
      !decide ((place.get s.memory i).addrStart < pageAddr) with
  | none => pmmSortRegions place (coalesce place s)
  | some i =>
      let region := place.get s.memory i
      if region.addrStart > pageAddr then s
      else if region.type ≠ .reserved then s
      else
        pmmSortRegions place
          (coalesce place { s with memory := setType place s.memory i .available })

end RegionArray

end Operations

/-! ## What the array represents -/

/-- A region whose fields are 64-bit words. -/
structure MemoryRegion.Words (region : MemoryRegion) : Prop where
  addrStart : region.addrStart < 2 ^ 64
  addrEnd : region.addrEnd < 2 ^ 64
  type : region.type.code < 2 ^ 64

/-- The array holds a region table, and other memory is as it was. -/
structure Represents (place : Place memoryRegionLayout 32) (original : Memory)
    (s : RegionArray) (table : RegionTable) : Prop where
  holds : place.Holds original s.memory table
  count : s.memoryRegionCount = table.length

section Refinement

variable {place : Place memoryRegionLayout 32} {original m : Memory} {s : RegionArray}
  {table : RegionTable}

theorem get_eq (place : Place memoryRegionLayout 32) (m : Memory) (i : Nat) :
    place.get m i =
      { addrStart := loadLe m (place.addr i) 8
        addrEnd := loadLe m (place.addr i + 8) 8
        type := .ofCode (loadLe m (place.addr i + 16) 8) } := rfl

/-- Records that are read are words. -/
theorem get_words (place : Place memoryRegionLayout 32) (m : Memory) (i : Nat) :
    MemoryRegion.Words (place.get m i) where
  addrStart := loadLe_lt m _ 8
  addrEnd := loadLe_lt m _ 8
  type := by
    rw [get_eq, MemoryRegionType.code_ofCode]
    exact loadLe_lt m _ 8

theorem words (holds : place.Holds original m table) {region : MemoryRegion}
    (inside : region ∈ table) : MemoryRegion.Words region := by
  obtain ⟨i, below, rfl⟩ := List.getElem_of_mem inside
  rw [← holds.records i below]
  exact get_words place m i

/-- Each field is written without touching the others. -/
theorem get_setAddrStart {i value : Nat} (word : value < 2 ^ 64) :
    place.get (setAddrStart place m i value) i =
      { place.get m i with addrStart := value } := by
  have start : loadLe (setAddrStart place m i value) (place.addr i) 8 = value :=
    (loadLe_storeLe m _ 8 value).trans (Nat.mod_eq_of_lt word)
  have others : ∀ k, 8 ≤ k → loadLe (setAddrStart place m i value) (place.addr i + k) 8 =
      loadLe m (place.addr i + k) 8 :=
    fun k behind => loadLe_storeLe_disjoint (by omega)
  rw [get_eq, get_eq, start, others 8 (Nat.le_refl 8), others 16 (by decide)]

theorem get_setAddrEnd {i value : Nat} (word : value < 2 ^ 64) :
    place.get (setAddrEnd place m i value) i =
      { place.get m i with addrEnd := value } := by
  have stop : loadLe (setAddrEnd place m i value) (place.addr i + 8) 8 = value :=
    (loadLe_storeLe m _ 8 value).trans (Nat.mod_eq_of_lt word)
  have start : loadLe (setAddrEnd place m i value) (place.addr i) 8 =
      loadLe m (place.addr i) 8 := loadLe_storeLe_disjoint (by omega)
  have type : loadLe (setAddrEnd place m i value) (place.addr i + 16) 8 =
      loadLe m (place.addr i + 16) 8 := loadLe_storeLe_disjoint (by omega)
  rw [get_eq, get_eq, start, stop, type]

theorem get_setType {i : Nat} {type : MemoryRegionType} (word : type.code < 2 ^ 64) :
    place.get (setType place m i type) i = { place.get m i with type := type } := by
  have written : loadLe (setType place m i type) (place.addr i + 16) 8 = type.code :=
    (loadLe_storeLe m _ 8 type.code).trans (Nat.mod_eq_of_lt word)
  have others : ∀ k, k ≤ 8 → loadLe (setType place m i type) (place.addr i + k) 8 =
      loadLe m (place.addr i + k) 8 :=
    fun k front => loadLe_storeLe_disjoint (by omega)
  have start := others 0 (by decide)
  rw [Nat.add_zero] at start
  rw [get_eq, get_eq, start, others 8 (Nat.le_refl 8), written,
    MemoryRegionType.ofCode_code]

/-- A field lies in its record. -/
theorem field_outside {i k value x : Nat} (inRecord : k + 8 ≤ 24)
    (outside : x < place.addr i ∨ place.addr i + memoryRegionLayout.size ≤ x) :
    storeLe m (place.addr i + k) 8 value x = m x := by
  have size : memoryRegionLayout.size = 24 := rfl
  exact storeLe_outside (by omega)

theorem setAddrStart_holds (holds : place.Holds original m table) {i value : Nat}
    (below : i < table.length) (word : value < 2 ^ 64) :
    place.Holds original (setAddrStart place m i value)
      (table.modify i fun region => { region with addrStart := value }) :=
  holds.modify below _ (get_setAddrStart word) fun _ outside =>
    field_outside (show 0 + 8 ≤ 24 by decide) outside

theorem setAddrEnd_holds (holds : place.Holds original m table) {i value : Nat}
    (below : i < table.length) (word : value < 2 ^ 64) :
    place.Holds original (setAddrEnd place m i value)
      (table.modify i fun region => { region with addrEnd := value }) :=
  holds.modify below _ (get_setAddrEnd word) fun _ outside =>
    field_outside (show 8 + 8 ≤ 24 by decide) outside

theorem setType_holds (holds : place.Holds original m table) {i : Nat}
    {type : MemoryRegionType} (below : i < table.length) (word : type.code < 2 ^ 64) :
    place.Holds original (setType place m i type)
      (table.modify i fun region => { region with type := type }) :=
  holds.modify below _ (get_setType word) fun _ outside =>
    field_outside (show 16 + 8 ≤ 24 by decide) outside

namespace Represents

theorem push (represents : Represents place original s table)
    (room : table.length < place.capacity) {region : MemoryRegion}
    (words : MemoryRegion.Words region) :
    Represents place original (s.push place region) (table ++ [region]) := by
  obtain ⟨holds, count⟩ := represents
  have written : place.get (s.push place region).memory table.length = region := by
    rw [RegionArray.push, count]
    dsimp only
    rw [get_setType words.type, get_setAddrEnd words.addrEnd,
      get_setAddrStart words.addrStart]
  have pushed : place.Holds original (s.push place region).memory
      (table ++ [place.get (s.push place region).memory table.length]) := by
    refine holds.push room fun x outside => ?_
    rw [RegionArray.push, count]
    dsimp only
    have first : setAddrStart place s.memory table.length region.addrStart x = s.memory x :=
      field_outside (show 0 + 8 ≤ 24 by decide) outside
    rw [setType, field_outside (show 16 + 8 ≤ 24 by decide) outside, setAddrEnd,
      field_outside (show 8 + 8 ≤ 24 by decide) outside]
    exact first
  rw [written] at pushed
  refine ⟨pushed, ?_⟩
  rw [RegionArray.push, count, List.length_append]
  rfl

theorem sort (represents : Represents place original s table) :
    Represents place original (s.pmmSortRegions place) (pmmSortRegions table) := by
  obtain ⟨holds, count⟩ := represents
  have invalid := holds.countP isEmpty
  have sorted : place.Holds original _ (BubbleSort.bubbleSort sortExchanges table) :=
    holds.sort fun m j => rfl
  rw [RegionArray.pmmSortRegions, count, invalid, pmmSortRegions]
  refine ⟨sorted.take _, ?_⟩
  rw [List.length_take, (BubbleSort.bubbleSort_perm table).length_eq,
    Nat.min_eq_left (Nat.sub_le _ _)]

/-- Changing a record leaves the number of records. -/
theorem update (represents : Represents place original s table) {m : Memory}
    {table' : RegionTable} (holds : place.Holds original m table')
    (length : table'.length = table.length) :
    Represents place original { s with memory := m } table' :=
  ⟨holds, represents.count.trans length.symm⟩

theorem find? (represents : Represents place original s table)
    (test : MemoryRegion → Bool) :
    ((List.range s.memoryRegionCount).find? fun i => test (place.get s.memory i)) =
      table.findIdx? test := by
  rw [represents.count]
  exact represents.holds.find? test

end Represents

end Refinement

end Kickstart

end SampoOS
