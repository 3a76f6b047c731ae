/-
Module: SampoOS.Kickstart.PmmRuns
Purpose: Whole runs of the memory manager: the table read from a firmware map
  under any sequence of reservations and allocations.
Trusted boundary: none
Main exports: PmmCall, PmmRun, AllocatorInvariant,
  pmmRun_keeps_allocatorInvariant, AllocationRun,
  pmmReserveMemoryRegion_protects
-/
import Mathlib.Order.Interval.Set.Disjoint
import SampoOS.Kickstart.MemoryMap

namespace SampoOS.Kickstart

/-! ## Runs -/

/-- A call that takes memory from the table. -/
inductive PmmCall where
  | reserve (start stop : Nat)
  | allocate (regionPageCount : Nat) (type : MemoryRegionType)
deriving Repr, DecidableEq

namespace PmmCall

/-- The table after the call. -/
def run (table : RegionTable) : PmmCall → Option RegionTable
  | .reserve start stop => pmmReserveMemoryRegion table start stop
  | .allocate regionPageCount type =>
      (pmmAllocateRegionWithType table regionPageCount type).map Prod.snd

/-- The block that the call carves out, if it takes effect. -/
def carved (table : RegionTable) : PmmCall → Option MemoryRegion
  | .reserve start stop => reservedBlock table start stop
  | .allocate regionPageCount type => allocatedBlock table regionPageCount type

/-- The arguments that Kickstart may pass. -/
def InRange : PmmCall → Prop
  | .reserve start stop => start < stop ∧ stop ≤ 0xFFFFF000
  | .allocate regionPageCount type =>
      1 ≤ regionPageCount ∧ regionPageCount < 2 ^ 20 ∧
        (type = .allocated ∨ type = .kernel)

/-- The 32-bit pointer to the first region that fits is not `NULL`: the region
does not start at a multiple of 4 GiB. -/
def PointerNotNull (table : RegionTable) : PmmCall → Prop
  | .reserve _ _ => True
  | .allocate regionPageCount _ =>
      ∀ region ∈ firstFit table regionPageCount,
        region.addrStart % 2 ^ 32 ≠ 0

instance : (call : PmmCall) → Decidable call.InRange
  | .reserve .. => inferInstanceAs (Decidable (_ ∧ _))
  | .allocate .. => inferInstanceAs (Decidable (_ ∧ _))

instance (table : RegionTable) :
    (call : PmmCall) → Decidable (call.PointerNotNull table)
  | .reserve .. => inferInstanceAs (Decidable True)
  | .allocate .. => inferInstanceAs (Decidable (∀ region ∈ _, _))

end PmmCall

/-- Reservations and allocations in any order, each made with at most 1022
entries in the table and permitted in the state it is made in.  The list holds
the blocks that were carved out. -/
inductive PmmRun (permitted : RegionTable → PmmCall → Prop)
    (start : RegionTable) : RegionTable → List MemoryRegion → Prop where
  | refl : PmmRun permitted start start []
  | step {table after : RegionTable} {blocks : List MemoryRegion}
      {c : PmmCall}
      (head : PmmRun permitted start table blocks)
      (room : table.length ≤ 1022)
      (inRange : c.InRange)
      (allowed : permitted table c)
      (ran : c.run table = some after) :
      PmmRun permitted start after ((c.carved table).toList ++ blocks)

/-- What the table says after any number of calls: `entries` is the firmware
map it was read from, `blocks` what was carved out since. -/
structure AllocatorInvariant (entries : List FirmwareEntry)
    (table : RegionTable) (blocks : List MemoryRegion) : Prop where
  sorted : Sorted table
  nonempty : ∀ region ∈ table, region.addrStart ≠ region.addrEnd
  available : ∀ region ∈ table, region.type = .available →
    4096 ∣ region.addrStart ∧ 4096 ∣ region.addrEnd ∧
      region.addrStart < region.addrEnd
  separate : table.Pairwise fun a b =>
    a.type = .available ∨ b.type = .available → Disjoint a.bytes b.bytes
  availableBytes_eq : availableBytes table =
    wholePages entries \ {x | ∃ block ∈ blocks, x ∈ block.bytes}
  recorded : ∀ block ∈ blocks, block ∈ table

/-! ## One call -/

/-- What a reservation or allocation does to a table in order. -/
inductive CallEffect (table : RegionTable) (call : PmmCall) :
    RegionTable → Prop where
  | refused (nothing : call.carved table = none) : CallEffect table call table
  | carved {after : RegionTable} {block : MemoryRegion}
      (something : call.carved table = some block)
      (carves : Carves table block after)
      (taken : block.type ≠ .available)
      (alignedStart : 4096 ∣ block.addrStart)
      (alignedEnd : 4096 ∣ block.addrEnd) : CallEffect table call after

/-- A permitted call is refused without effect or carves one page-aligned block
out of the available memory. -/
theorem PmmCall.effect {table after : RegionTable} {call : PmmCall}
    (invariant : TableInvariant table)
    (bounded : ∀ region ∈ table, region.addrStart < region.addrEnd ∧
      region.addrEnd ≤ 2 ^ 52)
    (inRange : call.InRange) (allowed : call.PointerNotNull table)
    (ran : call.run table = some after) : CallEffect table call after := by
  cases call with
  | reserve start stop =>
      obtain ⟨proper, fits⟩ := inRange
      obtain ⟨_, _, alignedStart, alignedEnd⟩ := reserve_covers proper fits
      rcases pmmReserveMemoryRegion_spec invariant (reserve_proper proper fits)
        ran with ⟨nothing, rfl⟩ | ⟨block, something, carves⟩
      · exact .refused nothing
      · have shape := something
        simp only [reservedBlock, Option.map_eq_some_iff] at shape
        obtain ⟨_, _, rfl⟩ := shape
        exact .carved something carves (by simp) alignedStart alignedEnd
  | allocate regionPageCount type =>
      obtain ⟨positive, fits, kind⟩ := inRange
      have length := allocationLength_eq fits
      simp only [PmmCall.run, Option.map_eq_some_iff, Prod.exists] at ran
      obtain ⟨ret, _, allocated, rfl⟩ := ran
      rcases pmmAllocateRegionWithType_cases allocated with
        ⟨missing, _, rfl⟩ | ⟨region, block, chosen, something, step⟩
      · exact .refused (by simp [PmmCall.carved, allocatedBlock, missing])
      · obtain ⟨inside, holds⟩ := firstFit_mem chosen
        obtain ⟨_, available, _⟩ := fitsAllocation_iff.mp holds
        have bounds := bounded region inside
        have noWrap : region.addrStart + allocationLength regionPageCount <
            2 ^ 64 := by omega
        have aligned := invariant.aligned region inside available
        have notNull : ret ≠ 0 := by
          rw [step.ret_eq]
          exact allowed region chosen
        have carves := step.carves invariant (by omega) noWrap notNull
        refine .carved something carves ?_ ?_ ?_
        · rw [step.block_eq]
          rcases kind with rfl | rfl <;> simp
        · rw [step.block_eq]
          exact aligned.1
        · rw [step.block_eq]
          dsimp only
          rw [Nat.mod_eq_of_lt noWrap, length]
          exact Nat.dvd_add aligned.1 (Nat.dvd_mul_left _ _)

/-! ## The allocator invariant over a run -/

theorem AllocatorInvariant.tableInvariant {entries : List FirmwareEntry}
    {table : RegionTable} {blocks : List MemoryRegion}
    (invariant : AllocatorInvariant entries table blocks) :
    TableInvariant table where
  sorted := invariant.sorted
  nonempty := invariant.nonempty
  aligned := fun region inside available =>
    ⟨(invariant.available region inside available).1,
      (invariant.available region inside available).2.1⟩
  separate := invariant.separate

/-- The invariant a run carries: the blocks are recorded and taken, all bounds
are ordered and at most 2^52. -/
structure RunInvariant (entries : List FirmwareEntry) (table : RegionTable)
    (blocks : List MemoryRegion) : Prop where
  keeps : TableInvariant table
  bounded : ∀ region ∈ table, region.addrStart < region.addrEnd ∧
    region.addrEnd ≤ 2 ^ 52
  taken : ∀ block ∈ blocks, block.type ≠ .available
  availableBytes_eq : availableBytes table =
    wholePages entries \ {x | ∃ block ∈ blocks, x ∈ block.bytes}
  recorded : ∀ block ∈ blocks, block ∈ table

namespace RunInvariant

variable {entries : List FirmwareEntry} {table after : RegionTable}
  {blocks : List MemoryRegion}

/-- Reading a firmware map establishes the invariant. -/
theorem start (map : FirmwareMap entries)
    (added : pmmAddRegions [] entries = some table) :
    RunInvariant entries table [] where
  keeps := map.tableInvariant added
  bounded := map.table_bounds added
  taken := by simp
  availableBytes_eq := by simp [map.availableBytes_eq added]
  recorded := by simp

/-- Each call keeps the invariant. -/
theorem step {call : PmmCall} (invariant : RunInvariant entries table blocks)
    (effect : CallEffect table call after) :
    RunInvariant entries after ((call.carved table).toList ++ blocks) := by
  cases effect with
  | refused nothing => simpa [nothing] using invariant
  | @carved _ block something carves taken alignedStart alignedEnd =>
      simp only [something, Option.toList_some, List.singleton_append]
      refine ⟨carves.preserves_invariant invariant.keeps alignedStart alignedEnd,
        carves.bounded invariant.bounded, ?_, ?_, ?_⟩
      · intro entry inside
        rcases List.mem_cons.mp inside with rfl | inside
        · exact taken
        · exact invariant.taken entry inside
      · rw [carves.availableBytes_eq invariant.keeps taken,
          invariant.availableBytes_eq]
        ext x
        simp only [Set.mem_sdiff, Set.mem_ofPred_eq, List.mem_cons,
          exists_eq_or_imp, not_or]
        exact ⟨fun ⟨⟨whole, old⟩, new⟩ => ⟨whole, new, old⟩,
          fun ⟨whole, new, old⟩ => ⟨⟨whole, old⟩, new⟩⟩
      · intro entry inside
        rcases List.mem_cons.mp inside with rfl | inside
        · exact carves.records
        · exact carves.keeps (invariant.recorded entry inside)
            (invariant.taken entry inside)

theorem allocatorInvariant (invariant : RunInvariant entries table blocks) :
    AllocatorInvariant entries table blocks where
  sorted := invariant.keeps.sorted
  nonempty := invariant.keeps.nonempty
  available := fun region inside available =>
    ⟨(invariant.keeps.aligned region inside available).1,
      (invariant.keeps.aligned region inside available).2,
      (invariant.bounded region inside).1⟩
  separate := invariant.keeps.separate
  availableBytes_eq := invariant.availableBytes_eq
  recorded := invariant.recorded

end RunInvariant

theorem PmmRun.runInvariant {entries : List FirmwareEntry}
    {loaded table : RegionTable} {blocks : List MemoryRegion}
    (map : FirmwareMap entries) (added : pmmAddRegions [] entries = some loaded)
    (run : PmmRun (fun table call => call.PointerNotNull table) loaded table
      blocks) : RunInvariant entries table blocks := by
  induction run with
  | refl => exact RunInvariant.start map added
  | step head room inRange allowed ran inductionHypothesis =>
      exact inductionHypothesis.step (PmmCall.effect inductionHypothesis.keeps
        inductionHypothesis.bounded inRange allowed ran)

/-- In every run in which no allocation takes its block from a region that
starts at a multiple of 4 GiB, the table keeps the allocator invariant after
every call. -/
theorem pmmRun_keeps_allocatorInvariant {entries : List FirmwareEntry}
    {loaded table : RegionTable} {blocks : List MemoryRegion}
    (map : FirmwareMap entries) (added : pmmAddRegions [] entries = some loaded)
    (run : PmmRun (fun table call => call.PointerNotNull table) loaded table
      blocks) : AllocatorInvariant entries table blocks :=
  (run.runInvariant map added).allocatorInvariant

/-- A reservation and an allocation below 4 GiB. -/
theorem pmmRun_keeps_allocatorInvariant_low :
    AllocatorInvariant
      [⟨.available, 0x100000, 0x200000⟩, ⟨.reserved, 0x200000, 0x200800⟩]
      [⟨0x100000, 0x104000, .allocated⟩, ⟨0x104000, 0x106000, .kernel⟩,
        ⟨0x106000, 0x200000, .available⟩, ⟨0x200000, 0x201000, .reserved⟩]
      [⟨0x104000, 0x106000, .kernel⟩, ⟨0x100000, 0x104000, .allocated⟩] := by
  have map : FirmwareMap
      [⟨.available, 0x100000, 0x200000⟩, ⟨.reserved, 0x200000, 0x200800⟩] :=
    ⟨by decide, by decide, by simp [Set.Ico_disjoint_Ico], by decide⟩
  have reserved : PmmRun (fun table call => call.PointerNotNull table)
      [⟨0x100000, 0x200000, .available⟩, ⟨0x200000, 0x201000, .reserved⟩]
      [⟨0x100000, 0x104000, .allocated⟩, ⟨0x104000, 0x200000, .available⟩,
        ⟨0x200000, 0x201000, .reserved⟩]
      [⟨0x100000, 0x104000, .allocated⟩] :=
    PmmRun.refl.step (c := .reserve 0x100123 0x103456)
      (by decide) (by decide) (by decide) (by decide)
  exact pmmRun_keeps_allocatorInvariant map (by decide)
    (reserved.step (c := .allocate 2 .kernel)
      (by decide) (by decide) (by decide) (by decide))

/-- A block that starts at 4 GiB is recorded behind the rest of its region and
left there unsorted, because its 32-bit pointer reads as `NULL`. -/
theorem pmmRun_breaks_order :
    ¬ ∀ (entries : List FirmwareEntry) (loaded table : RegionTable)
      (blocks : List MemoryRegion), FirmwareMap entries →
      pmmAddRegions [] entries = some loaded →
      PmmRun (fun _ _ => True) loaded table blocks →
      AllocatorInvariant entries table blocks := by
  intro keeps
  have map : FirmwareMap [⟨.available, 0x100000000, 0x100004000⟩] :=
    ⟨by decide, by decide, by simp [Set.Ico_disjoint_Ico], by decide⟩
  have run : PmmRun (fun _ _ => True) [⟨0x100000000, 0x100004000, .available⟩]
      [⟨0x100001000, 0x100004000, .available⟩,
        ⟨0x100000000, 0x100001000, .allocated⟩]
      [⟨0x100000000, 0x100001000, .allocated⟩] :=
    PmmRun.refl.step (c := .allocate 1 .allocated)
      (by decide) (by decide) trivial (by decide)
  have invariant := keeps _ _ _ _ map (by decide) run
  exact absurd invariant.sorted (by decide)

/-! ## Reserved memory -/

/-- Further allocations, of any sizes and types. -/
inductive AllocationRun (start : RegionTable) : RegionTable → Prop where
  | refl : AllocationRun start start
  | step {table after : RegionTable} {regionPageCount ret : Nat}
      {type : MemoryRegionType}
      (head : AllocationRun start table)
      (ran : pmmAllocateRegionWithType table regionPageCount type =
        some (ret, after)) : AllocationRun start after

/-- Available regions lie below 2^52, so that no allocation wraps around the
64-bit bounds. -/
def AvailableBounded (table : RegionTable) : Prop :=
  ∀ region ∈ table, region.type = .available →
    region.addrStart ≤ 2 ^ 52 ∧ region.addrEnd ≤ 2 ^ 52

/-- Sorted or not, the table after an allocation has no entries but those that
there were, and parts of the region that the block was taken from. -/
theorem AllocationStep.origin {table after : RegionTable}
    {region block entry : MemoryRegion} {regionPageCount ret : Nat}
    {type : MemoryRegionType}
    (step : AllocationStep table regionPageCount type region block ret after)
    (noWrap : region.addrStart + allocationLength regionPageCount < 2 ^ 64)
    (member : entry ∈ after) :
    region.addrStart ≤ entry.addrStart ∧ entry.addrStart ≤ region.addrEnd ∧
        entry.addrEnd ≤ region.addrEnd ∨
      entry ∈ table := by
  obtain ⟨holds, rfl, retEq, before, behind, rfl, edit⟩ := step
  obtain ⟨_, _, fits⟩ := fitsAllocation_iff.mp holds
  rw [Nat.mod_eq_of_lt noWrap] at fits
  simp only [Nat.mod_eq_of_lt noWrap] at edit
  have listed : entry ∈ before ++
      { region with
        addrStart := region.addrStart + allocationLength regionPageCount } ::
      (behind ++ [{ addrStart := region.addrStart
                    addrEnd := region.addrStart +
                      allocationLength regionPageCount
                    type := type }]) := by
    rw [edit] at member
    split at member
    · exact mem_of_mem_pmmSortRegions member
    · exact member
  simp only [List.mem_append, List.mem_cons, List.not_mem_nil, or_false]
    at listed
  rcases listed with old | rfl | old | rfl
  · exact Or.inr (by simp [old])
  · exact Or.inl ⟨by simp, fits, Nat.le_refl _⟩
  · exact Or.inr (by simp [old])
  · exact Or.inl ⟨Nat.le_refl _, by dsimp only; omega, fits⟩

/-- Whatever is asked of it and however its table is ordered, an allocation
takes its block from the available memory and never adds to that memory. -/
theorem pmmAllocateRegionWithType_shrinks {table after : RegionTable}
    {regionPageCount ret : Nat} {type : MemoryRegionType}
    (bounded : AvailableBounded table)
    (ran : pmmAllocateRegionWithType table regionPageCount type =
      some (ret, after)) :
    AvailableBounded after ∧ availableBytes after ⊆ availableBytes table ∧
      ∀ block ∈ allocatedBlock table regionPageCount type,
        block.bytes ⊆ availableBytes table ∧ ret = block.addrStart % 2 ^ 32 ∧
          block.addrEnd = block.addrStart + allocationLength regionPageCount := by
  rcases pmmAllocateRegionWithType_cases ran with
    ⟨missing, _, rfl⟩ | ⟨region, block, chosen, something, step⟩
  · exact ⟨bounded, Set.Subset.rfl, by simp [allocatedBlock, missing]⟩
  · obtain ⟨inside, holds⟩ := firstFit_mem chosen
    obtain ⟨_, available, fits⟩ := fitsAllocation_iff.mp holds
    have bounds := bounded region inside available
    have short : allocationLength regionPageCount < 2 ^ 32 :=
      Nat.mod_lt _ (by decide)
    have noWrap : region.addrStart + allocationLength regionPageCount < 2 ^ 64 := by
      omega
    refine ⟨?_, ?_, ?_⟩
    · intro entry member isAvailable
      rcases step.origin noWrap member with within | old
      · omega
      · exact bounded entry old isAvailable
    · rintro x ⟨entry, member, isAvailable, inEntry⟩
      rw [MemoryRegion.mem_bytes] at inEntry
      rcases step.origin noWrap member with within | old
      · exact ⟨region, inside, available, by omega, by omega⟩
      · exact ⟨entry, old, isAvailable, inEntry⟩
    · intro other isBlock
      obtain rfl : block = other :=
        Option.some.inj (something.symm.trans isBlock)
      rw [Nat.mod_eq_of_lt noWrap] at fits
      rw [step.block_eq, Nat.mod_eq_of_lt noWrap]
      refine ⟨?_, step.ret_eq, rfl⟩
      intro x inBlock
      rw [MemoryRegion.mem_bytes] at inBlock
      dsimp only at inBlock
      exact ⟨region, inside, available, by omega, by omega⟩

theorem AllocationRun.shrinks {start table : RegionTable}
    (bounded : AvailableBounded start) (run : AllocationRun start table) :
    AvailableBounded table ∧ availableBytes table ⊆ availableBytes start := by
  induction run with
  | refl => exact ⟨bounded, Set.Subset.rfl⟩
  | step head ran inductionHypothesis =>
      have next := pmmAllocateRegionWithType_shrinks inductionHypothesis.1 ran
      exact ⟨next.1, next.2.1.trans inductionHypothesis.2⟩

/-- Once such a range has been reserved, none of its bytes is available, and the
available regions are still small. -/
theorem pmmReserveMemoryRegion_takes {entries : List FirmwareEntry}
    {loaded reserved : RegionTable} {start stop : Nat}
    (map : FirmwareMap entries) (added : pmmAddRegions [] entries = some loaded)
    (proper : start < stop) (fits : stop ≤ 0xFFFFF000)
    (within : (∃ region ∈ loaded, region.type = .available ∧
        region.addrStart ≤ start / 4096 * 4096 ∧
        (stop + 4095) / 4096 * 4096 ≤ region.addrEnd) ∨
      Disjoint (availableBytes loaded) (Set.Ico start stop))
    (ran : pmmReserveMemoryRegion loaded start stop = some reserved) :
    Disjoint (availableBytes reserved) (Set.Ico start stop) ∧
      AvailableBounded reserved := by
  have invariant := map.tableInvariant added
  have bounds := map.table_bounds added
  have covers := reserve_covers proper fits
  rcases pmmReserveMemoryRegion_spec invariant (reserve_proper proper fits) ran with
    ⟨nothing, rfl⟩ | ⟨block, something, carves⟩
  · constructor
    · apply within.resolve_left
      rintro ⟨region, inside, available, low, high⟩
      rw [← reserveStart_eq (show start < 2 ^ 32 by omega)] at low
      rw [← reserveEnd_eq fits] at high
      rw [reservedBlock, Option.map_eq_none_iff, List.find?_eq_none] at nothing
      exact nothing region inside (containsRange_iff.mpr ⟨low, high, available⟩)
    · intro region inside _
      have := bounds region inside
      omega
  · simp only [reservedBlock, Option.map_eq_some_iff] at something
    obtain ⟨_, _, rfl⟩ := something
    constructor
    · rw [carves.availableBytes_eq invariant (by simp), Set.disjoint_left]
      rintro x ⟨_, outside⟩ inRange
      rw [MemoryRegion.mem_bytes] at outside
      rw [Set.mem_Ico] at inRange
      dsimp only at outside
      omega
    · intro entry inside available
      rcases carves.origin inside with rfl | ⟨old, isOld, _, _, high, form⟩
      · simp at available
      · have := bounds old isOld
        rcases form with rfl | proper <;> omega

/-- After a range has been reserved whose page-rounded form lies in one
available region, or that met no available memory to begin with, none of its
bytes is available; so no later allocation records a block that meets it, and
none that lies below 4 GiB is returned there. -/
theorem pmmReserveMemoryRegion_protects {entries : List FirmwareEntry}
    {loaded reserved : RegionTable} {start stop : Nat}
    (map : FirmwareMap entries) (added : pmmAddRegions [] entries = some loaded)
    (proper : start < stop) (fits : stop ≤ 0xFFFFF000)
    (within : (∃ region ∈ loaded, region.type = .available ∧
        region.addrStart ≤ start / 4096 * 4096 ∧
        (stop + 4095) / 4096 * 4096 ≤ region.addrEnd) ∨
      Disjoint (availableBytes loaded) (Set.Ico start stop))
    (ran : pmmReserveMemoryRegion loaded start stop = some reserved) :
    Disjoint (availableBytes reserved) (Set.Ico start stop) ∧
      ∀ (table after : RegionTable) (regionPageCount ret : Nat)
        (type : MemoryRegionType) (block : MemoryRegion),
        AllocationRun reserved table →
        pmmAllocateRegionWithType table regionPageCount type =
          some (ret, after) →
        allocatedBlock table regionPageCount type = some block →
        Disjoint block.bytes (Set.Ico start stop) ∧
          (block.addrEnd ≤ 2 ^ 32 →
            Disjoint (Set.Ico ret (ret + allocationLength regionPageCount))
              (Set.Ico start stop)) := by
  have protects := pmmReserveMemoryRegion_takes map added proper fits within ran
  refine ⟨protects.1, ?_⟩
  intro table after regionPageCount ret type block later allocated recorded
  have run := later.shrinks protects.2
  have next := (pmmAllocateRegionWithType_shrinks run.1 allocated).2.2 block recorded
  have apart : Disjoint block.bytes (Set.Ico start stop) :=
    protects.1.mono_left (next.1.trans run.2)
  refine ⟨apart, ?_⟩
  intro low
  have short : allocationLength regionPageCount < 2 ^ 32 := Nat.mod_lt _ (by decide)
  by_cases empty : allocationLength regionPageCount = 0
  · simp [empty]
  · have pointer : ret = block.addrStart := by
      rw [next.2.1, Nat.mod_eq_of_lt (by omega)]
    rwa [pointer, ← next.2.2]

/-- Kickstart's image inside an available region. -/
theorem pmmReserveMemoryRegion_protects_image :
    Disjoint
        (availableBytes [⟨0x100000, 0x109000, .allocated⟩,
          ⟨0x109000, 0x200000, .available⟩])
        (Set.Ico 0x100000 0x108500) ∧
      ∀ (table after : RegionTable) (regionPageCount ret : Nat)
        (type : MemoryRegionType) (block : MemoryRegion),
        AllocationRun [⟨0x100000, 0x109000, .allocated⟩,
          ⟨0x109000, 0x200000, .available⟩] table →
        pmmAllocateRegionWithType table regionPageCount type =
          some (ret, after) →
        allocatedBlock table regionPageCount type = some block →
        Disjoint block.bytes (Set.Ico 0x100000 0x108500) ∧
          (block.addrEnd ≤ 2 ^ 32 →
            Disjoint (Set.Ico ret (ret + allocationLength regionPageCount))
              (Set.Ico 0x100000 0x108500)) :=
  pmmReserveMemoryRegion_protects
    (show FirmwareMap [⟨.available, 0x100000, 0x200000⟩] from
      ⟨by decide, by decide, by simp, by decide⟩)
    (show pmmAddRegions [] [⟨.available, 0x100000, 0x200000⟩] =
      some [⟨0x100000, 0x200000, .available⟩] from by decide)
    (by decide) (by decide)
    (Or.inl ⟨⟨0x100000, 0x200000, .available⟩, by decide⟩) (by decide)

/-- A range that reaches beyond the available memory is refused as a whole, so
that the part of it that was available stays available. -/
theorem pmmReserveMemoryRegion_refuses_partial :
    ¬ ∀ (entries : List FirmwareEntry) (loaded reserved : RegionTable)
      (start stop : Nat), FirmwareMap entries →
      pmmAddRegions [] entries = some loaded →
      start < stop → stop ≤ 0xFFFFF000 →
      pmmReserveMemoryRegion loaded start stop = some reserved →
      Disjoint (availableBytes reserved) (Set.Ico start stop) := by
  intro protects
  have map : FirmwareMap
      [⟨.available, 0x100000, 0x200000⟩, ⟨.reserved, 0x200000, 0x300000⟩] :=
    ⟨by decide, by decide, by simp [Set.Ico_disjoint_Ico], by decide⟩
  have apart := protects _
    [⟨0x100000, 0x200000, .available⟩, ⟨0x200000, 0x300000, .reserved⟩]
    [⟨0x100000, 0x200000, .available⟩, ⟨0x200000, 0x300000, .reserved⟩]
    0x180000 0x280000 map (by decide) (by decide) (by decide) (by decide)
  have stillAvailable : 0x180000 ∈ availableBytes
      [⟨0x100000, 0x200000, .available⟩, ⟨0x200000, 0x300000, .reserved⟩] :=
    ⟨⟨0x100000, 0x200000, .available⟩, by decide, rfl, by decide, by decide⟩
  exact Set.disjoint_left.mp apart stillAvailable ⟨by decide, by decide⟩

end SampoOS.Kickstart
