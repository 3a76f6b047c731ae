/-
Module: SampoOS.Handover.RegionSizes
Purpose: The sizes that the kernel computes from the table that Kickstart hands
  over: when none of its subtractions wraps around.
Trusted boundary: none
Main exports: AscendingMap, HasPageBoundary, EffectiveRun,
  HandoverInvariant, TrueSizes, handover_trueSizes_iff
-/
import Mathlib.Algebra.Order.BigOperators.Group.List
import SampoOS.Kickstart.PmmBounds
import SampoOS.Kernel.ManagerLayout

namespace SampoOS

open Kickstart Kernel

/-! ## The memory map -/

/-- A firmware memory map whose entries are non-empty, below 2^52 and in
ascending order, one behind the other. -/
structure AscendingMap (entries : List FirmwareEntry) : Prop where
  proper : ∀ entry ∈ entries, entry.start < entry.stop
  bounded : ∀ entry ∈ entries, entry.stop ≤ 2 ^ 52
  ascends : entries.Pairwise fun a b => a.stop ≤ b.start

/-- The entry contains a page boundary, so that rounding its ends inwards does
not move them past each other. -/
def HasPageBoundary (entry : FirmwareEntry) : Prop :=
  (entry.start + 4095) / 4096 ≤ entry.stop / 4096

instance (entry : FirmwareEntry) : Decidable (HasPageBoundary entry) :=
  inferInstanceAs (Decidable (_ ≤ _))

namespace AscendingMap

variable {entries : List FirmwareEntry} {table : RegionTable}

/-- Rounding keeps the order of the starts. -/
theorem rounded_start_le (map : AscendingMap entries) {a b : FirmwareEntry}
    (insideA : a ∈ entries) (insideB : b ∈ entries) (order : a.stop ≤ b.start)
    (available : b.type = .available) :
    a.rounded.addrStart ≤ b.rounded.addrStart := by
  have properA := map.proper a insideA
  have properB := map.proper b insideB
  have boundedB := map.bounded b insideB
  have startB : b.rounded.addrStart = (b.start + 4095) / 4096 * 4096 := by
    rw [FirmwareEntry.rounded, available,
      roundedRegion_available (by omega) boundedB]
  rw [startB]
  by_cases availableA : a.type = .available
  · rw [FirmwareEntry.rounded, availableA,
      roundedRegion_available (by omega) (by omega)]
    dsimp only
    omega
  · by_cases reservedA : a.type = .reserved
    · rw [FirmwareEntry.rounded, reservedA,
        roundedRegion_reserved (by omega) (by omega)]
      dsimp only
      omega
    · rw [FirmwareEntry.rounded, roundedRegion_other _ _ availableA reservedA]
      dsimp only
      omega

/-- Only available entries can be empty after rounding. -/
theorem available_of_isEmpty (map : AscendingMap entries) {entry : FirmwareEntry}
    (inside : entry ∈ entries)
    (improper : entry.rounded.addrEnd ≤ entry.rounded.addrStart) :
    entry.type = .available := by
  by_contra notAvailable
  have proper := map.proper entry inside
  have bounded := map.bounded entry inside
  by_cases reserved : entry.type = .reserved
  · rw [FirmwareEntry.rounded, reserved,
      roundedRegion_reserved (by omega) bounded] at improper
    dsimp only at improper
    omega
  · rw [FirmwareEntry.rounded, roundedRegion_other _ _ notAvailable reserved]
      at improper
    dsimp only at improper
    omega

/-- In ascending order no region is lost. -/
theorem sortSafe (map : AscendingMap entries) :
    SortSafe (entries.map FirmwareEntry.rounded) := by
  rw [SortSafe, BubbleSort.TombstonesOrdered, List.pairwise_map]
  apply map.ascends.imp_of_mem
  intro a b insideA insideB order _ empty
  have same := isEmpty_iff.mp empty
  exact map.rounded_start_le insideA insideB order
    (map.available_of_isEmpty insideB (Nat.le_of_eq same.symm))

theorem exact_table (map : AscendingMap entries)
    (added : pmmAddRegions [] entries = some table) :
    Exact (entries.map FirmwareEntry.rounded) table := by
  have exactIff := pmmAddRegions_exact_iff Exact.nil List.Pairwise.nil added
  rw [List.nil_append] at exactIff
  exact exactIff.mpr map.sortSafe

theorem mem_table (map : AscendingMap entries)
    (added : pmmAddRegions [] entries = some table) {region : MemoryRegion} :
    region ∈ table ↔ ∃ entry ∈ entries, entry.rounded = region ∧
      region.addrStart ≠ region.addrEnd :=
  FirmwareMap.mem_of_exact (map.exact_table added)

theorem tableInvariant (map : AscendingMap entries)
    (added : pmmAddRegions [] entries = some table) : TableInvariant table := by
  apply FirmwareMap.tableInvariant_of_exact (map.exact_table added) map.proper
    map.bounded
  apply map.ascends.imp
  intro a b order
  exact Set.Ico_disjoint_Ico.mpr (by omega)

end AscendingMap

/-! ## Calls that take effect -/

/-- The arguments fit `uintptr_t`, which has 32 bits. -/
def CallWords : PmmCall → Prop
  | .reserve start stop => start < 2 ^ 32 ∧ stop < 2 ^ 32
  | .allocate .. => True

instance : (call : PmmCall) → Decidable (CallWords call)
  | .reserve .. => inferInstanceAs (Decidable (_ ∧ _))
  | .allocate .. => inferInstanceAs (Decidable True)

/-- A block that the call carves out is not empty, and an allocation also
returns the pointer to it; a call may as well be refused. -/
def TakesEffect (table : RegionTable) (call : PmmCall) : Prop :=
  (∀ block ∈ call.carved table, block.addrStart < block.addrEnd) ∧
    call.PointerNotNull table

instance (table : RegionTable) (call : PmmCall) :
    Decidable (TakesEffect table call) :=
  inferInstanceAs (Decidable ((∀ block ∈ _, _) ∧ _))

/-- Reservations and allocations in any order that all take effect. -/
inductive EffectiveRun (start : RegionTable) : RegionTable → Prop where
  | refl : EffectiveRun start start
  | step {table after : RegionTable} {c : PmmCall}
      (head : EffectiveRun start table)
      (words : CallWords c)
      (effect : TakesEffect table c)
      (ran : c.run table = some after) : EffectiveRun start after

/-- What runs of such calls keep. -/
structure HandoverInvariant (table : RegionTable) : Prop where
  keeps : TableInvariant table
  bounded : ∀ region ∈ table, region.addrStart < region.addrEnd ∧
    region.addrEnd ≤ 2 ^ 52
  short : table.length ≤ memoryRegionsLength

/-- The bounds of a reservation are rounded to page boundaries. -/
theorem reserve_aligned {start : Nat} (word : start < 2 ^ 32) (stop : Nat) :
    4096 ∣ reserveStart start ∧ 4096 ∣ reserveEnd stop := by
  constructor
  · rw [reserveStart_eq word]
    exact Nat.dvd_mul_left _ _
  · rw [reserveEnd, and_pageOffset]
    split
    · have low : (stop + (2 ^ 12 - 1)) % 2 ^ 32 < 2 ^ 32 :=
        Nat.mod_lt _ (Nat.two_pow_pos 32)
      rw [BitFields.alignUp, BitFields.clearLow_eq (by decide) low]
      exact Nat.dvd_mul_left _ _
    · omega

/-- A reservation that finds no region to carve from leaves the table alone. -/
theorem pmmReserveMemoryRegion_refused {table : RegionTable} {start stop : Nat}
    (nothing : reservedBlock table start stop = none) :
    pmmReserveMemoryRegion table start stop = some table := by
  rw [reservedBlock, Option.map_eq_none_iff, List.find?_eq_none] at nothing
  have missing : table.findIdx?
      (containsRange (reserveStart start) (reserveEnd stop)) = none :=
    List.findIdx?_eq_none_iff.mpr fun region inside => by
      simpa using nothing region inside
  simp only [pmmReserveMemoryRegion, missing]

/-- A call that takes effect leaves the table alone, or carves one page-aligned
block out of it. -/
theorem carves_of_takesEffect {table after : RegionTable} {call : PmmCall}
    (invariant : HandoverInvariant table) (words : CallWords call)
    (effect : TakesEffect table call) (ran : call.run table = some after) :
    after = table ∨ ∃ block, Carves table block after ∧
      4096 ∣ block.addrStart ∧ 4096 ∣ block.addrEnd := by
  cases call with
  | reserve start stop =>
      have aligned := reserve_aligned words.1 stop
      have reserved : pmmReserveMemoryRegion table start stop = some after := ran
      cases something : reservedBlock table start stop with
      | none =>
          rw [pmmReserveMemoryRegion_refused something, Option.some.injEq]
            at reserved
          exact Or.inl reserved.symm
      | some block =>
          have shape := something
          simp only [reservedBlock, Option.map_eq_some_iff] at shape
          obtain ⟨_, _, rfl⟩ := shape
          have proper := effect.1 _ something
          rcases pmmReserveMemoryRegion_spec invariant.keeps proper reserved with
            ⟨_, same⟩ | ⟨carved, isCarved, carves⟩
          · exact Or.inl same
          · rw [something, Option.some.injEq] at isCarved
            subst isCarved
            exact Or.inr ⟨_, carves, aligned⟩
  | allocate regionPageCount type =>
      simp only [PmmCall.run, Option.map_eq_some_iff, Prod.exists] at ran
      obtain ⟨ret, _, allocated, rfl⟩ := ran
      rcases pmmAllocateRegionWithType_cases allocated with
        ⟨_, _, same⟩ | ⟨region, block, chosen, something, step⟩
      · exact Or.inl same
      · obtain ⟨inside, holds⟩ := firstFit_mem chosen
        obtain ⟨_, available, _⟩ := fitsAllocation_iff.mp holds
        have bounds := invariant.bounded region inside
        have short : allocationLength regionPageCount < 2 ^ 32 :=
          Nat.mod_lt _ (by decide)
        have noWrap : region.addrStart + allocationLength regionPageCount <
            2 ^ 64 := by omega
        have proper := effect.1 block something
        rw [step.block_eq, Nat.mod_eq_of_lt noWrap] at proper
        have notNull : ret ≠ 0 := by
          rw [step.ret_eq]
          exact effect.2 region chosen
        have aligned := invariant.keeps.aligned region inside available
        refine Or.inr ⟨block, step.carves invariant.keeps
          (by dsimp only at proper; omega) noWrap notNull, ?_, ?_⟩
        · rw [step.block_eq]
          exact aligned.1
        · have whole : 4096 ∣ allocationLength regionPageCount := by
            rw [allocationLength]
            omega
          rw [step.block_eq, Nat.mod_eq_of_lt noWrap]
          exact Nat.dvd_add aligned.1 whole

namespace HandoverInvariant

variable {table after : RegionTable}

theorem step {call : PmmCall} (invariant : HandoverInvariant table)
    (words : CallWords call) (effect : TakesEffect table call)
    (ran : call.run table = some after) : HandoverInvariant after := by
  have short : after.length ≤ memoryRegionsLength := by
    cases call with
    | reserve start stop =>
        exact length_le_of_pmmReserveMemoryRegion invariant.short ran
    | allocate regionPageCount type =>
        obtain ⟨⟨ret, _⟩, allocated, rfl⟩ := Option.map_eq_some_iff.mp ran
        exact length_le_of_pmmAllocateRegionWithType invariant.short allocated
  rcases carves_of_takesEffect invariant words effect ran with
    rfl | ⟨block, carves, alignedStart, alignedEnd⟩
  · exact invariant
  · exact ⟨carves.preserves_invariant invariant.keeps alignedStart alignedEnd,
      carves.bounded invariant.bounded, short⟩

theorem of_run {start : RegionTable} (invariant : HandoverInvariant start)
    (run : EffectiveRun start table) : HandoverInvariant table := by
  induction run with
  | refl => exact invariant
  | step head words effect ran inductionHypothesis =>
      exact inductionHypothesis.step words effect ran

theorem bootTable (invariant : HandoverInvariant table) : BootTable table where
  words := fun region inside => by
    have bounds := invariant.bounded region inside
    omega
  array := by
    have short := invariant.short
    rw [memoryRegionsLength] at short
    omega

end HandoverInvariant

/-! ## The sizes that the kernel computes -/

/-- The pages of a combined region, as many as there really are, rounded up to a
multiple of 8; regions of other types have no bits. -/
def trueBits (group : CombinedRegion) : Nat :=
  if combinable group.region then
    ((group.stop - group.region.addrStart) / 4096 + 7) / 8 * 8
  else 0

/-- The table has no region that ends where it starts or before, no combined
region does either, and the first pass of the kernel counts the true number of
bits. -/
structure TrueSizes (table : RegionTable) : Prop where
  proper : ∀ region ∈ table,
    region.type = .available ∨ region.type = .allocated ∨ region.type = .kernel →
      region.addrStart < region.addrEnd
  noWrap : ∀ group ∈ combinedRegions 0 table, combinable group.region = true →
    group.region.addrStart ≤ group.stop
  bits : (regionCounts table).bitmapBitCount =
    ((combinedRegions 0 table).map trueBits).sum

namespace HandoverInvariant

variable {table : RegionTable}

/-- A combined region does not wrap around, and ends at or below 2^52. -/
theorem group_bounds (invariant : HandoverInvariant table) :
    ∀ group ∈ combinedRegions 0 table, combinable group.region = true →
      group.region.addrStart ≤ group.stop ∧ group.stop ≤ 2 ^ 52 := by
  intro group inside isCombinable
  constructor
  · exact (grouped table).start_le_stop (fun region isRegion _ =>
      Nat.le_of_lt (invariant.bounded region isRegion).1) group inside isCombinable
  · apply ((grouped table).bounds (P := (· ≤ 2 ^ 52)) ?_ group inside
      isCombinable).2
    intro region isRegion _
    have bounds := invariant.bounded region isRegion
    omega

theorem bits_eq (invariant : HandoverInvariant table) {group : CombinedRegion}
    (inside : group ∈ combinedRegions 0 table) :
    group.bits = trueBits group ∧ trueBits group ≤ 2 ^ 41 := by
  rw [CombinedRegion.bits, trueBits]
  split
  next isCombinable =>
    obtain ⟨order, limit⟩ := invariant.group_bounds group inside isCombinable
    have roundUp : BitFields.clearLow 64 3
        (((group.stop - group.region.addrStart) / 4096 + 7) % 2 ^ 64) =
        ((group.stop - group.region.addrStart) / 4096 + 7) / 8 * 8 := by
      rw [Nat.mod_eq_of_lt (by omega),
        BitFields.clearLow_eq (by decide) (by omega)]
      omega
    rw [bitmapBits, sub64_eq order (by omega), pageSize, roundUp]
    omega
  next => exact ⟨rfl, by decide⟩

theorem sum_trueBits_lt (invariant : HandoverInvariant table) :
    ((combinedRegions 0 table).map trueBits).sum < 2 ^ 64 := by
  have each : ∀ count ∈ (combinedRegions 0 table).map trueBits,
      count ≤ 2 ^ 41 := by
    intro count isCount
    obtain ⟨group, inside, rfl⟩ := List.mem_map.mp isCount
    exact (invariant.bits_eq inside).2
  have total := List.sum_le_card_nsmul _ _ each
  have groups := (grouped table).length_le
  have short := invariant.short
  rw [memoryRegionsLength] at short
  rw [List.length_map, Nat.nsmul_eq_mul] at total
  omega

theorem trueSizes (invariant : HandoverInvariant table) : TrueSizes table where
  proper := fun region inside _ => (invariant.bounded region inside).1
  noWrap := fun group inside isCombinable =>
    (invariant.group_bounds group inside isCombinable).1
  bits := by
    rw [invariant.bootTable.regionCounts_eq,
      List.map_congr_left fun group inside => (invariant.bits_eq inside).1]
    exact Nat.mod_eq_of_lt invariant.sum_trueBits_lt

end HandoverInvariant

/-- Reading a memory map in which every available entry contains a page boundary
establishes the invariant. -/
theorem AscendingMap.handoverInvariant {entries : List FirmwareEntry}
    {table : RegionTable} (map : AscendingMap entries)
    (added : pmmAddRegions [] entries = some table)
    (boundaries : ∀ entry ∈ entries, entry.type = .available →
      HasPageBoundary entry) : HandoverInvariant table where
  keeps := map.tableInvariant added
  bounded := by
    intro region inside
    obtain ⟨entry, member, rfl, nonempty⟩ := (map.mem_table added).mp inside
    have proper := map.proper entry member
    have bounded := map.bounded entry member
    refine ⟨?_, FirmwareEntry.rounded_bounded proper bounded⟩
    by_contra improper
    have available := map.available_of_isEmpty member (Nat.le_of_not_lt improper)
    have boundary := boundaries entry member available
    rw [HasPageBoundary] at boundary
    rw [FirmwareEntry.rounded, available,
      roundedRegion_available (by omega) bounded] at improper nonempty
    dsimp only at improper nonempty
    omega
  short := length_le_of_pmmAddRegions (Nat.zero_le _) added

/-- For every ascending memory map, the kernel computes the true sizes of what
Kickstart hands over after any calls that take effect, if and only if every
available entry contains a page boundary. -/
theorem handover_trueSizes_iff {entries : List FirmwareEntry}
    {loaded : RegionTable} (map : AscendingMap entries)
    (added : pmmAddRegions [] entries = some loaded) :
    (∀ table, EffectiveRun loaded table → TrueSizes table) ↔
      ∀ entry ∈ entries, entry.type = .available → HasPageBoundary entry := by
  constructor
  · intro sizes entry inside available
    by_contra noBoundary
    have proper := map.proper entry inside
    have bounded := map.bounded entry inside
    rw [HasPageBoundary] at noBoundary
    have rounded : entry.rounded =
        { addrStart := (entry.start + 4095) / 4096 * 4096
          addrEnd := entry.stop / 4096 * 4096
          type := .available } := by
      rw [FirmwareEntry.rounded, available,
        roundedRegion_available (by omega) bounded]
    have handed : entry.rounded ∈ loaded := by
      refine (map.mem_table added).mpr ⟨entry, inside, rfl, ?_⟩
      rw [rounded]
      dsimp only
      omega
    have swapped := (sizes loaded .refl).proper entry.rounded handed
      (by rw [rounded]; exact Or.inl rfl)
    rw [rounded] at swapped
    dsimp only at swapped
    omega
  · intro boundaries table run
    exact ((map.handoverInvariant added boundaries).of_run run).trueSizes

/-- Memory below and above 1 MiB, after an allocation. -/
theorem handover_trueSizes_two :
    (∀ table, EffectiveRun
        [⟨0x1000, 0x9F000, .available⟩, ⟨0x9F800, 0xA0000, .nvs⟩,
          ⟨0x100000, 0x800000, .available⟩] table → TrueSizes table) ↔
      ∀ entry ∈ [(⟨.available, 0x800, 0x9F800⟩ : FirmwareEntry),
          ⟨.nvs, 0x9F800, 0xA0000⟩, ⟨.available, 0x100000, 0x800000⟩],
        entry.type = .available → HasPageBoundary entry :=
  handover_trueSizes_iff
    (show AscendingMap [⟨.available, 0x800, 0x9F800⟩, ⟨.nvs, 0x9F800, 0xA0000⟩,
        ⟨.available, 0x100000, 0x800000⟩] from
      ⟨by decide, by decide, by decide⟩)
    (by decide)

/-- 256 available bytes inside one page become a region from 4 KiB to 0, whose
pages the kernel counts as almost all of the 64-bit address space. -/
theorem handover_wraps_around :
    ¬ ∀ (entries : List FirmwareEntry) (loaded table : RegionTable),
      AscendingMap entries → pmmAddRegions [] entries = some loaded →
      EffectiveRun loaded table → TrueSizes table := by
  intro sizes
  have swapped := sizes [⟨.available, 0x100, 0x200⟩] [⟨0x1000, 0, .available⟩]
    [⟨0x1000, 0, .available⟩] ⟨by decide, by decide, by decide⟩ (by decide)
    .refl
  exact absurd swapped.proper (by decide)

end SampoOS
