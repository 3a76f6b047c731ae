/-
Module: SampoOS.Kickstart.MemoryMap
Purpose: Reading the firmware memory map into the region table: which regions
  survive, and what the table then says about the firmware's entries.
Trusted boundary: none
Main exports: FirmwareEntry, pmmAddRegions, Exact,
  pmmAddRegions_exact_iff_sortSafe, FirmwareMap, wholePages,
  FirmwareMap.tableInvariant, FirmwareMap.availableBytes_eq
-/
import SampoOS.Kickstart.PmmSpec

namespace SampoOS.Kickstart

open BubbleSort (live)

/-- One `pmm_add_region(type, start, end)` call made while the memory map is
read. -/
structure FirmwareEntry where
  type : MemoryRegionType
  start : Nat
  stop : Nat
deriving Repr, DecidableEq

/-- The region that the call records. -/
def FirmwareEntry.rounded (entry : FirmwareEntry) : MemoryRegion :=
  roundedRegion entry.type entry.start entry.stop

/-- The calls of `pmm_add_region` in the order of the memory map. -/
def pmmAddRegions (table : RegionTable) (entries : List FirmwareEntry) :
    Option RegionTable :=
  entries.foldlM
    (fun table entry => pmmAddRegion table entry.type entry.start entry.stop)
    table

theorem pmmAddRegions_cons (table : RegionTable) (entry : FirmwareEntry)
    (rest : List FirmwareEntry) :
    pmmAddRegions table (entry :: rest) =
      (pmmAddRegion table entry.type entry.start entry.stop).bind
        fun table => pmmAddRegions table rest := by
  simp [pmmAddRegions]

theorem pmmAddRegions_append (table : RegionTable)
    (front back : List FirmwareEntry) :
    pmmAddRegions table (front ++ back) =
      (pmmAddRegions table front).bind fun table => pmmAddRegions table back :=
  List.foldlM_append

theorem pmmAddRegion_eq_some {table after : RegionTable}
    {entry : FirmwareEntry} :
    pmmAddRegion table entry.type entry.start entry.stop = some after ↔
      table.length < memoryRegionsLength ∧
        after = pmmSortRegions (table ++ [entry.rounded]) := by
  simp only [pmmAddRegion, Option.bind_eq_bind, Option.bind_eq_some_iff,
    pushRegion_eq_some, Option.pure_def, Option.some.injEq,
    FirmwareEntry.rounded]
  constructor
  · rintro ⟨_, ⟨room, rfl⟩, rfl⟩
    exact ⟨room, rfl⟩
  · rintro ⟨room, rfl⟩
    exact ⟨_, ⟨room, rfl⟩, rfl⟩

/-! ## Which regions survive -/

/-- The table holds exactly the non-empty ones of the given regions, sorted. -/
structure Exact (regions : List MemoryRegion) (table : RegionTable) :
    Prop where
  sorted : Sorted table
  perm : table.Perm (live isEmpty regions)

/-- The number of regions that are not empty. -/
def liveCount (regions : List MemoryRegion) : Nat :=
  (live isEmpty regions).length

theorem liveCount_append (front back : List MemoryRegion) :
    liveCount (front ++ back) = liveCount front + liveCount back := by
  rw [liveCount, BubbleSort.live_append, List.length_append]
  rfl

theorem liveCount_le_of_sublist {regions regions' : List MemoryRegion}
    (sublist : regions.Sublist regions') : liveCount regions ≤ liveCount regions' :=
  (sublist.filter _).length_le

theorem liveCount_perm {regions regions' : List MemoryRegion}
    (perm : regions.Perm regions') : liveCount regions = liveCount regions' :=
  (perm.filter _).length_eq

namespace Exact

theorem nil : Exact [] [] := ⟨List.Pairwise.nil, List.Perm.nil⟩

variable {regions : List MemoryRegion} {table : RegionTable}

theorem nonempty (exact : Exact regions table) :
    ∀ region ∈ table, isEmpty region = false := by
  intro region inside
  have kept := exact.perm.mem_iff.mp inside
  simpa [live] using (List.mem_filter.mp kept).2

theorem liveCount_eq (exact : Exact regions table) :
    liveCount table = liveCount regions := by
  rw [liveCount, BubbleSort.live_eq_self exact.nonempty, exact.perm.length_eq]
  rfl

/-- Adding a region to an exact table keeps it exact, unless the region is
empty and starts before a non-empty one. -/
theorem pmmSortRegions_append (exact : Exact regions table)
    {region : MemoryRegion} (safe : SortSafe (regions ++ [region])) :
    Exact (regions ++ [region]) (pmmSortRegions (table ++ [region])) := by
  have tableSafe : SortSafe (table ++ [region]) := by
    rw [SortSafe, BubbleSort.TombstonesOrdered, List.pairwise_append]
    refine ⟨sortSafe_of_nonempty exact.nonempty, List.pairwise_singleton _ _, ?_⟩
    intro a insideA b insideB liveA emptyB
    have original := List.mem_of_mem_filter (exact.perm.mem_iff.mp insideA)
    exact (List.pairwise_append.mp safe).2.2 a original b insideB liveA emptyB
  have settled := pmmSortRegions_settles tableSafe
  refine ⟨settled.sorted, settled.perm.trans ?_⟩
  rw [BubbleSort.live_append, BubbleSort.live_append,
    BubbleSort.live_eq_self exact.nonempty]
  exact exact.perm.append_right _

/-- An empty region that starts before a non-empty one costs the table its last
region. -/
theorem pmmSortRegions_loses (exact : Exact regions table)
    {region : MemoryRegion} (empty : isEmpty region = true)
    (stranded : ∃ other ∈ table, region.addrStart < other.addrStart) :
    liveCount (pmmSortRegions (table ++ [region])) + 1 = liveCount table := by
  obtain ⟨other, inside, larger⟩ := stranded
  obtain ⟨front, last, rfl⟩ : ∃ front last, table = front ++ [last] :=
    ⟨_, _, (List.dropLast_append_getLast (List.ne_nil_of_mem inside)).symm⟩
  have largest : region.addrStart < last.addrStart := by
    rcases List.mem_append.mp inside with inFront | isLast
    · exact Nat.lt_of_lt_of_le larger
        ((List.pairwise_append.mp exact.sorted).2.2 other inFront last (by simp))
    · rwa [← List.mem_singleton.mp isLast]
  obtain ⟨rest, sorted, perm⟩ := BubbleSort.bubbleSort_strands_tombstone
    (e := region) exact.nonempty exact.sorted largest
  have counted : (front ++ [last] ++ [region]).countP isEmpty = 1 := by
    rw [List.countP_append, List.countP_eq_zero.mpr fun entry member => by
      simp [exact.nonempty entry member], List.countP_singleton, if_pos empty]
  have restLength : rest.length = front.length + 1 := by
    simpa using perm.length_eq
  have kept : pmmSortRegions (front ++ [last] ++ [region]) = rest := by
    rw [pmmSortRegions, counted, sortExchanges_eq, sorted]
    exact List.take_left' (by simp [restLength])
  have frontLive : liveCount (front ++ [last]) = front.length + 1 := by
    rw [liveCount, BubbleSort.live_eq_self exact.nonempty]
    simp
  have regionDead : liveCount [region] = 0 := by
    simp [liveCount, live, empty]
  have lastLive : liveCount [last] = 1 := by
    simp [liveCount, live, exact.nonempty last (by simp)]
  rw [liveCount_append, lastLive] at frontLive
  rw [kept, liveCount_perm perm, liveCount_append, liveCount_append,
    regionDead, lastLive]

end Exact

/-- Sorting never gains a region. -/
theorem liveCount_pmmSortRegions_le (table : RegionTable) :
    liveCount (pmmSortRegions table) ≤ liveCount table := by
  exact Nat.le_trans (liveCount_le_of_sublist (List.take_sublist _ _))
    (Nat.le_of_eq (liveCount_perm (BubbleSort.bubbleSort_perm table)))

/-- Reading further entries gains at most their non-empty regions. -/
theorem liveCount_pmmAddRegions_le {entries : List FirmwareEntry} :
    ∀ {table after : RegionTable}, pmmAddRegions table entries = some after →
      liveCount after ≤
        liveCount table + liveCount (entries.map FirmwareEntry.rounded) := by
  induction entries with
  | nil =>
      intro table after added
      simp only [pmmAddRegions, List.foldlM_nil, Option.pure_def,
        Option.some.injEq] at added
      simp [added, liveCount, live]
  | cons entry rest inductionHypothesis =>
      intro table after added
      rw [pmmAddRegions_cons, Option.bind_eq_some_iff] at added
      obtain ⟨next, first, added⟩ := added
      obtain ⟨_, rfl⟩ := pmmAddRegion_eq_some.mp first
      have tail := inductionHypothesis added
      have head := liveCount_pmmSortRegions_le (table ++ [entry.rounded])
      have mapped : liveCount ((entry :: rest).map FirmwareEntry.rounded) =
          liveCount [entry.rounded] + liveCount (rest.map FirmwareEntry.rounded) := by
        rw [← liveCount_append]
        rfl
      rw [liveCount_append] at head
      omega

/-- Starting from an exact table for the entries read so far, reading the rest
is exact if and only if no empty region is added after a non-empty one that
starts later. -/
theorem pmmAddRegions_exact_iff {entries : List FirmwareEntry} :
    ∀ {regions : List MemoryRegion} {table after : RegionTable},
      Exact regions table → SortSafe regions →
      pmmAddRegions table entries = some after →
      (Exact (regions ++ entries.map FirmwareEntry.rounded) after ↔
        SortSafe (regions ++ entries.map FirmwareEntry.rounded)) := by
  induction entries with
  | nil =>
      intro regions table after exact safe added
      simp only [pmmAddRegions, List.foldlM_nil, Option.pure_def,
        Option.some.injEq] at added
      subst added
      simpa using iff_of_true exact safe
  | cons entry rest inductionHypothesis =>
      intro regions table after exact safe added
      rw [pmmAddRegions_cons, Option.bind_eq_some_iff] at added
      obtain ⟨next, first, added⟩ := added
      obtain ⟨_, rfl⟩ := pmmAddRegion_eq_some.mp first
      by_cases safeNext : SortSafe (regions ++ [entry.rounded])
      · have tail := inductionHypothesis
          (exact.pmmSortRegions_append safeNext) safeNext added
        simpa using tail
      · -- The new region is lost space: the table never recovers the region
        -- that is dropped in its place.
        rw [SortSafe, BubbleSort.TombstonesOrdered, List.pairwise_append] at safeNext
        have stranded : isEmpty entry.rounded = true ∧
            ∃ other ∈ table, entry.rounded.addrStart < other.addrStart := by
          by_contra harmless
          apply safeNext
          refine ⟨safe, List.pairwise_singleton _ _, ?_⟩
          intro other inside region isRegion liveOther empty
          obtain rfl := List.mem_singleton.mp isRegion
          by_contra larger
          exact harmless ⟨empty, other, exact.perm.mem_iff.mpr
            (List.mem_filter.mpr ⟨inside, by simp [liveOther]⟩), by omega⟩
        have lost := exact.pmmSortRegions_loses stranded.1 stranded.2
        have gained := liveCount_pmmAddRegions_le added
        have before := exact.liveCount_eq
        have mapped : liveCount
            (regions ++ (entry :: rest).map FirmwareEntry.rounded) =
            liveCount regions + (liveCount [entry.rounded] +
              liveCount (rest.map FirmwareEntry.rounded)) := by
          rw [← liveCount_append, ← liveCount_append]
          rfl
        constructor
        · intro final
          have after := final.liveCount_eq
          omega
        · intro safeAll
          refine absurd ?_ safeNext
          rw [← List.pairwise_append]
          apply List.Pairwise.sublist _ safeAll
          exact List.Sublist.append_left (by simp) regions

/-- Reading fits the array while there are not more entries than free slots. -/
theorem pmmAddRegions_isSome {entries : List FirmwareEntry} :
    ∀ {table : RegionTable},
      table.length + entries.length ≤ memoryRegionsLength →
      ∃ after, pmmAddRegions table entries = some after := by
  induction entries with
  | nil => exact fun _ => ⟨_, rfl⟩
  | cons entry rest inductionHypothesis =>
      intro table room
      rw [List.length_cons] at room
      have sortedLength :
          (pmmSortRegions (table ++ [entry.rounded])).length ≤ table.length + 1 := by
        rw [pmmSortRegions, List.length_take,
          (BubbleSort.bubbleSort_perm _).length_eq, List.length_append,
          List.length_singleton]
        omega
      obtain ⟨after, added⟩ := inductionHypothesis
        (show (pmmSortRegions (table ++ [entry.rounded])).length + rest.length ≤
          memoryRegionsLength by omega)
      refine ⟨after, ?_⟩
      rw [pmmAddRegions_cons, pmmAddRegion_eq_some.mpr ⟨by omega, rfl⟩]
      exact added

/-- Reading a memory map of at most 1024 entries into the empty table leaves
exactly the non-empty rounded regions, sorted, if and only if no entry that is
empty after rounding follows a non-empty one that starts later. -/
theorem pmmAddRegions_exact_iff_sortSafe (entries : List FirmwareEntry)
    (room : entries.length ≤ memoryRegionsLength) :
    ∃ table, pmmAddRegions [] entries = some table ∧
      (Exact (entries.map FirmwareEntry.rounded) table ↔
        SortSafe (entries.map FirmwareEntry.rounded)) := by
  obtain ⟨table, added⟩ := pmmAddRegions_isSome
    (show ([] : RegionTable).length + entries.length ≤ memoryRegionsLength by
      simpa using room)
  exact ⟨table, added, pmmAddRegions_exact_iff Exact.nil List.Pairwise.nil added⟩

/-- A short map: every region of it survives. -/
theorem pmmAddRegions_exact_short :
    ∃ table,
      pmmAddRegions []
          [⟨.available, 0x800, 0x1800⟩, ⟨.available, 0x100000, 0x200000⟩] =
        some table ∧
      (Exact [⟨0x1000, 0x1000, .available⟩, ⟨0x100000, 0x200000, .available⟩]
          table ↔
        SortSafe
          [⟨0x1000, 0x1000, .available⟩, ⟨0x100000, 0x200000, .available⟩]) :=
  pmmAddRegions_exact_iff_sortSafe
    [⟨.available, 0x800, 0x1800⟩, ⟨.available, 0x100000, 0x200000⟩] (by decide)

/-- In the other order the second of these entries is empty after rounding and
starts before the first one, which the sort then drops. -/
theorem pmmAddRegions_loses_region :
    ¬ ∀ entries : List FirmwareEntry, entries.length ≤ memoryRegionsLength →
      (∀ entry ∈ entries, entry.start ≤ entry.stop ∧ entry.stop ≤ 2 ^ 52) →
      ∃ table, pmmAddRegions [] entries = some table ∧
        Exact (entries.map FirmwareEntry.rounded) table := by
  intro keeps
  obtain ⟨table, added, exact⟩ := keeps
    [⟨.available, 0x100000, 0x200000⟩, ⟨.available, 0x800, 0x1800⟩]
    (by decide) (by decide)
  have computed : pmmAddRegions []
      [⟨.available, 0x100000, 0x200000⟩, ⟨.available, 0x800, 0x1800⟩] =
      some [⟨0x1000, 0x1000, .available⟩] := by decide
  rw [computed, Option.some.injEq] at added
  subst added
  exact absurd (exact.nonempty ⟨0x1000, 0x1000, .available⟩ (by simp))
    (by decide)

/-! ## What a firmware map becomes -/

/-- A firmware memory map whose entries are non-empty, pairwise disjoint and
below 2^52, and stay non-empty when they are rounded. -/
structure FirmwareMap (entries : List FirmwareEntry) : Prop where
  proper : ∀ entry ∈ entries, entry.start < entry.stop
  bounded : ∀ entry ∈ entries, entry.stop ≤ 2 ^ 52
  apart : entries.Pairwise fun a b =>
    Disjoint (Set.Ico a.start a.stop) (Set.Ico b.start b.stop)
  roundedProper : ∀ entry ∈ entries,
    entry.rounded.addrStart < entry.rounded.addrEnd

/-- The bytes whose whole page lies inside an available entry. -/
def wholePages (entries : List FirmwareEntry) : Set Nat :=
  {x | ∃ entry ∈ entries, entry.type = .available ∧
    entry.start ≤ x / 4096 * 4096 ∧ x / 4096 * 4096 + 4096 ≤ entry.stop}

namespace FirmwareEntry

variable {entry : FirmwareEntry}

/-- Rounding inwards keeps the whole pages of an available entry. -/
theorem mem_rounded_available (proper : entry.start < entry.stop)
    (bounded : entry.stop ≤ 2 ^ 52) (available : entry.type = .available)
    (x : Nat) :
    x ∈ entry.rounded.bytes ↔
      entry.start ≤ x / 4096 * 4096 ∧ x / 4096 * 4096 + 4096 ≤ entry.stop := by
  rw [rounded, available, roundedRegion_available (by omega) bounded,
    MemoryRegion.mem_bytes]
  dsimp only
  omega

theorem rounded_available_aligned (proper : entry.start < entry.stop)
    (bounded : entry.stop ≤ 2 ^ 52) (available : entry.type = .available) :
    4096 ∣ entry.rounded.addrStart ∧ 4096 ∣ entry.rounded.addrEnd := by
  rw [rounded, available, roundedRegion_available (by omega) bounded]
  exact ⟨Nat.dvd_mul_left _ _, Nat.dvd_mul_left _ _⟩

/-- Whatever its type, every page of a rounded entry contains a byte of the
entry itself. -/
theorem exists_mem_page (proper : entry.start < entry.stop)
    (bounded : entry.stop ≤ 2 ^ 52) {x : Nat} (inside : x ∈ entry.rounded.bytes) :
    ∃ y ∈ Set.Ico entry.start entry.stop, y / 4096 = x / 4096 := by
  by_cases available : entry.type = .available
  · have whole := (mem_rounded_available proper bounded available x).mp inside
    exact ⟨x, ⟨by omega, by omega⟩, rfl⟩
  · by_cases reserved : entry.type = .reserved
    · rw [rounded, reserved, roundedRegion_reserved (by omega) bounded,
        MemoryRegion.mem_bytes] at inside
      dsimp only at inside
      by_cases low : x < entry.start
      · exact ⟨entry.start, ⟨by omega, by omega⟩, by omega⟩
      · by_cases high : entry.stop ≤ x
        · exact ⟨entry.stop - 1, ⟨by omega, by omega⟩, by omega⟩
        · exact ⟨x, ⟨by omega, by omega⟩, rfl⟩
    · rw [rounded, roundedRegion_other _ _ available reserved,
        MemoryRegion.mem_bytes] at inside
      exact ⟨x, inside, rfl⟩

/-- Bounds stay below 2^52. -/
theorem rounded_bounded (proper : entry.start < entry.stop)
    (bounded : entry.stop ≤ 2 ^ 52) : entry.rounded.addrEnd ≤ 2 ^ 52 := by
  by_cases available : entry.type = .available
  · rw [rounded, available, roundedRegion_available (by omega) bounded]
    dsimp only
    omega
  · by_cases reserved : entry.type = .reserved
    · rw [rounded, reserved, roundedRegion_reserved (by omega) bounded]
      dsimp only
      omega
    · rw [rounded, roundedRegion_other _ _ available reserved]
      exact bounded

end FirmwareEntry

namespace FirmwareMap

variable {entries : List FirmwareEntry} {table : RegionTable}

/-- Available memory is rounded inwards and everything else at most outwards to
whole pages, so disjoint entries stay apart where one of them is available. -/
theorem separate_rounded {a b : FirmwareEntry} (properA : a.start < a.stop)
    (boundedA : a.stop ≤ 2 ^ 52) (properB : b.start < b.stop)
    (boundedB : b.stop ≤ 2 ^ 52)
    (apart : Disjoint (Set.Ico a.start a.stop) (Set.Ico b.start b.stop)) :
    Separate a.rounded b.rounded := by
  intro available
  rw [MemoryRegion.apart_iff]
  intro x insideA insideB
  rcases available with availableA | availableB
  · have whole := (FirmwareEntry.mem_rounded_available properA boundedA
      availableA x).mp insideA
    obtain ⟨y, inB, page⟩ := FirmwareEntry.exists_mem_page properB boundedB insideB
    exact Set.disjoint_left.mp apart (show y ∈ Set.Ico a.start a.stop from
      ⟨by omega, by omega⟩) inB
  · have whole := (FirmwareEntry.mem_rounded_available properB boundedB
      availableB x).mp insideB
    obtain ⟨y, inA, page⟩ := FirmwareEntry.exists_mem_page properA boundedA insideA
    exact Set.disjoint_left.mp apart inA (show y ∈ Set.Ico b.start b.stop from
      ⟨by omega, by omega⟩)

/-- A table that was read without a loss holds the entries that are not empty
once they are rounded. -/
theorem mem_of_exact (exact : Exact (entries.map FirmwareEntry.rounded) table)
    {region : MemoryRegion} :
    region ∈ table ↔ ∃ entry ∈ entries, entry.rounded = region ∧
      region.addrStart ≠ region.addrEnd := by
  rw [exact.perm.mem_iff, BubbleSort.live, List.mem_filter, List.mem_map,
    Bool.not_eq_true', isEmpty_false_iff]
  constructor
  · rintro ⟨⟨entry, inside, rfl⟩, nonempty⟩
    exact ⟨entry, inside, rfl, nonempty⟩
  · rintro ⟨entry, inside, rfl, nonempty⟩
    exact ⟨⟨entry, inside, rfl⟩, nonempty⟩

/-- Entries that share no byte, read without a loss, make a table in order. -/
theorem tableInvariant_of_exact
    (exact : Exact (entries.map FirmwareEntry.rounded) table)
    (proper : ∀ entry ∈ entries, entry.start < entry.stop)
    (bounded : ∀ entry ∈ entries, entry.stop ≤ 2 ^ 52)
    (apart : entries.Pairwise fun a b =>
      Disjoint (Set.Ico a.start a.stop) (Set.Ico b.start b.stop)) :
    TableInvariant table := by
  refine ⟨exact.sorted, ?_, ?_, ?_⟩
  · intro region inside
    exact isEmpty_false_iff.mp (exact.nonempty region inside)
  · intro region inside available
    obtain ⟨entry, member, rfl, _⟩ := (mem_of_exact exact).mp inside
    exact FirmwareEntry.rounded_available_aligned (proper entry member)
      (bounded entry member) available
  · apply pairwise_separate_perm exact.perm.symm
    apply List.Pairwise.filter
    rw [List.pairwise_map]
    exact apart.imp_of_mem fun {a b} insideA insideB apart =>
      separate_rounded (proper a insideA) (bounded a insideA)
        (proper b insideB) (bounded b insideB) apart

/-- The table read from a firmware map holds its rounded entries, sorted. -/
theorem exact_table (map : FirmwareMap entries)
    (added : pmmAddRegions [] entries = some table) :
    Exact (entries.map FirmwareEntry.rounded) table := by
  refine (pmmAddRegions_exact_iff Exact.nil List.Pairwise.nil added).mpr ?_
  apply sortSafe_of_nonempty
  intro region inside
  obtain ⟨entry, member, rfl⟩ := List.mem_map.mp
    (show region ∈ entries.map FirmwareEntry.rounded from inside)
  exact isEmpty_false_iff.mpr (Nat.ne_of_lt (map.roundedProper entry member))

theorem mem_table (map : FirmwareMap entries)
    (added : pmmAddRegions [] entries = some table) {region : MemoryRegion} :
    region ∈ table ↔ ∃ entry ∈ entries, entry.rounded = region := by
  have exact := map.exact_table added
  rw [exact.perm.mem_iff, BubbleSort.live_eq_self, List.mem_map]
  intro region inside
  obtain ⟨entry, member, rfl⟩ := List.mem_map.mp inside
  exact isEmpty_false_iff.mpr (Nat.ne_of_lt (map.roundedProper entry member))

/-- Reading a firmware map establishes the table invariant. -/
theorem tableInvariant (map : FirmwareMap entries)
    (added : pmmAddRegions [] entries = some table) : TableInvariant table :=
  tableInvariant_of_exact (map.exact_table added) map.proper map.bounded map.apart

/-- All bounds of the table are ordered and at most 2^52. -/
theorem table_bounds (map : FirmwareMap entries)
    (added : pmmAddRegions [] entries = some table) :
    ∀ region ∈ table, region.addrStart < region.addrEnd ∧
      region.addrEnd ≤ 2 ^ 52 := by
  intro region inside
  obtain ⟨entry, member, rfl⟩ := (map.mem_table added).mp inside
  exact ⟨map.roundedProper entry member, FirmwareEntry.rounded_bounded
    (map.proper entry member) (map.bounded entry member)⟩

/-- The available bytes of the table are the whole pages of the available
entries. -/
theorem availableBytes_eq (map : FirmwareMap entries)
    (added : pmmAddRegions [] entries = some table) :
    availableBytes table = wholePages entries := by
  ext x
  constructor
  · rintro ⟨region, inside, available, member⟩
    obtain ⟨entry, isEntry, rfl⟩ := (map.mem_table added).mp inside
    exact ⟨entry, isEntry, available, (FirmwareEntry.mem_rounded_available
      (map.proper entry isEntry) (map.bounded entry isEntry) available x).mp member⟩
  · rintro ⟨entry, isEntry, available, whole⟩
    exact ⟨entry.rounded, (map.mem_table added).mpr ⟨entry, isEntry, rfl⟩,
      available, (FirmwareEntry.mem_rounded_available
        (map.proper entry isEntry) (map.bounded entry isEntry) available x).mpr whole⟩

end FirmwareMap

end SampoOS.Kickstart
