/-
Module: SampoOS.Kickstart.AvailableMemory
Purpose: What stays true of the available memory in every table that Kickstart
  can reach, also where its sort loses entries.
Trusted boundary: none
Main exports: AvailableInvariant, AvailableInvariant.carve,
  FirmwareMemory.availableInvariant, pmmReserveMemoryRegion_available,
  AllocationStep.available
-/
import Mathlib.Data.List.Perm.Subperm
import SampoOS.Kickstart.MemoryMap

namespace SampoOS.Kickstart

/-- The available regions of a table are page-aligned and share no byte. -/
structure AvailableInvariant (table : RegionTable) : Prop where
  aligned : ∀ region ∈ table, region.type = .available →
    4096 ∣ region.addrStart ∧ 4096 ∣ region.addrEnd
  apart : table.Pairwise fun a b =>
    a.type = .available → b.type = .available → a.Apart b

theorem TableInvariant.available {table : RegionTable}
    (invariant : TableInvariant table) : AvailableInvariant table :=
  ⟨invariant.aligned, invariant.separate.imp fun separate availableA _ =>
    separate (Or.inl availableA)⟩

namespace AvailableInvariant

variable {table after : RegionTable}

/-- Losing or reordering entries does no harm. -/
theorem subperm (invariant : AvailableInvariant table)
    (fewer : after.Subperm table) : AvailableInvariant after := by
  refine ⟨fun region inside => invariant.aligned region (fewer.subset inside), ?_⟩
  obtain ⟨kept, perm, sublist⟩ := fewer
  exact (perm.pairwise_iff fun apart availableB availableA =>
    (apart availableA availableB).symm).mp (invariant.apart.sublist sublist)

/-- The edits that reserving and allocating make before the sort: an available
region is shrunk in place, the block and whatever else is left are appended. -/
theorem carve {before behind extra : RegionTable}
    {region shrunk block : MemoryRegion}
    (invariant : AvailableInvariant (before ++ region :: behind))
    (available : region.type = .available) (taken : block.type ≠ .available)
    (within : ∀ piece ∈ shrunk :: extra, piece.bytes ⊆ region.bytes \ block.bytes ∧
      4096 ∣ piece.addrStart ∧ 4096 ∣ piece.addrEnd)
    (apart : (shrunk :: extra).Pairwise MemoryRegion.Apart)
    (inside : block.bytes ⊆ region.bytes)
    (edited : after.Subperm (before ++ shrunk :: (behind ++ block :: extra))) :
    AvailableInvariant after ∧ availableBytes after ⊆
      availableBytes (before ++ region :: behind) \ block.bytes := by
  have pieces : (before ++ shrunk :: (behind ++ block :: extra)).Perm
      ((shrunk :: extra) ++ block :: (before ++ behind)) := by
    refine List.perm_middle.trans (List.Perm.cons _ ?_)
    rw [← List.append_assoc]
    exact List.perm_append_comm.trans
      ((List.perm_middle.symm : (block :: (extra ++ (before ++ behind))).Perm _))
  have reordered := invariant.subperm
    (List.perm_middle.symm.subperm :
      (region :: (before ++ behind)).Subperm (before ++ region :: behind))
  obtain ⟨others, rest⟩ := List.pairwise_cons.mp reordered.apart
  have member : ∀ other ∈ before ++ behind,
      other ∈ before ++ region :: behind := by
    intro other inRest
    rcases List.mem_append.mp inRest with inRest | inRest <;> simp [inRest]
  have restApart : ∀ other ∈ before ++ behind, other.type = .available →
      Disjoint region.bytes other.bytes := fun other inRest isAvailable =>
    others other inRest available isAvailable
  replace edited := edited.trans pieces.subperm
  constructor
  · refine AvailableInvariant.subperm ⟨?_, ?_⟩ edited
    · intro entry listed isAvailable
      rcases List.mem_append.mp listed with inPieces | listed
      · exact (within entry inPieces).2
      · rcases List.mem_cons.mp listed with rfl | inRest
        · exact absurd isAvailable taken
        · exact invariant.aligned entry (member entry inRest) isAvailable
    · rw [List.pairwise_append]
      refine ⟨apart.imp fun holds _ _ => holds, List.pairwise_cons.mpr
        ⟨fun _ _ isAvailable => absurd isAvailable taken, rest⟩, ?_⟩
      intro piece inPieces entry listed _ isAvailable
      rcases List.mem_cons.mp listed with rfl | inRest
      · exact absurd isAvailable taken
      · exact (restApart entry inRest isAvailable).mono_left
          ((within piece inPieces).1.trans Set.sdiff_subset)
  · rintro x ⟨entry, isEntry, isAvailable, inEntry⟩
    rcases List.mem_append.mp (edited.subset isEntry) with inPieces | listed
    · have outside := (within entry inPieces).1 inEntry
      exact ⟨⟨region, by simp, available, outside.1⟩, outside.2⟩
    · rcases List.mem_cons.mp listed with rfl | inRest
      · exact absurd isAvailable taken
      · refine ⟨⟨entry, member entry inRest, isAvailable, inEntry⟩, ?_⟩
        exact fun inBlock => Set.disjoint_left.mp
          (restApart entry inRest isAvailable) (inside inBlock) inEntry

end AvailableInvariant

theorem disjoint_availableBytes {table : RegionTable} {start stop : Nat}
    (away : ∀ region ∈ table, region.type = .available →
      region.addrEnd ≤ start ∨ stop ≤ region.addrStart) :
    Disjoint (availableBytes table) (Set.Ico start stop) := by
  rw [Set.disjoint_left]
  rintro x ⟨region, inside, available, inRegion⟩ inRange
  rw [MemoryRegion.mem_bytes] at inRegion
  rw [Set.mem_Ico] at inRange
  have apart := away region inside available
  omega

theorem pmmSortRegions_subperm (table : RegionTable) :
    (pmmSortRegions table).Subperm table :=
  (List.take_sublist _ _).subperm.trans
    (BubbleSort.bubbleSort_perm table).subperm

/-! ## Reading the memory map -/

/-- A memory map of the firmware, whatever rounding makes of its entries. -/
structure FirmwareMemory (entries : List FirmwareEntry) : Prop where
  proper : ∀ entry ∈ entries, entry.start < entry.stop
  bounded : ∀ entry ∈ entries, entry.stop ≤ 2 ^ 52
  apart : entries.Pairwise fun a b =>
    Disjoint (Set.Ico a.start a.stop) (Set.Ico b.start b.stop)

theorem pmmAddRegions_subperm {entries : List FirmwareEntry} :
    ∀ {table after : RegionTable}, pmmAddRegions table entries = some after →
      after.Subperm (table ++ entries.map FirmwareEntry.rounded) := by
  induction entries with
  | nil =>
      intro table after added
      simp only [pmmAddRegions, List.foldlM_nil, Option.pure_def,
        Option.some.injEq] at added
      rw [← added]
      exact (List.sublist_append_left _ _).subperm
  | cons entry rest inductionHypothesis =>
      intro table after added
      rw [pmmAddRegions_cons, Option.bind_eq_some_iff] at added
      obtain ⟨next, first, added⟩ := added
      obtain ⟨_, rfl⟩ := pmmAddRegion_eq_some.mp first
      rw [List.map_cons, List.append_cons]
      exact (inductionHypothesis added).trans
        ((List.subperm_append_right _).mpr (pmmSortRegions_subperm _))

/-- Whatever its sort loses, the table that is read keeps the available memory
in order. -/
theorem FirmwareMemory.availableInvariant {entries : List FirmwareEntry}
    {table : RegionTable} (memory : FirmwareMemory entries)
    (added : pmmAddRegions [] entries = some table) :
    AvailableInvariant table := by
  refine AvailableInvariant.subperm ⟨?_, ?_⟩ (pmmAddRegions_subperm added)
  · intro region inside available
    obtain ⟨entry, member, rfl⟩ := List.mem_map.mp
      (show region ∈ entries.map FirmwareEntry.rounded from inside)
    exact FirmwareEntry.rounded_available_aligned (memory.proper entry member)
      (memory.bounded entry member) available
  · rw [List.nil_append, List.pairwise_map]
    refine memory.apart.imp_of_mem fun memberA memberB apart available _ => ?_
    exact FirmwareMap.separate_rounded (memory.proper _ memberA)
      (memory.bounded _ memberA) (memory.proper _ memberB)
      (memory.bounded _ memberB) apart (Or.inl available)

/-! ## Reserving and allocating -/

/-- What is left of a page-aligned region when a page-aligned block is cut out of
it lies outside that block, page-aligned and without overlap. -/
theorem Cut.pieces {region block shrunk : MemoryRegion} {extra : RegionTable}
    (cut : Cut region block shrunk extra)
    (startInside : region.addrStart ≤ block.addrStart)
    (order : block.addrStart < block.addrEnd)
    (stopInside : block.addrEnd ≤ region.addrEnd)
    (alignedStart : 4096 ∣ region.addrStart) (alignedEnd : 4096 ∣ region.addrEnd)
    (lower : 4096 ∣ block.addrStart) (upper : 4096 ∣ block.addrEnd) :
    (∀ piece ∈ shrunk :: extra, piece.bytes ⊆ region.bytes \ block.bytes ∧
      4096 ∣ piece.addrStart ∧ 4096 ∣ piece.addrEnd) ∧
    (shrunk :: extra).Pairwise MemoryRegion.Apart := by
  have front : ({ region with addrEnd := block.addrStart } :
      MemoryRegion).bytes ⊆ region.bytes \ block.bytes := by
    intro x inPiece
    simp only [Set.mem_sdiff, MemoryRegion.mem_bytes] at inPiece ⊢
    omega
  have tail : ({ region with addrStart := block.addrEnd } :
      MemoryRegion).bytes ⊆ region.bytes \ block.bytes := by
    intro x inPiece
    simp only [Set.mem_sdiff, MemoryRegion.mem_bytes] at inPiece ⊢
    omega
  cases cut with
  | tail _ =>
      refine ⟨?_, List.pairwise_singleton _ _⟩
      intro piece isPiece
      rw [List.mem_singleton] at isPiece
      exact isPiece ▸ ⟨tail, upper, alignedEnd⟩
  | front _ _ =>
      refine ⟨?_, List.pairwise_singleton _ _⟩
      intro piece isPiece
      rw [List.mem_singleton] at isPiece
      exact isPiece ▸ ⟨front, alignedStart, lower⟩
  | enclosed _ _ =>
      constructor
      · intro piece isPiece
        rcases List.mem_pair.mp isPiece with rfl | rfl
        · exact ⟨front, alignedStart, lower⟩
        · exact ⟨tail, upper, alignedEnd⟩
      · rw [List.pairwise_pair, MemoryRegion.apart_iff]
        intro x inFront inTail
        rw [MemoryRegion.mem_bytes] at inFront inTail
        dsimp only at inFront inTail
        omega

/-- Reserving a range only takes memory away. -/
theorem pmmReserveMemoryRegion_available {table after : RegionTable}
    {start stop : Nat} (invariant : AvailableInvariant table)
    (proper : start < stop) (fits : stop ≤ 0xFFFFF000)
    (reserved : pmmReserveMemoryRegion table start stop = some after) :
    AvailableInvariant after ∧ availableBytes after ⊆ availableBytes table := by
  obtain ⟨_, _, lower, upper⟩ := reserve_covers proper fits
  have order := reserve_proper proper fits
  rcases pmmReserveMemoryRegion_cases reserved with
    ⟨_, rfl⟩ | ⟨region, block, _, holds, isBlock, edit⟩
  · exact ⟨invariant, Set.Subset.rfl⟩
  · obtain ⟨before, behind, shrunk, extra, rfl, cut, rfl⟩ := edit
    obtain ⟨startInside, stopInside, available⟩ := containsRange_iff.mp holds
    obtain ⟨alignedStart, alignedEnd⟩ := invariant.aligned region (by simp)
      available
    subst isBlock
    obtain ⟨within, apart⟩ := cut.pieces startInside order stopInside alignedStart
      alignedEnd lower upper
    have carved := invariant.carve available (by simp) within apart
      (Set.Ico_subset_Ico startInside stopInside) (pmmSortRegions_subperm _)
    exact ⟨carved.1, carved.2.trans Set.sdiff_subset⟩

/-- Allocating a block takes it out of the available memory, whether the table
is sorted afterwards or not. -/
theorem AllocationStep.available {table after : RegionTable}
    {regionPageCount ret : Nat} {type : MemoryRegionType}
    {region block : MemoryRegion}
    (step : AllocationStep table regionPageCount type region block ret after)
    (invariant : AvailableInvariant table) (taken : type ≠ .available)
    (noWrap : region.addrStart + allocationLength regionPageCount < 2 ^ 64)
    (aligned : 4096 ∣ allocationLength regionPageCount) :
    AvailableInvariant after ∧
      availableBytes after ⊆ availableBytes table \ block.bytes ∧
      block.bytes ⊆ availableBytes table ∧ 4096 ∣ block.addrStart := by
  obtain ⟨fits, rfl, _, before, behind, rfl, edit⟩ := step
  obtain ⟨_, available, stopInside⟩ := fitsAllocation_iff.mp fits
  obtain ⟨alignedStart, alignedEnd⟩ := invariant.aligned region (by simp)
    available
  simp only [Nat.mod_eq_of_lt noWrap] at edit stopInside ⊢
  have inside : ({ addrStart := region.addrStart
                   addrEnd := region.addrStart + allocationLength regionPageCount
                   type := type } : MemoryRegion).bytes ⊆ region.bytes :=
    Set.Ico_subset_Ico (Nat.le_refl _) stopInside
  have edited : after.Subperm (before ++ { region with
      addrStart := region.addrStart + allocationLength regionPageCount } ::
        (behind ++ { addrStart := region.addrStart
                     addrEnd := region.addrStart +
                       allocationLength regionPageCount
                     type := type } :: [])) := by
    rw [edit]
    split
    · exact pmmSortRegions_subperm _
    · exact List.Subperm.refl _
  have carved := invariant.carve available taken (by
      intro piece isPiece
      rw [List.mem_singleton] at isPiece
      subst isPiece
      refine ⟨?_, Nat.dvd_add alignedStart aligned, alignedEnd⟩
      intro x inPiece
      simp only [Set.mem_sdiff, MemoryRegion.mem_bytes] at inPiece ⊢
      omega) (List.pairwise_singleton _ _) inside edited
  exact ⟨carved.1, carved.2, fun x inBlock => ⟨region, by simp, available,
    inside inBlock⟩, alignedStart⟩

end SampoOS.Kickstart
