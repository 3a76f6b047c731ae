/-
Module: SampoOS.Kernel.BitmapAfterInit
Purpose: The bits of the bitmap by their numbers, the pages that are to be marked,
  and what marking pages one after the other can do.
Trusted boundary: none
Main exports: ownIndex, Placed, wantedBytes, busyPages_placed, mem_busyPages,
  pmmMarkPageBusy_cases, markEach_hits, markEach_served
-/
import Mathlib.Order.WellFounded
import SampoOS.Kernel.BusyPages

namespace SampoOS.Kernel

open ByteMemory
open Bitmap (BitAddress bitAt mark markAll missing bitNumber)

/-! ## The bits of the bitmap -/

/-- The number of the bit for a page, in the whole bitmap. -/
def placeIndex (place : CombinedRegion × Nat) (page : Nat) : Nat :=
  8 * place.2 + (page - place.1.region.addrStart) / pageSize

/-- A page of a combinable region. -/
def inPlace (page : Nat) (place : CombinedRegion × Nat) : Bool :=
  combinable place.1.region && decide (place.1.region.addrStart ≤ page) &&
    decide (page < place.1.stop)

theorem inPlace_iff {page : Nat} {place : CombinedRegion × Nat} :
    inPlace page place = true ↔
      combinable place.1.region = true ∧ page ∈ place.1.bytes := by
  simp [inPlace, and_assoc]

/-- The number of the bit that belongs to a page of a table. -/
def ownIndex (table : RegionTable) (page : Nat) : Nat :=
  (((placed 0 (combinedRegions 0 table)).find? (inPlace page)).map
    fun place => placeIndex place page).getD 0

section Places

variable {table : RegionTable} {ptr : Nat}

theorem place_group {place : CombinedRegion × Nat}
    (inside : place ∈ placed 0 (combinedRegions 0 table)) :
    place.1 ∈ combinedRegions 0 table := by
  rw [← map_fst_placed (combinedRegions 0 table) 0]
  exact List.mem_map_of_mem inside

/-- Combinable places stand in the order of their bytes, all of them in that of their
slices. -/
theorem places_ascend (sorted : SortedTable table) :
    (placed 0 (combinedRegions 0 table)).Pairwise fun a b =>
      (combinable a.1.region = true → combinable b.1.region = true →
        a.1.stop ≤ b.1.region.addrStart) ∧ a.2 + a.1.sliceBytes ≤ b.2 := by
  have groups := (grouped table).ascending_combinable sorted.ascends
  rw [← map_fst_placed (combinedRegions 0 table) 0, List.pairwise_map] at groups
  exact groups.and (placed_pairwise _)

/-- The bit of a page lies in its slice. -/
theorem placeIndex_lt (paged : PagedTable table) {place : CombinedRegion × Nat}
    (inside : place ∈ placed 0 (combinedRegions 0 table)) {page : Nat}
    (member : inPlace page place = true) :
    placeIndex place page < 8 * (place.2 + place.1.sliceBytes) := by
  obtain ⟨isCombinable, low, high⟩ := inPlace_iff.mp member
  obtain ⟨size, _, _⟩ := paged.size_eq (place_group inside) isCombinable
  have enough := (paged.size_le (place_group inside) isCombinable).1
  rw [CombinedRegion.sliceBytes, if_pos isCombinable, placeIndex, pageSize]
  omega

/-- The bits of two pages stand in the order of the pages. -/
theorem placeIndex_lt_placeIndex (paged : PagedTable table)
    (sorted : SortedTable table) {a b : CombinedRegion × Nat} {page later : Nat}
    (insideA : a ∈ placed 0 (combinedRegions 0 table))
    (insideB : b ∈ placed 0 (combinedRegions 0 table))
    (aligned : 4096 ∣ page) (alignedLater : 4096 ∣ later) (before : page < later)
    (memberA : inPlace page a = true) (memberB : inPlace later b = true) :
    placeIndex a page < placeIndex b later := by
  have forwards : (placed 0 (combinedRegions 0 table)).Pairwise fun a b =>
      inPlace page a = true → inPlace later b = true →
        placeIndex a page < placeIndex b later := by
    apply (places_ascend sorted).imp_of_mem
    intro a b insideA _ order memberA memberB
    have slice := placeIndex_lt paged insideA memberA
    have behind : 8 * b.2 ≤ placeIndex b later := Nat.le_add_right _ _
    omega
  have backwards : (placed 0 (combinedRegions 0 table)).Pairwise fun a b =>
      inPlace page b = true → inPlace later a = true →
        placeIndex b page < placeIndex a later := by
    apply (places_ascend sorted).imp
    intro a b ⟨order, _⟩ memberB memberA
    obtain ⟨combinableB, low, _⟩ := inPlace_iff.mp memberB
    obtain ⟨combinableA, _, high⟩ := inPlace_iff.mp memberA
    have ascends := order combinableA combinableB
    omega
  have within : ∀ a ∈ placed 0 (combinedRegions 0 table),
      inPlace page a = true → inPlace later a = true →
        placeIndex a page < placeIndex a later := by
    intro a inside memberA _
    obtain ⟨isCombinable, low, _⟩ := inPlace_iff.mp memberA
    have start := ((grouped table).bounds (P := (4096 ∣ ·)) paged.aligned a.1
      (place_group inside) isCombinable).1
    rw [placeIndex, placeIndex, pageSize]
    omega
  exact List.Pairwise.forall_of_forall_of_flip within forwards backwards insideA
    insideB memberA memberB

/-- A page is in one place at most. -/
theorem place_unique (sorted : SortedTable table) {a b : CombinedRegion × Nat}
    {x : Nat} (insideA : a ∈ placed 0 (combinedRegions 0 table))
    (insideB : b ∈ placed 0 (combinedRegions 0 table))
    (memberA : inPlace x a = true) (memberB : inPlace x b = true) : a = b := by
  have forwards : (placed 0 (combinedRegions 0 table)).Pairwise fun a b =>
      inPlace x a = true → inPlace x b = true → a = b := by
    apply (places_ascend sorted).imp
    intro a b ⟨order, _⟩ memberA memberB
    obtain ⟨combinableA, _, high⟩ := inPlace_iff.mp memberA
    obtain ⟨combinableB, low, _⟩ := inPlace_iff.mp memberB
    have ascends := order combinableA combinableB
    omega
  have backwards : (placed 0 (combinedRegions 0 table)).Pairwise fun a b =>
      inPlace x b = true → inPlace x a = true → b = a := by
    apply (places_ascend sorted).imp
    intro a b ⟨order, _⟩ memberB memberA
    obtain ⟨combinableA, _, high⟩ := inPlace_iff.mp memberA
    obtain ⟨combinableB, low, _⟩ := inPlace_iff.mp memberB
    have ascends := order combinableA combinableB
    omega
  exact List.Pairwise.forall_of_forall_of_flip (fun _ _ _ _ => rfl) forwards
    backwards insideA insideB memberA memberB

theorem ownIndex_eq (sorted : SortedTable table) {place : CombinedRegion × Nat}
    (inside : place ∈ placed 0 (combinedRegions 0 table)) {page : Nat}
    (member : inPlace page place = true) :
    ownIndex table page = placeIndex place page := by
  rw [ownIndex]
  cases found : (placed 0 (combinedRegions 0 table)).find? (inPlace page) with
  | none =>
      exact absurd member (List.find?_eq_none.mp found place inside)
  | some other =>
      obtain rfl := place_unique sorted (List.mem_of_find?_eq_some found) inside
        (List.find?_some found) member
      rfl

/-- The page belongs to a combined region of the table. -/
def Placed (table : RegionTable) (page : Nat) : Prop :=
  ∃ place ∈ placed 0 (combinedRegions 0 table), inPlace page place = true

theorem ownIndex_strictMono (paged : PagedTable table)
    (sorted : SortedTable table) {page later : Nat}
    (aligned : 4096 ∣ page) (alignedLater : 4096 ∣ later)
    (isPlaced : Placed table page) (laterPlaced : Placed table later)
    (before : page < later) : ownIndex table page < ownIndex table later := by
  obtain ⟨a, insideA, memberA⟩ := isPlaced
  obtain ⟨b, insideB, memberB⟩ := laterPlaced
  rw [ownIndex_eq sorted insideA memberA, ownIndex_eq sorted insideB memberB]
  exact placeIndex_lt_placeIndex paged sorted insideA insideB aligned
    alignedLater before memberA memberB

theorem ownIndex_injective (paged : PagedTable table)
    (sorted : SortedTable table) {page other : Nat}
    (aligned : 4096 ∣ page) (alignedOther : 4096 ∣ other)
    (isPlaced : Placed table page) (otherPlaced : Placed table other)
    (same : ownIndex table page = ownIndex table other) : page = other := by
  rcases Nat.lt_trichotomy page other with before | equal | behind
  · have := ownIndex_strictMono paged sorted aligned alignedOther isPlaced
      otherPlaced before
    omega
  · exact equal
  · have := ownIndex_strictMono paged sorted alignedOther aligned otherPlaced
      isPlaced behind
    omega

/-- All bits lie in the pages that are counted for the bitmap. -/
theorem ownIndex_lt (paged : PagedTable table) (sorted : SortedTable table)
    {page : Nat} (isPlaced : Placed table page) :
    ownIndex table page < 8 * ((regionCounts table).bitmapPageCount * pageSize) ∧
      ownIndex table page < 2 ^ 64 := by
  obtain ⟨place, inside, member⟩ := isPlaced
  have slice := placeIndex_lt paged inside member
  have within := (placed_within (combinedRegions 0 table) place inside).2
  have counts := paged.counts
  have small := paged.sum_bits_lt
  rw [paged.sum_bits] at small
  rw [ownIndex_eq sorted inside member]
  omega

/-- The bit of a page in the bitmap of its entry. -/
theorem pagePosition_entry (ptr : Nat) (place : CombinedRegion × Nat)
    (isCombinable : combinable place.1.region = true) (page : Nat) :
    pagePosition (place.1.entry ((ptr + place.2) % 2 ^ 64)) page =
      bitNumber 64 ptr (placeIndex place page) := by
  simp only [pagePosition, CombinedRegion.entry, if_pos isCombinable, bitNumber,
    placeIndex, BitAddress.mk.injEq]
  omega

theorem pagePosition_own (boot : BootTable table) (sorted : SortedTable table)
    {region : PhysmemRegion} (inside : region ∈ physmapRegions ptr table)
    (available : region.type = .available) {page : Nat}
    (member : page ∈ region.bytes) :
    Placed table page ∧
      pagePosition region page = bitNumber 64 ptr (ownIndex table page) := by
  obtain ⟨place, isPlace, rfl, isGroup⟩ := mem_physmapRegions inside
  have isCombinable := (slice_entry available).1
  rw [PhysmemRegion.mem_bytes, sorted.entry_stop boot isGroup isCombinable] at member
  have isIn : inPlace page place = true := inPlace_iff.mpr ⟨isCombinable, member⟩
  refine ⟨⟨place, isPlace, isIn⟩, ?_⟩
  rw [ownIndex_eq sorted isPlace isIn]
  exact pagePosition_entry ptr place isCombinable page

/-- A placed page has an available entry. -/
theorem Placed.entry (isPlaced : Placed table page) (boot : BootTable table)
    (sorted : SortedTable table) (ptr : Nat) :
    ∃ region ∈ physmapRegions ptr table, region.type = .available ∧
      page ∈ region.bytes := by
  obtain ⟨place, inside, member⟩ := isPlaced
  obtain ⟨isCombinable, bytes⟩ := inPlace_iff.mp member
  refine ⟨_, List.mem_map.mpr ⟨place, inside, rfl⟩,
    physmemType_available.mpr (combinable_iff.mp isCombinable), ?_⟩
  rw [PhysmemRegion.mem_bytes,
    sorted.entry_stop boot (place_group inside) isCombinable]
  exact bytes

/-- The bytes of combinable regions are placed. -/
theorem placed_of_region (sorted : SortedTable table) {region : MemoryRegion}
    (inside : region ∈ table) (isCombinable : combinable region = true) {x : Nat}
    (member : x ∈ region.bytes) : Placed table x := by
  obtain ⟨group, isGroup, groupCombinable, inGroup⟩ :=
    ((grouped table).mem_combinable (fun region inside isCombinable =>
      Nat.le_of_lt (sorted.proper region inside isCombinable)) x).mpr
      ⟨region, inside, isCombinable, member⟩
  rw [← map_fst_placed (combinedRegions 0 table) 0] at isGroup
  obtain ⟨place, isPlace, rfl⟩ := List.mem_map.mp isGroup
  exact ⟨place, isPlace, inPlace_iff.mpr ⟨groupCombinable, inGroup⟩⟩

theorem SortedTable.apart_of_ne (sorted : SortedTable table)
    {a b : MemoryRegion} (insideA : a ∈ table) (insideB : b ∈ table)
    (different : a ≠ b) : a.Apart b := by
  have forwards : table.Pairwise fun a b => a ≠ b → a.Apart b := by
    apply sorted.apart.imp
    exact fun apart _ => apart
  have backwards : table.Pairwise fun a b => b ≠ a → b.Apart a := by
    apply sorted.apart.imp
    exact fun apart _ => apart.symm
  exact List.Pairwise.forall_of_forall_of_flip (fun _ _ same => absurd rfl same)
    forwards backwards insideA insideB different

/-- A combined region with a placed page is combinable. -/
theorem Placed.combinable {x : Nat} (isPlaced : Placed table x)
    (sorted : SortedTable table) {place : CombinedRegion × Nat}
    (inside : place ∈ placed 0 (combinedRegions 0 table))
    (member : x ∈ place.1.bytes) : combinable place.1.region = true := by
  by_contra isSingle
  rw [Bool.not_eq_true] at isSingle
  obtain ⟨own, isOwn, isIn⟩ := isPlaced
  obtain ⟨ownCombinable, ownMember⟩ := inPlace_iff.mp isIn
  obtain ⟨region, isRegion, isCombinable, inRegion⟩ :=
    ((grouped table).mem_combinable (fun region inside isCombinable =>
      Nat.le_of_lt (sorted.proper region inside isCombinable)) x).mp
      ⟨own.1, place_group isOwn, ownCombinable, ownMember⟩
  rw [CombinedRegion.mem_bytes,
    (grouped table).stop_of_single place.1 (place_group inside) isSingle] at member
  have different : region ≠ place.1.region := by
    rintro rfl
    simp [isSingle] at isCombinable
  exact MemoryRegion.apart_iff.mp (sorted.apart_of_ne isRegion
    ((grouped table).region_mem place.1 (place_group inside)) different) x inRegion
    member

/-- Before anything is marked, all bits are clear. -/
theorem setUpPhysmap_clear {s : KernelState} (paged : PagedTable table)
    (page : 4096 ∣ ptr) (word : ptr < 2 ^ 64) (fresh : s.physmemLen = 0) {k : Nat}
    (below : k < 8 * ((regionCounts table).bitmapPageCount * pageSize)) :
    bitAt (setUpPhysmap table ptr s).virtual (bitNumber 64 ptr k) = false := by
  obtain ⟨_, _, array, pages, fits⟩ := paged.counts
  rw [pages, Nat.add_mul] at fits
  have slots := clearedManager_array paged.toBootTable page fresh
  have written := addRegions_outside (physmapRegions ptr table) slots
    (bitNumber 64 ptr k).byte
  have inBitmap : (bitNumber 64 ptr k).byte ∈
      cyclicRange 64 ptr (managerPageCount table * pageSize % 2 ^ 64) := by
    refine ⟨k / 8, ?_, rfl⟩
    rw [pages, Nat.add_mul, Nat.mod_eq_of_lt fits]
    omega
  have cleared : fill 64 s.virtual ptr 0
      (managerPageCount table * pageSize % 2 ^ 64) (bitNumber 64 ptr k).byte = 0 :=
    (fill_cyclic (bitNumber 64 ptr k).byte).1 inBitmap
  rw [setUpPhysmap_eq word, bitAt, written, clearedManager]
  · dsimp only
    rw [cleared]
    simp [Bitmap.bit]
  · intro i _ belowI
    by_contra overlap
    obtain ⟨j, belowJ, same⟩ := slots.mem_cyclicRange belowI
      (x := (bitNumber 64 ptr k).byte) (by omega) (by omega)
    rw [show (clearedManager table ptr s).physmemLen = 0 from fresh, Nat.zero_add,
      BootTable.length_physmapRegions] at belowJ
    rw [show (clearedManager table ptr s).physmap =
      (ptr + (regionCounts table).bitmapPageCount * pageSize) % 2 ^ 64 from rfl,
      Nat.mod_add_mod, Nat.add_assoc] at same
    have offsets := cyclic_injective (w := 64) (by omega) (by omega)
      (show (ptr + k / 8) % 2 ^ 64 = _ from same)
    omega

end Places

/-! ## What is to be marked -/

/-- The bytes whose pages are in use: ALLOCATED memory, and the manager's own
pages. -/
def wantedBytes (table : RegionTable) : Set Nat :=
  bytesOfType table .allocated ∪
    Set.Ico (managerAddr table)
      (managerAddr table + managerPageCount table * pageSize)

section Busy

variable {table : RegionTable}

theorem mem_allocatedPages (paged : PagedTable table) {page : Nat} :
    page ∈ allocatedPages table ↔
      4096 ∣ page ∧ page ∈ bytesOfType table .allocated := by
  simp only [allocatedPages, List.mem_flatMap, mem_bytesOfType]
  constructor
  · rintro ⟨region, inside, member⟩
    by_cases allocated : region.type = .allocated
    · rw [if_pos allocated] at member
      have aligned := paged.aligned region inside
        (combinable_iff.mpr (Or.inr allocated))
      obtain ⟨isPage, bytes⟩ := (mem_pagesBetween aligned.1 aligned.2).mp member
      exact ⟨isPage, region, inside, allocated, bytes⟩
    · simp [allocated] at member
  · rintro ⟨isPage, region, inside, allocated, bytes⟩
    have aligned := paged.aligned region inside
      (combinable_iff.mpr (Or.inr allocated))
    refine ⟨region, inside, ?_⟩
    rw [if_pos allocated]
    exact (mem_pagesBetween aligned.1 aligned.2).mpr ⟨isPage, bytes⟩

theorem allocatedPages_nodup (paged : PagedTable table)
    (sorted : SortedTable table) : (allocatedPages table).Nodup := by
  rw [allocatedPages, List.nodup_flatMap]
  constructor
  · intro region _
    split
    · exact pagesBetween_nodup _ _
    · exact List.nodup_nil
  · apply sorted.ascends.imp_of_mem
    intro a b insideA insideB order page memberA memberB
    simp only at memberA memberB
    by_cases allocatedA : a.type = .allocated
    · by_cases allocatedB : b.type = .allocated
      · rw [if_pos allocatedA] at memberA
        rw [if_pos allocatedB] at memberB
        have alignedA := paged.aligned a insideA
          (combinable_iff.mpr (Or.inr allocatedA))
        have alignedB := paged.aligned b insideB
          (combinable_iff.mpr (Or.inr allocatedB))
        have ascends := order (combinable_iff.mpr (Or.inr allocatedA))
          (combinable_iff.mpr (Or.inr allocatedB))
        have inA := (mem_pagesBetween alignedA.1 alignedA.2).mp memberA
        have inB := (mem_pagesBetween alignedB.1 alignedB.2).mp memberB
        omega
      · simp [allocatedB] at memberB
    · simp [allocatedA] at memberA

theorem mem_managerPages (paged : PagedTable table)
    (found : managerAddr table ≠ 0) {page : Nat} :
    page ∈ managerPages table ↔
      4096 ∣ page ∧ managerAddr table ≤ page ∧ page < managerStop table := by
  obtain ⟨start, _, stop, _⟩ := managerAddr_aligned paged found
  exact mem_pagesBetween start stop

/-- The manager's pages lie in an available region, apart from ALLOCATED
memory. -/
theorem managerPages_apart (sorted : SortedTable table)
    (found : managerAddr table ≠ 0) {x : Nat} (low : managerAddr table ≤ x)
    (high : x < managerStop table) :
    Placed table x ∧ x ∉ bytesOfType table .allocated := by
  obtain ⟨region, inside, available, start, stop⟩ := managerAddr_region found
  rw [← managerStop] at stop
  have member : x ∈ region.bytes := by
    rw [MemoryRegion.mem_bytes]
    omega
  refine ⟨placed_of_region sorted inside
    (combinable_iff.mpr (Or.inl available)) member, ?_⟩
  rintro ⟨other, isOther, allocated, inOther⟩
  have different : region ≠ other := by
    rintro rfl
    simp [available] at allocated
  exact MemoryRegion.apart_iff.mp
    (sorted.apart_of_ne inside isOther different) x member inOther

theorem busyPages_nodup (paged : PagedTable table) (sorted : SortedTable table)
    (found : managerAddr table ≠ 0) : (busyPages table).Nodup := by
  rw [busyPages, List.nodup_append']
  refine ⟨allocatedPages_nodup paged sorted, pagesBetween_nodup _ _, ?_⟩
  intro page isAllocated isManager
  obtain ⟨_, low, high⟩ := (mem_managerPages paged found).mp isManager
  exact (managerPages_apart sorted found low high).2
    ((mem_allocatedPages paged).mp isAllocated).2

/-- Every page that is marked belongs to a combined region. -/
theorem busyPages_placed (paged : PagedTable table) (sorted : SortedTable table)
    (found : managerAddr table ≠ 0) {page : Nat} (busy : page ∈ busyPages table) :
    4096 ∣ page ∧ Placed table page := by
  rcases List.mem_append.mp busy with isAllocated | isManager
  · obtain ⟨isPage, region, inside, allocated, member⟩ :=
      (mem_allocatedPages paged).mp isAllocated
    exact ⟨isPage, placed_of_region sorted inside
      (combinable_iff.mpr (Or.inr allocated)) member⟩
  · obtain ⟨isPage, low, high⟩ := (mem_managerPages paged found).mp isManager
    exact ⟨isPage, (managerPages_apart sorted found low high).1⟩

/-- Unless the manager's pages wrap around, exactly the pages in use are
marked. -/
theorem mem_busyPages (paged : PagedTable table) (found : managerAddr table ≠ 0)
    (noWrap : managerAddr table + managerPageCount table * pageSize < 2 ^ 64)
    {page : Nat} :
    page ∈ busyPages table ↔ 4096 ∣ page ∧ page ∈ wantedBytes table := by
  have stop : managerStop table =
      managerAddr table + managerPageCount table * pageSize := by
    rw [managerStop]
    omega
  rw [busyPages, List.mem_append, mem_allocatedPages paged,
    mem_managerPages paged found, stop, wantedBytes, Set.mem_union, Set.mem_Ico,
    and_or_left]

end Busy

/-! ## Counting marks -/

section Marks

variable {s₀ s : KernelState}

/-- Whatever the physmap holds, marking a page sets at most one bit. -/
theorem pmmMarkPageBusy_cases (page : Nat) (s : KernelState) :
    pmmMarkPageBusy page s = s ∨
      ∃ q : BitAddress, q.bit < 8 ∧
        pmmMarkPageBusy page s = { s with virtual := mark s.virtual q } := by
  rw [pmmMarkPageBusy, editPage_eq]
  split
  next => exact Or.inl rfl
  next region _ =>
    split
    next => exact Or.inl rfl
    next => exact Or.inr ⟨_, pagePosition_bit region page, rfl⟩

/-- Marking pages sets at most as many of the missing bits. -/
theorem card_missing_le_markEach (wanted : Finset BitAddress) (pages : List Nat) :
    ∀ s : KernelState, (missing s.virtual wanted).card ≤
      (missing (markEach pages s).virtual wanted).card + pages.length := by
  induction pages with
  | nil => exact fun _ => Nat.le_refl _
  | cons page rest inductionHypothesis =>
      intro s
      rw [markEach_cons, List.length_cons]
      have tail := inductionHypothesis (pmmMarkPageBusy page s)
      rcases pmmMarkPageBusy_cases page s with same | ⟨q, low, marked⟩
      · rw [same] at tail ⊢
        omega
      · have head := Bitmap.card_missing_le_mark (m := s.virtual) low wanted
        rw [marked] at tail ⊢
        dsimp only at tail
        omega

variable {first : PhysmemRegion} {rest : List PhysmemRegion}

/-- A mark after which fewer bits are missing sets the bit that the first entry
has for the page. -/
theorem markPage_hits {s : KernelState} (current : PopulatedPhysmap s)
    (entries : physmapOf s = first :: rest) {wanted : Finset BitAddress}
    {page : Nat}
    (fewer : (missing (pmmMarkPageBusy page s).virtual wanted).card <
      (missing s.virtual wanted).card) :
    first.type = .available ∧ first.addr ≤ page ∧
      pagePosition first page ∈ wanted ∧
      pmmMarkPageBusy page s = setPageBit first page s := by
  have changes : pmmMarkPageBusy page s ≠ s := by
    intro unchanged
    rw [unchanged] at fewer
    exact Nat.lt_irrefl _ fewer
  have reached : ¬ page < first.addr := fun below =>
    changes (pageEdits_below current.sorted entries below).1
  have available : first.type = .available := by
    by_contra unavailable
    exact changes (pageEdits_unavailable current.sorted entries reached unavailable).1
  have marked := (pageEdits_available current.sorted entries reached available).1
  have hit : pagePosition first page ∈ missing s.virtual wanted := by
    by_contra notMissing
    have none := Bitmap.missing_mark_of_notMem (pagePosition_bit first page)
      notMissing
    rw [marked, setPageBit] at fewer
    dsimp only at fewer
    rw [none] at fewer
    exact Nat.lt_irrefl _ fewer
  exact ⟨available, Nat.not_lt.mp reached, (Bitmap.mem_missing.mp hit).1, marked⟩

/-- If as few marks as bits are missing set all of them, every mark sets one,
at the place that the first entry has for its page. -/
theorem markEach_hits (populated : PopulatedPhysmap s₀)
    (entries : physmapOf s₀ = first :: rest) (wanted : Finset BitAddress)
    (inSlices : ∀ q ∈ wanted, ∃ region ∈ physmapOf s₀, region.type = .available ∧
      q.byte ∈ slice region) (pages : List Nat) :
    ∀ s : KernelState, SamePhysmap s₀ s →
      pages.length ≤ (missing s.virtual wanted).card →
      (missing (markEach pages s).virtual wanted).card = 0 →
      ∀ page ∈ pages, first.type = .available ∧ first.addr ≤ page ∧
        pagePosition first page ∈ wanted := by
  induction pages with
  | nil => simp
  | cons page pages inductionHypothesis =>
      intro s same many done
      rw [List.length_cons] at many
      rw [markEach_cons] at done
      have current := populated.congr same
      have slow := card_missing_le_markEach wanted pages (pmmMarkPageBusy page s)
      obtain ⟨available, reached, isWanted, marked⟩ := markPage_hits current
        (same.entries.trans entries)
        (show (missing (pmmMarkPageBusy page s).virtual wanted).card < _ by omega)
      rw [setPageBit] at marked
      -- A bit in a slice leaves the entries alone.
      obtain ⟨region, isEntry, regionAvailable, inSlice⟩ :=
        inSlices _ isWanted
      have next : SamePhysmap s₀ (pmmMarkPageBusy page s) := by
        rw [marked]
        exact same.trans (mark_samePhysmap current (same.entries.symm ▸ isEntry)
          regionAvailable inSlice)
      have head := Bitmap.card_missing_le_mark (m := s.virtual)
        (pagePosition_bit first page) wanted
      have remaining : pages.length ≤
          (missing (pmmMarkPageBusy page s).virtual wanted).card := by
        rw [marked]
        dsimp only
        omega
      intro other inside
      rcases List.mem_cons.mp inside with rfl | inside
      · exact ⟨available, reached, isWanted⟩
      · exact inductionHypothesis _ next remaining done other inside

/-- Where the first entry serves every page, the marks are those of the pages'
own bits. -/
theorem markEach_served (populated : PopulatedPhysmap s₀) (position : Nat → BitAddress)
    (pages : List Nat)
    (served : ∀ page ∈ pages, FirstEntryServes s₀ page)
    (owned : ∀ page ∈ pages, ∃ region ∈ physmapOf s₀, region.type = .available ∧
      page ∈ region.bytes ∧ pagePosition region page = position page) :
    ∀ s : KernelState, SamePhysmap s₀ s →
      (markEach pages s).virtual = markAll s.virtual (pages.map position) := by
  induction pages with
  | nil => exact fun _ _ => rfl
  | cons page pages inductionHypothesis =>
      intro s same
      obtain ⟨region, inside, available, member, isPosition⟩ := owned page (by simp)
      have current := populated.congr same
      have insideNow : region ∈ physmapOf s := same.entries.symm ▸ inside
      have marked := (((served page (by simp)).congr same).editsItsBit current).marks
        region insideNow available member
      have next := same.trans
        (setPageBit_samePhysmap current insideNow available member)
      rw [markEach_cons, marked, inductionHypothesis
        (fun other isOther => served other (List.mem_cons_of_mem _ isOther))
        (fun other isOther => owned other (List.mem_cons_of_mem _ isOther)) _ next,
        List.map_cons, setPageBit, isPosition]
      rfl

end Marks

/-- An increasing numbering of finitely many pages whose numbers are all used by
another one is that one. -/
theorem eq_of_image_subset {pages : Finset Nat} {f g : Nat → Nat}
    (increasingF : StrictMonoOn f pages) (increasingG : StrictMonoOn g pages)
    (numbers : pages.image f ⊆ pages.image g) : ∀ p ∈ pages, f p = g p := by
  -- Both number as many pages, so that they use the same numbers.
  have same : pages.image f = pages.image g := by
    apply Finset.eq_of_subset_of_card_le numbers
    rw [Finset.card_image_of_injOn increasingF.injOn,
      Finset.card_image_of_injOn increasingG.injOn]
  have monotoneF : StrictMono fun p : {p // p ∈ pages} => f p :=
    fun p q order => increasingF p.2 q.2 order
  have monotoneG : StrictMono fun p : {p // p ∈ pages} => g p :=
    fun p q order => increasingG p.2 q.2 order
  have ranges : Set.range (fun p : {p // p ∈ pages} => f p) =
      Set.range fun p : {p // p ∈ pages} => g p := by
    ext k
    have member := Finset.ext_iff.mp same k
    simpa [Finset.mem_image] using member
  intro p inside
  exact congrFun ((monotoneF.range_inj monotoneG).mp ranges) ⟨p, inside⟩

end SampoOS.Kernel
