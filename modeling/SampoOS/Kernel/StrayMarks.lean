/-
Module: SampoOS.Kernel.StrayMarks
Purpose: Marks that leave the bitmap for the array of entries behind it: which of
  them the physmap gets over, and which spoil an entry for good.
Trusted boundary: none
Main exports: keyBytes, AgreesOn, markEach_agrees, markEach_samePhysmap,
  markEach_unaligned, arrayBits, keyBits, MarksMiss, MarksHitOffset,
  MarksMiss.bounds, MarksHitOffset.unaligned
-/
import SampoOS.Kernel.BitmapAfterInit

namespace SampoOS.Kernel

open ByteMemory
open Bitmap (BitAddress bitAt mark bitNumber)

/-! ## The bytes that matter -/

/-- The bytes that the lookup of a page depends on, and the bounds of the entries:
the addresses and lengths, and all fields of the first entry. -/
def keyBytes (s : KernelState) : Set Nat :=
  {x | ∃ i < s.physmemLen, physmapEntry s i ≤ x ∧
    (x < physmapEntry s i + 16 ∨ i = 0 ∧ x < physmapEntry s i + 28)}

/-- The bytes of all entries. -/
def arrayBytes (s : KernelState) : Set Nat :=
  cyclicRange 64 s.physmap (physmemRegionSize * s.physmemLen)

/-- The address and the length of an entry. -/
def PhysmemRegion.bounds (region : PhysmemRegion) : Nat × Nat :=
  (region.addr, region.len)

/-- Two states agree on some bytes, and on where the physmap lies. -/
structure AgreesOn (bytes : Set Nat) (s s' : KernelState) : Prop where
  physmap : s'.physmap = s.physmap
  physmemLen : s'.physmemLen = s.physmemLen
  same : ∀ x ∈ bytes, s'.virtual x = s.virtual x

theorem AgreesOn.refl (bytes : Set Nat) (s : KernelState) : AgreesOn bytes s s :=
  ⟨rfl, rfl, fun _ _ => rfl⟩

section Agree

variable {bytes : Set Nat} {s₀ s : KernelState}

theorem loadRegion_bounds {m m' : Memory} {ptr : Nat} (slot : SlotAddress ptr)
    (same : ∀ x, ptr ≤ x → x < ptr + 16 → m x = m' x) :
    (loadRegion m ptr).bounds = (loadRegion m' ptr).bounds := by
  simp only [PhysmemRegion.bounds, loadRegion, slot.offset (show 8 < 32 by decide)]
  rw [loadLe_congr (n := 8) fun x low high => same x (by omega) (by omega),
    loadLe_congr (a := ptr + 8) (n := 8) fun x low high =>
      same x (by omega) (by omega)]

theorem loadRegion_of_fields {m m' : Memory} {ptr : Nat} (slot : SlotAddress ptr)
    (same : ∀ x, ptr ≤ x → x < ptr + 28 → m x = m' x) :
    loadRegion m ptr = loadRegion m' ptr := by
  simp only [loadRegion, slot.offset (show 8 < 32 by decide),
    slot.offset (show 16 < 32 by decide), slot.offset (show 24 < 32 by decide)]
  rw [loadLe_congr (n := 8) fun x low high => same x (by omega) (by omega),
    loadLe_congr (a := ptr + 8) (n := 8) fun x low high =>
      same x (by omega) (by omega),
    loadLe_congr (a := ptr + 16) (n := 8) fun x low high =>
      same x (by omega) (by omega),
    loadLe_congr (n := 4) fun x low high => same x (by omega) (by omega)]

theorem AgreesOn.entry (agrees : AgreesOn bytes s₀ s) (i : Nat) :
    physmapEntry s i = physmapEntry s₀ i := by
  rw [physmapEntry, physmapEntry, agrees.physmap]

/-- States that agree on the key bytes have entries with the same bounds. -/
theorem AgreesOn.bounds (agrees : AgreesOn bytes s₀ s) (keys : keyBytes s₀ ⊆ bytes)
    (array : PhysmapArray s₀ s₀.physmemLen) :
    (physmapOf s).map PhysmemRegion.bounds =
      (physmapOf s₀).map PhysmemRegion.bounds := by
  rw [physmapOf, physmapOf, agrees.physmemLen, List.map_map, List.map_map]
  apply List.map_congr_left
  intro i below
  rw [List.mem_range] at below
  have same : ∀ x, physmapEntry s₀ i ≤ x → x < physmapEntry s₀ i + 16 →
      s.virtual x = s₀.virtual x := fun x low high =>
    agrees.same x (keys ⟨i, below, low, Or.inl high⟩)
  rw [Function.comp_apply, Function.comp_apply, agrees.entry]
  exact loadRegion_bounds (array.slot i) same

/-- And the same first entry. -/
theorem AgreesOn.head? (agrees : AgreesOn bytes s₀ s) (keys : keyBytes s₀ ⊆ bytes)
    (array : PhysmapArray s₀ s₀.physmemLen) :
    (physmapOf s).head? = (physmapOf s₀).head? := by
  rw [physmapOf, physmapOf, agrees.physmemLen, List.head?_map, List.head?_map]
  cases isFirst : (List.range s₀.physmemLen).head? with
  | none => rw [Option.map_none, Option.map_none]
  | some i =>
      have below := List.mem_range.mp (List.mem_of_head? isFirst)
      have isZero : i = 0 := by
        rw [List.head?_range] at isFirst
        split at isFirst
        · exact absurd isFirst (by simp)
        · exact (Option.some.inj isFirst).symm
      have same : ∀ x, physmapEntry s₀ i ≤ x → x < physmapEntry s₀ i + 28 →
          s.virtual x = s₀.virtual x := fun x low high =>
        agrees.same x (keys ⟨i, below, low, Or.inr ⟨isZero, high⟩⟩)
      rw [Option.map_some, Option.map_some, agrees.entry,
        loadRegion_of_fields (array.slot i) same]

theorem AgreesOn.sorted (agrees : AgreesOn bytes s₀ s) (keys : keyBytes s₀ ⊆ bytes)
    (array : PhysmapArray s₀ s₀.physmemLen)
    (sorted : (physmapOf s₀).Pairwise fun a b => a.addr ≤ b.addr) :
    (physmapOf s).Pairwise fun a b => a.addr ≤ b.addr := by
  have same := agrees.bounds keys array
  have related : ((physmapOf s₀).map PhysmemRegion.bounds).Pairwise
      fun a b => a.1 ≤ b.1 := List.pairwise_map.mpr sorted
  rw [← same, List.pairwise_map] at related
  exact related

end Agree

/-! ## Marks -/

section Marks

variable {bytes : Set Nat} {s₀ s : KernelState} {page : Nat}

/-- If the first entry has a bit for the page, it is not in these bytes. -/
def MarkMisses (bytes : Set Nat) (s : KernelState) (page : Nat) : Prop :=
  ∀ first ∈ (physmapOf s).head?, first.type = .available → first.addr ≤ page →
    (pagePosition first page).byte ∉ bytes

/-- Marking a page sets the bit that the first entry has for it, if it has one. -/
theorem pmmMarkPageBusy_first
    (sorted : (physmapOf s).Pairwise fun a b => a.addr ≤ b.addr) (page : Nat) :
    pmmMarkPageBusy page s = s ∨ ∃ first ∈ (physmapOf s).head?,
      first.type = .available ∧ first.addr ≤ page ∧
        pmmMarkPageBusy page s = setPageBit first page s := by
  cases entries : physmapOf s with
  | nil => exact Or.inl (pageEdits_none page entries).1
  | cons first rest =>
      by_cases below : page < first.addr
      · exact Or.inl (pageEdits_below sorted entries below).1
      · by_cases available : first.type = .available
        · exact Or.inr ⟨first, rfl, available, Nat.not_lt.mp below,
            (pageEdits_available sorted entries below available).1⟩
        · exact Or.inl (pageEdits_unavailable sorted entries below available).1

/-- Where a byte of an entry lies. -/
theorem PhysmapArray.entry_add {length i d : Nat} (array : PhysmapArray s length)
    (small : d < 32) :
    physmapEntry s i + d = (s.physmap + (physmemRegionSize * i + d)) % 2 ^ 64 := by
  obtain ⟨aligned, word⟩ := array.slot i
  rw [physmapEntry] at aligned word ⊢
  omega

/-- Marks that miss the key bytes, and others, leave all of them alone. -/
theorem markEach_agrees (array : PhysmapArray s₀ s₀.physmemLen)
    (sorted : (physmapOf s₀).Pairwise fun a b => a.addr ≤ b.addr)
    (keys : keyBytes s₀ ⊆ bytes) (pages : List Nat)
    (misses : ∀ page ∈ pages, MarkMisses bytes s₀ page) :
    ∀ {s : KernelState}, AgreesOn bytes s₀ s →
      AgreesOn bytes s₀ (markEach pages s) := by
  induction pages with
  | nil => exact fun agrees => agrees
  | cons page pages inductionHypothesis =>
      intro s agrees
      rw [List.forall_mem_cons] at misses
      rw [markEach_cons]
      apply inductionHypothesis misses.2
      rcases pmmMarkPageBusy_first (agrees.sorted keys array sorted) page with
        same | ⟨first, isFirst, available, reached, marked⟩
      · rw [same]
        exact agrees
      · rw [agrees.head? keys array] at isFirst
        rw [marked]
        refine ⟨agrees.physmap, agrees.physmemLen, fun x inside => ?_⟩
        refine (Bitmap.mark_outside ?_).trans (agrees.same x inside)
        rintro rfl
        exact misses.1 first isFirst available reached inside

theorem keyBytes_subset (array : PhysmapArray s s.physmemLen) :
    keyBytes s ⊆ arrayBytes s := by
  rintro x ⟨i, below, low, high⟩
  exact array.mem_cyclicRange below low (by omega)

/-- Where all of its bytes are the same, the physmap is. -/
theorem AgreesOn.samePhysmap (agrees : AgreesOn (arrayBytes s₀) s₀ s)
    (array : PhysmapArray s₀ s₀.physmemLen) : SamePhysmap s₀ s := by
  obtain ⟨physmap, physmemLen, same⟩ := agrees
  refine ⟨physmap, physmemLen, array.physmapOf_congr physmap physmemLen ?_⟩
  rintro x ⟨i, below, low, high⟩
  exact same x (array.mem_cyclicRange below low high)

/-- Marks that miss the array leave the entries alone. -/
theorem markEach_samePhysmap (array : PhysmapArray s₀ s₀.physmemLen)
    (sorted : (physmapOf s₀).Pairwise fun a b => a.addr ≤ b.addr) (pages : List Nat)
    (misses : ∀ page ∈ pages, MarkMisses (arrayBytes s₀) s₀ page) :
    SamePhysmap s₀ (markEach pages s₀) :=
  (markEach_agrees array sorted (keyBytes_subset array) pages misses
    (.refl _ s₀)).samePhysmap array

/-- Marks that miss the key bytes leave the bounds of the entries alone. -/
theorem markEach_bounds (array : PhysmapArray s₀ s₀.physmemLen)
    (sorted : (physmapOf s₀).Pairwise fun a b => a.addr ≤ b.addr) (pages : List Nat)
    (misses : ∀ page ∈ pages, MarkMisses (keyBytes s₀) s₀ page) :
    (physmapOf (markEach pages s₀)).map PhysmemRegion.bounds =
      (physmapOf s₀).map PhysmemRegion.bounds :=
  (markEach_agrees array sorted Set.Subset.rfl pages misses (.refl _ s₀)).bounds
    Set.Subset.rfl array

/-- Where the first entry serves, the mark does not leave the bitmaps. -/
theorem FirstEntryServes.markMisses (serves : FirstEntryServes s page)
    (populated : PopulatedPhysmap s) : MarkMisses (arrayBytes s) s page := by
  intro first isFirst available reached
  rcases serves first isFirst reached with
    ⟨_, own, isOwn, ownAvailable, member, same⟩ | ⟨unavailable, _⟩
  · rw [← same]
    exact Set.disjoint_left.mp (populated.behind own isOwn ownAvailable)
      (pagePosition_mem_slice populated isOwn ownAvailable member)
  · exact absurd available unavailable

/-! ## Marks for good -/

/-- What is set stays set, and the physmap stays where it is. -/
theorem markEach_keeps (pages : List Nat) : ∀ s : KernelState,
    (markEach pages s).physmap = s.physmap ∧
      (markEach pages s).physmemLen = s.physmemLen ∧
      ∀ q, bitAt s.virtual q = true → bitAt (markEach pages s).virtual q = true := by
  induction pages with
  | nil => exact fun s => ⟨rfl, rfl, fun _ set => set⟩
  | cons page pages inductionHypothesis =>
      intro s
      obtain ⟨physmap, physmemLen, bits⟩ := inductionHypothesis (pmmMarkPageBusy page s)
      rw [markEach_cons]
      rcases pmmMarkPageBusy_cases page s with same | ⟨q, low, marked⟩
      · rw [same] at physmap physmemLen bits ⊢
        exact ⟨physmap, physmemLen, bits⟩
      · rw [marked] at physmap physmemLen bits ⊢
        refine ⟨physmap, physmemLen, fun r set => bits r ?_⟩
        simp [Bitmap.bitAt_mark _ low, set]

/-- The offsets in their pages of the address and of the length of an entry. -/
def IsOffsetBit (s : KernelState) (q : BitAddress) : Prop :=
  ∃ i < s.physmemLen, ∃ field ∈ [0, 8], ∃ k < 12,
    q = ⟨physmapEntry s i + field + k / 8, k % 8⟩

/-- With such a bit set, an entry is not one of whole pages. -/
theorem unaligned_of_offsetBit (array : PhysmapArray s s.physmemLen) {q : BitAddress}
    (offset : IsOffsetBit s q) (set : bitAt s.virtual q = true) :
    ∃ region ∈ physmapOf s, ¬ (pageSize ∣ region.addr ∧ pageSize ∣ region.len) := by
  obtain ⟨i, below, field, isField, k, low, rfl⟩ := offset
  have notWhole : ¬ pageSize ∣ loadLe s.virtual (physmapEntry s i + field) 8 := by
    rintro ⟨pages, whole⟩
    have isSet : (loadLe s.virtual (physmapEntry s i + field) 8).testBit k = true := by
      rw [← Nat.div_add_mod k 8, Bitmap.loadLe_testBit _ _ (by omega)
        (Nat.mod_lt _ (by decide))]
      exact set
    rw [whole, show pageSize = 2 ^ 12 from rfl, Nat.testBit_two_pow_mul] at isSet
    simp [show ¬ 12 ≤ k by omega] at isSet
  have slot := array.slot i
  refine ⟨_, List.mem_map_of_mem (List.mem_range.mpr below), fun whole => notWhole ?_⟩
  simp only [List.mem_cons, List.not_mem_nil, or_false] at isField
  rcases isField with rfl | rfl
  · exact whole.1
  · rw [← slot.offset (show 8 < 32 by decide)]
    exact whole.2

/-- A mark of such a bit behind marks that miss the key bytes spoils an entry,
whatever is marked after it. -/
theorem markEach_unaligned (array : PhysmapArray s₀ s₀.physmemLen)
    (sorted : (physmapOf s₀).Pairwise fun a b => a.addr ≤ b.addr)
    {front back : List Nat} {first : PhysmemRegion}
    (isFirst : (physmapOf s₀).head? = some first) (available : first.type = .available)
    (misses : ∀ other ∈ front, MarkMisses (keyBytes s₀) s₀ other)
    (reached : first.addr ≤ page) (offset : IsOffsetBit s₀ (pagePosition first page)) :
    ∃ region ∈ physmapOf (markEach (front ++ page :: back) s₀),
      ¬ (pageSize ∣ region.addr ∧ pageSize ∣ region.len) := by
  have agrees := markEach_agrees array sorted Set.Subset.rfl front misses (.refl _ s₀)
  rw [markEach_append, markEach_cons]
  generalize markEach front s₀ = s at agrees ⊢
  have sortedNow := agrees.sorted Set.Subset.rfl array sorted
  have firstNow := (agrees.head? Set.Subset.rfl array).trans isFirst
  obtain ⟨rest, entries⟩ := List.head?_eq_some_iff.mp firstNow
  have marked := (pageEdits_available sortedNow entries (Nat.not_lt.mpr reached)
    available).1
  obtain ⟨physmap, physmemLen, bits⟩ := markEach_keeps back (pmmMarkPageBusy page s)
  have set := bits (pagePosition first page) (by
    rw [marked, setPageBit, Bitmap.bitAt_mark _ (pagePosition_bit first page)]
    simp)
  have samePhysmap : (markEach back (pmmMarkPageBusy page s)).physmap = s₀.physmap := by
    rw [physmap, marked]
    exact agrees.physmap
  have sameLen : (markEach back (pmmMarkPageBusy page s)).physmemLen =
      s₀.physmemLen := by
    rw [physmemLen, marked]
    exact agrees.physmemLen
  refine unaligned_of_offsetBit ?_ ?_ set
  · obtain ⟨aligned, word, room⟩ := array
    exact ⟨by rwa [samePhysmap], by rwa [samePhysmap], by rwa [sameLen]⟩
  · simp only [IsOffsetBit, physmapEntry, samePhysmap, sameLen]
    exact offset

end Marks

/-! ## Tables -/

/-- The number that a page has in the bitmap of a table's first region. -/
def firstIndex (first : MemoryRegion) (page : Nat) : Nat :=
  (page - first.addrStart) / pageSize

theorem firstIndex_le (first : MemoryRegion) (page : Nat) :
    firstIndex first page ≤ page :=
  Nat.le_trans (Nat.div_le_self _ _) (Nat.sub_le _ _)

/-- The number of the first bit behind the bitmap, where the array of entries
begins. -/
def bitmapEnd (table : RegionTable) : Nat :=
  8 * ((regionCounts table).bitmapPageCount * pageSize)

/-- The numbers behind the bitmap that are bits of entries. -/
def arrayBits (table : RegionTable) : Set Nat :=
  {k | bitmapEnd table ≤ k ∧ k < bitmapEnd table +
    8 * (physmemRegionSize * (regionCounts table).combinedRegionCount)}

/-- Those of the addresses and lengths, and of all fields of the first entry. -/
def keyBits (table : RegionTable) : Set Nat :=
  {k | k ∈ arrayBits table ∧
    ((k - bitmapEnd table) % 256 < 128 ∨ k - bitmapEnd table < 224)}

/-- Those of the offsets that addresses and lengths have in their pages. -/
def offsetBits (table : RegionTable) : Set Nat :=
  {k | k ∈ arrayBits table ∧
    (k - bitmapEnd table) % 256 < 128 ∧ (k - bitmapEnd table) % 64 < 12}

/-- The pages that are marked have none of these numbers, as far as the first region
has a bit for them. -/
def MarksMiss (bits : Set Nat) (table : RegionTable) : Prop :=
  ∀ first ∈ table.head?, combinable first = true → ∀ page ∈ busyPages table,
    first.addrStart ≤ page → firstIndex first page ∉ bits

/-- The first of the marks that does not miss the key bits falls on an offset. -/
def MarksHitOffset (table : RegionTable) : Prop :=
  ∃ first ∈ table.head?, combinable first = true ∧ ∃ front page back,
    busyPages table = front ++ page :: back ∧
      (∀ other ∈ front, first.addrStart ≤ other →
        firstIndex first other ∉ keyBits table) ∧
      first.addrStart ≤ page ∧ firstIndex first page ∈ offsetBits table

theorem MarksHitOffset.not_miss {table : RegionTable} (hit : MarksHitOffset table) :
    ¬ MarksMiss (keyBits table) table := by
  intro misses
  obtain ⟨first, isHead, isCombinable, front, page, back, pages, _, reached, inside,
    field, _⟩ := hit
  exact misses first isHead isCombinable page (by simp [pages]) reached
    ⟨inside, Or.inl field⟩

/-- Behind a hole of 128 MiB the manager's first page is looked up at the first bit of
the array. -/
example : MarksHitOffset
    [⟨0x1000, 0x9F000, .available⟩, ⟨0x8001000, 0x8101000, .available⟩] :=
  ⟨⟨0x1000, 0x9F000, .available⟩, rfl, rfl, [], 0x8001000, [0x8002000], by decide,
    by simp, by decide, ⟨by decide, by decide⟩, by decide, by decide⟩

section Tables

variable {table : RegionTable} {ptr : Nat} {s : KernelState}

/-- The first entry is that of the first region, whose slice starts the
bitmap. -/
theorem physmapRegions_cons (first : MemoryRegion) (rest : List MemoryRegion)
    (ptr : Nat) : ∃ stop others, physmapRegions ptr (first :: rest) =
      CombinedRegion.entry ⟨first, stop⟩ ((ptr + 0) % 2 ^ 64) :: others := by
  rw [physmapRegions, combinedRegions]
  split
  · exact ⟨_, _, rfl⟩
  · exact ⟨_, _, rfl⟩

/-- The bit that the first entry has for a page. -/
theorem pagePosition_first {first : MemoryRegion} {stop : Nat}
    (isCombinable : combinable first = true) (page : Nat) :
    pagePosition (CombinedRegion.entry ⟨first, stop⟩ ((ptr + 0) % 2 ^ 64)) page =
      bitNumber 64 ptr ((page - first.addrStart) / pageSize) := by
  have position := pagePosition_entry ptr (⟨first, stop⟩, 0) isCombinable page
  rw [position, placeIndex, Nat.mul_zero, Nat.zero_add]

theorem busyPages_lt (paged : PagedTable table) (found : managerAddr table ≠ 0)
    {page : Nat} (busy : page ∈ busyPages table) : page < 2 ^ 64 := by
  rcases List.mem_append.mp busy with isAllocated | isManager
  · obtain ⟨_, region, inside, _, member⟩ :=
      (mem_allocatedPages paged).mp isAllocated
    rw [MemoryRegion.mem_bytes] at member
    have word := (paged.words region inside).2
    omega
  · obtain ⟨_, _, _, word⟩ := managerAddr_aligned paged found
    have high := ((mem_managerPages paged found).mp isManager).2.2
    omega

/-- Bitmap and array together are shorter than the address space. -/
theorem PagedTable.array_fits (paged : PagedTable table) :
    (regionCounts table).bitmapPageCount * pageSize +
      physmemRegionSize * (regionCounts table).combinedRegionCount < 2 ^ 64 := by
  obtain ⟨_, _, array, pages, fits⟩ := paged.counts
  have count : (regionCounts table).combinedRegionCount =
      (combinedRegions 0 table).length := by
    rw [paged.toBootTable.regionCounts_eq]
  rw [pages, Nat.add_mul] at fits
  rw [count]
  omega

/-- A byte of the array is one behind the bitmap. -/
theorem eq_of_mem_arrayBytes (paged : PagedTable table) (aligned : 4096 ∣ ptr)
    (word : ptr < 2 ^ 64) (fresh : s.physmemLen = 0) {k j : Nat} (small : k < 2 ^ 64)
    (below : j < physmemRegionSize * (regionCounts table).combinedRegionCount)
    (same : (bitNumber 64 ptr k).byte =
      ((setUpPhysmap table ptr s).physmap + j) % 2 ^ 64) :
    k / 8 = (regionCounts table).bitmapPageCount * pageSize + j := by
  obtain ⟨_, physmap, _⟩ := setUpPhysmap_array paged.toBootTable aligned word fresh
  have fits := paged.array_fits
  rw [physmap, Nat.mod_add_mod, Nat.add_assoc] at same
  exact cyclic_injective (w := 64) (by omega) (by omega)
    (show (ptr + k / 8) % 2 ^ 64 = _ from same)

theorem mem_arrayBits (paged : PagedTable table) (aligned : 4096 ∣ ptr)
    (word : ptr < 2 ^ 64) (fresh : s.physmemLen = 0) {k : Nat} (small : k < 2 ^ 64)
    (inside : (bitNumber 64 ptr k).byte ∈ arrayBytes (setUpPhysmap table ptr s)) :
    k ∈ arrayBits table := by
  obtain ⟨_, _, length⟩ := setUpPhysmap_array paged.toBootTable aligned word fresh
  rw [arrayBytes, length] at inside
  obtain ⟨j, below, same⟩ := inside
  have number := eq_of_mem_arrayBytes paged aligned word fresh small below same
  rw [arrayBits, bitmapEnd, Set.mem_ofPred_eq]
  omega

theorem mem_keyBits (paged : PagedTable table) (aligned : 4096 ∣ ptr)
    (word : ptr < 2 ^ 64) (fresh : s.physmemLen = 0) {k : Nat} (small : k < 2 ^ 64)
    (inside : (bitNumber 64 ptr k).byte ∈ keyBytes (setUpPhysmap table ptr s)) :
    k ∈ keyBits table := by
  obtain ⟨array, _, length⟩ := setUpPhysmap_array paged.toBootTable aligned word fresh
  refine ⟨mem_arrayBits paged aligned word fresh small
    (keyBytes_subset array inside), ?_⟩
  obtain ⟨i, below, low, high⟩ := inside
  obtain ⟨d, byte⟩ := Nat.exists_eq_add_of_le low
  have small : d < 16 ∨ i = 0 ∧ d < 28 := by omega
  have number := eq_of_mem_arrayBytes paged aligned word fresh ‹k < 2 ^ 64›
    (j := physmemRegionSize * i + d) (by rw [physmemRegionSize]; omega)
    (byte.trans (array.entry_add (by omega)))
  rw [physmemRegionSize] at number
  rw [bitmapEnd]
  omega

theorem isOffsetBit_of_mem (paged : PagedTable table) (aligned : 4096 ∣ ptr)
    (word : ptr < 2 ^ 64) (fresh : s.physmemLen = 0) {k : Nat}
    (inside : k ∈ offsetBits table) :
    IsOffsetBit (setUpPhysmap table ptr s) (bitNumber 64 ptr k) := by
  obtain ⟨array, physmap, length⟩ :=
    setUpPhysmap_array paged.toBootTable aligned word fresh
  obtain ⟨⟨low, high⟩, field, bit⟩ := inside
  rw [bitmapEnd] at low high field bit
  rw [physmemRegionSize] at high
  obtain ⟨b, behind⟩ := Nat.exists_eq_add_of_le low
  rw [behind, Nat.add_sub_cancel_left] at field bit
  refine ⟨b / 256, by omega, 8 * (b % 256 / 64), ?_, b % 64, bit, ?_⟩
  · have two : b % 256 / 64 = 0 ∨ b % 256 / 64 = 1 := by omega
    rcases two with zero | one
    · simp [zero]
    · simp [one]
  · have entry : physmapEntry (setUpPhysmap table ptr s) (b / 256) +
        (8 * (b % 256 / 64) + b % 64 / 8) =
        ((setUpPhysmap table ptr s).physmap + (physmemRegionSize * (b / 256) +
          (8 * (b % 256 / 64) + b % 64 / 8))) % 2 ^ 64 :=
      array.entry_add (by omega)
    rw [physmap, Nat.mod_add_mod, Nat.add_assoc, physmemRegionSize] at entry
    rw [bitNumber, BitAddress.mk.injEq, Nat.add_assoc, entry, behind]
    refine ⟨?_, by omega⟩
    congr 1
    omega

/-- The first entry of a populated physmap is that of the table's first region. -/
theorem setUpPhysmap_first (paged : PagedTable table) (aligned : 4096 ∣ ptr)
    (word : ptr < 2 ^ 64) (fresh : s.physmemLen = 0) {entry : PhysmemRegion}
    (isFirst : entry ∈ (physmapOf (setUpPhysmap table ptr s)).head?)
    (available : entry.type = .available) :
    ∃ first ∈ table.head?, combinable first = true ∧ entry.addr = first.addrStart ∧
      ∀ page, pagePosition entry page = bitNumber 64 ptr (firstIndex first page) := by
  rw [(setUpPhysmap_physmap paged.toBootTable aligned word fresh).2] at isFirst
  cases table with
  | nil => simp [physmapRegions, combinedRegions, placed, placedEntries] at isFirst
  | cons first rest =>
      obtain ⟨stop, others, shape⟩ := physmapRegions_cons first rest ptr
      rw [shape] at isFirst
      obtain rfl := Option.some.inj isFirst
      have isCombinable : combinable first = true :=
        combinable_iff.mpr (physmemType_available.mp available)
      exact ⟨first, rfl, isCombinable, rfl, pagePosition_first isCombinable⟩

/-- Marks that miss the numbers of some bits miss their bytes. -/
theorem MarksMiss.markMisses {bits bytes : Set Nat} (misses : MarksMiss bits table)
    (paged : PagedTable table) (found : managerAddr table ≠ 0) (aligned : 4096 ∣ ptr)
    (word : ptr < 2 ^ 64) (fresh : s.physmemLen = 0)
    (numbers : ∀ k < 2 ^ 64, (bitNumber 64 ptr k).byte ∈ bytes → k ∈ bits) :
    ∀ page ∈ busyPages table,
      MarkMisses bytes (setUpPhysmap table ptr s) page := by
  intro page busy entry isFirst available reached inside
  obtain ⟨first, isHead, isCombinable, start, position⟩ :=
    setUpPhysmap_first paged aligned word fresh isFirst available
  have small := busyPages_lt paged found busy
  rw [start] at reached
  rw [position] at inside
  exact misses first isHead isCombinable page busy reached (numbers _
    (Nat.lt_of_le_of_lt (firstIndex_le first page) small) inside)

/-- Marks that miss the key bits leave the bounds of all entries as populated. -/
theorem MarksMiss.bounds (misses : MarksMiss (keyBits table) table)
    (paged : PagedTable table)
    (sorted : table.Pairwise fun a b => a.addrStart ≤ b.addrStart)
    (found : managerAddr table ≠ 0) (aligned : 4096 ∣ ptr) (word : ptr < 2 ^ 64)
    (fresh : s.physmemLen = 0) :
    (physmapOf (markEach (busyPages table) (setUpPhysmap table ptr s))).map
        PhysmemRegion.bounds =
      (physmapRegions ptr table).map PhysmemRegion.bounds := by
  have entries := (setUpPhysmap_physmap paged.toBootTable aligned word fresh).2
  rw [← entries]
  exact markEach_bounds (setUpPhysmap_array paged.toBootTable aligned word fresh).1
    (entries ▸ physmapRegions_sorted sorted) _
    (misses.markMisses paged found aligned word fresh fun _ small inside =>
      mem_keyBits paged aligned word fresh small inside)

/-- If the first mark that does not miss them falls on an offset, an entry is left that
is not one of whole pages. -/
theorem MarksHitOffset.unaligned (hit : MarksHitOffset table)
    (paged : PagedTable table)
    (sorted : table.Pairwise fun a b => a.addrStart ≤ b.addrStart)
    (found : managerAddr table ≠ 0) (aligned : 4096 ∣ ptr) (word : ptr < 2 ^ 64)
    (fresh : s.physmemLen = 0) :
    ∃ region ∈ physmapOf (markEach (busyPages table) (setUpPhysmap table ptr s)),
      ¬ (pageSize ∣ region.addr ∧ pageSize ∣ region.len) := by
  have entries := (setUpPhysmap_physmap paged.toBootTable aligned word fresh).2
  obtain ⟨first, isHead, isCombinable, front, page, back, pages, misses, reached,
    offset⟩ := hit
  obtain ⟨rest, isTable⟩ := List.head?_eq_some_iff.mp isHead
  obtain ⟨stop, others, shape⟩ := physmapRegions_cons first rest ptr
  rw [← isTable, ← entries] at shape
  have isFirst : (physmapOf (setUpPhysmap table ptr s)).head? = some
      (CombinedRegion.entry ⟨first, stop⟩ ((ptr + 0) % 2 ^ 64)) := by
    rw [shape]
    rfl
  rw [pages]
  refine markEach_unaligned
    (setUpPhysmap_array paged.toBootTable aligned word fresh).1
    (entries ▸ physmapRegions_sorted sorted) isFirst
    (physmemType_available.mpr (combinable_iff.mp isCombinable)) ?_ reached ?_
  · intro other inside entry isEntry _ above
    obtain rfl := Option.some.inj (isFirst.symm.trans isEntry)
    have small := busyPages_lt paged found (pages ▸ List.mem_append_left _ inside)
    rw [pagePosition_first isCombinable]
    intro isKey
    refine misses other inside above
      (mem_keyBits paged aligned word fresh ?_ isKey)
    exact Nat.lt_of_le_of_lt (firstIndex_le first other) small
  · rw [pagePosition_first isCombinable]
    exact isOffsetBit_of_mem paged aligned word fresh offset

end Tables

end SampoOS.Kernel
