/-
Module: SampoOS.Kernel.Physmap
Purpose: The physmap as an array in memory: what is read back of the entries
  that init_memory_manager writes, and which entries it writes for a table.
Trusted boundary: none
Main exports: physmapOf, PhysmapArray, addRegion_physmap, addRegions_physmap,
  placed, physmapRegions, countRegions_eq, populatePhysmap_eq
-/
import SampoOS.Kernel.CombinedRegions

namespace SampoOS.Kernel

open BitFields (clearLow_eq alignUp_eq)
open ByteMemory

/-! ## One entry -/

theorem PhysmemRegionType.ofCode_code (type : PhysmemRegionType) :
    ofCode type.code = type := by
  cases type <;> rfl

/-- The fields of an entry fit their C types. -/
structure PhysmemRegion.Fits (region : PhysmemRegion) : Prop where
  addr : region.addr < 2 ^ 64
  len : region.len < 2 ^ 64
  allocMap : region.allocMap < 2 ^ 64
  type : region.type.code < 2 ^ 32

/-- Where an entry may lie. -/
structure SlotAddress (ptr : Nat) : Prop where
  aligned : 32 ∣ ptr
  word : ptr < 2 ^ 64

section Slots

variable {m m' : Memory} {ptr : Nat} {region : PhysmemRegion}

theorem SlotAddress.offset (slot : SlotAddress ptr) {k : Nat} (small : k < 32) :
    (ptr + k) % 2 ^ 64 = ptr + k := by
  obtain ⟨aligned, word⟩ := slot
  omega

theorem storeRegion_outside (slot : SlotAddress ptr) {x : Nat}
    (outside : x < ptr ∨ ptr + 32 ≤ x) : storeRegion m ptr region x = m x := by
  simp only [storeRegion, slot.offset (show 8 < 32 by decide),
    slot.offset (show 16 < 32 by decide), slot.offset (show 24 < 32 by decide)]
  rw [storeLe_outside (by omega), storeLe_outside (by omega),
    storeLe_outside (by omega), storeLe_outside (by omega)]

theorem loadRegion_congr (slot : SlotAddress ptr)
    (same : ∀ x, ptr ≤ x → x < ptr + 32 → m x = m' x) :
    loadRegion m ptr = loadRegion m' ptr := by
  simp only [loadRegion, slot.offset (show 8 < 32 by decide),
    slot.offset (show 16 < 32 by decide), slot.offset (show 24 < 32 by decide)]
  rw [loadLe_congr (n := 8) fun x low high => same x (by omega) (by omega),
    loadLe_congr (a := ptr + 8) (n := 8) fun x low high =>
      same x (by omega) (by omega),
    loadLe_congr (a := ptr + 16) (n := 8) fun x low high =>
      same x (by omega) (by omega),
    loadLe_congr (n := 4) fun x low high => same x (by omega) (by omega)]

/-- An entry is read back as it was written. -/
theorem loadRegion_storeRegion (slot : SlotAddress ptr) (fits : region.Fits) :
    loadRegion (storeRegion m ptr region) ptr = region := by
  obtain ⟨addr, len, allocMap, type⟩ := fits
  simp only [loadRegion, storeRegion, slot.offset (show 8 < 32 by decide),
    slot.offset (show 16 < 32 by decide), slot.offset (show 24 < 32 by decide)]
  rw [loadLe_storeLe_disjoint (a := ptr + 24) (b := ptr) (by omega),
    loadLe_storeLe_disjoint (a := ptr + 16) (b := ptr) (by omega),
    loadLe_storeLe_disjoint (a := ptr + 8) (b := ptr) (by omega),
    loadLe_storeLe_disjoint (a := ptr + 24) (b := ptr + 8) (by omega),
    loadLe_storeLe_disjoint (a := ptr + 16) (b := ptr + 8) (by omega),
    loadLe_storeLe_disjoint (a := ptr + 24) (b := ptr + 16) (by omega)]
  simp only [loadLe_storeLe]
  rw [Nat.mod_eq_of_lt (show region.addr < 256 ^ 8 from addr),
    Nat.mod_eq_of_lt (show region.len < 256 ^ 8 from len),
    Nat.mod_eq_of_lt (show region.allocMap < 256 ^ 8 from allocMap),
    Nat.mod_eq_of_lt (show region.type.code < 256 ^ 4 from type),
    PhysmemRegionType.ofCode_code]

end Slots

/-! ## The array -/

/-- The entries of the physmap, as the code reads them. -/
def physmapOf (s : KernelState) : List PhysmemRegion :=
  (List.range s.physmemLen).map fun i => loadRegion s.virtual (physmapEntry s i)

/-- An array of entries that is aligned, and shorter than the address space. -/
structure PhysmapArray (s : KernelState) (length : Nat) : Prop where
  aligned : 32 ∣ s.physmap
  word : s.physmap < 2 ^ 64
  room : physmemRegionSize * length ≤ 2 ^ 64

namespace PhysmapArray

variable {s : KernelState} {length : Nat}

theorem slot (array : PhysmapArray s length) (i : Nat) :
    SlotAddress (physmapEntry s i) := by
  obtain ⟨aligned, word, room⟩ := array
  rw [physmapEntry, physmemRegionSize]
  exact ⟨by omega, Nat.mod_lt _ (by decide)⟩

/-- Different entries do not overlap. -/
theorem slots_apart (array : PhysmapArray s length) {i j : Nat}
    (below : i < length) (alsoBelow : j < length) (different : i ≠ j) :
    physmapEntry s i + 32 ≤ physmapEntry s j ∨
      physmapEntry s j + 32 ≤ physmapEntry s i := by
  obtain ⟨aligned, word, room⟩ := array
  rw [physmemRegionSize] at room
  rw [physmapEntry, physmapEntry, physmemRegionSize]
  omega

/-- The physmap does not depend on memory outside of its entries. -/
theorem physmapOf_congr {s' : KernelState} (array : PhysmapArray s length)
    (samePhysmap : s'.physmap = s.physmap)
    (sameLen : s'.physmemLen = s.physmemLen)
    (same : ∀ x, (∃ i < s.physmemLen, physmapEntry s i ≤ x ∧
      x < physmapEntry s i + 32) → s'.virtual x = s.virtual x) :
    physmapOf s' = physmapOf s := by
  rw [physmapOf, physmapOf, sameLen]
  apply List.map_congr_left
  intro i below
  rw [List.mem_range] at below
  have entry : physmapEntry s' i = physmapEntry s i := by
    rw [physmapEntry, physmapEntry, samePhysmap]
  rw [entry]
  exact loadRegion_congr (array.slot i) fun x low high =>
    same x ⟨i, below, low, high⟩

end PhysmapArray

/-- A new entry appears behind the others. -/
theorem addRegion_physmap {s : KernelState} {region : PhysmemRegion}
    (array : PhysmapArray s (s.physmemLen + 1)) (fits : region.Fits) :
    (addRegion region s).physmemLen = s.physmemLen + 1 ∧
      physmapOf (addRegion region s) = physmapOf s ++ [region] := by
  have length : (s.physmemLen + 1) % 2 ^ 64 = s.physmemLen + 1 := by
    have room := array.room
    rw [physmemRegionSize] at room
    omega
  have old : ((List.range s.physmemLen).map fun i =>
      loadRegion (addRegion region s).virtual (physmapEntry s i)) =
      physmapOf s := by
    apply List.map_congr_left
    intro i below
    rw [List.mem_range] at below
    have apart := array.slots_apart (show i < s.physmemLen + 1 by omega)
      (show s.physmemLen < s.physmemLen + 1 by omega) (by omega)
    apply loadRegion_congr (array.slot i)
    intro x low high
    exact storeRegion_outside (array.slot _) (by omega)
  have new : loadRegion (addRegion region s).virtual
      (physmapEntry s s.physmemLen) = region :=
    loadRegion_storeRegion (array.slot _) fits
  refine ⟨length, ?_⟩
  calc
    physmapOf (addRegion region s)
        = (List.range (addRegion region s).physmemLen).map fun i =>
            loadRegion (addRegion region s).virtual (physmapEntry s i) := rfl
    _ = physmapOf s ++ [region] := by
      rw [show (addRegion region s).physmemLen = s.physmemLen + 1 from length,
        List.range_succ, List.map_append, old, List.map_singleton, new]

/-- Write entries behind each other. -/
def addRegions (regions : List PhysmemRegion) (s : KernelState) : KernelState :=
  regions.foldl (fun s region => addRegion region s) s

/-- What adding entries leaves alone. -/
structure OnlyPhysmap (s s' : KernelState) : Prop where
  physical : s'.physical = s.physical
  root : s'.root = s.root
  kernelEndAddr : s'.kernelEndAddr = s.kernelEndAddr
  physmap : s'.physmap = s.physmap

theorem addRegions_only (regions : List PhysmemRegion) : ∀ s,
    OnlyPhysmap s (addRegions regions s) := by
  induction regions with
  | nil => exact fun s => ⟨rfl, rfl, rfl, rfl⟩
  | cons region rest inductionHypothesis =>
      intro s
      obtain ⟨physical, root, kernelEndAddr, physmap⟩ :=
        inductionHypothesis (addRegion region s)
      exact ⟨physical, root, kernelEndAddr, physmap⟩

/-- The new entries appear behind the others, in order. -/
theorem addRegions_physmap (regions : List PhysmemRegion) : ∀ {s : KernelState},
    PhysmapArray s (s.physmemLen + regions.length) →
    (∀ region ∈ regions, region.Fits) →
    (addRegions regions s).physmemLen = s.physmemLen + regions.length ∧
      physmapOf (addRegions regions s) = physmapOf s ++ regions := by
  induction regions with
  | nil => exact fun _ _ => ⟨rfl, (List.append_nil _).symm⟩
  | cons region rest inductionHypothesis =>
      intro s array fits
      have shorter : PhysmapArray s (s.physmemLen + 1) := by
        obtain ⟨aligned, word, room⟩ := array
        rw [physmemRegionSize, List.length_cons] at room
        exact ⟨aligned, word, by rw [physmemRegionSize]; omega⟩
      obtain ⟨length, head⟩ := addRegion_physmap shorter (fits region (by simp))
      have tail := inductionHypothesis (s := addRegion region s)
        ⟨array.aligned, array.word, by
          rw [length]
          have room := array.room
          rw [List.length_cons] at room
          rwa [show s.physmemLen + 1 + rest.length =
            s.physmemLen + (rest.length + 1) by omega]⟩
        fun other inside => fits other (List.mem_cons_of_mem _ inside)
      rw [length, head] at tail
      rw [List.length_cons]
      exact ⟨tail.1.trans (by omega), by
        rw [List.append_cons]
        exact tail.2⟩

/-- Only the new entries are written. -/
theorem addRegions_outside (regions : List PhysmemRegion) : ∀ {s : KernelState},
    PhysmapArray s (s.physmemLen + regions.length) →
    ∀ x, (∀ i, s.physmemLen ≤ i → i < s.physmemLen + regions.length →
        x < physmapEntry s i ∨ physmapEntry s i + 32 ≤ x) →
      (addRegions regions s).virtual x = s.virtual x := by
  induction regions with
  | nil => exact fun _ _ _ => rfl
  | cons region rest inductionHypothesis =>
      intro s array x outside
      rw [List.length_cons] at outside
      have room := array.room
      rw [physmemRegionSize, List.length_cons] at room
      have length : (addRegion region s).physmemLen = s.physmemLen + 1 :=
        Nat.mod_eq_of_lt (by omega)
      have tail := inductionHypothesis (s := addRegion region s)
        ⟨array.aligned, array.word, by
          rw [length, physmemRegionSize]
          omega⟩ x
        fun i low high => outside i (by omega) (by omega)
      exact tail.trans (storeRegion_outside (array.slot _)
        (outside s.physmemLen (by omega) (by omega)))

/-! ## The two passes -/

namespace CombinedRegion

/-- The length that the physmap records. -/
def size (combined : CombinedRegion) : Nat :=
  sub64 combined.stop combined.region.addrStart

/-- The bits that the first pass counts. -/
def bits (combined : CombinedRegion) : Nat :=
  if combinable combined.region then
    bitmapBits combined.region.addrStart combined.stop
  else 0

/-- The bytes of the slice that the second pass hands out. -/
def sliceBytes (combined : CombinedRegion) : Nat :=
  if combinable combined.region then bitmapRequiredBytes combined.size else 0

/-- The entry that the second pass writes. -/
def entry (combined : CombinedRegion) (bitmapAddr : Nat) : PhysmemRegion where
  addr := combined.region.addrStart
  len := combined.size
  allocMap := if combinable combined.region then bitmapAddr else 0
  type := physmemType combined.region.type

end CombinedRegion

/-- Each combined region with the offset of its slice. -/
def placed : Nat → List CombinedRegion → List (CombinedRegion × Nat)
  | _, [] => []
  | offset, combined :: rest =>
      (combined, offset) :: placed (offset + combined.sliceBytes) rest

/-- The physmap of combined regions, with the bitmap at an address. -/
def placedEntries (bitmapAddr : Nat) (places : List (CombinedRegion × Nat)) :
    List PhysmemRegion :=
  places.map fun (combined, offset) =>
    combined.entry ((bitmapAddr + offset) % 2 ^ 64)

/-- The physmap of a table, with the bitmap at an address. -/
def physmapRegions (bitmapAddr : Nat) (table : RegionTable) : List PhysmemRegion :=
  placedEntries bitmapAddr (placed 0 (combinedRegions 0 table))

theorem map_fst_placed (groups : List CombinedRegion) : ∀ offset,
    (placed offset groups).map Prod.fst = groups := by
  induction groups with
  | nil => exact fun _ => rfl
  | cons group rest inductionHypothesis =>
      exact fun offset => congrArg (group :: ·) (inductionHypothesis _)

/-- The first pass counts the combined regions, and adds up their bits. -/
theorem countRegions_eq (table : List MemoryRegion) : ∀ (skipped : Nat)
    (counts : RegionCounts), counts.combinedRegionCount < 2 ^ 64 →
    counts.bitmapBitCount < 2 ^ 64 →
    countRegions skipped table counts =
      { combinedRegionCount := (counts.combinedRegionCount +
          (combinedRegions skipped table).length) % 2 ^ 64
        bitmapBitCount := (counts.bitmapBitCount +
          ((combinedRegions skipped table).map CombinedRegion.bits).sum) %
            2 ^ 64 } := by
  induction table with
  | nil =>
      intro skipped counts smallCount smallBits
      rw [countRegions, combinedRegions, List.length_nil, List.map_nil,
        List.sum_nil, Nat.add_zero, Nat.add_zero, Nat.mod_eq_of_lt smallCount,
        Nat.mod_eq_of_lt smallBits]
  | cons region rest inductionHypothesis =>
      intro skipped counts smallCount smallBits
      cases skipped with
      | succ skipped =>
          exact inductionHypothesis skipped counts smallCount smallBits
      | zero =>
          rw [countRegions, combinedRegions]
          dsimp only
          split
          next isCombinable =>
            refine (inductionHypothesis _ _ (Nat.mod_lt _ (Nat.two_pow_pos 64))
              (Nat.mod_lt _ (Nat.two_pow_pos 64))).trans ?_
            rw [List.length_cons, List.map_cons, List.sum_cons,
              CombinedRegion.bits, if_pos isCombinable, RegionCounts.mk.injEq]
            exact ⟨by dsimp only; omega, by dsimp only; omega⟩
          next isSingle =>
            refine (inductionHypothesis 0
              { counts with
                combinedRegionCount := (counts.combinedRegionCount + 1) % 2 ^ 64 }
              (Nat.mod_lt _ (Nat.two_pow_pos 64)) smallBits).trans ?_
            rw [List.length_cons, List.map_cons, List.sum_cons,
              CombinedRegion.bits, if_neg isSingle, RegionCounts.mk.injEq]
            exact ⟨by dsimp only; omega, by dsimp only; omega⟩

/-- The second pass writes an entry for each combined region, and hands out
slices one behind the other. -/
theorem populatePhysmap_eq (bitmapAddr : Nat) (table : List MemoryRegion) :
    ∀ (skipped offset : Nat) (s : KernelState),
    populatePhysmap skipped table ((bitmapAddr + offset) % 2 ^ 64) s =
      addRegions (placedEntries bitmapAddr
        (placed offset (combinedRegions skipped table))) s := by
  induction table with
  | nil => exact fun _ _ _ => rfl
  | cons region rest inductionHypothesis =>
      intro skipped offset s
      cases skipped with
      | succ skipped => exact inductionHypothesis skipped offset s
      | zero =>
          rw [populatePhysmap, combinedRegions]
          dsimp only
          split
          next isCombinable =>
            have next : ((bitmapAddr + offset) % 2 ^ 64 + bitmapRequiredBytes
                (sub64 (combine region.addrEnd rest).1 region.addrStart)) %
                  2 ^ 64 =
                (bitmapAddr + (offset + CombinedRegion.sliceBytes
                  ⟨region, (combine region.addrEnd rest).1⟩)) % 2 ^ 64 := by
              rw [CombinedRegion.sliceBytes, if_pos isCombinable,
                CombinedRegion.size]
              dsimp only
              omega
            rw [next, inductionHypothesis]
            simp [placed, placedEntries, addRegions, CombinedRegion.entry,
              CombinedRegion.size, isCombinable]
          next isSingle =>
            have next : (bitmapAddr + offset) % 2 ^ 64 =
                (bitmapAddr + (offset + CombinedRegion.sliceBytes
                  ⟨region, region.addrEnd⟩)) % 2 ^ 64 := by
              rw [CombinedRegion.sliceBytes, if_neg isSingle, Nat.add_zero]
            rw [next, inductionHypothesis]
            simp [placed, placedEntries, addRegions, CombinedRegion.entry,
              CombinedRegion.size, isSingle]

end SampoOS.Kernel
