/-
Module: SampoOS.Kernel.PageEdits
Purpose: pmm_mark_page_busy and pmm_free_page on a populated physmap: which bit
  they reach, and when it is the one that belongs to the page.
Trusted boundary: none
Main exports: pagePosition, PopulatedPhysmap, setUpPhysmap_populated,
  EditsItsBit, FirstEntryServes, pmmPageEdits_exact_iff
-/
import SampoOS.Kernel.MergedRegions
import SampoOS.Lib.Bitmap

namespace SampoOS.Kernel

open ByteMemory
open Bitmap (BitAddress bitAt mark unmark)

/-! ## The bit of a page -/

/-- The bit for a page in the bitmap of an entry. -/
def pagePosition (region : PhysmemRegion) (page : Nat) : BitAddress where
  byte := (region.allocMap + (page - region.addr) / pageSize / 8) % 2 ^ 64
  bit := (page - region.addr) / pageSize % 8

theorem pagePosition_bit (region : PhysmemRegion) (page : Nat) :
    (pagePosition region page).bit < 8 :=
  Nat.mod_lt _ (by decide)

/-- Set the bit for a page in the bitmap of an entry, and nothing else. -/
def setPageBit (region : PhysmemRegion) (page : Nat) (s : KernelState) :
    KernelState :=
  { s with virtual := mark s.virtual (pagePosition region page) }

/-- Clear the bit for a page in the bitmap of an entry, and nothing else. -/
def clearPageBit (region : PhysmemRegion) (page : Nat) (s : KernelState) :
    KernelState :=
  { s with virtual := unmark s.virtual (pagePosition region page) }

/-! ## Populated physmaps -/

/-- A physmap as the initialisation populates it: entries in ascending order, the
available ones without overlap, and bitmap slices of one bit for each page, which
overlap neither each other nor the entries. -/
structure PopulatedPhysmap (s : KernelState) : Prop where
  array : PhysmapArray s s.physmemLen
  sorted : (physmapOf s).Pairwise fun a b => a.addr ≤ b.addr
  ascending : (physmapOf s).Pairwise fun a b => a.type = .available →
    b.type = .available → a.addr + a.len ≤ b.addr
  enough : ∀ region ∈ physmapOf s, region.type = .available →
    region.len ≤ pageSize * (8 * bitmapRequiredBytes region.len)
  apart : (physmapOf s).Pairwise fun a b => a.type = .available →
    b.type = .available → Disjoint (slice a) (slice b)
  behind : ∀ region ∈ physmapOf s, region.type = .available →
    Disjoint (slice region)
      (cyclicRange 64 s.physmap (physmemRegionSize * s.physmemLen))

/-- Combinable regions that do not overlap and end below a bound are not longer than
it together. -/
theorem sum_sizes_le (table : RegionTable) : ∀ (low bound : Nat),
    (table.Pairwise fun a b => combinable a = true → combinable b = true →
      a.addrEnd ≤ b.addrStart) →
    (∀ region ∈ table, combinable region = true → low ≤ region.addrStart ∧
      region.addrStart < region.addrEnd ∧ region.addrEnd ≤ bound) →
    low ≤ bound → low + combinableSize table ≤ bound := by
  induction table with
  | nil =>
      intro low bound _ _ order
      simpa [combinableSize] using order
  | cons region rest inductionHypothesis =>
      intro low bound ascends within order
      obtain ⟨head, tail⟩ := List.pairwise_cons.mp ascends
      have size : combinableSize (region :: rest) =
          (if combinable region then region.addrEnd - region.addrStart else 0) +
            combinableSize rest := List.sum_cons
      cases isCombinable : combinable region with
      | false =>
          have others := inductionHypothesis low bound tail
            (fun other inside => within other (List.mem_cons_of_mem _ inside)) order
          rw [size, if_neg (by simp [isCombinable])]
          omega
      | true =>
          obtain ⟨start, proper, stop⟩ := within region (by simp) isCombinable
          have others := inductionHypothesis region.addrEnd bound tail
            (fun other inside otherCombinable =>
              ⟨head other inside isCombinable otherCombinable,
                (within other (List.mem_cons_of_mem _ inside) otherCombinable).2⟩)
            stop
          rw [size, if_pos isCombinable]
          omega

section Populated

variable {table : RegionTable} {ptr : Nat} {s : KernelState}

/-- A table whose combinable regions are whole pages that do not overlap has no more of
them than there are. -/
theorem PagedTable.of_ascends (boot : BootTable table)
    (aligned : ∀ region ∈ table, combinable region = true →
      4096 ∣ region.addrStart ∧ 4096 ∣ region.addrEnd)
    (proper : ∀ region ∈ table, combinable region = true →
      region.addrStart < region.addrEnd)
    (ascends : table.Pairwise fun a b => combinable a = true → combinable b = true →
      a.addrEnd ≤ b.addrStart) : PagedTable table := by
  refine ⟨boot, aligned, fun region inside isCombinable =>
    Nat.le_of_lt (proper region inside isCombinable), ?_⟩
  have total := sum_sizes_le table 0 (2 ^ 64) ascends
    (fun region inside isCombinable => ⟨Nat.zero_le _,
      proper region inside isCombinable,
      Nat.le_of_lt (boot.words region inside).2⟩) (Nat.zero_le _)
  omega

/-- In a table that is sorted, it is enough that they are apart. -/
theorem PagedTable.of_apart (boot : BootTable table)
    (aligned : ∀ region ∈ table, combinable region = true →
      4096 ∣ region.addrStart ∧ 4096 ∣ region.addrEnd)
    (proper : ∀ region ∈ table, combinable region = true →
      region.addrStart < region.addrEnd)
    (sorted : table.Pairwise fun a b => a.addrStart ≤ b.addrStart)
    (apart : table.Pairwise fun a b =>
      combinable a = true → combinable b = true → a.Apart b) : PagedTable table := by
  refine .of_ascends boot aligned proper ((sorted.and apart).imp_of_mem ?_)
  intro a b insideA insideB ⟨order, apart⟩ combinableA combinableB
  have properB := proper b insideB combinableB
  by_contra overlap
  exact MemoryRegion.apart_iff.mp (apart combinableA combinableB) b.addrStart
    ⟨order, by omega⟩ ⟨Nat.le_refl _, properB⟩

theorem SortedTable.paged (sorted : SortedTable table) (boot : BootTable table)
    (aligned : ∀ region ∈ table, combinable region = true →
      4096 ∣ region.addrStart ∧ 4096 ∣ region.addrEnd) : PagedTable table :=
  .of_ascends boot aligned sorted.proper sorted.ascends

/-- The array of entries lies behind the bitmap. -/
theorem setUpPhysmap_array (boot : BootTable table) (page : 4096 ∣ ptr)
    (word : ptr < 2 ^ 64) (fresh : s.physmemLen = 0) :
    PhysmapArray (setUpPhysmap table ptr s) (setUpPhysmap table ptr s).physmemLen ∧
      (setUpPhysmap table ptr s).physmap =
        (ptr + (regionCounts table).bitmapPageCount * pageSize) % 2 ^ 64 ∧
      (setUpPhysmap table ptr s).physmemLen =
        (regionCounts table).combinedRegionCount := by
  have length := (setUpPhysmap_physmap boot page word fresh).1
  have array := clearedManager_array boot page fresh
  have only := addRegions_only (physmapRegions ptr table)
    (clearedManager table ptr s)
  rw [← setUpPhysmap_eq word] at only
  rw [show (clearedManager table ptr s).physmemLen = 0 from fresh,
    Nat.zero_add, BootTable.length_physmapRegions] at array
  refine ⟨⟨?_, ?_, ?_⟩, only.physmap, ?_⟩
  · rw [only.physmap]
    exact array.aligned
  · rw [only.physmap]
    exact array.word
  · rw [length]
    exact array.room
  · rw [length, boot.regionCounts_eq]

/-- Populating establishes the invariant. -/
theorem setUpPhysmap_populated (paged : PagedTable table)
    (sorted : SortedTable table) (page : 4096 ∣ ptr) (word : ptr < 2 ^ 64)
    (fresh : s.physmemLen = 0) :
    PopulatedPhysmap (setUpPhysmap table ptr s) := by
  have layout := setUpPhysmap_layoutAgrees paged page word fresh
  have entries := (setUpPhysmap_physmap paged.toBootTable page word fresh).2
  refine ⟨(setUpPhysmap_array paged.toBootTable page word fresh).1, ?_, ?_,
    layout.enough, layout.apart, layout.behind⟩
  · rw [entries]
    exact physmapRegions_sorted sorted.sorted
  · rw [entries]
    exact sorted.available_ascending paged.toBootTable

end Populated

/-! ## The search -/

/-- The entry that both functions find: the first one, unless the page lies
below all entries. -/
theorem find?_sorted {first : PhysmemRegion} {rest : List PhysmemRegion}
    (sorted : (first :: rest).Pairwise fun a b => a.addr ≤ b.addr)
    (page : Nat) :
    ((first :: rest).find? fun region => !decide (page < region.addr)) =
      if page < first.addr then none else some first := by
  by_cases below : page < first.addr
  · rw [if_pos below, List.find?_eq_none]
    intro region inside
    rcases List.mem_cons.mp inside with rfl | inside
    · simp [below]
    · have order := (List.pairwise_cons.mp sorted).1 region inside
      simp only [Bool.not_eq_true', decide_eq_false_iff_not, Nat.not_lt]
      omega
  · rw [if_neg below, List.find?_cons_of_pos (by simp [below])]

theorem editPage_eq (edit : UInt8 → Nat → UInt8) (page : Nat) (s : KernelState) :
    editPage edit page s =
      match (physmapOf s).find? fun region => !decide (page < region.addr) with
      | none => s
      | some region =>
          if region.type ≠ .available then s
          else
            { s with
              virtual := Function.update s.virtual (pagePosition region page).byte
                (edit (s.virtual (pagePosition region page).byte)
                  (pagePosition region page).bit) } := by
  rw [editPage, physmapOf, List.find?_map, Function.comp_def]
  cases (List.range s.physmemLen).find? fun i =>
    !decide (page < (loadRegion s.virtual (physmapEntry s i)).addr) <;> rfl

section Search

variable {s : KernelState} {first : PhysmemRegion} {rest : List PhysmemRegion}
  {page : Nat}

theorem pageEdits_none (page : Nat) (entries : physmapOf s = []) :
    pmmMarkPageBusy page s = s ∧ pmmFreePage page s = s := by
  rw [pmmMarkPageBusy, pmmFreePage, editPage_eq, editPage_eq, entries]
  exact ⟨rfl, rfl⟩

theorem pageEdits_below
    (sorted : (physmapOf s).Pairwise fun a b => a.addr ≤ b.addr)
    (entries : physmapOf s = first :: rest) (below : page < first.addr) :
    pmmMarkPageBusy page s = s ∧ pmmFreePage page s = s := by
  rw [entries] at sorted
  rw [pmmMarkPageBusy, pmmFreePage, editPage_eq, editPage_eq, entries,
    find?_sorted sorted, if_pos below]
  exact ⟨rfl, rfl⟩

theorem pageEdits_unavailable
    (sorted : (physmapOf s).Pairwise fun a b => a.addr ≤ b.addr)
    (entries : physmapOf s = first :: rest) (reached : ¬ page < first.addr)
    (unavailable : first.type ≠ .available) :
    pmmMarkPageBusy page s = s ∧ pmmFreePage page s = s := by
  rw [entries] at sorted
  rw [pmmMarkPageBusy, pmmFreePage, editPage_eq, editPage_eq, entries,
    find?_sorted sorted, if_neg reached]
  exact ⟨if_pos unavailable, if_pos unavailable⟩

theorem pageEdits_available
    (sorted : (physmapOf s).Pairwise fun a b => a.addr ≤ b.addr)
    (entries : physmapOf s = first :: rest) (reached : ¬ page < first.addr)
    (available : first.type = .available) :
    pmmMarkPageBusy page s = setPageBit first page s ∧
      pmmFreePage page s = clearPageBit first page s := by
  rw [entries] at sorted
  rw [pmmMarkPageBusy, pmmFreePage, editPage_eq, editPage_eq, entries,
    find?_sorted sorted, if_neg reached]
  exact ⟨if_neg (not_not_intro available), if_neg (not_not_intro available)⟩

end Search

/-! ## When the right bit is reached -/

/-- Marking and freeing a page change the page's own bit and nothing else, and
nothing at all if the page is in no available entry. -/
structure EditsItsBit (s : KernelState) (page : Nat) : Prop where
  marks : ∀ region ∈ physmapOf s, region.type = .available →
    page ∈ region.bytes → pmmMarkPageBusy page s = setPageBit region page s
  frees : ∀ region ∈ physmapOf s, region.type = .available →
    page ∈ region.bytes → pmmFreePage page s = clearPageBit region page s
  elsewhere : (∀ region ∈ physmapOf s, region.type = .available →
      page ∉ region.bytes) →
    pmmMarkPageBusy page s = s ∧ pmmFreePage page s = s

/-- The first entry of the physmap does for the page: the page lies below it; or
it is available, and the page's own bit is where the bitmap of the first entry
would have it; or it is not available, and the page is in no available entry. -/
def FirstEntryServes (s : KernelState) (page : Nat) : Prop :=
  ∀ first ∈ (physmapOf s).head?, first.addr ≤ page →
    (first.type = .available ∧ ∃ region ∈ physmapOf s, region.type = .available ∧
        page ∈ region.bytes ∧
        pagePosition region page = pagePosition first page) ∨
      (first.type ≠ .available ∧ ∀ region ∈ physmapOf s,
        region.type = .available → page ∉ region.bytes)

section Exact

variable {s : KernelState} {page : Nat}

/-- A page is in one available entry at most. -/
theorem PopulatedPhysmap.unique (populated : PopulatedPhysmap s)
    {a b : PhysmemRegion} (insideA : a ∈ physmapOf s) (insideB : b ∈ physmapOf s)
    (availableA : a.type = .available) (availableB : b.type = .available)
    (pageA : page ∈ a.bytes) (pageB : page ∈ b.bytes) : a = b := by
  have related : (physmapOf s).Pairwise fun a b => a.type = .available ∧
      page ∈ a.bytes → b.type = .available ∧ page ∈ b.bytes → a = b := by
    apply populated.ascending.imp
    intro a b ascending ⟨availableA, pageA⟩ ⟨availableB, pageB⟩
    have order := ascending availableA availableB
    rw [PhysmemRegion.mem_bytes] at pageA pageB
    omega
  have flipped : (physmapOf s).Pairwise fun a b => b.type = .available ∧
      page ∈ b.bytes → a.type = .available ∧ page ∈ a.bytes → b = a := by
    apply populated.ascending.imp
    intro a b ascending ⟨availableB, pageB⟩ ⟨availableA, pageA⟩
    have order := ascending availableA availableB
    rw [PhysmemRegion.mem_bytes] at pageA pageB
    omega
  exact List.Pairwise.forall_of_forall_of_flip (fun _ _ _ _ => rfl) related
    flipped insideA insideB ⟨availableA, pageA⟩ ⟨availableB, pageB⟩

/-- A page below the first entry is in none. -/
theorem PopulatedPhysmap.below_all (populated : PopulatedPhysmap s)
    {first : PhysmemRegion} {rest : List PhysmemRegion}
    (entries : physmapOf s = first :: rest) (below : page < first.addr) :
    ∀ region ∈ physmapOf s, page ∉ region.bytes := by
  intro region inside member
  have sorted := populated.sorted
  rw [entries] at sorted inside
  rw [PhysmemRegion.mem_bytes] at member
  rcases List.mem_cons.mp inside with rfl | inside
  · omega
  · have order := (List.pairwise_cons.mp sorted).1 region inside
    omega

theorem FirstEntryServes.editsItsBit (populated : PopulatedPhysmap s)
    (serves : FirstEntryServes s page) : EditsItsBit s page := by
  cases entries : physmapOf s with
  | nil =>
      have unchanged := pageEdits_none page entries
      refine ⟨?_, ?_, fun _ => unchanged⟩
      · simp [entries]
      · simp [entries]
  | cons first rest =>
      by_cases below : page < first.addr
      · have unchanged := pageEdits_below populated.sorted entries below
        have outside := populated.below_all entries below
        exact ⟨fun region inside _ member => absurd member (outside region inside),
          fun region inside _ member => absurd member (outside region inside),
          fun _ => unchanged⟩
      · rcases serves first (by simp [entries]) (by omega) with
          ⟨available, own, isOwn, ownAvailable, ownPage, same⟩ |
            ⟨unavailable, outside⟩
        · obtain ⟨marks, frees⟩ :=
            pageEdits_available populated.sorted entries below available
          refine ⟨?_, ?_, fun outside => absurd ownPage
            (outside own isOwn ownAvailable)⟩
          · intro region inside available' member
            obtain rfl := populated.unique inside isOwn available' ownAvailable member
              ownPage
            rw [marks, setPageBit, setPageBit, same]
          · intro region inside available' member
            obtain rfl := populated.unique inside isOwn available' ownAvailable member
              ownPage
            rw [frees, clearPageBit, clearPageBit, same]
        · exact ⟨fun region inside isAvailable member =>
              absurd member (outside region inside isAvailable),
            fun region inside isAvailable member =>
              absurd member (outside region inside isAvailable),
            fun _ => pageEdits_unavailable populated.sorted entries below unavailable⟩

theorem EditsItsBit.firstEntryServes (populated : PopulatedPhysmap s)
    (exact : EditsItsBit s page) : FirstEntryServes s page := by
  intro first isFirst reached
  obtain ⟨rest, entries⟩ := List.head?_eq_some_iff.mp isFirst
  have notBelow : ¬ page < first.addr := Nat.not_lt.mpr reached
  by_cases owned : ∃ region ∈ physmapOf s, region.type = .available ∧
      page ∈ region.bytes
  · obtain ⟨own, isOwn, ownAvailable, ownPage⟩ := owned
    have marks := exact.marks own isOwn ownAvailable ownPage
    have frees := exact.frees own isOwn ownAvailable ownPage
    by_cases available : first.type = .available
    · refine Or.inl ⟨available, own, isOwn, ownAvailable, ownPage, ?_⟩
      have code := pageEdits_available populated.sorted entries notBelow available
      rw [code.1] at marks
      rw [code.2] at frees
      exact (Bitmap.mark_unmark_injective (pagePosition_bit _ _)
        (pagePosition_bit _ _) (congrArg KernelState.virtual marks)
        (congrArg KernelState.virtual frees)).symm
    · have code := pageEdits_unavailable populated.sorted entries notBelow available
      rw [code.1] at marks
      rw [code.2] at frees
      exact absurd (congrArg KernelState.virtual frees).symm fun unmarks =>
        Bitmap.mark_or_unmark_ne (pagePosition_bit _ _)
          (congrArg KernelState.virtual marks).symm unmarks
  · have outside : ∀ region ∈ physmapOf s, region.type = .available →
        page ∉ region.bytes := fun region inside available member =>
      owned ⟨region, inside, available, member⟩
    by_cases available : first.type = .available
    · have code := pageEdits_available populated.sorted entries notBelow available
      have unchanged := exact.elsewhere outside
      rw [code.1, code.2] at unchanged
      exact absurd (congrArg KernelState.virtual unchanged.2) fun unmarks =>
        Bitmap.mark_or_unmark_ne (pagePosition_bit _ _)
          (congrArg KernelState.virtual unchanged.1) unmarks
    · exact Or.inr ⟨available, outside⟩

/-! ## Undoing and reordering -/

/-- The bit of a page lies in the slice of its entry. -/
theorem pagePosition_mem_slice (populated : PopulatedPhysmap s)
    {region : PhysmemRegion} (inside : region ∈ physmapOf s)
    (available : region.type = .available) (member : page ∈ region.bytes) :
    (pagePosition region page).byte ∈ slice region := by
  have enough := populated.enough region inside available
  rw [PhysmemRegion.mem_bytes] at member
  refine ⟨(page - region.addr) / pageSize / 8, ?_, rfl⟩
  rw [pageSize] at enough ⊢
  omega

/-- The entries are the same, whatever else differs. -/
structure SamePhysmap (s s' : KernelState) : Prop where
  physmap : s'.physmap = s.physmap
  physmemLen : s'.physmemLen = s.physmemLen
  entries : physmapOf s' = physmapOf s

theorem SamePhysmap.refl (s : KernelState) : SamePhysmap s s := ⟨rfl, rfl, rfl⟩

theorem SamePhysmap.trans {s' s'' : KernelState} (first : SamePhysmap s s')
    (second : SamePhysmap s' s'') : SamePhysmap s s'' where
  physmap := second.physmap.trans first.physmap
  physmemLen := second.physmemLen.trans first.physmemLen
  entries := second.entries.trans first.entries

theorem PopulatedPhysmap.congr {s' : KernelState} (populated : PopulatedPhysmap s)
    (same : SamePhysmap s s') : PopulatedPhysmap s' := by
  obtain ⟨⟨aligned, word, room⟩, sorted, ascending, enough, apart, behind⟩ := populated
  obtain ⟨physmap, physmemLen, entries⟩ := same
  refine ⟨⟨?_, ?_, ?_⟩, ?_, ?_, ?_, ?_, ?_⟩ <;>
    simp only [physmap, physmemLen, entries] <;> assumption

theorem FirstEntryServes.congr {s' : KernelState}
    (serves : FirstEntryServes s page) (same : SamePhysmap s s') :
    FirstEntryServes s' page := by
  rw [FirstEntryServes, same.entries]
  exact serves

/-- The bytes of an entry belong to the array. -/
theorem PhysmapArray.mem_cyclicRange {length i x : Nat}
    (array : PhysmapArray s length) (below : i < length)
    (low : physmapEntry s i ≤ x) (high : x < physmapEntry s i + 32) :
    x ∈ cyclicRange 64 s.physmap (physmemRegionSize * length) := by
  have slot := array.slot i
  have entry : physmapEntry s i =
      (s.physmap + physmemRegionSize * i) % 2 ^ 64 := rfl
  have aligned := slot.aligned
  have word := slot.word
  rw [physmemRegionSize] at entry ⊢
  exact ⟨32 * i + (x - physmapEntry s i), by omega, by omega⟩

/-- Setting a bit of a slice leaves the entries alone. -/
theorem mark_samePhysmap (populated : PopulatedPhysmap s)
    {region : PhysmemRegion} (inside : region ∈ physmapOf s)
    (available : region.type = .available) {q : BitAddress}
    (inSlice : q.byte ∈ slice region) :
    SamePhysmap s { s with virtual := mark s.virtual q } := by
  refine ⟨rfl, rfl, populated.array.physmapOf_congr rfl rfl ?_⟩
  rintro x ⟨i, below, low, high⟩
  apply Bitmap.mark_outside
  rintro rfl
  exact Set.disjoint_left.mp (populated.behind region inside available) inSlice
    (populated.array.mem_cyclicRange below low high)

theorem setPageBit_samePhysmap (populated : PopulatedPhysmap s)
    {region : PhysmemRegion} (inside : region ∈ physmapOf s)
    (available : region.type = .available) (member : page ∈ region.bytes) :
    SamePhysmap s (setPageBit region page s) :=
  mark_samePhysmap populated inside available
    (pagePosition_mem_slice populated inside available member)

/-- Where the first entry serves, marking sets the bit of the page's own entry,
if it has one, and leaves the entries alone. -/
theorem FirstEntryServes.mark_cases (populated : PopulatedPhysmap s)
    (serves : FirstEntryServes s page) :
    (∃ region ∈ physmapOf s, region.type = .available ∧ page ∈ region.bytes ∧
        ∀ s', SamePhysmap s s' →
          pmmMarkPageBusy page s' = setPageBit region page s') ∨
      ∀ s', SamePhysmap s s' → pmmMarkPageBusy page s' = s' := by
  by_cases owned : ∃ region ∈ physmapOf s, region.type = .available ∧
      page ∈ region.bytes
  · obtain ⟨region, inside, available, member⟩ := owned
    refine Or.inl ⟨region, inside, available, member, fun s' same => ?_⟩
    exact ((serves.congr same).editsItsBit (populated.congr same)).marks region
      (same.entries.symm ▸ inside) available member
  · refine Or.inr fun s' same => ?_
    refine (((serves.congr same).editsItsBit (populated.congr same)).elsewhere
      ?_).1
    intro region inside available member
    exact owned ⟨region, same.entries ▸ inside, available, member⟩

/-- Freeing undoes marking a free page. -/
theorem FirstEntryServes.restores (populated : PopulatedPhysmap s)
    (serves : FirstEntryServes s page) {region : PhysmemRegion}
    (inside : region ∈ physmapOf s) (available : region.type = .available)
    (member : page ∈ region.bytes)
    (free : bitAt s.virtual (pagePosition region page) = false) :
    pmmFreePage page (pmmMarkPageBusy page s) = s := by
  have marks := (serves.editsItsBit populated).marks region inside available member
  have same := setPageBit_samePhysmap populated inside available member
  have frees : pmmFreePage page (setPageBit region page s) =
      clearPageBit region page (setPageBit region page s) :=
    ((serves.congr same).editsItsBit (populated.congr same)).frees region
      (same.entries.symm ▸ inside) available member
  rw [marks, frees, clearPageBit, setPageBit]
  dsimp only
  rw [Bitmap.unmark_mark (pagePosition_bit _ _) free]

/-- Marking two pages leaves the same state in either order. -/
theorem FirstEntryServes.commutes {other : Nat} (populated : PopulatedPhysmap s)
    (serves : FirstEntryServes s page) (servesOther : FirstEntryServes s other) :
    pmmMarkPageBusy page (pmmMarkPageBusy other s) =
      pmmMarkPageBusy other (pmmMarkPageBusy page s) := by
  rcases serves.mark_cases populated with
    ⟨region, inside, available, member, marks⟩ | marks
  · have same := setPageBit_samePhysmap populated inside available member
    rcases servesOther.mark_cases populated with
      ⟨region', inside', available', member', marks'⟩ | marks'
    · have same' := setPageBit_samePhysmap populated inside' available' member'
      rw [marks' s (.refl s), marks s (.refl s), marks _ same', marks' _ same]
      simp only [setPageBit]
      rw [Bitmap.mark_comm _ (pagePosition_bit _ _) (pagePosition_bit _ _)]
    · rw [marks' s (.refl s), marks s (.refl s), marks' _ same]
  · rcases servesOther.mark_cases populated with
      ⟨region', inside', available', member', marks'⟩ | marks'
    · have same' := setPageBit_samePhysmap populated inside' available' member'
      rw [marks' s (.refl s), marks s (.refl s), marks _ same', marks' s (.refl s)]
    · rw [marks' s (.refl s), marks s (.refl s), marks' s (.refl s)]

end Exact

/-- On every populated physmap, marking and freeing a page edit its own bit and
nothing else exactly where the first entry serves; there freeing restores what
marking changed, and marks commute. -/
theorem pmmPageEdits_exact_iff {s : KernelState}
    (populated : PopulatedPhysmap s) (page : Nat) :
    (EditsItsBit s page ↔ FirstEntryServes s page) ∧
      (FirstEntryServes s page → ∀ region ∈ physmapOf s,
        region.type = .available → page ∈ region.bytes →
        bitAt s.virtual (pagePosition region page) = false →
        pmmFreePage page (pmmMarkPageBusy page s) = s) ∧
      ∀ other, FirstEntryServes s page → FirstEntryServes s other →
        pmmMarkPageBusy page (pmmMarkPageBusy other s) =
          pmmMarkPageBusy other (pmmMarkPageBusy page s) :=
  ⟨⟨fun exact => exact.firstEntryServes populated,
      fun serves => serves.editsItsBit populated⟩,
    fun serves _ inside available member free =>
      serves.restores populated inside available member free,
    fun _ serves servesOther => serves.commutes populated servesOther⟩

/-- The physmap of the small kernel: three available entries and a reserved
one. -/
theorem smallKernel_populated :
    ∃ s a b c, PopulatedPhysmap s ∧ physmapOf s =
      [⟨0x1000, 0x7000, a, .available⟩, ⟨0x8000, 0x1000, 0, .reserved⟩,
        ⟨0x100000, 0x50000, b, .available⟩, ⟨0x160000, 0x10000, c, .available⟩] := by
  obtain ⟨ptr, mapped, manager⟩ := smallKernel_mapped
  obtain ⟨page, word⟩ := manager.pointer
  have sorted := smallBootinfo_ordered.sortedTable
  have paged := sorted.paged smallBootinfo_bootTable (by decide)
  have fresh : mapped.physmemLen = 0 := manager.onlyTables.physmemLen
  refine ⟨_, (ptr + 0) % 2 ^ 64, (ptr + 1) % 2 ^ 64, (ptr + 11) % 2 ^ 64,
    setUpPhysmap_populated paged sorted page word fresh, ?_⟩
  rw [(setUpPhysmap_physmap smallBootinfo_bootTable page word fresh).2,
    physmapRegions, show placed 0 (combinedRegions 0 smallBootinfo.memoryRegions) =
      [(⟨⟨0x1000, 0x8000, .allocated⟩, 0x8000⟩, 0),
        (⟨⟨0x8000, 0x9000, .reserved⟩, 0x9000⟩, 1),
        (⟨⟨0x100000, 0x140000, .available⟩, 0x150000⟩, 1),
        (⟨⟨0x160000, 0x170000, .available⟩, 0x170000⟩, 11)] by decide]
  simp [placedEntries, CombinedRegion.entry, CombinedRegion.size, sub64,
    combinable, physmemType]

/-- A page of the first entry is edited as it should be. -/
theorem pmmPageEdits_exact_firstEntry : ∃ s, EditsItsBit s 0x2000 := by
  obtain ⟨s, a, b, c, populated, entries⟩ := smallKernel_populated
  refine ⟨s, (pmmPageEdits_exact_iff populated 0x2000).1.mpr ?_⟩
  rw [FirstEntryServes, entries]
  intro first isFirst _
  obtain rfl := Option.some.inj isFirst
  exact Or.inl ⟨rfl, _, List.mem_cons_self, rfl,
    PhysmemRegion.mem_bytes.mpr (by dsimp only; omega), rfl⟩

/-- The first page of the third entry is looked up in the first one, where it
would have bit 7, and not bit 0. -/
theorem pmmPageEdits_miss :
    ¬ ∀ s page, PopulatedPhysmap s → 4096 ∣ page → EditsItsBit s page := by
  intro exact
  obtain ⟨s, a, b, c, populated, entries⟩ := smallKernel_populated
  have serves := (exact s 0x100000 populated (by decide)).firstEntryServes populated
  rw [FirstEntryServes, entries] at serves
  rcases serves ⟨0x1000, 0x7000, a, .available⟩ (List.head?_cons ..)
      (by dsimp only; omega) with
    ⟨_, own, isOwn, _, member, same⟩ | ⟨unavailable, _⟩
  · have bits := congrArg BitAddress.bit same
    rw [PhysmemRegion.mem_bytes] at member
    simp only [List.mem_cons, List.not_mem_nil, or_false] at isOwn
    rcases isOwn with rfl | rfl | rfl | rfl
    · dsimp only at member
      omega
    · dsimp only at member
      omega
    · simp only [pagePosition, pageSize] at bits
      omega
    · dsimp only at member
      omega
  · exact unavailable rfl

end SampoOS.Kernel
