/-
Module: SampoOS.Kernel.BusyPages
Purpose: The pages that init_memory_manager marks as busy, in order, and the
  end of its marking loops.
Trusted boundary: none
Main exports: pagesBetween, allocatedPages, managerPages, busyPages,
  markPages_eq, markAllocated_eq, initMemoryManager_eq
-/
import SampoOS.Kernel.PageEdits

namespace SampoOS.Kernel

/-! ## Pages -/

/-- The pages from one address up to another. -/
def pagesBetween (start stop : Nat) : List Nat :=
  (List.range ((stop - start) / pageSize)).map fun i => start + pageSize * i

theorem mem_pagesBetween {start stop page : Nat} (alignedStart : 4096 ∣ start)
    (alignedStop : 4096 ∣ stop) :
    page ∈ pagesBetween start stop ↔ 4096 ∣ page ∧ start ≤ page ∧ page < stop := by
  simp only [pagesBetween, pageSize, List.mem_map, List.mem_range]
  constructor
  · rintro ⟨i, below, rfl⟩
    omega
  · rintro ⟨aligned, low, high⟩
    exact ⟨(page - start) / 4096, by omega, by omega⟩

theorem pagesBetween_nodup (start stop : Nat) : (pagesBetween start stop).Nodup := by
  apply List.Nodup.map ?_ List.nodup_range
  intro i j same
  simp only [pageSize] at same
  omega

/-- The first page, and the others. -/
theorem pagesBetween_cons {start stop : Nat} (alignedStart : 4096 ∣ start)
    (alignedStop : 4096 ∣ stop) (below : start < stop) :
    pagesBetween start stop = start :: pagesBetween (start + pageSize) stop := by
  have count : (stop - start) / pageSize =
      (stop - (start + pageSize)) / pageSize + 1 := by
    rw [pageSize]
    omega
  rw [pagesBetween, count, List.range_succ_eq_map, List.map_cons, List.map_map,
    pagesBetween]
  congr 1
  apply List.map_congr_left
  intro i _
  simp only [Function.comp_apply, pageSize]
  omega

/-- The pages of the ALLOCATED regions. -/
def allocatedPages (table : RegionTable) : List Nat :=
  table.flatMap fun region =>
    if region.type = .allocated then pagesBetween region.addrStart region.addrEnd
    else []

/-- Where the marking of the manager's own pages ends. -/
def managerStop (table : RegionTable) : Nat :=
  (managerAddr table + managerPageCount table * pageSize % 2 ^ 64) % 2 ^ 64

/-- The manager's own pages, as far as they are marked. -/
def managerPages (table : RegionTable) : List Nat :=
  pagesBetween (managerAddr table) (managerStop table)

/-- All pages that are marked as busy, in order. -/
def busyPages (table : RegionTable) : List Nat :=
  allocatedPages table ++ managerPages table

/-! ## The loops -/

/-- Mark pages one after the other. -/
def markEach (pages : List Nat) (s : KernelState) : KernelState :=
  pages.foldl (fun s page => pmmMarkPageBusy page s) s

theorem markEach_cons (page : Nat) (rest : List Nat) (s : KernelState) :
    markEach (page :: rest) s = markEach rest (pmmMarkPageBusy page s) := rfl

theorem markEach_append (front back : List Nat) (s : KernelState) :
    markEach (front ++ back) s = markEach back (markEach front s) :=
  List.foldl_append

/-- The loop ends, and has marked every page once. -/
theorem markPages_eq (fuel : Nat) : ∀ {start stop : Nat} (s : KernelState),
    4096 ∣ start → 4096 ∣ stop → stop < 2 ^ 64 →
    (stop - start) / pageSize < fuel →
    markPages fuel start stop s = some (markEach (pagesBetween start stop) s) := by
  induction fuel with
  | zero => exact fun _ _ _ _ enough => absurd enough (Nat.not_lt_zero _)
  | succ fuel inductionHypothesis =>
      intro start stop s alignedStart alignedStop word enough
      rw [markPages]
      by_cases below : start < stop
      · have next : (start + pageSize) % 2 ^ 64 = start + pageSize := by
          rw [pageSize]
          omega
        have nextAligned : 4096 ∣ start + pageSize :=
          Nat.dvd_add alignedStart (Nat.dvd_refl _)
        have shorter : (stop - (start + pageSize)) / pageSize < fuel := by
          rw [pageSize] at enough ⊢
          omega
        rw [if_pos below, next, inductionHypothesis _ nextAligned alignedStop word
          shorter, pagesBetween_cons alignedStart alignedStop below, markEach_cons]
      · rw [if_neg below, pagesBetween, Nat.sub_eq_zero_of_le (by omega),
          Nat.zero_div, List.range_zero, List.map_nil, markEach, List.foldl_nil]

/-- A loop over whole pages of the address space does not run out of fuel. -/
theorem markPages_pageFuel {start stop : Nat} (s : KernelState)
    (alignedStart : 4096 ∣ start) (alignedStop : 4096 ∣ stop)
    (word : stop < 2 ^ 64) :
    markPages pageFuel start stop s =
      some (markEach (pagesBetween start stop) s) := by
  apply markPages_eq pageFuel s alignedStart alignedStop word
  rw [pageFuel, pageSize]
  omega

theorem markAllocated_eq (table : List MemoryRegion) : ∀ (s : KernelState),
    (∀ region ∈ table, region.type = .allocated → 4096 ∣ region.addrStart ∧
      4096 ∣ region.addrEnd ∧ region.addrEnd < 2 ^ 64) →
    markAllocated table s = some (markEach (allocatedPages table) s) := by
  induction table with
  | nil => exact fun _ _ => rfl
  | cons region rest inductionHypothesis =>
      intro s whole
      have tail : ∀ s, markAllocated rest s =
          some (markEach (allocatedPages rest) s) := fun s =>
        inductionHypothesis s fun other inside =>
          whole other (List.mem_cons_of_mem _ inside)
      have step : markAllocated (region :: rest) s =
          (if region.type ≠ .allocated then some s
            else markPages pageFuel region.addrStart region.addrEnd s).bind
              (markAllocated rest) := rfl
      rw [step, allocatedPages, List.flatMap_cons, markEach_append]
      by_cases allocated : region.type = .allocated
      · obtain ⟨start, stop, word⟩ := whole region (by simp) allocated
        rw [if_neg (not_not_intro allocated), if_pos allocated,
          markPages_pageFuel s start stop word]
        exact tail _
      · rw [if_pos allocated, if_neg allocated]
        exact tail s

section Run

variable {table : RegionTable}

/-- A region for the manager is one of the table's, and available. -/
theorem managerAddr_region (found : managerAddr table ≠ 0) :
    ∃ region ∈ table, region.type = .available ∧
      region.addrStart = managerAddr table ∧
      (managerAddr table + managerPageCount table * pageSize % 2 ^ 64) % 2 ^ 64 ≤
        region.addrEnd := by
  rw [managerAddr, findManager] at found ⊢
  cases search : table.find? (fitsManager (managerPageCount table)) with
  | none => simp [search] at found
  | some region =>
      have fits := List.find?_some search
      simp only [fitsManager, Bool.and_eq_true, decide_eq_true_eq,
        Bool.not_eq_true', decide_eq_false_iff_not, Nat.not_lt] at fits
      exact ⟨region, List.mem_of_find?_eq_some search, fits.1.1, rfl, fits.2⟩

/-- Where the manager's pages lie. -/
theorem managerAddr_aligned (paged : PagedTable table)
    (found : managerAddr table ≠ 0) :
    4096 ∣ managerAddr table ∧ managerAddr table < 2 ^ 64 ∧
      4096 ∣ managerStop table ∧ managerStop table < 2 ^ 64 := by
  obtain ⟨region, inside, available, start, _⟩ := managerAddr_region found
  have aligned := (paged.aligned region inside
    (combinable_iff.mpr (Or.inl available))).1
  have word := (paged.words region inside).1
  rw [start] at aligned word
  have pages : 4096 ∣ managerPageCount table * pageSize := Nat.dvd_mul_left _ _
  rw [managerStop]
  omega

/-- Once its data is mapped, `init_memory_manager` populates the physmap and
marks the busy pages one after the other. -/
theorem initMemoryManager_eq {kernEnd ptr : Nat} {bootinfo : SampoBootinfo}
    {s mapped : KernelState} (paged : PagedTable bootinfo.memoryRegions)
    (manager : ManagerMapped kernEnd bootinfo s ptr mapped) :
    initMemoryManager kernEnd bootinfo s =
      some (markEach (busyPages bootinfo.memoryRegions)
        (setUpPhysmap bootinfo.memoryRegions ptr mapped)) := by
  obtain ⟨started, start, pages⟩ := Option.bind_eq_some_iff.mp manager.runs
  have found := manager.found
  obtain ⟨alignedStart, _, alignedStop, word⟩ := managerAddr_aligned paged found
  have allocated := markAllocated_eq bootinfo.memoryRegions
    (setUpPhysmap bootinfo.memoryRegions ptr mapped) fun region inside isAllocated =>
      have aligned := paged.aligned region inside
        (combinable_iff.mpr (Or.inr isAllocated))
      ⟨aligned.1, aligned.2, (paged.words region inside).2⟩
  have own := markPages_pageFuel
    (markEach (allocatedPages bootinfo.memoryRegions)
      (setUpPhysmap bootinfo.memoryRegions ptr mapped)) alignedStart alignedStop word
  rw [managerAddr, managerPageCount] at found pages
  rw [managerAddr, managerStop, managerAddr, managerPageCount] at own
  simp only [initMemoryManager, start, Option.bind_eq_bind, Option.bind_some,
    if_neg found, pages, allocated]
  rw [own, busyPages, markEach_append, managerPages, managerStop, managerAddr,
    managerPageCount]

end Run

end SampoOS.Kernel
