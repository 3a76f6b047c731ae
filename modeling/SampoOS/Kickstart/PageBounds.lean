/-
Module: SampoOS.Kickstart.PageBounds
Purpose: The entries that pmm_add_region rounds keep page bounds under every call
  of the memory manager, whatever the table looks like otherwise.
Trusted boundary: none
Main exports: PageBounds, PagedEntries, ArrayCall.run_paged, arrayCalls_paged
-/
import SampoOS.Kickstart.PmmSpec
import SampoOS.Kickstart.RegionArrayRuns

namespace SampoOS.Kickstart

open BitFields (clearLow alignUp dvd_clearLow)

/-- An available or reserved region starts and ends at a page boundary. -/
def PageBounds (region : MemoryRegion) : Prop :=
  region.type = .available ∨ region.type = .reserved →
    4096 ∣ region.addrStart ∧ 4096 ∣ region.addrEnd

/-- All available and reserved regions of a table start and end at page
boundaries; they may overlap, be empty or stand in any order. -/
def PagedEntries (table : RegionTable) : Prop :=
  ∀ region ∈ table, PageBounds region

/-! ## Rounding -/

theorem dvd_clearLow_page {w : Nat} (wide : 12 ≤ w) (a : Nat) :
    4096 ∣ clearLow w 12 a := dvd_clearLow wide a

theorem dvd_alignUp_page {w : Nat} (wide : 12 ≤ w) (a : Nat) :
    4096 ∣ alignUp w 12 a := dvd_clearLow wide _

/-- The bounds that `pmm_add_region` records are rounded, also where they wrap. -/
theorem pageBounds_roundedRegion (type : MemoryRegionType) (start stop : Nat) :
    PageBounds (roundedRegion type start stop) := by
  rintro (available | reserved)
  · obtain rfl : type = .available := available
    simp only [roundedRegion, roundStart, roundEnd, and_pageOffset]
    constructor <;> split
    · exact dvd_alignUp_page (by decide) _
    · omega
    · exact dvd_clearLow_page (by decide) _
    · omega
  · obtain rfl : type = .reserved := reserved
    simp only [roundedRegion, roundStart, roundEnd, and_pageOffset]
    constructor <;> split
    · exact dvd_clearLow_page (by decide) _
    · omega
    · exact dvd_alignUp_page (by decide) _
    · omega

theorem dvd_reserveStart (start : Nat) : 4096 ∣ reserveStart start := by
  rw [reserveStart, and_pageOffset]
  split
  · exact dvd_clearLow_page (by decide) _
  · omega

theorem dvd_reserveEnd (stop : Nat) : 4096 ∣ reserveEnd stop := by
  rw [reserveEnd, and_pageOffset]
  split
  · exact dvd_alignUp_page (by decide) _
  · omega

/-! ## The operations -/

namespace PagedEntries

variable {table after before behind : RegionTable} {region : MemoryRegion}

theorem sort (paged : PagedEntries table) : PagedEntries (pmmSortRegions table) :=
  fun region inside => paged region (mem_of_mem_pmmSortRegions inside)

theorem append (paged : PagedEntries before) (rest : PagedEntries behind) :
    PagedEntries (before ++ behind) := List.forall_mem_append.mpr ⟨paged, rest⟩

theorem cons (bounds : PageBounds region) (paged : PagedEntries table) :
    PagedEntries (region :: table) := List.forall_mem_cons.mpr ⟨bounds, paged⟩

theorem addRegion (paged : PagedEntries table) {type : MemoryRegionType}
    {start stop : Nat} (ran : pmmAddRegion table type start stop = some after) :
    PagedEntries after := by
  simp only [pmmAddRegion, Option.bind_eq_bind, Option.bind_eq_some_iff,
    pushRegion_eq_some, Option.pure_def, Option.some.injEq] at ran
  obtain ⟨_, ⟨_, rfl⟩, rfl⟩ := ran
  exact (paged.append (cons (pageBounds_roundedRegion type start stop)
    (by simp [PagedEntries]))).sort

/-- Cutting a block with page bounds out of a region leaves pieces with page
bounds. -/
theorem cut {block shrunk : MemoryRegion} {extra : RegionTable}
    (bounds : PageBounds region) (isCut : Cut region block shrunk extra)
    (start : 4096 ∣ block.addrStart) (stop : 4096 ∣ block.addrEnd) :
    PageBounds shrunk ∧ PagedEntries extra := by
  cases isCut with
  | tail atStart =>
      exact ⟨fun rounded => ⟨stop, (bounds rounded).2⟩, by simp [PagedEntries]⟩
  | front notStart atEnd =>
      exact ⟨fun rounded => ⟨(bounds rounded).1, start⟩, by simp [PagedEntries]⟩
  | enclosed notStart notEnd =>
      exact ⟨fun rounded => ⟨(bounds rounded).1, start⟩,
        cons (fun rounded => ⟨stop, (bounds rounded).2⟩) (by simp [PagedEntries])⟩

theorem reserveMemoryRegion (paged : PagedEntries table) {start stop : Nat}
    (ran : pmmReserveMemoryRegion table start stop = some after) :
    PagedEntries after := by
  rcases pmmReserveMemoryRegion_cases ran with
    ⟨_, rfl⟩ | ⟨region, block, _, _, isBlock, edit⟩
  · exact paged
  · obtain ⟨before, behind, shrunk, extra, rfl, isCut, rfl⟩ := edit
    have blockStart : 4096 ∣ block.addrStart := isBlock ▸ dvd_reserveStart start
    have blockEnd : 4096 ∣ block.addrEnd := isBlock ▸ dvd_reserveEnd stop
    obtain ⟨first, rest⟩ := List.forall_mem_append.mp paged
    obtain ⟨own, others⟩ := List.forall_mem_cons.mp rest
    obtain ⟨shrunkBounds, extraPaged⟩ := cut own isCut blockStart blockEnd
    exact (append first (cons shrunkBounds (append others
      (cons (fun _ => ⟨blockStart, blockEnd⟩) extraPaged)))).sort

/-- Allocations keep page bounds, even where the end of the block wraps or the
pointer is `NULL`. -/
theorem allocateRegionWithType (paged : PagedEntries table)
    {regionPageCount ret : Nat} {type : MemoryRegionType}
    (ran : pmmAllocateRegionWithType table regionPageCount type =
      some (ret, after)) : PagedEntries after := by
  rcases pmmAllocateRegionWithType_cases ran with
    ⟨_, _, rfl⟩ | ⟨region, block, _, _, step⟩
  · exact paged
  · obtain ⟨before, behind, rfl, edit⟩ := step.edit
    obtain ⟨_, available, _⟩ := fitsAllocation_iff.mp step.fits
    obtain ⟨first, rest⟩ := List.forall_mem_append.mp paged
    obtain ⟨own, others⟩ := List.forall_mem_cons.mp rest
    obtain ⟨start, stop⟩ := own (Or.inl available)
    have blockEnd : 4096 ∣ block.addrEnd := by
      rw [step.block_eq, allocationLength]
      dsimp only
      omega
    have blockBounds : PageBounds block := fun _ =>
      ⟨by rw [step.block_eq]; exact start, blockEnd⟩
    have unsorted : PagedEntries (before ++
        { region with addrStart := block.addrEnd } :: (behind ++ [block])) :=
      append first (cons (fun _ => ⟨blockEnd, stop⟩)
        (append others (cons blockBounds (by simp [PagedEntries]))))
    rw [edit]
    split
    · exact unsorted.sort
    · exact unsorted

/-- A head that absorbs its neighbours ends where one of them ended. -/
theorem absorb (paged : PagedEntries behind) : ∀ {head : MemoryRegion},
    head.type = .available → PageBounds head →
      PageBounds (Kickstart.absorb head behind).1 ∧
        PagedEntries (Kickstart.absorb head behind).2 := by
  induction behind with
  | nil => exact fun _ bounds => ⟨bounds, paged⟩
  | cons current rest inductionHypothesis =>
      intro head available bounds
      obtain ⟨own, others⟩ := List.forall_mem_cons.mp paged
      rw [Kickstart.absorb]
      split_ifs with taken empty apart
      · exact ⟨bounds, paged⟩
      · obtain ⟨first, second⟩ := inductionHypothesis others available bounds
        exact ⟨first, cons own second⟩
      · exact ⟨bounds, paged⟩
      · obtain ⟨_, stop⟩ := own (Or.inl (not_not.mp taken))
        obtain ⟨start, _⟩ := bounds (Or.inl available)
        have longer : PageBounds { head with addrEnd := current.addrEnd } :=
          fun _ => ⟨start, stop⟩
        obtain ⟨first, second⟩ := @inductionHypothesis others
          { head with addrEnd := current.addrEnd } available longer
        exact ⟨first, cons (fun _ => ⟨stop, stop⟩) second⟩

theorem coalesceAt (paged : PagedEntries table) (i : Nat) :
    PagedEntries (Kickstart.coalesceAt table i) := by
  rw [Kickstart.coalesceAt]
  cases tail : table.drop i with
  | nil => exact paged
  | cons head rest =>
      have dropped : PagedEntries (head :: rest) := fun region inside =>
        paged region (List.mem_of_mem_drop (tail ▸ inside))
      obtain ⟨own, others⟩ := List.forall_mem_cons.mp dropped
      dsimp only
      split_ifs with taken empty
      · exact paged
      · exact paged
      · obtain ⟨first, second⟩ := absorb others (not_not.mp taken) own
        exact append (fun region inside => paged region (List.mem_of_mem_take inside))
          (cons first second)

theorem coalesce (paged : PagedEntries table) :
    PagedEntries (Kickstart.coalesce table) := by
  rw [Kickstart.coalesce]
  generalize List.range table.length = indices
  induction indices generalizing table with
  | nil => exact paged
  | cons i rest inductionHypothesis => exact inductionHypothesis (paged.coalesceAt i)

/-- Releasing a reserved region makes it available with the page bounds it has. -/
theorem deallocate (paged : PagedEntries table) (addr : Nat) :
    PagedEntries (pmmDeallocate table addr) := by
  rw [pmmDeallocate]
  dsimp only
  generalize (if addr &&& 0x0FFF ≠ 0 then clearLow 64 12 addr else addr) = pageAddr
  cases found : table.findIdx? _ with
  | none => exact paged.coalesce.sort
  | some i =>
      obtain ⟨before, region, behind, rfl, rfl, _, _⟩ :=
        exists_split_of_findIdx? found
      dsimp only
      rw [getElem?_split]
      dsimp only
      split_ifs with above used
      · exact paged
      · exact paged
      · obtain ⟨first, rest⟩ := List.forall_mem_append.mp paged
        obtain ⟨own, others⟩ := List.forall_mem_cons.mp rest
        have bounds := own (Or.inr (not_not.mp used))
        have freed : PageBounds { region with type := .available } := fun _ => bounds
        rw [modify_split]
        exact (append first (cons freed others)).coalesce.sort

end PagedEntries

/-! ## Histories -/

/-- Every call of the memory manager keeps page bounds. -/
theorem ArrayCall.run_paged {table after : RegionTable} {ret : Nat}
    {call : ArrayCall} (paged : PagedEntries table)
    (ran : call.run table = some (ret, after)) : PagedEntries after := by
  cases call with
  | add type start stop =>
      obtain ⟨_, added, made⟩ := Option.map_eq_some_iff.mp ran
      exact (Prod.mk.inj made).2 ▸ paged.addRegion added
  | reserve start stop =>
      obtain ⟨_, reserved, made⟩ := Option.map_eq_some_iff.mp ran
      exact (Prod.mk.inj made).2 ▸ paged.reserveMemoryRegion reserved
  | allocate regionPageCount type => exact paged.allocateRegionWithType ran
  | deallocate addr =>
      rw [← (Prod.mk.inj (Option.some.inj ran)).2]
      exact paged.deallocate addr

/-- Whatever calls the memory manager gets, in whatever order: the available and
reserved entries of its table start and end at page boundaries. -/
theorem arrayCalls_paged {calls : List ArrayCall} : ∀ {table after : RegionTable}
    {rets : List Nat}, PagedEntries table →
      arrayCalls calls table = some (rets, after) → PagedEntries after := by
  induction calls with
  | nil =>
      intro table after rets paged ran
      rw [arrayCalls, Option.some.injEq, Prod.mk.injEq] at ran
      exact ran.2 ▸ paged
  | cons call rest inductionHypothesis =>
      intro table after rets paged ran
      rw [arrayCalls, Option.bind_eq_some_iff] at ran
      obtain ⟨⟨ret, next⟩, first, later⟩ := ran
      obtain ⟨⟨others, last⟩, ran, made⟩ := Option.map_eq_some_iff.mp later
      rw [← (Prod.mk.inj made).2]
      exact inductionHypothesis (call.run_paged paged first) ran

end SampoOS.Kickstart
