/-
Module: SampoOS.Kickstart.PagerRefinement
Purpose: The page tables that Kickstart builds refine an address space in which
  the first mapping of each page wins.
Trusted boundary: none
Main exports: mapPages_refine_firstMapping, mapPages_existing,
  initializePager_isSome
-/
import SampoOS.Kickstart.PagerSpec

namespace SampoOS.Kickstart

open Paging

/-! ## The refinement -/

/-- The address space after `initialize_pager` and further calls, read off at a
canonical address. -/
theorem mapCalls_identitySpace {calls : List MapCall} {v : Nat}
    (canonical : ∀ call ∈ calls, Canonical call.virtAddr)
    (isCanonical : Canonical v) :
    mapCalls calls identitySpace (pageNumber v) =
      if v < 0x200000 then
        some { frame := v / 4096 * 4096, writable := true, executable := true }
      else
        (calls.find? fun call =>
          decide (call.virtAddr / 4096 = v / 4096)).map fun call =>
            requestedMapping call.physAddr call.permFlags := by
  have samePage : ∀ call ∈ calls,
      decide (pageNumber call.virtAddr = pageNumber v) =
        decide (call.virtAddr / 4096 = v / 4096) := fun call inside =>
    decide_eq_decide.mpr (pageNumber_eq_iff (canonical call inside) isCanonical)
  have low : pageNumber v < 512 ↔ v < 0x200000 := by
    simp only [Canonical] at isCanonical
    simp only [pageNumber]
    omega
  have number : v < 0x200000 → pageNumber v = v / 4096 := by
    intro small
    rw [pageNumber]
    omega
  rw [mapCalls, foldl_mapFirst, List.find?_congr samePage, identitySpace]
  by_cases small : v < 0x200000
  · rw [if_pos (low.mpr small), if_pos small, number small, Option.some_or]
  · rw [if_neg fun below => small (low.mp below), if_neg small, Option.none_or]

/-- After `initialize_pager` and any calls of `map_page` whose page tables were
all allocated below 4 GiB, the page tables map the first 2 MiB to themselves,
and every other page as the first call for it asked; one more call changes the
translation of at most one page. -/
theorem mapPages_refine_firstMapping {start ready done : KickstartState}
    {calls : List MapCall} (regions : TableInvariant start.memoryRegions)
    (initialized : initializePager .bits64 start = some (true, ready))
    (proper : ∀ call ∈ calls, 4096 ∣ call.physAddr ∧ call.physAddr < 2 ^ 51 ∧
      Canonical call.virtAddr)
    (ran : mapPages calls ready = some done)
    (succeeded : ∀ outcome ∈ done.allocations, Succeeded outcome) :
    (∀ v, Canonical v →
      translatePage done.memory done.topPageStructure v =
        if v < 0x200000 then
          some { frame := v / 4096 * 4096, writable := true, executable := true }
        else
          (calls.find? fun call =>
            decide (call.virtAddr / 4096 = v / 4096)).map fun call =>
              requestedMapping call.physAddr call.permFlags) ∧
      ∀ (call : MapCall) (next : KickstartState), 4096 ∣ call.physAddr →
        call.physAddr < 2 ^ 51 → Canonical call.virtAddr →
        mapPage call.physAddr call.virtAddr call.permFlags done = some next →
        (∀ outcome ∈ next.allocations, Succeeded outcome) →
        ∀ v, Canonical v → v / 4096 ≠ call.virtAddr / 4096 →
          translatePage next.memory next.topPageStructure v =
            translatePage done.memory done.topPageStructure v := by
  obtain ⟨tables, built⟩ := initializePager_spec regions.available initialized
    fun outcome inside => succeeded outcome (mapPages_allocations ran inside)
  have frames : ∀ call ∈ calls, 4096 ∣ call.physAddr ∧ call.physAddr < 2 ^ 52 :=
    fun call inside => ⟨(proper call inside).1, by
      have below := (proper call inside).2.1
      omega⟩
  obtain ⟨tables', pager', _⟩ := mapPages_spec built.pager frames ran succeeded
  constructor
  · intro v canonical
    rw [pager'.tree.translatePage_eq pager'.root]
    exact mapCalls_identitySpace (fun call inside => (proper call inside).2.2)
      canonical
  · intro call next aligned low canonicalCall ranNext succeededNext v canonical
      otherPage
    obtain ⟨tables'', pager'', _⟩ := mapPage_spec pager' aligned
      (by omega) ranNext succeededNext
    have other : pageNumber v ≠ pageNumber call.virtAddr := fun same =>
      otherPage ((pageNumber_eq_iff canonical canonicalCall).mp same)
    rw [pager''.tree.translatePage_eq pager''.root,
      pager'.tree.translatePage_eq pager'.root, AddressSpace.mapFirst_apply,
      if_neg other, Option.or_none]

/-! ## Calls that need no new table -/

/-- A page whose tables exist is mapped without an allocation. -/
theorem mapPage_existing {s : KickstartState} {tables : Tables}
    {space : AddressSpace} (pager : PagerInvariant s tables space)
    (physAddr permFlags : Nat) {virtAddr table : Nat}
    (found : tables [tableIndex 3 virtAddr, tableIndex 2 virtAddr,
      tableIndex 1 virtAddr] = some table) :
    mapPage physAddr virtAddr permFlags s =
      some (mapEntry table (tableIndex 0 virtAddr) physAddr virtAddr permFlags
        s) := by
  have present : ∀ {path index next}, tables (path ++ [index]) = some next →
      ∃ above, tables path = some above := by
    intro path index next found
    exact Option.isSome_iff_exists.mp
      (pager.tree.parent (Option.isSome_iff_exists.mpr ⟨next, found⟩))
  obtain ⟨pd, foundPd⟩ : ∃ above,
      tables ([tableIndex 3 virtAddr] ++ [tableIndex 2 virtAddr]) = some above :=
    present found
  obtain ⟨pdp, foundPdp⟩ : ∃ above,
      tables ([] ++ [tableIndex 3 virtAddr]) = some above :=
    present foundPd
  exact (mapPage_eq_some pager.wide).mpr ⟨pdp, s, pd, s, table, s,
    pager.nextTable_existing pager.root (by decide) (tableIndex_lt 3 _) foundPdp,
    pager.nextTable_existing foundPdp (by simp) (tableIndex_lt 2 _) foundPd,
    pager.nextTable_existing foundPd (by simp) (tableIndex_lt 1 _) found, rfl⟩

/-- A page of which only the page table is missing is mapped with one
allocation. -/
theorem mapPage_missing {s s₁ : KickstartState} {tables : Tables}
    {space : AddressSpace} (pager : PagerInvariant s tables space)
    (physAddr permFlags : Nat) {virtAddr pdp pd table : Nat}
    (foundPdp : tables [tableIndex 3 virtAddr] = some pdp)
    (foundPd : tables [tableIndex 3 virtAddr, tableIndex 2 virtAddr] = some pd)
    (missing : tables [tableIndex 3 virtAddr, tableIndex 2 virtAddr,
      tableIndex 1 virtAddr] = none)
    (given : allocateRegion 1 s = some (table, s₁)) :
    ∃ s', mapPage physAddr virtAddr permFlags s = some s' ∧
      SameControl s₁ s' := by
  have low := pager.low foundPd
  have inTable := tableIndex_lt 1 virtAddr
  have entry := pager.tree.links foundPd (by simp) inTable
  rw [show tables ([tableIndex 3 virtAddr, tableIndex 2 virtAddr] ++
    [tableIndex 1 virtAddr]) = none from missing] at entry
  have zero : entryAt s.memory pd (tableIndex 1 virtAddr) = 0 := entry
  have written : ∃ s₂, nextTable pd (tableIndex 1 virtAddr) s =
      some (table, s₂) ∧ SameControl s₁ s₂ := by
    rw [nextTable_eq (by omega), if_pos zero, given]
    exact ⟨_, rfl, rfl, rfl, rfl, rfl, rfl, rfl⟩
  obtain ⟨s₂, third, control⟩ := written
  exact ⟨_, (mapPage_eq_some pager.wide).mpr ⟨pdp, s, pd, s, table, s₂,
    pager.nextTable_existing pager.root (by decide) (tableIndex_lt 3 _) foundPdp,
    pager.nextTable_existing foundPdp (by simp) (tableIndex_lt 2 _) foundPd,
    third, rfl⟩, control.trans (mapEntry_sameControl _ _ _ _ _ _)⟩

/-- Calls for pages whose tables exist all succeed, and change only memory and
output. -/
theorem mapPages_existing (calls : List MapCall) : ∀ {s : KickstartState}
    {tables : Tables} {space : AddressSpace}, PagerInvariant s tables space →
    (∀ call ∈ calls, 4096 ∣ call.physAddr ∧ call.physAddr < 2 ^ 52 ∧
      ∃ table, tables [tableIndex 3 call.virtAddr, tableIndex 2 call.virtAddr,
        tableIndex 1 call.virtAddr] = some table) →
    ∃ s', mapPages calls s = some s' ∧ SameControl s s' ∧
      PagerInvariant s' tables (mapCalls calls space) := by
  induction calls with
  | nil => exact fun pager _ => ⟨_, rfl, SameControl.refl _, pager⟩
  | cons call calls inductionHypothesis =>
      intro s tables space pager proper
      obtain ⟨aligned, low, table, found⟩ := proper call List.mem_cons_self
      have mapped := mapPage_existing pager call.physAddr call.permFlags found
      have pager₁ := (pager.mapEntry_spec call.virtAddr call.permFlags found
        (pagePath_pageNumber call.virtAddr) (pageNumber_lt call.virtAddr) aligned
        low).1
      obtain ⟨s', ran, control, pager'⟩ := inductionHypothesis pager₁
        fun call inside => proper call (List.mem_cons_of_mem _ inside)
      exact ⟨s', mapPages_cons.mpr ⟨_, mapped, ran⟩,
        (mapEntry_sameControl _ _ _ _ _ _).trans control, pager'⟩

/-- The tables for the first 2 MiB serve every page below that. -/
theorem identTables_low {pml4Addr v : Nat} (low : v < 0x200000) :
    identTables pml4Addr [tableIndex 3 v, tableIndex 2 v, tableIndex 1 v] =
      some (pml4Addr + 0x3000) := by
  have zero : tableIndex 3 v = 0 ∧ tableIndex 2 v = 0 ∧ tableIndex 1 v = 0 := by
    simp only [tableIndex]
    omega
  rw [zero.1, zero.2.1, zero.2.2, identTables, Function.update_self]

/-- Once its four tables are allocated, `initialize_pager` succeeds without
further allocations. -/
theorem initializePager_isSome {s s₁ : KickstartState} {pml4Addr : Nat}
    (regions : AvailableInvariant s.memoryRegions)
    (given : allocateRegion 4 { s with pageType := .bits64 } =
      some (pml4Addr, s₁))
    (succeeded : ∀ outcome ∈ s₁.allocations, Succeeded outcome) :
    ∃ ready, initializePager .bits64 s = some (true, ready) ∧
      SameControl { s₁ with topPageStructure := pml4Addr } ready ∧
      PagerInvariant ready (identTables pml4Addr) identitySpace := by
  have allocated : Allocated { s with pageType := .bits64 } 4 pml4Addr .allocated
      s₁ := allocateRegionWithType_spec regions (by decide) (by decide) (by decide)
    given succeeded
  have pager := linkIdentTables_spec rfl allocated
  have all : ∀ call ∈ identityCalls,
      4096 ∣ call.physAddr ∧ call.physAddr < 2 ^ 52 ∧
        ∃ table, identTables pml4Addr [tableIndex 3 call.virtAddr,
          tableIndex 2 call.virtAddr, tableIndex 1 call.virtAddr] =
            some table := by
    intro call inside
    simp only [identityCalls, List.mem_map, List.mem_range] at inside
    obtain ⟨i, below, rfl⟩ := inside
    exact ⟨Nat.dvd_mul_left _ _, by dsimp only; omega, _,
      identTables_low (by dsimp only; omega)⟩
  obtain ⟨ready, ran, control, pager'⟩ := mapPages_existing identityCalls pager all
  rw [mapCalls_identityCalls] at pager'
  rw [linkIdentTables_only] at control
  exact ⟨ready, initializePager_eq_some.mpr ⟨pml4Addr, s₁, given,
    Nat.ne_of_gt allocated.notNull, ran⟩,
    ⟨control.regions, control.root, control.type, control.header,
      control.entryPoint, control.allocations⟩, pager'⟩

/-- A state with one free mebibyte, before `initialize_pager`. -/
def freeMebibyte : KickstartState where
  memory := fun _ => 0
  memoryRegions := [⟨0x100000, 0x200000, .available⟩]
  topPageStructure := 0
  pageType := .bits32
  header := ⟨0, .class64, .little, .amd64, 0, 0, 0, 0⟩
  programEntryPoint := 0
  serial := []
  allocations := []

theorem freeMebibyte_regions : TableInvariant freeMebibyte.memoryRegions :=
  ⟨by decide, by decide, by decide, List.pairwise_singleton _ _⟩

theorem freeMebibyte_initialized :
    ∃ ready, initializePager .bits64 freeMebibyte = some (true, ready) ∧
      ready.memoryRegions = [⟨0x100000, 0x104000, .allocated⟩,
        ⟨0x104000, 0x200000, .available⟩] ∧
      ready.allocations = [some ⟨0x100000, 0x104000, .allocated⟩] ∧
      PagerInvariant ready (identTables 0x100000) identitySpace := by
  have given : ∃ s₁, allocateRegion 4 { freeMebibyte with pageType := .bits64 } =
      some (0x100000, s₁) ∧
      s₁.memoryRegions = [⟨0x100000, 0x104000, .allocated⟩,
        ⟨0x104000, 0x200000, .available⟩] ∧
      s₁.allocations = [some ⟨0x100000, 0x104000, .allocated⟩] :=
    ⟨_, rfl, by decide, by decide⟩
  obtain ⟨s₁, given, left, history⟩ := given
  have succeeded : ∀ outcome ∈ s₁.allocations, Succeeded outcome := by
    rw [history]
    intro outcome inside
    rw [List.mem_singleton] at inside
    exact ⟨_, inside, by decide, by decide, by decide⟩
  obtain ⟨ready, initialized, control, pager⟩ := initializePager_isSome
    freeMebibyte_regions.available given succeeded
  exact ⟨ready, initialized, control.regions.trans left,
    control.allocations.trans history, pager⟩

/-- Three calls for two pages at 2 MiB: the first needs a page table, the second
asks for a page that is mapped by then. -/
theorem mapPages_refine_twoPages :
    ∃ done : KickstartState, ∀ v, Canonical v →
      translatePage done.memory done.topPageStructure v =
        if v < 0x200000 then
          some { frame := v / 4096 * 4096, writable := true, executable := true }
        else
          ([⟨0x5000, 0x200000, 0⟩, ⟨0x6000, 0x200000, 2⟩,
              ⟨0x7000, 0x201000, 4⟩].find? fun call : MapCall =>
            decide (call.virtAddr / 4096 = v / 4096)).map fun call =>
              requestedMapping call.physAddr call.permFlags := by
  obtain ⟨ready, initialized, regions, history, pager⟩ := freeMebibyte_initialized
  have served : ∃ after, pmmAllocateRegionWithType ready.memoryRegions 1 .allocated =
      some (0x104000, after) := by
    rw [regions]
    exact ⟨_, rfl⟩
  have block : allocatedBlock ready.memoryRegions 1 .allocated =
      some ⟨0x104000, 0x105000, .allocated⟩ := by
    rw [regions]
    decide
  obtain ⟨after, served⟩ := served
  obtain ⟨s₂, first, control⟩ := mapPage_missing pager 0x5000 0
    (show identTables 0x100000 [tableIndex 3 0x200000] = some 0x101000 by decide)
    (show identTables 0x100000 [tableIndex 3 0x200000, tableIndex 2 0x200000] =
      some 0x102000 by decide)
    (show identTables 0x100000 [tableIndex 3 0x200000, tableIndex 2 0x200000,
      tableIndex 1 0x200000] = none by decide) (allocateRegionWithType_eq served)
  have succeeded : ∀ outcome ∈ s₂.allocations, Succeeded outcome := by
    rw [control.allocations, history, block]
    have low : ∀ block ∈ [⟨0x100000, 0x104000, .allocated⟩,
        (⟨0x104000, 0x105000, .allocated⟩ : MemoryRegion)],
        0 < block.addrStart ∧ block.addrStart < 2 ^ 32 ∧
          block.addrEnd ≤ 2 ^ 32 := by decide
    exact succeeded_of_low low
  obtain ⟨s₃, tables, ptAddr, pager₃, _, _, found, last⟩ :=
    mapPage_reaches pager first succeeded
  have pager₂ := (pager₃.mapEntry_spec 0x200000 0 found (pagePath_pageNumber _)
    (pageNumber_lt _) (show 4096 ∣ 0x5000 by decide) (by decide)).1
  rw [last] at pager₂
  -- The page table serves the other two calls as well.
  obtain ⟨done, others, control', _⟩ := mapPages_existing
    [⟨0x6000, 0x200000, 2⟩, ⟨0x7000, 0x201000, 4⟩] pager₂ (by
      intro call inside
      simp only [List.mem_cons, List.not_mem_nil, or_false] at inside
      rcases inside with rfl | rfl
      · exact ⟨by decide, by decide, ptAddr, found⟩
      · exact ⟨by decide, by decide, ptAddr, found⟩)
  rw [← control'.allocations] at succeeded
  have ran : mapPages [⟨0x5000, 0x200000, 0⟩, ⟨0x6000, 0x200000, 2⟩,
      ⟨0x7000, 0x201000, 4⟩] ready = some done :=
    mapPages_cons.mpr ⟨s₂, first, others⟩
  have refined := mapPages_refine_firstMapping freeMebibyte_regions initialized
    (by decide) ran succeeded
  exact ⟨done, refined.1⟩

end SampoOS.Kickstart
