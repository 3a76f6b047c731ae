/-
Module: SampoOS.Handover.MappingAgreement
Purpose: The kernel's mapper, which writes page tables through the recursive
  window, and Kickstart's, which writes them by physical address, agree.
Trusted boundary: none
Main exports: MappableRun, pageCalls, mapPage_reached, mapPages_agree,
  virtMapPagesKernelEnd_agrees
-/
import SampoOS.Kernel.FreePages
import SampoOS.Kickstart.PagerRefinement

namespace SampoOS

open ByteMemory (Memory storeLe storeLe_outside)
open Paging
open Kernel Kickstart

/-! ## Entries -/

/-- Both mappers write the same entry. -/
theorem pageTableEntry_eq_pageEntry (physAddr perms : Nat) :
    pageTableEntry physAddr perms = pageEntry physAddr perms := rfl

/-- A table whose entry is present is found, not allocated. -/
theorem nextTable_present {k : KickstartState} {table index : Nat}
    (present : isPresent (entryAt k.memory table index) = true)
    (lowTable : table + 8 * index < 2 ^ 32)
    (low : entryFrame (entryAt k.memory table index) < 2 ^ 32) :
    nextTable table index k =
      some (entryFrame (entryAt k.memory table index), k) := by
  have nonzero : entryAt k.memory table index ≠ 0 := by
    intro zero
    rw [zero, isPresent_zero] at present
    cases present
  rw [nextTable_eq lowTable, if_neg nonzero, clearLow_entry rfl low]

/-- A free entry below 4 GiB is written. -/
theorem mapEntry_free {k : KickstartState} {table index : Nat}
    (free : entryAt k.memory table index = 0)
    (lowTable : table + 8 * index < 2 ^ 32) (physAddr virtAddr permFlags : Nat) :
    mapEntry table index physAddr virtAddr permFlags k =
      { k with
        memory := storeLe k.memory (table + 8 * index) 8
          (pageEntry physAddr permFlags) } := by
  rw [entryAt] at free
  rw [mapEntry, Nat.mod_eq_of_lt lowTable]
  simp only [free, ne_eq, not_true_eq_false, if_false]

/-! ## Runs -/

/-- All tables of the tree lie below 4 GiB. -/
def LowTables (m : Memory) (root : Nat) : Prop :=
  ∀ {path table}, TreePath fractalMapPml4Idx path →
    reach m root path = some table → table < 2 ^ 32

/-- A run of canonical pages outside of the window that are not mapped, but have
their page tables. -/
structure MappableRun (s : KernelState) (pageCount : Nat) : Prop where
  tree : RecursiveTree s.physical s.root fractalMapPml4Idx
  low : LowTables s.physical s.root
  noWrap : s.kernelEndAddr + 4096 * pageCount ≤ 2 ^ 64
  canonical : ∀ i < pageCount, Canonical (s.kernelEndAddr + 4096 * i)
  outside : ∀ i < pageCount, OutsideWindow (s.kernelEndAddr + 4096 * i)
  tables : ∀ i < pageCount, ∃ table,
    reach s.physical s.root (pageTablePath (s.kernelEndAddr + 4096 * i)) = some table
  free : ∀ i < pageCount, ∀ table,
    reach s.physical s.root (pageTablePath (s.kernelEndAddr + 4096 * i)) = some table →
    entryAt s.physical table (tableIndex 0 (s.kernelEndAddr + 4096 * i)) = 0

/-- The calls of `map_page` for a run of pages. -/
def pageCalls (physAddr virtAddr perms pageCount : Nat) : List MapCall :=
  (List.range pageCount).map fun i =>
    { physAddr := physAddr + 4096 * i
      virtAddr := virtAddr + 4096 * i
      permFlags := perms }

theorem pageCalls_succ (physAddr virtAddr perms pageCount : Nat) :
    pageCalls physAddr virtAddr perms (pageCount + 1) =
      { physAddr := physAddr, virtAddr := virtAddr, permFlags := perms } ::
        pageCalls (physAddr + 4096) (virtAddr + 4096) perms pageCount := by
  rw [pageCalls, List.range_succ_eq_map, List.map_cons, List.map_map, pageCalls]
  simp only [Nat.mul_zero, Nat.add_zero, List.cons.injEq, true_and]
  refine List.map_congr_left fun i _ => ?_
  simp only [Function.comp_apply, MapCall.mk.injEq, and_true]
  omega

/-- The entry of a low table lies below 4 GiB. -/
theorem entry_low {m : Memory} {root table index : Nat} {path : List Nat}
    (tree : RecursiveTree m root fractalMapPml4Idx) (low : LowTables m root)
    (treePath : TreePath fractalMapPml4Idx path)
    (found : reach m root path = some table) (inTable : index < 512) :
    table + 8 * index < 2 ^ 32 := by
  have below := low treePath found
  have aligned := reach_aligned tree.root_aligned found
  omega

/-- Through present tables `map_page` comes to the page-table entry, and writes it
if it is free. -/
theorem mapPage_reached {k : KickstartState} {virtAddr table : Nat}
    (wide : k.pageType = .bits64)
    (tree : RecursiveTree k.memory k.topPageStructure fractalMapPml4Idx)
    (low : LowTables k.memory k.topPageStructure)
    (outside : OutsideWindow virtAddr)
    (found : reach k.memory k.topPageStructure (pageTablePath virtAddr) = some table)
    (free : entryAt k.memory table (tableIndex 0 virtAddr) = 0)
    (physAddr permFlags : Nat) :
    mapPage physAddr virtAddr permFlags k =
      some { k with
        memory := storeLe k.memory (table + 8 * tableIndex 0 virtAddr) 8
          (pageEntry physAddr permFlags) } := by
  have treePath := outside.treePath
  -- Each level finds the table that the path leads to.
  have level : ∀ (front : List Nat) (index : Nat) (back : List Nat)
      {current next : Nat}, pageTablePath virtAddr = front ++ index :: back →
      reach k.memory k.topPageStructure front = some current →
      reach k.memory k.topPageStructure (front ++ [index]) = some next →
      nextTable current index k = some (next, k) := by
    intro front index back current next split atFront atNext
    have whole : pageTablePath virtAddr = (front ++ [index]) ++ back := by
      rw [split, List.append_assoc, List.singleton_append]
    have nextLow := low (whole ▸ treePath).front atNext
    have inTable : index < 512 := treePath.inTable index (by simp [split])
    rw [reach_append, atFront, Option.bind_some, reach] at atNext
    split at atNext
    next present =>
      obtain rfl := Option.some.inj atNext
      exact nextTable_present present
        (entry_low tree low (split ▸ treePath).front atFront inTable) nextLow
    · cases atNext
  obtain ⟨pd, pdFound⟩ := exists_reach_front
    [tableIndex 3 virtAddr, tableIndex 2 virtAddr] [tableIndex 1 virtAddr] found
  obtain ⟨pdpt, pdptFound⟩ := exists_reach_front
    [tableIndex 3 virtAddr] [tableIndex 2 virtAddr] pdFound
  rw [mapPage_eq_some wide]
  refine ⟨pdpt, k, pd, k, table, k, ?_, ?_, ?_, ?_⟩
  · exact level [] _ _ rfl rfl pdptFound
  · exact level [tableIndex 3 virtAddr] _ _ rfl pdptFound pdFound
  · exact level [tableIndex 3 virtAddr, tableIndex 2 virtAddr] _ _ rfl pdFound found
  · exact mapEntry_free free
      (entry_low tree low treePath found (tableIndex_lt 0 virtAddr))
      physAddr virtAddr permFlags

/-- Canonical pages that do not wrap around lie in one half of the address space. -/
theorem MappableRun.pageCount_le {s : KernelState} {pageCount : Nat}
    (run : MappableRun s pageCount) : pageCount ≤ 2 ^ 35 := by
  by_contra long
  have start := run.canonical 0 (by omega)
  have half := run.canonical (2 ^ 35) (by omega)
  have last := run.noWrap
  simp only [Canonical] at start half
  omega

/-- Mapping the first page of a run leaves the run of the others. -/
theorem MappableRun.rest {s : KernelState} {pageCount table : Nat}
    (run : MappableRun s (pageCount + 1))
    (found : reach s.physical s.root (pageTablePath s.kernelEndAddr) = some table)
    (entry : Nat) :
    MappableRun (mapAt (table + 8 * tableIndex 0 s.kernelEndAddr) entry s)
      pageCount := by
  have first : OutsideWindow s.kernelEndAddr := run.outside 0 (Nat.succ_pos _)
  have bound := run.noWrap
  have next : (mapAt (table + 8 * tableIndex 0 s.kernelEndAddr) entry s).kernelEndAddr
      = (s.kernelEndAddr + 4096) % 2 ^ 64 := mapAt_kernelEndAddr _ _ s
  have address : ∀ {i}, i < pageCount →
      (mapAt (table + 8 * tableIndex 0 s.kernelEndAddr) entry s).kernelEndAddr +
        4096 * i = s.kernelEndAddr + 4096 * (i + 1) := by
    intro i below
    omega
  have moved : ∀ {path}, TreePath fractalMapPml4Idx path →
      reach (mapAt (table + 8 * tableIndex 0 s.kernelEndAddr) entry s).physical
        s.root path = reach s.physical s.root path :=
    fun treePath => reach_mapped run.tree first found entry treePath
  refine ⟨run.tree.store first.treePath rfl found (tableIndex_lt 0 _), ?_, ?_, ?_,
    ?_, ?_, ?_⟩
  · intro path other treePath reached
    exact run.low treePath (moved treePath ▸ reached)
  · omega
  · intro i below
    rw [address below]
    exact run.canonical (i + 1) (Nat.succ_lt_succ below)
  · intro i below
    rw [address below]
    exact run.outside (i + 1) (Nat.succ_lt_succ below)
  · intro i below
    rw [address below]
    obtain ⟨other, reached⟩ := run.tables (i + 1) (Nat.succ_lt_succ below)
    exact ⟨other, (moved (run.outside (i + 1)
      (Nat.succ_lt_succ below)).treePath).trans reached⟩
  · intro i below other reached
    rw [address below] at reached ⊢
    have outside := run.outside (i + 1) (Nat.succ_lt_succ below)
    have before := (moved outside.treePath).symm.trans reached
    have different : pageNumber (s.kernelEndAddr + 4096 * (i + 1)) ≠
        pageNumber s.kernelEndAddr := by
      have start : Canonical s.kernelEndAddr := run.canonical 0 (Nat.succ_pos _)
      rw [Ne, pageNumber_eq_iff
        (run.canonical (i + 1) (Nat.succ_lt_succ below)) start]
      omega
    exact (entry_mapped run.tree first found entry outside before different).trans
      (run.free (i + 1) (Nat.succ_lt_succ below) other before)

/-- The bytes of the page-table entries of a run. -/
def OutsideEntries (s : KernelState) (pageCount x : Nat) : Prop :=
  ∀ i < pageCount, ∀ table,
    reach s.physical s.root (pageTablePath (s.kernelEndAddr + 4096 * i)) = some table →
    x < table + 8 * tableIndex 0 (s.kernelEndAddr + 4096 * i) ∨
      table + 8 * tableIndex 0 (s.kernelEndAddr + 4096 * i) + 8 ≤ x

/-- Both mappers map the first page of a run, by the same write. -/
theorem MappableRun.first {s : KernelState} {k : KickstartState} {pageCount : Nat}
    (run : MappableRun s (pageCount + 1)) (wide : k.pageType = .bits64)
    (memory : k.memory = s.physical) (root : k.topPageStructure = s.root)
    (physAddr perms : Nat) :
    ∃ table,
      reach s.physical s.root (pageTablePath s.kernelEndAddr) = some table ∧
      virtMapPage physAddr perms s = some (true,
        mapAt (table + 8 * tableIndex 0 s.kernelEndAddr)
          (pageTableEntry physAddr perms) s) ∧
      mapPage physAddr s.kernelEndAddr perms k = some { k with
        memory := (mapAt (table + 8 * tableIndex 0 s.kernelEndAddr)
          (pageTableEntry physAddr perms) s).physical } := by
  obtain ⟨table, found⟩ := run.tables 0 (Nat.succ_pos _)
  have free := run.free 0 (Nat.succ_pos _) table found
  rw [Nat.mul_zero, Nat.add_zero] at found free
  refine ⟨table, found, ?_, ?_⟩
  · rw [virtMapPage_mapped_iff run.tree.toRecursiveSlot]
    exact ⟨table, found, by rw [free, isPresent_zero], rfl⟩
  · rw [mapAt_physical, ← memory, pageTableEntry_eq_pageEntry]
    apply mapPage_reached wide ?_ ?_ (run.outside 0 (Nat.succ_pos _)) ?_ ?_
    · rw [memory, root]
      exact run.tree
    · rw [memory, root]
      exact run.low
    · rw [memory, root]
      exact found
    · rw [memory]
      exact free

/-- What lies outside of the entries of a run lies outside of those of its other
pages, once the first one is mapped. -/
theorem OutsideEntries.rest {s : KernelState} {pageCount table x : Nat}
    (elsewhere : OutsideEntries s (pageCount + 1) x)
    (run : MappableRun s (pageCount + 1))
    (found : reach s.physical s.root (pageTablePath s.kernelEndAddr) = some table)
    (entry : Nat) :
    OutsideEntries (mapAt (table + 8 * tableIndex 0 s.kernelEndAddr) entry s)
      pageCount x := by
  intro i below other reached
  rw [mapAt_physical, mapAt_root, mapAt_kernelEndAddr] at reached
  rw [mapAt_kernelEndAddr]
  have last := run.noWrap
  have address : (s.kernelEndAddr + pageSize) % 2 ^ 64 + 4096 * i =
      s.kernelEndAddr + 4096 * (i + 1) := by
    rw [pageSize]
    omega
  rw [address] at reached ⊢
  apply elsewhere (i + 1) (Nat.succ_lt_succ below) other
  rw [← reached]
  exact (reach_mapped run.tree (run.outside 0 (Nat.succ_pos _)) found entry
    (run.outside (i + 1) (Nat.succ_lt_succ below)).treePath).symm

/-- The addresses wrap around at most behind the last page. -/
theorem pageCalls_wrapped {physAddr virtAddr pageCount : Nat} (perms : Nat)
    (physFits : physAddr + 4096 * (pageCount + 1) ≤ 2 ^ 64)
    (virtFits : virtAddr + 4096 * (pageCount + 1) ≤ 2 ^ 64) :
    pageCalls (physAddr + 4096) (virtAddr + 4096) perms pageCount =
      pageCalls ((physAddr + pageSize) % 2 ^ 64) ((virtAddr + pageSize) % 2 ^ 64)
        perms pageCount := by
  rcases Nat.eq_zero_or_pos pageCount with rfl | positive
  · simp only [pageCalls, List.range_zero, List.map_nil]
  · rw [pageSize, Nat.mod_eq_of_lt (by omega), Nat.mod_eq_of_lt (by omega)]

/-- The loops of both mappers write the same entries, and nothing else. -/
theorem mapPages_agree (perms pageCount : Nat) :
    ∀ {physAddr : Nat} {s : KernelState} {k : KickstartState},
      MappableRun s pageCount → s.kernelEndAddr < 2 ^ 64 →
      physAddr + 4096 * pageCount ≤ 2 ^ 64 → k.pageType = .bits64 →
      k.memory = s.physical → k.topPageStructure = s.root →
      ∃ s' k', virtMapPages perms pageCount physAddr s = some (true, s') ∧
        mapPages (pageCalls physAddr s.kernelEndAddr perms pageCount) k = some k' ∧
        s'.physical = k'.memory ∧
        ∀ x, OutsideEntries s pageCount x → s'.physical x = s.physical x := by
  induction pageCount with
  | zero =>
      intro physAddr s k _ _ _ _ memory _
      exact ⟨s, k, rfl, rfl, memory.symm, fun _ _ => rfl⟩
  | succ pageCount inductionHypothesis =>
      intro physAddr s k run word bound wide memory root
      obtain ⟨table, found, page, call⟩ := run.first wide memory root physAddr perms
      have calls := pageCalls_wrapped perms bound run.noWrap
      have lower : (physAddr + pageSize) % 2 ^ 64 + 4096 * pageCount ≤ 2 ^ 64 := by
        rw [pageSize]
        omega
      obtain ⟨s', k', ran, called, same, kept⟩ := inductionHypothesis (k := { k with
          memory := (mapAt (table + 8 * tableIndex 0 s.kernelEndAddr)
            (pageTableEntry physAddr perms) s).physical })
        (run.rest found (pageTableEntry physAddr perms))
        (Nat.mod_lt _ (by decide)) lower wide rfl root
      rw [mapAt_kernelEndAddr, ← calls] at called
      refine ⟨s', k', ?_, ?_, same, ?_⟩
      · rw [virtMapPages, page, Option.bind_some]
        exact ran
      · rw [pageCalls_succ, mapPages_cons]
        exact ⟨_, call, called⟩
      · intro x elsewhere
        rw [kept x (elsewhere.rest run found _), mapAt_physical]
        exact storeLe_outside (elsewhere 0 (Nat.succ_pos _) table found)

/-- Mapping pages at the end of the kernel through the window returns the old end,
moves it on by the pages, and leaves the page tables as the calls of `map_page` for
the same pages leave them, which change no other entry. -/
theorem virtMapPagesKernelEnd_agrees {physAddr perms pageCount : Nat}
    {s : KernelState} {k : KickstartState} (run : MappableRun s pageCount)
    (word : s.kernelEndAddr < 2 ^ 64) (low : physAddr < 2 ^ 51)
    (wide : k.pageType = .bits64) (memory : k.memory = s.physical)
    (root : k.topPageStructure = s.root) :
    ∃ s' k', virtMapPagesKernelEnd physAddr pageCount perms s =
        some (s.kernelEndAddr, s') ∧
      mapPages (pageCalls physAddr s.kernelEndAddr perms pageCount) k = some k' ∧
      s'.kernelEndAddr = (s.kernelEndAddr + 4096 * pageCount) % 2 ^ 64 ∧
      s'.physical = k'.memory ∧
      ∀ x, OutsideEntries s pageCount x → s'.physical x = s.physical x := by
  have fits := run.pageCount_le
  obtain ⟨s', k', ran, called, same, kept⟩ := mapPages_agree perms pageCount run word
    (by omega : physAddr + 4096 * pageCount ≤ 2 ^ 64) wide memory root
  refine ⟨s', k', ?_, called, ?_, same, kept⟩
  · rw [virtMapPagesKernelEnd, ran, Option.map_some]
    rfl
  · obtain ⟨locations, pages, ⟨_, rfl⟩ | ⟨failed, _⟩⟩ := virtMapPages_run pageCount ran
    · exact pages.kernelEnd word
    · cases failed

/-- Two pages at 1 MiB can be mapped in the tables for the first 2 MiB. -/
theorem endAt_mappableRun : MappableRun (endAt 0x100000) 2 := by
  obtain ⟨tables, chained, isRoot, lowTables⟩ := chainedTables_tree
  have reached : ∀ i < 2, reach (endAt 0x100000).physical (endAt 0x100000).root
      (pageTablePath ((endAt 0x100000).kernelEndAddr + 4096 * i)) = some 0x4000 := by
    decide +kernel
  have empty : ∀ i < 2, entryAt (endAt 0x100000).physical 0x4000
      (tableIndex 0 ((endAt 0x100000).kernelEndAddr + 4096 * i)) = 0 := by
    decide +kernel
  refine ⟨unmappedTables_tree, ?_, by decide, by decide, by decide, ?_, ?_⟩
  · intro path table treePath found
    have moved : reach (storeLe chainedTables (0x1000 + 8 * fractalMapPml4Idx) 8
        0x1003) 0x1000 path = tables path :=
      chained.reach_slot isRoot (by decide) treePath
    exact lowTables (moved.symm.trans found)
  · exact fun i below => ⟨0x4000, reached i below⟩
  · intro i below table found
    obtain rfl : 0x4000 = table := Option.some.inj ((reached i below).symm.trans found)
    exact empty i below

/-- Both mappers map two pages at 1 MiB. -/
theorem virtMapPagesKernelEnd_agrees_mebibyte :
    ∃ s' k', virtMapPagesKernelEnd 0x200000 2 virtMapWrite (endAt 0x100000) =
        some (0x100000, s') ∧
      mapPages (pageCalls 0x200000 0x100000 virtMapWrite 2)
        { freeMebibyte with
          memory := unmappedTables
          topPageStructure := 0x1000
          pageType := .bits64 } = some k' ∧
      s'.kernelEndAddr = (0x100000 + 4096 * 2) % 2 ^ 64 ∧
      s'.physical = k'.memory ∧
      ∀ x, OutsideEntries (endAt 0x100000) 2 x →
        s'.physical x = (endAt 0x100000).physical x :=
  virtMapPagesKernelEnd_agrees endAt_mappableRun (by decide) (by decide) rfl rfl rfl

end SampoOS
