/-
Module: SampoOS.Kernel.FreePages
Purpose: Mapping pages through the window, told by the tree of page tables: which
  pages can be mapped, and that mapping one leaves the others as they are.
Trusted boundary: none
Main exports: pageTablePath, runAddr, FreePage, virtMapPage_mapped_iff,
  freePage_mapped_iff, virtMapPages_free_iff
-/
import SampoOS.Kernel.KernelEndRun

namespace SampoOS.Kernel

open ByteMemory
open Paging

/-! ## One turn -/

/-- The indices that lead to the page table of an address. -/
def pageTablePath (addr : Nat) : List Nat :=
  [tableIndex 3 addr, tableIndex 2 addr, tableIndex 1 addr]

theorem pagePresent_and_eq_zero (entry : Nat) :
    pagePresent &&& entry = 0 ↔ isPresent entry = false := by
  rw [pagePresent_and, isPresent, Nat.testBit_zero, decide_eq_false_iff_not]
  omega

theorem readVirtual_entry {s : KernelState} {addr table index : Nat}
    (found : translate s.physical s.root addr = some (table + 8 * index)) :
    readVirtual s addr = some (entryAt s.physical table index) := by
  rw [readVirtual, found, Option.map_some, entryAt]

theorem writeVirtual_entry {s : KernelState} {addr table index : Nat}
    (found : translate s.physical s.root addr = some (table + 8 * index))
    (value : Nat) :
    writeVirtual s addr value =
      some { s with
        physical := storeLe s.physical (table + 8 * index) 8 value } := by
  rw [writeVirtual, found, Option.map_some]

theorem readVirtual_of_missing {s : KernelState} {addr : Nat}
    (missing : translate s.physical s.root addr = none) :
    readVirtual s addr = none := by
  rw [readVirtual, missing, Option.map_none]

section Window

variable {m : Memory} {root table : Nat}
  (recursive : RecursiveSlot m root fractalMapPml4Idx) (addr : Nat)

include recursive

theorem translate_pml4e :
    translate m root (getPml4FromAddr addr + 8 * virtaddrToPml4eIdx addr) =
      some (root + 8 * tableIndex 3 addr) := by
  rw [(fractalMap_resolves recursive addr).1, (virtaddrToIdx addr).1]

theorem translate_pdpe :
    translate m root (getPdptFromAddr addr + 8 * virtaddrToPdpeIdx addr) =
      (reach m root [tableIndex 3 addr]).map (· + 8 * tableIndex 2 addr) := by
  rw [(fractalMap_resolves recursive addr).2.1, (virtaddrToIdx addr).1,
    (virtaddrToIdx addr).2.1]

theorem translate_pde :
    translate m root (getPdFromAddr addr + 8 * virtaddrToPdeIdx addr) =
      (reach m root [tableIndex 3 addr, tableIndex 2 addr]).map
        (· + 8 * tableIndex 1 addr) := by
  rw [(fractalMap_resolves recursive addr).2.2.1, (virtaddrToIdx addr).1,
    (virtaddrToIdx addr).2.1, (virtaddrToIdx addr).2.2.1]

theorem translate_pte :
    translate m root (getPtFromAddr addr + 8 * virtaddrToPteIdx addr) =
      (reach m root (pageTablePath addr)).map (· + 8 * tableIndex 0 addr) := by
  rw [(fractalMap_resolves recursive addr).2.2.2, (virtaddrToIdx addr).1,
    (virtaddrToIdx addr).2.1, (virtaddrToIdx addr).2.2.1,
    (virtaddrToIdx addr).2.2.2, pageTablePath]

end Window

/-- Where the PML4 entry is not present, a turn refuses. -/
theorem virtMapPage_absent {physicalPageAddr mappingPerms : Nat} {s : KernelState}
    (recursive : RecursiveSlot s.physical s.root fractalMapPml4Idx)
    (absent : isPresent (entryAt s.physical s.root
      (tableIndex 3 s.kernelEndAddr)) = false) :
    virtMapPage physicalPageAddr mappingPerms s = some (false, s) := by
  rw [virtMapPage, readVirtual_entry (translate_pml4e recursive _),
    Option.bind_some, if_pos ((pagePresent_and_eq_zero _).mpr absent)]

/-- Where it is, but one of the entries below it is not, a turn faults. -/
theorem virtMapPage_missing {physicalPageAddr mappingPerms : Nat}
    {s : KernelState}
    (recursive : RecursiveSlot s.physical s.root fractalMapPml4Idx)
    (present : isPresent (entryAt s.physical s.root
      (tableIndex 3 s.kernelEndAddr)) = true)
    (missing : reach s.physical s.root (pageTablePath s.kernelEndAddr) = none) :
    virtMapPage physicalPageAddr mappingPerms s = none := by
  have fault := readVirtual_of_missing
    (by rw [translate_pte recursive, missing, Option.map_none] :
      translate s.physical s.root (getPtFromAddr s.kernelEndAddr +
        8 * virtaddrToPteIdx s.kernelEndAddr) = none)
  have goesOn : pagePresent &&& entryAt s.physical s.root
      (tableIndex 3 s.kernelEndAddr) ≠ 0 := by
    simp [pagePresent_and_eq_zero, present]
  rw [virtMapPage, readVirtual_entry (translate_pml4e recursive _),
    Option.bind_some, if_neg goesOn]
  simp only [fault, Option.bind_eq_bind, Option.bind_none,
    Option.bind_eq_none_iff, implies_true]

/-- Where all of them are, a turn looks at the page-table entry. -/
theorem virtMapPage_reached {physicalPageAddr mappingPerms table : Nat}
    {s : KernelState}
    (recursive : RecursiveSlot s.physical s.root fractalMapPml4Idx)
    (found : reach s.physical s.root (pageTablePath s.kernelEndAddr) = some table) :
    virtMapPage physicalPageAddr mappingPerms s =
      if isPresent (entryAt s.physical table (tableIndex 0 s.kernelEndAddr)) then
        some (false, s)
      else
        some (true, mapAt (table + 8 * tableIndex 0 s.kernelEndAddr)
          (pageTableEntry physicalPageAddr mappingPerms) s) := by
  obtain ⟨pd, pdFound⟩ := exists_reach_front
    [tableIndex 3 s.kernelEndAddr, tableIndex 2 s.kernelEndAddr]
    [tableIndex 1 s.kernelEndAddr] found
  obtain ⟨pdpt, pdptFound⟩ := exists_reach_front
    [tableIndex 3 s.kernelEndAddr] [tableIndex 2 s.kernelEndAddr] pdFound
  have present : isPresent (entryAt s.physical s.root
      (tableIndex 3 s.kernelEndAddr)) = true := by
    rw [reach] at pdptFound
    split at pdptFound
    next present => exact present
    · cases pdptFound
  have goesOn : pagePresent &&& entryAt s.physical s.root
      (tableIndex 3 s.kernelEndAddr) ≠ 0 := by
    simp [pagePresent_and_eq_zero, present]
  have pdpeFound := translate_pdpe recursive s.kernelEndAddr
  have pdeFound := translate_pde recursive s.kernelEndAddr
  have pteFound := translate_pte recursive s.kernelEndAddr
  rw [pdptFound, Option.map_some] at pdpeFound
  rw [pdFound, Option.map_some] at pdeFound
  rw [found, Option.map_some] at pteFound
  rw [virtMapPage, readVirtual_entry (translate_pml4e recursive _),
    Option.bind_some, if_neg goesOn]
  rw [readVirtual_entry pdpeFound, Option.bind_eq_bind, Option.bind_some,
    readVirtual_entry pdeFound, Option.bind_eq_bind, Option.bind_some,
    readVirtual_entry pteFound, Option.bind_some]
  by_cases mapped : isPresent
      (entryAt s.physical table (tableIndex 0 s.kernelEndAddr)) = true
  · have taken : pagePresent &&& entryAt s.physical table
        (tableIndex 0 s.kernelEndAddr) ≠ 0 := by
      simp [pagePresent_and_eq_zero, mapped]
    rw [if_pos taken, if_pos mapped, Option.pure_def]
  · have free : ¬ pagePresent &&& entryAt s.physical table
        (tableIndex 0 s.kernelEndAddr) ≠ 0 := by
      simpa [pagePresent_and_eq_zero] using mapped
    rw [if_neg free, if_neg mapped, writeVirtual_entry pteFound, Option.bind_some,
      Option.pure_def, mapAt]

/-! ## Trees -/

/-- The address of the page that a run maps after `i` others. -/
def runAddr (s : KernelState) (i : Nat) : Nat :=
  (s.kernelEndAddr + pageSize * i) % 2 ^ 64

/-- The page of an address does not lie in the window itself. -/
def OutsideWindow (addr : Nat) : Prop := tableIndex 3 addr ≠ fractalMapPml4Idx

instance (addr : Nat) : Decidable (OutsideWindow addr) :=
  inferInstanceAs (Decidable (_ ≠ _))

/-- The page of an address has a page table, but no mapping. -/
def FreePage (m : Memory) (root addr : Nat) : Prop :=
  ∃ table, reach m root (pageTablePath addr) = some table ∧
    isPresent (entryAt m table (tableIndex 0 addr)) = false

theorem OutsideWindow.treePath {addr : Nat} (outside : OutsideWindow addr) :
    TreePath fractalMapPml4Idx (pageTablePath addr) where
  short := Nat.le_refl 3
  inTable index inside := by
    simp only [pageTablePath, List.mem_cons, List.not_mem_nil, or_false] at inside
    rcases inside with rfl | rfl | rfl <;> exact tableIndex_lt _ _
  outside := by
    intro first
    exact outside (Option.some.inj first)

theorem pageTablePath_append (addr : Nat) :
    pageTablePath addr ++ [tableIndex 0 addr] = pagePath (pageNumber addr) :=
  (pagePath_pageNumber addr).symm

section Tree

variable {m : Memory} {root table addr : Nat}
  (tree : RecursiveTree m root fractalMapPml4Idx) (outside : OutsideWindow addr)
  (found : reach m root (pageTablePath addr) = some table)

include tree outside found

/-- Mapping a page moves no table. -/
theorem reach_mapped (entry : Nat) {path : List Nat}
    (treePath : TreePath fractalMapPml4Idx path) :
    reach (storeLe m (table + 8 * tableIndex 0 addr) 8 entry) root path =
      reach m root path :=
  tree.reach_store outside.treePath rfl found (tableIndex_lt 0 addr) treePath

/-- Mapping a page leaves the entries of all other pages. -/
theorem entry_mapped (entry : Nat) {other table' : Nat}
    (outside' : OutsideWindow other)
    (found' : reach m root (pageTablePath other) = some table')
    (different : pageNumber other ≠ pageNumber addr) :
    entryAt (storeLe m (table + 8 * tableIndex 0 addr) 8 entry) table'
        (tableIndex 0 other) = entryAt m table' (tableIndex 0 other) := by
  refine tree.entryAt_store outside.treePath found (tableIndex_lt 0 addr)
    outside'.treePath found' (tableIndex_lt 0 other) ?_
  rw [pageTablePath_append, pageTablePath_append]
  intro same
  exact different (pagePath_injective (pageNumber_lt _) (pageNumber_lt _) same)

/-- Mapping a page leaves the others free, or not. -/
theorem freePage_mapped_iff (entry : Nat) {other : Nat}
    (outside' : OutsideWindow other)
    (different : pageNumber other ≠ pageNumber addr) :
    FreePage (storeLe m (table + 8 * tableIndex 0 addr) 8 entry) root other ↔
      FreePage m root other := by
  rw [FreePage, FreePage, reach_mapped tree outside found entry outside'.treePath]
  refine exists_congr fun table' => and_congr_right ?_
  intro found'
  rw [entry_mapped tree outside found entry outside' found' different]

end Tree

/-! ## Runs -/

theorem runAddr_zero {s : KernelState} (word : s.kernelEndAddr < 2 ^ 64) :
    runAddr s 0 = s.kernelEndAddr :=
  Nat.mod_eq_of_lt word

theorem runAddr_mapAt (location entry : Nat) (s : KernelState) (i : Nat) :
    runAddr (mapAt location entry s) i = runAddr s (i + 1) := by
  simp only [runAddr, mapAt, pageSize]
  omega

/-- A run that stays outside of the window comes to no page twice: the pages on
the way around would cross the window. -/
theorem pageNumber_runAddr_ne {s : KernelState} {count : Nat}
    (outside : ∀ i < count, OutsideWindow (runAddr s i)) {i j : Nat}
    (before : i < j) (below : j < count) :
    pageNumber (runAddr s j) ≠ pageNumber (runAddr s i) := by
  intro same
  have crossing := outside
    (i + (510 * 2 ^ 27 + 2 ^ 36 - pageNumber (runAddr s i)) % 2 ^ 36)
  simp only [OutsideWindow, runAddr, pageSize, tableIndex, pageNumber,
    fractalMapPml4Idx] at same crossing
  omega

/-- A turn maps a page exactly if it is free, in its page table. -/
theorem virtMapPage_mapped_iff {physicalPageAddr mappingPerms : Nat}
    {s s' : KernelState}
    (recursive : RecursiveSlot s.physical s.root fractalMapPml4Idx) :
    virtMapPage physicalPageAddr mappingPerms s = some (true, s') ↔
      ∃ table, reach s.physical s.root (pageTablePath s.kernelEndAddr) = some table ∧
        isPresent (entryAt s.physical table (tableIndex 0 s.kernelEndAddr)) =
          false ∧
        s' = mapAt (table + 8 * tableIndex 0 s.kernelEndAddr)
          (pageTableEntry physicalPageAddr mappingPerms) s := by
  constructor
  · intro ran
    rcases virtMapPage_cases ran with ⟨failed, _⟩ | ⟨_, location, found, free, rfl⟩
    · cases failed
    · rw [pteAddr, translate_pte recursive, Option.map_eq_some_iff] at found
      obtain ⟨table, reached, rfl⟩ := found
      exact ⟨table, reached, (pagePresent_and_eq_zero _).mp free, rfl⟩
  · rintro ⟨table, reached, free, rfl⟩
    rw [virtMapPage_reached recursive reached, free, if_neg (by decide)]

/-- Once the first page of a run is mapped, the same pages are free among the
others as before. -/
theorem freePages_mapAt_iff {s : KernelState} {count table : Nat}
    (word : s.kernelEndAddr < 2 ^ 64)
    (tree : RecursiveTree s.physical s.root fractalMapPml4Idx)
    (outside : ∀ i < count + 1, OutsideWindow (runAddr s i))
    (found : reach s.physical s.root (pageTablePath s.kernelEndAddr) = some table)
    (entry : Nat) :
    (∀ i < count, FreePage
        (mapAt (table + 8 * tableIndex 0 s.kernelEndAddr) entry s).physical s.root
        (runAddr (mapAt (table + 8 * tableIndex 0 s.kernelEndAddr) entry s) i)) ↔
      ∀ i < count, FreePage s.physical s.root (runAddr s (i + 1)) := by
  have first : OutsideWindow s.kernelEndAddr :=
    runAddr_zero word ▸ outside 0 (Nat.succ_pos count)
  refine forall₂_congr fun i below => ?_
  have different := pageNumber_runAddr_ne outside (Nat.succ_pos i)
    (Nat.succ_lt_succ below)
  rw [runAddr_zero word] at different
  rw [runAddr_mapAt]
  exact freePage_mapped_iff tree first found entry
    (outside (i + 1) (Nat.succ_lt_succ below)) different

/-- A run outside of the window maps all its pages exactly if they are free in the
tables that it starts with. -/
theorem virtMapPages_free_iff {mappingPerms : Nat} (count : Nat) :
    ∀ {physicalPageAddr : Nat} {s : KernelState}, s.kernelEndAddr < 2 ^ 64 →
      RecursiveTree s.physical s.root fractalMapPml4Idx →
      (∀ i < count, OutsideWindow (runAddr s i)) →
      ((∃ s', virtMapPages mappingPerms count physicalPageAddr s =
          some (true, s')) ↔
        ∀ i < count, FreePage s.physical s.root (runAddr s i)) := by
  induction count with
  | zero =>
      intro physicalPageAddr s _ _ _
      exact ⟨fun _ i below => absurd below (Nat.not_lt_zero i), fun _ => ⟨s, rfl⟩⟩
  | succ count inductionHypothesis =>
      intro physicalPageAddr s word tree outside
      have first : OutsideWindow s.kernelEndAddr :=
        runAddr_zero word ▸ outside 0 (Nat.succ_pos count)
      -- What the first page leaves is the same question about the others.
      have others : ∀ {table : Nat},
          reach s.physical s.root (pageTablePath s.kernelEndAddr) = some table →
          ((∃ s', virtMapPages mappingPerms count
              ((physicalPageAddr + pageSize) % 2 ^ 64)
              (mapAt (table + 8 * tableIndex 0 s.kernelEndAddr)
                (pageTableEntry physicalPageAddr mappingPerms) s) =
                some (true, s')) ↔
            ∀ i < count, FreePage s.physical s.root (runAddr s (i + 1))) := by
        intro table found
        rw [inductionHypothesis (Nat.mod_lt _ (by decide))
          (tree.store first.treePath rfl found (tableIndex_lt 0 _)) ?_]
        · exact freePages_mapAt_iff word tree outside found _
        · intro i below
          rw [runAddr_mapAt]
          exact outside (i + 1) (Nat.succ_lt_succ below)
      constructor
      · rintro ⟨s', ran⟩
        rw [virtMapPages] at ran
        obtain ⟨⟨mapped, next⟩, page, rest⟩ := Option.bind_eq_some_iff.mp ran
        cases mapped with
        | false => cases rest
        | true =>
            obtain ⟨table, found, free, rfl⟩ :=
              (virtMapPage_mapped_iff tree.toRecursiveSlot).mp page
            intro i below
            cases i with
            | zero =>
                rw [runAddr_zero word]
                exact ⟨table, found, free⟩
            | succ i =>
                exact (others found).mp ⟨s', rest⟩ i (Nat.lt_of_succ_lt_succ below)
      · intro free
        obtain ⟨table, found, empty⟩ := runAddr_zero word ▸
          free 0 (Nat.succ_pos count)
        obtain ⟨s', rest⟩ := (others found).mpr fun i below =>
          free (i + 1) (Nat.succ_lt_succ below)
        refine ⟨s', ?_⟩
        rw [virtMapPages, (virtMapPage_mapped_iff tree.toRecursiveSlot).mpr
          ⟨table, found, empty, rfl⟩, Option.bind_some]
        exact rest

end SampoOS.Kernel
