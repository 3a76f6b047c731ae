/-
Module: SampoOS.Kernel.AbsentTables
Purpose: Which tables virt_map_pages_kernel_end reads and writes, and when one of
  them lies below an entry that is not present.
Trusted boundary: none
Main exports: WindowAccess, windowAccesses, Guarded, TurnStarts,
  TablesPresent, virtMapPagesKernelEnd_guarded_iff
-/
import SampoOS.Kernel.FreePages

namespace SampoOS.Kernel

open ByteMemory
open Paging

/-! ## The accesses of a turn -/

/-- A read or write of an entry through the window: its address, and the indices
of the entries above the table that it is in. -/
structure WindowAccess where
  address : Nat
  above : List Nat
deriving Repr, DecidableEq

/-- The accesses of a turn at an address, for the PML4 entry that it has read.
The entries of the PDPT and the page directory are read whatever is in them; the
page-table entry is read, and written if it is not present. -/
def accessesFor (addr pml4e : Nat) : List WindowAccess :=
  let pml4Idx := virtaddrToPml4eIdx addr
  let pdpIdx := virtaddrToPdpeIdx addr
  let pdIdx := virtaddrToPdeIdx addr
  let ptIdx := virtaddrToPteIdx addr
  { address := getPml4FromAddr addr + 8 * pml4Idx, above := [] } ::
    if pagePresent &&& pml4e = 0 then []
    else
      [{ address := getPdptFromAddr addr + 8 * pdpIdx, above := [pml4Idx] },
        { address := getPdFromAddr addr + 8 * pdIdx, above := [pml4Idx, pdpIdx] },
        { address := getPtFromAddr addr + 8 * ptIdx
          above := [pml4Idx, pdpIdx, pdIdx] }]

/-- The accesses of the turn that starts in a state. -/
def windowAccesses (s : KernelState) : List WindowAccess :=
  ((readVirtual s (pml4eAddr s.kernelEndAddr)).map
    (accessesFor s.kernelEndAddr)).getD []

/-- All entries above the table of an access are present. -/
def WindowAccess.Guarded (s : KernelState) (access : WindowAccess) : Prop :=
  ∃ table, reach s.physical s.root access.above = some table

/-- The states in which a turn of the loop starts. -/
def TurnStarts (mappingPerms pageCount physicalPageAddr : Nat)
    (s turn : KernelState) : Prop :=
  ∃ i < pageCount,
    virtMapPages mappingPerms i physicalPageAddr s = some (true, turn)

/-- The loop reads and writes no table below an entry that is not present. -/
def NeverTouchesAbsent (mappingPerms pageCount physicalPageAddr : Nat)
    (s : KernelState) : Prop :=
  ∀ turn, TurnStarts mappingPerms pageCount physicalPageAddr s turn →
    ∀ access ∈ windowAccesses turn, access.Guarded turn

/-- If the PML4 entry of an address is present, the PDPT entry and the page
directory's entry are present, too. -/
def TablesPresent (m : Memory) (root addr : Nat) : Prop :=
  isPresent (entryAt m root (tableIndex 3 addr)) = true →
    ∃ table, reach m root (pageTablePath addr) = some table

theorem reach_pml4e {m : Memory} {root addr : Nat} :
    isPresent (entryAt m root (tableIndex 3 addr)) = true ↔
      ∃ table, reach m root [tableIndex 3 addr] = some table := by
  constructor
  · intro present
    exact ⟨_, by rw [reach, if_pos present, reach]⟩
  · rintro ⟨table, found⟩
    rw [reach] at found
    split at found
    next present => exact present
    · cases found

private theorem exists_map_add (found : Option Nat) (offset : Nat) :
    (∃ location, found.map (· + offset) = some location) ↔
      ∃ table, found = some table := by
  cases found <;> simp

section Turn

variable {s : KernelState}
  (recursive : RecursiveSlot s.physical s.root fractalMapPml4Idx)

include recursive

theorem windowAccesses_eq :
    windowAccesses s = accessesFor s.kernelEndAddr
      (entryAt s.physical s.root (tableIndex 3 s.kernelEndAddr)) := by
  rw [windowAccesses, pml4eAddr,
    readVirtual_entry (translate_pml4e recursive s.kernelEndAddr), Option.map_some,
    Option.getD_some]

/-- The window shows the entry of an access exactly if the entries above it are
present. -/
theorem guarded_iff_translate {access : WindowAccess}
    (inside : access ∈ windowAccesses s) :
    access.Guarded s ↔
      ∃ location, translate s.physical s.root access.address = some location := by
  obtain ⟨pml4, pdpt, pd, pt⟩ := fractalMap_resolves recursive s.kernelEndAddr
  rw [windowAccesses_eq recursive, accessesFor] at inside
  rcases List.mem_cons.mp inside with rfl | others
  · rw [pml4]
    exact ⟨fun _ => ⟨_, rfl⟩, fun _ => ⟨_, rfl⟩⟩
  · split at others
    · cases others
    · simp only [List.mem_cons, List.not_mem_nil, or_false] at others
      rcases others with rfl | rfl | rfl
      · rw [pdpt, exists_map_add, WindowAccess.Guarded]
      · rw [pd, exists_map_add, WindowAccess.Guarded]
      · rw [pt, exists_map_add, WindowAccess.Guarded]

/-- A turn reads and writes no table below an entry that is not present exactly if
the tables of its address are present. -/
theorem turn_guarded_iff :
    (∀ access ∈ windowAccesses s, access.Guarded s) ↔
      TablesPresent s.physical s.root s.kernelEndAddr := by
  obtain ⟨pml4e, pdpe, pde, pte⟩ := virtaddrToIdx s.kernelEndAddr
  rw [windowAccesses_eq recursive, accessesFor, TablesPresent]
  cases present : isPresent
      (entryAt s.physical s.root (tableIndex 3 s.kernelEndAddr)) with
  | false =>
      rw [if_pos ((pagePresent_and_eq_zero _).mpr present)]
      simp [WindowAccess.Guarded, reach]
  | true =>
      have goesOn : ¬ pagePresent &&& entryAt s.physical s.root
          (tableIndex 3 s.kernelEndAddr) = 0 := by
        simp [pagePresent_and_eq_zero, present]
      rw [if_neg goesOn, pml4e, pdpe, pde]
      constructor
      · intro guarded _
        refine guarded
          { address := getPtFromAddr s.kernelEndAddr +
              8 * virtaddrToPteIdx s.kernelEndAddr
            above := pageTablePath s.kernelEndAddr } ?_
        simp [pageTablePath]
      · intro linked
        obtain ⟨table, found⟩ := linked rfl
        obtain ⟨pd, pdFound⟩ := exists_reach_front
          [tableIndex 3 s.kernelEndAddr, tableIndex 2 s.kernelEndAddr]
          [tableIndex 1 s.kernelEndAddr] found
        obtain ⟨pdpt, pdptFound⟩ := exists_reach_front
          [tableIndex 3 s.kernelEndAddr] [tableIndex 2 s.kernelEndAddr] pdFound
        intro access inside
        simp only [List.mem_cons, List.not_mem_nil, or_false] at inside
        rcases inside with rfl | rfl | rfl | rfl
        · exact ⟨_, rfl⟩
        · exact ⟨pdpt, pdptFound⟩
        · exact ⟨pd, pdFound⟩
        · exact ⟨table, found⟩

/-- A turn faults exactly if it touches a table below an entry that is not
present. -/
theorem virtMapPage_eq_none_iff {physicalPageAddr mappingPerms : Nat} :
    virtMapPage physicalPageAddr mappingPerms s = none ↔
      ¬ ∀ access ∈ windowAccesses s, access.Guarded s := by
  rw [turn_guarded_iff recursive, TablesPresent]
  cases present : isPresent
      (entryAt s.physical s.root (tableIndex 3 s.kernelEndAddr)) with
  | false => simp [virtMapPage_absent recursive present]
  | true =>
      cases found : reach s.physical s.root (pageTablePath s.kernelEndAddr) with
      | none => simp [virtMapPage_missing recursive present found]
      | some table =>
          rw [virtMapPage_reached recursive found]
          split <;> simp

end Turn

/-! ## Runs -/

/-- A run never overwrites the recursive slot. -/
theorem PagesMapped.recursive {mappingPerms physicalPageAddr : Nat}
    {s s' : KernelState} {locations : List Nat}
    (pages : PagesMapped mappingPerms physicalPageAddr s locations s')
    (recursive : RecursiveSlot s.physical s.root fractalMapPml4Idx) :
    RecursiveSlot s'.physical s'.root fractalMapPml4Idx := by
  have root : s'.root = s.root := by rw [pages.only]
  have aligned : 4096 ∣ s.root := recursive.self ▸ entryFrame_aligned _
  have kept : entryAt s'.physical s.root fractalMapPml4Idx =
      entryAt s.physical s.root fractalMapPml4Idx := by
    refine pages.keeps ?_ ?_
    · omega
    · intro absent
      have present := recursive.present
      rw [entryAt, (pagePresent_and_eq_zero _).mp absent] at present
      cases present
  rw [root]
  exact ⟨kept ▸ recursive.present, kept ▸ recursive.self⟩

/-- A run outside of the window moves no table. -/
theorem PagesMapped.reach_eq {mappingPerms physicalPageAddr : Nat}
    {s s' : KernelState} {locations : List Nat}
    (pages : PagesMapped mappingPerms physicalPageAddr s locations s')
    (word : s.kernelEndAddr < 2 ^ 64)
    (tree : RecursiveTree s.physical s.root fractalMapPml4Idx)
    (outside : ∀ i < locations.length, OutsideWindow (runAddr s i))
    {path : List Nat} (treePath : TreePath fractalMapPml4Idx path) :
    reach s'.physical s'.root path = reach s.physical s.root path := by
  induction pages with
  | done => rfl
  | @page physicalPageAddr location _ before _ found free rest inductionHypothesis =>
      rw [pteAddr, translate_pte tree.toRecursiveSlot,
        Option.map_eq_some_iff] at found
      obtain ⟨table, reached, rfl⟩ := found
      have first : OutsideWindow before.kernelEndAddr :=
        runAddr_zero word ▸ outside 0 (Nat.succ_pos _)
      rw [inductionHypothesis (Nat.mod_lt _ (by decide))
        (tree.store first.treePath rfl reached (tableIndex_lt 0 _))]
      · exact reach_mapped tree first reached _ treePath
      · intro i below
        rw [runAddr_mapAt]
        exact outside (i + 1) (Nat.succ_lt_succ below)

/-- Tables that lead the same way are present together. -/
theorem tablesPresent_congr {m m' : Memory} {root addr : Nat}
    (outside : OutsideWindow addr)
    (same : ∀ {path}, TreePath fractalMapPml4Idx path →
      reach m' root path = reach m root path) :
    TablesPresent m' root addr ↔ TablesPresent m root addr := by
  have path : pageTablePath addr = [tableIndex 3 addr] ++
      [tableIndex 2 addr, tableIndex 1 addr] := rfl
  have above : TreePath fractalMapPml4Idx [tableIndex 3 addr] :=
    (path ▸ outside.treePath).front
  rw [TablesPresent, TablesPresent, reach_pml4e, reach_pml4e, same above,
    same outside.treePath]

section Run

variable {mappingPerms physicalPageAddr pageCount : Nat} {s turn : KernelState}

/-- The state after `i` turns of a run that stays outside of the window. -/
theorem run_tablesPresent_iff {i : Nat} (word : s.kernelEndAddr < 2 ^ 64)
    (tree : RecursiveTree s.physical s.root fractalMapPml4Idx)
    (outside : ∀ j ≤ i, OutsideWindow (runAddr s j))
    (ran : virtMapPages mappingPerms i physicalPageAddr s = some (true, turn)) :
    TablesPresent turn.physical turn.root turn.kernelEndAddr ↔
      TablesPresent s.physical s.root (runAddr s i) := by
  obtain ⟨locations, pages, ⟨_, rfl⟩ | ⟨failed, _⟩⟩ := virtMapPages_run i ran
  · have root : turn.root = s.root := by rw [pages.only]
    rw [pages.kernelEnd word, ← runAddr, root]
    refine tablesPresent_congr (outside _ (Nat.le_refl _)) fun treePath => ?_
    rw [← root, pages.reach_eq word tree
      (fun j below => outside j (Nat.le_of_lt below)) treePath, root]
  · cases failed

/-- The loop touches no table below an entry that is not present if and only if
before each turn the tables of the next page are present.  Outside of the window
this can be told from the tables that the call starts with: behind free pages only,
the tables of the next page are present. -/
theorem virtMapPagesKernelEnd_guarded_iff
    (tree : RecursiveTree s.physical s.root fractalMapPml4Idx)
    (word : s.kernelEndAddr < 2 ^ 64) :
    (NeverTouchesAbsent mappingPerms pageCount physicalPageAddr s ↔
      ∀ turn, TurnStarts mappingPerms pageCount physicalPageAddr s turn →
        TablesPresent turn.physical turn.root turn.kernelEndAddr) ∧
    ((∀ i < pageCount, OutsideWindow (runAddr s i)) →
      (NeverTouchesAbsent mappingPerms pageCount physicalPageAddr s ↔
        ∀ i < pageCount,
          (∀ j < i, FreePage s.physical s.root (runAddr s j)) →
          TablesPresent s.physical s.root (runAddr s i))) := by
  have turns : NeverTouchesAbsent mappingPerms pageCount physicalPageAddr s ↔
      ∀ turn, TurnStarts mappingPerms pageCount physicalPageAddr s turn →
        TablesPresent turn.physical turn.root turn.kernelEndAddr := by
    refine forall₂_congr fun turn starts => ?_
    obtain ⟨i, _, ran⟩ := starts
    obtain ⟨locations, pages, _⟩ := virtMapPages_run i ran
    exact turn_guarded_iff (pages.recursive tree.toRecursiveSlot)
  refine ⟨turns, fun outside => ?_⟩
  rw [turns]
  have sofar : ∀ {i}, i < pageCount → ∀ j ≤ i, OutsideWindow (runAddr s j) :=
    fun below j behind => outside j (Nat.lt_of_le_of_lt behind below)
  have free : ∀ {i}, i < pageCount →
      ((∃ turn, virtMapPages mappingPerms i physicalPageAddr s =
        some (true, turn)) ↔ ∀ j < i, FreePage s.physical s.root (runAddr s j)) :=
    fun below => virtMapPages_free_iff _ word tree
      fun j behind => sofar below j (Nat.le_of_lt behind)
  constructor
  · intro present i below allFree
    obtain ⟨turn, ran⟩ := (free below).mpr allFree
    exact (run_tablesPresent_iff word tree (sofar below) ran).mp
      (present turn ⟨i, below, ran⟩)
  · rintro present turn ⟨i, below, ran⟩
    exact (run_tablesPresent_iff word tree (sofar below) ran).mpr
      (present i below ((free below).mp ⟨turn, ran⟩))

end Run

theorem endAt_tablesPresent {kernelEndAddr addr : Nat} (low : addr < 0x200000) :
    TablesPresent (endAt kernelEndAddr).physical (endAt kernelEndAddr).root addr := by
  have path : pageTablePath addr = [0, 0, 0] := by
    simp only [pageTablePath, tableIndex, List.cons.injEq, and_true]
    omega
  have reached : reach unmappedTables 0x1000 [0, 0, 0] = some 0x4000 := by
    decide +kernel
  exact fun _ => ⟨0x4000, path ▸ reached⟩

/-- Two pages at 1 MiB have their tables. -/
theorem virtMapPagesKernelEnd_guarded_mebibyte :
    NeverTouchesAbsent virtMapWrite 2 0x200000 (endAt 0x100000) := by
  have outside : ∀ i < 2, OutsideWindow (runAddr (endAt 0x100000) i) := by decide
  refine ((virtMapPagesKernelEnd_guarded_iff unmappedTables_tree (by decide)).2
    outside).mpr ?_
  intro i below _
  apply endAt_tablesPresent
  have address : runAddr (endAt 0x100000) i = (0x100000 + 0x1000 * i) % 2 ^ 64 := rfl
  omega

/-- From the last page of the first 2 MiB on, the second page needs a page table
that is not there, which the loop reads all the same. -/
theorem virtMapPagesKernelEnd_reads_absent :
    ¬ ∀ (mappingPerms pageCount physicalPageAddr : Nat) (s : KernelState),
      RecursiveTree s.physical s.root fractalMapPml4Idx →
      s.kernelEndAddr < 2 ^ 64 →
      isPresent (entryAt s.physical s.root (tableIndex 3 s.kernelEndAddr)) = true →
      NeverTouchesAbsent mappingPerms pageCount physicalPageAddr s := by
  intro never
  have untouched := never virtMapWrite 2 0x200000 (endAt 0x1FF000)
    unmappedTables_tree (by decide) (by decide +kernel)
  have free : ∀ i < 1, FreePage (endAt 0x1FF000).physical (endAt 0x1FF000).root
      (runAddr (endAt 0x1FF000) i) := by
    intro i below
    obtain rfl : i = 0 := by omega
    exact ⟨0x4000, by decide +kernel, by decide +kernel⟩
  have outside : ∀ j ≤ 1, OutsideWindow (runAddr (endAt 0x1FF000) j) := by decide
  have mapped : ∃ turn, virtMapPages virtMapWrite 1 0x200000 (endAt 0x1FF000) =
      some (true, turn) :=
    (virtMapPages_free_iff 1 (by decide) unmappedTables_tree
      fun i below => outside i (Nat.le_of_lt below)).mpr free
  obtain ⟨turn, ran⟩ := mapped
  obtain ⟨locations, pages, _⟩ := virtMapPages_run 1 ran
  have present := (run_tablesPresent_iff (by decide) unmappedTables_tree outside
    ran).mp ((turn_guarded_iff
      (pages.recursive unmappedTables_tree.toRecursiveSlot)).mp
        (untouched turn ⟨1, by decide, ran⟩))
  obtain ⟨table, found⟩ := present (by decide +kernel)
  have missing : reach (endAt 0x1FF000).physical (endAt 0x1FF000).root
      (pageTablePath (runAddr (endAt 0x1FF000) 1)) = none := by decide +kernel
  rw [missing] at found
  cases found

end SampoOS.Kernel
