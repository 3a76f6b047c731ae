/-
Module: SampoOS.Kernel.KernelEndRun
Purpose: A run of virt_map_pages_kernel_end: the entries that it writes, one
  page after the other, and what a run that fails leaves behind.
Trusted boundary: none
Main exports: pteAddr, Refuses, virtMapPage_cases, PagesMapped,
  virtMapPages_run, virtMapPagesKernelEnd_null
-/
import SampoOS.Kernel.MemoryManager

namespace SampoOS.Kernel

open ByteMemory
open Paging (translate reach)

/-! ## One turn -/

/-- The address at which the window shows the page-table entry of an address. -/
def pteAddr (addr : Nat) : Nat := getPtFromAddr addr + 8 * virtaddrToPteIdx addr

/-- The address at which the window shows the PML4 entry of an address. -/
def pml4eAddr (addr : Nat) : Nat :=
  getPml4FromAddr addr + 8 * virtaddrToPml4eIdx addr

/-- The two reasons for which a turn maps nothing: the PML4 entry is not
present, or the page-table entry is. -/
def Refuses (s : KernelState) : Prop :=
  (∃ pml4e, readVirtual s (pml4eAddr s.kernelEndAddr) = some pml4e ∧
      pagePresent &&& pml4e = 0) ∨
    ∃ pte, readVirtual s (pteAddr s.kernelEndAddr) = some pte ∧
      pagePresent &&& pte ≠ 0

/-- The entry at a physical address set, and the end of the kernel moved on. -/
def mapAt (location entry : Nat) (s : KernelState) : KernelState :=
  { s with
    physical := storeLe s.physical location 8 entry
    kernelEndAddr := (s.kernelEndAddr + pageSize) % 2 ^ 64 }

@[simp] theorem mapAt_physical (location entry : Nat) (s : KernelState) :
    (mapAt location entry s).physical = storeLe s.physical location 8 entry := rfl

@[simp] theorem mapAt_kernelEndAddr (location entry : Nat) (s : KernelState) :
    (mapAt location entry s).kernelEndAddr =
      (s.kernelEndAddr + pageSize) % 2 ^ 64 := rfl

@[simp] theorem mapAt_root (location entry : Nat) (s : KernelState) :
    (mapAt location entry s).root = s.root := rfl

/-- A turn refuses and changes nothing, or it writes an entry that was not
present, where the window shows it. -/
theorem virtMapPage_cases {physicalPageAddr mappingPerms : Nat}
    {s s' : KernelState} {mapped : Bool}
    (ran : virtMapPage physicalPageAddr mappingPerms s = some (mapped, s')) :
    (mapped = false ∧ s' = s ∧ Refuses s) ∨
      (mapped = true ∧ ∃ location,
        translate s.physical s.root (pteAddr s.kernelEndAddr) = some location ∧
        pagePresent &&& loadLe s.physical location 8 = 0 ∧
        s' = mapAt location (pageTableEntry physicalPageAddr mappingPerms) s) := by
  rw [virtMapPage] at ran
  obtain ⟨pml4e, pml4Read, ran⟩ := Option.bind_eq_some_iff.mp ran
  split at ran
  next absent =>
    simp only [Option.some.injEq, Prod.mk.injEq] at ran
    obtain ⟨rfl, rfl⟩ := ran
    exact Or.inl ⟨rfl, rfl, Or.inl ⟨pml4e, pml4Read, absent⟩⟩
  next =>
    simp only [Option.bind_eq_bind, Option.bind_eq_some_iff] at ran
    obtain ⟨_, _, _, _, pte, pteRead, ran⟩ := ran
    split at ran
    next present =>
      simp only [Option.pure_def, Option.some.injEq, Prod.mk.injEq] at ran
      obtain ⟨rfl, rfl⟩ := ran
      exact Or.inl ⟨rfl, rfl, Or.inr ⟨pte, pteRead, present⟩⟩
    next free =>
      simp only [Option.pure_def, Option.bind_eq_some_iff, Option.some.injEq,
        Prod.mk.injEq] at ran
      obtain ⟨written, write, rfl, rfl⟩ := ran
      rw [writeVirtual, Option.map_eq_some_iff] at write
      obtain ⟨location, found, rfl⟩ := write
      rw [readVirtual, found] at pteRead
      cases pteRead
      exact Or.inr ⟨rfl, location, found, not_not.mp free, rfl⟩

theorem pagePresent_and (entry : Nat) : pagePresent &&& entry = entry % 2 := by
  rw [Nat.and_comm]
  exact Nat.and_two_pow_sub_one_eq_mod entry 1

/-- The entries that are written are present. -/
theorem pageTableEntry_present (physicalPageAddr mappingPerms : Nat) :
    pagePresent &&& pageTableEntry physicalPageAddr mappingPerms % 256 ^ 8 ≠ 0 := by
  have present : (pageTableEntry physicalPageAddr mappingPerms).testBit 0 = true := by
    rw [pageTableEntry]
    split_ifs <;> simp [pagePresent]
  rw [pagePresent_and, Nat.mod_mod_of_dvd _ (by decide)]
  rw [Nat.testBit_zero, decide_eq_true_eq] at present
  omega

/-- The window shows whole entries. -/
theorem found_aligned {m : Memory} {root addr location : Nat}
    (found : translate m root (pteAddr addr) = some location) : 8 ∣ location := by
  have offset := Paging.translate_mod found
  rw [pteAddr, getPtFromAddr_eq] at offset
  omega

/-! ## The whole run -/

/-- Pages mapped one after the other at the end of the kernel, with the places
of their page-table entries. -/
inductive PagesMapped (mappingPerms : Nat) :
    Nat → KernelState → List Nat → KernelState → Prop where
  | done (physicalPageAddr : Nat) (s : KernelState) :
      PagesMapped mappingPerms physicalPageAddr s [] s
  | page {physicalPageAddr location : Nat} {locations : List Nat}
      {s s' : KernelState}
      (found : translate s.physical s.root (pteAddr s.kernelEndAddr) =
        some location)
      (free : pagePresent &&& loadLe s.physical location 8 = 0)
      (rest : PagesMapped mappingPerms ((physicalPageAddr + pageSize) % 2 ^ 64)
        (mapAt location (pageTableEntry physicalPageAddr mappingPerms) s)
        locations s') :
      PagesMapped mappingPerms physicalPageAddr s (location :: locations) s'

/-- The loop maps pages until all are mapped or one is refused. -/
theorem virtMapPages_run {mappingPerms : Nat} (pageCount : Nat) :
    ∀ {physicalPageAddr : Nat} {s s' : KernelState} {mapped : Bool},
      virtMapPages mappingPerms pageCount physicalPageAddr s = some (mapped, s') →
      ∃ locations, PagesMapped mappingPerms physicalPageAddr s locations s' ∧
        (mapped = true ∧ locations.length = pageCount ∨
          mapped = false ∧ locations.length < pageCount ∧ Refuses s') := by
  induction pageCount with
  | zero =>
      intro physicalPageAddr s s' mapped ran
      simp only [virtMapPages, Option.some.injEq, Prod.mk.injEq] at ran
      obtain ⟨rfl, rfl⟩ := ran
      exact ⟨[], .done _ _, Or.inl ⟨rfl, rfl⟩⟩
  | succ pageCount inductionHypothesis =>
      intro physicalPageAddr s s' mapped ran
      rw [virtMapPages] at ran
      obtain ⟨⟨first, next⟩, page, others⟩ := Option.bind_eq_some_iff.mp ran
      clear ran
      rcases virtMapPage_cases page with
        ⟨rfl, rfl, refuses⟩ | ⟨rfl, location, found, free, rfl⟩
      · simp only [Bool.false_eq_true, if_false, Option.some.injEq,
          Prod.mk.injEq] at others
        obtain ⟨rfl, rfl⟩ := others
        exact ⟨[], .done _ _, Or.inr ⟨rfl, Nat.succ_pos _, refuses⟩⟩
      · obtain ⟨locations, pages, outcome⟩ := inductionHypothesis others
        refine ⟨location :: locations, .page found free pages, ?_⟩
        rw [List.length_cons]
        rcases outcome with ⟨all, length⟩ | ⟨failed, fewer, refuses⟩
        · exact Or.inl ⟨all, by rw [length]⟩
        · exact Or.inr ⟨failed, by omega, refuses⟩

namespace PagesMapped

variable {mappingPerms physicalPageAddr : Nat} {s s' : KernelState}
  {locations : List Nat}

theorem only (pages : PagesMapped mappingPerms physicalPageAddr s locations s') :
    s' = { s with physical := s'.physical, kernelEndAddr := s'.kernelEndAddr } := by
  induction pages with
  | done => rfl
  | page found free rest inductionHypothesis =>
      rw [inductionHypothesis]
      rfl

/-- The end of the kernel moves on by a page for each entry. -/
theorem kernelEnd (pages : PagesMapped mappingPerms physicalPageAddr s locations s')
    (word : s.kernelEndAddr < 2 ^ 64) :
    s'.kernelEndAddr = (s.kernelEndAddr + pageSize * locations.length) % 2 ^ 64 := by
  induction pages with
  | done => exact (Nat.mod_eq_of_lt word).symm
  | page found free rest inductionHypothesis =>
      rw [inductionHypothesis (Nat.mod_lt _ (by decide)), List.length_cons]
      simp only [mapAt, pageSize]
      omega

/-- Memory outside of the entries stays. -/
theorem outside (pages : PagesMapped mappingPerms physicalPageAddr s locations s')
    {x : Nat} (apart : ∀ location ∈ locations, x < location ∨ location + 8 ≤ x) :
    s'.physical x = s.physical x := by
  induction pages with
  | done => rfl
  | page found free rest inductionHypothesis =>
      rw [inductionHypothesis fun location inside =>
        apart location (List.mem_cons_of_mem _ inside)]
      exact storeLe_outside (apart _ List.mem_cons_self)

/-- An entry that is present is never written. -/
theorem keeps (pages : PagesMapped mappingPerms physicalPageAddr s locations s')
    {location : Nat} (aligned : 8 ∣ location)
    (present : pagePresent &&& loadLe s.physical location 8 ≠ 0) :
    loadLe s'.physical location 8 = loadLe s.physical location 8 := by
  induction pages with
  | done => rfl
  | @page _ written _ before _ found free rest inductionHypothesis =>
      have writtenAligned := found_aligned found
      have different : location ≠ written := by
        rintro rfl
        exact present free
      have kept : ∀ entry, loadLe (mapAt written entry before).physical location 8 =
          loadLe before.physical location 8 :=
        fun entry => loadLe_storeLe_disjoint (by omega)
      rw [inductionHypothesis (by rwa [kept]), kept]

/-- Each entry holds its page. -/
theorem holds (pages : PagesMapped mappingPerms physicalPageAddr s locations s')
    (word : physicalPageAddr < 2 ^ 64) :
    ∀ (i : Nat) (below : i < locations.length),
      loadLe s'.physical locations[i] 8 =
        pageTableEntry ((physicalPageAddr + pageSize * i) % 2 ^ 64) mappingPerms %
          256 ^ 8 := by
  induction pages with
  | done => exact fun i below => absurd below (Nat.not_lt_zero i)
  | @page physicalPageAddr location _ before _ found free rest inductionHypothesis =>
      intro i below
      cases i with
      | zero =>
          have stored : loadLe (mapAt location
              (pageTableEntry physicalPageAddr mappingPerms) before).physical
              location 8 = pageTableEntry physicalPageAddr mappingPerms % 256 ^ 8 :=
            loadLe_storeLe _ _ _ _
          rw [List.getElem_cons_zero, rest.keeps (found_aligned found) (stored ▸
            pageTableEntry_present physicalPageAddr mappingPerms), stored,
            Nat.mul_zero, Nat.add_zero, Nat.mod_eq_of_lt word]
      | succ i =>
          rw [List.getElem_cons_succ,
            inductionHypothesis (Nat.mod_lt _ (by decide)) i
              (Nat.lt_of_succ_lt_succ below), Nat.mod_add_mod, Nat.add_assoc,
            Nat.mul_succ, Nat.add_comm (pageSize * i)]

/-- A run leaves the state as it was only if it maps no page. -/
theorem unchanged_iff
    (pages : PagesMapped mappingPerms physicalPageAddr s locations s') :
    s' = s ↔ locations = [] := by
  constructor
  · rintro rfl
    cases pages with
    | done => rfl
    | @page _ location _ _ _ found free rest =>
        have stored : pagePresent &&& loadLe (mapAt location
            (pageTableEntry physicalPageAddr mappingPerms) s').physical
            location 8 ≠ 0 := by
          rw [mapAt, loadLe_storeLe]
          exact pageTableEntry_present physicalPageAddr mappingPerms
        exact absurd free (rest.keeps (found_aligned found) stored ▸ stored)
  · rintro rfl
    cases pages
    rfl

end PagesMapped

/-! ## Runs that fail -/

/-- What mapping pages at the end of the kernel does: each page has its entry, at
one of the given places, the end of the kernel has moved on by a page for each,
and nothing else has changed. -/
structure MapsExactly (mappingPerms physicalPageAddr : Nat) (s : KernelState)
    (locations : List Nat) (s' : KernelState) : Prop where
  pages : PagesMapped mappingPerms physicalPageAddr s locations s'
  kernelEnd : s'.kernelEndAddr =
    (s.kernelEndAddr + pageSize * locations.length) % 2 ^ 64
  holds : ∀ (i : Nat) (below : i < locations.length),
    loadLe s'.physical locations[i] 8 =
      pageTableEntry ((physicalPageAddr + pageSize * i) % 2 ^ 64) mappingPerms %
        256 ^ 8
  outside : ∀ x, (∀ location ∈ locations, x < location ∨ location + 8 ≤ x) →
    s'.physical x = s.physical x
  only : s' = { s with physical := s'.physical, kernelEndAddr := s'.kernelEndAddr }

/-- A call that returns `NULL` has mapped the pages in front of the first one that
is refused, and nothing else has changed; nothing at all has changed exactly if
there are no such pages.  From address 0 on `NULL` can also mean that all pages
are mapped. -/
theorem virtMapPagesKernelEnd_null {physicalPageAddr pageCount mappingPerms : Nat}
    {s s' : KernelState} (word : s.kernelEndAddr < 2 ^ 64)
    (physicalWord : physicalPageAddr < 2 ^ 64)
    (null : virtMapPagesKernelEnd physicalPageAddr pageCount mappingPerms s =
      some (0, s')) :
    ∃ locations, MapsExactly mappingPerms physicalPageAddr s locations s' ∧
      (s' = s ↔ locations = []) ∧
      (locations.length < pageCount ∧ Refuses s' ∨
        locations.length = pageCount ∧ s.kernelEndAddr = 0) := by
  rw [virtMapPagesKernelEnd, Option.map_eq_some_iff] at null
  obtain ⟨⟨mapped, _⟩, ran, result⟩ := null
  simp only [Prod.mk.injEq] at result
  obtain ⟨pointer, rfl⟩ := result
  obtain ⟨locations, pages, outcome⟩ := virtMapPages_run pageCount ran
  refine ⟨locations, ⟨pages, pages.kernelEnd word, pages.holds physicalWord,
    fun x => pages.outside, pages.only⟩, pages.unchanged_iff, ?_⟩
  rcases outcome with ⟨rfl, all⟩ | ⟨_, fewer, refuses⟩
  · exact Or.inr ⟨all, pointer⟩
  · exact Or.inl ⟨fewer, refuses⟩

/-- Page tables for the first 2 MiB, in which no page is mapped. -/
def chainedTables : Memory :=
  storeLe (storeLe (storeLe (fun _ => 0) 0x1000 8 0x2003)
    (0x1000 + 0x1000) 8 0x3003) (0x1000 + 0x2000) 8 0x4003

/-- The same tables with the recursive slot. -/
def unmappedTables : Memory :=
  storeLe chainedTables (0x1000 + 8 * fractalMapPml4Idx) 8 0x1003

theorem chainedTables_tree : ∃ tables,
    Paging.PageTree chainedTables tables (fun _ => none) ∧
      tables [] = some 0x1000 ∧
      ∀ {path table}, tables path = some table → table < 2 ^ 32 := by
  refine ⟨_, Paging.PageTree.chain (by decide) (fun _ _ _ => rfl)
    ⟨by decide, by decide, by decide, by decide⟩
    ⟨by decide, by decide, by decide, by decide⟩
    ⟨by decide, by decide, by decide, by decide⟩, by simp, ?_⟩
  intro path table found
  simp only [Function.update_apply] at found
  split_ifs at found <;> simp_all <;> omega

theorem unmappedTables_tree :
    Paging.RecursiveTree unmappedTables 0x1000 fractalMapPml4Idx := by
  obtain ⟨tables, tree, isRoot, _⟩ := chainedTables_tree
  exact tree.recursiveTree isRoot (by decide) (by decide) (by decide)

/-- A kernel with these tables. -/
def endAt (kernelEndAddr : Nat) : KernelState where
  physical := unmappedTables
  root := 0x1000
  virtual := fun _ => 0
  kernelEndAddr := kernelEndAddr
  physmemLen := 0
  physmap := 0

/-- These tables with the page at 0x101000 mapped, and the end of the kernel
one page below it. -/
def endBelowMapped : KernelState :=
  { endAt 0x100000 with
    physical := storeLe unmappedTables (0x4000 + 8 * 257) 8 0x101001 }

theorem endBelowMapped_tree : Paging.RecursiveTree endBelowMapped.physical
    endBelowMapped.root fractalMapPml4Idx :=
  unmappedTables_tree.store (show Paging.TreePath fractalMapPml4Idx [0, 0, 0] from
    ⟨by decide, by decide, by decide⟩) rfl (by decide +kernel) (by decide)

/-- Mapping two pages there fails on the second one. -/
theorem endBelowMapped_fails :
    ∃ s', virtMapPagesKernelEnd 0x200000 2 virtMapWrite endBelowMapped =
        some (0, s') ∧ s'.kernelEndAddr = 0x101000 := by
  have outcome : (virtMapPagesKernelEnd 0x200000 2 virtMapWrite endBelowMapped).map
      (fun result => (result.1, result.2.kernelEndAddr)) = some (0, 0x101000) := by
    decide +kernel
  obtain ⟨⟨pointer, s'⟩, ran, result⟩ := Option.map_eq_some_iff.mp outcome
  simp only [Prod.mk.injEq] at result
  obtain ⟨rfl, moved⟩ := result
  exact ⟨s', ran, moved⟩

theorem virtMapPagesKernelEnd_null_second :
    ∃ s', virtMapPagesKernelEnd 0x200000 2 virtMapWrite endBelowMapped =
        some (0, s') ∧
      ∃ locations, MapsExactly virtMapWrite 0x200000 endBelowMapped locations s' ∧
        (s' = endBelowMapped ↔ locations = []) ∧
        (locations.length < 2 ∧ Refuses s' ∨
          locations.length = 2 ∧ endBelowMapped.kernelEndAddr = 0) := by
  obtain ⟨s', ran, _⟩ := endBelowMapped_fails
  exact ⟨s', ran, virtMapPagesKernelEnd_null (by decide) (by decide) ran⟩

/-- A call that fails on its second page has moved the end of the kernel. -/
theorem virtMapPagesKernelEnd_not_atomic :
    ¬ ∀ (physicalPageAddr pageCount mappingPerms : Nat) (s s' : KernelState),
      Paging.RecursiveTree s.physical s.root fractalMapPml4Idx →
      virtMapPagesKernelEnd physicalPageAddr pageCount mappingPerms s =
        some (0, s') →
      s'.physical = s.physical ∧ s'.kernelEndAddr = s.kernelEndAddr := by
  intro atomic
  obtain ⟨s', ran, moved⟩ := endBelowMapped_fails
  have kept := (atomic _ _ _ _ _ endBelowMapped_tree ran).2
  rw [moved] at kept
  exact absurd kept (by decide)

end SampoOS.Kernel
