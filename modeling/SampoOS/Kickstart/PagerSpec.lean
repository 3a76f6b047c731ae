/-
Module: SampoOS.Kickstart.PagerSpec
Purpose: What the pager's functions do to the tree of page tables and to the
  address space that it stands for.
Trusted boundary: none
Main exports: PagerInvariant, Extends, pagerBytes, nextTable_cases,
  nextTable_spec, mapPage_reaches, mapPage_spec, mapPages_spec, identitySpace,
  initializePager_spec
-/
import Mathlib.Data.List.Find
import SampoOS.Kickstart.Pager
import SampoOS.Lib.PageTree

namespace SampoOS.Kickstart

open BitFields (clearLow clearLow_eq or_eq_add_of_dvd)
open ByteMemory
open Paging

/-! ## Entries -/

private theorem or_flags {page flags : Nat} (aligned : 4096 ∣ page)
    (low : flags < 4096) : page ||| flags = page + flags :=
  or_eq_add_of_dvd (k := 12) aligned low

private theorem or_noExecute {word : Nat} (low : word < 2 ^ 63) :
    word ||| 1 <<< 63 = word + 2 ^ 63 := by
  rw [Nat.one_shiftLeft, Nat.or_comm,
    or_eq_add_of_dvd (Nat.dvd_refl _) low, Nat.add_comm]

/-- The entry that links a table. -/
theorem linkEntry_linksTo {table : Nat} (aligned : 4096 ∣ table)
    (low : table < 2 ^ 32) :
    LinksTo ((table ||| 0x2 ||| 0x1) % 256 ^ 8) table := by
  have value : table ||| 0x2 ||| 0x1 = table + 3 := by
    rw [Nat.or_assoc]
    exact or_flags aligned (by decide)
  rw [value, Nat.mod_eq_of_lt (by omega)]
  constructor
  · rw [isPresent, Nat.testBit_eq_decide_div_mod_eq, decide_eq_true_eq]
    omega
  · rw [isWritable, Nat.testBit_eq_decide_div_mod_eq, decide_eq_true_eq]
    omega
  · rw [isNoExecute, Nat.testBit_eq_decide_div_mod_eq, decide_eq_false_iff_not]
    omega
  · rw [entryFrame]
    omega

/-- A 32-bit pointer to the table that an entry links. -/
theorem clearLow_entry {entry table : Nat} (frame : entryFrame entry = table)
    (low : table < 2 ^ 32) : clearLow 32 12 (entry % 2 ^ 32) = table := by
  have field : entry % 2 ^ 32 / 2 ^ 12 = entry / 4096 % 2 ^ 20 := by
    clear frame low
    omega
  rw [entryFrame] at frame
  rw [clearLow_eq (by decide) (Nat.mod_lt _ (Nat.two_pow_pos 32))]
  calc
    entry % 2 ^ 32 / 2 ^ 12 * 2 ^ 12 = entry / 4096 % 2 ^ 20 * 4096 :=
      congrArg (· * 4096) field
    _ = entry / 4096 % 2 ^ 40 % 2 ^ 20 * 4096 := by
      rw [Nat.mod_mod_of_dvd _ (Nat.pow_dvd_pow 2 (by decide))]
    _ = entry / 4096 % 2 ^ 40 * 4096 := by rw [Nat.mod_eq_of_lt (by omega)]
    _ = table := frame

/-- What a call of `map_page` asks for. -/
def requestedMapping (physAddr permFlags : Nat) : PageMapping :=
  { frame := physAddr
    writable := decide (permFlags &&& pagePermWrite ≠ 0)
    executable := decide (permFlags &&& pagePermExec ≠ 0) }

private theorem flaggedPage_maps {page : Nat} (flags high : Nat)
    (aligned : 4096 ∣ page) (low : page < 2 ^ 52) (flagsOdd : flags = 1 ∨ flags = 3)
    (highBit : high = 0 ∨ high = 2 ^ 63) :
    Maps ((page + flags + high) % 256 ^ 8)
      { frame := page
        writable := decide (flags = 3)
        executable := decide (high = 0) } := by
  rw [Nat.mod_eq_of_lt (by omega)]
  constructor
  · rw [isPresent, Nat.testBit_eq_decide_div_mod_eq, decide_eq_true_eq]
    omega
  · rw [isWritable, Nat.testBit_eq_decide_div_mod_eq, decide_eq_decide]
    omega
  · rw [isNoExecute, Nat.testBit_eq_decide_div_mod_eq, ← decide_not,
      decide_eq_decide]
    omega
  · rw [entryFrame]
    dsimp only
    omega

/-- The entry that maps a page. -/
theorem pageEntry_maps {physAddr permFlags : Nat} (aligned : 4096 ∣ physAddr)
    (low : physAddr < 2 ^ 52) :
    Maps (pageEntry physAddr permFlags % 256 ^ 8)
      (requestedMapping physAddr permFlags) := by
  have flags : (if permFlags &&& pagePermWrite ≠ 0 then physAddr ||| 0x1 ||| 0x2
      else physAddr ||| 0x1) =
      physAddr + if permFlags &&& pagePermWrite ≠ 0 then 3 else 1 := by
    split
    · rw [Nat.or_assoc]
      exact or_flags aligned (by decide)
    · exact or_flags aligned (by decide)
  have small : (if permFlags &&& pagePermWrite ≠ 0 then 3 else 1) ≤ 3 := by
    split <;> decide
  have value : pageEntry physAddr permFlags = physAddr +
      (if permFlags &&& pagePermWrite ≠ 0 then 3 else 1) +
        if permFlags &&& pagePermExec = 0 then 2 ^ 63 else 0 := by
    rw [pageEntry, flags]
    split
    · exact or_noExecute (by omega)
    · rfl
  rw [value]
  have maps := flaggedPage_maps (if permFlags &&& pagePermWrite ≠ 0 then 3 else 1)
    (if permFlags &&& pagePermExec = 0 then 2 ^ 63 else 0) aligned low
    (by split <;> simp) (by split <;> simp)
  have mapping : requestedMapping physAddr permFlags =
      { frame := physAddr
        writable := decide
          ((if permFlags &&& pagePermWrite ≠ 0 then 3 else 1) = 3)
        executable := decide
          ((if permFlags &&& pagePermExec = 0 then 2 ^ 63 else 0) = 0) } := by
    rw [requestedMapping]
    congr 2
    · split <;> simp_all
    · split <;> simp_all
  rw [mapping]
  exact maps

/-! ## The pager's invariant -/

/-- The page tables are a tree of pages below 4 GiB, none of which the allocator
can hand out again. -/
structure PagerInvariant (s : KickstartState) (tables : Tables)
    (space : AddressSpace) : Prop where
  wide : s.pageType = .bits64
  regions : AvailableInvariant s.memoryRegions
  tree : PageTree s.memory tables space
  root : tables [] = some s.topPageStructure
  low : ∀ {path table}, tables path = some table → table + 4096 ≤ 2 ^ 32
  apart : Disjoint (tableBytes tables) (availableBytes s.memoryRegions)

/-- The memory that a step of the pager may write: the tables, and what the
allocator can turn into tables. -/
def pagerBytes (s : KickstartState) (tables : Tables) : Set Nat :=
  tableBytes tables ∪ availableBytes s.memoryRegions

/-- What a step of the pager leaves as it was. -/
structure Extends (s : KickstartState) (tables : Tables) (s' : KickstartState)
    (tables' : Tables) : Prop where
  keeps : ∀ {path table}, tables path = some table → tables' path = some table
  claimed : pagerBytes s' tables' ⊆ pagerBytes s tables
  shrinks : availableBytes s'.memoryRegions ⊆ availableBytes s.memoryRegions
  frame : ∀ x ∉ pagerBytes s tables, s'.memory x = s.memory x
  root : s'.topPageStructure = s.topPageStructure
  header : s'.header = s.header
  entryPoint : s'.programEntryPoint = s.programEntryPoint

theorem Extends.refl (s : KickstartState) (tables : Tables) :
    Extends s tables s tables :=
  ⟨id, Set.Subset.rfl, Set.Subset.rfl, fun _ _ => rfl, rfl, rfl, rfl⟩

theorem Extends.trans {s s' s'' : KickstartState}
    {tables tables' tables'' : Tables} (first : Extends s tables s' tables')
    (second : Extends s' tables' s'' tables'') :
    Extends s tables s'' tables'' where
  keeps := fun found => second.keeps (first.keeps found)
  claimed := second.claimed.trans first.claimed
  shrinks := second.shrinks.trans first.shrinks
  frame := fun x outside =>
    (second.frame x fun inside => outside (first.claimed inside)).trans
      (first.frame x outside)
  root := second.root.trans first.root
  header := second.header.trans first.header
  entryPoint := second.entryPoint.trans first.entryPoint

/-- `nextTable`, when the entry lies below 4 GiB. -/
theorem nextTable_eq {s : KickstartState} {table index : Nat}
    (low : table + 8 * index < 2 ^ 32) :
    nextTable table index s =
      if entryAt s.memory table index = 0 then
        (allocateRegion 1 s).map fun (addr, s) =>
          (addr,
            { s with
              memory := storeLe (memset s.memory addr 0 0x1000)
                (table + 8 * index) 8 (addr ||| 0x2 ||| 0x1) })
      else some (clearLow 32 12 (entryAt s.memory table index % 2 ^ 32), s) := by
  rw [nextTable, Nat.mod_eq_of_lt low]
  cases allocateRegion 1 s <;> rfl

/-- A page that is cleared, and an entry that links it. -/
def addTable (m : Memory) (entry next : Nat) : Memory :=
  storeLe (memset m next 0 0x1000) entry 8 (next ||| 0x2 ||| 0x1)

section AddTable

variable {m : Memory} {entry next x : Nat}

theorem addTable_cleared (low : next + 4096 ≤ 2 ^ 32) (above : next ≤ x)
    (below : x < next + 4096) (outside : x < entry ∨ entry + 8 ≤ x) :
    addTable m entry next x = 0 := by
  rw [addTable, storeLe_outside outside, memset, fill_apply (by omega),
    if_pos ⟨above, below⟩]
  rfl

theorem addTable_outside (low : next + 4096 ≤ 2 ^ 32)
    (outsidePage : ¬ (next ≤ x ∧ x < next + 4096))
    (outside : x < entry ∨ entry + 8 ≤ x) : addTable m entry next x = m x := by
  rw [addTable, storeLe_outside outside, memset, fill_apply (by omega),
    if_neg outsidePage]

end AddTable

namespace PagerInvariant

variable {s s' : KickstartState} {tables : Tables} {space : AddressSpace}
  {path : List Nat} {table index : Nat}

/-- The pager does not depend on memory outside its tables. -/
theorem congr (pager : PagerInvariant s tables space)
    (control : SameControl s s')
    (same : ∀ x ∈ tableBytes tables, s'.memory x = s.memory x) :
    PagerInvariant s' tables space ∧ pagerBytes s' tables = pagerBytes s tables := by
  refine ⟨⟨control.type.trans pager.wide, ?_, pager.tree.congr same, ?_, pager.low,
    ?_⟩, ?_⟩
  · rw [control.regions]
    exact pager.regions
  · rw [control.root]
    exact pager.root
  · rw [control.regions]
    exact pager.apart
  · rw [pagerBytes, control.regions, pagerBytes]

/-- Allocating memory for something else leaves the pager alone. -/
theorem allocated (pager : PagerInvariant s tables space) {count ret : Nat}
    {type : MemoryRegionType} (given : Allocated s count ret type s') :
    PagerInvariant s' tables space ∧
      pagerBytes s' tables ⊆
        pagerBytes s tables \ Set.Ico ret (ret + 4096 * count) := by
  constructor
  · refine ⟨given.pageType_eq.trans pager.wide, given.invariant, ?_, ?_, pager.low,
      ?_⟩
    · rw [given.memory_eq]
      exact pager.tree
    · rw [given.root_eq]
      exact pager.root
    · exact pager.apart.mono_right (given.left.trans Set.sdiff_subset)
  · rintro x (inTables | isAvailable)
    · exact ⟨Or.inl inTables, fun inBlock =>
        Set.disjoint_left.mp pager.apart inTables (given.block inBlock)⟩
    · have stillAvailable := given.left isAvailable
      exact ⟨Or.inr stillAvailable.1, stillAvailable.2⟩

/-- A table that exists is found, and nothing changes. -/
theorem nextTable_existing (pager : PagerInvariant s tables space) {next : Nat}
    (found : tables path = some table) (short : path.length < 3)
    (inTable : index < 512) (linked : tables (path ++ [index]) = some next) :
    nextTable table index s = some (next, s) := by
  have low := pager.low found
  have lowNext := pager.low linked
  have entry := pager.tree.links found short inTable
  rw [linked] at entry
  have links : LinksTo (entryAt s.memory table index) next := entry
  rw [nextTable_eq (by omega), if_neg links.ne_zero,
    clearLow_entry links.frame (by omega)]

/-- The page of a missing table is allocated, cleared and linked. -/
theorem nextTable_allocates (pager : PagerInvariant s tables space) {next : Nat}
    (found : tables path = some table) (short : path.length < 3)
    (inTable : index < 512) (missing : tables (path ++ [index]) = none)
    (ran : nextTable table index s = some (next, s'))
    (succeeded : ∀ outcome ∈ s'.allocations, Succeeded outcome) :
    ∃ given, Allocated s 1 next .allocated given ∧
      s' = { given with memory := addTable s.memory (table + 8 * index) next } := by
  have low := pager.low found
  have entry := pager.tree.links found short inTable
  rw [missing] at entry
  have zero : entryAt s.memory table index = 0 := entry
  rw [nextTable_eq (by omega), if_pos zero] at ran
  simp only [Option.map_eq_some_iff, Prod.exists, Prod.mk.injEq] at ran
  obtain ⟨next, given, ran, rfl, rfl⟩ := ran
  have allocated := allocateRegionWithType_spec pager.regions (by decide)
    (by decide) (by decide) ran succeeded
  exact ⟨given, allocated, by rw [allocated.memory_eq, addTable]⟩

section Added

variable {type : MemoryRegionType} {next : Nat} {given : KickstartState}

/-- The page that is given is none of the tables. -/
theorem allocated_apart (pager : PagerInvariant s tables space)
    (allocated : Allocated s 1 next type given) {x : Nat}
    (inTables : x ∈ tableBytes tables) : ¬ (next ≤ x ∧ x < next + 4096) :=
  fun inNext => Set.disjoint_left.mp pager.apart inTables
    (allocated.block ⟨inNext.1, inNext.2⟩)

/-- With the page linked, the tables are the tree of the same address space. -/
theorem addTable_tree (pager : PagerInvariant s tables space)
    (found : tables path = some table) (short : path.length < 3)
    (inTable : index < 512) (missing : tables (path ++ [index]) = none)
    (allocated : Allocated s 1 next type given) :
    PageTree (addTable s.memory (table + 8 * index) next)
      (Function.update tables (path ++ [index]) (some next)) space := by
  have lowNext := allocated.low
  have apart : ∀ x ∈ tableBytes tables, ¬ (next ≤ x ∧ x < next + 4096) :=
    fun x => pager.allocated_apart allocated
  apply pager.tree.link found short inTable missing allocated.aligned
  · intro other page isTable
    rintro rfl
    exact apart page ⟨other, page, isTable, by omega, by omega⟩
      ⟨by omega, by omega⟩
  · rw [entryAt, addTable, loadLe_storeLe]
    exact linkEntry_linksTo allocated.aligned (by omega)
  · intro x inNext below
    have outside : ¬ (table + 8 * index ≤ x ∧ x < table + 8 * index + 8) :=
      fun inEntry => apart x
        (PageTree.entry_subset found inTable inEntry.1 inEntry.2)
        ⟨inNext, below⟩
    exact addTable_cleared (by omega) inNext below (by omega)
  · intro x inTables outside
    exact addTable_outside (by omega) (apart x inTables) outside

/-- With the page linked, the pager's invariant holds. -/
theorem addTable_invariant (pager : PagerInvariant s tables space)
    (found : tables path = some table) (short : path.length < 3)
    (inTable : index < 512) (missing : tables (path ++ [index]) = none)
    (allocated : Allocated s 1 next type given) :
    PagerInvariant
      { given with memory := addTable s.memory (table + 8 * index) next }
      (Function.update tables (path ++ [index]) (some next)) space := by
  have lowNext := allocated.low
  refine ⟨allocated.pageType_eq.trans pager.wide, allocated.invariant,
    pager.addTable_tree found short inTable missing allocated, ?_, ?_, ?_⟩
  · rw [Function.update_of_ne (by simp), pager.root, allocated.root_eq]
  · intro other page isTable
    rcases PageTree.update_eq_some isTable with ⟨_, rfl⟩ | ⟨_, old⟩
    · omega
    · exact pager.low old
  · rw [Set.disjoint_left]
    intro x inTables isAvailable
    have stillAvailable := allocated.left isAvailable
    rcases PageTree.tableBytes_update_subset tables _ next inTables with
      old | new
    · exact Set.disjoint_left.mp pager.apart old stillAvailable.1
    · exact stillAvailable.2 new

/-- Linking the page changes nothing that the pager does not own. -/
theorem addTable_extends (found : tables path = some table)
    (inTable : index < 512) (missing : tables (path ++ [index]) = none)
    (allocated : Allocated s 1 next type given) :
    Extends s tables
      { given with memory := addTable s.memory (table + 8 * index) next }
      (Function.update tables (path ++ [index]) (some next)) := by
  have lowNext := allocated.low
  refine ⟨?_, ?_, allocated.left.trans Set.sdiff_subset, ?_, allocated.root_eq,
    allocated.header_eq, allocated.entryPoint_eq⟩
  · intro other page isTable
    rwa [Function.update_of_ne]
    rintro rfl
    rw [missing] at isTable
    cases isTable
  · rintro x (inTables | isAvailable)
    · rcases PageTree.tableBytes_update_subset tables _ next inTables with
        old | new
      · exact Or.inl old
      · exact Or.inr (allocated.block new)
    · exact Or.inr (allocated.left isAvailable).1
  · intro x outside
    have outsideEntry : ¬ (table + 8 * index ≤ x ∧ x < table + 8 * index + 8) :=
      fun inEntry => outside (Or.inl
        (PageTree.entry_subset found inTable inEntry.1 inEntry.2))
    have outsideNext : ¬ (next ≤ x ∧ x < next + 4096) :=
      fun inNext => outside (Or.inr (allocated.block ⟨inNext.1, inNext.2⟩))
    exact addTable_outside (by omega) outsideNext (by omega)

end Added

/-- A table that is missing is allocated, cleared and linked. -/
theorem nextTable_missing (pager : PagerInvariant s tables space) {next : Nat}
    (found : tables path = some table) (short : path.length < 3)
    (inTable : index < 512) (missing : tables (path ++ [index]) = none)
    (ran : nextTable table index s = some (next, s'))
    (succeeded : ∀ outcome ∈ s'.allocations, Succeeded outcome) :
    PagerInvariant s'
        (Function.update tables (path ++ [index]) (some next)) space ∧
      Extends s tables s'
        (Function.update tables (path ++ [index]) (some next)) := by
  obtain ⟨given, allocated, rfl⟩ :=
    pager.nextTable_allocates found short inTable missing ran succeeded
  exact ⟨pager.addTable_invariant found short inTable missing allocated,
    addTable_extends found inTable missing allocated⟩

/-- One level of `map_page`, whether its table exists or not. -/
theorem nextTable_spec (pager : PagerInvariant s tables space) {next : Nat}
    (found : tables path = some table) (short : path.length < 3)
    (inTable : index < 512) (ran : nextTable table index s = some (next, s'))
    (succeeded : ∀ outcome ∈ s'.allocations, Succeeded outcome) :
    ∃ tables', PagerInvariant s' tables' space ∧
      tables' (path ++ [index]) = some next ∧ Extends s tables s' tables' := by
  cases linked : tables (path ++ [index]) with
  | none =>
      have spec := pager.nextTable_missing found short inTable linked ran
        succeeded
      exact ⟨_, spec.1, Function.update_self _ _ _, spec.2⟩
  | some existing =>
      rw [pager.nextTable_existing found short inTable linked,
        Option.some.injEq, Prod.mk.injEq] at ran
      obtain ⟨rfl, rfl⟩ := ran
      exact ⟨tables, pager, linked, Extends.refl s tables⟩

/-- The end of `map_page` maps the page, unless it is mapped. -/
theorem mapEntry_spec (pager : PagerInvariant s tables space)
    {page physAddr : Nat} (virtAddr permFlags : Nat) (found : tables path = some table)
    (isPath : pagePath page = path ++ [index]) (word : page < 2 ^ 36)
    (aligned : 4096 ∣ physAddr) (low : physAddr < 2 ^ 52) :
    PagerInvariant (mapEntry table index physAddr virtAddr permFlags s) tables
        (space.mapFirst page (requestedMapping physAddr permFlags)) ∧
      Extends s tables (mapEntry table index physAddr virtAddr permFlags s)
        tables := by
  have inTable := pagePath_last_lt isPath
  have lowTable := pager.low found
  have entry := pager.tree.entries word found isPath
  have pointer : (table + 0x08 * index) % 2 ^ 32 = table + 8 * index :=
    Nat.mod_eq_of_lt (by omega)
  cases mapped : space page with
  | some mapping =>
      rw [mapped] at entry
      have notZero : loadLe s.memory (table + 8 * index) 8 ≠ 0 :=
        Maps.ne_zero entry
      have stays : space.mapFirst page (requestedMapping physAddr permFlags) =
          space := by
        simp [AddressSpace.mapFirst, mapped]
      simp only [mapEntry, pointer, if_pos notZero, stays]
      exact ⟨⟨pager.wide, pager.regions, pager.tree, pager.root, pager.low,
        pager.apart⟩, ⟨id, Set.Subset.rfl, Set.Subset.rfl, fun _ _ => rfl, rfl,
        rfl, rfl⟩⟩
  | none =>
      rw [mapped] at entry
      have zero : ¬ loadLe s.memory (table + 8 * index) 8 ≠ 0 := not_not.mpr entry
      have added : space.mapFirst page (requestedMapping physAddr permFlags) =
          Function.update space page
            (some (requestedMapping physAddr permFlags)) := by
        simp [AddressSpace.mapFirst, mapped]
      simp only [mapEntry, pointer, if_neg zero, added]
      refine ⟨⟨pager.wide, pager.regions, ?_, pager.root, pager.low, pager.apart⟩,
        ⟨id, Set.Subset.rfl, Set.Subset.rfl, ?_, rfl, rfl, rfl⟩⟩
      · apply pager.tree.setEntry found isPath word
        · rw [entryAt, loadLe_storeLe]
          exact pageEntry_maps aligned low
        · intro x _ outside
          exact storeLe_outside outside
      · intro x outside
        apply storeLe_outside
        by_contra inEntry
        exact outside (Or.inl
          (PageTree.entry_subset found inTable (by omega) (by omega)))

end PagerInvariant

theorem tableIndex_eq (level v : Nat) :
    (v >>> (12 + 9 * level)) &&& 0x1FF = tableIndex level v :=
  BitFields.shiftRight_and_mask v (12 + 9 * level) 9

/-- `map_page` with 64-bit paging, level by level. -/
theorem mapPage_eq_some {s s' : KickstartState} {physAddr virtAddr permFlags : Nat}
    (wide : s.pageType = .bits64) :
    mapPage physAddr virtAddr permFlags s = some s' ↔
      ∃ pdpAddr s₁ pdAddr s₂ ptAddr s₃,
        nextTable s.topPageStructure (tableIndex 3 virtAddr) s =
            some (pdpAddr, s₁) ∧
          nextTable pdpAddr (tableIndex 2 virtAddr) s₁ = some (pdAddr, s₂) ∧
          nextTable pdAddr (tableIndex 1 virtAddr) s₂ = some (ptAddr, s₃) ∧
          mapEntry ptAddr (tableIndex 0 virtAddr) physAddr virtAddr permFlags s₃ =
            s' := by
  simp only [mapPage, wide, Option.bind_eq_bind, Option.bind_eq_some_iff,
    Prod.exists, Option.pure_def, Option.some.injEq, ← tableIndex_eq]
  constructor
  · rintro ⟨pdpAddr, s₁, first, pdAddr, s₂, second, ptAddr, s₃, third, last⟩
    exact ⟨pdpAddr, s₁, pdAddr, s₂, ptAddr, s₃, first, second, third, last⟩
  · rintro ⟨pdpAddr, s₁, pdAddr, s₂, ptAddr, s₃, first, second, third, last⟩
    exact ⟨pdpAddr, s₁, first, pdAddr, s₂, second, ptAddr, s₃, third, last⟩

/-- One level of `map_page`: the entry is there, or a table is requested, cleared
and linked, whatever pointer comes back. -/
theorem nextTable_cases {table index next : Nat} {s s' : KickstartState}
    (ran : nextTable table index s = some (next, s')) :
    (loadLe s.memory ((table + 8 * index) % 2 ^ 32) 8 ≠ 0 ∧ s' = s ∧
        next = clearLow 32 12
          (loadLe s.memory ((table + 8 * index) % 2 ^ 32) 8 % 2 ^ 32)) ∨
      (loadLe s.memory ((table + 8 * index) % 2 ^ 32) 8 = 0 ∧
        ∃ s₁, allocateRegion 1 s = some (next, s₁) ∧
          s' = { s₁ with
            memory := storeLe (memset s₁.memory next 0 0x1000)
              ((table + 8 * index) % 2 ^ 32) 8 (next ||| 0x2 ||| 0x1) }) := by
  rw [nextTable] at ran
  dsimp only at ran
  split at ran
  next zero =>
    simp only [Option.bind_eq_bind, Option.bind_eq_some_iff, Prod.exists,
      Option.pure_def, Option.some.injEq, Prod.mk.injEq] at ran
    obtain ⟨_, s₁, given, rfl, rfl⟩ := ran
    exact Or.inr ⟨zero, s₁, given, rfl⟩
  next present =>
    simp only [Option.some.injEq, Prod.mk.injEq] at ran
    exact Or.inl ⟨present, ran.2.symm, ran.1.symm⟩

theorem nextTable_allocations {s s' : KickstartState} {table index next : Nat}
    (ran : nextTable table index s = some (next, s')) :
    s.allocations ⊆ s'.allocations := by
  rcases nextTable_cases ran with ⟨_, rfl, _⟩ | ⟨_, s₁, given, rfl⟩
  · exact List.Subset.refl _
  · have grows := allocateRegionWithType_allocations given
    exact grows

/-- A level of `map_page` prints nothing. -/
theorem nextTable_serial {s s' : KickstartState} {table index next : Nat}
    (ran : nextTable table index s = some (next, s')) :
    s'.serial = s.serial := by
  rcases nextTable_cases ran with ⟨_, rfl, _⟩ | ⟨_, s₁, given, rfl⟩
  · rfl
  · obtain ⟨_, _, rfl⟩ := allocateRegionWithType_cases given
    rfl

theorem mapEntry_sameControl (ptAddr ptIdx physAddr virtAddr permFlags : Nat)
    (s : KickstartState) :
    SameControl s (mapEntry ptAddr ptIdx physAddr virtAddr permFlags s) := by
  rw [mapEntry]
  dsimp only
  split <;> exact ⟨rfl, rfl, rfl, rfl, rfl, rfl⟩

/-- A call whose tables could be allocated reaches the page table of its page,
without printing anything. -/
theorem mapPage_reaches {s s' : KickstartState} {tables : Tables}
    {space : AddressSpace} {physAddr virtAddr permFlags : Nat}
    (pager : PagerInvariant s tables space)
    (ran : mapPage physAddr virtAddr permFlags s = some s')
    (succeeded : ∀ outcome ∈ s'.allocations, Succeeded outcome) :
    ∃ s₃ tables₃ ptAddr, PagerInvariant s₃ tables₃ space ∧
      Extends s tables s₃ tables₃ ∧ s₃.serial = s.serial ∧
      tables₃ [tableIndex 3 virtAddr, tableIndex 2 virtAddr,
        tableIndex 1 virtAddr] = some ptAddr ∧
      mapEntry ptAddr (tableIndex 0 virtAddr) physAddr virtAddr permFlags s₃ =
        s' := by
  obtain ⟨pdpAddr, s₁, pdAddr, s₂, ptAddr, s₃, first, second, third, last⟩ :=
    (mapPage_eq_some pager.wide).mp ran
  rw [← last, (mapEntry_sameControl _ _ _ _ _ _).allocations] at succeeded
  have succeeded₂ : ∀ outcome ∈ s₂.allocations, Succeeded outcome :=
    fun outcome inside => succeeded outcome (nextTable_allocations third inside)
  have succeeded₁ : ∀ outcome ∈ s₁.allocations, Succeeded outcome :=
    fun outcome inside => succeeded₂ outcome (nextTable_allocations second inside)
  obtain ⟨tables₁, pager₁, found₁, extends₁⟩ := pager.nextTable_spec pager.root
    (by decide) (tableIndex_lt 3 virtAddr) first succeeded₁
  obtain ⟨tables₂, pager₂, found₂, extends₂⟩ := pager₁.nextTable_spec found₁
    (by simp) (tableIndex_lt 2 virtAddr) second succeeded₂
  obtain ⟨tables₃, pager₃, found₃, extends₃⟩ := pager₂.nextTable_spec found₂
    (by simp) (tableIndex_lt 1 virtAddr) third succeeded
  refine ⟨s₃, tables₃, ptAddr, pager₃, (extends₁.trans extends₂).trans extends₃,
    ?_, found₃, last⟩
  rw [nextTable_serial third, nextTable_serial second, nextTable_serial first]

/-- `map_page` maps the page in the address space, unless it is mapped. -/
theorem mapPage_spec {s s' : KickstartState} {tables : Tables}
    {space : AddressSpace} {physAddr virtAddr permFlags : Nat}
    (pager : PagerInvariant s tables space) (aligned : 4096 ∣ physAddr)
    (low : physAddr < 2 ^ 52)
    (ran : mapPage physAddr virtAddr permFlags s = some s')
    (succeeded : ∀ outcome ∈ s'.allocations, Succeeded outcome) :
    ∃ tables', PagerInvariant s' tables'
        (space.mapFirst (pageNumber virtAddr)
          (requestedMapping physAddr permFlags)) ∧
      Extends s tables s' tables' := by
  obtain ⟨s₃, tables₃, ptAddr, pager₃, extends₃, _, found, rfl⟩ :=
    mapPage_reaches pager ran succeeded
  have last := pager₃.mapEntry_spec virtAddr permFlags found
    (pagePath_pageNumber virtAddr) (pageNumber_lt virtAddr) aligned low
  exact ⟨tables₃, last.1, extends₃.trans last.2⟩

/-! ## Runs of the pager -/

/-- The arguments of a call of `map_page`. -/
structure MapCall where
  physAddr : Nat
  virtAddr : Nat
  permFlags : Nat
deriving Repr, DecidableEq

/-- Calls of `map_page`, one after the other. -/
def mapPages (calls : List MapCall) (s : KickstartState) : Option KickstartState :=
  calls.foldlM
    (fun s call => mapPage call.physAddr call.virtAddr call.permFlags s) s

/-- The address space after mapping each page whose first call it is. -/
def mapCalls (calls : List MapCall) (space : AddressSpace) : AddressSpace :=
  calls.foldl (fun space call => space.mapFirst (pageNumber call.virtAddr)
    (requestedMapping call.physAddr call.permFlags)) space

theorem mapPages_cons {call : MapCall} {calls : List MapCall}
    {s s' : KickstartState} :
    mapPages (call :: calls) s = some s' ↔
      ∃ s₁, mapPage call.physAddr call.virtAddr call.permFlags s = some s₁ ∧
        mapPages calls s₁ = some s' := by
  simp [mapPages, List.foldlM_cons, Option.bind_eq_some_iff]

theorem mapPage_allocations {s s' : KickstartState}
    {physAddr virtAddr permFlags : Nat}
    (ran : mapPage physAddr virtAddr permFlags s = some s') :
    s.allocations ⊆ s'.allocations := by
  cases type : s.pageType with
  | bits32 =>
      simp only [mapPage, type, Option.some.injEq] at ran
      rw [ran]
      exact List.Subset.refl _
  | bits64 =>
      obtain ⟨_, s₁, _, s₂, _, s₃, first, second, third, rfl⟩ :=
        (mapPage_eq_some type).mp ran
      rw [(mapEntry_sameControl _ _ _ _ _ _).allocations]
      exact List.Subset.trans (nextTable_allocations first)
        (List.Subset.trans (nextTable_allocations second)
          (nextTable_allocations third))

theorem mapPages_allocations {calls : List MapCall} : ∀ {s s' : KickstartState},
    mapPages calls s = some s' → s.allocations ⊆ s'.allocations := by
  induction calls with
  | nil =>
      intro s s' ran
      simp only [mapPages, List.foldlM_nil, Option.pure_def,
        Option.some.injEq] at ran
      rw [ran]
      exact List.Subset.refl _
  | cons call calls inductionHypothesis =>
      intro s s' ran
      obtain ⟨s₁, first, rest⟩ := mapPages_cons.mp ran
      exact List.Subset.trans (mapPage_allocations first)
        (inductionHypothesis rest)

/-- Every run of calls maps each page by the first call for it. -/
theorem mapPages_spec {calls : List MapCall} : ∀ {s s' : KickstartState}
    {tables : Tables} {space : AddressSpace}, PagerInvariant s tables space →
    (∀ call ∈ calls, 4096 ∣ call.physAddr ∧ call.physAddr < 2 ^ 52) →
    mapPages calls s = some s' →
    (∀ outcome ∈ s'.allocations, Succeeded outcome) →
    ∃ tables', PagerInvariant s' tables' (mapCalls calls space) ∧
      Extends s tables s' tables' := by
  induction calls with
  | nil =>
      intro s s' tables space pager _ ran _
      simp only [mapPages, List.foldlM_nil, Option.pure_def,
        Option.some.injEq] at ran
      subst ran
      exact ⟨tables, pager, Extends.refl s tables⟩
  | cons call calls inductionHypothesis =>
      intro s s' tables space pager frames ran succeeded
      obtain ⟨s₁, first, rest⟩ := mapPages_cons.mp ran
      have frame := frames call List.mem_cons_self
      obtain ⟨tables₁, pager₁, extends₁⟩ := mapPage_spec pager frame.1 frame.2
        first fun outcome inside =>
          succeeded outcome (mapPages_allocations rest inside)
      obtain ⟨tables', pager', extends'⟩ := inductionHypothesis pager₁
        (fun call inside => frames call (List.mem_cons_of_mem _ inside)) rest
        succeeded
      exact ⟨tables', pager', extends₁.trans extends'⟩

/-! ## The first 2 MiB -/

/-- Where `initialize_pager` puts the tables for the first 2 MiB. -/
def identTables (pml4Addr : Nat) : Tables :=
  Function.update (Function.update (Function.update (Function.update
    (fun _ => none) [] (some pml4Addr))
    [0] (some (pml4Addr + 0x1000)))
    [0, 0] (some (pml4Addr + 0x2000)))
    [0, 0, 0] (some (pml4Addr + 0x3000))

theorem identTables_cases {pml4Addr table : Nat} {path : List Nat}
    (found : identTables pml4Addr path = some table) :
    table = pml4Addr ∨ table = pml4Addr + 0x1000 ∨ table = pml4Addr + 0x2000 ∨
      table = pml4Addr + 0x3000 := by
  simp only [identTables, Function.update_apply] at found
  split_ifs at found <;> simp_all

/-- The calls of `map_page` that `initialize_pager` makes. -/
def identityCalls : List MapCall :=
  (List.range 512).map fun i =>
    { physAddr := i * 0x1000
      virtAddr := i * 0x1000
      permFlags := pagePermRead ||| pagePermWrite ||| pagePermExec }

theorem mapIdentity_eq (s : KickstartState) :
    mapIdentity s = mapPages identityCalls s := by
  simp [mapIdentity, mapPages, identityCalls, List.foldlM_map]

/-- The address space in which the first 2 MiB are mapped to themselves. -/
def identitySpace : AddressSpace := fun page =>
  if page < 512 then
    some { frame := page * 4096, writable := true, executable := true }
  else none

theorem find?_range_eq (n x : Nat) :
    ((List.range n).find? fun i => decide (i = x)) =
      if x < n then some x else none := by
  induction n with
  | zero => rfl
  | succ n inductionHypothesis =>
      rw [List.range_succ, List.find?_append, inductionHypothesis]
      by_cases below : x < n
      · simp [below, Nat.lt_succ_of_lt below]
      · by_cases last : n = x
        · simp [last]
        · have above : ¬ x < n + 1 := by omega
          simp [below, last, above]

theorem requestedMapping_all (physAddr : Nat) :
    requestedMapping physAddr (pagePermRead ||| pagePermWrite ||| pagePermExec) =
      { frame := physAddr, writable := true, executable := true } := by
  have write : (pagePermRead ||| pagePermWrite ||| pagePermExec) &&&
      pagePermWrite ≠ 0 := by decide
  have exec : (pagePermRead ||| pagePermWrite ||| pagePermExec) &&&
      pagePermExec ≠ 0 := by decide
  simp [requestedMapping, write, exec]

theorem mapCalls_identityCalls :
    mapCalls identityCalls (fun _ => none) = identitySpace := by
  funext page
  have small : ∀ i ∈ List.range 512,
      decide (pageNumber (i * 0x1000) = page) = decide (i = page) := by
    intro i inside
    rw [List.mem_range] at inside
    rw [pageNumber, Nat.mul_div_cancel _ (by decide), Nat.mod_eq_of_lt (by omega)]
  rw [mapCalls, foldl_mapFirst, identityCalls, List.find?_map, Option.none_or]
  dsimp only [Function.comp_def]
  rw [List.find?_congr small, find?_range_eq, identitySpace]
  split
  · simp only [Option.map_some, requestedMapping_all]
  · rfl

/-- The four tables are a tree in which nothing is mapped. -/
theorem linkIdentTables_tree {s : KickstartState} {pml4Addr : Nat}
    (aligned : 4096 ∣ pml4Addr) (low : pml4Addr + 0x4000 ≤ 2 ^ 32) :
    PageTree (linkIdentTables pml4Addr s).memory (identTables pml4Addr)
      (fun _ => none) := by
  have pdp : (pml4Addr + 0x1000) % 2 ^ 32 = pml4Addr + 0x1000 :=
    Nat.mod_eq_of_lt (by omega)
  have pd : (pml4Addr + 0x1000 + 0x1000) % 2 ^ 32 = pml4Addr + 0x2000 :=
    Nat.mod_eq_of_lt (by omega)
  have pt : (pml4Addr + 0x2000 + 0x1000) % 2 ^ 32 = pml4Addr + 0x3000 :=
    Nat.mod_eq_of_lt (by omega)
  simp only [linkIdentTables, pdp, pd, pt]
  have zeroed : ∀ x, pml4Addr ≤ x → x < pml4Addr + 0x4000 →
      memset s.memory pml4Addr 0 0x4000 x = 0 := by
    intro x above below
    rw [memset, fill_apply low, if_pos ⟨above, below⟩]
    rfl
  exact PageTree.chain aligned zeroed (linkEntry_linksTo (by omega) (by omega))
    (linkEntry_linksTo (by omega) (by omega))
    (linkEntry_linksTo (by omega) (by omega))

/-- Linking the four tables changes only the memory. -/
theorem linkIdentTables_only (pml4Addr : Nat) (s : KickstartState) :
    linkIdentTables pml4Addr s =
      { s with memory := (linkIdentTables pml4Addr s).memory } := by
  simp only [linkIdentTables]

theorem linkIdentTables_outside {s : KickstartState} {pml4Addr x : Nat}
    (low : pml4Addr + 0x4000 ≤ 2 ^ 32)
    (outside : x < pml4Addr ∨ pml4Addr + 0x4000 ≤ x) :
    (linkIdentTables pml4Addr s).memory x = s.memory x := by
  have pdp : (pml4Addr + 0x1000) % 2 ^ 32 = pml4Addr + 0x1000 :=
    Nat.mod_eq_of_lt (by omega)
  have pd : (pml4Addr + 0x1000 + 0x1000) % 2 ^ 32 = pml4Addr + 0x2000 :=
    Nat.mod_eq_of_lt (by omega)
  simp only [linkIdentTables, pdp, pd]
  rw [storeLe_outside (by omega), storeLe_outside (by omega),
    storeLe_outside (by omega), memset, fill_apply low, if_neg (by omega)]

theorem tableBytes_identTables {pml4Addr : Nat} :
    tableBytes (identTables pml4Addr) ⊆ Set.Ico pml4Addr (pml4Addr + 4096 * 4) := by
  rintro x ⟨path, table, found, above, below⟩
  have cases := identTables_cases found
  exact ⟨by omega, by omega⟩

/-- `initialize_pager` for 64-bit paging, once the four tables are allocated. -/
theorem initializePager_eq_some {s s' : KickstartState} :
    initializePager .bits64 s = some (true, s') ↔
      ∃ pml4Addr s₁,
        allocateRegion 4 { s with pageType := .bits64 } = some (pml4Addr, s₁) ∧
          pml4Addr ≠ 0 ∧
          mapPages identityCalls (linkIdentTables pml4Addr
            { s₁ with topPageStructure := pml4Addr }) = some s' := by
  simp only [initializePager, Option.bind_eq_some_iff, Prod.exists,
    mapIdentity_eq]
  constructor
  · rintro ⟨pml4Addr, s₁, given, rest⟩
    split at rest
    · cases rest
    next notNull =>
      rw [Option.map_eq_some_iff] at rest
      obtain ⟨_, mapped, same⟩ := rest
      cases same
      exact ⟨pml4Addr, s₁, given, notNull, mapped⟩
  · rintro ⟨pml4Addr, s₁, given, notNull, mapped⟩
    exact ⟨pml4Addr, s₁, given, by rw [if_neg notNull, mapped]; rfl⟩

/-- With its four tables allocated, the pager holds the empty address space. -/
theorem linkIdentTables_spec {s s₁ : KickstartState} {pml4Addr : Nat}
    (wide : s.pageType = .bits64)
    (allocated : Allocated s 4 pml4Addr .allocated s₁) :
    PagerInvariant
      (linkIdentTables pml4Addr { s₁ with topPageStructure := pml4Addr })
      (identTables pml4Addr) (fun _ => none) := by
  have low := allocated.low
  have tree := linkIdentTables_tree (s := { s₁ with topPageStructure := pml4Addr })
    allocated.aligned low
  rw [linkIdentTables_only]
  refine ⟨?_, allocated.invariant, ?_, ?_, ?_, ?_⟩
  · rw [allocated.pageType_eq, wide]
  · dsimp only
    exact tree
  · simp [identTables]
  · intro path table found
    have cases := identTables_cases found
    omega
  · rw [Set.disjoint_left]
    intro x inTables isAvailable
    exact (allocated.left isAvailable).2 (tableBytes_identTables inTables)

/-- What a successful `initialize_pager` leaves behind: the first 2 MiB mapped to
themselves, in tables taken from the available memory. -/
structure PagerBuilt (s s' : KickstartState) (tables : Tables) : Prop where
  pager : PagerInvariant s' tables identitySpace
  top : (firstFit s.memoryRegions 4).map MemoryRegion.addrStart =
    some s'.topPageStructure
  claimed : pagerBytes s' tables ⊆ availableBytes s.memoryRegions
  frame : ∀ x ∉ availableBytes s.memoryRegions, s'.memory x = s.memory x
  header : s'.header = s.header
  entryPoint : s'.programEntryPoint = s.programEntryPoint

theorem initializePager_spec {s s' : KickstartState}
    (regions : AvailableInvariant s.memoryRegions)
    (ran : initializePager .bits64 s = some (true, s'))
    (succeeded : ∀ outcome ∈ s'.allocations, Succeeded outcome) :
    ∃ tables, PagerBuilt s s' tables := by
  obtain ⟨pml4Addr, s₁, given, notNull, mapped⟩ := initializePager_eq_some.mp ran
  have grows := mapPages_allocations mapped
  rw [linkIdentTables_only] at grows
  have allocated : Allocated { s with pageType := .bits64 } 4 pml4Addr .allocated
      s₁ := allocateRegionWithType_spec regions (by decide) (by decide) (by decide)
    given fun outcome inside => succeeded outcome (grows inside)
  have pager := linkIdentTables_spec rfl allocated
  have aligned : ∀ call ∈ identityCalls,
      4096 ∣ call.physAddr ∧ call.physAddr < 2 ^ 52 := by
    intro call inside
    simp only [identityCalls, List.mem_map, List.mem_range] at inside
    obtain ⟨i, below, rfl⟩ := inside
    exact ⟨Nat.dvd_mul_left _ _, by dsimp only; omega⟩
  obtain ⟨tables, pager', extends'⟩ := mapPages_spec pager aligned mapped succeeded
  rw [mapCalls_identityCalls] at pager'
  have claimed : pagerBytes
      (linkIdentTables pml4Addr { s₁ with topPageStructure := pml4Addr })
      (identTables pml4Addr) ⊆ availableBytes s.memoryRegions := by
    rw [linkIdentTables_only]
    rintro x (inTables | isAvailable)
    · exact allocated.block (tableBytes_identTables inTables)
    · exact (allocated.left isAvailable).1
  refine ⟨tables, pager', ?_, extends'.claimed.trans claimed, ?_, ?_, ?_⟩
  · rw [extends'.root, linkIdentTables_only]
    exact allocated.chosen
  · intro x outside
    have outsideBlock : x < pml4Addr ∨ pml4Addr + 0x4000 ≤ x := by
      by_contra inBlock
      exact outside (allocated.block ⟨by omega, by omega⟩)
    rw [extends'.frame x fun inside => outside (claimed inside),
      linkIdentTables_outside allocated.low outsideBlock, allocated.memory_eq]
  · rw [extends'.header, linkIdentTables_only, allocated.header_eq]
  · rw [extends'.entryPoint, linkIdentTables_only, allocated.entryPoint_eq]

end SampoOS.Kickstart
