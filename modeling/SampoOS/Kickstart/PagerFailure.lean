/-
Module: SampoOS.Kickstart.PagerFailure
Purpose: What map_page does when a page table cannot be allocated, and when
  that happens.
Trusted boundary: none
Main exports: AllocationFails, Undamaged, Supplies, EnoughPages, PagerReady,
  mapPage_undamaged_iff, initializePager_ready, mapPages_undamaged_iff
-/
import SampoOS.Kickstart.PageBounds
import SampoOS.Kickstart.PagerRefinement
import SampoOS.Kickstart.PagerWalk
import SampoOS.Kickstart.PmmAllocation

namespace SampoOS.Kickstart

open BitFields (clearLow clearLow_eq)
open ByteMemory
open Paging

/-! ## Requests that return NULL -/

/-- The pointer that a request returned. -/
def returnedPointer : Option MemoryRegion → Nat
  | none => 0
  | some block => block.addrStart % 2 ^ 32

/-- Between two states, a request for memory returned `NULL`. -/
def AllocationFails (s s' : KickstartState) : Prop :=
  ∃ outcome ∈ s'.allocations.drop s.allocations.length,
    returnedPointer outcome = 0

/-- The memory of the requests so far that did not return `NULL`: as many bytes
from the pointer on as were recorded. -/
def grantedBytes (s : KickstartState) : Set Nat :=
  {x | ∃ block, some block ∈ s.allocations ∧
    returnedPointer (some block) ≠ 0 ∧
    x ∈ Set.Ico (returnedPointer (some block))
      (returnedPointer (some block) + (block.addrEnd - block.addrStart))}

/-- A call of `map_page` with these writes did no damage: it wrote only to
memory that was granted, linked no table at address 0, and left every
translation as it was. -/
structure Undamaged (writes : List PagerWrite) (s s' : KickstartState) : Prop where
  confined : ∀ write ∈ writes, write.bytes ⊆ grantedBytes s'
  unlinked : ∀ entryPtr, .link entryPtr 0 ∉ writes
  translations : ∀ v, Canonical v →
    translatePage s'.memory s'.topPageStructure v =
      translatePage s.memory s.topPageStructure v

theorem allocationFails_iff {s s' : KickstartState}
    {outcomes : List (Option MemoryRegion)}
    (grown : s'.allocations = s.allocations ++ outcomes) :
    AllocationFails s s' ↔ ∃ outcome ∈ outcomes, returnedPointer outcome = 0 := by
  rw [AllocationFails, grown, List.drop_left]

/-- A request for one page, by its outcome. -/
theorem allocateRegion_outcome {s s₁ : KickstartState} {next : Nat}
    (given : allocateRegion 1 s = some (next, s₁)) :
    ∃ outcome, s₁.allocations = s.allocations ++ [outcome] ∧
      next = returnedPointer outcome := by
  obtain ⟨regions, ran, rfl⟩ := allocateRegionWithType_cases given
  refine ⟨allocatedBlock s.memoryRegions 1 .allocated, rfl, ?_⟩
  rcases pmmAllocateRegionWithType_cases ran with
    ⟨missing, null, _⟩ | ⟨region, block, _, something, step⟩
  · rw [allocatedBlock, missing, null]
    rfl
  · rw [something, step.ret_eq, step.block_eq]
    rfl

/-- A level of `map_page` makes at most one request. -/
theorem nextTable_grows {table index next : Nat} {s s' : KickstartState}
    (ran : nextTable table index s = some (next, s')) :
    ∃ outcomes, s'.allocations = s.allocations ++ outcomes := by
  rcases nextTable_cases ran with ⟨_, rfl, _⟩ | ⟨_, s₁, given, rfl⟩
  · exact ⟨[], (List.append_nil _).symm⟩
  · obtain ⟨outcome, grown, _⟩ := allocateRegion_outcome given
    exact ⟨[outcome], grown⟩

theorem walkTables_grows {indices : List Nat} :
    ∀ {table target : Nat} {s s' : KickstartState},
      walkTables table indices s = some (target, s') →
      ∃ outcomes, s'.allocations = s.allocations ++ outcomes := by
  induction indices with
  | nil =>
      intro table target s s' ran
      simp only [walkTables, Option.some.injEq, Prod.mk.injEq] at ran
      exact ⟨[], by rw [ran.2, List.append_nil]⟩
  | cons index rest inductionHypothesis =>
      intro table target s s' ran
      obtain ⟨next, s₁, first, ran⟩ := walkTables_cons.mp ran
      obtain ⟨early, grownFirst⟩ := nextTable_grows first
      obtain ⟨late, grown⟩ := inductionHypothesis ran
      exact ⟨early ++ late, by rw [grown, grownFirst, List.append_assoc]⟩

/-- The requests of a run are those of its first step and those of the rest. -/
theorem allocationFails_split {s s₁ s' : KickstartState}
    {early late : List (Option MemoryRegion)}
    (grownFirst : s₁.allocations = s.allocations ++ early)
    (grown : s'.allocations = s₁.allocations ++ late) :
    AllocationFails s s' ↔ AllocationFails s s₁ ∨ AllocationFails s₁ s' := by
  have together : s'.allocations = s.allocations ++ (early ++ late) := by
    rw [grown, grownFirst, List.append_assoc]
  rw [allocationFails_iff grownFirst, allocationFails_iff grown,
    allocationFails_iff together]
  simp only [List.mem_append, or_and_right, exists_or]

/-! ## Every failure does damage -/

/-- A level whose request returns `NULL` clears the first page of memory and
links it as a table. -/
theorem nextTableWrites_of_fails {table index next : Nat} {s s' : KickstartState}
    (ran : nextTable table index s = some (next, s'))
    (fails : AllocationFails s s') :
    nextTableWrites table index s =
      [.clear 0, .link ((table + 0x08 * index) % 2 ^ 32) 0] := by
  rcases nextTable_cases ran with ⟨_, rfl, _⟩ | ⟨zero, s₁, given, rfl⟩
  · rw [allocationFails_iff (List.append_nil _).symm] at fails
    obtain ⟨_, inside, _⟩ := fails
    cases inside
  · obtain ⟨outcome, grown, pointer⟩ := allocateRegion_outcome given
    obtain ⟨_, inside, null⟩ := (allocationFails_iff grown).mp fails
    rw [List.mem_singleton.mp inside, ← pointer] at null
    simp only [nextTableWrites, if_pos zero, given, Option.elim_some, null]

/-- A walk in which a request returns `NULL` clears the first page of memory and
links it as a table. -/
theorem walkWrites_of_fails {indices : List Nat} :
    ∀ {table target : Nat} {s s' : KickstartState},
      walkTables table indices s = some (target, s') →
      AllocationFails s s' →
      .clear 0 ∈ walkWrites table indices s ∧
        ∃ entryPtr, .link entryPtr 0 ∈ walkWrites table indices s := by
  induction indices with
  | nil =>
      intro table target s s' ran fails
      simp only [walkTables, Option.some.injEq, Prod.mk.injEq] at ran
      rw [ran.2, allocationFails_iff (List.append_nil _).symm] at fails
      obtain ⟨_, inside, _⟩ := fails
      cases inside
  | cons index rest inductionHypothesis =>
      intro table target s s' ran fails
      obtain ⟨next, s₁, first, ran⟩ := walkTables_cons.mp ran
      obtain ⟨early, grownFirst⟩ := nextTable_grows first
      obtain ⟨late, grown⟩ := walkTables_grows ran
      rw [walkWrites, first, Option.elim_some]
      rcases (allocationFails_split grownFirst grown).mp fails with now | later
      · rw [nextTableWrites_of_fails first now]
        exact ⟨by simp, (table + 0x08 * index) % 2 ^ 32, by simp⟩
      · obtain ⟨cleared, entryPtr, linked⟩ := inductionHypothesis ran later
        exact ⟨List.mem_append_right _ cleared, entryPtr,
          List.mem_append_right _ linked⟩

/-- Every call in which a request returns `NULL` does damage. -/
theorem mapPage_damages {s s' : KickstartState}
    {physAddr virtAddr permFlags : Nat}
    (ran : mapPage physAddr virtAddr permFlags s = some s')
    (fails : AllocationFails s s') :
    ¬ Undamaged (mapPageWrites physAddr virtAddr permFlags s) s s' := by
  intro undamaged
  cases type : s.pageType with
  | bits32 =>
      rw [mapPage, type] at ran
      rw [← Option.some.inj ran,
        allocationFails_iff (List.append_nil _).symm] at fails
      obtain ⟨_, inside, _⟩ := fails
      cases inside
  | bits64 =>
      obtain ⟨ptAddr, s₁, walked, rfl⟩ := (mapPage_eq_walk type).mp ran
      have control := mapEntry_sameControl ptAddr (tableIndex 0 virtAddr) physAddr
        virtAddr permFlags s₁
      rw [AllocationFails, control.allocations] at fails
      obtain ⟨_, entryPtr, linked⟩ := walkWrites_of_fails walked fails
      apply undamaged.unlinked entryPtr
      rw [mapPageWrites_eq type walked]
      exact List.mem_append_left _ linked

/-! ## When a request fails -/

/-- A table is missing for each of the indices, the first of them below `table`:
each table in turn finds a region that its page can be taken from, and none of these
pages lies at a multiple of 4 GiB.  A page whose address, cut to 32 bits, is
that of the table above it links that table to itself; the levels with the same
index that follow find it there. -/
inductive Supplies : RegionTable → Nat → List Nat → Prop
  | done {regions : RegionTable} {table : Nat} : Supplies regions table []
  | next {regions after : RegionTable} {region : MemoryRegion}
      {table index next : Nat} {rest : List Nat}
      (found : firstFit regions 1 = some region)
      (pointer : next = region.addrStart % 2 ^ 32) (notNull : next ≠ 0)
      (left : pmmAllocateRegion regions 1 = some (next, after))
      (others : Supplies after next
        (if next = table then rest.dropWhile (· == index) else rest)) :
      Supplies regions table (index :: rest)

/-- Follow the indices through the tables that exist: the last of them, and the
indices for which tables are missing. -/
def firstMissing (m : Memory) : Nat → List Nat → Nat × List Nat
  | table, [] => (table, [])
  | table, index :: rest =>
      let entry := entryAt m table index
      if entry = 0 then (table, index :: rest)
      else firstMissing m (clearLow 32 12 (entry % 2 ^ 32)) rest

/-- The regions supply every table that a call for the address misses. -/
def EnoughPages (s : KickstartState) (virtAddr : Nat) : Prop :=
  let found := firstMissing s.memory s.topPageStructure (tablePath virtAddr)
  Supplies s.memoryRegions found.1 found.2

/-- A table lies at a page that a 32-bit pointer reaches. -/
def PageTable (table : Nat) : Prop := 4096 ∣ table ∧ table < 2 ^ 32

/-- The entry for the first of the indices, if there is one, is zero. -/
def HeadMissing (m : Memory) (table : Nat) (indices : List Nat) : Prop :=
  ∀ index ∈ indices.head?, entryAt m table index = 0

theorem PageTable.entry_lt {table index : Nat} (isTable : PageTable table)
    (inTable : index < 512) : table + 8 * index + 8 ≤ 2 ^ 32 := by
  obtain ⟨aligned, low⟩ := isTable
  omega

theorem pageTable_clearLow (entry : Nat) :
    PageTable (clearLow 32 12 (entry % 2 ^ 32)) := by
  have word : entry % 2 ^ 32 < 2 ^ 32 := Nat.mod_lt _ (by decide)
  rw [clearLow_eq (by decide) word]
  exact ⟨Nat.dvd_mul_left _ _, by omega⟩

/-- The pointer to an allocated block is page-aligned and fits 32 bits. -/
theorem pageTable_of_allocated {regions after : RegionTable}
    {regionPageCount ret : Nat} {type : MemoryRegionType}
    (paged : PagedEntries regions)
    (ran : pmmAllocateRegionWithType regions regionPageCount type =
      some (ret, after)) : PageTable ret := by
  rcases pmmAllocateRegionWithType_cases ran with
    ⟨_, rfl, _⟩ | ⟨region, _, chosen, _, step⟩
  · exact ⟨Nat.dvd_zero _, by decide⟩
  · obtain ⟨inside, holds⟩ := firstFit_mem chosen
    obtain ⟨_, available, _⟩ := fitsAllocation_iff.mp holds
    obtain ⟨start, _⟩ := paged region inside (Or.inl available)
    rw [step.ret_eq]
    constructor <;> omega

/-- The tables that exist are found without a change of the state. -/
theorem firstMissing_spec {s : KickstartState} {indices : List Nat} :
    ∀ {table : Nat}, PageTable table → (∀ index ∈ indices, index < 512) →
      PageTable (firstMissing s.memory table indices).1 ∧
        (∀ index ∈ (firstMissing s.memory table indices).2, index < 512) ∧
        HeadMissing s.memory (firstMissing s.memory table indices).1
          (firstMissing s.memory table indices).2 ∧
        walkTables table indices s =
          walkTables (firstMissing s.memory table indices).1
            (firstMissing s.memory table indices).2 s := by
  induction indices with
  | nil =>
      intro table isTable inTables
      rw [firstMissing]
      exact ⟨isTable, inTables, by simp [HeadMissing], rfl⟩
  | cons index rest inductionHypothesis =>
      intro table isTable inTables
      have fits := isTable.entry_lt (inTables index List.mem_cons_self)
      rw [firstMissing]
      by_cases zero : entryAt s.memory table index = 0
      · rw [if_pos zero]
        refine ⟨isTable, inTables, ?_, rfl⟩
        intro head isHead
        rw [List.head?_cons, Option.mem_some] at isHead
        rw [← isHead]
        exact zero
      · rw [if_neg zero]
        obtain ⟨isLast, short, headMissing, same⟩ := inductionHypothesis
          (pageTable_clearLow (entryAt s.memory table index))
          (fun other inside => inTables other (List.mem_cons_of_mem _ inside))
        refine ⟨isLast, short, headMissing, ?_⟩
        rw [walkTables, nextTable_eq (by omega), if_neg zero, Option.bind_some]
        exact same

/-- The entries of a table that has just been allocated and linked: none, unless
it is its own parent. -/
theorem entryAt_linked {m : Memory} {table next index j : Nat}
    (isTable : PageTable table) (isNext : PageTable next) (inTable : index < 512)
    (inside : j < 512) :
    entryAt (storeLe (memset m next 0 0x1000) (table + 8 * index) 8
        (next ||| 0x2 ||| 0x1)) next j =
      if next = table ∧ j = index then (next ||| 0x2 ||| 0x1) % 256 ^ 8
      else 0 := by
  have fits := isNext.entry_lt inside
  have fitsTable := isTable.entry_lt inTable
  obtain ⟨aligned, low⟩ := isNext
  obtain ⟨alignedTable, lowTable⟩ := isTable
  rw [entryAt]
  split
  next own => rw [own.1, own.2, loadLe_storeLe]
  next other =>
    rw [loadLe_storeLe_disjoint (by omega)]
    apply loadLe_zero
    intro x above below
    rw [memset, fill_apply (by omega), if_pos (by omega)]
    rfl

/-- A missing table takes its page from the first region that fits, or gets
`NULL`. -/
theorem nextTable_supplied {s s' : KickstartState} {table index next : Nat}
    (paged : PagedEntries s.memoryRegions) (isTable : PageTable table)
    (inTable : index < 512) (zero : entryAt s.memory table index = 0)
    (ran : nextTable table index s = some (next, s')) :
    pmmAllocateRegion s.memoryRegions 1 = some (next, s'.memoryRegions) ∧
      (AllocationFails s s' ↔ next = 0) ∧
      ∀ j < 512, entryAt s'.memory next j =
        if next = table ∧ j = index then (next ||| 0x2 ||| 0x1) % 256 ^ 8
        else 0 := by
  have fits := isTable.entry_lt inTable
  rw [nextTable_eq (by omega), if_pos zero, Option.map_eq_some_iff] at ran
  obtain ⟨⟨addr, s₁⟩, given, made⟩ := ran
  obtain ⟨rfl, written⟩ := Prod.mk.inj made
  obtain ⟨outcome, grown, pointer⟩ := allocateRegion_outcome given
  obtain ⟨regions, taken, control⟩ := allocateRegionWithType_cases given
  have memory : s'.memory = storeLe (memset s₁.memory addr 0 0x1000)
      (table + 8 * index) 8 (addr ||| 0x2 ||| 0x1) := by rw [← written]
  have sameRegions : s'.memoryRegions = regions := by rw [← written, control]
  refine ⟨by rw [sameRegions]; exact taken, ?_, ?_⟩
  · rw [allocationFails_iff (by rw [← written]; exact grown)]
    simp only [List.mem_singleton, exists_eq_left, pointer]
  · intro j inside
    rw [memory]
    exact entryAt_linked isTable (pageTable_of_allocated paged taken) inTable inside

/-- Levels that find a table which links to itself change nothing. -/
theorem walkTables_selfLinked {s : KickstartState} {table index : Nat}
    (self : nextTable table index s = some (table, s)) (rest : List Nat) :
    walkTables table rest s = walkTables table (rest.dropWhile (· == index)) s := by
  induction rest with
  | nil => rfl
  | cons head rest inductionHypothesis =>
      by_cases same : head = index
      · rw [List.dropWhile_cons_of_pos (by simpa using same), walkTables, same, self,
          Option.bind_some]
        exact inductionHypothesis
      · rw [List.dropWhile_cons_of_neg (by simpa using same)]

/-- Once a table has been allocated and linked, the walk goes on at the next
index that it has no entry for. -/
theorem walkTables_linked {s : KickstartState} {table next index : Nat}
    {rest : List Nat} (isNext : PageTable next) (inTable : index < 512)
    (inTables : ∀ j ∈ rest, j < 512)
    (entries : ∀ j < 512, entryAt s.memory next j =
      if next = table ∧ j = index then (next ||| 0x2 ||| 0x1) % 256 ^ 8 else 0) :
    let others :=
      if next = table then rest.dropWhile (· == index) else rest
    HeadMissing s.memory next others ∧
      walkTables next rest s = walkTables next others s := by
  dsimp only
  by_cases own : next = table
  · have links := linkEntry_linksTo isNext.1 isNext.2
    have self : nextTable next index s = some (next, s) := by
      have entry := entries index inTable
      rw [if_pos ⟨own, rfl⟩] at entry
      have fits := isNext.entry_lt inTable
      rw [nextTable_eq (by omega), entry, if_neg links.ne_zero,
        clearLow_entry links.frame isNext.2]
    rw [if_pos own]
    refine ⟨?_, walkTables_selfLinked self rest⟩
    intro j isHead
    have different := List.head?_dropWhile_not (· == index) rest
    have inside : j ∈ rest :=
      (List.dropWhile_sublist _).subset (List.mem_of_mem_head? isHead)
    rw [Option.mem_def.mp isHead] at different
    have notIndex : j ≠ index := by simpa using different
    rw [entries j (inTables j inside), if_neg fun both => notIndex both.2]
  · rw [if_neg own]
    refine ⟨?_, rfl⟩
    intro j isHead
    rw [entries j (inTables j (List.mem_of_mem_head? isHead)),
      if_neg fun both => own both.1]

/-- The regions supply a missing table and those below it exactly when its pointer
is not `NULL` and what is left supplies the others. -/
theorem supplies_cons {regions after : RegionTable} {table index next : Nat}
    {rest : List Nat} (taken : pmmAllocateRegion regions 1 = some (next, after)) :
    Supplies regions table (index :: rest) ↔ next ≠ 0 ∧
      Supplies after next
        (if next = table then rest.dropWhile (· == index) else rest) := by
  constructor
  · intro supplied
    cases supplied with
    | next found pointer notNull left others =>
        obtain ⟨rfl, rfl⟩ := Prod.mk.inj (Option.some.inj (taken.symm.trans left))
        exact ⟨notNull, others⟩
  · rintro ⟨notNull, others⟩
    rcases pmmAllocateRegionWithType_cases taken with
      ⟨_, null, _⟩ | ⟨region, block, chosen, _, step⟩
    · exact absurd null notNull
    · exact Supplies.next chosen step.ret_eq notNull taken others

/-- Along a walk from the first missing table on, a request fails exactly when
the regions do not supply the tables. -/
theorem walkTables_supplied (count : Nat) : ∀ {indices : List Nat}
    {s s' : KickstartState} {table target : Nat}, indices.length = count →
      PagedEntries s.memoryRegions → PageTable table →
      (∀ index ∈ indices, index < 512) → HeadMissing s.memory table indices →
      walkTables table indices s = some (target, s') →
      (AllocationFails s s' ↔ ¬ Supplies s.memoryRegions table indices) ∧
        PagedEntries s'.memoryRegions := by
  -- Every step shortens the list of the tables that are still missing.
  induction count using Nat.strong_induction_on with
  | _ count inductionHypothesis =>
      intro indices s s' table target isCount paged isTable inTables headMissing
        ran
      cases indices with
      | nil =>
          simp only [walkTables, Option.some.injEq, Prod.mk.injEq] at ran
          rw [← ran.2, allocationFails_iff (List.append_nil _).symm]
          exact ⟨by simp [Supplies.done], paged⟩
      | cons index rest =>
          have inTable := inTables index List.mem_cons_self
          have inRest : ∀ j ∈ rest, j < 512 := fun j inside =>
            inTables j (List.mem_cons_of_mem _ inside)
          have zero := headMissing index (by simp)
          obtain ⟨next, s₁, first, ran⟩ := walkTables_cons.mp ran
          obtain ⟨early, grownFirst⟩ := nextTable_grows first
          obtain ⟨late, grown⟩ := walkTables_grows ran
          obtain ⟨taken, fails, entries⟩ :=
            nextTable_supplied paged isTable inTable zero first
          have isNext := pageTable_of_allocated paged taken
          obtain ⟨headMissing₁, same⟩ := walkTables_linked isNext inTable inRest
            entries
          rw [same] at ran
          have fewer : (if next = table then rest.dropWhile (· == index)
              else rest).Sublist rest := by
            split
            · exact List.dropWhile_sublist _
            · exact List.Sublist.refl _
          have shorter := fewer.length_le
          rw [List.length_cons] at isCount
          obtain ⟨others, paged'⟩ := inductionHypothesis _ (by omega) rfl
            (paged.allocateRegionWithType taken) isNext
            (fun j inside => inRest j (fewer.subset inside)) headMissing₁ ran
          refine ⟨?_, paged'⟩
          rw [allocationFails_split grownFirst grown, fails, others,
            supplies_cons taken, not_and_or, not_not]

/-! ## One call -/

/-- What calls of `map_page` rely on and keep, whether their requests fail or not:
64-bit paging, a root that a 32-bit pointer reaches, and regions with page
bounds. -/
structure PagerReady (s : KickstartState) : Prop where
  wide : s.pageType = .bits64
  root : PageTable s.topPageStructure
  paged : PagedEntries s.memoryRegions

theorem walkTables_control {indices : List Nat} :
    ∀ {table target : Nat} {s s' : KickstartState},
      walkTables table indices s = some (target, s') →
      s'.topPageStructure = s.topPageStructure ∧ s'.pageType = s.pageType := by
  induction indices with
  | nil =>
      intro table target s s' ran
      simp only [walkTables, Option.some.injEq, Prod.mk.injEq] at ran
      rw [ran.2]
      exact ⟨rfl, rfl⟩
  | cons index rest inductionHypothesis =>
      intro table target s s' ran
      obtain ⟨next, s₁, first, ran⟩ := walkTables_cons.mp ran
      obtain ⟨root, type⟩ := inductionHypothesis ran
      rw [root, type]
      rcases nextTable_cases first with ⟨_, rfl, _⟩ | ⟨_, s₂, given, rfl⟩
      · exact ⟨rfl, rfl⟩
      · obtain ⟨_, _, rfl⟩ := allocateRegionWithType_cases given
        exact ⟨rfl, rfl⟩

/-- A request of a call fails exactly when the regions do not supply its tables;
either way the next call can rely on what this one relied on. -/
theorem mapPage_fails_iff {s s' : KickstartState}
    {physAddr virtAddr permFlags : Nat} (pager : PagerReady s)
    (ran : mapPage physAddr virtAddr permFlags s = some s') :
    (AllocationFails s s' ↔ ¬ EnoughPages s virtAddr) ∧ PagerReady s' := by
  obtain ⟨ptAddr, s₁, walked, last⟩ := (mapPage_eq_walk pager.wide).mp ran
  have control : SameControl s₁ s' := by
    rw [← last]
    exact mapEntry_sameControl _ _ _ _ _ _
  clear last
  obtain ⟨root, type⟩ := walkTables_control walked
  have inTables : ∀ index ∈ tablePath virtAddr, index < 512 := fun _ inside =>
    lt_of_mem_tablePath inside
  obtain ⟨isLast, short, headMissing, same⟩ :=
    firstMissing_spec pager.root inTables
  rw [same] at walked
  obtain ⟨failsIff, paged⟩ := walkTables_supplied _ rfl pager.paged isLast
    short headMissing walked
  constructor
  · rw [AllocationFails, control.allocations]
    exact failsIff
  · exact ⟨by rw [control.type, type, pager.wide],
      by rw [control.root, root]; exact pager.root,
      by rw [control.regions]; exact paged⟩

/-- A call does no damage for want of memory exactly when the regions supply its
tables. -/
theorem mapPage_undamaged_iff {s s' : KickstartState}
    {physAddr virtAddr permFlags : Nat} (pager : PagerReady s)
    (ran : mapPage physAddr virtAddr permFlags s = some s') :
    (AllocationFails s s' →
        Undamaged (mapPageWrites physAddr virtAddr permFlags s) s s') ↔
      EnoughPages s virtAddr := by
  have failsIff := (mapPage_fails_iff pager ran).1
  constructor
  · intro undamaged
    by_contra missing
    have fails := failsIff.mpr missing
    exact mapPage_damages ran fails (undamaged fails)
  · intro enough fails
    exact absurd enough (failsIff.mp fails)

/-! ## The tables for the first 2 MiB -/

/-- The address of one of the four tables that `initialize_pager` links, cut to
32 bits. -/
def identTable (pml4Addr k : Nat) : Nat := (pml4Addr + 0x1000 * k) % 2 ^ 32

/-- Each of the four tables but the last links the next one. -/
def IdentLinked (m : Memory) (pml4Addr : Nat) : Prop :=
  ∀ k < 3, LinksTo (entryAt m (identTable pml4Addr k) 0)
    (identTable pml4Addr (k + 1))

theorem pageTable_identTable {pml4Addr : Nat} (aligned : 4096 ∣ pml4Addr)
    (k : Nat) : PageTable (identTable pml4Addr k) := by
  rw [identTable]
  constructor <;> omega

/-- The four tables do not overlap, even where they wrap around at 4 GiB. -/
theorem identTable_apart (pml4Addr : Nat) {j k : Nat} (inside : j < 4)
    (inside' : k < 4) (different : j ≠ k) :
    identTable pml4Addr j + 0x1000 ≤ identTable pml4Addr k ∨
      identTable pml4Addr k + 0x1000 ≤ identTable pml4Addr j := by
  rw [identTable, identTable]
  omega

theorem linkIdentTables_linked {s : KickstartState} {pml4Addr : Nat}
    (isTable : PageTable pml4Addr) :
    IdentLinked (linkIdentTables pml4Addr s).memory pml4Addr := by
  have first : pml4Addr = identTable pml4Addr 0 := by
    rw [identTable, Nat.mul_zero, Nat.add_zero, Nat.mod_eq_of_lt isTable.2]
  have second : (pml4Addr + 0x1000) % 2 ^ 32 = identTable pml4Addr 1 := rfl
  have third : (identTable pml4Addr 1 + 0x1000) % 2 ^ 32 =
      identTable pml4Addr 2 := by
    rw [identTable, identTable]
    omega
  have fourth : (identTable pml4Addr 2 + 0x1000) % 2 ^ 32 =
      identTable pml4Addr 3 := by
    rw [identTable, identTable]
    omega
  have links := fun k => linkEntry_linksTo
    (pageTable_identTable isTable.1 k).1 (pageTable_identTable isTable.1 k).2
  have apart₀₁ := identTable_apart pml4Addr (j := 0) (k := 1) (by decide)
    (by decide) (by decide)
  have apart₀₂ := identTable_apart pml4Addr (j := 0) (k := 2) (by decide)
    (by decide) (by decide)
  have apart₁₂ := identTable_apart pml4Addr (j := 1) (k := 2) (by decide)
    (by decide) (by decide)
  rw [linkIdentTables]
  simp only [second, third, fourth]
  rw [← first] at apart₀₁ apart₀₂
  generalize memset s.memory pml4Addr 0 0x4000 = memory
  intro k below
  rw [entryAt, Nat.mul_zero, Nat.add_zero]
  obtain rfl | rfl | rfl : k = 0 ∨ k = 1 ∨ k = 2 := by omega
  · rw [← first, loadLe_storeLe_disjoint (by omega),
      loadLe_storeLe_disjoint (by omega), loadLe_storeLe]
    exact links 1
  · rw [loadLe_storeLe_disjoint (by omega), loadLe_storeLe]
    exact links 2
  · rw [loadLe_storeLe]
    exact links 3

theorem linkIdentTables_sameControl (pml4Addr : Nat) (s : KickstartState) :
    SameControl s (linkIdentTables pml4Addr s) := by
  rw [linkIdentTables]
  exact ⟨rfl, rfl, rfl, rfl, rfl, rfl⟩

/-- A page of the first 2 MiB finds its tables. -/
theorem walkTables_identLinked {s : KickstartState} {pml4Addr : Nat}
    (isTable : PageTable pml4Addr) (linked : IdentLinked s.memory pml4Addr) :
    walkTables pml4Addr [0, 0, 0] s = some (identTable pml4Addr 3, s) := by
  have step : ∀ k < 3, nextTable (identTable pml4Addr k) 0 s =
      some (identTable pml4Addr (k + 1), s) := by
    intro k below
    have fits := (pageTable_identTable isTable.1 k).entry_lt
      (show 0 < 512 by decide)
    have links := linked k below
    rw [nextTable_eq (by omega), if_neg links.ne_zero,
      clearLow_entry links.frame (pageTable_identTable isTable.1 (k + 1)).2]
  have first := step 0 (by decide)
  rw [identTable, Nat.mul_zero, Nat.add_zero, Nat.mod_eq_of_lt isTable.2] at first
  apply walkTables_cons.mpr
  refine ⟨_, s, first, ?_⟩
  apply walkTables_cons.mpr
  refine ⟨_, s, step 1 (by decide), ?_⟩
  apply walkTables_cons.mpr
  exact ⟨_, s, step 2 (by decide), rfl⟩

theorem tablePath_low {v : Nat} (low : v < 0x200000) : tablePath v = [0, 0, 0] := by
  simp only [tablePath, tableIndex, List.cons.injEq, and_true]
  omega

/-- Writing an entry of the last table keeps the links. -/
theorem mapEntry_identLinked {s : KickstartState} {pml4Addr ptIdx : Nat}
    (physAddr virtAddr permFlags : Nat) (isTable : PageTable pml4Addr)
    (inTable : ptIdx < 512) (linked : IdentLinked s.memory pml4Addr) :
    IdentLinked (mapEntry (identTable pml4Addr 3) ptIdx physAddr virtAddr
      permFlags s).memory pml4Addr := by
  intro k below
  have apart := identTable_apart pml4Addr (j := k) (k := 3) (by omega) (by decide)
    (by omega)
  have fits := (pageTable_identTable isTable.1 3).entry_lt inTable
  have same : entryAt (mapEntry (identTable pml4Addr 3) ptIdx physAddr virtAddr
      permFlags s).memory (identTable pml4Addr k) 0 =
      entryAt s.memory (identTable pml4Addr k) 0 := by
    apply loadLe_congr
    intro x above under
    rw [mapEntryWrites_replay]
    apply replay_outside
    intro write inside
    rw [mapEntryWrites, Nat.mod_eq_of_lt (by omega)] at inside
    split at inside
    · cases inside
    · rw [List.mem_singleton.mp inside, PagerWrite.bytes, Set.mem_Ico]
      omega
  rw [same]
  exact linked k below

/-- The calls for the first 2 MiB need no further table. -/
theorem mapPages_identLinked {calls : List MapCall} :
    ∀ {s s' : KickstartState}, s.pageType = .bits64 →
      PageTable s.topPageStructure → IdentLinked s.memory s.topPageStructure →
      (∀ call ∈ calls, call.virtAddr < 0x200000) →
      mapPages calls s = some s' → SameControl s s' := by
  induction calls with
  | nil =>
      intro s s' _ _ _ _ ran
      simp only [mapPages, List.foldlM_nil, Option.pure_def,
        Option.some.injEq] at ran
      rw [ran]
      exact SameControl.refl s'
  | cons call calls inductionHypothesis =>
      intro s s' wide isTable linked low ran
      obtain ⟨s₁, first, ran⟩ := mapPages_cons.mp ran
      obtain ⟨ptAddr, s₂, walked, last⟩ := (mapPage_eq_walk wide).mp first
      rw [tablePath_low (low call List.mem_cons_self),
        walkTables_identLinked isTable linked, Option.some.injEq,
        Prod.mk.injEq] at walked
      obtain ⟨rfl, rfl⟩ := walked
      have control : SameControl s s₁ := by
        rw [← last]
        exact mapEntry_sameControl _ _ _ _ _ _
      have linked₁ : IdentLinked s₁.memory s₁.topPageStructure := by
        rw [control.root, ← last]
        exact mapEntry_identLinked _ _ _ isTable (tableIndex_lt 0 _) linked
      refine control.trans (inductionHypothesis (control.type.trans wide) ?_
        linked₁ (fun other inside => low other (List.mem_cons_of_mem _ inside)) ran)
      rw [control.root]
      exact isTable

/-- Calls of `map_page` can rely on what a successful `initialize_pager` did. -/
theorem initializePager_ready {start ready : KickstartState}
    (regions : PagedEntries start.memoryRegions)
    (initialized : initializePager .bits64 start = some (true, ready)) :
    PagerReady ready := by
  obtain ⟨pml4Addr, s₁, given, notNull, mapped⟩ :=
    initializePager_eq_some.mp initialized
  obtain ⟨after, taken, only⟩ := allocateRegionWithType_cases given
  have isTable := pageTable_of_allocated regions taken
  have linked := linkIdentTables_linked
    (s := { s₁ with topPageStructure := pml4Addr }) isTable
  have control₀ := linkIdentTables_sameControl pml4Addr
    { s₁ with topPageStructure := pml4Addr }
  generalize linkIdentTables pml4Addr _ = first at linked control₀ mapped
  have wide : first.pageType = .bits64 := by rw [control₀.type, only]
  have control := mapPages_identLinked wide
    (by rw [control₀.root]; exact isTable) (by rw [control₀.root]; exact linked)
    (by
      intro call inside
      simp only [identityCalls, List.mem_map, List.mem_range] at inside
      obtain ⟨i, below, rfl⟩ := inside
      dsimp only
      omega) mapped
  refine ⟨control.type.trans wide, ?_, ?_⟩
  · rw [control.root, control₀.root]
    exact isTable
  · rw [control.regions, control₀.regions, only]
    exact regions.allocateRegionWithType taken

/-! ## Every call of a run -/

/-- A call made in a run of `map_page`, with the states before and after it. -/
inductive CallInRun : List MapCall → KickstartState → MapCall →
    KickstartState → KickstartState → Prop
  | here {call : MapCall} {rest : List MapCall} {s s' : KickstartState}
      (ran : mapPage call.physAddr call.virtAddr call.permFlags s = some s') :
      CallInRun (call :: rest) s call s s'
  | later {first call : MapCall} {rest : List MapCall}
      {start next s s' : KickstartState}
      (ran : mapPage first.physAddr first.virtAddr first.permFlags start =
        some next)
      (inRest : CallInRun rest next call s s') :
      CallInRun (first :: rest) start call s s'

/-- A call does no damage for want of memory. -/
def UndamagedByFailure (call : MapCall) (s s' : KickstartState) : Prop :=
  AllocationFails s s' →
    Undamaged (mapPageWrites call.physAddr call.virtAddr call.permFlags s) s s'

/-- Every call of a run can rely on what the first one relied on. -/
theorem CallInRun.ready {calls : List MapCall} {start s s' : KickstartState}
    {call : MapCall} (inRun : CallInRun calls start call s s')
    (pager : PagerReady start) : PagerReady s := by
  induction inRun with
  | here ran => exact pager
  | later ran _ inductionHypothesis =>
      exact inductionHypothesis (mapPage_fails_iff pager ran).2

theorem CallInRun.ran {calls : List MapCall} {start s s' : KickstartState}
    {call : MapCall} (inRun : CallInRun calls start call s s') :
    mapPage call.physAddr call.virtAddr call.permFlags s = some s' := by
  induction inRun with
  | here ran => exact ran
  | later _ _ inductionHypothesis => exact inductionHypothesis

/-- In every run of `map_page` after `initialize_pager`, a call does no damage for
want of memory exactly when the regions it finds supply every table that it
misses: each call in which a request returns `NULL` clears the first page of
memory and links it as a table. -/
theorem mapPages_undamaged_iff {start ready : KickstartState}
    (calls : List MapCall) (regions : PagedEntries start.memoryRegions)
    (initialized : initializePager .bits64 start = some (true, ready)) :
    ∀ call s s', CallInRun calls ready call s s' →
      (UndamagedByFailure call s s' ↔ EnoughPages s call.virtAddr) := by
  intro call s s' inRun
  exact mapPage_undamaged_iff (inRun.ready (initializePager_ready regions initialized))
    inRun.ran

/-- A state with one available region, before `initialize_pager`. -/
def freeMemory (start stop : Nat) : KickstartState :=
  { freeMebibyte with
    memoryRegions :=
      [{ addrStart := start, addrEnd := stop, type := .available }] }

theorem freeMemory_paged {start stop : Nat} (alignedStart : 4096 ∣ start)
    (alignedEnd : 4096 ∣ stop) : PagedEntries (freeMemory start stop).memoryRegions :=
  PagedEntries.cons (fun _ => ⟨alignedStart, alignedEnd⟩) (by simp [PagedEntries])

/-- A call that needs a fourth page table, with a free mebibyte. -/
theorem mapPages_undamaged_mebibyte :
    ∃ ready s', initializePager .bits64 (freeMemory 0x100000 0x200000) =
        some (true, ready) ∧
      CallInRun [⟨0x5000, 0x200000, 0⟩] ready ⟨0x5000, 0x200000, 0⟩ ready s' ∧
      (UndamagedByFailure ⟨0x5000, 0x200000, 0⟩ ready s' ↔
        EnoughPages ready 0x200000) := by
  obtain ⟨ready, initialized, regionsLeft, _, pager⟩ := freeMebibyte_initialized
  have served : ∃ after, pmmAllocateRegionWithType ready.memoryRegions 1 .allocated =
      some (0x104000, after) := by
    rw [regionsLeft]
    exact ⟨_, rfl⟩
  obtain ⟨after, served⟩ := served
  obtain ⟨s', ran, _⟩ := mapPage_missing pager 0x5000 0
    (show identTables 0x100000 [tableIndex 3 0x200000] = some 0x101000 by decide)
    (show identTables 0x100000 [tableIndex 3 0x200000, tableIndex 2 0x200000] =
      some 0x102000 by decide)
    (show identTables 0x100000 [tableIndex 3 0x200000, tableIndex 2 0x200000,
      tableIndex 1 0x200000] = none by decide) (allocateRegionWithType_eq served)
  have here : CallInRun [⟨0x5000, 0x200000, 0⟩] ready ⟨0x5000, 0x200000, 0⟩ ready s' :=
    .here ran
  exact ⟨ready, s', initialized, here, mapPages_undamaged_iff
    [⟨0x5000, 0x200000, 0⟩] (freeMemory_paged (by decide) (by decide)) initialized
    ⟨0x5000, 0x200000, 0⟩ ready s' here⟩

/-- With room for the first four page tables only, mapping the page at 2 MiB
damages memory. -/
theorem mapPage_damages_first_page :
    ¬ ∀ (start ready : KickstartState) (calls : List MapCall),
      PagedEntries start.memoryRegions →
      initializePager .bits64 start = some (true, ready) →
      ∀ call s s', CallInRun calls ready call s s' →
        UndamagedByFailure call s s' := by
  intro undamaged
  have regions : AllocatorTable (freeMemory 0x100000 0x104000).memoryRegions :=
    AllocatorTable.single (by decide) (by decide) (by decide) (by decide)
  have given : ∃ s₁, allocateRegion 4
      { freeMemory 0x100000 0x104000 with pageType := .bits64 } =
      some (0x100000, s₁) ∧
      s₁.allocations = [some ⟨0x100000, 0x104000, .allocated⟩] ∧
      s₁.memoryRegions = [⟨0x100000, 0x104000, .allocated⟩] :=
    ⟨_, rfl, by decide, by decide⟩
  obtain ⟨s₁, given, history, left⟩ := given
  have succeeded : ∀ outcome ∈ s₁.allocations, Succeeded outcome := by
    rw [history]
    intro outcome inside
    rw [List.mem_singleton] at inside
    exact ⟨_, inside, by decide, by decide, by decide⟩
  obtain ⟨ready, initialized, control, pager⟩ := initializePager_isSome
    regions.keeps.available given succeeded
  have regionsLeft : ready.memoryRegions = [⟨0x100000, 0x104000, .allocated⟩] :=
    control.regions.trans left
  have refused : pmmAllocateRegionWithType ready.memoryRegions 1 .allocated =
      some (0, ready.memoryRegions) := by
    rw [regionsLeft]
    decide
  have outcome : allocatedBlock ready.memoryRegions 1 .allocated = none := by
    rw [regionsLeft]
    decide
  have null := allocateRegionWithType_eq refused
  obtain ⟨s', ran, control'⟩ := mapPage_missing pager 0x5000 0
    (show identTables 0x100000 [tableIndex 3 0x200000] = some 0x101000 by decide)
    (show identTables 0x100000 [tableIndex 3 0x200000, tableIndex 2 0x200000] =
      some 0x102000 by decide)
    (show identTables 0x100000 [tableIndex 3 0x200000, tableIndex 2 0x200000,
      tableIndex 1 0x200000] = none by decide) null
  have fails : AllocationFails ready s' := by
    rw [allocationFails_iff control'.allocations, outcome]
    exact ⟨none, List.mem_singleton_self _, rfl⟩
  exact mapPage_damages ran fails (undamaged _ ready [⟨0x5000, 0x200000, 0⟩]
    (freeMemory_paged (by decide) (by decide)) initialized ⟨0x5000, 0x200000, 0⟩ ready s' (.here ran) fails)

end SampoOS.Kickstart
