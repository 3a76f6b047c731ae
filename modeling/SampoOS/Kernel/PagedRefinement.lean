/-
Module: SampoOS.Kernel.PagedRefinement
Purpose: Through the page tables init_memory_manager does to the frames of the
  manager's pages what the model with a memory of their own says, and nothing else.
Trusted boundary: none
Main exports: join, ArrayInside, addRegion_join, pmmMarkPageBusy_join,
  setUpPhysmap_join, markPages_join, physmapOf_join, managerRun,
  MarksInBitmap, ManagerBacked, initMemoryManager_join
-/
import SampoOS.Kernel.PagedManager
import SampoOS.Kernel.StrayMarks

namespace SampoOS.Kernel

open Bitmap (bitNumber)
open ByteMemory
open Paging

/-! ## One memory for two -/

/-- The state in which the frames of a run hold what `s` has in `virtual`. -/
def join (run : PageRun) (unused : Memory) (s : KernelState) : KernelState :=
  { s with
    physical := run.overlay s.physical s.virtual
    virtual := unused }

/-- An entry lies in the run. -/
structure EntryInside (run : PageRun) (ptr : Nat) : Prop extends SlotAddress ptr where
  low : run.start ≤ ptr
  high : ptr + physmemRegionSize ≤ run.start + run.size

/-- The first entries of the physmap lie in the run. -/
structure ArrayInside (run : PageRun) (s : KernelState) (length : Nat) : Prop where
  aligned : 32 ∣ s.physmap
  low : run.start ≤ s.physmap
  high : s.physmap + physmemRegionSize * length ≤ run.start + run.size
  word : run.start + run.size ≤ 2 ^ 64

namespace ArrayInside

variable {run : PageRun} {s : KernelState} {length : Nat}

theorem entry (array : ArrayInside run s length) {i : Nat} (below : i < length) :
    EntryInside run (physmapEntry s i) := by
  obtain ⟨aligned, low, high, word⟩ := array
  rw [physmemRegionSize] at high
  have address : physmapEntry s i = s.physmap + 32 * i := by
    rw [physmapEntry, physmemRegionSize]
    omega
  rw [address]
  exact ⟨⟨by omega, by omega⟩, by omega, by rw [physmemRegionSize]; omega⟩

theorem shorter {length' : Nat} (array : ArrayInside run s length)
    (le : length' ≤ length) : ArrayInside run s length' := by
  refine ⟨array.aligned, array.low, Nat.le_trans ?_ array.high, array.word⟩
  exact Nat.add_le_add_left (Nat.mul_le_mul_left _ le) _

end ArrayInside

theorem mapM_range {α : Type} {l : List α} :
    ∀ {f : Nat → Option α}, (∀ (i : Nat) (below : i < l.length), f i = some l[i]) →
      (List.range l.length).mapM f = some l := by
  induction l with
  | nil => exact fun _ => rfl
  | cons a l inductionHypothesis =>
      intro f each
      have rest : (List.range l.length).mapM (f ∘ Nat.succ) = some l :=
        inductionHypothesis fun i below => each (i + 1) (Nat.succ_lt_succ below)
      rw [List.length_cons, List.range_succ_eq_map, List.mapM_cons,
        each 0 (Nat.succ_pos _), List.mapM_map, rest]
      rfl

section Join

variable {run : PageRun} {unused : Memory} {s : KernelState}
  (backed : run.Backed s.physical s.root)

include backed

theorem load_join {addr n : Nat} (low : run.start ≤ addr)
    (high : addr + n ≤ run.start + run.size) :
    Paged.load (join run unused s) addr n = some (loadLe s.virtual addr n) :=
  PageRun.loadWord_overlay backed low high

theorem store_join {m : Memory} {addr n : Nat} (value : Nat) (low : run.start ≤ addr)
    (high : addr + n ≤ run.start + run.size) :
    Paged.store addr n value (join run unused { s with virtual := m }) =
      some (join run unused { s with virtual := storeLe m addr n value }) := by
  have stored : storeWord (run.overlay s.physical m) s.root addr value n =
      some (run.overlay s.physical (storeLe m addr n value)) :=
    PageRun.storeWord_overlay backed value low high
  rw [Paged.store]
  exact congrArg (Option.map _) stored

theorem loadRegion_join {ptr : Nat} (inside : EntryInside run ptr) :
    Paged.loadRegion (join run unused s) ptr = some (loadRegion s.virtual ptr) := by
  obtain ⟨slot, low, high⟩ := inside
  rw [physmemRegionSize] at high
  rw [Paged.loadRegion, loadRegion, slot.offset (show 8 < 32 by decide),
    slot.offset (show 16 < 32 by decide), slot.offset (show 24 < 32 by decide),
    load_join backed (by omega) (by omega), load_join backed (by omega) (by omega),
    load_join backed (by omega) (by omega), load_join backed (by omega) (by omega)]
  rfl

theorem storeRegion_join {ptr : Nat} (region : PhysmemRegion)
    (inside : EntryInside run ptr) :
    Paged.storeRegion ptr region (join run unused s) =
      some (join run unused { s with virtual := storeRegion s.virtual ptr region }) := by
  obtain ⟨slot, low, high⟩ := inside
  rw [physmemRegionSize] at high
  have addr : Paged.store ptr 8 region.addr (join run unused s) =
      some (join run unused { s with virtual := storeLe s.virtual ptr 8 region.addr }) :=
    store_join backed region.addr low (by omega)
  simp only [Paged.storeRegion, storeRegion, slot.offset (show 8 < 32 by decide),
    slot.offset (show 16 < 32 by decide), slot.offset (show 24 < 32 by decide),
    Option.bind_eq_bind]
  rw [addr, Option.bind_some, store_join backed _ (by omega) (by omega),
    Option.bind_some, store_join backed _ (by omega) (by omega), Option.bind_some,
    store_join backed _ (by omega) (by omega)]

theorem addRegion_join (region : PhysmemRegion)
    (array : ArrayInside run s (s.physmemLen + 1)) :
    Paged.addRegion region (join run unused s) =
      some (join run unused (addRegion region s)) := by
  have stored : Paged.storeRegion (physmapEntry s s.physmemLen) region
      (join run unused s) = some (join run unused
        { s with virtual := storeRegion s.virtual (physmapEntry s s.physmemLen) region }) :=
    storeRegion_join backed region (array.entry (Nat.lt_succ_self _))
  rw [Paged.addRegion]
  exact congrArg (Option.bind · _) stored

/-- The physmap is read as it is. -/
theorem physmapOf_join (array : ArrayInside run s s.physmemLen) :
    Paged.physmapOf (join run unused s) = some (physmapOf s) := by
  have length : (physmapOf s).length = s.physmemLen := by
    rw [physmapOf, List.length_map, List.length_range]
  have read : ∀ (i : Nat) (below : i < (physmapOf s).length),
      Paged.loadRegion (join run unused s) (physmapEntry s i) =
        some (physmapOf s)[i] := by
    intro i below
    simpa [physmapOf] using loadRegion_join backed (array.entry (length ▸ below))
  have all := mapM_range read
  rwa [length] at all

/-- The loop finds what the search in the list of entries finds. -/
theorem findEntry_join (page : Nat) (array : ArrayInside run s s.physmemLen)
    (remaining : Nat) : ∀ i, i + remaining = s.physmemLen →
    Paged.findEntry page (join run unused s) remaining i =
      some (((List.range' i remaining).map fun i =>
        loadRegion s.virtual (physmapEntry s i)).find? fun region =>
          !decide (page < region.addr)) := by
  induction remaining with
  | zero => exact fun _ _ => rfl
  | succ remaining inductionHypothesis =>
      intro i whole
      have entry : Paged.loadRegion (join run unused s)
          (physmapEntry (join run unused s) i) =
            some (loadRegion s.virtual (physmapEntry s i)) :=
        loadRegion_join backed (array.entry (by omega))
      rw [Paged.findEntry, entry, List.range'_succ, List.map_cons, Option.bind_eq_bind,
        Option.bind_some]
      by_cases below : page < (loadRegion s.virtual (physmapEntry s i)).addr
      · rw [if_pos below, List.find?_cons_of_neg (by simp [below]),
          inductionHypothesis (i + 1) (by omega)]
      · rw [if_neg below, List.find?_cons_of_pos (by simp [below])]
        rfl

/-- A mark in the run is made in its own memory. -/
theorem pmmMarkPageBusy_join {page : Nat} (array : ArrayInside run s s.physmemLen)
    (inside : ∀ region, ((physmapOf s).find? fun region =>
        !decide (page < region.addr)) = some region → region.type = .available →
      (pagePosition region page).byte ∈ Set.Ico run.start (run.start + run.size)) :
    Paged.pmmMarkPageBusy page (join run unused s) =
      some (join run unused (pmmMarkPageBusy page s)) := by
  have entry : Paged.findEntry page (join run unused s) s.physmemLen 0 = _ :=
    findEntry_join backed page array s.physmemLen 0 (Nat.zero_add _)
  rw [← List.range_eq_range', ← physmapOf] at entry
  have sameLen : (join run unused s).physmemLen = s.physmemLen := rfl
  rw [Paged.pmmMarkPageBusy, sameLen, entry, pmmMarkPageBusy, editPage_eq]
  cases found : (physmapOf s).find? fun region => !decide (page < region.addr) with
  | none => rfl
  | some region =>
      simp only [Option.bind_eq_bind, Option.bind_some]
      by_cases available : region.type = .available
      · obtain ⟨low, high⟩ := inside region found available
        have old : readByte (run.overlay s.physical s.virtual) s.root
            (pagePosition region page).byte =
              some (s.virtual (pagePosition region page).byte) :=
          PageRun.readByte_overlay backed low high
        have new : writeByte (run.overlay s.physical s.virtual) s.root
            (pagePosition region page).byte _ = some (run.overlay s.physical _) :=
          PageRun.writeByte_overlay backed (s.virtual (pagePosition region page).byte |||
            UInt8.ofNat (1 <<< (pagePosition region page).bit)) low high
        rw [if_neg (not_not_intro available), if_neg (not_not_intro available)]
        exact (congrArg (Option.bind · _) old).trans (congrArg (Option.bind · _) new)
      · rw [if_pos available, if_pos available]
        rfl

end Join

/-! ## What is left alone -/

/-- No page table is changed, and no page mapped at the end of the kernel. -/
structure SamePageTables (s s' : KernelState) : Prop where
  physical : s'.physical = s.physical
  root : s'.root = s.root
  kernelEnd : s'.kernelEndAddr = s.kernelEndAddr

theorem SamePageTables.refl (s : KernelState) : SamePageTables s s := ⟨rfl, rfl, rfl⟩

theorem SamePageTables.trans {s s' s'' : KernelState} (first : SamePageTables s s')
    (second : SamePageTables s' s'') : SamePageTables s s'' :=
  ⟨second.physical.trans first.physical, second.root.trans first.root,
    second.kernelEnd.trans first.kernelEnd⟩

theorem setUpPhysmap_samePageTables {table : RegionTable} {ptr : Nat}
    {s : KernelState} (word : ptr < 2 ^ 64) :
    SamePageTables s (setUpPhysmap table ptr s) := by
  rw [setUpPhysmap_eq word]
  have only := addRegions_only (physmapRegions ptr table) (clearedManager table ptr s)
  exact ⟨only.physical, only.root, only.kernelEndAddr⟩

theorem pmmMarkPageBusy_samePageTables (page : Nat) (s : KernelState) :
    SamePageTables s (pmmMarkPageBusy page s) := by
  rcases pmmMarkPageBusy_cases page s with same | ⟨_, _, same⟩
  · rw [same]
    exact SamePageTables.refl s
  · rw [same]
    exact ⟨rfl, rfl, rfl⟩

/-! ## The second pass -/

/-- One entry added leaves the room for the others. -/
theorem ArrayInside.added {run : PageRun} {s : KernelState} {region : PhysmemRegion}
    {count : Nat} (array : ArrayInside run s (s.physmemLen + (count + 1))) :
    ArrayInside run (addRegion region s)
      ((addRegion region s).physmemLen + count) := by
  obtain ⟨aligned, low, high, word⟩ := array
  have length : (addRegion region s).physmemLen = s.physmemLen + 1 := by
    rw [physmemRegionSize] at high
    exact Nat.mod_eq_of_lt (by omega)
  refine ⟨aligned, low, ?_, word⟩
  rw [length, Nat.add_assoc, Nat.add_comm 1 count]
  exact high

/-- The second pass, with as many entries as there are combined regions. -/
theorem populatePhysmap_join {run : PageRun} {unused : Memory}
    (table : List MemoryRegion) : ∀ {skipped bitmapAddr : Nat} {s : KernelState},
    run.Backed s.physical s.root →
    ArrayInside run s (s.physmemLen + (combinedRegions skipped table).length) →
    Paged.populatePhysmap skipped table bitmapAddr (join run unused s) =
      some (join run unused (populatePhysmap skipped table bitmapAddr s)) := by
  induction table with
  | nil => exact fun _ _ => rfl
  | cons region rest inductionHypothesis =>
      intro skipped bitmapAddr s backed array
      cases skipped with
      | succ skipped => exact inductionHypothesis backed array
      | zero =>
          rw [combinedRegions] at array
          rw [Paged.populatePhysmap, populatePhysmap]
          dsimp only at array ⊢
          split at array
          next isCombinable =>
            rw [if_pos isCombinable, if_pos isCombinable,
              addRegion_join backed _ (array.shorter (by simp)), Option.bind_some]
            exact inductionHypothesis backed array.added
          next isSingle =>
            rw [if_neg isSingle, if_neg isSingle,
              addRegion_join backed _ (array.shorter (by simp)), Option.bind_some]
            exact inductionHypothesis backed array.added

/-- The pages that the manager has mapped for itself. -/
def managerRun (ptr : Nat) (table : RegionTable) : PageRun where
  start := ptr
  frame := managerAddr table
  size := managerPageCount table * pageSize

section Tables

variable {table : RegionTable} {ptr : Nat} {s : KernelState}

/-- The array lies in the manager's pages. -/
theorem clearedManager_arrayInside (paged : PagedTable table) (aligned : 4096 ∣ ptr)
    (fits : ptr + managerPageCount table * pageSize ≤ 2 ^ 64)
    (fresh : s.physmemLen = 0) :
    ArrayInside (managerRun ptr table) (clearedManager table ptr s)
      ((clearedManager table ptr s).physmemLen + (combinedRegions 0 table).length) := by
  obtain ⟨_, _, array, pages, _⟩ := paged.counts
  have empty : (clearedManager table ptr s).physmemLen = 0 := fresh
  have start : (clearedManager table ptr s).physmap =
      ptr + (regionCounts table).bitmapPageCount * pageSize := by
    refine Nat.mod_eq_of_lt ?_
    have some : 0 < (regionCounts table).regionsPageCount := Nat.succ_pos _
    rw [pages, Nat.add_mul, pageSize] at fits
    rw [pageSize]
    omega
  rw [pages, Nat.add_mul] at fits
  rw [empty, Nat.zero_add]
  refine ⟨?_, ?_, ?_, ?_⟩
  · rw [start, pageSize]
    omega
  · rw [start]
    exact Nat.le_add_right _ _
  · rw [start, managerRun, pages, Nat.add_mul]
    dsimp only
    omega
  · rw [managerRun, pages, Nat.add_mul]
    exact fits

/-- Clearing the pages and populating the physmap. -/
theorem setUpPhysmap_join (paged : PagedTable table) (aligned : 4096 ∣ ptr)
    (fits : ptr + managerPageCount table * pageSize ≤ 2 ^ 64)
    (fresh : s.physmemLen = 0)
    (backed : (managerRun ptr table).Backed s.physical s.root) :
    Paged.setUpPhysmap table ptr s =
      some (join (managerRun ptr table) s.virtual (setUpPhysmap table ptr s)) := by
  obtain ⟨_, _, _, _, short⟩ := paged.counts
  have size : managerPageCount table * pageSize % 2 ^ 64 =
      managerPageCount table * pageSize := Nat.mod_eq_of_lt short
  have cleared : fillBytes 64 s.physical s.root ptr 0
      (managerPageCount table * pageSize % 2 ^ 64) =
        some ((managerRun ptr table).overlay s.physical
          (clearedManager table ptr s).virtual) := by
    rw [clearedManager]
    dsimp only
    rw [size]
    exact PageRun.fillBytes_whole backed s.virtual 0 fits
  have populated : Paged.populatePhysmap 0 table ptr
      (join (managerRun ptr table) s.virtual (clearedManager table ptr s)) = _ :=
    populatePhysmap_join table backed
      (clearedManager_arrayInside paged aligned fits fresh)
  exact (congrArg (Option.bind · _) cleared).trans populated

/-! ## The marks -/

/-- Marks that follow the populating of a physmap and leave its entries alone. -/
structure Marked (s₀ s : KernelState) : Prop extends AgreesOn (arrayBytes s₀) s₀ s where
  tables : SamePageTables s₀ s

theorem Marked.refl (s : KernelState) : Marked s s := ⟨.refl _ s, .refl s⟩

/-- A loop over pages each of which is marked alike through the page tables. -/
theorem markPages_join {run : PageRun} {unused : Memory} (good : KernelState → Prop)
    {start stop : Nat} (alignedStop : 4096 ∣ stop) (word : stop < 2 ^ 64)
    (step : ∀ {page s}, 4096 ∣ page → start ≤ page → page < stop → good s →
      good (pmmMarkPageBusy page s) ∧
        Paged.pmmMarkPageBusy page (join run unused s) =
          some (join run unused (pmmMarkPageBusy page s)))
    (fuel : Nat) : ∀ {page : Nat} {s s' : KernelState}, 4096 ∣ page → start ≤ page →
    good s → markPages fuel page stop s = some s' →
    good s' ∧ Paged.markPages fuel page stop (join run unused s) =
      some (join run unused s') := by
  induction fuel with
  | zero =>
      intro page s s' _ _ _ ran
      cases ran
  | succ fuel inductionHypothesis =>
      intro page s s' aligned above isGood ran
      rw [markPages] at ran
      rw [Paged.markPages]
      by_cases below : page < stop
      · rw [if_pos below] at ran ⊢
        have next : (page + pageSize) % 2 ^ 64 = page + 4096 := by
          rw [pageSize]
          omega
        rw [next] at ran ⊢
        obtain ⟨stillGood, marked⟩ := step aligned above below isGood
        rw [marked, Option.bind_some]
        exact inductionHypothesis (by omega) (by omega) stillGood ran
      · rw [if_neg below] at ran ⊢
        obtain rfl := Option.some.inj ran
        exact ⟨isGood, rfl⟩

/-- The marking of the ALLOCATED regions. -/
theorem markAllocated_join {run : PageRun} {unused : Memory}
    (good : KernelState → Prop) (table : List MemoryRegion) :
    ∀ {s s' : KernelState},
    (∀ region ∈ table, region.type = .allocated → 4096 ∣ region.addrStart ∧
      4096 ∣ region.addrEnd ∧ region.addrEnd < 2 ^ 64 ∧
      ∀ {page s}, 4096 ∣ page → region.addrStart ≤ page → page < region.addrEnd →
        good s → good (pmmMarkPageBusy page s) ∧
          Paged.pmmMarkPageBusy page (join run unused s) =
            some (join run unused (pmmMarkPageBusy page s))) →
    good s → markAllocated table s = some s' →
    good s' ∧ Paged.markAllocated table (join run unused s) =
      some (join run unused s') := by
  induction table with
  | nil =>
      intro s s' _ isGood ran
      obtain rfl := Option.some.inj ran
      exact ⟨isGood, rfl⟩
  | cons region rest inductionHypothesis =>
      intro s s' step isGood ran
      rw [List.forall_mem_cons] at step
      rw [markAllocated, List.foldlM_cons, Option.bind_eq_bind,
        Option.bind_eq_some_iff] at ran
      obtain ⟨next, marked, others⟩ := ran
      rw [Paged.markAllocated, List.foldlM_cons]
      by_cases allocated : region.type = .allocated
      · obtain ⟨alignedStart, alignedStop, word, marks⟩ := step.1 allocated
        rw [if_neg (not_not_intro allocated)] at marked ⊢
        obtain ⟨stillGood, same⟩ := markPages_join good alignedStop word marks
          pageFuel alignedStart (Nat.le_refl _) isGood marked
        rw [same]
        exact inductionHypothesis step.2 stillGood others
      · rw [if_pos allocated] at marked ⊢
        obtain rfl := Option.some.inj marked
        exact inductionHypothesis step.2 isGood others

/-- No mark leaves the bitmap. -/
def MarksInBitmap (table : RegionTable) : Prop :=
  MarksMiss (Set.Ici (bitmapEnd table)) table

theorem MarksMiss.mono {bits bits' : Set Nat} {table : RegionTable}
    (misses : MarksMiss bits' table) (subset : bits ⊆ bits') : MarksMiss bits table :=
  fun first isHead isCombinable page busy reached inside =>
    misses first isHead isCombinable page busy reached (subset inside)

theorem MarksInBitmap.array {table : RegionTable} (inBitmap : MarksInBitmap table) :
    MarksMiss (arrayBits table) table :=
  MarksMiss.mono inBitmap fun _ inside => inside.1

/-- Populating leaves the array in the manager's pages. -/
theorem setUpPhysmap_arrayInside {table : RegionTable} {ptr : Nat} {s : KernelState}
    (paged : PagedTable table) (aligned : 4096 ∣ ptr) (word : ptr < 2 ^ 64)
    (fits : ptr + managerPageCount table * pageSize ≤ 2 ^ 64)
    (fresh : s.physmemLen = 0) :
    ArrayInside (managerRun ptr table) (setUpPhysmap table ptr s)
      (setUpPhysmap table ptr s).physmemLen := by
  have length := (setUpPhysmap_physmap paged.toBootTable aligned word fresh).1
  have empty : (clearedManager table ptr s).physmemLen = 0 := fresh
  have only := addRegions_only (physmapRegions ptr table) (clearedManager table ptr s)
  rw [← setUpPhysmap_eq word] at only
  have array := clearedManager_arrayInside paged aligned fits fresh
  rw [empty, Nat.zero_add] at array
  obtain ⟨aligned, low, high, word⟩ := array
  rw [length]
  exact ⟨only.physmap ▸ aligned, only.physmap ▸ low, only.physmap ▸ high, word⟩

/-- What holds of the manager's pages when they have been mapped, and the marks are
known to stay in the bitmap. -/
structure ManagerBacked (table : RegionTable) (ptr : Nat) (s : KernelState) : Prop where
  paged : PagedTable table
  sorted : table.Pairwise fun a b => a.addrStart ≤ b.addrStart
  found : managerAddr table ≠ 0
  aligned : 4096 ∣ ptr
  word : ptr < 2 ^ 64
  fits : ptr + managerPageCount table * pageSize ≤ 2 ^ 64
  fresh : s.physmemLen = 0
  backed : (managerRun ptr table).Backed s.physical s.root
  inBitmap : MarksInBitmap table

section Backed

variable {table : RegionTable} {ptr : Nat} {s₀ s : KernelState} {unused : Memory}

/-- The frames behind the pages, and the array in them, stay where they are. -/
theorem ManagerBacked.inside (manager : ManagerBacked table ptr s₀)
    (marked : Marked (setUpPhysmap table ptr s₀) s) :
    (managerRun ptr table).Backed s.physical s.root ∧
      ArrayInside (managerRun ptr table) s s.physmemLen := by
  have same : SamePageTables s₀ s :=
    (setUpPhysmap_samePageTables manager.word).trans marked.tables
  obtain ⟨aligned, low, high, word⟩ := setUpPhysmap_arrayInside manager.paged
    manager.aligned manager.word manager.fits manager.fresh
  constructor
  · rw [same.physical, same.root]
    exact manager.backed
  · rw [marked.physmemLen]
    exact ⟨marked.physmap ▸ aligned, marked.physmap ▸ low, marked.physmap ▸ high, word⟩

/-- Through the page tables, the physmap is read as it was populated. -/
theorem ManagerBacked.physmapOf (manager : ManagerBacked table ptr s₀)
    (marked : Marked (setUpPhysmap table ptr s₀) s) :
    Paged.physmapOf (join (managerRun ptr table) unused s) =
      some (physmapRegions ptr table) := by
  obtain ⟨backed, array⟩ := manager.inside marked
  have slots := (setUpPhysmap_array (s := s₀) manager.paged.toBootTable manager.aligned
    manager.word manager.fresh).1
  rw [physmapOf_join backed array, (marked.toAgreesOn.samePhysmap slots).entries,
    (setUpPhysmap_physmap manager.paged.toBootTable manager.aligned manager.word
      manager.fresh).2]

/-- A mark of a busy page, through the page tables and in the manager's own memory. -/
theorem ManagerBacked.mark (manager : ManagerBacked table ptr s₀) {page : Nat}
    (busy : page ∈ busyPages table) (marked : Marked (setUpPhysmap table ptr s₀) s) :
    Marked (setUpPhysmap table ptr s₀) (pmmMarkPageBusy page s) ∧
      Paged.pmmMarkPageBusy page (join (managerRun ptr table) unused s) =
        some (join (managerRun ptr table) unused (pmmMarkPageBusy page s)) := by
  obtain ⟨backed, arrayInside⟩ := manager.inside marked
  obtain ⟨paged, sorted, found, aligned, word, fits, fresh, _, inBitmap⟩ := manager
  obtain ⟨array, _, _⟩ := setUpPhysmap_array (s := s₀) paged.toBootTable aligned word
    fresh
  have sortedEntries : (Kernel.physmapOf (setUpPhysmap table ptr s₀)).Pairwise
      fun a b => a.addr ≤ b.addr := by
    rw [(setUpPhysmap_physmap paged.toBootTable aligned word fresh).2]
    exact physmapRegions_sorted sorted
  have keys := keyBytes_subset array
  have agrees := marked.toAgreesOn
  have misses := inBitmap.array.markMisses paged found aligned word fresh
    (fun _ small inside => mem_arrayBits paged aligned word fresh small inside) page busy
  refine ⟨⟨markEach_agrees array sortedEntries keys [page] (by simpa using misses) agrees,
    marked.tables.trans (pmmMarkPageBusy_samePageTables page s)⟩,
    pmmMarkPageBusy_join backed arrayInside ?_⟩
  intro region search available
  have sortedNow := agrees.sorted keys array sortedEntries
  have isFirst : region ∈ (Kernel.physmapOf s).head? ∧ region.addr ≤ page := by
    cases entries : Kernel.physmapOf s with
    | nil => simp [entries] at search
    | cons first rest =>
        rw [entries] at sortedNow search
        rw [find?_sorted sortedNow] at search
        split at search
        next => cases search
        next reached =>
          obtain rfl := Option.some.inj search
          exact ⟨rfl, Nat.not_lt.mp reached⟩
  rw [agrees.head? keys array] at isFirst
  obtain ⟨first, isHead, isCombinable, start, position⟩ :=
    setUpPhysmap_first paged aligned word fresh isFirst.1 available
  have low := inBitmap first isHead isCombinable page busy (start ▸ isFirst.2)
  obtain ⟨_, _, _, pages, _⟩ := paged.counts
  rw [Set.mem_Ici, Nat.not_le, bitmapEnd] at low
  rw [pages, Nat.add_mul] at fits
  have byte : (bitNumber 64 ptr (firstIndex first page)).byte =
      (ptr + firstIndex first page / 8) % 2 ^ 64 := rfl
  rw [position, byte, managerRun, pages, Nat.add_mul, Set.mem_Ico]
  dsimp only
  omega

/-- Through the page tables, the initialisation behind the mapper does what it does to
a memory of the manager's own. -/
theorem ManagerBacked.marks (manager : ManagerBacked table ptr s₀) {next last : KernelState}
    (allocated : markAllocated table (setUpPhysmap table ptr s₀) = some next)
    (own : markPages pageFuel (managerAddr table) (managerStop table) next = some last) :
    Marked (setUpPhysmap table ptr s₀) last ∧
      (Paged.setUpPhysmap table ptr s₀).bind
          (fun s => (Paged.markAllocated table s).bind
            (Paged.markPages pageFuel (managerAddr table) (managerStop table))) =
        some (join (managerRun ptr table) s₀.virtual last) := by
  obtain ⟨alignedStart, _, alignedStop, word⟩ :=
    managerAddr_aligned manager.paged manager.found
  rw [setUpPhysmap_join manager.paged manager.aligned manager.fits manager.fresh
    manager.backed, Option.bind_some]
  obtain ⟨marked, same⟩ : Marked (setUpPhysmap table ptr s₀) next ∧
      Paged.markAllocated table (join (managerRun ptr table) s₀.virtual
        (setUpPhysmap table ptr s₀)) =
          some (join (managerRun ptr table) s₀.virtual next) := by
    refine markAllocated_join _ table (fun region inside isAllocated => ?_)
      (Marked.refl _) allocated
    obtain ⟨start, stop⟩ := manager.paged.aligned region inside
      (combinable_iff.mpr (Or.inr isAllocated))
    refine ⟨start, stop, (manager.paged.words region inside).2, ?_⟩
    intro page s aligned above below
    refine manager.mark (List.mem_append_left _ ?_)
    exact (mem_allocatedPages manager.paged).mpr
      ⟨aligned, region, inside, isAllocated, MemoryRegion.mem_bytes.mpr ⟨above, below⟩⟩
  rw [same, Option.bind_some]
  exact markPages_join (Marked (setUpPhysmap table ptr s₀)) alignedStop word
    (fun aligned above below => manager.mark (List.mem_append_right _
      ((mem_managerPages manager.paged manager.found).mpr ⟨aligned, above, below⟩)))
    pageFuel alignedStart (Nat.le_refl _) marked own

end Backed

end Tables

/-- Where the mapper gives the manager its pages, and the marks stay in the bitmap,
`init_memory_manager` comes back; the frames of these pages hold what the model with a
memory of their own says, and behind the mapper no other byte is written. -/
theorem initMemoryManager_join {kernEnd ptr : Nat} {bootinfo : SampoBootinfo}
    {s mapped : KernelState} (manager : ManagerMapped kernEnd bootinfo s ptr mapped)
    (ready : ManagerBacked bootinfo.memoryRegions ptr mapped) :
    ∃ after, initMemoryManager kernEnd bootinfo s = some after ∧
      Marked (setUpPhysmap bootinfo.memoryRegions ptr mapped) after ∧
      Paged.initMemoryManager kernEnd bootinfo s =
        some (join (managerRun ptr bootinfo.memoryRegions) mapped.virtual after) := by
  obtain ⟨started, start, pages⟩ := Option.bind_eq_some_iff.mp manager.runs
  have found := manager.found
  obtain ⟨after, ran⟩ : ∃ after, initMemoryManager kernEnd bootinfo s = some after :=
    ⟨_, initMemoryManager_eq ready.paged manager⟩
  refine ⟨after, ran, ?_⟩
  rw [managerAddr, managerPageCount] at found pages
  simp only [initMemoryManager, Paged.initMemoryManager, start, Option.bind_eq_bind,
    Option.bind_some, if_neg found, pages] at ran ⊢
  obtain ⟨next, allocated, own⟩ := Option.bind_eq_some_iff.mp ran
  exact ready.marks allocated own

end SampoOS.Kernel
