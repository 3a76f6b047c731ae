/-
Module: SampoOS.Handover.KernelSpace
Purpose: The kernel's address space over its initialisation: what is mapped stays
  mapped, and the pages of the memory manager come on top.
Trusted boundary: none
Main exports: RunMapped, virtMapPages_space, startManager_slotted, RunMapped.backed,
  ManagerReady, ManagerInstalled, initMemoryManager_space, managerMapped_of_free
-/
import SampoOS.Handover.BootedTable
import SampoOS.Handover.MappingAgreement
import SampoOS.Kernel.PagedRefinement
import SampoOS.Lib.SlottedTree

namespace SampoOS

open ByteMemory (Memory storeLe storeLe_outside)
open Paging
open Kickstart Kernel

/-! ## A run of the mapper -/

/-- The pages from `start` on, mapped in order to the frames from `physAddr` on,
and no other page. -/
structure RunMapped (start physAddr perms count : Nat)
    (space space' : AddressSpace) : Prop where
  unmapped : ∀ i < count, space (pageNumber (start + 4096 * i)) = none
  added : ∀ i < count, space' (pageNumber (start + 4096 * i)) =
    some (requestedMapping (physAddr + 4096 * i) perms)
  kept : ∀ page, (∀ i < count, page ≠ pageNumber (start + 4096 * i)) →
    space' page = space page

namespace RunMapped

variable {start physAddr perms count : Nat} {space space' : AddressSpace}

theorem zero (start physAddr perms : Nat) (space : AddressSpace) :
    RunMapped start physAddr perms 0 space space :=
  ⟨fun _ below => absurd below (Nat.not_lt_zero _),
    fun _ below => absurd below (Nat.not_lt_zero _), fun _ _ => rfl⟩

/-- No mapping is lost. -/
theorem keeps (run : RunMapped start physAddr perms count space space') {page : Nat}
    {mapping : PageMapping} (mapped : space page = some mapping) :
    space' page = some mapping := by
  rw [run.kept page, mapped]
  rintro i below rfl
  rw [run.unmapped i below] at mapped
  cases mapped

/-- Every mapping is an old one or one of the run. -/
theorem cases (run : RunMapped start physAddr perms count space space') {page : Nat}
    {mapping : PageMapping} (mapped : space' page = some mapping) :
    space page = some mapping ∨ ∃ i < count, page = pageNumber (start + 4096 * i) ∧
      mapping = requestedMapping (physAddr + 4096 * i) perms := by
  by_cases inRun : ∃ i < count, page = pageNumber (start + 4096 * i)
  · obtain ⟨i, below, rfl⟩ := inRun
    rw [run.added i below] at mapped
    exact Or.inr ⟨i, below, rfl, (Option.some.inj mapped).symm⟩
  · refine Or.inl ?_
    rw [← run.kept page fun i below same => inRun ⟨i, below, same⟩]
    exact mapped

/-- Where a run starts matters only up to wrapping around. -/
theorem wrapped (run : RunMapped (start % 2 ^ 64) physAddr perms count space space') :
    RunMapped start physAddr perms count space space' := by
  have same : ∀ i, pageNumber (start % 2 ^ 64 + 4096 * i) =
      pageNumber (start + 4096 * i) := by
    intro i
    rw [pageNumber, pageNumber]
    omega
  have unmapped := run.unmapped
  have added := run.added
  have kept := run.kept
  simp only [same] at unmapped added kept
  exact ⟨unmapped, added, kept⟩

/-- A page mapped in front of a run. -/
theorem cons (others : ∀ i < count, pageNumber (start + 4096 * (i + 1)) ≠
      pageNumber start) (free : space (pageNumber start) = none)
    (rest : RunMapped (start + 4096) (physAddr + 4096) perms count
      (Function.update space (pageNumber start)
        (some (requestedMapping physAddr perms))) space') :
    RunMapped start physAddr perms (count + 1) space space' := by
  have next : ∀ base i : Nat, base + 4096 + 4096 * i = base + 4096 * (i + 1) := by
    intro base i
    omega
  have unmapped := rest.unmapped
  have added := rest.added
  have kept := rest.kept
  simp only [next] at unmapped added kept
  refine ⟨?_, ?_, ?_⟩
  · intro i below
    cases i with
    | zero => exact free
    | succ i =>
        have old := unmapped i (Nat.lt_of_succ_lt_succ below)
        rwa [Function.update_of_ne (others i (Nat.lt_of_succ_lt_succ below))] at old
  · intro i below
    cases i with
    | zero =>
        rw [Nat.mul_zero, Nat.add_zero, Nat.add_zero,
          kept _ fun i below same => others i below same.symm, Function.update_self]
    | succ i => exact added i (Nat.lt_of_succ_lt_succ below)
  · intro page elsewhere
    have notFirst : page ≠ pageNumber start := elsewhere 0 (Nat.succ_pos _)
    rw [kept page fun i below => elsewhere (i + 1) (Nat.succ_lt_succ below),
      Function.update_of_ne notFirst]

end RunMapped

/-- Wrapping around does not change the page. -/
theorem pageNumber_runAddr (s : KernelState) (i : Nat) :
    pageNumber (runAddr s i) = pageNumber (s.kernelEndAddr + 4096 * i) := by
  rw [runAddr, pageSize, pageNumber, pageNumber]
  omega

theorem outsideSlot_iff (addr : Nat) :
    OutsideSlot fractalMapPml4Idx (pageNumber addr) ↔ OutsideWindow addr := by
  have path := pagePath_pageNumber addr
  rw [pagePath, List.cons.injEq] at path
  rw [OutsideSlot, OutsideWindow, path.1]

section Run

variable {tables : Tables}

/-- One turn of the mapper maps its page. -/
theorem virtMapPage_space {physAddr perms : Nat} {s s' : KernelState}
    {space : AddressSpace}
    (slotted : SlottedTree s.physical s.root fractalMapPml4Idx tables space)
    (outside : OutsideWindow s.kernelEndAddr) (aligned : 4096 ∣ physAddr)
    (low : physAddr < 2 ^ 52)
    (ran : virtMapPage physAddr perms s = some (true, s')) :
    ∃ location, s' = mapAt location (pageTableEntry physAddr perms) s ∧
      (∀ x, location ≤ x → x < location + 8 → x ∈ tableBytes tables) ∧
      space (pageNumber s.kernelEndAddr) = none ∧
      SlottedTree s'.physical s.root fractalMapPml4Idx tables
        (Function.update space (pageNumber s.kernelEndAddr)
          (some (requestedMapping physAddr perms))) := by
  obtain ⟨table, reached, free, rfl⟩ :=
    (virtMapPage_mapped_iff slotted.recursiveTree.toRecursiveSlot).mp ran
  rw [slotted.reach_eq outside.treePath] at reached
  have isPath : pagePath (pageNumber s.kernelEndAddr) =
      pageTablePath s.kernelEndAddr ++ [tableIndex 0 s.kernelEndAddr] :=
    (pageTablePath_append s.kernelEndAddr).symm
  have word := pageNumber_lt s.kernelEndAddr
  refine ⟨_, rfl, fun x start stop =>
    PageTree.entry_subset reached (tableIndex_lt 0 _) start stop, ?_, ?_⟩
  · exact (slotted.free_iff reached isPath word
      ((outsideSlot_iff _).mpr outside)).mp free
  · rw [mapAt_physical, pageTableEntry_eq_pageEntry]
    exact slotted.setEntry reached isPath word (pageEntry_maps aligned low)

/-- At this page the mapper refuses whatever it is asked to map. -/
def Stuck (s : KernelState) : Prop :=
  ∀ physAddr perms, virtMapPage physAddr perms s = some (false, s)

/-- A turn that refuses does so because of the page tables alone. -/
theorem virtMapPage_stuck {physAddr perms : Nat} {s s' : KernelState}
    (ran : virtMapPage physAddr perms s = some (false, s')) : s' = s ∧ Stuck s := by
  have same : s' = s := by
    rcases virtMapPage_cases ran with ⟨_, same, _⟩ | ⟨isMapped, _⟩
    · exact same
    · cases isMapped
  refine ⟨same, fun otherAddr otherPerms => ?_⟩
  rw [virtMapPage] at ran ⊢
  obtain ⟨pml4e, pml4Read, ran⟩ := Option.bind_eq_some_iff.mp ran
  rw [pml4Read, Option.bind_some]
  split at ran
  next absent => rw [if_pos absent]
  next present =>
    rw [if_neg present]
    simp only [Option.bind_eq_bind, Option.bind_eq_some_iff] at ran ⊢
    obtain ⟨pdpe, pdpeRead, pde, pdeRead, pte, pteRead, ran⟩ := ran
    refine ⟨pdpe, pdpeRead, pde, pdeRead, pte, pteRead, ?_⟩
    split at ran
    next taken => rw [if_pos taken, Option.pure_def]
    next =>
      simp only [Option.pure_def, Option.bind_eq_some_iff, Option.some.injEq,
        Prod.mk.injEq] at ran
      obtain ⟨_, _, isMapped, _⟩ := ran
      cases isMapped

/-- The loop of the mapper maps its pages in order, as far as it comes, and writes
only page tables. -/
theorem virtMapPages_space (perms count : Nat) :
    ∀ {physAddr : Nat} {s s' : KernelState} {mapped : Bool} {space : AddressSpace},
      s.kernelEndAddr < 2 ^ 64 →
      SlottedTree s.physical s.root fractalMapPml4Idx tables space →
      (∀ i < count, OutsideWindow (runAddr s i)) →
      4096 ∣ physAddr → physAddr + 4096 * count ≤ 2 ^ 52 →
      virtMapPages perms count physAddr s = some (mapped, s') →
      ∃ n space', n ≤ count ∧
        (mapped = true ∧ n = count ∨ mapped = false ∧ n < count ∧ Stuck s') ∧
        RunMapped s.kernelEndAddr physAddr perms n space space' ∧
        s'.kernelEndAddr = (s.kernelEndAddr + 4096 * n) % 2 ^ 64 ∧
        SlottedTree s'.physical s.root fractalMapPml4Idx tables space' ∧
        s'.root = s.root ∧
        ∀ x, x ∉ tableBytes tables → s'.physical x = s.physical x := by
  induction count with
  | zero =>
      intro physAddr s s' mapped space word slotted _ _ _ ran
      simp only [virtMapPages, Option.some.injEq, Prod.mk.injEq] at ran
      obtain ⟨rfl, rfl⟩ := ran
      exact ⟨0, space, Nat.le_refl 0, Or.inl ⟨rfl, rfl⟩, RunMapped.zero _ _ _ _,
        (Nat.mod_eq_of_lt word).symm, slotted, rfl, fun _ _ => rfl⟩
  | succ count inductionHypothesis =>
      intro physAddr s s' mapped space word slotted outside aligned low ran
      rw [virtMapPages] at ran
      obtain ⟨⟨first, next⟩, page, others⟩ := Option.bind_eq_some_iff.mp ran
      cases first with
      | false =>
          simp only [Bool.false_eq_true, if_false, Option.some.injEq,
            Prod.mk.injEq] at others
          obtain ⟨rfl, rfl⟩ := others
          obtain ⟨rfl, stuck⟩ := virtMapPage_stuck page
          exact ⟨0, space, Nat.zero_le _, Or.inr ⟨rfl, Nat.succ_pos _, stuck⟩,
            RunMapped.zero _ _ _ _, (Nat.mod_eq_of_lt word).symm, slotted, rfl,
            fun _ _ => rfl⟩
      | true =>
          have startOutside := outside 0 (Nat.succ_pos _)
          rw [runAddr_zero word] at startOutside
          obtain ⟨location, rfl, inTables, free, slotted'⟩ :=
            virtMapPage_space slotted startOutside aligned (by omega) page
          have frame : (physAddr + pageSize) % 2 ^ 64 = physAddr + 4096 := by
            rw [pageSize]
            omega
          simp only [if_true, frame] at others
          obtain ⟨n, space', fewer, outcome, rest, kernelEnd, slotted'', root, kept⟩ :=
            inductionHypothesis (s := mapAt location (pageTableEntry physAddr perms) s)
              (Nat.mod_lt _ (by decide)) slotted'
              (fun i below => by
                rw [runAddr_mapAt]
                exact outside (i + 1) (Nat.succ_lt_succ below))
              (Nat.dvd_add aligned (Nat.dvd_refl _)) (by omega) others
          have different : ∀ i < n, pageNumber (s.kernelEndAddr + 4096 * (i + 1)) ≠
              pageNumber s.kernelEndAddr := by
            intro i below
            have apart := pageNumber_runAddr_ne outside (Nat.succ_pos i)
              (Nat.succ_lt_succ (Nat.lt_of_lt_of_le below fewer))
            rwa [pageNumber_runAddr, runAddr_zero word] at apart
          refine ⟨n + 1, space', by omega, ?_,
            RunMapped.cons different free (rest.wrapped), ?_, slotted'', root, ?_⟩
          · rcases outcome with ⟨all, length⟩ | ⟨failed, shorter, stuck⟩
            · exact Or.inl ⟨all, by rw [length]⟩
            · exact Or.inr ⟨failed, Nat.succ_lt_succ shorter, stuck⟩
          · rw [kernelEnd, mapAt_kernelEndAddr, pageSize]
            omega
          · intro x outsideTables
            rw [kept x outsideTables, mapAt_physical]
            exact storeLe_outside (by
              by_contra inside
              exact outsideTables (inTables x (by omega) (by omega)))

end Run

/-! ## Where the manager lies -/

namespace HandoverInvariant

variable {table : RegionTable}

theorem managerPageCount_le (invariant : HandoverInvariant table) :
    managerPageCount table ≤ 2 ^ 50 := by
  have counts := invariant.bootTable.regionCounts_eq
  have groups := (grouped table).length_le
  have short := invariant.short
  rw [memoryRegionsLength] at short
  have bits : ((combinedRegions 0 table).map CombinedRegion.bits).sum % 2 ^ 64 <
      2 ^ 64 := Nat.mod_lt _ (Nat.two_pow_pos 64)
  rw [managerPageCount, RegionCounts.physManagerPageCount, RegionCounts.bitmapPageCount,
    RegionCounts.regionsPageCount, counts, pageSize, physmemRegionSize]
  dsimp only
  omega

/-- The manager's pages lie in an available region, which they do not overrun. -/
theorem manager_region (invariant : HandoverInvariant table)
    (found : managerAddr table ≠ 0) :
    ∃ region ∈ table, region.type = .available ∧
      region.addrStart = managerAddr table ∧ 4096 ∣ managerAddr table ∧
      managerAddr table + 4096 * managerPageCount table ≤ region.addrEnd ∧
      region.addrEnd ≤ 2 ^ 52 := by
  obtain ⟨region, inside, available, start, stop⟩ := managerAddr_region found
  have bounds := invariant.bounded region inside
  have aligned := (invariant.keeps.aligned region inside available).1
  have pages := invariant.managerPageCount_le
  rw [start] at aligned bounds
  refine ⟨region, inside, available, start, aligned, ?_, bounds.2⟩
  have length : managerPageCount table * pageSize % 2 ^ 64 =
      4096 * managerPageCount table := by
    rw [pageSize, Nat.mul_comm]
    exact Nat.mod_eq_of_lt (by omega)
  rw [length, Nat.mod_eq_of_lt (by omega)] at stop
  exact stop

theorem manager_available (invariant : HandoverInvariant table)
    (found : managerAddr table ≠ 0) :
    Set.Ico (managerAddr table)
        (managerAddr table + 4096 * managerPageCount table) ⊆
      availableBytes table := by
  obtain ⟨region, inside, available, start, _, stop, _⟩ :=
    invariant.manager_region found
  intro x inPages
  rw [Set.mem_Ico] at inPages
  refine ⟨region, inside, available, ?_⟩
  rw [MemoryRegion.mem_bytes]
  omega

end HandoverInvariant

/-! ## The initialisation -/

/-- The entry of the fractal mapping is one of a writable page. -/
theorem fractalEntry_eq (root : Nat) :
    nxBit ||| root ||| pageWritable ||| pagePresent =
      pageEntry root (virtMapRead ||| virtMapWrite) := by
  have isWritten : (virtMapRead ||| virtMapWrite) &&& pagePermWrite ≠ 0 := by decide
  have notRun : (virtMapRead ||| virtMapWrite) &&& pagePermExec = 0 := by decide
  have flags : pageWritable ||| pagePresent = 0x1 ||| 0x2 := by decide
  rw [pageEntry, if_pos isWritten, if_pos notRun, Nat.or_assoc (nxBit ||| root), flags,
    Nat.or_comm nxBit, Nat.or_assoc, Nat.or_comm nxBit, ← Nat.or_assoc,
    ← Nat.or_assoc, nxBit]

section Init

variable {tables : Tables} {space : AddressSpace} {s : KernelState}
  {bootinfo : SampoBootinfo}

/-- Where the root is mapped to itself, the fractal mapping is entered into it. -/
theorem startManager_slotted (kernEnd : Nat)
    (tree : PageTree s.physical tables space) (isRoot : tables [] = some s.root)
    (pointer : bootinfo.bootstrapPagingStructurePtr = s.root) (low : s.root < 2 ^ 52)
    (itself : ∃ mapping, space (pageNumber s.root) = some mapping ∧
      mapping.frame = s.root) :
    ∃ started, startManager kernEnd bootinfo s = some started ∧
      started.kernelEndAddr = BitFields.alignUp 64 12 kernEnd ∧
      started.root = s.root ∧
      SlottedTree started.physical s.root fractalMapPml4Idx tables space ∧
      ∀ x, x ∉ tableBytes tables → started.physical x = s.physical x := by
  have aligned := tree.aligned isRoot
  obtain ⟨mapping, mapped, frame⟩ := itself
  have address : (s.root + 8 * fractalMapPml4Idx) % 2 ^ 64 = s.root + 4080 := by
    rw [fractalMapPml4Idx]
    omega
  have samePage : pageNumber (s.root + 4080) = pageNumber s.root := by
    rw [pageNumber, pageNumber]
    omega
  have offset : (s.root + 4080) % 4096 = 8 * fractalMapPml4Idx := by
    rw [fractalMapPml4Idx]
    omega
  have location : translate s.physical s.root (s.root + 4080) =
      some (s.root + 8 * fractalMapPml4Idx) := by
    rw [Paging.translate, tree.translatePage_eq isRoot, samePage, mapped, Option.map_some,
      frame, offset]
  rw [startManager, pointer, address, writeVirtual, location, Option.map_some]
  have maps : Maps (pageEntry s.root (virtMapRead ||| virtMapWrite) % 256 ^ 8) _ :=
    pageEntry_maps aligned low
  refine ⟨_, rfl, rfl, rfl, ?_, ?_⟩
  · dsimp only
    rw [fractalEntry_eq]
    exact SlottedTree.of_store tree isRoot (by decide) maps.present maps.frame
  · intro x outside
    refine storeLe_outside ?_
    by_contra inside
    exact outside (PageTree.entry_subset isRoot (by decide : fractalMapPml4Idx < 512)
      (by omega) (by omega))

/-- The mapper has been able to map all pages, one behind the other. -/
theorem managerMapped_run {kernEnd ptr : Nat} {started mapped : KernelState}
    (manager : ManagerMapped kernEnd bootinfo s ptr mapped) (notNull : ptr ≠ 0)
    (start : startManager kernEnd bootinfo s = some started) :
    ptr = started.kernelEndAddr ∧
      virtMapPages (virtMapRead ||| virtMapWrite)
        (managerPageCount bootinfo.memoryRegions) (managerAddr bootinfo.memoryRegions)
        started = some (true, mapped) := by
  have ran := manager.runs
  rw [start, Option.bind_some, virtMapPagesKernelEnd, Option.map_eq_some_iff] at ran
  obtain ⟨⟨isMapped, last⟩, run, same⟩ := ran
  simp only [Prod.mk.injEq] at same
  obtain ⟨isPtr, rfl⟩ := same
  cases isMapped with
  | false => exact absurd isPtr.symm notNull
  | true => exact ⟨isPtr.symm, run⟩

/-- The frames behind the manager's pages. -/
theorem managerRun_frames (ptr : Nat) (table : RegionTable) :
    (managerRun ptr table).frames = Set.Ico (managerAddr table)
      (managerAddr table + 4096 * managerPageCount table) := by
  rw [PageRun.frames, managerRun, pageSize, Nat.mul_comm]

/-- A run of the mapper does not wrap around to a page that is mapped already. -/
theorem RunMapped.fits {start physAddr perms n : Nat} {space' : AddressSpace}
    (run : RunMapped start physAddr perms n space space') (zero : space 0 ≠ none)
    (aligned : 4096 ∣ start) (word : start < 2 ^ 64) : start + 4096 * n ≤ 2 ^ 64 := by
  by_contra wraps
  refine zero ?_
  have unmapped := run.unmapped ((2 ^ 64 - start) / 4096) (by omega)
  rwa [show pageNumber (start + 4096 * ((2 ^ 64 - start) / 4096)) = 0 by
    rw [pageNumber]
    omega] at unmapped

/-- A run of the mapper is backed by its frames, where these hold no page table. -/
theorem RunMapped.backed {table : RegionTable} {ptr root : Nat} {m : Memory}
    {space' : AddressSpace}
    (run : RunMapped ptr (managerAddr table) (virtMapRead ||| virtMapWrite)
      (managerPageCount table) space space')
    (slotted : SlottedTree m root fractalMapPml4Idx tables space')
    (aligned : 4096 ∣ ptr) (fits : ptr + managerPageCount table * pageSize ≤ 2 ^ 64)
    (outside : ∀ i < managerPageCount table, OutsideWindow ((ptr + 4096 * i) % 2 ^ 64))
    (canonical : ∀ i < managerPageCount table, Canonical ((ptr + 4096 * i) % 2 ^ 64))
    (apart : Disjoint (tableBytes tables) (managerRun ptr table).frames) :
    (managerRun ptr table).Backed m root := by
  rw [pageSize] at fits
  have page : ∀ i < managerPageCount table * 4096, i / 4096 < managerPageCount table ∧
      (ptr + 4096 * (i / 4096)) % 2 ^ 64 = ptr + 4096 * (i / 4096) ∧
      pageNumber (ptr + i) = pageNumber (ptr + 4096 * (i / 4096)) := by
    intro i below
    refine ⟨by omega, by omega, ?_⟩
    rw [pageNumber, pageNumber]
    omega
  constructor
  · intro i below
    obtain ⟨inPages, word, _⟩ := page i below
    have isCanonical := canonical _ inPages
    rw [word, Canonical] at isCanonical
    rw [Canonical, managerRun]
    dsimp only
    omega
  · intro own i below
    obtain ⟨inPages, word, same⟩ := page i below
    have tree : SlottedTree ((managerRun ptr table).overlay m own) root
        fractalMapPml4Idx tables space' := slotted.congr fun x inTables =>
      PageRun.overlay_outside (Set.disjoint_left.mp apart inTables)
    have outsideWindow := outside _ inPages
    rw [word, ← outsideSlot_iff, ← same] at outsideWindow
    refine ⟨_, (tree.translatePage_eq outsideWindow).trans
      (same.symm ▸ run.added _ inPages), ?_, ?_⟩
    · rfl
    · rw [requestedMapping, managerRun]
      dsimp only
      omega

/-- The pages that the manager gets: all that it asks for, or none where it finds no
region for them. -/
def mappedPages (table : RegionTable) : Nat :=
  if managerAddr table = 0 then 0 else managerPageCount table

/-- Their frames. -/
def managerFrames (table : RegionTable) : Set Nat :=
  Set.Ico (managerAddr table) (managerAddr table + 4096 * mappedPages table)

/-- What the kernel relies on when it sets up its memory manager: there is no physmap
yet, the pages behind the kernel are canonical, are not those of the fractal mapping
and can be mapped, and the marks stay in the bitmap. -/
structure ManagerReady (kernEnd : Nat) (bootinfo : SampoBootinfo) (s : KernelState) :
    Prop where
  fresh : s.physmemLen = 0
  outside : ∀ i < managerPageCount bootinfo.memoryRegions,
    OutsideWindow ((BitFields.alignUp 64 12 kernEnd + 4096 * i) % 2 ^ 64)
  canonical : ∀ i < managerPageCount bootinfo.memoryRegions,
    Canonical ((BitFields.alignUp 64 12 kernEnd + 4096 * i) % 2 ^ 64)
  maps : managerAddr bootinfo.memoryRegions ≠ 0 →
    ∃ ptr mapped, ManagerMapped kernEnd bootinfo s ptr mapped ∧ ptr ≠ 0
  inBitmap : MarksInBitmap bootinfo.memoryRegions

/-- What the initialisation has made of an address space: the pages of the memory
manager are mapped at the end of the kernel and hold the physmap, every other mapping
is as it was, and only page tables and the manager's pages were written. -/
structure ManagerInstalled (kernEnd : Nat) (table : RegionTable) (tables : Tables)
    (space : AddressSpace) (s after : KernelState) (space' : AddressSpace) :
    Prop where
  run : RunMapped (BitFields.alignUp 64 12 kernEnd) (managerAddr table)
    (virtMapRead ||| virtMapWrite) (mappedPages table) space space'
  kernelEnd : after.kernelEndAddr =
    (BitFields.alignUp 64 12 kernEnd + 4096 * mappedPages table) % 2 ^ 64
  tree : SlottedTree after.physical s.root fractalMapPml4Idx tables space'
  root : after.root = s.root
  physmap : managerAddr table ≠ 0 → Paged.physmapOf after =
    some (physmapRegions (BitFields.alignUp 64 12 kernEnd) table)
  untouched : ∀ x, x ∉ tableBytes tables → x ∉ managerFrames table →
    after.physical x = s.physical x

/-- `init_memory_manager` through the page tables comes back, whether it finds a place
for the memory manager or not. -/
theorem initMemoryManager_space {kernEnd : Nat}
    (tree : PageTree s.physical tables space) (isRoot : tables [] = some s.root)
    (pointer : bootinfo.bootstrapPagingStructurePtr = s.root) (low : s.root < 2 ^ 52)
    (itself : ∃ mapping, space (pageNumber s.root) = some mapping ∧
      mapping.frame = s.root)
    (zero : space 0 ≠ none) (handed : CombinableTable bootinfo.memoryRegions)
    (apart : Disjoint (tableBytes tables) (availableBytes bootinfo.memoryRegions))
    (ready : ManagerReady kernEnd bootinfo s) :
    ∃ after space', Paged.initMemoryManager kernEnd bootinfo s = some after ∧
      ManagerInstalled kernEnd bootinfo.memoryRegions tables space s after space' := by
  obtain ⟨started, start, kernelEnd, root, slotted, written⟩ :=
    startManager_slotted kernEnd tree isRoot pointer low itself
  by_cases found : managerAddr bootinfo.memoryRegions = 0
  · have none : mappedPages bootinfo.memoryRegions = 0 := if_pos found
    refine ⟨started, space, ?_, ?_⟩
    · rw [managerAddr, managerPageCount] at found
      simp only [Paged.initMemoryManager, start, Option.bind_eq_bind, Option.bind_some,
        if_pos found]
      rfl
    · refine ⟨none ▸ RunMapped.zero _ _ _ _, ?_, slotted, root,
        fun elsewhere => absurd found elsewhere, fun x outside _ => written x outside⟩
      rw [kernelEnd, none]
      exact (Nat.mod_eq_of_lt (BitFields.alignUp_lt 64 12 kernEnd)).symm
  · have all : mappedPages bootinfo.memoryRegions =
        managerPageCount bootinfo.memoryRegions := if_neg found
    obtain ⟨ptr, mapped, manager, notNull⟩ := ready.maps found
    obtain ⟨isPtr, pages⟩ := managerMapped_run manager notNull start
    obtain ⟨region, _, _, _, alignedAddr, stop, high⟩ := handed.manager_region found
    obtain ⟨alignedPtr, wordPtr⟩ := manager.pointer
    obtain ⟨n, space', _, outcome, run, moved, slotted', root', kept⟩ :=
      virtMapPages_space _ _ (isPtr ▸ wordPtr) (root ▸ slotted) (fun i below => by
        rw [runAddr, kernelEnd]
        exact ready.outside i below) alignedAddr (by omega) pages
    obtain rfl : n = managerPageCount bootinfo.memoryRegions := by simpa using outcome
    rw [kernelEnd] at isPtr moved run
    have fits : ptr + managerPageCount bootinfo.memoryRegions * pageSize ≤ 2 ^ 64 := by
      rw [pageSize, Nat.mul_comm, isPtr]
      exact run.fits zero (isPtr ▸ alignedPtr) (isPtr ▸ wordPtr)
    have tablesApart : Disjoint (tableBytes tables)
        (managerRun ptr bootinfo.memoryRegions).frames :=
      managerRun_frames _ _ ▸ apart.mono_right (handed.manager_available found)
    rw [root] at slotted'
    have slotted'' : SlottedTree mapped.physical mapped.root fractalMapPml4Idx tables
        space' := (root'.trans root).symm ▸ slotted'
    have backed := RunMapped.backed (isPtr ▸ run) slotted'' alignedPtr fits
      (isPtr ▸ ready.outside) (isPtr ▸ ready.canonical) tablesApart
    have manages : ManagerBacked bootinfo.memoryRegions ptr mapped :=
      ⟨handed.paged, handed.keeps.sorted, found, alignedPtr, wordPtr, fits,
        manager.onlyTables.physmemLen.trans ready.fresh, backed, ready.inBitmap⟩
    obtain ⟨after, _, marked, joined⟩ := initMemoryManager_join manager manages
    have same : SamePageTables mapped after :=
      (setUpPhysmap_samePageTables wordPtr).trans marked.tables
    refine ⟨_, space', joined, all.symm ▸ run, ?_, ?_, ?_, fun _ => ?_, ?_⟩
    · exact all.symm ▸ same.kernelEnd.trans moved
    · refine slotted'.congr fun x inTables => ?_
      exact (PageRun.overlay_outside (Set.disjoint_left.mp tablesApart inTables)).trans
        (congrFun same.physical x)
    · exact same.root.trans (root'.trans root)
    · exact isPtr ▸ manages.physmapOf marked
    · intro x outsideTables outsideFrames
      rw [managerFrames, all, ← managerRun_frames ptr] at outsideFrames
      rw [join]
      dsimp only
      rw [PageRun.overlay_outside outsideFrames, same.physical, kept x outsideTables,
        written x outsideTables]

/-- Where the pages at the end of the kernel have page tables but are not mapped,
the manager's pages are mapped. -/
theorem managerMapped_of_free {kernEnd : Nat} (tree : PageTree s.physical tables space)
    (isRoot : tables [] = some s.root)
    (pointer : bootinfo.bootstrapPagingStructurePtr = s.root) (low : s.root < 2 ^ 52)
    (itself : ∃ mapping, space (pageNumber s.root) = some mapping ∧
      mapping.frame = s.root)
    (found : managerAddr bootinfo.memoryRegions ≠ 0)
    (free : ∀ i < managerPageCount bootinfo.memoryRegions,
      OutsideWindow ((BitFields.alignUp 64 12 kernEnd + 4096 * i) % 2 ^ 64) ∧
      (tables (pageTablePath
        ((BitFields.alignUp 64 12 kernEnd + 4096 * i) % 2 ^ 64))).isSome ∧
      space (pageNumber ((BitFields.alignUp 64 12 kernEnd + 4096 * i) % 2 ^ 64)) =
        none) :
    ∃ mapped, ManagerMapped kernEnd bootinfo s (BitFields.alignUp 64 12 kernEnd)
      mapped := by
  obtain ⟨started, start, kernelEnd, root, slotted, _⟩ :=
    startManager_slotted kernEnd tree isRoot pointer low itself
  have address : ∀ i, runAddr started i =
      (BitFields.alignUp 64 12 kernEnd + 4096 * i) % 2 ^ 64 := by
    intro i
    rw [runAddr, kernelEnd, pageSize]
  have freePages : ∀ i < managerPageCount bootinfo.memoryRegions,
      FreePage started.physical started.root (runAddr started i) := by
    intro i below
    obtain ⟨outside, hasTable, unmapped⟩ := free i below
    obtain ⟨table, isTable⟩ := Option.isSome_iff_exists.mp hasTable
    rw [address, root]
    refine ⟨table, (slotted.reach_eq outside.treePath).trans isTable, ?_⟩
    exact (slotted.free_iff isTable (pageTablePath_append _).symm (pageNumber_lt _)
      ((outsideSlot_iff _).mpr outside)).mpr unmapped
  have run : ∃ mapped, virtMapPages (virtMapRead ||| virtMapWrite)
      (managerPageCount bootinfo.memoryRegions) (managerAddr bootinfo.memoryRegions)
      started = some (true, mapped) :=
    (virtMapPages_free_iff _ (kernelEnd ▸ BitFields.alignUp_lt 64 12 kernEnd)
      (root ▸ slotted.recursiveTree) fun i below => by
        rw [address]
        exact (free i below).1).mpr freePages
  obtain ⟨mapped, run⟩ := run
  refine ⟨mapped, found, ?_⟩
  rw [start, Option.bind_some, virtMapPagesKernelEnd, run, Option.map_some, ← kernelEnd]
  rfl

end Init

end SampoOS
