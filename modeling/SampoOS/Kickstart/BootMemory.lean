/-
Module: SampoOS.Kickstart.BootMemory
Purpose: Where a boot writes, and what it maps: the pager and the ELF loader
  touch only the blocks that they were given, and the kernel's address space
  leads nowhere else.
Trusted boundary: Kickstart's own code and static variables lie apart from the
  memory that it hands out.
Main exports: grantedTo, FrameOwned, PagerLedger, PagerLedger.mapPages,
  PagerLedger.loadSegment, kickstartBoot_owns_memory
-/
import SampoOS.Kickstart.BootAccount

namespace SampoOS.Kickstart

open ByteMemory
open Paging

/-! ## What was granted -/

/-- The bytes of the blocks of a type that were given for a list of requests. -/
def grantedTo (history : List (Option MemoryRegion))
    (type : MemoryRegionType) : Set Nat :=
  bytesOfType (grantedBlocks history) type

theorem grantedTo_mono {history later : List (Option MemoryRegion)}
    (grows : history ⊆ later) (type : MemoryRegionType) :
    grantedTo history type ⊆ grantedTo later type := by
  rintro x ⟨block, member, isType, inBlock⟩
  exact ⟨block, mem_grantedBlocks.mpr (grows (mem_grantedBlocks.mp member)), isType,
    inBlock⟩

/-- What was granted to different types shares no byte. -/
theorem MemoryAccount.granted_unavailable {entries : List FirmwareEntry}
    {loaded table : RegionTable} {history : List (Option MemoryRegion)}
    {taken : List MemoryRegion}
    (account : MemoryAccount entries loaded table (grantedBlocks history ++ taken))
    (type : MemoryRegionType) :
    Disjoint (grantedTo history type) (availableBytes table) := by
  rw [account.availableBytes_eq, Set.disjoint_left]
  rintro x ⟨block, member, _, inBlock⟩ ⟨_, free⟩
  exact free ⟨block, List.mem_append_left _ member, inBlock⟩

theorem MemoryAccount.granted_disjoint {entries : List FirmwareEntry}
    {loaded table : RegionTable} {history : List (Option MemoryRegion)}
    {taken : List MemoryRegion}
    (account : MemoryAccount entries loaded table (grantedBlocks history ++ taken))
    {a b : MemoryRegionType} (different : a ≠ b) :
    Disjoint (grantedTo history a) (grantedTo history b) := by
  have inBlocks : ∀ type, grantedTo history type ⊆
      bytesOfType (grantedBlocks history ++ taken) type := by
    rintro type x ⟨block, member, isType, inBlock⟩
    exact ⟨block, List.mem_append_left _ member, isType, inBlock⟩
  exact (account.types_disjoint different).mono (inBlocks a) (inBlocks b)

theorem Allocated.grows {s s' : KickstartState} {count ret : Nat}
    {type : MemoryRegionType} (given : Allocated s count ret type s') :
    s.allocations ⊆ s'.allocations := by
  rw [given.only]
  exact List.subset_append_left _ _

/-- A block is granted by the request that it is given for. -/
theorem Allocated.granted {s s' : KickstartState} {count ret : Nat}
    {type : MemoryRegionType} (given : Allocated s count ret type s') :
    Set.Ico ret (ret + 4096 * count) ⊆ grantedTo s'.allocations type := by
  intro x inBlock
  refine ⟨{ addrStart := ret, addrEnd := ret + 4096 * count, type := type },
    mem_grantedBlocks.mpr ?_, rfl, inBlock⟩
  rw [given.only]
  simp

/-- A frame that a page may be mapped to: its own address in the first 2 MiB, or
a page of a block for the kernel. -/
def FrameOwned (history : List (Option MemoryRegion)) (page : Nat)
    (mapping : PageMapping) : Prop :=
  identitySpace page = some mapping ∨
    Set.Ico mapping.frame (mapping.frame + 4096) ⊆ grantedTo history .kernel

theorem FrameOwned.mono {history later : List (Option MemoryRegion)} {page : Nat}
    {mapping : PageMapping} (grows : history ⊆ later)
    (owned : FrameOwned history page mapping) : FrameOwned later page mapping :=
  owned.imp_right fun inBlocks => inBlocks.trans (grantedTo_mono grows .kernel)

/-! ## The ledger -/

/-- The memory as the boot has changed it: the page tables lie in blocks of their
own, pages are mapped to themselves or to blocks for the kernel, and no byte
outside the blocks differs from `start`. -/
structure PagerLedger (start : Memory) (s : KickstartState) (tables : Tables)
    (space : AddressSpace) : Prop where
  pager : PagerInvariant s tables space
  owned : tableBytes tables ⊆ grantedTo s.allocations .allocated
  frames : ∀ page mapping, space page = some mapping →
    FrameOwned s.allocations page mapping
  untouched : ∀ x, (∀ type, x ∉ grantedTo s.allocations type) →
    s.memory x = start x

namespace PagerLedger

variable {start : Memory} {s s' : KickstartState} {tables : Tables}
  {space : AddressSpace}

/-- Writing to granted blocks, outside the tables. -/
theorem write (ledger : PagerLedger start s tables space)
    (control : SameControl s s')
    (same : ∀ x ∈ tableBytes tables, s'.memory x = s.memory x)
    (inside : ∀ x, (∀ type, x ∉ grantedTo s.allocations type) →
      s'.memory x = s.memory x) : PagerLedger start s' tables space where
  pager := (ledger.pager.congr control same).1
  owned := by
    rw [control.allocations]
    exact ledger.owned
  frames := by
    rw [control.allocations]
    exact ledger.frames
  untouched := by
    rw [control.allocations]
    exact fun x outside => (inside x outside).trans (ledger.untouched x outside)

/-- Messages write nothing. -/
theorem congr (ledger : PagerLedger start s tables space)
    (control : SameControl s s') (memory : s'.memory = s.memory) :
    PagerLedger start s' tables space :=
  ledger.write control (fun _ _ => by rw [memory]) fun _ _ => by rw [memory]

/-- A block that is taken is written later. -/
theorem allocated (ledger : PagerLedger start s tables space) {count ret : Nat}
    {type : MemoryRegionType} (given : Allocated s count ret type s') :
    PagerLedger start s' tables space where
  pager := (ledger.pager.allocated given).1
  owned := ledger.owned.trans (grantedTo_mono given.grows _)
  frames := fun page mapping mapped =>
    (ledger.frames page mapping mapped).mono given.grows
  untouched := by
    intro x outside
    rw [given.memory_eq]
    exact ledger.untouched x fun type inside =>
      outside type (grantedTo_mono given.grows type inside)

section Level

variable {path : List Nat} {table index next : Nat} {given : KickstartState}

/-- A page that becomes a table is one of the blocks for tables. -/
theorem addTable (ledger : PagerLedger start s tables space)
    (found : tables path = some table) (short : path.length < 3)
    (inTable : index < 512) (missing : tables (path ++ [index]) = none)
    (taken : Allocated s 1 next .allocated given) :
    PagerLedger start
      { given with memory := addTable s.memory (table + 8 * index) next }
      (Function.update tables (path ++ [index]) (some next)) space := by
  have kept := ledger.allocated taken
  have low := taken.low
  have granted := taken.granted
  refine ⟨ledger.pager.addTable_invariant found short inTable missing taken, ?_,
    kept.frames, ?_⟩
  · intro x inTables
    rcases PageTree.tableBytes_update_subset tables _ next inTables with old | new
    · exact kept.owned old
    · exact granted new
  · intro x outside
    have outsidePage : ¬ (next ≤ x ∧ x < next + 4096) := fun inPage =>
      outside .allocated (granted ⟨inPage.1, inPage.2⟩)
    have outsideEntry : ¬ (table + 8 * index ≤ x ∧ x < table + 8 * index + 8) :=
      fun inEntry => outside .allocated (kept.owned
        (PageTree.entry_subset found inTable inEntry.1 inEntry.2))
    have untouched := kept.untouched x outside
    rw [taken.memory_eq] at untouched
    dsimp only
    rw [addTable_outside (by omega) outsidePage (by omega), untouched]

/-- One level of `map_page`. -/
theorem nextTable (ledger : PagerLedger start s tables space)
    (found : tables path = some table) (short : path.length < 3)
    (inTable : index < 512) (ran : nextTable table index s = some (next, s'))
    (succeeded : ∀ outcome ∈ s'.allocations, Succeeded outcome) :
    ∃ tables', PagerLedger start s' tables' space ∧
      tables' (path ++ [index]) = some next ∧ Extends s tables s' tables' := by
  cases linked : tables (path ++ [index]) with
  | none =>
      obtain ⟨given, taken, rfl⟩ := ledger.pager.nextTable_allocates found short
        inTable linked ran succeeded
      exact ⟨_, ledger.addTable found short inTable linked taken,
        Function.update_self _ _ _,
        PagerInvariant.addTable_extends found inTable linked taken⟩
  | some existing =>
      rw [ledger.pager.nextTable_existing found short inTable linked,
        Option.some.injEq, Prod.mk.injEq] at ran
      obtain ⟨rfl, rfl⟩ := ran
      exact ⟨tables, ledger, linked, Extends.refl s tables⟩

/-- The end of `map_page` writes at most its entry. -/
theorem mapEntry (ledger : PagerLedger start s tables space)
    {page physAddr virtAddr permFlags : Nat} (found : tables path = some table)
    (isPath : pagePath page = path ++ [index]) (word : page < 2 ^ 36)
    (aligned : 4096 ∣ physAddr) (low : physAddr < 2 ^ 52)
    (owned : FrameOwned s.allocations page (requestedMapping physAddr permFlags)) :
    PagerLedger start (mapEntry table index physAddr virtAddr permFlags s) tables
        (space.mapFirst page (requestedMapping physAddr permFlags)) ∧
      Extends s tables (Kickstart.mapEntry table index physAddr virtAddr permFlags s)
        tables := by
  obtain ⟨pager, extends'⟩ := ledger.pager.mapEntry_spec virtAddr permFlags found
    isPath word aligned low
  have control := mapEntry_sameControl table index physAddr virtAddr permFlags s
  refine ⟨⟨pager, ?_, ?_, ?_⟩, extends'⟩
  · rw [control.allocations]
    exact ledger.owned
  · intro other mapping mapped
    rw [control.allocations]
    rw [AddressSpace.mapFirst_apply, Option.or_eq_some_iff] at mapped
    rcases mapped with old | ⟨_, new⟩
    · exact ledger.frames other mapping old
    · split at new
      next same =>
        rw [same, ← Option.some.inj new]
        exact owned
      · cases new
  · intro x outside
    rw [control.allocations] at outside
    have lowTable := ledger.pager.low found
    have inTable := pagePath_last_lt isPath
    have outsideEntry : ¬ (table + 8 * index ≤ x ∧ x < table + 8 * index + 8) :=
      fun inEntry => outside .allocated (ledger.owned
        (PageTree.entry_subset found inTable inEntry.1 inEntry.2))
    have pointer : (table + 0x08 * index) % 2 ^ 32 = table + 8 * index :=
      Nat.mod_eq_of_lt (by omega)
    simp only [Kickstart.mapEntry, pointer]
    split
    · exact ledger.untouched x outside
    · exact (storeLe_outside (by omega)).trans (ledger.untouched x outside)

end Level

/-! ## Runs of the pager -/

/-- `map_page` for a frame that the page may have. -/
theorem mapPage (ledger : PagerLedger start s tables space)
    {physAddr virtAddr permFlags : Nat} (aligned : 4096 ∣ physAddr)
    (low : physAddr < 2 ^ 52)
    (owned : FrameOwned s.allocations (pageNumber virtAddr)
      (requestedMapping physAddr permFlags))
    (ran : mapPage physAddr virtAddr permFlags s = some s')
    (succeeded : ∀ outcome ∈ s'.allocations, Succeeded outcome) :
    ∃ tables', PagerLedger start s' tables'
        (space.mapFirst (pageNumber virtAddr)
          (requestedMapping physAddr permFlags)) ∧
      Extends s tables s' tables' := by
  obtain ⟨pdpAddr, s₁, pdAddr, s₂, ptAddr, s₃, first, second, third, rfl⟩ :=
    (mapPage_eq_some ledger.pager.wide).mp ran
  rw [(mapEntry_sameControl _ _ _ _ _ _).allocations] at succeeded
  have grows₃ := nextTable_allocations third
  have grows₂ := nextTable_allocations second
  have grows₁ := nextTable_allocations first
  obtain ⟨tables₁, ledger₁, found₁, extends₁⟩ := ledger.nextTable ledger.pager.root
    (by decide) (tableIndex_lt 3 virtAddr) first
    fun outcome inside => succeeded outcome (grows₃ (grows₂ inside))
  obtain ⟨tables₂, ledger₂, found₂, extends₂⟩ := ledger₁.nextTable found₁ (by simp)
    (tableIndex_lt 2 virtAddr) second
    fun outcome inside => succeeded outcome (grows₃ inside)
  obtain ⟨tables₃, ledger₃, found₃, extends₃⟩ := ledger₂.nextTable found₂ (by simp)
    (tableIndex_lt 1 virtAddr) third succeeded
  have grows : s.allocations ⊆ s₃.allocations :=
    List.Subset.trans grows₁ (List.Subset.trans grows₂ grows₃)
  obtain ⟨ledger₄, extends₄⟩ := ledger₃.mapEntry found₃
    (pagePath_pageNumber virtAddr) (pageNumber_lt virtAddr) aligned low
    (owned.mono grows)
  exact ⟨tables₃, ledger₄,
    ((extends₁.trans extends₂).trans extends₃).trans extends₄⟩

/-- A call of `map_page` for a frame that its page may have. -/
structure CallOwned (history : List (Option MemoryRegion)) (call : MapCall) :
    Prop where
  aligned : 4096 ∣ call.physAddr
  low : call.physAddr < 2 ^ 52
  owned : FrameOwned history (pageNumber call.virtAddr)
    (requestedMapping call.physAddr call.permFlags)

theorem mapPages {calls : List MapCall} : ∀ {s s' : KickstartState}
    {tables : Tables} {space : AddressSpace}, PagerLedger start s tables space →
    (∀ call ∈ calls, CallOwned s.allocations call) →
    mapPages calls s = some s' →
    (∀ outcome ∈ s'.allocations, Succeeded outcome) →
    ∃ tables', PagerLedger start s' tables' (mapCalls calls space) ∧
      Extends s tables s' tables' := by
  induction calls with
  | nil =>
      intro s s' tables space ledger _ ran _
      simp only [Kickstart.mapPages, List.foldlM_nil, Option.pure_def,
        Option.some.injEq] at ran
      subst ran
      exact ⟨tables, ledger, Extends.refl s tables⟩
  | cons call calls inductionHypothesis =>
      intro s s' tables space ledger owned ran succeeded
      obtain ⟨s₁, first, rest⟩ := mapPages_cons.mp ran
      have call_owned := owned call List.mem_cons_self
      obtain ⟨tables₁, ledger₁, extends₁⟩ := ledger.mapPage call_owned.aligned
        call_owned.low call_owned.owned first fun outcome inside =>
          succeeded outcome (mapPages_allocations rest inside)
      have grows := mapPage_allocations first
      obtain ⟨tables', ledger', extends'⟩ := inductionHypothesis ledger₁
        (fun other inside => by
          have kept := owned other (List.mem_cons_of_mem _ inside)
          exact ⟨kept.aligned, kept.low, kept.owned.mono grows⟩) rest succeeded
      exact ⟨tables', ledger', extends₁.trans extends'⟩

/-- Every page of the first 2 MiB may be mapped to itself. -/
theorem identityCalls_owned (history : List (Option MemoryRegion)) :
    ∀ call ∈ identityCalls, CallOwned history call := by
  intro call inside
  simp only [identityCalls, List.mem_map, List.mem_range] at inside
  obtain ⟨i, below, rfl⟩ := inside
  refine ⟨Nat.dvd_mul_left _ _, by dsimp only; omega, Or.inl ?_⟩
  dsimp only
  have page : pageNumber (i * 0x1000) = i := by
    rw [pageNumber]
    omega
  rw [page, requestedMapping_all, identitySpace, if_pos below]

/-- `initialize_pager` opens the ledger. -/
theorem initializePager {ready : KickstartState}
    (regions : AvailableInvariant s.memoryRegions)
    (ran : initializePager .bits64 s = some (true, ready))
    (succeeded : ∀ outcome ∈ ready.allocations, Succeeded outcome) :
    ∃ tables, PagerLedger s.memory ready tables identitySpace := by
  obtain ⟨pml4Addr, s₁, given, _, mapped⟩ := initializePager_eq_some.mp ran
  have grows := mapPages_allocations mapped
  rw [linkIdentTables_only] at grows
  have taken : Allocated { s with pageType := .bits64 } 4 pml4Addr .allocated s₁ :=
    allocateRegionWithType_spec regions (by decide) (by decide) (by decide) given
      fun outcome inside => succeeded outcome (grows inside)
  have granted := taken.granted
  have opened : PagerLedger s.memory
      (linkIdentTables pml4Addr { s₁ with topPageStructure := pml4Addr })
      (identTables pml4Addr) fun _ => none := by
    refine ⟨linkIdentTables_spec rfl taken, ?_, ?_, ?_⟩
    · rw [linkIdentTables_only]
      exact tableBytes_identTables.trans granted
    · intro page mapping mapped
      cases mapped
    · rw [linkIdentTables_only]
      intro x outside
      have outsideBlock : ¬ (pml4Addr ≤ x ∧ x < pml4Addr + 0x4000) := fun inBlock =>
        outside .allocated (granted ⟨inBlock.1, inBlock.2⟩)
      dsimp only
      rw [linkIdentTables_outside taken.low (by omega), taken.memory_eq]
  obtain ⟨tables, ledger, _⟩ := opened.mapPages (identityCalls_owned _) mapped
    succeeded
  rw [mapCalls_identityCalls] at ledger
  exact ⟨tables, ledger⟩

/-! ## Loading -/

/-- Every page of a segment may be mapped to its block. -/
theorem wrappedCalls_owned {history : List (Option MemoryRegion)}
    {segmentRegion : Nat} {ph : ProgramHeader} (aligned : 4096 ∣ segmentRegion)
    (low : segmentRegion + 4096 * pageCount ph.memLen ≤ 2 ^ 32)
    (granted : Set.Ico segmentRegion (segmentRegion + 4096 * pageCount ph.memLen) ⊆
      grantedTo history .kernel) :
    ∀ call ∈ wrappedCalls segmentRegion ph, CallOwned history call := by
  intro call inside
  simp only [wrappedCalls, List.mem_map, List.mem_range] at inside
  obtain ⟨i, below, rfl⟩ := inside
  have address : (segmentRegion + i * 0x1000) % 2 ^ 32 = segmentRegion + 4096 * i := by
    omega
  rw [address]
  refine ⟨by dsimp only; omega, by dsimp only; omega, Or.inr (Set.Subset.trans ?_ granted)⟩
  exact Set.Ico_subset_Ico (by simp [requestedMapping]) (by
    simp only [requestedMapping]
    omega)

/-- Loading a segment writes its block, and maps its pages there. -/
theorem loadSegment (ledger : PagerLedger start s tables space) {ph : ProgramHeader}
    (sized : SizedSegment ph) (ran : loadSegment ph s = some (true, s'))
    (succeeded : ∀ outcome ∈ s'.allocations, Succeeded outcome) :
    ∃ tables' space', PagerLedger start s' tables' space' := by
  have bounds := pageCount_bounds sized.notEmpty sized.small
  obtain ⟨s₀, segmentRegion, s₁, s₂, s₃, steps⟩ := loadSegment_eq_some ran
  have pages := pagesNeeded_eq sized.small
  have mapped := steps.mapped
  rw [mapSegment_eq_mapPages, pages] at mapped
  have grows := mapPages_allocations mapped
  rw [steps.copied.allocations] at succeeded
  rw [steps.prepared.allocations] at grows
  have announced := ledger.congr steps.announced steps.memory₀
  have given := steps.given
  rw [pages] at given
  have taken : Allocated s₀ (pageCount ph.memLen) segmentRegion .kernel s₁ :=
    allocateRegionWithType_spec announced.pager.regions bounds.1 bounds.2.1
      (by decide) given fun outcome inside => succeeded outcome (grows inside)
  have low := taken.low
  have granted := taken.granted
  -- The tables lie outside the block, before and after its pages are mapped.
  have apart := (announced.pager.allocated taken).2
  have cleared : ∀ x, s₂.memory x =
      if segmentRegion ≤ x ∧ x < segmentRegion + 4096 * pageCount ph.memLen then 0
      else s₁.memory x := by
    intro x
    rw [steps.memory₂, pages, memset, Nat.mod_eq_of_lt (by omega),
      Nat.mul_comm (pageCount ph.memLen), fill_apply low]
    rfl
  have prepared : PagerLedger start s₂ tables space := by
    refine (announced.allocated taken).write steps.prepared ?_ ?_
    · intro x inTables
      have outside := (apart (Or.inl inTables)).2
      rw [cleared, if_neg fun inBlock => outside ⟨inBlock.1, inBlock.2⟩]
    · intro x outside
      rw [cleared, if_neg fun inBlock =>
        outside .kernel (granted ⟨inBlock.1, inBlock.2⟩)]
  have block : Set.Ico segmentRegion (segmentRegion + 4096 * pageCount ph.memLen) ⊆
      grantedTo s₂.allocations .kernel := by
    rw [steps.prepared.allocations]
    exact granted
  obtain ⟨tables', ledger', extends'⟩ := prepared.mapPages
    (wrappedCalls_owned taken.aligned low block) mapped succeeded
  have grows' := mapPages_allocations mapped
  have claimed : tableBytes tables' ⊆ pagerBytes s₁ tables := by
    rw [show pagerBytes s₁ tables = pagerBytes s₂ tables by
      rw [pagerBytes, pagerBytes, steps.prepared.regions]]
    exact fun x inTables => extends'.claimed (Or.inl inTables)
  have copiedOutside : ∀ x, ¬ (segmentRegion ≤ x ∧
      x < segmentRegion + 4096 * pageCount ph.memLen) → s'.memory x = s₃.memory x := by
    intro x outside
    rw [steps.memory']
    exact memcpy_outside sized.content low outside
  refine ⟨tables', _, ledger'.write steps.copied ?_ ?_⟩
  · exact fun x inTables => copiedOutside x (apart (claimed inTables)).2
  · intro x outside
    refine copiedOutside x fun inBlock => outside .kernel ?_
    exact grantedTo_mono grows' .kernel (block ⟨inBlock.1, inBlock.2⟩)

end PagerLedger

/-! ## A whole boot -/

/-- What the boot has made of the memory: it wrote only blocks that were available
once the images were reserved, the page tables lie in such blocks, and the address
space of the kernel leads to the first 2 MiB or into blocks for the kernel. -/
structure OwnsMemory (reserved : RegionTable) (s : KickstartState)
    (entered : SampoBootinfo) (done : KickstartState) : Prop where
  granted : ∀ block ∈ grantedBlocks done.allocations,
    block ∈ entered.memoryRegions ∧ block.bytes ⊆ availableBytes reserved
  untouched : ∀ x, (∀ block ∈ grantedBlocks done.allocations, x ∉ block.bytes) →
    done.memory x = s.memory x
  tables : ∃ tables space, PageTree done.memory tables space ∧
    tables [] = some entered.bootstrapPagingStructurePtr ∧
    tableBytes tables ⊆ grantedTo done.allocations .allocated
  frames : ∀ v mapping,
    translatePage done.memory entered.bootstrapPagingStructurePtr v = some mapping →
      pageNumber v < 512 ∧ mapping.frame = pageNumber v * 4096 ∨
        Set.Ico mapping.frame (mapping.frame + 4096) ⊆
          grantedTo done.allocations .kernel

section Boot

variable {entries : List FirmwareEntry} {file : Nat → UInt8}
  {s done : KickstartState} {bootinfo entered : SampoBootinfo}
  {kickstartStart kickstartEnd kernelElfLocation kernelElfEnd : Nat}
  {first reserved : RegionTable} {hasLongmode : Bool}

/-- The ledger of a boot. -/
theorem kickstartBoot_ledger
    (inputs : BootInputs entries file s kickstartStart kickstartEnd
      kernelElfLocation kernelElfEnd first reserved)
    (ran : kickstartBoot kickstartStart kickstartEnd hasLongmode
      (some (kernelElfLocation, kernelElfEnd)) bootinfo s =
        some (some entered, done))
    (succeeded : ∀ outcome ∈ done.allocations, Succeeded outcome) :
    ∃ tables space, PagerLedger s.memory done tables space ∧
      entered.bootstrapPagingStructurePtr = done.topPageStructure := by
  obtain ⟨started, ready, loaded, stages⟩ := inputs.stages ran
  rw [stages.printed.allocations] at succeeded
  obtain ⟨tables, opened⟩ := PagerLedger.initializePager stages.read.regions
    stages.paged fun outcome inside =>
      succeeded outcome (elfExpand_allocations stages.expanded inside)
  rw [stages.memory] at opened
  obtain ⟨s₁, _, _, _, ⟨tables', space', ledger⟩, isLoaded⟩ :=
    stages.read.loads_keeping
      (Q := fun s₁ => ∃ tables space, PagerLedger s.memory s₁ tables space)
      inputs.loadable
      (fun below isLoad ran succeeded ⟨_, _, ledger⟩ => ledger.loadSegment
        (inputs.loadable.segments _ below isLoad).sized ran succeeded)
      stages.paged stages.expanded succeeded ⟨tables, _, opened⟩
  have atLoaded : PagerLedger s.memory loaded tables' space' := by
    rw [isLoaded]
    exact ⟨⟨ledger.pager.wide, ledger.pager.regions, ledger.pager.tree,
      ledger.pager.root, ledger.pager.low, ledger.pager.apart⟩, ledger.owned,
      ledger.frames, ledger.untouched⟩
  refine ⟨tables', space', atLoaded.congr stages.printed stages.untouched, ?_⟩
  rw [stages.info]

/-- A boot whose blocks all lie below 4 GiB owns all the memory that it writes and
maps. -/
theorem kickstartBoot_owns_memory
    (inputs : BootInputs entries file s kickstartStart kickstartEnd
      kernelElfLocation kernelElfEnd first reserved)
    (map : FirmwareMap entries) (fresh : s.allocations = [])
    (ran : kickstartBoot kickstartStart kickstartEnd hasLongmode
      (some (kernelElfLocation, kernelElfEnd)) bootinfo s =
        some (some entered, done))
    (succeeded : ∀ outcome ∈ done.allocations, Succeeded outcome) :
    OwnsMemory reserved s entered done := by
  have account := kickstartBoot_account inputs map fresh ran succeeded
  obtain ⟨tables, space, ledger, pointer⟩ := kickstartBoot_ledger inputs ran succeeded
  have walked := ledger.pager.tree.translatePage_eq ledger.pager.root
  refine ⟨?_, ?_, ⟨tables, space, ledger.pager.tree, ?_, ledger.owned⟩, ?_⟩
  · intro block member
    refine ⟨account.recorded block (List.mem_append_left _ member), ?_⟩
    rw [(inputs.account map).availableBytes_eq]
    intro x inBlock
    refine ⟨account.inside block (List.mem_append_left _ member) inBlock, ?_⟩
    rintro ⟨other, isTaken, inOther⟩
    have apart := (List.pairwise_append.mp account.apart).2.2 block member other
      isTaken
    exact MemoryRegion.apart_iff.mp apart x inBlock inOther
  · intro x outside
    refine ledger.untouched x fun type inside => ?_
    obtain ⟨block, member, _, inBlock⟩ := inside
    exact outside block member inBlock
  · rw [pointer]
    exact ledger.pager.root
  · intro v mapping translated
    rw [pointer, walked] at translated
    rcases ledger.frames _ _ translated with identity | owned
    · left
      rw [identitySpace] at identity
      split at identity
      next low => exact ⟨low, by rw [← Option.some.inj identity]⟩
      · cases identity
    · exact Or.inr owned

end Boot

end SampoOS.Kickstart
