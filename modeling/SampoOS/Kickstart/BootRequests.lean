/-
Module: SampoOS.Kickstart.BootRequests
Purpose: The requests for memory that the pager and the ELF loader make: what
  every single request keeps, a whole boot keeps.
Trusted boundary: none
Main exports: RequestInvariant, RequestInvariant.mapPages,
  RequestInvariant.initializePager, RequestInvariant.loadSegment,
  RequestInvariant.elfExpand, kickstartBoot_requests
-/
import SampoOS.Kickstart.Main
import SampoOS.Kickstart.PmmRuns

namespace SampoOS.Kickstart

/-! ## The rule -/

/-- A property of the region table and of the outcomes so far that every request
keeps which the pager or the loader may make and which succeeds. -/
structure RequestInvariant
    (P : RegionTable → List (Option MemoryRegion) → Prop) : Prop where
  allocate : ∀ {table after : RegionTable} {history : List (Option MemoryRegion)}
    {count ret : Nat} {type : MemoryRegionType},
    P table history → (PmmCall.allocate count type).InRange →
    pmmAllocateRegionWithType table count type = some (ret, after) →
    Succeeded (allocatedBlock table count type) →
    P after (history ++ [allocatedBlock table count type])

/-- The property at a state. -/
abbrev HoldsAt (P : RegionTable → List (Option MemoryRegion) → Prop)
    (s : KickstartState) : Prop :=
  P s.memoryRegions s.allocations

namespace RequestInvariant

variable {P : RegionTable → List (Option MemoryRegion) → Prop}
  {s s' : KickstartState}

/-- It is enough that the calls keep the property whose pointer is not `NULL`. -/
theorem of_call
    (keeps : ∀ {table after : RegionTable} {history : List (Option MemoryRegion)}
      {call : PmmCall}, P table history → call.InRange → call.PointerNotNull table →
      call.run table = some after → P after (history ++ [call.carved table])) :
    RequestInvariant P where
  allocate := by
    intro table after history count ret type holds inRange ran succeeded
    have notNull : (PmmCall.allocate count type).PointerNotNull table := by
      intro region chosen
      obtain ⟨block, isBlock, notNull, low, _⟩ := succeeded
      rw [allocatedBlock, Option.mem_def.mp chosen, Option.map_some,
        Option.some.injEq] at isBlock
      subst isBlock
      dsimp only at notNull low
      rw [Nat.mod_eq_of_lt low]
      exact Nat.ne_of_gt notNull
    have ranCall : (PmmCall.allocate count type).run table = some after := by
      rw [PmmCall.run, ran]
      rfl
    exact keeps holds inRange notNull ranCall

/-- Messages and writes to memory do not touch it. -/
theorem congr (control : SameControl s s') (holds : HoldsAt P s) :
    HoldsAt P s' := by
  rw [HoldsAt, control.regions, control.allocations]
  exact holds

theorem request (keeps : RequestInvariant P) {count ret : Nat}
    {type : MemoryRegionType} (inRange : (PmmCall.allocate count type).InRange)
    (ran : allocateRegionWithType count type s = some (ret, s'))
    (succeeded : ∀ outcome ∈ s'.allocations, Succeeded outcome)
    (holds : HoldsAt P s) : HoldsAt P s' := by
  obtain ⟨regions, allocated, rfl⟩ := allocateRegionWithType_cases ran
  exact keeps.allocate holds inRange allocated (succeeded _ (by simp))

end RequestInvariant

/-- The table after requests with these outcomes, one after the other. -/
def replayRequests (table : RegionTable) (history : List (Option MemoryRegion)) :
    Option RegionTable :=
  history.foldlM (fun table outcome => outcome.bind fun block =>
    (pmmAllocateRegionWithType table ((block.addrEnd - block.addrStart) / 4096)
      block.type).map Prod.snd) table

namespace RequestInvariant

variable {P : RegionTable → List (Option MemoryRegion) → Prop}
  {s s' : KickstartState}

/-- The blocks that were given tell what was asked for, and so the table. -/
theorem replays (start : RegionTable) :
    RequestInvariant fun table history => replayRequests start history = some table where
  allocate := by
    intro table after history count ret type holds inRange ran succeeded
    obtain ⟨block, isBlock, _, low, _⟩ := succeeded
    have shape := isBlock
    rw [allocatedBlock, Option.map_eq_some_iff] at shape
    obtain ⟨region, _, rfl⟩ := shape
    have fits := inRange.2.1
    dsimp only at low
    have pages : ((region.addrStart + allocationLength count) % 2 ^ 64 -
        region.addrStart) / 4096 = count := by
      rw [allocationLength_eq fits]
      omega
    rw [replayRequests] at holds ⊢
    rw [List.foldlM_append, holds, isBlock]
    simp only [Option.bind_eq_bind, Option.bind_some, List.foldlM_cons,
      List.foldlM_nil, pages, ran, Option.map_some, Option.pure_def]

/-! ## The pager -/

/-- A level of `map_page` makes at most one request, for one page. -/
theorem nextTable (keeps : RequestInvariant P) {table index next : Nat}
    (ran : nextTable table index s = some (next, s'))
    (succeeded : ∀ outcome ∈ s'.allocations, Succeeded outcome)
    (holds : HoldsAt P s) : HoldsAt P s' := by
  rcases nextTable_cases ran with ⟨_, rfl, _⟩ | ⟨_, s₁, given, rfl⟩
  · exact holds
  · have onePage : (PmmCall.allocate 1 .allocated).InRange := by decide
    have kept : HoldsAt P s₁ := keeps.request onePage given succeeded holds
    exact kept

theorem mapPage (keeps : RequestInvariant P) {physAddr virtAddr permFlags : Nat}
    (ran : mapPage physAddr virtAddr permFlags s = some s')
    (succeeded : ∀ outcome ∈ s'.allocations, Succeeded outcome)
    (holds : HoldsAt P s) : HoldsAt P s' := by
  cases type : s.pageType with
  | bits32 =>
      simp only [Kickstart.mapPage, type, Option.some.injEq] at ran
      exact ran ▸ holds
  | bits64 =>
      obtain ⟨_, s₁, _, s₂, _, s₃, first, second, third, rfl⟩ :=
        (mapPage_eq_some type).mp ran
      have control := mapEntry_sameControl
      rw [(control _ _ _ _ _ _).allocations] at succeeded
      have succeeded₂ : ∀ outcome ∈ s₂.allocations, Succeeded outcome :=
        fun outcome inside => succeeded outcome (nextTable_allocations third inside)
      have succeeded₁ : ∀ outcome ∈ s₁.allocations, Succeeded outcome :=
        fun outcome inside =>
          succeeded₂ outcome (nextTable_allocations second inside)
      have holds₁ := keeps.nextTable first succeeded₁ holds
      have holds₂ := keeps.nextTable second succeeded₂ holds₁
      have holds₃ := keeps.nextTable third succeeded holds₂
      exact congr (control _ _ _ _ _ _) holds₃

theorem mapPages (keeps : RequestInvariant P) {calls : List MapCall} :
    ∀ {s s' : KickstartState}, mapPages calls s = some s' →
      (∀ outcome ∈ s'.allocations, Succeeded outcome) → HoldsAt P s →
      HoldsAt P s' := by
  induction calls with
  | nil =>
      intro s s' ran _ holds
      simp only [Kickstart.mapPages, List.foldlM_nil, Option.pure_def,
        Option.some.injEq] at ran
      exact ran ▸ holds
  | cons call calls inductionHypothesis =>
      intro s s' ran succeeded holds
      obtain ⟨s₁, first, rest⟩ := mapPages_cons.mp ran
      have holds₁ := keeps.mapPage first (fun outcome inside =>
        succeeded outcome (mapPages_allocations rest inside)) holds
      exact inductionHypothesis rest succeeded holds₁

/-- `initialize_pager` requests its four tables, and whatever mapping the first
2 MiB takes. -/
theorem initializePager (keeps : RequestInvariant P)
    (ran : initializePager .bits64 s = some (true, s'))
    (succeeded : ∀ outcome ∈ s'.allocations, Succeeded outcome)
    (holds : HoldsAt P s) : HoldsAt P s' := by
  obtain ⟨pml4Addr, s₁, given, _, mapped⟩ := initializePager_eq_some.mp ran
  have grows := mapPages_allocations mapped
  rw [linkIdentTables_only] at grows
  have fourPages : (PmmCall.allocate 4 .allocated).InRange := by decide
  have holds₁ := keeps.request fourPages given (fun outcome inside =>
    succeeded outcome (grows inside)) holds
  refine keeps.mapPages mapped succeeded ?_
  rw [linkIdentTables_only]
  exact holds₁

/-! ## The loader -/

/-- Loading a segment requests its block, and whatever mapping it takes. -/
theorem loadSegment (keeps : RequestInvariant P) {ph : ProgramHeader}
    (sized : SizedSegment ph) (ran : loadSegment ph s = some (true, s'))
    (succeeded : ∀ outcome ∈ s'.allocations, Succeeded outcome)
    (holds : HoldsAt P s) : HoldsAt P s' := by
  have bounds := pageCount_bounds sized.notEmpty sized.small
  obtain ⟨s₀, segmentRegion, s₁, s₂, s₃, steps⟩ := loadSegment_eq_some ran
  have mapped := steps.mapped
  rw [mapSegment_eq_mapPages] at mapped
  rw [steps.copied.allocations] at succeeded
  have succeeded₁ : ∀ outcome ∈ s₁.allocations, Succeeded outcome := by
    rw [← steps.prepared.allocations]
    exact fun outcome inside =>
      succeeded outcome (mapPages_allocations mapped inside)
  have inRange : (PmmCall.allocate (pagesNeeded ph.memLen) .kernel).InRange := by
    rw [pagesNeeded_eq sized.small]
    exact ⟨bounds.1, bounds.2.1, Or.inr rfl⟩
  have holds₁ := keeps.request inRange steps.given succeeded₁
    (congr steps.announced holds)
  have holds₃ := keeps.mapPages mapped succeeded (congr steps.prepared holds₁)
  exact congr steps.copied holds₃

end RequestInvariant

/-- A loop invariant together with another property that loading a segment
keeps. -/
theorem LoopInvariant.and {file : Nat → UInt8} {base size : Nat} {h : ElfHeader}
    {P : List Nat → KickstartState → Prop} {Q : KickstartState → Prop}
    (keeps : LoopInvariant file base size h P)
    (load : ∀ {s s' i}, i < ElfImage.phNum file →
      (ElfImage.programHeader file i).type = ptLoad →
      loadSegment (ElfImage.programHeader file i) s = some (true, s') →
      (∀ outcome ∈ s'.allocations, Succeeded outcome) → Q s → Q s') :
    LoopInvariant file base size h fun seen s => P seen s ∧ Q s where
  header := fun holds => keeps.header holds.1
  holds := fun holds => keeps.holds holds.1
  skip := fun holds notLoad => ⟨keeps.skip holds.1 notLoad, holds.2⟩
  load := fun holds inFile new below isLoad ran succeeded =>
    ⟨keeps.load holds.1 inFile new below isLoad ran succeeded,
      load below isLoad ran succeeded holds.2⟩

namespace ElfRead

variable {s ready done : KickstartState} {file : Nat → UInt8} {base size : Nat}

/-- What loading a segment keeps, `elf_expand` keeps. -/
theorem loads_keeping (read : ElfRead s file base size)
    (loadable : ElfImage.Loadable file size) {Q : KickstartState → Prop}
    (load : ∀ {s s' i}, i < ElfImage.phNum file →
      (ElfImage.programHeader file i).type = ptLoad →
      loadSegment (ElfImage.programHeader file i) s = some (true, s') →
      (∀ outcome ∈ s'.allocations, Succeeded outcome) → Q s → Q s')
    (paged : initializePager .bits64 s = some (true, ready))
    (expanded : elfExpand ready = some (true, done))
    (succeeded : ∀ outcome ∈ done.allocations, Succeeded outcome)
    (holds : Q ready) :
    ∃ s₁ tables space, LoadInvariant file base size s.header
        ready.topPageStructure (List.range (ElfImage.phNum file)) s₁ tables space ∧
      Q s₁ ∧ done = { s₁ with programEntryPoint := s₁.header.entryPoint } := by
  obtain ⟨tables, invariant⟩ := read.starts paged fun outcome inside =>
    succeeded outcome (elfExpand_allocations expanded inside)
  have describes := read.describes
  obtain ⟨s₁, ran, rfl⟩ := (elfExpand_eq_some
    (by rw [invariant.header, read.wide])).mp expanded
  rw [invariant.header, describes.basePtr, describes.offset,
    describes.count] at ran
  have loop : LoopInvariant file base size s.header fun seen t =>
      (∃ tables space, LoadInvariant file base size s.header
        ready.topPageStructure seen t tables space) ∧ Q t :=
    (LoadInvariant.loop describes loadable read.low).and load
  obtain ⟨⟨tables', space', invariant'⟩, kept⟩ := loop.run describes
    loadable.headed read.low ⟨⟨tables, _, invariant⟩, holds⟩
    (by simp) (by simpa using List.nodup_range) ran succeeded
  exact ⟨s₁, tables', space', invariant', kept, rfl⟩

end ElfRead

/-- What every request keeps, the loop of `elf_expand` keeps. -/
theorem RequestInvariant.elfExpand
    {P : RegionTable → List (Option MemoryRegion) → Prop}
    (keeps : RequestInvariant P) {s ready done : KickstartState}
    {file : Nat → UInt8} {base size : Nat} (read : ElfRead s file base size)
    (loadable : ElfImage.Loadable file size)
    (paged : Kickstart.initializePager .bits64 s = some (true, ready))
    (expanded : Kickstart.elfExpand ready = some (true, done))
    (succeeded : ∀ outcome ∈ done.allocations, Succeeded outcome)
    (holds : HoldsAt P ready) : HoldsAt P done := by
  obtain ⟨s₁, _, _, _, kept, rfl⟩ := read.loads_keeping loadable
    (fun below isLoad ran succeeded holds => keeps.loadSegment
      (loadable.segments _ below isLoad).sized ran succeeded holds)
    paged expanded succeeded holds
  exact kept

/-! ## A boot -/

/-- The stages of a boot that enters the kernel: the module is parsed, the pager
set up in the state `started`, and the segments loaded. -/
structure BootStages (file : Nat → UInt8) (kernelElfLocation kernelElfEnd : Nat)
    (reserved : RegionTable) (bootinfo entered : SampoBootinfo)
    (s started ready loaded done : KickstartState) : Prop where
  memory : started.memory = s.memory
  regions : started.memoryRegions = reserved
  allocations : started.allocations = s.allocations
  read : ElfRead started file kernelElfLocation
    (kernelElfEnd - kernelElfLocation)
  entry : started.header.entryPoint = ElfImage.entry file
  paged : initializePager .bits64 started = some (true, ready)
  expanded : elfExpand ready = some (true, loaded)
  printed : SameControl loaded done
  untouched : done.memory = loaded.memory
  info : entered = { bootinfo with
    memoryRegions := done.memoryRegions
    bootstrapPagingStructurePtr := done.topPageStructure }

section Boot

variable {entries : List FirmwareEntry} {file : Nat → UInt8}
  {s done : KickstartState} {bootinfo entered : SampoBootinfo}
  {kickstartStart kickstartEnd kernelElfLocation kernelElfEnd : Nat}
  {first reserved : RegionTable} {hasLongmode : Bool}

theorem BootInputs.stages
    (inputs : BootInputs entries file s kickstartStart kickstartEnd
      kernelElfLocation kernelElfEnd first reserved)
    (ran : kickstartBoot kickstartStart kickstartEnd hasLongmode
      (some (kernelElfLocation, kernelElfEnd)) bootinfo s =
        some (some entered, done)) :
    ∃ started ready loaded, BootStages file kernelElfLocation kernelElfEnd
      reserved bootinfo entered s started ready loaded done := by
  have moduleProper := inputs.moduleProper
  have moduleLow := inputs.moduleLow
  have kept := inputs.kept
  obtain ⟨_, first', reserved', image', module', ran⟩ := kickstartBoot_enters.mp ran
  obtain rfl : first = first' := Option.some.inj (inputs.image.symm.trans image')
  obtain rfl : reserved = reserved' :=
    Option.some.inj (inputs.module.symm.trans module')
  obtain ⟨initialized, ready, loaded, entry⟩ := bootKernel_enters.mp ran
  rw [show kernelElfEnd = kernelElfLocation + (kernelElfEnd - kernelElfLocation)
    by omega] at kept
  have parsed := elfInitialize_spec (s := { s with memoryRegions := reserved })
    inputs.holds inputs.loadable.headed.header
    inputs.loadable.headed.is64 (by omega) entry.parsed
  obtain ⟨read, sameRegions, sameHistory⟩ := elfInitialize_reads
    (s := { s with memoryRegions := reserved }) inputs.available inputs.holds
    (by omega) kept inputs.loadable.headed entry.parsed entry.wide
  have message := serialPrintf_sameControl
    "Kernel ELF successfully parsed!\n" [] initialized
  have printed := entry.printed.trans (printMemoryMap_only loaded)
  refine ⟨_, ready, loaded, ?_, message.regions.trans sameRegions,
    message.allocations.trans sameHistory, read.congr message rfl, ?_, entry.paged,
    entry.expanded, ?_, ?_, entry.info⟩
  · have memory : initialized.memory = s.memory := by rw [parsed.1]
    exact memory
  · rw [message.header, parsed.2]
  · rw [printed]
    exact ⟨rfl, rfl, rfl, rfl, rfl, rfl⟩
  · rw [printed]

/-- What every request keeps, a boot keeps from the reservations on. -/
theorem kickstartBoot_requests
    {P : RegionTable → List (Option MemoryRegion) → Prop}
    (keeps : RequestInvariant P)
    (inputs : BootInputs entries file s kickstartStart kickstartEnd
      kernelElfLocation kernelElfEnd first reserved)
    (ran : kickstartBoot kickstartStart kickstartEnd hasLongmode
      (some (kernelElfLocation, kernelElfEnd)) bootinfo s =
        some (some entered, done))
    (succeeded : ∀ outcome ∈ done.allocations, Succeeded outcome)
    (holds : P reserved s.allocations) :
    P entered.memoryRegions done.allocations := by
  obtain ⟨started, ready, loaded, stages⟩ := inputs.stages ran
  rw [stages.printed.allocations] at succeeded
  have atStart : HoldsAt P started := by
    rw [HoldsAt, stages.regions, stages.allocations]
    exact holds
  have atReady := keeps.initializePager stages.paged (fun outcome inside =>
    succeeded outcome (elfExpand_allocations stages.expanded inside)) atStart
  have atLoaded := keeps.elfExpand stages.read inputs.loadable stages.paged
    stages.expanded succeeded atReady
  rw [stages.info]
  exact RequestInvariant.congr stages.printed atLoaded

end Boot

end SampoOS.Kickstart
