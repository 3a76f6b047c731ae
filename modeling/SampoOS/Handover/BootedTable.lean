/-
Module: SampoOS.Handover.BootedTable
Purpose: From the firmware's memory map to the kernel's physmap: which tables a boot
  can hand over, and what their entries keep of the firmware's map.
Trusted boundary: none
Main exports: WholeTable, WholeTable.requests, FirmwareKept,
  firmwareKept_of_account, kickstartBoot_wholeTable,
  kickstartBoot_combinableTable, kickstartMain_physmapRegions_kept
-/
import SampoOS.Handover.PhysmapEntries
import SampoOS.Handover.RegionSizes
import SampoOS.Kickstart.WholeBoot

namespace SampoOS

open Kickstart Kernel

/-! ## Tables that the kernel can be given -/

/-- No call makes the table longer than its array. -/
theorem short_of_run {table after : RegionTable} {call : PmmCall}
    (short : table.length ≤ memoryRegionsLength) (ran : call.run table = some after) :
    after.length ≤ memoryRegionsLength := by
  cases call with
  | reserve start stop => exact length_le_of_pmmReserveMemoryRegion short ran
  | allocate regionPageCount type =>
      obtain ⟨⟨ret, _⟩, allocated, rfl⟩ := Option.map_eq_some_iff.mp ran
      exact length_le_of_pmmAllocateRegionWithType short allocated

namespace HandoverInvariant

variable {table after : RegionTable}

/-- Reading any firmware map establishes the invariant. -/
theorem start {entries : List FirmwareEntry} (map : FirmwareMap entries)
    (added : pmmAddRegions [] entries = some table) : HandoverInvariant table where
  keeps := map.tableInvariant added
  bounded := map.table_bounds added
  short := length_le_of_pmmAddRegions (Nat.zero_le _) added

/-- Every call of the boot keeps it. -/
theorem call {call : PmmCall} (invariant : HandoverInvariant table)
    (inRange : call.InRange) (notNull : call.PointerNotNull table)
    (ran : call.run table = some after) : HandoverInvariant after := by
  have short := short_of_run invariant.short ran
  cases PmmCall.effect invariant.keeps invariant.bounded inRange notNull ran with
  | refused => exact invariant
  | carved _ carves _ alignedStart alignedEnd =>
      exact ⟨carves.preserves_invariant invariant.keeps alignedStart alignedEnd,
        carves.bounded invariant.bounded, short⟩

end HandoverInvariant

/-- A block between page boundaries leaves whole pages. -/
theorem carved_aligned {P : MemoryRegion → Prop} {block : MemoryRegion}
    {table after : RegionTable} (keeps : TableInvariant table)
    (aligned : ∀ region ∈ table, P region →
      4096 ∣ region.addrStart ∧ 4096 ∣ region.addrEnd)
    (carves : Carves table block after) (alignedStart : 4096 ∣ block.addrStart)
    (alignedEnd : 4096 ∣ block.addrEnd) :
    ∀ region ∈ after, P region → 4096 ∣ region.addrStart ∧ 4096 ∣ region.addrEnd := by
  obtain ⟨before, source, behind, rfl, carvesFrom⟩ := carves
  intro region inside holds
  have sourceAligned := keeps.aligned source (by simp) carvesFrom.available
  rcases carvesFrom.mem_after.mp inside with rfl | rest | old
  · exact ⟨alignedStart, alignedEnd⟩
  · rcases mem_remainders.mp rest with ⟨rfl, _⟩ | ⟨rfl, _⟩
    · exact ⟨sourceAligned.1, alignedStart⟩
    · exact ⟨alignedEnd, sourceAligned.2⟩
  · refine aligned region ?_ holds
    rcases List.mem_append.mp old with old | old <;> simp [old]

/-- And what holds of regions that are apart. -/
theorem carved_pairwise {R : MemoryRegion → MemoryRegion → Prop} {block : MemoryRegion}
    {table after : RegionTable} (keeps : TableInvariant table)
    (symmetric : ∀ {a b}, R a b → R b a)
    (ofApart : ∀ {a b : MemoryRegion}, a.Apart b → R a b) (pairwise : table.Pairwise R)
    (carves : Carves table block after) : after.Pairwise R := by
  obtain ⟨before, source, behind, rfl, carvesFrom⟩ := carves
  exact carvesFrom.pairwise_after symmetric ofApart
    (keeps.apart_others carvesFrom.available) pairwise

/-- A table of whole pages in which no two regions share a byte, whatever their
types. -/
structure WholeTable (table : RegionTable) : Prop extends
    HandoverInvariant table where
  aligned : ∀ region ∈ table, 4096 ∣ region.addrStart ∧ 4096 ∣ region.addrEnd
  apart : table.Pairwise MemoryRegion.Apart

namespace WholeTable

variable {table after : RegionTable}

/-- Reading a map of whole pages gives a table of whole pages. -/
theorem start {entries : List FirmwareEntry} (map : FirmwareMap entries)
    (whole : WholePageMap entries)
    (multiboot : ∀ entry ∈ entries, entry.type ∈ multibootTypes)
    (added : pmmAddRegions [] entries = some table) : WholeTable table where
  toHandoverInvariant := HandoverInvariant.start map added
  aligned := by
    intro region inside
    obtain ⟨entry, member, rfl⟩ := (map.mem_table added).mp inside
    exact whole.rounded_aligned map multiboot member
  apart := (whole.orderedTable map multiboot added).apart

/-- Every call of the boot keeps the pages whole. -/
theorem call {call : PmmCall} (whole : WholeTable table) (inRange : call.InRange)
    (notNull : call.PointerNotNull table) (ran : call.run table = some after) :
    WholeTable after := by
  have invariant := whole.toHandoverInvariant.call inRange notNull ran
  cases PmmCall.effect whole.keeps whole.bounded inRange notNull ran with
  | refused => exact whole
  | carved _ carves _ alignedStart alignedEnd =>
      refine ⟨invariant, fun region inside => ?_, ?_⟩
      · exact carved_aligned (P := fun _ => True) whole.keeps
          (fun region inside _ => whole.aligned region inside) carves alignedStart
          alignedEnd region inside trivial
      · exact carved_pairwise whole.keeps (fun apart => apart.symm)
          (fun apart => apart) whole.apart carves

theorem requests : RequestInvariant fun table _ => WholeTable table :=
  RequestInvariant.of_call fun whole inRange notNull ran =>
    whole.call inRange notNull ran

/-- A table of whole pages is one that the kernel can merge. -/
theorem orderedTable (whole : WholeTable table) : OrderedTable table where
  sorted := whole.keeps.sorted
  proper := fun region inside => (whole.bounded region inside).1
  apart := whole.apart

end WholeTable

/-- A table in which this holds of the regions that the kernel combines: the available
and the allocated ones. -/
structure CombinableTable (table : RegionTable) : Prop extends
    HandoverInvariant table where
  aligned : ∀ region ∈ table, combinable region = true →
    4096 ∣ region.addrStart ∧ 4096 ∣ region.addrEnd
  apart : table.Pairwise fun a b =>
    combinable a = true → combinable b = true → a.Apart b

namespace CombinableTable

variable {table after : RegionTable}

/-- Reading any firmware map establishes it: nothing is allocated yet. -/
theorem start {entries : List FirmwareEntry} (map : FirmwareMap entries)
    (multiboot : ∀ entry ∈ entries, entry.type ∈ multibootTypes)
    (added : pmmAddRegions [] entries = some table) : CombinableTable table where
  toHandoverInvariant := HandoverInvariant.start map added
  aligned := (pagedTable_of_map map multiboot added).aligned
  apart := (map.tableInvariant added).separate.imp_of_mem
    fun insideA _ separate combinableA _ => separate (Or.inl
      (available_of_combinable map multiboot added insideA combinableA))

/-- Every call of the boot keeps it. -/
theorem call {call : PmmCall} (handed : CombinableTable table) (inRange : call.InRange)
    (notNull : call.PointerNotNull table) (ran : call.run table = some after) :
    CombinableTable after := by
  have invariant := handed.toHandoverInvariant.call inRange notNull ran
  cases PmmCall.effect handed.keeps handed.bounded inRange notNull ran with
  | refused => exact handed
  | carved _ carves _ alignedStart alignedEnd =>
      exact ⟨invariant, carved_aligned handed.keeps handed.aligned carves alignedStart
        alignedEnd, carved_pairwise handed.keeps
          (fun apart isB isA => (apart isA isB).symm) (fun apart _ _ => apart)
          handed.apart carves⟩

theorem requests : RequestInvariant fun table _ => CombinableTable table :=
  RequestInvariant.of_call fun handed inRange notNull ran =>
    handed.call inRange notNull ran

/-- The kernel can count on its pages. -/
theorem paged (handed : CombinableTable table) : PagedTable table :=
  .of_apart handed.bootTable handed.aligned
    (fun region inside _ => (handed.bounded region inside).1) handed.keeps.sorted
    handed.apart

end CombinableTable

/-! ## What is kept of the firmware's map -/

/-- The bytes of the entries of a type. -/
def firmwareBytes (entries : List FirmwareEntry) (type : MemoryRegionType) :
    Set Nat :=
  {x | ∃ entry ∈ entries, entry.type = type ∧ x ∈ Set.Ico entry.start entry.stop}

/-- The pages in which a reserved entry has a byte. -/
def reservedPages (entries : List FirmwareEntry) : Set Nat :=
  {x | ∃ entry ∈ entries, entry.type = .reserved ∧ Touches entry (x / 4096)}

/-- The physmap describes the memory that the firmware offered: the whole pages
that are not the kernel's own, and what else there is, byte for byte. -/
structure FirmwareKept (entries : List FirmwareEntry) (kernelBytes : Set Nat)
    (regions : List PhysmemRegion) : Prop where
  available : entryBytes regions .available = wholePages entries \ kernelBytes
  acpiReclaim : entryBytes regions .acpiReclaim = firmwareBytes entries .reclaimable
  nvs : entryBytes regions .nvs = firmwareBytes entries .nvs
  badMem : entryBytes regions .badMem = firmwareBytes entries .badMem
  reserved : entryBytes regions .reserved = reservedPages entries ∪ kernelBytes
  kernelInside : kernelBytes ⊆ wholePages entries

/-- Entries that Kickstart does not round keep their bytes in its table. -/
theorem firmwareBytes_loaded {entries : List FirmwareEntry} {loaded : RegionTable}
    (map : FirmwareMap entries) (added : pmmAddRegions [] entries = some loaded)
    {type : MemoryRegionType} (notAvailable : type ≠ .available)
    (notReserved : type ≠ .reserved) :
    bytesOfType loaded type = firmwareBytes entries type := by
  have unrounded : ∀ entry : FirmwareEntry, entry.type = type → entry.rounded =
      { addrStart := entry.start, addrEnd := entry.stop, type := type } := by
    intro entry isType
    rw [FirmwareEntry.rounded, isType, roundedRegion_other _ _ notAvailable notReserved]
  ext x
  constructor
  · rintro ⟨region, inside, isType, member⟩
    obtain ⟨entry, isEntry, rfl⟩ := (map.mem_table added).mp inside
    have entryType : entry.type = type := isType
    rw [unrounded entry entryType] at member
    exact ⟨entry, isEntry, entryType, member⟩
  · rintro ⟨entry, isEntry, isType, member⟩
    refine ⟨entry.rounded, (map.mem_table added).mpr ⟨entry, isEntry, rfl⟩, isType, ?_⟩
    rw [unrounded entry isType]
    exact member

/-- Reserved entries cover the pages that they touch. -/
theorem reservedPages_loaded {entries : List FirmwareEntry} {loaded : RegionTable}
    (map : FirmwareMap entries) (added : pmmAddRegions [] entries = some loaded) :
    bytesOfType loaded .reserved = reservedPages entries := by
  ext x
  constructor
  · rintro ⟨region, inside, isType, member⟩
    obtain ⟨entry, isEntry, rfl⟩ := (map.mem_table added).mp inside
    exact ⟨entry, isEntry, isType, (mem_rounded_reserved (map.proper entry isEntry)
      (map.bounded entry isEntry) isType x).mp member⟩
  · rintro ⟨entry, isEntry, isType, touched⟩
    exact ⟨entry.rounded, (map.mem_table added).mpr ⟨entry, isEntry, rfl⟩, isType,
      (mem_rounded_reserved (map.proper entry isEntry) (map.bounded entry isEntry)
        isType x).mpr touched⟩

section Account

variable {entries : List FirmwareEntry} {loaded table : RegionTable}
  {blocks : List MemoryRegion}

/-- The table read holds only types that a memory map names. -/
theorem type_multiboot (map : FirmwareMap entries)
    (multiboot : ∀ entry ∈ entries, entry.type ∈ multibootTypes)
    (added : pmmAddRegions [] entries = some loaded) :
    ∀ region ∈ loaded, region.type ∈ multibootTypes := by
  intro region inside
  obtain ⟨entry, isEntry, rfl⟩ := (map.mem_table added).mp inside
  exact multiboot entry isEntry

/-- Other types come from the blocks taken alone. -/
theorem bytesOfType_taken (account : MemoryAccount entries loaded table blocks)
    (map : FirmwareMap entries) (multiboot : ∀ entry ∈ entries, entry.type ∈ multibootTypes)
    (added : pmmAddRegions [] entries = some loaded) {type : MemoryRegionType}
    (other : type ∉ multibootTypes) : bytesOfType table type = bytesOfType blocks type := by
  have notAvailable : type ≠ .available := by
    rintro rfl
    exact other (by decide)
  have nothingLoaded : bytesOfType loaded type = ∅ := by
    rw [Set.eq_empty_iff_forall_notMem]
    rintro x ⟨region, inside, rfl, _⟩
    exact other (type_multiboot map multiboot added region inside)
  rw [account.bytesOfType_eq notAvailable, nothingLoaded, Set.empty_union]

/-- Of the types that no block is taken as, the table holds what was read. -/
theorem bytesOfType_read (account : MemoryAccount entries loaded table blocks)
    (isBoot : BootBlocks blocks) {type : MemoryRegionType} (notAvailable : type ≠ .available)
    (notAllocated : type ≠ .allocated) (notKernel : type ≠ .kernel) :
    bytesOfType table type = bytesOfType loaded type := by
  have nothingTaken : bytesOfType blocks type = ∅ := by
    rw [Set.eq_empty_iff_forall_notMem]
    rintro x ⟨block, inside, rfl, _⟩
    exact (isBoot block inside).elim notAllocated notKernel
  rw [account.bytesOfType_eq notAvailable, nothingTaken, Set.union_empty]

/-- What is available or allocated are the whole pages without the kernel's blocks. -/
theorem available_allocated_eq (account : MemoryAccount entries loaded table blocks)
    (isBoot : BootBlocks blocks)
    (allocated : bytesOfType table .allocated = bytesOfType blocks .allocated) :
    bytesOfType table .available ∪ bytesOfType table .allocated =
      wholePages entries \ bytesOfType blocks .kernel := by
  have available : bytesOfType table .available =
      wholePages entries \ {x | ∃ block ∈ blocks, x ∈ block.bytes} :=
    account.availableBytes_eq
  have apart := account.types_disjoint
    (show MemoryRegionType.allocated ≠ .kernel by decide)
  rw [allocated, available]
  ext x
  simp only [Set.mem_union, Set.mem_sdiff, Set.mem_ofPred_eq]
  constructor
  · rintro (⟨whole, free⟩ | taken)
    · exact ⟨whole, fun ⟨block, inside, _, member⟩ => free ⟨block, inside, member⟩⟩
    · refine ⟨?_, Set.disjoint_left.mp apart taken⟩
      obtain ⟨block, inside, _, member⟩ := taken
      exact account.inside block inside member
  · rintro ⟨whole, notKernel⟩
    by_cases taken : ∃ block ∈ blocks, x ∈ block.bytes
    · obtain ⟨block, inside, member⟩ := taken
      rcases isBoot block inside with isAllocated | isKernel
      · exact Or.inr ⟨block, inside, isAllocated, member⟩
      · exact absurd ⟨block, inside, isKernel, member⟩ notKernel
    · exact Or.inl ⟨whole, taken⟩

/-- What the physmap calls reserved is reserved or the kernel's. -/
theorem notKept_iff (account : MemoryAccount entries loaded table blocks)
    (isBoot : BootBlocks blocks) (isMultiboot : ∀ region ∈ loaded,
      region.type ∈ multibootTypes) {region : MemoryRegion} (inside : region ∈ table) :
    region.type ∉ keptTypes ↔ region.type = .reserved ∨ region.type = .kernel := by
  constructor
  · intro notKept
    have notAvailable : region.type ≠ .available := by
      intro isAvailable
      simp [isAvailable, keptTypes] at notKept
    rcases (account.others region notAvailable).mp inside with old | taken
    · have multibootType := isMultiboot region old
      simp only [multibootTypes, keptTypes, List.mem_cons, List.not_mem_nil,
        or_false, not_or] at multibootType notKept
      tauto
    · refine (isBoot region taken).imp (fun isAllocated => ?_) id
      simp [isAllocated, keptTypes] at notKept
  · rintro (isType | isType) <;> simp [isType, keptTypes]

/-- The account of a boot tells what the physmap keeps of the firmware's map. -/
theorem firmwareKept_of_account {regions : List PhysmemRegion}
    (account : MemoryAccount entries loaded table blocks) (map : FirmwareMap entries)
    (multiboot : ∀ entry ∈ entries, entry.type ∈ multibootTypes)
    (added : pmmAddRegions [] entries = some loaded) (isBoot : BootBlocks blocks)
    (kept : MemoryMapKept table regions) :
    FirmwareKept entries (bytesOfType blocks .kernel) regions := by
  have taken : ∀ type, type ∉ multibootTypes →
      bytesOfType table type = bytesOfType blocks type :=
    fun type other => bytesOfType_taken account map multiboot added other
  have unrounded : ∀ type, type = .reclaimable ∨ type = .nvs ∨ type = .badMem →
      bytesOfType table type = firmwareBytes entries type := by
    intro type isType
    rw [bytesOfType_read account isBoot (by rintro rfl; simp at isType)
      (by rintro rfl; simp at isType) (by rintro rfl; simp at isType),
      firmwareBytes_loaded map added (by rintro rfl; simp at isType)
        (by rintro rfl; simp at isType)]
  have reserved : bytesOfType table .reserved = reservedPages entries := by
    rw [bytesOfType_read account isBoot (by decide) (by decide) (by decide),
      reservedPages_loaded map added]
  refine ⟨?_, kept.acpiReclaim.trans (unrounded _ (by simp)),
    kept.nvs.trans (unrounded _ (by simp)), kept.badMem.trans (unrounded _ (by simp)),
    ?_, ?_⟩
  · rw [kept.available]
    exact available_allocated_eq account isBoot (taken _ (by decide))
  · rw [kept.reserved, ← reserved, ← taken .kernel (by decide)]
    have notKept : ∀ region ∈ table, region.type ∉ keptTypes ↔
        region.type = .reserved ∨ region.type = .kernel := fun _ inside =>
      notKept_iff account isBoot (type_multiboot map multiboot added) inside
    ext x
    constructor
    · rintro ⟨region, inside, others, member⟩
      exact ((notKept region inside).mp others).imp
        (fun isReserved => ⟨region, inside, isReserved, member⟩)
        fun isKernel => ⟨region, inside, isKernel, member⟩
    · rintro (⟨region, inside, isType, member⟩ | ⟨region, inside, isType, member⟩)
      · exact ⟨region, inside, (notKept region inside).mpr (Or.inl isType), member⟩
      · exact ⟨region, inside, (notKept region inside).mpr (Or.inr isType), member⟩
  · rintro x ⟨block, inside, _, member⟩
    exact account.inside block inside member

end Account

/-! ## A whole boot -/

section Boot

variable {entries : List FirmwareEntry} {file : Nat → UInt8}
  {s done : KickstartState} {bootinfo entered : SampoBootinfo}
  {kickstartStart kickstartEnd kernelElfLocation kernelElfEnd : Nat}
  {first reserved : RegionTable} {hasLongmode : Bool}

/-- Both reservations of the boot are calls in range. -/
theorem BootInputs.reservations_inRange
    (inputs : BootInputs entries file s kickstartStart kickstartEnd
      kernelElfLocation kernelElfEnd first reserved) :
    (PmmCall.reserve kickstartStart kickstartEnd).InRange ∧
      (PmmCall.reserve kernelElfLocation kernelElfEnd).InRange := by
  have imageEnd := inputs.imageEnd
  exact ⟨⟨inputs.imageProper, by omega⟩, inputs.moduleProper, inputs.moduleLow⟩

/-- The table that a boot hands over is in order, and its available and allocated
regions are whole pages, whatever map it was read from. -/
theorem kickstartBoot_combinableTable
    (inputs : BootInputs entries file s kickstartStart kickstartEnd
      kernelElfLocation kernelElfEnd first reserved) (map : FirmwareMap entries)
    (multiboot : ∀ entry ∈ entries, entry.type ∈ multibootTypes)
    (ran : kickstartBoot kickstartStart kickstartEnd hasLongmode
      (some (kernelElfLocation, kernelElfEnd)) bootinfo s =
        some (some entered, done))
    (succeeded : ∀ outcome ∈ done.allocations, Succeeded outcome) :
    CombinableTable entered.memoryRegions := by
  obtain ⟨imageRange, moduleRange⟩ := BootInputs.reservations_inRange inputs
  refine kickstartBoot_requests CombinableTable.requests inputs ran succeeded ?_
  have image := (CombinableTable.start map multiboot inputs.added).call imageRange
    trivial inputs.image
  exact image.call moduleRange trivial inputs.module

/-- Of a map of whole pages it is a table of whole pages. -/
theorem kickstartBoot_wholeTable
    (inputs : BootInputs entries file s kickstartStart kickstartEnd
      kernelElfLocation kernelElfEnd first reserved) (map : FirmwareMap entries)
    (whole : WholePageMap entries)
    (multiboot : ∀ entry ∈ entries, entry.type ∈ multibootTypes)
    (ran : kickstartBoot kickstartStart kickstartEnd hasLongmode
      (some (kernelElfLocation, kernelElfEnd)) bootinfo s =
        some (some entered, done))
    (succeeded : ∀ outcome ∈ done.allocations, Succeeded outcome) :
    WholeTable entered.memoryRegions := by
  obtain ⟨imageRange, moduleRange⟩ := BootInputs.reservations_inRange inputs
  refine kickstartBoot_requests WholeTable.requests inputs ran succeeded ?_
  have image := (WholeTable.start map whole multiboot inputs.added).call imageRange
    trivial inputs.image
  exact image.call moduleRange trivial inputs.module

/-- What the boot takes is Kickstart's own or the kernel's, and only segments are
the kernel's. -/
theorem kickstartBoot_bootBlocks
    (inputs : BootInputs entries file s kickstartStart kickstartEnd
      kernelElfLocation kernelElfEnd first reserved) (fresh : s.allocations = [])
    (ran : kickstartBoot kickstartStart kickstartEnd hasLongmode
      (some (kernelElfLocation, kernelElfEnd)) bootinfo s =
        some (some entered, done))
    (succeeded : ∀ outcome ∈ done.allocations, Succeeded outcome) :
    BootBlocks (grantedBlocks done.allocations ++ takenByImages s.memoryRegions
        first kickstartStart kickstartEnd kernelElfLocation kernelElfEnd) ∧
      bytesOfType (grantedBlocks done.allocations ++ takenByImages s.memoryRegions
        first kickstartStart kickstartEnd kernelElfLocation kernelElfEnd) .kernel =
        grantedTo done.allocations .kernel := by
  have granted : BootBlocks (grantedBlocks done.allocations) := by
    refine kickstartBoot_requests BootBlocks.requests inputs ran succeeded ?_
    rw [fresh]
    exact List.forall_mem_nil _
  have images : ∀ block ∈ takenByImages s.memoryRegions first kickstartStart
      kickstartEnd kernelElfLocation kernelElfEnd, block.type = .allocated := by
    intro block inside
    rw [takenByImages, List.mem_append, Option.mem_toList, Option.mem_toList,
      reservedBlock, reservedBlock, Option.map_eq_some_iff,
      Option.map_eq_some_iff] at inside
    rcases inside with ⟨_, _, rfl⟩ | ⟨_, _, rfl⟩ <;> rfl
  refine ⟨granted.append fun block inside => Or.inl (images block inside), ?_⟩
  ext x
  constructor
  · rintro ⟨block, inside, isKernel, member⟩
    rcases List.mem_append.mp inside with given | image
    · exact ⟨block, given, isKernel, member⟩
    · rw [images block image] at isKernel
      cases isKernel
  · rintro ⟨block, inside, isKernel, member⟩
    exact ⟨block, List.mem_append_left _ inside, isKernel, member⟩

end Boot

/-- The entries of a Multiboot2 memory map have the types that Kickstart knows. -/
theorem firmwareEntries_multiboot (tags : List MultibootTag) :
    ∀ entry ∈ tags.flatMap MultibootTag.firmwareEntries,
      entry.type ∈ multibootTypes := by
  intro entry inside
  obtain ⟨tag, _, inTag⟩ := List.mem_flatMap.mp inside
  rw [MultibootTag.firmwareEntries] at inTag
  split at inTag
  next =>
    obtain ⟨mapped, _, rfl⟩ := List.mem_map.mp inTag
    dsimp only [MmapEntry.firmwareEntry]
    unfold mappedType
    split <;> decide
  · cases inTag

section Machine

variable {info : MultibootInfo} {file : Nat → UInt8} {s done : KickstartState}
  {bootinfo entered : SampoBootinfo} {loaded first reserved : RegionTable}
  {kickstartStart kickstartEnd kernelName addr kernelElfLocation kernelElfEnd fuel
    magic : Nat} {serialInit hasLongmode : Bool}

/-- From the firmware to the kernel: in every boot of a memory map of whole pages, the
entries for the table that is handed over describe what the firmware offered.  Of the
whole available pages they leave out just those of the kernel's own segments, they keep
what else there is, and they are whole pages in order. -/
theorem kickstartMain_physmapRegions_kept
    (machine : BootMachine info file s kickstartStart kickstartEnd kernelName addr
      kernelElfLocation kernelElfEnd loaded first reserved)
    (whole : WholePageMap (info.tags.flatMap MultibootTag.firmwareEntries))
    (enough : info.encode.length ≤ fuel)
    (ran : kickstartMain kickstartStart kickstartEnd kernelName fuel serialInit
      hasLongmode bootinfo addr magic s = some (some entered, done))
    (succeeded : ∀ outcome ∈ done.allocations, Succeeded outcome) (ptr : Nat) :
    FirmwareKept (info.tags.flatMap MultibootTag.firmwareEntries)
        (grantedTo done.allocations .kernel)
        (physmapRegions ptr entered.memoryRegions) ∧
      PhysmapInvariant (physmapRegions ptr entered.memoryRegions) := by
  obtain ⟨walked, _, _, noRequests, inputs, boots⟩ :=
    kickstartMain_enters machine enough ran
  have multiboot := firmwareEntries_multiboot info.tags
  have table := kickstartBoot_wholeTable inputs machine.map whole multiboot boots
    succeeded
  have boot := table.toHandoverInvariant.bootTable
  obtain ⟨isBoot, kernelBytes⟩ :=
    kickstartBoot_bootBlocks inputs noRequests boots succeeded
  have memoryMap : MemoryMapKept entered.memoryRegions
      (physmapRegions ptr entered.memoryRegions) :=
    physmapRegions_keptMap boot table.orderedTable
  have kept := firmwareKept_of_account
    (kickstartBoot_account inputs machine.map noRequests boots succeeded) machine.map
    multiboot inputs.added isBoot memoryMap
  rw [kernelBytes] at kept
  exact ⟨kept, physmapRegions_invariant boot table.orderedTable table.aligned⟩

end Machine

end SampoOS
