/-
Module: SampoOS.Handover.BootinfoMemory
Purpose: The boot information as it lies in Kickstart's image: what the boot writes
  there, the kernel reads through the page tables that it is entered with, before and
  after it has set up its memory manager.
Trusted boundary: Kickstart's static variables and its stack lie in its image, and the
  boot writes them nowhere else.
Main exports: bootArrayCalls, kickstartBoot_arrayCalls, handedMemory, BootinfoPlace,
  readBootinfo, kickstartMain_readBootinfo
-/
import SampoOS.Handover.InitialisedKernel
import SampoOS.Kickstart.RegionArrayRuns

namespace SampoOS

open ByteMemory (Memory loadLe storeLe storeLe_outside loadLe_storeLe
  loadLe_storeLe_disjoint loadLe_congr loadLe_lt)
open Paging
open Kickstart Kernel
open RecordArray (Place)

/-! ## The calls of a boot -/

/-- `pmm_add_region`, for an entry of the memory map. -/
def firmwareCall (entry : FirmwareEntry) : ArrayCall :=
  .add entry.type entry.start entry.stop

/-- The request that was given a block. -/
def requestCall (block : MemoryRegion) : ArrayCall :=
  .allocate ((block.addrEnd - block.addrStart) / 4096) block.type

/-- All calls that a boot makes: the memory map, the two images, and the requests of the
pager and the loader. -/
def bootArrayCalls (entries : List FirmwareEntry)
    (kickstartStart kickstartEnd kernelElfLocation kernelElfEnd : Nat)
    (history : List (Option MemoryRegion)) : List ArrayCall :=
  entries.map firmwareCall ++
    ([.reserve kickstartStart kickstartEnd, .reserve kernelElfLocation kernelElfEnd] ++
      history.reduceOption.map requestCall)

theorem arrayCalls_cons {call : ArrayCall} {calls : List ArrayCall}
    {table next after : RegionTable} {ret : Nat} {rets : List Nat}
    (first : call.run table = some (ret, next))
    (rest : arrayCalls calls next = some (rets, after)) :
    arrayCalls (call :: calls) table = some (ret :: rets, after) := by
  simp only [arrayCalls, first, Option.bind_some, rest, Option.map_some]

theorem arrayCalls_append {calls : List ArrayCall} :
    ∀ {more : List ArrayCall} {table middle after : RegionTable} {rets rets' : List Nat},
      arrayCalls calls table = some (rets, middle) →
      arrayCalls more middle = some (rets', after) →
      arrayCalls (calls ++ more) table = some (rets ++ rets', after) := by
  induction calls with
  | nil =>
      intro more table middle after rets rets' first second
      rw [arrayCalls, Option.some.injEq, Prod.mk.injEq] at first
      obtain ⟨rfl, rfl⟩ := first
      exact second
  | cons call calls inductionHypothesis =>
      intro more table middle after rets rets' first second
      rw [arrayCalls, Option.bind_eq_some_iff] at first
      obtain ⟨⟨ret, next⟩, ran, others⟩ := first
      rw [Option.map_eq_some_iff] at others
      obtain ⟨⟨rest, last⟩, others, same⟩ := others
      obtain ⟨rfl, rfl⟩ := Prod.mk.inj same
      exact arrayCalls_cons ran (inductionHypothesis others second)

theorem pmmAddRegions_arrayCalls {entries : List FirmwareEntry} :
    ∀ {table after : RegionTable}, pmmAddRegions table entries = some after →
      ∃ rets, arrayCalls (entries.map firmwareCall) table = some (rets, after) := by
  induction entries with
  | nil =>
      intro table after added
      exact ⟨[], congrArg (Option.map ([], ·)) added⟩
  | cons entry entries inductionHypothesis =>
      intro table after added
      rw [pmmAddRegions, List.foldlM_cons, Option.bind_eq_bind,
        Option.bind_eq_some_iff] at added
      obtain ⟨next, first, rest⟩ := added
      obtain ⟨rets, others⟩ := inductionHypothesis rest
      have call : (firmwareCall entry).run table = some (0, next) := by
        rw [firmwareCall, ArrayCall.run, first, Option.map_some]
      exact ⟨_, arrayCalls_cons call others⟩

theorem replayRequests_arrayCalls {history : List (Option MemoryRegion)} :
    ∀ {table after : RegionTable}, replayRequests table history = some after →
      ∃ rets, arrayCalls (history.reduceOption.map requestCall) table =
        some (rets, after) := by
  induction history with
  | nil =>
      intro table after replayed
      exact ⟨[], congrArg (Option.map ([], ·)) replayed⟩
  | cons outcome history inductionHypothesis =>
      intro table after replayed
      rw [replayRequests, List.foldlM_cons, Option.bind_eq_bind,
        Option.bind_eq_some_iff] at replayed
      obtain ⟨next, first, rest⟩ := replayed
      obtain ⟨block, rfl, given⟩ := Option.bind_eq_some_iff.mp first
      rw [Option.map_eq_some_iff] at given
      obtain ⟨⟨ret, _⟩, given, rfl⟩ := given
      obtain ⟨rets, others⟩ := inductionHypothesis rest
      exact ⟨_, arrayCalls_cons given others⟩

section Boot

variable {entries : List FirmwareEntry} {file : Nat → UInt8} {s done : KickstartState}
  {bootinfo entered : SampoBootinfo} {first reserved : RegionTable}
  {kickstartStart kickstartEnd kernelElfLocation kernelElfEnd : Nat} {hasLongmode : Bool}

/-- These calls make the table that is handed over. -/
theorem kickstartBoot_arrayCalls
    (inputs : BootInputs entries file s kickstartStart kickstartEnd
      kernelElfLocation kernelElfEnd first reserved) (fresh : s.allocations = [])
    (ran : kickstartBoot kickstartStart kickstartEnd hasLongmode
      (some (kernelElfLocation, kernelElfEnd)) bootinfo s =
        some (some entered, done))
    (succeeded : ∀ outcome ∈ done.allocations, Succeeded outcome) :
    ∃ rets, arrayCalls (bootArrayCalls entries kickstartStart kickstartEnd
        kernelElfLocation kernelElfEnd done.allocations) [] =
      some (rets, entered.memoryRegions) := by
  obtain ⟨_, loads⟩ := pmmAddRegions_arrayCalls inputs.added
  have replayed := kickstartBoot_requests (RequestInvariant.replays reserved) inputs ran
    succeeded (by rw [fresh]; rfl)
  obtain ⟨_, requests⟩ := replayRequests_arrayCalls replayed
  have image : (ArrayCall.reserve kickstartStart kickstartEnd).run s.memoryRegions =
      some (0, first) := by
    rw [ArrayCall.run, inputs.image, Option.map_some]
  have module : (ArrayCall.reserve kernelElfLocation kernelElfEnd).run first =
      some (0, reserved) := by
    rw [ArrayCall.run, inputs.module, Option.map_some]
  exact ⟨_, arrayCalls_append loads
    (arrayCalls_cons image (arrayCalls_cons module requests))⟩

/-- Their arguments have the widths of their C types. -/
theorem kickstartBoot_arrayCalls_words
    (inputs : BootInputs entries file s kickstartStart kickstartEnd
      kernelElfLocation kernelElfEnd first reserved) (fresh : s.allocations = [])
    (multiboot : ∀ entry ∈ entries, entry.type ∈ multibootTypes)
    (ran : kickstartBoot kickstartStart kickstartEnd hasLongmode
      (some (kernelElfLocation, kernelElfEnd)) bootinfo s =
        some (some entered, done))
    (succeeded : ∀ outcome ∈ done.allocations, Succeeded outcome) :
    ∀ call ∈ bootArrayCalls entries kickstartStart kickstartEnd kernelElfLocation
      kernelElfEnd done.allocations, call.Words := by
  have imageProper := inputs.imageProper
  have imageEnd := inputs.imageEnd
  have moduleProper := inputs.moduleProper
  have moduleLow := inputs.moduleLow
  have granted : BootBlocks (grantedBlocks done.allocations) := by
    refine kickstartBoot_requests BootBlocks.requests inputs ran succeeded ?_
    rw [fresh]
    exact List.forall_mem_nil _
  intro call inside
  rcases List.mem_append.mp inside with isEntry | inside
  · obtain ⟨entry, inEntries, rfl⟩ := List.mem_map.mp isEntry
    have proper := inputs.memory.proper entry inEntries
    have bounded := inputs.memory.bounded entry inEntries
    have codes : ∀ type ∈ multibootTypes, type.code < 2 ^ 64 := by decide
    exact ⟨by omega, by omega, codes _ (multiboot entry inEntries)⟩
  · rcases List.mem_append.mp inside with isImage | isRequest
    · rw [List.mem_cons, List.mem_singleton] at isImage
      rcases isImage with rfl | rfl
      · exact ⟨by omega, by omega⟩
      · exact ⟨by omega, by omega⟩
    · obtain ⟨block, isBlock, rfl⟩ := List.mem_map.mp isRequest
      have isGranted : block ∈ grantedBlocks done.allocations :=
        mem_grantedBlocks.mpr (List.reduceOption_mem_iff.mp isBlock)
      have code : block.type.code < 2 ^ 64 := by
        rcases granted block isGranted with type | type
        · rw [type]
          exact allocated_code_lt
        · rw [type]
          exact kernel_code_lt
      exact code

end Boot

/-! ## What the boot leaves in its image -/

/-- `pmm_fill_bootinfo`. -/
def pmmFillBootinfo (place : Place memoryRegionLayout 32) (info : Nat)
    (s : RegionArray) : Memory :=
  let m := storeLe s.memory info 8 place.base
  storeLe m (info + 8) 8 s.memoryRegionCount

/-- `pager_fill_bootinfo`. -/
def pagerFillBootinfo (info topPageStructure : Nat) (m : Memory) : Memory :=
  storeLe m (info + 16) 8 topPageStructure

/-- The memory with `memory_regions` and `bootinfo` in it, after the calls. -/
def handedMemory (place : Place memoryRegionLayout 32) (info : Nat)
    (calls : List ArrayCall) (topPageStructure : Nat) (m : Memory) : Memory :=
  pagerFillBootinfo info topPageStructure (pmmFillBootinfo place info
    (arrayCallsInMemory place calls { memory := m, memoryRegionCount := 0 }).2)

/-- The whole array and `bootinfo`, which lie apart in Kickstart's image. -/
structure BootinfoPlace (place : Place memoryRegionLayout 32)
    (info kickstartStart kickstartEnd : Nat) : Prop where
  whole : place.capacity = memoryRegionsLength
  inside : place.bytes ⊆ Set.Ico kickstartStart kickstartEnd
  infoInside : Set.Ico info (info + 24) ⊆ Set.Ico kickstartStart kickstartEnd
  apart : Disjoint place.bytes (Set.Ico info (info + 24))

/-- The array holds a region table, and `bootinfo` points to it and to the page
tables. -/
structure HoldsBootinfo (place : Place memoryRegionLayout 32) (info : Nat)
    (bootinfo : SampoBootinfo) (m : Memory) : Prop where
  records : ∀ (i : Nat) (below : i < bootinfo.memoryRegions.length),
    place.get m i = bootinfo.memoryRegions[i]
  short : bootinfo.memoryRegions.length ≤ memoryRegionsLength
  pointer : loadLe m info 8 = place.base
  count : loadLe m (info + 8) 8 = bootinfo.memoryRegions.length
  root : loadLe m (info + 16) 8 = bootinfo.bootstrapPagingStructurePtr

section Image

variable {place : Place memoryRegionLayout 32} {info kickstartStart kickstartEnd : Nat}
  (placed : BootinfoPlace place info kickstartStart kickstartEnd)

include placed

theorem handedMemory_outside {calls : List ArrayCall} {root : Nat} {m : Memory}
    {table : RegionTable} {rets : List Nat} (words : ∀ call ∈ calls, call.Words)
    (ran : arrayCalls calls [] = some (rets, table)) {x : Nat}
    (outside : x ∉ Set.Ico kickstartStart kickstartEnd) :
    handedMemory place info calls root m x = m x := by
  obtain ⟨s, inMemory, _, _, kept⟩ := arrayCalls_inMemory placed.whole words ran
  have notInfo : x < info ∨ info + 24 ≤ x := by
    by_contra inInfo
    rw [not_or, Nat.not_lt, Nat.not_le] at inInfo
    exact outside (placed.infoInside inInfo)
  rw [handedMemory, inMemory, pagerFillBootinfo, storeLe_outside (by omega),
    pmmFillBootinfo, storeLe_outside (by omega), storeLe_outside (by omega)]
  exact kept x fun inPlace => outside (placed.inside inPlace)

theorem handedMemory_holds {calls : List ArrayCall} {bootinfo : SampoBootinfo}
    {m : Memory} {rets : List Nat} (words : ∀ call ∈ calls, call.Words)
    (ran : arrayCalls calls [] = some (rets, bootinfo.memoryRegions))
    (low : bootinfo.bootstrapPagingStructurePtr < 2 ^ 64) :
    HoldsBootinfo place info bootinfo
      (handedMemory place info calls bootinfo.bootstrapPagingStructurePtr m) := by
  obtain ⟨s, inMemory, ⟨array, count⟩⟩ :=
    (Represents.empty place m).calls placed.whole words ran
  have short : bootinfo.memoryRegions.length ≤ memoryRegionsLength :=
    placed.whole ▸ array.short
  have base := place.fits
  rw [handedMemory, inMemory]
  dsimp only
  refine ⟨fun i below => ?_, short, ?_, ?_, ?_⟩
  · rw [← array.records i below]
    refine Place.get_congr fun x start stop => ?_
    have notInfo : x ∉ Set.Ico info (info + 24) := Set.disjoint_left.mp placed.apart
      (Place.record_subset (Nat.lt_of_lt_of_le below array.short) start stop)
    have outside : x < info ∨ info + 24 ≤ x := by
      by_contra inInfo
      rw [not_or, Nat.not_lt, Nat.not_le] at inInfo
      exact notInfo inInfo
    rw [pagerFillBootinfo, storeLe_outside (by omega), pmmFillBootinfo,
      storeLe_outside (by omega), storeLe_outside (by omega)]
  · rw [pagerFillBootinfo, loadLe_storeLe_disjoint (by omega), pmmFillBootinfo,
      loadLe_storeLe_disjoint (by omega), loadLe_storeLe]
    exact Nat.mod_eq_of_lt (by omega)
  · rw [pagerFillBootinfo, loadLe_storeLe_disjoint (by omega), pmmFillBootinfo,
      loadLe_storeLe, count]
    exact Nat.mod_eq_of_lt (Nat.lt_of_le_of_lt short (by decide))
  · rw [pagerFillBootinfo, loadLe_storeLe]
    exact Nat.mod_eq_of_lt low

/-- Only the image matters. -/
theorem HoldsBootinfo.congr {bootinfo : SampoBootinfo} {m m' : Memory}
    (holds : HoldsBootinfo place info bootinfo m)
    (same : ∀ x ∈ Set.Ico kickstartStart kickstartEnd, m' x = m x) :
    HoldsBootinfo place info bootinfo m' := by
  have field : ∀ k, k + 8 ≤ 24 → loadLe m' (info + k) 8 = loadLe m (info + k) 8 :=
    fun k inInfo => loadLe_congr fun x start stop =>
      same x (placed.infoInside ⟨by omega, by omega⟩)
  refine ⟨fun i below => ?_, holds.short, ?_, ?_, ?_⟩
  · rw [← holds.records i below]
    have inArray : i < place.capacity :=
      placed.whole ▸ Nat.lt_of_lt_of_le below holds.short
    exact Place.get_congr fun x start stop =>
      same x (placed.inside (Place.record_subset inArray start stop))
  · rw [← holds.pointer]
    exact field 0 (by decide)
  · rw [← holds.count]
    exact field 8 (by decide)
  · rw [← holds.root]
    exact field 16 (by decide)

end Image

/-! ## What the kernel reads -/

/-- Read a `struct sampo_bootinfo_memory_region` through the page tables. -/
def readRegion (s : KernelState) (ptr : Nat) : Option MemoryRegion := do
  let addrStart ← readVirtual s ptr
  let addrEnd ← readVirtual s (ptr + 8)
  let type ← readVirtual s (ptr + 16)
  return { addrStart := addrStart, addrEnd := addrEnd, type := .ofCode type }

/-- Read the `struct sampo_bootinfo` that the kernel is passed, with the regions that it
points to. -/
def readBootinfo (s : KernelState) (info : Nat) : Option SampoBootinfo := do
  let memoryRegionsPtr ← readVirtual s info
  let memoryRegionsCount ← readVirtual s (info + 8)
  let bootstrapPagingStructurePtr ← readVirtual s (info + 16)
  let memoryRegions ← (List.range memoryRegionsCount).mapM fun i =>
    readRegion s (memoryRegionsPtr + 24 * i)
  return { memoryRegions := memoryRegions
           bootstrapPagingStructurePtr := bootstrapPagingStructurePtr }

/-- The first 2 MiB are mapped to themselves. -/
def IdentityMapped (s : KernelState) : Prop :=
  ∀ v, pageNumber v < 512 → ∃ mapping, translatePage s.physical s.root v = some mapping ∧
    mapping.frame = pageNumber v * 4096

theorem IdentityMapped.readVirtual {s : KernelState} (identity : IdentityMapped s)
    {v : Nat} (low : v < 0x200000) :
    Kernel.readVirtual s v = some (loadLe s.physical v 8) := by
  have page : pageNumber v = v / 4096 := by
    rw [pageNumber]
    omega
  obtain ⟨mapping, mapped, frame⟩ := identity v (by omega)
  rw [Kernel.readVirtual, Paging.translate, mapped, Option.map_some, Option.map_some,
    frame, page, Nat.mul_comm, Nat.div_add_mod]

/-- A kernel that sees the image reads what is in it. -/
theorem HoldsBootinfo.read {place : Place memoryRegionLayout 32}
    {info kickstartStart kickstartEnd : Nat} {bootinfo : SampoBootinfo} {s : KernelState}
    (holds : HoldsBootinfo place info bootinfo s.physical)
    (placed : BootinfoPlace place info kickstartStart kickstartEnd)
    (imageEnd : kickstartEnd ≤ 0x200000) (identity : IdentityMapped s) :
    readBootinfo s info = some bootinfo := by
  have infoEnd : info + 24 ≤ 0x200000 := by
    have last := (placed.infoInside (show info + 23 ∈ Set.Ico info (info + 24) from
      ⟨by omega, by omega⟩)).2
    omega
  have field : ∀ v, v < 0x200000 → readVirtual s v = some (loadLe s.physical v 8) :=
    fun v low => identity.readVirtual low
  have region : ∀ (i : Nat) (below : i < bootinfo.memoryRegions.length),
      readRegion s (place.base + 24 * i) = some bootinfo.memoryRegions[i] := by
    intro i below
    have inArray : i < place.capacity :=
      placed.whole ▸ Nat.lt_of_lt_of_le below holds.short
    have address : place.addr i = place.base + 24 * i := rfl
    have last := (placed.inside (Place.record_subset inArray
      (show place.addr i ≤ place.addr i + 23 by omega)
      (show place.addr i + 23 < place.addr i + 24 by omega))).2
    rw [address] at last
    rw [readRegion, field _ (by omega), field _ (by omega), field _ (by omega),
      ← holds.records i below, get_eq, address]
    rfl
  rw [readBootinfo, field _ (by omega), field _ (by omega), field _ (by omega),
    holds.pointer, holds.count, holds.root]
  simp only [Option.bind_eq_bind, Option.bind_some, mapM_range region, Option.pure_def]

section Machine

variable {info : MultibootInfo} {file : Nat → UInt8} {s done : KickstartState}
  {bootinfo entered : SampoBootinfo} {loaded first reserved : RegionTable}
  {kickstartStart kickstartEnd kernelName addr kernelElfLocation kernelElfEnd fuel
    magic bootinfoAddr : Nat} {serialInit hasLongmode : Bool} {k : KernelState}
  {place : Place memoryRegionLayout 32}

section Boot

variable
  (machine : BootMachine info file s kickstartStart kickstartEnd kernelName addr
    kernelElfLocation kernelElfEnd loaded first reserved)
  (enough : info.encode.length ≤ fuel)
  (ran : kickstartMain kickstartStart kickstartEnd kernelName fuel serialInit
    hasLongmode bootinfo addr magic s = some (some entered, done))
  (succeeded : ∀ outcome ∈ done.allocations, Succeeded outcome)

include machine enough ran succeeded

/-- The root that is handed over is a 64-bit address. -/
theorem kickstartMain_root_lt : entered.bootstrapPagingStructurePtr < 2 ^ 64 := by
  obtain ⟨_, _, _, _, inputs, boots⟩ := kickstartMain_enters machine enough ran
  obtain ⟨tables, space, ledger, pointer⟩ := kickstartBoot_ledger inputs boots succeeded
  have isRoot : tables [] = some entered.bootstrapPagingStructurePtr := by
    rw [pointer]
    exact ledger.pager.root
  have inTables : entered.bootstrapPagingStructurePtr ∈ tableBytes tables :=
    PageTree.entry_subset isRoot (by decide : 0 < 512) (by omega) (by omega)
  obtain ⟨block, isBlock, _, inBlock⟩ := ledger.owned inTables
  obtain ⟨other, same, _, _, high⟩ := succeeded _ (mem_grantedBlocks.mp isBlock)
  obtain rfl := Option.some.inj same
  have below := inBlock.2
  omega

/-- No memory becomes available while Kickstart boots. -/
theorem kickstartMain_available_subset :
    availableBytes entered.memoryRegions ⊆ availableBytes reserved := by
  obtain ⟨_, _, _, fresh, inputs, boots⟩ := kickstartMain_enters machine enough ran
  have account := kickstartBoot_account inputs machine.map fresh boots succeeded
  rw [account.availableBytes_eq, (inputs.account machine.map).availableBytes_eq]
  rintro x ⟨whole, free⟩
  exact ⟨whole, fun ⟨block, isTaken, inBlock⟩ =>
    free ⟨block, List.mem_append_right _ isTaken, inBlock⟩⟩

/-- Where Kickstart's image is kept out of the memory that is available, no granted
block shares a byte with it. -/
theorem kickstartMain_granted_outside
    (imageKept : Disjoint (availableBytes reserved) (Set.Ico kickstartStart kickstartEnd))
    {type : MemoryRegionType} {x : Nat} (inGranted : x ∈ grantedTo done.allocations type) :
    x ∉ Set.Ico kickstartStart kickstartEnd := by
  obtain ⟨walked, _, _, fresh, inputs, boots⟩ := kickstartMain_enters machine enough ran
  have owned := kickstartBoot_owns_memory inputs machine.map fresh boots succeeded
  obtain ⟨block, isBlock, _, inBlock⟩ := inGranted
  exact Set.disjoint_left.mp imageKept ((owned.granted block isBlock).2 inBlock)

/-- The boot leaves the boot information in its array and in `bootinfo`, and what is
around them as it was. -/
theorem kickstartMain_holdsBootinfo {low high : Nat} {m base : Memory}
    (placed : BootinfoPlace place bootinfoAddr low high)
    (memory : m = handedMemory place bootinfoAddr
      (bootArrayCalls (info.tags.flatMap MultibootTag.firmwareEntries) kickstartStart
        kickstartEnd kernelElfLocation kernelElfEnd done.allocations)
      entered.bootstrapPagingStructurePtr base) :
    HoldsBootinfo place bootinfoAddr entered m ∧ ∀ x ∉ Set.Ico low high, m x = base x := by
  obtain ⟨walked, _, _, fresh, inputs, boots⟩ := kickstartMain_enters machine enough ran
  have words := kickstartBoot_arrayCalls_words inputs fresh
    (firmwareEntries_multiboot info.tags) boots succeeded
  obtain ⟨rets, calls⟩ := kickstartBoot_arrayCalls inputs fresh boots succeeded
  rw [memory]
  exact ⟨handedMemory_holds placed words calls
      (kickstartMain_root_lt machine enough ran succeeded),
    fun x outside => handedMemory_outside placed words calls outside⟩

/-- A kernel that has kept the page tables sees the first 2 MiB at their own
addresses. -/
theorem kickstartMain_identityMapped
    (root : k.root = entered.bootstrapPagingStructurePtr)
    (sameTables : ∀ x ∈ grantedTo done.allocations .allocated,
      k.physical x = done.memory x) : IdentityMapped k := by
  obtain ⟨_, _, _, _, inputs, boots⟩ := kickstartMain_enters machine enough ran
  obtain ⟨tables, space, ledger, pointer⟩ := kickstartBoot_ledger inputs boots succeeded
  obtain ⟨image, _⟩ := kickstartBoot_kernelImage inputs boots succeeded
  have isRoot : tables [] = some k.root := by
    rw [root, pointer]
    exact ledger.pager.root
  have tree : PageTree k.physical tables space :=
    ledger.pager.tree.congr fun x inTables => sameTables x (ledger.owned inTables)
  intro v inFirst
  have sameSpace := ledger.pager.tree.translatePage_eq ledger.pager.root v
  rw [← pointer, image.identity v inFirst] at sameSpace
  rw [tree.translatePage_eq isRoot v]
  exact ⟨_, sameSpace.symm, rfl⟩

end Boot

/-- Where Kickstart's image is kept out of the memory that is available, what the boot
leaves in it is what the kernel reads through its page tables, and still reads once it
has set up its memory manager. -/
theorem kickstartMain_readBootinfo
    (machine : BootMachine info file s kickstartStart kickstartEnd kernelName addr
      kernelElfLocation kernelElfEnd loaded first reserved)
    (enough : info.encode.length ≤ fuel)
    (ran : kickstartMain kickstartStart kickstartEnd kernelName fuel serialInit
      hasLongmode bootinfo addr magic s = some (some entered, done))
    (succeeded : ∀ outcome ∈ done.allocations, Succeeded outcome)
    (placed : BootinfoPlace place bootinfoAddr kickstartStart kickstartEnd)
    (imageKept : Disjoint (availableBytes reserved) (Set.Ico kickstartStart kickstartEnd))
    (memory : k.physical = handedMemory place bootinfoAddr
      (bootArrayCalls (info.tags.flatMap MultibootTag.firmwareEntries) kickstartStart
        kickstartEnd kernelElfLocation kernelElfEnd done.allocations)
      entered.bootstrapPagingStructurePtr done.memory)
    (root : k.root = entered.bootstrapPagingStructurePtr) :
    readBootinfo k bootinfoAddr = some entered ∧
      ∀ {kernEnd : Nat}, entered.bootstrapPagingStructurePtr < 0x200000 →
        ManagerReady kernEnd entered k →
        ∃ after, Paged.initMemoryManager kernEnd entered k = some after ∧
          readBootinfo after bootinfoAddr = some entered := by
  have outsideImage : ∀ x ∈ grantedTo done.allocations .allocated,
      x ∉ Set.Ico kickstartStart kickstartEnd := fun x inBlocks =>
    kickstartMain_granted_outside machine enough ran succeeded imageKept inBlocks
  obtain ⟨holds, elsewhere⟩ := kickstartMain_holdsBootinfo machine enough ran succeeded
    placed memory
  have sameTables : ∀ x ∈ grantedTo done.allocations .allocated,
      k.physical x = done.memory x := fun x inBlocks =>
    elsewhere x (outsideImage x inBlocks)
  have identity := kickstartMain_identityMapped machine enough ran succeeded root
    sameTables
  have imageEnd : kickstartEnd ≤ 0x200000 := by
    obtain ⟨_, _, _, _, inputs, _⟩ := kickstartMain_enters machine enough ran
    exact inputs.imageEnd
  refine ⟨holds.read placed imageEnd identity, ?_⟩
  intro kernEnd lowRoot ready
  obtain ⟨handed, tables, space, after, space', tree, isRoot, owned, _, init,
    installed⟩ := kickstartMain_installs machine enough ran succeeded lowRoot sameTables
      root ready
  have stillHolds : HoldsBootinfo place bootinfoAddr entered after.physical := by
    refine holds.congr placed fun x inImage => installed.untouched x ?_ fun inFrames => ?_
    · exact fun inTables => outsideImage x (owned inTables) inImage
    · exact Set.disjoint_left.mp imageKept
        (kickstartMain_available_subset machine enough ran succeeded
          (handed.managerFrames_available inFrames)) inImage
  refine ⟨after, init, stillHolds.read placed imageEnd fun v inFirst => ?_⟩
  obtain ⟨mapping, mapped, frame⟩ := identity v inFirst
  have outsideSlot : OutsideSlot fractalMapPml4Idx (pageNumber v) := by
    rw [OutsideSlot, fractalMapPml4Idx]
    omega
  refine ⟨mapping, ?_, frame⟩
  rw [installed.root, installed.tree.translatePage_eq outsideSlot]
  exact installed.run.keeps ((tree.translatePage_eq isRoot v).symm.trans mapped)

end Machine

/-- The array and `bootinfo` in the image of the small machine, which ends at
0x108000. -/
def halfMebibyteArray : Place memoryRegionLayout 32 :=
  { arrayAtMebibyte with
    buffer := 0x107000
    bufferFits := by decide
    apart := by decide }

theorem halfMebibyteArray_placed {kickstartEnd : Nat} (room : 0x107118 ≤ kickstartEnd) :
    BootinfoPlace halfMebibyteArray 0x107100 0x100000 kickstartEnd where
  whole := rfl
  inside := by
    rintro x (⟨start, stop⟩ | ⟨start, stop⟩)
    · have below : x < 0x106000 := stop
      exact ⟨start, by omega⟩
    · have below : x < 0x107018 := stop
      have above : 0x107000 ≤ x := start
      exact ⟨by omega, by omega⟩
  infoInside := Set.Ico_subset_Ico (by decide) room
  apart := by
    rw [Set.disjoint_left]
    rintro x (⟨_, stop⟩ | ⟨_, stop⟩) ⟨start, _⟩
    · have below : x < 0x106000 := stop
      omega
    · have below : x < 0x107018 := stop
      omega

/-- What the small kernel is handed. -/
def halfMebibyteHanded (done : KickstartState) : KernelState :=
  { handedKernel with
    physical := handedMemory halfMebibyteArray 0x107100
      (bootArrayCalls (halfMebibyteInfo.tags.flatMap MultibootTag.firmwareEntries)
        0x100000 0x108000 0x110000 0x110079 done.allocations) 0x108000 done.memory }

/-- The small kernel reads it, also when it has set up its memory manager. -/
theorem kickstartMain_readBootinfo_halfMebibyte : ∃ done,
    kickstartMain 0x100000 0x108000 0x9060 96 true true ⟨[], 0⟩ 0x9000
        multiboot2BootloaderMagic halfMebibyteMachine =
          some (some halfMebibyteBootinfo, done) ∧
      readBootinfo (halfMebibyteHanded done) 0x107100 = some halfMebibyteBootinfo ∧
      ∃ after, Paged.initMemoryManager 0x200002 halfMebibyteBootinfo
          (halfMebibyteHanded done) = some after ∧
        readBootinfo after 0x107100 = some halfMebibyteBootinfo := by
  obtain ⟨done, tables, space, ran, succeeded, tree, isRoot, owned, itself, free⟩ :=
    halfMebibyteMachine_tree
  have placed : BootinfoPlace halfMebibyteArray 0x107100 0x100000 0x108000 :=
    halfMebibyteArray_placed (by decide)
  obtain ⟨_, elsewhere⟩ := kickstartMain_holdsBootinfo halfMebibyteMachine_boots
    (by decide +kernel) ran succeeded placed
    (show (halfMebibyteHanded done).physical = _ from rfl)
  have handedTree : PageTree (halfMebibyteHanded done).physical tables space :=
    tree.congr fun x inTables => elsewhere x (kickstartMain_granted_outside
      halfMebibyteMachine_boots (by decide +kernel) ran succeeded
      (disjoint_availableBytes (by decide)) (owned inTables))
  obtain ⟨read, later⟩ := kickstartMain_readBootinfo (k := halfMebibyteHanded done)
    halfMebibyteMachine_boots (by decide +kernel) ran succeeded
    placed (disjoint_availableBytes (by decide)) rfl rfl
  exact ⟨done, ran, read, later (by decide)
    (halfMebibyte_ready handedTree isRoot rfl rfl itself free)⟩

end SampoOS
