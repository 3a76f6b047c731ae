/-
Module: SampoOS.Kickstart.BootAccount
Purpose: An exact account of the memory over a whole boot: what the region table
  says when the kernel is entered, and who owns the rest.
Trusted boundary: none
Main exports: grantedBlocks, MemoryAccount, MemoryAccount.step,
  MemoryAccount.requests, takenByImages, kickstartBoot_account
-/
import Mathlib.Data.List.ReduceOption
import SampoOS.Kickstart.BootRequests

namespace SampoOS.Kickstart

/-- The blocks that were given for a list of requests, the last one first. -/
def grantedBlocks (history : List (Option MemoryRegion)) : List MemoryRegion :=
  history.reduceOption.reverse

theorem mem_grantedBlocks {history : List (Option MemoryRegion)}
    {block : MemoryRegion} : block ∈ grantedBlocks history ↔ some block ∈ history := by
  rw [grantedBlocks, List.mem_reverse, List.reduceOption_mem_iff]

@[simp] theorem grantedBlocks_nil : grantedBlocks [] = [] := rfl

theorem grantedBlocks_append (history : List (Option MemoryRegion))
    (outcome : Option MemoryRegion) :
    grantedBlocks (history ++ [outcome]) = outcome.toList ++ grantedBlocks history := by
  rw [grantedBlocks, List.reduceOption_append, List.reverse_append, grantedBlocks]
  cases outcome <;> rfl

/-! ## The account -/

/-- The table is an exact account of the memory: `loaded` is what was read from
the map `entries`, and `blocks` what was taken out of its whole pages since. -/
structure MemoryAccount (entries : List FirmwareEntry)
    (loaded table : RegionTable) (blocks : List MemoryRegion) : Prop extends
    RunInvariant entries table blocks where
  apart : blocks.Pairwise MemoryRegion.Apart
  inside : ∀ block ∈ blocks, block.bytes ⊆ wholePages entries
  others : ∀ region : MemoryRegion, region.type ≠ .available →
    (region ∈ table ↔ region ∈ loaded ∨ region ∈ blocks)

namespace MemoryAccount

variable {entries : List FirmwareEntry} {loaded table after : RegionTable}
  {blocks : List MemoryRegion}

/-- The account opens with the table that is read from the map. -/
theorem start (map : FirmwareMap entries)
    (added : pmmAddRegions [] entries = some loaded) :
    MemoryAccount entries loaded loaded [] where
  toRunInvariant := RunInvariant.start map added
  apart := List.Pairwise.nil
  inside := by simp
  others := by simp

/-- What a block carved out of the table does to its other entries. -/
theorem others_carved {block : MemoryRegion}
    (account : MemoryAccount entries loaded table blocks)
    (carves : Carves table block after) {region : MemoryRegion}
    (notAvailable : region.type ≠ .available) :
    region ∈ after ↔ region ∈ loaded ∨ region ∈ block :: blocks := by
  have others := account.others region notAvailable
  rw [List.mem_cons, or_left_comm, ← others]
  constructor
  · intro member
    obtain ⟨before, source, behind, rfl, carvesFrom⟩ := carves
    rcases carvesFrom.mem_after.mp member with rfl | rest | old
    · exact Or.inl rfl
    · exact absurd (carvesFrom.remainder rest).1 notAvailable
    · refine Or.inr ?_
      rcases List.mem_append.mp old with old | old <;> simp [old]
  · rintro (rfl | old)
    · exact carves.records
    · exact carves.keeps old notAvailable

/-- Every reservation and every allocation is booked. -/
theorem step {call : PmmCall} (account : MemoryAccount entries loaded table blocks)
    (effect : CallEffect table call after) :
    MemoryAccount entries loaded after ((call.carved table).toList ++ blocks) := by
  have keeps := account.toRunInvariant.step effect
  cases effect with
  | refused nothing =>
      rw [nothing] at keeps ⊢
      exact account
  | @carved _ block something carves taken alignedStart alignedEnd =>
      rw [something] at keeps ⊢
      have available := carves.block_available
      rw [account.availableBytes_eq] at available
      refine ⟨keeps, ?_, ?_, fun region notAvailable =>
        account.others_carved carves notAvailable⟩
      · refine List.pairwise_cons.mpr ⟨fun old member => ?_, account.apart⟩
        rw [MemoryRegion.apart_iff]
        exact fun x inBlock inOld => (available inBlock).2 ⟨old, member, inOld⟩
      · intro other member
        rcases List.mem_cons.mp member with rfl | old
        · exact fun x inBlock => (available inBlock).1
        · exact account.inside other old

/-- A reservation is booked, also where it is refused. -/
theorem reserve {start stop : Nat}
    (account : MemoryAccount entries loaded table blocks) (proper : start < stop)
    (fits : stop ≤ 0xFFFFF000)
    (ran : pmmReserveMemoryRegion table start stop = some after) :
    MemoryAccount entries loaded after
      ((reservedBlock table start stop).toList ++ blocks) := by
  have effect : CallEffect table (.reserve start stop) after :=
    PmmCall.effect account.keeps account.bounded ⟨proper, fits⟩ trivial ran
  exact account.step effect

/-- What the boot requests is booked, on top of what was taken before. -/
theorem requests (taken : List MemoryRegion) :
    RequestInvariant fun table history =>
      MemoryAccount entries loaded table (grantedBlocks history ++ taken) := by
  apply RequestInvariant.of_call
  intro table after history call account inRange notNull ran
  have booked := account.step
    (PmmCall.effect account.keeps account.bounded inRange notNull ran)
  rw [grantedBlocks_append, List.append_assoc]
  exact booked

/-- Of the types other than available, the table holds what was read and what was
taken. -/
theorem bytesOfType_eq
    (account : MemoryAccount entries loaded table blocks) {type : MemoryRegionType}
    (notAvailable : type ≠ .available) :
    bytesOfType table type = bytesOfType loaded type ∪ bytesOfType blocks type := by
  ext x
  simp only [Set.mem_union, mem_bytesOfType]
  constructor
  · rintro ⟨region, inside, rfl, member⟩
    rcases (account.others region notAvailable).mp inside with old | taken
    · exact Or.inl ⟨region, old, rfl, member⟩
    · exact Or.inr ⟨region, taken, rfl, member⟩
  · rintro (⟨region, old, rfl, member⟩ | ⟨region, taken, rfl, member⟩)
    · exact ⟨region, (account.others region notAvailable).mpr (Or.inl old), rfl, member⟩
    · exact ⟨region, (account.others region notAvailable).mpr (Or.inr taken), rfl,
        member⟩

/-- Two blocks of different types share no byte. -/
theorem types_disjoint
    (account : MemoryAccount entries loaded table blocks) {a b : MemoryRegionType}
    (different : a ≠ b) : Disjoint (bytesOfType blocks a) (bytesOfType blocks b) := by
  rw [Set.disjoint_left]
  rintro x ⟨first, isFirst, rfl, inFirst⟩ ⟨second, isSecond, rfl, inSecond⟩
  have forwards : blocks.Pairwise fun a b => a.type ≠ b.type → a.Apart b := by
    apply account.apart.imp
    exact fun apart _ => apart
  have backwards : blocks.Pairwise fun a b => b.type ≠ a.type → b.Apart a := by
    apply account.apart.imp
    exact fun apart _ => apart.symm
  have apart := List.Pairwise.forall_of_forall_of_flip
    (fun _ _ same => absurd rfl same) forwards backwards isFirst isSecond different
  exact MemoryRegion.apart_iff.mp apart x inFirst inSecond

end MemoryAccount

/-- The blocks are Kickstart's own or the kernel's. -/
def BootBlocks (blocks : List MemoryRegion) : Prop :=
  ∀ block ∈ blocks, block.type = .allocated ∨ block.type = .kernel

theorem BootBlocks.append {blocks more : List MemoryRegion} (isBoot : BootBlocks blocks)
    (moreBoot : BootBlocks more) : BootBlocks (blocks ++ more) :=
  List.forall_mem_append.mpr ⟨isBoot, moreBoot⟩

/-- What a reservation or an allocation of the boot carves out. -/
theorem PmmCall.carved_bootBlocks {table : RegionTable} {call : PmmCall}
    (inRange : call.InRange) : BootBlocks (call.carved table).toList := by
  intro block isBlock
  rw [Option.mem_toList] at isBlock
  cases call with
  | reserve start stop =>
      rw [PmmCall.carved, reservedBlock, Option.map_eq_some_iff] at isBlock
      obtain ⟨_, _, rfl⟩ := isBlock
      exact Or.inl rfl
  | allocate regionPageCount type =>
      rw [PmmCall.carved, allocatedBlock, Option.map_eq_some_iff] at isBlock
      obtain ⟨_, _, rfl⟩ := isBlock
      exact inRange.2.2

theorem BootBlocks.requests :
    RequestInvariant fun _ history => BootBlocks (grantedBlocks history) :=
  RequestInvariant.of_call fun isBoot inRange _ _ => by
    rw [grantedBlocks_append]
    exact (PmmCall.carved_bootBlocks inRange).append isBoot

/-! ## A whole boot -/

/-- What `kickstart_main` reserves for Kickstart's image and for the module, the
module first. -/
def takenByImages (loaded first : RegionTable)
    (kickstartStart kickstartEnd kernelElfLocation kernelElfEnd : Nat) :
    List MemoryRegion :=
  (reservedBlock first kernelElfLocation kernelElfEnd).toList ++
    (reservedBlock loaded kickstartStart kickstartEnd).toList

section Boot

variable {entries : List FirmwareEntry} {file : Nat → UInt8}
  {s done : KickstartState} {bootinfo entered : SampoBootinfo}
  {kickstartStart kickstartEnd kernelElfLocation kernelElfEnd : Nat}
  {first reserved : RegionTable} {hasLongmode : Bool}

/-- The account once both images are reserved. -/
theorem BootInputs.account
    (inputs : BootInputs entries file s kickstartStart kickstartEnd
      kernelElfLocation kernelElfEnd first reserved) (map : FirmwareMap entries) :
    MemoryAccount entries s.memoryRegions reserved (takenByImages s.memoryRegions
      first kickstartStart kickstartEnd kernelElfLocation kernelElfEnd) := by
  have imageEnd := inputs.imageEnd
  have image := (MemoryAccount.start map inputs.added).reserve inputs.imageProper
    (by omega) inputs.image
  have module := image.reserve inputs.moduleProper inputs.moduleLow inputs.module
  rw [List.append_nil] at module
  exact module

/-- The table that the kernel is given is an exact account of the memory: of the
whole pages that the firmware offered, just those that the images, the page
tables and the segments took are no longer available. -/
theorem kickstartBoot_account
    (inputs : BootInputs entries file s kickstartStart kickstartEnd
      kernelElfLocation kernelElfEnd first reserved)
    (map : FirmwareMap entries) (fresh : s.allocations = [])
    (ran : kickstartBoot kickstartStart kickstartEnd hasLongmode
      (some (kernelElfLocation, kernelElfEnd)) bootinfo s =
        some (some entered, done))
    (succeeded : ∀ outcome ∈ done.allocations, Succeeded outcome) :
    MemoryAccount entries s.memoryRegions entered.memoryRegions
      (grantedBlocks done.allocations ++ takenByImages s.memoryRegions first
        kickstartStart kickstartEnd kernelElfLocation kernelElfEnd) := by
  refine kickstartBoot_requests (MemoryAccount.requests _) inputs ran succeeded ?_
  rw [fresh, grantedBlocks_nil, List.nil_append]
  exact inputs.account map

end Boot

end SampoOS.Kickstart
