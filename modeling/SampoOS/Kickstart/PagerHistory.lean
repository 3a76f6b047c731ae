/-
Module: SampoOS.Kickstart.PagerHistory
Purpose: What a run of map_page leaves in the history: the pages that it reports
  as mapped already, and no block for the kernel.
Trusted boundary: none
Main exports: refusals, kernelBlocks, pagesOf, mapPages_refusals,
  mapPages_kernelBlocks, mapCalls_eq_none_iff, mapCalls_of_fresh
-/
import SampoOS.Kickstart.PagerSpec

namespace SampoOS.Kickstart

open ByteMemory
open Paging

/-! ## Refused mappings -/

/-- The message of `map_page` for a page that is mapped already. -/
def alreadyMapped : String :=
  "Virtual address 0x%x%x is already mapped to physical address 0x%x%x!\n"

/-- How often `map_page` has found its page mapped already. -/
def refusals (s : KickstartState) : Nat :=
  s.serial.countP fun line => line.1 == alreadyMapped

theorem refusals_congr {s s' : KickstartState} (same : s'.serial = s.serial) :
    refusals s' = refusals s := by
  rw [refusals, same, refusals]

theorem refusals_serialPrintf (format : String) (arguments : List Nat)
    (s : KickstartState) :
    refusals (serialPrintf format arguments s) =
      refusals s + if format = alreadyMapped then 1 else 0 := by
  rw [refusals, serialPrintf, List.countP_append, List.countP_singleton]
  simp [refusals]

/-- The end of `map_page` refuses exactly the pages that are mapped. -/
theorem PagerInvariant.mapEntry_refusals {s : KickstartState} {tables : Tables}
    {space : AddressSpace} {path : List Nat} {table index page : Nat}
    (pager : PagerInvariant s tables space) (physAddr virtAddr permFlags : Nat)
    (found : tables path = some table) (isPath : pagePath page = path ++ [index])
    (word : page < 2 ^ 36) :
    refusals (mapEntry table index physAddr virtAddr permFlags s) =
      refusals s + if (space page).isSome then 1 else 0 := by
  have inTable := pagePath_last_lt isPath
  have lowTable := pager.low found
  have entry := pager.tree.entries word found isPath
  have pointer : (table + 0x08 * index) % 2 ^ 32 = table + 8 * index :=
    Nat.mod_eq_of_lt (by omega)
  rw [mapEntry, pointer]
  cases mapped : space page with
  | some mapping =>
      rw [mapped] at entry
      have notZero : loadLe s.memory (table + 8 * index) 8 ≠ 0 :=
        Maps.ne_zero entry
      dsimp only
      rw [if_pos notZero, refusals_serialPrintf, alreadyMapped, if_pos rfl,
        Option.isSome_some, if_pos rfl]
  | none =>
      rw [mapped] at entry
      have zero : loadLe s.memory (table + 8 * index) 8 = 0 := entry
      dsimp only
      rw [if_neg (not_not.mpr zero), Option.isSome_none,
        if_neg Bool.false_ne_true, Nat.add_zero]
      exact refusals_congr rfl

/-- A call whose tables could be allocated refuses its page exactly when that is
mapped. -/
theorem mapPage_refusals {s s' : KickstartState} {tables : Tables}
    {space : AddressSpace} {physAddr virtAddr permFlags : Nat}
    (pager : PagerInvariant s tables space)
    (ran : mapPage physAddr virtAddr permFlags s = some s')
    (succeeded : ∀ outcome ∈ s'.allocations, Succeeded outcome) :
    refusals s' =
      refusals s + if (space (pageNumber virtAddr)).isSome then 1 else 0 := by
  obtain ⟨s₃, tables₃, ptAddr, pager₃, _, serial, found, rfl⟩ :=
    mapPage_reaches pager ran succeeded
  rw [pager₃.mapEntry_refusals physAddr virtAddr permFlags found
    (pagePath_pageNumber virtAddr) (pageNumber_lt virtAddr),
    refusals_congr serial]

/-- The pages that calls are for. -/
def pagesOf (calls : List MapCall) : List Nat :=
  calls.map fun call => pageNumber call.virtAddr

@[simp] theorem pagesOf_cons (call : MapCall) (calls : List MapCall) :
    pagesOf (call :: calls) = pageNumber call.virtAddr :: pagesOf calls :=
  List.map_cons

@[simp] theorem pagesOf_append (calls calls' : List MapCall) :
    pagesOf (calls ++ calls') = pagesOf calls ++ pagesOf calls' :=
  List.map_append

/-- A page is unmapped after some calls exactly when it was unmapped before and
none of them is for it. -/
theorem mapCalls_eq_none_iff {calls : List MapCall} {space : AddressSpace}
    {page : Nat} :
    mapCalls calls space page = none ↔
      space page = none ∧ page ∉ pagesOf calls := by
  rw [mapCalls, foldl_mapFirst, Option.or_eq_none_iff, Option.map_eq_none_iff,
    List.find?_eq_none]
  simp [pagesOf]

/-- Calls in two parts are for distinct unmapped pages exactly when either part
is, the second one where the first has mapped its pages. -/
theorem fresh_append {calls calls' : List MapCall} {space : AddressSpace} :
    ((pagesOf (calls ++ calls')).Nodup ∧
        ∀ page ∈ pagesOf (calls ++ calls'), space page = none) ↔
      ((pagesOf calls).Nodup ∧ ∀ page ∈ pagesOf calls, space page = none) ∧
        ((pagesOf calls').Nodup ∧
          ∀ page ∈ pagesOf calls', mapCalls calls space page = none) := by
  rw [pagesOf_append, List.nodup_append, List.forall_mem_append]
  simp only [mapCalls_eq_none_iff]
  constructor
  · rintro ⟨⟨distinct, distinct', apart⟩, unmapped, fresh⟩
    exact ⟨⟨distinct, unmapped⟩, distinct',
      fun page new => ⟨fresh page new, fun old => apart page old page new rfl⟩⟩
  · rintro ⟨⟨distinct, unmapped⟩, distinct', fresh⟩
    refine ⟨⟨distinct, distinct', ?_⟩, unmapped, fun page new => (fresh page new).1⟩
    rintro page old _ new rfl
    exact (fresh page new).2 old

/-- Calls refuse none of their pages exactly when these are distinct and none of
them was mapped before. -/
theorem mapPages_refusals {calls : List MapCall} : ∀ {s s' : KickstartState}
    {tables : Tables} {space : AddressSpace}, PagerInvariant s tables space →
    (∀ call ∈ calls, 4096 ∣ call.physAddr ∧ call.physAddr < 2 ^ 52) →
    mapPages calls s = some s' →
    (∀ outcome ∈ s'.allocations, Succeeded outcome) →
    refusals s ≤ refusals s' ∧
      (refusals s' = refusals s ↔
        (pagesOf calls).Nodup ∧ ∀ page ∈ pagesOf calls, space page = none) := by
  induction calls with
  | nil =>
      intro s s' tables space _ _ ran _
      simp only [mapPages, List.foldlM_nil, Option.pure_def,
        Option.some.injEq] at ran
      simp [ran, pagesOf]
  | cons call calls inductionHypothesis =>
      intro s s' tables space pager frames ran succeeded
      obtain ⟨s₁, first, rest⟩ := mapPages_cons.mp ran
      have frame := frames call List.mem_cons_self
      have succeeded₁ : ∀ outcome ∈ s₁.allocations, Succeeded outcome :=
        fun outcome inside =>
          succeeded outcome (mapPages_allocations rest inside)
      have refused := mapPage_refusals pager first succeeded₁
      obtain ⟨tables₁, pager₁, _⟩ := mapPage_spec pager frame.1 frame.2 first
        succeeded₁
      obtain ⟨grows, accepted⟩ := inductionHypothesis pager₁
        (fun call inside => frames call (List.mem_cons_of_mem _ inside)) rest
        succeeded
      cases mapped : space (pageNumber call.virtAddr) with
      | some mapping =>
          rw [mapped, Option.isSome_some, if_pos rfl] at refused
          refine ⟨by omega, iff_of_false (by omega) ?_⟩
          rintro ⟨_, unmapped⟩
          have absent := unmapped _ List.mem_cons_self
          rw [mapped] at absent
          cases absent
      | none =>
          rw [mapped, Option.isSome_none, if_neg Bool.false_ne_true,
            Nat.add_zero] at refused
          have single : (pagesOf [call]).Nodup ∧
              ∀ page ∈ pagesOf [call], space page = none := by
            simpa [pagesOf] using mapped
          rw [← refused, accepted, ← List.singleton_append, fresh_append,
            and_iff_right single]
          exact ⟨grows, Iff.rfl⟩

/-- The blocks that requests of the type for the kernel were given, in order. -/
def kernelBlocks (s : KickstartState) : List MemoryRegion :=
  s.allocations.filterMap fun outcome =>
    outcome.filter fun block => decide (block.type = .kernel)

theorem kernelBlocks_congr {s s' : KickstartState}
    (same : s'.allocations = s.allocations) : kernelBlocks s' = kernelBlocks s := by
  rw [kernelBlocks, same, kernelBlocks]

/-- Page tables are not requested as memory for the kernel. -/
theorem nextTable_kernelBlocks {s s' : KickstartState} {table index next : Nat}
    (ran : nextTable table index s = some (next, s')) :
    kernelBlocks s' = kernelBlocks s := by
  rcases nextTable_cases ran with ⟨_, rfl, _⟩ | ⟨_, s₁, given, rfl⟩
  · rfl
  · obtain ⟨_, _, rfl⟩ := allocateRegionWithType_cases given
    simp only [kernelBlocks, List.filterMap_append, allocatedBlock]
    cases firstFit s.memoryRegions 1 <;> simp

theorem mapPage_kernelBlocks {s s' : KickstartState}
    {physAddr virtAddr permFlags : Nat}
    (ran : mapPage physAddr virtAddr permFlags s = some s') :
    kernelBlocks s' = kernelBlocks s := by
  cases type : s.pageType with
  | bits32 =>
      rw [mapPage, type] at ran
      rw [Option.some.inj ran]
  | bits64 =>
      obtain ⟨_, s₁, _, s₂, _, s₃, first, second, third, rfl⟩ :=
        (mapPage_eq_some type).mp ran
      rw [kernelBlocks_congr (mapEntry_sameControl _ _ _ _ _ _).allocations,
        nextTable_kernelBlocks third, nextTable_kernelBlocks second,
        nextTable_kernelBlocks first]

theorem mapPages_kernelBlocks {calls : List MapCall} :
    ∀ {s s' : KickstartState}, mapPages calls s = some s' →
      kernelBlocks s' = kernelBlocks s := by
  induction calls with
  | nil =>
      intro s s' ran
      simp only [mapPages, List.foldlM_nil, Option.pure_def,
        Option.some.injEq] at ran
      rw [ran]
  | cons call calls inductionHypothesis =>
      intro s s' ran
      obtain ⟨s₁, first, rest⟩ := mapPages_cons.mp ran
      rw [inductionHypothesis rest, mapPage_kernelBlocks first]

end SampoOS.Kickstart
