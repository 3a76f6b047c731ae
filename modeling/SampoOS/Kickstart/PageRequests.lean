/-
Module: SampoOS.Kickstart.PageRequests
Purpose: Runs of single-page allocations: the free pages come in ascending order, each
  of them once, and NULL comes only when none is left.
Trusted boundary: none
Main exports: pageRequests, PointersReach, PagesServed, pageRequests_served
-/
import Mathlib.Data.Finset.Card
import SampoOS.Kickstart.PagePool
import SampoOS.Kickstart.PmmBounds
import SampoOS.Lib.LeastFirst

namespace SampoOS.Kickstart

open LeastFirst (TakesLeast)

/-- Requests for one page each, of these types, with the pointers that they return. -/
def pageRequests : List MemoryRegionType → RegionTable →
    Option (List Nat × RegionTable)
  | [], table => some ([], table)
  | type :: rest, table =>
      (pmmAllocateRegionWithType table 1 type).bind fun (ret, table) =>
        (pageRequests rest table).map fun (rets, table) => (ret :: rets, table)

/-- Pointers of 32 bits reach the pages that so many requests take: every free page
lies below 4 GiB, or there are as many free pages below it as requests. -/
def PointersReach (pool : Set Nat) (requests : Nat) : Prop :=
  (∀ page ∈ pool, page < 2 ^ 20) ∨
    ∃ low : Finset Nat, (∀ page ∈ low, page ∈ pool ∧ page < 2 ^ 20) ∧
      requests ≤ low.card

namespace PointersReach

variable {pool : Set Nat} {requests page : Nat}

theorem least_lt (reach : PointersReach pool (requests + 1))
    (least : IsLeast pool page) : page < 2 ^ 20 := by
  rcases reach with all | ⟨low, inside, many⟩
  · exact all page least.1
  · obtain ⟨other, member⟩ := Finset.card_pos.mp (by omega : 0 < low.card)
    obtain ⟨free, small⟩ := inside other member
    exact lt_of_le_of_lt (least.2 free) small

/-- Once a page is taken, pointers reach the pages of the other requests. -/
theorem without (reach : PointersReach pool (requests + 1)) :
    PointersReach (pool \ {page}) requests := by
  rcases reach with all | ⟨low, inside, many⟩
  · exact Or.inl fun other free => all other free.1
  · refine Or.inr ⟨low.erase page, fun other member => ?_, ?_⟩
    · obtain ⟨different, member⟩ := Finset.mem_erase.mp member
      obtain ⟨free, small⟩ := inside other member
      exact ⟨⟨free, different⟩, small⟩
    · have smaller : low.card - 1 ≤ (low.erase page).card :=
        Finset.pred_card_le_card_erase
      omega

end PointersReach

/-- What a run of requests hands out. -/
structure PagesServed (table : RegionTable) (requests : Nat) (rets : List Nat)
    (after : RegionTable) (pages : List Nat) : Prop where
  free : ∀ page ∈ pages, page ∈ freePages table
  ascending : pages.Pairwise (· < ·)
  left : freePages after = freePages table \ {page | page ∈ pages}
  lowest : ∀ page ∈ pages, ∀ other ∈ freePages after, page < other
  few : pages.length ≤ requests
  exhausted : pages.length < requests → freePages after = ∅
  pointers : rets = pages.map (4096 * ·) ++
    List.replicate (requests - pages.length) 0

/-! ## The array has room -/

theorem AllocationStep.length_le {table after : RegionTable} {regionPageCount ret : Nat}
    {type : MemoryRegionType} {region block : MemoryRegion}
    (step : AllocationStep table regionPageCount type region block ret after) :
    after.length ≤ table.length + 1 := by
  obtain ⟨_, _, _, before, behind, rfl, edit⟩ := step
  rw [edit]
  split
  · apply Nat.le_trans (length_pmmSortRegions_le _)
    simp only [List.length_append, List.length_cons, List.length_nil]
    omega
  · simp only [List.length_append, List.length_cons, List.length_nil]
    omega

theorem length_le_succ_of_allocate {table after : RegionTable}
    {regionPageCount ret : Nat} {type : MemoryRegionType}
    (ran : pmmAllocateRegionWithType table regionPageCount type = some (ret, after)) :
    after.length ≤ table.length + 1 := by
  rcases pmmAllocateRegionWithType_cases ran with
    ⟨_, _, rfl⟩ | ⟨region, block, _, _, step⟩
  · exact Nat.le_succ _
  · exact step.length_le

/-- Each request uses at most one entry of the array, so a run for which there are
entries has a result. -/
theorem pageRequests_isSome (types : List MemoryRegionType) :
    ∀ {table : RegionTable}, table.length + types.length ≤ memoryRegionsLength →
      ∃ rets after, pageRequests types table = some (rets, after) := by
  induction types with
  | nil => exact fun {table} _ => ⟨[], table, rfl⟩
  | cons type types inductionHypothesis =>
      intro table room
      rw [List.length_cons] at room
      have spare : table.length < memoryRegionsLength := by omega
      obtain ⟨ret, next, first⟩ := pmmAllocateRegionWithType_isSome 1 type spare
      have longer := length_le_succ_of_allocate first
      have left : next.length + types.length ≤ memoryRegionsLength := by omega
      obtain ⟨rets, after, others⟩ := inductionHypothesis left
      refine ⟨ret :: rets, after, ?_⟩
      rw [pageRequests, first, Option.bind_some]
      dsimp only
      rw [others, Option.map_some]

/-! ## One request -/

theorem freePages_high {table : RegionTable} {page : Nat}
    (free : page ∈ freePages table) : 256 ≤ page := by
  obtain ⟨region, _, _, high, start, _⟩ := free
  omega

/-- Without a free page a request returns `NULL` and changes nothing. -/
theorem SearchableTable.requestPage_none {table after : RegionTable} {ret : Nat}
    {type : MemoryRegionType} (good : SearchableTable table)
    (nothing : freePages table = ∅)
    (ran : pmmAllocateRegionWithType table 1 type = some (ret, after)) :
    ret = 0 ∧ after = table := by
  rcases pmmAllocateRegionWithType_cases ran with ⟨_, null, same⟩ | ⟨region, _, chosen, _⟩
  · exact ⟨null, same⟩
  · obtain ⟨page, least, _⟩ := good.isLeast_freePages chosen
    rw [nothing] at least
    exact absurd least.1 (Set.notMem_empty page)

theorem pageRequests_none {types : List MemoryRegionType} {table : RegionTable}
    (good : SearchableTable table) (nothing : freePages table = ∅) :
    ∀ {rets : List Nat} {after : RegionTable},
      pageRequests types table = some (rets, after) →
      rets = List.replicate types.length 0 ∧ after = table := by
  induction types with
  | nil =>
      intro rets after ran
      rw [pageRequests, Option.some.injEq, Prod.mk.injEq] at ran
      exact ⟨ran.1.symm, ran.2.symm⟩
  | cons type types inductionHypothesis =>
      intro rets after ran
      rw [pageRequests, Option.bind_eq_some_iff] at ran
      obtain ⟨⟨ret, next⟩, first, others⟩ := ran
      obtain ⟨rfl, rfl⟩ := good.requestPage_none nothing first
      rw [Option.map_eq_some_iff] at others
      obtain ⟨⟨rest, last⟩, others, same⟩ := others
      obtain ⟨rfl, rfl⟩ := Prod.mk.inj same
      obtain ⟨rfl, rfl⟩ := inductionHypothesis others
      exact ⟨rfl, rfl⟩

/-- Each request takes the lowest free page, as long as there is one. -/
theorem pageRequests_takesLeast {types : List MemoryRegionType} :
    ∀ {table after : RegionTable} {rets : List Nat}, SearchableTable table →
      PointersReach (freePages table) types.length → (∀ type ∈ types, type ≠ .available) →
      pageRequests types table = some (rets, after) →
      ∃ pages, TakesLeast (freePages table) pages (freePages after) ∧
        pages.length ≤ types.length ∧
        (pages.length < types.length → freePages after = ∅) ∧
        rets = pages.map (4096 * ·) ++
          List.replicate (types.length - pages.length) 0 := by
  induction types with
  | nil =>
      intro table after rets _ _ _ ran
      rw [pageRequests, Option.some.injEq, Prod.mk.injEq] at ran
      obtain ⟨rfl, rfl⟩ := ran
      exact ⟨[], .nil _, Nat.le_refl 0, fun few => absurd few (Nat.lt_irrefl 0), rfl⟩
  | cons type types inductionHypothesis =>
      intro table after rets good reach taken ran
      rw [pageRequests, Option.bind_eq_some_iff] at ran
      obtain ⟨⟨ret, next⟩, first, others⟩ := ran
      rw [Option.map_eq_some_iff] at others
      obtain ⟨⟨rest, last⟩, others, same⟩ := others
      obtain ⟨rfl, rfl⟩ := Prod.mk.inj same
      rcases good.allocatePage (taken type List.mem_cons_self) first with
        ⟨nothing, _, _⟩ | ⟨page, served⟩
      · obtain ⟨rfl, rfl⟩ := good.requestPage_none nothing first
        obtain ⟨rfl, rfl⟩ := pageRequests_none good nothing others
        exact ⟨[], .nil _, Nat.zero_le _, fun _ => nothing, rfl⟩
      · have small := reach.least_lt served.least
        have high := freePages_high served.least.1
        have pointer : ret = 4096 * page := by
          rw [served.pointer]
          omega
        have notNull : ret ≠ 0 := by omega
        have left := served.left notNull
        have reachNext : PointersReach (freePages next) types.length := by
          rw [left]
          exact reach.without
        obtain ⟨pages, takes, few, exhausted, rfl⟩ := inductionHypothesis
          (served.ordered notNull) reachNext
          (fun other inside => taken other (List.mem_cons_of_mem _ inside)) others
        rw [left] at takes
        refine ⟨page :: pages, .cons served.least takes, Nat.succ_le_succ few,
          fun fewer => exhausted (Nat.lt_of_succ_lt_succ fewer), ?_⟩
        rw [pointer, List.map_cons, List.length_cons, List.length_cons,
          Nat.succ_sub_succ, List.cons_append]

/-- A run of single-page requests that the array has room for hands out the lowest
free pages in ascending order, each of them once, and returns `NULL` only when there is
no free page left. -/
theorem pageRequests_served {types : List MemoryRegionType} {table : RegionTable}
    (good : SearchableTable table)
    (room : table.length + types.length ≤ memoryRegionsLength)
    (reach : PointersReach (freePages table) types.length)
    (taken : ∀ type ∈ types, type ≠ .available) :
    ∃ rets after pages, pageRequests types table = some (rets, after) ∧
      PagesServed table types.length rets after pages := by
  obtain ⟨rets, after, ran⟩ := pageRequests_isSome types room
  obtain ⟨pages, takes, few, exhausted, pointers⟩ :=
    pageRequests_takesLeast good reach taken ran
  exact ⟨rets, after, pages, ran, takes.mem, takes.ascending, takes.rest_eq,
    takes.below_rest, few, exhausted, pointers⟩

/-- Five requests of which memory has the pages for three. -/
theorem pageRequests_served_threePages :
    ∃ rets after pages,
      pageRequests (List.replicate 5 .allocated) [⟨0x100000, 0x103000, .available⟩] =
        some (rets, after) ∧
      PagesServed [⟨0x100000, 0x103000, .available⟩] 5 rets after pages := by
  refine pageRequests_served
    (AllocatorTable.single (by decide) (by decide) (by decide) (by decide)).ordered
    (by decide) (Or.inl ?_) (by decide)
  rintro page ⟨region, inside, _, _, _, below⟩
  rw [List.mem_singleton.mp inside] at below
  dsimp only at below
  omega

end SampoOS.Kickstart
