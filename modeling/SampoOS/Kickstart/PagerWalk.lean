/-
Module: SampoOS.Kickstart.PagerWalk
Purpose: The walk of map_page as a recursion over its levels, with the log of
  what a call writes.
Trusted boundary: none
Main exports: tablePath, walkTables, mapPage_eq_walk, PagerWrite, mapPageWrites,
  mapPageWrites_replay, replay_outside
-/
import SampoOS.Kickstart.PagerSpec

namespace SampoOS.Kickstart

open BitFields (clearLow)
open ByteMemory
open Paging

/-! ## The walk -/

/-- The indices of an address into the PML4, the PDPT and the page directory. -/
def tablePath (virtAddr : Nat) : List Nat :=
  [tableIndex 3 virtAddr, tableIndex 2 virtAddr, tableIndex 1 virtAddr]

theorem lt_of_mem_tablePath {virtAddr index : Nat}
    (inside : index ∈ tablePath virtAddr) : index < 512 := by
  simp only [tablePath, List.mem_cons, List.not_mem_nil, or_false] at inside
  rcases inside with rfl | rfl | rfl <;> exact tableIndex_lt _ _

/-- The levels of `map_page` above the page table, one after the other. -/
def walkTables : Nat → List Nat → KickstartState → Option (Nat × KickstartState)
  | table, [], s => some (table, s)
  | table, index :: rest, s =>
      (nextTable table index s).bind fun (next, s) => walkTables next rest s

theorem walkTables_cons {table index target : Nat} {rest : List Nat}
    {s s' : KickstartState} :
    walkTables table (index :: rest) s = some (target, s') ↔
      ∃ next s₁, nextTable table index s = some (next, s₁) ∧
        walkTables next rest s₁ = some (target, s') := by
  simp [walkTables, Option.bind_eq_some_iff]

/-- `map_page` with 64-bit paging walks to the page table and ends there. -/
theorem mapPage_eq_walk {s s' : KickstartState}
    {physAddr virtAddr permFlags : Nat} (wide : s.pageType = .bits64) :
    mapPage physAddr virtAddr permFlags s = some s' ↔
      ∃ ptAddr s₁,
        walkTables s.topPageStructure (tablePath virtAddr) s =
            some (ptAddr, s₁) ∧
          mapEntry ptAddr (tableIndex 0 virtAddr) physAddr virtAddr permFlags s₁ =
            s' := by
  rw [mapPage_eq_some wide]
  simp only [tablePath, walkTables_cons]
  simp only [walkTables, Option.some.injEq, Prod.mk.injEq]
  constructor
  · rintro ⟨_, _, _, _, ptAddr, s₃, first, second, third, last⟩
    exact ⟨ptAddr, s₃, ⟨_, _, first, _, _, second, _, _, third, rfl, rfl⟩, last⟩
  · rintro ⟨_, _, ⟨_, _, first, _, _, second, ptAddr, s₃, third, rfl, rfl⟩, last⟩
    exact ⟨_, _, _, _, ptAddr, s₃, first, second, third, last⟩

/-! ## The log -/

/-- A write of the pager: clearing a table, linking a table into the one above
it, and mapping a page. -/
inductive PagerWrite where
  | clear (addr : Nat)
  | link (entryPtr addr : Nat)
  | map (entryPtr pte : Nat)
deriving Repr, DecidableEq

namespace PagerWrite

/-- The bytes that are written. -/
def bytes : PagerWrite → Set Nat
  | .clear addr => cyclicRange 32 addr 0x1000
  | .link entryPtr _ => Set.Ico entryPtr (entryPtr + 8)
  | .map entryPtr _ => Set.Ico entryPtr (entryPtr + 8)

/-- The memory after a write. -/
def apply (m : Memory) : PagerWrite → Memory
  | .clear addr => memset m addr 0 0x1000
  | .link entryPtr addr => storeLe m entryPtr 8 (addr ||| 0x2 ||| 0x1)
  | .map entryPtr pte => storeLe m entryPtr 8 pte

/-- A write changes no other byte. -/
theorem apply_outside (write : PagerWrite) {m : Memory} {x : Nat}
    (outside : x ∉ write.bytes) : write.apply m x = m x := by
  cases write with
  | clear addr => exact (fill_cyclic x).2 outside
  | link entryPtr addr =>
      apply storeLe_outside
      rw [bytes, Set.mem_Ico] at outside
      omega
  | map entryPtr pte =>
      apply storeLe_outside
      rw [bytes, Set.mem_Ico] at outside
      omega

end PagerWrite

/-- What one level of `map_page` writes. -/
def nextTableWrites (table index : Nat) (s : KickstartState) : List PagerWrite :=
  let entryPtr := (table + 0x08 * index) % 2 ^ 32
  if loadLe s.memory entryPtr 8 = 0 then
    (allocateRegion 1 s).elim [] fun (addr, _) =>
      [.clear addr, .link entryPtr addr]
  else []

/-- What the levels above the page table write. -/
def walkWrites : Nat → List Nat → KickstartState → List PagerWrite
  | _, [], _ => []
  | table, index :: rest, s =>
      nextTableWrites table index s ++
        (nextTable table index s).elim [] fun (next, s) => walkWrites next rest s

/-- What the end of `map_page` writes. -/
def mapEntryWrites (ptAddr ptIdx physAddr permFlags : Nat) (s : KickstartState) :
    List PagerWrite :=
  let entryPtr := (ptAddr + 0x08 * ptIdx) % 2 ^ 32
  if loadLe s.memory entryPtr 8 ≠ 0 then []
  else [.map entryPtr (pageEntry physAddr permFlags)]

/-- What a call of `map_page` writes, in order. -/
def mapPageWrites (physAddr virtAddr permFlags : Nat) (s : KickstartState) :
    List PagerWrite :=
  match s.pageType with
  | .bits32 => []
  | .bits64 =>
      walkWrites s.topPageStructure (tablePath virtAddr) s ++
        (walkTables s.topPageStructure (tablePath virtAddr) s).elim []
          fun (ptAddr, s) =>
            mapEntryWrites ptAddr (tableIndex 0 virtAddr) physAddr permFlags s

/-- The memory after a list of writes. -/
def replay (writes : List PagerWrite) (m : Memory) : Memory :=
  writes.foldl PagerWrite.apply m

theorem replay_append (first second : List PagerWrite) (m : Memory) :
    replay (first ++ second) m = replay second (replay first m) :=
  List.foldl_append

theorem nextTableWrites_replay {table index next : Nat} {s s' : KickstartState}
    (ran : nextTable table index s = some (next, s')) :
    s'.memory = replay (nextTableWrites table index s) s.memory := by
  rcases nextTable_cases ran with ⟨present, rfl, _⟩ | ⟨zero, s₁, given, rfl⟩
  · rw [nextTableWrites, if_neg present]
    rfl
  · have sameMemory := allocateRegionWithType_memory given
    simp only [nextTableWrites, if_pos zero, given, sameMemory]
    rfl

theorem walkWrites_replay {indices : List Nat} :
    ∀ {table target : Nat} {s s' : KickstartState},
      walkTables table indices s = some (target, s') →
      s'.memory = replay (walkWrites table indices s) s.memory := by
  induction indices with
  | nil =>
      intro table target s s' ran
      simp only [walkTables, Option.some.injEq, Prod.mk.injEq] at ran
      rw [ran.2]
      rfl
  | cons index rest inductionHypothesis =>
      intro table target s s' ran
      obtain ⟨next, s₁, first, ran⟩ := walkTables_cons.mp ran
      rw [inductionHypothesis ran, nextTableWrites_replay first, walkWrites, first,
        replay_append, Option.elim_some]

theorem mapEntryWrites_replay (ptAddr ptIdx physAddr virtAddr permFlags : Nat)
    (s : KickstartState) :
    (mapEntry ptAddr ptIdx physAddr virtAddr permFlags s).memory =
      replay (mapEntryWrites ptAddr ptIdx physAddr permFlags s) s.memory := by
  by_cases mapped : loadLe s.memory ((ptAddr + 0x08 * ptIdx) % 2 ^ 32) 8 ≠ 0
  · simp only [mapEntry, mapEntryWrites, if_pos mapped, serialPrintf, replay,
      List.foldl_nil]
  · simp only [mapEntry, mapEntryWrites, if_neg mapped, replay, List.foldl_cons,
      List.foldl_nil, PagerWrite.apply]

theorem mapPageWrites_eq {physAddr virtAddr permFlags ptAddr : Nat}
    {s s₁ : KickstartState} (wide : s.pageType = .bits64)
    (walked : walkTables s.topPageStructure (tablePath virtAddr) s =
      some (ptAddr, s₁)) :
    mapPageWrites physAddr virtAddr permFlags s =
      walkWrites s.topPageStructure (tablePath virtAddr) s ++
        mapEntryWrites ptAddr (tableIndex 0 virtAddr) physAddr permFlags s₁ := by
  rw [mapPageWrites, wide]
  dsimp only
  rw [walked, Option.elim_some]

/-- The log is what the call writes: replaying it gives the memory after the
call. -/
theorem mapPageWrites_replay {physAddr virtAddr permFlags : Nat}
    {s s' : KickstartState}
    (ran : mapPage physAddr virtAddr permFlags s = some s') :
    s'.memory = replay (mapPageWrites physAddr virtAddr permFlags s) s.memory := by
  cases type : s.pageType with
  | bits32 =>
      have nothing : mapPageWrites physAddr virtAddr permFlags s = [] := by
        rw [mapPageWrites, type]
      rw [mapPage, type] at ran
      rw [nothing, ← Option.some.inj ran, replay, List.foldl_nil]
  | bits64 =>
      obtain ⟨ptAddr, s₁, walked, rfl⟩ := (mapPage_eq_walk type).mp ran
      rw [mapPageWrites_eq type walked, replay_append,
        mapEntryWrites_replay ptAddr (tableIndex 0 virtAddr) physAddr virtAddr
          permFlags s₁, walkWrites_replay walked]

/-- Replaying a log changes no byte that it does not name. -/
theorem replay_outside {x : Nat} (writes : List PagerWrite) (m : Memory)
    (outside : ∀ write ∈ writes, x ∉ write.bytes) : replay writes m x = m x := by
  induction writes generalizing m with
  | nil => rfl
  | cons write rest inductionHypothesis =>
      calc
        replay (write :: rest) m x = replay rest (write.apply m) x := rfl
        _ = write.apply m x := inductionHypothesis _ fun later inside =>
          outside later (List.mem_cons_of_mem _ inside)
        _ = m x := write.apply_outside (outside write List.mem_cons_self)

end SampoOS.Kickstart
