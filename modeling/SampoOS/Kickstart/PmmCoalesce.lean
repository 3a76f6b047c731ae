/-
Module: SampoOS.Kickstart.PmmCoalesce
Purpose: Coalescing is complete: after a release no two available regions touch,
  however many did before.
Trusted boundary: none
Main exports: NoTouch, absorb_complete, Coalesced, coalesce_complete,
  pmmDeallocate_coalesces
-/
import SampoOS.Kickstart.PmmRelease

namespace SampoOS.Kickstart

open Relation (ReflTransGen)

/-! ## Absorbing is complete -/

/-- Two available regions that have bytes, of which the second does not begin
where the first ends. -/
def NoTouch (a b : MemoryRegion) : Prop :=
  a.type = .available → b.type = .available → isEmpty a = false →
    isEmpty b = false → a.addrEnd ≠ b.addrStart

/-- A region without bytes touches none. -/
theorem noTouch_of_isEmpty {a b : MemoryRegion}
    (empty : isEmpty a = true ∨ isEmpty b = true) : NoTouch a b := by
  intro _ _ fullA fullB
  rcases empty with empty | empty
  · rw [empty] at fullA
    cases fullA
  · rw [empty] at fullB
    cases fullB

/-- Regions without bytes are the ones that merging has left behind. -/
def EmptyAvailable (table : RegionTable) : Prop :=
  ∀ region ∈ table, isEmpty region = true → region.type = .available

theorem absorb_head (head : MemoryRegion) (rest : RegionTable) :
    (absorb head rest).1.addrStart = head.addrStart ∧
      (absorb head rest).1.type = head.type := by
  induction rest generalizing head with
  | nil => exact ⟨rfl, rfl⟩
  | cons current rest inductionHypothesis =>
      rw [absorb]
      split_ifs
      · exact ⟨rfl, rfl⟩
      · exact inductionHypothesis head
      · exact ⟨rfl, rfl⟩
      · exact inductionHypothesis { head with addrEnd := current.addrEnd }

theorem length_absorb (head : MemoryRegion) (rest : RegionTable) :
    (absorb head rest).2.length = rest.length := by
  induction rest generalizing head with
  | nil => rfl
  | cons current rest inductionHypothesis =>
      rw [absorb]
      split_ifs
      · rfl
      · exact congrArg (· + 1) (inductionHypothesis head)
      · rfl
      · exact congrArg (· + 1)
          (inductionHypothesis { head with addrEnd := current.addrEnd })

/-- What is left behind the head was there before, or it is empty and
available. -/
theorem mem_absorb {head region : MemoryRegion} {rest : RegionTable}
    (inside : region ∈ (absorb head rest).2) :
    region ∈ rest ∨ isEmpty region = true ∧ region.type = .available := by
  induction rest generalizing head with
  | nil => exact Or.inl inside
  | cons current rest inductionHypothesis =>
      rw [absorb] at inside
      split_ifs at inside with taken empty apart
      · exact Or.inl inside
      · rcases List.mem_cons.mp inside with rfl | inside
        · exact Or.inl List.mem_cons_self
        · exact (inductionHypothesis inside).imp_left (List.mem_cons_of_mem _)
      · exact Or.inl inside
      · rw [ne_eq, not_not] at taken
        rcases List.mem_cons.mp inside with rfl | inside
        · exact Or.inr ⟨isEmpty_iff.mpr rfl, taken⟩
        · exact (inductionHypothesis inside).imp_left (List.mem_cons_of_mem _)

/-- Behind a region with bytes, regions with bytes start at its end at the
earliest. -/
theorem MergeOrder.stop_le {a b : MemoryRegion} {front between back : RegionTable}
    (order : MergeOrder (front ++ a :: (between ++ b :: back)))
    (properA : isEmpty a = false) (properB : isEmpty b = false) :
    a.addrEnd ≤ b.addrStart := by
  obtain ⟨ordered, apart, ascending⟩ := order
  rw [isEmpty_false_iff] at properA properB
  have orderedA := ordered a (by simp)
  have orderedB := ordered b (by simp)
  simp only [List.pairwise_append, List.pairwise_cons, List.mem_append,
    List.mem_cons] at apart ascending
  have starts := ascending.2.1.1 b (Or.inr (Or.inl rfl)) (by omega)
  have disjoint := MemoryRegion.apart_iff.mp (apart.2.1.1 b (Or.inr (Or.inl rfl)))
  by_contra overlap
  exact disjoint b.addrStart ⟨starts, by omega⟩ ⟨Nat.le_refl _, by omega⟩

theorem MergeOrder.sublist {table table' : RegionTable} (order : MergeOrder table)
    (sub : table'.Sublist table) : MergeOrder table' :=
  ⟨fun region inside => order.ordered region (sub.subset inside),
    order.apart.sublist sub, order.ascending.sublist sub⟩

/-- A region with bytes that does not touch the head keeps the others away. -/
theorem MergeOrder.noTouch_behind {head current : MemoryRegion}
    {rest : RegionTable} (order : MergeOrder (head :: current :: rest))
    (proper : isEmpty head = false) (full : isEmpty current = false)
    (apart : current.type = .available → head.addrEnd ≠ current.addrStart) :
    ∀ region ∈ current :: rest, NoTouch head region := by
  intro region inside _ regionAvailable _ regionFull touching
  rcases List.mem_cons.mp inside with rfl | inside
  · exact apart regionAvailable touching
  · obtain ⟨between, back, rfl⟩ := List.append_of_mem inside
    have first := @MergeOrder.stop_le head current [] [] _ order proper full
    have second := @MergeOrder.stop_le current region [head] between back order
      full regionFull
    have ordered := order.ordered current (by simp)
    rw [isEmpty_false_iff] at full
    omega

/-- Once a head has stopped absorbing, no available region behind it begins
where it ends. -/
theorem absorb_complete {rest : RegionTable} :
    ∀ {head : MemoryRegion}, MergeOrder (head :: rest) → EmptyAvailable rest →
      head.type = .available → isEmpty head = false →
      ∀ region ∈ (absorb head rest).2, NoTouch (absorb head rest).1 region := by
  induction rest with
  | nil => exact fun _ _ _ _ _ inside => absurd inside List.not_mem_nil
  | cons current rest inductionHypothesis =>
      intro head order empties available proper
      have emptiesRest : EmptyAvailable rest :=
        fun region inside => empties region (List.mem_cons_of_mem _ inside)
      rw [absorb]
      split_ifs with taken empty apart
      · apply order.noTouch_behind proper
        · by_contra isEmpty
          rw [Bool.not_eq_false] at isEmpty
          exact taken (empties current List.mem_cons_self isEmpty)
        · exact fun isAvailable => absurd isAvailable taken
      · have shorter := inductionHypothesis
          (order.sublist (List.Sublist.cons_cons _ (List.sublist_cons_self _ _)))
          emptiesRest available proper
        intro region inside
        rcases List.mem_cons.mp inside with rfl | inside
        · exact noTouch_of_isEmpty (Or.inr empty)
        · exact shorter region inside
      · rw [Bool.not_eq_true] at empty
        exact order.noTouch_behind proper empty fun _ => apart
      · rw [ne_eq, not_not] at taken apart
        rw [isEmpty_false_iff] at proper
        have ordered := order.ordered head (by simp)
        have currentOrdered := order.ordered current (by simp)
        have merged := (Merge.merge [] [] rest head current available taken
          (Nat.lt_of_le_of_ne ordered proper) apart).preserves_order order
        have longer : isEmpty { head with addrEnd := current.addrEnd } = false :=
          isEmpty_false_iff.mpr (by dsimp only; omega)
        have shorter := inductionHypothesis
          (merged.sublist (List.Sublist.cons_cons _ (List.sublist_cons_self _ _)))
          emptiesRest available longer
        intro region inside
        rcases List.mem_cons.mp inside with rfl | inside
        · intro _ _ _ full
          rw [isEmpty_false_iff] at full
          exact absurd rfl full
        · exact shorter region inside

/-! ## The outer loop -/

/-- One turn of the outer loop skips a head that is not available or has no
bytes, and lets any other absorb what follows. -/
theorem coalesceAt_cases (front rest : RegionTable) (head : MemoryRegion) :
    ((head.type ≠ .available ∨ isEmpty head = true) ∧
        coalesceAt (front ++ head :: rest) front.length = front ++ head :: rest) ∨
      head.type = .available ∧ isEmpty head = false ∧
        coalesceAt (front ++ head :: rest) front.length =
          front ++ (absorb head rest).1 :: (absorb head rest).2 := by
  rw [coalesceAt, List.drop_left, List.take_left]
  dsimp only
  split_ifs with taken empty
  · exact Or.inl ⟨Or.inl taken, rfl⟩
  · exact Or.inl ⟨Or.inr empty, rfl⟩
  · exact Or.inr ⟨not_not.mp taken, by rwa [Bool.not_eq_true] at empty, rfl⟩

/-- The outer loop has dealt with the regions in front. -/
structure Coalesced (front back : RegionTable) : Prop where
  order : MergeOrder (front ++ back)
  empties : EmptyAvailable (front ++ back)
  first : front.Pairwise NoTouch
  across : ∀ a ∈ front, ∀ b ∈ back, NoTouch a b

namespace Coalesced

variable {front rest : RegionTable} {head : MemoryRegion}

/-- A head that is skipped touches nothing behind it. -/
theorem skip (coalesced : Coalesced front (head :: rest))
    (skipped : head.type ≠ .available ∨ isEmpty head = true) :
    Coalesced (front ++ [head]) rest := by
  obtain ⟨order, empties, first, across⟩ := coalesced
  refine ⟨by simpa using order, by simpa using empties, ?_, ?_⟩
  · rw [List.pairwise_append]
    refine ⟨first, List.pairwise_singleton _ _, fun a inside b isHead => ?_⟩
    rw [List.mem_singleton.mp isHead]
    exact across a inside head List.mem_cons_self
  · intro a inside b behind
    rcases List.mem_append.mp inside with inside | isHead
    · exact across a inside b (List.mem_cons_of_mem _ behind)
    · obtain rfl := List.mem_singleton.mp isHead
      rcases skipped with taken | empty
      · exact fun available => absurd available taken
      · exact noTouch_of_isEmpty (Or.inl empty)

/-- A head that has absorbed what touches it touches nothing behind it. -/
theorem absorbed (coalesced : Coalesced front (head :: rest))
    (available : head.type = .available) (full : isEmpty head = false)
    (turned : coalesceAt (front ++ head :: rest) front.length =
      front ++ (absorb head rest).1 :: (absorb head rest).2) :
    Coalesced (front ++ [(absorb head rest).1]) (absorb head rest).2 := by
  obtain ⟨order, empties, first, across⟩ := coalesced
  have emptiesRest : EmptyAvailable rest :=
    fun region inside => empties region (by simp [inside])
  obtain ⟨start, type⟩ := absorb_head head rest
  refine ⟨?_, ?_, ?_, ?_⟩
  · have merges := coalesceAt_merges order front.length
    rw [turned] at merges
    simpa using order.of_merges merges
  · intro region inside empty
    simp only [List.append_assoc, List.singleton_append, List.mem_append,
      List.mem_cons] at inside
    rcases inside with inside | rfl | inside
    · exact empties region (by simp [inside]) empty
    · rw [type, available]
    · rcases mem_absorb inside with old | ⟨_, isAvailable⟩
      · exact emptiesRest region old empty
      · exact isAvailable
  · rw [List.pairwise_append]
    refine ⟨first, List.pairwise_singleton _ _, fun a inside b isHead => ?_⟩
    rw [List.mem_singleton.mp isHead]
    intro availableA _ fullA _
    rw [start]
    exact across a inside head List.mem_cons_self availableA available fullA full
  · intro a inside b behind
    rcases List.mem_append.mp inside with inside | isHead
    · rcases mem_absorb behind with old | ⟨empty, _⟩
      · exact across a inside b (List.mem_cons_of_mem _ old)
      · exact noTouch_of_isEmpty (Or.inr empty)
    · rw [List.mem_singleton.mp isHead]
      exact absorb_complete (order.sublist (List.sublist_append_right _ _))
        emptiesRest available full b behind

/-- One turn of the outer loop deals with one more region. -/
theorem step (coalesced : Coalesced front (head :: rest)) :
    ∃ head' rest', coalesceAt (front ++ head :: rest) front.length =
        front ++ head' :: rest' ∧ rest'.length = rest.length ∧
      Coalesced (front ++ [head']) rest' := by
  rcases coalesceAt_cases front rest head with
    ⟨skipped, same⟩ | ⟨available, full, turned⟩
  · exact ⟨head, rest, same, rfl, coalesced.skip skipped⟩
  · exact ⟨_, _, turned, length_absorb head rest,
      coalesced.absorbed available full turned⟩

end Coalesced

/-- The turns up to an index deal with the regions up to there. -/
theorem Coalesced.turns {table : RegionTable} (start : Coalesced [] table) :
    ∀ k ≤ table.length, ∃ front back,
      (List.range k).foldl coalesceAt table = front ++ back ∧
        front.length = k ∧ (front ++ back).length = table.length ∧
        Coalesced front back := by
  intro k
  induction k with
  | zero => exact fun _ => ⟨[], table, rfl, rfl, rfl, start⟩
  | succ k inductionHypothesis =>
      intro below
      obtain ⟨front, back, soFar, count, length, coalesced⟩ :=
        inductionHypothesis (by omega)
      rw [List.length_append] at length
      cases back with
      | nil => rw [List.length_nil] at length; omega
      | cons head rest =>
          obtain ⟨head', rest', turned, sameLength, next⟩ := coalesced.step
          refine ⟨front ++ [head'], rest', ?_, by simp [count], ?_, next⟩
          · rw [List.range_succ, List.foldl_append, List.foldl_cons, List.foldl_nil,
              soFar, ← count, turned, List.append_assoc, List.singleton_append]
          · rw [List.length_cons] at length
            simp only [List.length_append, List.length_cons, List.length_nil]
            omega

/-- After the loops, no available region that has bytes begins where another one
ends. -/
theorem coalesce_complete {table : RegionTable} (order : MergeOrder table)
    (empties : EmptyAvailable table) :
    ∀ a ∈ coalesce table, ∀ b ∈ coalesce table, NoTouch a b := by
  obtain ⟨front, back, done, count, length, coalesced⟩ :=
    Coalesced.turns ⟨order, empties, List.Pairwise.nil, by simp⟩ table.length
      (Nat.le_refl _)
  rw [List.length_append] at length
  obtain rfl : back = [] := List.length_eq_zero_iff.mp (by omega)
  rw [List.append_nil] at done
  obtain ⟨order', _, noTouch, _⟩ := coalesced
  rw [List.append_nil] at order'
  rw [coalesce, done]
  intro a insideA b insideB availableA availableB fullA fullB touching
  have orderedA := order'.ordered a insideA
  have orderedB := order'.ordered b insideB
  obtain ⟨before, behind, rfl⟩ := List.append_of_mem insideA
  rw [isEmpty_false_iff] at fullA fullB
  rcases List.mem_append.mp insideB with earlier | later
  · obtain ⟨before, between, rfl⟩ := List.append_of_mem earlier
    rw [List.append_assoc, List.cons_append] at order'
    have apart := order'.stop_le (isEmpty_false_iff.mpr fullB)
      (isEmpty_false_iff.mpr fullA)
    omega
  · rcases List.mem_cons.mp later with rfl | later
    · exact fullA touching.symm
    · have pairs := (List.pairwise_cons.mp (List.pairwise_append.mp noTouch).2.1).1
      exact pairs b later availableA availableB (isEmpty_false_iff.mpr fullA)
        (isEmpty_false_iff.mpr fullB) touching

/-! ## Releasing an entry -/

/-- Deallocating in the first page of a reserved entry releases that entry, and
coalesces. -/
theorem pmmDeallocate_released {table : RegionTable} {addr : Nat}
    {entry : MemoryRegion} (disjoint : DisjointTable table) (word : addr < 2 ^ 32)
    (inside : entry ∈ table) (starts : entry.addrStart = addr / 4096 * 4096)
    (reserved : entry.type = .reserved) :
    ∃ before behind, table = before ++ entry :: behind ∧
      pmmDeallocate table addr = pmmSortRegions (coalesce
        (before ++ { entry with type := .available } :: behind)) := by
  rcases pmmDeallocate_cases disjoint word with
    ⟨before, region, behind, rfl, regionStarts, _, released⟩ | ⟨notReserved, _⟩
  · have member : region ∈ before ++ region :: behind := by simp
    have properEntry := disjoint.proper entry inside
    have properRegion := disjoint.proper region member
    obtain rfl : entry = region := disjoint.entry_unique inside member
      (x := addr / 4096 * 4096) ⟨by omega, by omega⟩ ⟨by omega, by omega⟩
    exact ⟨before, behind, rfl, released⟩
  · exact absurd reserved (notReserved entry inside starts)

/-- Releasing a reserved entry is exact and complete: the table stays sorted,
non-empty and disjoint, the bytes of the entry are available, every other byte
keeps its type, and no two available entries touch. -/
theorem pmmDeallocate_coalesces {table : RegionTable} {addr : Nat}
    {entry : MemoryRegion} (disjoint : DisjointTable table) (word : addr < 2 ^ 32)
    (inside : entry ∈ table) (starts : entry.addrStart = addr / 4096 * 4096)
    (reserved : entry.type = .reserved) :
    DisjointTable (pmmDeallocate table addr) ∧
      (∀ x ∉ entry.bytes, ∀ type,
        x ∈ bytesOfType (pmmDeallocate table addr) type ↔
          x ∈ bytesOfType table type) ∧
      entry.bytes ⊆ availableBytes (pmmDeallocate table addr) ∧
      ∀ a ∈ pmmDeallocate table addr, ∀ b ∈ pmmDeallocate table addr,
        a.type = .available → b.type = .available → a.addrEnd ≠ b.addrStart := by
  obtain ⟨before, behind, rfl, released⟩ :=
    pmmDeallocate_released disjoint word inside starts reserved
  have order := disjoint.mergeOrder.retype .available
  have empties :
      EmptyAvailable (before ++ { entry with type := .available } :: behind) := by
    intro region member empty
    rw [isEmpty_iff] at empty
    simp only [List.mem_append, List.mem_cons] at member
    rcases member with member | rfl | member
    · exact absurd empty (Nat.ne_of_lt (disjoint.proper region (by simp [member])))
    · rfl
    · exact absurd empty (Nat.ne_of_lt (disjoint.proper region (by simp [member])))
  obtain ⟨disjoint', bytes⟩ := sorted_coalesced order
  rw [released]
  refine ⟨disjoint', ?_, ?_, ?_⟩
  · intro x outside type
    have elsewhere : x ∉ ({ entry with type := .available } : MemoryRegion).bytes :=
      outside
    rw [bytes, mem_bytesOfType, mem_bytesOfType]
    simp only [List.mem_append, List.mem_cons, or_and_right, exists_or,
      exists_eq_left, outside, elsewhere, and_false, false_or]
  · intro x member
    rw [availableBytes, bytes]
    exact ⟨{ entry with type := .available }, by simp, rfl, member⟩
  · intro a insideA b insideB availableA availableB
    obtain ⟨listedA, fullA⟩ := (mem_sorted_coalesced order).mp insideA
    obtain ⟨listedB, fullB⟩ := (mem_sorted_coalesced order).mp insideB
    exact coalesce_complete order empties a listedA b listedB availableA availableB
      fullA fullB

/-- Entries in order, each behind the last one, make a disjoint table. -/
theorem DisjointTable.of_stops {table : RegionTable}
    (proper : ∀ region ∈ table, region.addrStart < region.addrEnd)
    (stops : table.Pairwise fun a b => a.addrEnd ≤ b.addrStart) :
    DisjointTable table where
  sorted := by
    refine stops.imp_of_mem ?_
    intro a b insideA _ behind
    exact (Nat.le_of_lt (proper a insideA)).trans behind
  proper := proper
  apart := by
    refine stops.imp ?_
    intro a b behind
    rw [MemoryRegion.apart_iff]
    intro x inA inB
    rw [MemoryRegion.mem_bytes] at inA inB
    omega

/-- A reserved page within a chain of touching available entries, and one more
entry. -/
def touchingTable : RegionTable :=
  [⟨0x100000, 0x101000, .available⟩, ⟨0x101000, 0x103000, .available⟩,
    ⟨0x103000, 0x104000, .reserved⟩, ⟨0x104000, 0x105000, .available⟩,
    ⟨0x105000, 0x106000, .available⟩, ⟨0x107000, 0x108000, .kernel⟩]

/-- Releasing that page merges the whole chain. -/
theorem pmmDeallocate_coalesces_touching :
    DisjointTable (pmmDeallocate touchingTable 0x103ABC) ∧
      (∀ x ∉ Set.Ico 0x103000 0x104000, ∀ type,
        x ∈ bytesOfType (pmmDeallocate touchingTable 0x103ABC) type ↔
          x ∈ bytesOfType touchingTable type) ∧
      Set.Ico 0x103000 0x104000 ⊆
        availableBytes (pmmDeallocate touchingTable 0x103ABC) ∧
      ∀ a ∈ pmmDeallocate touchingTable 0x103ABC,
        ∀ b ∈ pmmDeallocate touchingTable 0x103ABC,
          a.type = .available → b.type = .available → a.addrEnd ≠ b.addrStart :=
  pmmDeallocate_coalesces
    (DisjointTable.of_stops (by decide) (by decide)) (by decide)
    (show (⟨0x103000, 0x104000, .reserved⟩ : MemoryRegion) ∈ touchingTable by decide)
    rfl rfl

end SampoOS.Kickstart
