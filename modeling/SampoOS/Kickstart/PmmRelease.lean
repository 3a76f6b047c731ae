/-
Module: SampoOS.Kickstart.PmmRelease
Purpose: Releasing memory: coalescing as a chain of merges, and what
  pmm_deallocate does to every byte after any history of allocations and
  deallocations.
Trusted boundary: none
Main exports: Merge, coalesce_merges, TidyTable, pmmDeallocate_cases,
  ReleaseRun, ReleasesExactly, pmmDeallocate_releasesExactly_iff
-/
import Mathlib.Data.List.Pairwise
import Mathlib.Logic.Relation
import SampoOS.Kickstart.PmmRuns

namespace SampoOS.Kickstart

open BubbleSort (Settled)
open Relation (ReflTransGen)

/-! ## Merging available regions -/

/-- One merge of the coalescing loops: an available region absorbs a later one
that starts where it ends, and leaves it empty. -/
inductive Merge : RegionTable → RegionTable → Prop where
  | merge (front between back : RegionTable) (head current : MemoryRegion)
      (headAvailable : head.type = .available)
      (currentAvailable : current.type = .available)
      (headProper : head.addrStart < head.addrEnd)
      (touching : head.addrEnd = current.addrStart) :
      Merge (front ++ head :: (between ++ current :: back))
        (front ++ { head with addrEnd := current.addrEnd } ::
          (between ++ { current with addrStart := current.addrEnd } :: back))

/-- What the coalescing loops keep: the bounds of each region are in order,
no two regions share a byte, and later regions do not start before a region
that has bytes. -/
structure MergeInvariant (table : RegionTable) : Prop where
  ordered : ∀ region ∈ table, region.addrStart ≤ region.addrEnd
  aligned : ∀ region ∈ table, 4096 ∣ region.addrStart ∧ 4096 ∣ region.addrEnd
  apart : table.Pairwise MemoryRegion.Apart
  ascending : table.Pairwise fun a b =>
    a.addrStart < a.addrEnd → a.addrStart ≤ b.addrStart

/-- What they keep without whole pages. -/
structure MergeOrder (table : RegionTable) : Prop where
  ordered : ∀ region ∈ table, region.addrStart ≤ region.addrEnd
  apart : table.Pairwise MemoryRegion.Apart
  ascending : table.Pairwise fun a b =>
    a.addrStart < a.addrEnd → a.addrStart ≤ b.addrStart

theorem MergeInvariant.order {table : RegionTable}
    (invariant : MergeInvariant table) : MergeOrder table :=
  ⟨invariant.ordered, invariant.apart, invariant.ascending⟩

private theorem merge_perm (front between back : RegionTable)
    (head current : MemoryRegion) :
    (front ++ head :: (between ++ current :: back)).Perm
      (head :: current :: (front ++ (between ++ back))) :=
  List.perm_middle.trans (List.Perm.cons head (by
    rw [← List.append_assoc, ← List.append_assoc]
    exact List.perm_middle))

theorem apart_perm {table table' : RegionTable} (perm : table.Perm table')
    (apart : table.Pairwise MemoryRegion.Apart) :
    table'.Pairwise MemoryRegion.Apart :=
  (perm.pairwise_iff fun holds => holds.symm).mp apart

namespace Merge

variable {table after : RegionTable}

/-- A merge moves no byte to another type. -/
theorem bytesOfType_eq (merge : Merge table after)
    (order : MergeOrder table) (type : MemoryRegionType) :
    bytesOfType after type = bytesOfType table type := by
  cases merge with
  | merge front between back head current headAvailable currentAvailable
      headProper touching =>
      have currentOrdered := order.ordered current (by simp)
      rw [bytesOfType_perm (merge_perm front between back _ _),
        bytesOfType_perm (merge_perm front between back head current)]
      simp only [bytesOfType_cons, ← Set.union_assoc]
      congr 1
      ext x
      simp only [Set.mem_union, Set.mem_ofPred_eq, headAvailable,
        currentAvailable, MemoryRegion.mem_bytes, ← and_or_left]
      exact and_congr_right fun _ => by omega

/-- A merge leaves every entry alone that is not available. -/
theorem keeps (merge : Merge table after) {entry : MemoryRegion}
    (taken : entry.type ≠ .available) : entry ∈ after ↔ entry ∈ table := by
  cases merge with
  | merge front between back head current headAvailable currentAvailable _ _ =>
      have notHead : ∀ bound, entry ≠ { head with addrEnd := bound } :=
        fun bound same => taken (by rw [same]; exact headAvailable)
      have notCurrent : ∀ bound, entry ≠ { current with addrStart := bound } :=
        fun bound same => taken (by rw [same]; exact currentAvailable)
      simp [notHead, notCurrent]

theorem preserves_ordered (merge : Merge table after) (order : MergeOrder table) :
    ∀ entry ∈ after, entry.addrStart ≤ entry.addrEnd := by
  cases merge with
  | merge front between back head current headAvailable currentAvailable
      headProper touching =>
      have currentOrdered := order.ordered current (by simp)
      intro entry inside
      simp only [List.mem_append, List.mem_cons] at inside
      rcases inside with inside | rfl | inside | rfl | inside
      · exact order.ordered entry (by simp [inside])
      · dsimp only
        omega
      · exact order.ordered entry (by simp [inside])
      · exact Nat.le_refl _
      · exact order.ordered entry (by simp [inside])

/-- The merged entry takes no byte but those of the two. -/
theorem preserves_apart (merge : Merge table after) (order : MergeOrder table) :
    after.Pairwise MemoryRegion.Apart := by
  cases merge with
  | merge front between back head current headAvailable currentAvailable
      headProper touching =>
      have currentOrdered := order.ordered current (by simp)
      have before := apart_perm (merge_perm _ _ _ _ _) order.apart
      apply apart_perm (merge_perm _ _ _ _ _).symm
      simp only [List.pairwise_cons, List.mem_cons, forall_eq_or_imp]
        at before ⊢
      obtain ⟨⟨_, headApart⟩, currentApart, others⟩ := before
      refine ⟨⟨?_, ?_⟩, ?_, others⟩
      · rw [MemoryRegion.apart_iff]
        intro x _ inEmpty
        rw [MemoryRegion.mem_bytes] at inEmpty
        dsimp only at inEmpty
        omega
      · intro entry inside
        have left := MemoryRegion.apart_iff.mp (headApart entry inside)
        have right := MemoryRegion.apart_iff.mp (currentApart entry inside)
        rw [MemoryRegion.apart_iff]
        intro x inMerged
        rw [MemoryRegion.mem_bytes] at inMerged
        dsimp only at inMerged
        by_cases low : x < head.addrEnd
        · exact left x ⟨inMerged.1, low⟩
        · exact right x ⟨by omega, inMerged.2⟩
      · intro entry inside
        exact (currentApart entry inside).mono (by exact currentOrdered)
          (Nat.le_refl _)

/-- The order of the starts stays; the entry that is emptied is moved up. -/
theorem preserves_ascending (merge : Merge table after) (order : MergeOrder table) :
    after.Pairwise fun a b =>
      a.addrStart < a.addrEnd → a.addrStart ≤ b.addrStart := by
  cases merge with
  | merge front between back head current headAvailable currentAvailable
      headProper touching =>
      have currentOrdered := order.ordered current (by simp)
      have before := order.ascending
      simp only [List.pairwise_append, List.pairwise_cons, List.mem_cons,
        List.mem_append, forall_eq_or_imp] at before ⊢
      obtain ⟨frontOk, ⟨headOk, betweenOk, ⟨currentOk, backOk⟩, crossOk⟩,
        outer⟩ := before
      refine ⟨frontOk, ⟨?_, betweenOk, ⟨?_, backOk⟩, ?_⟩, ?_⟩
      · intro entry inside _
        rcases inside with inside | rfl | inside
        · exact headOk entry (Or.inl inside) headProper
        · dsimp only
          omega
        · exact headOk entry (Or.inr (Or.inr inside)) headProper
      · intro entry _ proper
        exact absurd proper (Nat.lt_irrefl _)
      · intro entry inside
        refine ⟨fun proper => ?_, (crossOk entry inside).2⟩
        exact ((crossOk entry inside).1 proper).trans currentOrdered
      · intro entry inside
        have fine := outer entry inside
        refine ⟨fine.1, ?_⟩
        rintro other (member | rfl | member) proper
        · exact fine.2 other (Or.inl member) proper
        · exact (fine.2 current (Or.inr (Or.inl rfl)) proper).trans
            currentOrdered
        · exact fine.2 other (Or.inr (Or.inr member)) proper

theorem preserves_order (merge : Merge table after) (order : MergeOrder table) :
    MergeOrder after where
  ordered := merge.preserves_ordered order
  apart := merge.preserves_apart order
  ascending := merge.preserves_ascending order

theorem preserves_aligned (merge : Merge table after)
    (aligned : ∀ region ∈ table, 4096 ∣ region.addrStart ∧ 4096 ∣ region.addrEnd) :
    ∀ region ∈ after, 4096 ∣ region.addrStart ∧ 4096 ∣ region.addrEnd := by
  cases merge with
  | merge front between back head current headAvailable currentAvailable
      headProper touching =>
      have headAligned := aligned head (by simp)
      have currentAligned := aligned current (by simp)
      intro entry inside
      simp only [List.mem_append, List.mem_cons] at inside
      rcases inside with inside | rfl | inside | rfl | inside
      · exact aligned entry (by simp [inside])
      · exact ⟨headAligned.1, currentAligned.2⟩
      · exact aligned entry (by simp [inside])
      · exact ⟨currentAligned.2, currentAligned.2⟩
      · exact aligned entry (by simp [inside])

end Merge

/-- Absorbing the regions behind `head` is a chain of merges. -/
theorem absorb_merges (front : RegionTable) :
    ∀ (rest between : RegionTable) (head : MemoryRegion),
      head.type = .available → head.addrStart < head.addrEnd →
      (∀ region ∈ rest, region.addrStart ≤ region.addrEnd) →
      ReflTransGen Merge (front ++ head :: (between ++ rest))
        (front ++ (absorb head rest).1 :: (between ++ (absorb head rest).2)) := by
  intro rest
  induction rest with
  | nil => exact fun _ _ _ _ _ => ReflTransGen.refl
  | cons current rest inductionHypothesis =>
      intro between head headAvailable headProper ordered
      have restOrdered : ∀ region ∈ rest, region.addrStart ≤ region.addrEnd :=
        fun region inside => ordered region (List.mem_cons_of_mem _ inside)
      have currentOrdered := ordered current List.mem_cons_self
      rw [absorb]
      split
      · exact ReflTransGen.refl
      next currentAvailable =>
      rw [ne_eq, not_not] at currentAvailable
      split
      · have chain := inductionHypothesis (between ++ [current]) head
          headAvailable headProper restOrdered
        simpa [List.append_assoc] using chain
      next notEmpty =>
      split
      · exact ReflTransGen.refl
      next touching =>
      rw [ne_eq, not_not] at touching
      have first := Merge.merge front between rest head current headAvailable
        currentAvailable headProper touching
      have chain := inductionHypothesis
        (between ++ [{ current with addrStart := current.addrEnd }])
        { head with addrEnd := current.addrEnd } headAvailable
        (by dsimp only; omega) restOrdered
      simp only [List.append_assoc, List.singleton_append] at chain
      exact ReflTransGen.head first chain

theorem coalesceAt_merges {table : RegionTable} (order : MergeOrder table)
    (i : Nat) :
    ReflTransGen Merge table (coalesceAt table i) := by
  have split := List.take_append_drop i table
  rw [coalesceAt]
  cases dropped : table.drop i with
  | nil => exact ReflTransGen.refl
  | cons head rest =>
      rw [dropped] at split
      dsimp only
      split_ifs with taken empty
      · exact ReflTransGen.refl
      · exact ReflTransGen.refl
      · rw [ne_eq, not_not] at taken
        rw [Bool.not_eq_true, isEmpty_false_iff] at empty
        have ordered : ∀ region ∈ head :: rest,
            region.addrStart ≤ region.addrEnd := fun region inside =>
          order.ordered region
            (List.mem_of_mem_drop (dropped ▸ inside : region ∈ table.drop i))
        have proper : head.addrStart < head.addrEnd :=
          Nat.lt_of_le_of_ne (ordered head List.mem_cons_self) empty
        have chain := absorb_merges (table.take i) rest [] head taken proper
          fun region inside => ordered region (List.mem_cons_of_mem _ inside)
        rw [List.nil_append, List.nil_append, split] at chain
        exact chain

theorem MergeOrder.of_merges {table after : RegionTable} (order : MergeOrder table)
    (merges : ReflTransGen Merge table after) : MergeOrder after := by
  induction merges with
  | refl => exact order
  | tail _ merge inductionHypothesis =>
      exact merge.preserves_order inductionHypothesis

theorem MergeInvariant.of_merges {table after : RegionTable}
    (invariant : MergeInvariant table) (merges : ReflTransGen Merge table after) :
    MergeInvariant after := by
  have order := invariant.order.of_merges merges
  refine ⟨order.ordered, ?_, order.apart, order.ascending⟩
  induction merges with
  | refl => exact invariant.aligned
  | tail first merge inductionHypothesis =>
      exact merge.preserves_aligned
        (inductionHypothesis (invariant.order.of_merges first))

theorem MergeOrder.merges_bytesOfType {table after : RegionTable}
    (order : MergeOrder table) (merges : ReflTransGen Merge table after)
    (type : MemoryRegionType) :
    bytesOfType after type = bytesOfType table type := by
  induction merges with
  | refl => rfl
  | tail first merge inductionHypothesis =>
      rw [merge.bytesOfType_eq (order.of_merges first), inductionHypothesis]

theorem merges_keeps {table after : RegionTable} {entry : MemoryRegion}
    (merges : ReflTransGen Merge table after) (inside : entry ∈ table)
    (taken : entry.type ≠ .available) : entry ∈ after := by
  induction merges with
  | refl => exact inside
  | tail _ merge inductionHypothesis =>
      exact (merge.keeps taken).mpr inductionHypothesis

/-- The coalescing loops are a chain of merges. -/
theorem coalesce_merges {table : RegionTable} (order : MergeOrder table) :
    ReflTransGen Merge table (coalesce table) := by
  rw [coalesce]
  generalize List.range table.length = indices
  induction indices generalizing table with
  | nil => exact ReflTransGen.refl
  | cons i indices inductionHypothesis =>
      have first := coalesceAt_merges order i
      exact first.trans (inductionHypothesis (order.of_merges first))

/-! ## Tidy tables -/

/-- A table whose entries are sorted, non-empty, page-aligned and pairwise
disjoint. -/
structure TidyTable (table : RegionTable) : Prop where
  sorted : Sorted table
  proper : ∀ region ∈ table, region.addrStart < region.addrEnd
  aligned : ∀ region ∈ table, 4096 ∣ region.addrStart ∧ 4096 ∣ region.addrEnd
  apart : table.Pairwise MemoryRegion.Apart

theorem TidyTable.tableInvariant {table : RegionTable} (tidy : TidyTable table) :
    TableInvariant table where
  sorted := tidy.sorted
  nonempty := fun region inside => Nat.ne_of_lt (tidy.proper region inside)
  aligned := fun region inside _ => tidy.aligned region inside
  separate := by
    refine tidy.apart.imp ?_
    intro a b apart _
    exact apart

theorem TidyTable.mergeInvariant {table : RegionTable} (tidy : TidyTable table) :
    MergeInvariant table where
  ordered := fun region inside => Nat.le_of_lt (tidy.proper region inside)
  aligned := tidy.aligned
  apart := tidy.apart
  ascending := by
    refine tidy.sorted.imp ?_
    intro a b below _
    exact below

/-- A table whose entries are sorted, non-empty and pairwise disjoint. -/
structure DisjointTable (table : RegionTable) : Prop where
  sorted : Sorted table
  proper : ∀ region ∈ table, region.addrStart < region.addrEnd
  apart : table.Pairwise MemoryRegion.Apart

theorem TidyTable.disjoint {table : RegionTable} (tidy : TidyTable table) :
    DisjointTable table :=
  ⟨tidy.sorted, tidy.proper, tidy.apart⟩

theorem DisjointTable.mergeOrder {table : RegionTable}
    (disjoint : DisjointTable table) : MergeOrder table where
  ordered := fun region inside => Nat.le_of_lt (disjoint.proper region inside)
  apart := disjoint.apart
  ascending := by
    refine disjoint.sorted.imp ?_
    intro a b below _
    exact below

/-- In a disjoint table the entry that a byte belongs to is unique. -/
theorem DisjointTable.entry_unique {table : RegionTable}
    (disjoint : DisjointTable table) {a b : MemoryRegion} (insideA : a ∈ table)
    (insideB : b ∈ table) {x : Nat} (inA : x ∈ a.bytes) (inB : x ∈ b.bytes) :
    a = b := by
  by_contra different
  have symmetric : Std.Symm MemoryRegion.Apart := ⟨fun _ _ holds => holds.symm⟩
  have apart := disjoint.apart.forall insideA insideB different
  exact MemoryRegion.apart_iff.mp apart x inA inB

/-- Merged tables are safe to sort. -/
theorem MergeOrder.sortSafe {table : RegionTable} (order : MergeOrder table) :
    SortSafe table := by
  refine order.ascending.imp_of_mem ?_
  intro a b insideA _ ascending full _
  exact ascending (Nat.lt_of_le_of_ne (order.ordered a insideA)
    (isEmpty_false_iff.mp full))

/-- The coalescing loops leave a table that is safe to sort. -/
theorem MergeOrder.sortSafe_coalesce {table : RegionTable}
    (order : MergeOrder table) : SortSafe (coalesce table) :=
  (order.of_merges (coalesce_merges order)).sortSafe

theorem mem_sorted_coalesced {table : RegionTable} (order : MergeOrder table)
    {region : MemoryRegion} :
    region ∈ pmmSortRegions (coalesce table) ↔
      region ∈ coalesce table ∧ isEmpty region = false := by
  have settled := pmmSortRegions_settles order.sortSafe_coalesce
  rw [settled.perm.mem_iff, BubbleSort.live, List.mem_filter,
    Bool.not_eq_true']

/-- Coalescing and sorting a table leaves a disjoint table with the same bytes of
each type. -/
theorem sorted_coalesced {table : RegionTable} (order : MergeOrder table) :
    DisjointTable (pmmSortRegions (coalesce table)) ∧
      (∀ type, bytesOfType (pmmSortRegions (coalesce table)) type =
        bytesOfType table type) := by
  have merges := coalesce_merges order
  have kept := order.of_merges merges
  have settled := pmmSortRegions_settles kept.sortSafe
  have members := @mem_sorted_coalesced table order
  refine ⟨⟨settled.sorted, ?_, ?_⟩, ?_⟩
  · intro region inside
    obtain ⟨listed, full⟩ := members.mp inside
    exact Nat.lt_of_le_of_ne (kept.ordered region listed)
      (isEmpty_false_iff.mp full)
  · exact apart_perm settled.perm.symm (kept.apart.filter _)
  · intro type
    have sameBytes : bytesOfType (pmmSortRegions (coalesce table)) type =
        bytesOfType (coalesce table) type := by
      ext x
      rw [mem_bytesOfType, mem_bytesOfType]
      constructor
      · rintro ⟨region, inside, isType, inRegion⟩
        exact ⟨region, (members.mp inside).1, isType, inRegion⟩
      · rintro ⟨region, inside, isType, inRegion⟩
        refine ⟨region, members.mpr ⟨inside, ?_⟩, isType, inRegion⟩
        rw [isEmpty_false_iff]
        rw [MemoryRegion.mem_bytes] at inRegion
        omega
    rw [sameBytes, order.merges_bytesOfType merges]

/-- With whole pages, the table stays tidy. -/
theorem tidy_sorted_coalesced {table : RegionTable}
    (invariant : MergeInvariant table) :
    TidyTable (pmmSortRegions (coalesce table)) := by
  have merges := coalesce_merges invariant.order
  obtain ⟨disjoint, _⟩ := sorted_coalesced invariant.order
  refine ⟨disjoint.sorted, disjoint.proper, ?_, disjoint.apart⟩
  intro region inside
  exact (invariant.of_merges merges).aligned region
    ((mem_sorted_coalesced invariant.order).mp inside).1

/-- The order does not depend on the type of an entry. -/
theorem MergeOrder.retype {before behind : RegionTable} {region : MemoryRegion}
    (order : MergeOrder (before ++ region :: behind)) (type : MemoryRegionType) :
    MergeOrder (before ++ { region with type := type } :: behind) := by
  obtain ⟨ordered, apart, ascending⟩ := order
  constructor
  · simp only [List.mem_append, List.mem_cons] at ordered ⊢
    rintro entry (member | rfl | member)
    · exact ordered entry (Or.inl member)
    · exact ordered region (Or.inr (Or.inl rfl))
    · exact ordered entry (Or.inr (Or.inr member))
  · simp only [List.pairwise_append, List.pairwise_cons, List.mem_cons,
      forall_eq_or_imp] at apart ⊢
    exact apart
  · simp only [List.pairwise_append, List.pairwise_cons, List.mem_cons,
      forall_eq_or_imp] at ascending ⊢
    exact ascending

/-- Carving a page-aligned block keeps a table tidy. -/
theorem TidyTable.carves {table after : RegionTable} {block : MemoryRegion}
    (tidy : TidyTable table) (carves : Carves table block after)
    (alignedStart : 4096 ∣ block.addrStart) (alignedEnd : 4096 ∣ block.addrEnd) :
    TidyTable after := by
  have kept := carves.preserves_invariant tidy.tableInvariant alignedStart
    alignedEnd
  obtain ⟨before, region, behind, rfl, carvesFrom⟩ := carves
  have others : ∀ entry ∈ before ++ behind, entry ∈ before ++ region :: behind := by
    intro entry inside
    rcases List.mem_append.mp inside with inside | inside <;> simp [inside]
  refine ⟨kept.sorted, ?_, ?_, ?_⟩
  · intro entry inside
    rcases carvesFrom.mem_after.mp inside with rfl | inside | inside
    · exact carvesFrom.proper
    · exact (carvesFrom.remainder inside).2.1
    · exact tidy.proper entry (others entry inside)
  · intro entry inside
    rcases carvesFrom.mem_after.mp inside with rfl | member | member
    · exact ⟨alignedStart, alignedEnd⟩
    · exact kept.aligned entry inside (carvesFrom.remainder member).1
    · exact tidy.aligned entry (others entry member)
  · exact carvesFrom.pairwise_after (fun holds => holds.symm) id
      (tidy.tableInvariant.apart_others carvesFrom.available) tidy.apart

/-! ## One deallocation -/

/-- The page that `pmm_deallocate` looks for. -/
theorem deallocatePage_eq {addr : Nat} (word : addr < 2 ^ 32) :
    (if addr &&& 0x0FFF ≠ 0 then BitFields.clearLow 64 12 addr else addr) =
      addr / 4096 * 4096 := by
  have cleared : BitFields.clearLow 64 12 addr = addr / 4096 * 4096 :=
    BitFields.clearLow_eq (by decide) (by omega)
  rw [show (0x0FFF : Nat) = 2 ^ 12 - 1 from rfl, Nat.and_two_pow_sub_one_eq_mod,
    cleared]
  split <;> omega

/-- No reserved region starts at the page of an address. -/
def NotReservedAt (table : RegionTable) (addr : Nat) : Prop :=
  ∀ region ∈ table, region.addrStart = addr / 4096 * 4096 →
    region.type ≠ .reserved

/-- Deallocating turns the reserved region that starts at the page available,
or, without one, does no more than coalesce. -/
theorem pmmDeallocate_cases {table : RegionTable} {addr : Nat}
    (disjoint : DisjointTable table) (word : addr < 2 ^ 32) :
    (∃ before region behind, table = before ++ region :: behind ∧
        region.addrStart = addr / 4096 * 4096 ∧ region.type = .reserved ∧
        pmmDeallocate table addr = pmmSortRegions (coalesce
          (before ++ { region with type := .available } :: behind))) ∨
      (NotReservedAt table addr ∧
        (pmmDeallocate table addr = table ∨
          pmmDeallocate table addr = pmmSortRegions (coalesce table))) := by
  simp only [pmmDeallocate, deallocatePage_eq word]
  cases found : table.findIdx?
      fun region => !decide (region.addrStart < addr / 4096 * 4096) with
  | none =>
      refine Or.inr ⟨?_, Or.inr rfl⟩
      intro region inside starts
      have below := List.findIdx?_eq_none_iff.mp found region inside
      simp only [Bool.not_eq_false', decide_eq_true_eq] at below
      omega
  | some i =>
      obtain ⟨before, region, behind, rfl, rfl, reached, missed⟩ :=
        exists_split_of_findIdx? found
      simp only [Bool.not_eq_true', decide_eq_false_iff_not, Nat.not_lt]
        at reached
      have sorted := List.pairwise_append.mp disjoint.sorted
      simp only [getElem?_split]
      split_ifs with later notReserved
      · -- The search has passed the page.
        refine Or.inr ⟨?_, Or.inl rfl⟩
        intro entry inside starts
        rcases List.mem_append.mp inside with inside | inside
        · have below := missed entry inside
          simp only [Bool.not_eq_false', decide_eq_true_eq] at below
          omega
        · rcases List.mem_cons.mp inside with rfl | inside
          · omega
          · have above := (List.pairwise_cons.mp sorted.2.1).1 entry inside
            omega
      · refine Or.inr ⟨?_, Or.inl rfl⟩
        intro entry inside starts
        have properEntry := disjoint.proper entry inside
        have properRegion := disjoint.proper region (by simp)
        have same : entry = region := disjoint.entry_unique inside (by simp)
          (x := addr / 4096 * 4096) ⟨by omega, by omega⟩ ⟨by omega, by omega⟩
        rw [same]
        exact notReserved
      · rw [ne_eq, not_not] at notReserved
        exact Or.inl ⟨before, region, behind, rfl, by omega, notReserved, by
          rw [modify_split]⟩

/-- Without a reserved region at the page, deallocating keeps the table tidy
and moves no byte to another type. -/
theorem pmmDeallocate_notReserved {table : RegionTable} {addr : Nat}
    (tidy : TidyTable table) (word : addr < 2 ^ 32)
    (notReserved : NotReservedAt table addr) :
    TidyTable (pmmDeallocate table addr) ∧
      ∀ type, bytesOfType (pmmDeallocate table addr) type =
        bytesOfType table type := by
  rcases pmmDeallocate_cases tidy.disjoint word with
    ⟨before, region, behind, rfl, starts, reserved, _⟩ | ⟨_, same | coalesced⟩
  · exact absurd reserved (notReserved region (by simp) starts)
  · rw [same]
    exact ⟨tidy, fun _ => rfl⟩
  · rw [coalesced]
    exact ⟨tidy_sorted_coalesced tidy.mergeInvariant,
      (sorted_coalesced tidy.disjoint.mergeOrder).2⟩

/-- Entries that are not available survive it, too. -/
theorem pmmDeallocate_keeps {table : RegionTable} {addr : Nat}
    (tidy : TidyTable table) (word : addr < 2 ^ 32)
    (notReserved : NotReservedAt table addr) {entry : MemoryRegion}
    (inside : entry ∈ table) (taken : entry.type ≠ .available) :
    entry ∈ pmmDeallocate table addr := by
  rcases pmmDeallocate_cases tidy.disjoint word with
    ⟨before, region, behind, rfl, starts, reserved, _⟩ | ⟨_, same | coalesced⟩
  · exact absurd reserved (notReserved region (by simp) starts)
  · rw [same]
    exact inside
  · rw [coalesced, mem_sorted_coalesced tidy.disjoint.mergeOrder]
    refine ⟨?_, isEmpty_false_iff.mpr (Nat.ne_of_lt (tidy.proper entry inside))⟩
    exact merges_keeps (coalesce_merges tidy.disjoint.mergeOrder) inside taken

/-- Deallocating at a reserved region makes its first byte available. -/
theorem pmmDeallocate_reserved {table : RegionTable} {addr : Nat}
    (tidy : TidyTable table) (word : addr < 2 ^ 32)
    (reserved : ¬ NotReservedAt table addr) :
    addr / 4096 * 4096 ∈ bytesOfType table .reserved ∧
      addr / 4096 * 4096 ∈ availableBytes (pmmDeallocate table addr) ∧
      addr / 4096 * 4096 ∉ availableBytes table := by
  rcases pmmDeallocate_cases tidy.disjoint word with
    ⟨before, region, behind, rfl, starts, isReserved, released⟩ | ⟨notReserved, _⟩
  · have inside : region ∈ before ++ region :: behind := by simp
    have proper := tidy.proper region inside
    have inRegion : addr / 4096 * 4096 ∈ region.bytes := ⟨by omega, by omega⟩
    have order := tidy.disjoint.mergeOrder.retype .available
    refine ⟨⟨region, inside, isReserved, inRegion⟩, ?_, ?_⟩
    · rw [released, availableBytes, (sorted_coalesced order).2]
      exact ⟨{ region with type := .available }, by simp, rfl, inRegion⟩
    · rintro ⟨other, member, available, inOther⟩
      have same := tidy.disjoint.entry_unique member inside inOther inRegion
      rw [same, isReserved] at available
      cases available
  · exact absurd notReserved reserved

/-! ## Histories -/

/-- The block that a successful call of `pmm_allocate_region` returns. -/
def returnedBlock (regionPageCount ret : Nat) (type : MemoryRegionType) :
    List MemoryRegion :=
  if ret ≠ 0 ∧ type = .allocated then
    [{ addrStart := ret
       addrEnd := ret + allocationLength regionPageCount
       type := .allocated }]
  else []

/-- A history of allocations and deallocations, with the blocks that are
allocated and not yet freed.  An allocation of whole pages has a length that is
not cut to 0; a deallocation does not hit a reserved region. -/
inductive ReleaseRun (start : RegionTable) :
    RegionTable → List MemoryRegion → Prop where
  | refl : ReleaseRun start start []
  | allocate {table after : RegionTable} {blocks : List MemoryRegion}
      {n ret : Nat} {type : MemoryRegionType}
      (head : ReleaseRun start table blocks)
      (notCut : n = 0 ∨ allocationLength n ≠ 0)
      (ran : pmmAllocateRegionWithType table n type = some (ret, after)) :
      ReleaseRun start after (returnedBlock n ret type ++ blocks)
  | deallocate {table : RegionTable} {blocks : List MemoryRegion} {addr : Nat}
      (head : ReleaseRun start table blocks)
      (word : addr < 2 ^ 32)
      (notReserved : NotReservedAt table addr) :
      ReleaseRun start (pmmDeallocate table addr)
        (blocks.filter fun block => decide (block.addrStart ≠ addr))

/-- Freeing the base of a live block makes exactly that block available; freeing
anything else changes the type of no byte. -/
def ReleasesExactly (table : RegionTable) (blocks : List MemoryRegion)
    (addr : Nat) : Prop :=
  (∀ block ∈ blocks, block.addrStart = addr →
      availableBytes (pmmDeallocate table addr) =
          availableBytes table ∪ block.bytes ∧
        ∀ type ≠ .available, bytesOfType (pmmDeallocate table addr) type =
          bytesOfType table type \ block.bytes) ∧
    ((∀ block ∈ blocks, block.addrStart ≠ addr) →
      ∀ type, bytesOfType (pmmDeallocate table addr) type =
        bytesOfType table type)

/-- What a history keeps: a tidy table with its available memory below 4 GiB, in
which the live blocks are recorded as allocated. -/
structure ReleaseInvariant (table : RegionTable) (blocks : List MemoryRegion) :
    Prop where
  tidy : TidyTable table
  below : availableBytes table ⊆ Set.Iio (2 ^ 32)
  recorded : ∀ block ∈ blocks, block ∈ table ∧ block.type = .allocated

/-- An allocation of whole pages carves its block out of the table, and returns
the start of it. -/
theorem ReleaseInvariant.allocated {table after : RegionTable}
    {blocks : List MemoryRegion} {regionPageCount ret : Nat}
    {type : MemoryRegionType} (invariant : ReleaseInvariant table blocks)
    (notCut : regionPageCount = 0 ∨ allocationLength regionPageCount ≠ 0)
    (ran : pmmAllocateRegionWithType table regionPageCount type =
      some (ret, after)) :
    (ret = 0 ∧ after = table) ∨
      Carves table { addrStart := ret
                     addrEnd := ret + allocationLength regionPageCount
                     type := type } after ∧ 4096 ∣ ret := by
  rcases pmmAllocateRegionWithType_cases ran with
    ⟨_, isNull, same⟩ | ⟨region, block, chosen, _, step⟩
  · exact Or.inl ⟨isNull, same⟩
  · obtain ⟨inside, holds⟩ := firstFit_mem chosen
    obtain ⟨high, available, _⟩ := fitsAllocation_iff.mp holds
    have proper := invariant.tidy.proper region inside
    have low : region.addrStart < 2 ^ 32 := invariant.below
      ⟨region, inside, available, Nat.le_refl _, proper⟩
    have positive : 0 < allocationLength regionPageCount := by
      rcases notCut with zero | positive
      · simp [firstFit, zero] at chosen
      · omega
    have short : allocationLength regionPageCount < 2 ^ 32 :=
      Nat.mod_lt _ (by decide)
    have pointer : ret = region.addrStart := by
      rw [step.ret_eq, Nat.mod_eq_of_lt low]
    have carves := step.carves invariant.tidy.tableInvariant positive (by omega)
      (by omega)
    rw [step.block_eq, Nat.mod_eq_of_lt (by omega), ← pointer] at carves
    refine Or.inr ⟨carves, ?_⟩
    rw [pointer]
    exact (invariant.tidy.aligned region inside).1

theorem ReleaseRun.invariant {start table : RegionTable}
    {blocks : List MemoryRegion} (tidy : TidyTable start)
    (below : availableBytes start ⊆ Set.Iio (2 ^ 32))
    (run : ReleaseRun start table blocks) : ReleaseInvariant table blocks := by
  induction run with
  | refl => exact ⟨tidy, below, by simp⟩
  | @allocate table after blocks regionPageCount ret type head notCut ran
      inductionHypothesis =>
      rcases inductionHypothesis.allocated notCut ran with
        ⟨rfl, rfl⟩ | ⟨carves, aligned⟩
      · simpa [returnedBlock] using inductionHypothesis
      · have lengthAligned : 4096 ∣ allocationLength regionPageCount := by
          rw [allocationLength]
          omega
        refine ⟨inductionHypothesis.tidy.carves carves aligned
          (Nat.dvd_add aligned lengthAligned), ?_, ?_⟩
        · rintro x ⟨entry, inside, available, inEntry⟩
          rcases carves.origin inside with rfl | ⟨old, isOld, sameType, low, high, _⟩
          · exact inductionHypothesis.below (carves.block_available inEntry)
          · exact inductionHypothesis.below
              ⟨old, isOld, sameType.trans available,
                low.trans inEntry.1, Nat.lt_of_lt_of_le inEntry.2 high⟩
        · intro block member
          rcases List.mem_append.mp member with new | old
          · rw [returnedBlock] at new
            split at new
            next returned =>
              obtain ⟨_, rfl⟩ := returned
              rw [List.mem_singleton] at new
              subst new
              exact ⟨carves.records, rfl⟩
            · simp at new
          · obtain ⟨inside, isAllocated⟩ := inductionHypothesis.recorded block old
            exact ⟨carves.keeps inside (by simp [isAllocated]), isAllocated⟩
  | @deallocate table blocks addr head word notReserved inductionHypothesis =>
      have spec := pmmDeallocate_notReserved inductionHypothesis.tidy word
        notReserved
      refine ⟨spec.1, ?_, ?_⟩
      · rw [availableBytes, spec.2]
        exact inductionHypothesis.below
      · intro block member
        obtain ⟨inside, isAllocated⟩ :=
          inductionHypothesis.recorded block (List.mem_filter.mp member).1
        exact ⟨pmmDeallocate_keeps inductionHypothesis.tidy word notReserved
          inside (by simp [isAllocated]), isAllocated⟩

/-- After any history, deallocating does what is expected of it if and only if
the address is not the base of a live block and no reserved region starts at
its page: allocation marks its blocks as allocated, deallocation looks for
reserved ones. -/
theorem pmmDeallocate_releasesExactly_iff {start table : RegionTable}
    {blocks : List MemoryRegion} {addr : Nat} (tidy : TidyTable start)
    (below : availableBytes start ⊆ Set.Iio (2 ^ 32))
    (run : ReleaseRun start table blocks) (word : addr < 2 ^ 32) :
    ReleasesExactly table blocks addr ↔
      (∀ block ∈ blocks, block.addrStart ≠ addr) ∧ NotReservedAt table addr := by
  have invariant := run.invariant tidy below
  constructor
  · rintro ⟨frees, preserves⟩
    -- A live block that starts here is still recorded as allocated afterwards.
    have notLive : ∀ block ∈ blocks, block.addrStart ≠ addr := by
      intro block live starts
      obtain ⟨inside, isAllocated⟩ := invariant.recorded block live
      have proper := invariant.tidy.proper block inside
      have aligned := (invariant.tidy.aligned block inside).1
      have inBlock : addr ∈ block.bytes := ⟨by omega, by omega⟩
      have notReserved : NotReservedAt table addr := by
        intro region member atPage
        have properRegion := invariant.tidy.proper region member
        have same : region = block := invariant.tidy.disjoint.entry_unique member inside
          (x := addr) ⟨by omega, by omega⟩ inBlock
        rw [same, isAllocated]
        decide
      have unchanged := (pmmDeallocate_notReserved invariant.tidy word
        notReserved).2 .allocated
      have freed := (frees block live starts).2 .allocated (by decide)
      have listed : addr ∈ bytesOfType table .allocated :=
        ⟨block, inside, isAllocated, inBlock⟩
      rw [← unchanged, freed] at listed
      exact listed.2 inBlock
    refine ⟨notLive, ?_⟩
    by_contra reserved
    have released := pmmDeallocate_reserved invariant.tidy word reserved
    rw [availableBytes, preserves notLive] at released
    exact released.2.2 released.2.1
  · rintro ⟨notLive, notReserved⟩
    refine ⟨fun block live starts => absurd starts (notLive block live), ?_⟩
    exact fun _ =>
      (pmmDeallocate_notReserved invariant.tidy word notReserved).2

private theorem firstMebibyte_allocate :
    TidyTable [⟨0x100000, 0x200000, .available⟩] ∧
      availableBytes [⟨0x100000, 0x200000, .available⟩] ⊆ Set.Iio (2 ^ 32) ∧
      ReleaseRun [⟨0x100000, 0x200000, .available⟩]
        [⟨0x100000, 0x101000, .allocated⟩, ⟨0x101000, 0x200000, .available⟩]
        [⟨0x100000, 0x101000, .allocated⟩] := by
  refine ⟨⟨by decide, by decide, by decide, by simp⟩, ?_, ?_⟩
  · rintro x ⟨region, inside, _, _, high⟩
    rw [List.mem_singleton] at inside
    subst inside
    exact Nat.lt_trans high (by decide)
  · exact ReleaseRun.refl.allocate (n := 1) (by decide)
      (show pmmAllocateRegionWithType _ _ .allocated = some (0x100000, _) from
        by decide)

/-- One block allocated, an address behind it deallocated. -/
theorem pmmDeallocate_releasesExactly_unowned :
    ReleasesExactly
        [⟨0x100000, 0x101000, .allocated⟩, ⟨0x101000, 0x200000, .available⟩]
        [⟨0x100000, 0x101000, .allocated⟩] 0x101000 ↔
      (∀ block ∈ [(⟨0x100000, 0x101000, .allocated⟩ : MemoryRegion)],
          block.addrStart ≠ 0x101000) ∧
        NotReservedAt
          [⟨0x100000, 0x101000, .allocated⟩, ⟨0x101000, 0x200000, .available⟩]
          0x101000 := by
  obtain ⟨tidy, below, run⟩ := firstMebibyte_allocate
  exact pmmDeallocate_releasesExactly_iff tidy below run (by decide)

/-- A block from `pmm_allocate_region` cannot be given back. -/
theorem pmmDeallocate_keeps_block :
    ¬ ∀ (start table : RegionTable) (blocks : List MemoryRegion) (addr : Nat),
      TidyTable start → availableBytes start ⊆ Set.Iio (2 ^ 32) →
      ReleaseRun start table blocks → addr < 2 ^ 32 →
      ReleasesExactly table blocks addr := by
  intro releases
  obtain ⟨tidy, below, run⟩ := firstMebibyte_allocate
  have frees := (releases _ _ _ 0x100000 tidy below run (by decide)).1
    ⟨0x100000, 0x101000, .allocated⟩ (by simp) rfl
  have unchanged : pmmDeallocate
      [⟨0x100000, 0x101000, .allocated⟩, ⟨0x101000, 0x200000, .available⟩]
      0x100000 =
      [⟨0x100000, 0x101000, .allocated⟩, ⟨0x101000, 0x200000, .available⟩] := by
    decide
  have freed : 0x100000 ∈ availableBytes (pmmDeallocate
      [⟨0x100000, 0x101000, .allocated⟩, ⟨0x101000, 0x200000, .available⟩]
      0x100000) := by
    rw [frees.1]
    exact Or.inr ⟨by decide, by decide⟩
  rw [unchanged] at freed
  obtain ⟨region, inside, available, low, high⟩ := freed
  simp only [List.mem_cons, List.not_mem_nil, or_false] at inside
  rcases inside with rfl | rfl
  · cases available
  · exact absurd low (by decide)

end SampoOS.Kickstart
