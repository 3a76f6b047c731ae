/-
Module: SampoOS.Kernel.CombinedRegions
Purpose: The combined regions of a boot-information table: how the look-ahead
  loop of init_memory_manager cuts the table into runs, and what each run covers.
Trusted boundary: none
Main exports: CombinedRegion, combinedRegions, Chain, Grouped, grouped,
  Grouped.mem_combinable, Grouped.mem_single, Grouped.ascending, Grouped.apart
-/
import Mathlib.Algebra.BigOperators.Group.List.Basic
import SampoOS.Kernel.MemoryManager

namespace SampoOS.Kernel

/-! ## Combined regions -/

/-- A combined region: the first region of it, and where it ends. -/
structure CombinedRegion where
  region : MemoryRegion
  stop : Nat
deriving Repr, DecidableEq

/-- The combined regions of a table, as the loops of both passes find them. -/
def combinedRegions : Nat → List MemoryRegion → List CombinedRegion
  | _, [] => []
  | skipped + 1, _ :: rest => combinedRegions skipped rest
  | 0, region :: rest =>
      if combinable region then
        let (stop, merged) := combine region.addrEnd rest
        ⟨region, stop⟩ :: combinedRegions merged rest
      else ⟨region, region.addrEnd⟩ :: combinedRegions 0 rest

/-- The bytes from the start of the first region to the end. -/
def CombinedRegion.bytes (combined : CombinedRegion) : Set Nat :=
  Set.Ico combined.region.addrStart combined.stop

@[simp] theorem CombinedRegion.mem_bytes {combined : CombinedRegion} {x : Nat} :
    x ∈ combined.bytes ↔ combined.region.addrStart ≤ x ∧ x < combined.stop :=
  Iff.rfl

/-! ## Runs of adjacent regions -/

/-- Combinable regions that continue each other, from `start` to `stop`. -/
inductive Chain : Nat → List MemoryRegion → Nat → Prop where
  | nil (start : Nat) : Chain start [] start
  | cons {region : MemoryRegion} {rest : List MemoryRegion} {stop : Nat}
      (isCombinable : combinable region = true)
      (tail : Chain region.addrEnd rest stop) :
      Chain region.addrStart (region :: rest) stop

namespace Chain

variable {start stop : Nat} {front : List MemoryRegion}

theorem combinable_of_mem (chain : Chain start front stop) :
    ∀ region ∈ front, combinable region = true := by
  induction chain with
  | nil => simp
  | cons isCombinable tail inductionHypothesis =>
      intro other inside
      rcases List.mem_cons.mp inside with rfl | inside
      · exact isCombinable
      · exact inductionHypothesis other inside

theorem start_le_stop (chain : Chain start front stop)
    (ordered : ∀ region ∈ front, region.addrStart ≤ region.addrEnd) :
    start ≤ stop := by
  induction chain with
  | nil => exact Nat.le_refl _
  | @cons region rest stop isCombinable tail inductionHypothesis =>
      have head := ordered region (by simp)
      have rest := inductionHypothesis fun other inside =>
        ordered other (by simp [inside])
      exact Nat.le_trans head rest

/-- A chain covers the bytes from its start to its stop. -/
theorem mem_iff (chain : Chain start front stop)
    (ordered : ∀ region ∈ front, region.addrStart ≤ region.addrEnd) (x : Nat) :
    (start ≤ x ∧ x < stop) ↔ ∃ region ∈ front, x ∈ region.bytes := by
  induction chain with
  | nil => simp
  | @cons region rest stop isCombinable tail inductionHypothesis =>
      have restOrdered : ∀ other ∈ rest, other.addrStart ≤ other.addrEnd :=
        fun other inside => ordered other (by simp [inside])
      have head := ordered region (by simp)
      have behind := tail.start_le_stop restOrdered
      have covered := inductionHypothesis restOrdered
      rw [List.exists_mem_cons_iff, ← covered, MemoryRegion.mem_bytes]
      omega

/-- The sizes of the regions of a chain add up to its length. -/
theorem sum_sizes (chain : Chain start front stop)
    (ordered : ∀ region ∈ front, region.addrStart ≤ region.addrEnd) :
    start + (front.map fun region => region.addrEnd - region.addrStart).sum =
      stop := by
  induction chain with
  | nil => simp
  | @cons region rest stop isCombinable tail inductionHypothesis =>
      have head := ordered region (by simp)
      have rest := inductionHypothesis fun other inside =>
        ordered other (by simp [inside])
      rw [List.map_cons, List.sum_cons]
      omega

/-- What holds of the bounds of every region of a chain holds of its stop. -/
theorem stop_of_forall {P : Nat → Prop} (chain : Chain start front stop)
    (holds : P start) (ends : ∀ region ∈ front, P region.addrEnd) : P stop := by
  induction chain with
  | nil => exact holds
  | @cons region rest stop isCombinable tail inductionHypothesis =>
      exact inductionHypothesis (ends region (by simp)) fun other inside =>
        ends other (by simp [inside])

end Chain

/-- The look-ahead loop takes the longest chain from an end on. -/
theorem combine_splits (rest : List MemoryRegion) : ∀ start,
    ∃ front behind, rest = front ++ behind ∧
      (combine start rest).2 = front.length ∧
      Chain start front (combine start rest).1 ∧
      ∀ next ∈ behind.head?, combinable next = true →
        next.addrStart ≠ (combine start rest).1 := by
  induction rest with
  | nil => exact fun start => ⟨[], [], rfl, rfl, .nil start, by simp⟩
  | cons region rest inductionHypothesis =>
      intro start
      by_cases continues : (combinable region &&
          decide (region.addrStart = start)) = true
      · obtain ⟨isCombinable, adjacent⟩ := Bool.and_eq_true_iff.mp continues
        obtain rfl := of_decide_eq_true adjacent
        obtain ⟨front, behind, rfl, merged, chain, ends⟩ :=
          inductionHypothesis region.addrEnd
        rw [combine, if_pos continues]
        exact ⟨region :: front, behind, rfl, congrArg (· + 1) merged,
          .cons isCombinable chain, ends⟩
      · refine ⟨[], region :: rest, rfl, ?_⟩
        simp only [combine, if_neg continues]
        refine ⟨rfl, .nil start, ?_⟩
        intro next isNext isCombinable adjacent
        obtain rfl := Option.some.inj isNext
        exact continues (by simp [isCombinable, adjacent])

/-! ## Cutting the table -/

/-- A table cut into single regions and longest chains. -/
inductive Grouped : List MemoryRegion → List CombinedRegion → Prop where
  | nil : Grouped [] []
  | single {region : MemoryRegion} {rest : List MemoryRegion}
      {groups : List CombinedRegion}
      (isSingle : combinable region = false)
      (tail : Grouped rest groups) :
      Grouped (region :: rest) (⟨region, region.addrEnd⟩ :: groups)
  | merged {region : MemoryRegion} {front behind : List MemoryRegion}
      {stop : Nat} {groups : List CombinedRegion}
      (isCombinable : combinable region = true)
      (chain : Chain region.addrEnd front stop)
      (ends : ∀ next ∈ behind.head?, combinable next = true →
        next.addrStart ≠ stop)
      (tail : Grouped behind groups) :
      Grouped (region :: (front ++ behind)) (⟨region, stop⟩ :: groups)

theorem combinedRegions_drop (table : List MemoryRegion) : ∀ skipped,
    combinedRegions skipped table = combinedRegions 0 (table.drop skipped) := by
  induction table with
  | nil =>
      intro skipped
      cases skipped <;> rfl
  | cons region rest inductionHypothesis =>
      intro skipped
      cases skipped with
      | zero => rfl
      | succ skipped => exact inductionHypothesis skipped

/-- A combinable region starts a group that takes the chain behind it. -/
theorem combinedRegions_cons {region : MemoryRegion} (rest : List MemoryRegion)
    (isCombinable : combinable region = true) :
    ∃ front behind stop, rest = front ++ behind ∧
      combine region.addrEnd rest = (stop, front.length) ∧
      Chain region.addrEnd front stop ∧
      (∀ next ∈ behind.head?, combinable next = true → next.addrStart ≠ stop) ∧
      combinedRegions 0 (region :: rest) =
        ⟨region, stop⟩ :: combinedRegions 0 behind := by
  obtain ⟨front, behind, rfl, merged, chain, ends⟩ :=
    combine_splits rest region.addrEnd
  refine ⟨front, behind, _, rfl, by rw [← merged], chain, ends, ?_⟩
  rw [combinedRegions, if_pos isCombinable]
  dsimp only
  rw [merged, combinedRegions_drop, List.drop_left]

theorem grouped_of_length (n : Nat) : ∀ table : List MemoryRegion,
    table.length ≤ n → Grouped table (combinedRegions 0 table) := by
  induction n with
  | zero =>
      intro table short
      obtain rfl := List.length_eq_zero_iff.mp (Nat.le_zero.mp short)
      exact .nil
  | succ n inductionHypothesis =>
      intro table short
      cases table with
      | nil => exact .nil
      | cons region rest =>
          rw [List.length_cons] at short
          cases isCombinable : combinable region with
          | false =>
              rw [combinedRegions, if_neg (by simp [isCombinable])]
              exact .single isCombinable (inductionHypothesis rest (by omega))
          | true =>
              obtain ⟨front, behind, stop, rfl, _, chain, ends, cut⟩ :=
                combinedRegions_cons rest isCombinable
              rw [List.length_append] at short
              rw [cut]
              exact .merged isCombinable chain ends
                (inductionHypothesis behind (by omega))

theorem grouped (table : List MemoryRegion) :
    Grouped table (combinedRegions 0 table) :=
  grouped_of_length table.length table (Nat.le_refl _)

/-! ## What the groups cover -/

namespace Grouped

variable {table : List MemoryRegion} {groups : List CombinedRegion}

theorem length_le (cut : Grouped table groups) :
    groups.length ≤ table.length := by
  induction cut with
  | nil => exact Nat.le_refl _
  | single isSingle tail inductionHypothesis =>
      simpa using inductionHypothesis
  | merged isCombinable chain ends tail inductionHypothesis =>
      simp only [List.length_cons, List.length_append]
      omega

/-- The groups start with regions of the table, in its order. -/
theorem regions_sublist (cut : Grouped table groups) :
    (groups.map CombinedRegion.region).Sublist table := by
  induction cut with
  | nil => exact List.Sublist.slnil
  | single isSingle tail inductionHypothesis => exact inductionHypothesis.cons_cons _
  | merged isCombinable chain ends tail inductionHypothesis =>
      exact (inductionHypothesis.trans (List.sublist_append_right _ _)).cons_cons _

/-- A group starts with a region of the table. -/
theorem region_mem (cut : Grouped table groups) :
    ∀ group ∈ groups, group.region ∈ table := fun _ inside =>
  cut.regions_sublist.subset (List.mem_map_of_mem inside)

/-- A group that is not combinable is one region of the table. -/
theorem mem_single (cut : Grouped table groups) (region : MemoryRegion)
    (isSingle : combinable region = false) :
    region ∈ table ↔ ⟨region, region.addrEnd⟩ ∈ groups := by
  induction cut with
  | nil => simp
  | single _ tail inductionHypothesis =>
      simp only [List.mem_cons, ← inductionHypothesis, CombinedRegion.mk.injEq]
      exact or_congr_left ⟨fun same => ⟨same, by rw [same]⟩, And.left⟩
  | @merged first front behind stop groups isCombinable chain ends tail
      inductionHypothesis =>
      have notFirst : region ≠ first := by
        rintro rfl
        simp [isSingle] at isCombinable
      have notFront : region ∉ front := fun inside => by
        simp [chain.combinable_of_mem region inside] at isSingle
      simp [notFirst, notFront, inductionHypothesis]

theorem stop_of_single (cut : Grouped table groups) :
    ∀ group ∈ groups, combinable group.region = false →
      group.stop = group.region.addrEnd := by
  induction cut with
  | nil => simp
  | single _ tail inductionHypothesis =>
      intro group inside isSingle
      rcases List.mem_cons.mp inside with rfl | inside
      · rfl
      · exact inductionHypothesis group inside isSingle
  | merged isCombinable chain ends tail inductionHypothesis =>
      intro group inside isSingle
      rcases List.mem_cons.mp inside with rfl | inside
      · simp [isCombinable] at isSingle
      · exact inductionHypothesis group inside isSingle

/-- The single groups are the regions that cannot be combined, in order. -/
theorem filter_single (cut : Grouped table groups) :
    (groups.filter fun group => !combinable group.region).map
        CombinedRegion.region =
      table.filter fun region => !combinable region := by
  induction cut with
  | nil => rfl
  | single isSingle tail inductionHypothesis =>
      simp [isSingle, inductionHypothesis]
  | @merged first front behind stop groups isCombinable chain ends tail
      inductionHypothesis =>
      have dropped : front.filter (fun region => !combinable region) = [] := by
        rw [List.filter_eq_nil_iff]
        intro region inside
        simp [chain.combinable_of_mem region inside]
      simp [isCombinable, dropped, inductionHypothesis]

/-- A property of bounds that all regions have, all groups have. -/
theorem bounds {P : Nat → Prop} (cut : Grouped table groups)
    (holds : ∀ region ∈ table, combinable region = true →
      P region.addrStart ∧ P region.addrEnd) :
    ∀ group ∈ groups, combinable group.region = true →
      P group.region.addrStart ∧ P group.stop := by
  induction cut with
  | nil => simp
  | single isSingle tail inductionHypothesis =>
      intro group inside isCombinable
      rcases List.mem_cons.mp inside with rfl | inside
      · simp [isSingle] at isCombinable
      · exact inductionHypothesis (fun region isRegion =>
          holds region (List.mem_cons_of_mem _ isRegion)) group inside isCombinable
  | @merged first front behind stop groups isCombinable chain ends tail
      inductionHypothesis =>
      intro group inside _
      rcases List.mem_cons.mp inside with rfl | inside
      · have head := holds first (by simp) isCombinable
        refine ⟨head.1, chain.stop_of_forall head.2 ?_⟩
        intro region isRegion
        exact (holds region (by simp [isRegion])
          (chain.combinable_of_mem region isRegion)).2
      · exact inductionHypothesis (fun region isRegion =>
          holds region (by simp [isRegion])) group inside ‹_›

/-- Groups are as ordered as their regions. -/
theorem start_le_stop (cut : Grouped table groups)
    (ordered : ∀ region ∈ table, combinable region = true →
      region.addrStart ≤ region.addrEnd) :
    ∀ group ∈ groups, combinable group.region = true →
      group.region.addrStart ≤ group.stop := by
  induction cut with
  | nil => simp
  | single isSingle tail inductionHypothesis =>
      intro group inside isCombinable
      rcases List.mem_cons.mp inside with rfl | inside
      · simp [isSingle] at isCombinable
      · exact inductionHypothesis (fun region isRegion =>
          ordered region (List.mem_cons_of_mem _ isRegion)) group inside
            isCombinable
  | @merged first front behind stop groups isCombinable chain ends tail
      inductionHypothesis =>
      intro group inside _
      rcases List.mem_cons.mp inside with rfl | inside
      · exact Nat.le_trans (ordered first (by simp) isCombinable)
          (chain.start_le_stop fun region isRegion =>
            ordered region (by simp [isRegion])
              (chain.combinable_of_mem region isRegion))
      · exact inductionHypothesis (fun region isRegion =>
          ordered region (by simp [isRegion])) group inside ‹_›

/-- The combinable groups cover the bytes of the combinable regions. -/
theorem mem_combinable (cut : Grouped table groups)
    (ordered : ∀ region ∈ table, combinable region = true →
      region.addrStart ≤ region.addrEnd) (x : Nat) :
    (∃ group ∈ groups, combinable group.region = true ∧ x ∈ group.bytes) ↔
      ∃ region ∈ table, combinable region = true ∧ x ∈ region.bytes := by
  induction cut with
  | nil => simp
  | single isSingle tail inductionHypothesis =>
      have rest := inductionHypothesis fun region isRegion =>
        ordered region (List.mem_cons_of_mem _ isRegion)
      rw [List.exists_mem_cons_iff, List.exists_mem_cons_iff, rest]
      simp [isSingle]
  | @merged first front behind stop groups isCombinable chain ends tail
      inductionHypothesis =>
      have rest := inductionHypothesis fun region isRegion =>
        ordered region (by simp [isRegion])
      have frontOrdered : ∀ region ∈ front,
          region.addrStart ≤ region.addrEnd := fun region isRegion =>
        ordered region (by simp [isRegion])
          (chain.combinable_of_mem region isRegion)
      have head := ordered first (by simp) isCombinable
      have behindHead := chain.start_le_stop frontOrdered
      have covered := chain.mem_iff frontOrdered x
      have inFront : (∃ region ∈ front, combinable region = true ∧
          x ∈ region.bytes) ↔ first.addrEnd ≤ x ∧ x < stop := by
        rw [covered]
        exact ⟨fun ⟨region, inside, _, member⟩ => ⟨region, inside, member⟩,
          fun ⟨region, inside, member⟩ => ⟨region, inside,
            chain.combinable_of_mem region inside, member⟩⟩
      have sides : (∃ region ∈ front ++ behind, combinable region = true ∧
          x ∈ region.bytes) ↔
          (∃ region ∈ front, combinable region = true ∧ x ∈ region.bytes) ∨
            ∃ region ∈ behind, combinable region = true ∧ x ∈ region.bytes := by
        simp only [List.mem_append, or_and_right, exists_or]
      rw [List.exists_mem_cons_iff, List.exists_mem_cons_iff, rest, sides, inFront]
      simp only [isCombinable, true_and, CombinedRegion.mem_bytes,
        MemoryRegion.mem_bytes]
      rw [← or_assoc]
      exact or_congr_left (by omega)

/-- The lengths of the combinable groups add up to the sizes of the combinable
regions. -/
theorem sum_lengths (cut : Grouped table groups)
    (ordered : ∀ region ∈ table, combinable region = true →
      region.addrStart ≤ region.addrEnd) :
    (groups.map fun group => if combinable group.region then
        group.stop - group.region.addrStart else 0).sum =
      (table.map fun region => if combinable region then
        region.addrEnd - region.addrStart else 0).sum := by
  induction cut with
  | nil => rfl
  | single isSingle tail inductionHypothesis =>
      have rest := inductionHypothesis fun region isRegion =>
        ordered region (List.mem_cons_of_mem _ isRegion)
      simp [isSingle, rest]
  | @merged first front behind stop groups isCombinable chain ends tail
      inductionHypothesis =>
      have rest := inductionHypothesis fun region isRegion =>
        ordered region (by simp [isRegion])
      have frontOrdered : ∀ region ∈ front,
          region.addrStart ≤ region.addrEnd := fun region isRegion =>
        ordered region (by simp [isRegion])
          (chain.combinable_of_mem region isRegion)
      have head := ordered first (by simp) isCombinable
      have whole := chain.sum_sizes frontOrdered
      have sizes : (front.map fun region => if combinable region then
          region.addrEnd - region.addrStart else 0) =
          front.map fun region => region.addrEnd - region.addrStart :=
        List.map_congr_left fun region inside => by
          rw [if_pos (chain.combinable_of_mem region inside)]
      simp only [List.map_cons, List.map_append, List.sum_cons, List.sum_append,
        rest, sizes, if_pos isCombinable]
      omega

/-! ## The order of the groups -/

/-- If those regions that are kept, combinable ones among them, do not run into each
other, then neither do their groups. -/
theorem ascending_of {P : MemoryRegion → Prop} (cut : Grouped table groups)
    (kept : ∀ region, combinable region = true → P region)
    (ascends : table.Pairwise fun a b => P a → P b → a.addrEnd ≤ b.addrStart) :
    groups.Pairwise fun a b => P a.region → P b.region →
      a.stop ≤ b.region.addrStart := by
  induction cut with
  | nil => exact List.Pairwise.nil
  | single isSingle tail inductionHypothesis =>
      obtain ⟨head, rest⟩ := List.pairwise_cons.mp ascends
      exact List.pairwise_cons.mpr ⟨fun group inside =>
        head group.region (tail.region_mem group inside),
        inductionHypothesis rest⟩
  | @merged first front behind stop groups isCombinable chain ends tail
      inductionHypothesis =>
      obtain ⟨head, rest⟩ := List.pairwise_cons.mp ascends
      obtain ⟨_, behindAscends, across⟩ := List.pairwise_append.mp rest
      refine List.pairwise_cons.mpr ⟨?_, inductionHypothesis behindAscends⟩
      intro group inside firstKept groupKept
      have isBehind := tail.region_mem group inside
      exact chain.stop_of_forall (P := fun bound => bound ≤ group.region.addrStart)
        (head group.region (by simp [isBehind]) firstKept groupKept)
        fun region isRegion => across region isRegion group.region isBehind
          (kept region (chain.combinable_of_mem region isRegion)) groupKept

/-- The groups of an ordered table do not run into each other. -/
theorem ascending (cut : Grouped table groups)
    (ascends : table.Pairwise fun a b => a.addrEnd ≤ b.addrStart) :
    groups.Pairwise fun a b => a.stop ≤ b.region.addrStart := by
  have all := cut.ascending_of (P := fun _ => True) (fun _ _ => trivial)
    (ascends.imp fun before _ _ => before)
  exact all.imp fun before => before trivial trivial

/-- The combinable groups do not run into each other if the combinable regions do
not. -/
theorem ascending_combinable (cut : Grouped table groups)
    (ascends : table.Pairwise fun a b => combinable a = true → combinable b = true →
      a.addrEnd ≤ b.addrStart) :
    groups.Pairwise fun a b => combinable a.region = true →
      combinable b.region = true → a.stop ≤ b.region.addrStart :=
  cut.ascending_of (fun _ isCombinable => isCombinable) ascends

/-- Between two combinable groups of an ordered table without empty regions
there is a gap. -/
theorem apart (cut : Grouped table groups)
    (ascends : table.Pairwise fun a b => a.addrEnd ≤ b.addrStart)
    (proper : ∀ region ∈ table, region.addrStart < region.addrEnd) :
    groups.Pairwise fun a b => combinable a.region = true →
      combinable b.region = true → a.stop ≠ b.region.addrStart := by
  induction cut with
  | nil => exact List.Pairwise.nil
  | single isSingle tail inductionHypothesis =>
      refine List.pairwise_cons.mpr ⟨?_, inductionHypothesis
        (List.pairwise_cons.mp ascends).2 fun region isRegion =>
          proper region (List.mem_cons_of_mem _ isRegion)⟩
      intro group inside isCombinable
      simp [isSingle] at isCombinable
  | @merged first front behind stop groups isCombinable chain ends tail
      inductionHypothesis =>
      have order := List.pairwise_cons.mp
        ((Grouped.merged isCombinable chain ends tail).ascending ascends)
      obtain ⟨_, rest⟩ := List.pairwise_cons.mp ascends
      obtain ⟨_, behindAscends, _⟩ := List.pairwise_append.mp rest
      refine List.pairwise_cons.mpr ⟨?_, inductionHypothesis behindAscends
        fun region isRegion => proper region (by simp [isRegion])⟩
      intro group inside _ groupCombinable touching
      have isBehind := tail.region_mem group inside
      cases behind with
      | nil => simp at isBehind
      | cons next behind =>
          rcases List.mem_cons.mp isBehind with same | later
          · exact ends next (by simp) (same ▸ groupCombinable) (same ▸ touching.symm)
          · -- The first region behind the chain lies in between.
            have between := (List.pairwise_cons.mp behindAscends).1 group.region
              later
            have nonempty := proper next (by simp)
            have below : stop ≤ next.addrStart :=
              chain.stop_of_forall (P := fun bound => bound ≤ next.addrStart)
                ((List.pairwise_cons.mp ascends).1 next (by simp))
                fun region isRegion => (List.pairwise_append.mp rest).2.2 region
                  isRegion next (by simp)
            dsimp only at touching
            omega

end Grouped

end SampoOS.Kernel
