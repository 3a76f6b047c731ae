/-
Module: SampoOS.Kickstart.PmmCommute
Purpose: Two reservations of disjoint ranges give the same table in either
  order.
Trusted boundary: none
Main exports: pieces, pieces_comm, Fragments, Fragments.eq,
  pmmReserveMemoryRegion_comm
-/
import SampoOS.Kickstart.PmmBounds

namespace SampoOS.Kickstart

/-! ## What a block leaves of one region -/

/-- The region is available and the block lies in it. -/
def Holds (region block : MemoryRegion) : Prop :=
  region.addrStart ≤ block.addrStart ∧ block.addrEnd ≤ region.addrEnd ∧
    region.type = .available

instance (region block : MemoryRegion) : Decidable (Holds region block) :=
  inferInstanceAs (Decidable (_ ∧ _ ∧ _))

/-- What is left of a region once the block is reserved. -/
def pieces (region block : MemoryRegion) : List MemoryRegion :=
  if Holds region block then remainders region block else [region]

theorem mem_pieces_of_holds {region block piece : MemoryRegion}
    (holds : Holds region block) :
    piece ∈ pieces region block ↔ piece ∈ remainders region block := by
  rw [pieces, if_pos holds]

theorem mem_pieces_of_not_holds {region block piece : MemoryRegion}
    (missing : ¬ Holds region block) :
    piece ∈ pieces region block ↔ piece = region := by
  rw [pieces, if_neg missing, List.mem_singleton]

/-- A piece lies within its region and has the same type. -/
theorem piece_within {region block piece : MemoryRegion}
    (proper : block.addrStart < block.addrEnd)
    (inside : piece ∈ pieces region block) :
    region.addrStart ≤ piece.addrStart ∧ piece.addrEnd ≤ region.addrEnd ∧
      piece.type = region.type := by
  by_cases holds : Holds region block
  · have start := holds.1
    have stop := holds.2.1
    rw [mem_pieces_of_holds holds, mem_remainders] at inside
    rcases inside with ⟨rfl, _⟩ | ⟨rfl, _⟩
    · exact ⟨Nat.le_refl _, by dsimp only; omega, rfl⟩
    · exact ⟨by dsimp only; omega, Nat.le_refl _, rfl⟩
  · obtain rfl := (mem_pieces_of_not_holds holds).mp inside
    exact ⟨Nat.le_refl _, Nat.le_refl _, rfl⟩

theorem exists_piece {region block : MemoryRegion} {P : MemoryRegion → Prop}
    (holds : Holds region block) :
    (∃ piece ∈ pieces region block, P piece) ↔
      (region.addrStart ≠ block.addrStart ∧
          P { region with addrEnd := block.addrStart }) ∨
        (block.addrEnd ≠ region.addrEnd ∧
          P { region with addrStart := block.addrEnd }) := by
  simp only [mem_pieces_of_holds holds, mem_remainders, or_and_right, exists_or,
    and_assoc, exists_eq_left]

/-- Two blocks that share no byte, one ending before the other starts. -/
def Beside (a b : MemoryRegion) : Prop :=
  a.addrEnd ≤ b.addrStart ∨ b.addrEnd ≤ a.addrStart

theorem Beside.symm {a b : MemoryRegion} (beside : Beside a b) : Beside b a :=
  Or.symm beside

/-- The pieces of a region around two of its blocks, the first below the
second. -/
def BetweenBlocks (region a b entry : MemoryRegion) : Prop :=
  (entry = { region with addrEnd := a.addrStart } ∧
      region.addrStart ≠ a.addrStart) ∨
    (entry = { region with addrStart := a.addrEnd, addrEnd := b.addrStart } ∧
      a.addrEnd ≠ b.addrStart) ∨
    (entry = { region with addrStart := b.addrEnd } ∧ b.addrEnd ≠ region.addrEnd)

section TwoBlocks

variable {region a b : MemoryRegion} (properA : a.addrStart < a.addrEnd)
  (properB : b.addrStart < b.addrEnd)

include properA properB

/-- A block lies in a piece exactly when it lies in the region. -/
theorem exists_piece_holds (beside : Beside a b) :
    (∃ piece ∈ pieces region a, Holds piece b) ↔ Holds region b := by
  constructor
  · rintro ⟨piece, inside, holds⟩
    obtain ⟨start, stop, type⟩ := piece_within properA inside
    exact ⟨start.trans holds.1, holds.2.1.trans stop, type ▸ holds.2.2⟩
  · intro holds
    by_cases holdsA : Holds region a
    · rcases beside with below | above
      · exact ⟨{ region with addrStart := a.addrEnd },
          (mem_pieces_of_holds holdsA).mpr (mem_remainders.mpr
            (Or.inr ⟨rfl, by have := holds.2.1; omega⟩)),
          below, holds.2.1, holds.2.2⟩
      · exact ⟨{ region with addrEnd := a.addrStart },
          (mem_pieces_of_holds holdsA).mpr (mem_remainders.mpr
            (Or.inl ⟨rfl, by have := holds.1; omega⟩)),
          holds.1, above, holds.2.2⟩
    · exact ⟨region, (mem_pieces_of_not_holds holdsA).mpr rfl, holds⟩

theorem pieces_lower_first (holdsA : Holds region a) (holdsB : Holds region b)
    (below : a.addrEnd ≤ b.addrStart) (entry : MemoryRegion) :
    (∃ piece ∈ pieces region a, entry ∈ pieces piece b) ↔
      BetweenBlocks region a b entry := by
  have front : ¬ Holds { region with addrEnd := a.addrStart } b := by
    intro holds
    have stop : b.addrEnd ≤ a.addrStart := holds.2.1
    omega
  have back : Holds { region with addrStart := a.addrEnd } b :=
    ⟨below, holdsB.2.1, holdsB.2.2⟩
  have room : a.addrEnd ≠ region.addrEnd := by
    have := holdsB.2.1
    omega
  rw [exists_piece holdsA, mem_pieces_of_not_holds front,
    mem_pieces_of_holds back, mem_remainders, BetweenBlocks]
  simp only [room, ne_eq, not_false_eq_true, true_and, and_comm]

theorem pieces_upper_first (holdsA : Holds region a) (holdsB : Holds region b)
    (below : a.addrEnd ≤ b.addrStart) (entry : MemoryRegion) :
    (∃ piece ∈ pieces region b, entry ∈ pieces piece a) ↔
      BetweenBlocks region a b entry := by
  have front : Holds { region with addrEnd := b.addrStart } a :=
    ⟨holdsA.1, below, holdsA.2.2⟩
  have back : ¬ Holds { region with addrStart := b.addrEnd } a := by
    intro holds
    have start : b.addrEnd ≤ a.addrStart := holds.1
    omega
  have room : region.addrStart ≠ b.addrStart := by
    have := holdsA.1
    omega
  rw [exists_piece holdsB, mem_pieces_of_not_holds back,
    mem_pieces_of_holds front, mem_remainders, BetweenBlocks]
  simp only [room, ne_eq, not_false_eq_true, true_and, and_comm, or_assoc]

/-- Reserving two blocks leaves the same pieces of a region in either order. -/
theorem pieces_comm (beside : Beside a b) (entry : MemoryRegion) :
    (∃ piece ∈ pieces region a, entry ∈ pieces piece b) ↔
      ∃ piece ∈ pieces region b, entry ∈ pieces piece a := by
  -- A block that the region does not hold leaves it, and all its pieces, alone.
  have skipped : ∀ {a b : MemoryRegion}, b.addrStart < b.addrEnd →
      ¬ Holds region a →
      ((∃ piece ∈ pieces region a, entry ∈ pieces piece b) ↔
        ∃ piece ∈ pieces region b, entry ∈ pieces piece a) := by
    intro a b properB missing
    have still : ∀ piece ∈ pieces region b, ¬ Holds piece a := by
      intro piece inside holds
      obtain ⟨start, stop, type⟩ := piece_within properB inside
      exact missing
        ⟨start.trans holds.1, holds.2.1.trans stop, type ▸ holds.2.2⟩
    simp only [mem_pieces_of_not_holds missing, exists_eq_left]
    constructor
    · intro inside
      exact ⟨entry, inside, (mem_pieces_of_not_holds (still entry inside)).mpr rfl⟩
    · rintro ⟨piece, inside, same⟩
      rwa [(mem_pieces_of_not_holds (still piece inside)).mp same]
  by_cases holdsA : Holds region a
  · by_cases holdsB : Holds region b
    · rcases beside with below | above
      · rw [pieces_lower_first properA properB holdsA holdsB below,
          pieces_upper_first properA properB holdsA holdsB below]
      · rw [pieces_lower_first properB properA holdsB holdsA above,
          pieces_upper_first properB properA holdsB holdsA above]
    · exact (skipped properA holdsB).symm
  · exact skipped properB holdsA

end TwoBlocks

/-! ## What a reservation leaves of a table -/

/-- The block that a range asks for. -/
def rangeBlock (start stop : Nat) : MemoryRegion :=
  { addrStart := reserveStart start
    addrEnd := reserveEnd stop
    type := .allocated }

theorem containsRange_iff_holds {start stop : Nat} {region : MemoryRegion} :
    containsRange (reserveStart start) (reserveEnd stop) region = true ↔
      Holds region (rangeBlock start stop) :=
  containsRange_iff

theorem reservedBlock_eq_none {table : RegionTable} {start stop : Nat} :
    reservedBlock table start stop = none ↔
      ∀ region ∈ table, ¬ Holds region (rangeBlock start stop) := by
  simp only [reservedBlock, Option.map_eq_none_iff, List.find?_eq_none,
    containsRange_iff_holds]

theorem reservedBlock_eq_some {table : RegionTable} {start stop : Nat}
    {block : MemoryRegion} (accepted : reservedBlock table start stop = some block) :
    block = rangeBlock start stop := by
  obtain ⟨_, _, isBlock⟩ := Option.map_eq_some_iff.mp accepted
  exact isBlock.symm

theorem ReservationStep.available {table after : RegionTable} {start stop : Nat}
    {region block : MemoryRegion}
    (step : ReservationStep table start stop region block after) :
    region.type = .available :=
  (containsRange_iff.mp step.contains).2.2

theorem ReservationStep.mem {table after : RegionTable} {start stop : Nat}
    {region block : MemoryRegion}
    (step : ReservationStep table start stop region block after) :
    region ∈ table := by
  obtain ⟨before, behind, shrunk, extra, rfl, _⟩ := step.edit
  simp

/-- A cut region and the piece behind the block, if they have bytes, start in
the region. -/
theorem Cut.within {region block shrunk : MemoryRegion} {extra : RegionTable}
    (cut : Cut region block shrunk extra) (holds : Holds region block)
    (proper : block.addrStart < block.addrEnd) :
    region.addrStart ≤ shrunk.addrStart ∧
      (isEmpty shrunk = false → shrunk.addrStart ∈ region.bytes) ∧
      ∀ entry ∈ extra, isEmpty entry = false ∧
        entry.addrStart ∈ region.bytes := by
  have start := holds.1
  have stop := holds.2.1
  cases cut with
  | tail atStart =>
      refine ⟨by dsimp only; omega, ?_, by simp⟩
      intro live
      rw [isEmpty_false_iff] at live
      rw [MemoryRegion.mem_bytes]
      dsimp only at live ⊢
      omega
  | front notStart atEnd =>
      refine ⟨Nat.le_refl _, ?_, by simp⟩
      intro _
      rw [MemoryRegion.mem_bytes]
      dsimp only
      omega
  | enclosed notStart notEnd =>
      refine ⟨Nat.le_refl _, ?_, ?_⟩
      · intro _
        rw [MemoryRegion.mem_bytes]
        dsimp only
        omega
      · intro entry inside
        rw [List.mem_singleton.mp inside, isEmpty_false_iff,
          MemoryRegion.mem_bytes]
        dsimp only
        omega

/-- The entries of the table that start at one address, in order. -/
def startingAt (k : Nat) (table : RegionTable) : RegionTable :=
  table.filter fun region => region.addrStart = k

theorem startingAt_append (k : Nat) (table table' : RegionTable) :
    startingAt k (table ++ table') = startingAt k table ++ startingAt k table' :=
  List.filter_append ..

theorem startingAt_cons_ne {k : Nat} {region : MemoryRegion} (table : RegionTable)
    (elsewhere : region.addrStart ≠ k) :
    startingAt k (region :: table) = startingAt k table := by
  simp [startingAt, elsewhere]

theorem startingAt_eq_nil {k : Nat} {table : RegionTable}
    (elsewhere : ∀ region ∈ table, region.addrStart ≠ k) :
    startingAt k table = [] := by
  simpa [startingAt] using elsewhere

/-- An accepted reservation moves no entry that starts outside of the region
it cuts. -/
theorem ReservationStep.startingAt_eq {table after : RegionTable}
    {start stop : Nat} {region block : MemoryRegion}
    (step : ReservationStep table start stop region block after)
    (invariant : TableInvariant table)
    (proper : reserveStart start < reserveEnd stop) {k : Nat}
    (outside : k ∉ region.bytes) :
    startingAt k after = startingAt k table := by
  obtain ⟨contains, isBlock, before, behind, shrunk, extra, rfl, cut, rfl⟩ := step
  obtain rfl : block = rangeBlock start stop := isBlock
  have holds := containsRange_iff_holds.mp contains
  obtain ⟨later, liveStart, extraStarts⟩ := cut.within holds proper
  have elsewhere : ∀ {entry : MemoryRegion}, entry.addrStart ∈ region.bytes →
      entry.addrStart ≠ k := by
    rintro entry inside rfl
    exact outside inside
  have appendedNonempty : ∀ entry ∈ rangeBlock start stop :: extra,
      isEmpty entry = false := by
    intro entry inside
    rcases List.mem_cons.mp inside with rfl | inside
    · exact isEmpty_false_iff.mpr (Nat.ne_of_lt proper)
    · exact (extraStarts entry inside).1
  have gone : startingAt k (BubbleSort.live isEmpty [shrunk]) = [] := by
    apply startingAt_eq_nil
    intro entry inside
    simp only [BubbleSort.live, List.mem_filter, List.mem_singleton,
      Bool.not_eq_true'] at inside
    obtain ⟨rfl, live⟩ := inside
    exact elsewhere (liveStart live)
  have added : startingAt k (rangeBlock start stop :: extra) = [] := by
    apply startingAt_eq_nil
    intro entry inside
    rcases List.mem_cons.mp inside with rfl | inside
    · have start := holds.1
      have stop := holds.2.1
      exact elsewhere ⟨start, Nat.lt_of_lt_of_le proper stop⟩
    · exact elsewhere (extraStarts entry inside).2
  have regionStart : region.addrStart ≠ k :=
    elsewhere ⟨Nat.le_refl _, (holds.1.trans_lt proper).trans_le holds.2.1⟩
  obtain ⟨safe, alive⟩ := sortSafe_cut invariant later appendedNonempty
  have settled := pmmSortRegions_settles safe
  calc startingAt k (pmmSortRegions _)
      = startingAt k (before ++ (BubbleSort.live isEmpty [shrunk] ++
          (behind ++ rangeBlock start stop :: extra))) := by
        rw [← alive]
        exact settled.stable k
    _ = startingAt k (before ++ region :: behind) := by
        rw [startingAt_append, startingAt_append, startingAt_append, gone, added,
          List.nil_append, List.append_nil, startingAt_append,
          startingAt_cons_ne _ regionStart]

/-- What a reservation does to a table in order, told by the table's entries:
either no region holds the range and the table stays, or the block is carved
out of the one region that holds it. -/
theorem mem_reserved {table after : RegionTable} {start stop : Nat}
    (invariant : TableInvariant table)
    (proper : reserveStart start < reserveEnd stop)
    (reserved : pmmReserveMemoryRegion table start stop = some after)
    (entry : MemoryRegion) :
    entry ∈ after ↔
      (entry = rangeBlock start stop ∧
          ∃ region ∈ table, Holds region (rangeBlock start stop)) ∨
        ∃ region ∈ table, entry ∈ pieces region (rangeBlock start stop) := by
  rcases pmmReserveMemoryRegion_spec invariant proper reserved with
    ⟨nothing, rfl⟩ | ⟨block, something, before, region, behind, rfl, carves⟩
  · have missing := reservedBlock_eq_none.mp nothing
    constructor
    · intro inside
      exact Or.inr ⟨entry, inside,
        (mem_pieces_of_not_holds (missing entry inside)).mpr rfl⟩
    · rintro (⟨_, region, inside, holds⟩ | ⟨region, inside, piece⟩)
      · exact absurd holds (missing region inside)
      · rwa [(mem_pieces_of_not_holds (missing region inside)).mp piece]
  · obtain rfl := reservedBlock_eq_some something
    have holds : Holds region (rangeBlock start stop) :=
      ⟨carves.start, carves.stop, carves.available⟩
    have others : ∀ other ∈ before ++ behind,
        ¬ Holds other (rangeBlock start stop) := by
      intro other inside holdsOther
      refine MemoryRegion.apart_iff.mp
        (invariant.apart_others carves.available other inside)
        (reserveStart start) ?_ ?_
      · exact ⟨holds.1, proper.trans_le holds.2.1⟩
      · exact ⟨holdsOther.1, proper.trans_le holdsOther.2.1⟩
    rw [carves.mem_after]
    simp only [List.perm_middle.mem_iff, List.mem_cons, or_and_right, exists_or,
      exists_eq_left, holds, true_or, and_true, mem_pieces_of_holds]
    refine or_congr_right (or_congr_right ?_)
    constructor
    · intro inside
      exact ⟨entry, inside,
        (mem_pieces_of_not_holds (others entry inside)).mpr rfl⟩
    · rintro ⟨other, inside, piece⟩
      rwa [(mem_pieces_of_not_holds (others other inside)).mp piece]

/-! ## Tables that come from the same available memory -/

/-- Two regions share no byte of the given memory. -/
def ApartWithin (memory : Set Nat) (a b : MemoryRegion) : Prop :=
  ∀ x ∈ memory, x ∈ a.bytes → x ∉ b.bytes

theorem ApartWithin.symm {memory : Set Nat} {a b : MemoryRegion}
    (apart : ApartWithin memory a b) : ApartWithin memory b a :=
  fun x known inB inA => apart x known inA inB

theorem MemoryRegion.Apart.within {memory : Set Nat} {a b : MemoryRegion}
    (apart : a.Apart b) : ApartWithin memory a b :=
  fun x _ => MemoryRegion.apart_iff.mp apart x

/-- The table keeps the invariant and all its regions have bytes. -/
structure ProperTable (table : RegionTable) : Prop extends
    TableInvariant table where
  proper : ∀ region ∈ table, region.addrStart < region.addrEnd

/-- In a table in order an available region shares no byte with a different
entry. -/
theorem TableInvariant.apart_of_ne {table : RegionTable} {a b : MemoryRegion}
    (invariant : TableInvariant table) (insideA : a ∈ table)
    (insideB : b ∈ table) (available : a.type = .available) (differs : b ≠ a) :
    a.Apart b := by
  obtain ⟨before, behind, rfl⟩ := List.append_of_mem insideA
  have member := List.mem_cons.mp (List.perm_middle.mem_iff.mp insideB)
  exact invariant.apart_others available b (member.resolve_left differs)

theorem TableInvariant.apartWithin {table : RegionTable}
    (invariant : TableInvariant table) :
    table.Pairwise (ApartWithin (availableBytes table)) := by
  refine invariant.separate.imp_of_mem ?_
  rintro a b insideA _ separate x ⟨region, inside, available, inRegion⟩ inA
  by_cases same : a = region
  · subst same
    exact MemoryRegion.apart_iff.mp (separate (Or.inl available)) x inA
  · exact absurd inA (MemoryRegion.apart_iff.mp
      (invariant.apart_of_ne inside insideA available same) x inRegion)

/-- The table has come from another one by cutting up the given memory only:
whatever starts elsewhere is as it was, and no two entries share a byte of
that memory. -/
structure Fragments (memory : Set Nat) (table after : RegionTable) : Prop extends
    ProperTable after where
  available_subset : availableBytes after ⊆ memory
  startingAt_eq : ∀ k ∉ memory, startingAt k after = startingAt k table
  apartWithin : after.Pairwise (ApartWithin memory)

namespace Fragments

variable {memory : Set Nat} {table mid after after' : RegionTable}

theorem refl (ordered : ProperTable table) :
    Fragments (availableBytes table) table table where
  toProperTable := ordered
  available_subset := subset_rfl
  startingAt_eq _ _ := rfl
  apartWithin := ordered.toTableInvariant.apartWithin

/-- Reserving a range cuts up available memory only. -/
theorem reserve (fragments : Fragments memory table mid) {start stop : Nat}
    (nonempty : start < stop) (fits : stop ≤ 0xFFFFF000)
    (reserved : pmmReserveMemoryRegion mid start stop = some after) :
    Fragments memory table after := by
  have covers := reserve_covers nonempty fits
  have proper := reserve_proper nonempty fits
  have invariant := fragments.toTableInvariant
  rcases pmmReserveMemoryRegion_spec invariant proper reserved with
    ⟨_, rfl⟩ | ⟨block, something, carves⟩
  · exact fragments
  · have isBlock := reservedBlock_eq_some something
    rw [isBlock] at carves
    refine
      { toTableInvariant := carves.preserves_invariant invariant
          (by dsimp only [rangeBlock]; omega) (by dsimp only [rangeBlock]; omega)
        proper := ?_
        available_subset := ?_
        startingAt_eq := ?_
        apartWithin := ?_ }
    · intro entry inside
      rcases carves.origin inside with rfl | ⟨old, insideOld, _, _, _, rfl | live⟩
      · exact proper
      · exact fragments.proper entry insideOld
      · exact live
    · rw [carves.availableBytes_eq invariant (by simp [rangeBlock])]
      exact Set.sdiff_subset.trans fragments.available_subset
    · intro k unknown
      rw [← fragments.startingAt_eq k unknown]
      rcases pmmReserveMemoryRegion_cases reserved with
        ⟨_, rfl⟩ | ⟨region, _, _, step⟩
      · rfl
      · refine step.startingAt_eq invariant proper ?_
        intro inside
        exact unknown (fragments.available_subset
          ⟨region, step.mem, step.available, inside⟩)
    · obtain ⟨before, region, behind, rfl, carvesFrom⟩ := carves
      exact carvesFrom.pairwise_after ApartWithin.symm MemoryRegion.Apart.within
        (invariant.apart_others carvesFrom.available) fragments.apartWithin

/-- Two tables that come from the same one, with the same entries, are equal. -/
theorem eq (one : Fragments memory table after)
    (other : Fragments memory table after')
    (same : ∀ entry, entry ∈ after ↔ entry ∈ after') : after = after' := by
  have single : ∀ {result : RegionTable}, Fragments memory table result →
      ∀ k ∈ memory, result.Pairwise fun a b =>
        a.addrStart = k → b.addrStart ≠ k := by
    intro result fragments k known
    refine fragments.apartWithin.imp_of_mem ?_
    rintro a b insideA insideB apart rfl startB
    refine apart a.addrStart known ⟨Nat.le_refl _, fragments.proper a insideA⟩ ?_
    exact ⟨startB.le, startB ▸ fragments.proper b insideB⟩
  have runs : BubbleSort.SameRuns MemoryRegion.addrStart after after' := by
    intro k
    by_cases known : k ∈ memory
    · exact BubbleSort.filter_key_eq (single one k known) (single other k known)
        fun entry _ => same entry
    · exact (one.startingAt_eq k known).trans (other.startingAt_eq k known).symm
  exact runs.eq_of_sorted one.sorted other.sorted

end Fragments

/-! ## Two reservations -/

/-- A reservation adds at most two entries. -/
theorem length_reserved_le {table after : RegionTable} {start stop : Nat}
    (invariant : TableInvariant table)
    (proper : reserveStart start < reserveEnd stop)
    (reserved : pmmReserveMemoryRegion table start stop = some after) :
    after.length ≤ table.length + 2 := by
  rcases pmmReserveMemoryRegion_spec invariant proper reserved with
    ⟨_, rfl⟩ | ⟨block, _, before, region, behind, rfl, carves⟩
  · omega
  · have parts : (remainders region block).length ≤ 2 := List.length_filter_le _ _
    rw [carves.perm.length_eq]
    simp only [List.length_append, List.length_cons]
    omega

/-- A table with two free entries has room for a reservation. -/
theorem exists_reserved {table : RegionTable}
    (room : table.length + 2 ≤ memoryRegionsLength) (start stop : Nat) :
    ∃ after, pmmReserveMemoryRegion table start stop = some after := by
  rw [← Option.isSome_iff_exists, RegionCall.isSome_pmmReserveMemoryRegion]
  intro region _
  split
  · omega
  · exact room

/-- The table after a reservation of one range and then another one, by its
entries. -/
theorem mem_reserved_twice {table mid after : RegionTable}
    {start stop start' stop' : Nat} (invariant : TableInvariant table)
    (invariantMid : TableInvariant mid)
    (proper : reserveStart start < reserveEnd stop)
    (proper' : reserveStart start' < reserveEnd stop')
    (beside : Beside (rangeBlock start stop) (rangeBlock start' stop'))
    (reserved : pmmReserveMemoryRegion table start stop = some mid)
    (reserved' : pmmReserveMemoryRegion mid start' stop' = some after)
    (entry : MemoryRegion) :
    entry ∈ after ↔
      (entry = rangeBlock start' stop' ∧
          ∃ region ∈ table, Holds region (rangeBlock start' stop')) ∨
        (entry = rangeBlock start stop ∧
          ∃ region ∈ table, Holds region (rangeBlock start stop)) ∨
        ∃ region ∈ table, ∃ piece ∈ pieces region (rangeBlock start stop),
          entry ∈ pieces piece (rangeBlock start' stop') := by
  have taken : ¬ Holds (rangeBlock start stop) (rangeBlock start' stop') := by
    intro holds
    exact absurd holds.2.2 (by simp [rangeBlock])
  have throughMid : ∀ Q : MemoryRegion → Prop, (∃ region ∈ mid, Q region) ↔
      (Q (rangeBlock start stop) ∧
          ∃ region ∈ table, Holds region (rangeBlock start stop)) ∨
        ∃ region ∈ table, ∃ piece ∈ pieces region (rangeBlock start stop),
          Q piece := by
    intro Q
    simp only [mem_reserved invariant proper reserved, or_and_right, exists_or,
      and_assoc, exists_eq_left]
    refine or_congr and_comm ?_
    constructor
    · rintro ⟨piece, ⟨region, inside, isPiece⟩, holds⟩
      exact ⟨region, inside, piece, isPiece, holds⟩
    · rintro ⟨region, inside, piece, isPiece, holds⟩
      exact ⟨piece, ⟨region, inside, isPiece⟩, holds⟩
  rw [mem_reserved invariantMid proper' reserved', throughMid, throughMid,
    mem_pieces_of_not_holds taken]
  simp only [taken, false_and, false_or,
    exists_piece_holds proper proper' beside]

/-- Two reservations of a table with room for both have a result. -/
theorem exists_reserved_twice {table : RegionTable} {start₁ stop₁ start₂ stop₂ : Nat}
    (ordered : ProperTable table) (room : table.length ≤ 1020)
    (nonempty₁ : start₁ < stop₁) (fits₁ : stop₁ ≤ 0xFFFFF000)
    (nonempty₂ : start₂ < stop₂) (fits₂ : stop₂ ≤ 0xFFFFF000) :
    ∃ mid after, pmmReserveMemoryRegion table start₁ stop₁ = some mid ∧
      pmmReserveMemoryRegion mid start₂ stop₂ = some after ∧
      Fragments (availableBytes table) table mid ∧
      Fragments (availableBytes table) table after := by
  have two : table.length + 2 ≤ memoryRegionsLength := by
    rw [memoryRegionsLength]
    omega
  obtain ⟨mid, reserved⟩ := exists_reserved two start₁ stop₁
  have grown := length_reserved_le ordered.toTableInvariant
    (reserve_proper nonempty₁ fits₁) reserved
  have twoMore : mid.length + 2 ≤ memoryRegionsLength := by
    rw [memoryRegionsLength]
    omega
  obtain ⟨after, reserved'⟩ := exists_reserved twoMore start₂ stop₂
  have fragments := (Fragments.refl ordered).reserve nonempty₁ fits₁ reserved
  exact ⟨mid, after, reserved, reserved', fragments,
    fragments.reserve nonempty₂ fits₂ reserved'⟩

/-- Reserving two ranges that share no page gives the same table in either
order, whether the ranges are accepted or not. -/
theorem pmmReserveMemoryRegion_comm {table : RegionTable}
    {start₁ stop₁ start₂ stop₂ : Nat} (invariant : TableInvariant table)
    (proper : ∀ region ∈ table, region.addrStart < region.addrEnd)
    (room : table.length ≤ 1020)
    (nonempty₁ : start₁ < stop₁) (fits₁ : stop₁ ≤ 0xFFFFF000)
    (nonempty₂ : start₂ < stop₂) (fits₂ : stop₂ ≤ 0xFFFFF000)
    (disjoint : reserveEnd stop₁ ≤ reserveStart start₂ ∨
      reserveEnd stop₂ ≤ reserveStart start₁) :
    ∃ after,
      (pmmReserveMemoryRegion table start₁ stop₁).bind
          (fun mid => pmmReserveMemoryRegion mid start₂ stop₂) = some after ∧
        (pmmReserveMemoryRegion table start₂ stop₂).bind
          (fun mid => pmmReserveMemoryRegion mid start₁ stop₁) = some after := by
  have ordered : ProperTable table := ⟨invariant, proper⟩
  have pages₁ := reserve_proper nonempty₁ fits₁
  have pages₂ := reserve_proper nonempty₂ fits₂
  obtain ⟨mid₁, after₁, first₁, then₂, midFragments₁, fragments₁⟩ :=
    exists_reserved_twice ordered room nonempty₁ fits₁ nonempty₂ fits₂
  obtain ⟨mid₂, after₂, first₂, then₁, midFragments₂, fragments₂⟩ :=
    exists_reserved_twice ordered room nonempty₂ fits₂ nonempty₁ fits₁
  have beside : Beside (rangeBlock start₁ stop₁) (rangeBlock start₂ stop₂) :=
    disjoint
  have same : after₁ = after₂ := by
    refine fragments₁.eq fragments₂ ?_
    intro entry
    rw [mem_reserved_twice invariant midFragments₁.toTableInvariant
        pages₁ pages₂ beside first₁ then₂,
      mem_reserved_twice invariant midFragments₂.toTableInvariant
        pages₂ pages₁ beside.symm first₂ then₁]
    simp only [pieces_comm pages₁ pages₂ beside]
    exact or_left_comm
  refine ⟨after₁, ?_, ?_⟩
  · rw [first₁]
    exact then₂
  · rw [first₂, same]
    exact then₁

/-- A region that two touching reservations use up, and one that is left
alone. -/
def touchedTable : RegionTable :=
  [⟨0x1000, 0x9000, .reserved⟩, ⟨0x100000, 0x104000, .available⟩,
    ⟨0x200000, 0x300000, .available⟩]

theorem touchedTable_invariant : TableInvariant touchedTable where
  sorted := by decide
  nonempty := by decide
  aligned := by decide
  separate := by
    have stops : touchedTable.Pairwise fun a b => a.addrEnd ≤ b.addrStart := by
      decide
    refine stops.imp ?_
    intro a b behind _
    rw [MemoryRegion.apart_iff]
    intro x inA inB
    rw [MemoryRegion.mem_bytes] at inA inB
    omega

/-- The second reservation takes what the first one has left of the region. -/
theorem pmmReserveMemoryRegion_comm_touched :
    ∃ after,
      (pmmReserveMemoryRegion touchedTable 0x100000 0x101800).bind
          (fun mid => pmmReserveMemoryRegion mid 0x102000 0x104000) = some after ∧
        (pmmReserveMemoryRegion touchedTable 0x102000 0x104000).bind
          (fun mid => pmmReserveMemoryRegion mid 0x100000 0x101800) = some after :=
  pmmReserveMemoryRegion_comm touchedTable_invariant (by decide) (by decide)
    (by decide) (by decide) (by decide) (by decide) (Or.inl (by decide))

end SampoOS.Kickstart
