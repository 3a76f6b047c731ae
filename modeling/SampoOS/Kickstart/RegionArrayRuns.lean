/-
Module: SampoOS.Kickstart.RegionArrayRuns
Purpose: Every operation of pmm.c on the array in memory does what the operation on
  the region table says, over any history of calls, and writes nothing but the array
  and the record that the sort exchanges through.
Trusted boundary: none
Main exports: Represents.addRegion, Represents.reserveMemoryRegion,
  Represents.allocateRegionWithType, Represents.deallocate, ArrayCall,
  arrayCalls, arrayCallsInMemory, arrayCalls_inMemory
-/
import SampoOS.Kickstart.PmmCoalesce
import SampoOS.Kickstart.RegionArray

namespace SampoOS.Kickstart

open BitFields (clearLow alignUp alignUp_lt)
open ByteMemory (Memory)
open RecordArray (Place)

section Refinement

variable {place : Place memoryRegionLayout 32} {original m : Memory} {s : RegionArray}
  {table : RegionTable}

/-! ## The operations -/

theorem clearLow_lt {a : Nat} (word : a < 2 ^ 64) : clearLow 64 12 a < 2 ^ 64 := by
  rw [BitFields.clearLow_eq (by decide) word]
  omega

theorem roundStart_lt {regionType : MemoryRegionType} {start : Nat}
    (word : start < 2 ^ 64) : roundStart regionType start < 2 ^ 64 := by
  unfold roundStart
  split
  · cases regionType with
    | available => exact alignUp_lt 64 12 start
    | reserved => exact clearLow_lt word
    | _ => exact word
  · exact word

theorem roundEnd_lt {regionType : MemoryRegionType} {stop : Nat} (word : stop < 2 ^ 64) :
    roundEnd regionType stop < 2 ^ 64 := by
  unfold roundEnd
  split
  · cases regionType with
    | available => exact clearLow_lt word
    | reserved => exact alignUp_lt 64 12 stop
    | _ => exact word
  · exact word

theorem roundedRegion_words {regionType : MemoryRegionType} {start stop : Nat}
    (start64 : start < 2 ^ 64) (stop64 : stop < 2 ^ 64)
    (code : regionType.code < 2 ^ 64) :
    MemoryRegion.Words (roundedRegion regionType start stop) :=
  ⟨roundStart_lt start64, roundEnd_lt stop64, code⟩

theorem reserveStart_lt {start : Nat} (word : start < 2 ^ 32) :
    reserveStart start < 2 ^ 32 := by
  rw [reserveStart]
  split
  · rw [BitFields.clearLow_eq (by decide) word]
    omega
  · exact word

theorem reserveEnd_lt {stop : Nat} (word : stop < 2 ^ 32) : reserveEnd stop < 2 ^ 32 := by
  rw [reserveEnd]
  split
  · exact alignUp_lt 32 12 stop
  · exact word

theorem allocated_code_lt : MemoryRegionType.allocated.code < 2 ^ 64 := by decide

theorem kernel_code_lt : MemoryRegionType.kernel.code < 2 ^ 64 := by decide

theorem available_code_lt : MemoryRegionType.available.code < 2 ^ 64 := by decide

section Calls

variable {table' : RegionTable} (whole : place.capacity = memoryRegionsLength)

include whole

theorem Represents.pushRegion (represents : Represents place original s table)
    {region : MemoryRegion} (words : MemoryRegion.Words region)
    (ran : pushRegion table region = some table') :
    Represents place original (s.push place region) table' := by
  obtain ⟨room, rfl⟩ := pushRegion_eq_some.mp ran
  exact represents.push (whole ▸ room) words

theorem Represents.addRegion (represents : Represents place original s table)
    {regionType : MemoryRegionType} {start stop : Nat} (start64 : start < 2 ^ 64)
    (stop64 : stop < 2 ^ 64) (code : regionType.code < 2 ^ 64)
    (ran : pmmAddRegion table regionType start stop = some table') :
    Represents place original (s.pmmAddRegion place regionType start stop) table' := by
  rw [pmmAddRegion, Option.bind_eq_bind, Option.bind_eq_some_iff] at ran
  obtain ⟨pushed, room, same⟩ := ran
  obtain rfl := Option.some.inj same
  exact (represents.pushRegion whole (roundedRegion_words start64 stop64 code) room).sort

/-- The two regions that are cut against each other stay where they are until the
sort. -/
theorem Represents.cutContaining {newRegion containing : MemoryRegion} {i : Nat}
    (represents : Represents place original s (table ++ [newRegion]))
    (below : i < table.length) (isContaining : table[i] = containing)
    (ran : Kickstart.cutContaining (table ++ [newRegion]) i containing newRegion =
      some table') :
    Represents place original (s.cutContaining place i) table' := by
  have holds := represents.holds
  have count : s.memoryRegionCount = table.length + 1 := by
    rw [represents.count, List.length_append]
    rfl
  have inTable : i < (table ++ [newRegion]).length := by
    rw [List.length_append]
    exact Nat.lt_add_right _ below
  have newWords := words holds (List.mem_append_right table (List.mem_singleton_self _))
  have first : place.get s.memory i = containing := by
    rw [holds.records i inTable, List.getElem_append_left below, isContaining]
  have containingWords : MemoryRegion.Words containing := first ▸ get_words place s.memory i
  have last : place.get s.memory (s.memoryRegionCount - 1) = newRegion := by
    rw [count, Nat.add_sub_cancel, holds.records _ (by simp)]
    simp
  rw [RegionArray.cutContaining, first, last]
  rw [Kickstart.cutContaining] at ran
  dsimp only
  split at ran
  next atStart =>
    obtain rfl := Option.some.inj ran
    rw [if_pos atStart]
    exact represents.update (setAddrStart_holds holds inTable newWords.addrEnd)
      (List.length_modify ..)
  next notStart =>
    rw [if_neg notStart]
    split at ran
    next atEnd =>
      obtain rfl := Option.some.inj ran
      rw [if_pos atEnd]
      exact represents.update (setAddrEnd_holds holds inTable newWords.addrStart)
        (List.length_modify ..)
    next notEnd =>
      rw [if_neg notEnd]
      rw [Option.bind_eq_bind, Option.bind_eq_some_iff] at ran
      obtain ⟨pushed, room, same⟩ := ran
      obtain rfl := Option.some.inj same
      have rest : MemoryRegion.Words
          { addrStart := newRegion.addrEnd, addrEnd := containing.addrEnd,
            type := containing.type } :=
        ⟨newWords.addrEnd, containingWords.addrEnd, containingWords.type⟩
      have both := represents.pushRegion whole rest room
      obtain ⟨_, rfl⟩ := pushRegion_eq_some.mp room
      refine both.update (setAddrEnd_holds both.holds ?_ newWords.addrStart)
        (List.length_modify ..)
      rw [List.length_append]
      exact Nat.lt_add_right _ inTable

theorem Represents.reserveMemoryRegion (represents : Represents place original s table)
    {start stop : Nat} (start32 : start < 2 ^ 32) (stop32 : stop < 2 ^ 32)
    (ran : pmmReserveMemoryRegion table start stop = some table') :
    Represents place original (s.pmmReserveMemoryRegion place start stop) table' := by
  rw [RegionArray.pmmReserveMemoryRegion]
  rw [pmmReserveMemoryRegion] at ran
  dsimp only at ran ⊢
  rw [represents.find?]
  cases found : table.findIdx? (containsRange (reserveStart start) (reserveEnd stop)) with
  | none =>
      rw [found] at ran
      obtain rfl := Option.some.inj ran
      exact represents
  | some i =>
      rw [found] at ran
      simp only [Option.bind_eq_bind, Option.bind_eq_some_iff] at ran
      obtain ⟨pushed, room, cut, isCut, same⟩ := ran
      obtain rfl := Option.some.inj same
      obtain ⟨below, _⟩ := List.findIdx?_eq_some_iff_getElem.mp found
      have words : MemoryRegion.Words
          { addrStart := reserveStart start, addrEnd := reserveEnd stop,
            type := .allocated } :=
        ⟨Nat.lt_trans (reserveStart_lt start32) (by decide),
          Nat.lt_trans (reserveEnd_lt stop32) (by decide), allocated_code_lt⟩
      have both := represents.pushRegion whole words room
      obtain ⟨_, rfl⟩ := pushRegion_eq_some.mp room
      rw [List.getElem?_eq_getElem below, Option.getD_some] at isCut
      exact (both.cutContaining whole below rfl isCut).sort

theorem Represents.allocateRegionWithType (represents : Represents place original s table)
    {regionPageCount ret : Nat} {type : MemoryRegionType} (code : type.code < 2 ^ 64)
    (ran : pmmAllocateRegionWithType table regionPageCount type = some (ret, table')) :
    ∃ s', s.pmmAllocateRegionWithType place regionPageCount type = (ret, s') ∧
      Represents place original s' table' := by
  rw [RegionArray.pmmAllocateRegionWithType]
  rw [pmmAllocateRegionWithType] at ran
  split at ran
  next nothing =>
    simp only [Option.some.injEq, Prod.mk.injEq] at ran
    obtain ⟨rfl, rfl⟩ := ran
    exact ⟨s, if_pos nothing, represents⟩
  next something =>
    rw [if_neg something]
    dsimp only at ran ⊢
    rw [represents.find?]
    cases found : table.findIdx? (fitsAllocation (allocationLength regionPageCount)) with
    | none =>
        rw [found] at ran
        simp only [Option.some.injEq, Prod.mk.injEq] at ran
        obtain ⟨rfl, rfl⟩ := ran
        exact ⟨s, rfl, represents⟩
    | some i =>
        rw [found] at ran
        simp only [Option.bind_eq_bind, Option.bind_eq_some_iff] at ran
        obtain ⟨pushed, room, same⟩ := ran
        obtain ⟨below, _⟩ := List.findIdx?_eq_some_iff_getElem.mp found
        have first : place.get s.memory i = table[i] := represents.holds.records i below
        rw [List.getElem?_eq_getElem below, Option.map_some, Option.getD_some] at room same
        have end64 : (table[i].addrStart + allocationLength regionPageCount) % 2 ^ 64 <
            2 ^ 64 := Nat.mod_lt _ (Nat.two_pow_pos 64)
        have newWords : MemoryRegion.Words
            { addrStart := table[i].addrStart
              addrEnd := (table[i].addrStart + allocationLength regionPageCount) % 2 ^ 64
              type := type } :=
          ⟨(words represents.holds (List.getElem_mem below)).addrStart, end64, code⟩
        have both := represents.pushRegion whole newWords room
        obtain ⟨_, rfl⟩ := pushRegion_eq_some.mp room
        simp only [Option.pure_def, Option.some.injEq, Prod.mk.injEq] at same
        obtain ⟨rfl, rfl⟩ := same
        have still : i < (table ++ [({
              addrStart := table[i].addrStart
              addrEnd := (table[i].addrStart + allocationLength regionPageCount) % 2 ^ 64
              type := type } : MemoryRegion)]).length := by
          rw [List.length_append]
          exact Nat.lt_add_right _ below
        have cut := both.update (setAddrStart_holds both.holds still end64)
          (List.length_modify ..)
        dsimp only
        rw [first, both.holds.records i still, List.getElem_append_left below]
        refine ⟨_, rfl, ?_⟩
        split
        · exact cut.sort
        · exact cut

end Calls

/-! ## Coalescing -/

theorem modify_middle {α : Type} (front : List α) (a : α) (back : List α) (f : α → α) :
    (front ++ a :: back).modify front.length f = front ++ f a :: back := by
  rw [List.modify_eq_take_drop, List.take_left, List.drop_left]
  rfl

/-- The inner loop, with the regions in front of `head` and between it and the current
one left as they are. -/
theorem absorb_holds {front : List MemoryRegion} :
    ∀ {rest between : List MemoryRegion} {head : MemoryRegion} {m : Memory},
      place.Holds original m (front ++ head :: (between ++ rest)) →
      place.Holds original
        (RegionArray.absorb place front.length
          (List.range' (front.length + 1 + between.length) rest.length) m)
        (front ++ (absorb head rest).1 :: (between ++ (absorb head rest).2)) := by
  intro rest
  induction rest with
  | nil => exact fun holds => holds
  | cons current rest inductionHypothesis =>
      intro between head m holds
      have length : ∀ head : MemoryRegion, (front ++ head :: between).length =
          front.length + 1 + between.length := by
        intro head
        rw [List.length_append, List.length_cons]
        omega
      have behind : ∀ head current : MemoryRegion,
          front ++ head :: (between ++ current :: rest) =
            (front ++ head :: between) ++ current :: rest := by
        intro head current
        simp
      have atHead : place.get m front.length = head := by
        rw [holds.records _ (by simp)]
        simp
      have atCurrent : ∀ {head : MemoryRegion} {m : Memory},
          place.Holds original m (front ++ head :: (between ++ current :: rest)) →
          place.get m (front.length + 1 + between.length) = current := by
        intro head m holds
        rw [behind] at holds
        rw [← length head, holds.records _ (by simp)]
        simp
      have wider : ∀ region : MemoryRegion, between ++ region :: rest =
          (between ++ [region]) ++ rest := by simp
      have next : ∀ region : MemoryRegion, front.length + 1 + between.length + 1 =
          front.length + 1 + (between ++ [region]).length := by
        intro region
        rw [List.length_append, List.length_singleton, Nat.add_assoc]
      rw [List.length_cons, List.range'_succ, RegionArray.absorb, absorb]
      dsimp only
      rw [atHead, atCurrent holds]
      split
      · exact holds
      · split
        · rw [wider] at holds
          have others := inductionHypothesis holds
          rw [next current]
          simpa using others
        · split
          · exact holds
          · have currentWords : MemoryRegion.Words current :=
              atCurrent holds ▸ get_words place m _
            have grown := setAddrEnd_holds holds (i := front.length) (by simp)
              currentWords.addrEnd
            rw [modify_middle] at grown
            rw [atCurrent grown]
            have same := length { head with addrEnd := current.addrEnd }
            rw [behind] at grown
            have emptied := setAddrStart_holds grown
              (i := front.length + 1 + between.length) (by rw [← same]; simp)
              currentWords.addrEnd
            rw [← same, modify_middle, same, ← behind, wider] at emptied
            have others := inductionHypothesis emptied
            rw [next { current with addrStart := current.addrEnd }]
            simpa using others

theorem coalesceAt_holds (holds : place.Holds original m table) {i : Nat}
    (below : i < table.length) :
    place.Holds original (RegionArray.coalesceAt place table.length m i)
        (coalesceAt table i) ∧
      (coalesceAt table i).length = table.length := by
  have split : table.take i ++ table[i] :: table.drop (i + 1) = table := by
    rw [← List.drop_eq_getElem_cons below, List.take_append_drop]
  have front : (table.take i).length = i := by
    rw [List.length_take, Nat.min_eq_left (Nat.le_of_lt below)]
  rw [RegionArray.coalesceAt, coalesceAt, List.drop_eq_getElem_cons below]
  dsimp only
  rw [holds.records i below]
  split
  · exact ⟨holds, rfl⟩
  · split
    · exact ⟨holds, rfl⟩
    · constructor
      · have whole := holds
        rw [← split] at whole
        have absorbed := @absorb_holds place original (table.take i) _ [] _ _ whole
        rw [front, List.length_drop] at absorbed
        exact absorbed
      · rw [List.length_append, List.length_cons, length_absorb, front, List.length_drop]
        omega

theorem Represents.coalesce (represents : Represents place original s table) :
    Represents place original (s.coalesce place) (coalesce table) := by
  obtain ⟨holds, count⟩ := represents
  have done : place.Holds original (s.coalesce place).memory (Kickstart.coalesce table) ∧
      (Kickstart.coalesce table).length = table.length := by
    rw [RegionArray.coalesce, Kickstart.coalesce, count]
    refine List.foldl_rel (r := fun m table' => place.Holds original m table' ∧
      table'.length = table.length) ⟨holds, rfl⟩ ?_
    intro i inRange m table' both
    obtain ⟨held, same⟩ := both
    have step := coalesceAt_holds held (same ▸ List.mem_range.mp inRange)
    rw [same] at step
    exact step
  exact ⟨done.1, count.trans done.2.symm⟩

theorem Represents.deallocate (represents : Represents place original s table)
    (addr : Nat) :
    Represents place original (s.pmmDeallocate place addr) (pmmDeallocate table addr) := by
  rw [RegionArray.pmmDeallocate, pmmDeallocate]
  generalize (if addr &&& 0x0FFF ≠ 0 then clearLow 64 12 addr else addr) = pageAddr
  dsimp only
  rw [represents.find? fun region => !decide (region.addrStart < pageAddr)]
  cases found : table.findIdx? fun region => !decide (region.addrStart < pageAddr) with
  | none => exact represents.coalesce.sort
  | some i =>
      obtain ⟨below, _⟩ := List.findIdx?_eq_some_iff_getElem.mp found
      dsimp only
      rw [List.getElem?_eq_getElem below, represents.holds.records i below]
      dsimp only
      split
      · exact represents
      · split
        · exact represents
        · have freed := represents.update
            (setType_holds represents.holds below available_code_lt)
            (List.length_modify ..)
          exact freed.coalesce.sort

end Refinement

/-! ## Histories -/

/-- A call of the memory manager. -/
inductive ArrayCall where
  | add (regionType : MemoryRegionType) (start stop : Nat)
  | reserve (start stop : Nat)
  | allocate (regionPageCount : Nat) (type : MemoryRegionType)
  | deallocate (addr : Nat)
deriving Repr, DecidableEq

namespace ArrayCall

/-- The call on a region table, with the pointer that it returns, 0 for none. -/
def run (table : RegionTable) : ArrayCall → Option (Nat × RegionTable)
  | add regionType start stop =>
      (pmmAddRegion table regionType start stop).map fun table => (0, table)
  | reserve start stop =>
      (pmmReserveMemoryRegion table start stop).map fun table => (0, table)
  | allocate regionPageCount type =>
      pmmAllocateRegionWithType table regionPageCount type
  | deallocate addr => some (0, pmmDeallocate table addr)

/-- The call on the array in memory. -/
def runInMemory (place : Place memoryRegionLayout 32) (s : RegionArray) :
    ArrayCall → Nat × RegionArray
  | add regionType start stop => (0, s.pmmAddRegion place regionType start stop)
  | reserve start stop => (0, s.pmmReserveMemoryRegion place start stop)
  | allocate regionPageCount type =>
      s.pmmAllocateRegionWithType place regionPageCount type
  | deallocate addr => (0, s.pmmDeallocate place addr)

/-- The arguments have the widths of their C types. -/
def Words : ArrayCall → Prop
  | add regionType start stop =>
      start < 2 ^ 64 ∧ stop < 2 ^ 64 ∧ regionType.code < 2 ^ 64
  | reserve start stop => start < 2 ^ 32 ∧ stop < 2 ^ 32
  | allocate _ type => type.code < 2 ^ 64
  | deallocate _ => True

instance : (call : ArrayCall) → Decidable call.Words
  | add _ _ _ => inferInstanceAs (Decidable (_ ∧ _))
  | reserve _ _ => inferInstanceAs (Decidable (_ ∧ _))
  | allocate _ _ => inferInstanceAs (Decidable (_ < _))
  | deallocate _ => inferInstanceAs (Decidable True)

end ArrayCall

/-- The calls in order, with the pointers that they return. -/
def arrayCalls : List ArrayCall → RegionTable → Option (List Nat × RegionTable)
  | [], table => some ([], table)
  | call :: rest, table =>
      (call.run table).bind fun (ret, table) =>
        (arrayCalls rest table).map fun (rets, table) => (ret :: rets, table)

/-- The calls in order, on the array in memory. -/
def arrayCallsInMemory (place : Place memoryRegionLayout 32) :
    List ArrayCall → RegionArray → List Nat × RegionArray
  | [], s => ([], s)
  | call :: rest, s =>
      let (ret, s) := call.runInMemory place s
      let (rets, s) := arrayCallsInMemory place rest s
      (ret :: rets, s)

section History

variable {place : Place memoryRegionLayout 32} {original m : Memory} {s : RegionArray}
  {table table' : RegionTable} (whole : place.capacity = memoryRegionsLength)

/-- An array without regions represents the empty table, whatever is in it. -/
theorem Represents.empty (place : Place memoryRegionLayout 32) (m : Memory) :
    Represents place m { memory := m, memoryRegionCount := 0 } [] :=
  ⟨⟨Nat.zero_le _, fun _ below => absurd below (Nat.not_lt_zero _), fun _ _ => rfl⟩, rfl⟩

include whole

theorem Represents.call (represents : Represents place original s table)
    {call : ArrayCall} (words : call.Words) {ret : Nat}
    (ran : call.run table = some (ret, table')) :
    ∃ s', call.runInMemory place s = (ret, s') ∧
      Represents place original s' table' := by
  cases call with
  | add regionType start stop =>
      rw [ArrayCall.run, Option.map_eq_some_iff] at ran
      obtain ⟨_, ran, same⟩ := ran
      obtain ⟨rfl, rfl⟩ := Prod.mk.inj same
      exact ⟨_, rfl, represents.addRegion whole words.1 words.2.1 words.2.2 ran⟩
  | reserve start stop =>
      rw [ArrayCall.run, Option.map_eq_some_iff] at ran
      obtain ⟨_, ran, same⟩ := ran
      obtain ⟨rfl, rfl⟩ := Prod.mk.inj same
      exact ⟨_, rfl, represents.reserveMemoryRegion whole words.1 words.2 ran⟩
  | allocate regionPageCount type =>
      exact represents.allocateRegionWithType whole words ran
  | deallocate addr =>
      rw [ArrayCall.run, Option.some.injEq, Prod.mk.injEq] at ran
      obtain ⟨rfl, rfl⟩ := ran
      exact ⟨_, rfl, represents.deallocate addr⟩

theorem Represents.calls {calls : List ArrayCall} :
    ∀ {s : RegionArray} {table : RegionTable} {rets : List Nat},
      Represents place original s table → (∀ call ∈ calls, call.Words) →
      arrayCalls calls table = some (rets, table') →
      ∃ s', arrayCallsInMemory place calls s = (rets, s') ∧
        Represents place original s' table' := by
  induction calls with
  | nil =>
      intro s table rets represents _ ran
      rw [arrayCalls, Option.some.injEq, Prod.mk.injEq] at ran
      obtain ⟨rfl, rfl⟩ := ran
      exact ⟨s, rfl, represents⟩
  | cons call rest inductionHypothesis =>
      intro s table rets represents words ran
      rw [arrayCalls, Option.bind_eq_some_iff] at ran
      obtain ⟨⟨ret, next⟩, first, others⟩ := ran
      rw [Option.map_eq_some_iff] at others
      obtain ⟨⟨more, last⟩, others, same⟩ := others
      obtain ⟨rfl, rfl⟩ := Prod.mk.inj same
      obtain ⟨middle, inMemory, held⟩ :=
        represents.call whole (words call List.mem_cons_self) first
      obtain ⟨s', rest, done⟩ := inductionHypothesis held
        (fun call inside => words call (List.mem_cons_of_mem _ inside)) others
      refine ⟨s', ?_, done⟩
      rw [arrayCallsInMemory, inMemory]
      dsimp only
      rw [rest]

/-- Any history of calls on an array without regions: as long as the array is not
overrun, the calls return what they return on the region table, the array holds that
table, and only the array and the buffer are written. -/
theorem arrayCalls_inMemory {calls : List ArrayCall} {rets : List Nat}
    (words : ∀ call ∈ calls, call.Words)
    (ran : arrayCalls calls [] = some (rets, table)) :
    ∃ s', arrayCallsInMemory place calls { memory := m, memoryRegionCount := 0 } =
        (rets, s') ∧
      s'.memoryRegionCount = table.length ∧
      (∀ (i : Nat) (below : i < table.length), place.get s'.memory i = table[i]) ∧
      ∀ x, x ∉ place.bytes → s'.memory x = m x := by
  obtain ⟨s', inMemory, represents⟩ :=
    (Represents.empty place m).calls whole words ran
  exact ⟨s', inMemory, represents.count, represents.holds.records, represents.holds.kept⟩

end History

/-- An array at 1 MiB, with the record of the sort on a stack below it. -/
def arrayAtMebibyte : Place memoryRegionLayout 32 where
  base := 0x100000
  capacity := memoryRegionsLength
  buffer := 0xF0000
  fits := by decide
  bufferFits := by decide
  apart := by decide

/-- Calls of every kind. -/
def everyArrayCall : List ArrayCall :=
  [.add .available 0x200000 0x300000, .add .reserved 0x80 0x1000,
    .reserve 0x210000 0x211234, .allocate 3 .kernel, .deallocate 0]

theorem arrayCalls_inMemory_everyCall :
    ∃ (rets : List Nat) (table : RegionTable) (s' : RegionArray),
    arrayCallsInMemory arrayAtMebibyte everyArrayCall
        { memory := fun _ => 0xFF, memoryRegionCount := 0 } = (rets, s') ∧
      s'.memoryRegionCount = table.length ∧
      (∀ (i : Nat) (below : i < table.length),
        arrayAtMebibyte.get s'.memory i = table[i]) ∧
      ∀ x, x ∉ arrayAtMebibyte.bytes → s'.memory x = 0xFF := by
  have ran : (arrayCalls everyArrayCall []).isSome := by decide
  obtain ⟨⟨rets, table⟩, ran⟩ := Option.isSome_iff_exists.mp ran
  exact ⟨rets, table, arrayCalls_inMemory rfl (by decide) ran⟩

end SampoOS.Kickstart
