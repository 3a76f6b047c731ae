/-
Module: SampoOS.Handover.KernelCalls
Purpose: Histories of virt_map_pages_kernel_end: the pages behind the kernel are a
  log of the frames that were asked for, which ends for good at the first page that
  cannot be had.
Trusted boundary: none
Main exports: KernelCall, kernelCalls, LogMapped, LogServed, callPointers,
  kernelCalls_served, CallsLogged, kickstartMain_kernelCalls
-/
import SampoOS.Handover.InitialisedKernel

namespace SampoOS

open ByteMemory (Memory storeLe)
open Paging
open Kickstart Kernel

/-! ## Calls -/

/-- The arguments of a call of `virt_map_pages_kernel_end`. -/
structure KernelCall where
  physicalPageAddr : Nat
  pageCount : Nat
  mappingPerms : Nat
deriving Repr, DecidableEq

namespace KernelCall

/-- Whole pages of physical memory. -/
structure WellFormed (call : KernelCall) : Prop where
  aligned : 4096 ∣ call.physicalPageAddr
  low : call.physicalPageAddr + 4096 * call.pageCount ≤ 2 ^ 52

/-- What the call asks for, page by page. -/
def mappings (call : KernelCall) : List PageMapping :=
  (List.range call.pageCount).map fun i =>
    requestedMapping (call.physicalPageAddr + 4096 * i) call.mappingPerms

@[simp] theorem length_mappings (call : KernelCall) :
    call.mappings.length = call.pageCount := by
  rw [mappings, List.length_map, List.length_range]

end KernelCall

/-- The calls in order, with the pointers that they return. -/
def kernelCalls : List KernelCall → KernelState → Option (List Nat × KernelState)
  | [], s => some ([], s)
  | call :: rest, s =>
      (virtMapPagesKernelEnd call.physicalPageAddr call.pageCount call.mappingPerms
        s).bind fun (ptr, s) =>
          (kernelCalls rest s).map fun (ptrs, s) => (ptr :: ptrs, s)

/-- All that is asked for, in order. -/
def requestedLog (calls : List KernelCall) : List PageMapping :=
  calls.flatMap KernelCall.mappings

@[simp] theorem requestedLog_nil : requestedLog [] = [] := rfl

theorem requestedLog_cons (call : KernelCall) (calls : List KernelCall) :
    requestedLog (call :: calls) = call.mappings ++ requestedLog calls := rfl

/-- The pointers that calls return, the first of which is `before` pages behind the
start of the log, when only `served` pages of the log can be had. -/
def callPointers (start served : Nat) : Nat → List KernelCall → List Nat
  | _, [] => []
  | before, call :: rest =>
      (if call.pageCount = 0 ∨ before + call.pageCount ≤ served then
        (start + 4096 * min before served) % 2 ^ 64
      else 0) :: callPointers start served (before + call.pageCount) rest

/-- Pointers are counted from the start of the log. -/
theorem callPointers_shift (start served pages : Nat) (calls : List KernelCall) :
    ∀ before, callPointers ((start + 4096 * pages) % 2 ^ 64) served before calls =
      callPointers start (pages + served) (pages + before) calls := by
  induction calls with
  | nil => exact fun _ => rfl
  | cons call rest inductionHypothesis =>
      intro before
      rw [callPointers, callPointers, inductionHypothesis, Nat.add_assoc]
      congr 1
      have same : pages + (before + call.pageCount) ≤ pages + served ↔
          before + call.pageCount ≤ served := Nat.add_le_add_iff_left
      simp only [same, Nat.add_min_add_left]
      split_ifs <;> omega

/-- Behind the end of the log only calls for nothing return a pointer. -/
theorem callPointers_behind (start served : Nat) (calls : List KernelCall) :
    ∀ before, served < before → callPointers start served before calls =
      calls.map fun call =>
        if call.pageCount = 0 then (start + 4096 * served) % 2 ^ 64 else 0 := by
  induction calls with
  | nil => exact fun _ _ => rfl
  | cons call rest inductionHypothesis =>
      intro before behind
      rw [callPointers, List.map_cons, inductionHypothesis _ (by omega),
        Nat.min_eq_right (Nat.le_of_lt behind)]
      congr 1
      have never : ¬ before + call.pageCount ≤ served := by omega
      simp only [never, or_false]

/-! ## The log -/

/-- A list of mappings entered at the pages from `start` on, and no other page
touched. -/
structure LogMapped (start : Nat) (log : List PageMapping)
    (space space' : AddressSpace) : Prop where
  unmapped : ∀ i < log.length, space (pageNumber (start + 4096 * i)) = none
  added : ∀ (i : Nat) (below : i < log.length),
    space' (pageNumber (start + 4096 * i)) = some log[i]
  kept : ∀ page, (∀ i < log.length, page ≠ pageNumber (start + 4096 * i)) →
    space' page = space page

namespace LogMapped

variable {start : Nat} {log more : List PageMapping}
  {space space₁ space' : AddressSpace}

theorem nil (start : Nat) (space : AddressSpace) : LogMapped start [] space space :=
  ⟨fun _ below => absurd below (Nat.not_lt_zero _),
    fun _ below => absurd below (Nat.not_lt_zero _), fun _ _ => rfl⟩

/-- Where a log starts matters only up to wrapping around. -/
theorem wrapped (mapped : LogMapped (start % 2 ^ 64) log space space') :
    LogMapped start log space space' := by
  have same : ∀ i, pageNumber (start % 2 ^ 64 + 4096 * i) =
      pageNumber (start + 4096 * i) := by
    intro i
    rw [pageNumber, pageNumber]
    omega
  have unmapped := mapped.unmapped
  have added := mapped.added
  have kept := mapped.kept
  simp only [same] at unmapped added kept
  exact ⟨unmapped, added, kept⟩

/-- Two logs, the second behind the first. -/
theorem append (first : LogMapped start log space space₁)
    (second : LogMapped (start + 4096 * log.length) more space₁ space')
    (apart : ∀ i < log.length, ∀ j < more.length,
      pageNumber (start + 4096 * (log.length + j)) ≠ pageNumber (start + 4096 * i)) :
    LogMapped start (log ++ more) space space' := by
  have behind : ∀ j, start + 4096 * log.length + 4096 * j =
      start + 4096 * (log.length + j) := by
    intro j
    rw [Nat.add_assoc, Nat.mul_add]
  have unmapped := second.unmapped
  have added := second.added
  have kept := second.kept
  simp only [behind] at unmapped added kept
  refine ⟨?_, ?_, ?_⟩
  · intro i below
    rw [List.length_append] at below
    by_cases inFirst : i < log.length
    · exact first.unmapped i inFirst
    · obtain ⟨j, rfl⟩ := Nat.exists_eq_add_of_le (Nat.not_lt.mp inFirst)
      have inMore : j < more.length := by omega
      rw [← first.kept _ fun i below => apart i below j inMore]
      exact unmapped j inMore
  · intro i below
    rw [List.length_append] at below
    by_cases inFirst : i < log.length
    · rw [List.getElem_append_left inFirst,
        kept _ fun j inMore => (apart i inFirst j inMore).symm]
      exact first.added i inFirst
    · obtain ⟨j, rfl⟩ := Nat.exists_eq_add_of_le (Nat.not_lt.mp inFirst)
      rw [List.getElem_append_right (Nat.le_add_right _ _), added j (by omega)]
      congr 1
      simp only [Nat.add_sub_cancel_left]
  · intro page elsewhere
    rw [List.length_append] at elsewhere
    rw [kept page fun j inMore => elsewhere _ (by omega),
      first.kept page fun i inFirst => elsewhere i (by omega)]

end LogMapped

/-- What one call maps is a log of its own. -/
theorem RunMapped.logMapped {call : KernelCall} {start count : Nat}
    {space space' : AddressSpace} (fewer : count ≤ call.pageCount)
    (run : RunMapped start call.physicalPageAddr call.mappingPerms count space space') :
    LogMapped start (call.mappings.take count) space space' := by
  have length : (call.mappings.take count).length = count := by
    rw [List.length_take, call.length_mappings, Nat.min_eq_left fewer]
  refine ⟨?_, ?_, ?_⟩
  · rw [length]
    exact run.unmapped
  · intro i below
    rw [List.getElem_take]
    simp only [KernelCall.mappings, List.getElem_map, List.getElem_range]
    exact run.added i (length ▸ below)
  · rw [length]
    exact run.kept

/-! ## Histories -/

theorem kernelCalls_cons {call : KernelCall} {s next : KernelState} {ptr : Nat}
    (one : virtMapPagesKernelEnd call.physicalPageAddr call.pageCount call.mappingPerms
      s = some (ptr, next)) (rest : List KernelCall) :
    kernelCalls (call :: rest) s =
      (kernelCalls rest next).map fun (ptrs, s) => (ptr :: ptrs, s) := by
  rw [kernelCalls, one]
  rfl

/-- Where the mapper is stuck, only calls for nothing return a pointer, and no call
changes anything. -/
theorem Stuck.calls {s : KernelState} (stuck : Stuck s) (calls : List KernelCall) :
    kernelCalls calls s = some (calls.map fun call =>
      if call.pageCount = 0 then s.kernelEndAddr else 0, s) := by
  induction calls with
  | nil => rfl
  | cons call rest inductionHypothesis =>
      have one : virtMapPagesKernelEnd call.physicalPageAddr call.pageCount
          call.mappingPerms s =
            some (if call.pageCount = 0 then s.kernelEndAddr else 0, s) := by
        rw [virtMapPagesKernelEnd]
        cases call.pageCount with
        | zero => rfl
        | succ count =>
            rw [virtMapPages, stuck]
            rfl
      rw [kernelCalls_cons one, inductionHypothesis]
      rfl

/-- The next `count` pages at the end of the kernel can be looked up: they have page
tables, and are not those of the fractal mapping. -/
def Reachable (tables : Tables) (s : KernelState) (count : Nat) : Prop :=
  ∀ i < count, OutsideWindow (runAddr s i) ∧ (tables (pageTablePath (runAddr s i))).isSome

/-- What the calls leave behind when `served` pages of their log can be had. -/
structure LogServed (tables : Tables) (log : List PageMapping) (served : Nat)
    (s s' : KernelState) (space space' : AddressSpace) : Prop where
  fewer : served ≤ log.length
  mapped : LogMapped s.kernelEndAddr (log.take served) space space'
  blocked : served < log.length →
    Stuck s' ∧ space (pageNumber (s.kernelEndAddr + 4096 * served)) ≠ none
  kernelEnd : s'.kernelEndAddr = (s.kernelEndAddr + 4096 * served) % 2 ^ 64
  tree : SlottedTree s'.physical s.root fractalMapPml4Idx tables space'
  root : s'.root = s.root
  untouched : ∀ x, x ∉ tableBytes tables → s'.physical x = s.physical x

section History

variable {tables : Tables}

namespace Reachable

variable {s : KernelState} {count : Nat}

theorem outside (reachable : Reachable tables s count) :
    ∀ i < count, OutsideWindow (runAddr s i) := fun i below => (reachable i below).1

theorem apart (reachable : Reachable tables s count) {i j : Nat} (before : i < j)
    (below : j < count) :
    pageNumber (s.kernelEndAddr + 4096 * j) ≠ pageNumber (s.kernelEndAddr + 4096 * i) := by
  have different := pageNumber_runAddr_ne reachable.outside before below
  rwa [pageNumber_runAddr, pageNumber_runAddr] at different

/-- The pages behind those that are mapped. -/
theorem behind {n : Nat} {s' : KernelState} (reachable : Reachable tables s (n + count))
    (kernelEnd : s'.kernelEndAddr = (s.kernelEndAddr + 4096 * n) % 2 ^ 64) :
    Reachable tables s' count := by
  intro i below
  have same : runAddr s' i = runAddr s (n + i) := by
    rw [runAddr, runAddr, kernelEnd, pageSize]
    omega
  rw [same]
  exact reachable _ (Nat.add_lt_add_left below n)

/-- A turn at a page that can be looked up does not fault, and refuses only a page
that is mapped. -/
theorem virtMapPage {space : AddressSpace} (reachable : Reachable tables s (count + 1))
    (word : s.kernelEndAddr < 2 ^ 64)
    (slotted : SlottedTree s.physical s.root fractalMapPml4Idx tables space)
    (physAddr perms : Nat) :
    (∃ s', Kernel.virtMapPage physAddr perms s = some (true, s')) ∨
      Kernel.virtMapPage physAddr perms s = some (false, s) ∧
        space (pageNumber s.kernelEndAddr) ≠ none := by
  obtain ⟨outside, hasTable⟩ := reachable 0 (Nat.succ_pos count)
  obtain ⟨table, isTable⟩ := Option.isSome_iff_exists.mp hasTable
  rw [runAddr_zero word] at outside isTable
  have ran : Kernel.virtMapPage physAddr perms s = _ :=
    virtMapPage_reached slotted.recursiveTree.toRecursiveSlot
      ((slotted.reach_eq outside.treePath).trans isTable)
  split at ran
  next present =>
    refine Or.inr ⟨ran, fun unmapped => ?_⟩
    rw [(slotted.free_iff isTable (pageTablePath_append _).symm (pageNumber_lt _)
      ((outsideSlot_iff _).mpr outside)).mpr unmapped] at present
    cases present
  next => exact Or.inl ⟨_, ran⟩

end Reachable

/-- Over pages that can be looked up the loop of the mapper does not fault. -/
theorem virtMapPages_total {perms : Nat} (count : Nat) :
    ∀ {physAddr : Nat} {s : KernelState} {space : AddressSpace},
      s.kernelEndAddr < 2 ^ 64 →
      SlottedTree s.physical s.root fractalMapPml4Idx tables space →
      Reachable tables s count →
      4096 ∣ physAddr → physAddr + 4096 * count ≤ 2 ^ 52 →
      ∃ mapped s', virtMapPages perms count physAddr s = some (mapped, s') := by
  induction count with
  | zero => exact fun {physAddr s space} _ _ _ _ _ => ⟨true, s, rfl⟩
  | succ count inductionHypothesis =>
      intro physAddr s space word slotted reachable aligned low
      rcases reachable.virtMapPage word slotted physAddr perms with
        ⟨next, mapped⟩ | ⟨refused, _⟩
      · have outside := reachable.outside 0 (Nat.succ_pos count)
        rw [runAddr_zero word] at outside
        obtain ⟨location, rfl, _, _, slotted'⟩ :=
          virtMapPage_space slotted outside aligned (by omega) mapped
        have frame : (physAddr + pageSize) % 2 ^ 64 = physAddr + 4096 := by
          rw [pageSize]
          omega
        have others : Reachable tables
            (mapAt location (pageTableEntry physAddr perms) s) count := by
          refine Reachable.behind (n := 1) (Nat.add_comm 1 count ▸ reachable) ?_
          rw [mapAt_kernelEndAddr, pageSize]
        obtain ⟨all, s', rest⟩ := inductionHypothesis (Nat.mod_lt _ (by decide)) slotted'
          others (Nat.dvd_add aligned (Nat.dvd_refl _)) (by omega)
        refine ⟨all, s', ?_⟩
        rw [virtMapPages, mapped]
        simp only [Option.bind_some, if_true, frame, rest]
      · exact ⟨false, s, by rw [virtMapPages, refused]; rfl⟩

/-- The mapper is stuck only at a page that is mapped. -/
theorem Stuck.mapped {s : KernelState} {space : AddressSpace} {count : Nat}
    (stuck : Stuck s) (reachable : Reachable tables s (count + 1))
    (word : s.kernelEndAddr < 2 ^ 64)
    (slotted : SlottedTree s.physical s.root fractalMapPml4Idx tables space) :
    space (pageNumber s.kernelEndAddr) ≠ none := by
  rcases reachable.virtMapPage word slotted 0 0 with ⟨_, ran⟩ | ⟨_, mapped⟩
  · rw [stuck] at ran
    cases ran
  · exact mapped

/-- One call: it returns the end of the kernel exactly if all of its pages can be
had, and maps as many as can be. -/
theorem virtMapPagesKernelEnd_served {call : KernelCall} {s : KernelState}
    {space : AddressSpace} (wellFormed : call.WellFormed) (word : s.kernelEndAddr < 2 ^ 64)
    (slotted : SlottedTree s.physical s.root fractalMapPml4Idx tables space)
    (reachable : Reachable tables s call.pageCount) :
    ∃ served next space', LogServed tables call.mappings served s next space space' ∧
      virtMapPagesKernelEnd call.physicalPageAddr call.pageCount call.mappingPerms s =
        some (if served = call.pageCount then s.kernelEndAddr else 0, next) := by
  obtain ⟨mapped, next, ran⟩ : ∃ mapped next, virtMapPages call.mappingPerms
      call.pageCount call.physicalPageAddr s = some (mapped, next) :=
    virtMapPages_total call.pageCount word slotted reachable wellFormed.aligned
      wellFormed.low
  obtain ⟨served, space', fewer, outcome, run, kernelEnd, slotted', root, kept⟩ :=
    virtMapPages_space _ _ word slotted reachable.outside wellFormed.aligned
      wellFormed.low ran
  have blocked : served < call.pageCount →
      Stuck next ∧ space (pageNumber (s.kernelEndAddr + 4096 * served)) ≠ none := by
    intro short
    rcases outcome with ⟨_, all⟩ | ⟨_, _, stuck⟩
    · exact absurd all (Nat.ne_of_lt short)
    · refine ⟨stuck, ?_⟩
      obtain ⟨count, split⟩ : ∃ count, call.pageCount = served + (count + 1) :=
        ⟨call.pageCount - served - 1, by omega⟩
      have behind : Reachable tables next (count + 1) :=
        Reachable.behind (split ▸ reachable) kernelEnd
      have mapped := stuck.mapped behind (kernelEnd ▸ Nat.mod_lt _ (by decide))
        (root.symm ▸ slotted')
      have page : pageNumber next.kernelEndAddr =
          pageNumber (s.kernelEndAddr + 4096 * served) := by
        rw [kernelEnd, pageNumber, pageNumber]
        omega
      rw [page, run.kept _ fun i below => reachable.apart below short] at mapped
      exact mapped
  refine ⟨served, next, space', ⟨?_, run.logMapped fewer, ?_, kernelEnd, slotted', root,
    kept⟩, ?_⟩
  · rw [call.length_mappings]
    exact fewer
  · rw [call.length_mappings]
    exact blocked
  · rw [virtMapPagesKernelEnd, ran, Option.map_some]
    rcases outcome with ⟨rfl, all⟩ | ⟨rfl, short, _⟩
    · rw [if_pos all]
      rfl
    · rw [if_neg (Nat.ne_of_lt short)]
      rfl

/-- A log behind another one. -/
theorem LogServed.append {log more : List PageMapping} {n : Nat}
    {s next s' : KernelState} {space space₁ space' : AddressSpace}
    (reachable : Reachable tables s (log.length + more.length))
    (first : LogServed tables log log.length s next space space₁)
    (rest : LogServed tables more n next s' space₁ space') :
    LogServed tables (log ++ more) (log.length + n) s s' space space' := by
  have length : (more.take n).length = n := by
    rw [List.length_take, Nat.min_eq_left rest.fewer]
  have page : ∀ i, pageNumber (next.kernelEndAddr + 4096 * i) =
      pageNumber (s.kernelEndAddr + 4096 * (log.length + i)) := by
    intro i
    rw [first.kernelEnd, pageNumber, pageNumber]
    omega
  have firstLog := first.mapped
  rw [List.take_length] at firstLog
  have restLog := rest.mapped
  rw [first.kernelEnd] at restLog
  have whole : (log ++ more).take (log.length + n) = log ++ more.take n := by
    rw [List.take_append, List.take_of_length_le (Nat.le_add_right _ _),
      Nat.add_sub_cancel_left]
  refine ⟨?_, ?_, ?_, ?_, first.root ▸ rest.tree, rest.root.trans first.root, ?_⟩
  · rw [List.length_append]
    exact Nat.add_le_add_left rest.fewer _
  · rw [whole]
    refine firstLog.append restLog.wrapped fun i below j inRest =>
      reachable.apart (by omega) ?_
    have fewer := rest.fewer
    omega
  · intro short
    rw [List.length_append] at short
    obtain ⟨stuck, mapped⟩ := rest.blocked (Nat.lt_of_add_lt_add_left short)
    refine ⟨stuck, ?_⟩
    rwa [page, firstLog.kept _ fun i below => reachable.apart (by omega) short] at mapped
  · rw [rest.kernelEnd, first.kernelEnd]
    omega
  · intro x outside
    rw [rest.untouched x outside, first.untouched x outside]

/-- A log that ends early is not continued. -/
theorem LogServed.ends {log : List PageMapping} {n : Nat} {s s' : KernelState}
    {space space' : AddressSpace} (served : LogServed tables log n s s' space space')
    (short : n < log.length) (more : List PageMapping) :
    LogServed tables (log ++ more) n s s' space space' := by
  have fewer : n ≤ log.length := Nat.le_of_lt short
  refine ⟨?_, ?_, fun _ => served.blocked short, served.kernelEnd, served.tree,
    served.root, served.untouched⟩
  · rw [List.length_append]
    exact Nat.le_add_right_of_le fewer
  · rw [List.take_append_of_le_length fewer]
    exact served.mapped

/-- Calls over pages that can be looked up do not fault, and what they map is a
front part of what they ask for. -/
theorem kernelCalls_served (calls : List KernelCall) :
    ∀ {s : KernelState} {space : AddressSpace}, s.kernelEndAddr < 2 ^ 64 →
      SlottedTree s.physical s.root fractalMapPml4Idx tables space →
      Reachable tables s (requestedLog calls).length →
      (∀ call ∈ calls, call.WellFormed) →
      ∃ served s' space', LogServed tables (requestedLog calls) served s s' space space' ∧
        kernelCalls calls s =
          some (callPointers s.kernelEndAddr served 0 calls, s') := by
  induction calls with
  | nil =>
      intro s space word slotted _ _
      refine ⟨0, s, space, ⟨Nat.le_refl 0, LogMapped.nil _ _, fun below =>
        absurd below (Nat.lt_irrefl 0), (Nat.mod_eq_of_lt word).symm, slotted, rfl,
        fun _ _ => rfl⟩, rfl⟩
  | cons call rest inductionHypothesis =>
      intro s space word slotted reachable wellFormed
      rw [requestedLog_cons, List.length_append, call.length_mappings] at reachable
      obtain ⟨served, next, space₁, one, ran⟩ := virtMapPagesKernelEnd_served
        (wellFormed call List.mem_cons_self) word slotted
        fun i below => reachable i (by omega)
      rw [kernelCalls_cons ran]
      by_cases all : served = call.pageCount
      · obtain ⟨n, s', space', others, pointers⟩ := inductionHypothesis
          (one.kernelEnd ▸ Nat.mod_lt _ (by decide)) (one.root.symm ▸ one.tree)
          (Reachable.behind (all ▸ reachable) one.kernelEnd)
          fun call inside => wellFormed call (List.mem_cons_of_mem _ inside)
        have length : call.mappings.length = served := by
          rw [call.length_mappings, all]
        refine ⟨served + n, s', space', ?_, ?_⟩
        · rw [requestedLog_cons, ← length]
          rw [← length] at one
          exact LogServed.append (by rwa [call.length_mappings]) one others
        · rw [pointers, Option.map_some, one.kernelEnd, callPointers_shift, callPointers,
            if_pos all, if_pos (Or.inr (by omega)), Nat.add_zero, Nat.zero_add,
            Nat.zero_min, Nat.mul_zero, Nat.add_zero, Nat.mod_eq_of_lt word, all]
      · have short : served < call.pageCount := by
          have fewer := one.fewer
          rw [call.length_mappings] at fewer
          omega
        refine ⟨served, next, space₁, one.ends (by rwa [call.length_mappings]) _, ?_⟩
        have stuck := (one.blocked (by rwa [call.length_mappings])).1
        rw [stuck.calls rest, Option.map_some, callPointers, if_neg all, if_neg (by omega),
          callPointers_behind _ _ _ _ (by omega), one.kernelEnd]

end History

/-! ## In the running kernel -/

/-- A history of calls, as the page tables show it: the first `served` pages of the
log are mapped behind the end of the kernel, where nothing was mapped before, all
else is as it was, and the log ends early only at a page that was taken. -/
structure CallsLogged (calls : List KernelCall) (served : Nat) (s s' : KernelState) :
    Prop where
  fewer : served ≤ (requestedLog calls).length
  free : ∀ i < served,
    translatePage s.physical s.root (s.kernelEndAddr + 4096 * i) = none
  mapped : ∀ i < served, translatePage s'.physical s.root (s.kernelEndAddr + 4096 * i) =
    (requestedLog calls)[i]?
  kept : ∀ v, OutsideWindow v →
    (∀ i < served, pageNumber v ≠ pageNumber (s.kernelEndAddr + 4096 * i)) →
    translatePage s'.physical s.root v = translatePage s.physical s.root v
  blocked : served < (requestedLog calls).length →
    translatePage s.physical s.root (s.kernelEndAddr + 4096 * served) ≠ none
  kernelEnd : s'.kernelEndAddr = (s.kernelEndAddr + 4096 * served) % 2 ^ 64
  root : s'.root = s.root

/-- The next `count` pages behind the end of the kernel have page tables, and are not
those of the fractal mapping. -/
def PagesTabled (s : KernelState) (count : Nat) : Prop :=
  ∀ i < count, OutsideWindow (runAddr s i) ∧
    (reach s.physical s.root (pageTablePath (runAddr s i))).isSome

theorem outsideWindow_runAddr (s : KernelState) (i : Nat) :
    OutsideWindow (runAddr s i) ↔ OutsideWindow (s.kernelEndAddr + 4096 * i) := by
  rw [← outsideSlot_iff, ← outsideSlot_iff, pageNumber_runAddr]

theorem PagesTabled.reachable {s : KernelState} {tables : Tables} {space : AddressSpace}
    {count : Nat} (tabled : PagesTabled s count)
    (slotted : SlottedTree s.physical s.root fractalMapPml4Idx tables space) :
    Reachable tables s count := by
  intro i below
  obtain ⟨outside, hasTable⟩ := tabled i below
  rw [slotted.reach_eq outside.treePath] at hasTable
  exact ⟨outside, hasTable⟩

/-- What the page tables hold is what they show. -/
theorem LogServed.callsLogged {tables : Tables} {calls : List KernelCall} {served : Nat}
    {s s' : KernelState} {space space' : AddressSpace}
    (reachable : Reachable tables s (requestedLog calls).length)
    (slotted : SlottedTree s.physical s.root fractalMapPml4Idx tables space)
    (log : LogServed tables (requestedLog calls) served s s' space space') :
    CallsLogged calls served s s' := by
  have outside : ∀ i < (requestedLog calls).length,
      OutsideSlot fractalMapPml4Idx (pageNumber (s.kernelEndAddr + 4096 * i)) := by
    intro i below
    rw [outsideSlot_iff, ← outsideWindow_runAddr]
    exact reachable.outside i below
  have length : ((requestedLog calls).take served).length = served := by
    rw [List.length_take, Nat.min_eq_left log.fewer]
  have inLog : ∀ i < served, i < (requestedLog calls).length :=
    fun i below => Nat.lt_of_lt_of_le below log.fewer
  refine ⟨log.fewer, ?_, ?_, ?_, ?_, log.kernelEnd, log.root⟩
  · intro i below
    rw [slotted.translatePage_eq (outside i (inLog i below))]
    exact log.mapped.unmapped i (length.symm ▸ below)
  · intro i below
    rw [log.tree.translatePage_eq (outside i (inLog i below)),
      log.mapped.added i (length.symm ▸ below), List.getElem_take,
      List.getElem?_eq_getElem (inLog i below)]
  · intro v outsideWindow elsewhere
    have outsideSlot := (outsideSlot_iff v).mpr outsideWindow
    rw [log.tree.translatePage_eq outsideSlot, slotted.translatePage_eq outsideSlot]
    exact log.mapped.kept _ fun i below => elsewhere i (length ▸ below)
  · intro short
    rw [slotted.translatePage_eq (outside served short)]
    exact (log.blocked short).2

/-- No mapping is lost. -/
theorem CallsLogged.keeps {calls : List KernelCall} {served : Nat} {s s' : KernelState}
    (logged : CallsLogged calls served s s') {v : Nat} {mapping : PageMapping}
    (outside : OutsideWindow v)
    (translated : translatePage s.physical s.root v = some mapping) :
    translatePage s'.physical s.root v = some mapping := by
  rw [logged.kept v outside, translated]
  intro i below same
  have free := logged.free i below
  rw [translatePage_congr s.physical s.root same.symm, translated] at free
  cases free

section Machine

variable {info : MultibootInfo} {file : Nat → UInt8} {s done : KickstartState}
  {bootinfo entered : SampoBootinfo} {loaded first reserved : RegionTable}
  {kickstartStart kickstartEnd kernelName addr kernelElfLocation kernelElfEnd fuel
    magic kernEnd : Nat} {serialInit hasLongmode : Bool} {k after : KernelState}

/-- Whatever the initialised kernel then maps at its end, in as many calls as it likes:
the pointers are those of a log, the pages are mapped as the log says, and the kernel's
image stays in place. -/
theorem kickstartMain_kernelCalls
    (machine : BootMachine info file s kickstartStart kickstartEnd kernelName addr
      kernelElfLocation kernelElfEnd loaded first reserved)
    (enough : info.encode.length ≤ fuel)
    (ran : kickstartMain kickstartStart kickstartEnd kernelName fuel serialInit
      hasLongmode bootinfo addr magic s = some (some entered, done))
    (succeeded : ∀ outcome ∈ done.allocations, Succeeded outcome)
    (lowRoot : entered.bootstrapPagingStructurePtr < 0x200000)
    (memory : k.physical = done.memory)
    (root : k.root = entered.bootstrapPagingStructurePtr)
    (ready : ManagerReady kernEnd entered k)
    (init : Paged.initMemoryManager kernEnd entered k = some after)
    {calls : List KernelCall} (wellFormed : ∀ call ∈ calls, call.WellFormed)
    (tabled : PagesTabled after (requestedLog calls).length) :
    ∃ served last, kernelCalls calls after =
        some (callPointers after.kernelEndAddr served 0 calls, last) ∧
      CallsLogged calls served after last ∧
      (∀ x, x ∉ grantedTo done.allocations .allocated →
        last.physical x = after.physical x) ∧
      ∀ ph ∈ loadedHeaders file,
        (∀ page, InSegment ph page → OutsideSlot fractalMapPml4Idx page) →
        HoldsSegment file last.physical entered.bootstrapPagingStructurePtr ph := by
  obtain ⟨_, _, _, fresh, inputs, boots⟩ := kickstartMain_enters machine enough ran
  have account := kickstartBoot_account inputs machine.map fresh boots succeeded
  obtain ⟨handed, tables, space, after', space₁, tree, isRoot, owned, before, init',
    installed⟩ := kickstartMain_installs machine enough ran succeeded lowRoot
      (fun _ _ => by rw [memory]) root ready
  obtain rfl : after' = after := Option.some.inj (init'.symm.trans init)
  have slotted : SlottedTree after'.physical after'.root fractalMapPml4Idx tables
      space₁ := installed.root.symm ▸ installed.tree
  have reachable := tabled.reachable slotted
  obtain ⟨served, last, space₂, log, pointers⟩ := kernelCalls_served calls
    (installed.kernelEnd ▸ Nat.mod_lt _ (by decide)) slotted reachable wellFormed
  have logged := log.callsLogged reachable slotted
  have untouched : ∀ x, x ∉ grantedTo done.allocations .allocated →
      last.physical x = after'.physical x := fun x notTable =>
    log.untouched x fun inTables => notTable (owned inTables)
  refine ⟨served, last, pointers, logged, untouched, fun ph isLoaded => ?_⟩
  refine kickstartMain_segments_kept machine enough ran succeeded ?_ ?_ isLoaded
  · intro v mapping outsideWindow translated
    rw [← root, ← installed.root]
    refine logged.keeps outsideWindow ?_
    rw [slotted.translatePage_eq ((outsideSlot_iff v).mpr outsideWindow)]
    exact installed.run.keeps ((before v).symm.trans translated)
  · intro x isKernel
    have notTable : x ∉ grantedTo done.allocations .allocated :=
      Set.disjoint_left.mp (account.granted_disjoint
        (show MemoryRegionType.kernel ≠ .allocated by decide)) isKernel
    rw [untouched x notTable, installed.untouched x (fun inTables =>
      notTable (owned inTables)) (fun inFrames => Set.disjoint_left.mp
        (account.granted_unavailable .kernel) isKernel
          (handed.managerFrames_available inFrames)), memory]

end Machine

/-- The small kernel maps one page more. -/
theorem kickstartMain_kernelCalls_halfMebibyte : ∃ done after served last,
    kickstartMain 0x100000 0x108000 0x9060 96 true true ⟨[], 0⟩ 0x9000
        multiboot2BootloaderMagic halfMebibyteMachine =
          some (some halfMebibyteBootinfo, done) ∧
      Paged.initMemoryManager 0x200002 halfMebibyteBootinfo
        { handedKernel with physical := done.memory } = some after ∧
      kernelCalls [⟨0x120000, 1, virtMapWrite⟩] after = some (callPointers
        after.kernelEndAddr served 0 [⟨0x120000, 1, virtMapWrite⟩], last) ∧
      CallsLogged [⟨0x120000, 1, virtMapWrite⟩] served after last := by
  obtain ⟨done, tables, space, ran, succeeded, tree, isRoot, _, itself, free⟩ :=
    halfMebibyteMachine_tree
  have ready : ManagerReady 0x200002 halfMebibyteBootinfo
      { handedKernel with physical := done.memory } :=
    halfMebibyte_ready tree isRoot rfl rfl itself free
  obtain ⟨_, tables', space', after, space₁, tree', isRoot', _, _, init, installed⟩ :=
    kickstartMain_installs (k := { handedKernel with physical := done.memory })
      halfMebibyteMachine_boots (by decide +kernel) ran succeeded (by decide)
      (fun _ _ => rfl) rfl ready
  have pages : mappedPages halfMebibyteBootinfo.memoryRegions = 2 := by decide
  have tabled : PagesTabled after 1 := by
    intro i below
    obtain rfl : i = 0 := by omega
    have address : runAddr after 0 = 0x203000 := by
      rw [runAddr, installed.kernelEnd, pages]
      decide
    have outside : OutsideWindow (runAddr after 0) := by
      rw [address]
      decide
    refine ⟨outside, ?_⟩
    have path : pageTablePath (runAddr after 0) = [0, 0, 1] := by
      rw [address]
      decide
    have same : tables' [0, 0, 1] = tables [0, 0, 1] :=
      (tree'.reach_eq [0, 0, 1] isRoot' (by decide) (by decide)).symm.trans
        (tree.reach_eq [0, 0, 1] isRoot (by decide) (by decide))
    rw [installed.root, installed.tree.reach_eq outside.treePath, path, same]
    exact (free 0 (by decide)).1
  obtain ⟨served, last, called, logged, _⟩ := kickstartMain_kernelCalls
    halfMebibyteMachine_boots (by decide +kernel) ran succeeded (by decide) rfl rfl
    ready init
    (show ∀ call ∈ [(⟨0x120000, 1, virtMapWrite⟩ : KernelCall)], call.WellFormed by
      rintro call inside
      obtain rfl := List.mem_singleton.mp inside
      exact ⟨by decide, by decide⟩) tabled
  exact ⟨done, after, served, last, ran, init, called, logged⟩

end SampoOS
