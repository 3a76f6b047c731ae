/-
Module: SampoOS.Kernel.PageHistory
Purpose: The bitmaps of the physmap as a set of busy pages, over any history of
  pmm_mark_page_busy and pmm_free_page.
Trusted boundary: none
Main exports: PageEdit, runEdits, busyBytes, editedBytes, BitmapsEdited,
  runEdits_lastCall
-/
import SampoOS.Kernel.PageEdits
import SampoOS.Lib.SetHistory

namespace SampoOS.Kernel

open ByteMemory
open Bitmap (BitAddress bitAt mark unmark bitAt_mark bitAt_unmark)
open SetHistory (applyEdit applyEdits LastInserts mem_applyEdits)

/-! ## Histories -/

/-- A call of `pmm_mark_page_busy` or `pmm_free_page`. -/
inductive PageEdit where
  | busy (page : Nat)
  | free (page : Nat)
deriving Repr, DecidableEq

namespace PageEdit

def page : PageEdit → Nat
  | busy page => page
  | free page => page

def isBusy : PageEdit → Bool
  | busy _ => true
  | free _ => false

def run : PageEdit → KernelState → KernelState
  | busy page => pmmMarkPageBusy page
  | free page => pmmFreePage page

end PageEdit

/-- A history of calls. -/
def runEdits (edits : List PageEdit) (s : KernelState) : KernelState :=
  edits.foldl (fun s edit => edit.run s) s

/-! ## The set of busy pages -/

/-- The bytes of the pages that the bitmaps say are busy. -/
def busyBytes (s : KernelState) : Set Nat :=
  {addr | ∃ region ∈ physmapOf s, region.type = .available ∧ addr ∈ region.bytes ∧
    bitAt s.virtual (pagePosition region addr) = true}

/-- The bytes of the page that an address lies in, if it lies in available memory. -/
def pageOf (s : KernelState) (page : Nat) : Set Nat :=
  {addr | ∃ region ∈ physmapOf s, region.type = .available ∧ page ∈ region.bytes ∧
    addr ∈ region.bytes ∧
    (addr - region.addr) / pageSize = (page - region.addr) / pageSize}

/-- The bytes of the page that a call is about. -/
def editedBytes (s : KernelState) (edit : PageEdit) : Set Nat := pageOf s edit.page

/-- The bytes of all bitmaps. -/
def bitmapBytes (s : KernelState) : Set Nat :=
  {x | ∃ region ∈ physmapOf s, region.type = .available ∧ x ∈ slice region}

/-- Nothing but the bitmaps has changed, and they say that these bytes are busy. -/
structure BitmapsEdited (s after : KernelState) (busyAfter : Set Nat) : Prop where
  entries : SamePhysmap s after
  physical : after.physical = s.physical
  root : after.root = s.root
  kernelEndAddr : after.kernelEndAddr = s.kernelEndAddr
  outside : ∀ x, x ∉ bitmapBytes s → after.virtual x = s.virtual x
  busy : busyBytes after = busyAfter

section Populated

variable {s : KernelState} {page addr : Nat}

theorem len_lt_of_mem_physmapOf {region : PhysmemRegion}
    (inside : region ∈ physmapOf s) : region.len < 2 ^ 64 := by
  rw [physmapOf, List.mem_map] at inside
  obtain ⟨i, _, rfl⟩ := inside
  exact loadLe_lt _ _ 8

/-- Two addresses of available memory have the same bit if and only if they lie in the
same page. -/
theorem PopulatedPhysmap.pagePosition_eq_iff (populated : PopulatedPhysmap s)
    {a b : PhysmemRegion} (insideA : a ∈ physmapOf s) (insideB : b ∈ physmapOf s)
    (availableA : a.type = .available) (availableB : b.type = .available)
    (memberA : addr ∈ a.bytes) (memberB : page ∈ b.bytes) :
    pagePosition a addr = pagePosition b page ↔
      a = b ∧ (addr - a.addr) / pageSize = (page - b.addr) / pageSize := by
  constructor
  · intro same
    have sliceA := pagePosition_mem_slice populated insideA availableA memberA
    have sliceB := pagePosition_mem_slice populated insideB availableB memberB
    have one : a = b := by
      by_contra different
      have related : (physmapOf s).Pairwise fun a b => a ≠ b → a.type = .available →
          b.type = .available → Disjoint (slice a) (slice b) := by
        apply populated.apart.imp
        exact fun apart _ => apart
      have flipped : (physmapOf s).Pairwise fun a b => b ≠ a → b.type = .available →
          a.type = .available → Disjoint (slice b) (slice a) := by
        apply populated.apart.imp
        exact fun apart _ second first => (apart first second).symm
      have apart := List.Pairwise.forall_of_forall_of_flip
        (fun _ _ different => absurd rfl different) related flipped insideA insideB
        different availableA availableB
      rw [same] at sliceA
      exact Set.disjoint_left.mp apart sliceA sliceB
    subst one
    have length := len_lt_of_mem_physmapOf insideA
    rw [PhysmemRegion.mem_bytes] at memberA memberB
    refine ⟨rfl, Bitmap.bitNumber_injective ?_ ?_
      (same : Bitmap.bitNumber 64 a.allocMap _ = Bitmap.bitNumber 64 a.allocMap _)⟩ <;>
      · rw [pageSize]
        omega
  · rintro ⟨rfl, same⟩
    rw [pagePosition, pagePosition, same]

/-- A change of a byte of a bitmap leaves the entries alone. -/
theorem update_samePhysmap (populated : PopulatedPhysmap s) {region : PhysmemRegion}
    (inside : region ∈ physmapOf s) (available : region.type = .available) {x : Nat}
    (inSlice : x ∈ slice region) (byte : UInt8) :
    SamePhysmap s { s with virtual := Function.update s.virtual x byte } := by
  refine ⟨rfl, rfl, populated.array.physmapOf_congr rfl rfl ?_⟩
  rintro y ⟨i, below, low, high⟩
  refine Function.update_of_ne ?_ _ _
  rintro rfl
  exact Set.disjoint_left.mp (populated.behind region inside available) inSlice
    (populated.array.mem_cyclicRange below low high)

/-! ## One call -/

/-- Set or clear a bit. -/
def editBit (isBusy : Bool) (m : Memory) (p : BitAddress) : Memory :=
  if isBusy then mark m p else unmark m p

theorem bitAt_editBit (isBusy : Bool) (m : Memory) {p q : BitAddress} (low : p.bit < 8)
    (lowQ : q.bit < 8) :
    bitAt (editBit isBusy m p) q = if q = p then isBusy else bitAt m q := by
  cases isBusy with
  | true =>
      rw [editBit, if_pos rfl, bitAt_mark _ low]
      by_cases same : q = p <;> simp [same]
  | false =>
      rw [editBit, if_neg Bool.false_ne_true, bitAt_unmark _ low lowQ]
      by_cases same : q = p <;> simp [same]

theorem editBit_update (isBusy : Bool) (m : Memory) (p : BitAddress) :
    ∃ byte, editBit isBusy m p = Function.update m p.byte byte := by
  cases isBusy with
  | true => exact ⟨_, rfl⟩
  | false => exact ⟨_, rfl⟩

/-- Where the first entry serves, a call edits the bit of the page that it is about,
and does nothing if there is none. -/
theorem PageEdit.run_cases (populated : PopulatedPhysmap s) (edit : PageEdit)
    (serves : FirstEntryServes s edit.page) :
    (∃ region ∈ physmapOf s, region.type = .available ∧ edit.page ∈ region.bytes ∧
        edit.run s =
          { s with
            virtual := editBit edit.isBusy s.virtual (pagePosition region edit.page) }) ∨
      editedBytes s edit = ∅ ∧ edit.run s = s := by
  have served := serves.editsItsBit populated
  by_cases owned : ∃ region ∈ physmapOf s, region.type = .available ∧
      edit.page ∈ region.bytes
  · obtain ⟨region, inside, available, member⟩ := owned
    refine Or.inl ⟨region, inside, available, member, ?_⟩
    cases edit with
    | busy page => exact served.marks region inside available member
    | free page => exact served.frees region inside available member
  · have outside : ∀ region ∈ physmapOf s, region.type = .available →
        edit.page ∉ region.bytes := fun region inside available member =>
      owned ⟨region, inside, available, member⟩
    refine Or.inr ⟨?_, ?_⟩
    · rw [Set.eq_empty_iff_forall_notMem]
      rintro x ⟨region, inside, available, member, _⟩
      exact outside region inside available member
    · cases edit with
      | busy page => exact (served.elsewhere outside).1
      | free page => exact (served.elsewhere outside).2

theorem PageEdit.edited (populated : PopulatedPhysmap s) (edit : PageEdit)
    (serves : FirstEntryServes s edit.page) :
    BitmapsEdited s (edit.run s)
      (applyEdit (editedBytes s) PageEdit.isBusy (busyBytes s) edit) := by
  rcases edit.run_cases populated serves with
    ⟨region, inside, available, member, ran⟩ | ⟨none, ran⟩
  · have inSlice := pagePosition_mem_slice populated inside available member
    obtain ⟨byte, updated⟩ :=
      editBit_update edit.isBusy s.virtual (pagePosition region edit.page)
    have same : SamePhysmap s (edit.run s) := by
      rw [ran, updated]
      exact update_samePhysmap populated inside available inSlice byte
    refine ⟨same, by rw [ran], by rw [ran], by rw [ran], ?_, ?_⟩
    · intro x outside
      rw [ran, updated]
      refine Function.update_of_ne ?_ _ _
      rintro rfl
      exact outside ⟨region, inside, available, inSlice⟩
    · ext addr
      have bits : addr ∈ busyBytes (edit.run s) ↔ ∃ other ∈ physmapOf s,
          other.type = .available ∧ addr ∈ other.bytes ∧
          (if pagePosition other addr = pagePosition region edit.page then edit.isBusy
            else bitAt s.virtual (pagePosition other addr)) = true := by
        rw [busyBytes, Set.mem_ofPred_eq, same.entries, ran]
        simp only [bitAt_editBit _ _ (pagePosition_bit _ _) (pagePosition_bit _ _)]
      rw [bits]
      by_cases inPage : addr ∈ editedBytes s edit
      · rw [SetHistory.mem_applyEdit_of_mem inPage]
        obtain ⟨own, isOwn, ownAvailable, pageInOwn, addrInOwn, samePage⟩ := inPage
        obtain rfl := populated.unique isOwn inside ownAvailable available pageInOwn
          member
        have position : pagePosition own addr = pagePosition own edit.page :=
          (populated.pagePosition_eq_iff isOwn isOwn ownAvailable ownAvailable addrInOwn
            member).mpr ⟨rfl, samePage⟩
        constructor
        · rintro ⟨other, isOther, otherAvailable, addrInOther, isSet⟩
          obtain rfl := populated.unique isOther isOwn otherAvailable ownAvailable
            addrInOther addrInOwn
          rwa [if_pos position] at isSet
        · exact fun isBusy => ⟨own, isOwn, ownAvailable, addrInOwn, by
            rwa [if_pos position]⟩
      · rw [SetHistory.mem_applyEdit_of_notMem inPage]
        have elsewhere : ∀ other ∈ physmapOf s, other.type = .available →
            addr ∈ other.bytes →
            pagePosition other addr ≠ pagePosition region edit.page := by
          intro other isOther otherAvailable addrInOther position
          obtain ⟨rfl, samePage⟩ := (populated.pagePosition_eq_iff isOther inside
            otherAvailable available addrInOther member).mp position
          exact inPage ⟨other, isOther, available, member, addrInOther, samePage⟩
        constructor
        · rintro ⟨other, isOther, otherAvailable, addrInOther, isSet⟩
          rw [if_neg (elsewhere other isOther otherAvailable addrInOther)] at isSet
          exact ⟨other, isOther, otherAvailable, addrInOther, isSet⟩
        · rintro ⟨other, isOther, otherAvailable, addrInOther, isSet⟩
          refine ⟨other, isOther, otherAvailable, addrInOther, ?_⟩
          rwa [if_neg (elsewhere other isOther otherAvailable addrInOther)]
  · rw [ran]
    refine ⟨.refl s, rfl, rfl, rfl, fun _ _ => rfl, ?_⟩
    rw [applyEdit, none, Set.union_empty, Set.sdiff_empty, ite_self]

/-! ## All calls -/

theorem SamePhysmap.editedBytes_eq {s' : KernelState} (same : SamePhysmap s s') :
    editedBytes s' = editedBytes s := by
  funext edit
  rw [editedBytes, editedBytes, pageOf, pageOf, same.entries]

theorem SamePhysmap.bitmapBytes_eq {s' : KernelState} (same : SamePhysmap s s') :
    bitmapBytes s' = bitmapBytes s := by
  rw [bitmapBytes, bitmapBytes, same.entries]

theorem BitmapsEdited.trans {middle after : KernelState} {busyMiddle busyAfter : Set Nat}
    (first : BitmapsEdited s middle busyMiddle)
    (second : BitmapsEdited middle after busyAfter) : BitmapsEdited s after busyAfter where
  entries := first.entries.trans second.entries
  physical := second.physical.trans first.physical
  root := second.root.trans first.root
  kernelEndAddr := second.kernelEndAddr.trans first.kernelEndAddr
  outside := fun x apart =>
    (second.outside x (by rwa [first.entries.bitmapBytes_eq])).trans
      (first.outside x apart)
  busy := second.busy

end Populated

/-- A history edits the set of busy bytes call by call. -/
theorem runEdits_edited (edits : List PageEdit) :
    ∀ {s : KernelState}, PopulatedPhysmap s →
      (∀ edit ∈ edits, FirstEntryServes s edit.page) →
      BitmapsEdited s (runEdits edits s)
        (applyEdits (editedBytes s) PageEdit.isBusy edits (busyBytes s)) := by
  induction edits with
  | nil =>
      intro s _ _
      exact ⟨.refl s, rfl, rfl, rfl, fun _ _ => rfl, rfl⟩
  | cons edit edits inductionHypothesis =>
      intro s populated serves
      rw [List.forall_mem_cons] at serves
      have first := edit.edited populated serves.1
      have others := inductionHypothesis (populated.congr first.entries)
        fun other inside => (serves.2 other inside).congr first.entries
      rw [first.entries.editedBytes_eq, first.busy] at others
      exact first.trans others

/-- After any history whose pages the first entry serves, nothing but the bitmaps has
changed; and a byte is busy if the last call about its page marked it, or if it was busy
before and there was no call about its page. -/
theorem runEdits_lastCall {edits : List PageEdit} {s : KernelState}
    (populated : PopulatedPhysmap s)
    (serves : ∀ edit ∈ edits, FirstEntryServes s edit.page) :
    BitmapsEdited s (runEdits edits s)
      {addr | LastInserts (editedBytes s) PageEdit.isBusy edits addr ∨
        addr ∈ busyBytes s ∧ ∀ edit ∈ edits, addr ∉ editedBytes s edit} := by
  have edited := runEdits_edited edits populated serves
  refine { edited with busy := edited.busy.trans ?_ }
  ext addr
  exact mem_applyEdits edits

/-- A page of the small kernel's first entry, marked, freed and marked again. -/
theorem runEdits_lastCall_smallKernel : ∃ s,
    BitmapsEdited s
      (runEdits [.busy 0x2000, .free 0x2000, .busy 0x3000, .busy 0x2000] s)
      {addr | LastInserts (editedBytes s) PageEdit.isBusy
          [.busy 0x2000, .free 0x2000, .busy 0x3000, .busy 0x2000] addr ∨
        addr ∈ busyBytes s ∧ ∀ edit ∈ [.busy 0x2000, .free 0x2000, .busy 0x3000,
          .busy 0x2000], addr ∉ editedBytes s edit} := by
  obtain ⟨s, a, b, c, populated, entries⟩ := smallKernel_populated
  refine ⟨s, runEdits_lastCall populated ?_⟩
  intro edit inside
  rw [FirstEntryServes, entries]
  intro first isFirst _
  obtain rfl := Option.some.inj isFirst
  refine Or.inl ⟨rfl, _, List.mem_cons_self, rfl, PhysmemRegion.mem_bytes.mpr ?_, rfl⟩
  simp only [List.mem_cons, List.not_mem_nil, or_false] at inside
  rcases inside with rfl | rfl | rfl | rfl <;>
    simp only [PageEdit.page] <;> omega

end SampoOS.Kernel
