/-
Module: SampoOS.Lib.RecordArray
Purpose: Arrays of records in memory: what writing a record, adding one and
  exchanging two through a buffer makes of the list that the array holds, and the
  bubble sort that exchanges records where they lie.
Trusted boundary: none
Main exports: Layout, Place, Place.Holds, Place.Holds.set, Place.Holds.push,
  Place.exchange, Place.Holds.exchange, Place.sort, Place.Holds.sort
-/
import SampoOS.Lib.BubbleSort
import SampoOS.Lib.ByteMemory

namespace RecordArray

open ByteMemory (Memory copy copy_apply)

/-! ## Layouts and places -/

/-- Records of one size.  A record is determined by the bytes that it takes, wherever
they lie. -/
structure Layout (α : Type) where
  size : Nat
  load : Memory → Nat → α
  load_congr : ∀ {m m' : Memory} {a b : Nat},
    (∀ i < size, m (a + i) = m' (b + i)) → load m a = load m' b

/-- Where an array of at most `capacity` records lies, and a buffer for one record
that is no part of it; addresses have `w` bits. -/
structure Place {α : Type} (layout : Layout α) (w : Nat) where
  base : Nat
  capacity : Nat
  buffer : Nat
  fits : base + layout.size * capacity ≤ 2 ^ w
  bufferFits : buffer + layout.size ≤ 2 ^ w
  apart : buffer + layout.size ≤ base ∨ base + layout.size * capacity ≤ buffer

variable {α : Type} {layout : Layout α} {w : Nat}

namespace Place

variable (place : Place layout w)

/-- The address of a record. -/
def addr (i : Nat) : Nat := place.base + layout.size * i

/-- The record with an index. -/
def get (m : Memory) (i : Nat) : α := layout.load m (place.addr i)

/-- The bytes of the array and of the buffer. -/
def bytes : Set Nat :=
  Set.Ico place.base (place.base + layout.size * place.capacity) ∪
    Set.Ico place.buffer (place.buffer + layout.size)

/-- The array holds a list, and outside of the place memory is as it was. -/
structure Holds (original m : Memory) (l : List α) : Prop where
  short : l.length ≤ place.capacity
  records : ∀ (i : Nat) (below : i < l.length), place.get m i = l[i]
  kept : ∀ x, x ∉ place.bytes → m x = original x

variable {place}

/-- One record ends where the next one starts. -/
theorem addr_succ (i : Nat) : place.addr (i + 1) = place.addr i + layout.size := by
  rw [addr, addr, Nat.mul_succ, Nat.add_assoc]

theorem base_le_addr (i : Nat) : place.base ≤ place.addr i := Nat.le_add_right _ _

theorem addr_mono {i j : Nat} (order : i ≤ j) : place.addr i ≤ place.addr j :=
  Nat.add_le_add_left (Nat.mul_le_mul_left _ order) _

/-- The records in front of another one end in front of it. -/
theorem addr_add_size_le {i j : Nat} (order : i < j) :
    place.addr i + layout.size ≤ place.addr j :=
  addr_succ i ▸ addr_mono order

theorem addr_add_size_le_end {i : Nat} (below : i < place.capacity) :
    place.addr i + layout.size ≤ place.base + layout.size * place.capacity :=
  addr_add_size_le below

/-- A record with an index below the capacity lies in the place. -/
theorem record_subset {i x : Nat} (below : i < place.capacity) (start : place.addr i ≤ x)
    (stop : x < place.addr i + layout.size) : x ∈ place.bytes :=
  Or.inl ⟨Nat.le_trans (base_le_addr i) start,
    Nat.lt_of_lt_of_le stop (addr_add_size_le_end below)⟩

/-- Records depend on their own bytes only. -/
theorem get_congr {m m' : Memory} {i : Nat}
    (same : ∀ x, place.addr i ≤ x → x < place.addr i + layout.size → m' x = m x) :
    place.get m' i = place.get m i :=
  layout.load_congr fun k below => same _ (by omega) (by omega)

namespace Holds

variable {original m m' : Memory} {l : List α}

theorem getElem? (holds : place.Holds original m l) {i : Nat} (below : i < l.length) :
    l[i]? = some (place.get m i) := by
  rw [List.getElem?_eq_getElem below, holds.records i below]

/-- Dropping records from the end. -/
theorem take (holds : place.Holds original m l) (n : Nat) :
    place.Holds original m (l.take n) where
  short := Nat.le_trans (List.length_take_le' n l) holds.short
  records i below := by
    rw [List.getElem_take]
    exact holds.records i _
  kept := holds.kept

/-- Only the array matters. -/
theorem congr (holds : place.Holds original m l)
    (same : ∀ x, place.base ≤ x → x < place.addr l.length → m' x = m x)
    (kept : ∀ x, x ∉ place.bytes → m' x = m x) : place.Holds original m' l where
  short := holds.short
  records i below := by
    rw [← holds.records i below]
    refine get_congr fun x start stop => same x ?_ ?_
    · exact Nat.le_trans (base_le_addr i) start
    · exact Nat.lt_of_lt_of_le stop (addr_add_size_le below)
  kept x outside := (kept x outside).trans (holds.kept x outside)

/-- Writing into one record. -/
theorem set (holds : place.Holds original m l) {i : Nat} (below : i < l.length)
    (same : ∀ x, x < place.addr i ∨ place.addr i + layout.size ≤ x → m' x = m x) :
    place.Holds original m' (l.set i (place.get m' i)) where
  short := by
    rw [List.length_set]
    exact holds.short
  records j inside := by
    rw [List.length_set] at inside
    rw [List.getElem_set]
    split
    next isRecord => rw [isRecord]
    next other =>
      rw [← holds.records j inside]
      refine get_congr fun x start stop => same x ?_
      rcases Nat.lt_or_gt_of_ne other with order | order
      · have behind : place.addr i + layout.size ≤ place.addr j := addr_add_size_le order
        omega
      · have front : place.addr j + layout.size ≤ place.addr i := addr_add_size_le order
        omega
  kept x outside := by
    rw [same x, holds.kept x outside]
    by_contra inside
    rw [not_or, Nat.not_lt, Nat.not_le] at inside
    exact outside (record_subset (Nat.lt_of_lt_of_le below holds.short)
      inside.1 inside.2)

/-- Writing a record behind the last one. -/
theorem push (holds : place.Holds original m l) (room : l.length < place.capacity)
    (same : ∀ x, x < place.addr l.length ∨ place.addr l.length + layout.size ≤ x →
      m' x = m x) :
    place.Holds original m' (l ++ [place.get m' l.length]) where
  short := by
    rw [List.length_append]
    exact room
  records i inside := by
    rw [List.getElem_append]
    split
    next below =>
      rw [← holds.records i below]
      refine get_congr fun x start stop => same x (Or.inl ?_)
      exact Nat.lt_of_lt_of_le stop (addr_add_size_le below)
    next last =>
      rw [List.length_append, List.length_singleton] at inside
      obtain rfl : i = l.length := by omega
      simp
  kept x outside := by
    rw [same x, holds.kept x outside]
    by_contra inside
    rw [not_or, Nat.not_lt, Nat.not_le] at inside
    exact outside (record_subset room inside.1 inside.2)

/-- Changing one record. -/
theorem modify (holds : place.Holds original m l) {i : Nat} (below : i < l.length)
    (f : α → α) (changed : place.get m' i = f (place.get m i))
    (same : ∀ x, x < place.addr i ∨ place.addr i + layout.size ≤ x → m' x = m x) :
    place.Holds original m' (l.modify i f) := by
  have written := holds.set below same
  rw [changed, holds.records i below] at written
  have isSet : l.modify i f = l.set i (f l[i]) := by
    apply List.ext_getElem?
    intro j
    rw [List.getElem?_modify, List.getElem?_set]
    by_cases here : i = j
    · subst here
      simp [below]
    · simp [here]
  rwa [isSet]

/-- The list is what is read from the array. -/
theorem eq_map (holds : place.Holds original m l) :
    l = (List.range l.length).map (place.get m) := by
  apply List.ext_getElem
  · rw [List.length_map, List.length_range]
  · intro i below _
    rw [List.getElem_map, List.getElem_range, holds.records i below]

/-- Counting the records that pass a test. -/
theorem countP (holds : place.Holds original m l) (test : α → Bool) :
    ((List.range l.length).countP fun i => test (place.get m i)) = l.countP test := by
  conv_rhs => rw [holds.eq_map, List.countP_map]
  rfl

/-- Searching for the first record that passes a test. -/
theorem find? (holds : place.Holds original m l) (test : α → Bool) :
    ((List.range l.length).find? fun i => test (place.get m i)) = l.findIdx? test := by
  ext i
  rw [List.find?_range_eq_some, List.findIdx?_eq_some_iff_getElem]
  constructor
  · rintro ⟨passes, inRange, before⟩
    have below := List.mem_range.mp inRange
    refine ⟨below, holds.records i below ▸ passes, fun j order => ?_⟩
    have fails := before j order
    rw [holds.records j (by omega), Bool.not_eq_true'] at fails
    rw [fails]
    exact Bool.false_ne_true
  · rintro ⟨below, passes, before⟩
    refine ⟨(holds.records i below).symm ▸ passes, List.mem_range.mpr below,
      fun j order => ?_⟩
    rw [holds.records j (by omega), Bool.not_eq_true', ← Bool.not_eq_true]
    exact before j order

end Holds

/-! ## Exchanging records -/

/-- A copy of a record is that record. -/
theorem load_copy {m : Memory} {dest src : Nat} (fits : dest + layout.size ≤ 2 ^ w)
    (srcFits : src + layout.size ≤ 2 ^ w)
    (apart : dest + layout.size ≤ src ∨ src + layout.size ≤ dest) :
    layout.load (copy w m dest src layout.size) dest = layout.load m src :=
  layout.load_congr fun i below => by
    rw [copy_apply fits srcFits apart, if_pos (by omega), Nat.add_sub_cancel_left]

theorem copy_outside {m : Memory} {dest src count x : Nat} (fits : dest + count ≤ 2 ^ w)
    (srcFits : src + count ≤ 2 ^ w) (apart : dest + count ≤ src ∨ src + count ≤ dest)
    (outside : x < dest ∨ dest + count ≤ x) : copy w m dest src count x = m x := by
  rw [copy_apply fits srcFits apart, if_neg (by omega)]

variable (place)

/-- Exchange two records through the buffer. -/
def exchange (m : Memory) (i j : Nat) : Memory :=
  let m := copy w m place.buffer (place.addr i) layout.size
  let m := copy w m (place.addr i) (place.addr j) layout.size
  copy w m (place.addr j) place.buffer layout.size

variable {place}

theorem Holds.exchange {original m : Memory} {l : List α}
    (holds : place.Holds original m l) {i j : Nat} (different : i ≠ j)
    (belowI : i < l.length) (belowJ : j < l.length) :
    place.Holds original (place.exchange m i j) ((l.set i l[j]).set j l[i]) := by
  have endI := place.addr_add_size_le_end (Nat.lt_of_lt_of_le belowI holds.short)
  have endJ := place.addr_add_size_le_end (Nat.lt_of_lt_of_le belowJ holds.short)
  have endL : place.addr l.length ≤ place.base + layout.size * place.capacity :=
    Nat.add_le_add_left (Nat.mul_le_mul_left _ holds.short) _
  have startI := place.base_le_addr i
  have startJ := place.base_le_addr j
  have fits := place.fits
  have bufferFits := place.bufferFits
  have bufferApart := place.apart
  have apart : place.addr i + layout.size ≤ place.addr j ∨
      place.addr j + layout.size ≤ place.addr i := by
    rcases Nat.lt_or_gt_of_ne different with order | order
    · exact Or.inl (addr_add_size_le order)
    · exact Or.inr (addr_add_size_le order)
  have saved : place.Holds original
      (copy w m place.buffer (place.addr i) layout.size) l := by
    refine holds.congr (fun x start stop => copy_outside bufferFits (by omega)
      (by omega) (by omega)) fun x outside => copy_outside bufferFits (by omega)
        (by omega) ?_
    by_contra inside
    rw [not_or, Nat.not_lt, Nat.not_le] at inside
    exact outside (Or.inr inside)
  have buffer : layout.load (copy w m place.buffer (place.addr i) layout.size)
      place.buffer = l[i] := by
    rw [load_copy bufferFits (by omega) (by omega)]
    exact holds.records i belowI
  rw [Place.exchange]
  generalize copy w m place.buffer (place.addr i) layout.size = m₁ at saved buffer
  have moved := saved.set belowI fun x outside =>
    copy_outside (m := m₁) (w := w) (by omega) (by omega) apart outside
  have movedRecord : place.get (copy w m₁ (place.addr i) (place.addr j) layout.size) i =
      l[j] := by
    rw [get, load_copy (by omega) (by omega) apart]
    exact saved.records j belowJ
  have stillBuffer : layout.load (copy w m₁ (place.addr i) (place.addr j) layout.size)
      place.buffer = l[i] := by
    rw [← buffer]
    exact layout.load_congr fun k below =>
      copy_outside (by omega) (by omega) apart (by omega)
  rw [movedRecord] at moved
  generalize copy w m₁ (place.addr i) (place.addr j) layout.size = m₂ at moved stillBuffer
  have belowSet : j < (l.set i l[j]).length := by
    rw [List.length_set]
    exact belowJ
  have done := moved.set belowSet fun x outside =>
    copy_outside (m := m₂) (w := w) (by omega) bufferFits (by omega) outside
  have doneRecord : place.get (copy w m₂ (place.addr j) place.buffer layout.size) j =
      l[i] := by
    rw [get, load_copy (by omega) bufferFits (by omega)]
    exact stillBuffer
  rwa [doneRecord] at done

/-! ## Sorting in place -/

variable (place)

/-- One inner step: exchange the neighbours at `j` and `j + 1` when the test, which
reads memory, holds of them. -/
def exchangeAt (test : Memory → Nat → Bool) (m : Memory) (j : Nat) : Memory :=
  if test m j then place.exchange m j (j + 1) else m

/-- The double loop over the first `n` records. -/
def sort (test : Memory → Nat → Bool) (n : Nat) (m : Memory) : Memory :=
  (List.range n).foldl (fun m i =>
    (List.range (n - i - 1)).foldl (place.exchangeAt test) m) m

variable {place}

section Sorting

variable {swap : α → α → Bool} {test : Memory → Nat → Bool} {original m : Memory}
  {l : List α}

theorem Holds.exchangeAt (holds : place.Holds original m l) {j : Nat}
    (below : j + 1 < l.length)
    (tests : test m j = swap (place.get m j) (place.get m (j + 1))) :
    place.Holds original (place.exchangeAt test m j) (BubbleSort.exchangeAt swap l j) := by
  have first : j < l.length := Nat.lt_of_succ_lt below
  rw [BubbleSort.exchangeAt, List.getElem?_eq_getElem first,
    List.getElem?_eq_getElem below, ← holds.records j first, ← holds.records _ below]
  rw [Place.exchangeAt, tests]
  dsimp only
  split
  · rw [holds.records j first, holds.records _ below]
    exact holds.exchange (Nat.ne_of_lt (Nat.lt_succ_self j)) first below
  · exact holds

/-- Sorting the records sorts the list. -/
theorem Holds.sort (holds : place.Holds original m l)
    (tests : ∀ m j, test m j = swap (place.get m j) (place.get m (j + 1))) :
    place.Holds original (place.sort test l.length m) (BubbleSort.bubbleSort swap l) := by
  have length : ∀ (l : List α) (j : Nat),
      (BubbleSort.exchangeAt swap l j).length = l.length := by
    intro l j
    rw [BubbleSort.exchangeAt]
    split
    · split <;> simp
    · rfl
  -- Both loops keep the length, so every index stays in range.
  refine (List.foldl_rel (r := fun m l' => place.Holds original m l' ∧
    l'.length = l.length) ⟨holds, rfl⟩ ?_).1
  intro i inRange m l' both
  obtain ⟨heldRow, lengthRow⟩ := both
  refine List.foldl_rel (r := fun m l' => place.Holds original m l' ∧
    l'.length = l.length) ⟨heldRow, lengthRow⟩ ?_
  intro j inRow m l' both
  obtain ⟨held, same⟩ := both
  have below := List.mem_range.mp inRow
  exact ⟨held.exchangeAt (by omega) (tests m j), (length l' j).trans same⟩

end Sorting

end Place

end RecordArray
