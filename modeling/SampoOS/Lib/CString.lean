/-
Module: SampoOS.Lib.CString
Purpose: Strings in memory that end with their only zero byte, and how the
  first difference of two of them tells their lexicographic order.
Trusted boundary: none
Main exports: HoldsString, HoldsString.tail, HoldsString.congr,
  HoldsString.of_holdsBytes, OrderedAs, OrderedAs.sign_eq, take_eq_take_iff,
  exists_first, orderedAs_of_firstDifference
-/
import Mathlib.Data.Nat.Find
import SampoOS.Lib.ByteMemory

namespace CString

open ByteMemory (Memory HoldsBytes)

/-! ## Strings in memory -/

/-- Memory with addresses of `w` bits holds a string at the pointer `a`: its
characters, none of which is zero, and then a zero byte. -/
structure HoldsString (w : Nat) (m : Memory) (a : Nat) (text : List UInt8) :
    Prop where
  pointer : a < 2 ^ w
  bytes : ∀ i ≤ text.length, m ((a + i) % 2 ^ w) = text.getD i 0
  noNul : ∀ byte ∈ text, byte ≠ 0

namespace HoldsString

variable {w a : Nat} {m m' : Memory} {c : UInt8} {text : List UInt8}

theorem first (holds : HoldsString w m a text) : m a = text.getD 0 0 := by
  have byte := holds.bytes 0 (Nat.zero_le _)
  rwa [Nat.add_zero, Nat.mod_eq_of_lt holds.pointer] at byte

theorem first_nil (holds : HoldsString w m a []) : m a = 0 := holds.first

theorem first_cons (holds : HoldsString w m a (c :: text)) : m a = c :=
  holds.first

theorem head_ne_zero (holds : HoldsString w m a (c :: text)) : c ≠ 0 :=
  holds.noNul c List.mem_cons_self

/-- What follows the first character is a string again. -/
theorem tail (holds : HoldsString w m a (c :: text)) :
    HoldsString w m ((a + 1) % 2 ^ w) text where
  pointer := Nat.mod_lt _ (Nat.two_pow_pos w)
  bytes := by
    intro i below
    have byte := holds.bytes (i + 1) (by rw [List.length_cons]; omega)
    rw [Nat.mod_add_mod, Nat.add_assoc, Nat.add_comm 1 i]
    exact byte
  noNul := fun byte inside => holds.noNul byte (List.mem_cons_of_mem c inside)

/-- A string stays where its characters and its zero byte are kept. -/
theorem congr (holds : HoldsString w m a text)
    (kept : ∀ i ≤ text.length, m' ((a + i) % 2 ^ w) = m ((a + i) % 2 ^ w)) :
    HoldsString w m' a text where
  pointer := holds.pointer
  bytes := fun i below => (kept i below).trans (holds.bytes i below)
  noNul := holds.noNul

/-- Characters and a zero byte that memory holds without wrapping around. -/
theorem of_holdsBytes (holds : HoldsBytes m a (text ++ [0]))
    (noNul : ∀ byte ∈ text, byte ≠ 0) (fits : a + text.length < 2 ^ w) :
    HoldsString w m a text where
  pointer := by omega
  bytes := by
    intro i inside
    have below : i < (text ++ [0]).length := by simpa using by omega
    rw [Nat.mod_eq_of_lt (by omega), holds i below]
    by_cases last : i = text.length
    · subst last
      simp
    · have character : i < text.length := by omega
      rw [List.getElem_append_left character, List.getD_eq_getElem _ _ character]
  noNul := noNul

end HoldsString

/-! ## Reading past the end as zero -/

theorem getD_eq_zero_iff {text : List UInt8} (noNul : ∀ byte ∈ text, byte ≠ 0)
    {i : Nat} : text.getD i 0 = 0 ↔ text.length ≤ i := by
  constructor
  · intro zero
    by_contra inside
    rw [List.getD_eq_getElem _ _ (by omega)] at zero
    exact noNul _ (List.getElem_mem _) zero
  · intro past
    rw [List.getD_eq_getElem?_getD, List.getElem?_eq_none past]
    rfl

/-- Strings without a zero byte agree in their first `count` characters if they
agree at each index below `count`. -/
theorem take_eq_take_iff {x y : List UInt8} (noNulX : ∀ byte ∈ x, byte ≠ 0)
    (noNulY : ∀ byte ∈ y, byte ≠ 0) {count : Nat} :
    x.take count = y.take count ↔ ∀ i < count, x.getD i 0 = y.getD i 0 := by
  constructor
  · intro same i below
    have entry := congrArg (fun l => l[i]?) same
    simp only [List.getElem?_take, if_pos below] at entry
    rw [List.getD_eq_getElem?_getD, List.getD_eq_getElem?_getD, entry]
  · intro same
    apply List.ext_getElem?
    intro i
    rw [List.getElem?_take, List.getElem?_take]
    split
    next below =>
      have entry := same i below
      have ends : x.length ≤ i ↔ y.length ≤ i := by
        rw [← getD_eq_zero_iff noNulX, entry, getD_eq_zero_iff noNulY]
      by_cases past : x.length ≤ i
      · rw [List.getElem?_eq_none past, List.getElem?_eq_none (ends.mp past)]
      · have insideX : i < x.length := by omega
        have insideY : i < y.length := by omega
        rw [List.getD_eq_getElem _ _ insideX,
          List.getD_eq_getElem _ _ insideY] at entry
        rw [List.getElem?_eq_getElem insideX, List.getElem?_eq_getElem insideY,
          entry]
    next => rfl

/-- What does not hold up to `count` fails at a first place. -/
theorem exists_first {holds : Nat → Prop} {count : Nat}
    (fails : ¬∀ i < count, holds i) :
    ∃ k < count, (∀ j < k, holds j) ∧ ¬holds k := by
  classical
  have somewhere : ∃ k, k < count ∧ ¬holds k := by
    push Not at fails
    exact fails
  obtain ⟨below, failsThere⟩ := Nat.find_spec somewhere
  refine ⟨Nat.find somewhere, below, ?_, failsThere⟩
  intro j earlier
  by_contra failsHere
  exact Nat.find_min somewhere earlier ⟨by omega, failsHere⟩

/-! ## Lexicographic order -/

/-- The sign of a number tells the lexicographic order of two sequences of
unsigned bytes. -/
structure OrderedAs (order : Int) (x y : List UInt8) : Prop where
  negative : order < 0 ↔ x < y
  zero : order = 0 ↔ x = y
  positive : 0 < order ↔ y < x

namespace OrderedAs

variable {order order' : Int} {x y : List UInt8} {c d : UInt8}

theorem of_lt (negative : order < 0) (below : x < y) : OrderedAs order x y where
  negative := iff_of_true negative below
  zero := iff_of_false (by omega) (by
    rintro rfl
    exact List.lt_irrefl x below)
  positive := iff_of_false (by omega) (List.lt_asymm below)

theorem of_gt (positive : 0 < order) (above : y < x) : OrderedAs order x y where
  negative := iff_of_false (by omega) (List.lt_asymm above)
  zero := iff_of_false (by omega) (by
    rintro rfl
    exact List.lt_irrefl x above)
  positive := iff_of_true positive above

theorem self_iff : OrderedAs order x x ↔ order = 0 := by
  constructor
  · intro ordered
    exact ordered.zero.mpr rfl
  · rintro rfl
    exact ⟨iff_of_false (by omega) (List.lt_irrefl x), iff_of_true rfl rfl,
      iff_of_false (by omega) (List.lt_irrefl x)⟩

/-- Two different first characters decide. -/
theorem of_heads (different : c ≠ d) :
    OrderedAs ((c.toNat : Int) - d.toNat) (c :: x) (d :: y) := by
  have unequal : c.toNat ≠ d.toNat := fun same =>
    different (UInt8.toNat_inj.mp same)
  by_cases below : c.toNat < d.toNat
  · exact of_lt (by omega) (List.cons_lt_cons_iff.mpr
      (Or.inl (UInt8.lt_iff_toNat_lt.mpr below)))
  · exact of_gt (by omega) (List.cons_lt_cons_iff.mpr
      (Or.inl (UInt8.lt_iff_toNat_lt.mpr (by omega))))

/-- A common first character does not matter. -/
theorem cons (ordered : OrderedAs order x y) :
    OrderedAs order (c :: x) (c :: y) where
  negative := by rw [ordered.negative, List.cons_lt_cons_self]
  zero := by rw [ordered.zero, List.cons.injEq, and_iff_right rfl]
  positive := by rw [ordered.positive, List.cons_lt_cons_self]

/-- Two numbers that tell the same order have the same sign. -/
theorem sign_eq (ordered : OrderedAs order x y)
    (ordered' : OrderedAs order' x y) : order.sign = order'.sign := by
  have negative := ordered.negative.trans ordered'.negative.symm
  have positive := ordered.positive.trans ordered'.positive.symm
  rcases lt_trichotomy order 0 with below | rfl | above
  · rw [Int.sign_eq_neg_one_of_neg below,
      Int.sign_eq_neg_one_of_neg (negative.mp below)]
  · rw [show order' = 0 by omega]
  · rw [Int.sign_eq_one_of_pos above, Int.sign_eq_one_of_pos (positive.mp above)]

end OrderedAs

theorem toNat_pos {c : UInt8} (live : c ≠ 0) : 0 < c.toNat :=
  Nat.pos_of_ne_zero fun zero => live (UInt8.toNat_inj.mp zero)

/-- The first difference of two strings, within the characters that count, tells
their order.  A string that ends there reads as zero, which is below every
character. -/
theorem orderedAs_of_firstDifference {x y : List UInt8}
    (noNulX : ∀ byte ∈ x, byte ≠ 0) (noNulY : ∀ byte ∈ y, byte ≠ 0)
    {k count : Nat} (below : k < count)
    (same : ∀ j < k, x.getD j 0 = y.getD j 0)
    (different : x.getD k 0 ≠ y.getD k 0) :
    OrderedAs ((x.getD k 0).toNat - (y.getD k 0).toNat) (x.take count)
      (y.take count) := by
  obtain ⟨count, rfl⟩ : ∃ n, count = n + 1 := ⟨count - 1, by omega⟩
  induction x generalizing y k count with
  | nil =>
      cases y with
      | nil => exact absurd rfl different
      | cons d y =>
          have live : d ≠ 0 := noNulY d List.mem_cons_self
          cases k with
          | zero =>
              have positive := toNat_pos live
              exact OrderedAs.of_lt (by simpa using positive) (List.nil_lt_cons _ _)
          | succ k => exact absurd (same 0 (by omega)).symm live
  | cons c x inductionHypothesis =>
      have live : c ≠ 0 := noNulX c List.mem_cons_self
      cases y with
      | nil =>
          cases k with
          | zero =>
              have positive := toNat_pos live
              exact OrderedAs.of_gt (by simpa using positive) (List.nil_lt_cons _ _)
          | succ k => exact absurd (same 0 (by omega)) live
      | cons d y =>
          rw [List.take_succ_cons, List.take_succ_cons]
          cases k with
          | zero => exact OrderedAs.of_heads different
          | succ k =>
              obtain rfl : c = d := same 0 (by omega)
              obtain ⟨count, rfl⟩ : ∃ n, count = n + 1 := ⟨count - 1, by omega⟩
              exact (inductionHypothesis
                (fun byte inside => noNulX byte (List.mem_cons_of_mem c inside))
                (fun byte inside => noNulY byte (List.mem_cons_of_mem c inside))
                (fun j earlier => same (j + 1) (by omega)) different count
                (by omega)).cons

end CString
