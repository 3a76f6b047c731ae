/-
Module: SampoOS.Lib.Bitmap
Purpose: Single bits of bytes and of byte memories: what setting and clearing
  one leaves of the others.
Trusted boundary: none
Main exports: bit, setBit, clearBit, BitAddress, bitAt, mark, unmark,
  bitAt_mark, bitAt_unmark, mark_comm, unmark_mark, mark_unmark_injective,
  bitAt_markAll, loadLe_testBit, missing, card_missing_le_mark, bitNumber
-/
import Mathlib.Data.Finset.Card
import SampoOS.Lib.ByteMemory

namespace Bitmap

open ByteMemory (Memory)

/-! ## Bits of a byte -/

/-- A bit of a byte. -/
def bit (byte : UInt8) (k : Nat) : Bool := byte.toNat.testBit k

/-- `byte | (1 << k)`. -/
def setBit (byte : UInt8) (k : Nat) : UInt8 := byte ||| UInt8.ofNat (1 <<< k)

/-- `byte & ~(1 << k)`. -/
def clearBit (byte : UInt8) (k : Nat) : UInt8 :=
  byte &&& ~~~UInt8.ofNat (1 <<< k)

theorem toNat_shifted {k : Nat} (low : k < 8) :
    (UInt8.ofNat (1 <<< k)).toNat = 2 ^ k := by
  have small : 2 ^ k < 2 ^ 8 := Nat.pow_lt_pow_right (by decide) low
  rw [UInt8.toNat_ofNat', Nat.one_shiftLeft, Nat.mod_eq_of_lt small]

theorem bit_setBit (byte : UInt8) {k : Nat} (low : k < 8) (j : Nat) :
    bit (setBit byte k) j = (bit byte j || decide (j = k)) := by
  rw [bit, setBit, UInt8.toNat_or, toNat_shifted low, Nat.testBit_or,
    Nat.testBit_two_pow, bit]
  congr 1
  exact decide_eq_decide.mpr eq_comm

theorem bit_clearBit (byte : UInt8) {k j : Nat} (low : k < 8) (lowJ : j < 8) :
    bit (clearBit byte k) j = (bit byte j && !decide (j = k)) := by
  have complement : (~~~UInt8.ofNat (1 <<< k)).toNat = 2 ^ 8 - (2 ^ k + 1) := by
    rw [UInt8.toNat_not, toNat_shifted low, show UInt8.size = 2 ^ 8 from rfl]
    omega
  have small : 2 ^ k < 2 ^ 8 := Nat.pow_lt_pow_right (by decide) low
  rw [bit, clearBit, UInt8.toNat_and, complement, Nat.testBit_and,
    Nat.testBit_two_pow_sub_succ small, Nat.testBit_two_pow, bit]
  simp only [lowJ, decide_true, Bool.true_and]
  congr 2
  exact decide_eq_decide.mpr eq_comm

theorem bit_ext {a b : UInt8} (same : ∀ k < 8, bit a k = bit b k) : a = b := by
  apply UInt8.toNat_inj.mp
  apply Nat.eq_of_testBit_eq
  intro k
  by_cases low : k < 8
  · exact same k low
  · have large : 2 ^ 8 ≤ 2 ^ k := Nat.pow_le_pow_right (by decide) (by omega)
    rw [Nat.testBit_lt_two_pow (Nat.lt_of_lt_of_le a.toNat_lt large),
      Nat.testBit_lt_two_pow (Nat.lt_of_lt_of_le b.toNat_lt large)]

/-! ## Bits of a memory -/

/-- The address of a byte, and the number of a bit in it. -/
structure BitAddress where
  byte : Nat
  bit : Nat
deriving Repr, DecidableEq

/-- A bit of a memory. -/
def bitAt (m : Memory) (p : BitAddress) : Bool := bit (m p.byte) p.bit

/-- Set a bit. -/
def mark (m : Memory) (p : BitAddress) : Memory :=
  Function.update m p.byte (setBit (m p.byte) p.bit)

/-- Clear a bit. -/
def unmark (m : Memory) (p : BitAddress) : Memory :=
  Function.update m p.byte (clearBit (m p.byte) p.bit)

theorem mark_outside {m : Memory} {p : BitAddress} {x : Nat}
    (outside : x ≠ p.byte) : mark m p x = m x :=
  Function.update_of_ne outside _ _

/-- Setting a bit sets that one and leaves all others. -/
theorem bitAt_mark (m : Memory) {p : BitAddress} (low : p.bit < 8)
    (q : BitAddress) :
    bitAt (mark m p) q = (bitAt m q || decide (q = p)) := by
  cases p with | mk byte bit =>
  cases q with | mk otherByte otherBit =>
  simp only [bitAt, mark, Function.update_apply, BitAddress.mk.injEq]
  split
  next same =>
    subst same
    rw [bit_setBit _ low]
    simp
  next other => simp [other]

/-- Clearing a bit clears that one and leaves all others. -/
theorem bitAt_unmark (m : Memory) {p q : BitAddress} (low : p.bit < 8)
    (lowQ : q.bit < 8) :
    bitAt (unmark m p) q = (bitAt m q && !decide (q = p)) := by
  cases p with | mk byte bit =>
  cases q with | mk otherByte otherBit =>
  simp only [bitAt, unmark, Function.update_apply, BitAddress.mk.injEq]
  split
  next same =>
    subst same
    rw [bit_clearBit _ low lowQ]
    simp
  next other => simp [other]

/-- A memory is determined by its bits. -/
theorem bitAt_ext {m m' : Memory}
    (same : ∀ q : BitAddress, q.bit < 8 → bitAt m q = bitAt m' q) : m = m' := by
  funext x
  apply bit_ext
  intro k low
  exact same ⟨x, k⟩ low

theorem mark_comm (m : Memory) {p q : BitAddress} (low : p.bit < 8)
    (lowQ : q.bit < 8) : mark (mark m p) q = mark (mark m q) p := by
  apply bitAt_ext
  intro r _
  rw [bitAt_mark _ lowQ, bitAt_mark _ low, bitAt_mark _ low, bitAt_mark _ lowQ,
    Bool.or_right_comm]

/-- Clearing a bit undoes setting it. -/
theorem unmark_mark {m : Memory} {p : BitAddress} (low : p.bit < 8)
    (clear : bitAt m p = false) : unmark (mark m p) p = m := by
  apply bitAt_ext
  intro r lowR
  rw [bitAt_unmark _ low lowR, bitAt_mark _ low]
  by_cases same : r = p
  · simp [same, clear]
  · simp [same]

/-- Setting and clearing together tell which bit it was. -/
theorem mark_unmark_injective {m : Memory} {p q : BitAddress} (low : p.bit < 8)
    (lowQ : q.bit < 8) (marks : mark m p = mark m q)
    (unmarks : unmark m p = unmark m q) : p = q := by
  cases clear : bitAt m p with
  | false =>
      have seen := congrArg (bitAt · p) marks
      simpa [bitAt_mark _ low, bitAt_mark _ lowQ, clear] using seen
  | true =>
      have seen := congrArg (bitAt · p) unmarks
      simpa [bitAt_unmark _ low low, bitAt_unmark _ lowQ low, clear] using seen

/-- One of the two changes the memory. -/
theorem mark_or_unmark_ne {m : Memory} {p : BitAddress} (low : p.bit < 8)
    (marks : mark m p = m) (unmarks : unmark m p = m) : False := by
  have set := congrArg (bitAt · p) marks
  have cleared := congrArg (bitAt · p) unmarks
  simp only [bitAt_mark _ low, decide_true, Bool.or_true] at set
  simp only [bitAt_unmark _ low low, decide_true, Bool.not_true, Bool.and_false,
    ← set] at cleared
  exact Bool.false_ne_true cleared

/-- Set a list of bits. -/
def markAll (m : Memory) (ps : List BitAddress) : Memory := ps.foldl mark m

theorem bitAt_markAll (ps : List BitAddress) : ∀ {m : Memory},
    (∀ p ∈ ps, p.bit < 8) → ∀ q,
      bitAt (markAll m ps) q = (bitAt m q || decide (q ∈ ps)) := by
  induction ps with
  | nil => intro m _ q; simp [markAll]
  | cons p rest inductionHypothesis =>
      intro m low q
      rw [markAll, List.foldl_cons, ← markAll, inductionHypothesis
        (fun other inside => low other (List.mem_cons_of_mem _ inside)),
        bitAt_mark _ (low p (by simp)), Bool.or_assoc]
      simp only [List.mem_cons, Bool.decide_or]

/-- The bits of a little-endian word are those of its bytes. -/
theorem leValue_testBit (bytes : Nat → UInt8) {n k j : Nat} (below : k < n)
    (low : j < 8) :
    (ByteMemory.leValue bytes n).testBit (8 * k + j) = bit (bytes k) j := by
  induction n with
  | zero => exact absurd below (Nat.not_lt_zero k)
  | succ n inductionHypothesis =>
      have small : ByteMemory.leValue bytes n < 2 ^ (8 * n) := by
        rw [Nat.pow_mul]
        exact ByteMemory.leValue_lt bytes n
      have word : ByteMemory.leValue bytes (n + 1) =
          2 ^ (8 * n) * (bytes n).toNat + ByteMemory.leValue bytes n := by
        rw [ByteMemory.leValue, Nat.pow_mul, Nat.add_comm, Nat.mul_comm]
      rw [word, Nat.testBit_two_pow_mul_add _ small]
      by_cases last : k = n
      · subst last
        rw [if_neg (by omega), Nat.add_sub_cancel_left, bit]
      · rw [if_pos (by omega), inductionHypothesis (by omega)]

theorem loadLe_testBit (m : Memory) (a : Nat) {n k j : Nat} (below : k < n)
    (low : j < 8) :
    (ByteMemory.loadLe m a n).testBit (8 * k + j) = bitAt m ⟨a + k, j⟩ :=
  leValue_testBit _ below low

/-! ## Bits that are still to be set -/

/-- The bits of a set that are clear. -/
def missing (m : Memory) (wanted : Finset BitAddress) : Finset BitAddress :=
  wanted.filter fun q => bitAt m q = false

theorem mem_missing {m : Memory} {wanted : Finset BitAddress} {q : BitAddress} :
    q ∈ missing m wanted ↔ q ∈ wanted ∧ bitAt m q = false :=
  Finset.mem_filter

/-- One mark sets at most one of the missing bits. -/
theorem card_missing_le_mark {m : Memory} {p : BitAddress} (low : p.bit < 8)
    (wanted : Finset BitAddress) :
    (missing m wanted).card ≤ (missing (mark m p) wanted).card + 1 := by
  have covered : missing m wanted ⊆ insert p (missing (mark m p) wanted) := by
    intro q inside
    obtain ⟨isWanted, clear⟩ := mem_missing.mp inside
    by_cases same : q = p
    · exact Finset.mem_insert.mpr (Or.inl same)
    · refine Finset.mem_insert.mpr (Or.inr (mem_missing.mpr ⟨isWanted, ?_⟩))
      simp [bitAt_mark _ low, clear, same]
  exact Nat.le_trans (Finset.card_le_card covered) (Finset.card_insert_le _ _)

/-- A mark elsewhere sets none of them. -/
theorem missing_mark_of_notMem {m : Memory} {p : BitAddress} (low : p.bit < 8)
    {wanted : Finset BitAddress} (notMissing : p ∉ missing m wanted) :
    missing (mark m p) wanted = missing m wanted := by
  ext q
  rw [mem_missing, mem_missing, bitAt_mark _ low]
  constructor
  · rintro ⟨isWanted, clear⟩
    exact ⟨isWanted, (Bool.or_eq_false_iff.mp clear).1⟩
  · rintro ⟨isWanted, clear⟩
    refine ⟨isWanted, ?_⟩
    have different : q ≠ p := by
      rintro rfl
      exact notMissing (mem_missing.mpr ⟨isWanted, clear⟩)
    simp [clear, different]

/-! ## Numbered bits -/

/-- Bit `k` of the bitmap at an address; addresses have `w` bits. -/
def bitNumber (w base k : Nat) : BitAddress where
  byte := (base + k / 8) % 2 ^ w
  bit := k % 8

theorem bitNumber_bit (w base k : Nat) : (bitNumber w base k).bit < 8 :=
  Nat.mod_lt _ (by decide)

theorem bitNumber_injective {w base j k : Nat} (belowJ : j < 8 * 2 ^ w)
    (belowK : k < 8 * 2 ^ w) (same : bitNumber w base j = bitNumber w base k) :
    j = k := by
  obtain ⟨bytes, bits⟩ := BitAddress.mk.inj same
  have quotients := ByteMemory.cyclic_injective (show j / 8 < 2 ^ w by omega)
    (show k / 8 < 2 ^ w by omega) bytes
  omega

end Bitmap
