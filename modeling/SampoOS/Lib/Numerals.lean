/-
Module: SampoOS.Lib.Numerals
Purpose: Numerals as bytes, in bases up to 36 with lower-case letters: what a
  text must be to denote a number, and the texts that list its digits.
Trusted boundary: none
Main exports: digitByte, readNumeral, IsNumeral, IsFixedNumeral,
  IsSignedNumeral, numeral, signedNumeral, fixedNumeral, isNumeral_numeral,
  isSignedNumeral_signedNumeral, isFixedNumeral_fixedNumeral
-/
import Mathlib.Data.Nat.Digits.Lemmas

namespace Numerals

/-! ## Digits -/

/-- The byte of a digit: `0` to `9`, then `a` to `z`. -/
def digitByte (digit : Nat) : UInt8 :=
  if digit < 10 then UInt8.ofNat (digit + 48) else UInt8.ofNat (digit + 97 - 10)

/-- The digit of a byte. -/
def digitOf (byte : UInt8) : Nat :=
  if byte.toNat < 97 then byte.toNat - 48 else byte.toNat - 97 + 10

theorem digitOf_digitByte {digit : Nat} (below : digit < 36) :
    digitOf (digitByte digit) = digit := by
  have all : ∀ d < 36, digitOf (digitByte d) = d := by decide
  exact all digit below

/-- A digit is neither a zero byte nor a minus sign. -/
theorem digitByte_ne {digit : Nat} (below : digit < 36) :
    digitByte digit ≠ 0 ∧ digitByte digit ≠ 45 := by
  have all : ∀ d < 36, digitByte d ≠ 0 ∧ digitByte d ≠ 45 := by decide
  exact all digit below

/-! ## What a text denotes -/

/-- The number that a sequence of digits denotes, the first one most
significant. -/
def readNumeral (base : Nat) (text : List UInt8) : Nat :=
  text.foldl (fun n byte => n * base + digitOf byte) 0

/-- The numeral of a number, without leading zeros. -/
structure IsNumeral (base : Nat) (text : List UInt8) (n : Nat) : Prop where
  digits : ∀ byte ∈ text, ∃ digit < base, byte = digitByte digit
  nonempty : text ≠ []
  noLeadingZero : text.head? = some (digitByte 0) → text = [digitByte 0]
  value : readNumeral base text = n

/-- The numeral of a number with exactly `width` digits. -/
structure IsFixedNumeral (base width : Nat) (text : List UInt8) (n : Nat) :
    Prop where
  digits : ∀ byte ∈ text, ∃ digit < base, byte = digitByte digit
  length : text.length = width
  value : readNumeral base text = n

/-- The numeral of an integer: a minus sign (byte 45) and the numeral of its
absolute value if it is negative. -/
def IsSignedNumeral (base : Nat) (text : List UInt8) (n : Int) : Prop :=
  if n < 0 then ∃ digits, text = 45 :: digits ∧ IsNumeral base digits n.natAbs
  else IsNumeral base text n.natAbs

/-! ## Listing the digits -/

/-- The digits of a number, least significant first; zero has one digit. -/
def leastDigits (base n : Nat) : List Nat :=
  if n = 0 then [0] else Nat.digits base n

/-- The last `width` digits of a number, least significant first. -/
def lastDigits (base : Nat) : Nat → Nat → List Nat
  | 0, _ => []
  | width + 1, n => n % base :: lastDigits base width (n / base)

/-- Digits given least significant first, written in reading order. -/
def written (digits : List Nat) : List UInt8 :=
  (digits.map digitByte).reverse

def numeral (base n : Nat) : List UInt8 := written (leastDigits base n)

def fixedNumeral (base width n : Nat) : List UInt8 :=
  written (lastDigits base width n)

def signedNumeral (base : Nat) (n : Int) : List UInt8 :=
  if n < 0 then 45 :: numeral base n.natAbs else numeral base n.natAbs

variable {base width n : Nat} {digits : List Nat} {text : List UInt8}

@[simp] theorem length_written (digits : List Nat) :
    (written digits).length = digits.length := by
  rw [written, List.length_reverse, List.length_map]

theorem mem_written (below : ∀ digit ∈ digits, digit < base) :
    ∀ byte ∈ written digits, ∃ digit < base, byte = digitByte digit := by
  intro byte inside
  rw [written, List.mem_reverse, List.mem_map] at inside
  obtain ⟨digit, member, rfl⟩ := inside
  exact ⟨digit, below digit member, rfl⟩

theorem readNumeral_written (small : base ≤ 36)
    (below : ∀ digit ∈ digits, digit < base) :
    readNumeral base (written digits) = Nat.ofDigits base digits := by
  induction digits with
  | nil => rfl
  | cons digit rest inductionHypothesis =>
      have first : digit < 36 :=
        Nat.lt_of_lt_of_le (below digit List.mem_cons_self) small
      have value := inductionHypothesis
        fun d inside => below d (List.mem_cons_of_mem digit inside)
      rw [readNumeral, written] at value
      rw [readNumeral, written, List.map_cons, List.reverse_cons,
        List.foldl_append, value, List.foldl_cons, List.foldl_nil,
        digitOf_digitByte first, Nat.ofDigits_cons]
      ring

theorem leastDigits_lt (large : 1 < base) :
    ∀ digit ∈ leastDigits base n, digit < base := by
  intro digit inside
  rw [leastDigits] at inside
  split at inside
  · rw [List.mem_singleton.mp inside]
    omega
  · exact Nat.digits_lt_base large inside

theorem leastDigits_ne_nil : leastDigits base n ≠ [] := by
  rw [leastDigits]
  split
  next => exact List.cons_ne_nil 0 []
  next positive => exact Nat.digits_ne_nil_iff_ne_zero.mpr positive

/-- A number below the base is its only digit. -/
theorem leastDigits_of_lt (below : n < base) : leastDigits base n = [n] := by
  rw [leastDigits]
  split
  next zero => rw [zero]
  next positive => exact Nat.digits_of_lt base n positive below

/-- Any other number has its last digit before those of the quotient. -/
theorem leastDigits_of_ge (large : 1 < base) (above : base ≤ n) :
    leastDigits base n = n % base :: leastDigits base (n / base) := by
  have quotient : n / base ≠ 0 := (Nat.div_pos above (by omega)).ne'
  rw [leastDigits, if_neg (by omega), leastDigits, if_neg quotient,
    Nat.digits_def' large (by omega)]

theorem length_leastDigits_le (large : 1 < base) (positive : 0 < width)
    (below : n < base ^ width) : (leastDigits base n).length ≤ width := by
  rw [leastDigits]
  split
  next => exact positive
  next => exact (Nat.digits_length_le_iff large n).mpr below

theorem lastDigits_lt (positive : 0 < base) :
    ∀ digit ∈ lastDigits base width n, digit < base := by
  induction width generalizing n with
  | zero => simp [lastDigits]
  | succ width inductionHypothesis =>
      intro digit inside
      rw [lastDigits, List.mem_cons] at inside
      rcases inside with rfl | inside
      · exact Nat.mod_lt n positive
      · exact inductionHypothesis digit inside

@[simp] theorem length_lastDigits (base width n : Nat) :
    (lastDigits base width n).length = width := by
  induction width generalizing n with
  | zero => rfl
  | succ width inductionHypothesis =>
      rw [lastDigits, List.length_cons, inductionHypothesis]

theorem ofDigits_lastDigits (base width n : Nat) :
    Nat.ofDigits base (lastDigits base width n) = n % base ^ width := by
  induction width generalizing n with
  | zero => rw [Nat.pow_zero, Nat.mod_one]; rfl
  | succ width inductionHypothesis =>
      rw [lastDigits, Nat.ofDigits_cons, inductionHypothesis, Nat.pow_succ',
        Nat.mod_mul]

/-! ## The listed digits denote the number -/

theorem isNumeral_numeral (large : 1 < base) (small : base ≤ 36) (n : Nat) :
    IsNumeral base (numeral base n) n where
  digits := mem_written (leastDigits_lt large)
  nonempty := by
    intro empty
    have size := congrArg List.length empty
    rw [numeral, length_written, List.length_nil,
      List.length_eq_zero_iff] at size
    exact leastDigits_ne_nil size
  noLeadingZero := by
    intro zero
    by_cases isZero : n = 0
    · rw [numeral, leastDigits, if_pos isZero]
      rfl
    · -- The first byte is the digit that is listed last, which is not zero.
      have nonempty : Nat.digits base n ≠ [] :=
        Nat.digits_ne_nil_iff_ne_zero.mpr isZero
      have last := Nat.getLast_digit_ne_zero base isZero
      have below := Nat.digits_lt_base large (List.getLast_mem nonempty)
      rw [numeral, leastDigits, if_neg isZero, written, List.head?_reverse,
        List.getLast?_map, List.getLast?_eq_some_getLast nonempty,
        Option.map_some, Option.some.injEq] at zero
      have same := congrArg digitOf zero
      rw [digitOf_digitByte (by omega), digitOf_digitByte (by omega)] at same
      exact absurd same last
  value := by
    rw [numeral, readNumeral_written small (leastDigits_lt large), leastDigits]
    split
    next zero => rw [Nat.ofDigits_singleton, zero]
    next => exact Nat.ofDigits_digits base n

theorem isFixedNumeral_fixedNumeral (positive : 0 < base) (small : base ≤ 36)
    (below : n < base ^ width) :
    IsFixedNumeral base width (fixedNumeral base width n) n where
  digits := mem_written (lastDigits_lt positive)
  length := by rw [fixedNumeral, length_written, length_lastDigits]
  value := by
    rw [fixedNumeral, readNumeral_written small (lastDigits_lt positive),
      ofDigits_lastDigits, Nat.mod_eq_of_lt below]

theorem isSignedNumeral_signedNumeral (large : 1 < base) (small : base ≤ 36)
    (n : Int) : IsSignedNumeral base (signedNumeral base n) n := by
  unfold IsSignedNumeral signedNumeral
  by_cases negative : n < 0
  · rw [if_pos negative, if_pos negative]
    exact ⟨_, rfl, isNumeral_numeral large small n.natAbs⟩
  · rw [if_neg negative, if_neg negative]
    exact isNumeral_numeral large small n.natAbs

/-! ## Bytes that numerals do not have -/

/-- Digits are no zero bytes. -/
theorem ne_zero_of_digits (small : base ≤ 36)
    (isDigit : ∀ byte ∈ text, ∃ digit < base, byte = digitByte digit) :
    ∀ byte ∈ text, byte ≠ 0 := by
  intro byte inside
  obtain ⟨digit, below, rfl⟩ := isDigit byte inside
  exact (digitByte_ne (Nat.lt_of_lt_of_le below small)).1

theorem signedNumeral_ne_zero (large : 1 < base) (small : base ≤ 36) (i : Int) :
    ∀ byte ∈ signedNumeral base i, byte ≠ 0 := by
  have digits : ∀ byte ∈ numeral base i.natAbs, byte ≠ 0 :=
    ne_zero_of_digits small (isNumeral_numeral large small i.natAbs).digits
  intro byte inside
  rw [signedNumeral] at inside
  split at inside
  · rcases List.mem_cons.mp inside with rfl | inside
    · decide
    · exact digits byte inside
  · exact digits byte inside

theorem length_signedNumeral_le {i : Int} (large : 1 < base)
    (positive : 0 < width) (below : i.natAbs < base ^ width) :
    (signedNumeral base i).length ≤ width + 1 := by
  have size : (numeral base i.natAbs).length ≤ width := by
    rw [numeral, length_written]
    exact length_leastDigits_le large positive below
  rw [signedNumeral]
  split
  · rw [List.length_cons]
    omega
  · omega

/-- Digits are no minus signs. -/
theorem count_minus_of_digits (small : base ≤ 36)
    (isDigit : ∀ byte ∈ text, ∃ digit < base, byte = digitByte digit) :
    text.count 45 = 0 := by
  rw [List.count_eq_zero]
  intro inside
  obtain ⟨digit, below, isMinus⟩ := isDigit 45 inside
  exact (digitByte_ne (Nat.lt_of_lt_of_le below small)).2 isMinus.symm

/-- The numeral of an integer has a minus sign exactly if it is negative. -/
theorem IsSignedNumeral.count_minus {i : Int} (small : base ≤ 36)
    (denotes : IsSignedNumeral base text i) :
    text.count 45 = if i < 0 then 1 else 0 := by
  unfold IsSignedNumeral at denotes
  by_cases negative : i < 0
  · rw [if_pos negative] at denotes ⊢
    obtain ⟨digits, rfl, isNumeral⟩ := denotes
    rw [List.count_cons_self, count_minus_of_digits small isNumeral.digits]
  · rw [if_neg negative] at denotes ⊢
    exact count_minus_of_digits small denotes.digits

end Numerals
