/-
Module: SampoOS.Kickstart.Serial
Purpose: Kickstart's formatted serial output, with the format, the strings and
  the digit buffer in memory.
Trusted boundary: the serial port takes each character sooner or later; the
  wait for its transmitter is left out.
Main exports: SerialState, itoa, serialWrite, serialPrintf, LoopDigits,
  itoa_decimal, itoa_hex, serialWrite_sends
-/
import Mathlib.Data.List.Induction
import SampoOS.Lib.CString
import SampoOS.Lib.Numerals

namespace SampoOS.Kickstart.Serial

open ByteMemory (Memory HoldsBytes Stored holdsBytes_append holdsBytes_cons)
open CString (HoldsString)
open Numerals

/-! ## serial.c -/

/-- Memory, and the characters sent over the serial port so far. -/
structure SerialState where
  memory : Memory
  sent : List UInt8

/-- `++p`. -/
def next (p : Nat) : Nat := (p + 1) % 2 ^ 32

/-- `--p`. -/
def previous (p : Nat) : Nat := (p + (2 ^ 32 - 1)) % 2 ^ 32

/-- `serial_putchar`, when the transmitter is empty. -/
def serialPutchar (a : UInt8) (s : SerialState) : SerialState :=
  { s with sent := s.sent ++ [a] }

/-- `serial_write`; the loop runs as long as there is fuel. -/
def serialWrite : Nat → Nat → SerialState → Option SerialState
  | 0, _, _ => none
  | fuel + 1, str, s =>
      if s.memory str = 0 then some s
      else serialWrite fuel (next str) (serialPutchar (s.memory str) s)

/-- Conversion of an `int` to `unsigned long`. -/
def toUnsigned (num : Int) : Nat := (num % 2 ^ 32).toNat

/-- Conversion of an `unsigned int` to `int`. -/
def toSigned (word : Nat) : Int :=
  if word < 2 ^ 31 then word else (word : Int) - 2 ^ 32

/-- The stop rule of the digit loop: in base 10 after the last digit that is
left, in base 16 after eight digits, else after the first one. -/
def shouldQuit (base d printedChars : Nat) : Bool :=
  match base with
  | 10 => d == 0
  | 16 => printedChars == 8
  | _ => true

/-- `(rem < 10) ? rem + '0' : rem + 'a' - 10`. -/
def remByte (rem : Nat) : UInt8 :=
  if rem < 10 then UInt8.ofNat (rem + 48) else UInt8.ofNat (rem + 97 - 10)

/-- The digit loop of `itoa`, which writes at `p`; the result is the memory and
the pointer behind the last digit. -/
def itoaDigits (base : Nat) : Nat → Memory → Nat → Nat → Nat →
    Option (Memory × Nat)
  | 0, _, _, _, _ => none
  | fuel + 1, m, p, d, printedChars =>
      let m := Function.update m p (remByte (d % base))
      let p := next p
      let printedChars := printedChars + 1
      let d := d / base
      if shouldQuit base d printedChars then some (m, p)
      else itoaDigits base fuel m p d printedChars

/-- The reversal at the end of `itoa`. -/
def itoaReverse : Nat → Memory → Nat → Nat → Option Memory
  | 0, _, _, _ => none
  | fuel + 1, m, p1, p2 =>
      if p1 < p2 then
        itoaReverse fuel (Function.update (Function.update m p1 (m p2)) p2 (m p1))
          (next p1) (previous p2)
      else some m

/-- What `itoa` does after the sign: the digits, the zero byte, the reversal. -/
def itoaUnsigned (fuel base : Nat) (m : Memory) (buffer d : Nat) :
    Option Memory := do
  let (m, p) ← itoaDigits base fuel m buffer d 0
  itoaReverse fuel (Function.update m p 0) buffer (previous p)

/-- `itoa`. -/
def itoa (fuel : Nat) (m : Memory) (buffer base : Nat) (num : Int) :
    Option Memory :=
  if base = 10 ∧ num < 0 then
    -- `-num` overflows for the least `int` only, and wraps to the same number.
    itoaUnsigned fuel base (Function.update m buffer 45) (next buffer)
      (toUnsigned (-num))
  else itoaUnsigned fuel base m buffer (toUnsigned num)

/-- A conversion that prints a number into `buffer` and sends it. -/
def printNumber (fuel buffer base : Nat) (num : Int) (s : SerialState) :
    Option SerialState := do
  let m ← itoa fuel s.memory buffer base num
  serialWrite fuel buffer { s with memory := m }

/-- The switch of `serial_printf`, on the character behind `%`; the arguments
that are left come with the result.  There is no result when a conversion has no
argument. -/
def convert (fuel buffer : Nat) (c : UInt8) (args : List Nat) (s : SerialState) :
    Option (List Nat × SerialState) :=
  if c = 37 then some (args, serialPutchar 37 s)
  else if c = 115 then do
    let word ← args.head?
    return (args.tail, ← serialWrite fuel word s)
  else if c = 99 then do
    let word ← args.head?
    return (args.tail, serialPutchar (UInt8.ofNat word) s)
  else if c = 120 then do
    let word ← args.head?
    return (args.tail, ← printNumber fuel buffer 16 (toSigned word) s)
  else if c = 100 then do
    let word ← args.head?
    return (args.tail, ← printNumber fuel buffer 10 (toSigned word) s)
  else if c = 117 then do
    let word ← args.head?
    return (args.tail, ← printNumber fuel buffer 10 (toSigned word) s)
  else some (args, s)

/-- The loop of `serial_printf`, at `iter`; each turn may use `limit` steps of
its own. -/
def serialPrintfFrom (limit buffer : Nat) : Nat → Nat → List Nat → SerialState →
    Option SerialState
  | 0, _, _, _ => none
  | fuel + 1, iter, args, s =>
      if s.memory iter = 0 then some s
      else if s.memory iter = 37 then
        if s.memory (next iter) = 0 then some s
        else
          (convert limit buffer (s.memory (next iter)) args s).bind fun result =>
            serialPrintfFrom limit buffer fuel (next (next iter)) result.1 result.2
      else
        serialPrintfFrom limit buffer fuel (next iter) args
          (serialPutchar (s.memory iter) s)

/-- `serial_printf`, with its `char buffer[21]` at `buffer` and its arguments as
32-bit words. -/
def serialPrintf (fuel buffer format : Nat) (args : List Nat)
    (s : SerialState) : Option SerialState :=
  serialPrintfFrom fuel buffer fuel format args s

/-- The length of the array `buffer`. -/
def bufferLength : Nat := 21

theorem remByte_eq : remByte = digitByte := rfl

/-! ## Pointers and words -/

theorem next_of_lt {p : Nat} (low : p + 1 < 2 ^ 32) : next p = p + 1 :=
  Nat.mod_eq_of_lt low

theorem previous_succ {p : Nat} (low : p < 2 ^ 32) : previous (p + 1) = p := by
  rw [previous, show p + 1 + (2 ^ 32 - 1) = p + 2 ^ 32 by omega,
    Nat.add_mod_right, Nat.mod_eq_of_lt low]

theorem toUnsigned_toSigned {word : Nat} (fits : word < 2 ^ 32) :
    toUnsigned (toSigned word) = word := by
  rw [toUnsigned, toSigned]
  split <;> omega

theorem toSigned_range {word : Nat} (fits : word < 2 ^ 32) :
    -2 ^ 31 ≤ toSigned word ∧ toSigned word < 2 ^ 31 := by
  rw [toSigned]
  split <;> omega

theorem toSigned_toUnsigned {num : Int} (low : -2 ^ 31 < num)
    (high : num < 2 ^ 31) : toSigned (toUnsigned num) = num := by
  rw [toSigned, toUnsigned]
  split <;> omega

theorem toSigned_of_lt {word : Nat} (small : word < 2 ^ 31) :
    toSigned word = word := if_pos small

/-- The absolute value of an `int` is what the digit loop starts with. -/
theorem toUnsigned_natAbs {num : Int} (low : -2 ^ 31 ≤ num) (high : num < 2 ^ 31) :
    (if num < 0 then toUnsigned (-num) else toUnsigned num) = num.natAbs := by
  rw [toUnsigned, toUnsigned]
  split <;> omega

/-! ## The digit loop -/

/-- The digits that the loop writes when it begins with `d` left to print and
`printedChars` digits printed. -/
inductive LoopDigits (base : Nat) : Nat → Nat → List Nat → Prop
  | last {d printedChars : Nat}
      (quits : shouldQuit base (d / base) (printedChars + 1) = true) :
      LoopDigits base d printedChars [d % base]
  | more {d printedChars : Nat} {digits : List Nat}
      (goesOn : shouldQuit base (d / base) (printedChars + 1) = false)
      (rest : LoopDigits base (d / base) (printedChars + 1) digits) :
      LoopDigits base d printedChars (d % base :: digits)

/-- In base 10 the loop writes all the digits of the number. -/
theorem loopDigits_decimal (d : Nat) :
    ∀ printedChars, LoopDigits 10 d printedChars (leastDigits 10 d) := by
  induction d using Nat.strong_induction_on with
  | _ d inductionHypothesis =>
      intro printedChars
      by_cases single : d < 10
      · rw [leastDigits_of_lt single]
        have last : LoopDigits 10 d printedChars [d % 10] :=
          .last (by simp [shouldQuit, Nat.div_eq_of_lt single])
        rwa [Nat.mod_eq_of_lt single] at last
      · have quotient : d / 10 ≠ 0 := by omega
        rw [leastDigits_of_ge (by omega) (by omega)]
        exact .more (by simpa [shouldQuit] using quotient)
          (inductionHypothesis (d / 10) (by omega) _)

/-- In base 16 it writes the last eight digits, whether or not they are zero. -/
theorem loopDigits_hex (width : Nat) :
    ∀ d, width < 8 →
      LoopDigits 16 d (7 - width) (lastDigits 16 (width + 1) d) := by
  induction width with
  | zero => exact fun d _ => .last rfl
  | succ width inductionHypothesis =>
      intro d below
      rw [lastDigits]
      have count : 7 - (width + 1) + 1 = 7 - width := by omega
      refine .more ?_ ?_
      · rw [count]
        simp only [shouldQuit, beq_eq_false_iff_ne]
        omega
      · rw [count]
        exact inductionHypothesis (d / 16) (by omega)

/-- The loop stores the digits from `p` on. -/
theorem itoaDigits_stores {base d printedChars : Nat} {digits : List Nat}
    (loop : LoopDigits base d printedChars digits) :
    ∀ {fuel p : Nat} (m : Memory), digits.length ≤ fuel →
      p + digits.length < 2 ^ 32 →
      ∃ m', itoaDigits base fuel m p d printedChars =
          some (m', p + digits.length) ∧
        Stored m m' p (digits.map digitByte) := by
  induction loop with
  | last quits =>
      intro fuel p m enough low
      rw [List.length_singleton] at enough low
      obtain ⟨fuel, rfl⟩ : ∃ k, fuel = k + 1 := ⟨fuel - 1, by omega⟩
      refine ⟨_, ?_, Stored.single m p _⟩
      rw [itoaDigits, if_pos quits, next_of_lt low, remByte_eq,
        List.length_singleton]
  | more goesOn rest inductionHypothesis =>
      intro fuel p m enough low
      rw [List.length_cons] at enough low
      obtain ⟨fuel, rfl⟩ : ∃ k, fuel = k + 1 := ⟨fuel - 1, by omega⟩
      obtain ⟨m', written, stored⟩ := inductionHypothesis (p := p + 1)
        (Function.update m p (digitByte _)) (show _ ≤ fuel by omega) (by omega)
      refine ⟨m', ?_, stored.cons⟩
      rw [itoaDigits, goesOn, if_neg Bool.false_ne_true, next_of_lt (by omega),
        remByte_eq, written, List.length_cons]
      congr 2
      omega

/-! ## The reversal -/

/-- Exchanging the outer bytes of a text leaves those between them. -/
theorem exchange_outer {m : Memory} {p : Nat} {a b : UInt8} {middle : List UInt8}
    (holds : HoldsBytes m p (a :: (middle ++ [b]))) :
    m p = a ∧ m (p + (middle.length + 1)) = b ∧
      HoldsBytes
        (Function.update (Function.update m p b) (p + (middle.length + 1)) a)
        (p + 1) middle := by
  obtain ⟨first, rest⟩ := holdsBytes_cons.mp holds
  obtain ⟨between, last⟩ := holdsBytes_append.mp rest
  have lastByte := last 0 (by simp)
  rw [Nat.add_zero, Nat.add_assoc, Nat.add_comm 1] at lastByte
  refine ⟨first, lastByte, ?_⟩
  intro i below
  rw [Function.update_of_ne (by omega), Function.update_of_ne (by omega)]
  exact between i below

/-- Storing between two bytes stored before. -/
theorem stored_between {m m' : Memory} {p : Nat} {a b : UInt8}
    {inner : List UInt8}
    (stored : Stored
      (Function.update (Function.update m p b) (p + (inner.length + 1)) a) m'
      (p + 1) inner) : Stored m m' p (b :: (inner ++ [a])) where
  holds := by
    have first : m' p = b := by
      rw [stored.outside p (by omega), Function.update_of_ne (by omega),
        Function.update_self]
    have last : m' (p + 1 + inner.length) = a := by
      rw [stored.outside _ (by omega), Nat.add_assoc, Nat.add_comm 1,
        Function.update_self]
    rw [holdsBytes_cons, holdsBytes_append, holdsBytes_cons]
    exact ⟨first, stored.holds, last, by simp [HoldsBytes]⟩
  outside := by
    intro x outside
    simp only [List.length_cons, List.length_append, List.length_nil] at outside
    rw [stored.outside x (by omega), Function.update_of_ne (by omega),
      Function.update_of_ne (by omega)]

/-- The loop reverses the text between the two pointers in place.  The induction
takes one character off at either end. -/
theorem itoaReverse_stores (text : List UInt8) :
    ∀ {fuel p1 p2 : Nat} {m : Memory}, text.length < fuel →
      p2 + 1 = p1 + text.length → p1 + text.length ≤ 2 ^ 32 →
      HoldsBytes m p1 text →
      ∃ m', itoaReverse fuel m p1 p2 = some m' ∧
        Stored m m' p1 text.reverse := by
  induction text using List.bidirectionalRec with
  | nil =>
      intro fuel p1 p2 m enough stop _ _
      obtain ⟨fuel, rfl⟩ : ∃ k, fuel = k + 1 := ⟨fuel - 1, by omega⟩
      rw [List.length_nil] at stop
      exact ⟨m, by rw [itoaReverse, if_neg (by omega)], by simp [HoldsBytes],
        fun _ _ => rfl⟩
  | singleton a =>
      intro fuel p1 p2 m enough stop _ holds
      obtain ⟨fuel, rfl⟩ : ∃ k, fuel = k + 1 := ⟨fuel - 1, by omega⟩
      rw [List.length_singleton] at stop
      exact ⟨m, by rw [itoaReverse, if_neg (by omega)], holds, fun _ _ => rfl⟩
  | cons_append a middle b inductionHypothesis =>
      intro fuel p1 p2 m enough stop fits holds
      obtain ⟨fuel, rfl⟩ : ∃ k, fuel = k + 1 := ⟨fuel - 1, by omega⟩
      simp only [List.length_cons, List.length_append, List.length_nil]
        at enough stop fits
      obtain rfl : p2 = p1 + (middle.length + 1) := by omega
      obtain ⟨first, last, between⟩ := exchange_outer holds
      obtain ⟨m', reversed, stored⟩ := inductionHypothesis
        (show _ < fuel by omega)
        (show p1 + middle.length + 1 = p1 + 1 + middle.length by omega)
        (by omega) between
      refine ⟨m', ?_, ?_⟩
      · rw [itoaReverse, if_pos (by omega), first, last, next_of_lt (by omega),
          ← Nat.add_assoc p1, previous_succ (by omega), Nat.add_assoc p1]
        exact reversed
      · rw [List.reverse_cons, List.reverse_append, List.reverse_singleton,
          List.singleton_append, List.cons_append]
        apply stored_between
        rw [List.length_reverse]
        exact stored

/-! ## itoa -/

/-- Behind the sign, `itoa` stores the digits in reading order and a zero
byte. -/
theorem itoaUnsigned_stores {fuel base d buffer : Nat} {digits : List Nat}
    (loop : LoopDigits base d 0 digits) (m : Memory)
    (enough : digits.length < fuel) (positive : digits ≠ [])
    (fits : buffer + digits.length < 2 ^ 32) :
    ∃ m', itoaUnsigned fuel base m buffer d = some m' ∧
      Stored m m' buffer (written digits ++ [0]) := by
  obtain ⟨m₁, looped, stored⟩ :=
    itoaDigits_stores loop m (Nat.le_of_lt enough) fits
  have ended : Stored m (Function.update m₁ (buffer + digits.length) 0) buffer
      (digits.map digitByte ++ [0]) := by
    apply stored.append
    rw [List.length_map]
    exact Stored.single ..
  have count := List.length_pos_of_ne_nil positive
  have stop : buffer + digits.length - 1 + 1 =
      buffer + (digits.map digitByte).length := by
    rw [List.length_map]
    omega
  obtain ⟨m₂, reversed, turned⟩ := itoaReverse_stores (digits.map digitByte)
    (show _ < fuel by rwa [List.length_map]) stop (by omega)
    (holdsBytes_append.mp ended.holds).1
  refine ⟨m₂, ?_, ended.overwrite turned (List.length_reverse ..)⟩
  have back : previous (buffer + digits.length) = buffer + digits.length - 1 := by
    have step := previous_succ
      (show buffer + digits.length - 1 < 2 ^ 32 by omega)
    rwa [show buffer + digits.length - 1 + 1 = buffer + digits.length by omega]
      at step
  simp only [itoaUnsigned, looped, Option.bind_eq_bind, Option.bind_some, back,
    reversed]

/-- In base 10 `itoa` stores the numeral of the `int`. -/
theorem itoa_decimal {fuel buffer : Nat} {num : Int} (m : Memory)
    (enough : 21 ≤ fuel) (fits : buffer + 21 ≤ 2 ^ 32) (low : -2 ^ 31 ≤ num)
    (high : num < 2 ^ 31) :
    ∃ m', itoa fuel m buffer 10 num = some m' ∧
      Stored m m' buffer (signedNumeral 10 num ++ [0]) := by
  have size : (leastDigits 10 num.natAbs).length ≤ 10 :=
    length_leastDigits_le (by omega) (by omega) (by omega)
  have start := toUnsigned_natAbs low high
  unfold itoa signedNumeral
  by_cases negative : num < 0
  · rw [if_pos negative] at start
    rw [if_pos ⟨rfl, negative⟩, if_pos negative, next_of_lt (by omega), start]
    obtain ⟨m', printed, stored⟩ := itoaUnsigned_stores
      (loopDigits_decimal num.natAbs 0) (Function.update m buffer 45)
      (show _ < fuel by omega) leastDigits_ne_nil
      (show buffer + 1 + _ < 2 ^ 32 by omega)
    exact ⟨m', printed, stored.cons⟩
  · rw [if_neg negative] at start
    rw [if_neg fun both => negative both.2, if_neg negative, start]
    exact itoaUnsigned_stores (loopDigits_decimal num.natAbs 0) m (by omega)
      leastDigits_ne_nil (by omega)

/-- In base 16 it stores the eight digits of the number as unsigned. -/
theorem itoa_hex {fuel buffer : Nat} (num : Int) (m : Memory)
    (enough : 21 ≤ fuel) (fits : buffer + 21 ≤ 2 ^ 32) :
    ∃ m', itoa fuel m buffer 16 num = some m' ∧
      Stored m m' buffer (fixedNumeral 16 8 (toUnsigned num) ++ [0]) := by
  have size : (lastDigits 16 8 (toUnsigned num)).length = 8 :=
    length_lastDigits ..
  have loop : LoopDigits 16 (toUnsigned num) 0
      (lastDigits 16 8 (toUnsigned num)) := loopDigits_hex 7 _ (by omega)
  unfold itoa
  rw [if_neg fun both => absurd both.1 (by decide)]
  exact itoaUnsigned_stores loop m (by omega)
    (List.ne_nil_of_length_pos (by omega)) (by omega)

/-! ## serial_write -/

/-- `serial_write` sends the characters of a string and leaves memory alone. -/
theorem serialWrite_sends {text : List UInt8} :
    ∀ {fuel str : Nat} {s : SerialState}, HoldsString 32 s.memory str text →
      text.length < fuel →
      serialWrite fuel str s = some { s with sent := s.sent ++ text } := by
  induction text with
  | nil =>
      intro fuel str s holds enough
      obtain ⟨fuel, rfl⟩ : ∃ k, fuel = k + 1 := ⟨fuel - 1, by omega⟩
      rw [serialWrite, if_pos holds.first_nil, List.append_nil]
  | cons c text inductionHypothesis =>
      intro fuel str s holds enough
      rw [List.length_cons] at enough
      obtain ⟨fuel, rfl⟩ : ∃ k, fuel = k + 1 := ⟨fuel - 1, by omega⟩
      have first : s.memory str = c := holds.first_cons
      have rest : HoldsString 32 (serialPutchar c s).memory (next str) text :=
        holds.tail
      rw [serialWrite, first, if_neg holds.head_ne_zero,
        inductionHypothesis rest (by omega)]
      simp [serialPutchar]

end SampoOS.Kickstart.Serial
