/-
Module: SampoOS.Kickstart.SerialText
Purpose: What a format and its arguments mean as a text, and which formats
  Kickstart's serial_printf prints with that meaning.
Trusted boundary: the serial port takes each character sooner or later.
Main exports: Item, Item.Means, Item.sent, serialPrintfFrom_sends, Prints,
  serialPrintf_prints_iff
-/
import Mathlib.Algebra.Order.BigOperators.Group.List
import SampoOS.Kickstart.Serial

namespace SampoOS.Kickstart.Serial

open ByteMemory (Memory Stored memoryOf)
open CString (HoldsString)
open Numerals

/-! ## Formats and their meaning -/

/-- A piece of a format with the argument that belongs to it: an ordinary
character, `%%`, `%s` with the string at a pointer, `%c` and `%x` and `%u` with
a 32-bit word, or `%d` with an `int` other than the least one. -/
inductive Item where
  | ordinary (c : UInt8) (live : c ≠ 0) (plain : c ≠ 37)
  | percent
  | string (pointer : Nat) (text : List UInt8)
  | char (n : Nat) (word : n < 2 ^ 32)
  | hex (n : Nat) (word : n < 2 ^ 32)
  | decimal (n : Int) (low : -2 ^ 31 < n) (high : n < 2 ^ 31)
  | unsigned (n : Nat) (word : n < 2 ^ 32)

/-- How the piece is spelled in the format. -/
def Item.format : Item → List UInt8
  | .ordinary c _ _ => [c]
  | .percent => [37, 37]
  | .string _ _ => [37, 115]
  | .char _ _ => [37, 99]
  | .hex _ _ => [37, 120]
  | .decimal _ _ _ => [37, 100]
  | .unsigned _ _ => [37, 117]

/-- The argument words that the piece consumes. -/
def Item.words : Item → List Nat
  | .ordinary _ _ _ => []
  | .percent => []
  | .string pointer _ => [pointer]
  | .char n _ => [n]
  | .hex n _ => [n]
  | .decimal n _ _ => [toUnsigned n]
  | .unsigned n _ => [n]

/-- The texts that the piece stands for. -/
def Item.Means : Item → List UInt8 → Prop
  | .ordinary c _ _, text => text = [c]
  | .percent, text => text = [37]
  | .string _ characters, text => text = characters
  | .char n _, text => text = [UInt8.ofNat n]
  | .hex n _, text => IsFixedNumeral 16 8 text n
  | .decimal n _ _, text => IsSignedNumeral 10 text n
  | .unsigned n _, text => IsNumeral 10 text n

/-- The text that `serial_printf` sends for the piece: `%u` goes through an
`int`. -/
def Item.sent : Item → List UInt8
  | .ordinary c _ _ => [c]
  | .percent => [37]
  | .string _ characters => characters
  | .char n _ => [UInt8.ofNat n]
  | .hex n _ => fixedNumeral 16 8 n
  | .decimal n _ _ => signedNumeral 10 n
  | .unsigned n _ => signedNumeral 10 (toSigned n)

/-! ## Memory apart from the buffer -/

/-- Memory has changed at most in the buffer. -/
def SameOutside (buffer : Nat) (m m' : Memory) : Prop :=
  ∀ x, x ∉ Set.Ico buffer (buffer + bufferLength) → m' x = m x

theorem SameOutside.refl (buffer : Nat) (m : Memory) : SameOutside buffer m m :=
  fun _ _ => rfl

theorem SameOutside.trans {buffer : Nat} {m m' m'' : Memory}
    (first : SameOutside buffer m m') (second : SameOutside buffer m' m'') :
    SameOutside buffer m m'' :=
  fun x outside => (second x outside).trans (first x outside)

/-- A string of which no byte lies in the buffer. -/
structure HoldsApart (buffer : Nat) (m : Memory) (a : Nat) (text : List UInt8) :
    Prop where
  holds : HoldsString 32 m a text
  apart : ∀ i ≤ text.length,
    (a + i) % 2 ^ 32 ∉ Set.Ico buffer (buffer + bufferLength)

namespace HoldsApart

variable {buffer a : Nat} {m m' : Memory} {c : UInt8} {text : List UInt8}

theorem tail (kept : HoldsApart buffer m a (c :: text)) :
    HoldsApart buffer m (next a) text where
  holds := kept.holds.tail
  apart := by
    intro i below
    have byte := kept.apart (i + 1) (by rw [List.length_cons]; omega)
    rwa [next, Nat.mod_add_mod, Nat.add_assoc, Nat.add_comm 1 i]

theorem congr (kept : HoldsApart buffer m a text)
    (same : SameOutside buffer m m') : HoldsApart buffer m' a text where
  holds := kept.holds.congr fun i below => same _ (kept.apart i below)
  apart := kept.apart

end HoldsApart

/-- The string that a `%s` refers to is there, apart from the buffer. -/
def Item.Ready (buffer : Nat) (m : Memory) : Item → Prop
  | .string pointer text => HoldsApart buffer m pointer text
  | _ => True

theorem Item.Ready.congr {buffer : Nat} {m m' : Memory} {item : Item}
    (ready : item.Ready buffer m) (same : SameOutside buffer m m') :
    item.Ready buffer m' := by
  cases item with
  | string pointer text => exact HoldsApart.congr ready same
  | _ => trivial

/-- The steps that the loops inside a turn take for the piece. -/
def Item.steps : Item → Nat
  | .string _ text => text.length + 1
  | _ => bufferLength

/-! ## One piece -/

/-- A number printed into the buffer and sent. -/
theorem printNumber_sends {fuel buffer base : Nat} {num : Int} {s : SerialState}
    {text : List UInt8} {m' : Memory} (enough : 21 ≤ fuel)
    (fits : buffer + 21 ≤ 2 ^ 32)
    (printed : itoa fuel s.memory buffer base num = some m')
    (stored : Stored s.memory m' buffer (text ++ [0])) (short : text.length ≤ 20)
    (noNul : ∀ byte ∈ text, byte ≠ 0) :
    printNumber fuel buffer base num s =
        some { memory := m', sent := s.sent ++ text } ∧
      SameOutside buffer s.memory m' := by
  have holds : HoldsString 32 m' buffer text :=
    HoldsString.of_holdsBytes stored.holds noNul (by omega)
  constructor
  · simp only [printNumber, printed, Option.bind_eq_bind, Option.bind_some]
    exact serialWrite_sends (s := { s with memory := m' }) holds (by omega)
  · intro x outside
    rw [Set.mem_Ico, bufferLength] at outside
    apply stored.outside x
    rw [List.length_append, List.length_singleton]
    omega

theorem printNumber_decimal {fuel buffer : Nat} {num : Int} (s : SerialState)
    (enough : 21 ≤ fuel) (fits : buffer + 21 ≤ 2 ^ 32) (low : -2 ^ 31 ≤ num)
    (high : num < 2 ^ 31) :
    ∃ s', printNumber fuel buffer 10 num s = some s' ∧
      s'.sent = s.sent ++ signedNumeral 10 num ∧
      SameOutside buffer s.memory s'.memory := by
  obtain ⟨m', printed, stored⟩ := itoa_decimal s.memory enough fits low high
  have size : (signedNumeral 10 num).length ≤ 10 + 1 :=
    length_signedNumeral_le (by omega) (by omega) (by omega)
  obtain ⟨sends, same⟩ := printNumber_sends enough fits printed stored
    (by omega) (signedNumeral_ne_zero (by omega) (by omega) num)
  exact ⟨_, sends, rfl, same⟩

theorem printNumber_hex {fuel buffer : Nat} (num : Int) (s : SerialState)
    (enough : 21 ≤ fuel) (fits : buffer + 21 ≤ 2 ^ 32) :
    ∃ s', printNumber fuel buffer 16 num s = some s' ∧
      s'.sent = s.sent ++ fixedNumeral 16 8 (toUnsigned num) ∧
      SameOutside buffer s.memory s'.memory := by
  obtain ⟨m', printed, stored⟩ := itoa_hex num s.memory enough fits
  obtain ⟨sends, same⟩ := printNumber_sends enough fits printed stored
    (by rw [fixedNumeral, length_written, length_lastDigits]; omega)
    (ne_zero_of_digits (show 16 ≤ 36 by omega)
      (mem_written (lastDigits_lt (by omega))))
  exact ⟨_, sends, rfl, same⟩

/-- The switch sends the text of a conversion and consumes its argument. -/
theorem convert_sends {fuel buffer : Nat} {k : UInt8} {item : Item}
    {s : SerialState} (args : List Nat) (spelled : item.format = [37, k])
    (ready : item.Ready buffer s.memory) (fits : buffer + 21 ≤ 2 ^ 32)
    (enough : item.steps ≤ fuel) :
    ∃ s', convert fuel buffer k (item.words ++ args) s = some (args, s') ∧
      s'.sent = s.sent ++ item.sent ∧
      SameOutside buffer s.memory s'.memory := by
  cases item with
  | ordinary c live plain => simp [Item.format] at spelled
  | percent =>
      obtain rfl : 37 = k := by simpa [Item.format] using spelled
      exact ⟨_, rfl, rfl, SameOutside.refl _ _⟩
  | string pointer text =>
      obtain rfl : 115 = k := by simpa [Item.format] using spelled
      have written := serialWrite_sends (HoldsApart.holds ready)
        (show text.length < fuel from enough)
      refine ⟨{ s with sent := s.sent ++ text }, ?_, rfl, SameOutside.refl _ _⟩
      simp [convert, Item.words, written]
  | char n word =>
      obtain rfl : 99 = k := by simpa [Item.format] using spelled
      exact ⟨_, rfl, rfl, SameOutside.refl _ _⟩
  | hex n word =>
      obtain rfl : 120 = k := by simpa [Item.format] using spelled
      obtain ⟨s', printed, sent, same⟩ :=
        printNumber_hex (toSigned n) s enough fits
      rw [toUnsigned_toSigned word] at sent
      refine ⟨s', ?_, sent, same⟩
      simp [convert, Item.words, printed]
  | decimal n low high =>
      obtain rfl : 100 = k := by simpa [Item.format] using spelled
      obtain ⟨s', printed, sent, same⟩ :=
        printNumber_decimal s enough fits (Int.le_of_lt low) high
      refine ⟨s', ?_, sent, same⟩
      simp [convert, Item.words, toSigned_toUnsigned low high, printed]
  | unsigned n word =>
      obtain rfl : 117 = k := by simpa [Item.format] using spelled
      obtain ⟨low, high⟩ := toSigned_range word
      obtain ⟨s', printed, sent, same⟩ := printNumber_decimal s enough fits low high
      refine ⟨s', ?_, sent, same⟩
      simp [convert, Item.words, printed]

/-! ## The whole format -/

/-- A piece is an ordinary character or `%` and one more character. -/
theorem Item.spelled (item : Item) :
    (∃ c live plain, item = .ordinary c live plain) ∨
      ∃ k, item.format = [37, k] := by
  cases item with
  | ordinary c live plain => exact Or.inl ⟨c, live, plain, rfl⟩
  | _ => exact Or.inr ⟨_, rfl⟩

/-- One turn of the loop sends the text of one piece, and goes on behind it with
the arguments that are left. -/
theorem serialPrintfFrom_turn {limit buffer iter : Nat} {item : Item}
    {s : SerialState} {text : List UInt8} (fuel : Nat) (args : List Nat)
    (holds : HoldsApart buffer s.memory iter (item.format ++ text))
    (ready : item.Ready buffer s.memory) (fits : buffer + 21 ≤ 2 ^ 32)
    (enough : item.steps ≤ limit) :
    ∃ s' iter',
      serialPrintfFrom limit buffer (fuel + 1) iter (item.words ++ args) s =
          serialPrintfFrom limit buffer fuel iter' args s' ∧
        HoldsApart buffer s'.memory iter' text ∧
        s'.sent = s.sent ++ item.sent ∧
        SameOutside buffer s.memory s'.memory := by
  rcases item.spelled with ⟨c, live, plain, rfl⟩ | ⟨k, spelled⟩
  · have first : s.memory iter = c := holds.holds.first_cons
    refine ⟨serialPutchar c s, next iter, ?_, holds.tail, rfl,
      SameOutside.refl _ _⟩
    rw [serialPrintfFrom, first, if_neg live, if_neg plain]
    rfl
  · rw [spelled] at holds
    have first : s.memory iter = 37 := holds.holds.first_cons
    have second : s.memory (next iter) = k := holds.tail.holds.first_cons
    obtain ⟨s', converted, sent, same⟩ :=
      convert_sends args spelled ready fits enough
    refine ⟨s', next (next iter), ?_, holds.tail.tail.congr same, sent, same⟩
    rw [serialPrintfFrom, first, second, if_neg (by decide), if_pos rfl,
      if_neg holds.tail.holds.head_ne_zero, converted, Option.bind_some]

/-- `serial_printf` sends the texts of the pieces, one after the other.  The
induction is on the pieces; memory outside the buffer keeps the rest of the
format and the strings. -/
theorem serialPrintfFrom_sends {limit buffer : Nat} {items : List Item}
    (fits : buffer + 21 ≤ 2 ^ 32)
    (enough : ∀ item ∈ items, item.steps ≤ limit) :
    ∀ {fuel iter : Nat} {s : SerialState}, items.length < fuel →
      HoldsApart buffer s.memory iter (items.flatMap Item.format) →
      (∀ item ∈ items, item.Ready buffer s.memory) →
      ∃ s', serialPrintfFrom limit buffer fuel iter
          (items.flatMap Item.words) s = some s' ∧
        s'.sent = s.sent ++ items.flatMap Item.sent := by
  induction items with
  | nil =>
      intro fuel iter s more holds _
      obtain ⟨fuel, rfl⟩ : ∃ k, fuel = k + 1 := ⟨fuel - 1, by omega⟩
      exact ⟨s, by rw [serialPrintfFrom, if_pos holds.holds.first_nil],
        (List.append_nil _).symm⟩
  | cons item items inductionHypothesis =>
      intro fuel iter s more holds ready
      rw [List.length_cons] at more
      obtain ⟨fuel, rfl⟩ : ∃ k, fuel = k + 1 := ⟨fuel - 1, by omega⟩
      rw [List.forall_mem_cons] at enough ready
      obtain ⟨s₁, iter₁, turned, rest, sent, same⟩ := serialPrintfFrom_turn
        fuel (items.flatMap Item.words)
        (show HoldsApart buffer s.memory iter
          (item.format ++ items.flatMap Item.format) from holds)
        ready.1 fits enough.1
      obtain ⟨s', ran, text⟩ := inductionHypothesis enough.2
        (show _ < fuel by omega) rest fun other inside => (ready.2 other inside).congr same
      refine ⟨s', ?_, ?_⟩
      · rw [List.flatMap_cons, turned, ran]
      · rw [text, sent, List.flatMap_cons, List.append_assoc]

/-- With enough fuel, however much more, the run ends and has sent these
characters. -/
def Sends (run : Nat → Option SerialState) (sent : List UInt8) : Prop :=
  ∃ bound, ∀ fuel ≥ bound, ∃ s', run fuel = some s' ∧ s'.sent = sent

theorem Sends.unique {run : Nat → Option SerialState} {sent sent' : List UInt8}
    (sends : Sends run sent) (sends' : Sends run sent') : sent = sent' := by
  obtain ⟨bound, ends⟩ := sends
  obtain ⟨bound', ends'⟩ := sends'
  obtain ⟨s₁, ran₁, rfl⟩ := ends (bound + bound') (by omega)
  obtain ⟨s₂, ran₂, rfl⟩ := ends' (bound + bound') (by omega)
  rw [ran₁, Option.some.injEq] at ran₂
  rw [ran₂]

/-- The format that the pieces spell and the strings of `%s` are in memory, apart
from the buffer. -/
structure FormatReady (buffer format : Nat) (items : List Item) (m : Memory) :
    Prop where
  room : buffer + bufferLength ≤ 2 ^ 32
  text : HoldsApart buffer m format (items.flatMap Item.format)
  strings : ∀ item ∈ items, item.Ready buffer m

/-- `serial_printf` returns, and has sent the text of each piece. -/
theorem serialPrintf_sends {buffer format : Nat} {items : List Item}
    {s : SerialState} (ready : FormatReady buffer format items s.memory) :
    Sends
      (fun fuel => serialPrintf fuel buffer format (items.flatMap Item.words) s)
      (s.sent ++ items.flatMap Item.sent) := by
  refine ⟨(items.map Item.steps).sum + items.length + 1, ?_⟩
  intro fuel enough
  refine serialPrintfFrom_sends ready.room ?_ (by omega) ready.text ready.strings
  intro item inside
  have part : item.steps ≤ (items.map Item.steps).sum :=
    List.le_sum_of_mem (List.mem_map_of_mem inside)
  omega

/-! ## What is sent against what is meant -/

/-- What `serial_printf` promises: the characters sent are the texts that the
pieces mean, one after the other. -/
def Prints (buffer format : Nat) (items : List Item) (s : SerialState) : Prop :=
  ∃ texts, List.Forall₂ Item.Means items texts ∧
    Sends
      (fun fuel => serialPrintf fuel buffer format (items.flatMap Item.words) s)
      (s.sent ++ texts.flatten)

/-- A `%u` whose number is negative as an `int`. -/
def Item.turnsNegative : Item → Bool
  | .unsigned n _ => decide (2 ^ 31 ≤ n)
  | _ => false

/-- Every other piece is sent as it is meant. -/
theorem Item.means_sent {item : Item} (stays : item.turnsNegative = false) :
    item.Means item.sent := by
  cases item with
  | hex n word =>
      exact isFixedNumeral_fixedNumeral (by omega) (by omega) (by omega)
  | decimal n low high =>
      exact isSignedNumeral_signedNumeral (by omega) (by omega) n
  | unsigned n word =>
      have small : n < 2 ^ 31 := by simpa [Item.turnsNegative] using stays
      rw [Item.sent, toSigned_of_lt small, signedNumeral, if_neg (by omega),
        Int.natAbs_natCast]
      exact isNumeral_numeral (by omega) (by omega) n
  | _ => rfl

/-- The text sent for a piece has one minus sign more than a text it means if
the piece is a `%u` whose number is negative as an `int`, and else as many. -/
theorem Item.count_minus {item : Item} {text : List UInt8}
    (means : item.Means text) :
    item.sent.count 45 = text.count 45 + item.turnsNegative.toNat := by
  cases item with
  | hex n word =>
      have sent : IsFixedNumeral 16 8 (fixedNumeral 16 8 n) n :=
        isFixedNumeral_fixedNumeral (by omega) (by omega) (by omega)
      rw [Item.sent, count_minus_of_digits (by omega) sent.digits,
        count_minus_of_digits (by omega) (IsFixedNumeral.digits means)]
      rfl
  | decimal n low high =>
      rw [Item.sent, IsSignedNumeral.count_minus (by omega)
          (isSignedNumeral_signedNumeral (by omega) (by omega) n),
        IsSignedNumeral.count_minus (by omega) means]
      rfl
  | unsigned n word =>
      rw [Item.sent, IsSignedNumeral.count_minus (by omega)
          (isSignedNumeral_signedNumeral (by omega) (by omega) (toSigned n)),
        count_minus_of_digits (by omega) (IsNumeral.digits means), toSigned,
        Item.turnsNegative]
      by_cases small : n < 2 ^ 31
      · rw [if_pos small, if_neg (by omega), decide_eq_false (by omega)]
        rfl
      · rw [if_neg small, if_pos (by omega), decide_eq_true (by omega)]
        rfl
  | _ =>
      obtain rfl := means
      rfl

theorem count_minus_flatMap {items : List Item} {texts : List (List UInt8)}
    (means : List.Forall₂ Item.Means items texts) :
    (items.flatMap Item.sent).count 45 =
      texts.flatten.count 45 + items.countP Item.turnsNegative := by
  induction means with
  | nil => rfl
  | cons first _ inductionHypothesis =>
      rw [List.flatMap_cons, List.count_append, List.flatten_cons,
        List.count_append, inductionHypothesis, Item.count_minus first,
        List.countP_cons]
      cases Item.turnsNegative _ <;> simp <;> omega

/-- A number from 2^31 on that is given to `%u` does not print as it is
meant. -/
theorem Prints.small {buffer format : Nat} {items : List Item} {s : SerialState}
    (prints : Prints buffer format items s)
    (ready : FormatReady buffer format items s.memory) {n : Nat}
    {word : n < 2 ^ 32} (inside : Item.unsigned n word ∈ items) : n < 2 ^ 31 := by
  obtain ⟨texts, means, promised⟩ := prints
  have same := List.append_cancel_left
    ((serialPrintf_sends ready).unique promised)
  have count := count_minus_flatMap means
  rw [same] at count
  have none_negative : items.countP Item.turnsNegative = 0 := by omega
  have stays := List.countP_eq_zero.mp none_negative _ inside
  simpa [Item.turnsNegative] using stays

/-- `serial_printf` prints what the format says exactly if no `%u` is given a
number from 2^31 on. -/
theorem serialPrintf_prints_iff {buffer format : Nat} {items : List Item}
    {s : SerialState} (ready : FormatReady buffer format items s.memory) :
    Prints buffer format items s ↔
      ∀ n word, Item.unsigned n word ∈ items → n < 2 ^ 31 := by
  constructor
  · exact fun prints n word inside => prints.small ready inside
  · intro small
    refine ⟨items.map Item.sent, ?_, serialPrintf_sends ready⟩
    rw [List.forall₂_map_right_iff, List.forall₂_same]
    intro item inside
    apply Item.means_sent
    cases item with
    | unsigned n word =>
        have below := small n word inside
        simpa [Item.turnsNegative] using below
    | _ => rfl

/-- "%s=%u" with the string "n" and the number 42. -/
theorem serialPrintf_prints_assignment :
    Prints 0x8000 0x1000
        [.string 0x1006 [110], .ordinary 61 (by decide) (by decide),
          .unsigned 42 (by decide)]
        ⟨memoryOf 0x1000 [37, 115, 61, 37, 117, 0, 110, 0], []⟩ ↔
      ∀ n word, Item.unsigned n word ∈
          [Item.string 0x1006 [110], .ordinary 61 (by decide) (by decide),
            .unsigned 42 (by decide)] → n < 2 ^ 31 :=
  serialPrintf_prints_iff
    { room := by decide
      text := ⟨⟨by decide, by decide +kernel, by decide +kernel⟩,
        by decide +kernel⟩
      strings := by
        simp only [List.forall_mem_cons, Item.Ready]
        exact ⟨⟨⟨by decide, by decide +kernel, by decide +kernel⟩,
          by decide +kernel⟩, trivial, trivial, by simp⟩ }

/-- The format "%u" at 0x1000. -/
def unsignedFormat : SerialState := ⟨memoryOf 0x1000 [37, 117, 0], []⟩

/-- The piece "%u" with the number 2^32 - 1. -/
def allOnes : Item := .unsigned (2 ^ 32 - 1) (by decide)

/-- "%u" with the number 2^32 - 1 sends "-1". -/
theorem serialPrintf_prints_negative :
    FormatReady 0x8000 0x1000 [allOnes] unsignedFormat.memory ∧
      Sends
        (fun fuel => serialPrintf fuel 0x8000 0x1000 [2 ^ 32 - 1] unsignedFormat)
        [45, 49] ∧
      ¬Prints 0x8000 0x1000 [allOnes] unsignedFormat := by
  have ready : FormatReady 0x8000 0x1000 [allOnes] unsignedFormat.memory :=
    { room := by decide
      text := ⟨⟨by decide, by decide +kernel, by decide +kernel⟩,
        by decide +kernel⟩
      strings := by
        rw [List.forall_mem_singleton]
        trivial }
  refine ⟨ready, ?_, ?_⟩
  · have sends := serialPrintf_sends ready
    have value : toSigned (2 ^ 32 - 1) = -1 := by decide
    have digits : numeral 10 1 = [49] := by
      rw [numeral, leastDigits_of_lt (by omega)]
      rfl
    have text : allOnes.sent = [45, 49] := by
      rw [allOnes, Item.sent, value, signedNumeral, if_pos (by decide)]
      exact congrArg _ digits
    rwa [List.flatMap_singleton, List.flatMap_singleton, text] at sends
  · intro prints
    have inside : Item.unsigned (2 ^ 32 - 1) (by decide) ∈ [allOnes] :=
      List.mem_cons_self
    have small := prints.small ready inside
    omega

end SampoOS.Kickstart.Serial
