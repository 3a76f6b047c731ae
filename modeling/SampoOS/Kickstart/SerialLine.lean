/-
Module: SampoOS.Kickstart.SerialLine
Purpose: What reaches the serial line after a successful set-up: the texts of all
  calls, each character once and in order.
Trusted boundary: the port accesses of util.h, and the chip behind them as far as Uart
  describes it.
Main exports: PrintCall, printCalls, CallsReady, printCalls_replays,
  serialInit_printCalls, PlainChip
-/
import SampoOS.Kickstart.SerialPort

namespace SampoOS.Kickstart.SerialPort

open ByteMemory (Memory memoryOf)
open PolledOutput (sendAll wait)
open Serial (Item SerialState SameOutside HoldsApart FormatReady bufferLength)

variable {δ : Type}

/-! ## One call -/

/-- A call of `serial_printf`: where its buffer and its format are, and the pieces that
the format and the arguments make. -/
structure PrintCall where
  buffer : Nat
  format : Nat
  items : List Item

namespace PrintCall

/-- The text that the call sends. -/
def text (call : PrintCall) : List UInt8 := call.items.flatMap Item.sent

/-- The fuel that the call needs. -/
def steps (call : PrintCall) : Nat :=
  (call.items.map Item.steps).sum + call.items.length + 1

end PrintCall

/-- A string stays apart from one buffer when memory changes in another one that it is
apart from. -/
theorem holdsApart_congr {buffer other a : Nat} {text : List UInt8} {m m' : Memory}
    (kept : HoldsApart buffer m a text) (apart : HoldsApart other m a text)
    (same : SameOutside other m m') : HoldsApart buffer m' a text :=
  ⟨(apart.congr same).holds, kept.apart⟩

theorem formatReady_congr {buffer other format : Nat} {items : List Item}
    {m m' : Memory} (ready : FormatReady buffer format items m)
    (apart : FormatReady other format items m) (same : SameOutside other m m') :
    FormatReady buffer format items m' where
  room := ready.room
  text := holdsApart_congr ready.text apart.text same
  strings := by
    intro item inside
    have string := ready.strings item inside
    have stringApart := apart.strings item inside
    cases item with
    | string pointer text => exact holdsApart_congr string stringApart same
    | _ => trivial

/-- The loop of `serial_printf` changes memory at most in the buffer. -/
theorem serialPrintfFrom_sameOutside {limit buffer : Nat} {items : List Item}
    (fits : buffer + 21 ≤ 2 ^ 32) (enough : ∀ item ∈ items, item.steps ≤ limit) :
    ∀ {fuel iter : Nat} {s s' : SerialState}, items.length < fuel →
      HoldsApart buffer s.memory iter (items.flatMap Item.format) →
      (∀ item ∈ items, item.Ready buffer s.memory) →
      Serial.serialPrintfFrom limit buffer fuel iter (items.flatMap Item.words) s =
        some s' → SameOutside buffer s.memory s'.memory := by
  induction items with
  | nil =>
      intro fuel iter s s' more holds _ ran
      obtain ⟨fuel, rfl⟩ : ∃ k, fuel = k + 1 := ⟨fuel - 1, by omega⟩
      rw [Serial.serialPrintfFrom, if_pos holds.holds.first_nil] at ran
      obtain rfl := Option.some.inj ran
      exact .refl _ _
  | cons item items inductionHypothesis =>
      intro fuel iter s s' more holds ready ran
      rw [List.length_cons] at more
      obtain ⟨fuel, rfl⟩ : ∃ k, fuel = k + 1 := ⟨fuel - 1, by omega⟩
      rw [List.forall_mem_cons] at enough ready
      obtain ⟨s₁, iter₁, turned, rest, _, same⟩ := Serial.serialPrintfFrom_turn
        fuel (items.flatMap Item.words)
        (show HoldsApart buffer s.memory iter
          (item.format ++ items.flatMap Item.format) from holds)
        ready.1 fits enough.1
      rw [List.flatMap_cons, turned] at ran
      have others := fun other inside => (ready.2 other inside).congr same
      exact same.trans (inductionHypothesis enough.2 (by omega) rest others ran)

/-- A call whose format is ready sends its text and changes memory at most in its
buffer. -/
theorem PrintCall.sends (call : PrintCall) {fuel : Nat} {m : Memory}
    (ready : FormatReady call.buffer call.format call.items m)
    (enough : call.steps ≤ fuel) :
    ∃ m', SameOutside call.buffer m m' ∧
      Serial.serialPrintf fuel call.buffer call.format
        (call.items.flatMap Item.words) ⟨m, []⟩ = some ⟨m', call.text⟩ := by
  rw [PrintCall.steps] at enough
  have turns : ∀ item ∈ call.items, item.steps ≤ fuel := by
    intro item inside
    have part : item.steps ≤ (call.items.map Item.steps).sum :=
      List.le_sum_of_mem (List.mem_map_of_mem inside)
    omega
  obtain ⟨s', ran, sent⟩ := Serial.serialPrintfFrom_sends (s := ⟨m, []⟩) ready.room turns
    (show call.items.length < fuel by omega) ready.text ready.strings
  have same := serialPrintfFrom_sameOutside (s := ⟨m, []⟩) ready.room turns
    (show call.items.length < fuel by omega) ready.text ready.strings ran
  rw [List.nil_append] at sent
  refine ⟨s'.memory, same, ?_⟩
  rw [Serial.serialPrintf, ran, PrintCall.text, ← sent]

/-! ## Runs -/

/-- Calls of `serial_printf`, one after the other. -/
def printCalls (ports : Ports δ) (patience fuel : Nat) :
    List PrintCall → PortState δ → Option (PortState δ)
  | [], s => some s
  | call :: calls, s =>
      (serialPrintf ports patience fuel call.buffer call.format
        (call.items.flatMap Item.words) s).bind (printCalls ports patience fuel calls)

/-- The formats of all calls and their strings are in memory, apart from the buffers of
all calls. -/
def CallsReady (calls : List PrintCall) (m : Memory) : Prop :=
  ∀ call ∈ calls, ∀ other ∈ calls, FormatReady other.buffer call.format call.items m

/-- A run sends the texts of its calls, one after the other. -/
theorem printCalls_replays {calls : List PrintCall} {fuel : Nat} (ports : Ports δ)
    (enough : ∀ call ∈ calls, call.steps ≤ fuel) :
    ∀ {m : Memory}, CallsReady calls m → ∃ m', ∀ patience d,
      printCalls ports patience fuel calls ⟨m, d⟩ =
        (sendAll (transmitter ports) patience (calls.flatMap PrintCall.text) d).map
          (PortState.mk m') := by
  induction calls with
  | nil => exact fun {m} _ => ⟨m, fun _ _ => rfl⟩
  | cons call calls inductionHypothesis =>
      intro m ready
      rw [List.forall_mem_cons] at enough
      have own := ready call List.mem_cons_self call List.mem_cons_self
      obtain ⟨m₁, same, ran⟩ := call.sends own enough.1
      have behind : CallsReady calls m₁ := by
        intro later inside other insideOther
        exact formatReady_congr
          (ready later (List.mem_cons_of_mem _ inside) other
            (List.mem_cons_of_mem _ insideOther))
          (ready later (List.mem_cons_of_mem _ inside) call List.mem_cons_self) same
      obtain ⟨m', rest⟩ := inductionHypothesis enough.2 behind
      refine ⟨m', fun patience d => ?_⟩
      obtain ⟨chars, sent, replayed⟩ :=
        (serialPrintf_replays ran : Replays ports patience _ _ _)
      obtain rfl : call.text = chars := sent
      rw [printCalls, replayed, List.flatMap_cons, PolledOutput.sendAll_append]
      cases sendAll (transmitter ports) patience call.text d with
      | none => rfl
      | some d' => exact rest patience d'

/-- After a `serial_init` that reports success, whatever the registers held before it,
every run of `serial_printf` calls ends, the line gets the texts of the calls, each
character once and in order, and the line stays as it was set up. -/
theorem serialInit_printCalls {ports : Ports δ} (uart : Uart ports) {d started : δ}
    (succeeded : serialInit ports d = (true, started)) {calls : List PrintCall}
    {m : Memory} (ready : CallsReady calls m) :
    ∃ sent, uart.accepted sent = uart.accepted started ++ calls.flatMap PrintCall.text ∧
      uart.registers sent = initialisedRegisters (uart.registers d) ∧
      ∀ᶠ fuel in Filter.atTop, ∃ m',
        printCalls ports fuel fuel calls ⟨m, started⟩ = some ⟨m', sent⟩ := by
  have registers := serialInit_registers uart d
  rw [succeeded] at registers
  obtain ⟨sent, settles, same, texts⟩ := (uart.transmitter_transmits
    (initialisedRegisters_transmitting (uart.registers d))).sendAll_settles
      (calls.flatMap PrintCall.text) registers
  refine ⟨sent, texts, same, ?_⟩
  filter_upwards [settles, Filter.eventually_ge_atTop (calls.map PrintCall.steps).sum]
    with fuel ended enough
  obtain ⟨m', replayed⟩ := printCalls_replays ports (fun call inside =>
    (List.le_sum_of_mem (List.mem_map_of_mem inside)).trans enough) ready
  exact ⟨m', by rw [replayed, ended, Option.map_some]⟩

/-! ## A chip with one character of room -/

/-- A chip that needs some polls to send a character, and loses one that comes
earlier. -/
structure PlainChip where
  registers : Registers
  received : UInt8
  busy : Nat
  line : List UInt8

/-- The chip at `COM1`. -/
def plainPorts : Ports PlainChip where
  outb port val d :=
    if port = com1 then
      if d.registers.latched then { d with registers := d.registers.write 0 val }
      else if d.registers.loopback then { d with received := val }
      else if d.busy = 0 then { d with line := d.line ++ [val], busy := 3 }
      else d
    else { d with registers := d.registers.write (port - com1) val }
  inb port d :=
    if port = com1 + 5 then
      (if d.busy = 0 then 0x20 else 0x00, { d with busy := d.busy - 1 })
    else (d.received, d)

theorem plainPorts_status (d : PlainChip) :
    plainPorts.inb (com1 + 5) d =
      (if d.busy = 0 then 0x20 else 0x00, { d with busy := d.busy - 1 }) := rfl

theorem plainPorts_outb_registers (offset : Nat) (val : UInt8) (d : PlainChip) :
    (plainPorts.outb (com1 + offset) val d).registers =
      d.registers.write offset val := by
  by_cases first : offset = 0
  · subst first
    simp only [plainPorts, Registers.write, Nat.add_zero, if_true]
    by_cases latch : d.registers.latched = true
    · rw [if_pos latch, if_pos latch]
    · rw [if_neg latch, if_neg latch]
      by_cases back : d.registers.loopback = true
      · rw [if_pos back]
      · rw [if_neg back]
        by_cases free : d.busy = 0
        · rw [if_pos free]
        · rw [if_neg free]
  · simp only [plainPorts, if_neg (show ¬com1 + offset = com1 by omega),
      Nat.add_sub_cancel_left]

/-- The polls count the chip down. -/
theorem plainPorts_drains (busy : Nat) :
    ∀ d : PlainChip, d.busy = busy →
      ∃ patience d', wait (transmitter plainPorts) patience d = some d' := by
  induction busy with
  | zero =>
      intro d idle
      refine ⟨1, { d with busy := d.busy - 1 }, ?_⟩
      rw [wait]
      simp [transmitter, isTransmitEmpty, plainPorts_status, idle]
  | succ busy inductionHypothesis =>
      intro d idle
      obtain ⟨patience, d', ended⟩ :=
        inductionHypothesis { d with busy := d.busy - 1 } (by simp [idle])
      refine ⟨patience + 1, d', ?_⟩
      rw [wait]
      simpa [transmitter, isTransmitEmpty, plainPorts_status, idle] using ended

/-- The chip is one of those that the driver can rely on. -/
def plainUart : Uart plainPorts where
  registers := PlainChip.registers
  accepted := PlainChip.line
  empty d := d.busy = 0
  outb_registers offset val d _ := plainPorts_outb_registers offset val d
  inb_registers offset d _ := by
    by_cases status : offset = 5
    · rw [status, plainPorts_status]
    · simp only [plainPorts, if_neg (show ¬com1 + offset = com1 + 5 by omega)]
  status_accepted d := by rw [plainPorts_status]
  status_empty d isSet := by
    rw [plainPorts_status] at isSet ⊢
    by_cases free : d.busy = 0
    · simp [free]
    · simp [free] at isSet
  transmits a d normal free := by
    simp only [plainPorts, if_true, normal.1, normal.2, Bool.false_eq_true, if_false,
      free]
  drains d _ := plainPorts_drains d.busy d rfl

/-- The chip with its divisor latch left open. -/
def openChip : PlainChip :=
  { registers := ⟨1, 0, 5, 0, 0x83, 0⟩, received := 0, busy := 2, line := [] }

/-- A call with the format "%u" and a line feed at 0x1000. -/
def numberLine (n : Nat) (word : n < 2 ^ 32) : PrintCall :=
  { buffer := 0x8000, format := 0x1000
    items := [.unsigned n word, .ordinary 10 (by decide) (by decide)] }

theorem numberLine_ready (n : Nat) (word : n < 2 ^ 32) :
    FormatReady 0x8000 0x1000 (numberLine n word).items
      (memoryOf 0x1000 [37, 117, 10, 0]) where
  room := by decide
  text := by
    change HoldsApart 0x8000 _ 0x1000 [37, 117, 10]
    exact ⟨⟨by decide, by decide +kernel, by decide +kernel⟩, by decide +kernel⟩
  strings := by
    simp only [numberLine, List.forall_mem_cons, Item.Ready]
    exact ⟨trivial, trivial, by simp⟩

/-- Two numbers printed after the set-up. -/
theorem serialInit_printCalls_numbers :
    ∃ sent, plainUart.accepted sent =
        plainUart.accepted (serialInit plainPorts openChip).2 ++
          [numberLine 42 (by decide), numberLine 7 (by decide)].flatMap
            PrintCall.text ∧
      plainUart.registers sent =
        initialisedRegisters (plainUart.registers openChip) ∧
      ∀ᶠ fuel in Filter.atTop, ∃ m',
        printCalls plainPorts fuel fuel
          [numberLine 42 (by decide), numberLine 7 (by decide)]
          ⟨memoryOf 0x1000 [37, 117, 10, 0], (serialInit plainPorts openChip).2⟩ =
            some ⟨m', sent⟩ := by
  refine serialInit_printCalls plainUart rfl ?_
  intro call inside other insideOther
  simp only [List.mem_cons, List.not_mem_nil, or_false] at inside insideOther
  rcases inside with rfl | rfl <;> rcases insideOther with rfl | rfl <;>
    exact numberLine_ready _ _

end SampoOS.Kickstart.SerialPort
