/-
Module: SampoOS.Kickstart.SerialPort
Purpose: serial.c down to its port accesses: the set-up of the chip, the wait for the
  transmitter, and the texts that reach the line.
Trusted boundary: the port accesses of util.h, and the chip behind them as far as Uart
  describes it.
Main exports: Ports, serialInit, serialPrintf, Uart, serialInit_registers,
  Uart.transmitter_transmits, serialPrintf_replays
-/
import SampoOS.Kickstart.SerialText
import SampoOS.Lib.PolledOutput

namespace SampoOS.Kickstart.SerialPort

open ByteMemory (Memory)
open PolledOutput (Device wait send sendAll Transmits sendAll_append sendAll_singleton)
open Serial (SerialState next previous toSigned itoa)

/-! ## util.h -/

/-- The port accesses, on a machine whose devices are in a state of `δ`.  What the
devices do on their own between two accesses is part of the later one. -/
structure Ports (δ : Type) where
  outb : Nat → UInt8 → δ → δ
  inb : Nat → δ → UInt8 × δ

variable {δ : Type}

/-! ## serial.c -/

/-- `COM1`. -/
def com1 : Nat := 0x3f8

/-- `serial_init`. -/
def serialInit (ports : Ports δ) (d : δ) : Bool × δ :=
  let d := ports.outb (com1 + 1) 0x00 d
  let d := ports.outb (com1 + 3) 0x80 d
  let d := ports.outb (com1 + 0) 0x03 d
  let d := ports.outb (com1 + 1) 0x00 d
  let d := ports.outb (com1 + 3) 0x03 d
  let d := ports.outb (com1 + 2) 0xC7 d
  let d := ports.outb (com1 + 4) 0x0B d
  let d := ports.outb (com1 + 4) 0x1E d
  let d := ports.outb (com1 + 0) 0xAE d
  let received := ports.inb (com1 + 0) d
  if received.1 ≠ 0xAE then (false, received.2)
  else (true, ports.outb (com1 + 4) 0x0F received.2)

/-- `is_transmit_empty`. -/
def isTransmitEmpty (ports : Ports δ) (d : δ) : Bool × δ :=
  let status := ports.inb (com1 + 5) d
  ((status.1 &&& 0x20) != 0, status.2)

/-- What `serial_putchar` polls, and where it puts the character. -/
def transmitter (ports : Ports δ) : Device δ UInt8 where
  poll := isTransmitEmpty ports
  put := ports.outb com1

/-- Memory, and the devices. -/
structure PortState (δ : Type) where
  memory : Memory
  device : δ

/-- `serial_putchar`; the wait ends after as many polls as there is patience for. -/
def serialPutchar (ports : Ports δ) (patience : Nat) (a : UInt8) (s : PortState δ) :
    Option (PortState δ) :=
  (send (transmitter ports) patience a s.device).map (PortState.mk s.memory)

/-- `serial_write`; the loop runs as long as there is fuel. -/
def serialWrite (ports : Ports δ) (patience : Nat) :
    Nat → Nat → PortState δ → Option (PortState δ)
  | 0, _, _ => none
  | fuel + 1, str, s =>
      if s.memory str = 0 then some s
      else
        (serialPutchar ports patience (s.memory str) s).bind
          (serialWrite ports patience fuel (next str))

/-- A conversion that prints a number into `buffer` and sends it. -/
def printNumber (ports : Ports δ) (patience fuel buffer base : Nat) (num : Int)
    (s : PortState δ) : Option (PortState δ) :=
  (itoa fuel s.memory buffer base num).bind fun m =>
    serialWrite ports patience fuel buffer { s with memory := m }

/-- The switch of `serial_printf`, on the character behind `%`; the arguments that are
left come with the result.  There is no result when a conversion has no argument. -/
def convert (ports : Ports δ) (patience fuel buffer : Nat) (c : UInt8)
    (args : List Nat) (s : PortState δ) : Option (List Nat × PortState δ) :=
  if c = 37 then (serialPutchar ports patience 37 s).map (args, ·)
  else if c = 115 then
    args.head?.bind fun word =>
      (serialWrite ports patience fuel word s).map (args.tail, ·)
  else if c = 99 then
    args.head?.bind fun word =>
      (serialPutchar ports patience (UInt8.ofNat word) s).map (args.tail, ·)
  else if c = 120 then
    args.head?.bind fun word =>
      (printNumber ports patience fuel buffer 16 (toSigned word) s).map (args.tail, ·)
  else if c = 100 then
    args.head?.bind fun word =>
      (printNumber ports patience fuel buffer 10 (toSigned word) s).map (args.tail, ·)
  else if c = 117 then
    args.head?.bind fun word =>
      (printNumber ports patience fuel buffer 10 (toSigned word) s).map (args.tail, ·)
  else some (args, s)

/-- The loop of `serial_printf`, at `iter`; each turn may use `limit` steps of its
own. -/
def serialPrintfFrom (ports : Ports δ) (patience limit buffer : Nat) :
    Nat → Nat → List Nat → PortState δ → Option (PortState δ)
  | 0, _, _, _ => none
  | fuel + 1, iter, args, s =>
      if s.memory iter = 0 then some s
      else if s.memory iter = 37 then
        if s.memory (next iter) = 0 then some s
        else
          (convert ports patience limit buffer (s.memory (next iter)) args s).bind
            fun result =>
              serialPrintfFrom ports patience limit buffer fuel (next (next iter))
                result.1 result.2
      else
        (serialPutchar ports patience (s.memory iter) s).bind
          (serialPrintfFrom ports patience limit buffer fuel (next iter) args)

/-- `serial_printf`, with its `char buffer[21]` at `buffer` and its arguments as
32-bit words. -/
def serialPrintf (ports : Ports δ) (patience fuel buffer format : Nat)
    (args : List Nat) (s : PortState δ) : Option (PortState δ) :=
  serialPrintfFrom ports patience fuel buffer fuel format args s

/-! ## The chip -/

/-- The registers of the chip that the driver writes. -/
structure Registers where
  divisorLow : UInt8
  divisorHigh : UInt8
  interrupts : UInt8
  fifo : UInt8
  line : UInt8
  modem : UInt8
deriving DecidableEq

namespace Registers

/-- The divisor latch is open: the first two ports lead to the divisor. -/
def latched (registers : Registers) : Bool := registers.line &&& 0x80 != 0

/-- What is sent comes back, and does not reach the line. -/
def loopback (registers : Registers) : Bool := registers.modem &&& 0x10 != 0

/-- A byte written to the port with this offset. -/
def write (registers : Registers) (offset : Nat) (val : UInt8) : Registers :=
  match offset with
  | 0 => if registers.latched then { registers with divisorLow := val } else registers
  | 1 =>
      if registers.latched then { registers with divisorHigh := val }
      else { registers with interrupts := val }
  | 2 => { registers with fifo := val }
  | 3 => { registers with line := val }
  | 4 => { registers with modem := val }
  | _ => registers

/-- Characters written to the first port go out on the line. -/
def Transmitting (registers : Registers) : Prop :=
  registers.latched = false ∧ registers.loopback = false

end Registers

/-- The documented behaviour that the driver relies on.  A register keeps what is
written to it; bit 5 of the line status says that the transmitter is empty; the empty
transmitter accepts a character; and it becomes empty again and again. -/
structure Uart (ports : Ports δ) where
  registers : δ → Registers
  accepted : δ → List UInt8
  empty : δ → Prop
  outb_registers : ∀ offset val d, offset < 8 →
    registers (ports.outb (com1 + offset) val d) = (registers d).write offset val
  inb_registers : ∀ offset d, offset < 8 →
    registers (ports.inb (com1 + offset) d).2 = registers d
  status_accepted : ∀ d, accepted (ports.inb (com1 + 5) d).2 = accepted d
  status_empty : ∀ d, (ports.inb (com1 + 5) d).1 &&& 0x20 ≠ 0 →
    empty (ports.inb (com1 + 5) d).2
  transmits : ∀ a d, (registers d).Transmitting → empty d →
    accepted (ports.outb com1 a d) = accepted d ++ [a]
  drains : ∀ d, (registers d).Transmitting →
    ∃ patience d', wait (transmitter ports) patience d = some d'

/-! ## The set-up -/

/-- The registers after a successful `serial_init`: 38400 baud, 8 bits, no parity, one
stop bit, normal operation.  The write that turns the interrupts off goes to the divisor
when the latch is open to begin with. -/
def initialisedRegisters (registers : Registers) : Registers where
  divisorLow := 0x03
  divisorHigh := 0x00
  interrupts := if registers.latched then registers.interrupts else 0x00
  fifo := 0xC7
  line := 0x03
  modem := 0x0F

theorem initialisedRegisters_transmitting (registers : Registers) :
    (initialisedRegisters registers).Transmitting := by
  constructor
  · exact (by decide : ((0x03 : UInt8) &&& 0x80 != 0) = false)
  · exact (by decide : ((0x0F : UInt8) &&& 0x10 != 0) = false)

/-- The writes of `serial_init` up to its test. -/
theorem Registers.write_setUp (registers : Registers) :
    ((((((((registers.write 1 0x00).write 3 0x80).write 0 0x03).write 1 0x00).write 3
      0x03).write 2 0xC7).write 4 0x0B).write 4 0x1E).write 0 0xAE =
      { initialisedRegisters registers with modem := 0x1E } := by
  have closed : (0x03 : UInt8) &&& 0x80 = 0 := by decide
  by_cases latch : registers.line &&& 0x80 = 0 <;>
    simp [Registers.write, Registers.latched, initialisedRegisters, latch, closed]

/-- From whatever the registers hold, `serial_init` leaves the chip transmitting, or
reports that the test failed and leaves it looped back. -/
theorem serialInit_registers {ports : Ports δ} (uart : Uart ports) (d : δ) :
    uart.registers (serialInit ports d).2 =
      { initialisedRegisters (uart.registers d) with
        modem := if (serialInit ports d).1 then 0x0F else 0x1E } := by
  have wrote : ∀ offset < 8, ∀ val d', uart.registers (ports.outb (com1 + offset) val d') =
      (uart.registers d').write offset val :=
    fun offset below val d' => uart.outb_registers offset val d' below
  have read : ∀ d', uart.registers (ports.inb (com1 + 0) d').2 = uart.registers d' :=
    fun d' => uart.inb_registers 0 d' (by decide)
  rw [serialInit]
  split
  · rw [read, wrote 0 (by decide), wrote 4 (by decide), wrote 4 (by decide),
      wrote 2 (by decide), wrote 3 (by decide), wrote 1 (by decide),
      wrote 0 (by decide), wrote 3 (by decide), wrote 1 (by decide),
      Registers.write_setUp]
    rfl
  · rw [wrote 4 (by decide), read, wrote 0 (by decide), wrote 4 (by decide),
      wrote 4 (by decide), wrote 2 (by decide), wrote 3 (by decide),
      wrote 1 (by decide), wrote 0 (by decide), wrote 3 (by decide),
      wrote 1 (by decide), Registers.write_setUp]
    rfl

/-! ## Characters -/

/-- The transmitter of a chip that transmits, as a device that is polled. -/
theorem Uart.transmitter_transmits {ports : Ports δ} (uart : Uart ports)
    {registers : Registers} (open' : registers.Transmitting) :
    Transmits (transmitter ports) (fun d => uart.registers d = registers) uart.empty
      uart.accepted where
  poll_live := fun {d} same => (uart.inb_registers 5 d (by decide)).trans same
  poll_ready := fun {d} _ isEmpty => uart.status_empty d (bne_iff_ne.mp isEmpty)
  poll_accepted := fun {d} _ => uart.status_accepted d
  put_live := fun {d} a same => by
    have wrote := uart.outb_registers 0 a d (by decide)
    rw [same, Registers.write, if_neg (by rw [open'.1]; decide)] at wrote
    exact wrote
  put_accepted := fun {d} a same free => uart.transmits a d (by rwa [same]) free
  drains := fun {d} same => uart.drains d (by rwa [same])

/-! ## The texts -/

/-- A run over the ports does what a run over the list of sent characters does: the
same memory, and the characters one after the other. -/
def Replays (ports : Ports δ) (patience : Nat) (s s' : SerialState)
    (run : PortState δ → Option (PortState δ)) : Prop :=
  ∃ chars, s'.sent = s.sent ++ chars ∧ ∀ d, run ⟨s.memory, d⟩ =
    (sendAll (transmitter ports) patience chars d).map (PortState.mk s'.memory)

namespace Replays

variable {ports : Ports δ} {patience : Nat} {s s' s'' : SerialState}
  {run : PortState δ → Option (PortState δ)}

theorem done (same : ∀ d, run ⟨s.memory, d⟩ = some ⟨s.memory, d⟩) :
    Replays ports patience s s run :=
  ⟨[], (List.append_nil _).symm, same⟩

theorem single (a : UInt8) (s : SerialState) :
    Replays ports patience s (Serial.serialPutchar a s)
      (serialPutchar ports patience a) :=
  ⟨[a], rfl, fun d => by rw [sendAll_singleton]; rfl⟩

theorem trans {behind : PortState δ → Option (PortState δ)}
    (first : Replays ports patience s s' run)
    (second : Replays ports patience s' s'' behind) :
    Replays ports patience s s'' fun p => (run p).bind behind := by
  obtain ⟨chars, sent, ran⟩ := first
  obtain ⟨chars', sent', ran'⟩ := second
  refine ⟨chars ++ chars', by rw [sent', sent, List.append_assoc], fun d => ?_⟩
  dsimp only
  rw [ran, sendAll_append]
  cases sendAll (transmitter ports) patience chars d with
  | none => rfl
  | some d' => exact ran' d'

theorem congr {other : PortState δ → Option (PortState δ)}
    (replays : Replays ports patience s s' run)
    (same : ∀ d, other ⟨s.memory, d⟩ = run ⟨s.memory, d⟩) :
    Replays ports patience s s' other := by
  obtain ⟨chars, sent, ran⟩ := replays
  exact ⟨chars, sent, fun d => (same d).trans (ran d)⟩

end Replays

variable {ports : Ports δ} {patience : Nat}

theorem serialWrite_replays {fuel : Nat} :
    ∀ {str : Nat} {s s' : SerialState}, Serial.serialWrite fuel str s = some s' →
      Replays ports patience s s' (serialWrite ports patience fuel str) := by
  induction fuel with
  | zero => exact fun ran => absurd ran (Option.some_ne_none _).symm
  | succ fuel inductionHypothesis =>
      intro str s s' ran
      rw [Serial.serialWrite] at ran
      by_cases ends : s.memory str = 0
      · rw [if_pos ends] at ran
        obtain rfl := Option.some.inj ran
        exact .done fun d => by rw [serialWrite, if_pos ends]
      · rw [if_neg ends] at ran
        exact ((Replays.single _ s).trans (inductionHypothesis ran)).congr
          fun d => by rw [serialWrite, if_neg ends]

theorem printNumber_replays {fuel buffer base : Nat} {num : Int} {s s' : SerialState}
    (ran : Serial.printNumber fuel buffer base num s = some s') :
    Replays ports patience s s' (printNumber ports patience fuel buffer base num) := by
  rw [Serial.printNumber, Option.bind_eq_bind, Option.bind_eq_some_iff] at ran
  obtain ⟨m, printed, written⟩ := ran
  obtain ⟨chars, sent, same⟩ :=
    (serialWrite_replays written : Replays ports patience _ s' _)
  refine ⟨chars, sent, fun d => ?_⟩
  rw [printNumber, printed, Option.bind_some, same]

/-- A conversion that takes an argument. -/
theorem withArgument_replays {args args' : List Nat} {s s' : SerialState}
    {f : Nat → SerialState → Option SerialState}
    {g : Nat → PortState δ → Option (PortState δ)}
    (each : ∀ word s', f word s = some s' → Replays ports patience s s' (g word))
    (ran : (args.head?.bind fun word => (f word s).bind fun s => some (args.tail, s)) =
      some (args', s')) :
    ∃ run, Replays ports patience s s' run ∧ ∀ p,
      (args.head?.bind fun word => (g word p).map (args.tail, ·)) =
        (run p).map (args', ·) := by
  rw [Option.bind_eq_some_iff] at ran
  obtain ⟨word, head, ran⟩ := ran
  rw [Option.bind_eq_some_iff] at ran
  obtain ⟨after, ran, same⟩ := ran
  obtain ⟨rfl, rfl⟩ := Prod.mk.inj (Option.some.inj same)
  exact ⟨g word, each word after ran, fun p => by rw [head, Option.bind_some]⟩

theorem convert_replays {fuel buffer : Nat} {c : UInt8} {args args' : List Nat}
    {s s' : SerialState} (ran : Serial.convert fuel buffer c args s = some (args', s')) :
    ∃ run, Replays ports patience s s' run ∧ ∀ p,
      convert ports patience fuel buffer c args p = (run p).map (args', ·) := by
  rw [Serial.convert] at ran
  simp only [convert]
  by_cases percent : c = 37
  · rw [if_pos percent, Option.some.injEq, Prod.mk.injEq] at ran
    obtain ⟨rfl, rfl⟩ := ran
    exact ⟨_, .single 37 s, fun p => by rw [if_pos percent]⟩
  simp only [if_neg percent] at ran ⊢
  by_cases string : c = 115
  · simp only [if_pos string] at ran ⊢
    exact withArgument_replays (fun _ _ => serialWrite_replays) ran
  simp only [if_neg string] at ran ⊢
  by_cases char : c = 99
  · simp only [if_pos char] at ran ⊢
    refine withArgument_replays (f := fun word s =>
      some (Serial.serialPutchar (UInt8.ofNat word) s)) ?_ ran
    rintro word _ ⟨⟩
    exact .single _ s
  simp only [if_neg char] at ran ⊢
  by_cases hex : c = 120
  · simp only [if_pos hex] at ran ⊢
    exact withArgument_replays (fun _ _ => printNumber_replays) ran
  simp only [if_neg hex] at ran ⊢
  by_cases decimal : c = 100
  · simp only [if_pos decimal] at ran ⊢
    exact withArgument_replays (fun _ _ => printNumber_replays) ran
  simp only [if_neg decimal] at ran ⊢
  by_cases unsigned : c = 117
  · simp only [if_pos unsigned] at ran ⊢
    exact withArgument_replays (fun _ _ => printNumber_replays) ran
  simp only [if_neg unsigned, Option.some.injEq, Prod.mk.injEq] at ran ⊢
  obtain ⟨rfl, rfl⟩ := ran
  exact ⟨some, .done fun _ => rfl, fun _ => rfl⟩

theorem serialPrintfFrom_replays {limit buffer fuel : Nat} :
    ∀ {iter : Nat} {args : List Nat} {s s' : SerialState},
      Serial.serialPrintfFrom limit buffer fuel iter args s = some s' →
      Replays ports patience s s'
        (serialPrintfFrom ports patience limit buffer fuel iter args) := by
  induction fuel with
  | zero => exact fun ran => absurd ran (Option.some_ne_none _).symm
  | succ fuel inductionHypothesis =>
      intro iter args s s' ran
      rw [Serial.serialPrintfFrom] at ran
      by_cases ends : s.memory iter = 0
      · rw [if_pos ends] at ran
        obtain rfl := Option.some.inj ran
        exact .done fun d => by rw [serialPrintfFrom, if_pos ends]
      rw [if_neg ends] at ran
      by_cases percent : s.memory iter = 37
      · rw [if_pos percent] at ran
        by_cases last : s.memory (next iter) = 0
        · rw [if_pos last] at ran
          obtain rfl := Option.some.inj ran
          exact .done fun d => by
            rw [serialPrintfFrom, if_neg ends, if_pos percent, if_pos last]
        · rw [if_neg last, Option.bind_eq_some_iff] at ran
          obtain ⟨⟨rest, between⟩, converted, ran⟩ := ran
          obtain ⟨run, replays, same⟩ :=
            @convert_replays δ ports patience _ _ _ _ _ _ _ converted
          refine (replays.trans (inductionHypothesis ran)).congr fun d => ?_
          rw [serialPrintfFrom, if_neg ends, if_pos percent, if_neg last, same,
            Option.bind_map]
          rfl
      · rw [if_neg percent] at ran
        exact ((Replays.single _ s).trans (inductionHypothesis ran)).congr fun d => by
          rw [serialPrintfFrom, if_neg ends, if_neg percent]

/-- Over the ports, `serial_printf` leaves the memory that it leaves over the list of
sent characters, and sends the same characters, each after a wait. -/
theorem serialPrintf_replays {fuel buffer format : Nat} {args : List Nat}
    {s s' : SerialState}
    (ran : Serial.serialPrintf fuel buffer format args s = some s') :
    Replays ports patience s s' (serialPrintf ports patience fuel buffer format args) :=
  serialPrintfFrom_replays ran

end SampoOS.Kickstart.SerialPort
