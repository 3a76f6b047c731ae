/-
Module: SampoOS.Lib.LongMode
Purpose: The part of an x86-64 processor that turns on paging and 64-bit mode, and the
  few instructions that software does it with.
Trusted boundary: the manual of the processor; a step that faults, or that leaves the
  part described here, has no result.
Main exports: Cpu, Cpu.physical, Cpu.read, Cpu.store, Instruction, exec, step, run,
  PlacedAt, assemble_placed, Sees, step_of_sees, run_straight, Cpu.Flat,
  Cpu.physical_of_long, Cpu.flat_of_identity, exec_push, exec_pop, exec_call, SameSpace
-/
import SampoOS.Lib.Paging

namespace LongMode

open ByteMemory (Memory loadLe storeLe storeLe_zero storeLe_succ)
open Paging

/-! ## The processor -/

/-- General registers. -/
inductive Register where
  | ax
  | bx
  | cx
  | dx
  | sp
  | bp
  | di
deriving Repr, DecidableEq

/-- Control registers. -/
inductive Control where
  | cr0
  | cr3
  | cr4
deriving Repr, DecidableEq

/-- A processor in ring 0 with flat segments, and its memory.  `wide` says that the code
segment is a 64-bit one. -/
structure Cpu where
  register : Register → Nat
  rip : Nat
  cr0 : Nat
  cr3 : Nat
  cr4 : Nat
  efer : Nat
  gdtBase : Nat
  gdtLimit : Nat
  wide : Bool
  interrupts : Bool
  memory : Memory

namespace Cpu

def set (c : Cpu) (dst : Register) (value : Nat) : Cpu :=
  { c with register := Function.update c.register dst value }

@[simp] theorem set_register_self (c : Cpu) (dst : Register) (value : Nat) :
    (c.set dst value).register dst = value := Function.update_self ..

@[simp] theorem set_register_of_ne (c : Cpu) {dst other : Register}
    (different : other ≠ dst) (value : Nat) :
    (c.set dst value).register other = c.register other :=
  Function.update_of_ne different ..

/-- `CR0.PG`. -/
def paging (c : Cpu) : Bool := c.cr0.testBit 31

/-- `CR0.WP`. -/
def writeProtect (c : Cpu) : Bool := c.cr0.testBit 16

/-- `CR4.PAE`. -/
def addressExtension (c : Cpu) : Bool := c.cr4.testBit 5

/-- `EFER.LME`. -/
def longEnable (c : Cpu) : Bool := c.efer.testBit 8

/-- `EFER.NXE`. -/
def noExecuteEnable (c : Cpu) : Bool := c.efer.testBit 11

/-- The processor is in one of the two modes that use four levels of page tables. -/
def longMode (c : Cpu) : Bool := c.paging && c.longEnable

section Set

variable (c : Cpu) (dst : Register) (value : Nat)

@[simp] theorem set_cr0 : (c.set dst value).cr0 = c.cr0 := rfl

@[simp] theorem set_cr4 : (c.set dst value).cr4 = c.cr4 := rfl

@[simp] theorem set_efer : (c.set dst value).efer = c.efer := rfl

@[simp] theorem set_wide : (c.set dst value).wide = c.wide := rfl

@[simp] theorem set_paging : (c.set dst value).paging = c.paging := rfl

@[simp] theorem set_longEnable : (c.set dst value).longEnable = c.longEnable := rfl

@[simp] theorem set_addressExtension :
    (c.set dst value).addressExtension = c.addressExtension := rfl

@[simp] theorem set_longMode : (c.set dst value).longMode = c.longMode := rfl

end Set

end Cpu

/-! ## Memory accesses -/

/-- What an access is for. -/
inductive Access where
  | fetch
  | read
  | write
deriving Repr, DecidableEq

namespace Cpu

/-- A page allows an access.  Without `EFER.NXE` the no-execute bit is reserved, and no
access goes through an entry that has it. -/
def allows (c : Cpu) (access : Access) (mapping : PageMapping) : Bool :=
  (mapping.executable || c.noExecuteEnable) &&
    match access with
    | .fetch => mapping.executable
    | .read => true
    | .write => mapping.writable || !c.writeProtect

/-- The physical address that an access to a linear address goes to. -/
def physical (c : Cpu) (access : Access) (v : Nat) : Option Nat :=
  if c.paging = false then some v
  else if c.longEnable = false ∨ ¬ Canonical v then none
  else
    (translatePage c.memory (entryFrame c.cr3) v).bind fun mapping =>
      if c.allows access mapping then some (mapping.frame + v % 4096) else none

/-- The value of `n` bytes at a linear address. -/
def read (c : Cpu) (v : Nat) : Nat → Option Nat
  | 0 => some 0
  | n + 1 =>
      (c.read v n).bind fun low => (c.physical .read (v + n)).map fun p =>
        low + (c.memory p).toNat * 256 ^ n

/-- Memory after the low `n` bytes of a value are written to a linear address. -/
def store (c : Cpu) (v value : Nat) : Nat → Option Memory
  | 0 => some c.memory
  | n + 1 =>
      (c.store v value n).bind fun m => (c.physical .write (v + n)).map fun p =>
        Function.update m p (UInt8.ofNat (value / 256 ^ n))

end Cpu

/-! ## Instructions -/

/-- The instructions; those with `Wide` have 64-bit operands. -/
inductive Instruction where
  | mov (dst : Register) (value : Nat)
  | or (dst : Register) (value : Nat)
  | readMsr
  | writeMsr
  | fromControl (dst : Register) (src : Control)
  | toControl (dst : Control) (src : Register)
  | load (dst : Register) (addr : Nat)
  | exchangeSelf (reg : Register)
  | loadGdt (addr : Nat)
  | jumpFar (selector offset : Nat)
  | leaWide (dst : Register) (addr : Nat)
  | jumpThrough (src : Register)
  | movWide (dst src : Register)
  | immediateWide (dst : Register) (value : Nat)
  | push (src : Register)
  | pop (dst : Register)
  | clearInterrupts
  | call (target : Nat)
deriving Repr, DecidableEq

/-- The number of the model-specific register `EFER`. -/
def eferNumber : Nat := 0xC0000080

/-- A descriptor of a present 64-bit code segment for ring 0. -/
def isWideCode (descriptor : Nat) : Bool :=
  descriptor.testBit 43 && descriptor.testBit 44 && !descriptor.testBit 45 &&
    !descriptor.testBit 46 && descriptor.testBit 47 && descriptor.testBit 53 &&
    !descriptor.testBit 54

/-- What an instruction does, `rip` being behind it already. -/
def exec : Instruction → Cpu → Option Cpu
  | .mov dst value, c => some (c.set dst (value % 2 ^ 32))
  | .or dst value, c => some (c.set dst ((c.register dst ||| value) % 2 ^ 32))
  | .readMsr, c =>
      if c.register .cx = eferNumber then
        some ((c.set .ax (c.efer % 2 ^ 32)).set .dx (c.efer / 2 ^ 32))
      else none
  | .writeMsr, c =>
      let value := c.register .dx % 2 ^ 32 * 2 ^ 32 + c.register .ax % 2 ^ 32
      -- Changing LME while paging is on is a general protection fault.
      if c.register .cx ≠ eferNumber ∨
          c.paging = true ∧ value.testBit 8 ≠ c.longEnable then none
      else some { c with efer := value }
  | .fromControl dst src, c =>
      let value := match src with
        | .cr0 => c.cr0
        | .cr3 => c.cr3
        | .cr4 => c.cr4
      some (c.set dst (value % 2 ^ 32))
  | .toControl .cr0 src, c =>
      let value := c.register src
      -- Paging needs protected mode, and in long mode PAE and a code segment that is
      -- not a 64-bit one.
      if value.testBit 31 = true ∧ (value.testBit 0 = false ∨
          c.paging = false ∧ c.longEnable = true ∧
            (c.addressExtension = false ∨ c.wide = true)) then none
      else some { c with cr0 := value }
  | .toControl .cr3 src, c => some { c with cr3 := c.register src }
  | .toControl .cr4 src, c =>
      let value := c.register src
      if c.longMode = true ∧ value.testBit 5 = false then none
      else some { c with cr4 := value }
  | .load dst addr, c => (c.read addr 4).map (c.set dst)
  | .exchangeSelf _, c => some c
  | .loadGdt addr, c =>
      (c.read addr 2).bind fun limit =>
        (c.read (addr + 2) (if c.wide then 8 else 4)).map fun base =>
          { c with gdtBase := base, gdtLimit := limit }
  | .jumpFar selector offset, c =>
      if c.longMode = false ∨ selector % 8 ≠ 0 ∨ selector = 0 ∨
          c.gdtLimit < selector + 7 then none
      else
        (c.read (c.gdtBase + selector) 8).bind fun descriptor =>
          if isWideCode descriptor then some { c with wide := true, rip := offset }
          else none
  | .leaWide dst addr, c => some (c.set dst addr)
  | .jumpThrough src, c =>
      (c.read (c.register src) 8).map fun target => { c with rip := target }
  | .movWide dst src, c => some (c.set dst (c.register src))
  | .immediateWide dst value, c => some (c.set dst value)
  | .push src, c =>
      let sp := (c.register .sp + (2 ^ 64 - 8)) % 2 ^ 64
      (c.store sp (c.register src) 8).map fun m =>
        { c.set .sp sp with memory := m }
  | .pop dst, c =>
      (c.read (c.register .sp) 8).map fun value =>
        (c.set .sp ((c.register .sp + 8) % 2 ^ 64)).set dst value
  | .clearInterrupts, c => some { c with interrupts := false }
  | .call target, c =>
      let sp := (c.register .sp + (2 ^ 64 - 8)) % 2 ^ 64
      (c.store sp c.rip 8).map fun m => { c.set .sp sp with memory := m, rip := target }

/-! ## Runs -/

/-- What is at a physical address: an instruction, and its length. -/
abbrev Code := Nat → Option (Instruction × Nat)

/-- The processor fetches and executes one instruction. -/
def step (code : Code) (c : Cpu) : Option Cpu :=
  (c.physical .fetch c.rip).bind fun p => (code p).bind fun fetched =>
    exec fetched.1 { c with rip := c.rip + fetched.2 }

/-- As many steps. -/
def run (code : Code) : Nat → Cpu → Option Cpu
  | 0, c => some c
  | n + 1, c => (step code c).bind (run code n)

theorem run_add {code : Code} (m n : Nat) : ∀ c : Cpu,
    run code (m + n) c = (run code m c).bind (run code n) := by
  induction m with
  | zero =>
      intro c
      rw [Nat.zero_add, run, Option.bind_some]
  | succ m inductionHypothesis =>
      intro c
      rw [Nat.succ_add, run, run, Option.bind_assoc]
      congr 1
      funext c'
      exact inductionHypothesis c'

/-- Instructions one behind the other, between two addresses. -/
def PlacedAt (code : Code) : Nat → List Instruction → Nat → Prop
  | start, [], stop => start = stop
  | start, instruction :: rest, stop =>
      ∃ length, 0 < length ∧ code start = some (instruction, length) ∧
        PlacedAt code (start + length) rest stop

theorem PlacedAt.append {code : Code} {first second : List Instruction} {stop : Nat} :
    ∀ {start : Nat}, PlacedAt code start (first ++ second) stop →
      ∃ middle, PlacedAt code start first middle ∧ PlacedAt code middle second stop := by
  induction first with
  | nil => exact fun {start} placed => ⟨start, rfl, placed⟩
  | cons instruction rest inductionHypothesis =>
      rintro start ⟨length, positive, here, others⟩
      obtain ⟨middle, front, back⟩ := inductionHypothesis others
      exact ⟨middle, ⟨length, positive, here, front⟩, back⟩

theorem PlacedAt.le {code : Code} {instructions : List Instruction} {stop : Nat} :
    ∀ {start : Nat}, PlacedAt code start instructions stop → start ≤ stop := by
  induction instructions with
  | nil => exact fun same => Nat.le_of_eq same
  | cons instruction rest inductionHypothesis =>
      rintro start ⟨length, _, _, others⟩
      exact Nat.le_trans (Nat.le_add_right _ _) (inductionHypothesis others)

theorem PlacedAt.congr {code code' : Code} {instructions : List Instruction}
    {stop : Nat} : ∀ {start : Nat}, (∀ x, start ≤ x → x < stop → code x = code' x) →
      PlacedAt code start instructions stop →
      PlacedAt code' start instructions stop := by
  induction instructions with
  | nil => exact fun _ same => same
  | cons instruction rest inductionHypothesis =>
      rintro start same ⟨length, positive, here, others⟩
      have behind := others.le
      exact ⟨length, positive, (same start (Nat.le_refl _) (by omega)).symm.trans here,
        inductionHypothesis (fun x above => same x (by omega)) others⟩

/-- Instructions with their lengths, one behind the other from an address on. -/
def assemble : Nat → List (Instruction × Nat) → Code
  | _, [] => fun _ => none
  | start, instruction :: rest => fun x =>
      if x = start then some instruction else assemble (start + instruction.2) rest x

theorem assemble_placed {instructions : List (Instruction × Nat)} :
    ∀ {start : Nat}, (∀ instruction ∈ instructions, 0 < instruction.2) →
      PlacedAt (assemble start instructions) start (instructions.map Prod.fst)
        (start + (instructions.map Prod.snd).sum) := by
  induction instructions with
  | nil => exact fun _ => rfl
  | cons instruction rest inductionHypothesis =>
      intro start positive
      rw [List.forall_mem_cons] at positive
      rw [List.map_cons, List.map_cons, List.sum_cons, ← Nat.add_assoc]
      refine ⟨instruction.2, positive.1, if_pos rfl,
        (inductionHypothesis positive.2).congr fun x above _ => ?_⟩
      have behind := positive.1
      exact (if_neg (by omega)).symm

/-! ## Straight-line code -/

namespace Instruction

/-- The instruction behind is the next one. -/
def straight : Instruction → Bool
  | jumpFar _ _ => false
  | jumpThrough _ => false
  | call _ => false
  | _ => true

/-- The instruction does not write `CR0`. -/
def keepsCr0 : Instruction → Bool
  | toControl .cr0 _ => false
  | _ => true

end Instruction

/-- What instructions do one after the other, wherever they are. -/
def execAll : List Instruction → Cpu → Option Cpu
  | [], c => some c
  | instruction :: rest, c => (exec instruction c).bind (execAll rest)

theorem execAll_append {first second : List Instruction} :
    ∀ c : Cpu, execAll (first ++ second) c = (execAll first c).bind (execAll second) := by
  induction first with
  | nil => exact fun _ => rfl
  | cons instruction rest inductionHypothesis =>
      intro c
      rw [List.cons_append, execAll, execAll, Option.bind_assoc]
      congr 1
      funext c'
      exact inductionHypothesis c'

namespace Cpu

/-- The same processor at another instruction. -/
def moved (c : Cpu) (rip : Nat) : Cpu := { c with rip := rip }

theorem read_moved (c : Cpu) (rip v : Nat) : ∀ n, (c.moved rip).read v n = c.read v n
  | 0 => rfl
  | n + 1 => by
      rw [read, read, read_moved c rip v n]
      rfl

theorem store_moved (c : Cpu) (rip v value : Nat) :
    ∀ n, (c.moved rip).store v value n = c.store v value n
  | 0 => rfl
  | n + 1 => by
      rw [store, store, store_moved c rip v value n]
      rfl

end Cpu

/-- Straight-line code does not look at where it is. -/
theorem exec_moved {instruction : Instruction} (straight : instruction.straight = true)
    (c : Cpu) (rip : Nat) :
    exec instruction (c.moved rip) = (exec instruction c).map (Cpu.moved · rip) := by
  cases instruction with
  | readMsr =>
      rw [exec, exec, apply_ite (Option.map (Cpu.moved · rip))]
      rfl
  | writeMsr =>
      rw [exec, exec, apply_ite (Option.map (Cpu.moved · rip))]
      rfl
  | toControl dst src =>
      cases dst with
      | cr0 =>
          rw [exec, exec, apply_ite (Option.map (Cpu.moved · rip))]
          rfl
      | cr3 => rfl
      | cr4 =>
          rw [exec, exec, apply_ite (Option.map (Cpu.moved · rip))]
          rfl
  | load dst addr =>
      rw [exec, exec, c.read_moved rip, Option.map_map]
      rfl
  | loadGdt addr =>
      rw [exec, exec, c.read_moved rip, Option.map_bind]
      congr 1
      funext limit
      rw [c.read_moved rip, Function.comp_apply, Option.map_map]
      rfl
  | push src =>
      rw [exec, exec, Option.map_map]
      exact congrArg (Option.map _) (c.store_moved rip _ _ 8)
  | pop dst =>
      rw [exec, exec, Option.map_map]
      exact congrArg (Option.map _) (c.read_moved rip _ 8)
  | jumpFar selector offset => cases straight
  | jumpThrough src => cases straight
  | call target => cases straight
  | _ => rfl

theorem execAll_moved {instructions : List Instruction} :
    (∀ instruction ∈ instructions, instruction.straight = true) →
    ∀ (c : Cpu) (rip : Nat), execAll instructions (c.moved rip) =
      (execAll instructions c).map (Cpu.moved · rip) := by
  induction instructions with
  | nil => exact fun _ _ _ => rfl
  | cons instruction rest inductionHypothesis =>
      intro straight c rip
      rw [List.forall_mem_cons] at straight
      rw [execAll, execAll, exec_moved straight.1, Option.bind_map, Option.map_bind]
      congr 1
      funext c'
      exact inductionHypothesis straight.2 c' rip

theorem exec_cr0 {instruction : Instruction} (keeps : instruction.keepsCr0 = true)
    {c c' : Cpu} (ran : exec instruction c = some c') : c'.cr0 = c.cr0 := by
  cases instruction with
  | toControl dst src =>
      cases dst with
      | cr0 => cases keeps
      | cr3 =>
          obtain rfl := Option.some.inj ran
          rfl
      | cr4 =>
          rw [exec, Option.ite_none_left_eq_some, Option.some.injEq] at ran
          rw [← ran.2]
  | readMsr =>
      rw [exec, Option.ite_none_right_eq_some, Option.some.injEq] at ran
      rw [← ran.2]
      rfl
  | writeMsr =>
      rw [exec, Option.ite_none_left_eq_some, Option.some.injEq] at ran
      rw [← ran.2]
  | load dst addr =>
      rw [exec, Option.map_eq_some_iff] at ran
      obtain ⟨value, _, rfl⟩ := ran
      rfl
  | loadGdt addr =>
      rw [exec, Option.bind_eq_some_iff] at ran
      obtain ⟨limit, _, ran⟩ := ran
      rw [Option.map_eq_some_iff] at ran
      obtain ⟨base, _, rfl⟩ := ran
      rfl
  | jumpFar selector offset =>
      rw [exec, Option.ite_none_left_eq_some, Option.bind_eq_some_iff] at ran
      obtain ⟨_, descriptor, _, ran⟩ := ran
      rw [Option.ite_none_right_eq_some, Option.some.injEq] at ran
      rw [← ran.2]
  | jumpThrough src =>
      rw [exec, Option.map_eq_some_iff] at ran
      obtain ⟨target, _, rfl⟩ := ran
      rfl
  | push src =>
      rw [exec, Option.map_eq_some_iff] at ran
      obtain ⟨m, _, rfl⟩ := ran
      rfl
  | pop dst =>
      rw [exec, Option.map_eq_some_iff] at ran
      obtain ⟨value, _, rfl⟩ := ran
      rfl
  | call target =>
      rw [exec, Option.map_eq_some_iff] at ran
      obtain ⟨m, _, rfl⟩ := ran
      rfl
  | _ =>
      obtain rfl := Option.some.inj ran
      rfl

/-! ## Runs of straight-line code -/

/-- At the linear addresses of an interval the processor fetches this code. -/
def Sees (code view : Code) (low high : Nat) (c : Cpu) : Prop :=
  ∀ v, low ≤ v → v < high → (c.physical .fetch v).bind code = view v

section Straight

variable {code view : Code} {low high stop : Nat} {rest : List Instruction}

/-- The next instruction of a program. -/
theorem step_of_sees {c : Cpu} {instruction : Instruction}
    (sees : Sees code view low high c)
    (placed : PlacedAt view c.rip (instruction :: rest) stop) (above : low ≤ c.rip)
    (below : stop ≤ high) :
    ∃ next, PlacedAt view next rest stop ∧ low ≤ next ∧
      step code c = exec instruction (c.moved next) := by
  obtain ⟨length, positive, here, others⟩ := placed
  have behind := others.le
  refine ⟨c.rip + length, others, by omega, ?_⟩
  rw [step, ← Option.bind_assoc, sees c.rip above (by omega), here, Option.bind_some]
  rfl

/-- Straight-line code runs through if the processor sees it all the while. -/
theorem run_straight {good : Cpu → Prop} {instructions : List Instruction}
    (sees : ∀ c, good c → Sees code view low high c) (below : stop ≤ high)
    (moves : ∀ c rip, good c → good (c.moved rip)) :
    ∀ {c c' : Cpu}, (∀ instruction ∈ instructions, instruction.straight = true) →
      (∀ instruction ∈ instructions, ∀ c c', good c → exec instruction c = some c' →
        good c') →
      good c → PlacedAt view c.rip (instructions ++ rest) stop → low ≤ c.rip →
      execAll instructions c = some c' →
      ∃ next, PlacedAt view next rest stop ∧ low ≤ next ∧ good (c'.moved next) ∧
        ∀ n, run code (instructions.length + n) c = run code n (c'.moved next) := by
  induction instructions with
  | nil =>
      intro c c' _ _ isGood placed above ran
      obtain rfl := Option.some.inj ran
      refine ⟨c.rip, placed, above, isGood, fun n => ?_⟩
      rw [List.length_nil, Nat.zero_add]
      rfl
  | cons instruction instructions inductionHypothesis =>
      intro c c' straight kept isGood placed above ran
      rw [List.forall_mem_cons] at straight kept
      rw [execAll, Option.bind_eq_some_iff] at ran
      obtain ⟨c₁, first, others⟩ := ran
      obtain ⟨next, placed₁, above₁, stepped⟩ :=
        step_of_sees (sees c isGood) placed above below
      rw [exec_moved straight.1, first, Option.map_some] at stepped
      have others₁ : execAll instructions (c₁.moved next) = some (c'.moved next) := by
        rw [execAll_moved straight.2, others, Option.map_some]
      obtain ⟨stop', placed', above', good', ran⟩ := inductionHypothesis straight.2
        kept.2 (moves c₁ next (kept.1 c c₁ isGood first)) placed₁ above₁ others₁
      refine ⟨stop', placed', above', good', fun n => ?_⟩
      rw [List.length_cons, Nat.succ_add, run, stepped, Option.bind_some, ran]
      rfl

end Straight

/-! ## Accesses that go where they say -/

namespace Cpu

variable {c : Cpu} {v p : Nat}

theorem read_eq : ∀ {n : Nat}, (∀ i < n, c.physical .read (v + i) = some (p + i)) →
    c.read v n = some (loadLe c.memory p n)
  | 0, _ => rfl
  | n + 1, each => by
      rw [read, read_eq fun i below => each i (Nat.lt_succ_of_lt below), Option.bind_some,
        each n (Nat.lt_succ_self n), Option.map_some]
      rfl

theorem store_eq {value : Nat} : ∀ {n : Nat},
    (∀ i < n, c.physical .write (v + i) = some (p + i)) →
    c.store v value n = some (storeLe c.memory p n value)
  | 0, _ => by rw [store, storeLe_zero]
  | n + 1, each => by
      rw [store, store_eq fun i below => each i (Nat.lt_succ_of_lt below),
        Option.bind_some, each n (Nat.lt_succ_self n), Option.map_some, storeLe_succ]

/-- Accesses to the addresses of an interval go to the same physical addresses. -/
def Flat (c : Cpu) (low high : Nat) : Prop :=
  ∀ access v, low ≤ v → v < high → c.physical access v = some v

theorem Flat.read {low high n : Nat} (flat : c.Flat low high) (above : low ≤ v)
    (below : v + n ≤ high) : c.read v n = some (loadLe c.memory v n) :=
  read_eq fun i inside => flat .read (v + i) (by omega) (by omega)

theorem flat_of_unpaged (unpaged : c.paging = false) (low high : Nat) :
    c.Flat low high := by
  intro access v _ _
  rw [physical, if_pos unpaged]

theorem Flat.sees {low high : Nat} (flat : c.Flat low high) (code : Code) :
    Sees code code low high c := by
  intro v above below
  rw [flat .fetch v above below, Option.bind_some]

/-- In long mode every access goes through the page tables. -/
theorem physical_of_long (long : c.longMode = true) {access : Access} :
    c.physical access v = if Canonical v then
      (translatePage c.memory (entryFrame c.cr3) v).bind fun mapping =>
        if c.allows access mapping then some (mapping.frame + v % 4096) else none
      else none := by
  obtain ⟨paging, enabled⟩ := Bool.and_eq_true_iff.mp long
  rw [physical, if_neg (by rw [paging]; decide), enabled]
  by_cases canonical : Canonical v
  · rw [if_neg (by simp [canonical]), if_pos canonical]
  · rw [if_pos (Or.inr canonical), if_neg canonical]

/-- Where pages are mapped to themselves and allow everything, accesses are flat. -/
theorem flat_of_identity {low high : Nat} (long : c.longMode = true)
    (canonical : high ≤ 2 ^ 47)
    (identity : ∀ v, low ≤ v → v < high →
      translatePage c.memory (entryFrame c.cr3) v =
        some { frame := v / 4096 * 4096, writable := true, executable := true }) :
    c.Flat low high := by
  intro access v above below
  have isCanonical : Canonical v := Or.inl (by omega)
  rw [physical_of_long long, if_pos isCanonical, identity v above below,
    Option.bind_some, if_pos]
  · rw [Nat.mul_comm, Nat.div_add_mod]
  · cases access <;> rfl

/-- Within a page, addresses stay as far apart as they are. -/
theorem physical_add (long : c.longMode = true) {access : Access} {i : Nat}
    (samePage : v % 4096 + i < 4096) (reached : c.physical access v = some p) :
    c.physical access (v + i) = some (p + i) := by
  rw [physical_of_long long, Option.ite_none_right_eq_some,
    Option.bind_eq_some_iff] at reached
  obtain ⟨canonical, mapping, translated, reached⟩ := reached
  rw [Option.ite_none_right_eq_some, Option.some.injEq] at reached
  obtain ⟨allowed, rfl⟩ := reached
  have samePath : translatePage c.memory (entryFrame c.cr3) (v + i) = some mapping := by
    rw [← translated, translatePage, translatePage, ← pagePath_pageNumber,
      ← pagePath_pageNumber]
    congr 2
    rw [pageNumber, pageNumber]
    omega
  have canonical' : Canonical (v + i) := by
    rw [Canonical] at canonical ⊢
    omega
  rw [physical_of_long long, if_pos canonical', samePath, Option.bind_some, if_pos allowed]
  congr 1
  omega

end Cpu

/-! ## The stack -/

section Stack

variable {c : Cpu} {sp p : Nat}

theorem exec_push (src : Register) (isTop : (c.register .sp + (2 ^ 64 - 8)) % 2 ^ 64 = sp)
    (writes : ∀ i < 8, c.physical .write (sp + i) = some (p + i)) :
    exec (.push src) c = some { c.set .sp sp with
      memory := storeLe c.memory p 8 (c.register src) } := by
  rw [exec, isTop, Cpu.store_eq writes, Option.map_some]

theorem exec_call (target : Nat) (isTop : (c.register .sp + (2 ^ 64 - 8)) % 2 ^ 64 = sp)
    (writes : ∀ i < 8, c.physical .write (sp + i) = some (p + i)) :
    exec (.call target) c = some { c.set .sp sp with
      memory := storeLe c.memory p 8 c.rip
      rip := target } := by
  rw [exec, isTop, Cpu.store_eq writes, Option.map_some]

theorem exec_pop (dst : Register) (isTop : c.register .sp = sp)
    (reads : ∀ i < 8, c.physical .read (sp + i) = some (p + i)) :
    exec (.pop dst) c = some ((c.set .sp ((sp + 8) % 2 ^ 64)).set dst
      (loadLe c.memory p 8)) := by
  rw [exec, isTop, Cpu.read_eq reads, Option.map_some]

end Stack

/-! ## Processors with one address space -/

/-- Both processors translate addresses alike. -/
structure SameSpace (c c' : Cpu) : Prop where
  cr0 : c'.cr0 = c.cr0
  cr3 : c'.cr3 = c.cr3
  efer : c'.efer = c.efer
  tables : ∀ v, translatePage c'.memory (entryFrame c'.cr3) v =
    translatePage c.memory (entryFrame c.cr3) v

namespace SameSpace

variable {c c' : Cpu}

theorem moved (same : SameSpace c c') (rip : Nat) : SameSpace c (c'.moved rip) :=
  ⟨same.cr0, same.cr3, same.efer, same.tables⟩

theorem physical (same : SameSpace c c') (access : Access) (v : Nat) :
    c'.physical access v = c.physical access v := by
  have sameAllows : c'.allows access = c.allows access := by
    funext mapping
    cases access <;>
      simp only [Cpu.allows, Cpu.noExecuteEnable, Cpu.writeProtect, same.cr0, same.efer]
  rw [Cpu.physical, Cpu.physical, same.tables, sameAllows, Cpu.paging, Cpu.paging,
    same.cr0, Cpu.longEnable, Cpu.longEnable, same.efer]

theorem sees {code view : Code} {low high : Nat} (same : SameSpace c c')
    (sees : Sees code view low high c) : Sees code view low high c' := by
  intro v above below
  rw [same.physical]
  exact sees v above below

end SameSpace

end LongMode
