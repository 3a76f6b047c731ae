/-
Module: SampoOS.Kernel.Start
Purpose: _start of start.asm, instruction by instruction: the kernel's stack, and the call
  of kernel_arch_init.
Trusted boundary: the processor, as far as LongMode describes it.
Main exports: StartSymbols, start, Called, start_runs
-/
import SampoOS.Lib.LongMode

namespace SampoOS.Kernel

open ByteMemory
open LongMode
open Paging

/-- The addresses of the symbols that start.asm uses. -/
structure StartSymbols where
  stackTop : Nat
  kernelArchInit : Nat

/-- `_start`, as far as to the call. -/
def start (symbols : StartSymbols) : List Instruction :=
  [.immediateWide .sp symbols.stackTop, .movWide .bp .sp, .push .ax, .clearInterrupts,
    .pop .di, .call symbols.kernelArchInit]

/-- `kernel_arch_init` is entered with an argument; but for the 8 bytes of the return
address the memory is as it was at `_start`. -/
structure Called (symbols : StartSymbols) (argument frame : Nat) (c c' : Cpu) : Prop where
  rip : c'.rip = symbols.kernelArchInit
  argument : c'.register .di = argument
  stack : c'.register .sp = symbols.stackTop - 8
  interrupts : c'.interrupts = false
  wide : c'.wide = c.wide
  space : SameSpace c c'
  memory : ∀ x ∉ Set.Ico frame (frame + 8), c'.memory x = c.memory x

section Run

variable {code view : Code} {symbols : StartSymbols} {low high stop frame : Nat} {c : Cpu}

/-- Where the top of the stack is in memory that no page table is in, `_start` passes the
boot information on to `kernel_arch_init`. -/
theorem start_runs (long : c.longMode = true) (sees : Sees code view low high c)
    (placed : PlacedAt view c.rip (start symbols) stop) (above : low ≤ c.rip)
    (below : stop ≤ high) (aligned : 8 ∣ symbols.stackTop)
    (notEmpty : 8 ≤ symbols.stackTop) (stackHigh : symbols.stackTop < 2 ^ 64) (argument : c.register .ax < 2 ^ 64)
    (writes : c.physical .write (symbols.stackTop - 8) = some frame)
    (reads : c.physical .read (symbols.stackTop - 8) = some frame)
    (kept : ∀ m : Memory, (∀ x ∉ Set.Ico frame (frame + 8), m x = c.memory x) → ∀ v,
      translatePage m (entryFrame c.cr3) v =
        translatePage c.memory (entryFrame c.cr3) v) :
    ∃ c', run code 6 c = some c' ∧ Called symbols (c.register .ax) frame c c' := by
  have outside : ∀ {m : Memory} {value x : Nat}, x ∉ Set.Ico frame (frame + 8) →
      storeLe m frame 8 value x = m x := by
    intro m value x notFrame
    refine storeLe_outside ?_
    by_contra inFrame
    rw [not_or, Nat.not_lt, Nat.not_le] at inFrame
    exact notFrame inFrame
  have pushed : (symbols.stackTop + (2 ^ 64 - 8)) % 2 ^ 64 = symbols.stackTop - 8 := by
    omega
  have popped : (symbols.stackTop - 8 + 8) % 2 ^ 64 = symbols.stackTop := by omega
  have reaches : ∀ {access : Access} {c' : Cpu},
      c.physical access (symbols.stackTop - 8) = some frame → SameSpace c c' →
      ∀ i < 8, c'.physical access (symbols.stackTop - 8 + i) = some (frame + i) :=
    fun reached same i inWord =>
      (same.physical _ _).trans (Cpu.physical_add long (by omega) reached)
  -- `mov rsp, stack_top` and `mov rbp, rsp`
  obtain ⟨next₁, placed₁, above₁, first⟩ := step_of_sees sees placed above below
  let c₁ : Cpu := (c.moved next₁).set .sp symbols.stackTop
  have same₁ : SameSpace c c₁ := ⟨rfl, rfl, rfl, fun _ => rfl⟩
  obtain ⟨next₂, placed₂, above₂, second⟩ :=
    step_of_sees (same₁.sees sees) placed₁ above₁ below
  let c₂ : Cpu := (c₁.moved next₂).set .bp symbols.stackTop
  have same₂ : SameSpace c c₂ := ⟨rfl, rfl, rfl, fun _ => rfl⟩
  have second' : step code c₁ = some c₂ := second
  -- `push rax`
  obtain ⟨next₃, placed₃, above₃, third⟩ :=
    step_of_sees (same₂.sees sees) placed₂ above₂ below
  let c₃ : Cpu := { (c₂.moved next₃).set .sp (symbols.stackTop - 8) with
    memory := storeLe c.memory frame 8 (c.register .ax) }
  have same₃ : SameSpace c c₃ := ⟨rfl, rfl, rfl, kept _ fun x => outside⟩
  have third' : step code c₂ = some c₃ := by
    have isTop : (c₂.moved next₃).register .sp = symbols.stackTop := rfl
    rw [third, exec_push (c := c₂.moved next₃) .ax (isTop ▸ pushed)
      (reaches writes (same₂.moved next₃))]
    rfl
  -- `cli`
  obtain ⟨next₄, placed₄, above₄, fourth⟩ :=
    step_of_sees (same₃.sees sees) placed₃ above₃ below
  let c₄ : Cpu := { c₃.moved next₄ with interrupts := false }
  have same₄ : SameSpace c c₄ := ⟨rfl, rfl, rfl, same₃.tables⟩
  have fourth' : step code c₃ = some c₄ := fourth
  -- `pop rdi`
  obtain ⟨next₅, placed₅, above₅, fifth⟩ :=
    step_of_sees (same₄.sees sees) placed₄ above₄ below
  let c₅ : Cpu := ((c₄.moved next₅).set .sp symbols.stackTop).set .di (c.register .ax)
  have same₅ : SameSpace c c₅ := ⟨rfl, rfl, rfl, same₃.tables⟩
  have fifth' : step code c₄ = some c₅ := by
    have value : loadLe (c₄.moved next₅).memory frame 8 = c.register .ax :=
      (loadLe_storeLe ..).trans (Nat.mod_eq_of_lt argument)
    have isTop : (c₄.moved next₅).register .sp = symbols.stackTop - 8 := rfl
    rw [fifth, exec_pop .di isTop (reaches reads (same₄.moved next₅)), popped, value]
  -- `call kernel_arch_init`
  obtain ⟨next₆, _, _, sixth⟩ := step_of_sees (same₅.sees sees) placed₅ above₅ below
  let c₆ : Cpu := { (c₅.moved next₆).set .sp (symbols.stackTop - 8) with
    memory := storeLe c₅.memory frame 8 next₆
    rip := symbols.kernelArchInit }
  have memory₆ : ∀ x ∉ Set.Ico frame (frame + 8), c₆.memory x = c.memory x :=
    fun x notFrame => (outside notFrame).trans (outside notFrame)
  have sixth' : step code c₅ = some c₆ := by
    have isTop : (c₅.moved next₆).register .sp = symbols.stackTop := rfl
    rw [sixth, exec_call (c := c₅.moved next₆) symbols.kernelArchInit (isTop ▸ pushed)
      (reaches writes (same₅.moved next₆))]
    rfl
  refine ⟨c₆, ?_, rfl, rfl, rfl, rfl, rfl, ⟨rfl, rfl, rfl, kept _ memory₆⟩, memory₆⟩
  have first' : step code c = some c₁ := first
  rw [run, first', Option.bind_some, run, second', Option.bind_some, run, third',
    Option.bind_some, run, fourth', Option.bind_some, run, fifth', Option.bind_some, run,
    sixth', Option.bind_some, run]

end Run

end SampoOS.Kernel
