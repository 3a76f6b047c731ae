/-
Module: SampoOS.Kickstart.EnterLongMode
Purpose: enter_64bit.asm, instruction by instruction: the switch to 64-bit mode and the
  jump to the kernel.
Trusted boundary: the processor, as far as LongMode describes it.
Main exports: EnterSymbols, enter64bitKernel, jumpToKernel, gdt64, EnterPlaced,
  enter64bitKernel_runs
-/
import SampoOS.Lib.LongMode

namespace SampoOS.Kickstart

open ByteMemory
open LongMode
open Paging

/-! ## enter_64bit.asm -/

/-- The addresses of the symbols that enter_64bit.asm uses. -/
structure EnterSymbols where
  enter64bitKernel : Nat
  jumpToKernel : Nat
  gdt64 : Nat
  topPageStructure : Nat
  programEntryPoint : Nat
  bootinfo : Nat

/-- The long-mode bit and the NXE bit are set in the EFER MSR. -/
def setLongModeBit : List Instruction :=
  [.mov .cx 0xC0000080, .readMsr, .or .ax (1 <<< 8), .or .ax (1 <<< 11), .writeMsr]

/-- PAE is enabled. -/
def enablePae : List Instruction :=
  [.fromControl .ax .cr4, .or .ax (1 <<< 5), .toControl .cr4 .ax]

/-- The page table is set as the one being used. -/
def setPageTable (symbols : EnterSymbols) : List Instruction :=
  [.load .ax symbols.topPageStructure, .toControl .cr3 .ax, .exchangeSelf .bx]

/-- Paging is enabled. -/
def enablePaging : List Instruction :=
  [.fromControl .ax .cr0, .or .ax (1 <<< 31), .toControl .cr0 .ax]

/-- The 64-bit GDT is loaded, and its code segment entered. -/
def enterCodeSegment (symbols : EnterSymbols) : List Instruction :=
  [.loadGdt (symbols.gdt64 + 24), .jumpFar 8 symbols.jumpToKernel]

/-- `enter_64bit_kernel` as far as to the instruction that turns paging on. -/
def switchToLongMode (symbols : EnterSymbols) : List Instruction :=
  setLongModeBit ++ (enablePae ++ (setPageTable symbols ++ enablePaging))

/-- `enter_64bit_kernel`. -/
def enter64bitKernel (symbols : EnterSymbols) : List Instruction :=
  switchToLongMode symbols ++ enterCodeSegment symbols

/-- `JumpToKernel`. -/
def jumpToKernel (symbols : EnterSymbols) : List Instruction :=
  [.leaWide .ax symbols.bootinfo, .leaWide .cx symbols.programEntryPoint,
    .jumpThrough .cx]

/-- `GDT64.Null`. -/
def gdtNull : List UInt8 := [0xFF, 0xFF, 0, 0, 0, 0, 1, 0]

/-- `GDT64.Code`. -/
def gdtCode : List UInt8 := [0, 0, 0, 0, 0, 0x9A, 0xAF, 0]

/-- `GDT64.Data`. -/
def gdtData : List UInt8 := [0, 0, 0, 0, 0, 0x92, 0, 0]

/-- `GDT64` with its pointer, at an address. -/
def gdt64 (addr : Nat) : List UInt8 :=
  gdtNull ++ (gdtCode ++ (gdtData ++ (leBytes 2 23 ++ (leBytes 4 addr ++ leBytes 4 0))))

/-- What enter_64bit.asm consists of lies in an interval, the GDT with its bytes. -/
structure EnterPlaced (symbols : EnterSymbols) (code : Code) (m : Memory)
    (low high : Nat) : Prop where
  above : low ≤ symbols.enter64bitKernel
  placed : ∃ stop ≤ high,
    PlacedAt code symbols.enter64bitKernel (enter64bitKernel symbols) stop
  jumpAbove : low ≤ symbols.jumpToKernel
  jumpPlaced : ∃ stop ≤ high,
    PlacedAt code symbols.jumpToKernel (jumpToKernel symbols) stop
  gdtAbove : low ≤ symbols.gdt64
  gdtBelow : symbols.gdt64 + 34 ≤ high
  gdt : HoldsBytes m symbols.gdt64 (gdt64 symbols.gdt64)
  entryAbove : low ≤ symbols.programEntryPoint
  entryBelow : symbols.programEntryPoint + 8 ≤ high

/-! ## Its parts -/

/-- A bit that is set in the lower half of a register. -/
theorem testBit_setLow (a : Nat) {i j : Nat} (low : j < 32) :
    ((a ||| 1 <<< i) % 2 ^ 32).testBit j = (a.testBit j || decide (i = j)) := by
  rw [Nat.testBit_mod_two_pow, Nat.testBit_or, Nat.one_shiftLeft, Nat.testBit_two_pow,
    decide_eq_true low, Bool.true_and]

section Parts

variable {c : Cpu}

theorem setLongModeBit_execAll (unpaged : c.paging = false) :
    ∃ register efer, efer.testBit 8 = true ∧ efer.testBit 11 = true ∧
      execAll setLongModeBit c = some { c with register := register, efer := efer } := by
  let low := (((c.efer % 2 ^ 32 ||| 1 <<< 8) % 2 ^ 32) ||| 1 <<< 11) % 2 ^ 32
  have small : low < 2 ^ 32 := Nat.mod_lt _ (by decide)
  have ran : execAll setLongModeBit c = some
      { ((((c.set .cx eferNumber).set .ax (c.efer % 2 ^ 32)).set .dx
          (c.efer / 2 ^ 32)).set .ax ((c.efer % 2 ^ 32 ||| 1 <<< 8) % 2 ^ 32)).set .ax low
        with efer := c.efer / 2 ^ 32 % 2 ^ 32 * 2 ^ 32 + low % 2 ^ 32 } := by
    simp [setLongModeBit, execAll, exec, eferNumber, unpaged, low]
  refine ⟨_, _, ?_, ?_, ran⟩
  · rw [Nat.mod_eq_of_lt small, Nat.mul_comm, Nat.testBit_two_pow_mul_add _ small,
      if_pos (by decide)]
    rw [testBit_setLow _ (by decide), testBit_setLow _ (by decide)]
    simp
  · rw [Nat.mod_eq_of_lt small, Nat.mul_comm, Nat.testBit_two_pow_mul_add _ small,
      if_pos (by decide)]
    rw [testBit_setLow _ (by decide)]
    simp

theorem enablePae_execAll (unpaged : c.paging = false) :
    ∃ register cr4, cr4.testBit 5 = true ∧
      execAll enablePae c = some { c with register := register, cr4 := cr4 } := by
  have ran : execAll enablePae c = some
      { (c.set .ax (c.cr4 % 2 ^ 32)).set .ax ((c.cr4 % 2 ^ 32 ||| 1 <<< 5) % 2 ^ 32) with
        cr4 := (c.cr4 % 2 ^ 32 ||| 1 <<< 5) % 2 ^ 32 } := by
    simp [enablePae, execAll, exec, unpaged, Cpu.longMode]
  refine ⟨_, _, ?_, ran⟩
  rw [testBit_setLow _ (by decide)]
  simp

theorem setPageTable_execAll (symbols : EnterSymbols) (unpaged : c.paging = false) :
    ∃ register, execAll (setPageTable symbols) c =
      some { c with
        register := register
        cr3 := loadLe c.memory symbols.topPageStructure 4 } := by
  have loaded : c.read symbols.topPageStructure 4 =
      some (loadLe c.memory symbols.topPageStructure 4) :=
    (Cpu.flat_of_unpaged unpaged _ _).read (Nat.le_refl _) (Nat.le_refl _)
  have ran : execAll (setPageTable symbols) c = some
      { c.set .ax (loadLe c.memory symbols.topPageStructure 4) with
        cr3 := loadLe c.memory symbols.topPageStructure 4 } := by
    simp [setPageTable, execAll, exec, loaded]
  exact ⟨_, ran⟩

theorem enablePaging_execAll (isProtected : c.cr0.testBit 0 = true)
    (extended : c.addressExtension = true) (narrow : c.wide = false) :
    ∃ register cr0, cr0.testBit 31 = true ∧
      (∀ j < 31, cr0.testBit j = c.cr0.testBit j) ∧
      execAll enablePaging c = some { c with register := register, cr0 := cr0 } := by
  let value := (c.cr0 % 2 ^ 32 ||| 1 <<< 31) % 2 ^ 32
  have bits : ∀ j < 32, value.testBit j = (c.cr0.testBit j || decide (31 = j)) := by
    intro j low
    rw [testBit_setLow _ low, Nat.testBit_mod_two_pow, decide_eq_true low, Bool.true_and]
  have first : value.testBit 0 = true := by
    rw [bits 0 (by decide), isProtected, Bool.true_or]
  let before := (c.set .ax (c.cr0 % 2 ^ 32)).set .ax value
  have holds : before.register .ax = value := Cpu.set_register_self ..
  -- Every condition for paging is met.
  have switched :
      exec (.toControl .cr0 .ax) before = some { before with cr0 := value } := by
    rw [exec, holds, first, Cpu.set_addressExtension, Cpu.set_addressExtension, extended,
      Cpu.set_wide, Cpu.set_wide, narrow]
    simp
  have ran : execAll enablePaging c = some { before with cr0 := value } := by
    rw [enablePaging, execAll, exec, Option.bind_some, execAll, exec, Option.bind_some,
      Cpu.set_register_self, execAll, switched]
    rfl
  refine ⟨_, _, ?_, ?_, ran⟩
  · rw [bits 31 (by decide)]
    simp
  · intro j low
    rw [bits j (by omega)]
    simp
    omega

theorem switchToLongMode_execAll (symbols : EnterSymbols)
    (isProtected : c.cr0.testBit 0 = true) (unpaged : c.paging = false)
    (narrow : c.wide = false) :
    ∃ register cr0 cr4 efer, cr0.testBit 31 = true ∧
      (∀ j < 31, cr0.testBit j = c.cr0.testBit j) ∧ efer.testBit 8 = true ∧
      efer.testBit 11 = true ∧
      execAll (switchToLongMode symbols) c = some { c with
        register := register
        cr0 := cr0
        cr3 := loadLe c.memory symbols.topPageStructure 4
        cr4 := cr4
        efer := efer } := by
  obtain ⟨register₁, efer, enabled, noExecute, first⟩ := setLongModeBit_execAll unpaged
  obtain ⟨register₂, cr4, extended, second⟩ := enablePae_execAll
    (c := { c with register := register₁, efer := efer }) unpaged
  obtain ⟨register₃, third⟩ := setPageTable_execAll symbols
    (c := { c with register := register₂, efer := efer, cr4 := cr4 }) unpaged
  obtain ⟨register₄, cr0, paged, same, fourth⟩ := enablePaging_execAll
    (c := { c with
      register := register₃
      efer := efer
      cr4 := cr4
      cr3 := loadLe c.memory symbols.topPageStructure 4 }) isProtected extended narrow
  refine ⟨register₄, cr0, cr4, efer, paged, same, enabled, noExecute, ?_⟩
  rw [switchToLongMode, execAll_append, first, Option.bind_some, execAll_append, second,
    Option.bind_some, execAll_append, third, Option.bind_some, fourth]

end Parts

/-! ## The GDT -/

section Gdt

variable {m : Memory} {addr : Nat}

theorem gdt64_code (holds : HoldsBytes m addr (gdt64 addr)) :
    loadLe m (addr + 8) 8 = 0x00AF9A0000000000 := by
  have parts := (holdsBytes_append.mp (holdsBytes_append.mp holds).2).1
  have isValue : gdtCode = leBytes 8 0x00AF9A0000000000 := by decide
  rw [isValue] at parts
  exact loadLe_of_holdsBytes parts

/-- The limit and the base that the pointer behind the descriptors gives. -/
theorem gdt64_pointer (low : addr < 2 ^ 32) (holds : HoldsBytes m addr (gdt64 addr)) :
    loadLe m (addr + 24) 2 = 23 ∧ loadLe m (addr + 26) 4 = addr := by
  have pointer := (holdsBytes_append.mp (holdsBytes_append.mp
    (holdsBytes_append.mp holds).2).2).2
  obtain ⟨limit, base⟩ := holdsBytes_append.mp pointer
  have isBase := loadLe_of_holdsBytes (holdsBytes_append.mp base).1
  rw [Nat.mod_eq_of_lt (show addr < 256 ^ 4 from low)] at isBase
  exact ⟨loadLe_of_holdsBytes limit, isBase⟩

end Gdt

/-! ## The run -/

/-- A processor that has come from `c` into long mode, with the page tables of a root. -/
structure InLongMode (c : Cpu) (root : Nat) (c' : Cpu) : Prop where
  long : c'.longMode = true
  noExecute : c'.noExecuteEnable = true
  writeProtect : c'.writeProtect = c.writeProtect
  root : c'.cr3 = root
  memory : c'.memory = c.memory

section Run

variable {code : Code} {symbols : EnterSymbols} {low high stop : Nat}
  {rest : List Instruction} {c : Cpu}

/-- Until paging is on, the processor fetches from physical addresses. -/
theorem switchToLongMode_runs (isProtected : c.cr0.testBit 0 = true)
    (unpaged : c.paging = false) (narrow : c.wide = false)
    (placed : PlacedAt code c.rip (switchToLongMode symbols ++ rest) stop)
    (above : low ≤ c.rip) (below : stop ≤ high) :
    ∃ c', PlacedAt code c'.rip rest stop ∧ low ≤ c'.rip ∧ c'.wide = false ∧
      InLongMode c (loadLe c.memory symbols.topPageStructure 4) c' ∧
      ∀ n, run code (14 + n) c = run code n c' := by
  obtain ⟨register, cr0, cr4, efer, paged, same, enabled, noExecute, executed⟩ :=
    switchToLongMode_execAll symbols isProtected unpaged narrow
  let front := setLongModeBit ++ (enablePae ++ (setPageTable symbols ++
    [.fromControl .ax .cr0, .or .ax (1 <<< 31)]))
  have split : switchToLongMode symbols = front ++ [.toControl .cr0 .ax] := rfl
  have straight : ∀ instruction ∈ front, instruction.straight = true := by
    simp [front, setLongModeBit, enablePae, setPageTable, Instruction.straight]
  have keeps : ∀ instruction ∈ front, instruction.keepsCr0 = true := by
    simp [front, setLongModeBit, enablePae, setPageTable, Instruction.keepsCr0]
  have sees : ∀ c : Cpu, c.paging = false → Sees code code low high c :=
    fun c unpaged => (Cpu.flat_of_unpaged unpaged low high).sees code
  rw [split, execAll_append, Option.bind_eq_some_iff] at executed
  obtain ⟨c₁, frontExecuted, last⟩ := executed
  rw [execAll, Option.bind_eq_some_iff] at last
  obtain ⟨c₂, last, isLast⟩ := last
  obtain rfl := Option.some.inj isLast
  rw [split, List.append_assoc] at placed
  obtain ⟨next, placed₁, above₁, unpaged₁, ran⟩ := run_straight sees below
    (fun _ _ unpaged => unpaged) straight
    (fun instruction isFront c c' unpaged ran => by
      rw [Cpu.paging, exec_cr0 (keeps instruction isFront) ran]
      exact unpaged)
    unpaged placed above frontExecuted
  obtain ⟨next', placed', above', stepped⟩ :=
    step_of_sees (sees _ unpaged₁) placed₁ above₁ below
  let after : Cpu := { c with
    register := register
    cr0 := cr0
    cr3 := loadLe c.memory symbols.topPageStructure 4
    cr4 := cr4
    efer := efer }
  have switched : step code (c₁.moved next) = some (after.moved next') := by
    rw [stepped]
    exact (exec_moved rfl c₁ next').trans (by rw [last, Option.map_some])
  refine ⟨after.moved next', placed', above', narrow,
    ⟨?_, noExecute, same 16 (by decide), rfl, rfl⟩, fun n => ?_⟩
  · exact Bool.and_eq_true_iff.mpr ⟨paged, enabled⟩
  · have more := ran (n + 1)
    rw [run, switched, Option.bind_some] at more
    rw [← more]
    congr 1
    exact Nat.add_right_comm 13 1 n

/-- In compatibility mode the 64-bit code segment is entered. -/
theorem enterCodeSegment_runs (long : c.longMode = true) (narrow : c.wide = false)
    (flat : c.Flat low high) (addrLow : symbols.gdt64 < 2 ^ 32)
    (gdtAbove : low ≤ symbols.gdt64) (gdtBelow : symbols.gdt64 + 34 ≤ high)
    (gdt : HoldsBytes c.memory symbols.gdt64 (gdt64 symbols.gdt64))
    (placed : PlacedAt code c.rip (enterCodeSegment symbols) stop)
    (above : low ≤ c.rip) (below : stop ≤ high) :
    ∀ n, run code (2 + n) c = run code n { c with
      gdtBase := symbols.gdt64
      gdtLimit := 23
      wide := true
      rip := symbols.jumpToKernel } := by
  obtain ⟨limit, base⟩ := gdt64_pointer addrLow gdt
  obtain ⟨next, placed₁, above₁, first⟩ :=
    step_of_sees (flat.sees code) placed above below
  let c₁ : Cpu := { c.moved next with gdtBase := symbols.gdt64, gdtLimit := 23 }
  have loaded : step code c = some c₁ := by
    rw [first, exec, c.read_moved next, flat.read (by omega) (by omega), limit,
      Option.bind_some, c.read_moved next]
    have width : (if (c.moved next).wide then 8 else 4) = 4 := by
      rw [show (c.moved next).wide = false from narrow]
      rfl
    rw [width, flat.read (by omega) (by omega), base]
    rfl
  have flat₁ : c₁.Flat low high := flat
  obtain ⟨next', _, _, second⟩ := step_of_sees (flat₁.sees code) placed₁ above₁ below
  have jumped : step code c₁ = some { c with
      gdtBase := symbols.gdt64
      gdtLimit := 23
      wide := true
      rip := symbols.jumpToKernel } := by
    have isLong : (c₁.moved next').longMode = true := long
    have isLimit : (c₁.moved next').gdtLimit = 23 := rfl
    rw [second, exec, isLong, isLimit, if_neg (by decide), c₁.read_moved next']
    have descriptor : c₁.read ((c₁.moved next').gdtBase + 8) 8 =
        some (loadLe c.memory (symbols.gdt64 + 8) 8) :=
      flat₁.read (Nat.le_add_right_of_le gdtAbove) (by
        show symbols.gdt64 + 8 + 8 ≤ high
        omega)
    rw [descriptor, gdt64_code gdt, Option.bind_some, if_pos (by decide)]
    rfl
  intro n
  rw [Nat.add_comm, run, loaded, Option.bind_some, run, jumped, Option.bind_some]

/-- In 64-bit mode the kernel is given the boot information, and entered. -/
theorem jumpToKernel_runs (flat : c.Flat low high)
    (entryAbove : low ≤ symbols.programEntryPoint)
    (entryBelow : symbols.programEntryPoint + 8 ≤ high)
    (placed : PlacedAt code c.rip (jumpToKernel symbols) stop)
    (above : low ≤ c.rip) (below : stop ≤ high) :
    ∀ n, run code (3 + n) c = run code n { (c.set .ax symbols.bootinfo).set .cx
        symbols.programEntryPoint with
      rip := loadLe c.memory symbols.programEntryPoint 8 } := by
  obtain ⟨next, placed₁, above₁, first⟩ :=
    step_of_sees (flat.sees code) placed above below
  let c₁ : Cpu := (c.moved next).set .ax symbols.bootinfo
  have flat₁ : c₁.Flat low high := flat
  obtain ⟨next', placed₂, above₂, second⟩ :=
    step_of_sees (flat₁.sees code) placed₁ above₁ below
  let c₂ : Cpu := (c₁.moved next').set .cx symbols.programEntryPoint
  have flat₂ : c₂.Flat low high := flat
  obtain ⟨next'', _, _, third⟩ := step_of_sees (flat₂.sees code) placed₂ above₂ below
  have jumped : step code c₂ = some { (c.set .ax symbols.bootinfo).set .cx
        symbols.programEntryPoint with
      rip := loadLe c.memory symbols.programEntryPoint 8 } := by
    have target : (c₂.moved next'').register .cx = symbols.programEntryPoint :=
      Cpu.set_register_self (c₁.moved next') .cx symbols.programEntryPoint
    rw [third, exec, target, c₂.read_moved next'', flat₂.read entryAbove entryBelow]
    rfl
  intro n
  rw [Nat.add_comm, run, first, exec, Option.bind_some, run]
  change (step code c₁).bind _ = _
  rw [second, exec, Option.bind_some, run]
  change (step code c₂).bind _ = _
  rw [jumped, Option.bind_some]

/-- Where its own pages are mapped to themselves, enter_64bit.asm brings the processor
into 64-bit mode and to the entry point, with the boot information in `rax`. -/
theorem enter64bitKernel_runs (placed : EnterPlaced symbols code c.memory low high)
    (small : high ≤ 2 ^ 32) (start : c.rip = symbols.enter64bitKernel)
    (isProtected : c.cr0.testBit 0 = true) (unpaged : c.paging = false)
    (narrow : c.wide = false)
    (identity : ∀ v, low ≤ v → v < high → translatePage c.memory
        (entryFrame (loadLe c.memory symbols.topPageStructure 4)) v =
      some { frame := v / 4096 * 4096, writable := true, executable := true }) :
    ∃ c', run code 19 c = some c' ∧
      InLongMode c (loadLe c.memory symbols.topPageStructure 4) c' ∧ c'.wide = true ∧
      c'.rip = loadLe c.memory symbols.programEntryPoint 8 ∧
      c'.register .ax = symbols.bootinfo := by
  have gdtBelow := placed.gdtBelow
  obtain ⟨stop, below, isPlaced⟩ := placed.placed
  obtain ⟨jumpStop, jumpBelow, jumpPlaced⟩ := placed.jumpPlaced
  rw [enter64bitKernel, ← start] at isPlaced
  obtain ⟨c₁, placed₁, above₁, narrow₁, inLongMode, first⟩ := switchToLongMode_runs
    isProtected unpaged narrow isPlaced (start ▸ placed.above) below
  have flat : c₁.Flat low high := Cpu.flat_of_identity inLongMode.long
    (Nat.le_trans small (by decide)) (by
      rw [inLongMode.memory, inLongMode.root]
      exact identity)
  have second := enterCodeSegment_runs inLongMode.long narrow₁ flat (by omega)
    placed.gdtAbove placed.gdtBelow (inLongMode.memory ▸ placed.gdt) placed₁ above₁ below
  let c₂ : Cpu := { c₁ with
    gdtBase := symbols.gdt64
    gdtLimit := 23
    wide := true
    rip := symbols.jumpToKernel }
  have third := jumpToKernel_runs (c := c₂) flat placed.entryAbove placed.entryBelow
    jumpPlaced placed.jumpAbove jumpBelow
  refine ⟨_, (first 5).trans ((second 3).trans ((third 0).trans rfl)),
    ⟨inLongMode.long, inLongMode.noExecute, inLongMode.writeProtect, inLongMode.root,
      inLongMode.memory⟩, rfl, ?_, ?_⟩
  · exact congrArg (loadLe · symbols.programEntryPoint 8) inLongMode.memory
  · exact (Cpu.set_register_of_ne (c₂.set .ax symbols.bootinfo)
      (show Register.ax ≠ .cx by decide) symbols.programEntryPoint).trans
        (Cpu.set_register_self c₂ .ax symbols.bootinfo)

end Run

end SampoOS.Kickstart
