/-
Module: SampoOS.Kernel.PageWindow
Purpose: The kernel's recursive ("fractal") mapping: the addresses at which it
  sees its own page tables.
Trusted boundary: no entry of the tables is a large page, whose bit 7 the walk
  does not look at.
Main exports: getPml4FromAddr, getPdptFromAddr, getPdFromAddr, getPtFromAddr,
  fractalMap_resolves
-/
import SampoOS.Lib.BitFields
import SampoOS.Lib.RecursiveSlot

namespace SampoOS.Kernel

open ByteMemory (Memory storeLe)
open Paging

/-! ## Constants and addresses -/

/-- `PAGE_SIZE`. -/
def pageSize : Nat := 0x1000

/-- `virtaddr_to_pml4e_idx`. -/
def virtaddrToPml4eIdx (addr : Nat) : Nat := (addr >>> 39) &&& 0x1FF

/-- `virtaddr_to_pdpe_idx`. -/
def virtaddrToPdpeIdx (addr : Nat) : Nat := (addr >>> 30) &&& 0x1FF

/-- `virtaddr_to_pde_idx`. -/
def virtaddrToPdeIdx (addr : Nat) : Nat := (addr >>> 21) &&& 0x1FF

/-- `virtaddr_to_pte_idx`. -/
def virtaddrToPteIdx (addr : Nat) : Nat := (addr >>> 12) &&& 0x1FF

/-- `FRACTAL_MAP_PML4_IDX`. -/
def fractalMapPml4Idx : Nat := 510

/-- `KERN_PT_BASE`. -/
def kernPtBase : Nat := (0xFFFF000000000000 + (fractalMapPml4Idx <<< 39)) % 2 ^ 64

/-- `KERN_PD_BASE`. -/
def kernPdBase : Nat := (kernPtBase + (fractalMapPml4Idx <<< 30)) % 2 ^ 64

/-- `KERN_PDP_BASE`. -/
def kernPdpBase : Nat := (kernPdBase + (fractalMapPml4Idx <<< 21)) % 2 ^ 64

/-- `KERN_PML4_BASE`. -/
def kernPml4Base : Nat := (kernPdpBase + (fractalMapPml4Idx <<< 12)) % 2 ^ 64

/-- `get_pml4_from_addr`. -/
def getPml4FromAddr (_p : Nat) : Nat := kernPml4Base

/-- `get_pdpt_from_addr`. -/
def getPdptFromAddr (p : Nat) : Nat :=
  (kernPdpBase + ((p >>> 27) &&& 0x00001FF000)) % 2 ^ 64

/-- `get_pd_from_addr`. -/
def getPdFromAddr (p : Nat) : Nat :=
  (kernPdBase + ((p >>> 18) &&& 0x003FFFF000)) % 2 ^ 64

/-- `get_pt_from_addr`. -/
def getPtFromAddr (p : Nat) : Nat :=
  (kernPtBase + ((p >>> 9) &&& 0x7FFFFFF000)) % 2 ^ 64

/-! ## The window -/

theorem kernBases :
    kernPml4Base = 0xFFFFFF7FBFDFE000 ∧ kernPdpBase = 0xFFFFFF7FBFC00000 ∧
      kernPdBase = 0xFFFFFF7F80000000 ∧ kernPtBase = 0xFFFFFF0000000000 := by
  decide

theorem virtaddrToIdx (addr : Nat) :
    virtaddrToPml4eIdx addr = tableIndex 3 addr ∧
      virtaddrToPdpeIdx addr = tableIndex 2 addr ∧
      virtaddrToPdeIdx addr = tableIndex 1 addr ∧
      virtaddrToPteIdx addr = tableIndex 0 addr :=
  ⟨BitFields.shiftRight_and_mask addr 39 9, BitFields.shiftRight_and_mask addr 30 9,
    BitFields.shiftRight_and_mask addr 21 9, BitFields.shiftRight_and_mask addr 12 9⟩

/-- The field that each function shifts into the window. -/
theorem windowField (addr shift : Nat) (bits : Nat) :
    (addr >>> shift) &&& ((2 ^ bits - 1) * 2 ^ 12) =
      addr / 2 ^ (shift + 12) % 2 ^ bits * 4096 := by
  rw [BitFields.and_shiftedMask, Nat.shiftRight_eq_div_pow, Nat.div_div_eq_div_mul,
    ← Nat.pow_add]
  rfl

theorem getPdptFromAddr_eq (addr : Nat) :
    getPdptFromAddr addr = 0xFFFFFF7FBFC00000 + addr / 2 ^ 39 % 2 ^ 9 * 4096 := by
  have field : (addr >>> 27) &&& 0x00001FF000 = addr / 2 ^ 39 % 2 ^ 9 * 4096 :=
    windowField addr 27 9
  rw [getPdptFromAddr, kernBases.2.1, field]
  omega

theorem getPdFromAddr_eq (addr : Nat) :
    getPdFromAddr addr = 0xFFFFFF7F80000000 + addr / 2 ^ 30 % 2 ^ 18 * 4096 := by
  have field : (addr >>> 18) &&& 0x003FFFF000 = addr / 2 ^ 30 % 2 ^ 18 * 4096 :=
    windowField addr 18 18
  rw [getPdFromAddr, kernBases.2.2.1, field]
  omega

theorem getPtFromAddr_eq (addr : Nat) :
    getPtFromAddr addr = 0xFFFFFF0000000000 + addr / 2 ^ 21 % 2 ^ 27 * 4096 := by
  have field : (addr >>> 9) &&& 0x7FFFFFF000 = addr / 2 ^ 21 % 2 ^ 27 * 4096 :=
    windowField addr 9 27
  rw [getPtFromAddr, kernBases.2.2.2, field]
  omega

/-- The four indices of an address. -/
def indices (v : Nat) : List Nat :=
  [tableIndex 3 v, tableIndex 2 v, tableIndex 1 v, tableIndex 0 v]

/-- Entries of the PML4 are seen through four turns. -/
theorem indices_pml4 (v : Nat) :
    indices (getPml4FromAddr v + 8 * tableIndex 3 v) = [510, 510, 510, 510] := by
  simp only [indices, getPml4FromAddr, kernBases.1, tableIndex, List.cons.injEq,
    and_true]
  omega

/-- Entries of a PDPT are seen through three turns. -/
theorem indices_pdpt (v : Nat) :
    indices (getPdptFromAddr v + 8 * tableIndex 2 v) =
      [510, 510, 510, tableIndex 3 v] := by
  simp only [indices, getPdptFromAddr_eq, tableIndex, List.cons.injEq, and_true]
  omega

/-- Entries of a page directory are seen through two turns. -/
theorem indices_pd (v : Nat) :
    indices (getPdFromAddr v + 8 * tableIndex 1 v) =
      [510, 510, tableIndex 3 v, tableIndex 2 v] := by
  simp only [indices, getPdFromAddr_eq, tableIndex, List.cons.injEq, and_true]
  omega

/-- Entries of a page table are seen through one turn. -/
theorem indices_pt (v : Nat) :
    indices (getPtFromAddr v + 8 * tableIndex 0 v) =
      [510, tableIndex 3 v, tableIndex 2 v, tableIndex 1 v] := by
  simp only [indices, getPtFromAddr_eq, tableIndex, List.cons.injEq, and_true]
  omega

/-- Through a recursive slot each function finds the table of an address, and
the address's entry in it, wherever the entries above are present; it finds
nothing where one of them is not. -/
theorem fractalMap_resolves {m : Memory} {root : Nat}
    (recursive : RecursiveSlot m root fractalMapPml4Idx) (v : Nat) :
    Paging.translate m root (getPml4FromAddr v + 8 * virtaddrToPml4eIdx v) =
        some (root + 8 * virtaddrToPml4eIdx v) ∧
      Paging.translate m root (getPdptFromAddr v + 8 * virtaddrToPdpeIdx v) =
        (reach m root [virtaddrToPml4eIdx v]).map (· + 8 * virtaddrToPdpeIdx v) ∧
      Paging.translate m root (getPdFromAddr v + 8 * virtaddrToPdeIdx v) =
        (reach m root [virtaddrToPml4eIdx v, virtaddrToPdpeIdx v]).map
          (· + 8 * virtaddrToPdeIdx v) ∧
      Paging.translate m root (getPtFromAddr v + 8 * virtaddrToPteIdx v) =
        (reach m root [virtaddrToPml4eIdx v, virtaddrToPdpeIdx v,
          virtaddrToPdeIdx v]).map (· + 8 * virtaddrToPteIdx v) := by
  obtain ⟨pml4e, pdpe, pde, pte⟩ := virtaddrToIdx v
  rw [pml4e, pdpe, pde, pte]
  refine ⟨?_, ?_, ?_, ?_⟩
  · have offset : (getPml4FromAddr v + 8 * tableIndex 3 v) % 4096 =
        8 * tableIndex 3 v := by
      simp only [getPml4FromAddr, kernBases.1, tableIndex]
      omega
    rw [recursive.translate_window 4 [] (indices_pml4 v), offset]
    rfl
  · have offset : (getPdptFromAddr v + 8 * tableIndex 2 v) % 4096 =
        8 * tableIndex 2 v := by
      simp only [getPdptFromAddr_eq, tableIndex]
      omega
    rw [recursive.translate_window 3 [tableIndex 3 v] (indices_pdpt v), offset]
  · have offset : (getPdFromAddr v + 8 * tableIndex 1 v) % 4096 =
        8 * tableIndex 1 v := by
      simp only [getPdFromAddr_eq, tableIndex]
      omega
    rw [recursive.translate_window 2 [tableIndex 3 v, tableIndex 2 v]
      (indices_pd v), offset]
  · have offset : (getPtFromAddr v + 8 * tableIndex 0 v) % 4096 =
        8 * tableIndex 0 v := by
      simp only [getPtFromAddr_eq, tableIndex]
      omega
    rw [recursive.translate_window 1
      [tableIndex 3 v, tableIndex 2 v, tableIndex 1 v] (indices_pt v), offset]

/-- Page tables with the slot and with one table on each level below, for the page
at 0x1000. -/
def pageTables : Memory :=
  storeLe (storeLe (storeLe (storeLe (fun _ => 0) (0x1000 + 8 * 510) 8 0x1003)
    0x1000 8 0x2003) 0x2000 8 0x3003) 0x3000 8 0x4003

/-- The window shows all four entries for that page: in the PML4, the PDPT, the page
directory and the page table. -/
theorem fractalMap_resolves_pageTables :
    Paging.translate pageTables 0x1000
        (getPml4FromAddr 0x1000 + 8 * virtaddrToPml4eIdx 0x1000) = some 0x1000 ∧
      Paging.translate pageTables 0x1000
        (getPdptFromAddr 0x1000 + 8 * virtaddrToPdpeIdx 0x1000) = some 0x2000 ∧
      Paging.translate pageTables 0x1000
        (getPdFromAddr 0x1000 + 8 * virtaddrToPdeIdx 0x1000) = some 0x3000 ∧
      Paging.translate pageTables 0x1000
        (getPtFromAddr 0x1000 + 8 * virtaddrToPteIdx 0x1000) = some 0x4008 := by
  have slot : RecursiveSlot pageTables 0x1000 fractalMapPml4Idx :=
    ⟨by decide, by decide⟩
  obtain ⟨pml4, pdpt, pd, pt⟩ := fractalMap_resolves slot 0x1000
  exact ⟨pml4.trans (by decide), pdpt.trans (by decide), pd.trans (by decide),
    pt.trans (by decide)⟩

end SampoOS.Kernel
