/-
Module: SampoOS.Lib.VirtualMemory
Purpose: Accesses through page tables byte by byte, and runs of pages behind which
  there is memory of their own.
Trusted boundary: none
Main exports: readByte, writeByte, loadWord, storeWord, fillBytes, PageRun,
  PageRun.overlay, PageRun.Backed, readByte_overlay, writeByte_overlay,
  loadWord_overlay, storeWord_overlay, fillBytes_overlay
-/
import SampoOS.Lib.Paging

namespace Paging

open ByteMemory

/-!
An access faults, and then has no result, where its address is not canonical or
not mapped, and where a page that is written to is not writable.
-/

/-! ## Accesses -/

/-- Read a byte through the page tables. -/
def readByte (m : Memory) (root v : Nat) : Option UInt8 :=
  if Canonical v then (translate m root v).map m else none

/-- Write a byte through the page tables. -/
def writeByte (m : Memory) (root v : Nat) (byte : UInt8) : Option Memory :=
  if Canonical v then
    (translatePage m root v).bind fun mapping =>
      if mapping.writable then
        some (Function.update m (mapping.frame + v % 4096) byte)
      else none
  else none

/-- Read a little-endian word of `n` bytes. -/
def loadWord (m : Memory) (root v : Nat) : Nat → Option Nat
  | 0 => some 0
  | n + 1 => do
      let low ← loadWord m root v n
      let byte ← readByte m root (v + n)
      return low + byte.toNat * 256 ^ n

/-- Write the low `n` bytes of a value, least significant byte first. -/
def storeWord (m : Memory) (root v value : Nat) : Nat → Option Memory
  | 0 => some m
  | n + 1 => do
      let m ← storeWord m root v value n
      writeByte m root (v + n) (UInt8.ofNat (value / 256 ^ n))

/-- Write equal bytes behind each other; addresses have `w` bits. -/
def fillBytes (w : Nat) (m : Memory) (root v : Nat) (byte : UInt8) :
    Nat → Option Memory
  | 0 => some m
  | n + 1 => do
      let m ← fillBytes w m root v byte n
      writeByte m root ((v + n) % 2 ^ w) byte

/-! ## Runs of pages -/

/-- Addresses from `start` on that are mapped to those from `frame` on. -/
structure PageRun where
  start : Nat
  frame : Nat
  size : Nat
deriving Repr, DecidableEq

namespace PageRun

/-- The physical addresses of a run. -/
def frames (run : PageRun) : Set Nat := Set.Ico run.frame (run.frame + run.size)

/-- The memory `m`, in which the frames of a run hold what `own` holds at the run's
own addresses. -/
def overlay (run : PageRun) (m own : Memory) : Memory := fun x =>
  if run.frame ≤ x ∧ x < run.frame + run.size then
    own (run.start + (x - run.frame))
  else m x

/-- Whatever the frames hold, the addresses of the run are mapped to them. -/
structure Backed (run : PageRun) (m : Memory) (root : Nat) : Prop where
  canonical : ∀ i < run.size, Canonical (run.start + i)
  mapped : ∀ own, ∀ i < run.size, ∃ mapping,
    translatePage (run.overlay m own) root (run.start + i) = some mapping ∧
      mapping.writable = true ∧
      mapping.frame + (run.start + i) % 4096 = run.frame + i

section Overlay

variable {run : PageRun} {m own own' : Memory}

theorem overlay_frame {i : Nat} (below : i < run.size) :
    run.overlay m own (run.frame + i) = own (run.start + i) := by
  rw [overlay, if_pos ⟨Nat.le_add_right _ _, Nat.add_lt_add_left below _⟩,
    Nat.add_sub_cancel_left]

theorem overlay_outside {x : Nat} (outside : x ∉ run.frames) :
    run.overlay m own x = m x :=
  if_neg outside

/-- Only what is in the run matters. -/
theorem overlay_congr
    (same : ∀ i < run.size, own (run.start + i) = own' (run.start + i)) :
    run.overlay m own = run.overlay m own' := by
  funext x
  rw [overlay, overlay]
  split
  next inside => exact same _ (by omega)
  next => rfl

/-- Every memory is laid over itself. -/
theorem overlay_self :
    run.overlay m (fun v => m (run.frame + (v - run.start))) = m := by
  funext x
  rw [overlay]
  split
  next inside => rw [Nat.add_sub_cancel_left, Nat.add_sub_of_le inside.1]
  next => rfl

/-- Writing to a frame is writing to the run's own memory. -/
theorem update_overlay {i : Nat} (below : i < run.size) (byte : UInt8) :
    Function.update (run.overlay m own) (run.frame + i) byte =
      run.overlay m (Function.update own (run.start + i) byte) := by
  funext x
  by_cases inside : x ∈ run.frames
  · obtain ⟨j, rfl⟩ := Nat.exists_eq_add_of_le inside.1
    have belowJ : j < run.size := Nat.lt_of_add_lt_add_left inside.2
    rw [overlay_frame belowJ, Function.update_apply, Function.update_apply,
      overlay_frame belowJ]
    exact if_congr (by omega) rfl rfl
  · rw [overlay_outside inside, Function.update_of_ne, overlay_outside inside]
    rintro rfl
    exact inside ⟨Nat.le_add_right _ _, Nat.add_lt_add_left below _⟩

end Overlay

section Access

variable {run : PageRun} {m own : Memory} {root v n : Nat}
  (backed : run.Backed m root)

include backed

theorem readByte_overlay (low : run.start ≤ v) (high : v < run.start + run.size) :
    readByte (run.overlay m own) root v = some (own v) := by
  obtain ⟨i, rfl⟩ := Nat.exists_eq_add_of_le low
  have below : i < run.size := Nat.lt_of_add_lt_add_left high
  obtain ⟨mapping, mapped, _, address⟩ := backed.mapped own i below
  rw [readByte, if_pos (backed.canonical i below), translate, mapped, Option.map_some,
    Option.map_some, address, overlay_frame below]

theorem writeByte_overlay (byte : UInt8) (low : run.start ≤ v)
    (high : v < run.start + run.size) :
    writeByte (run.overlay m own) root v byte =
      some (run.overlay m (Function.update own v byte)) := by
  obtain ⟨i, rfl⟩ := Nat.exists_eq_add_of_le low
  have below : i < run.size := Nat.lt_of_add_lt_add_left high
  obtain ⟨mapping, mapped, writable, address⟩ := backed.mapped own i below
  rw [writeByte, if_pos (backed.canonical i below), mapped, Option.bind_some,
    if_pos writable, address, update_overlay below]

/-- A word in the run is read from its own memory. -/
theorem loadWord_overlay (low : run.start ≤ v) (high : v + n ≤ run.start + run.size) :
    loadWord (run.overlay m own) root v n = some (loadLe own v n) := by
  induction n with
  | zero => rfl
  | succ n inductionHypothesis =>
      rw [loadWord, inductionHypothesis (by omega),
        readByte_overlay backed (by omega) (by omega)]
      rfl

theorem storeWord_overlay (value : Nat) (low : run.start ≤ v)
    (high : v + n ≤ run.start + run.size) :
    storeWord (run.overlay m own) root v value n =
      some (run.overlay m (storeLe own v n value)) := by
  induction n with
  | zero => rw [storeWord, storeLe_zero]
  | succ n inductionHypothesis =>
      rw [storeWord, inductionHypothesis (by omega), storeLe_succ]
      exact writeByte_overlay backed _ (by omega) (by omega)

/-- Filling a part of the run fills its own memory. -/
theorem fillBytes_overlay {w : Nat} (byte : UInt8) (low : run.start ≤ v)
    (high : v + n ≤ run.start + run.size) (word : v + n ≤ 2 ^ w) :
    fillBytes w (run.overlay m own) root v byte n =
      some (run.overlay m (fill w own v byte n)) := by
  induction n with
  | zero => rfl
  | succ n inductionHypothesis =>
      rw [fillBytes, inductionHypothesis (by omega) (by omega), fill_succ,
        Nat.mod_eq_of_lt (by omega)]
      exact writeByte_overlay backed byte (by omega) (by omega)

end Access

/-- A run that is filled from end to end holds nothing of what it held. -/
theorem fillBytes_whole {run : PageRun} {m : Memory} {root w : Nat}
    (backed : run.Backed m root) (own : Memory) (byte : UInt8)
    (word : run.start + run.size ≤ 2 ^ w) :
    fillBytes w m root run.start byte run.size =
      some (run.overlay m (fill w own run.start byte run.size)) := by
  have filled : fillBytes w (run.overlay m fun v => m (run.frame + (v - run.start))) root
      run.start byte run.size = _ :=
    fillBytes_overlay backed byte (Nat.le_refl _) (Nat.le_refl _) word
  rw [overlay_self] at filled
  rw [filled]
  congr 1
  apply overlay_congr
  intro i below
  rw [fill_apply word, fill_apply word, if_pos (by omega), if_pos (by omega)]

end PageRun

end Paging
