/-
Module: SampoOS.Strings
Purpose: The routines of string.c that move memory, of which Kickstart and the
  kernel each build one copy.
Trusted boundary: none
Main exports: memmove, memmove_moves
-/
import SampoOS.Lib.ByteMemory

namespace SampoOS.Strings

open ByteMemory (Memory Copied copy copyDown copy_copied copyDown_copied)

/-!
The two copies of string.c differ only in the header they include.  What differs
between their builds is the width `w` of pointers and of `size_t`: 32 bits in
Kickstart, 64 bits in the kernel.
-/

/-- `memmove`: the memory it leaves and the pointer it returns.  It copies
upwards if the destination is below the source, else downwards. -/
def memmove (w : Nat) (m : Memory) (dest src count : Nat) : Memory × Nat :=
  (if dest < src then copy w m dest src count
    else copyDown w m dest src count, dest)

/-- Either direction leaves the bytes that the source had, and nothing else
changed. -/
theorem memmove_copied {w : Nat} {m : Memory} {dest src count : Nat}
    (destFits : dest + count ≤ 2 ^ w) (srcFits : src + count ≤ 2 ^ w) :
    Copied m (memmove w m dest src count).1 dest src 0 count := by
  unfold memmove
  by_cases below : dest < src
  · rw [if_pos below]
    exact copy_copied destFits srcFits (Or.inl (Nat.le_of_lt below))
  · rw [if_neg below]
    exact copyDown_copied destFits srcFits (Nat.le_of_not_lt below)
      (Nat.le_refl count) (Copied.refl m dest src count)

/-- `memmove` moves the bytes of the source, however the two ranges overlap, and
touches nothing outside the destination. -/
theorem memmove_moves {w : Nat} {m : Memory} {dest src count : Nat}
    (destFits : dest + count ≤ 2 ^ w) (srcFits : src + count ≤ 2 ^ w) :
    (∀ i < count, (memmove w m dest src count).1 (dest + i) = m (src + i)) ∧
      (∀ x, x ∉ Set.Ico dest (dest + count) →
        (memmove w m dest src count).1 x = m x) ∧
      (memmove w m dest src count).2 = dest := by
  have copied : Copied m (memmove w m dest src count).1 dest src 0 count :=
    memmove_copied destFits srcFits
  refine ⟨fun i below => copied.inside i (Nat.zero_le i) below, ?_, rfl⟩
  intro x outside
  rw [Set.mem_Ico] at outside
  exact copied.outside x (by omega)

/-- A move by two bytes within eight. -/
theorem memmove_moves_overlapping :
    (∀ i < 6, (memmove 32 UInt8.ofNat 0x1002 0x1000 6).1 (0x1002 + i) =
        UInt8.ofNat (0x1000 + i)) ∧
      (∀ x, x ∉ Set.Ico 0x1002 (0x1002 + 6) →
        (memmove 32 UInt8.ofNat 0x1002 0x1000 6).1 x = UInt8.ofNat x) ∧
      (memmove 32 UInt8.ofNat 0x1002 0x1000 6).2 = 0x1002 :=
  memmove_moves (by omega) (by omega)

end SampoOS.Strings
