/-
Module: SampoOS.Lib.ByteMemory
Purpose: Byte-addressed memory with little- and big-endian words: what a load
  sees after a store to the same or to a disjoint range.
Trusted boundary: none
Main exports: Memory, leValue, beValue, loadLe, storeLe, readLe, readBe,
  loadLe_storeLe, loadLe_congr, storeLe_outside, HoldsBytes,
  holdsBytes_append, Stored, leBytes, beBytes, loadLe_of_holdsBytes,
  beValue_of_holdsBytes, readLe_eq, readBe_eq,
  fill, copy, copyDown, fill_apply, Copied, copy_copied, copyDown_copied,
  copy_apply, cyclicRange, cyclicRange_subset,
  cyclicRange_disjoint, fill_cyclic, copy_outside, cyclicRange_subset_Ico
-/
import Mathlib.Data.Nat.ModEq
import Mathlib.Data.Set.Lattice
import Mathlib.Logic.Function.Basic
import Mathlib.Order.CompletePartialOrder
import Mathlib.Tactic.Ring
import SampoOS.Lib.BitFields

namespace ByteMemory

/-- Memory contents: one byte per address. -/
abbrev Memory := Nat → UInt8

/-! ## Word values -/

/-- Little-endian value of the first `n` bytes of a sequence. -/
def leValue (bytes : Nat → UInt8) : Nat → Nat
  | 0 => 0
  | n + 1 => leValue bytes n + (bytes n).toNat * 256 ^ n

/-- Big-endian value of the first `n` bytes of a sequence. -/
def beValue (bytes : Nat → UInt8) : Nat → Nat
  | 0 => 0
  | n + 1 => beValue bytes n * 256 + (bytes n).toNat

theorem leValue_lt (bytes : Nat → UInt8) (n : Nat) :
    leValue bytes n < 256 ^ n := by
  induction n with
  | zero => simp [leValue]
  | succ n inductionHypothesis =>
      have digit : (bytes n).toNat + 1 ≤ 256 := (bytes n).toNat_lt
      calc
        leValue bytes n + (bytes n).toNat * 256 ^ n
            < 256 ^ n + (bytes n).toNat * 256 ^ n := by omega
        _ = ((bytes n).toNat + 1) * 256 ^ n := by ring
        _ ≤ 256 * 256 ^ n := Nat.mul_le_mul_right _ digit
        _ = 256 ^ (n + 1) := by ring

theorem leValue_congr {bytes bytes' : Nat → UInt8} {n : Nat}
    (same : ∀ i < n, bytes i = bytes' i) : leValue bytes n = leValue bytes' n := by
  induction n with
  | zero => rfl
  | succ n inductionHypothesis =>
      rw [leValue, leValue, same n (by omega),
        inductionHypothesis fun i below => same i (by omega)]

theorem beValue_congr {bytes bytes' : Nat → UInt8} {n : Nat}
    (same : ∀ i < n, bytes i = bytes' i) : beValue bytes n = beValue bytes' n := by
  induction n with
  | zero => rfl
  | succ n inductionHypothesis =>
      rw [beValue, beValue, same n (by omega),
        inductionHypothesis fun i below => same i (by omega)]

/-- Zero bytes make a zero word. -/
theorem leValue_zero {bytes : Nat → UInt8} {n : Nat}
    (zero : ∀ i < n, bytes i = 0) : leValue bytes n = 0 := by
  induction n with
  | zero => rfl
  | succ n inductionHypothesis =>
      rw [leValue, zero n (by omega),
        inductionHypothesis fun i below => zero i (by omega)]
      simp

/-- A little-endian word in two parts. -/
theorem leValue_add (bytes : Nat → UInt8) (n k : Nat) :
    leValue bytes (n + k) =
      leValue bytes n + 256 ^ n * leValue (fun i => bytes (n + i)) k := by
  induction k with
  | zero => rw [leValue, Nat.mul_zero]; rfl
  | succ k inductionHypothesis =>
      rw [← Nat.add_assoc, leValue, inductionHypothesis, leValue]
      ring

/-- A big-endian word in two parts. -/
theorem beValue_add (bytes : Nat → UInt8) (n k : Nat) :
    beValue bytes (n + k) =
      beValue bytes n * 256 ^ k + beValue (fun i => bytes (n + i)) k := by
  induction k with
  | zero => rw [beValue, Nat.pow_zero, Nat.mul_one]; rfl
  | succ k inductionHypothesis =>
      rw [← Nat.add_assoc, beValue, inductionHypothesis, beValue]
      ring

/-- The base-256 digits of a value recombine to the value, cut to the width. -/
theorem leValue_digits (v n : Nat) :
    leValue (fun i => UInt8.ofNat (v / 256 ^ i)) n = v % 256 ^ n := by
  induction n with
  | zero => simp [leValue, Nat.mod_one]
  | succ n inductionHypothesis =>
      have digit : (UInt8.ofNat (v / 256 ^ n)).toNat = v / 256 ^ n % 256 :=
        UInt8.toNat_ofNat'
      rw [leValue, inductionHypothesis, digit, Nat.pow_succ,
        Nat.mod_mul (x := v), Nat.mul_comm (256 ^ n)]

private theorem beValue_leading_digits (v n : Nat) :
    ∀ k ≤ n,
      beValue (fun i => UInt8.ofNat (v / 256 ^ (n - 1 - i))) k =
        v / 256 ^ (n - k) % 256 ^ k := by
  intro k
  induction k with
  | zero => simp [beValue, Nat.mod_one]
  | succ k inductionHypothesis =>
      intro below
      have digit : (UInt8.ofNat (v / 256 ^ (n - 1 - k))).toNat =
          v / 256 ^ (n - 1 - k) % 256 := UInt8.toNat_ofNat'
      have higher : n - k = n - 1 - k + 1 := by omega
      have lower : n - (k + 1) = n - 1 - k := by omega
      rw [beValue, inductionHypothesis (by omega), digit, higher, lower,
        Nat.pow_succ, ← Nat.div_div_eq_div_mul, Nat.pow_succ,
        Nat.mul_comm (256 ^ k) 256, Nat.mod_mul]
      omega

/-- So do the digits in big-endian order. -/
theorem beValue_digits (v n : Nat) :
    beValue (fun i => UInt8.ofNat (v / 256 ^ (n - 1 - i))) n = v % 256 ^ n := by
  have whole := beValue_leading_digits v n n (Nat.le_refl n)
  rwa [Nat.sub_self, Nat.pow_zero, Nat.div_one] at whole

/-! ## Loads and stores -/

/-- Little-endian word of `n` bytes at an address. -/
def loadLe (m : Memory) (a n : Nat) : Nat := leValue (fun i => m (a + i)) n

/-- Store the low `n` bytes of a value, least significant byte first. -/
def storeLe (m : Memory) (a n v : Nat) : Memory := fun x =>
  if a ≤ x ∧ x < a + n then UInt8.ofNat (v / 256 ^ (x - a)) else m x

theorem storeLe_outside {m : Memory} {a n v x : Nat}
    (outside : x < a ∨ a + n ≤ x) : storeLe m a n v x = m x := by
  rw [storeLe, if_neg (by omega)]

theorem storeLe_zero (m : Memory) (a v : Nat) : storeLe m a 0 v = m :=
  funext fun _ => storeLe_outside (by omega)

/-- The last byte of a word is stored behind the others. -/
theorem storeLe_succ (m : Memory) (a n v : Nat) :
    storeLe m a (n + 1) v =
      Function.update (storeLe m a n v) (a + n) (UInt8.ofNat (v / 256 ^ n)) := by
  funext x
  rw [Function.update_apply]
  split
  next last => rw [last, storeLe, if_pos (by omega), Nat.add_sub_cancel_left]
  next other =>
    rw [storeLe, storeLe]
    exact if_congr (by omega) rfl rfl

theorem loadLe_lt (m : Memory) (a n : Nat) : loadLe m a n < 256 ^ n :=
  leValue_lt _ n

theorem loadLe_congr {m m' : Memory} {a n : Nat}
    (same : ∀ x, a ≤ x → x < a + n → m x = m' x) :
    loadLe m a n = loadLe m' a n :=
  leValue_congr fun i below => same (a + i) (by omega) (by omega)

theorem loadLe_zero {m : Memory} {a n : Nat}
    (zero : ∀ x, a ≤ x → x < a + n → m x = 0) : loadLe m a n = 0 :=
  leValue_zero fun i below => zero (a + i) (by omega) (by omega)

/-- Reading back a stored word. -/
theorem loadLe_storeLe (m : Memory) (a n v : Nat) :
    loadLe (storeLe m a n v) a n = v % 256 ^ n := by
  rw [← leValue_digits v n]
  apply leValue_congr
  intro i below
  rw [storeLe, if_pos (by omega), Nat.add_sub_cancel_left]

/-- A store elsewhere does not change a word. -/
theorem loadLe_storeLe_disjoint {m : Memory} {a n v b k : Nat}
    (apart : b + k ≤ a ∨ a + n ≤ b) :
    loadLe (storeLe m a n v) b k = loadLe m b k :=
  loadLe_congr fun _ _ _ => storeLe_outside (by omega)

/-! ## Bytes in memory -/

/-- The low `n` bytes of a value, least significant byte first. -/
def leBytes (n v : Nat) : List UInt8 :=
  (List.range n).map fun i => UInt8.ofNat (v / 256 ^ i)

@[simp] theorem length_leBytes (n v : Nat) : (leBytes n v).length = n := by
  rw [leBytes, List.length_map, List.length_range]

/-- The low `n` bytes of a value, most significant byte first. -/
def beBytes (n v : Nat) : List UInt8 :=
  (List.range n).map fun i => UInt8.ofNat (v / 256 ^ (n - 1 - i))

@[simp] theorem length_beBytes (n v : Nat) : (beBytes n v).length = n := by
  rw [beBytes, List.length_map, List.length_range]

/-- Memory that holds a sequence of bytes from an address on. -/
def HoldsBytes (m : Memory) (a : Nat) (bytes : List UInt8) : Prop :=
  ∀ i (below : i < bytes.length), m (a + i) = bytes[i]

theorem holdsBytes_append {m : Memory} {a : Nat} {front back : List UInt8} :
    HoldsBytes m a (front ++ back) ↔
      HoldsBytes m a front ∧ HoldsBytes m (a + front.length) back := by
  constructor
  · intro holds
    constructor
    · intro i below
      rw [holds i (by rw [List.length_append]; omega),
        List.getElem_append_left below]
    · intro i below
      rw [Nat.add_assoc, holds (front.length + i)
        (by rw [List.length_append]; omega),
        List.getElem_append_right (Nat.le_add_right _ _)]
      simp
  · rintro ⟨inFront, inBack⟩ i below
    by_cases early : i < front.length
    · rw [inFront i early, List.getElem_append_left early]
    · rw [List.length_append] at below
      have late := inBack (i - front.length) (by omega)
      rw [List.getElem_append_right (by omega), ← late]
      congr 1
      omega

theorem holdsBytes_cons {m : Memory} {a : Nat} {byte : UInt8}
    {rest : List UInt8} :
    HoldsBytes m a (byte :: rest) ↔ m a = byte ∧ HoldsBytes m (a + 1) rest := by
  rw [← List.singleton_append, holdsBytes_append]
  apply and_congr_left'
  constructor
  · intro holds
    exact holds 0 (by simp)
  · intro head i below
    obtain rfl : i = 0 := by simpa using below
    exact head

/-- A word that memory holds is loaded. -/
theorem loadLe_of_holdsBytes {m : Memory} {a n v : Nat}
    (holds : HoldsBytes m a (leBytes n v)) : loadLe m a n = v % 256 ^ n := by
  rw [← leValue_digits v n]
  apply leValue_congr
  intro i below
  rw [holds i (by simpa using below)]
  simp [leBytes]

/-- A big-endian word that memory holds has its value. -/
theorem beValue_of_holdsBytes {m : Memory} {a n v : Nat}
    (holds : HoldsBytes m a (beBytes n v)) :
    beValue (fun i => m (a + i)) n = v % 256 ^ n := by
  rw [← beValue_digits v n]
  apply beValue_congr
  intro i below
  rw [holds i (by simpa using below)]
  simp [beBytes]

/-- Memory that holds some bytes and nothing else. -/
def memoryOf (a : Nat) (bytes : List UInt8) : Memory := fun x =>
  bytes.getD (x - a) 0

theorem holdsBytes_memoryOf (a : Nat) (bytes : List UInt8) :
    HoldsBytes (memoryOf a bytes) a bytes := by
  intro i below
  rw [memoryOf, Nat.add_sub_cancel_left, List.getD_eq_getElem _ _ below]

/-- In `m'` the bytes have been stored from `a` on, and nothing else has
changed. -/
structure Stored (m m' : Memory) (a : Nat) (bytes : List UInt8) : Prop where
  holds : HoldsBytes m' a bytes
  outside : ∀ x, x < a ∨ a + bytes.length ≤ x → m' x = m x

namespace Stored

variable {m m' m'' : Memory} {a : Nat} {byte : UInt8}
  {bytes front front' back : List UInt8}

theorem single (m : Memory) (a : Nat) (byte : UInt8) :
    Stored m (Function.update m a byte) a [byte] where
  holds := by
    intro i below
    obtain rfl : i = 0 := by simpa using below
    exact Function.update_self ..
  outside := by
    intro x outside
    rw [List.length_singleton] at outside
    exact Function.update_of_ne (by omega) ..

/-- Storing more bytes behind those stored before. -/
theorem append (first : Stored m m' a front)
    (second : Stored m' m'' (a + front.length) back) :
    Stored m m'' a (front ++ back) where
  holds := by
    rw [holdsBytes_append]
    refine ⟨?_, second.holds⟩
    intro i below
    rw [second.outside _ (by omega), first.holds i below]
  outside := by
    intro x outside
    rw [List.length_append] at outside
    rw [second.outside x (by omega), first.outside x (by omega)]

theorem cons (rest : Stored (Function.update m a byte) m' (a + 1) bytes) :
    Stored m m' a (byte :: bytes) :=
  (single m a byte).append rest

/-- Storing as many bytes over the first ones. -/
theorem overwrite (first : Stored m m' a (front ++ back))
    (second : Stored m' m'' a front') (size : front'.length = front.length) :
    Stored m m'' a (front' ++ back) where
  holds := by
    rw [holdsBytes_append]
    refine ⟨second.holds, ?_⟩
    have behind := (holdsBytes_append.mp first.holds).2
    intro i below
    rw [second.outside _ (by omega), size, behind i below]
  outside := by
    intro x outside
    rw [List.length_append] at outside
    rw [second.outside x (by omega), first.outside x (by
      rw [List.length_append]
      omega)]

end Stored

/-! ## Words assembled by shifting and or-ing bytes -/

/-- Assemble `n` bytes, the first one least significant, by `|=` and `<<`. -/
def readLe (m : Memory) (a n : Nat) : Nat :=
  (List.range n).foldl (fun v i => v ||| (m (a + i)).toNat <<< (8 * i)) 0

/-- Assemble `n` bytes, the first one most significant, by `|=` and `<<`. -/
def readBe (m : Memory) (a n : Nat) : Nat :=
  (List.range n).foldl
    (fun v i => v ||| (m (a + i)).toNat <<< (8 * (n - 1 - i))) 0

private theorem or_shifted_byte {v : Nat} {k : Nat} (b : UInt8)
    (below : v < 256 ^ k) : v ||| b.toNat <<< (8 * k) = v + b.toNat * 256 ^ k := by
  have base : (256 : Nat) ^ k = 2 ^ (8 * k) := by
    rw [Nat.pow_mul]
  rw [base] at below ⊢
  rw [Nat.or_comm, Nat.shiftLeft_eq,
    BitFields.or_eq_add_of_dvd (Nat.dvd_mul_left _ _) below, Nat.add_comm]

/-- Shifting and or-ing little-endian bytes gives their value. -/
theorem readLe_eq (m : Memory) (a n : Nat) : readLe m a n = loadLe m a n := by
  induction n with
  | zero => rfl
  | succ n inductionHypothesis =>
      rw [readLe, List.range_succ, List.foldl_append]
      rw [readLe] at inductionHypothesis
      rw [inductionHypothesis, List.foldl_cons, List.foldl_nil,
        or_shifted_byte _ (loadLe_lt m a n)]
      rfl

private theorem or_lower_byte (v s : Nat) (b : UInt8) :
    v * 256 ^ (s + 1) ||| b.toNat <<< (8 * s) = (v * 256 + b.toNat) * 256 ^ s := by
  have digit : b.toNat < 2 ^ 8 := b.toNat_lt
  have base : (256 : Nat) ^ s = 2 ^ (8 * s) := by rw [Nat.pow_mul]
  have multiple : 2 ^ 8 ∣ v * 256 := Nat.dvd_mul_left (2 ^ 8) v
  have shifted : v * 256 ^ (s + 1) = (v * 256) <<< (8 * s) := by
    rw [Nat.shiftLeft_eq, ← base]
    ring
  rw [shifted, ← Nat.shiftLeft_or_distrib,
    BitFields.or_eq_add_of_dvd multiple digit, Nat.shiftLeft_eq, base]

private theorem foldl_readBe (m : Memory) (a n : Nat) :
    ∀ k ≤ n,
      (List.range k).foldl
        (fun v i => v ||| (m (a + i)).toNat <<< (8 * (n - 1 - i))) 0 =
        beValue (fun i => m (a + i)) k * 256 ^ (n - k) := by
  intro k
  induction k with
  | zero => simp [beValue]
  | succ k inductionHypothesis =>
      intro below
      have width : n - k = n - 1 - k + 1 := by omega
      rw [List.range_succ, List.foldl_append, inductionHypothesis (by omega),
        List.foldl_cons, List.foldl_nil, width, or_lower_byte, beValue,
        show n - (k + 1) = n - 1 - k by omega]

/-- Shifting and or-ing big-endian bytes gives their value. -/
theorem readBe_eq (m : Memory) (a n : Nat) :
    readBe m a n = beValue (fun i => m (a + i)) n := by
  have whole := foldl_readBe m a n n (Nat.le_refl n)
  simpa [readBe] using whole

/-! ## Filling and copying, byte by byte -/

/-- Write `count` equal bytes from `dest` on; addresses have `w` bits. -/
def fill (w : Nat) (m : Memory) (dest : Nat) (byte : UInt8) (count : Nat) :
    Memory :=
  (List.range count).foldl
    (fun m i => Function.update m ((dest + i) % 2 ^ w) byte) m

/-- Copy `count` bytes upwards from `src` to `dest`; addresses have `w` bits. -/
def copy (w : Nat) (m : Memory) (dest src count : Nat) : Memory :=
  (List.range count).foldl
    (fun m i => Function.update m ((dest + i) % 2 ^ w) (m ((src + i) % 2 ^ w))) m

/-- Copy `count` bytes from `src` to `dest`, the last one first; addresses have
`w` bits. -/
def copyDown (w : Nat) (m : Memory) (dest src : Nat) : Nat → Memory
  | 0 => m
  | i + 1 =>
      copyDown w
        (Function.update m ((dest + i) % 2 ^ w) (m ((src + i) % 2 ^ w)))
        dest src i

theorem fill_succ (w : Nat) (m : Memory) (dest : Nat) (byte : UInt8) (count : Nat) :
    fill w m dest byte (count + 1) =
      Function.update (fill w m dest byte count) ((dest + count) % 2 ^ w) byte := by
  rw [fill, List.range_succ, List.foldl_append]
  rfl

/-- What a fill leaves at each address, when it does not wrap around. -/
theorem fill_apply {w : Nat} {m : Memory} {dest count : Nat} {byte : UInt8}
    (fits : dest + count ≤ 2 ^ w) (x : Nat) :
    fill w m dest byte count x =
      if dest ≤ x ∧ x < dest + count then byte else m x := by
  induction count with
  | zero => rw [if_neg (by omega)]; rfl
  | succ count inductionHypothesis =>
      rw [fill_succ, Nat.mod_eq_of_lt (by omega), Function.update_apply,
        inductionHypothesis (by omega)]
      by_cases last : x = dest + count
      · rw [if_pos last, if_pos (by omega)]
      · rw [if_neg last]
        exact if_congr (by omega) rfl rfl

/-- In `m'` the bytes from `lo` up to `hi` of the destination have been copied
from the source as it was in `m`, and nothing else has changed. -/
structure Copied (m m' : Memory) (dest src lo hi : Nat) : Prop where
  inside : ∀ i, lo ≤ i → i < hi → m' (dest + i) = m (src + i)
  outside : ∀ x, x < dest + lo ∨ dest + hi ≤ x → m' x = m x

namespace Copied

variable {m m' : Memory} {dest src lo hi : Nat}

theorem refl (m : Memory) (dest src i : Nat) : Copied m m dest src i i :=
  ⟨fun _ _ _ => by omega, fun _ _ => rfl⟩

/-- Copying the byte behind the copied ones, which is still the original one. -/
theorem up (copied : Copied m m' dest src lo hi) (order : lo ≤ hi)
    (original : src + hi < dest + lo ∨ dest ≤ src) :
    Copied m (Function.update m' (dest + hi) (m' (src + hi))) dest src lo
      (hi + 1) where
  inside := by
    intro i above below
    by_cases last : i = hi
    · rw [last, Function.update_self]
      exact copied.outside _ (by omega)
    · rw [Function.update_of_ne (by omega)]
      exact copied.inside i above (by omega)
  outside := by
    intro x outside
    rw [Function.update_of_ne (by omega)]
    exact copied.outside x (by omega)

/-- Copying the byte ahead of the copied ones, which is still the original
one. -/
theorem down (copied : Copied m m' dest src (lo + 1) hi) (order : lo < hi)
    (original : src ≤ dest) :
    Copied m (Function.update m' (dest + lo) (m' (src + lo))) dest src lo hi where
  inside := by
    intro i above below
    by_cases first : i = lo
    · rw [first, Function.update_self]
      exact copied.outside _ (by omega)
    · rw [Function.update_of_ne (by omega)]
      exact copied.inside i (by omega) below
  outside := by
    intro x outside
    rw [Function.update_of_ne (by omega)]
    exact copied.outside x (by omega)

end Copied

/-- An upward copy reads each byte before it is overwritten, when the
destination starts no later than the source or behind it. -/
theorem copy_copied {w : Nat} {m : Memory} {dest src count : Nat}
    (fits : dest + count ≤ 2 ^ w) (srcFits : src + count ≤ 2 ^ w)
    (ahead : dest ≤ src ∨ src + count ≤ dest) :
    Copied m (copy w m dest src count) dest src 0 count := by
  induction count with
  | zero => exact Copied.refl m dest src 0
  | succ count inductionHypothesis =>
      have before := inductionHypothesis (by omega) (by omega) (by omega)
      have step := before.up (Nat.zero_le _) (by omega)
      rw [copy] at step ⊢
      rw [List.range_succ, List.foldl_append, List.foldl_cons, List.foldl_nil,
        Nat.mod_eq_of_lt (by omega), Nat.mod_eq_of_lt (by omega)]
      exact step

/-- A downward copy reads each byte before it is overwritten, when the
destination starts no earlier than the source. -/
theorem copyDown_copied {w : Nat} {m m' : Memory} {dest src count : Nat}
    (fits : dest + count ≤ 2 ^ w) (srcFits : src + count ≤ 2 ^ w)
    (behind : src ≤ dest) {i : Nat} (below : i ≤ count)
    (copied : Copied m m' dest src i count) :
    Copied m (copyDown w m' dest src i) dest src 0 count := by
  induction i generalizing m' with
  | zero => exact copied
  | succ i inductionHypothesis =>
      rw [copyDown, Nat.mod_eq_of_lt (by omega), Nat.mod_eq_of_lt (by omega)]
      exact inductionHypothesis (by omega) (copied.down below behind)

/-- What a copy leaves at each address, when neither range wraps around and
they do not overlap. -/
theorem copy_apply {w : Nat} {m : Memory} {dest src count : Nat}
    (fits : dest + count ≤ 2 ^ w) (srcFits : src + count ≤ 2 ^ w)
    (apart : dest + count ≤ src ∨ src + count ≤ dest) (x : Nat) :
    copy w m dest src count x =
      if dest ≤ x ∧ x < dest + count then m (src + (x - dest)) else m x := by
  have copied : Copied m (copy w m dest src count) dest src 0 count :=
    copy_copied fits srcFits (by omega)
  split
  next within =>
    have byte := copied.inside (x - dest) (Nat.zero_le _) (by omega)
    rwa [Nat.add_sub_of_le within.1] at byte
  next without => exact copied.outside x (by omega)

/-! ## Ranges that may wrap around -/

/-- `count` addresses of `w` bits from `start` on. -/
def cyclicRange (w start count : Nat) : Set Nat :=
  {x | ∃ k < count, x = (start + k) % 2 ^ w}

theorem mem_cyclicRange {w start count x : Nat} :
    x ∈ cyclicRange w start count ↔ ∃ k < count, x = (start + k) % 2 ^ w :=
  Iff.rfl

/-- A part of a range, at an offset into it. -/
theorem cyclicRange_subset {w base offset count length : Nat}
    (within : offset + count ≤ length) :
    cyclicRange w ((base + offset) % 2 ^ w) count ⊆ cyclicRange w base length := by
  rintro x ⟨k, below, rfl⟩
  exact ⟨offset + k, by omega, by rw [Nat.mod_add_mod, Nat.add_assoc]⟩

/-- Offsets into a range that is not longer than the address space are told
apart by their addresses. -/
theorem cyclic_injective {w base j k : Nat} (belowJ : j < 2 ^ w)
    (belowK : k < 2 ^ w) (same : (base + j) % 2 ^ w = (base + k) % 2 ^ w) :
    j = k :=
  Nat.ModEq.eq_of_lt_of_lt (Nat.ModEq.add_left_cancel' base same) belowJ belowK

/-- Two parts that do not overlap as offsets do not overlap as addresses. -/
theorem cyclicRange_disjoint {w base first firstCount second secondCount : Nat}
    (order : first + firstCount ≤ second)
    (fits : second + secondCount ≤ 2 ^ w) :
    Disjoint (cyclicRange w ((base + first) % 2 ^ w) firstCount)
      (cyclicRange w ((base + second) % 2 ^ w) secondCount) := by
  rw [Set.disjoint_left]
  rintro x ⟨j, belowJ, rfl⟩ ⟨k, belowK, same⟩
  rw [Nat.mod_add_mod, Nat.mod_add_mod, Nat.add_assoc, Nat.add_assoc] at same
  have offsets := cyclic_injective (show first + j < 2 ^ w by omega)
    (show second + k < 2 ^ w by omega) same
  omega

/-- What a fill leaves at each address, also when it wraps around. -/
theorem fill_cyclic {w : Nat} {m : Memory} {dest count : Nat} {byte : UInt8}
    (x : Nat) :
    (x ∈ cyclicRange w dest count → fill w m dest byte count x = byte) ∧
      (x ∉ cyclicRange w dest count → fill w m dest byte count x = m x) := by
  induction count with
  | zero => exact ⟨fun ⟨k, below, _⟩ => absurd below (Nat.not_lt_zero k), fun _ => rfl⟩
  | succ count inductionHypothesis =>
      have step : fill w m dest byte (count + 1) x =
          if x = (dest + count) % 2 ^ w then byte
          else fill w m dest byte count x := by
        rw [fill_succ, Function.update_apply]
      rw [step]
      constructor
      · rintro ⟨k, below, isOffset⟩
        split
        next => rfl
        next other =>
          have different : k ≠ count := fun same => other (same ▸ isOffset)
          exact inductionHypothesis.1 ⟨k, by omega, isOffset⟩
      · intro outside
        rw [if_neg fun same => outside ⟨count, by omega, same⟩]
        exact inductionHypothesis.2 fun ⟨k, below, isOffset⟩ =>
          outside ⟨k, by omega, isOffset⟩

/-- A copy changes nothing outside of its destination, also when it wraps
around. -/
theorem copy_outside {w : Nat} {m : Memory} {dest src count x : Nat}
    (outside : x ∉ cyclicRange w dest count) : copy w m dest src count x = m x := by
  induction count with
  | zero => rfl
  | succ count inductionHypothesis =>
      have step : copy w m dest src (count + 1) x =
          if x = (dest + count) % 2 ^ w then
            copy w m dest src count ((src + count) % 2 ^ w)
          else copy w m dest src count x := by
        rw [copy, List.range_succ, List.foldl_append, List.foldl_cons,
          List.foldl_nil, Function.update_apply]
        rfl
      rw [step, if_neg fun same => outside ⟨count, by omega, same⟩]
      apply inductionHypothesis
      rintro ⟨k, below, isOffset⟩
      exact outside ⟨k, by omega, isOffset⟩

/-- A range lies in a block that starts where it does if it is not longer than
the block and does not wrap around. -/
theorem cyclicRange_subset_Ico {w start count length : Nat} (positive : 0 < start)
    (word : start < 2 ^ w) :
    cyclicRange w start count ⊆ Set.Ico start (start + length) ↔
      count ≤ length ∧ (count = 0 ∨ start + count ≤ 2 ^ w) := by
  constructor
  · intro inside
    by_cases empty : count = 0
    · exact ⟨by omega, Or.inl empty⟩
    have noWrap : start + count ≤ 2 ^ w := by
      by_contra wraps
      have zero : 0 ∈ cyclicRange w start count :=
        ⟨2 ^ w - start, by omega, by
          rw [Nat.add_sub_of_le (Nat.le_of_lt word), Nat.mod_self]⟩
      have above := (inside zero).1
      omega
    have last : start + (count - 1) ∈ cyclicRange w start count :=
      ⟨count - 1, by omega, (Nat.mod_eq_of_lt (by omega)).symm⟩
    have below := (inside last).2
    exact ⟨by omega, Or.inr noWrap⟩
  · rintro ⟨short, noWrap⟩ x ⟨k, below, rfl⟩
    rw [Nat.mod_eq_of_lt (by omega)]
    exact ⟨by omega, by omega⟩

end ByteMemory
