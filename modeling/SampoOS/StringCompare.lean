/-
Module: SampoOS.StringCompare
Purpose: The string comparisons of string.c, of which Kickstart and the kernel
  each build one copy.
Trusted boundary: none
Main exports: strcmp, strncmp, strcmp_orderedAs, strncmp_orderedAs_iff,
  BoundedComparison, TailsAgree, strncmp_bounded_iff
-/
import SampoOS.Lib.CString

namespace SampoOS.Strings

open ByteMemory (Memory)
open CString

/-! ## strcmp and strncmp -/

/-- `strcmp`, with pointers of `w` bits; the loop runs as long as there is
fuel. -/
def strcmp (w : Nat) (m : Memory) : Nat → Nat → Nat → Option Int
  | 0, _, _ => none
  | fuel + 1, a, b =>
      if m a = m b then
        if m a = 0 then some 0
        else strcmp w m fuel ((a + 1) % 2 ^ w) ((b + 1) % 2 ^ w)
      else some ((m a).toNat - (m b).toNat)

/-- The loop of `strncmp` from index `i` on, with `remaining` turns to go.  The
test for the end of the strings looks at `*a`, the first byte of the string, and
not at `a[i]`. -/
def strncmpFrom (w : Nat) (m : Memory) (a b i : Nat) : Nat → Int
  | 0 => 0
  | remaining + 1 =>
      if m ((a + i) % 2 ^ w) = m ((b + i) % 2 ^ w) then
        if m a = 0 then 0 else strncmpFrom w m a b (i + 1) remaining
      else (m ((a + i) % 2 ^ w)).toNat - (m ((b + i) % 2 ^ w)).toNat

/-- `strncmp`. -/
def strncmp (w : Nat) (m : Memory) (a b count : Nat) : Int :=
  strncmpFrom w m a b 0 count

variable {w a b : Nat} {m m' : Memory} {x y : List UInt8}

/-! ## strcmp orders strings -/

/-- With more fuel than the first string has characters, `strcmp` ends and tells
the lexicographic order. -/
theorem strcmp_orderedAs (holdsA : HoldsString w m a x)
    (holdsB : HoldsString w m b y) {fuel : Nat} (enough : x.length < fuel) :
    ∃ order, strcmp w m fuel a b = some order ∧ OrderedAs order x y := by
  induction x generalizing y a b fuel with
  | nil =>
      obtain ⟨fuel, rfl⟩ : ∃ k, fuel = k + 1 := ⟨fuel - 1, by omega⟩
      have endA : m a = 0 := holdsA.first_nil
      cases y with
      | nil =>
          have endB : m b = 0 := holdsB.first_nil
          exact ⟨0, by rw [strcmp, endA, endB, if_pos rfl, if_pos rfl],
            OrderedAs.self_iff.mpr rfl⟩
      | cons d y =>
          have first : m b = d := holdsB.first_cons
          have live : d ≠ 0 := holdsB.head_ne_zero
          have positive := toNat_pos live
          exact ⟨_, by rw [strcmp, endA, first, if_neg live.symm],
            OrderedAs.of_lt (by simpa using positive) (List.nil_lt_cons _ _)⟩
  | cons c x inductionHypothesis =>
      obtain ⟨fuel, rfl⟩ : ∃ k, fuel = k + 1 := ⟨fuel - 1, by omega⟩
      have firstA : m a = c := holdsA.first_cons
      have live : c ≠ 0 := holdsA.head_ne_zero
      cases y with
      | nil =>
          have endB : m b = 0 := holdsB.first_nil
          have positive := toNat_pos live
          exact ⟨_, by rw [strcmp, firstA, endB, if_neg live],
            OrderedAs.of_gt (by simpa using positive) (List.nil_lt_cons _ _)⟩
      | cons d y =>
          have firstB : m b = d := holdsB.first_cons
          by_cases same : c = d
          · subst same
            obtain ⟨order, compared, ordered⟩ :=
              inductionHypothesis holdsA.tail holdsB.tail
                (show x.length < fuel by simpa using enough)
            exact ⟨order, by
              rw [strcmp, firstA, firstB, if_pos rfl, if_neg live, compared],
              ordered.cons⟩
          · exact ⟨_, by rw [strcmp, firstA, firstB, if_neg same],
              OrderedAs.of_heads same⟩

/-! ## What the loop of strncmp returns -/

/-- The bytes at index `i` behind the two pointers agree. -/
abbrev AgreeAt (w : Nat) (m : Memory) (a b i : Nat) : Prop :=
  m ((a + i) % 2 ^ w) = m ((b + i) % 2 ^ w)

/-- Without a difference the loop returns 0. -/
theorem strncmpFrom_same {i remaining : Nat}
    (same : ∀ j, i ≤ j → j < i + remaining → AgreeAt w m a b j) :
    strncmpFrom w m a b i remaining = 0 := by
  induction remaining generalizing i with
  | zero => rfl
  | succ remaining inductionHypothesis =>
      have here := same i (Nat.le_refl i) (by omega)
      have rest := inductionHypothesis (i := i + 1)
        fun j above below => same j (by omega) (by omega)
      rw [strncmpFrom, if_pos here, rest, ite_self]

/-- The loop goes on to the first difference, past any zero byte behind a first
byte that is not zero. -/
theorem strncmpFrom_differs {i k remaining : Nat} (above : i ≤ k)
    (below : k < i + remaining)
    (same : ∀ j, i ≤ j → j < k → AgreeAt w m a b j)
    (different : ¬AgreeAt w m a b k) (live : i < k → m a ≠ 0) :
    strncmpFrom w m a b i remaining =
      (m ((a + k) % 2 ^ w)).toNat - (m ((b + k) % 2 ^ w)).toNat := by
  induction remaining generalizing i with
  | zero => omega
  | succ remaining inductionHypothesis =>
      by_cases here : i = k
      · subst here
        rw [strncmpFrom, if_neg different]
      · have goesOn := same i (Nat.le_refl i) (by omega)
        rw [strncmpFrom, if_pos goesOn, if_neg (live (by omega))]
        exact inductionHypothesis (by omega) (by omega)
          (fun j above below => same j (by omega) below)
          (fun _ => live (by omega))

/-- With a first byte that is not zero the loop returns 0 only if all the bytes
agree. -/
theorem strncmp_eq_zero_iff {count : Nat} (live : m a ≠ 0) :
    strncmp w m a b count = 0 ↔ ∀ i < count, AgreeAt w m a b i := by
  constructor
  · intro zero
    by_contra differs
    obtain ⟨k, below, same, different⟩ := exists_first differs
    have returned := strncmpFrom_differs (Nat.zero_le k)
      (show k < 0 + count by omega) (fun j _ earlier => same j earlier) different
      (fun _ => live)
    rw [strncmp, returned] at zero
    exact different (UInt8.toNat_inj.mp (by omega))
  · intro same
    exact strncmpFrom_same fun i _ below => same i (by omega)

/-! ## strncmp against the order of the strings -/

/-- The strings agree at an index that is not behind either end exactly if
memory does. -/
theorem agreeAt_iff (holdsA : HoldsString w m a x) (holdsB : HoldsString w m b y)
    {i : Nat} (insideA : i ≤ x.length) (insideB : i ≤ y.length) :
    AgreeAt w m a b i ↔ x.getD i 0 = y.getD i 0 := by
  rw [AgreeAt, holdsA.bytes i insideA, holdsB.bytes i insideB]

/-- The first difference of two strings is behind neither end. -/
theorem firstDifference_inside (noNulX : ∀ byte ∈ x, byte ≠ 0)
    (noNulY : ∀ byte ∈ y, byte ≠ 0) {k : Nat}
    (same : ∀ j < k, x.getD j 0 = y.getD j 0)
    (different : x.getD k 0 ≠ y.getD k 0) : k ≤ x.length ∧ k ≤ y.length := by
  have past : ∀ n, (n < k ∧ (x.length ≤ n ∧ y.length ≤ n)) → False := by
    rintro n ⟨early, pastX, pastY⟩
    apply different
    rw [(getD_eq_zero_iff noNulX).mpr (by omega),
      (getD_eq_zero_iff noNulY).mpr (by omega)]
  have together : ∀ n < k, (x.length ≤ n ↔ y.length ≤ n) := by
    intro n early
    rw [← getD_eq_zero_iff noNulX, same n early, getD_eq_zero_iff noNulY]
  constructor
  · by_contra short
    exact past x.length ⟨by omega, Nat.le_refl _,
      (together _ (by omega)).mp (Nat.le_refl _)⟩
  · by_contra short
    exact past y.length ⟨by omega, (together _ (by omega)).mpr (Nat.le_refl _),
      Nat.le_refl _⟩

/-- Strings that differ within the first `count` characters: `strncmp` returns
the difference at the first of these places. -/
theorem strncmp_of_difference (holdsA : HoldsString w m a x)
    (holdsB : HoldsString w m b y) {k count : Nat} (below : k < count)
    (same : ∀ j < k, x.getD j 0 = y.getD j 0)
    (different : x.getD k 0 ≠ y.getD k 0) :
    strncmp w m a b count = (x.getD k 0).toNat - (y.getD k 0).toNat := by
  obtain ⟨insideA, insideB⟩ :=
    firstDifference_inside holdsA.noNul holdsB.noNul same different
  have live : 0 < k → m a ≠ 0 := by
    intro later
    rw [holdsA.first, Ne, getD_eq_zero_iff holdsA.noNul]
    omega
  have returned := strncmpFrom_differs (w := w) (a := a) (b := b)
    (Nat.zero_le k) (show k < 0 + count by omega)
    (fun j _ earlier => (agreeAt_iff holdsA holdsB (by omega) (by omega)).mpr
      (same j earlier))
    (fun agree => different ((agreeAt_iff holdsA holdsB insideA insideB).mp agree))
    live
  rw [strncmp, returned, holdsA.bytes k insideA, holdsB.bytes k insideB]

/-- The bytes behind both terminators agree, as far as `count` reaches. -/
def TailsAgree (w : Nat) (m : Memory) (a b length count : Nat) : Prop :=
  ∀ i, length < i → i < count → AgreeAt w m a b i

/-- For strings that agree in their first `count` characters `strncmp` returns 0
exactly if the first one is empty or nothing behind the terminators differs. -/
theorem strncmp_eq_zero_of_same (holdsA : HoldsString w m a x)
    (holdsB : HoldsString w m b y) {count : Nat}
    (same : x.take count = y.take count) :
    strncmp w m a b count = 0 ↔ x = [] ∨ TailsAgree w m a b x.length count := by
  cases x with
  | nil =>
      refine iff_of_true ?_ (Or.inl rfl)
      cases count with
      | zero => rfl
      | succ count =>
          cases y with
          | nil =>
              have here : AgreeAt w m a b 0 :=
                (agreeAt_iff holdsA holdsB (Nat.le_refl _) (Nat.le_refl _)).mpr rfl
              rw [strncmp, strncmpFrom, if_pos here, if_pos holdsA.first_nil]
          | cons d y => simp at same
  | cons c x =>
      have live : m a ≠ 0 := by
        rw [holdsA.first_cons]
        exact holdsA.head_ne_zero
      rw [strncmp_eq_zero_iff live, or_iff_right (List.cons_ne_nil c x)]
      constructor
      · intro agree i _ below
        exact agree i below
      · intro tails i below
        by_cases inside : i ≤ (c :: x).length
        · have lengths := congrArg List.length same
          rw [List.length_take, List.length_take] at lengths
          exact (agreeAt_iff holdsA holdsB inside (by omega)).mpr
            ((take_eq_take_iff holdsA.noNul holdsB.noNul).mp same i below)
        · exact tails i (by omega) below

/-- Strings that differ in their first `count` characters have a first
difference there. -/
theorem exists_firstDifference (noNulX : ∀ byte ∈ x, byte ≠ 0)
    (noNulY : ∀ byte ∈ y, byte ≠ 0) {count : Nat}
    (differ : x.take count ≠ y.take count) :
    ∃ k < count, (∀ j < k, x.getD j 0 = y.getD j 0) ∧
      x.getD k 0 ≠ y.getD k 0 := by
  rw [Ne, take_eq_take_iff noNulX noNulY] at differ
  exact exists_first differ

/-- When the result of `strncmp` tells the order of the first `count`
characters. -/
theorem strncmp_orderedAs_iff (holdsA : HoldsString w m a x)
    (holdsB : HoldsString w m b y) (count : Nat) :
    OrderedAs (strncmp w m a b count) (x.take count) (y.take count) ↔
      x.take count ≠ y.take count ∨ x = [] ∨
        TailsAgree w m a b x.length count := by
  by_cases same : x.take count = y.take count
  · rw [← strncmp_eq_zero_of_same holdsA holdsB same, same,
      OrderedAs.self_iff, or_iff_right fun differ => differ rfl]
  · refine iff_of_true ?_ (Or.inl same)
    obtain ⟨k, below, before, different⟩ :=
      exists_firstDifference holdsA.noNul holdsB.noNul same
    rw [strncmp_of_difference holdsA holdsB below before different]
    exact orderedAs_of_firstDifference holdsA.noNul holdsB.noNul below before
      different

/-- Where the order is right, the bytes behind the terminators do not matter. -/
theorem strncmp_independent (holdsA : HoldsString w m a x)
    (holdsB : HoldsString w m b y) (holdsA' : HoldsString w m' a x)
    (holdsB' : HoldsString w m' b y) {count : Nat}
    (ordered : OrderedAs (strncmp w m a b count) (x.take count) (y.take count))
    (ordered' : OrderedAs (strncmp w m' a b count) (x.take count)
      (y.take count)) :
    strncmp w m' a b count = strncmp w m a b count := by
  by_cases same : x.take count = y.take count
  · rw [ordered.zero.mpr same, ordered'.zero.mpr same]
  · obtain ⟨k, below, before, different⟩ :=
      exists_firstDifference holdsA.noNul holdsB.noNul same
    rw [strncmp_of_difference holdsA holdsB below before different,
      strncmp_of_difference holdsA' holdsB' below before different]

/-- What a bounded comparison of two strings tells: the order of their first
`count` characters, and what `strcmp` tells if `count` goes beyond both. -/
structure BoundedComparison (w : Nat) (m : Memory) (a b : Nat)
    (x y : List UInt8) (count : Nat) : Prop where
  ordered : OrderedAs (strncmp w m a b count) (x.take count) (y.take count)
  likeStrcmp : x.length < count → y.length < count →
    ∀ fuel > x.length, ∃ order, strcmp w m fuel a b = some order ∧
      (strncmp w m a b count).sign = order.sign

theorem BoundedComparison.of_ordered (holdsA : HoldsString w m a x)
    (holdsB : HoldsString w m b y) {count : Nat}
    (ordered : OrderedAs (strncmp w m a b count) (x.take count)
      (y.take count)) : BoundedComparison w m a b x y count where
  ordered := ordered
  likeStrcmp := by
    intro shortA shortB fuel enough
    obtain ⟨order, compared, whole⟩ := strcmp_orderedAs holdsA holdsB enough
    rw [List.take_of_length_le (Nat.le_of_lt shortA),
      List.take_of_length_le (Nat.le_of_lt shortB)] at ordered
    exact ⟨order, compared, ordered.sign_eq whole⟩

/-- `strncmp` is a bounded comparison exactly for strings that differ within the
bound, for an empty first string, and if the bytes behind both terminators agree
up to the bound; between memories with these properties its result does not
depend on what follows the terminators. -/
theorem strncmp_bounded_iff (holdsA : HoldsString w m a x)
    (holdsB : HoldsString w m b y) (count : Nat) :
    (BoundedComparison w m a b x y count ↔
        x.take count ≠ y.take count ∨ x = [] ∨
          TailsAgree w m a b x.length count) ∧
      (BoundedComparison w m a b x y count →
        ∀ m', HoldsString w m' a x → HoldsString w m' b y →
          BoundedComparison w m' a b x y count →
          strncmp w m' a b count = strncmp w m a b count) := by
  constructor
  · rw [← strncmp_orderedAs_iff holdsA holdsB]
    exact ⟨fun bounded => bounded.ordered, BoundedComparison.of_ordered holdsA holdsB⟩
  · intro bounded m' holdsA' holdsB' bounded'
    exact strncmp_independent holdsA holdsB holdsA' holdsB' bounded.ordered
      bounded'.ordered

/-- Memory with one sequence of bytes at 0x1000 and another one at 0x2000. -/
def twoTexts (x y : List UInt8) : Memory := fun p =>
  if p < 0x2000 then x.getD (p - 0x1000) 0 else y.getD (p - 0x2000) 0

/-- "ab" and "ac", with different bytes behind them. -/
theorem strncmp_bounded_different :
    (BoundedComparison 32 (twoTexts [0x61, 0x62, 0, 1] [0x61, 0x63, 0, 2])
          0x1000 0x2000 [0x61, 0x62] [0x61, 0x63] 5 ↔
        [0x61, 0x62].take 5 ≠ ([0x61, 0x63] : List UInt8).take 5 ∨
          ([0x61, 0x62] : List UInt8) = [] ∨
          TailsAgree 32 (twoTexts [0x61, 0x62, 0, 1] [0x61, 0x63, 0, 2])
            0x1000 0x2000 2 5) ∧
      (BoundedComparison 32 (twoTexts [0x61, 0x62, 0, 1] [0x61, 0x63, 0, 2])
          0x1000 0x2000 [0x61, 0x62] [0x61, 0x63] 5 →
        ∀ m', HoldsString 32 m' 0x1000 [0x61, 0x62] →
          HoldsString 32 m' 0x2000 [0x61, 0x63] →
          BoundedComparison 32 m' 0x1000 0x2000 [0x61, 0x62] [0x61, 0x63] 5 →
          strncmp 32 m' 0x1000 0x2000 5 =
            strncmp 32 (twoTexts [0x61, 0x62, 0, 1] [0x61, 0x63, 0, 2])
              0x1000 0x2000 5) :=
  strncmp_bounded_iff ⟨by decide +kernel, by decide +kernel, by decide +kernel⟩
    ⟨by decide +kernel, by decide +kernel, by decide +kernel⟩ 5

/-- Two equal strings "x": `strcmp` finds them equal, `strncmp` goes on to the
bytes behind them. -/
theorem strncmp_reads_past_end :
    HoldsString 32 (twoTexts [0x78, 0, 1] [0x78, 0, 0]) 0x1000 [0x78] ∧
      HoldsString 32 (twoTexts [0x78, 0, 1] [0x78, 0, 0]) 0x2000 [0x78] ∧
      strcmp 32 (twoTexts [0x78, 0, 1] [0x78, 0, 0]) 2 0x1000 0x2000 = some 0 ∧
      strncmp 32 (twoTexts [0x78, 0, 1] [0x78, 0, 0]) 0x1000 0x2000 3 = 1 ∧
      ¬BoundedComparison 32 (twoTexts [0x78, 0, 1] [0x78, 0, 0]) 0x1000 0x2000
        [0x78] [0x78] 3 := by
  have result : strncmp 32 (twoTexts [0x78, 0, 1] [0x78, 0, 0]) 0x1000 0x2000 3 =
      1 := by decide +kernel
  refine ⟨⟨by decide, by decide +kernel, by decide +kernel⟩,
    ⟨by decide, by decide +kernel, by decide +kernel⟩, by decide +kernel, result,
    ?_⟩
  intro bounded
  have zero := bounded.ordered.zero.mpr rfl
  omega

end SampoOS.Strings
