/-
Module: SampoOS.Lib.BubbleSort
Purpose: Bubble sort by an arbitrary swap test, first as the two index loops
  and then as a recursion on lists, and its behaviour when dead elements are
  carried to the end of the list.
Trusted boundary: none
Main exports: exchangeAt, sweep, bubbleSort, pass, sortWindow,
  bubbleSort_eq_sortWindow, bubbleSort_perm, TombstonesOrdered,
  bubbleSort_settles, SameRuns.eq_of_sorted, Settled.eq_sortByKey,
  bubbleSort_strands_tombstone
-/
import Mathlib.Data.List.Basic
import Mathlib.Data.List.Count
import Mathlib.Order.Lattice

namespace BubbleSort

variable {α : Type*}

/-!
## The index loops

The sort is the textbook double loop over an array of `n` elements.  The outer
index `i` runs over `0 .. n-1`, the inner index `j` over `0 .. n-i-2`, and each
inner step compares the neighbours at `j` and `j+1`.  The swap test is an
arbitrary Boolean relation: nothing in this section asks it to be an order.
-/

/-- One inner step: exchange the neighbours at `j` and `j + 1` when the test
holds of them. -/
def exchangeAt (swap : α → α → Bool) (l : List α) (j : Nat) : List α :=
  match l[j]?, l[j + 1]? with
  | some a, some b => if swap a b then (l.set j b).set (j + 1) a else l
  | _, _ => l

/-- The inner loop: `k` steps from the front of the list. -/
def sweep (swap : α → α → Bool) (l : List α) (k : Nat) : List α :=
  (List.range k).foldl (exchangeAt swap) l

/-- The outer loop. -/
def bubbleSort (swap : α → α → Bool) (l : List α) : List α :=
  (List.range l.length).foldl
    (fun acc i => sweep swap acc (l.length - i - 1)) l

/-! ## The same loops as recursions on the list -/

/-- `k` steps of the inner loop, carrying the current element along. -/
def pass (swap : α → α → Bool) : Nat → List α → List α
  | k + 1, a :: b :: rest =>
      if swap a b then b :: pass swap k (a :: rest)
      else a :: pass swap k (b :: rest)
  | _, l => l

/-- The outer loop over a window of the given size: sweep the window, then
continue with a window that is one element shorter. -/
def sortWindow (swap : α → α → Bool) : Nat → List α → List α
  | 0, l => l
  | n + 1, l => sortWindow swap n (pass swap n l)

variable {swap : α → α → Bool}

@[simp] theorem pass_zero (l : List α) : pass swap 0 l = l := by
  simp [pass]

@[simp] theorem pass_nil (k : Nat) : pass swap k [] = [] := by
  cases k <;> simp [pass]

@[simp] theorem pass_singleton (k : Nat) (a : α) : pass swap k [a] = [a] := by
  cases k <;> simp [pass]

theorem pass_cons_cons (k : Nat) (a b : α) (rest : List α) :
    pass swap (k + 1) (a :: b :: rest) =
      if swap a b then b :: pass swap k (a :: rest)
      else a :: pass swap k (b :: rest) := by
  rw [pass]

private theorem exchangeAt_append_cons_cons (before rest : List α) (a b : α) :
    exchangeAt swap (before ++ a :: b :: rest) before.length =
      if swap a b then before ++ b :: a :: rest
      else before ++ a :: b :: rest := by
  have first : (before ++ a :: b :: rest)[before.length]? = some a := by simp
  have second : (before ++ a :: b :: rest)[before.length + 1]? = some b := by
    rw [List.getElem?_append_right (by omega)]
    simp
  simp only [exchangeAt, first, second]
  split
  · simp
  · rfl

private theorem exchangeAt_short {l : List α} {j : Nat}
    (short : l.length ≤ j + 1) : exchangeAt swap l j = l := by
  have missing : l[j + 1]? = none := List.getElem?_eq_none short
  unfold exchangeAt
  rw [missing]
  split <;> simp_all

private theorem foldl_exchangeAt_short {l : List α} (k : Nat) :
    ∀ j, l.length ≤ j + 1 →
      (List.range' j k).foldl (exchangeAt swap) l = l := by
  induction k with
  | zero => simp
  | succ k inductionHypothesis =>
      intro j short
      rw [List.range'_succ, List.foldl_cons, exchangeAt_short short]
      exact inductionHypothesis (j + 1) (by omega)

private theorem foldl_exchangeAt_eq_pass (k : Nat) :
    ∀ (before l : List α),
      (List.range' before.length k).foldl (exchangeAt swap) (before ++ l) =
        before ++ pass swap k l := by
  induction k with
  | zero => simp
  | succ k inductionHypothesis =>
      intro before l
      match l with
      | [] =>
          rw [foldl_exchangeAt_short _ _ (by simp)]
          simp
      | [a] =>
          rw [foldl_exchangeAt_short _ _ (by simp)]
          simp
      | a :: b :: rest =>
          rw [List.range'_succ, List.foldl_cons, exchangeAt_append_cons_cons,
            pass_cons_cons]
          by_cases swapped : swap a b
          · have tail := inductionHypothesis (before ++ [b]) (a :: rest)
            simpa [swapped] using tail
          · have tail := inductionHypothesis (before ++ [a]) (b :: rest)
            simpa [swapped] using tail

/-- The inner index loop is the structural pass. -/
theorem sweep_eq_pass (l : List α) (k : Nat) :
    sweep swap l k = pass swap k l := by
  rw [sweep, List.range_eq_range']
  exact foldl_exchangeAt_eq_pass k [] l

private theorem foldl_pass_eq_sortWindow (m : Nat) :
    ∀ (j : Nat) (l : List α),
      (List.range' j m).foldl (fun acc i => pass swap (j + m - i - 1) acc) l =
        sortWindow swap m l := by
  induction m with
  | zero => simp [sortWindow]
  | succ m inductionHypothesis =>
      intro j l
      rw [List.range'_succ, List.foldl_cons, sortWindow,
        show j + (m + 1) - j - 1 = m by omega,
        ← inductionHypothesis (j + 1) (pass swap m l)]
      simp only [show j + (m + 1) = j + 1 + m by omega]

/-- The double index loop is the recursion on shrinking windows. -/
theorem bubbleSort_eq_sortWindow (l : List α) :
    bubbleSort swap l = sortWindow swap l.length l := by
  rw [← foldl_pass_eq_sortWindow l.length 0 l, bubbleSort, List.range_eq_range']
  simp only [sweep_eq_pass, Nat.zero_add]

/-! ## Passes and windows -/

theorem pass_perm (k : Nat) : ∀ l : List α, (pass swap k l).Perm l := by
  induction k with
  | zero => simp
  | succ k inductionHypothesis =>
      intro l
      match l with
      | [] => simp
      | [a] => simp
      | a :: b :: rest =>
          rw [pass_cons_cons]
          split
          · exact ((inductionHypothesis (a :: rest)).cons b).trans
              (List.Perm.swap a b rest)
          · exact (inductionHypothesis (b :: rest)).cons a

@[simp] theorem length_pass (k : Nat) (l : List α) :
    (pass swap k l).length = l.length :=
  (pass_perm k l).length_eq

theorem sortWindow_perm (n : Nat) :
    ∀ l : List α, (sortWindow swap n l).Perm l := by
  induction n with
  | zero => simp [sortWindow]
  | succ n inductionHypothesis =>
      intro l
      exact (inductionHypothesis (pass swap n l)).trans (pass_perm n l)

/-- Whatever the swap test, the sort only permutes. -/
theorem bubbleSort_perm (l : List α) : (bubbleSort swap l).Perm l := by
  rw [bubbleSort_eq_sortWindow]
  exact sortWindow_perm _ l

/-- A pass never looks beyond the elements it steps over. -/
theorem pass_append {k : Nat} :
    ∀ {window : List α}, k < window.length → ∀ tail : List α,
      pass swap k (window ++ tail) = pass swap k window ++ tail := by
  induction k with
  | zero => simp
  | succ k inductionHypothesis =>
      intro window long tail
      match window with
      | [] => simp at long
      | [a] => simp at long
      | a :: b :: rest =>
          simp only [List.length_cons] at long
          have carried : ∀ c : α,
              pass swap k (c :: rest ++ tail) =
                pass swap k (c :: rest) ++ tail :=
            fun c => inductionHypothesis (by simp; omega) tail
          simp only [List.cons_append] at carried ⊢
          simp only [pass_cons_cons, carried]
          split <;> rfl

/-- Sorting a window leaves everything behind it in place. -/
theorem sortWindow_append (n : Nat) :
    ∀ {window : List α}, window.length = n → ∀ tail : List α,
      sortWindow swap n (window ++ tail) = sortWindow swap n window ++ tail := by
  induction n with
  | zero =>
      intro window size tail
      simp [sortWindow]
  | succ n inductionHypothesis =>
      intro window size tail
      obtain ⟨front, last, split⟩ : ∃ front last,
          pass swap n window = front ++ [last] := by
        have nonempty : pass swap n window ≠ [] := by
          intro empty
          have := congrArg List.length empty
          simp [size] at this
        exact ⟨_, _, (List.dropLast_append_getLast nonempty).symm⟩
      have frontSize : front.length = n := by
        have := congrArg List.length split
        simp [size] at this
        omega
      simp only [sortWindow]
      rw [pass_append (by omega), split, List.append_assoc,
        inductionHypothesis frontSize, inductionHypothesis frontSize,
        List.append_assoc]

/-- A window whose sweep ends in `last` is sorted by sorting the rest. -/
theorem sortWindow_succ_of_pass {n : Nat} {window front : List α} {last : α}
    (size : front.length = n)
    (swept : pass swap n window = front ++ [last]) :
    sortWindow swap (n + 1) window = sortWindow swap n front ++ [last] := by
  rw [sortWindow, swept, sortWindow_append n size]

/-! ## Sorting by a key, with dead elements

The swap test of this section exchanges neighbours when the first one is dead
or has the larger key.  That test is not an order: a dead element always moves
right, and a live one also jumps over a dead one with a smaller key.
-/

section Tombstones

variable {β : Type*} [LinearOrder β] (dead : α → Bool) (key : α → β)

/-- Exchange when the first element is dead or has the larger key. -/
def tombstoneSwap (a b : α) : Bool :=
  dead a || decide (key b < key a)

/-- The elements that are not dead. -/
def live (l : List α) : List α := l.filter fun a => !dead a

/-- No live element stands before a dead element of smaller key. -/
def TombstonesOrdered (l : List α) : Prop :=
  l.Pairwise fun a b => dead a = false → dead b = true → key a ≤ key b

/-- The two lists have the same elements of every single key, in the same
order.  Together with sortedness this is stability. -/
def SameRuns (l l' : List α) : Prop :=
  ∀ k, (l.filter fun a => key a = k) = (l'.filter fun a => key a = k)

variable {dead key}

theorem tombstoneSwap_dead {a : α} (isDead : dead a = true) (b : α) :
    tombstoneSwap dead key a b = true := by
  simp [tombstoneSwap, isDead]

theorem tombstoneSwap_live {a : α} (isLive : dead a = false) (b : α) :
    tombstoneSwap dead key a b = decide (key b < key a) := by
  simp [tombstoneSwap, isLive]

/-- A dead element at the front of the window is carried to its end. -/
theorem pass_dead_head {e : α} (isDead : dead e = true) (rest : List α) :
    pass (tombstoneSwap dead key) rest.length (e :: rest) = rest ++ [e] := by
  induction rest with
  | nil => simp
  | cons b rest inductionHypothesis =>
      rw [List.length_cons, pass_cons_cons,
        if_pos (tombstoneSwap_dead isDead b), inductionHypothesis,
        List.cons_append]

/-- Sweeping a window whose first dead element has a key at least as large as
all the live elements before it moves that element to the end. -/
theorem pass_first_dead {e : α} (isDead : dead e = true) (behind : List α) :
    ∀ ahead : List α, (∀ a ∈ ahead, dead a = false) →
      (∀ a ∈ ahead, key a ≤ key e) →
      pass (tombstoneSwap dead key) (ahead.length + behind.length)
          (ahead ++ e :: behind) =
        pass (tombstoneSwap dead key) (ahead.length - 1) ahead ++
          (behind ++ [e])
  | [], _, _ => by simpa using pass_dead_head isDead behind
  | [a], alive, below => by
      have stays : tombstoneSwap dead key a e = false := by
        rw [tombstoneSwap_live (alive a (by simp))]
        simpa using below a (by simp)
      rw [List.length_singleton, Nat.add_comm, List.singleton_append,
        pass_cons_cons, stays, pass_dead_head isDead behind]
      simp
  | a :: b :: ahead, alive, below => by
      have carried : ∀ c ∈ [a, b],
          pass (tombstoneSwap dead key) (ahead.length + 1 + behind.length)
              (c :: ahead ++ e :: behind) =
            pass (tombstoneSwap dead key) ahead.length (c :: ahead) ++
              (behind ++ [e]) := by
        intro c member
        have tail := pass_first_dead isDead behind (c :: ahead)
          (fun x inside => alive x (by
            simp only [List.mem_cons, List.not_mem_nil, or_false] at member inside ⊢
            rcases inside with rfl | inside
            · rcases member with rfl | rfl <;> simp
            · exact Or.inr (Or.inr inside)))
          (fun x inside => below x (by
            simp only [List.mem_cons, List.not_mem_nil, or_false] at member inside ⊢
            rcases inside with rfl | inside
            · rcases member with rfl | rfl <;> simp
            · exact Or.inr (Or.inr inside)))
        simpa using tail
      have first := carried a (by simp)
      have second := carried b (by simp)
      simp only [List.cons_append] at first second ⊢
      simp only [List.length_cons, Nat.add_sub_cancel]
      rw [show ahead.length + 1 + 1 + behind.length =
          ahead.length + 1 + behind.length + 1 by omega,
        pass_cons_cons, pass_cons_cons, first, second]
      split <;> rfl

/-- A pass over live elements keeps every run of equal keys. -/
theorem pass_sameRuns (k : Nat) :
    ∀ l : List α, (∀ a ∈ l, dead a = false) →
      SameRuns key (pass (tombstoneSwap dead key) k l) l := by
  induction k with
  | zero =>
      intro l alive c
      simp
  | succ k inductionHypothesis =>
      intro l alive c
      match l with
      | [] => simp
      | [a] => simp
      | a :: b :: rest =>
          have aliveA : dead a = false := alive a (by simp)
          have aliveB : dead b = false := alive b (by simp)
          have aliveRest : ∀ x ∈ rest, dead x = false :=
            fun x inside => alive x (by simp [inside])
          have tailA := inductionHypothesis (a :: rest)
            (by simpa [aliveA] using aliveRest) c
          have tailB := inductionHypothesis (b :: rest)
            (by simpa [aliveB] using aliveRest) c
          rw [pass_cons_cons, tombstoneSwap_live aliveA]
          by_cases larger : key b < key a
          · rw [if_pos (by simpa using larger)]
            simp only [List.filter_cons, tailA]
            by_cases keyA : key a = c
            · have : key b ≠ c := by
                intro keyB
                exact absurd larger (by simp [keyA, keyB])
              simp [keyA, this]
            · simp [keyA]
          · rw [if_neg (by simpa using larger)]
            simp only [List.filter_cons, tailB]

/-- A full pass over live elements ends in one of largest key. -/
theorem pass_last_maximal :
    ∀ l : List α, (∀ a ∈ l, dead a = false) → l ≠ [] →
      ∃ front last,
        pass (tombstoneSwap dead key) (l.length - 1) l = front ++ [last] ∧
          ∀ a ∈ l, key a ≤ key last
  | [], _, nonempty => absurd rfl nonempty
  | [a], _, _ => ⟨[], a, by simp, by simp⟩
  | a :: b :: rest, alive, _ => by
      have aliveA : dead a = false := alive a (by simp)
      have aliveB : dead b = false := alive b (by simp)
      have aliveRest : ∀ x ∈ rest, dead x = false :=
        fun x inside => alive x (by simp [inside])
      rw [show (a :: b :: rest).length - 1 = rest.length + 1 by simp,
        pass_cons_cons, tombstoneSwap_live aliveA]
      by_cases larger : key b < key a
      · obtain ⟨front, last, swept, maximal⟩ := pass_last_maximal (a :: rest)
          (by simpa [aliveA] using aliveRest) (by simp)
        rw [if_pos (by simpa using larger)]
        refine ⟨b :: front, last, by simpa using swept, ?_⟩
        intro x inside
        rcases List.mem_cons.mp inside with rfl | inside
        · exact maximal _ (by simp)
        · rcases List.mem_cons.mp inside with rfl | inside
          · exact le_of_lt (lt_of_lt_of_le larger (maximal _ (by simp)))
          · exact maximal _ (by simp [inside])
      · obtain ⟨front, last, swept, maximal⟩ := pass_last_maximal (b :: rest)
          (by simpa [aliveB] using aliveRest) (by simp)
        rw [if_neg (by simpa using larger)]
        refine ⟨a :: front, last, by simpa using swept, ?_⟩
        intro x inside
        rcases List.mem_cons.mp inside with rfl | inside
        · exact le_trans (le_of_not_gt larger) (maximal _ (by simp))
        · exact maximal _ inside

/-- A list with a dead element splits at the first of them. -/
theorem exists_first_dead {l : List α} (some_dead : ∃ e ∈ l, dead e = true) :
    ∃ ahead e behind, l = ahead ++ e :: behind ∧ dead e = true ∧
      ∀ a ∈ ahead, dead a = false := by
  induction l with
  | nil => simp at some_dead
  | cons a l inductionHypothesis =>
      cases deadA : dead a with
      | true => exact ⟨[], a, l, by simp, deadA, by simp⟩
      | false =>
          have rest : ∃ e ∈ l, dead e = true := by
            simpa [deadA] using some_dead
          obtain ⟨ahead, e, behind, rfl, isDead, alive⟩ :=
            inductionHypothesis rest
          exact ⟨a :: ahead, e, behind, by simp, isDead, by
            simpa [deadA] using alive⟩

theorem live_eq_self {l : List α} (alive : ∀ a ∈ l, dead a = false) :
    live dead l = l :=
  List.filter_eq_self.mpr fun a inside => by simp [alive a inside]

theorem live_append (front back : List α) :
    live dead (front ++ back) = live dead front ++ live dead back :=
  List.filter_append ..

theorem SameRuns.trans {l₁ l₂ l₃ : List α} (one : SameRuns key l₁ l₂)
    (two : SameRuns key l₂ l₃) : SameRuns key l₁ l₃ :=
  fun k => (one k).trans (two k)

theorem SameRuns.append {l₁ l₂ r₁ r₂ : List α} (left : SameRuns key l₁ l₂)
    (right : SameRuns key r₁ r₂) : SameRuns key (l₁ ++ r₁) (l₂ ++ r₂) := by
  intro k
  rw [List.filter_append, List.filter_append, left k, right k]

/-- The runs of a list tell which elements it has. -/
theorem SameRuns.mem_iff {l l' : List α} (runs : SameRuns key l l') {a : α} :
    a ∈ l ↔ a ∈ l' := by
  have run := congrArg (a ∈ ·) (runs (key a))
  simpa using run

theorem SameRuns.of_cons {a : α} {l l' : List α}
    (runs : SameRuns key (a :: l) (a :: l')) : SameRuns key l l' := by
  intro k
  have run := runs k
  by_cases here : key a = k
  · simpa [List.filter_cons, here] using run
  · simpa [List.filter_cons, here] using run

/-- A sorted list is determined by its runs. -/
theorem SameRuns.eq_of_sorted {l l' : List α} (runs : SameRuns key l l')
    (sorted : l.Pairwise fun a b => key a ≤ key b)
    (sorted' : l'.Pairwise fun a b => key a ≤ key b) : l = l' := by
  induction l generalizing l' with
  | nil =>
      refine (List.eq_nil_iff_forall_not_mem.mpr ?_).symm
      intro a inside
      exact List.not_mem_nil (runs.mem_iff.mpr inside)
  | cons a rest inductionHypothesis =>
      cases l' with
      | nil => exact absurd (runs.mem_iff.mp List.mem_cons_self) List.not_mem_nil
      | cons b rest' =>
          rw [List.pairwise_cons] at sorted sorted'
          -- Both heads carry the smallest key, so they begin the same run.
          have below : key b ≤ key a := by
            rcases List.mem_cons.mp (runs.mem_iff.mp List.mem_cons_self) with
              rfl | inside
            · exact le_refl _
            · exact sorted'.1 a inside
          have above : key a ≤ key b := by
            rcases List.mem_cons.mp (runs.mem_iff.mpr List.mem_cons_self) with
              rfl | inside
            · exact le_refl _
            · exact sorted.1 b inside
          have run := runs (key a)
          rw [List.filter_cons_of_pos (by simp), List.filter_cons_of_pos
            (by simp [le_antisymm below above]), List.cons.injEq] at run
          obtain ⟨rfl, _⟩ := run
          rw [inductionHypothesis runs.of_cons sorted.2 sorted'.2]

/-- A run of a list without repeated keys is determined by its elements. -/
theorem filter_key_eq {l l' : List α} {k : β}
    (single : l.Pairwise fun a b => key a = k → key b ≠ k)
    (single' : l'.Pairwise fun a b => key a = k → key b ≠ k)
    (same : ∀ a, key a = k → (a ∈ l ↔ a ∈ l')) :
    (l.filter fun a => key a = k) = l'.filter fun a => key a = k := by
  have short : ∀ {m : List α}, m.Pairwise (fun a b => key a = k → key b ≠ k) →
      (m.filter fun a => key a = k).Pairwise fun _ _ => False := by
    intro m once
    refine (once.filter _).imp_of_mem ?_
    intro a b insideA insideB apart
    simp only [List.mem_filter, decide_eq_true_eq] at insideA insideB
    exact apart insideA.2 insideB.2
  refine List.Perm.eq_of_pairwise (fun _ _ _ _ none _ => none.elim) (short single)
    (short single') ?_
  rw [List.perm_ext_iff_of_nodup ((short single).imp fun none => none.elim)
    ((short single').imp fun none => none.elim)]
  intro a
  simp only [List.mem_filter, decide_eq_true_eq]
  exact and_congr_left (same a)

/-- Outcome of sorting a window: the live elements in order in front, the
dead ones behind them. -/
structure Settled (dead : α → Bool) (key : α → β) (l result : List α)
    (front : List α) : Prop where
  split : ∃ stones, result = front ++ stones ∧ ∀ e ∈ stones, dead e = true
  perm : front.Perm (live dead l)
  sorted : front.Pairwise fun a b => key a ≤ key b
  stable : SameRuns key front (live dead l)

theorem Settled.alive {l result front : List α}
    (settled : Settled dead key l result front) :
    ∀ a ∈ front, dead a = false := by
  intro a inside
  have kept := settled.perm.mem_iff.mp inside
  simpa [live] using (List.mem_filter.mp kept).2

private theorem TombstonesOrdered.of_pass_first_dead
    {ahead behind : List α} {e : α} (k : Nat)
    (alive : ∀ a ∈ ahead, dead a = false)
    (ordered : TombstonesOrdered dead key (ahead ++ e :: behind)) :
    TombstonesOrdered dead key
      (pass (tombstoneSwap dead key) k ahead ++ behind) := by
  rw [TombstonesOrdered, List.pairwise_append, List.pairwise_cons] at ordered
  rw [TombstonesOrdered, List.pairwise_append]
  refine ⟨?_, ordered.2.1.2, ?_⟩
  · refine List.pairwise_of_forall_mem_list ?_
    intro a _ b inside _ isDead
    have := alive b ((pass_perm k ahead).mem_iff.mp inside)
    simp [this] at isDead
  · intro a inside b member
    exact ordered.2.2 a ((pass_perm k ahead).mem_iff.mp inside) b
      (List.mem_cons_of_mem e member)

/-- A sweep that carries the first dead element to the end of the window, before
the window is sorted without it. -/
private theorem Settled.of_dead {n : Nat} {ahead behind front : List α} {e : α}
    (isDead : dead e = true) (alive : ∀ a ∈ ahead, dead a = false)
    (below : ∀ a ∈ ahead, key a ≤ key e)
    (windowSize : n = ahead.length + behind.length)
    (settled : Settled dead key
      (pass (tombstoneSwap dead key) (ahead.length - 1) ahead ++ behind)
      (sortWindow (tombstoneSwap dead key) n
        (pass (tombstoneSwap dead key) (ahead.length - 1) ahead ++ behind))
      front) :
    Settled dead key (ahead ++ e :: behind)
      (sortWindow (tombstoneSwap dead key) (n + 1) (ahead ++ e :: behind))
      front := by
  have swept := pass_first_dead isDead behind ahead alive below
  rw [← windowSize, ← List.append_assoc] at swept
  have swept_alive : ∀ a ∈ pass (tombstoneSwap dead key)
      (ahead.length - 1) ahead, dead a = false := fun a inside =>
    alive a ((pass_perm _ ahead).mem_iff.mp inside)
  have liveBefore : live dead
      (pass (tombstoneSwap dead key) (ahead.length - 1) ahead ++ behind) =
      pass (tombstoneSwap dead key) (ahead.length - 1) ahead ++
        live dead behind := by
    rw [live_append, live_eq_self swept_alive]
  have liveAfter : live dead (ahead ++ e :: behind) =
      ahead ++ live dead behind := by
    rw [live_append, live_eq_self alive, live,
      List.filter_cons_of_neg (by simp [isDead]), ← live]
  rw [sortWindow_succ_of_pass (by simp [windowSize]) swept]
  obtain ⟨stones, eq, stonesDead⟩ := settled.split
  refine ⟨⟨stones ++ [e], by rw [eq, List.append_assoc], ?_⟩,
    ?_, settled.sorted, ?_⟩
  · intro x inside
    rcases List.mem_append.mp inside with inside | inside
    · exact stonesDead x inside
    · rw [List.mem_singleton.mp inside]
      exact isDead
  · rw [liveAfter]
    refine settled.perm.trans ?_
    rw [liveBefore]
    exact (pass_perm _ ahead).append_right _
  · rw [liveAfter]
    refine settled.stable.trans ?_
    rw [liveBefore]
    exact (pass_sameRuns _ ahead alive).append fun _ => rfl

/-- A sweep over live elements only, which ends in one of largest key, before the
elements ahead of that one are sorted. -/
private theorem Settled.of_live {n : Nat} {l front front' : List α} {last : α}
    (alive : ∀ a ∈ l, dead a = false) (size : l.length = n + 1)
    (swept : pass (tombstoneSwap dead key) n l = front ++ [last])
    (maximal : ∀ a ∈ l, key a ≤ key last)
    (settled : Settled dead key front
      (sortWindow (tombstoneSwap dead key) n front) front') :
    Settled dead key l (sortWindow (tombstoneSwap dead key) (n + 1) l)
      (front' ++ [last]) := by
  have permuted : (front ++ [last]).Perm l := swept ▸ pass_perm n l
  have frontSize : front.length = n := by
    have := permuted.length_eq
    simp [size] at this
    omega
  have frontAlive : ∀ a ∈ front, dead a = false := fun a inside =>
    alive a (permuted.mem_iff.mp (by simp [inside]))
  have keeps : front'.Perm front := by
    simpa [live_eq_self frontAlive] using settled.perm
  obtain ⟨stones, eq, stonesDead⟩ := settled.split
  have noStones : stones = [] := by
    have sizes := congrArg List.length eq
    rw [(sortWindow_perm _ front).length_eq, List.length_append,
      keeps.length_eq] at sizes
    exact List.eq_nil_of_length_eq_zero (by omega)
  rw [sortWindow_succ_of_pass frontSize swept]
  refine ⟨⟨[], by simp [eq, noStones], by simp⟩, ?_, ?_, ?_⟩
  · rw [live_eq_self alive]
    exact (keeps.append_right [last]).trans permuted
  · rw [List.pairwise_append]
    refine ⟨settled.sorted, List.pairwise_singleton _ _, ?_⟩
    intro a inside b member
    rw [List.mem_singleton.mp member]
    exact maximal a (permuted.mem_iff.mp (by simp [keeps.mem_iff.mp inside]))
  · rw [live_eq_self alive]
    have runs : SameRuns key (pass (tombstoneSwap dead key) n l) l :=
      pass_sameRuns n l alive
    rw [swept] at runs
    refine SameRuns.trans (SameRuns.append ?_ fun _ => rfl) runs
    simpa [live_eq_self frontAlive] using settled.stable

/-- Every sweep of a window with a dead element carries the first one to the
end of the window and keeps the condition for the rest; once none is left, the
remaining sweeps are those of a plain bubble sort.  The induction is on the
size of the window. -/
theorem sortWindow_settles (n : Nat) :
    ∀ l : List α, l.length = n → TombstonesOrdered dead key l →
      ∃ front, Settled dead key l
        (sortWindow (tombstoneSwap dead key) n l) front := by
  induction n with
  | zero =>
      intro l size _
      obtain rfl := List.eq_nil_of_length_eq_zero size
      exact ⟨[], ⟨⟨[], by simp [sortWindow], by simp⟩, by simp [live],
        List.Pairwise.nil, fun _ => by simp [live]⟩⟩
  | succ n inductionHypothesis =>
      intro l size ordered
      by_cases some_dead : ∃ e ∈ l, dead e = true
      · obtain ⟨ahead, e, behind, rfl, isDead, alive⟩ :=
          exists_first_dead some_dead
        have below : ∀ a ∈ ahead, key a ≤ key e := fun a inside =>
          (List.pairwise_append.mp ordered).2.2 a inside e (by simp)
            (alive a inside) isDead
        have windowSize : n = ahead.length + behind.length := by
          simp at size
          omega
        obtain ⟨front, settled⟩ := inductionHypothesis
          (pass (tombstoneSwap dead key) (ahead.length - 1) ahead ++ behind)
          (by simp [windowSize])
          (TombstonesOrdered.of_pass_first_dead _ alive ordered)
        exact ⟨front, settled.of_dead isDead alive below windowSize⟩
      · have alive : ∀ a ∈ l, dead a = false := by
          intro a inside
          cases deadA : dead a with
          | false => rfl
          | true => exact absurd ⟨a, inside, deadA⟩ some_dead
        have nonempty : l ≠ [] := by
          intro empty
          simp [empty] at size
        obtain ⟨front, last, swept, maximal⟩ : ∃ front last,
            pass (tombstoneSwap dead key) (l.length - 1) l = front ++ [last] ∧
              ∀ a ∈ l, key a ≤ key last :=
          pass_last_maximal l alive nonempty
        rw [size, Nat.add_sub_cancel] at swept
        have permuted : (front ++ [last]).Perm l := swept ▸ pass_perm n l
        have frontSize : front.length = n := by
          have := permuted.length_eq
          simp [size] at this
          omega
        obtain ⟨front', settled⟩ := inductionHypothesis front frontSize
          (List.pairwise_of_forall_mem_list fun a _ b inside _ isDead => by
            simp [alive b (permuted.mem_iff.mp (by simp [inside]))] at isDead)
        exact ⟨front' ++ [last], settled.of_live alive size swept maximal⟩

theorem length_live (l : List α) :
    (live dead l).length = l.length - l.countP dead := by
  have total := List.length_eq_countP_add_countP dead (l := l)
  have negated : l.countP (fun a => !dead a) = l.countP fun a => ¬dead a := by
    simp
  rw [live, ← List.countP_eq_length_filter, negated]
  omega

/-- Sorting and dropping as many elements as there are dead ones leaves the
live elements, in order and stably, provided no live element stood before a
dead element of smaller key. -/
theorem bubbleSort_settles {l : List α} (ordered : TombstonesOrdered dead key l) :
    Settled dead key l (bubbleSort (tombstoneSwap dead key) l)
      ((bubbleSort (tombstoneSwap dead key) l).take
        (l.length - l.countP dead)) := by
  rw [bubbleSort_eq_sortWindow]
  obtain ⟨front, settled⟩ := sortWindow_settles l.length l rfl ordered
  obtain ⟨stones, eq, stonesDead⟩ := settled.split
  have taken : (sortWindow (tombstoneSwap dead key) l.length l).take
      (l.length - l.countP dead) = front := by
    rw [eq, ← length_live, ← settled.perm.length_eq]
    exact List.take_left' rfl
  rw [taken]
  exact settled

/-! ## The stable sort by the key -/

/-- The stable sort by the key. -/
def sortByKey (key : α → β) (l : List α) : List α :=
  l.mergeSort fun a b => decide (key a ≤ key b)

private theorem keyBelow_trans (a b c : α) (ab : decide (key a ≤ key b) = true)
    (bc : decide (key b ≤ key c) = true) : decide (key a ≤ key c) = true := by
  simp only [decide_eq_true_eq] at ab bc ⊢
  exact le_trans ab bc

private theorem keyBelow_total (a b : α) :
    (decide (key a ≤ key b) || decide (key b ≤ key a)) = true := by
  simpa using le_total (key a) (key b)

theorem sortByKey_perm (l : List α) : (sortByKey key l).Perm l :=
  List.mergeSort_perm l _

theorem sortByKey_sorted (l : List α) :
    (sortByKey key l).Pairwise fun a b => key a ≤ key b :=
  (List.pairwise_mergeSort keyBelow_trans keyBelow_total l).imp
    fun below => by simpa using below

/-- The stable sort keeps every run of equal keys: a run is a sorted sublist of
the list, so it is one of the result, which has no further element of that
key. -/
theorem sortByKey_sameRuns (l : List α) : SameRuns key (sortByKey key l) l := by
  intro k
  have run : (l.filter fun a => key a = k).Pairwise
      fun a b => decide (key a ≤ key b) = true := by
    refine List.pairwise_of_forall_mem_list ?_
    intro a insideA b insideB
    simp only [List.mem_filter, decide_eq_true_eq] at insideA insideB ⊢
    exact le_of_eq (insideA.2.trans insideB.2.symm)
  have inResult : (l.filter fun a => key a = k).Sublist (sortByKey key l) :=
    List.sublist_mergeSort keyBelow_trans keyBelow_total run
      List.filter_sublist
  have kept := inResult.filter fun a => decide (key a = k)
  simp only [List.filter_filter, Bool.and_self] at kept
  have permuted : (sortByKey key l).Perm l := sortByKey_perm l
  have size := (permuted.filter fun a => decide (key a = k)).length_eq
  exact (kept.eq_of_length size.symm).symm

/-- What a settled window holds in front is the stable sort of the live
elements. -/
theorem Settled.eq_sortByKey {l result front : List α}
    (settled : Settled dead key l result front) :
    front = sortByKey key (live dead l) := by
  refine SameRuns.eq_of_sorted ?_ settled.sorted (sortByKey_sorted _)
  intro k
  rw [settled.stable k, sortByKey_sameRuns]

/-- A dead element appended to a sorted live list whose last key is larger is
not carried to the end: the last live element takes that place. -/
theorem bubbleSort_strands_tombstone {front : List α} {last e : α}
    (alive : ∀ a ∈ front ++ [last], dead a = false)
    (sorted : (front ++ [last]).Pairwise fun a b => key a ≤ key b)
    (larger : key e < key last) :
    ∃ rest, bubbleSort (tombstoneSwap dead key) (front ++ [last] ++ [e]) =
        rest ++ [last] ∧ rest.Perm (front ++ [e]) := by
  have swept : ∀ ahead : List α, (∀ a ∈ ahead ++ [last], dead a = false) →
      (ahead ++ [last]).Pairwise (fun a b => key a ≤ key b) →
      pass (tombstoneSwap dead key) (ahead.length + 1)
        (ahead ++ [last] ++ [e]) = ahead ++ [e] ++ [last] := by
    intro ahead
    induction ahead with
    | nil =>
        intro alive _
        have jumps : tombstoneSwap dead key last e = true := by
          rw [tombstoneSwap_live (alive last (by simp))]
          simpa using larger
        simp [pass_cons_cons, jumps]
    | cons a ahead inductionHypothesis =>
        intro alive sorted
        rw [List.cons_append] at alive sorted
        have tail := inductionHypothesis
          (fun x inside => alive x (List.mem_cons_of_mem a inside))
          (List.pairwise_cons.mp sorted).2
        have stays : ∀ b ∈ ahead ++ [last],
            tombstoneSwap dead key a b = false := by
          intro b inside
          rw [tombstoneSwap_live (alive a (by simp))]
          simpa using (List.pairwise_cons.mp sorted).1 b inside
        cases ahead with
        | nil =>
            have first := stays last (by simp)
            simp only [List.nil_append, List.length_nil] at tail ⊢
            simpa [pass_cons_cons, first] using tail
        | cons b ahead =>
            have first := stays b (by simp)
            simp only [List.cons_append, List.length_cons] at tail ⊢
            rw [pass_cons_cons, first, if_neg (by simp), tail]
  have size : (front ++ [last] ++ [e]).length = front.length + 1 + 1 := by simp
  rw [bubbleSort_eq_sortWindow, size,
    sortWindow_succ_of_pass (by simp) (swept front alive sorted)]
  exact ⟨_, rfl, sortWindow_perm _ _⟩

end Tombstones

end BubbleSort
