/-
Module: SampoOS.Lib.LeastFirst
Purpose: Taking the least element of a set, again and again.
Trusted boundary: none
Main exports: TakesLeast, TakesLeast.ascending, TakesLeast.mem, TakesLeast.rest_eq,
  TakesLeast.below_rest
-/
import Mathlib.Order.Bounds.Basic

namespace LeastFirst

variable {α : Type} [LinearOrder α]

/-- The elements of a pool that are taken, the least one first, and those that are
left. -/
inductive TakesLeast : Set α → List α → Set α → Prop
  | nil (pool : Set α) : TakesLeast pool [] pool
  | cons {pool rest : Set α} {a : α} {taken : List α} (least : IsLeast pool a)
      (others : TakesLeast (pool \ {a}) taken rest) : TakesLeast pool (a :: taken) rest

namespace TakesLeast

variable {pool rest : Set α} {taken : List α}

/-- Everything that is taken was in the pool. -/
theorem mem (takes : TakesLeast pool taken rest) : ∀ a ∈ taken, a ∈ pool := by
  induction takes with
  | nil => simp
  | cons least others inductionHypothesis =>
      intro a inside
      rcases List.mem_cons.mp inside with rfl | later
      · exact least.1
      · exact (inductionHypothesis a later).1

/-- Each element is taken once, and the elements ascend. -/
theorem ascending (takes : TakesLeast pool taken rest) : taken.Pairwise (· < ·) := by
  induction takes with
  | nil => exact List.Pairwise.nil
  | cons least others inductionHypothesis =>
      refine List.pairwise_cons.mpr ⟨fun later inside => ?_, inductionHypothesis⟩
      obtain ⟨inPool, different⟩ := others.mem later inside
      exact lt_of_le_of_ne (least.2 inPool) fun same => different same.symm

/-- What is left is the pool without what is taken. -/
theorem rest_eq (takes : TakesLeast pool taken rest) :
    rest = pool \ {a | a ∈ taken} := by
  induction takes with
  | nil => simp
  | cons least others inductionHypothesis =>
      rw [inductionHypothesis]
      ext x
      simp [and_assoc, not_or]

/-- What is left is larger than what is taken. -/
theorem below_rest (takes : TakesLeast pool taken rest) :
    ∀ a ∈ taken, ∀ b ∈ rest, a < b := by
  induction takes with
  | nil => simp
  | cons least others inductionHypothesis =>
      intro a inside b left
      rcases List.mem_cons.mp inside with rfl | later
      · rw [others.rest_eq] at left
        obtain ⟨⟨inPool, different⟩, _⟩ := left
        exact lt_of_le_of_ne (least.2 inPool) fun same => different same.symm
      · exact inductionHypothesis a later b left

end TakesLeast

end LeastFirst
