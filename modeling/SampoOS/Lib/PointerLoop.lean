/-
Module: SampoOS.Lib.PointerLoop
Purpose: Loops that move a pointer by a step that memory decides, in an address
  space that wraps around: where they stand, and when every turn moves up.
Trusted boundary: none
Main exports: Turn, StandsAt, standsAt_iff, Climbs, climbs_iff
-/
import Mathlib.Logic.Relation

namespace PointerLoop

variable {size : Nat} {goesOn : Nat → Prop} {step : Nat → Nat}
  {sound : Nat → Prop} {start a b : Nat}

/-- One turn of `for (…; goesOn (a); a += step (a))`. -/
def Turn (size : Nat) (goesOn : Nat → Prop) (step : Nat → Nat) (a b : Nat) :
    Prop :=
  goesOn a ∧ b = (a + step a) % size

/-- The loop that begins at `start` comes to stand at `a`. -/
def StandsAt (size : Nat) (goesOn : Nat → Prop) (step : Nat → Nat) :
    Nat → Nat → Prop :=
  Relation.ReflTransGen (Turn size goesOn step)

/-- From `a` on, the loop meets sound places only, and moves up in each turn
without wrapping around, until it stops. -/
inductive Climbs (size : Nat) (goesOn : Nat → Prop) (step : Nat → Nat)
    (sound : Nat → Prop) : Nat → Prop
  | stop {a : Nat} (stops : ¬goesOn a) (fine : sound a) :
      Climbs size goesOn step sound a
  | turn {a : Nat} (goes : goesOn a) (fine : sound a) (moves : 0 < step a)
      (low : a + step a < size)
      (rest : Climbs size goesOn step sound (a + step a)) :
      Climbs size goesOn step sound a

theorem StandsAt.head (turn : Turn size goesOn step a b)
    {c : Nat} (rest : StandsAt size goesOn step b c) :
    StandsAt size goesOn step a c :=
  Relation.ReflTransGen.head turn rest

/-- The loop stands where it begins, and where the rest of it stands. -/
theorem standsAt_iff :
    StandsAt size goesOn step a b ↔
      b = a ∨ goesOn a ∧ StandsAt size goesOn step ((a + step a) % size) b := by
  constructor
  · intro stands
    rcases Relation.ReflTransGen.cases_head stands with rfl | ⟨c, turn, rest⟩
    · exact .inl rfl
    · obtain ⟨goes, rfl⟩ := turn
      exact .inr ⟨goes, rest⟩
  · rintro (rfl | ⟨goes, rest⟩)
    · exact .refl
    · exact rest.head ⟨goes, rfl⟩

/-- A pointer that wraps around does not move up. -/
theorem lt_add_mod_iff {d : Nat} (low : a < size) (small : d < size) :
    a < (a + d) % size ↔ 0 < d ∧ a + d < size := by
  by_cases fits : a + d < size
  · rw [Nat.mod_eq_of_lt fits]
    omega
  · rw [Nat.mod_eq_sub_mod (by omega), Nat.mod_eq_of_lt (by omega)]
    omega

namespace Climbs

theorem fine (climbs : Climbs size goesOn step sound a) : sound a := by
  cases climbs with
  | stop _ fine => exact fine
  | turn _ fine _ _ _ => exact fine

theorem low (climbs : Climbs size goesOn step sound a) (goes : goesOn a) :
    0 < step a ∧ a + step a < size := by
  cases climbs with
  | stop stops _ => exact absurd goes stops
  | turn _ _ moves low _ => exact ⟨moves, low⟩

theorem rest (climbs : Climbs size goesOn step sound a) (goes : goesOn a) :
    Climbs size goesOn step sound (a + step a) := by
  cases climbs with
  | stop stops _ => exact absurd goes stops
  | turn _ _ _ _ rest => exact rest

/-- Wherever the loop comes to stand, the rest of it climbs. -/
theorem of_standsAt (climbs : Climbs size goesOn step sound start)
    (stands : StandsAt size goesOn step start a) :
    Climbs size goesOn step sound a := by
  induction stands with
  | refl => exact climbs
  | tail _ turn inductionHypothesis =>
      obtain ⟨goes, rfl⟩ := turn
      rw [Nat.mod_eq_of_lt (inductionHypothesis.low goes).2]
      exact inductionHypothesis.rest goes

end Climbs

/-- A loop that moves up wherever it comes to stand reaches its end, since the
address space does. -/
theorem climbs_of_moves (small : ∀ a, step a < size) (low : start < size)
    (fine : ∀ a, StandsAt size goesOn step start a → sound a)
    (moves : ∀ a, StandsAt size goesOn step start a → goesOn a →
      a < (a + step a) % size) : Climbs size goesOn step sound start := by
  obtain ⟨room, left⟩ : ∃ room, room = size - start := ⟨_, rfl⟩
  induction room using Nat.strongRecOn generalizing start with
  | ind room inductionHypothesis =>
      have fineHere := fine start .refl
      by_cases goes : goesOn start
      · have fits := (lt_add_mod_iff low (small start)).mp
          (moves start .refl goes)
        have turn : Turn size goesOn step start (start + step start) :=
          ⟨goes, (Nat.mod_eq_of_lt fits.2).symm⟩
        exact .turn goes fineHere fits.1 fits.2
          (inductionHypothesis (size - (start + step start)) (by omega) fits.2
            (fun a stands => fine a (stands.head turn))
            (fun a stands => moves a (stands.head turn)) rfl)
      · exact .stop goes fineHere

/-- A loop climbs to its end exactly if it moves up, and finds a sound place,
wherever it comes to stand. -/
theorem climbs_iff (small : ∀ a, step a < size) (low : start < size) :
    Climbs size goesOn step sound start ↔
      ∀ a, StandsAt size goesOn step start a →
        sound a ∧ (goesOn a → a < (a + step a) % size) := by
  constructor
  · intro climbs a stands
    have here := climbs.of_standsAt stands
    refine ⟨here.fine, fun goes => ?_⟩
    obtain ⟨moves, fits⟩ := here.low goes
    rw [Nat.mod_eq_of_lt fits]
    omega
  · intro each
    exact climbs_of_moves small low (fun a stands => (each a stands).1)
      (fun a stands => (each a stands).2)

end PointerLoop
