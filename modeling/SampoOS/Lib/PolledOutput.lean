/-
Module: SampoOS.Lib.PolledOutput
Purpose: A driver that polls a device until it is ready, puts one item, and goes on
  with the next one.
Trusted boundary: none
Main exports: Device, wait, sendAll, Transmits, Transmits.sendAll_settles
-/
import Mathlib.Order.Filter.AtTopBot.Basic

namespace PolledOutput

variable {δ β : Type}

/-- A device as its driver sees it.  An access may find the device anywhere that it
has moved to on its own since the last one. -/
structure Device (δ β : Type) where
  poll : δ → Bool × δ
  put : β → δ → δ

/-- The driver polls until the device says that it is ready, or its patience ends. -/
def wait (device : Device δ β) : Nat → δ → Option δ
  | 0, _ => none
  | patience + 1, d =>
      if (device.poll d).1 then some (device.poll d).2
      else wait device patience (device.poll d).2

/-- One item, after the wait for the device. -/
def send (device : Device δ β) (patience : Nat) (item : β) (d : δ) : Option δ :=
  (wait device patience d).map (device.put item)

/-- The items of a list, one after the other. -/
def sendAll (device : Device δ β) (patience : Nat) : List β → δ → Option δ
  | [], d => some d
  | item :: items, d =>
      (send device patience item d).bind (sendAll device patience items)

theorem sendAll_append (device : Device δ β) (patience : Nat) (first second : List β) :
    ∀ d, sendAll device patience (first ++ second) d =
      (sendAll device patience first d).bind (sendAll device patience second) := by
  induction first with
  | nil => exact fun _ => rfl
  | cons item items inductionHypothesis =>
      intro d
      rw [List.cons_append, sendAll, sendAll, Option.bind_assoc]
      congr 1
      funext d'
      exact inductionHypothesis d'

theorem sendAll_singleton (device : Device δ β) (patience : Nat) (item : β) (d : δ) :
    sendAll device patience [item] d = send device patience item d := by
  rw [sendAll]
  cases send device patience item d with
  | none => rfl
  | some d' => rfl

/-- More patience does not change how a wait ends. -/
theorem wait_mono {device : Device δ β} {patience : Nat} :
    ∀ {d d' : δ}, wait device patience d = some d' →
      ∀ more ≥ patience, wait device more d = some d' := by
  induction patience with
  | zero => exact fun ended => absurd ended (Option.some_ne_none _).symm
  | succ patience inductionHypothesis =>
      intro d d' ended more atLeast
      obtain ⟨more, rfl⟩ : ∃ k, more = k + 1 := ⟨more - 1, by omega⟩
      rw [wait] at ended ⊢
      split
      · rwa [if_pos ‹_›] at ended
      · rw [if_neg ‹_›] at ended
        exact inductionHypothesis ended more (by omega)

/-- What a driver relies on.  While the device is live it becomes ready again and
again, and it accepts the item that is put when it is ready. -/
structure Transmits (device : Device δ β) (live ready : δ → Prop)
    (accepted : δ → List β) : Prop where
  poll_live : ∀ {d}, live d → live (device.poll d).2
  poll_ready : ∀ {d}, live d → (device.poll d).1 = true → ready (device.poll d).2
  poll_accepted : ∀ {d}, live d → accepted (device.poll d).2 = accepted d
  put_live : ∀ {d} (item : β), live d → live (device.put item d)
  put_accepted : ∀ {d} (item : β), live d → ready d →
    accepted (device.put item d) = accepted d ++ [item]
  drains : ∀ {d}, live d → ∃ patience d', wait device patience d = some d'

namespace Transmits

variable {device : Device δ β} {live ready : δ → Prop} {accepted : δ → List β}

/-- A wait that ends has accepted nothing and finds the device ready. -/
theorem wait_spec (transmits : Transmits device live ready accepted) {patience : Nat} :
    ∀ {d d' : δ}, live d → wait device patience d = some d' →
      live d' ∧ ready d' ∧ accepted d' = accepted d := by
  induction patience with
  | zero => exact fun _ ended => absurd ended (Option.some_ne_none _).symm
  | succ patience inductionHypothesis =>
      intro d d' alive ended
      rw [wait] at ended
      split at ended
      · obtain rfl := Option.some.inj ended
        exact ⟨transmits.poll_live alive, transmits.poll_ready alive ‹_›,
          transmits.poll_accepted alive⟩
      · obtain ⟨alive', free, same⟩ :=
          inductionHypothesis (transmits.poll_live alive) ended
        exact ⟨alive', free, same.trans (transmits.poll_accepted alive)⟩

theorem send_settles (transmits : Transmits device live ready accepted) (item : β)
    {d : δ} (alive : live d) :
    ∃ d', (∀ᶠ patience in Filter.atTop, send device patience item d = some d') ∧
      live d' ∧ accepted d' = accepted d ++ [item] := by
  obtain ⟨enough, waited, ended⟩ := transmits.drains alive
  obtain ⟨alive', free, same⟩ := transmits.wait_spec alive ended
  refine ⟨device.put item waited, ?_, transmits.put_live item alive', ?_⟩
  · filter_upwards [Filter.eventually_ge_atTop enough] with patience atLeast
    rw [send, wait_mono ended patience atLeast, Option.map_some]
  · rw [transmits.put_accepted item alive' free, same]

/-- With enough patience every item is accepted once, in order. -/
theorem sendAll_settles (transmits : Transmits device live ready accepted)
    (items : List β) :
    ∀ {d : δ}, live d →
      ∃ d', (∀ᶠ patience in Filter.atTop, sendAll device patience items d = some d') ∧
        live d' ∧ accepted d' = accepted d ++ items := by
  induction items with
  | nil =>
      intro d alive
      exact ⟨d, Filter.Eventually.of_forall fun _ => rfl, alive,
        (List.append_nil _).symm⟩
  | cons item items inductionHypothesis =>
      intro d alive
      obtain ⟨next, first, nextAlive, one⟩ := transmits.send_settles item alive
      obtain ⟨d', others, alive', rest⟩ := inductionHypothesis nextAlive
      refine ⟨d', ?_, alive', ?_⟩
      · filter_upwards [first, others] with patience one rest
        rw [sendAll, one, Option.bind_some, rest]
      · rw [rest, one, List.append_assoc, List.singleton_append]

end Transmits

end PolledOutput
