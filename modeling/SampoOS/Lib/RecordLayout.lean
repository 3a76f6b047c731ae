/-
Module: SampoOS.Lib.RecordLayout
Purpose: Records whose fields lie one behind the other in memory, each a word of
  its own width.
Trusted boundary: none
Main exports: Field, Field.Fits, fieldOffset, recordBytes, length_recordBytes,
  fieldOffset_add_width_le, holdsBytes_recordBytes
-/
import SampoOS.Lib.ByteMemory

namespace RecordLayout

open ByteMemory (Memory HoldsBytes holdsBytes_append)

/-- A field: how many bytes it takes, and its value. -/
structure Field where
  width : Nat
  value : Nat
deriving Repr, DecidableEq

/-- A value that the field can hold, in at least one byte. -/
structure Field.Fits (field : Field) : Prop where
  positive : 0 < field.width
  value : field.value < 256 ^ field.width

/-- The fields one behind the other, each word written by `word`. -/
def recordBytes (word : Nat → Nat → List UInt8) (fields : List Field) :
    List UInt8 :=
  fields.flatMap fun field => word field.width field.value

/-- The distance of the field with a given index from the start. -/
def fieldOffset (fields : List Field) (i : Nat) : Nat :=
  ((fields.take i).map Field.width).sum

@[simp] theorem fieldOffset_zero (fields : List Field) :
    fieldOffset fields 0 = 0 := rfl

@[simp] theorem fieldOffset_cons_succ (field : Field) (rest : List Field)
    (i : Nat) :
    fieldOffset (field :: rest) (i + 1) = field.width + fieldOffset rest i := rfl

/-- No field reaches beyond the end of the record. -/
theorem fieldOffset_add_width_le {fields : List Field} {i : Nat}
    (below : i < fields.length) :
    fieldOffset fields i + fields[i].width ≤ (fields.map Field.width).sum := by
  have total : (fields.map Field.width).sum =
      fieldOffset fields i + ((fields.drop i).map Field.width).sum := by
    rw [fieldOffset, ← List.sum_append, ← List.map_append, List.take_append_drop]
  rw [List.drop_eq_getElem_cons below, List.map_cons, List.sum_cons] at total
  omega

section Words

variable {word : Nat → Nat → List UInt8}

theorem recordBytes_cons (field : Field) (rest : List Field) :
    recordBytes word (field :: rest) =
      word field.width field.value ++ recordBytes word rest := by
  rw [recordBytes, List.flatMap_cons, recordBytes]

theorem length_recordBytes (wide : ∀ n v, (word n v).length = n)
    (fields : List Field) :
    (recordBytes word fields).length = (fields.map Field.width).sum := by
  induction fields with
  | nil => rfl
  | cons field rest inductionHypothesis =>
      rw [recordBytes_cons, List.length_append, wide, inductionHypothesis,
        List.map_cons, List.sum_cons]

/-- Memory that holds a record holds each field at its offset. -/
theorem holdsBytes_recordBytes (wide : ∀ n v, (word n v).length = n) {m : Memory}
    {fields : List Field} :
    ∀ {a : Nat}, HoldsBytes m a (recordBytes word fields) →
      ∀ i (below : i < fields.length),
        HoldsBytes m (a + fieldOffset fields i)
          (word fields[i].width fields[i].value) := by
  induction fields with
  | nil => exact fun _ _ below => absurd below (Nat.not_lt_zero _)
  | cons field rest inductionHypothesis =>
      intro a holds i below
      rw [recordBytes_cons, holdsBytes_append, wide] at holds
      cases i with
      | zero => exact holds.1
      | succ i =>
          have later := inductionHypothesis holds.2 i (Nat.lt_of_succ_lt_succ below)
          rw [Nat.add_assoc] at later
          exact later

end Words

end RecordLayout
