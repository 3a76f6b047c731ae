/-
Module: SampoOS.Lib.SetHistory
Purpose: A set after a history of edits, each of which inserts or removes a part.
Trusted boundary: none
Main exports: applyEdit, applyEdits, mem_applyEdits
-/
import Mathlib.Data.List.Basic
import Mathlib.Data.List.Induction
import Mathlib.Data.Set.Basic

namespace SetHistory

variable {α ε : Type} {part : ε → Set α} {inserts : ε → Bool} {a : α}

/-- The set after an edit, which inserts or removes its part. -/
def applyEdit (part : ε → Set α) (inserts : ε → Bool) (s : Set α) (edit : ε) : Set α :=
  if inserts edit then s ∪ part edit else s \ part edit

/-- The set after a history. -/
def applyEdits (part : ε → Set α) (inserts : ε → Bool) (edits : List ε) (s : Set α) :
    Set α :=
  edits.foldl (applyEdit part inserts) s

theorem mem_applyEdit_of_mem {s : Set α} {edit : ε} (inside : a ∈ part edit) :
    a ∈ applyEdit part inserts s edit ↔ inserts edit = true := by
  rw [applyEdit]
  cases inserts edit with
  | true => exact iff_of_true (Or.inr inside) rfl
  | false => exact iff_of_false (fun kept => kept.2 inside) Bool.false_ne_true

theorem mem_applyEdit_of_notMem {s : Set α} {edit : ε} (outside : a ∉ part edit) :
    a ∈ applyEdit part inserts s edit ↔ a ∈ s := by
  rw [applyEdit]
  cases inserts edit with
  | true => exact ⟨fun kept => kept.resolve_right outside, Or.inl⟩
  | false => exact ⟨And.left, fun kept => ⟨kept, outside⟩⟩

/-- The last edit of an element inserts it. -/
def LastInserts (part : ε → Set α) (inserts : ε → Bool) (edits : List ε) (a : α) : Prop :=
  ∃ before edit behind, edits = before ++ edit :: behind ∧ inserts edit = true ∧
    a ∈ part edit ∧ ∀ later ∈ behind, a ∉ part later

/-- The last edit is the one that is split off, or it is behind that one. -/
theorem concat_eq_append_cons {edits before behind : List ε} {edit last : ε}
    (split : edits ++ [edit] = before ++ last :: behind) :
    behind = [] ∧ edit = last ∨
      ∃ front, behind = front ++ [edit] ∧ edits = before ++ last :: front := by
  rcases List.eq_nil_or_concat' behind with rfl | ⟨front, final, rfl⟩
  · obtain ⟨_, same⟩ := List.append_inj' split rfl
    exact Or.inl ⟨rfl, List.singleton_inj.mp same⟩
  · rw [← List.cons_append, ← List.append_assoc] at split
    obtain ⟨front', same⟩ := List.append_inj' split rfl
    obtain rfl := List.singleton_inj.mp same
    exact Or.inr ⟨front, rfl, front'⟩

theorem lastInserts_of_mem {edits : List ε} {edit : ε} (inside : a ∈ part edit) :
    LastInserts part inserts (edits ++ [edit]) a ↔ inserts edit = true := by
  constructor
  · rintro ⟨before, last, behind, split, inserted, _, untouched⟩
    rcases concat_eq_append_cons split with ⟨_, rfl⟩ | ⟨front, rfl, _⟩
    · exact inserted
    · exact absurd inside (untouched edit (by simp))
  · exact fun inserted => ⟨edits, edit, [], rfl, inserted, inside, by simp⟩

theorem lastInserts_of_notMem {edits : List ε} {edit : ε} (outside : a ∉ part edit) :
    LastInserts part inserts (edits ++ [edit]) a ↔
      LastInserts part inserts edits a := by
  constructor
  · rintro ⟨before, last, behind, split, inserted, inside, untouched⟩
    rcases concat_eq_append_cons split with ⟨_, rfl⟩ | ⟨front, rfl, same⟩
    · exact absurd inside outside
    · exact ⟨before, last, front, same, inserted, inside,
        fun later member => untouched later (by simp [member])⟩
  · rintro ⟨before, last, behind, rfl, inserted, inside, untouched⟩
    refine ⟨before, last, behind ++ [edit], by simp, inserted, inside, ?_⟩
    intro later member
    rcases List.mem_append.mp member with member | member
    · exact untouched later member
    · rwa [List.mem_singleton.mp member]

/-- An element is in the set if its last edit inserts it, or if it was there before and
has not been edited.  The induction takes off the last edit. -/
theorem mem_applyEdits (edits : List ε) {s : Set α} :
    a ∈ applyEdits part inserts edits s ↔
      LastInserts part inserts edits a ∨ a ∈ s ∧ ∀ edit ∈ edits, a ∉ part edit := by
  induction edits using List.reverseRecOn with
  | nil => simp [applyEdits, LastInserts]
  | append_singleton edits edit inductionHypothesis =>
      rw [applyEdits, List.foldl_append, List.foldl_cons, List.foldl_nil, ← applyEdits]
      by_cases inside : a ∈ part edit
      · rw [mem_applyEdit_of_mem inside, lastInserts_of_mem inside]
        refine ⟨Or.inl, fun either => either.resolve_right ?_⟩
        exact fun ⟨_, untouched⟩ => untouched edit (by simp) inside
      · rw [mem_applyEdit_of_notMem inside, lastInserts_of_notMem inside,
          inductionHypothesis]
        simp [or_imp, forall_and, inside]

end SetHistory
