/-
Module: SampoOS.Lib.RecursiveSlot
Purpose: The tables that a walk passes, and page tables whose root has an entry
  that points back to it.
Trusted boundary: none
Main exports: reach, translate_eq_reach, RecursiveSlot,
  RecursiveSlot.reach_replicate, RecursiveSlot.translate_window, TreePath,
  RecursiveTree, RecursiveTree.reach_store, RecursiveTree.store,
  PageTree.recursiveTree
-/
import SampoOS.Lib.PageTree

namespace Paging

open ByteMemory (Memory storeLe storeLe_outside loadLe_storeLe
  loadLe_storeLe_disjoint)

/-- The table that indices lead to, if every entry on the way is present. -/
def reach (m : Memory) (table : Nat) : List Nat → Option Nat
  | [] => some table
  | index :: rest =>
      let entry := entryAt m table index
      if isPresent entry then reach m (entryFrame entry) rest else none

/-- The frame of a walk is where its indices lead to. -/
theorem walk_frame (m : Memory) (path : List Nat) :
    ∀ table, (walk m table path).map PageMapping.frame = reach m table path := by
  induction path with
  | nil => exact fun _ => rfl
  | cons index rest inductionHypothesis =>
      intro table
      simp only [walk, reach]
      split
      · rw [Option.map_map, ← inductionHypothesis]
        rfl
      · rfl

theorem translate_eq_reach (m : Memory) (root v : Nat) :
    translate m root v =
      (reach m root [tableIndex 3 v, tableIndex 2 v, tableIndex 1 v,
        tableIndex 0 v]).map (· + v % 4096) := by
  rw [translate, translatePage, ← walk_frame, Option.map_map]
  rfl

/-- An entry of the root table is present and points to the root table. -/
structure RecursiveSlot (m : Memory) (root slot : Nat) : Prop where
  present : isPresent (entryAt m root slot) = true
  self : entryFrame (entryAt m root slot) = root

namespace RecursiveSlot

variable {m : Memory} {root slot : Nat}

/-- Each turn through the slot leads back to the root. -/
theorem reach_replicate (recursive : RecursiveSlot m root slot) (n : Nat)
    (path : List Nat) :
    reach m root (List.replicate n slot ++ path) = reach m root path := by
  induction n with
  | zero => rfl
  | succ n inductionHypothesis =>
      rw [List.replicate_succ, List.cons_append, reach,
        if_pos recursive.present, recursive.self, inductionHypothesis]

/-- An address whose indices start with turns through the slot is translated to
the table that the other indices lead to. -/
theorem translate_window (recursive : RecursiveSlot m root slot) {v : Nat}
    (n : Nat) (path : List Nat)
    (indices : [tableIndex 3 v, tableIndex 2 v, tableIndex 1 v, tableIndex 0 v] =
      List.replicate n slot ++ path) :
    translate m root v = (reach m root path).map (· + v % 4096) := by
  rw [translate_eq_reach, indices, recursive.reach_replicate]

end RecursiveSlot

/-! ## Trees with a recursive slot -/

theorem reach_append (m : Memory) (front back : List Nat) :
    ∀ table, reach m table (front ++ back) =
      (reach m table front).bind fun next => reach m next back := by
  induction front with
  | nil => exact fun _ => rfl
  | cons index front inductionHypothesis =>
      intro table
      simp only [List.cons_append, reach]
      split
      · exact inductionHypothesis _
      · rfl

/-- Where a sequence of indices leads to a table, so does each prefix. -/
theorem exists_reach_front {m : Memory} {root table : Nat} (front back : List Nat)
    (found : reach m root (front ++ back) = some table) :
    ∃ next, reach m root front = some next := by
  rw [reach_append] at found
  obtain ⟨next, reached, _⟩ := Option.bind_eq_some_iff.mp found
  exact ⟨next, reached⟩

theorem entryFrame_aligned (entry : Nat) : 4096 ∣ entryFrame entry :=
  Nat.dvd_mul_left 4096 _

theorem reach_aligned {m : Memory} {path : List Nat} :
    ∀ {root table : Nat}, 4096 ∣ root → reach m root path = some table →
      4096 ∣ table := by
  induction path with
  | nil =>
      rintro root table aligned found
      rwa [← Option.some.inj found]
  | cons index rest inductionHypothesis =>
      intro root table _ found
      rw [reach] at found
      split at found
      · exact inductionHypothesis (entryFrame_aligned _) found
      · cases found

/-- A place in a page that is found has the offset that was asked for. -/
theorem translate_mod {m : Memory} {root v location : Nat}
    (found : translate m root v = some location) :
    location % 4096 = v % 4096 := by
  rw [translate_eq_reach, reach] at found
  split at found
  · obtain ⟨frame, reached, rfl⟩ := Option.map_eq_some_iff.mp found
    have aligned := reach_aligned (entryFrame_aligned _) reached
    omega
  · cases found

/-- Indices lead to the same table where every entry on the way is the same. -/
theorem reach_congr {m m' : Memory} {path : List Nat} : ∀ {root : Nat},
    (∀ {front back : List Nat} {index table : Nat}, path = front ++ index :: back →
      reach m root front = some table →
      entryAt m' table index = entryAt m table index) →
    reach m' root path = reach m root path := by
  induction path with
  | nil => exact fun _ => rfl
  | cons index rest inductionHypothesis =>
      intro root same
      have first : entryAt m' root index = entryAt m root index :=
        same (List.nil_append _).symm rfl
      simp only [reach, first]
      split
      next present =>
        apply inductionHypothesis
        intro front back next table split found
        have whole : index :: rest = (index :: front) ++ next :: back :=
          congrArg (index :: ·) split
        refine same whole ?_
        simpa only [reach, present, if_true] using found
      · rfl

/-- Indices of a table of the tree, which do not start with a turn through the
slot. -/
structure TreePath (slot : Nat) (path : List Nat) : Prop where
  short : path.length ≤ 3
  inTable : ∀ index ∈ path, index < 512
  outside : path.head? ≠ some slot

theorem TreePath.front {slot : Nat} {front back : List Nat}
    (path : TreePath slot (front ++ back)) : TreePath slot front where
  short := (Nat.le_add_right _ _).trans (List.length_append ▸ path.short)
  inTable index inside := path.inTable index (List.mem_append_left back inside)
  outside := by
    intro first
    cases front with
    | nil => cases first
    | cons index front => exact path.outside first

theorem TreePath.root (slot : Nat) : TreePath slot [] :=
  ⟨Nat.zero_le _, by simp, by simp⟩

/-- Page tables with a recursive slot in which every other sequence of indices
leads to a table of its own. -/
structure RecursiveTree (m : Memory) (root slot : Nat) : Prop extends
    RecursiveSlot m root slot where
  slotInTable : slot < 512
  distinct : ∀ {path path' table}, TreePath slot path → TreePath slot path' →
    reach m root path = some table → reach m root path' = some table →
    path = path'

namespace RecursiveTree

variable {m : Memory} {root slot : Nat} {leaf : List Nat}
  {table index value : Nat}

theorem root_aligned (tree : RecursiveTree m root slot) : 4096 ∣ root :=
  tree.self ▸ entryFrame_aligned _

/-- Writing an entry of one table leaves every other entry of the tree alone. -/
theorem entryAt_store (tree : RecursiveTree m root slot)
    (leafPath : TreePath slot leaf) (found : reach m root leaf = some table)
    (inTable : index < 512) {path : List Nat} {table' index' : Nat}
    (treePath : TreePath slot path) (found' : reach m root path = some table')
    (inTable' : index' < 512) (different : path ++ [index'] ≠ leaf ++ [index]) :
    entryAt (storeLe m (table + 8 * index) 8 value) table' index' =
      entryAt m table' index' := by
  apply loadLe_storeLe_disjoint
  by_cases same : table' = table
  · subst same
    obtain rfl := tree.distinct treePath leafPath found' found
    have other : index' ≠ index := fun equal => different (by rw [equal])
    omega
  · have aligned := reach_aligned tree.root_aligned found
    have aligned' := reach_aligned tree.root_aligned found'
    omega

section Leaf

variable (tree : RecursiveTree m root slot) (leafPath : TreePath slot leaf)
  (deep : leaf.length = 3) (found : reach m root leaf = some table)
  (inTable : index < 512)

include tree leafPath deep found inTable

/-- Writing an entry of a page table moves no table. -/
theorem reach_store {path : List Nat} (treePath : TreePath slot path) :
    reach (storeLe m (table + 8 * index) 8 value) root path =
      reach m root path := by
  apply reach_congr
  intro front back next table' split found'
  rw [split] at treePath
  refine tree.entryAt_store leafPath found inTable treePath.front found'
    (treePath.inTable next (by simp)) ?_
  intro same
  have length := congrArg List.length same
  have short := treePath.short
  simp only [List.length_append, List.length_cons, List.length_nil] at length short
  omega

/-- Writing an entry of a page table keeps the tree. -/
theorem store :
    RecursiveTree (storeLe m (table + 8 * index) 8 value) root slot := by
  have kept : entryAt (storeLe m (table + 8 * index) 8 value) root slot =
      entryAt m root slot := by
    refine tree.entryAt_store leafPath found inTable (TreePath.root slot) rfl
      tree.slotInTable ?_
    intro same
    have length := congrArg List.length same
    simp only [List.length_append, List.length_cons, List.length_nil] at length
    omega
  refine ⟨⟨kept ▸ tree.present, kept ▸ tree.self⟩, tree.slotInTable, ?_⟩
  intro path path' table' treePath treePath' one other
  rw [tree.reach_store leafPath deep found inTable treePath] at one
  rw [tree.reach_store leafPath deep found inTable treePath'] at other
  exact tree.distinct treePath treePath' one other

end Leaf

end RecursiveTree

/-! ## Adding the slot to a tree -/

namespace PageTree

variable {m : Memory} {tables : Tables} {space : AddressSpace}

/-- From each table of a tree on, indices lead to the table that the tree has
there. -/
theorem reach_eq (tree : PageTree m tables space) (rest : List Nat) :
    ∀ {path : List Nat} {table : Nat}, tables path = some table →
      path.length + rest.length ≤ 3 → (∀ index ∈ rest, index < 512) →
      reach m table rest = tables (path ++ rest) := by
  induction rest with
  | nil =>
      intro path table found _ _
      rw [List.append_nil, found]
      rfl
  | cons index rest inductionHypothesis =>
      intro path table found short inTable
      rw [List.length_cons] at short
      have entry := tree.links found (by omega) (inTable index List.mem_cons_self)
      have further : path ++ index :: rest = (path ++ [index]) ++ rest := by simp
      rw [further, reach]
      cases linked : tables (path ++ [index]) with
      | none =>
          rw [linked] at entry
          rw [show entryAt m table index = 0 from entry, isPresent_zero,
            if_neg (by decide), tree.tables_below linked rest]
      | some next =>
          rw [linked] at entry
          have links : LinksTo (entryAt m table index) next := entry
          rw [if_pos links.present, links.frame]
          refine inductionHypothesis linked ?_ fun other inside =>
            inTable other (List.mem_cons_of_mem _ inside)
          rw [List.length_append, List.length_singleton]
          omega

variable {root slot value : Nat} (tree : PageTree m tables space)
  (isRoot : tables [] = some root) (inTable : slot < 512)

include tree isRoot inTable

/-- Writing an entry of the root moves no table, apart from those that it leads
to. -/
theorem reach_slot {path : List Nat} (treePath : TreePath slot path) :
    reach (storeLe m (root + 8 * slot) 8 value) root path = tables path := by
  have before : ∀ {front back : List Nat}, path = front ++ back →
      reach m root front = tables front := by
    rintro front back rfl
    refine tree.reach_eq front isRoot ?_ treePath.front.inTable
    exact (Nat.zero_add _).trans_le treePath.front.short
  rw [← before (List.append_nil path).symm]
  apply reach_congr
  intro front back index table split found
  rw [before split] at found
  refine tree.other_entry isRoot inTable found
    (treePath.inTable index (by simp [split])) ?_ fun x _ outside =>
      storeLe_outside outside
  intro same
  cases front with
  | nil =>
      refine treePath.outside ?_
      rw [split, ← List.singleton_inj.mp same]
      rfl
  | cons first front =>
      have length := congrArg List.length same
      simp at length

/-- An entry that points back to the root makes a tree recursive. -/
theorem recursiveTree (present : isPresent (value % 256 ^ 8) = true)
    (self : entryFrame (value % 256 ^ 8) = root) :
    RecursiveTree (storeLe m (root + 8 * slot) 8 value) root slot := by
  have entry : entryAt (storeLe m (root + 8 * slot) 8 value) root slot =
      value % 256 ^ 8 := loadLe_storeLe _ _ _ _
  refine ⟨⟨entry ▸ present, entry ▸ self⟩, inTable, ?_⟩
  intro path path' table treePath treePath' found found'
  rw [tree.reach_slot isRoot inTable treePath] at found
  rw [tree.reach_slot isRoot inTable treePath'] at found'
  exact tree.injective found found'

end PageTree

end Paging
