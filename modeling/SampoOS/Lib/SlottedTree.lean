/-
Module: SampoOS.Lib.SlottedTree
Purpose: A tree of page tables one entry of whose root points back to the root:
  what it maps outside of that entry, and how writing an entry changes it.
Trusted boundary: none
Main exports: walk_congr, SlottedTree, SlottedTree.of_store, SlottedTree.congr,
  SlottedTree.translatePage_eq, SlottedTree.free_iff, SlottedTree.setEntry
-/
import SampoOS.Lib.RecursiveSlot

namespace Paging

open ByteMemory (Memory storeLe storeLe_outside loadLe_storeLe)

/-- A walk finds the same page where every entry on the way is the same. -/
theorem walk_congr {m m' : Memory} {path : List Nat} : ∀ {root : Nat},
    (∀ {front back : List Nat} {index table : Nat}, path = front ++ index :: back →
      reach m root front = some table →
      entryAt m' table index = entryAt m table index) →
    walk m' root path = walk m root path := by
  induction path with
  | nil => exact fun _ => rfl
  | cons index rest inductionHypothesis =>
      intro root same
      have first : entryAt m' root index = entryAt m root index :=
        same (List.nil_append _).symm rfl
      simp only [walk, first]
      split
      next present =>
        congr 1
        apply inductionHypothesis
        intro front back next table split found
        have whole : index :: rest = (index :: front) ++ next :: back :=
          congrArg (index :: ·) split
        refine same whole ?_
        simpa only [reach, present, if_true] using found
      · rfl

/-- Addresses in one page have one translation. -/
theorem translatePage_congr (m : Memory) (root : Nat) {v w : Nat}
    (same : pageNumber v = pageNumber w) :
    translatePage m root v = translatePage m root w := by
  rw [translatePage, translatePage, ← pagePath_pageNumber, ← pagePath_pageNumber, same]

/-- Writes to places that do not overlap can be made in either order. -/
theorem storeLe_comm {m : Memory} {a b n k v w : Nat}
    (apart : a + n ≤ b ∨ b + k ≤ a) :
    storeLe (storeLe m a n v) b k w = storeLe (storeLe m b k w) a n v := by
  funext x
  simp only [storeLe]
  split_ifs
  · omega
  · rfl
  · rfl
  · rfl

/-- The memory holds a tree of tables for an address space, with an entry of the
root written over by one that points back to the root. -/
structure SlottedTree (m : Memory) (root slot : Nat) (tables : Tables)
    (space : AddressSpace) : Prop where
  isRoot : tables [] = some root
  slotInTable : slot < 512
  plain : ∃ m₀ value, PageTree m₀ tables space ∧
    isPresent (value % 256 ^ 8) = true ∧ entryFrame (value % 256 ^ 8) = root ∧
    m = storeLe m₀ (root + 8 * slot) 8 value

/-- The first index of a page is not the slot. -/
def OutsideSlot (slot page : Nat) : Prop := page / 2 ^ 27 % 512 ≠ slot

instance (slot page : Nat) : Decidable (OutsideSlot slot page) :=
  inferInstanceAs (Decidable (_ ≠ _))

namespace SlottedTree

variable {m : Memory} {root slot : Nat} {tables : Tables} {space : AddressSpace}

/-- Pointing an entry of the root back to it. -/
theorem of_store {value : Nat} (tree : PageTree m tables space)
    (isRoot : tables [] = some root) (inTable : slot < 512)
    (present : isPresent (value % 256 ^ 8) = true)
    (self : entryFrame (value % 256 ^ 8) = root) :
    SlottedTree (storeLe m (root + 8 * slot) 8 value) root slot tables space :=
  ⟨isRoot, inTable, m, value, tree, present, self, rfl⟩

/-- Only the bytes of the tables matter. -/
theorem congr {m' : Memory} (slotted : SlottedTree m root slot tables space)
    (same : ∀ x ∈ tableBytes tables, m' x = m x) :
    SlottedTree m' root slot tables space := by
  obtain ⟨isRoot, inTable, m₀, value, tree, present, self, rfl⟩ := slotted
  refine ⟨isRoot, inTable, fun x =>
    if root + 8 * slot ≤ x ∧ x < root + 8 * slot + 8 then m₀ x else m' x, value, ?_,
    present, self, ?_⟩
  · refine tree.congr fun x inside => ?_
    split
    next => rfl
    next outside => rw [same x inside, storeLe_outside (by omega)]
  · funext x
    rw [storeLe]
    split
    next inSlot =>
      rw [same x (PageTree.entry_subset isRoot inTable inSlot.1 inSlot.2), storeLe,
        if_pos inSlot]
    next => rfl

theorem recursiveTree (slotted : SlottedTree m root slot tables space) :
    RecursiveTree m root slot := by
  obtain ⟨isRoot, inTable, m₀, value, tree, present, self, rfl⟩ := slotted
  exact tree.recursiveTree isRoot inTable present self

theorem reach_eq (slotted : SlottedTree m root slot tables space)
    {path : List Nat} (treePath : TreePath slot path) :
    reach m root path = tables path := by
  obtain ⟨isRoot, inTable, m₀, value, tree, _, _, rfl⟩ := slotted
  exact tree.reach_slot isRoot inTable treePath

/-- The slot is no entry on the path of a page outside of it. -/
theorem other_entry {m₀ : Memory} {value page table index : Nat}
    {front back : List Nat} (tree : PageTree m₀ tables space)
    (isRoot : tables [] = some root) (inTable : slot < 512)
    (outside : OutsideSlot slot page)
    (isPath : pagePath page = front ++ index :: back)
    (found : tables front = some table) :
    entryAt (storeLe m₀ (root + 8 * slot) 8 value) table index =
      entryAt m₀ table index := by
  refine tree.other_entry isRoot inTable found (pagePath_lt (by rw [isPath]; simp))
    ?_ fun x _ other => storeLe_outside other
  intro same
  cases front with
  | nil =>
      rw [pagePath, List.nil_append, List.cons.injEq] at isPath
      exact outside (isPath.1.trans (List.singleton_inj.mp same))
  | cons first front =>
      have length := congrArg List.length same
      simp at length

/-- Outside of the slot, the tree maps what its address space says. -/
theorem translatePage_eq (slotted : SlottedTree m root slot tables space) {v : Nat}
    (outside : OutsideSlot slot (pageNumber v)) :
    translatePage m root v = space (pageNumber v) := by
  obtain ⟨isRoot, inTable, m₀, value, tree, _, _, rfl⟩ := slotted
  rw [← tree.translatePage_eq isRoot v, translatePage, translatePage,
    ← pagePath_pageNumber]
  apply walk_congr
  intro front back index table split found
  have short : front.length ≤ 3 := by
    have four := length_pagePath (pageNumber v)
    rw [split, List.length_append, List.length_cons] at four
    omega
  rw [tree.reach_eq front isRoot (by simpa using short)
    fun other inside => pagePath_lt (by rw [split]; simp [inside])] at found
  exact other_entry tree isRoot inTable outside split found

section Leaf

variable {path : List Nat} {table index page : Nat}
  (slotted : SlottedTree m root slot tables space)
  (found : tables path = some table) (isPath : pagePath page = path ++ [index])
  (word : page < 2 ^ 36)

include slotted found isPath word

/-- An entry is not present exactly if its page is not mapped. -/
theorem free_iff (outside : OutsideSlot slot page) :
    isPresent (entryAt m table index) = false ↔ space page = none := by
  obtain ⟨isRoot, inTable, m₀, value, tree, _, _, rfl⟩ := slotted
  rw [other_entry tree isRoot inTable outside isPath found]
  have entry := tree.entries word found isPath
  cases mapped : space page with
  | none =>
      rw [mapped] at entry
      rw [show entryAt m₀ table index = 0 from entry]
      exact iff_of_true isPresent_zero rfl
  | some mapping =>
      rw [mapped] at entry
      have maps : Maps (entryAt m₀ table index) mapping := entry
      simp [maps.present]

/-- Writing the entry of a page maps it, and leaves the other pages as they are. -/
theorem setEntry {mapping : PageMapping} {value : Nat}
    (maps : Maps (value % 256 ^ 8) mapping) :
    SlottedTree (storeLe m (table + 8 * index) 8 value) root slot tables
      (Function.update space page (some mapping)) := by
  obtain ⟨isRoot, inTable, m₀, slotValue, tree, present, self, rfl⟩ := slotted
  have deep : path.length = 3 := by
    have four := length_pagePath page
    rw [isPath, List.length_append, List.length_singleton] at four
    omega
  have different : ([] : List Nat) ≠ path := by
    rintro rfl
    cases deep
  have apart := tree.tables_apart isRoot found different
  have below := pagePath_last_lt isPath
  refine ⟨isRoot, inTable, storeLe m₀ (table + 8 * index) 8 value, slotValue, ?_,
    present, self, storeLe_comm (by omega)⟩
  apply tree.setEntry found isPath word
  · rw [entryAt, loadLe_storeLe]
    exact maps
  · exact fun x _ other => storeLe_outside other

end Leaf

end SlottedTree

end Paging
