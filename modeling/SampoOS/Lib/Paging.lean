/-
Module: SampoOS.Lib.Paging
Purpose: The four-level page-table walk of x86-64 with 4 KiB pages, and address
  spaces in which the first mapping of a page wins.
Trusted boundary: none
Main exports: Canonical, tableIndex, entryAt, walk, translate, PageMapping,
  AddressSpace, AddressSpace.mapFirst, foldl_mapFirst
-/
import SampoOS.Lib.ByteMemory

namespace Paging

open ByteMemory (Memory loadLe)

/-! ## Addresses -/

/-- Bits 63 to 48 of a virtual address repeat bit 47. -/
def Canonical (v : Nat) : Prop :=
  v < 2 ^ 47 ∨ 2 ^ 64 - 2 ^ 47 ≤ v ∧ v < 2 ^ 64

instance (v : Nat) : Decidable (Canonical v) :=
  inferInstanceAs (Decidable (_ ∨ _))

/-- The index of an address into the table of a level: 0 for the page table, 3
for the PML4. -/
def tableIndex (level v : Nat) : Nat := v / 2 ^ (12 + 9 * level) % 512

/-- The page of an address, as far as the walk looks at it: bits 47 to 12. -/
def pageNumber (v : Nat) : Nat := v / 4096 % 2 ^ 36

/-- The indices that the walk for a page uses, from the root down. -/
def pagePath (page : Nat) : List Nat :=
  [page / 2 ^ 27 % 512, page / 2 ^ 18 % 512, page / 2 ^ 9 % 512, page % 512]

theorem tableIndex_lt (level v : Nat) : tableIndex level v < 512 :=
  Nat.mod_lt _ (by decide)

theorem pagePath_pageNumber (v : Nat) :
    pagePath (pageNumber v) =
      [tableIndex 3 v, tableIndex 2 v, tableIndex 1 v, tableIndex 0 v] := by
  simp only [pagePath, pageNumber, tableIndex, List.cons.injEq, and_true]
  omega

/-- A page is determined by its path. -/
theorem pagePath_injective {page page' : Nat} (word : page < 2 ^ 36)
    (word' : page' < 2 ^ 36) (same : pagePath page = pagePath page') :
    page = page' := by
  simp only [pagePath, List.cons.injEq, and_true] at same
  omega

theorem pageNumber_lt (v : Nat) : pageNumber v < 2 ^ 36 :=
  Nat.mod_lt _ (by decide)

/-- Canonical addresses with the same page number lie in the same page. -/
theorem pageNumber_eq_iff {v v' : Nat} (canonical : Canonical v)
    (canonical' : Canonical v') :
    pageNumber v = pageNumber v' ↔ v / 4096 = v' / 4096 := by
  simp only [Canonical, pageNumber] at *
  omega

/-! ## The walk -/

/-- Bit 0 of an entry. -/
def isPresent (entry : Nat) : Bool := entry.testBit 0

/-- Bit 1 of an entry. -/
def isWritable (entry : Nat) : Bool := entry.testBit 1

/-- Bit 63 of an entry: the NX bit. -/
def isNoExecute (entry : Nat) : Bool := entry.testBit 63

/-- Bits 51 to 12 of an entry: the page that it points to. -/
def entryFrame (entry : Nat) : Nat := entry / 4096 % 2 ^ 40 * 4096

/-- The entry at an index of a table. -/
def entryAt (m : Memory) (table index : Nat) : Nat := loadLe m (table + 8 * index) 8

/-- A mapped page: its frame, and what all entries on the path to it allow. -/
structure PageMapping where
  frame : Nat
  writable : Bool
  executable : Bool
deriving Repr, DecidableEq

/-- Follow the indices from a table on.  Each entry on the way has to be
present; writing and executing are allowed where every entry allows it. -/
def walk (m : Memory) (table : Nat) : List Nat → Option PageMapping
  | [] => some { frame := table, writable := true, executable := true }
  | index :: rest =>
      let entry := entryAt m table index
      if isPresent entry then
        (walk m (entryFrame entry) rest).map fun mapping =>
          { mapping with
            writable := isWritable entry && mapping.writable
            executable := !isNoExecute entry && mapping.executable }
      else none

/-- The page that a virtual address is mapped to. -/
def translatePage (m : Memory) (root v : Nat) : Option PageMapping :=
  walk m root [tableIndex 3 v, tableIndex 2 v, tableIndex 1 v, tableIndex 0 v]

/-- The physical address of a virtual address. -/
def translate (m : Memory) (root v : Nat) : Option Nat :=
  (translatePage m root v).map fun mapping => mapping.frame + v % 4096

/-! ## Address spaces -/

/-- What each page is mapped to. -/
abbrev AddressSpace := Nat → Option PageMapping

/-- Map a page that is not mapped yet; an existing mapping stays. -/
def AddressSpace.mapFirst (space : AddressSpace) (page : Nat)
    (mapping : PageMapping) : AddressSpace :=
  if (space page).isSome then space else Function.update space page (some mapping)

theorem AddressSpace.mapFirst_apply (space : AddressSpace) (page : Nat)
    (mapping : PageMapping) (x : Nat) :
    space.mapFirst page mapping x =
      (space x).or (if x = page then some mapping else none) := by
  rw [mapFirst]
  by_cases samePage : x = page
  · subst samePage
    cases mapped : space x <;> simp [mapped]
  · split <;> simp [samePage]

/-- After any list of mappings the first one made of each page holds. -/
theorem foldl_mapFirst {α : Type} (pageOf : α → Nat) (mappingOf : α → PageMapping)
    (requests : List α) (space : AddressSpace) (x : Nat) :
    (requests.foldl (fun space request =>
        space.mapFirst (pageOf request) (mappingOf request)) space) x =
      (space x).or
        ((requests.find? fun request => decide (pageOf request = x)).map
          mappingOf) := by
  induction requests generalizing space with
  | nil => simp
  | cons request requests inductionHypothesis =>
      rw [List.foldl_cons, inductionHypothesis, AddressSpace.mapFirst_apply,
        Option.or_assoc, List.find?_cons]
      by_cases samePage : x = pageOf request
      · simp [samePage]
      · simp [samePage, Ne.symm samePage]

end Paging
