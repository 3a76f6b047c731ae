/-
Module: SampoOS.Lib.PageTree
Purpose: Page tables as a tree of distinct pages in memory: what the walk finds
  in such a tree, and how linking a table and filling in an entry extend it.
Trusted boundary: none
Main exports: LinksTo, Maps, PageTree, tableBytes, PageTree.translatePage_eq,
  PageTree.congr, PageTree.link, PageTree.setEntry, PageTree.chain
-/
import Mathlib.Order.Interval.Set.Basic
import SampoOS.Lib.Paging

namespace Paging

open ByteMemory

/-! ## Entries -/

/-- An entry that points to a table and forbids nothing. -/
structure LinksTo (entry table : Nat) : Prop where
  present : isPresent entry = true
  writable : isWritable entry = true
  executable : isNoExecute entry = false
  frame : entryFrame entry = table

/-- An entry that maps a page. -/
structure Maps (entry : Nat) (mapping : PageMapping) : Prop where
  present : isPresent entry = true
  writable : isWritable entry = mapping.writable
  executable : (!isNoExecute entry) = mapping.executable
  frame : entryFrame entry = mapping.frame

theorem isPresent_zero : isPresent 0 = false := rfl

theorem LinksTo.ne_zero {entry table : Nat} (links : LinksTo entry table) :
    entry ≠ 0 := by
  intro zero
  have present := links.present
  rw [zero, isPresent_zero] at present
  cases present

theorem Maps.ne_zero {entry : Nat} {mapping : PageMapping}
    (maps : Maps entry mapping) : entry ≠ 0 := by
  intro zero
  have present := maps.present
  rw [zero, isPresent_zero] at present
  cases present

/-- An entry holds what `space` says of a page: a mapping, or zero. -/
def EntryHolds (entry : Nat) : Option PageMapping → Prop
  | some mapping => Maps entry mapping
  | none => entry = 0

/-- An entry holds the link to a table, or zero. -/
def EntryLinks (entry : Nat) : Option Nat → Prop
  | some table => LinksTo entry table
  | none => entry = 0

/-! ## Trees -/

/-- The tables of a tree: where the table that a sequence of indices leads to
lies. -/
abbrev Tables := List Nat → Option Nat

/-- The bytes of all tables. -/
def tableBytes (tables : Tables) : Set Nat :=
  {x | ∃ path table, tables path = some table ∧ table ≤ x ∧ x < table + 4096}

/-- The memory holds a tree of tables for an address space.  Each table is a page
of its own; entries are zero where nothing is linked or mapped. -/
structure PageTree (m : Memory) (tables : Tables) (space : AddressSpace) :
    Prop where
  aligned : ∀ {path table}, tables path = some table → 4096 ∣ table
  injective : ∀ {path path' table}, tables path = some table →
    tables path' = some table → path = path'
  parent : ∀ {path index}, (tables (path ++ [index])).isSome →
    (tables path).isSome
  links : ∀ {path table index}, tables path = some table → path.length < 3 →
    index < 512 → EntryLinks (entryAt m table index) (tables (path ++ [index]))
  entries : ∀ {path table index page}, page < 2 ^ 36 →
    tables path = some table → pagePath page = path ++ [index] →
    EntryHolds (entryAt m table index) (space page)
  unmapped : ∀ {path index page}, page < 2 ^ 36 → tables path = none →
    pagePath page = path ++ [index] → space page = none

theorem pagePath_lt {page index : Nat} (inside : index ∈ pagePath page) :
    index < 512 := by
  simp only [pagePath, List.mem_cons, List.not_mem_nil, or_false] at inside
  rcases inside with rfl | rfl | rfl | rfl <;> exact Nat.mod_lt _ (by decide)

theorem length_pagePath (page : Nat) : (pagePath page).length = 4 := by
  simp only [pagePath, List.length_cons, List.length_nil]

theorem pagePath_last_lt {page index : Nat} {path : List Nat}
    (isPath : pagePath page = path ++ [index]) : index < 512 :=
  pagePath_lt (by rw [isPath]; simp)

namespace PageTree

variable {m m' : Memory} {tables : Tables} {space : AddressSpace}

theorem entry_subset {path : List Nat} {table index : Nat}
    (found : tables path = some table) (inTable : index < 512) {x : Nat}
    (low : table + 8 * index ≤ x) (high : x < table + 8 * index + 8) :
    x ∈ tableBytes tables :=
  ⟨path, table, found, by omega, by omega⟩

/-- Distinct tables share no byte. -/
theorem tables_apart (tree : PageTree m tables space) {path path' : List Nat}
    {table table' : Nat} (found : tables path = some table)
    (found' : tables path' = some table') (different : path ≠ path') :
    table + 4096 ≤ table' ∨ table' + 4096 ≤ table := by
  have aligned := tree.aligned found
  have aligned' := tree.aligned found'
  have distinct : table ≠ table' := by
    rintro rfl
    exact different (tree.injective found found')
  omega

/-! ### What the walk finds -/

private theorem map_link {entry table : Nat} (links : LinksTo entry table)
    (found : Option PageMapping) :
    found.map (fun mapping =>
      { mapping with
        writable := isWritable entry && mapping.writable
        executable := !isNoExecute entry && mapping.executable }) = found := by
  rw [links.writable, links.executable]
  simp

/-- The walk goes down to the next table of the tree, if there is one. -/
theorem walk_cons (tree : PageTree m tables space) {path : List Nat}
    {table index : Nat} (found : tables path = some table)
    (short : path.length < 3) (inTable : index < 512) (rest : List Nat) :
    walk m table (index :: rest) =
      (tables (path ++ [index])).bind fun next => walk m next rest := by
  have entry := tree.links found short inTable
  rw [walk]
  cases linked : tables (path ++ [index]) with
  | none =>
      rw [linked] at entry
      rw [show entryAt m table index = 0 from entry]
      rfl
  | some next =>
      rw [linked] at entry
      have links : LinksTo (entryAt m table index) next := entry
      simp only [links.present, if_true, links.frame, map_link links,
        Option.bind_some]

/-- The last step of the walk finds the mapping of the page. -/
theorem walk_last (tree : PageTree m tables space) {path : List Nat}
    {table index page : Nat} (word : page < 2 ^ 36)
    (found : tables path = some table)
    (isPath : pagePath page = path ++ [index]) :
    walk m table [index] = space page := by
  have entry := tree.entries word found isPath
  rw [walk]
  cases mapped : space page with
  | none =>
      rw [mapped] at entry
      rw [show entryAt m table index = 0 from entry]
      rfl
  | some mapping =>
      rw [mapped] at entry
      have maps : Maps (entryAt m table index) mapping := entry
      simp [walk, maps.present, maps.writable, maps.executable, maps.frame]

theorem tables_none (tree : PageTree m tables space) {path : List Nat}
    (missing : tables path = none) (index : Nat) :
    tables (path ++ [index]) = none := by
  rw [← Option.not_isSome_iff_eq_none]
  intro present
  simpa [missing] using tree.parent present

/-- Below a missing table there is none. -/
theorem tables_below (tree : PageTree m tables space) {path : List Nat}
    (missing : tables path = none) (rest : List Nat) :
    tables (path ++ rest) = none := by
  induction rest generalizing path with
  | nil => rw [List.append_nil, missing]
  | cons index rest inductionHypothesis =>
      have further := inductionHypothesis (tree.tables_none missing index)
      rwa [List.append_assoc, List.singleton_append] at further

/-- Below a missing table no page is mapped. -/
theorem unmapped_below (tree : PageTree m tables space) {page : Nat}
    (word : page < 2 ^ 36) (rest : List Nat) : ∀ {path : List Nat} {index : Nat},
      tables path = none → pagePath page = path ++ index :: rest →
      space page = none := by
  induction rest with
  | nil => exact fun missing isPath => tree.unmapped word missing isPath
  | cons next rest inductionHypothesis =>
      intro path index missing isPath
      apply inductionHypothesis (tree.tables_none missing index)
      rw [isPath, List.append_assoc, List.singleton_append]

/-- From each table on, the rest of a page's path leads to its mapping. -/
theorem walk_eq (tree : PageTree m tables space) {page : Nat}
    (word : page < 2 ^ 36) (rest : List Nat) : ∀ {path : List Nat} {table index : Nat},
      tables path = some table → pagePath page = path ++ index :: rest →
      walk m table (index :: rest) = space page := by
  induction rest with
  | nil => exact fun found isPath => tree.walk_last word found isPath
  | cons next rest inductionHypothesis =>
      intro path table index found isPath
      have inTable : index < 512 := pagePath_lt (by rw [isPath]; simp)
      have short : path.length < 3 := by
        have four := length_pagePath page
        rw [isPath, List.length_append, List.length_cons, List.length_cons]
          at four
        omega
      have further : pagePath page = (path ++ [index]) ++ next :: rest := by
        rw [isPath, List.append_assoc, List.singleton_append]
      rw [tree.walk_cons found short inTable]
      cases linked : tables (path ++ [index]) with
      | none =>
          rw [Option.bind_none, tree.unmapped_below word rest linked further]
      | some table =>
          rw [Option.bind_some, inductionHypothesis linked further]

/-- Walking the tree gives the address space that it stands for. -/
theorem translatePage_eq (tree : PageTree m tables space) {root : Nat}
    (isRoot : tables [] = some root) (v : Nat) :
    translatePage m root v = space (pageNumber v) :=
  tree.walk_eq (pageNumber_lt v) _ isRoot (pagePath_pageNumber v)

/-! ### Changing the tree -/

/-- Only the bytes of the tables matter. -/
theorem congr (tree : PageTree m tables space)
    (same : ∀ x ∈ tableBytes tables, m' x = m x) : PageTree m' tables space := by
  have sameEntry : ∀ {path table index}, tables path = some table →
      index < 512 → entryAt m' table index = entryAt m table index :=
    fun found inTable => loadLe_congr fun x low high =>
      same x (entry_subset found inTable low high)
  refine ⟨tree.aligned, tree.injective, tree.parent, ?_, ?_, tree.unmapped⟩
  · intro path table index found short inTable
    rw [sameEntry found inTable]
    exact tree.links found short inTable
  · intro path table index page word found isPath
    rw [sameEntry found (pagePath_last_lt isPath)]
    exact tree.entries word found isPath

/-- Changing the bytes of one entry leaves every other entry alone. -/
theorem other_entry (tree : PageTree m tables space) {path path' : List Nat}
    {table table' index index' : Nat} (found : tables path = some table)
    (inTable : index < 512) (found' : tables path' = some table')
    (inTable' : index' < 512) (different : path' ++ [index'] ≠ path ++ [index])
    (same : ∀ x ∈ tableBytes tables,
      x < table + 8 * index ∨ table + 8 * index + 8 ≤ x → m' x = m x) :
    entryAt m' table' index' = entryAt m table' index' := by
  apply loadLe_congr
  intro x low high
  refine same x (entry_subset found' inTable' low high) ?_
  by_cases samePath : path' = path
  · subst samePath
    have sameTable : table' = table := Option.some.inj (found'.symm.trans found)
    have otherIndex : index' ≠ index := fun equal => different (by rw [equal])
    omega
  · have apart := tree.tables_apart found' found samePath
    omega

/-- The entries of a page of zeroes are zero. -/
theorem entryAt_zeroed {m : Memory} {table i : Nat}
    (zeroed : ∀ x, table ≤ x → x < table + 4096 → m x = 0) (below : i < 512) :
    entryAt m table i = 0 :=
  loadLe_zero fun x low high => zeroed x (by omega) (by omega)

/-- Once a table is added, a table is that one or was there before. -/
theorem update_eq_some {tables : Tables} {path other : List Nat}
    {fresh table : Nat}
    (isTable : Function.update tables path (some fresh) other = some table) :
    other = path ∧ table = fresh ∨ other ≠ path ∧ tables other = some table := by
  rw [Function.update_apply] at isTable
  split at isTable
  next added => exact Or.inl ⟨added, (Option.some.inj isTable).symm⟩
  next old => exact Or.inr ⟨old, isTable⟩

/-- An added table adds its page to the bytes of the tables. -/
theorem tableBytes_update_subset (tables : Tables) (path : List Nat)
    (fresh : Nat) :
    tableBytes (Function.update tables path (some fresh)) ⊆
      tableBytes tables ∪ Set.Ico fresh (fresh + 4096) := by
  rintro x ⟨other, table, isTable, low, high⟩
  rcases update_eq_some isTable with ⟨_, rfl⟩ | ⟨_, old⟩
  · exact Or.inr ⟨low, high⟩
  · exact Or.inl ⟨other, table, old, low, high⟩

/-- The last entry on the path of a page links no table. -/
theorem last_ne_link {path path' : List Nat} {index i page : Nat}
    (isPath : pagePath page = path' ++ [i]) (short : path.length < 3) :
    path' ++ [i] ≠ path ++ [index] := by
  intro equal
  have four := length_pagePath page
  rw [isPath, equal, List.length_append, List.length_singleton] at four
  omega

/-- A page of zeroes is the tree of an empty address space. -/
theorem root {m : Memory} {root : Nat} (aligned : 4096 ∣ root)
    (zeroed : ∀ x, root ≤ x → x < root + 4096 → m x = 0) :
    PageTree m (Function.update (fun _ => none) [] (some root))
      (fun _ => none) := by
  have isRoot : ∀ {path : List Nat} {table : Nat},
      Function.update (fun _ => none : Tables) [] (some root) path = some table →
        path = [] ∧ table = root := by
    intro path table found
    rcases update_eq_some found with isRoot | ⟨_, absent⟩
    · exact isRoot
    · cases absent
  refine ⟨?_, ?_, ?_, ?_, ?_, fun _ _ _ => rfl⟩
  · intro path table found
    rw [(isRoot found).2]
    exact aligned
  · intro path path' table found found'
    rw [(isRoot found).1, (isRoot found').1]
  · intro path index present
    rw [Function.update_of_ne (by simp)] at present
    cases present
  · intro path table index found _ inTable
    rw [Function.update_of_ne (by simp), (isRoot found).2,
      entryAt_zeroed zeroed inTable]
    rfl
  · intro path table index page _ found isPath
    rw [(isRoot found).2, entryAt_zeroed zeroed (pagePath_last_lt isPath)]
    rfl

/-- The tables above an added table are there. -/
theorem update_parent (tree : PageTree m tables space) {path other : List Nat}
    {table index fresh i : Nat} (found : tables path = some table)
    (present :
      (Function.update tables (path ++ [index]) (some fresh) (other ++ [i])).isSome) :
    (Function.update tables (path ++ [index]) (some fresh) other).isSome := by
  rw [Function.update_apply] at present ⊢
  split
  · rfl
  · split at present
    next isPath =>
      obtain ⟨rfl, _⟩ := List.append_inj' isPath rfl
      rw [found]
      rfl
    · exact tree.parent present

/-- Linking a fresh page of zeroes into an empty entry adds a table. -/
theorem link (tree : PageTree m tables space) {path : List Nat}
    {table index fresh : Nat} (found : tables path = some table)
    (short : path.length < 3) (inTable : index < 512)
    (missing : tables (path ++ [index]) = none)
    (aligned : 4096 ∣ fresh)
    (isFresh : ∀ {other page}, tables other = some page → page ≠ fresh)
    (linked : LinksTo (entryAt m' table index) fresh)
    (zeroed : ∀ x, fresh ≤ x → x < fresh + 4096 → m' x = 0)
    (same : ∀ x ∈ tableBytes tables,
      x < table + 8 * index ∨ table + 8 * index + 8 ≤ x → m' x = m x) :
    PageTree m' (Function.update tables (path ++ [index]) (some fresh)) space := by
  have sameEntry : ∀ {path' table' i}, tables path' = some table' → i < 512 →
      path' ++ [i] ≠ path ++ [index] →
      entryAt m' table' i = entryAt m table' i :=
    fun found' below different =>
      tree.other_entry found inTable found' below different same
  refine ⟨?_, ?_, tree.update_parent found, ?_, ?_, ?_⟩
  · intro path' table' found'
    rcases update_eq_some found' with ⟨_, rfl⟩ | ⟨_, old⟩
    · exact aligned
    · exact tree.aligned old
  · intro a b table' foundA foundB
    rcases update_eq_some foundA with ⟨isA, rfl⟩ | ⟨_, oldA⟩
    · rcases update_eq_some foundB with ⟨isB, _⟩ | ⟨_, oldB⟩
      · rw [isA, isB]
      · exact absurd rfl (isFresh oldB)
    · rcases update_eq_some foundB with ⟨_, rfl⟩ | ⟨_, oldB⟩
      · exact absurd rfl (isFresh oldA)
      · exact tree.injective oldA oldB
  · intro path' table' i found' short' below
    rcases update_eq_some found' with ⟨isPath, rfl⟩ | ⟨_, old⟩
    · have absent : Function.update tables (path ++ [index]) (some table')
          (path' ++ [i]) = none := by
        rw [Function.update_of_ne (by simp [isPath]), isPath]
        exact tree.tables_none missing i
      rw [absent, entryAt_zeroed zeroed below]
      rfl
    · by_cases isPath : path' ++ [i] = path ++ [index]
      · obtain ⟨rfl, same⟩ := List.append_inj' isPath rfl
        obtain rfl : i = index := by simpa using same
        obtain rfl := Option.some.inj (found.symm.trans old)
        rw [Function.update_self]
        exact linked
      · rw [Function.update_of_ne isPath, sameEntry old below isPath]
        exact tree.links old short' below
  · intro path' table' i page word found' isPath
    have below := pagePath_last_lt isPath
    rcases update_eq_some found' with ⟨rfl, rfl⟩ | ⟨_, old⟩
    · rw [tree.unmapped word missing isPath, entryAt_zeroed zeroed below]
      rfl
    · rw [sameEntry old below (last_ne_link isPath short)]
      exact tree.entries word old isPath
  · intro path' i page word missing' isPath
    rw [Function.update_apply] at missing'
    split at missing'
    · cases missing'
    · exact tree.unmapped word missing' isPath

/-- Filling in the entry of a page maps it. -/
theorem setEntry (tree : PageTree m tables space) {path : List Nat}
    {table index page : Nat} {mapping : PageMapping}
    (found : tables path = some table) (isPath : pagePath page = path ++ [index])
    (word : page < 2 ^ 36) (maps : Maps (entryAt m' table index) mapping)
    (same : ∀ x ∈ tableBytes tables,
      x < table + 8 * index ∨ table + 8 * index + 8 ≤ x → m' x = m x) :
    PageTree m' tables (Function.update space page (some mapping)) := by
  have inTable := pagePath_last_lt isPath
  have sameEntry : ∀ {path' table' i}, tables path' = some table' → i < 512 →
      path' ++ [i] ≠ path ++ [index] →
      entryAt m' table' i = entryAt m table' i :=
    fun found' below different =>
      tree.other_entry found inTable found' below different same
  refine ⟨tree.aligned, tree.injective, tree.parent, ?_, ?_, ?_⟩
  · intro path' table' i found' short' below
    rw [sameEntry found' below (last_ne_link isPath short').symm]
    exact tree.links found' short' below
  · intro path' table' i page' word' found' isPath'
    by_cases equal : path' ++ [i] = path ++ [index]
    · have samePage : page' = page := pagePath_injective word' word
        (isPath'.trans (equal.trans isPath.symm))
      obtain ⟨rfl, sameIndex⟩ := List.append_inj' equal rfl
      obtain rfl : i = index := by simpa using sameIndex
      obtain rfl := Option.some.inj (found.symm.trans found')
      rw [samePage, Function.update_self]
      exact maps
    · have otherPage : page' ≠ page := by
        rintro rfl
        exact equal (isPath'.symm.trans isPath)
      rw [Function.update_of_ne otherPage,
        sameEntry found' (pagePath_last_lt isPath') equal]
      exact tree.entries word' found' isPath'
  · intro path' i page' word' missing' isPath'
    have otherPage : page' ≠ page := by
      rintro rfl
      obtain ⟨rfl, _⟩ := List.append_inj' (isPath'.symm.trans isPath) rfl
      rw [found] at missing'
      cases missing'
    rw [Function.update_of_ne otherPage]
    exact tree.unmapped word' missing' isPath'

/-! ### A chain of tables -/

/-- Linking a later page of zeroes into the first entry of a table. -/
theorem link_first (tree : PageTree m tables space) {path : List Nat}
    {table fresh value : Nat} (found : tables path = some table)
    (short : path.length < 3) (missing : tables (path ++ [0]) = none)
    (behind : ∀ {other page}, tables other = some page → page < fresh)
    (aligned : 4096 ∣ fresh) (links : LinksTo (value % 256 ^ 8) fresh)
    (zeroed : ∀ x, fresh ≤ x → x < fresh + 4096 → m x = 0) :
    PageTree (storeLe m table 8 value)
      (Function.update tables (path ++ [0]) (some fresh)) space := by
  have before := behind found
  have alignedTable := tree.aligned found
  apply tree.link found short (by decide) missing aligned
  · exact fun isTable => Nat.ne_of_lt (behind isTable)
  · rw [entryAt, Nat.mul_zero, Nat.add_zero, loadLe_storeLe]
    exact links
  · intro x above below
    rw [storeLe_outside (by omega), zeroed x above below]
  · intro x _ outside
    exact storeLe_outside (by omega)

private theorem update_below {tables : Tables} {path : List Nat}
    {fresh bound : Nat}
    (old : ∀ {other page}, tables other = some page → page < bound)
    (new : fresh < bound) : ∀ {other page},
      Function.update tables path (some fresh) other = some page →
        page < bound := by
  intro other page found
  rw [Function.update_apply] at found
  split at found
  · cases found
    exact new
  · exact old found

/-- Four pages of zeroes, each linked into the first entry of the one before it,
are the tables for the lowest addresses, with nothing mapped. -/
theorem chain {m : Memory} {root first second third : Nat} (aligned : 4096 ∣ root)
    (zeroed : ∀ x, root ≤ x → x < root + 0x4000 → m x = 0)
    (links₁ : LinksTo (first % 256 ^ 8) (root + 0x1000))
    (links₂ : LinksTo (second % 256 ^ 8) (root + 0x2000))
    (links₃ : LinksTo (third % 256 ^ 8) (root + 0x3000)) :
    PageTree (storeLe (storeLe (storeLe m root 8 first) (root + 0x1000) 8 second)
        (root + 0x2000) 8 third)
      (Function.update (Function.update (Function.update (Function.update
        (fun _ => none) [] (some root))
        [0] (some (root + 0x1000)))
        [0, 0] (some (root + 0x2000)))
        [0, 0, 0] (some (root + 0x3000)))
      (fun _ => none) := by
  have tree₀ : PageTree m (Function.update (fun _ => none) [] (some root))
      (fun _ => none) :=
    PageTree.root aligned fun x above below => zeroed x above (by omega)
  have below₀ : ∀ {bound}, root < bound → ∀ {other page},
      Function.update (fun _ => none : Tables) [] (some root) other =
        some page → page < bound :=
    fun below => update_below (fun found => by cases found) below
  have tree₁ := tree₀.link_first (Function.update_self _ _ _) (by decide)
    (Function.update_of_ne (by simp) _ _) (below₀ (by omega)) (by omega) links₁
    (fun x above below => zeroed x (by omega) (by omega))
  have tree₂ := tree₁.link_first (Function.update_self _ _ _) (by decide)
    (by simp) (update_below (below₀ (by omega)) (by omega)) (by omega) links₂
    (fun x above below => by
      rw [storeLe_outside (by omega), zeroed x (by omega) (by omega)])
  exact tree₂.link_first (Function.update_self _ _ _) (by decide) (by simp)
    (update_below (update_below (below₀ (by omega)) (by omega)) (by omega))
    (by omega) links₃
    (fun x above below => by
      rw [storeLe_outside (by omega), storeLe_outside (by omega),
        zeroed x (by omega) (by omega)])

end PageTree

end Paging
