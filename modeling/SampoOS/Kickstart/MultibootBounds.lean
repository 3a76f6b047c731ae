/-
Module: SampoOS.Kickstart.MultibootBounds
Purpose: What the walk over the Multiboot2 information does with any contents of
  memory: where it stands, which bytes it looks at, and exactly when it ends
  without looking beyond the structure.
Trusted boundary: pmm_add_region does not write where the information lies
Main exports: StandsAtTag, StandsAtEntry, tagLooks, WalkEndsWithin, InfoFits,
  kickstartWalk_endsWithin_iff, infoFits_of_encode, kickstartWalk_visited,
  walkTags_standing
-/
import SampoOS.Kickstart.MultibootDecode
import SampoOS.Lib.PointerLoop

namespace SampoOS.Kickstart

open ByteMemory PointerLoop

/-! ## Where the walk stands -/

/-- A field of `n` bytes of the structure that a pointer points to. -/
def pointedField (m : Memory) (pointer offset n : Nat) : Nat :=
  loadLe m ((pointer + offset) % 2 ^ 32) n

/-- The condition of the loop over the tags. -/
def TagGoesOn (m : Memory) (tag : Nat) : Prop :=
  pointedField m tag 0 4 ≠ multibootTagTypeEnd

/-- How far the loop over the tags moves on. -/
def tagStep (m : Memory) (tag : Nat) : Nat :=
  BitFields.alignUp 32 3 (pointedField m tag 4 4)

/-- The loop over the tags of the information at `addr` comes to stand at a
tag. -/
def StandsAtTag (m : Memory) (addr : Nat) : Nat → Prop :=
  StandsAt (2 ^ 32) (TagGoesOn m) (tagStep m) ((addr + 8) % 2 ^ 32)

/-- The condition of the loop over the entries of a memory map. -/
def EntryGoesOn (m : Memory) (mmapTag entry : Nat) : Prop :=
  entry < (mmapTag + pointedField m mmapTag 4 4) % 2 ^ 32

/-- How far the loop over the entries moves on, whatever the entry is. -/
def entryStep (m : Memory) (mmapTag _entry : Nat) : Nat :=
  pointedField m mmapTag 8 4

/-- The loop over the entries of a memory map comes to stand at an entry. -/
def StandsAtEntry (m : Memory) (mmapTag : Nat) : Nat → Prop :=
  StandsAt (2 ^ 32) (EntryGoesOn m mmapTag) (entryStep m mmapTag)
    ((mmapTag + 16) % 2 ^ 32)

/-! ## What it looks at -/

/-- The bytes of fields, which are given by their offsets and widths. -/
def fieldBytes (pointer : Nat) (fields : List (Nat × Nat)) : Set Nat :=
  {x | ∃ field ∈ fields, (pointer + field.1) % 2 ^ 32 ≤ x ∧
    x < (pointer + field.1) % 2 ^ 32 + field.2}

/-- The bytes of a string, up to and with the first that is zero. -/
def stringBytes (m : Memory) (start : Nat) : Set Nat :=
  {x | ∃ k, x = (start + k) % 2 ^ 32 ∧
    ∀ j < k, m ((start + j) % 2 ^ 32) ≠ 0}

/-- What the body of the loop over the entries looks at. -/
def entryLooks (mmapTag entry : Nat) : Set Nat :=
  fieldBytes entry [(16, 4), (0, 8), (8, 8)] ∪ fieldBytes mmapTag [(8, 4)]

/-- What the body of the loop over the tags looks at, in the branch for the type
of the tag. -/
def bodyLooks (m : Memory) (tag : Nat) : Set Nat :=
  if pointedField m tag 0 4 = multibootTagTypeMmap then
    {x | ∃ entry, StandsAtEntry m tag entry ∧ EntryGoesOn m tag entry ∧
      x ∈ entryLooks tag entry}
  else if pointedField m tag 0 4 = multibootTagTypeFramebuffer then
    fieldBytes tag [(29, 1), (20, 4), (24, 4), (28, 1), (16, 4), (8, 8)]
  else if pointedField m tag 0 4 = multibootTagTypeModule then
    fieldBytes tag [(8, 4), (12, 4)] ∪ stringBytes m (tag + 16)
  else ∅

/-- What the walk looks at where it stands: the type, and unless this is the end
tag, the size and what the body looks at. -/
def tagLooks (m : Memory) (tag : Nat) : Set Nat :=
  fieldBytes tag [(0, 4)] ∪
    {x | TagGoesOn m tag ∧ x ∈ fieldBytes tag [(4, 4)] ∪ bodyLooks m tag}

/-- The addresses of the structure at `addr`, which begins with its size. -/
def infoBytes (m : Memory) (addr : Nat) : Set Nat :=
  Set.Ico addr (addr + pointedField m addr 0 4)

/-- The walk ends; both loops move up in each turn; and nothing is looked at
that lies outside the structure. -/
structure WalkEndsWithin (kernelName addr : Nat) (s : KickstartState) : Prop where
  ends : ∃ fuel walked, kickstartWalk kernelName fuel addr s = some walked
  tagsMove : ∀ tag, StandsAtTag s.memory addr tag → TagGoesOn s.memory tag →
    tag < (tag + tagStep s.memory tag) % 2 ^ 32
  entriesMove : ∀ tag entry, StandsAtTag s.memory addr tag →
    pointedField s.memory tag 0 4 = multibootTagTypeMmap →
    StandsAtEntry s.memory tag entry → EntryGoesOn s.memory tag entry →
    entry < (entry + entryStep s.memory tag entry) % 2 ^ 32
  within : ∀ tag, StandsAtTag s.memory addr tag →
    tagLooks s.memory tag ⊆ infoBytes s.memory addr

/-! ## The information that it takes -/

/-- The entries of a memory map lie in `within`, and lead to the end of the
tag. -/
def EntriesFit (m : Memory) (within : Set Nat) (mmapTag : Nat) : Prop :=
  Climbs (2 ^ 32) (EntryGoesOn m mmapTag) (entryStep m mmapTag)
    (fun entry => EntryGoesOn m mmapTag entry →
      entryLooks mmapTag entry ⊆ within)
    ((mmapTag + 16) % 2 ^ 32)

/-- A tag lies in `within` as far as its type says what it holds. -/
def TagFits (m : Memory) (within : Set Nat) (tag : Nat) : Prop :=
  fieldBytes tag [(0, 4)] ⊆ within ∧
    (TagGoesOn m tag → fieldBytes tag [(4, 4)] ⊆ within ∧
      if pointedField m tag 0 4 = multibootTagTypeMmap then
        EntriesFit m within tag
      else bodyLooks m tag ⊆ within)

/-- The tags behind the header lie in the structure, and lead to an end tag. -/
def InfoFits (m : Memory) (addr : Nat) : Prop :=
  Climbs (2 ^ 32) (TagGoesOn m) (tagStep m) (TagFits m (infoBytes m addr))
    ((addr + 8) % 2 ^ 32)

section Sizes

variable {m : Memory} {within : Set Nat} {addr tag mmapTag : Nat}

theorem pointedField_lt (m : Memory) (pointer offset n : Nat) :
    pointedField m pointer offset n < 256 ^ n :=
  loadLe_lt m _ n

/-- The walk reads its fields from memory, which it leaves alone. -/
theorem field_eq_pointedField (s : WalkState) (pointer offset n : Nat) :
    s.field pointer offset n = pointedField s.memory pointer offset n := rfl

theorem tagStep_lt (m : Memory) (tag : Nat) : tagStep m tag < 2 ^ 32 :=
  BitFields.alignUp_lt 32 3 _

theorem entryStep_lt (m : Memory) (mmapTag entry : Nat) :
    entryStep m mmapTag entry < 2 ^ 32 :=
  pointedField_lt m mmapTag 8 4

/-- The entries fit exactly if they lie in `within`, and the loop moves up at
each of them. -/
theorem entriesFit_iff :
    EntriesFit m within mmapTag ↔
      ∀ entry, StandsAtEntry m mmapTag entry → EntryGoesOn m mmapTag entry →
        entryLooks mmapTag entry ⊆ within ∧
          entry < (entry + entryStep m mmapTag entry) % 2 ^ 32 := by
  rw [EntriesFit, climbs_iff (entryStep_lt m mmapTag)
    (Nat.mod_lt _ (by decide))]
  constructor
  · intro each entry stands goes
    exact ⟨(each entry stands).1 goes, (each entry stands).2 goes⟩
  · intro each entry stands
    exact ⟨fun goes => (each entry stands goes).1,
      fun goes => (each entry stands goes).2⟩

/-- A tag fits exactly if the walk looks at bytes in `within` there, and the
loop over the entries of a memory map moves up. -/
theorem tagFits_iff :
    TagFits m within tag ↔
      tagLooks m tag ⊆ within ∧
        (pointedField m tag 0 4 = multibootTagTypeMmap →
          ∀ entry, StandsAtEntry m tag entry → EntryGoesOn m tag entry →
            entry < (entry + entryStep m tag entry) % 2 ^ 32) := by
  have mmapGoes : pointedField m tag 0 4 = multibootTagTypeMmap →
      TagGoesOn m tag := by
    intro isMmap
    rw [TagGoesOn, isMmap]
    decide
  constructor
  · rintro ⟨type, goesOn⟩
    refine ⟨Set.union_subset type ?_, ?_⟩
    · rintro x ⟨goes, looks⟩
      obtain ⟨size, body⟩ := goesOn goes
      rcases looks with looks | looks
      · exact size looks
      · by_cases isMmap : pointedField m tag 0 4 = multibootTagTypeMmap
        · rw [if_pos isMmap] at body
          rw [bodyLooks, if_pos isMmap] at looks
          obtain ⟨entry, stands, inside, looks⟩ := looks
          exact (entriesFit_iff.mp body entry stands inside).1 looks
        · rw [if_neg isMmap] at body
          exact body looks
    · intro isMmap entry stands inside
      have body := (goesOn (mmapGoes isMmap)).2
      rw [if_pos isMmap] at body
      exact (entriesFit_iff.mp body entry stands inside).2
  · rintro ⟨looks, moves⟩
    refine ⟨fun x inside => looks (.inl inside), fun goes => ⟨?_, ?_⟩⟩
    · exact fun x inside => looks (.inr ⟨goes, .inl inside⟩)
    · have body : bodyLooks m tag ⊆ within :=
        fun x inside => looks (.inr ⟨goes, .inr inside⟩)
      by_cases isMmap : pointedField m tag 0 4 = multibootTagTypeMmap
      · rw [if_pos isMmap]
        rw [bodyLooks, if_pos isMmap] at body
        refine entriesFit_iff.mpr fun entry stands inside => ⟨?_, ?_⟩
        · exact fun x seen => body ⟨entry, stands, inside, seen⟩
        · exact moves isMmap entry stands inside
      · rw [if_neg isMmap]
        exact body

/-- The information fits exactly if each tag does where the walk comes to stand,
and the walk moves up from there. -/
theorem infoFits_iff :
    InfoFits m addr ↔
      ∀ tag, StandsAtTag m addr tag →
        TagFits m (infoBytes m addr) tag ∧
          (TagGoesOn m tag → tag < (tag + tagStep m tag) % 2 ^ 32) :=
  climbs_iff (tagStep_lt m) (Nat.mod_lt _ (by decide))

end Sizes

/-! ## The walk ends -/

section Ends

variable {m : Memory} {tag : Nat}

/-- `strcmp` ends at the first string's zero byte, if not before. -/
theorem strcmp_ends {k : Nat} :
    ∀ {a b fuel : Nat}, a < 2 ^ 32 → m ((a + k) % 2 ^ 32) = 0 → k < fuel →
      ∃ order, strcmp m fuel a b = some order := by
  induction k with
  | zero =>
      intro a b fuel low zero enough
      obtain ⟨fuel, rfl⟩ : ∃ n, fuel = n + 1 := ⟨fuel - 1, by omega⟩
      rw [Nat.add_zero, Nat.mod_eq_of_lt low] at zero
      by_cases same : m a = m b
      · exact ⟨0, by rw [strcmp, if_pos same, if_pos zero]⟩
      · exact ⟨_, by rw [strcmp, if_neg same]⟩
  | succ k inductionHypothesis =>
      intro a b fuel low zero enough
      obtain ⟨fuel, rfl⟩ : ∃ n, fuel = n + 1 := ⟨fuel - 1, by omega⟩
      by_cases same : m a = m b
      · by_cases last : m a = 0
        · exact ⟨0, by rw [strcmp, if_pos same, if_pos last]⟩
        · rw [strcmp, if_pos same, if_neg last]
          apply inductionHypothesis (Nat.mod_lt _ (by decide))
          · rw [Nat.mod_add_mod, Nat.add_assoc, Nat.add_comm 1]
            exact zero
          · omega
      · exact ⟨_, by rw [strcmp, if_neg same]⟩

/-- A string that lies in the structure has a zero byte: without one it goes
round the whole address space, which no structure fills. -/
theorem exists_zero_of_stringBytes {start addr : Nat}
    (within : stringBytes m start ⊆ infoBytes m addr) :
    ∃ k, m ((start + k) % 2 ^ 32) = 0 := by
  by_contra none
  have everywhere : ∀ x < 2 ^ 32, x ∈ infoBytes m addr := by
    intro x low
    refine within ⟨x + (2 ^ 32 - start % 2 ^ 32), ?_, ?_⟩
    · have start_lt : start % 2 ^ 32 < 2 ^ 32 := Nat.mod_lt _ (by decide)
      omega
    · exact fun j _ zero => none ⟨j, zero⟩
  have first : addr ≤ 0 := (everywhere 0 (by decide)).1
  have last : 2 ^ 32 - 1 < addr + pointedField m addr 0 4 :=
    (everywhere (2 ^ 32 - 1) (by decide)).2
  have size := pointedField_lt m addr 0 4
  omega

/-- The loop over the entries of a memory map ends. -/
theorem walkEntries_ends {sound : Nat → Prop} {entry : Nat}
    (climbs : Climbs (2 ^ 32) (EntryGoesOn m tag) (entryStep m tag) sound
      entry) :
    ∃ turns, ∀ fuel, turns < fuel → ∀ s : WalkState, s.memory = m →
      ∃ s', walkEntries tag fuel entry s = some s' ∧ s'.memory = m := by
  induction climbs with
  | @stop entry stops fine =>
      refine ⟨0, fun fuel enough s sameMemory => ⟨s, ?_, sameMemory⟩⟩
      obtain ⟨fuel, rfl⟩ : ∃ n, fuel = n + 1 := ⟨fuel - 1, by omega⟩
      rw [walkEntries, field_eq_pointedField, sameMemory]
      exact if_neg stops
  | @turn entry goes fine moves low rest inductionHypothesis =>
      obtain ⟨turns, ends⟩ := inductionHypothesis
      refine ⟨turns + 1, fun fuel enough s sameMemory => ?_⟩
      obtain ⟨fuel, rfl⟩ : ∃ n, fuel = n + 1 := ⟨fuel - 1, by omega⟩
      obtain ⟨s', walk, kept⟩ :=
        ends fuel (by omega) (addEntry entry s) sameMemory
      refine ⟨s', ?_, kept⟩
      rw [EntryGoesOn] at goes
      rw [entryStep] at low walk
      rw [walkEntries, field_eq_pointedField, field_eq_pointedField, sameMemory,
        if_pos goes]
      rw [Nat.mod_eq_of_lt low]
      exact walk

/-- The body of the loop over the tags ends at a tag that fits. -/
theorem visitTag_ends (kernelName : Nat) {addr : Nat}
    (fits : TagFits m (infoBytes m addr) tag)
    (goes : TagGoesOn m tag) :
    ∃ turns, ∀ limit, turns < limit → ∀ s : WalkState, s.memory = m →
      ∃ s', visitTag kernelName limit tag s = some s' ∧ s'.memory = m := by
  have body := (fits.2 goes).2
  by_cases isMmap : pointedField m tag 0 4 = multibootTagTypeMmap
  · rw [if_pos isMmap] at body
    obtain ⟨turns, ends⟩ := walkEntries_ends body
    refine ⟨turns, fun limit enough s sameMemory => ?_⟩
    rw [visitTag, field_stand, field_eq_pointedField, sameMemory, if_pos isMmap]
    exact ends limit enough (s.stand tag) sameMemory
  · rw [if_neg isMmap, bodyLooks, if_neg isMmap] at body
    by_cases isFramebuffer :
        pointedField m tag 0 4 = multibootTagTypeFramebuffer
    · refine ⟨0, fun limit _ s sameMemory =>
        ⟨printFramebuffer tag (s.stand tag), ?_, sameMemory⟩⟩
      rw [visitTag, field_stand, field_eq_pointedField, sameMemory,
        if_neg isMmap, if_pos isFramebuffer]
    · rw [if_neg isFramebuffer] at body
      by_cases isModule : pointedField m tag 0 4 = multibootTagTypeModule
      · rw [if_pos isModule] at body
        obtain ⟨k, zero⟩ := exists_zero_of_stringBytes
          fun x inside => body (.inr inside)
        refine ⟨k, fun limit enough s sameMemory => ?_⟩
        obtain ⟨order, compared⟩ := strcmp_ends (b := kernelName)
          (Nat.mod_lt (tag + 16) (by decide))
          (by rw [Nat.mod_add_mod]; exact zero) enough
        rw [visitTag, field_stand, field_eq_pointedField, sameMemory,
          if_neg isMmap, if_neg isFramebuffer, if_pos isModule, visitModule,
          show (printModule tag (s.stand tag)).memory = m from sameMemory,
          compared, Option.map_some]
        split
        · exact ⟨_, rfl, sameMemory⟩
        · exact ⟨_, rfl, sameMemory⟩
      · refine ⟨0, fun limit _ s sameMemory => ⟨s.stand tag, ?_, sameMemory⟩⟩
        rw [visitTag, field_stand, field_eq_pointedField, sameMemory,
          if_neg isMmap, if_neg isFramebuffer, if_neg isModule]

/-- The loop over the tags ends where the tags fit. -/
theorem walkTags_ends (kernelName : Nat) {addr : Nat}
    (climbs : Climbs (2 ^ 32) (TagGoesOn m) (tagStep m)
      (TagFits m (infoBytes m addr)) tag) :
    ∃ turns, ∀ limit fuel, turns < limit → turns < fuel →
      ∀ s : WalkState, s.memory = m →
        ∃ s', walkTags kernelName limit fuel tag s = some s' := by
  induction climbs with
  | @stop tag stops fine =>
      refine ⟨0, fun limit fuel _ enough s sameMemory => ⟨s, ?_⟩⟩
      obtain ⟨fuel, rfl⟩ : ∃ n, fuel = n + 1 := ⟨fuel - 1, by omega⟩
      rw [walkTags, field_eq_pointedField, sameMemory]
      exact if_pos (Classical.not_not.mp stops)
  | @turn tag goes fine moves low rest inductionHypothesis =>
      obtain ⟨bodyTurns, body⟩ := visitTag_ends kernelName fine goes
      obtain ⟨turns, ends⟩ := inductionHypothesis
      refine ⟨max bodyTurns turns + 1,
        fun limit fuel enoughLimit enough s sameMemory => ?_⟩
      obtain ⟨fuel, rfl⟩ : ∃ n, fuel = n + 1 := ⟨fuel - 1, by omega⟩
      obtain ⟨s', visit, kept⟩ := body limit (by omega) s sameMemory
      obtain ⟨s'', walk⟩ := ends limit fuel (by omega) (by omega) s' kept
      refine ⟨s'', ?_⟩
      rw [TagGoesOn] at goes
      rw [tagStep] at low walk
      rw [walkTags, field_eq_pointedField, sameMemory, if_neg goes, visit,
        Option.bind_some, field_eq_pointedField, kept]
      rw [Nat.mod_eq_of_lt low]
      exact walk

end Ends

/-- Whatever memory holds, the walk ends, moves up in each turn and looks at
nothing beyond the size that the structure records, exactly if its tags lie in
the structure and lead to an end tag. -/
theorem kickstartWalk_endsWithin_iff (kernelName addr : Nat)
    (s : KickstartState) :
    WalkEndsWithin kernelName addr s ↔ InfoFits s.memory addr := by
  constructor
  · intro within
    refine infoFits_iff.mpr fun tag stands => ⟨?_, within.tagsMove tag stands⟩
    exact tagFits_iff.mpr ⟨within.within tag stands,
      fun isMmap entry => within.entriesMove tag entry stands isMmap⟩
  · intro fits
    have each := infoFits_iff.mp fits
    obtain ⟨turns, ends⟩ := walkTags_ends kernelName fits
    obtain ⟨walked, walk⟩ := ends (turns + 1) (turns + 1) (by omega) (by omega)
      (startWalk s) rfl
    exact
      { ends := ⟨turns + 1, walked, walk⟩
        tagsMove := fun tag stands => (each tag stands).2
        entriesMove := fun tag entry stands isMmap =>
          (tagFits_iff.mp (each tag stands).1).2 isMmap entry
        within := fun tag stands => (tagFits_iff.mp (each tag stands).1).1 }

/-! ## Information that the format allows -/

section WellFormed

variable {m : Memory} {lo hi : Nat}

/-- Fields of a structure that lies in a range do so themselves. -/
theorem fieldBytes_subset_Ico {pointer n : Nat}
    {fields : List (Nat × Nat)}
    (inside : ∀ field ∈ fields, 0 < field.2 ∧ field.1 + field.2 ≤ n)
    (first : lo ≤ pointer) (last : pointer + n ≤ hi) (low : hi ≤ 2 ^ 32) :
    fieldBytes pointer fields ⊆ Set.Ico lo hi := by
  rintro x ⟨field, isField, above, below⟩
  have bounds := inside field isField
  rw [Nat.mod_eq_of_lt (by omega)] at above below
  exact ⟨by omega, by omega⟩

/-- A string ends at its zero byte. -/
theorem stringBytes_subset_Ico {start : Nat} {text : List UInt8}
    (holds : HoldsBytes m start (text ++ [0])) (first : lo ≤ start)
    (last : start + text.length < hi) (low : hi ≤ 2 ^ 32) :
    stringBytes m start ⊆ Set.Ico lo hi := by
  rintro x ⟨k, rfl, noZero⟩
  have zero : m (start + text.length) = 0 := by
    rw [holds text.length (by simp)]
    simp
  have short : k ≤ text.length := by
    by_contra beyond
    apply noZero text.length (by omega)
    rw [Nat.mod_eq_of_lt (by omega)]
    exact zero
  rw [Nat.mod_eq_of_lt (by omega)]
  exact ⟨by omega, by omega⟩

/-- Entries of at least 20 bytes, which fill the rest of their tag, fit. -/
theorem entries_climb {mmapTag entrySize n : Nat} {within : Set Nat}
    (size : pointedField m mmapTag 8 4 = entrySize) (wide : 20 ≤ entrySize)
    (header : fieldBytes mmapTag [(8, 4)] ⊆ Set.Ico lo hi)
    (low : hi ≤ 2 ^ 32) (isWithin : Set.Ico lo hi ⊆ within) :
    ∀ {entry : Nat}, lo ≤ entry → entry + entrySize * n ≤ hi →
      entry + entrySize * n < 2 ^ 32 →
      (mmapTag + pointedField m mmapTag 4 4) % 2 ^ 32 =
        entry + entrySize * n →
      Climbs (2 ^ 32) (EntryGoesOn m mmapTag) (entryStep m mmapTag)
        (fun entry => EntryGoesOn m mmapTag entry →
          entryLooks mmapTag entry ⊆ within) entry := by
  induction n with
  | zero =>
      intro entry _ _ _ atEnd
      have stops : ¬EntryGoesOn m mmapTag entry := by
        rw [EntryGoesOn, atEnd]
        omega
      exact .stop stops fun goes => absurd goes stops
  | succ n inductionHypothesis =>
      intro entry first last short atEnd
      rw [Nat.mul_succ] at last short atEnd
      have stepEq : entryStep m mmapTag entry = entrySize := size
      have goes : EntryGoesOn m mmapTag entry := by
        rw [EntryGoesOn, atEnd]
        omega
      have fields : fieldBytes entry [(16, 4), (0, 8), (8, 8)] ⊆
          Set.Ico lo hi :=
        fieldBytes_subset_Ico (n := 20) (by decide) first (by omega) low
      apply Climbs.turn goes
      · exact fun _ => (Set.union_subset fields header).trans isWithin
      · omega
      · omega
      · rw [stepEq]
        exact inductionHypothesis (by omega) (by omega) (by omega) (by omega)

theorem pointedField_of_holdsBytes {pointer offset n v : Nat}
    (holds : HoldsBytes m (pointer + offset) (leBytes n v))
    (low : pointer + offset < 2 ^ 32) (fits : v < 256 ^ n) :
    pointedField m pointer offset n = v :=
  field_of_holdsBytes (s := startWalk (bareMachine m)) holds low fits

theorem tag_pointedFields {tag : MultibootTag} {a : Nat}
    (holds : HoldsBytes m a tag.encode) (low : a + tag.encode.length < 2 ^ 32) :
    pointedField m a 0 4 = tag.content.type ∧
      pointedField m a 4 4 = tag.content.size ∧
      HoldsBytes m (a + 8) tag.content.payload :=
  tag_fields (s := startWalk (bareMachine m)) holds low

/-- The entries of a memory map of the format fit. -/
theorem entriesFit_of_payload {content : MmapTag} {a : Nat} {within : Set Nat}
    (payload : HoldsBytes m (a + 8) (TagContent.mmap content).payload)
    (size : pointedField m a 4 4 = (TagContent.mmap content).size)
    (first : lo ≤ a) (last : a + (TagContent.mmap content).size < hi)
    (low : hi ≤ 2 ^ 32) (isWithin : Set.Ico lo hi ⊆ within) :
    EntriesFit m within a := by
  have wide := content.wide
  rw [TagContent.payload, holdsBytes_append] at payload
  rw [TagContent.size_mmap] at size last
  have entrySize : pointedField m a 8 4 = content.entrySize.toNat :=
    pointedField_of_holdsBytes payload.1 (by omega) content.entrySize.toNat_lt
  have header : fieldBytes a [(8, 4)] ⊆ Set.Ico lo hi :=
    fieldBytes_subset_Ico (n := 12) (by decide) first (by omega) low
  rw [EntriesFit, Nat.mod_eq_of_lt (show a + 16 < 2 ^ 32 by omega)]
  apply entries_climb (n := content.entries.length) entrySize (by omega) header
    low isWithin
  · omega
  · omega
  · omega
  · rw [size, Nat.mod_eq_of_lt (by omega)]
    omega

/-- What a module says of itself lies in its tag, if the tag is of the
format. -/
theorem moduleBytes_subset_Ico {content : ModuleTag} {a : Nat}
    (payload : HoldsBytes m (a + 8) (TagContent.module content).payload)
    (first : lo ≤ a) (last : a + (TagContent.module content).size < hi)
    (low : hi ≤ 2 ^ 32) :
    fieldBytes a [(8, 4), (12, 4)] ∪ stringBytes m (a + 16) ⊆ Set.Ico lo hi := by
  have size : (TagContent.module content).size =
      16 + content.cmdline.length + 1 + content.rest.length := by
    simp only [TagContent.size, TagContent.payload, List.length_append,
      length_leBytes, List.length_cons]
    omega
  rw [TagContent.payload, holdsBytes_append, holdsBytes_append,
    List.append_cons, holdsBytes_append] at payload
  simp only [length_leBytes] at payload
  obtain ⟨_, _, cmdline, _⟩ := payload
  apply Set.union_subset
  · exact fieldBytes_subset_Ico (n := 16) (by decide) first (by omega) low
  · exact stringBytes_subset_Ico cmdline (by omega) (by omega) low

/-- A tag of the format fits; what is printed about a framebuffer has to be
there. -/
theorem tagFits_of_encode {tag : MultibootTag} {a : Nat} {within : Set Nat}
    (holds : HoldsBytes m a tag.encode)
    (framebuffer : tag.content.type = multibootTagTypeFramebuffer →
      30 ≤ tag.content.size)
    (first : lo ≤ a) (last : a + tag.encode.length < hi) (low : hi ≤ 2 ^ 32)
    (isWithin : Set.Ico lo hi ⊆ within) : TagFits m within a := by
  have length := tag.length_encode
  have least := tag.eight_le_size
  obtain ⟨type, size, payload⟩ := tag_pointedFields holds (by omega)
  have header : ∀ {n : Nat} {fields : List (Nat × Nat)},
      (∀ field ∈ fields, 0 < field.2 ∧ field.1 + field.2 ≤ n) →
      n ≤ tag.content.size → fieldBytes a fields ⊆ within :=
    fun inside short =>
      (fieldBytes_subset_Ico inside first (by omega) low).trans isWithin
  refine ⟨header (n := 4) (by decide) (by omega), fun _ =>
    ⟨header (n := 8) (by decide) (by omega), ?_⟩⟩
  cases isContent : tag.content with
  | mmap content =>
      rw [isContent] at type size payload length
      rw [if_pos (show pointedField m a 0 4 = multibootTagTypeMmap from type)]
      exact entriesFit_of_payload payload size first (by omega) low isWithin
  | module content =>
      rw [isContent] at type payload length
      rw [bodyLooks, type, TagContent.type, if_neg (by decide),
        if_neg (by decide), if_neg (by decide), if_pos (by decide)]
      exact (moduleBytes_subset_Ico payload first (by omega) low).trans isWithin
  | other content =>
      rw [isContent] at type framebuffer header
      have notMmap : content.type.toNat ≠ multibootTagTypeMmap := fun same =>
        content.notMmap (UInt32.toNat_inj.mp same)
      have notModule : content.type.toNat ≠ multibootTagTypeModule := fun same =>
        content.notModule (UInt32.toNat_inj.mp same)
      rw [bodyLooks, type, TagContent.type, if_neg notMmap, if_neg notMmap]
      by_cases isFramebuffer : content.type.toNat = multibootTagTypeFramebuffer
      · rw [if_pos isFramebuffer]
        exact header (n := 30) (by decide) (framebuffer isFramebuffer)
      · rw [if_neg isFramebuffer, if_neg notModule]
        exact Set.empty_subset _

/-- Consecutive tags of the format lead to the end tag behind them. -/
theorem tags_climb {tags : List MultibootTag} {within : Set Nat}
    (low : hi ≤ 2 ^ 32) (isWithin : Set.Ico lo hi ⊆ within)
    (framebuffer : ∀ tag ∈ tags,
      tag.content.type = multibootTagTypeFramebuffer → 30 ≤ tag.content.size) :
    ∀ {a : Nat}, HoldsBytes m a (encodeTags tags) → lo ≤ a →
      a + (encodeTags tags).length ≤ hi →
      Climbs (2 ^ 32) (TagGoesOn m) (tagStep m) (TagFits m within) a := by
  induction tags with
  | nil =>
      intro a holds first last
      have length : (encodeTags []).length = 8 := by simp [encodeTags]
      have isEnd : pointedField m a 0 4 = multibootTagTypeEnd :=
        encodeTags_nil_type (s := startWalk (bareMachine m)) holds (by omega)
      have stops : ¬TagGoesOn m a := fun goes => goes isEnd
      have type : fieldBytes a [(0, 4)] ⊆ Set.Ico lo hi :=
        fieldBytes_subset_Ico (n := 4) (by decide) first (by omega) low
      exact .stop stops ⟨type.trans isWithin, fun goes => absurd goes stops⟩
  | cons tag rest inductionHypothesis =>
      intro a holds first last
      rw [length_encodeTags_cons] at last
      have behind := tags_length_le rest
      have length := tag.length_encode
      have aligned := tag.length_encode_eq
      have least := tag.eight_le_size
      rw [encodeTags, List.flatMap_cons, List.append_assoc, ← encodeTags,
        holdsBytes_append] at holds
      obtain ⟨type, size, _⟩ := tag_pointedFields holds.1 (by omega)
      have goes : TagGoesOn m a := by
        rw [TagGoesOn, type]
        exact tag.type_ne_end
      have stepEq : tagStep m a = tag.encode.length := by
        rw [tagStep, size, BitFields.alignUp_eq (by decide) (by omega)]
        exact aligned.symm
      have fits := tagFits_of_encode holds.1 (framebuffer tag (by simp)) first
        (show a + tag.encode.length < hi by omega) low isWithin
      apply Climbs.turn goes fits
      · omega
      · omega
      · rw [stepEq]
        exact inductionHypothesis
          (fun other inside => framebuffer other (List.mem_cons_of_mem _ inside))
          holds.2 (by omega) (by omega)

/-- Information of the format that records its own length fits. -/
theorem infoFits_of_encode {info : MultibootInfo} {addr : Nat}
    (holds : HoldsBytes m addr info.encode)
    (low : addr + info.encode.length ≤ 2 ^ 32)
    (sized : info.totalSize.toNat = info.encode.length)
    (framebuffer : ∀ tag ∈ info.tags,
      tag.content.type = multibootTagTypeFramebuffer → 30 ≤ tag.content.size) :
    InfoFits m addr := by
  have length : info.encode.length = 8 + (encodeTags info.tags).length := by
    simp only [MultibootInfo.encode, List.length_append, length_leBytes]
    omega
  have behind := tags_length_le info.tags
  rw [MultibootInfo.encode, holdsBytes_append, holdsBytes_append] at holds
  simp only [length_leBytes] at holds
  have total : pointedField m addr 0 4 = info.totalSize.toNat :=
    pointedField_of_holdsBytes holds.1 (by omega) info.totalSize.toNat_lt
  have within : Set.Ico addr (addr + info.encode.length) ⊆ infoBytes m addr := by
    rw [infoBytes, total, sized]
  rw [InfoFits, Nat.mod_eq_of_lt (by omega)]
  exact tags_climb low within framebuffer holds.2.2 (by omega) (by omega)

end WellFormed

/-! ## The tags that it visits -/

theorem walkEntries_keeps {tag : Nat} {s' : WalkState} {fuel : Nat} :
    ∀ {entry : Nat} {s : WalkState},
      walkEntries tag fuel entry s = some s' →
        s'.memory = s.memory ∧ s'.visited = s.visited := by
  induction fuel with
  | zero => exact fun unending => nomatch unending
  | succ fuel inductionHypothesis =>
      intro entry s walk
      rw [walkEntries] at walk
      split at walk
      · have kept := inductionHypothesis walk
        exact kept
      · rw [Option.some.inj walk]
        exact ⟨rfl, rfl⟩

/-- Whatever the tag is, the body of the loop visits it and no other, and leaves
memory alone. -/
theorem visitTag_keeps {kernelName limit tag : Nat} {s s' : WalkState}
    (visit : visitTag kernelName limit tag s = some s') :
    s'.memory = s.memory ∧ s'.visited = s.visited ++ [tag] := by
  rw [visitTag] at visit
  split at visit
  · have kept := walkEntries_keeps visit
    exact kept
  · split at visit
    · rw [← Option.some.inj visit]
      exact ⟨rfl, rfl⟩
    · split at visit
      · rw [visitModule] at visit
        obtain ⟨order, _, taken⟩ := Option.map_eq_some_iff.mp visit
        rw [← taken]
        split
        · exact ⟨rfl, rfl⟩
        · exact ⟨rfl, rfl⟩
      · rw [← Option.some.inj visit]
        exact ⟨rfl, rfl⟩

/-- A walk that ends has visited the tags where the loop stands and goes on, and
no others. -/
theorem walkTags_visited {kernelName limit fuel : Nat} {s' : WalkState} :
    ∀ {tag : Nat} {s : WalkState},
      walkTags kernelName limit fuel tag s = some s' →
        ∃ tags, s'.visited = s.visited ++ tags ∧
          ∀ other, other ∈ tags ↔
            StandsAt (2 ^ 32) (TagGoesOn s.memory) (tagStep s.memory) tag other ∧
              TagGoesOn s.memory other := by
  induction fuel with
  | zero => exact fun unending => nomatch unending
  | succ fuel inductionHypothesis =>
      intro tag s walk
      rw [walkTags] at walk
      split at walk
      case isTrue isEnd =>
        refine ⟨[], by rw [Option.some.inj walk, List.append_nil], ?_⟩
        have stops : ¬TagGoesOn s.memory tag := fun goes => goes isEnd
        intro other
        rw [standsAt_iff]
        refine iff_of_false List.not_mem_nil ?_
        rintro ⟨rfl | ⟨goes, _⟩, goesOther⟩
        · exact stops goesOther
        · exact stops goes
      case isFalse notEnd =>
        have goes : TagGoesOn s.memory tag := notEnd
        obtain ⟨s₁, visit, rest⟩ := Option.bind_eq_some_iff.mp walk
        obtain ⟨memory, visited⟩ := visitTag_keeps visit
        obtain ⟨tags, restVisited, each⟩ := inductionHypothesis rest
        rw [memory, field_eq_pointedField, memory, ← tagStep] at each
        refine ⟨tag :: tags, ?_, fun other => ?_⟩
        · rw [restVisited, visited, List.append_assoc, List.singleton_append]
        · rw [List.mem_cons, each, standsAt_iff (a := tag)]
          constructor
          · rintro (rfl | ⟨stands, goesOther⟩)
            · exact ⟨.inl rfl, goes⟩
            · exact ⟨.inr ⟨goes, stands⟩, goesOther⟩
          · rintro ⟨rfl | ⟨_, stands⟩, goesOther⟩
            · exact .inl rfl
            · exact .inr ⟨stands, goesOther⟩

/-- The tags that `kickstart_main` visits are those where its loop stands. -/
theorem kickstartWalk_visited {kernelName fuel addr : Nat} {s : KickstartState}
    {walked : WalkState}
    (walk : kickstartWalk kernelName fuel addr s = some walked) (tag : Nat) :
    tag ∈ walked.visited ↔
      StandsAtTag s.memory addr tag ∧ TagGoesOn s.memory tag := by
  obtain ⟨tags, visited, each⟩ := walkTags_visited walk
  rw [visited]
  exact each tag

/-! ## A tag without a size -/

/-- Once the walk stands at a tag that it cannot leave, it never ends. -/
theorem walkTags_standing {m : Memory} {kernelName limit tag : Nat}
    (goes : TagGoesOn m tag) (low : tag < 2 ^ 32) (still : tagStep m tag = 0)
    (fuel : Nat) :
    ∀ s : WalkState, s.memory = m →
      walkTags kernelName limit fuel tag s = none := by
  induction fuel with
  | zero => exact fun s _ => rfl
  | succ fuel inductionHypothesis =>
      intro s sameMemory
      rw [TagGoesOn] at goes
      rw [walkTags, field_eq_pointedField, sameMemory, if_neg goes,
        Option.bind_eq_none_iff]
      intro s' visit
      have kept : s'.memory = m := (visitTag_keeps visit).1.trans sameMemory
      rw [field_eq_pointedField, kept, ← tagStep, still, Nat.add_zero,
        Nat.mod_eq_of_lt low]
      exact inductionHypothesis s' kept

/-- The walk does not even leave a first tag whose size rounds to zero. -/
theorem kickstartWalk_standing {s : KickstartState} {addr tag : Nat}
    (first : (addr + 8) % 2 ^ 32 = tag) (goes : TagGoesOn s.memory tag)
    (still : tagStep s.memory tag = 0) (kernelName fuel : Nat) :
    kickstartWalk kernelName fuel addr s = none := by
  have low : tag < 2 ^ 32 := first ▸ Nat.mod_lt _ (by decide)
  rw [kickstartWalk, first]
  exact walkTags_standing goes low still fuel (startWalk s) rfl

theorem bareMachine_memory (m : Memory) : (bareMachine m).memory = m := rfl

/-- Information of 16 bytes whose only tag is of type 1 and records the size
0. -/
def standingMemory : Memory :=
  memoryOf 0x1000 (leBytes 4 16 ++ leBytes 4 0 ++ (leBytes 4 1 ++ leBytes 4 0))

/-- The walk over it stands at that tag for ever. -/
theorem kickstartWalk_unending :
    (∀ kernelName fuel,
      kickstartWalk kernelName fuel 0x1000 (bareMachine standingMemory) = none) ∧
    ∀ kernelName, ¬WalkEndsWithin kernelName 0x1000 (bareMachine standingMemory) := by
  have goes : TagGoesOn standingMemory 0x1008 := by
    rw [TagGoesOn]
    decide +kernel
  have still : tagStep standingMemory 0x1008 = 0 := by decide +kernel
  rw [← bareMachine_memory standingMemory] at goes still
  have unending : ∀ kernelName fuel,
      kickstartWalk kernelName fuel 0x1000 (bareMachine standingMemory) = none :=
    kickstartWalk_standing (by decide) goes still
  refine ⟨unending, fun kernelName within => ?_⟩
  obtain ⟨fuel, walked, walk⟩ := within.ends
  rw [unending kernelName fuel] at walk
  cases walk

end SampoOS.Kickstart
