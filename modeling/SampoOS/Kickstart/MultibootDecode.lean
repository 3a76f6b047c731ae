/-
Module: SampoOS.Kickstart.MultibootDecode
Purpose: The walk over the Multiboot2 information undoes the encoding of the
  format, whatever tags there are.
Trusted boundary: none
Main exports: strcmp_spec, Visited, visitTag_spec, Decoded, walkTags_decodes,
  kickstartWalk_decodes
-/
import SampoOS.Kickstart.Multiboot
import SampoOS.Kickstart.MultibootInfo
import SampoOS.StringCompare

namespace SampoOS.Kickstart

open ByteMemory

/-! ## strcmp -/

/-- Kickstart's `strcmp` is the one of string.c with 32-bit pointers. -/
theorem strcmp_eq (m : Memory) (fuel : Nat) :
    ∀ a b, strcmp m fuel a b = Strings.strcmp 32 m fuel a b := by
  induction fuel with
  | zero => exact fun _ _ => rfl
  | succ fuel inductionHypothesis =>
      intro a b
      rw [strcmp, Strings.strcmp, inductionHypothesis]

/-- `strcmp` of two strings that end with their only zero byte returns 0 exactly
for equal strings. -/
theorem strcmp_spec {m : Memory} {front other : List UInt8} {a b fuel : Nat}
    (holdsA : HoldsBytes m a (front ++ [0]))
    (holdsB : HoldsBytes m b (other ++ [0]))
    (noNulA : ∀ byte ∈ front, byte ≠ 0) (noNulB : ∀ byte ∈ other, byte ≠ 0)
    (fitsA : a + front.length < 2 ^ 32) (fitsB : b + other.length < 2 ^ 32)
    (enough : front.length < fuel) :
    ∃ order, strcmp m fuel a b = some order ∧ (order = 0 ↔ front = other) := by
  obtain ⟨order, compared, ordered⟩ := Strings.strcmp_orderedAs
    (CString.HoldsString.of_holdsBytes holdsA noNulA fitsA)
    (CString.HoldsString.of_holdsBytes holdsB noNulB fitsB) enough
  exact ⟨order, (strcmp_eq m fuel a b).trans compared, ordered.zero⟩

/-! ## Fields -/

/-- A field that memory holds is read. -/
theorem field_of_holdsBytes {s : WalkState} {pointer offset n v : Nat}
    (holds : HoldsBytes s.memory (pointer + offset) (leBytes n v))
    (low : pointer + offset < 2 ^ 32) (fits : v < 256 ^ n) :
    s.field pointer offset n = v := by
  rw [WalkState.field, Nat.mod_eq_of_lt low, loadLe_of_holdsBytes holds,
    Nat.mod_eq_of_lt fits]

theorem regionTypeOf_eq (type : Nat) : regionTypeOf type = mappedType type := by
  rw [regionTypeOf, multibootMemoryAvailable, multibootMemoryAcpiReclaimable,
    multibootMemoryNvs, multibootMemoryBadram]
  match type with
  | 0 => rfl
  | 1 => rfl
  | 2 => rfl
  | 3 => rfl
  | 4 => rfl
  | 5 => rfl
  | n + 6 => rfl

/-! ## The entries of a memory map -/

/-- The effect of a sequence of `pmm_add_region` calls on the state. -/
def recordCalls (calls : List FirmwareEntry) (s : WalkState) : WalkState :=
  { s with
    memoryRegions := s.memoryRegions.bind fun table => pmmAddRegions table calls
    addCalls := s.addCalls ++ calls }

theorem bind_pmmAddRegions_nil (regions : Option RegionTable) :
    (regions.bind fun table => pmmAddRegions table []) = regions := by
  cases regions <;> rfl

theorem recordCalls_nil (s : WalkState) : recordCalls [] s = s := by
  rw [recordCalls, bind_pmmAddRegions_nil, List.append_nil]

theorem recordCalls_cons (call : FirmwareEntry) (rest : List FirmwareEntry)
    (s : WalkState) :
    recordCalls (call :: rest) s = recordCalls rest (recordCalls [call] s) := by
  simp only [recordCalls, Option.bind_assoc, List.append_assoc,
    List.singleton_append, WalkState.mk.injEq, true_and, and_true]
  congr 1
  funext table
  simp [pmmAddRegions]

/-- The body of the loop adds the entry that memory holds. -/
theorem addEntry_eq {s : WalkState} {a : Nat} {entry : MmapEntry}
    (holds : HoldsBytes s.memory a entry.encode) (low : a + 20 ≤ 2 ^ 32) :
    addEntry a s = recordCalls [entry.firmwareEntry] s := by
  rw [MmapEntry.encode, holdsBytes_append, holdsBytes_append, holdsBytes_append]
    at holds
  simp only [length_leBytes] at holds
  obtain ⟨addr, len, type, _⟩ := holds
  have addrField : s.field a 0 8 = entry.addr.toNat :=
    field_of_holdsBytes addr (by omega) entry.addr.toNat_lt
  have lenField : s.field a 8 8 = entry.len.toNat :=
    field_of_holdsBytes len (by omega) entry.len.toNat_lt
  have typeField : s.field a 16 4 = entry.type.toNat :=
    field_of_holdsBytes type (by omega) entry.type.toNat_lt
  have call : entry.firmwareEntry =
      { type := regionTypeOf (s.field a 16 4)
        start := s.field a 0 8
        stop := (s.field a 0 8 + s.field a 8 8) % 2 ^ 64 } := by
    rw [addrField, lenField, typeField, regionTypeOf_eq,
      MmapEntry.firmwareEntry, UInt64.toNat_add]
  rw [call, recordCalls, addEntry]
  simp [pmmAddRegions]

/-- The inner loop adds the entries of a tag, in order. -/
theorem walkEntries_eq {mmapTag size entrySize : Nat} {entries : List MmapEntry}
    (sizes : ∀ entry ∈ entries, 20 + entry.rest.length = entrySize) :
    ∀ {s : WalkState} {a fuel : Nat},
      s.field mmapTag 4 4 = size → s.field mmapTag 8 4 = entrySize →
      a + entrySize * entries.length = mmapTag + size →
      mmapTag + size < 2 ^ 32 →
      HoldsBytes s.memory a (entries.flatMap MmapEntry.encode) →
      entries.length < fuel →
      walkEntries mmapTag fuel a s =
        some (recordCalls (entries.map MmapEntry.firmwareEntry) s) := by
  induction entries with
  | nil =>
      intro s a fuel sizeField _ atEnd low _ enough
      obtain ⟨fuel, rfl⟩ : ∃ k, fuel = k + 1 := ⟨fuel - 1, by omega⟩
      rw [List.length_nil, Nat.mul_zero, Nat.add_zero] at atEnd
      rw [walkEntries, sizeField, Nat.mod_eq_of_lt low, atEnd,
        if_neg (Nat.lt_irrefl _), List.map_nil, recordCalls_nil]
  | cons entry entries inductionHypothesis =>
      intro s a fuel sizeField entrySizeField atEnd low holds enough
      obtain ⟨fuel, rfl⟩ : ∃ k, fuel = k + 1 := ⟨fuel - 1, by omega⟩
      have entryLength := sizes entry (by simp)
      rw [List.length_cons] at atEnd enough
      rw [Nat.mul_succ] at atEnd
      rw [List.flatMap_cons, holdsBytes_append, entry.length_encode, entryLength]
        at holds
      have tail := inductionHypothesis
        (fun other inside => sizes other (List.mem_cons_of_mem _ inside))
        (s := recordCalls [entry.firmwareEntry] s) (a := a + entrySize) sizeField
        entrySizeField (by omega) low holds.2
        (show entries.length < fuel by omega)
      rw [walkEntries, sizeField, entrySizeField, Nat.mod_eq_of_lt low,
        if_pos (by omega), Nat.mod_eq_of_lt (show a + entrySize < 2 ^ 32 by omega),
        addEntry_eq holds.1 (by omega), tail, List.map_cons,
        ← recordCalls_cons]

/-! ## One tag -/

/-- What the body of the outer loop does at the tag that lies at `a`. -/
structure Visited (tag : MultibootTag) (a : Nat) (s s' : WalkState) : Prop where
  memory : s'.memory = s.memory
  visited : s'.visited = s.visited ++ [a]
  addCalls : s'.addCalls = s.addCalls ++ tag.firmwareEntries
  memoryRegions : s'.memoryRegions =
    s.memoryRegions.bind fun table => pmmAddRegions table tag.firmwareEntries
  kernelElf : s'.kernelElf = tag.kernelModule.or s.kernelElf

/-- The parts of a tag, where memory holds them. -/
theorem tag_fields {s : WalkState} {tag : MultibootTag} {a : Nat}
    (holds : HoldsBytes s.memory a tag.encode)
    (low : a + tag.encode.length < 2 ^ 32) :
    s.field a 0 4 = tag.content.type ∧ s.field a 4 4 = tag.content.size ∧
      HoldsBytes s.memory (a + 8) tag.content.payload := by
  have length := tag.length_encode
  have least := tag.eight_le_size
  rw [MultibootTag.encode, holdsBytes_append, holdsBytes_append,
    holdsBytes_append] at holds
  simp only [length_leBytes] at holds
  obtain ⟨type, size, payload, _⟩ := holds
  have typeFits : tag.content.type < 256 ^ 4 := by
    cases tag.content with
    | mmap content => exact show 6 < 256 ^ 4 by decide
    | module content => exact show 3 < 256 ^ 4 by decide
    | other content => exact content.type.toNat_lt
  exact ⟨field_of_holdsBytes type (by omega) typeFits,
    field_of_holdsBytes size (by omega) (by omega), payload⟩

theorem field_stand (a pointer offset n : Nat) (s : WalkState) :
    (s.stand a).field pointer offset n = s.field pointer offset n := rfl

/-- A memory map is added entry by entry. -/
theorem walkEntries_mmap {tag : MultibootTag} {content : MmapTag}
    (isMmap : tag.content = .mmap content) {limit a : Nat} {s : WalkState}
    (holds : HoldsBytes s.memory a tag.encode)
    (low : a + tag.encode.length < 2 ^ 32) (enough : tag.encode.length ≤ limit) :
    walkEntries a limit ((a + 16) % 2 ^ 32) s =
      some (recordCalls tag.firmwareEntries s) := by
  obtain ⟨_, size, payload⟩ := tag_fields holds low
  have length := tag.length_encode
  rw [isMmap] at size payload length
  have sizeEq := TagContent.size_mmap content
  rw [TagContent.payload, holdsBytes_append, holdsBytes_append] at payload
  simp only [length_leBytes] at payload
  obtain ⟨entrySize, _, entries⟩ := payload
  have entrySizeField : s.field a 8 4 = content.entrySize.toNat :=
    field_of_holdsBytes entrySize (by omega) content.entrySize.toNat_lt
  have wide := content.wide
  have fewer : content.entries.length ≤
      content.entrySize.toNat * content.entries.length :=
    Nat.le_mul_of_pos_left _ (by omega)
  have calls : tag.firmwareEntries =
      content.entries.map MmapEntry.firmwareEntry := by
    simp [MultibootTag.firmwareEntries, isMmap]
  rw [calls, Nat.mod_eq_of_lt (by omega)]
  exact walkEntries_eq content.sizes size entrySizeField (by omega) (by omega)
    entries (by omega)

/-- A module is the kernel if its command line says so. -/
theorem visitModule_spec {tag : MultibootTag} {content : ModuleTag}
    (isModule : tag.content = .module content) {kernelName limit a : Nat}
    {s : WalkState} (holds : HoldsBytes s.memory a tag.encode)
    (low : a + tag.encode.length < 2 ^ 32) (enough : tag.encode.length ≤ limit)
    (literal : HoldsBytes s.memory kernelName (kernelCmdline ++ [0]))
    (literalLow : kernelName + kernelCmdline.length < 2 ^ 32) :
    ∃ s', visitModule kernelName limit a s = some s' ∧
      s'.memory = s.memory ∧ s'.visited = s.visited ∧
      s'.addCalls = s.addCalls ∧ s'.memoryRegions = s.memoryRegions ∧
      s'.kernelElf = tag.kernelModule.or s.kernelElf := by
  obtain ⟨_, size, payload⟩ := tag_fields holds low
  have length := tag.length_encode
  rw [isModule] at size payload length
  have sizeEq : (TagContent.module content).size =
      16 + content.cmdline.length + 1 + content.rest.length := by
    simp only [TagContent.size, TagContent.payload, List.length_append,
      length_leBytes, List.length_cons]
    omega
  rw [TagContent.payload, holdsBytes_append, holdsBytes_append,
    List.append_cons, holdsBytes_append] at payload
  simp only [length_leBytes] at payload
  obtain ⟨modStart, modEnd, cmdline, _⟩ := payload
  have startField : s.field a 8 4 = content.modStart.toNat :=
    field_of_holdsBytes modStart (by omega) content.modStart.toNat_lt
  have endField : s.field a 12 4 = content.modEnd.toNat :=
    field_of_holdsBytes modEnd (by omega) content.modEnd.toNat_lt
  obtain ⟨order, compared, equal⟩ := strcmp_spec cmdline literal content.noNul
    kernelCmdline_noNul (by omega) literalLow (show content.cmdline.length < limit by omega)
  have strcmpEq : strcmp (printModule a s).memory limit ((a + 16) % 2 ^ 32)
      kernelName = some order := by
    rw [Nat.mod_eq_of_lt (by omega)]
    exact compared
  by_cases isKernel : content.cmdline = kernelCmdline
  · have found : tag.kernelModule = some (s.field a 8 4, s.field a 12 4) := by
      rw [startField, endField]
      simp [MultibootTag.kernelModule, isModule, isKernel]
    refine ⟨takeKernel a (printModule a s), ?_, rfl, rfl, rfl, rfl, ?_⟩
    · rw [visitModule, strcmpEq, Option.map_some, if_pos (equal.mpr isKernel)]
    · rw [found]
      rfl
  · have missing : tag.kernelModule = none := by
      simp [MultibootTag.kernelModule, isModule, isKernel]
    refine ⟨printModule a s, ?_, rfl, rfl, rfl, rfl, ?_⟩
    · rw [visitModule, strcmpEq, Option.map_some,
        if_neg fun zero => isKernel (equal.mp zero)]
    · rw [missing]
      rfl

/-- Whatever tag it is, the body of the loop does what the tag means. -/
theorem visitTag_spec {tag : MultibootTag} {kernelName limit a : Nat}
    {s : WalkState} (holds : HoldsBytes s.memory a tag.encode)
    (low : a + tag.encode.length < 2 ^ 32) (enough : tag.encode.length ≤ limit)
    (literal : HoldsBytes s.memory kernelName (kernelCmdline ++ [0]))
    (literalLow : kernelName + kernelCmdline.length < 2 ^ 32) :
    ∃ s', visitTag kernelName limit a s = some s' ∧ Visited tag a s s' := by
  have type := (tag_fields holds low).1
  rw [visitTag]
  simp only [field_stand, type]
  cases isContent : tag.content with
  | mmap content =>
      refine ⟨recordCalls tag.firmwareEntries (s.stand a), ?_, ?_⟩
      · exact walkEntries_mmap (s := s.stand a) isContent holds low enough
      · have noModule : tag.kernelModule = none := by
          simp [MultibootTag.kernelModule, isContent]
        refine ⟨rfl, rfl, rfl, rfl, ?_⟩
        rw [noModule]
        rfl
  | module content =>
      obtain ⟨s', visit, memory, visited, addCalls, memoryRegions, kernelElf⟩ :=
        visitModule_spec (s := s.stand a) isContent holds low enough literal
          literalLow
      have noEntries : tag.firmwareEntries = [] := by
        simp [MultibootTag.firmwareEntries, isContent]
      refine ⟨s', visit, memory, visited, ?_, ?_, kernelElf⟩
      · rw [noEntries, List.append_nil]
        exact addCalls
      · rw [noEntries]
        exact memoryRegions.trans (bind_pmmAddRegions_nil _).symm
  | other content =>
      have notMmap : content.type.toNat ≠ multibootTagTypeMmap := fun same =>
        content.notMmap (UInt32.toNat_inj.mp same)
      have notModule : content.type.toNat ≠ multibootTagTypeModule := fun same =>
        content.notModule (UInt32.toNat_inj.mp same)
      have noEntries : tag.firmwareEntries = [] := by
        simp [MultibootTag.firmwareEntries, isContent]
      have noModule : tag.kernelModule = none := by
        simp [MultibootTag.kernelModule, isContent]
      have standing : ∀ s' : WalkState,
          s' = { s.stand a with serial := s'.serial } → Visited tag a s s' := by
        intro s' only
        rw [only]
        refine ⟨rfl, rfl, ?_, ?_, ?_⟩
        · rw [noEntries, List.append_nil]
          rfl
        · rw [noEntries]
          exact (bind_pmmAddRegions_nil _).symm
        · rw [noModule]
          rfl
      rw [TagContent.type, if_neg notMmap, if_neg notModule]
      split
      · exact ⟨printFramebuffer a (s.stand a), rfl, standing _ rfl⟩
      · exact ⟨s.stand a, rfl, standing _ rfl⟩

/-! ## All tags -/

/-- What the outer loop does over consecutive tags, the first of which lies at
`a`. -/
structure Decoded (tags : List MultibootTag) (a : Nat) (s s' : WalkState) :
    Prop where
  visited : s'.visited = s.visited ++ MultibootTag.addresses a tags
  addCalls : s'.addCalls =
    s.addCalls ++ tags.flatMap MultibootTag.firmwareEntries
  memoryRegions : s'.memoryRegions = s.memoryRegions.bind fun table =>
    pmmAddRegions table (tags.flatMap MultibootTag.firmwareEntries)
  kernelElf : s'.kernelElf =
    (tags.filterMap MultibootTag.kernelModule).getLast?.or s.kernelElf

theorem Decoded.nil (a : Nat) (s : WalkState) : Decoded [] a s s where
  visited := (List.append_nil _).symm
  addCalls := (List.append_nil _).symm
  memoryRegions := (bind_pmmAddRegions_nil _).symm
  kernelElf := rfl

theorem Decoded.cons {tag : MultibootTag} {rest : List MultibootTag} {a : Nat}
    {s s' s'' : WalkState} (head : Visited tag a s s')
    (tail : Decoded rest (a + tag.encode.length) s' s'') :
    Decoded (tag :: rest) a s s'' where
  visited := by
    rw [tail.visited, head.visited, MultibootTag.addresses, List.append_assoc,
      List.singleton_append]
  addCalls := by
    rw [tail.addCalls, head.addCalls, List.flatMap_cons, List.append_assoc]
  memoryRegions := by
    rw [tail.memoryRegions, head.memoryRegions, Option.bind_assoc,
      List.flatMap_cons]
    congr 1
    funext table
    exact (pmmAddRegions_append table _ _).symm
  kernelElf := by
    rw [tail.kernelElf, head.kernelElf]
    cases isKernel : tag.kernelModule with
    | none => rw [List.filterMap_cons_none isKernel, Option.none_or]
    | some kernel =>
        rw [List.filterMap_cons_some isKernel, List.getLast?_cons]
        cases (rest.filterMap MultibootTag.kernelModule).getLast? <;> rfl

/-- Where a tag begins, the loop goes on; where the end tag begins, it ends. -/
theorem encodeTags_nil_type {s : WalkState} {a : Nat}
    (holds : HoldsBytes s.memory a (encodeTags [])) (low : a < 2 ^ 32) :
    s.field a 0 4 = multibootTagTypeEnd := by
  rw [encodeTags, List.flatMap_nil, List.nil_append, holdsBytes_append] at holds
  exact field_of_holdsBytes holds.1 low (by decide)

theorem MultibootTag.type_ne_end (tag : MultibootTag) :
    tag.content.type ≠ multibootTagTypeEnd := by
  cases tag.content with
  | mmap content => exact show 6 ≠ 0 by decide
  | module content => exact show 3 ≠ 0 by decide
  | other content =>
      exact fun zero => content.notEnd (UInt32.toNat_inj.mp zero)

/-- The outer loop decodes all tags up to the end tag, in order. -/
theorem walkTags_decodes {kernelName limit : Nat} {tags : List MultibootTag}
    (enough : ∀ tag ∈ tags, tag.encode.length ≤ limit)
    (literalLow : kernelName + kernelCmdline.length < 2 ^ 32) :
    ∀ {a fuel : Nat} {s : WalkState},
      HoldsBytes s.memory a (encodeTags tags) →
      a + (encodeTags tags).length ≤ 2 ^ 32 →
      HoldsBytes s.memory kernelName (kernelCmdline ++ [0]) →
      tags.length < fuel →
      ∃ s', walkTags kernelName limit fuel a s = some s' ∧ Decoded tags a s s' := by
  induction tags with
  | nil =>
      intro a fuel s holds low _ steps
      obtain ⟨fuel, rfl⟩ : ∃ k, fuel = k + 1 := ⟨fuel - 1, by omega⟩
      have ends : (encodeTags []).length = 8 := by simp [encodeTags]
      refine ⟨s, ?_, Decoded.nil a s⟩
      rw [walkTags, if_pos (encodeTags_nil_type holds (by omega))]
  | cons tag rest inductionHypothesis =>
      intro a fuel s holds low literal steps
      obtain ⟨fuel, rfl⟩ : ∃ k, fuel = k + 1 := ⟨fuel - 1, by omega⟩
      rw [List.length_cons] at steps
      rw [length_encodeTags_cons] at low
      have behind : 8 ≤ (encodeTags rest).length := by
        simp only [encodeTags, List.length_append, length_leBytes]
        omega
      rw [encodeTags, List.flatMap_cons, List.append_assoc, ← encodeTags,
        holdsBytes_append] at holds
      obtain ⟨type, size, _⟩ := tag_fields holds.1 (by omega)
      obtain ⟨s', visit, head⟩ := visitTag_spec holds.1 (by omega)
        (enough tag (by simp)) literal literalLow
      obtain ⟨s'', walk, tail⟩ := inductionHypothesis
        (fun other inside => enough other (List.mem_cons_of_mem _ inside))
        (show HoldsBytes s'.memory (a + tag.encode.length) (encodeTags rest) by
          rw [head.memory]
          exact holds.2)
        (by omega) (by rw [head.memory]; exact literal)
        (show rest.length < fuel by omega)
      refine ⟨s'', ?_, Decoded.cons head tail⟩
      have sameSize : s'.field a 4 4 = tag.content.size := by
        rw [WalkState.field, head.memory]
        exact size
      have length := tag.length_encode
      have next : (a + BitFields.alignUp 32 3 tag.content.size) % 2 ^ 32 =
          a + tag.encode.length := by
        rw [BitFields.alignUp_eq (by decide) (by omega), tag.length_encode_eq]
        have aligned := tag.length_encode_eq
        omega
      rw [walkTags, type, if_neg tag.type_ne_end, visit, Option.bind_some,
        sameSize, next]
      exact walk

section Information

variable {info : MultibootInfo} {kernelName fuel addr : Nat} {s : KickstartState}

theorem kickstartWalk_decoded (holds : HoldsBytes s.memory addr info.encode)
    (low : addr + info.encode.length ≤ 2 ^ 32)
    (literal : HoldsBytes s.memory kernelName (kernelCmdline ++ [0]))
    (literalLow : kernelName + kernelCmdline.length < 2 ^ 32)
    (enough : info.encode.length ≤ fuel) :
    ∃ walked, kickstartWalk kernelName fuel addr s = some walked ∧
      Decoded info.tags (addr + 8) (startWalk s) walked := by
  have length : info.encode.length = 8 + (encodeTags info.tags).length := by
    simp only [MultibootInfo.encode, List.length_append, length_leBytes]
    omega
  rw [MultibootInfo.encode, holdsBytes_append, holdsBytes_append] at holds
  simp only [length_leBytes] at holds
  have steps := tags_length_le info.tags
  have each : ∀ tag ∈ info.tags, tag.encode.length ≤ fuel := fun tag inside =>
    Nat.le_trans (encode_length_le inside) (by omega)
  rw [kickstartWalk, Nat.mod_eq_of_lt (by omega)]
  exact walkTags_decodes each literalLow (s := startWalk s) holds.2.2 (by omega)
    literal (by omega)

/-- Decoded from the start, the last module with the kernel's name counts. -/
theorem Decoded.kernelElf_start {walked : WalkState} {tags : List MultibootTag}
    {a : Nat} (decoded : Decoded tags a (startWalk s) walked) :
    walked.kernelElf = (tags.filterMap MultibootTag.kernelModule).getLast? := by
  rw [decoded.kernelElf]
  exact Option.or_none

/-- Whatever tags the information has, the walk visits each of them once and in
order, calls `pmm_add_region` for the entries of all memory maps, in order, and
finds the last module that is named like the kernel. -/
theorem kickstartWalk_decodes (info : MultibootInfo)
    (holds : HoldsBytes s.memory addr info.encode)
    (low : addr + info.encode.length ≤ 2 ^ 32)
    (literal : HoldsBytes s.memory kernelName (kernelCmdline ++ [0]))
    (literalLow : kernelName + kernelCmdline.length < 2 ^ 32)
    (enough : info.encode.length ≤ fuel) :
    ∃ walked, kickstartWalk kernelName fuel addr s = some walked ∧
      walked.visited = MultibootTag.addresses (addr + 8) info.tags ∧
      walked.addCalls = info.tags.flatMap MultibootTag.firmwareEntries ∧
      walked.memoryRegions = pmmAddRegions s.memoryRegions walked.addCalls ∧
      walked.kernelElf =
        (info.tags.filterMap MultibootTag.kernelModule).getLast? ∧
      (walked.foundKernel = false ↔
        ∀ tag ∈ info.tags, tag.kernelModule = none) := by
  obtain ⟨walked, walk, decoded⟩ :=
    kickstartWalk_decoded holds low literal literalLow enough
  have addCalls : walked.addCalls =
      info.tags.flatMap MultibootTag.firmwareEntries := decoded.addCalls
  have memoryRegions : walked.memoryRegions =
      pmmAddRegions s.memoryRegions walked.addCalls := by
    rw [addCalls]
    exact decoded.memoryRegions
  refine ⟨walked, walk, decoded.visited, addCalls, memoryRegions,
    decoded.kernelElf_start, ?_⟩
  have missing : walked.foundKernel = false ↔ walked.kernelElf = none := by
    rw [WalkState.kernelElf]
    cases walked.foundKernel <;> simp
  rw [missing, decoded.kernelElf_start, List.getLast?_eq_none_iff,
    List.filterMap_eq_nil_iff]

/-- `kickstart_main` boots with the table and the kernel that the information
describes. -/
theorem kickstartMain_eq (kickstartStart kickstartEnd : Nat) (hasLongmode : Bool)
    (bootinfo : SampoBootinfo) (holds : HoldsBytes s.memory addr info.encode)
    (low : addr + info.encode.length ≤ 2 ^ 32)
    (literal : HoldsBytes s.memory kernelName (kernelCmdline ++ [0]))
    (literalLow : kernelName + kernelCmdline.length < 2 ^ 32)
    (enough : info.encode.length ≤ fuel) :
    ∃ serial, kickstartMain kickstartStart kickstartEnd kernelName fuel true
        hasLongmode bootinfo addr multiboot2BootloaderMagic s =
      (pmmAddRegions s.memoryRegions
          (info.tags.flatMap MultibootTag.firmwareEntries)).bind fun table =>
        kickstartBoot kickstartStart kickstartEnd hasLongmode
          (info.tags.filterMap MultibootTag.kernelModule).getLast? bootinfo
          { s with memoryRegions := table, serial := serial } := by
  rw [kickstartMain, if_neg (by simp), if_neg (by simp)]
  obtain ⟨walked, walk, decoded⟩ := kickstartWalk_decoded
    (s := serialPrintf "First free page after Kickstart: 0x%x%x\n"
      [(BitFields.alignUp 64 12 kickstartEnd >>> 32) % 2 ^ 32,
        BitFields.alignUp 64 12 kickstartEnd &&& 0xFFFFFFFF]
      (serialWrite "Multiboot magic successful\n" s))
    holds low literal literalLow enough
  have memoryRegions : walked.memoryRegions = pmmAddRegions s.memoryRegions
      (info.tags.flatMap MultibootTag.firmwareEntries) := decoded.memoryRegions
  refine ⟨walked.serial, ?_⟩
  dsimp only
  rw [walk, Option.bind_some, memoryRegions, decoded.kernelElf_start]
  rfl

end Information

/-! ## A small structure -/

/-- A boot command line, a memory map with two entries, and the kernel. -/
def smallInfo : MultibootInfo where
  totalSize := 128
  reserved := 0
  tags :=
    [{ content := .other
        { type := 1
          payload := [0x78, 0]
          notEnd := by decide
          notModule := by decide
          notMmap := by decide }
       padding := [0, 0, 0, 0, 0, 0]
       padded := by decide
       short := by decide },
     { content := .mmap
        { entrySize := 24
          entryVersion := 0
          entries := [⟨0, 0x9F000, 1, [0, 0, 0, 0]⟩,
            ⟨0xF0000, 0x10000, 2, [0, 0, 0, 0]⟩]
          wide := by decide
          multiple := by decide
          sizes := by decide }
       padding := []
       padded := by decide
       short := by decide },
     { content := .module
        { modStart := 0x200000
          modEnd := 0x210000
          cmdline := kernelCmdline
          rest := []
          noNul := kernelCmdline_noNul }
       padding := [0, 0, 0, 0, 0, 0, 0]
       padded := by decide
       short := by decide }]

/-- The structure, and the name of the kernel behind it. -/
def smallBytes : List UInt8 := smallInfo.encode ++ (kernelCmdline ++ [0])

/-- A machine with some memory, before it has read a memory map. -/
def bareMachine (m : Memory) : KickstartState :=
  { freeMebibyte with
    memory := m
    memoryRegions := [] }

theorem kickstartWalk_decodes_small :
    ∃ walked, kickstartWalk 0x9088 136 0x9000
        (bareMachine (memoryOf 0x9000 smallBytes)) = some walked ∧
      walked.visited = [0x9008, 0x9018, 0x9058] ∧
      walked.addCalls =
        [⟨.available, 0, 0x9F000⟩, ⟨.reserved, 0xF0000, 0x100000⟩] ∧
      walked.kernelElf = some (0x200000, 0x210000) := by
  have machine : ∀ m, HoldsBytes m 0x9000 smallBytes →
      HoldsBytes (bareMachine m).memory 0x9000 smallBytes := fun _ holds => holds
  have held := machine _ (holdsBytes_memoryOf 0x9000 smallBytes)
  have length : smallInfo.encode.length = 136 := by decide +kernel
  have nameLength : kernelCmdline.length = 16 := by decide
  obtain ⟨info, literal⟩ := holdsBytes_append.mp held
  rw [length] at literal
  obtain ⟨walked, walk, visited, addCalls, _, kernelElf, _⟩ :=
    kickstartWalk_decodes smallInfo info (by omega) literal (by omega)
      (Nat.le_of_eq length)
  exact ⟨walked, walk, visited.trans (by decide), addCalls.trans (by decide),
    kernelElf.trans (by decide)⟩

end SampoOS.Kickstart
