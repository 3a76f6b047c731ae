/-
Module: SampoOS.Kickstart.ElfRun
Purpose: The states in which the loop of `elf_expand` reads its program headers,
  and what it reads of headers that the format encodes.
Trusted boundary: none
Main exports: progHeaderRead, ReadsHeader, ReadsHeader.loop, ReadsHeader.header_eq,
  readProgHeader_encoded64, readProgHeader_encoded32
-/
import SampoOS.Kickstart.ElfEncoding
import SampoOS.Kickstart.SegmentLoad

namespace SampoOS.Kickstart

open ByteMemory
open RecordLayout

/-! ## The static header -/

theorem nextTable_header {table index next : Nat} {s s' : KickstartState}
    (ran : nextTable table index s = some (next, s')) : s'.header = s.header := by
  rcases nextTable_cases ran with ⟨_, rfl, _⟩ | ⟨_, s₁, given, rfl⟩
  · rfl
  · obtain ⟨_, _, rfl⟩ := allocateRegionWithType_cases given
    rfl

theorem mapPage_header {physAddr virtAddr permFlags : Nat} {s s' : KickstartState}
    (ran : mapPage physAddr virtAddr permFlags s = some s') :
    s'.header = s.header := by
  cases type : s.pageType with
  | bits32 =>
      rw [mapPage, type] at ran
      rw [Option.some.inj ran]
  | bits64 =>
      simp only [mapPage, type, Option.bind_eq_bind, Option.bind_eq_some_iff,
        Prod.exists, Option.pure_def, Option.some.injEq] at ran
      obtain ⟨pdp, s₁, first, pd, s₂, second, pt, s₃, third, rfl⟩ := ran
      calc
        _ = s₃.header := (mapEntry_sameControl _ _ _ _ _ _).header
        _ = s₂.header := nextTable_header third
        _ = s₁.header := nextTable_header second
        _ = s.header := nextTable_header first

theorem mapPages_header {calls : List MapCall} :
    ∀ {s s' : KickstartState}, mapPages calls s = some s' →
      s'.header = s.header := by
  induction calls with
  | nil =>
      intro s s' ran
      rw [← Option.some.inj ran]
  | cons call rest inductionHypothesis =>
      intro s s' ran
      simp only [mapPages, List.foldlM_cons, Option.bind_eq_bind,
        Option.bind_eq_some_iff] at ran
      obtain ⟨s₁, first, later⟩ := ran
      exact (inductionHypothesis later).trans (mapPage_header first)

/-- Loading a segment does not change the header of the file. -/
theorem loadSegment_header {ph : ProgramHeader} {s s' : KickstartState}
    (ran : loadSegment ph s = some (true, s')) : s'.header = s.header := by
  obtain ⟨s₀, segmentRegion, s₁, s₂, s₃, steps⟩ := loadSegment_eq_some ran
  have mapped := steps.mapped
  rw [mapSegment_eq_mapPages] at mapped
  obtain ⟨_, _, given⟩ := allocateRegionWithType_cases steps.given
  calc
    s'.header = s₃.header := steps.copied.header
    _ = s₂.header := mapPages_header mapped
    _ = s₁.header := steps.prepared.header
    _ = s₀.header := by rw [given]
    _ = s.header := steps.announced.header

/-! ## Reading the headers one after the other -/

/-- `prog_header_base`. -/
def progHeaderBase (h : ElfHeader) : Nat :=
  (h.basePtr + h.progHeaderOffset) % 2 ^ 64 % 2 ^ 32

/-- The program header that the loop of `elf_expand` reads at an index. -/
def progHeaderRead (base : Nat) (s : KickstartState) (i : Nat) : ProgramHeader :=
  readProgHeader s.header s.memory ((base + s.header.progHeaderLen * i) % 2 ^ 32)

/-- The loop over some indices reads the header with one of them in a state. -/
inductive ReadsHeader (base : Nat) :
    List Nat → KickstartState → Nat → KickstartState → Prop
  | here {i : Nat} {rest : List Nat} {s : KickstartState} :
      ReadsHeader base (i :: rest) s i s
  | skip {first i : Nat} {rest : List Nat} {start s : KickstartState}
      (notLoad : (progHeaderRead base start first).type ≠ ptLoad)
      (inRest : ReadsHeader base rest start i s) :
      ReadsHeader base (first :: rest) start i s
  | load {first i : Nat} {rest : List Nat} {start next s : KickstartState}
      (isLoad : (progHeaderRead base start first).type = ptLoad)
      (ran : loadSegment (progHeaderRead base start first) start =
        some (true, next))
      (inRest : ReadsHeader base rest next i s) :
      ReadsHeader base (first :: rest) start i s

namespace ReadsHeader

variable {base i : Nat} {indices : List Nat} {start s : KickstartState}

/-- What the rest of the loop returns from that state is what it returns. -/
theorem loop (reads : ReadsHeader base indices start i s) :
    ∃ rest, loadSegments base indices start = loadSegments base (i :: rest) s := by
  induction reads with
  | here => exact ⟨_, rfl⟩
  | skip notLoad _ inductionHypothesis =>
      obtain ⟨rest, same⟩ := inductionHypothesis
      refine ⟨rest, ?_⟩
      rw [← same, loadSegments]
      exact if_pos notLoad
  | load isLoad ran _ inductionHypothesis =>
      obtain ⟨rest, same⟩ := inductionHypothesis
      refine ⟨rest, ?_⟩
      rw [← same, loadSegments]
      dsimp only
      rw [progHeaderRead] at isLoad ran
      rw [if_neg (not_not.mpr isLoad), ran]
      rfl

theorem header_eq (reads : ReadsHeader base indices start i s) :
    s.header = start.header := by
  induction reads with
  | here => rfl
  | skip _ _ inductionHypothesis => exact inductionHypothesis
  | load _ ran _ inductionHypothesis =>
      exact inductionHypothesis.trans (loadSegment_header ran)

end ReadsHeader

/-- `elf_expand` reads the program header with an index in a state. -/
structure ElfExpandReads (start : KickstartState) (i : Nat) (s : KickstartState) :
    Prop where
  amd64 : start.header.arch = .amd64
  reads : ReadsHeader (progHeaderBase start.header)
    (List.range start.header.progHeaderCount) start i s

/-! ## Program headers that the format encodes -/

/-- Two words of 4 bytes, read as one of 8. -/
def ElfEndian.join : ElfEndian → Nat → Nat → Nat
  | .little, first, second => first + 2 ^ 32 * second
  | .big, first, second => 2 ^ 32 * first + second

theorem elfReadUint_eq_fileField (h : ElfHeader) (m : Memory) (a n : Nat) :
    elfReadUint h m a n = fileField h.endianness m a n := by
  rw [elfReadUint]
  cases h.endianness with
  | little =>
      rw [if_pos rfl, readLe_eq]
      rfl
  | big =>
      rw [if_neg (by decide), readBe_eq]
      rfl

theorem fileField_join (endianness : ElfEndian) (m : Memory) (a : Nat) :
    fileField endianness m a 8 =
      endianness.join (fileField endianness m a 4)
        (fileField endianness m (a + 4) 4) := by
  cases endianness with
  | little =>
      simp only [fileField, ElfEndian.join, Nat.add_assoc]
      exact leValue_add _ 4 4
  | big =>
      simp only [fileField, ElfEndian.join, Nat.add_assoc]
      rw [Nat.mul_comm]
      exact beValue_add _ 4 4

@[simp] theorem EncodedProgramHeader.length_fields {elfClass : ElfClass}
    (ph : EncodedProgramHeader elfClass) : ph.fields.length = 8 := by
  cases elfClass <;> rfl

theorem EncodedProgramHeader.fields_fit {elfClass : ElfClass}
    (ph : EncodedProgramHeader elfClass) : ∀ field ∈ ph.fields, field.Fits := by
  have word : ∀ v : UInt32, Field.Fits ⟨4, v.toNat⟩ :=
    fun v => ⟨Nat.zero_lt_succ _, v.toNat_lt⟩
  cases elfClass with
  | class32 =>
      have addr : ∀ v < 256 ^ 4, Field.Fits ⟨4, v⟩ :=
        fun v fits => ⟨Nat.zero_lt_succ _, fits⟩
      simp only [EncodedProgramHeader.fields, List.forall_mem_cons]
      exact ⟨word _, addr _ ph.offsetFits, addr _ ph.vaddrFits,
        addr _ ph.paddrFits, addr _ ph.fileSzFits, addr _ ph.memSzFits, word _,
        addr _ ph.alignFits, by simp⟩
  | class64 =>
      have addr : ∀ v < 256 ^ 8, Field.Fits ⟨8, v⟩ :=
        fun v fits => ⟨Nat.zero_lt_succ _, fits⟩
      simp only [EncodedProgramHeader.fields, List.forall_mem_cons]
      exact ⟨word _, word _, addr _ ph.offsetFits, addr _ ph.vaddrFits,
        addr _ ph.paddrFits, addr _ ph.fileSzFits, addr _ ph.memSzFits,
        addr _ ph.alignFits, by simp⟩

/-- The size of a program header. -/
def ElfClass.programHeaderSize : ElfClass → Nat
  | .class32 => 32
  | .class64 => 56

theorem EncodedProgramHeader.width_fields {elfClass : ElfClass}
    (ph : EncodedProgramHeader elfClass) :
    (ph.fields.map Field.width).sum = elfClass.programHeaderSize := by
  cases elfClass <;> rfl

/-- The values that Kickstart uses. -/
def EncodedProgramHeader.decoded {elfClass : ElfClass}
    (ph : EncodedProgramHeader elfClass) : ProgramHeader where
  type := ph.type.toNat
  flags := ph.flags.toNat
  fOff := ph.offset
  vaddr := ph.vaddr
  fileLen := ph.fileSz
  memLen := ph.memSz

section Reading

variable {h : ElfHeader} {m : Memory} {a : Nat}

/-- A 64-bit program header is read as it is encoded. -/
theorem readProgHeader_encoded64 {ph : EncodedProgramHeader .class64}
    (holds : HoldsBytes m a (ph.encode h.endianness)) (low : a + 56 ≤ 2 ^ 32)
    (is64 : h.elfClass = .class64) : readProgHeader h m a = ph.decoded := by
  have read := elfReadUint_field holds ph.fields_fit (by rw [ph.width_fields]; exact low)
  have size : h.elfClass.addrSize = 8 := by rw [is64]; rfl
  simp only [readProgHeader, elfReadAddr_eq, elfReadOff_eq, elfReadWord, elfReadU32,
    elfReadU64, size]
  rw [EncodedProgramHeader.decoded]
  congr 1
  · exact read 0 (by simp)
  · exact read 1 (by simp)
  · exact read 2 (by simp)
  · exact read 3 (by simp)
  · exact read 5 (by simp)
  · exact read 6 (by simp)

/-- A 32-bit program header is read as if the flags followed the type and the
sizes had 8 bytes. -/
theorem readProgHeader_encoded32 {ph : EncodedProgramHeader .class32}
    (holds : HoldsBytes m a (ph.encode h.endianness)) (low : a + 32 ≤ 2 ^ 32)
    (is32 : h.elfClass = .class32) :
    readProgHeader h m a =
      { type := ph.type.toNat
        flags := ph.offset
        fOff := ph.vaddr
        vaddr := ph.paddr
        fileLen := h.endianness.join ph.memSz ph.flags.toNat
        memLen := h.endianness.join ph.align
          (fileField h.endianness m (a + 32) 4) } := by
  have read := elfReadUint_field holds ph.fields_fit (by rw [ph.width_fields]; exact low)
  have size : h.elfClass.addrSize = 4 := by rw [is32]; rfl
  have place : ∀ offset ≤ 28, (a + offset) % 2 ^ 32 = a + offset := by omega
  have word : ∀ offset ≤ 28, fileField h.endianness m (a + offset) 4 =
      elfReadUint h m ((a + offset) % 2 ^ 32) 4 := by
    intro offset below
    rw [place offset below, elfReadUint_eq_fileField]
  simp only [readProgHeader, elfReadAddr_eq, elfReadOff_eq, elfReadWord, elfReadU32,
    elfReadU64, size]
  congr 1
  · exact read 0 (by simp)
  · exact read 1 (by simp)
  · exact read 2 (by simp)
  · exact read 3 (by simp)
  · rw [place _ (by decide), elfReadUint_eq_fileField, fileField_join,
      word _ (by decide)]
    congr 1
    · exact read 5 (by simp)
    · rw [Nat.add_assoc, word _ (by decide)]
      exact read 6 (by simp)
  · rw [place _ (by decide), elfReadUint_eq_fileField, fileField_join,
      word _ (by decide)]
    congr 1
    exact read 7 (by simp)

end Reading

/-! ## Tables of program headers -/

/-- Where the file puts the program header with an index. -/
def EncodedElfHeader.programHeaderPlace (header : EncodedElfHeader)
    (base i : Nat) : Nat :=
  base + header.phOff + header.phEntSize.toNat * i

/-- Memory that holds the program headers of a file, below 4 GiB. -/
structure HoldsTable (m : Memory) (base : Nat) (header : EncodedElfHeader)
    (phs : List (EncodedProgramHeader header.elfClass)) : Prop where
  count : phs.length = header.phNum.toNat
  low : ∀ i < phs.length, header.programHeaderPlace base i +
    header.elfClass.programHeaderSize ≤ 2 ^ 32
  entries : ∀ i (below : i < phs.length),
    HoldsBytes m (header.programHeaderPlace base i)
      (phs[i].encode header.endianness)

/-- What the loop uses of a program header is what is encoded: the type, and for
a loadable segment everything else. -/
def DecodedAs (read : ProgramHeader) {elfClass : ElfClass}
    (ph : EncodedProgramHeader elfClass) : Prop :=
  read.type = ph.type.toNat ∧ (ph.type.toNat = ptLoad → read = ph.decoded)

/-- A 32-bit program header whose words, with the one behind it, also stand for
its values when they are taken for the fields of the 64-bit format. -/
def EncodedProgramHeader.Ambiguous (endianness : ElfEndian)
    (ph : EncodedProgramHeader .class32) (next : Nat) : Prop :=
  match endianness with
  | .little =>
      ph.flags = 0 ∧ ph.offset = 0 ∧ ph.vaddr = 0 ∧ ph.paddr = 0 ∧
        ph.fileSz = ph.memSz ∧ ph.align = ph.memSz ∧ next = 0
  | .big =>
      ph.memSz = 0 ∧ ph.align = 0 ∧ next = 0 ∧ ph.offset = ph.flags.toNat ∧
        ph.vaddr = ph.flags.toNat ∧ ph.paddr = ph.flags.toNat ∧
        ph.fileSz = ph.flags.toNat

/-- A program header that the loop can decode: any of the 64-bit format, and of
the 32-bit format one that it skips, or an ambiguous one. -/
def EncodedProgramHeader.Decodable (endianness : ElfEndian) :
    {elfClass : ElfClass} → EncodedProgramHeader elfClass → Nat → Prop
  | .class64, _, _ => True
  | .class32, ph, next =>
      ph.type.toNat = ptLoad → ph.Ambiguous endianness next

/-- The two ways to read a 32-bit program header agree. -/
theorem EncodedProgramHeader.ambiguous_iff {endianness : ElfEndian}
    {ph : EncodedProgramHeader .class32} {next : Nat} :
    ({ type := ph.type.toNat
       flags := ph.offset
       fOff := ph.vaddr
       vaddr := ph.paddr
       fileLen := endianness.join ph.memSz ph.flags.toNat
       memLen := endianness.join ph.align next } : ProgramHeader) = ph.decoded ↔
      ph.Ambiguous endianness next := by
  have fileSz : ph.fileSz < 2 ^ 32 := ph.fileSzFits
  have memSz : ph.memSz < 2 ^ 32 := ph.memSzFits
  rw [EncodedProgramHeader.decoded, ProgramHeader.mk.injEq, eq_self_iff_true,
    true_and]
  cases endianness with
  | little =>
      simp only [ElfEndian.join, EncodedProgramHeader.Ambiguous, ← UInt32.toNat_inj,
        UInt32.toNat_zero]
      generalize ph.flags.toNat = flags
      constructor
      · rintro ⟨flagsSame, offset, vaddr, size, length⟩
        omega
      · rintro ⟨flags, offset, vaddr, paddr, size, align, next⟩
        omega
  | big =>
      simp only [ElfEndian.join, EncodedProgramHeader.Ambiguous]
      generalize ph.flags.toNat = flags
      constructor
      · rintro ⟨flagsSame, offset, vaddr, size, length⟩
        omega
      · rintro ⟨length, align, next, offset, vaddr, paddr, size⟩
        omega

/-- A program header is decoded as it is encoded if and only if it is
decodable. -/
theorem EncodedProgramHeader.decodedAs_iff {h : ElfHeader} {m : Memory} {a : Nat}
    {elfClass : ElfClass} {ph : EncodedProgramHeader elfClass}
    (holds : HoldsBytes m a (ph.encode h.endianness))
    (low : a + elfClass.programHeaderSize ≤ 2 ^ 32)
    (sameClass : h.elfClass = elfClass) :
    DecodedAs (readProgHeader h m a) ph ↔
      ph.Decodable h.endianness (fileField h.endianness m (a + 32) 4) := by
  cases elfClass with
  | class32 =>
      rw [readProgHeader_encoded32 holds low sameClass, DecodedAs,
        EncodedProgramHeader.ambiguous_iff]
      exact and_iff_right rfl
  | class64 =>
      rw [readProgHeader_encoded64 holds low sameClass]
      exact iff_of_true ⟨rfl, fun _ => rfl⟩ trivial

section Decoding

variable {s start reading : KickstartState} {base i : Nat}
  {header : EncodedElfHeader} {phs : List (EncodedProgramHeader header.elfClass)}

/-- The loop looks for a program header where the file puts it. -/
theorem HoldsTable.place {m : Memory} (table : HoldsTable m base header phs)
    (below : i < phs.length) :
    (progHeaderBase (header.decoded base) +
        (header.decoded base).progHeaderLen * i) % 2 ^ 32 =
      header.programHeaderPlace base i := by
  have low := table.low i below
  have positive : 0 < header.elfClass.programHeaderSize := by
    cases header.elfClass <;> decide
  rw [EncodedElfHeader.programHeaderPlace] at low ⊢
  dsimp only [progHeaderBase, EncodedElfHeader.decoded]
  generalize header.phEntSize.toNat * i = offset at low ⊢
  omega

theorem HoldsTable.decodedAs_iff (table : HoldsTable reading.memory base header phs)
    (below : i < phs.length) (stored : reading.header = header.decoded base) :
    DecodedAs (progHeaderRead (progHeaderBase (header.decoded base)) reading i)
        phs[i] ↔
      phs[i].Decodable header.endianness
        (fileField header.endianness reading.memory
          (header.programHeaderPlace base i + 32) 4) := by
  rw [progHeaderRead, stored, table.place below]
  exact EncodedProgramHeader.decodedAs_iff (h := header.decoded base)
    (table.entries i below) (table.low i below) rfl

/-- In the loop of `elf_expand`, the i-th program header of a file that
`elf_initialize` accepted is decoded as the format encodes it if and only if it
is decodable. -/
theorem elfExpand_decodes_iff (executable : header.Executable)
    (holds : HoldsBytes s.memory base header.encode)
    (low : base + header.encode.length ≤ 2 ^ 32)
    (kept : start.header = (elfInitialize base s).2.header)
    (reads : ElfExpandReads start i reading) (below : i < phs.length)
    (table : HoldsTable reading.memory base header phs) :
    DecodedAs (progHeaderRead (progHeaderBase start.header) reading i) phs[i] ↔
      phs[i].Decodable header.endianness
        (fileField header.endianness reading.memory
          (header.programHeaderPlace base i + 32) 4) := by
  have stored : reading.header = header.decoded base :=
    (reads.reads.header_eq.trans kept).trans
      (elfInitialize_encoded holds low executable).2
  rw [← reads.reads.header_eq, stored]
  exact table.decodedAs_iff below stored

end Decoding

/-- A state with another static header. -/
def withHeader (h : ElfHeader) (s : KickstartState) : KickstartState :=
  { s with header := h }

@[simp] theorem withHeader_memory (h : ElfHeader) (s : KickstartState) :
    (withHeader h s).memory = s.memory := rfl

/-- The header of a 32-bit little-endian file for the x86-64. -/
def class32Header : EncodedElfHeader :=
  { bigEndianHeader with
    endianness := .little
    entry := 0x200000
    phNum := 1
    entryFits := by decide }

/-- Its only program header. -/
def class32Segment : EncodedProgramHeader .class32 where
  type := 1
  flags := 5
  offset := 84
  vaddr := 0x200000
  paddr := 0x200000
  fileSz := 1
  memSz := 2
  align := 0x1000
  offsetFits := by decide
  vaddrFits := by decide
  paddrFits := by decide
  fileSzFits := by decide
  memSzFits := by decide
  alignFits := by decide

/-- Kickstart with that file, before and after `elf_initialize`. -/
def class32Loaded : KickstartState :=
  bytesAt2MiB (class32Header.encode ++ class32Segment.encode .little)

def class32Started : KickstartState :=
  withHeader (class32Header.decoded 0x200000) class32Loaded

theorem class32Started_memory : class32Started.memory = class32Loaded.memory :=
  withHeader_memory _ _

theorem class32Loaded_holds :
    HoldsBytes class32Loaded.memory 0x200000 class32Header.encode ∧
      HoldsBytes class32Loaded.memory (0x200000 + 52)
        (class32Segment.encode .little) := by
  have holds := bytesAt2MiB_holds
    (class32Header.encode ++ class32Segment.encode .little)
  rw [holdsBytes_append, class32Header.length_encode] at holds
  exact holds

theorem class32Started_reads :
    (elfInitialize 0x200000 class32Loaded).1 = true ∧
      class32Started.header = (elfInitialize 0x200000 class32Loaded).2.header ∧
      ElfExpandReads class32Started 0 class32Started := by
  have low : 0x200000 + class32Header.encode.length ≤ 2 ^ 32 := by
    rw [class32Header.length_encode]
    decide
  obtain ⟨accepted, stored⟩ := elfInitialize_encoded class32Loaded_holds.1 low
    ⟨rfl, Or.inr rfl⟩
  exact ⟨accepted, stored.symm, rfl, .here⟩

theorem class32Segment_place :
    class32Header.programHeaderPlace 0x200000 0 = 0x200000 + 52 := by
  decide

theorem class32Started_table :
    HoldsTable class32Started.memory 0x200000 class32Header [class32Segment] where
  count := rfl
  low := by
    intro i below
    obtain rfl : i = 0 := Nat.lt_one_iff.mp below
    rw [class32Segment_place]
    decide
  entries := by
    intro i below
    obtain rfl : i = 0 := Nat.lt_one_iff.mp below
    rw [class32Segment_place, class32Started_memory]
    exact class32Loaded_holds.2

/-- Whether that program header is decoded comes down to its words. -/
theorem class32Segment_decodes_iff :
    DecodedAs (progHeaderRead (progHeaderBase class32Started.header)
        class32Started 0) class32Segment ↔
      class32Segment.Decodable .little
        (fileField .little class32Started.memory
          (class32Header.programHeaderPlace 0x200000 0 + 32) 4) := by
  have low : 0x200000 + class32Header.encode.length ≤ 2 ^ 32 := by
    rw [class32Header.length_encode]
    decide
  obtain ⟨_, kept, reads⟩ := class32Started_reads
  refine elfExpand_decodes_iff ⟨rfl, Or.inr rfl⟩ class32Loaded_holds.1 low kept
    reads ?_ class32Started_table
  exact Nat.zero_lt_one

/-- The program header of that file is not decoded as it is encoded. -/
theorem class32Segment_misread :
    ¬ ∀ (s start reading : KickstartState) (base i : Nat)
        (header : EncodedElfHeader)
        (phs : List (EncodedProgramHeader header.elfClass)),
        HoldsBytes s.memory base header.encode →
        (elfInitialize base s).1 = true →
        start.header = (elfInitialize base s).2.header →
        ElfExpandReads start i reading →
        HoldsTable reading.memory base header phs →
        ∀ below : i < phs.length,
          DecodedAs (progHeaderRead (progHeaderBase start.header) reading i)
            phs[i] := by
  intro decodes
  obtain ⟨accepted, kept, reads⟩ := class32Started_reads
  have decoded := decodes class32Loaded class32Started class32Started 0x200000 0
    class32Header [class32Segment] class32Loaded_holds.1 accepted kept reads
    class32Started_table Nat.zero_lt_one
  have ambiguous := (class32Started_table.decodedAs_iff Nat.zero_lt_one rfl).mp
    decoded rfl
  exact absurd ambiguous.1 (by decide)

end SampoOS.Kickstart
