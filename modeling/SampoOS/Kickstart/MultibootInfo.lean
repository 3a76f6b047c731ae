/-
Module: SampoOS.Kickstart.MultibootInfo
Purpose: The Multiboot2 information format: its tags, how they are laid out in
  memory, and what they mean to Kickstart.
Trusted boundary: none
Main exports: MmapEntry, MmapTag, ModuleTag, OtherTag, MultibootTag,
  MultibootInfo, MultibootInfo.encode, MultibootTag.firmwareEntries,
  MultibootTag.kernelModule
-/
import SampoOS.Kickstart.MemoryMap
import SampoOS.Lib.ByteMemory

namespace SampoOS.Kickstart

open ByteMemory

/-! ## Tags -/

/-- An entry of a memory map; `rest` is what the entry size leaves behind the
type. -/
structure MmapEntry where
  addr : UInt64
  len : UInt64
  type : UInt32
  rest : List UInt8
deriving Repr, DecidableEq

/-- A memory-map tag: its entries have at least 24 bytes, and a multiple of 8. -/
structure MmapTag where
  entrySize : UInt32
  entryVersion : UInt32
  entries : List MmapEntry
  wide : 24 ≤ entrySize.toNat
  multiple : 8 ∣ entrySize.toNat
  sizes : ∀ entry ∈ entries, 20 + entry.rest.length = entrySize.toNat

/-- A module tag: a command line, the byte that ends it, and any bytes behind. -/
structure ModuleTag where
  modStart : UInt32
  modEnd : UInt32
  cmdline : List UInt8
  rest : List UInt8
  noNul : ∀ byte ∈ cmdline, byte ≠ 0

/-- A tag of any other type than those two and the end tag. -/
structure OtherTag where
  type : UInt32
  payload : List UInt8
  notEnd : type ≠ 0
  notModule : type ≠ 3
  notMmap : type ≠ 6

/-- What a tag is about. -/
inductive TagContent where
  | mmap (tag : MmapTag)
  | module (tag : ModuleTag)
  | other (tag : OtherTag)

namespace TagContent

def type : TagContent → Nat
  | .mmap _ => 6
  | .module _ => 3
  | .other tag => tag.type.toNat

end TagContent

def MmapEntry.encode (entry : MmapEntry) : List UInt8 :=
  leBytes 8 entry.addr.toNat ++ (leBytes 8 entry.len.toNat ++
    (leBytes 4 entry.type.toNat ++ entry.rest))

namespace TagContent

/-- The bytes behind the type and the size. -/
def payload : TagContent → List UInt8
  | .mmap tag =>
      leBytes 4 tag.entrySize.toNat ++ (leBytes 4 tag.entryVersion.toNat ++
        tag.entries.flatMap MmapEntry.encode)
  | .module tag =>
      leBytes 4 tag.modStart.toNat ++ (leBytes 4 tag.modEnd.toNat ++
        (tag.cmdline ++ 0 :: tag.rest))
  | .other tag => tag.payload

/-- The size that the tag records, without the padding. -/
def size (content : TagContent) : Nat := 8 + content.payload.length

end TagContent

/-- A tag with the bytes that pad it to a multiple of 8. -/
structure MultibootTag where
  content : TagContent
  padding : List UInt8
  padded : 8 ∣ content.size + padding.length
  short : padding.length < 8

def MultibootTag.encode (tag : MultibootTag) : List UInt8 :=
  leBytes 4 tag.content.type ++ (leBytes 4 tag.content.size ++
    (tag.content.payload ++ tag.padding))

/-- A whole structure: a header of 8 bytes, and the tags before the end tag. -/
structure MultibootInfo where
  totalSize : UInt32
  reserved : UInt32
  tags : List MultibootTag

/-- The tags, and the end tag behind them. -/
def encodeTags (tags : List MultibootTag) : List UInt8 :=
  tags.flatMap MultibootTag.encode ++ (leBytes 4 0 ++ leBytes 4 8)

def MultibootInfo.encode (info : MultibootInfo) : List UInt8 :=
  leBytes 4 info.totalSize.toNat ++ (leBytes 4 info.reserved.toNat ++
    encodeTags info.tags)

/-! ## What they mean -/

/-- The type that an entry of the memory map stands for. -/
def mappedType : Nat → MemoryRegionType
  | 1 => .available
  | 3 => .reclaimable
  | 4 => .nvs
  | 5 => .badMem
  | _ => .reserved

def MmapEntry.firmwareEntry (entry : MmapEntry) : FirmwareEntry where
  type := mappedType entry.type.toNat
  start := entry.addr.toNat
  stop := (entry.addr + entry.len).toNat

/-- The command line of the kernel, `"sampo-x86_64.bin"`. -/
def kernelCmdline : List UInt8 :=
  [0x73, 0x61, 0x6D, 0x70, 0x6F, 0x2D, 0x78, 0x38, 0x36, 0x5F, 0x36, 0x34,
    0x2E, 0x62, 0x69, 0x6E]

theorem kernelCmdline_noNul : ∀ byte ∈ kernelCmdline, byte ≠ 0 := by
  have checked : kernelCmdline.all (fun byte => byte != 0) = true := by decide
  simpa using checked

namespace MultibootTag

/-- The memory-map entries of a tag. -/
def firmwareEntries (tag : MultibootTag) : List FirmwareEntry :=
  match tag.content with
  | .mmap tag => tag.entries.map MmapEntry.firmwareEntry
  | _ => []

/-- Where the kernel lies, if the tag is about it. -/
def kernelModule (tag : MultibootTag) : Option (Nat × Nat) :=
  match tag.content with
  | .module tag =>
      if tag.cmdline = kernelCmdline then
        some (tag.modStart.toNat, tag.modEnd.toNat)
      else none
  | _ => none

/-- The addresses of consecutive tags, from the first one on. -/
def addresses : Nat → List MultibootTag → List Nat
  | _, [] => []
  | a, tag :: rest => a :: addresses (a + tag.encode.length) rest

end MultibootTag

/-! ## Lengths -/

theorem MmapEntry.length_encode (entry : MmapEntry) :
    entry.encode.length = 20 + entry.rest.length := by
  simp only [encode, List.length_append, length_leBytes]
  omega

/-- The entries of a memory map fill a multiple of the entry size. -/
theorem MmapTag.length_entries {entrySize : Nat} (entries : List MmapEntry)
    (sizes : ∀ entry ∈ entries, 20 + entry.rest.length = entrySize) :
    (entries.flatMap MmapEntry.encode).length = entrySize * entries.length := by
  induction entries with
  | nil => rfl
  | cons entry rest inductionHypothesis =>
      have tail := inductionHypothesis fun other inside =>
        sizes other (List.mem_cons_of_mem _ inside)
      have head := sizes entry (by simp)
      rw [List.flatMap_cons, List.length_append, entry.length_encode, tail, head,
        List.length_cons, Nat.mul_succ, Nat.add_comm]

/-- The recorded size is 16 bytes and the entries, as the format asks. -/
theorem TagContent.size_mmap (tag : MmapTag) :
    (TagContent.mmap tag).size =
      16 + tag.entrySize.toNat * tag.entries.length := by
  simp only [size, payload, List.length_append, length_leBytes,
    MmapTag.length_entries tag.entries tag.sizes]
  omega

namespace MultibootTag

theorem length_encode (tag : MultibootTag) :
    tag.encode.length = tag.content.size + tag.padding.length := by
  simp only [encode, TagContent.size, List.length_append, length_leBytes]
  omega

/-- The next tag follows at the next multiple of 8. -/
theorem length_encode_eq (tag : MultibootTag) :
    tag.encode.length = (tag.content.size + 7) / 8 * 8 := by
  have padded := tag.padded
  have short := tag.short
  rw [length_encode]
  omega

theorem eight_le_size (tag : MultibootTag) : 8 ≤ tag.content.size :=
  Nat.le_add_right 8 _

end MultibootTag

theorem length_encodeTags_cons (tag : MultibootTag) (rest : List MultibootTag) :
    (encodeTags (tag :: rest)).length =
      tag.encode.length + (encodeTags rest).length := by
  simp only [encodeTags, List.flatMap_cons, List.length_append, length_leBytes]
  omega

/-- Every tag takes at least 8 bytes of the structure. -/
theorem tags_length_le (tags : List MultibootTag) :
    8 * tags.length + 8 ≤ (encodeTags tags).length := by
  induction tags with
  | nil => simp [encodeTags]
  | cons tag rest inductionHypothesis =>
      have least := tag.eight_le_size
      rw [length_encodeTags_cons, tag.length_encode, List.length_cons]
      omega

theorem encode_length_le {tags : List MultibootTag} {tag : MultibootTag}
    (inside : tag ∈ tags) : tag.encode.length ≤ (encodeTags tags).length := by
  induction tags with
  | nil => cases inside
  | cons other rest inductionHypothesis =>
      rw [length_encodeTags_cons]
      rcases List.mem_cons.mp inside with rfl | inside
      · exact Nat.le_add_right _ _
      · exact Nat.le_trans (inductionHypothesis inside) (Nat.le_add_left _ _)

end SampoOS.Kickstart
