/-
Module: SampoOS.Kickstart.Multiboot
Purpose: The beginning of kickstart_main: the walk over the tags of the
  Multiboot2 information.
Trusted boundary: the result of serial_init and the address of the string
  literal that names the kernel are parameters; the bootloader puts the
  information where pmm_add_region does not write.
Main exports: strcmp, WalkState, walkEntries, visitTag, walkTags,
  kickstartWalk, kickstartMain
-/
import SampoOS.Kickstart.Main

namespace SampoOS.Kickstart

open ByteMemory (Memory loadLe)

/-! ## strcmp -/

/-- `strcmp`; the loop runs as long as there is fuel. -/
def strcmp (m : Memory) : Nat → Nat → Nat → Option Int
  | 0, _, _ => none
  | fuel + 1, a, b =>
      if m a = m b then
        if m a = 0 then some 0
        else strcmp m fuel ((a + 1) % 2 ^ 32) ((b + 1) % 2 ^ 32)
      else
        -- `b` has been moved on already, and is moved back.
        some ((m a).toNat - (m b).toNat)

/-! ## multiboot2.h -/

/-- `MULTIBOOT2_BOOTLOADER_MAGIC`. -/
def multiboot2BootloaderMagic : Nat := 0x36d76289

/-- `MULTIBOOT_TAG_TYPE_END`. -/
def multibootTagTypeEnd : Nat := 0

/-- `MULTIBOOT_TAG_TYPE_MODULE`. -/
def multibootTagTypeModule : Nat := 3

/-- `MULTIBOOT_TAG_TYPE_MMAP`. -/
def multibootTagTypeMmap : Nat := 6

/-- `MULTIBOOT_TAG_TYPE_FRAMEBUFFER`. -/
def multibootTagTypeFramebuffer : Nat := 8

/-- `MULTIBOOT_MEMORY_AVAILABLE`. -/
def multibootMemoryAvailable : Nat := 1

/-- `MULTIBOOT_MEMORY_ACPI_RECLAIMABLE`. -/
def multibootMemoryAcpiReclaimable : Nat := 3

/-- `MULTIBOOT_MEMORY_NVS`. -/
def multibootMemoryNvs : Nat := 4

/-- `MULTIBOOT_MEMORY_BADRAM`. -/
def multibootMemoryBadram : Nat := 5

/-! ## The walk -/

/-- What the walk works on.  `memoryRegions` is missing once an entry was
written behind the end of the array.  `visited` and `addCalls` are history
variables that no code reads: the tags that the walk has stood at, and the calls
of `pmm_add_region`. -/
structure WalkState where
  memory : Memory
  serial : List (String × List Nat)
  memoryRegions : Option RegionTable
  kernelElfLocation : Nat
  kernelElfEnd : Nat
  foundKernel : Bool
  visited : List Nat
  addCalls : List FirmwareEntry

namespace WalkState

/-- A field of `n` bytes of the structure that a pointer points to. -/
def field (s : WalkState) (pointer offset n : Nat) : Nat :=
  loadLe s.memory ((pointer + offset) % 2 ^ 32) n

/-- `serial_printf`, before the numbers are formatted. -/
def print (format : String) (arguments : List Nat) (s : WalkState) : WalkState :=
  { s with serial := s.serial ++ [(format, arguments)] }

/-- The walk stands at a tag. -/
def stand (tag : Nat) (s : WalkState) : WalkState :=
  { s with visited := s.visited ++ [tag] }

/-- The module that was found to be the kernel. -/
def kernelElf (s : WalkState) : Option (Nat × Nat) :=
  if s.foundKernel then some (s.kernelElfLocation, s.kernelElfEnd) else none

end WalkState

/-- The `switch` over the type of an entry of the memory map. -/
def regionTypeOf (type : Nat) : MemoryRegionType :=
  if type = multibootMemoryAvailable then .available
  else if type = multibootMemoryAcpiReclaimable then .reclaimable
  else if type = multibootMemoryNvs then .nvs
  else if type = multibootMemoryBadram then .badMem
  else .reserved

/-- The body of the loop over the entries: one call of `pmm_add_region`. -/
def addEntry (entry : Nat) (s : WalkState) : WalkState :=
  let regionType := regionTypeOf (s.field entry 16 4)
  let startAddr := s.field entry 0 8
  let endAddr := (s.field entry 0 8 + s.field entry 8 8) % 2 ^ 64
  { s with
    memoryRegions := s.memoryRegions.bind fun table =>
      pmmAddRegion table regionType startAddr endAddr
    addCalls := s.addCalls ++
      [{ type := regionType, start := startAddr, stop := endAddr }] }

/-- The loop over the entries of a memory map, from `entry` on. -/
def walkEntries (mmapTag : Nat) : Nat → Nat → WalkState → Option WalkState
  | 0, _, _ => none
  | fuel + 1, entry, s =>
      if entry < (mmapTag + s.field mmapTag 4 4) % 2 ^ 32 then
        walkEntries mmapTag fuel ((entry + s.field mmapTag 8 4) % 2 ^ 32)
          (addEntry entry s)
      else some s

/-- What is printed about a framebuffer. -/
def printFramebuffer (tag : Nat) (s : WalkState) : WalkState :=
  let s := s.print "Has framebuffer\n" []
  let framebufferType := s.field tag 29 1
  let s := s.print
    (if framebufferType = 0 then "\tType - indexed color\n"
    else if framebufferType = 1 then "\tType - RGB color\n"
    else if framebufferType = 2 then "\tType - Text mode\n"
    else "\tType - unknown\n") []
  let s := s.print "\tWidth - %u\n" [s.field tag 20 4]
  let s := s.print "\tHeight - %u\n" [s.field tag 24 4]
  let s := s.print "\tBits per pixel - %u\n" [s.field tag 28 1]
  let s := s.print "\tPitch - %u\n" [s.field tag 16 4]
  let address := s.field tag 8 8
  s.print "\tAddress - 0x%x%x\n"
    [(address >>> 32) % 2 ^ 32, address &&& 0xFFFFFFFF]

/-- What is printed about a module. -/
def printModule (tag : Nat) (s : WalkState) : WalkState :=
  let modStart := s.field tag 8 4
  let modEnd := s.field tag 12 4
  let s := s.print "Has module\n" []
  let s := s.print "\tLocation - 0x%x\n" [modStart]
  let s := s.print "\tLength - 0x%x\n" [(modEnd + (2 ^ 32 - modStart)) % 2 ^ 32]
  s.print "\tCommand line - %s\n" [(tag + 16) % 2 ^ 32]

/-- The module turns out to be the kernel. -/
def takeKernel (tag : Nat) (s : WalkState) : WalkState :=
  { s.print "\tModule was kernel!\n" [] with
    kernelElfLocation := s.field tag 8 4
    kernelElfEnd := s.field tag 12 4
    foundKernel := true }

/-- The branch for a module: it is the kernel if its command line is the string
at `kernelName`. -/
def visitModule (kernelName fuel tag : Nat) (s : WalkState) : Option WalkState :=
  let s := printModule tag s
  (strcmp s.memory fuel ((tag + 16) % 2 ^ 32) kernelName).map fun order =>
    if order = 0 then takeKernel tag s else s

/-- The body of the loop over the tags. -/
def visitTag (kernelName fuel tag : Nat) (s : WalkState) : Option WalkState :=
  let s := s.stand tag
  if s.field tag 0 4 = multibootTagTypeMmap then
    walkEntries tag fuel ((tag + 16) % 2 ^ 32) s
  else if s.field tag 0 4 = multibootTagTypeFramebuffer then
    some (printFramebuffer tag s)
  else if s.field tag 0 4 = multibootTagTypeModule then
    visitModule kernelName fuel tag s
  else some s

/-- The loop over the tags; each turn may use `limit` steps of its own. -/
def walkTags (kernelName limit : Nat) : Nat → Nat → WalkState → Option WalkState
  | 0, _, _ => none
  | fuel + 1, tag, s =>
      if s.field tag 0 4 = multibootTagTypeEnd then some s
      else
        (visitTag kernelName limit tag s).bind fun s =>
          walkTags kernelName limit fuel
            ((tag + BitFields.alignUp 32 3 (s.field tag 4 4)) % 2 ^ 32) s

/-- The static variables when the walk begins. -/
def startWalk (s : KickstartState) : WalkState where
  memory := s.memory
  serial := s.serial
  memoryRegions := some s.memoryRegions
  kernelElfLocation := 0
  kernelElfEnd := 0
  foundKernel := false
  visited := []
  addCalls := []

/-- The walk over the information at `addr`, with fuel for each loop. -/
def kickstartWalk (kernelName fuel addr : Nat) (s : KickstartState) :
    Option WalkState :=
  walkTags kernelName fuel fuel ((addr + 8) % 2 ^ 32) (startWalk s)

/-- `kickstart_main`.  It has no result if the walk does not end, or if the
region table overflows. -/
def kickstartMain (kickstartStart kickstartEnd kernelName fuel : Nat)
    (serialInit hasLongmode : Bool) (bootinfo : SampoBootinfo)
    (addr magic : Nat) (s : KickstartState) :
    Option (Option SampoBootinfo × KickstartState) :=
  if magic ≠ multiboot2BootloaderMagic then some (none, s)
  else if serialInit = false then some (none, s)
  else
    let s := serialWrite "Multiboot magic successful\n" s
    let freeStartAddr := BitFields.alignUp 64 12 kickstartEnd
    let s := serialPrintf "First free page after Kickstart: 0x%x%x\n"
      [(freeStartAddr >>> 32) % 2 ^ 32, freeStartAddr &&& 0xFFFFFFFF] s
    (kickstartWalk kernelName fuel addr s).bind fun walked =>
      walked.memoryRegions.bind fun memoryRegions =>
        kickstartBoot kickstartStart kickstartEnd hasLongmode walked.kernelElf
          bootinfo
          { s with memoryRegions := memoryRegions, serial := walked.serial }

end SampoOS.Kickstart
