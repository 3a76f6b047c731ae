import SampoOS.Lib.BubbleSort
import SampoOS.Lib.BitFields
import SampoOS.Lib.ByteMemory
import SampoOS.Bootinfo
import SampoOS.Strings
import SampoOS.StringCompare
import SampoOS.Kickstart.Pmm
import SampoOS.Kickstart.RegionTable
import SampoOS.Kickstart.PmmSpec
import SampoOS.Kickstart.MemoryMap
import SampoOS.Kickstart.PmmRuns
import SampoOS.Kickstart.PmmRelease
import SampoOS.Kickstart.PmmCoalesce
import SampoOS.Kickstart.PmmCommute
import SampoOS.Lib.Paging
import SampoOS.Lib.VirtualMemory
import SampoOS.Kickstart.State
import SampoOS.Lib.PageTree
import SampoOS.Kickstart.Pager
import SampoOS.Kickstart.PagerRefinement
import SampoOS.Kickstart.Elf
import SampoOS.Kickstart.ElfImage
import SampoOS.Kickstart.ElfLoad
import SampoOS.Kickstart.Main
import SampoOS.Kernel.PageWindow
import SampoOS.Kernel.MemoryManager
import SampoOS.Kernel.PagedManager
import SampoOS.Kernel.PagedRefinement
import SampoOS.Kernel.ManagerLayout
import SampoOS.Kernel.KernelEndRun
import SampoOS.Kernel.FreePages
import SampoOS.Kernel.AbsentTables
import SampoOS.Kernel.BitmapAfterInit
import SampoOS.Kernel.BitmapExact
import SampoOS.Handover.PhysmapEntries
import SampoOS.Handover.RegionSizes
import SampoOS.Kickstart.Multiboot
import SampoOS.Kickstart.MultibootDecode
import SampoOS.Kickstart.MultibootBounds
import SampoOS.Kickstart.PagePool
import SampoOS.Kickstart.PagerFailure
import SampoOS.Kickstart.ElfPages
import SampoOS.Kickstart.ElfRun
import SampoOS.Kickstart.SegmentBlock
import SampoOS.Handover.MappingAgreement
import SampoOS.Kickstart.SerialText
import SampoOS.Kickstart.WholeBoot
import SampoOS.Lib.SlottedTree
import SampoOS.Handover.KernelCalls
import SampoOS.Handover.BootinfoMemory
import SampoOS.Kickstart.PageRequests
import SampoOS.Kickstart.SerialLine
import SampoOS.Kernel.PageHistory
import SampoOS.Handover.KernelStart
