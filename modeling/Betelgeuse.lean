import Betelgeuse.HeapList
import Betelgeuse.WordBitmap
import Betelgeuse.RangeList
import Betelgeuse.RangeLoop
import Betelgeuse.Streak
import Betelgeuse.WordArith
import Betelgeuse.VirtualMap
import Betelgeuse.VirtualMapLayout
import Betelgeuse.VirtualMapSearch
import Betelgeuse.VirtualMapCalls
import Betelgeuse.VirtualMapRun
import Betelgeuse.VirtualMapSlots
import Betelgeuse.VirtualMapPlace
import Betelgeuse.VirtualMapExact
import Betelgeuse.VirtualMapAfter
import Betelgeuse.VirtualMapMultiple
import Betelgeuse.VirtualMapBeyond
import Betelgeuse.VirtualMapFailed
import Betelgeuse.VirtualMapCut
import Betelgeuse.VirtualMapFree
import Betelgeuse.VirtualMapFreeMultiple
import Betelgeuse.VirtualMapFreeFull
import Betelgeuse.VirtualMapTop
import Betelgeuse.VirtualMapTopCalls
import Betelgeuse.PhysicalBitmap
import Betelgeuse.PhysicalNames
import Betelgeuse.PhysicalCount
import Betelgeuse.PhysicalFree
import Betelgeuse.PhysicalMultiple
import Betelgeuse.PageTree
import Betelgeuse.SelfLinkedTree
import Betelgeuse.PageWalk
import Betelgeuse.PageLevels
import Betelgeuse.PageGrow
import Betelgeuse.PageTables
import Betelgeuse.PageTableBits
import Betelgeuse.PageMap
import Betelgeuse.PageLarge
import Betelgeuse.PageUnmap
import Betelgeuse.BootBitmap
import Betelgeuse.BootSelect
import Betelgeuse.BootMarking
import Betelgeuse.BootBounds
import Betelgeuse.BootExact
import Betelgeuse.BootLiveData
import Betelgeuse.PageServices
import Betelgeuse.PageFree
import Betelgeuse.PageSingle
import Betelgeuse.PageMultiple
import Betelgeuse.PageFreeMultiple
import Betelgeuse.PageMultipleMaps
import Betelgeuse.PageMapMultiple
import Betelgeuse.AllocatorInit
import Betelgeuse.AllocatorAgreement
import Betelgeuse.UefiMem
import Betelgeuse.PageOffsets
import Betelgeuse.UefiSearch
import Betelgeuse.UefiScan
import Betelgeuse.UefiRelocate
import Betelgeuse.UefiPool
import Betelgeuse.PageMapAgreement
import Betelgeuse.UefiStart
import Betelgeuse.UefiMirror
import Betelgeuse.PageUnmapGuard
import Betelgeuse.UefiPoolSafe
import Betelgeuse.UefiTree
import Betelgeuse.UefiKernel
import Betelgeuse.UefiMapPages
import Betelgeuse.UefiCursor
import Betelgeuse.UefiHandoff
import Betelgeuse.UefiRecursive
import Betelgeuse.Terminal
import Betelgeuse.WhileLoop
import Betelgeuse.DigitList
import Betelgeuse.Printf
import Betelgeuse.PrintfCount
import Betelgeuse.PrintfLoops
import Betelgeuse.PrintfEnds
import Betelgeuse.PrintfTermination
import Betelgeuse.PrintfOutput
import Betelgeuse.PrintfScan
import Betelgeuse.PrintfHex
import Betelgeuse.PrintfSigned
import Betelgeuse.PrintfUnsigned
import Betelgeuse.PrintfBased
import Betelgeuse.PrintfWidth
import Betelgeuse.PrintfParts
import Betelgeuse.MemoryCopy
import Betelgeuse.StringCopy
import Betelgeuse.RepeatedCopy
import Betelgeuse.StringFunctions
import Betelgeuse.LittleEndian
import Betelgeuse.Descriptors
import Betelgeuse.VideoMode
import Betelgeuse.RowMajor
import Betelgeuse.CellColumns
import Betelgeuse.CellGrid
import Betelgeuse.Framebuffer
import Betelgeuse.TerminalHex
import Betelgeuse.FrameLedger
import Betelgeuse.PageRuns
import Betelgeuse.LabelledRuns
import Betelgeuse.PageLeaves
import Betelgeuse.PageSpaces
import Betelgeuse.Serial
import Betelgeuse.PrintfPieces
import Betelgeuse.Console
import Betelgeuse.TileWrites
import Betelgeuse.Screen
import Betelgeuse.FontBuffer
import Betelgeuse.Interrupts
import Betelgeuse.ExceptionReport
import Betelgeuse.ServicePrograms
import Betelgeuse.BootServices
import Betelgeuse.BootProgram
import Betelgeuse.BootProtocol
