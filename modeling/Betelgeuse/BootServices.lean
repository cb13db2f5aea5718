/-
Files and text with the boot services (`uefi_file.c` and `uefi_print.c` in
`bootloader/arch/x86_64`).

The firmware is what answers the calls: every answer of the right type is possible.  The
calls of `efi_main` that are none of the firmware's, to the functions of `uefi_mem.c`, to the
terminal and to the kernel, are recorded in the same way.
-/
import Betelgeuse.ServicePrograms
import Betelgeuse.TerminalHex
import Betelgeuse.UefiKernel
import Betelgeuse.VideoMode

open ServicePrograms

namespace Betelgeuse

/-- `efi_status`. -/
abbrev EfiStatus := UInt64

/-- `EFI_ERROR`: the highest bit is set. -/
def EfiStatus.isError (status : EfiStatus) : Bool := status >>> 63 != 0

def efiSuccess : EfiStatus := 0
def efiInvalidParameter : EfiStatus := 0x8000000000000002
def efiUnsupported : EfiStatus := 0x8000000000000003
def efiBufferTooSmall : EfiStatus := 0x8000000000000005
def efiNotReady : EfiStatus := 0x8000000000000006
def efiNotFound : EfiStatus := 0x800000000000000E

/-- The protocols that are looked up. -/
inductive Protocol where
  | simpleFileSystem
  | graphicsOutput
  deriving DecidableEq

/-- A `u"..."` text. -/
def wide (s : String) : List UInt16 := s.toList.map fun c => UInt16.ofNat c.toNat

/-- `boot_table`, without the addresses of the two buffers that `efi_main` has for the memory
map and the font. -/
structure LoaderTable where
  memDescSize : UInt64
  memDescCount : UInt64
  mappingBase : UInt64
  kernelStartPointer : UInt64
  kernelPageCount : UInt64
  pml4Pointer : UInt64
  usedMappingPageCount : UInt64
  graphicsMode : VideoMode.GraphicsMode
  framebufferBase : UInt64
  framebufferSize : UInt64

/-- What `efi_main` and its helpers call. -/
inductive BootCall where
  | setWatchdogTimer
  | setTextMode (mode : UInt64)
  | clearScreen
  | outputString (text : List UInt16)
  | resetInput
  | readKeyStroke
  | locateHandleBuffer (protocol : Protocol)
  | handleProtocol (handle : UInt64) (protocol : Protocol)
  | openVolume (fs : UInt64)
  | openFile (root : UInt64) (filename : List UInt16) (mode : UInt64)
  | closeFile (file : UInt64)
  | getInfo (file buffer : UInt64)
  | readFile (file size buffer : UInt64)
  | allocatePool (size : UInt64)
  | freePool (buffer : UInt64)
  | allocatePages (pages : UInt64)
  | freePages (memory pages : UInt64)
  | queryMode (gop : UInt64) (mode : ℕ)
  | setGraphicsMode (gop mode : UInt64)
  | getMemoryMap
  | exitBootServices (key : UInt64)
  | graphicsMode (gop : UInt64)
  | initVirtualMapping (mappingType : MappingType)
  | getMappingPointersAndCount
  | mapPages (segment : Segment)
  | reportMappingError (status : EfiStatus)
  | kmain (entryAddr : UInt64) (bootTable : LoaderTable)

/-- `finfo->FileSize` with the size of the information itself. -/
structure FileInfo where
  infoSize : UInt64
  fileSize : UInt64

/-- `graphics_output->Mode`. -/
structure GopMode where
  maxMode : UInt32
  frameBufferBase : UInt64
  frameBufferSize : UInt64

/-- What `GetMemoryMap` stores. -/
structure MemoryMapInfo where
  mapSize : UInt64
  mapKey : UInt64
  descSize : UInt64

/-- The answers; a buffer has an address, and its contents are given with it. -/
def Answer : BootCall → Type
  | .locateHandleBuffer _ => EfiStatus × UInt64 × List UInt64
  | .handleProtocol _ _ | .openVolume _ | .openFile _ _ _ => EfiStatus × UInt64
  | .getInfo _ _ => EfiStatus × FileInfo
  | .readFile _ _ _ => EfiStatus × UInt64 × (ℕ → UInt8)
  | .allocatePool _ | .allocatePages _ => EfiStatus × UInt64
  | .queryMode _ _ => EfiStatus × UInt64 × UInt64 × VideoMode.ModeInformation
  | .getMemoryMap => EfiStatus × MemoryMapInfo
  | .graphicsMode _ => GopMode
  | .initVirtualMapping _ => EfiStatus × UInt64
  | .getMappingPointersAndCount => UInt64 × UInt64
  | .reportMappingError _ => Unit
  | .kmain _ _ => UInt64
  | _ => EfiStatus

/-- A program of the bootloader. -/
abbrev Boot := Prog Answer

/-- A call of the firmware. -/
def firmware (c : BootCall) : Boot (Answer c) := Prog.request c

/-! ### Text -/

/-- `print`. -/
def print (text : List UInt16) : Boot EfiStatus := firmware (.outputString text)

/-- `hex64outstr` behind the loop. -/
def hex64outstr (val : UInt64) : List UInt16 :=
  (fillHex64 val (List.replicate 16 48)).map UInt8.toUInt16

/-- `print_hex64`. -/
def printHex64 (text : List UInt16) (val : UInt64) : Boot EfiStatus := do
  let status ← print text
  if EfiStatus.isError status then return status
  print (hex64outstr val)

/-- `println_char`, whose buffer has room for 1024 characters with the one at the end. -/
def printlnChar (contents : ℕ → UInt8) (length : UInt64) : Boot EfiStatus :=
  if 1024 ≤ length.toNat then .stop
  else do
    let text := ((List.range length.toNat).map contents).takeWhile (· ≠ 0)
    let status ← print (text.map fun c => c.toInt8.toInt16.toUInt16)
    if EfiStatus.isError status then return status
    print (wide "\n\r")

/-! ### Files -/

/-- `ERR` of `common.h`, which leaves the function. -/
def errReturn {ε : Type} (result : EfiStatus → ε) (status : EfiStatus) : ExceptT ε Boot Unit :=
  if EfiStatus.isError status then throw (result status) else pure ()

/-- The loop of `file_open` over the handles.  An error comes with the handle that has been
stored by then. -/
def fileOpenLoop (filename : List UInt16) (mode : UInt64) :
    List UInt64 → ExceptT (EfiStatus × Option UInt64) Boot UInt64
  | [] => throw (efiNotFound, none)
  | handle :: handles => do
    let (status, fs) ← firmware (.handleProtocol handle .simpleFileSystem)
    errReturn (·, none) status
    let (status, root) ← firmware (.openVolume fs)
    errReturn (·, none) status
    let (status, file) ← firmware (.openFile root filename mode)
    if ¬ EfiStatus.isError status then do
      let status ← firmware (.closeFile root)
      errReturn (·, some file) status
      return file
    else do
      let status ← firmware (.closeFile root)
      errReturn (·, none) status
      fileOpenLoop filename mode handles

/-- `file_open`. -/
def fileOpen (filename : List UInt16) (mode : UInt64) :
    ExceptT (EfiStatus × Option UInt64) Boot UInt64 := do
  let (status, _, handles) ← firmware (.locateHandleBuffer .simpleFileSystem)
  errReturn (·, none) status
  fileOpenLoop filename mode handles

/-- `file_open_ex`. -/
def fileOpenEx (root : UInt64) (filename : List UInt16) (mode : UInt64) :
    Boot (EfiStatus × UInt64) :=
  firmware (.openFile root filename mode)

/-- A file in memory. -/
structure FileBuffer where
  addr : UInt64
  size : UInt64
  pages : UInt64
  contents : ℕ → UInt8

/-- `file_read`.  The information has no buffer unless `GetInfo` has asked for one. -/
def fileRead (file : UInt64) : ExceptT EfiStatus Boot FileBuffer := do
  let (status, info) ← firmware (.getInfo file 0)
  if status ≠ efiBufferTooSmall then do
    errReturn id status
    (Prog.stop : Boot FileBuffer)
  else do
    let (status, finfo) ← firmware (.allocatePool info.infoSize)
    errReturn id status
    let (status, info) ← firmware (.getInfo file finfo)
    errReturn id status
    let pages := info.fileSize / 0x1000 + 1
    let (status, addr) ← firmware (.allocatePages pages)
    errReturn id status
    let (status, size, contents) ← firmware (.readFile file info.fileSize addr)
    errReturn id status
    let _ ← firmware (.freePool finfo)
    return ⟨addr, size, pages, contents⟩

/-- `file_close`. -/
def fileClose (file : UInt64) : Boot EfiStatus := firmware (.closeFile file)

end Betelgeuse
