/-
The bootloader (`efi_main` in `bootloader/arch/x86_64/uefi_boot.c`).

`ERR` of this file prints the status and goes to `end`, which closes the two folders and
waits for a key; an error there goes to `end` again.  The folders' handles are not set before
they have been opened, and closing one that is not set is undefined.
-/
import Betelgeuse.BootServices
import Betelgeuse.LittleEndian

open LittleEndian ServicePrograms

namespace Betelgeuse.BootProgram

/-- `boot_folder_handle` and `resource_folder_handle`, when they are set. -/
structure Folders where
  boot : Option UInt64
  resource : Option UInt64

/-- How `efi_main` is left before its last line. -/
inductive Exit where
  | goEnd (folders : Folders)
  | status (status : EfiStatus)

/-- What `ERR` prints. -/
def printError (status : EfiStatus) : Boot Unit := do
  let _ ← printHex64 (wide "Error: 0x") status
  let _ ← print (wide "\n\r")
  return

/-- `ERR`. -/
def err (folders : Folders) (status : EfiStatus) : ExceptT Exit Boot Unit :=
  if EfiStatus.isError status then do
    printError status
    throw (.goEnd folders)
  else pure ()

/-- `ERR` behind a function that can be left with an error. -/
def errOf {A : Type} (folders : Folders) (p : ExceptT EfiStatus Boot A) :
    ExceptT Exit Boot A := do
  match ← p.run with
  | .ok a => return a
  | .error status => do
    printError status
    throw (.goEnd folders)

/-- `EFI_FILE_MODE_READ`. -/
def efiFileModeRead : UInt64 := 1

/-! ### The sections -/

/-- The test for 64 bits, which always succeeds, is left out. -/
def setUp : ExceptT Exit Boot Unit := do
  err ⟨none, none⟩ (← firmware .setWatchdogTimer)
  err ⟨none, none⟩ (← firmware (.setTextMode 2))
  err ⟨none, none⟩ (← firmware .clearScreen)
  err ⟨none, none⟩ (← print (wide "Hello, UEFI World!\n\r"))
  err ⟨none, none⟩ (← firmware .resetInput)

/-- The folders; a call that fails sets no handle. -/
def openFolders : ExceptT Exit Boot (UInt64 × UInt64) := do
  match ← (fileOpen (wide "boot") efiFileModeRead).run with
  | .error (status, file) => do
    printError status
    throw (.goEnd ⟨file, none⟩)
  | .ok boot => do
    let _ ← print (wide "Opened /boot\n\r")
    let (status, resource) ← fileOpenEx boot (wide "resources") efiFileModeRead
    err ⟨some boot, none⟩ status
    let _ ← print (wide "Opened /boot/resources\n\r")
    return (boot, resource)

/-- The configuration is printed and given back. -/
def readConfig (folders : Folders) (resource : UInt64) : ExceptT Exit Boot Unit := do
  let (status, configHandle) ← fileOpenEx resource (wide "boot.cfg") efiFileModeRead
  err folders status
  let _ ← print (wide "Opened /boot/resources/boot.cfg\n\r")
  let config ← errOf folders (fileRead configHandle)
  err folders (← fileClose configHandle)
  err folders (← printlnChar config.contents config.size)
  err folders (← firmware (.freePages config.addr config.pages))

/-- A message in front of a `return`. -/
def refuse {A : Type} (folders : Folders) (message : String) (result : EfiStatus) :
    ExceptT Exit Boot A := do
  err folders (← print (wide message))
  throw (.status result)

/-- `PSF2_MAGIC_OK`. -/
def psf2MagicOk (x : ℕ → UInt8) : Bool :=
  x 0 == 0x72 && x 1 == 0xb5 && x 2 == 0x4a && x 3 == 0x86

/-- `psf_buf` behind `memcpy`. -/
def psfBuf (contents : ℕ → UInt8) (size : UInt64) : ℕ → UInt8 := fun n =>
  if n < size.toNat then contents n else 0

/-- The font goes to `psf_buf`, which has 0x8000 bytes. -/
def readFont (folders : Folders) (resource : UInt64) : ExceptT Exit Boot Unit := do
  let (status, fontHandle) ← fileOpenEx resource (wide "aply16.psf") efiFileModeRead
  err folders status
  let font ← errOf folders (fileRead fontHandle)
  err folders (← fileClose fontHandle)
  if ¬ psf2MagicOk font.contents then
    refuse folders "Invalid PSF2 file, exiting!\n\r" efiInvalidParameter
  else if 0x8000 / 0x1000 < font.pages then do
    let _ ← print (wide "PSF file is too large (>32768 bytes)\n\r")
    throw (.status efiBufferTooSmall)
  else if 0x8000 < font.size then (Prog.stop : Boot Unit)
  else if ¬ psf2MagicOk (psfBuf font.contents font.size) then
    refuse folders "Copy failed!\n\r" efiInvalidParameter
  else do
    err folders (← firmware (.freePages font.addr font.pages))
    let _ ← print (wide "Done font!\n\r")
    return

/-- `elf_header`, as far as it is checked and counts the program headers. -/
def elfHeader (image : ℕ → UInt8) : Elf64Header where
  magicChars := fun i => image i
  identClass := image 4
  machine := UInt16.ofNat (load image 18 2)
  progHeaderEntryNum := UInt16.ofNat (load image 56 2)

/-- `elf_header->entry_addr`. -/
def entryAddr (image : ℕ → UInt8) : UInt64 := UInt64.ofNat (load image 24 8)

/-- The entry of the program header table at an address. -/
def programTableEntry (image : ℕ → UInt8) (p : ℕ) : Elf64ProgramTableEntry where
  type := UInt32.ofNat (load image p 4)
  offset := UInt64.ofNat (load image (p + 8) 8)
  vaddr := UInt64.ofNat (load image (p + 16) 8)
  filesize := UInt64.ofNat (load image (p + 32) 8)
  memsize := UInt64.ofNat (load image (p + 40) 8)

/-- `program_table_entries`. -/
def programTableEntries (image : ℕ → UInt8) : List Elf64ProgramTableEntry :=
  (List.range (elfHeader image).progHeaderEntryNum.toNat).map fun i =>
    programTableEntry image (load image 32 8 + 56 * i)

/-- The kernel's image, and the checks of its header. -/
def readKernel (folders : Folders) (boot : UInt64) : ExceptT Exit Boot FileBuffer := do
  let (status, kernelHandle) ← fileOpenEx boot (wide "betelgeuse.kernel") efiFileModeRead
  err folders status
  let kernel ← errOf folders (fileRead kernelHandle)
  err folders (← fileClose kernelHandle)
  let header := elfHeader kernel.contents
  if ¬ elfMagicOk header.magicChars then
    refuse folders "Invalid ELF file, exiting!\n\r" efiInvalidParameter
  else if header.identClass ≠ 0x02 then
    refuse folders "Invalid ELF64 file (elf_header->ident.class), exiting!\n\r"
      efiInvalidParameter
  else if header.machine ≠ 0x3E then
    refuse folders "Invalid ELF64 file (elf_header->machine), exiting!\n\r" efiInvalidParameter
  else do
    let _ ← print (wide "Done kernel!\n\r")
    return kernel

/-- The graphics protocol is taken from the second handle. -/
def findGraphics (folders : Folders) : ExceptT Exit Boot UInt64 := do
  let (status, _, gopHandles) ← firmware (.locateHandleBuffer .graphicsOutput)
  err folders status
  match gopHandles[1]? with
  | none => (Prog.stop : Boot UInt64)
  | some handle => do
    let (status, graphicsOutput) ← firmware (.handleProtocol handle .graphicsOutput)
    err folders status
    let _ ← print (wide "Done find graphics protocol!\n\r")
    return graphicsOutput

/-- `QueryMode`, and once more for a buffer that is too small: the information's buffer and
the information. -/
def queryMode (folders : Folders) (gop : UInt64) (i : ℕ) :
    ExceptT Exit Boot (UInt64 × VideoMode.ModeInformation) := do
  let (status, modeSize, modeInfo, mode) ← firmware (.queryMode gop i)
  if status = efiBufferTooSmall then do
    let (status, _) ← firmware (.allocatePool modeSize)
    err folders status
    let (status, _, modeInfo, mode) ← firmware (.queryMode gop i)
    err folders status
    return (modeInfo, mode)
  else do
    err folders status
    return (modeInfo, mode)

/-- The lines for a mode that is 0x500 wide. -/
def printMode (i : ℕ) (mode : VideoMode.ModeInformation) : Boot Unit := do
  let _ ← printHex64 (wide "Mode index: 0x") (UInt64.ofNat i)
  let _ ← printHex64 (wide ", Width: 0x") mode.horizontalResolution.toUInt64
  let _ ← printHex64 (wide ", Height: 0x") mode.verticalResolution.toUInt64
  let _ ← print (wide "\n\r")
  return

/-- The rounds from `i` on, `n` of them. -/
def searchModes (folders : Folders) (gop : UInt64) :
    ℕ → ℕ → VideoMode.Search → ExceptT Exit Boot VideoMode.Search
  | 0, _, search => return search
  | n + 1, i, search => do
    let (modeInfo, mode) ← queryMode folders gop i
    if mode.horizontalResolution = 0x500 then printMode i mode else pure ()
    err folders (← firmware (.freePool modeInfo))
    searchModes folders gop n (i + 1) (search.noteMode i mode)

/-- The search for the mode, which is set.  The number of modes is taken not to change. -/
def setGraphics (folders : Folders) (gop entryAddr : UInt64) :
    ExceptT Exit Boot (VideoMode.GraphicsMode × GopMode) := do
  let gopMode ← firmware (.graphicsMode gop)
  let noMode := (gopMode.maxMode + 1).toUInt64
  let search ← searchModes folders gop gopMode.maxMode.toNat 0 ⟨noMode, ⟨0, 0, 0⟩⟩
  if search.res1280x720 = noMode then do
    let _ ← print (wide "Error: 1280x720 resolution not supported!")
    throw (.status efiUnsupported)
  else do
    let _ ← firmware (.setGraphicsMode gop search.res1280x720)
    err folders (← firmware (.setTextMode 2))
    err folders (← firmware .clearScreen)
    let _ ← print (wide "Changed resolution!\n\r")
    let gopMode ← firmware (.graphicsMode gop)
    err folders (← printHex64 (wide "Framebuffer base: 0x") gopMode.frameBufferBase)
    let _ ← print (wide "\n\r")
    err folders (← printHex64 (wide "Kernel entry address: 0x") entryAddr)
    let _ ← print (wide "\n\r")
    err folders (← firmware .clearScreen)
    return (search.graphicsMode, gopMode)

/-- The memory map, whose descriptors are counted, and the end of the boot services. -/
def exitBootServices (folders : Folders) : ExceptT Exit Boot MemoryMapInfo := do
  let (status, memoryMap) ← firmware .getMemoryMap
  if status ≠ efiSuccess then do
    err folders (← print (wide "Failed to retrieve memory map!\n\r"))
    err folders status
  else pure ()
  if memoryMap.descSize = 0 then (Prog.stop : Boot MemoryMapInfo)
  else do
    err folders (← firmware (.exitBootServices memoryMap.mapKey))
    return memoryMap

/-- The two fields of the boot table that a round sets if they are still zero. -/
def noteSegment (table : LoaderTable) (g : Segment) : LoaderTable :=
  { table with
    kernelStartPointer :=
      if table.kernelStartPointer = 0 then g.baseAddr else table.kernelStartPointer
    kernelPageCount := if table.kernelPageCount = 0 then g.pages else table.kernelPageCount }

/-- The rounds that map the segments.  `map_pages` returns no value, so that its status can be
anything. -/
def mapSegments : List Segment → LoaderTable → ExceptT Exit Boot LoaderTable
  | [], table => return table
  | g :: segments, table => do
    let status ← firmware (.mapPages g)
    if EfiStatus.isError status then do
      firmware (.reportMappingError status)
      throw (.status status)
    else mapSegments segments (noteSegment table g)

/-- The mapping, and the call of the kernel. -/
def launch (folders : Folders) (kernel : FileBuffer) (memoryMap : MemoryMapInfo)
    (graphicsMode : VideoMode.GraphicsMode) (gopMode : GopMode) : ExceptT Exit Boot Unit := do
  let (status, mappingBase) ← firmware (.initVirtualMapping .mapAll)
  err folders status
  let (pml4Pointer, usedMappingPageCount) ← firmware .getMappingPointersAndCount
  let table ← mapSegments
    (kernelSegments kernel.addr kernel.size (programTableEntries kernel.contents))
    { memDescSize := memoryMap.descSize
      memDescCount := memoryMap.mapSize / memoryMap.descSize
      mappingBase := mappingBase
      kernelStartPointer := 0
      kernelPageCount := 0
      pml4Pointer := pml4Pointer
      usedMappingPageCount := usedMappingPageCount
      graphicsMode := graphicsMode
      framebufferBase := gopMode.frameBufferBase
      framebufferSize := gopMode.frameBufferSize }
  let _ ← firmware (.kmain (entryAddr kernel.contents) table)
  return

/-- Up to the call of the kernel. -/
def efiMainBody : ExceptT Exit Boot Unit := do
  setUp
  let (boot, resource) ← openFolders
  let folders : Folders := ⟨some boot, some resource⟩
  readConfig folders resource
  readFont folders resource
  let kernel ← readKernel folders boot
  let gop ← findGraphics folders
  let (graphicsMode, gopMode) ← setGraphics folders gop (entryAddr kernel.contents)
  let memoryMap ← exitBootServices folders
  launch folders kernel memoryMap graphicsMode gopMode

/-! ### `end` -/

/-- `file_close` of a folder. -/
def closeFolder : Option UInt64 → Boot EfiStatus
  | none => .stop
  | some file => fileClose file

/-- The loop that waits for a key, for some rounds. -/
def waitForKey : ℕ → Boot EfiStatus
  | 0 => .stop
  | fuel + 1 => do
    let status : EfiStatus ← firmware .readKeyStroke
    if status = efiNotReady then waitForKey fuel else return status

/-- From `end` on; an error is the status of an `ERR`. -/
def endOnce (folders : Folders) (fuel : ℕ) : ExceptT EfiStatus Boot Unit := do
  errReturn id (← closeFolder folders.boot)
  errReturn id (← closeFolder folders.resource)
  errReturn id (← print (wide "Application End!\n\r"))
  errReturn id (← waitForKey fuel)

/-- From `end` on, with the jumps back to it. -/
def efiEnd (folders : Folders) : ℕ → Boot EfiStatus
  | 0 => .stop
  | fuel + 1 => do
    match ← (endOnce folders fuel).run with
    | .ok () => return efiSuccess
    | .error status => do
      printError status
      efiEnd folders fuel

/-- `efi_main`. -/
def efiMain (fuel : ℕ) : Boot EfiStatus := do
  match ← efiMainBody.run with
  | .ok () => return efiSuccess
  | .error (.status status) => return status
  | .error (.goEnd folders) => efiEnd folders fuel

end Betelgeuse.BootProgram
