/-
The bootloader's page tables (`bootloader/arch/x86_64/uefi_mem.c`), and the part
of `efi_main` that hands them over to the kernel.

`init_virtual_mapping` moves the firmware's tables into free memory: it copies the
whole descriptor that holds them, relocates the links of the two upper levels, and
takes new tables from the page behind the highest entry in use.  `map_page` adds
pages to the moved tables.  Physical memory is mapped one to one here, so that a
pointer is the address of a word; all words are read at multiples of 8, and the
bytes of the old tables are copied word by word.

What `terminal_writestring` prints is left out, and so is the write to cr3: the
old value is an argument, and the new one is computed as in the source.  The shift of
`510 << PML4_OFFSET` is read as one of a 64-bit value.
-/
import Betelgeuse.BootBitmap
import Betelgeuse.PageTables

namespace Betelgeuse

/-- The bootloader's `efi_memory_descriptor`, as far as it is read. -/
structure UefiDescriptor extends EfiMemoryDescriptor where
  attributes : UInt64
  deriving DecidableEq

/-- `enum mapping_type`. -/
inductive MappingType where
  | none
  | mapAll
  | recursive
  deriving DecidableEq

/-- `EFI_NOT_FOUND`, `EFI_BUFFER_TOO_SMALL`, or a descriptor outside the memory map
is read. -/
inductive InitError where
  | notFound
  | bufferTooSmall
  | undefined
  deriving DecidableEq

/-- Memory, and the static variables of `uefi_mem.c`. -/
structure Mapping where
  mem : UInt64 → UInt64
  pml4Pointer : UInt64
  nextAvailableMappingPage : UInt64
  availableMappingPageCount : UInt64
  mappingBaseAddress : UInt64

/-- `OFFSETS_TO_ADDR`. -/
def offsetsToAddr (pml4 pdp pd pt : UInt64) : UInt64 :=
  ((if pml4 &&& 0x100 ≠ 0 then (0xffff : UInt64) else 0) <<< 48) ||| (pml4 <<< 39) |||
    (pdp <<< 30) |||
    (pd <<< 21) ||| (pt <<< 12)

/-- `old_addr_to_new_map`. -/
def oldAddrToNewMap (newMap oldMap x : UInt64) : UInt64 := newMap + (x - oldMap)

/-! ### The search in the memory map -/

/-- The descriptor in front of the first one that starts above cr3. -/
def findTables (memMap : List UefiDescriptor) (cr3 : UInt64) : Except InitError UefiDescriptor :=
  match memMap.findIdx? fun d => d.physicalStart > cr3 with
  | some 0 => .error .undefined
  | some (i + 1) =>
    match memMap[i]? with
    | some d => .ok d
    | none => .error .undefined
  | none => if memMap = [] then .error .undefined else .error .notFound

/-- The first free descriptor with room for the tables. -/
def findFree (memMap : List UefiDescriptor) (pml4PageCount : UInt64) : Except InitError ℕ :=
  match memMap.findIdx? fun d => d.numberOfPages ≥ pml4PageCount ∧ d.type = 0x7 ∧
      d.attributes &&& 0x8000000000000000 = 0 with
  | some i => .ok i
  | none => .error .bufferTooSmall

/-! ### Moving the tables -/

/-- The loop that copies `words` words. -/
def copyMap (newMap oldMap : UInt64) (words : ℕ) (mem : UInt64 → UInt64) : UInt64 → UInt64 :=
  (List.range words).foldl (fun mem i => Function.update mem (newMap + 8 * UInt64.ofNat i)
    (mem (oldMap + 8 * UInt64.ofNat i))) mem

/-- Memory and `highest_addr`. -/
structure Scan where
  mem : UInt64 → UInt64
  highestAddr : UInt64

namespace Scan

/-- `if (addr > highest_addr) highest_addr = addr`. -/
def visit (s : Scan) (addr : UInt64) : Scan :=
  if addr > s.highestAddr then { s with highestAddr := addr } else s

/-- Relocate the link in one entry. -/
def relocate (s : Scan) (newMap oldMap addr : UInt64) : Scan :=
  let tempAddr := oldAddrToNewMap newMap oldMap (s.mem addr &&& addrMask)
  let s := { s with mem := Function.update s.mem addr (s.mem addr &&& ~~~addrMask) }
  { s with mem := Function.update s.mem addr (s.mem addr ||| tempAddr) }

/-- The loop over a page directory. -/
def pdLoop (s : Scan) (pd : UInt64) : Scan :=
  (List.range 512).foldl (fun s k =>
    let addr := pd + 8 * UInt64.ofNat k
    if s.mem addr &&& presentFlag ≠ 0 then s.visit addr else s) s

/-- One round of the loop over a PDP. -/
def pdpStep (newMap oldMap pdp : UInt64) (s : Scan) (j : ℕ) : Scan :=
  let addr := pdp + 8 * UInt64.ofNat j
  if s.mem addr &&& presentFlag ≠ 0 then
    let s := s.visit addr
    if s.mem addr &&& pageSizeFlag = 0 then
      let s := s.relocate newMap oldMap addr
      s.pdLoop (s.mem addr &&& addrMask)
    else s
  else s

/-- The loop over a PDP. -/
def pdpLoop (s : Scan) (newMap oldMap pdp : UInt64) : Scan :=
  (List.range 512).foldl (pdpStep newMap oldMap pdp) s

/-- One round of the loop over the PML4. -/
def pml4Step (newMap oldMap pml4 : UInt64) (s : Scan) (i : ℕ) : Scan :=
  let addr := pml4 + 8 * UInt64.ofNat i
  if s.mem addr &&& presentFlag ≠ 0 then
    let s := s.visit addr
    let s := s.relocate newMap oldMap addr
    s.pdpLoop newMap oldMap (s.mem addr &&& addrMask)
  else s

/-- The loop over the PML4. -/
def pml4Loop (s : Scan) (newMap oldMap pml4 : UInt64) : Scan :=
  (List.range 512).foldl (pml4Step newMap oldMap pml4) s

end Scan

/-- "Set the old page tables to R/W": the entry for the page of the old PML4. -/
def setWritable (cr3 oldPml4 : UInt64) (mem : UInt64 → UInt64) : UInt64 → UInt64 :=
  let pml4Pml4 := mem (cr3 + 8 * vaGetPml4Index oldPml4)
  let pml4Pdp := mem ((pml4Pml4 &&& addrMask) + 8 * vaGetPdpIndex oldPml4)
  let pml4Pd := (pml4Pdp &&& addrMask) + 8 * vaGetPdIndex oldPml4
  Function.update mem pml4Pd (mem pml4Pd ||| writableFlag)

/-- The number of PML4 entries in use. -/
def countPresent (pml4 : UInt64) (mem : UInt64 → UInt64) : ℕ :=
  (List.range 512).countP fun i => mem (pml4 + 8 * UInt64.ofNat i) &&& presentFlag ≠ 0

/-- The loop of `MAPPING_TYPE_MAP_ALL`. -/
def mirror (pml4 startIndex : UInt64) (count : ℕ) (mem : UInt64 → UInt64) : UInt64 → UInt64 :=
  (List.range count).foldl (fun mem i =>
    let addr := pml4 + 8 * (UInt64.ofNat i + startIndex)
    let mem := Function.update mem addr (mem (pml4 + 8 * UInt64.ofNat i) &&& addrMask)
    Function.update mem addr (mem addr ||| (presentFlag ||| writableFlag))) mem

/-- The last part of `init_virtual_mapping`: memory and `*mapping_base`. -/
def setUpMapping (mappingType : MappingType) (pml4 pml4Pointer : UInt64)
    (mem : UInt64 → UInt64) : (UInt64 → UInt64) × UInt64 :=
  match mappingType with
  | .recursive =>
    (Function.update mem (pml4 + 8 * 510) (presentFlag ||| writableFlag ||| pml4),
      (510 : UInt64) <<< 39)
  | .mapAll =>
    let count := countPresent pml4Pointer mem
    let startIndex := 511 - UInt64.ofNat count
    (mirror pml4 startIndex count mem, offsetsToAddr startIndex 0 0 0)
  | .none => (mem, 0)

/-- `init_virtual_mapping`: the static variables, the memory map and
`*mapping_base`. -/
def initVirtualMapping (memMap : List UefiDescriptor) (mappingType : MappingType) (cr3 : UInt64)
    (mem : UInt64 → UInt64) : Except InitError (Mapping × List UefiDescriptor × UInt64) := do
  let pml4Addr := cr3 &&& addrMask
  let tables ← findTables memMap cr3
  let oldMap := tables.physicalStart
  let pml4PageCount := tables.numberOfPages
  let mapSize := pml4PageCount <<< 12
  let destIndex ← findFree memMap pml4PageCount
  let memMap := memMap.modify destIndex fun d => { d with type := 0x10 }
  match memMap[destIndex]? with
  | none => .error .undefined
  | some dest =>
    let newMap := dest.physicalStart
    let mem := copyMap newMap oldMap (mapSize.toNat / 8) mem
    let pml4 := newMap + cr3 - oldMap
    let scan := (Scan.mk mem 0).pml4Loop newMap oldMap pml4
    let nextPage := 0x1000 + scan.highestAddr - scan.highestAddr % 0x1000
    let pml4Pointer := newMap + pml4Addr - oldMap
    let newCr3 := (cr3 &&& ~~~addrMask) ||| ((newMap + pml4Addr - oldMap) &&& addrMask)
    let mem := setWritable newCr3 cr3 scan.mem
    let (mem, mappingBase) := setUpMapping mappingType pml4 pml4Pointer mem
    return (
      { mem := mem
        pml4Pointer := pml4Pointer
        nextAvailableMappingPage := nextPage
        availableMappingPageCount := (newMap + pml4PageCount <<< 12 - nextPage) >>> 12
        mappingBaseAddress := newMap }, memMap, mappingBase)

/-! ### Mapping pages -/

namespace Mapping

variable (s : Mapping)

/-- `get_next_available_mapping_page`: the page, and the variables after it. -/
def getNextAvailableMappingPage : UInt64 × Mapping :=
  (s.nextAvailableMappingPage,
    { s with
      nextAvailableMappingPage := s.nextAvailableMappingPage + 0x1000
      availableMappingPageCount := s.availableMappingPageCount - 1 })

/-- `table[index]`. -/
def read (table index : UInt64) : UInt64 := s.mem (table + 8 * index)

/-- `table[index] = v`. -/
def write (table index v : UInt64) : Mapping :=
  { s with mem := Function.update s.mem (table + 8 * index) v }

/-- `for (uint64_t i = 0; i < 0x200; i++) next_page[i] = 0;` -/
def clearPage (nextPage : UInt64) : Mapping :=
  (List.range 0x200).foldl (fun s i => s.write nextPage (UInt64.ofNat i) 0) s

/-- The block that `map_page` has for each of the three upper levels. -/
def linkTable (table index flags : UInt64) : Mapping :=
  if s.read table index &&& presentFlag = 0 then
    let (nextPage, s) := s.getNextAvailableMappingPage
    let s := s.clearPage nextPage
    let s := s.write table index flags
    s.write table index (s.read table index ||| nextPage)
  else s

/-- `map_page`; `false` for `EFI_INVALID_PARAMETER`. -/
def mapPage (physAddr vaAddr : UInt64) : Bool × Mapping :=
  let pml4Index := vaGetPml4Index vaAddr
  let pdpIndex := vaGetPdpIndex vaAddr
  let pdIndex := vaGetPdIndex vaAddr
  let ptIndex := vaGetPtIndex vaAddr
  let s := s.linkTable s.pml4Pointer pml4Index (presentFlag ||| writableFlag)
  let pdpPtr := s.read s.pml4Pointer pml4Index &&& addrMask
  let s := s.linkTable pdpPtr pdpIndex (presentFlag ||| writableFlag ||| userAccessFlag)
  let pdPtr := s.read pdpPtr pdpIndex &&& addrMask
  let s := s.linkTable pdPtr pdIndex (presentFlag ||| writableFlag ||| userAccessFlag)
  let ptPtr := s.read pdPtr pdIndex &&& addrMask
  if s.read ptPtr ptIndex &&& presentFlag = 0 then
    let s := s.write ptPtr ptIndex (presentFlag ||| writableFlag ||| userAccessFlag)
    (true, s.write ptPtr ptIndex (s.read ptPtr ptIndex ||| (physAddr &&& addrMask)))
  else (false, s)

/-- `map_pages`, which does not look at what `map_page` returns. -/
def mapPages (srcAddr destAddr : UInt64) (pageCount : ℕ) : Mapping :=
  (List.range pageCount).foldl (fun s i =>
    (s.mapPage (srcAddr + UInt64.ofNat i <<< 12) (destAddr + UInt64.ofNat i <<< 12)).2) s

/-- `get_mapping_pointers_and_count`. -/
def getMappingPointersAndCount : UInt64 × UInt64 :=
  (s.pml4Pointer, (s.nextAvailableMappingPage - s.mappingBaseAddress) >>> 12)

end Mapping

/-! ### The handoff -/

/-- One round of the loop over the program headers of the kernel. -/
structure Segment where
  physAddr : UInt64
  baseAddr : UInt64
  pages : UInt64

/-- What `efi_main` leaves for the kernel. -/
structure Handoff where
  mapping : Mapping
  memMap : List UefiDescriptor
  mappingBase : UInt64
  pml4Pointer : UInt64
  usedMappingPageCount : UInt64

/-- The end of `efi_main`: move the tables, take the count, map the segments. -/
def efiMain (memMap : List UefiDescriptor) (cr3 : UInt64) (segments : List Segment)
    (mem : UInt64 → UInt64) : Except InitError Handoff := do
  let (mapping, memMap, mappingBase) ← initVirtualMapping memMap .mapAll cr3 mem
  let (pml4Pointer, usedMappingPageCount) := mapping.getMappingPointersAndCount
  let mapping := segments.foldl (fun s g => s.mapPages g.physAddr g.baseAddr g.pages.toNat) mapping
  return {
    mapping := mapping
    memMap := memMap
    mappingBase := mappingBase
    pml4Pointer := pml4Pointer
    usedMappingPageCount := usedMappingPageCount }

end Betelgeuse
