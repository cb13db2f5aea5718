/-
The physical page bitmap that `page_allocator_init` builds at boot
(`kernel/memory.c`, first half).

A first loop looks for the smallest usable descriptor that has room for the
bitmap, and a second loop clears the bits of the pages that are free.  The first
loop reads the descriptors of the memory map as they were handed over, a list.
The second one reads each of them from memory, round by round, and nothing keeps
the bitmap away from the map: where they overlap, what is read there is the
bitmap (`EfiMemoryDescriptor.read`).

In the second loop `d->physical_start >> 12 + i` is `physical_start >> (12 + i)`.
A shift by 64 or more and a write behind the end of the bitmap have no defined
result; the loop ends in a `Fault` there.  What `1 << bitmap_offset` is depends on
the compiler, for an `int` has 32 bits and the offset goes up to 63: the loop has
it as a parameter `one`, as `page_physical_alloc` does.  The code that is run
takes the count modulo 32 (`shiftedOne`); `mask` is the 64-bit value.
-/
import Betelgeuse.WordBitmap
import Betelgeuse.WordArith
import Mathlib.Data.List.Basic

open WordBitmap WordArith

namespace Betelgeuse

/-- `efi_memory_descriptor`, as far as it is read. -/
structure EfiMemoryDescriptor where
  type : UInt32
  physicalStart : UInt64
  numberOfPages : UInt64
  deriving DecidableEq

/-- `struct boot_table`, as far as `page_allocator_init` reads it; `memTable` are
the `mem_desc_count` descriptors at `mem_table_pointer`. -/
structure BootTable where
  memTablePointer : UInt64
  memDescSize : UInt64
  memTable : List EfiMemoryDescriptor
  mappingBase : UInt64
  fontPointer : UInt64
  kernelStartPointer : UInt64
  kernelPageCount : UInt64
  pml4Pointer : UInt64
  usedMappingPageCount : UInt64

/-- `EfiLoaderCode`, `EfiLoaderData`, `EfiBootServicesCode`, `EfiBootServicesData`
and `EfiConventionalMemory`, the case labels both loops share. -/
def Usable (type : UInt32) : Prop := type = 1 ∨ type = 2 ∨ type = 3 ∨ type = 4 ∨ type = 7

instance (type : UInt32) : Decidable (Usable type) :=
  inferInstanceAs (Decidable (_ ∨ _))

/-- `required_pages`. -/
def requiredPages : UInt64 := 32

/-- `page_bitmap_length`, which is `required_pages << 9`. -/
def pageBitmapLength : UInt64 := requiredPages <<< 9

/-- `UINT64_MAX`. -/
def uint64Max : UInt64 := 0xFFFFFFFFFFFFFFFF

/-- `1 << bitmap_offset` with the count modulo 32. -/
def shiftedOne (bitmapOffset : ℕ) : UInt64 :=
  signExtend ((1 : UInt32) <<< UInt32.ofNat bitmapOffset)

/-! ### Memory with the bitmap in it -/

/-- The byte `x` lies in the bitmap whose first byte is `place`. -/
def InBitmap (place x : ℕ) : Prop := place ≤ x ∧ x < place + 8 * pageBitmapLength.toNat

instance (place x : ℕ) : Decidable (InBitmap place x) :=
  inferInstanceAs (Decidable (_ ∧ _))

/-- The eight bytes from `x` on, which held `v` before the bitmap `b` came to `place`. -/
def readUnder (place : ℕ) (b : Bitmap) (x : ℕ) (v : UInt64) : UInt64 :=
  ofBits fun t =>
    let byte := x + t / 8
    if InBitmap place byte then get b (8 * (byte - place) + t % 8) else bit v t

/-- The descriptor at `x` as it is read when the bitmap `b` lies at `place`.  The
type takes the bytes 0 to 3, the other fields are at 8 and at 24. -/
def EfiMemoryDescriptor.read (d : EfiMemoryDescriptor) (place x : ℕ) (b : Bitmap) :
    EfiMemoryDescriptor where
  type := (readUnder place b x d.type.toUInt64).toUInt32
  physicalStart := readUnder place b (x + 8) d.physicalStart
  numberOfPages := readUnder place b (x + 24) d.numberOfPages

namespace BootTable

variable (bt : BootTable)

/-! ### The place of the bitmap -/

/-- The variables of the first loop; `fontBuffer` and `kernel` are the bits of
`type_correction_to_do`. -/
structure Selection where
  mmap : List EfiMemoryDescriptor
  fontBuffer : Bool
  kernel : Bool
  pageBitmap : UInt64
  reservedPages : UInt64
  reservedIndex : ℕ

/-- The body of the first loop. -/
def selectStep (s : Selection) (i : ℕ) : Selection :=
  match s.mmap[i]? with
  | none => s
  | some d =>
    let hitsFont := decide (d.physicalStart ≤ bt.fontPointer) && s.fontBuffer
    let d := if hitsFont then { d with type := 0x12 } else d
    let hitsKernel := decide (d.physicalStart ≤ bt.kernelStartPointer) && s.kernel
    let d := if hitsKernel then { d with type := 0x12 } else d
    let s := { s with
      mmap := s.mmap.set i d
      fontBuffer := s.fontBuffer && !hitsFont
      kernel := s.kernel && !hitsKernel }
    if Usable d.type ∧ d.numberOfPages ≥ requiredPages ∧ d.numberOfPages < s.reservedPages then
      { s with
        pageBitmap := d.physicalStart
        reservedPages := d.numberOfPages
        reservedIndex := i }
    else s

/-- The first loop. -/
def select : Selection :=
  (List.range bt.memTable.length).foldl bt.selectStep
    { mmap := bt.memTable, fontBuffer := false, kernel := false, pageBitmap := 0,
      reservedPages := uint64Max, reservedIndex := 0 }

/-- `DESCRIPTOR(mmap, reserved_index)->type = 0x11`. -/
def reserve (s : Selection) : List EfiMemoryDescriptor :=
  s.mmap.modify s.reservedIndex fun d => { d with type := 0x11 }

/-! ### Marking the free pages -/

/-- What the code has no defined result for. -/
inductive Fault where
  | shift (count : UInt64)
  | index (bitmapIndex : UInt64)
  deriving DecidableEq

/-- The body of the three inner loops. -/
def markPage (one : ℕ → UInt64) (physicalStart i : UInt64) (pageBitmap : Bitmap) :
    Except Fault Bitmap :=
  let count := 12 + i
  if count ≥ 64 then .error (.shift count)
  else
    let addr := physicalStart >>> count
    let bitmapIndex := addr >>> 6
    let bitmapOffset := addr &&& 0b111111
    if bitmapIndex ≥ pageBitmapLength then .error (.index bitmapIndex)
    else .ok (clearMask pageBitmap bitmapIndex.toNat (one bitmapOffset.toNat))

/-- An inner loop from `i` on, where `d` reads the descriptor from memory.  It stays
below `2 ^ 64`, so that `2 ^ 64 - i` rounds are enough. -/
def markPages (one : ℕ → UInt64) (d : Bitmap → EfiMemoryDescriptor) :
    ℕ → UInt64 → Bitmap → Except Fault Bitmap
  | 0, _, pageBitmap => .ok pageBitmap
  | n + 1, i, pageBitmap =>
    if i < (d pageBitmap).numberOfPages then do
      let pageBitmap ← markPage one (d pageBitmap).physicalStart i pageBitmap
      markPages one d n (i + 1) pageBitmap
    else .ok pageBitmap

/-- The index at which the inner loop for a descriptor starts, for the types that
have one. -/
def loopStart (type : UInt32) : Option UInt64 :=
  if type = 0x10 then some bt.usedMappingPageCount
  else if type = 0x11 then some requiredPages
  else if Usable type then some 0
  else none

/-- One round of the second loop. -/
def markDescriptor (one : ℕ → UInt64) (d : Bitmap → EfiMemoryDescriptor) (pageBitmap : Bitmap) :
    Except Fault Bitmap :=
  match bt.loopStart (d pageBitmap).type with
  | none => .ok pageBitmap
  | some start => markPages one d (2 ^ 64 - start.toNat) start pageBitmap

/-- `DESCRIPTOR(mmap, index)`. -/
def descriptor (index : ℕ) : ℕ := bt.memTablePointer.toNat + index * bt.memDescSize.toNat

/-- `page_bitmap` after it has been filled with ones. -/
def fullBitmap : Bitmap := fun _ => uint64Max

/-- The first half of `page_allocator_init`: `none` when it returns -1 because
there is no place for the bitmap. -/
def buildBitmap (one : ℕ → UInt64) : Except Fault (Option Bitmap) :=
  let s := bt.select
  if s.reservedPages = uint64Max then .ok none
  else do
    let pageBitmap ← (reserve s).zipIdx.foldlM (fun pageBitmap (d, index) =>
      bt.markDescriptor one (d.read s.pageBitmap.toNat (bt.descriptor index)) pageBitmap)
      fullBitmap
    return some pageBitmap

end BootTable

end Betelgeuse
