/-
The map of allocated virtual ranges (`kernel/memory.c`).

The kernel keeps the allocated virtual addresses as a linked list of entries
`[base_pointer, base_pointer + length)`.  The entries live in one page
(`virtual_address_map`, 128 slots of 32 bytes), the list is edited in place
through a pointer to a pointer (`tripref`), and a two-word bitmap says which
slots are in use.  A pointer to an entry is the number of its slot, `none` is
the null pointer, and every shift mask `1 << k` is read as the 64-bit value
`2 ^ k`.

Each function of the source first searches the list and looks at the entry it
found and at the one behind it, and then ends in one of a few blocks of
statements that are repeated through the file.  The search and the tests are
the function's plan (`pageVirtualAllocAtPlan` and so on); the block at its end
is a `Block`, and `perform` carries it out.

A call that does not come back, because it reads through a null pointer or
loops for ever, is `none`.
-/
import Betelgeuse.HeapList
import Betelgeuse.WordBitmap
import Mathlib.Algebra.GroupWithZero.Nat

open HeapList WordBitmap

namespace Betelgeuse

/-- `1 << 12`, the number of bytes of a page. -/
def pageSize : UInt64 := (1 : UInt64) <<< 12

/-- `INT64_MAX`. -/
def int64Max : UInt64 := 0x7FFFFFFFFFFFFFFF

/-- The number of an entry in `virtual_address_map`, which is one page. -/
abbrev Slot := Fin 128

instance neZero_slotCount : NeZero 128 := ⟨by decide⟩

/-- `struct virtual_alloc_entry`. -/
structure VirtualAllocEntry where
  next : Option Slot
  length : UInt64
  basePointer : UInt64
  deriving DecidableEq

/-- The globals `virtual_address_map`, `virtual_address_map_first` and
`virtual_address_map_free_bitmap`.  The bitmap has a page of its own, of which
only the first two words are ever searched. -/
structure VirtualAddressMap where
  map : Slot → VirtualAllocEntry
  first : Option Slot
  freeBitmap : Bitmap

/-- `virtual_address_map_free_bitmap_length`. -/
abbrev virtualAddressMapFreeBitmapLength : ℕ := 2

namespace VirtualAddressMap

variable (s : VirtualAddressMap)

/-- The list structure of the map. -/
def links : Heap Slot := ⟨s.first, fun k => (s.map k).next⟩

/-- `entry->next`. -/
def next (t : Slot) : Option Slot := (s.map t).next

/-- `entry->base_pointer`. -/
def base (t : Slot) : UInt64 := (s.map t).basePointer

/-- `entry->length`. -/
def len (t : Slot) : UInt64 := (s.map t).length

/-- `entry->base_pointer + entry->length`. -/
def endOf (t : Slot) : UInt64 := s.base t + s.len t

/-- `entry->next->base_pointer`, when there is a next entry. -/
def nextBase (t : Slot) : Option UInt64 := (s.next t).map s.base

/-- `*tripref`. -/
def deref (c : Cell Slot) : Option Slot := s.links.read c

/-- `entry->next = p`. -/
def setNext (t : Slot) (p : Option Slot) : VirtualAddressMap :=
  { s with map := Function.update s.map t { s.map t with next := p } }

/-- `entry->base_pointer = v`. -/
def setBase (t : Slot) (v : UInt64) : VirtualAddressMap :=
  { s with map := Function.update s.map t { s.map t with basePointer := v } }

/-- `entry->length = v`. -/
def setLen (t : Slot) (v : UInt64) : VirtualAddressMap :=
  { s with map := Function.update s.map t { s.map t with length := v } }

/-- `*tripref = p`. -/
def store (c : Cell Slot) (p : Option Slot) : VirtualAddressMap :=
  match c with
  | .first => { s with first := p }
  | .next k => s.setNext k p

/-- `FIND_ENTRY_WITH_TRIPREF`. -/
def findEntry (frame : UInt64) : Option (Cell Slot) :=
  s.links.seek (fun _ x => decide (s.base x < frame)) 128 .first

/-! ### The slot bitmap -/

/-- The bit that a merge or a removal clears for slot `t`: the byte offset of
the entry shifted by 3, split into a word and, counted from the top, a bit. -/
def bitmapLocation (t : Slot) : ℕ := (32 * t.val) >>> 3

/-- `virtual_address_map_free_bitmap[location >> 6] &= ~(1 << (63 - (location & 0x3f)))`. -/
def releaseSlot (t : Slot) : VirtualAddressMap :=
  { s with freeBitmap :=
      clearBit s.freeBitmap (bitmapLocation t >>> 6) (63 - (bitmapLocation t &&& 0x3f)) }

/-- `(bitmap_index << 6) | offset`. -/
def newIndex (bitmapIndex : Fin virtualAddressMapFreeBitmapLength) (offset : Fin 64) : Slot :=
  ⟨(bitmapIndex.val <<< 6) ||| offset.val, by
    have hi : bitmapIndex.val < 2 := bitmapIndex.isLt
    rw [← Nat.shiftLeft_add_eq_or_of_lt offset.isLt, Nat.shiftLeft_eq]
    omega⟩

/-- The search of `INSERT_VIRTUAL_MAP_ENTRY_AND_RETURN`: in the first word that
is below `INT64_MAX`, the highest clear bit. -/
def findFreeSlot : Option (Fin virtualAddressMapFreeBitmapLength × Fin 64) :=
  (List.finRange virtualAddressMapFreeBitmapLength).findSome? fun bitmapIndex =>
    if s.freeBitmap bitmapIndex.val < int64Max then
      (List.finRange 64).reverse.findSome? fun offset =>
        if s.freeBitmap bitmapIndex.val &&& mask offset.val = 0 then some (bitmapIndex, offset)
        else none
    else none

/-! ### The blocks of statements the functions end in -/

/-- The block of statements a call ends in. -/
inductive Block where
  /-- return without touching the map -/
  | ret (code : ℤ)
  /-- `(*tripref)->length += bytes`, then join with the next entry if its base
  is `top`; return 0 -/
  | growUp (c : Cell Slot) (bytes top : UInt64)
  /-- extend `(*tripref)->next` downwards; return 0 -/
  | growDown (c : Cell Slot) (bytes : UInt64)
  /-- insert a new entry behind `*tripref`; return 0, or `full` without a free slot -/
  | insert (c : Cell Slot) (base len : UInt64) (full : Option ℤ)
  /-- shorten `*tripref` to end at `frame` and insert what lies above
  `frame + bytes` as a new entry; return 0, or `full` without a free slot -/
  | cut (c : Cell Slot) (frame bytes : UInt64) (full : Option ℤ)
  /-- `*tripref = (*tripref)->next`, release the slot; return `code` -/
  | unlink (c : Cell Slot) (code : Option ℤ)
  deriving DecidableEq

/-- Join the entry `t` with the next entry `x`, which it touches. -/
def join (t x : Slot) : VirtualAddressMap :=
  let s := s.setLen t (s.len t + s.len x)
  let s := s.setNext t (s.next x)
  s.releaseSlot x

/-- `INSERT_VIRTUAL_MAP_ENTRY_AND_RETURN(base, (*tripref)->next, len)`.  The
inner `none` is the way out of the macro without a free slot. -/
def insertEntry (c : Cell Slot) (base len : UInt64) : Option (Option VirtualAddressMap) :=
  match s.findFreeSlot with
  | none => some none
  | some (bitmapIndex, offset) => do
    let k := newIndex bitmapIndex offset
    let s := { s with freeBitmap := setBit s.freeBitmap bitmapIndex offset }
    let s := s.setBase k base
    let s := s.setLen k len
    let t ← s.deref c
    let s := s.setNext k (s.next t)
    let t ← s.deref c
    let s := s.setNext t (some k)
    return some s

/-- Carry out the block a call ends in: the code it returns (`none`: the end of
the function is reached without a `return`) and the map it leaves. -/
def perform : Block → Option (Option ℤ × VirtualAddressMap)
  | .ret code => some (some code, s)
  | .growUp c bytes top => do
    let t ← s.deref c
    let s := s.setLen t (s.len t + bytes)
    match s.next t with
    | none => return (some 0, s)
    | some x => if top = s.base x then return (some 0, s.join t x) else return (some 0, s)
  | .growDown c bytes => do
    let t ← s.deref c
    let x ← s.next t
    let s := s.setBase x (s.base x - bytes)
    let s := s.setLen x (s.len x + bytes)
    return (some 0, s)
  | .insert c base len full => do
    match ← s.insertEntry c base len with
    | none => return (full, s)
    | some s => return (some 0, s)
  | .cut c frame bytes full => do
    let t ← s.deref c
    let oldLength := s.len t
    let s := s.setLen t (frame - s.base t)
    match ← s.insertEntry c (frame + bytes) (oldLength - s.len t - bytes) with
    | none => return (full, s)
    | some s => return (some 0, s)
  | .unlink c code => do
    let t ← s.deref c
    let s := s.store c (s.next t)
    return (code, s.releaseSlot t)

/-- What a call does: what it writes to `*frame`, if anything, and the block it
ends in. -/
structure Plan where
  frame : Option UInt64
  block : Block
  deriving DecidableEq

/-- What a call leaves behind: the code it returns, what it wrote to `*frame`,
and the map. -/
structure Outcome where
  code : Option ℤ
  frame : Option UInt64
  map : VirtualAddressMap

/-- Carry out a plan. -/
def Plan.run (p : Plan) : Option Outcome :=
  (s.perform p.block).map fun r => ⟨r.1, p.frame, r.2⟩

/-! ### Allocation of one page -/

def pageVirtualAllocPlan : Option Plan := do
  let t ← s.first
  let frame := s.endOf t
  if frame = 0 then return ⟨some frame, .ret (-1)⟩
  return ⟨some frame, .growUp .first 1 (s.base t + (s.len t + 1))⟩

def pageVirtualAlloc : Option Outcome := do
  (← s.pageVirtualAllocPlan).run s

def pageVirtualAllocAtPlan (frame : UInt64) : Option Plan := do
  let c ← s.findEntry frame
  let t ← s.deref c
  if s.endOf t > frame then return ⟨none, .ret 1⟩
  if s.endOf t = frame then
    return ⟨none, .growUp c pageSize (s.base t + (s.len t + pageSize))⟩
  else if s.nextBase t = some (frame + pageSize) then
    return ⟨none, .growDown c pageSize⟩
  else return ⟨none, .insert c frame pageSize (some (-1))⟩

def pageVirtualAllocAt (frame : UInt64) : Option Outcome := do
  (← s.pageVirtualAllocAtPlan frame).run s

def pageVirtualAllocAfterPlan (base : UInt64) : Option Plan := do
  let c ← s.findEntry base
  let t ← s.deref c
  if s.endOf t ≥ base then
    return ⟨some (s.endOf t), .growUp c pageSize (s.base t + (s.len t + pageSize))⟩
  else if s.nextBase t = some (base + pageSize) then
    return ⟨some base, .growDown c pageSize⟩
  else return ⟨some base, .insert c base pageSize (some (-1))⟩

def pageVirtualAllocAfter (base : UInt64) : Option Outcome := do
  (← s.pageVirtualAllocAfterPlan base).run s

/-- `*frame` as the `beyond` functions compute it from the entry they find. -/
def beyondFrame (t : Slot) (base jumpCount : UInt64) : UInt64 :=
  let frame := s.endOf t + jumpCount <<< 12
  if frame < base then base else frame

def pageVirtualAllocBeyondPlan (base jumpCount : UInt64) : Option Plan := do
  if jumpCount = 0 then s.pageVirtualAllocAfterPlan base
  else
    let c ← s.findEntry base
    let t ← s.deref c
    let frame := s.beyondFrame t base jumpCount
    if (s.nextBase t).any (· ≤ frame) then return ⟨some frame, .ret 1⟩
    else if s.nextBase t = some (frame + pageSize) then
      return ⟨some frame, .growDown c pageSize⟩
    else if (s.next t).any (fun x => s.endOf x = frame) then
      let x ← s.next t
      return ⟨some frame, .growUp (.next t) pageSize (s.base x + (s.len x + pageSize))⟩
    else return ⟨some frame, .insert c frame pageSize (some (-1))⟩

def pageVirtualAllocBeyond (base jumpCount : UInt64) : Option Outcome := do
  (← s.pageVirtualAllocBeyondPlan base jumpCount).run s

/-- The second loop of the `beyond_ex` functions: as long as the next entry
blocks `*frame`, move on and jump beyond that entry.  On a list that runs in a
circle the loop comes to its first entry a second time with another `*frame`, so
it can stop in step 129, and not later. -/
def seekBeyond (blocks : UInt64 → UInt64 → Bool) (jumpCount : UInt64) :
    ℕ → Cell Slot → UInt64 → Option (Cell Slot × UInt64)
  | 0, _, _ => none
  | n + 1, c, frame => do
    let t ← s.deref c
    match s.next t with
    | none => return (c, frame)
    | some x =>
      if blocks (s.base x) frame then
        seekBeyond blocks jumpCount n (.next t) (s.endOf x + jumpCount <<< 12)
      else return (c, frame)

def pageVirtualAllocBeyondExPlan (base jumpCount : UInt64) : Option Plan := do
  if jumpCount = 0 then s.pageVirtualAllocAfterPlan base
  else
    let c ← s.findEntry base
    let t ← s.deref c
    let (c, frame) ← s.seekBeyond (fun b frame => b ≤ frame) jumpCount 129 c
      (s.beyondFrame t base jumpCount)
    let t ← s.deref c
    if s.nextBase t = some (frame + pageSize) then
      return ⟨some frame, .growDown c pageSize⟩
    else return ⟨some frame, .insert c frame pageSize (some (-1))⟩

def pageVirtualAllocBeyondEx (base jumpCount : UInt64) : Option Outcome := do
  (← s.pageVirtualAllocBeyondExPlan base jumpCount).run s

/-! ### Allocation of several pages -/

def pageVirtualAllocMultiplePlan (allocCount : UInt64) : Option Plan := do
  if allocCount = 0 then return ⟨none, .ret (-1)⟩
  let t ← s.first
  let top := s.endOf t + allocCount <<< 12
  if (s.nextBase t).any (fun b => top > b) then return ⟨none, .ret 1⟩
  return ⟨none, .growUp .first (allocCount <<< 12) top⟩

def pageVirtualAllocMultiple (allocCount : UInt64) : Option Outcome := do
  (← s.pageVirtualAllocMultiplePlan allocCount).run s

/-- `top` is computed once, from the first entry, and is not computed again for
the entry the loop stops at. -/
def pageVirtualAllocMultipleExPlan (allocCount : UInt64) : Option Plan := do
  if allocCount = 0 then return ⟨none, .ret (-1)⟩
  let t ← s.first
  let top := s.endOf t + allocCount <<< 12
  let c ← s.links.seek (fun t x => decide (s.endOf t + allocCount <<< 12 > s.base x)) 128 .first
  return ⟨none, .growUp c (allocCount <<< 12) top⟩

def pageVirtualAllocMultipleEx (allocCount : UInt64) : Option Outcome := do
  (← s.pageVirtualAllocMultipleExPlan allocCount).run s

/-- The second test reads `(*tripref)->next->base_pointer` whether or not there
is a next entry. -/
def pageVirtualAllocMultipleAtPlan (frame allocCount : UInt64) : Option Plan := do
  if allocCount = 0 then return ⟨none, .ret (-1)⟩
  let c ← s.findEntry frame
  let t ← s.deref c
  if s.endOf t > frame then return ⟨none, .ret 1⟩
  let b ← s.nextBase t
  if frame + allocCount <<< 12 > b then return ⟨none, .ret 1⟩
  if s.endOf t = frame then
    return ⟨none, .growUp c (allocCount <<< 12) (s.base t + (s.len t + allocCount <<< 12))⟩
  else if s.nextBase t = some (frame + allocCount <<< 12) then
    return ⟨none, .growDown c (allocCount <<< 12)⟩
  else return ⟨none, .insert c frame (allocCount <<< 12) (some (-1))⟩

def pageVirtualAllocMultipleAt (frame allocCount : UInt64) : Option Outcome := do
  (← s.pageVirtualAllocMultipleAtPlan frame allocCount).run s

def pageVirtualAllocMultipleAfterPlan (base allocCount : UInt64) : Option Plan := do
  if allocCount = 0 then return ⟨none, .ret (-1)⟩
  let c ← s.findEntry base
  let t ← s.deref c
  if s.endOf t ≥ base then
    let frame := s.endOf t
    if (s.nextBase t).any (· < frame + allocCount <<< 12) then return ⟨some frame, .ret 1⟩
    return ⟨some frame,
      .growUp c (allocCount <<< 12) (s.base t + (s.len t + allocCount <<< 12))⟩
  else if s.nextBase t = some (base + allocCount <<< 12) then
    return ⟨some base, .growDown c (allocCount <<< 12)⟩
  else return ⟨some base, .insert c base (allocCount <<< 12) (some (-1))⟩

def pageVirtualAllocMultipleAfter (base allocCount : UInt64) : Option Outcome := do
  (← s.pageVirtualAllocMultipleAfterPlan base allocCount).run s

/-- The loop of `page_virtual_alloc_multiple_after_ex`, which does not test
`(*tripref)->next` before it reads through it. -/
def seekGap (allocCount : UInt64) : ℕ → Cell Slot → Option (Cell Slot)
  | 0, _ => none
  | n + 1, c => do
    let t ← s.deref c
    let b ← s.nextBase t
    if b < s.endOf t + allocCount <<< 12 then seekGap allocCount n (.next t) else return c

def pageVirtualAllocMultipleAfterExPlan (base allocCount : UInt64) : Option Plan := do
  if allocCount = 0 then return ⟨none, .ret (-1)⟩
  let c ← s.findEntry base
  let t ← s.deref c
  if s.endOf t ≥ base then
    let c ← s.seekGap allocCount 128 c
    let t ← s.deref c
    return ⟨some (s.endOf t),
      .growUp c (allocCount <<< 12) (s.base t + (s.len t + allocCount <<< 12))⟩
  else if s.nextBase t = some (base + allocCount <<< 12) then
    return ⟨some base, .growDown c (allocCount <<< 12)⟩
  else return ⟨some base, .insert c base (allocCount <<< 12) (some (-1))⟩

def pageVirtualAllocMultipleAfterEx (base allocCount : UInt64) : Option Outcome := do
  (← s.pageVirtualAllocMultipleAfterExPlan base allocCount).run s

def pageVirtualAllocMultipleBeyondPlan (base allocCount jumpCount : UInt64) : Option Plan := do
  if allocCount = 0 then return ⟨none, .ret (-1)⟩
  if jumpCount = 0 then s.pageVirtualAllocMultipleAfterPlan base allocCount
  else
    let c ← s.findEntry base
    let t ← s.deref c
    let frame := s.beyondFrame t base jumpCount
    if (s.nextBase t).any (· ≤ frame) then return ⟨some frame, .ret 1⟩
    else if s.nextBase t = some (frame + allocCount <<< 12) then
      return ⟨some frame, .growDown c (allocCount <<< 12)⟩
    else if (s.next t).any (fun x => s.endOf x = frame) then
      let x ← s.next t
      return ⟨some frame,
        .growUp (.next t) (allocCount <<< 12) (s.base x + (s.len x + allocCount <<< 12))⟩
    else return ⟨some frame, .insert c frame (allocCount <<< 12) (some (-1))⟩

def pageVirtualAllocMultipleBeyond (base allocCount jumpCount : UInt64) : Option Outcome := do
  (← s.pageVirtualAllocMultipleBeyondPlan base allocCount jumpCount).run s

/-- Without a jump this is `page_virtual_alloc_multiple_after`, not its `_ex`
variant. -/
def pageVirtualAllocMultipleBeyondExPlan (base allocCount jumpCount : UInt64) :
    Option Plan := do
  if allocCount = 0 then return ⟨none, .ret (-1)⟩
  if jumpCount = 0 then s.pageVirtualAllocMultipleAfterPlan base allocCount
  else
    let c ← s.findEntry base
    let t ← s.deref c
    let (c, frame) ← s.seekBeyond (fun b frame => b < frame + allocCount <<< 12) jumpCount 129 c
      (s.beyondFrame t base jumpCount)
    let t ← s.deref c
    if s.nextBase t = some (frame + allocCount <<< 12) then
      return ⟨some frame, .growDown c (allocCount <<< 12)⟩
    else return ⟨some frame, .insert c frame (allocCount <<< 12) (some (-1))⟩

def pageVirtualAllocMultipleBeyondEx (base allocCount jumpCount : UInt64) : Option Outcome := do
  (← s.pageVirtualAllocMultipleBeyondExPlan base allocCount jumpCount).run s

/-! ### Freeing -/

def pageVirtualFreePlan (frame : UInt64) : Option Plan := do
  let c ← s.findEntry frame
  let t ← s.deref c
  if frame ≥ s.endOf t then return ⟨none, .ret (-1)⟩
  if s.len t = 1 then return ⟨none, .unlink c (some 0)⟩
  else return ⟨none, .cut c frame pageSize (some (-1))⟩

def pageVirtualFree (frame : UInt64) : Option Outcome := do
  (← s.pageVirtualFreePlan frame).run s

/-- The part of `page_virtual_free_multiple` behind the test of `count`.  It
ends without a `return` unless `INSERT` finds a slot. -/
def pageVirtualFreeMultiplePlan (frame count : UInt64) : Option Plan := do
  let c ← s.findEntry frame
  let t ← s.deref c
  if frame + count <<< 12 ≥ s.endOf t then return ⟨none, .ret (-1)⟩
  if s.len t = 1 then return ⟨none, .unlink c none⟩
  else return ⟨none, .cut c frame (count <<< 12) none⟩

/-- With `count == 1` the page is freed by `page_virtual_free`, and then the
rest of the function runs as well. -/
def pageVirtualFreeMultiple (frame count : UInt64) : Option Outcome := do
  if count = 1 then
    let o ← s.pageVirtualFree frame
    (← o.map.pageVirtualFreeMultiplePlan frame count).run o.map
  else if count = 0 then return ⟨some (-1), none, s⟩
  else (← s.pageVirtualFreeMultiplePlan frame count).run s

/-! ### Calls -/

end VirtualAddressMap

/-- A call of one of the fourteen functions that edit the map. -/
inductive Call where
  | alloc
  | allocAt (frame : UInt64)
  | allocAfter (base : UInt64)
  | allocBeyond (base jumpCount : UInt64)
  | allocBeyondEx (base jumpCount : UInt64)
  | allocMultiple (allocCount : UInt64)
  | allocMultipleEx (allocCount : UInt64)
  | allocMultipleAt (frame allocCount : UInt64)
  | allocMultipleAfter (base allocCount : UInt64)
  | allocMultipleAfterEx (base allocCount : UInt64)
  | allocMultipleBeyond (base allocCount jumpCount : UInt64)
  | allocMultipleBeyondEx (base allocCount jumpCount : UInt64)
  | free (frame : UInt64)
  | freeMultiple (frame count : UInt64)
  deriving DecidableEq

namespace VirtualAddressMap

/-- Make a call. -/
def call (s : VirtualAddressMap) : Call → Option Outcome
  | .alloc => s.pageVirtualAlloc
  | .allocAt frame => s.pageVirtualAllocAt frame
  | .allocAfter base => s.pageVirtualAllocAfter base
  | .allocBeyond base jumpCount => s.pageVirtualAllocBeyond base jumpCount
  | .allocBeyondEx base jumpCount => s.pageVirtualAllocBeyondEx base jumpCount
  | .allocMultiple allocCount => s.pageVirtualAllocMultiple allocCount
  | .allocMultipleEx allocCount => s.pageVirtualAllocMultipleEx allocCount
  | .allocMultipleAt frame allocCount => s.pageVirtualAllocMultipleAt frame allocCount
  | .allocMultipleAfter base allocCount => s.pageVirtualAllocMultipleAfter base allocCount
  | .allocMultipleAfterEx base allocCount => s.pageVirtualAllocMultipleAfterEx base allocCount
  | .allocMultipleBeyond base allocCount jumpCount =>
    s.pageVirtualAllocMultipleBeyond base allocCount jumpCount
  | .allocMultipleBeyondEx base allocCount jumpCount =>
    s.pageVirtualAllocMultipleBeyondEx base allocCount jumpCount
  | .free frame => s.pageVirtualFree frame
  | .freeMultiple frame count => s.pageVirtualFreeMultiple frame count

end VirtualAddressMap

end Betelgeuse
