/-
The x86-64 page tables and the kernel's code that edits them
(`kernel/arch/x86_64/paging.c`, the masks of `kernel/memory.h`).

Physical memory is a function from the address of a 64-bit word to the word.
The kernel reads and writes through pointers: `Platform.resolve` says which
physical word a pointer reaches, and `Platform.physicalAlloc` is
`page_physical_alloc`, on a state of its own.

A frame is an address that `ADDR_MASK` leaves as it is, so that an entry cannot
link anything else.  `word` and `decode` turn physical memory into a tree of
tables, and `translate` is the translation of addresses that the processor
derives from it, with 1 GiB and 2 MiB pages.
-/
import Betelgeuse.PageTree
import Mathlib.Data.Nat.Bitwise
import Mathlib.Logic.Function.Basic

open PageTree

namespace Betelgeuse

/-! ### Addresses and entries -/

def pml4Mask (x : UInt64) : UInt64 := x &&& 0x0000ff8000000000
def pdpMask (x : UInt64) : UInt64 := x &&& 0x0000007fc0000000
def pdMask (x : UInt64) : UInt64 := x &&& 0x000000003fe00000
def ptMask (x : UInt64) : UInt64 := x &&& 0x00000000001ff000

/-- `VA_GET_PML4_INDEX`. -/
def vaGetPml4Index (x : UInt64) : UInt64 := pml4Mask x >>> 39
/-- `VA_GET_PDP_INDEX`. -/
def vaGetPdpIndex (x : UInt64) : UInt64 := pdpMask x >>> 30
/-- `VA_GET_PD_INDEX`. -/
def vaGetPdIndex (x : UInt64) : UInt64 := pdMask x >>> 21
/-- `VA_GET_PT_INDEX`. -/
def vaGetPtIndex (x : UInt64) : UInt64 := ptMask x >>> 12

def addrMask : UInt64 := 0x000FFFFFFFFFF000

def presentFlag : UInt64 := (1 : UInt64) <<< 0
def writableFlag : UInt64 := (1 : UInt64) <<< 1
def userAccessFlag : UInt64 := (1 : UInt64) <<< 2
def pageSizeFlag : UInt64 := (1 : UInt64) <<< 7

/-- The address of a frame: what an entry can point to. -/
structure Frame where
  addr : UInt64
  masked : addr &&& addrMask = addr
  deriving DecidableEq

/-- The frame an entry points to. -/
def entryFrame (w : UInt64) : Frame :=
  ⟨w &&& addrMask, by rw [UInt64.and_assoc, UInt64.and_self]⟩

theorem entryFrame_eq {w : UInt64} {f : Frame} (h : w &&& addrMask = f.addr) :
    entryFrame w = f := by
  cases f
  unfold entryFrame
  congr 1

@[simp] theorem entryFrame_addr (f : Frame) : entryFrame f.addr = f := entryFrame_eq f.masked

/-- What an entry stands for in a table that is `n` levels above the page tables. -/
def decode (n : ℕ) (w : UInt64) : Entry Frame :=
  if w &&& presentFlag = 0 then .absent
  else if n = 0 then .leaf
  else if w &&& pageSizeFlag = 0 then .table (entryFrame w)
  else .leaf

/-- Word `i` of the frame `f`. -/
def word (mem : UInt64 → UInt64) (f : Frame) (i : Fin 512) : UInt64 :=
  mem (f.addr + 8 * UInt64.ofNat i)

instance neZero_tableLength : NeZero 512 := ⟨by decide⟩

/-- An index that `VA_GET_..._INDEX` has computed. -/
def toIndex (x : UInt64) : Fin 512 := ⟨x.toNat % 512, Nat.mod_lt _ (by decide)⟩

/-- The path of a virtual address through the four levels. -/
def vaPath (va : UInt64) : List (Fin 512) :=
  [toIndex (vaGetPml4Index va), toIndex (vaGetPdpIndex va), toIndex (vaGetPdIndex va),
    toIndex (vaGetPtIndex va)]

/-- The page that a leaf entry gives for the part of the path that it covers.  The
page-size bit is reserved in the PML4, so an entry that covers three indices gives
no page. -/
def leafPage : UInt64 → List (Fin 512) → Option UInt64
  | w, [] => some (w &&& addrMask)
  | w, [pt] => some ((w &&& (0x000FFFFFFFE00000 : UInt64)) ||| (UInt64.ofNat pt.val <<< 12))
  | w, [pd, pt] => some ((w &&& (0x000FFFFFC0000000 : UInt64)) |||
      (UInt64.ofNat pd.val <<< 21) ||| (UInt64.ofNat pt.val <<< 12))
  | _, _ => none

/-- The physical page that the tables under `root` give for a virtual address. -/
def translate (mem : UInt64 → UInt64) (root : Frame) (va : UInt64) : Option UInt64 :=
  (lookup decode (word mem) root (vaPath va)).bind fun r => leafPage r.1 r.2

/-- The address is canonical: bits 48 to 63 repeat bit 47. -/
def Canonical (va : UInt64) : Prop := va.toNat < 2 ^ 47 ∨ 2 ^ 64 - 2 ^ 47 ≤ va.toNat

/-! ### The kernel's view of the machine -/

/-- What the paging code relies on. -/
structure Platform (σ : Type*) where
  /-- the physical word that a kernel pointer reaches -/
  resolve : UInt64 → UInt64
  /-- `page_physical_alloc`: the frame it returns and its new state, or failure -/
  physicalAlloc : σ → Option (UInt64 × σ)

/-- Physical memory, the state of `page_physical_alloc`, and the two static
variables of `paging.c`. -/
structure Machine (σ : Type*) where
  mem : UInt64 → UInt64
  allocator : σ
  currentPml4 : UInt64
  offset : UInt64

namespace Machine

variable {σ : Type*} (p : Platform σ) (s : Machine σ)

/-- `table[index]`. -/
def read (table index : UInt64) : UInt64 := s.mem (p.resolve (table + 8 * index))

/-- `table[index] = v`. -/
def write (table index v : UInt64) : Machine σ :=
  { s with mem := Function.update s.mem (p.resolve (table + 8 * index)) v }

/-- `for (uint64_t i = 0; i < 0x200; i++) next_page[i] = 0;` -/
def clearPage (nextPage : UInt64) : Machine σ :=
  (List.range 0x200).foldl (fun s i => s.write p nextPage (UInt64.ofNat i) 0) s

/-- The block that `page_map` has for each of the three upper levels: link a new
table if there is none.  `none` when no frame can be allocated. -/
def linkTable (table index : UInt64) : Option (Machine σ) :=
  if s.read p table index &&& presentFlag = 0 then do
    let (nextPage, allocator) ← p.physicalAlloc s.allocator
    let s := { s with allocator := allocator }
    let s := s.clearPage p nextPage
    let s := s.write p table index (presentFlag ||| writableFlag ||| userAccessFlag)
    return s.write p table index (s.read p table index ||| nextPage)
  else return s

/-- `page_map`: the code it returns and the machine it leaves. -/
def pageMap (vaAddr physAddr : UInt64) : ℤ × Machine σ :=
  let pml4Index := vaGetPml4Index vaAddr
  let pdpIndex := vaGetPdpIndex vaAddr
  let pdIndex := vaGetPdIndex vaAddr
  let ptIndex := vaGetPtIndex vaAddr
  let pml4Pointer := s.currentPml4 + s.offset
  match s.linkTable p pml4Pointer pml4Index with
  | none => (-1, s)
  | some s =>
    let pdpPointer := (s.read p pml4Pointer pml4Index &&& addrMask) + s.offset
    match s.linkTable p pdpPointer pdpIndex with
    | none => (-1, s)
    | some s =>
      let pdPointer := (s.read p pdpPointer pdpIndex &&& addrMask) + s.offset
      match s.linkTable p pdPointer pdIndex with
      | none => (-1, s)
      | some s =>
        let ptPointer := (s.read p pdPointer pdIndex &&& addrMask) + s.offset
        if s.read p ptPointer ptIndex &&& presentFlag = 0 then
          let s := s.write p ptPointer ptIndex (presentFlag ||| writableFlag ||| userAccessFlag)
          let s := s.write p ptPointer ptIndex
            (s.read p ptPointer ptIndex ||| (physAddr &&& addrMask))
          (0, s)
        else (1, s)

/-- The addresses that `page_unmap` refuses. -/
def InPhysicalMap (virtualAddress : UInt64) : Prop :=
  s.offset ≤ virtualAddress ∧ virtualAddress ≤ 0x0000FF8000000000

instance (virtualAddress : UInt64) : Decidable (s.InPhysicalMap virtualAddress) :=
  inferInstanceAs (Decidable (_ ∧ _))

/-- What a call of `page_unmap` leaves behind: the code it returns (`none`: the
end of the function is reached without a `return`), what it wrote to
`*physical_address`, if anything, and the machine. -/
structure UnmapOutcome (σ : Type*) where
  code : Option ℤ
  physicalAddress : Option UInt64
  machine : Machine σ

/-- `page_unmap`. -/
def pageUnmap (virtualAddress : UInt64) : UnmapOutcome σ :=
  if s.InPhysicalMap virtualAddress then ⟨some (-1), none, s⟩
  else
    let pml4Index := vaGetPml4Index virtualAddress
    let pdpIndex := vaGetPdpIndex virtualAddress
    let pdIndex := vaGetPdIndex virtualAddress
    let ptIndex := vaGetPtIndex virtualAddress
    let l3 := (s.read p s.currentPml4 pml4Index &&& addrMask) + s.offset
    let l2 := (s.read p l3 pdpIndex &&& addrMask) + s.offset
    let l1 := (s.read p l2 pdIndex &&& addrMask) + s.offset
    ⟨none, none, s.write p l1 ptIndex (s.read p l1 ptIndex &&& ~~~presentFlag)⟩

end Machine

end Betelgeuse
