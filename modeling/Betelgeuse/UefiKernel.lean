/-
Loading the kernel's image (the loop over the program headers in `efi_main`).

A segment is taken to reach to the next header's offset in the file, and both ends of
its pages are rounded down, with one page added: a segment that ends at a page boundary
gets the page behind it, too.  `map_pages` drops the calls for pages that are mapped
already, so that such a page is lost for the segment it belongs to
(`not_loads_gapImage`).  The range that is reported to the kernel has the pages of the
first header only.

`loads_iff` says when the image is loaded as its headers say: of all the headers' pages,
the first one at the place of a page has to be that page of the file (`Served`).  As the
first header's pages come first and are the ones that are reported, this leaves no other
way than that the whole image is laid out as in the file, behind the first header
(`InPlace`).
-/
import Betelgeuse.UefiPoolSafe
import Betelgeuse.UefiTree

open PageTree WordArith

namespace Betelgeuse

/-! ### The image -/

/-- `Elf64_header`, as far as `efi_main` looks at it before the loop. -/
structure Elf64Header where
  magicChars : Fin 4 → UInt8
  identClass : UInt8
  machine : UInt16
  progHeaderEntryNum : UInt16

/-- `ELF_MAGIC_OK`. -/
def elfMagicOk (x : Fin 4 → UInt8) : Bool :=
  x 0 == 0x7F && x 1 == 0x45 && x 2 == 0x4c && x 3 == 0x46

/-- The checks of `efi_main`. -/
def Elf64Header.ok (h : Elf64Header) : Bool :=
  elfMagicOk h.magicChars && h.identClass == 0x02 && h.machine == 0x3E

/-- `Elf64_program_table_entry`, as far as the loop reads it or the image is described by
it. -/
structure Elf64ProgramTableEntry where
  type : UInt32
  offset : UInt64
  vaddr : UInt64
  filesize : UInt64
  memsize : UInt64

/-- `segment_size`: the distance to the next header's offset, for the last header to the
end of the file. -/
def segmentSize (kernelSize : UInt64) (e : Elf64ProgramTableEntry)
    (rest : List Elf64ProgramTableEntry) : UInt64 :=
  match rest with
  | [] => kernelSize - e.offset
  | next :: _ => next.offset - e.offset

/-- One round of the loop up to the call of `map_pages`. -/
def segmentOf (kernelBuf segmentSize : UInt64) (e : Elf64ProgramTableEntry) : Segment :=
  let segmentBaseAddr := e.vaddr
  let segmentPageBaseAddr := segmentBaseAddr - segmentBaseAddr % 0x1000
  let segmentMaxAddr := segmentBaseAddr + segmentSize
  let segmentPageMaxAddr := segmentMaxAddr - segmentMaxAddr % 0x1000
  { physAddr := kernelBuf + e.offset
    baseAddr := segmentBaseAddr
    pages := 1 + (segmentPageMaxAddr - segmentPageBaseAddr) / 0x1000 }

/-- The rounds of the loop. -/
def kernelSegments (kernelBuf kernelSize : UInt64) : List Elf64ProgramTableEntry → List Segment
  | [] => []
  | e :: rest => segmentOf kernelBuf (segmentSize kernelSize e rest) e ::
      kernelSegments kernelBuf kernelSize rest

/-- The tables, and the two fields of the boot table that the loop sets. -/
structure KernelLoad where
  mapping : Mapping
  kernelStartPointer : UInt64
  kernelPageCount : UInt64

/-- The rest of a round.  `map_pages` ends without a `return`, so that there is no status
to look at; `highest_page_mapped` is read by nothing and left out. -/
def KernelLoad.mapSegment (s : KernelLoad) (g : Segment) : KernelLoad where
  mapping := s.mapping.mapPages g.physAddr g.baseAddr g.pages.toNat
  kernelStartPointer := if s.kernelStartPointer = 0 then g.baseAddr else s.kernelStartPointer
  kernelPageCount := if s.kernelPageCount = 0 then g.pages else s.kernelPageCount

/-- The loop over the program headers. -/
def loadKernel (s : Mapping) (kernelBuf kernelSize : UInt64)
    (entries : List Elf64ProgramTableEntry) : KernelLoad :=
  (kernelSegments kernelBuf kernelSize entries).foldl KernelLoad.mapSegment ⟨s, 0, 0⟩

/-! ### The requests for pages -/

/-- The calls of `map_page` in `map_pages`. -/
def pageCalls (srcAddr destAddr : UInt64) (pageCount : ℕ) : List MapCall :=
  (List.range pageCount).map fun i =>
    ⟨srcAddr + UInt64.ofNat i <<< 12, destAddr + UInt64.ofNat i <<< 12⟩

/-- The calls of `map_page` in some rounds of the loop. -/
def segmentCalls (segments : List Segment) : List MapCall :=
  segments.flatMap fun g => pageCalls g.physAddr g.baseAddr g.pages.toNat

/-- All calls of `map_page` for an image. -/
def imageCalls (kernelBuf kernelSize : UInt64) (entries : List Elf64ProgramTableEntry) :
    List MapCall :=
  segmentCalls (kernelSegments kernelBuf kernelSize entries)

theorem Mapping.run_append (s : Mapping) (calls calls' : List MapCall) :
    s.run (calls ++ calls') = (s.run calls).run calls' := List.foldl_append ..

theorem Mapping.mapPages_eq_run (s : Mapping) (srcAddr destAddr : UInt64) (pageCount : ℕ) :
    s.mapPages srcAddr destAddr pageCount = s.run (pageCalls srcAddr destAddr pageCount) := by
  rw [Mapping.run, pageCalls, List.foldl_map]
  rfl

theorem foldl_mapPages (segments : List Segment) (s : Mapping) :
    segments.foldl (fun s g => s.mapPages g.physAddr g.baseAddr g.pages.toNat) s =
      s.run (segmentCalls segments) := by
  induction segments generalizing s with
  | nil => rfl
  | cons g segments ih =>
    have hcalls : segmentCalls (g :: segments) =
        pageCalls g.physAddr g.baseAddr g.pages.toNat ++ segmentCalls segments := List.flatMap_cons
    rw [List.foldl_cons, ih, Mapping.mapPages_eq_run, hcalls, Mapping.run_append]

/-- The loop as `efiMain` has it, beside the fields of the boot table. -/
theorem foldl_mapSegment (segments : List Segment) (t : KernelLoad) :
    (segments.foldl KernelLoad.mapSegment t).mapping = t.mapping.run (segmentCalls segments) := by
  rw [← foldl_mapPages]
  induction segments generalizing t with
  | nil => rfl
  | cons g segments ih => exact ih _

theorem loadKernel_mapping (s : Mapping) (kernelBuf kernelSize : UInt64)
    (entries : List Elf64ProgramTableEntry) :
    (loadKernel s kernelBuf kernelSize entries).mapping =
      s.run (imageCalls kernelBuf kernelSize entries) := foldl_mapSegment ..

/-! ### What is reported -/

/-- The first nonzero address of a segment. -/
def firstVaddr (entries : List Elf64ProgramTableEntry) : UInt64 :=
  ((entries.map Elf64ProgramTableEntry.vaddr).find? (· ≠ 0)).getD 0

/-- The pages of the first header: those from its own to that of the next header's
offset. -/
def firstPages (kernelSize : UInt64) : List Elf64ProgramTableEntry → UInt64
  | [] => 0
  | e :: rest => (segmentOf 0 (segmentSize kernelSize e rest) e).pages

theorem segmentOf_pages_ne_zero (kernelBuf size : UInt64) (e : Elf64ProgramTableEntry) :
    (segmentOf kernelBuf size e).pages ≠ 0 := by
  unfold segmentOf
  dsimp only
  generalize (e.vaddr + size - (e.vaddr + size) % 0x1000 - (e.vaddr - e.vaddr % 0x1000)) = d
  intro hzero
  have hsum := congrArg UInt64.toNat hzero
  have hlt := d.toNat_lt
  rw [UInt64.toNat_add, UInt64.toNat_div, show (0x1000 : UInt64).toNat = 4096 from rfl,
    show (1 : UInt64).toNat = 1 from rfl, UInt64.toNat_zero] at hsum
  omega

theorem foldl_mapSegment_start (kernelBuf kernelSize : UInt64)
    (entries : List Elf64ProgramTableEntry) (t : KernelLoad) :
    ((kernelSegments kernelBuf kernelSize entries).foldl KernelLoad.mapSegment t).kernelStartPointer
      = if t.kernelStartPointer = 0 then firstVaddr entries else t.kernelStartPointer := by
  induction entries generalizing t with
  | nil =>
    by_cases hzero : t.kernelStartPointer = 0
    · rw [if_pos hzero]
      exact hzero
    · rw [if_neg hzero]
      rfl
  | cons e rest ih =>
    rw [kernelSegments, List.foldl_cons, ih]
    by_cases hzero : t.kernelStartPointer = 0
    · have hstart : (t.mapSegment (segmentOf kernelBuf (segmentSize kernelSize e rest)
          e)).kernelStartPointer = e.vaddr := if_pos hzero
      rw [hstart, if_pos hzero, firstVaddr, firstVaddr, List.map_cons]
      by_cases hvaddr : e.vaddr = 0
      · rw [if_pos hvaddr, List.find?_cons_of_neg (by simpa using hvaddr)]
      · rw [if_neg hvaddr, List.find?_cons_of_pos (by simpa using hvaddr)]
        rfl
    · have hstart : (t.mapSegment (segmentOf kernelBuf (segmentSize kernelSize e rest)
          e)).kernelStartPointer = t.kernelStartPointer := if_neg hzero
      rw [hstart, if_neg hzero, if_neg hzero]

theorem foldl_mapSegment_count (segments : List Segment) (t : KernelLoad)
    (h : t.kernelPageCount ≠ 0) :
    (segments.foldl KernelLoad.mapSegment t).kernelPageCount = t.kernelPageCount := by
  induction segments generalizing t with
  | nil => rfl
  | cons g segments ih =>
    have hcount : (t.mapSegment g).kernelPageCount = t.kernelPageCount := if_neg h
    rw [List.foldl_cons, ih _ (hcount ▸ h), hcount]

theorem loadKernel_start (s : Mapping) (kernelBuf kernelSize : UInt64)
    (entries : List Elf64ProgramTableEntry) :
    (loadKernel s kernelBuf kernelSize entries).kernelStartPointer = firstVaddr entries := by
  rw [loadKernel, foldl_mapSegment_start, if_pos rfl]

theorem loadKernel_count (s : Mapping) (kernelBuf kernelSize : UInt64)
    (entries : List Elf64ProgramTableEntry) :
    (loadKernel s kernelBuf kernelSize entries).kernelPageCount =
      firstPages kernelSize entries := by
  cases entries with
  | nil => rfl
  | cons e rest =>
    have hpages := segmentOf_pages_ne_zero kernelBuf (segmentSize kernelSize e rest) e
    have hcount : (KernelLoad.mapSegment ⟨s, 0, 0⟩ (segmentOf kernelBuf (segmentSize kernelSize e
        rest) e)).kernelPageCount = (segmentOf kernelBuf (segmentSize kernelSize e rest) e).pages :=
      rfl
    rw [loadKernel, kernelSegments, List.foldl_cons, foldl_mapSegment_count _ _ (hcount ▸ hpages),
      hcount]
    rfl

/-! ### Images that are loaded as their headers say -/

/-- The physical address of a virtual one. -/
def translateByte (mem : UInt64 → UInt64) (root : Frame) (va : UInt64) : Option UInt64 :=
  (translate mem root va).map fun page => page + va % 0x1000

namespace Elf64ProgramTableEntry

/-- Where byte `k` of the segment is to be mapped. -/
def byteVaddr (e : Elf64ProgramTableEntry) (k : ℕ) : UInt64 := e.vaddr + UInt64.ofNat k

/-- Where byte `k` of the segment lies in memory. -/
def byteAddr (kernelBuf : UInt64) (e : Elf64ProgramTableEntry) (k : ℕ) : UInt64 :=
  kernelBuf + e.offset + UInt64.ofNat k

/-- The numbers of the pages that the segment has in memory. -/
def pageRange (e : Elf64ProgramTableEntry) : Set ℕ :=
  {p | ∃ k < e.memsize.toNat, p = (e.vaddr.toNat + k) / 4096}

end Elf64ProgramTableEntry

/-- An image that passes the checks, and the buffer into which it has been read. -/
structure KernelImage (h : Elf64Header) (kernelBuf kernelSize : UInt64)
    (entries : List Elf64ProgramTableEntry) : Prop where
  ok : h.ok = true
  length_eq : entries.length = h.progHeaderEntryNum.toNat
  loadable : ∀ e ∈ entries, e.type = 1
  sorted : entries.Pairwise fun e e' => e.offset ≤ e'.offset
  congruent : ∀ e ∈ entries, e.offset.toNat % 4096 = e.vaddr.toNat % 4096
  apart : entries.Pairwise fun e e' => ∀ p ∈ e.pageRange, p ∉ e'.pageRange
  in_file : ∀ e ∈ entries, e.offset.toNat + e.filesize.toNat ≤ kernelSize.toNat
  in_memory : ∀ e ∈ entries, e.filesize ≤ e.memsize ∧ e.vaddr.toNat + e.memsize.toNat ≤ 2 ^ 64
  aligned : kernelBuf.toNat % 4096 = 0
  fits : kernelBuf.toNat + kernelSize.toNat ≤ 2 ^ 52

/-- The tables that the image goes to.  They keep the invariant of the pool; no call of
the loop meets a large page above the page tables or finds the pool used up; for the bytes
of the image nothing is mapped yet; and the tables on their walks are linked once.  The
last is an assumption of its own: with `MAPPING_TYPE_MAP_ALL` the tables of the lower half
are linked from the upper half, too, and a page that is mapped below is seen above. -/
structure KernelTables (root : Frame) (newMap pageCount : UInt64) (L : ℕ → Set Frame)
    (s : Mapping) (calls : List MapCall) (entries : List Elf64ProgramTableEntry) : Prop where
  pool : Pool .mapAll root newMap pageCount s L
  calls_fit : ∀ before c after, calls = before ++ c :: after → c.Fits .mapAll root (s.run before)
  once : ∀ e ∈ entries, ∀ k < e.filesize.toNat, s.Once root (vaPath (e.byteVaddr k))
  unmapped : ∀ e ∈ entries, ∀ k < e.filesize.toNat, s.leaf root (vaPath (e.byteVaddr k)) = none

/-- The page of the address is one of `count` pages from that of `start` on. -/
def Reported (start count va : UInt64) : Prop :=
  start.toNat / 4096 ≤ va.toNat / 4096 ∧ va.toNat / 4096 < start.toNat / 4096 + count.toNat

/-- Every byte of the file that belongs to a segment is mapped, and reported. -/
def KernelLoad.Loads (t : KernelLoad) (kernelBuf : UInt64)
    (entries : List Elf64ProgramTableEntry) : Prop :=
  ∀ e ∈ entries, ∀ k < e.filesize.toNat,
    translateByte t.mapping.mem (entryFrame t.mapping.pml4Pointer) (e.byteVaddr k) =
      some (e.byteAddr kernelBuf k) ∧
    Reported t.kernelStartPointer t.kernelPageCount (e.byteVaddr k)

/-- The offset in the file up to which a header's pages are taken to reach, with the
headers behind it. -/
def segmentEnd (kernelSize : UInt64) : List Elf64ProgramTableEntry → UInt64
  | [] => kernelSize
  | next :: _ => next.offset

/-- The place of an address is that of page `i` of the header, which is taken to have all
pages in the file up to the one at which it ends. -/
def Elf64ProgramTableEntry.HasPage (kernelSize : UInt64) (e : Elf64ProgramTableEntry)
    (rest : List Elf64ProgramTableEntry) (va : UInt64) (i : ℕ) : Prop :=
  e.offset.toNat / 4096 + i ≤ (segmentEnd kernelSize rest).toNat / 4096 ∧
    (e.vaddr.toNat / 4096 + i) % 2 ^ 36 = va.toNat / 4096 % 2 ^ 36

/-- Page `p` of the file is the first one, in the order of the headers, that has the place
of an address. -/
def FirstPage (kernelSize : UInt64) : List Elf64ProgramTableEntry → UInt64 → ℕ → Prop
  | [], _, _ => False
  | e :: rest, va, p =>
    (∃ i, e.HasPage kernelSize rest va i ∧ (∀ j < i, ¬ e.HasPage kernelSize rest va j) ∧
      p = e.offset.toNat / 4096 + i) ∨
    (∀ i, ¬ e.HasPage kernelSize rest va i) ∧ FirstPage kernelSize rest va p

/-- The first page at the address of a byte is the one in which the file has the byte, as
far as an entry tells frames apart; and it is one of the pages of the first header, counted
from the first nonzero address on. -/
def Served (kernelSize : UInt64) (entries : List Elf64ProgramTableEntry) : Prop :=
  ∀ e ∈ entries, ∀ k < e.filesize.toNat,
    (∃ p, FirstPage kernelSize entries (e.byteVaddr k) p ∧
      p % 2 ^ 40 = (e.offset.toNat + k) / 4096 % 2 ^ 40) ∧
    Reported (firstVaddr entries) (firstPages kernelSize entries) (e.byteVaddr k)

/-- Every header with bytes in the file lies as far behind the first one in the address
space as in the file, and ends there in a page that the first one reaches. -/
def InPlace (kernelSize : UInt64) (first : Elf64ProgramTableEntry)
    (rest : List Elf64ProgramTableEntry) : Prop :=
  ∀ e ∈ first :: rest, e.filesize ≠ 0 →
    e.vaddr.toNat + first.offset.toNat = first.vaddr.toNat + e.offset.toNat ∧
    (e.offset.toNat + e.filesize.toNat - 1) / 4096 ≤ (segmentEnd kernelSize rest).toNat / 4096

section Loads

variable {h : Elf64Header} {kernelBuf kernelSize newMap pageCount : UInt64} {root : Frame}
  {entries : List Elf64ProgramTableEntry} {s : Mapping} {L : ℕ → Set Frame}

theorem Pool.run_pml4 {calls : List MapCall} (hpool : Pool .mapAll root newMap pageCount s L)
    (hcalls : ∀ before c after, calls = before ++ c :: after →
      c.Fits .mapAll root (s.run before)) : entryFrame (s.run calls).pml4Pointer = root := by
  obtain ⟨⟨L', h'⟩, -⟩ := hpool.run hcalls
  rw [h'.pml4, entryFrame_addr]

/-- The bytes of the file do not wrap around in memory. -/
theorem KernelImage.toNat_byteAddr (himage : KernelImage h kernelBuf kernelSize entries)
    {e : Elf64ProgramTableEntry} (he : e ∈ entries) {k : ℕ} (hk : k < e.filesize.toNat) :
    (e.byteAddr kernelBuf k).toNat = kernelBuf.toNat + e.offset.toNat + k := by
  have hfile := himage.in_file e he
  have hfits := himage.fits
  rw [Elf64ProgramTableEntry.byteAddr, UInt64.toNat_add, UInt64.toNat_add,
    UInt64.toNat_ofNat']
  omega

/-- A byte of the image lies as far behind its page in memory as in the address space. -/
theorem KernelImage.byteAddr_split (himage : KernelImage h kernelBuf kernelSize entries)
    {e : Elf64ProgramTableEntry} (he : e ∈ entries) {k : ℕ} (hk : k < e.filesize.toNat) :
    e.byteAddr kernelBuf k = (e.byteAddr kernelBuf k &&& addrMask) + e.byteVaddr k % 0x1000 := by
  have hfile := himage.in_file e he
  have hfits := himage.fits
  have haligned := himage.aligned
  have hcongr := himage.congruent e he
  have hkt : (UInt64.ofNat k).toNat = k := by
    rw [UInt64.toNat_ofNat']
    omega
  have hpa := himage.toNat_byteAddr he hk
  have hva : (e.byteVaddr k % 0x1000).toNat = (kernelBuf.toNat + e.offset.toNat + k) % 4096 := by
    rw [UInt64.toNat_mod, Elf64ProgramTableEntry.byteVaddr, UInt64.toNat_add, hkt,
      show (0x1000 : UInt64).toNat = 4096 from rfl]
    omega
  rw [← UInt64.toNat_inj, UInt64.toNat_add, toNat_and_addrMask, hva, hpa]
  omega

theorem toNat_add_pages (x : UInt64) (i : ℕ) :
    (x + UInt64.ofNat i <<< 12).toNat = (x.toNat + i * 4096) % 2 ^ 64 := by
  rw [UInt64.toNat_add, toNat_shiftLeft (n := 12) rfl, UInt64.toNat_ofNat']
  omega

theorem KernelImage.end_bounds (before : List Elf64ProgramTableEntry)
    {e : Elf64ProgramTableEntry} {rest : List Elf64ProgramTableEntry}
    (himage : KernelImage h kernelBuf kernelSize (before ++ e :: rest)) :
    e.offset.toNat ≤ (segmentEnd kernelSize rest).toNat ∧
      (segmentEnd kernelSize rest).toNat ≤ kernelSize.toNat := by
  have hsorted := (List.pairwise_append.mp himage.sorted).2.1
  cases rest with
  | nil =>
    have hfile := himage.in_file e (List.mem_append_right _ (List.mem_singleton_self _))
    exact ⟨by rw [segmentEnd]; omega, le_rfl⟩
  | cons next rest =>
    have hle := List.rel_of_pairwise_cons hsorted (List.mem_cons_self (a := next))
    have hfile := himage.in_file next
      (List.mem_append_right _ (List.mem_cons_of_mem _ List.mem_cons_self))
    exact ⟨UInt64.le_iff_toNat_le.mp hle, by rw [segmentEnd]; omega⟩

theorem KernelImage.toNat_segmentSize (before : List Elf64ProgramTableEntry)
    {e : Elf64ProgramTableEntry} {rest : List Elf64ProgramTableEntry}
    (himage : KernelImage h kernelBuf kernelSize (before ++ e :: rest)) :
    (segmentSize kernelSize e rest).toNat =
      (segmentEnd kernelSize rest).toNat - e.offset.toNat := by
  have hsub : segmentSize kernelSize e rest = segmentEnd kernelSize rest - e.offset := by
    cases rest with
    | nil => rfl
    | cons next rest => rfl
  rw [hsub, UInt64.toNat_sub_of_le _ _ (UInt64.le_iff_toNat_le.mpr (himage.end_bounds before).1)]

/-- A header asks for the pages of the file from its own offset to its end, both
included. -/
theorem KernelImage.toNat_pages (before : List Elf64ProgramTableEntry)
    {e : Elf64ProgramTableEntry} {rest : List Elf64ProgramTableEntry}
    (himage : KernelImage h kernelBuf kernelSize (before ++ e :: rest)) (buf : UInt64) :
    (segmentOf buf (segmentSize kernelSize e rest) e).pages.toNat =
      (segmentEnd kernelSize rest).toNat / 4096 - e.offset.toNat / 4096 + 1 := by
  obtain ⟨hle, hend⟩ := himage.end_bounds before
  have hsize := himage.toNat_segmentSize before
  have hcongr := himage.congruent e (List.mem_append_right _ List.mem_cons_self)
  have hfits := himage.fits
  have hpage : (0x1000 : UInt64).toNat = 4096 := rfl
  have hvaddr := e.vaddr.toNat_lt
  unfold segmentOf
  dsimp only
  -- both ends are rounded down; their distance does not wrap around, even if the end does
  have hbase : (e.vaddr - e.vaddr % 0x1000).toNat = e.vaddr.toNat / 4096 * 4096 := by
    have hmod : (e.vaddr % 0x1000).toNat = e.vaddr.toNat % 4096 := by
      rw [UInt64.toNat_mod, hpage]
    rw [UInt64.toNat_sub, hmod]
    omega
  generalize hmax : e.vaddr + segmentSize kernelSize e rest = pageMax
  have hmaxNat : pageMax.toNat = (e.vaddr.toNat + ((segmentEnd kernelSize rest).toNat -
      e.offset.toNat)) % 2 ^ 64 := by
    rw [← hmax, UInt64.toNat_add, hsize]
  have htop : (pageMax - pageMax % 0x1000).toNat = pageMax.toNat / 4096 * 4096 := by
    have hmod : (pageMax % 0x1000).toNat = pageMax.toNat % 4096 := by
      rw [UInt64.toNat_mod, hpage]
    have hlt := pageMax.toNat_lt
    rw [UInt64.toNat_sub, hmod]
    omega
  rw [UInt64.toNat_add, UInt64.toNat_div, UInt64.toNat_sub, hbase, htop, hpage, hmaxNat,
    show (1 : UInt64).toNat = 1 from rfl]
  omega

/-- The calls for a header are those for its pages. -/
theorem KernelImage.hasPage_iff (before : List Elf64ProgramTableEntry)
    {e : Elf64ProgramTableEntry} {rest : List Elf64ProgramTableEntry}
    (himage : KernelImage h kernelBuf kernelSize (before ++ e :: rest)) {va : UInt64} {i : ℕ} :
    e.HasPage kernelSize rest va i ↔
      i < (segmentOf kernelBuf (segmentSize kernelSize e rest) e).pages.toNat ∧
        vaPath (e.vaddr + UInt64.ofNat i <<< 12) = vaPath va := by
  have hpages := himage.toNat_pages before kernelBuf
  obtain ⟨hle, -⟩ := himage.end_bounds before
  have hplace : (e.vaddr + UInt64.ofNat i <<< 12).toNat / 4096 % 68719476736 =
      (e.vaddr.toNat / 4096 + i) % 2 ^ 36 := by
    rw [toNat_add_pages]
    omega
  exact and_congr (by omega) ⟨fun hpage => vaPath_eq_of_page_mod_eq (hplace.trans hpage),
    fun hpath => hplace.symm.trans (page_mod_eq_of_vaPath_eq hpath)⟩

/-- The first of all calls for an address is the one for the first page at its place. -/
theorem KernelImage.firstCall_iff {va : UInt64} {entries : List Elf64ProgramTableEntry}
    (before : List Elf64ProgramTableEntry)
    (himage : KernelImage h kernelBuf kernelSize (before ++ entries)) {P : ℕ → Prop} :
    (∃ c, firstCall (imageCalls kernelBuf kernelSize entries) (vaPath va) = some c ∧
        P (c.physAddr.toNat / 4096)) ↔
      ∃ p, FirstPage kernelSize entries va p ∧ P (kernelBuf.toNat / 4096 + p) := by
  induction entries generalizing before with
  | nil =>
    constructor
    · rintro ⟨c, hc, -⟩
      cases hc
    · rintro ⟨p, hp, -⟩
      exact hp.elim
  | cons e rest ih =>
    have ih := ih (before ++ [e]) (by rwa [List.append_assoc])
    have hpages := himage.toNat_pages before kernelBuf
    obtain ⟨hle, hend⟩ := himage.end_bounds before
    have haligned := himage.aligned
    have hfits := himage.fits
    have hhas : ∀ i, e.HasPage kernelSize rest va i ↔ _ := fun i => himage.hasPage_iff before
    generalize hn : (segmentOf kernelBuf (segmentSize kernelSize e rest) e).pages.toNat = n
      at hpages hhas
    have hcalls : imageCalls kernelBuf kernelSize (e :: rest) =
        pageCalls (kernelBuf + e.offset) e.vaddr n ++ imageCalls kernelBuf kernelSize rest := by
      rw [← hn, imageCalls, kernelSegments, segmentCalls, List.flatMap_cons]
      rfl
    rw [firstCall, hcalls, List.find?_append, pageCalls, List.find?_map]
    cases hfind : (List.range n).find? ((fun c : MapCall => decide (vaPath c.vaAddr = vaPath va)) ∘
        fun i => ⟨kernelBuf + e.offset + UInt64.ofNat i <<< 12,
          e.vaddr + UInt64.ofNat i <<< 12⟩) with
    | none =>
      -- the header has no page there: the next ones decide
      have hno : ∀ i, ¬ e.HasPage kernelSize rest va i := by
        intro i hi
        obtain ⟨hlt, hpath⟩ := (hhas i).mp hi
        have hfalse := List.find?_range_eq_none.mp hfind i hlt
        rw [Function.comp_apply, decide_eq_true hpath] at hfalse
        cases hfalse
      have hfirst : ∀ p, FirstPage kernelSize (e :: rest) va p ↔
          FirstPage kernelSize rest va p := by
        intro p
        constructor
        · rintro (⟨i, hi, -⟩ | ⟨-, hp⟩)
          · exact absurd hi (hno i)
          · exact hp
        · exact fun hp => .inr ⟨hno, hp⟩
      simp only [hfirst]
      exact ih
    | some i =>
      -- the least page of the header is the one that is asked for first
      obtain ⟨hpath, hrange, hbefore⟩ := List.find?_range_eq_some.mp hfind
      have hi : e.HasPage kernelSize rest va i :=
        (hhas i).mpr ⟨List.mem_range.mp hrange, of_decide_eq_true hpath⟩
      have hleast : ∀ j < i, ¬ e.HasPage kernelSize rest va j := by
        intro j hj hpage
        have hfalse := hbefore j hj
        rw [Function.comp_apply, decide_eq_true ((hhas j).mp hpage).2] at hfalse
        cases hfalse
      have hframe : (kernelBuf + e.offset + UInt64.ofNat i <<< 12).toNat / 4096 =
          kernelBuf.toNat / 4096 + (e.offset.toNat / 4096 + i) := by
        have hlast := hi.1
        rw [toNat_add_pages, UInt64.toNat_add]
        omega
      rw [Option.map_some, Option.some_or]
      constructor
      · rintro ⟨c, hc, hP⟩
        obtain rfl := Option.some.inj hc
        exact ⟨_, .inl ⟨i, hi, hleast, rfl⟩, hframe ▸ hP⟩
      · rintro ⟨p, ⟨i', hi', hleast', rfl⟩ | ⟨hno, -⟩, hP⟩
        · obtain rfl : i' = i := le_antisymm (not_lt.mp fun hlt => hleast' _ hlt hi)
            (not_lt.mp fun hlt => hleast _ hlt hi')
          exact ⟨_, rfl, hframe.symm ▸ hP⟩
        · exact absurd hi (hno i)

/-- The image is loaded exactly if the first page at each place is the right one, and the
pages of the first header are enough. -/
theorem loads_iff_served (himage : KernelImage h kernelBuf kernelSize entries)
    (htables : KernelTables root newMap pageCount L s (imageCalls kernelBuf kernelSize entries)
      entries) :
    (loadKernel s kernelBuf kernelSize entries).Loads kernelBuf entries ↔
      Served kernelSize entries := by
  unfold KernelLoad.Loads Served
  rw [loadKernel_mapping, loadKernel_start, loadKernel_count,
    htables.pool.run_pml4 htables.calls_fit]
  refine forall_congr' fun e => forall_congr' fun he => forall_congr' fun k =>
    forall_congr' fun hk => and_congr_left fun _ => ?_
  have hsplit := himage.byteAddr_split he hk
  have haligned := himage.aligned
  have hbyte : (e.byteAddr kernelBuf k).toNat / 4096 =
      kernelBuf.toNat / 4096 + (e.offset.toNat + k) / 4096 := by
    rw [himage.toNat_byteAddr he hk]
    omega
  -- what is reached is the byte if the frame is the byte's own
  have hreached : (∃ c, firstCall (imageCalls kernelBuf kernelSize entries)
      (vaPath (e.byteVaddr k)) = some c ∧
        c.physAddr.toNat / 4096 % 2 ^ 40 = (e.byteAddr kernelBuf k).toNat / 4096 % 2 ^ 40) ↔ _ :=
    himage.firstCall_iff [] (P := fun n => n % 2 ^ 40 = _ % 2 ^ 40)
  have hpages : ∀ p, (kernelBuf.toNat / 4096 + p) % 2 ^ 40 =
      (e.byteAddr kernelBuf k).toNat / 4096 % 2 ^ 40 ↔
        p % 2 ^ 40 = (e.offset.toNat + k) / 4096 % 2 ^ 40 := by
    intro p
    rw [hbyte]
    omega
  simp only [← hpages]
  rw [← hreached, translateByte, htables.pool.run_translate htables.calls_fit
    (htables.once e he k hk) (htables.unmapped e he k hk)]
  have hframe : ∀ c : MapCall, c.physAddr &&& addrMask = e.byteAddr kernelBuf k &&& addrMask ↔
      c.physAddr.toNat / 4096 % 2 ^ 40 = (e.byteAddr kernelBuf k).toNat / 4096 % 2 ^ 40 := by
    intro c
    rw [← UInt64.toNat_inj, toNat_and_addrMask, toNat_and_addrMask]
    omega
  simp only [← hframe]
  constructor
  · intro heq
    obtain ⟨page, hpage, hsum⟩ := Option.map_eq_some_iff.mp heq
    obtain ⟨c, hc, rfl⟩ := Option.map_eq_some_iff.mp hpage
    rw [hsplit] at hsum
    exact ⟨c, hc, (UInt64.add_left_inj _).mp hsum⟩
  · rintro ⟨c, hc, hframe⟩
    rw [hc, Option.map_some, Option.map_some, hframe, ← hsplit]

end Loads

/-! ### Images whose first header has an address -/

section InPlace

variable {h : Elf64Header} {kernelBuf kernelSize va : UInt64} {first : Elf64ProgramTableEntry}
  {rest : List Elf64ProgramTableEntry}

/-- The pages of the first header come before all others. -/
theorem KernelImage.firstPage_of_reported
    (himage : KernelImage h kernelBuf kernelSize (first :: rest))
    (hsize : kernelSize.toNat < 2 ^ 48)
    (hva : Reported first.vaddr (firstPages kernelSize (first :: rest)) va) {p : ℕ} :
    FirstPage kernelSize (first :: rest) va p ↔
      p = first.offset.toNat / 4096 + (va.toNat / 4096 - first.vaddr.toNat / 4096) := by
  obtain ⟨hlow, hhigh⟩ := hva
  obtain ⟨hle, hend⟩ := himage.end_bounds []
  have hpages : (firstPages kernelSize (first :: rest)).toNat = _ := himage.toNat_pages [] 0
  generalize hd : va.toNat / 4096 - first.vaddr.toNat / 4096 = d
  have hhas : first.HasPage kernelSize rest va d := ⟨by omega, by omega⟩
  have hleast : ∀ i, first.HasPage kernelSize rest va i → i = d := by
    rintro i ⟨hi, hplace⟩
    omega
  constructor
  · rintro (⟨i, hi, -, rfl⟩ | ⟨hno, -⟩)
    · rw [hleast i hi]
    · exact absurd hhas (hno d)
  · rintro rfl
    exact .inl ⟨d, hhas, fun j hj hpage => hj.ne (hleast j hpage), rfl⟩

/-- Bytes of the file do not wrap around in the address space. -/
theorem KernelImage.toNat_byteVaddr (himage : KernelImage h kernelBuf kernelSize (first :: rest))
    {e : Elf64ProgramTableEntry} (he : e ∈ first :: rest) {k : ℕ} (hk : k < e.filesize.toNat) :
    (e.byteVaddr k).toNat = e.vaddr.toNat + k := by
  obtain ⟨hle, hmem⟩ := himage.in_memory e he
  have hle' := UInt64.le_iff_toNat_le.mp hle
  rw [Elf64ProgramTableEntry.byteVaddr, UInt64.toNat_add, UInt64.toNat_ofNat']
  omega

/-- If the first header is not at address 0, the range that is reported is the one that it
asks for, and serves, itself. -/
theorem KernelImage.served_iff (himage : KernelImage h kernelBuf kernelSize (first :: rest))
    (hfirst : first.vaddr ≠ 0) (hsize : kernelSize.toNat < 2 ^ 48) :
    Served kernelSize (first :: rest) ↔ InPlace kernelSize first rest := by
  have hstart : firstVaddr (first :: rest) = first.vaddr := by
    rw [firstVaddr, List.map_cons, List.find?_cons_of_pos (by simpa using hfirst)]
    rfl
  have hpages : (firstPages kernelSize (first :: rest)).toNat = _ := himage.toNat_pages [] 0
  obtain ⟨hle, hend⟩ := himage.end_bounds []
  have hfirstCongr := himage.congruent first List.mem_cons_self
  unfold Served InPlace
  rw [hstart]
  refine forall_congr' fun e => forall_congr' fun he => ?_
  have hcongr := himage.congruent e he
  have hfile := himage.in_file e he
  constructor
  · intro hserved hne
    have hpos : 0 < e.filesize.toNat :=
      Nat.pos_of_ne_zero fun heq => hne (UInt64.toNat_inj.mp heq)
    -- the first byte gives the distance, the last one the end
    have hpage : ∀ k < e.filesize.toNat,
        first.vaddr.toNat / 4096 ≤ (e.vaddr.toNat + k) / 4096 ∧
        (e.vaddr.toNat + k) / 4096 - first.vaddr.toNat / 4096 <
          (firstPages kernelSize (first :: rest)).toNat ∧
        first.offset.toNat / 4096 + ((e.vaddr.toNat + k) / 4096 - first.vaddr.toNat / 4096) =
          (e.offset.toNat + k) / 4096 := by
      intro k hk
      obtain ⟨⟨p, hp, hmod⟩, hrep⟩ := hserved k hk
      obtain rfl := (himage.firstPage_of_reported hsize hrep).mp hp
      have hbyte := himage.toNat_byteVaddr he hk
      obtain ⟨hlow, hhigh⟩ := hrep
      rw [hbyte] at hlow hhigh hmod
      exact ⟨hlow, by omega, by omega⟩
    obtain ⟨hlow, -, hzero⟩ := hpage 0 hpos
    obtain ⟨-, hlast, hlastEq⟩ := hpage (e.filesize.toNat - 1) (by omega)
    exact ⟨by omega, by omega⟩
  · intro hplace k hk
    have hne : e.filesize ≠ 0 := by
      rintro heq
      rw [heq, UInt64.toNat_zero] at hk
      exact absurd hk (Nat.not_lt_zero _)
    obtain ⟨hdist, hlast⟩ := hplace hne
    have hoffset : first.offset.toNat ≤ e.offset.toNat := by
      rcases List.mem_cons.mp he with rfl | he
      · exact le_rfl
      · exact UInt64.le_iff_toNat_le.mp (List.rel_of_pairwise_cons himage.sorted he)
    have hbyte := himage.toNat_byteVaddr he hk
    have hrep : Reported first.vaddr (firstPages kernelSize (first :: rest)) (e.byteVaddr k) :=
      ⟨by omega, by omega⟩
    refine ⟨⟨_, (himage.firstPage_of_reported hsize hrep).mpr rfl, ?_⟩, hrep⟩
    rw [hbyte]
    omega

end InPlace

/-- The image is loaded exactly if the first pages at the places of its own serve it.  If
the first header is not at address 0, that is to say that all bytes of the file lie behind the first
header's as they do in the file, and end where its own pages end. -/
theorem loads_iff {h : Elf64Header} {kernelBuf kernelSize newMap pageCount : UInt64}
    {root : Frame} {entries : List Elf64ProgramTableEntry} {s : Mapping} {L : ℕ → Set Frame}
    (himage : KernelImage h kernelBuf kernelSize entries)
    (htables : KernelTables root newMap pageCount L s (imageCalls kernelBuf kernelSize entries)
      entries) :
    ((loadKernel s kernelBuf kernelSize entries).Loads kernelBuf entries ↔
      Served kernelSize entries) ∧
    ∀ first rest, entries = first :: rest → first.vaddr ≠ 0 → kernelSize.toNat < 2 ^ 48 →
      ((loadKernel s kernelBuf kernelSize entries).Loads kernelBuf entries ↔
        InPlace kernelSize first rest) := by
  have hserved := loads_iff_served himage htables
  refine ⟨hserved, ?_⟩
  rintro first rest rfl hfirst hsize
  rw [hserved, himage.served_iff hfirst hsize]

/-! ### A kernel with a gap in its file -/

def gapHeader : Elf64Header where
  magicChars i := [0x7F, 0x45, 0x4c, 0x46].getD i 0
  identClass := 0x02
  machine := 0x3E
  progHeaderEntryNum := 2

/-- The first segment has one page, but two pages of the file lie in front of the second
one. -/
def gapFirst : Elf64ProgramTableEntry := ⟨1, 0x1000, 0xFFFFFFFF80000000, 0x1000, 0x1000⟩

def gapSecond : Elf64ProgramTableEntry := ⟨1, 0x3000, 0xFFFFFFFF80001000, 0x1000, 0x1000⟩

theorem gapCalls : imageCalls 0x400000 0x4000 [gapFirst, gapSecond] =
    [⟨0x401000, 0xFFFFFFFF80000000⟩, ⟨0x402000, 0xFFFFFFFF80001000⟩,
      ⟨0x403000, 0xFFFFFFFF80002000⟩, ⟨0x403000, 0xFFFFFFFF80001000⟩,
      ⟨0x404000, 0xFFFFFFFF80002000⟩] := rfl

theorem gapImage : KernelImage gapHeader 0x400000 0x4000 [gapFirst, gapSecond] where
  ok := rfl
  length_eq := rfl
  loadable e he := by
    rcases List.mem_pair.mp he with rfl | rfl
    · rfl
    · rfl
  sorted := List.pairwise_pair.mpr (by decide)
  congruent e he := by
    rcases List.mem_pair.mp he with rfl | rfl
    · rfl
    · rfl
  apart := by
    refine List.pairwise_pair.mpr ?_
    rintro p ⟨k, hk, rfl⟩ ⟨k', hk', heq⟩
    have hfirst : gapFirst.vaddr.toNat = 0xFFFFFFFF80000000 := rfl
    have hsecond : gapSecond.vaddr.toNat = 0xFFFFFFFF80001000 := rfl
    have hsize : gapFirst.memsize.toNat = 4096 := rfl
    omega
  in_file e he := by
    rcases List.mem_pair.mp he with rfl | rfl
    · decide
    · decide
  in_memory e he := by
    rcases List.mem_pair.mp he with rfl | rfl
    · decide
    · decide
  aligned := rfl
  fits := by decide

theorem examplePool : Pool .mapAll exampleRoot exampleDest.physicalStart
    (exampleTables 8).numberOfPages (exampleMapping largePage 8)
    (movedLevels (firmwareMem largePage) firmwareRoot (exampleTables 8).physicalStart
      exampleDest.physicalStart) := by
  have hreloc := @exampleRelocatable largePage 8 largePage_ne_table (by decide)
  have h : Pool .mapAll _ _ _ _ _ :=
    initial_pool hreloc firmwareMem_usedToTheTop fun _ => firmwareMem_mirrorable
  rwa [moved_firmwareRoot] at h

/-- All bytes of the two segments lie under one unused entry of the PML4. -/
theorem gapTables : KernelTables exampleRoot exampleDest.physicalStart
    (exampleTables 8).numberOfPages (movedLevels (firmwareMem largePage) firmwareRoot
      (exampleTables 8).physicalStart exampleDest.physicalStart) (exampleMapping largePage 8)
    (imageCalls 0x400000 0x4000 [gapFirst, gapSecond]) [gapFirst, gapSecond] := by
  have habsent : decode 3 (word (exampleMapping largePage 8).mem exampleRoot 511) = .absent :=
    exampleRoot_entry largePage_ne_table (by decide) (.inr (by decide))
  -- every byte of the image lies under entry 511 of the PML4, which is not in use
  have hpath : ∀ e ∈ [gapFirst, gapSecond], ∀ k < e.filesize.toNat,
      ∃ ρ, vaPath (e.byteVaddr k) = 511 :: ρ := by
    intro e he k hk
    have hpage : vaPath (e.byteVaddr k) = vaPath e.vaddr := by
      refine vaPath_eq_of_page_eq ?_
      rw [Elf64ProgramTableEntry.byteVaddr, UInt64.toNat_add, UInt64.toNat_ofNat']
      rcases List.mem_pair.mp he with rfl | rfl
      · have hvaddr : gapFirst.vaddr.toNat = 0xFFFFFFFF80000000 := rfl
        have hsize : gapFirst.filesize.toNat = 4096 := rfl
        omega
      · have hvaddr : gapSecond.vaddr.toNat = 0xFFFFFFFF80001000 := rfl
        have hsize : gapSecond.filesize.toNat = 4096 := rfl
        omega
    rw [hpage]
    rcases List.mem_pair.mp he with rfl | rfl
    · exact ⟨[510, 0, 0], by decide⟩
    · exact ⟨[510, 0, 1], by decide⟩
  refine ⟨examplePool, ?_, fun e he k hk => ?_, fun e he k hk => ?_⟩
  · rw [gapCalls]
    refine examplePool.fits_of_same_table ⟨exampleFits.noLargePage, exampleFits.needed,
      exampleFits.notSelf⟩ fun c hc => ?_
    simp only [List.mem_cons, List.not_mem_nil, or_false] at hc
    rcases hc with rfl | rfl | rfl | rfl
    · decide
    · decide
    · decide
    · decide
  · obtain ⟨ρ, hρ⟩ := hpath e he k hk
    rw [hρ]
    exact examplePool.once_of_absent habsent
  · obtain ⟨ρ, hρ⟩ := hpath e he k hk
    rw [hρ]
    exact lookup_of_absent (decode_eq_absent (decode_absent_iff.mp habsent))

/-- The criterion for the kernel with a gap. -/
theorem loads_iff_gapImage :
    (loadKernel (exampleMapping largePage 8) 0x400000 0x4000 [gapFirst, gapSecond]).Loads 0x400000
        [gapFirst, gapSecond] ↔
      InPlace 0x4000 gapFirst [gapSecond] :=
  (loads_iff gapImage gapTables).2 _ _ rfl (by decide) (by decide)

/-- The second segment finds its page taken by the first one, whose requests go on
through the gap: at its address stands what lies in the gap. -/
theorem not_loads_gapImage :
    (∃ memMap base, initVirtualMapping [exampleTables 8, exampleDest] .mapAll firmwareRoot.addr
        (firmwareMem largePage) = .ok (exampleMapping largePage 8, memMap, base)) ∧
      KernelImage gapHeader 0x400000 0x4000 [gapFirst, gapSecond] ∧
      KernelTables exampleRoot exampleDest.physicalStart (exampleTables 8).numberOfPages
        (movedLevels (firmwareMem largePage) firmwareRoot (exampleTables 8).physicalStart
          exampleDest.physicalStart) (exampleMapping largePage 8)
        (imageCalls 0x400000 0x4000 [gapFirst, gapSecond]) [gapFirst, gapSecond] ∧
      ¬ (loadKernel (exampleMapping largePage 8) 0x400000 0x4000 [gapFirst, gapSecond]).Loads
        0x400000 [gapFirst, gapSecond] := by
  refine ⟨⟨_, _, initVirtualMapping_eq examplePicks⟩, gapImage, gapTables, fun hloads => ?_⟩
  have hmem : gapSecond ∈ [gapFirst, gapSecond] := by simp
  have hbyte := (hloads gapSecond hmem 0 (by decide)).1
  have hfirst : firstCall (imageCalls 0x400000 0x4000 [gapFirst, gapSecond])
      (vaPath (gapSecond.byteVaddr 0)) = some ⟨0x402000, 0xFFFFFFFF80001000⟩ := by
    rw [gapCalls]
    rfl
  rw [loadKernel_mapping, gapTables.pool.run_pml4 gapTables.calls_fit, translateByte,
    gapTables.pool.run_translate gapTables.calls_fit (gapTables.once _ hmem 0 (by decide))
      (gapTables.unmapped _ hmem 0 (by decide)), hfirst] at hbyte
  exact absurd (Option.some.inj hbyte) (by decide)

end Betelgeuse
