/-
The virtual map and the page tables after `page_allocator_init`.

At the first attempt `virtual_address_map` ends up one page too low; after a retry
the pointer is right, but the entry ends where the second frame is mapped or some
other page is in use.  In both cases the page behind the entry is mapped
(`Trace.end_mapped`), and `page_virtual_alloc` gives out that very page, unless the
entry ends at `2 ^ 64` and the next address would be 0 (`initialContents_alloc`).
That leaves one odd way in which the two agree (`agrees_iff`).
-/
import Betelgeuse.AllocatorInit
import Betelgeuse.PageTableBits
import Betelgeuse.VirtualMapLayout

open WordBitmap

namespace Betelgeuse

variable {σ : Type*}

/-- The agreement of the virtual map with the page tables: the two pointers are
translated to the two frames, the entry covers the two pages, and what the next
`page_virtual_alloc` gives out is not mapped. -/
structure Started.Agrees (translation : σ → UInt64 → Option UInt64) (t : Started σ) : Prop where
  map : translation t.services t.virtualAddressMap = some t.mapFrame
  bitmap : translation t.services t.virtualAddressMapFreeBitmap = some t.bitmapFrame
  covered : ∀ page, page = t.mapPage ∨ page = t.bitmapPage →
    ∃ k, t.contents.first = some k ∧ (t.contents.base k).toNat ≤ page.toNat ∧
      page.toNat < (t.contents.base k).toNat + (t.contents.len k).toNat
  fresh : ∀ o page, t.contents.pageVirtualAlloc = some o → o.code = some 0 →
    o.frame = some page → translation t.services page = none

/-- The last page of the address space. -/
def topPage : UInt64 := 0xFFFFFFFFFFFFF000

/-- The tables make the search wrap around: all pages behind the kernel are mapped
but the last one of the address space, the first unmapped page from 0 on is not
below `mapping_base`, and it is the page of the bitmap's frame, or that frame is
mapped to itself. -/
structure WrapsAround (bt : BootTable) (tr : UInt64 → Option UInt64) (bitmapFrame : UInt64) :
    Prop where
  retry : bt.pageAfterKernel 0 ≠ topPage
  map : FirstUnmapped tr (bt.pageAfterKernel 0) topPage
  base_pos : bt.mappingBase ≠ 0
  bitmap : ∃ page, FirstUnmapped tr 0 page ∧ bt.mappingBase ≤ page ∧
    (tr bitmapFrame = some bitmapFrame ∨ bitmapFrame = page)

/-! ### The single entry -/

namespace VirtualAddressMap

variable {s : VirtualAddressMap} {t : Slot}

theorem perform_growUp_single (hfirst : s.first = some t) (hnext : s.next t = none)
    (bytes top : UInt64) :
    s.perform (.growUp .first bytes top) = some (some 0, s.setLen t (s.len t + bytes)) := by
  have hderef : s.deref .first = some t := hfirst
  simp only [perform, hderef, Option.bind_eq_bind, Option.bind_some, next_setLen, hnext]
  rfl

/-- With a single entry `page_virtual_alloc` gives out its end. -/
theorem pageVirtualAlloc_single (hfirst : s.first = some t) (hnext : s.next t = none)
    (hend : s.endOf t ≠ 0) :
    s.pageVirtualAlloc = some ⟨some 0, some (s.endOf t), s.setLen t (s.len t + 1)⟩ := by
  have hplan : s.pageVirtualAllocPlan =
      some ⟨some (s.endOf t), .growUp .first 1 (s.base t + (s.len t + 1))⟩ := by
    simp [pageVirtualAllocPlan, hfirst, hend]
  rw [pageVirtualAlloc, hplan]
  show (s.perform _).map _ = _
  rw [perform_growUp_single hfirst hnext]
  rfl

/-- Unless that is 0. -/
theorem pageVirtualAlloc_zero (hfirst : s.first = some t) (hend : s.endOf t = 0) :
    s.pageVirtualAlloc = some ⟨some (-1), some 0, s⟩ := by
  have hplan : s.pageVirtualAllocPlan = some ⟨some 0, .ret (-1)⟩ := by
    simp [pageVirtualAllocPlan, hfirst, hend]
  rw [pageVirtualAlloc, hplan]
  rfl

end VirtualAddressMap

section Contents

variable (memory : VirtualAddressMap) (base length : UInt64)

theorem initialContents_base : (initialContents memory base length).base 0 = base := by
  simp [initialContents, VirtualAddressMap.base]

theorem initialContents_len : (initialContents memory base length).len 0 = length := by
  simp [initialContents, VirtualAddressMap.len]

theorem initialContents_next : (initialContents memory base length).next 0 = none := by
  simp [initialContents, VirtualAddressMap.next]

end Contents

/-! ### Pages of a search -/

theorem toNat_mul_ofNat {n : ℕ} (hn : n < 2 ^ 52) :
    (4096 * UInt64.ofNat n).toNat = 4096 * n := by
  have hpage : (4096 : UInt64).toNat = 4096 := rfl
  rw [UInt64.toNat_mul, hpage, UInt64.toNat_ofNat', Nat.mod_eq_of_lt (by omega : n < 2 ^ 64),
    Nat.mod_eq_of_lt (by omega)]

/-- A search meets each page once. -/
theorem FirstUnmapped.exists_lt {tr : UInt64 → Option UInt64} {va page : UInt64}
    (h : FirstUnmapped tr va page) : ∃ n < 2 ^ 52, page = va + 4096 * UInt64.ofNat n ∧
      tr page = none ∧ ∀ m < n, tr (va + 4096 * UInt64.ofNat m) ≠ none := by
  obtain ⟨n, rfl, hnone, hbelow⟩ := h
  refine ⟨n, ?_, rfl, hnone, hbelow⟩
  by_contra hge
  -- after 2 ^ 52 pages the search would be where it was
  have hturn : (4096 : UInt64) * UInt64.ofNat (2 ^ 52) = 0 := rfl
  have hsame : 4096 * UInt64.ofNat (n - 2 ^ 52) = 4096 * UInt64.ofNat n := by
    have hsum : UInt64.ofNat n = UInt64.ofNat (n - 2 ^ 52) + UInt64.ofNat (2 ^ 52) := by
      rw [← UInt64.ofNat_add, Nat.sub_add_cancel (by omega)]
    rw [hsum, UInt64.mul_add, hturn, UInt64.add_zero]
  refine hbelow (n - 2 ^ 52) (by omega) ?_
  rw [hsame]
  exact hnone

/-- A search from 0 stops at the start of a page. -/
theorem FirstUnmapped.aligned {tr : UInt64 → Option UInt64} {page : UInt64}
    (h : FirstUnmapped tr 0 page) : page.toNat % 4096 = 0 := by
  obtain ⟨n, hn, rfl, -⟩ := h.exists_lt
  rw [UInt64.zero_add, toNat_mul_ofNat hn]
  omega

/-- Mapping the last page does not change where a search from 0 stops. -/
theorem FirstUnmapped.of_mapsPage_top {tr tr₁ : UInt64 → Option UInt64} {frame page : UInt64}
    (hmap : MapsPage tr tr₁ topPage frame) (h : FirstUnmapped tr₁ 0 page) :
    FirstUnmapped tr 0 page := by
  obtain ⟨n, hn, hpage, hnone, hbelow⟩ := h.exists_lt
  refine ⟨n, hpage, hmap.unmapped_before hnone, fun m hm => ?_⟩
  have htop : topPage.toNat = 2 ^ 64 - 4096 := rfl
  have hother : ¬ SamePage topPage (0 + 4096 * UInt64.ofNat m) := by
    rw [SamePage, UInt64.zero_add, toNat_mul_ofNat (by omega), htop]
    omega
  rw [← hmap.other _ hother]
  exact hbelow m hm

/-! ### Agreement -/

section Agreement

variable {bt : BootTable} {t : Started σ} {tr tr₁ : UInt64 → Option UInt64}
  {translation : σ → UInt64 → Option UInt64}

/-- The page behind the entry is mapped: the search for the second page starts there. -/
theorem Started.Trace.end_mapped {tr₂ : UInt64 → Option UInt64} (h : t.Trace bt tr tr₁ tr₂) :
    tr₂ (t.virtualAddressMap + 4096) ≠ none := by
  obtain ⟨n, hn, -, hbelow⟩ := h.bitmapPlace
  cases n with
  | zero =>
    have hpage : t.virtualAddressMap + 4096 = t.bitmapPage := by simpa using hn.symm
    rw [hpage, h.bitmap.after]
    simp
  | succ n =>
    have hmapped : tr₁ (t.virtualAddressMap + 4096) ≠ none := by simpa using hbelow 0 (by omega)
    rwa [h.bitmap.keeps hmapped]

/-- The next `page_virtual_alloc` gives out that page, unless its address is 0. -/
theorem Started.Trace.fresh_iff (h : t.Trace bt tr tr₁ (translation t.services)) :
    (∀ o page, t.contents.pageVirtualAlloc = some o → o.code = some 0 → o.frame = some page →
      translation t.services page = none) ↔ t.virtualAddressMap + 4096 = 0 := by
  obtain ⟨memory, hcontents⟩ := h.contents
  have hfirst : t.contents.first = some 0 := by rw [hcontents]; rfl
  have hnext : t.contents.next 0 = none := by rw [hcontents, initialContents_next]
  have hend : t.contents.endOf 0 = t.virtualAddressMap + 4096 := by
    rw [VirtualAddressMap.endOf, hcontents, initialContents_base, initialContents_len]
    grind
  constructor
  · intro hfresh
    by_contra hne
    have halloc := VirtualAddressMap.pageVirtualAlloc_single hfirst hnext (by rwa [hend])
    rw [hend] at halloc
    exact h.end_mapped (hfresh _ _ halloc rfl rfl)
  · intro hzero o page halloc hcode
    rw [VirtualAddressMap.pageVirtualAlloc_zero hfirst (hend.trans hzero)] at halloc
    obtain rfl := Option.some.inj halloc
    simp at hcode

/-- What the entry covers when it ends at `2 ^ 64`. -/
theorem Started.Trace.covered_iff {tr₂ : UInt64 → Option UInt64} (h : t.Trace bt tr tr₁ tr₂)
    (hend : t.virtualAddressMap + 4096 = 0) (page : UInt64) :
    (∃ k, t.contents.first = some k ∧ (t.contents.base k).toNat ≤ page.toNat ∧
        page.toNat < (t.contents.base k).toNat + (t.contents.len k).toNat) ↔
      bt.mappingBase ≠ 0 ∧ bt.mappingBase ≤ page := by
  obtain ⟨memory, hcontents⟩ := h.contents
  have hfirst : t.contents.first = some 0 := by rw [hcontents]; rfl
  have hzero : (0 : UInt64).toNat = 0 := rfl
  have hlt := page.toNat_lt
  rw [hfirst, hcontents, hend]
  simp only [Option.some.injEq, exists_eq_left', initialContents_base, initialContents_len,
    UInt64.toNat_sub, hzero, UInt64.le_iff_toNat_le, ne_eq, ← UInt64.toNat_inj]
  have hbase := bt.mappingBase.toNat_lt
  omega

/-- If they agree, the entry ends at `2 ^ 64`, so that its page is the last one, and the
search for it was the one that wraps around. -/
theorem Started.Trace.wraps_of_agrees (h : t.Trace bt tr tr₁ (translation t.services))
    (hagrees : t.Agrees translation) : WrapsAround bt tr t.bitmapFrame := by
  have htop : topPage + 4096 = 0 := rfl
  have htopNat : topPage.toNat = 2 ^ 64 - 4096 := rfl
  have hframe : t.bitmapFrame.toNat % 4096 = 0 ∧ t.bitmapFrame.toNat < 2 ^ 52 :=
    ⟨Frame.aligned ⟨_, h.masked⟩, Frame.lt ⟨_, h.masked⟩⟩
  have hend := h.fresh_iff.mp hagrees.fresh
  obtain ⟨hbase, hmapPage⟩ := (h.covered_iff hend _).mp (hagrees.covered _ (.inl rfl))
  obtain ⟨-, hbitmapPage⟩ := (h.covered_iff hend _).mp (hagrees.covered _ (.inr rfl))
  rcases h.mapPlace with ⟨-, -, hpointer⟩ | ⟨hmapped, hpointer, hfirst⟩
  · -- the page of the map would be page 0
    rw [← hpointer, hend] at hmapPage
    exact absurd (UInt64.le_zero_iff.mp hmapPage) hbase
  · have hmapTop : t.mapPage = topPage := by
      rw [← hpointer]
      grind
    rw [hmapTop] at hfirst
    have hmap := h.map
    rw [hmapTop] at hmap
    have hlow : FirstUnmapped tr 0 t.bitmapPage := by
      have hplace := h.bitmapPlace
      rw [hend] at hplace
      exact hplace.of_mapsPage_top hmap
    refine ⟨?_, hfirst, hbase, t.bitmapPage, hlow, hbitmapPage, ?_⟩
    · intro heq
      rw [heq] at hmapped
      exact hmapped hmap.before
    · by_cases hsame : SamePage t.bitmapPage t.bitmapFrame
      · right
        have haligned := hlow.aligned
        rw [SamePage] at hsame
        exact UInt64.toNat_inj.mp (by omega)
      · left
        have hother : ¬ SamePage topPage t.bitmapFrame := by
          rw [SamePage, htopNat]
          omega
        have hbitmap := hagrees.bitmap
        rwa [h.pointer, h.bitmap.other _ hsame, hmap.other _ hother] at hbitmap

/-- Then the entry covers both pages, and its end is not given out. -/
theorem Started.Trace.agrees_of_wraps (h : t.Trace bt tr tr₁ (translation t.services))
    (hwraps : WrapsAround bt tr t.bitmapFrame) : t.Agrees translation := by
  have htop : topPage + 4096 = 0 := rfl
  have htopNat : topPage.toNat = 2 ^ 64 - 4096 := rfl
  rcases h.mapPlace with ⟨hnone, hpage, -⟩ | ⟨-, hpointer, hfirst⟩
  -- the map's page is the top page, so that the page behind it is 0
  · have hself : FirstUnmapped tr (bt.pageAfterKernel 0) (bt.pageAfterKernel 0) :=
      ⟨0, by simp, hnone, fun m hm => absurd hm (Nat.not_lt_zero m)⟩
    exact absurd (hself.unique hwraps.map) hwraps.retry
  · have hmapTop := hfirst.unique hwraps.map
    have hend : t.virtualAddressMap + 4096 = 0 := by rw [hpointer, hmapTop, htop]
    have hmap := h.map
    rw [hmapTop] at hmap
    obtain ⟨page, hlow, hbase, hidentity⟩ := hwraps.bitmap
    obtain rfl : t.bitmapPage = page := by
      have hplace := h.bitmapPlace
      rw [hend] at hplace
      exact (hplace.of_mapsPage_top hmap).unique hlow
    -- the four points of the agreement
    refine ⟨?_, ?_, ?_, h.fresh_iff.mpr hend⟩
    · have hmapped : tr₁ t.mapPage ≠ none := by
        rw [h.map.after]
        simp
      rw [hpointer, h.bitmap.keeps hmapped, h.map.after]
    · rw [h.pointer]
      rcases hidentity with hself | heq
      · have hmapped : tr t.bitmapFrame ≠ none := by
          rw [hself]
          simp
        have hkeep := h.map.keeps hmapped
        rw [h.bitmap.keeps (by rwa [hkeep]), hkeep, hself]
      · rw [heq]
        exact heq ▸ h.bitmap.after
    · rintro page (rfl | rfl)
      · refine (h.covered_iff hend _).mpr ⟨hwraps.base_pos, ?_⟩
        have haligned := hlow.aligned
        have hlt := t.bitmapPage.toNat_lt
        rw [UInt64.le_iff_toNat_le] at hbase ⊢
        rw [hmapTop, htopNat]
        omega
      · exact (h.covered_iff hend _).mpr ⟨hwraps.base_pos, hbase⟩

/-- The trace of a run decides whether virtual map and page tables agree. -/
theorem Started.Trace.agrees_iff (h : t.Trace bt tr tr₁ (translation t.services)) :
    t.Agrees translation ↔ WrapsAround bt tr t.bitmapFrame :=
  ⟨h.wraps_of_agrees, h.agrees_of_wraps⟩

/-- After `page_allocator_init` the virtual map agrees with the page tables if and
only if the search for its page wraps around the address space. -/
theorem pageAllocatorInit_agrees_iff {S : FrameServices σ} {free : σ → Set UInt64}
    (h : S.Contract translation free) {fuel : ℕ} {memory : VirtualAddressMap} {s : σ}
    (hinit : S.pageAllocatorInit bt fuel memory s = some (.started t)) :
    t.Agrees translation ↔ WrapsAround bt (translation s) t.bitmapFrame := by
  obtain ⟨tr₁, htrace⟩ := pageAllocatorInit_trace h hinit
  exact htrace.agrees_iff

end Agreement

/-! ### A boot -/

theorem kernelFrame_masked : (0x5000 : UInt64) &&& addrMask = 0x5000 := by decide

/-- 16 kernel pages, mapped to the frames from 2 MiB on, and two free frames. -/
def kernelShelf : Shelf where
  frames := [⟨0x5000, kernelFrame_masked⟩, ⟨0x6000, by decide⟩]
  pages := []
  mapping n :=
    if n / 16 = 0xFFFFFFFF8000 then some (0x200000 + 4096 * UInt64.ofNat (n % 16)) else none

/-- A boot table for this kernel. -/
def kernelBoot : BootTable where
  memTablePointer := 0x8000
  memDescSize := 48
  memTable := []
  mappingBase := 0xFFFF800000000000
  fontPointer := 0x9000
  kernelStartPointer := 0xFFFFFFFF80000000
  kernelPageCount := 16
  pml4Pointer := 0x1000
  usedMappingPageCount := 0

/-- Two pages of zeros. -/
def zeroContents : VirtualAddressMap := ⟨fun _ => ⟨none, 0, 0⟩, none, fun _ => 0⟩

/-- What `page_allocator_init` leaves behind. -/
def kernelStarted : Started Shelf where
  services :=
    { frames := []
      pages := []
      mapping := Function.update (Function.update kernelShelf.mapping 0xFFFFFFFF80010 (some 0x5000))
        0xFFFFFFFF80011 (some 0x6000) }
  virtualAddressMap := 0xFFFFFFFF8000F000
  virtualAddressMapFreeBitmap := 0x6000
  contents := initialContents zeroContents 0xFFFF800000000000
    (0xFFFFFFFF80010000 - 0xFFFF800000000000)
  mapFrame := 0x5000
  mapPage := 0xFFFFFFFF80010000
  bitmapFrame := 0x6000
  bitmapPage := 0xFFFFFFFF80011000

theorem pageAllocatorInit_kernelShelf :
    Shelf.services.pageAllocatorInit kernelBoot 2 zeroContents kernelShelf =
      some (.started kernelStarted) := rfl

/-- The criterion for this boot. -/
theorem agrees_kernelStarted_iff :
    kernelStarted.Agrees Shelf.translation ↔
      WrapsAround kernelBoot kernelShelf.translation kernelStarted.bitmapFrame :=
  pageAllocatorInit_agrees_iff Shelf.frameServices_contract pageAllocatorInit_kernelShelf

/-- The page behind the kernel is free, and `virtual_address_map` is the address of
the kernel's last page. -/
theorem not_agrees_kernelStarted :
    Shelf.services.pageAllocatorInit kernelBoot 2 zeroContents kernelShelf =
        some (.started kernelStarted) ∧ ¬ kernelStarted.Agrees Shelf.translation := by
  refine ⟨pageAllocatorInit_kernelShelf, fun hagrees => ?_⟩
  have htranslated : kernelStarted.services.translation 0xFFFFFFFF8000F000 = some 0x5000 :=
    hagrees.map
  exact absurd htranslated (by decide)

end Betelgeuse
