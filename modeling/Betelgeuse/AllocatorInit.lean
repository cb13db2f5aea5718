/-
The second half of `page_allocator_init` (`kernel/memory.c`): the two pages of the
virtual map.

The function takes a frame for `virtual_address_map` and one for its free bitmap,
and maps each at the first page behind the kernel that `page_map` does not report
as mapped already.  Both retry loops share the index `i`.  Frames and page tables
are `FrameServices`; `page_mapper_init` only sets the two globals that these use.

`pageAllocatorInit_trace` says where the two frames end up, whatever the tables
look like: each at the first unmapped page of its search (`FirstUnmapped`), and
the page behind `virtual_address_map` is mapped in any case.
-/
import Betelgeuse.BootBitmap
import Betelgeuse.PageServices
import Betelgeuse.VirtualMap
import Betelgeuse.WordArith

open WordBitmap WordArith

namespace Betelgeuse

variable {σ : Type*}

/-- What a successful `page_allocator_init` leaves behind: the two pointers, and the
map they stand for.  The frames that it took and the pages that it mapped them at
are no variables of the code. -/
structure Started (σ : Type*) where
  services : σ
  virtualAddressMap : UInt64
  virtualAddressMapFreeBitmap : UInt64
  contents : VirtualAddressMap
  mapFrame : UInt64
  mapPage : UInt64
  bitmapFrame : UInt64
  bitmapPage : UInt64

/-- -1 or 0. -/
inductive InitResult (σ : Type*) where
  | failed (s : σ)
  | started (t : Started σ)

/-- `kernel_start_pointer + ((kernel_page_count + i) << 12)`. -/
def BootTable.pageAfterKernel (bt : BootTable) (i : UInt64) : UInt64 :=
  bt.kernelStartPointer + (bt.kernelPageCount + i) <<< 12

/-- The single entry that `page_allocator_init` writes, over what the two pages
hold before. -/
def initialContents (memory : VirtualAddressMap) (base length : UInt64) : VirtualAddressMap where
  map := Function.update memory.map 0 ⟨none, length, base⟩
  first := some 0
  freeBitmap := setBit memory.freeBitmap 0 63

namespace FrameServices

variable (S : FrameServices σ) (bt : BootTable)

/-- `while (result == 1)`, with at most `fuel` rounds: the last result, `i`, the
page of the last call and the state. -/
def retryMap (frame : UInt64) : ℕ → UInt64 → σ → Option (ℤ × UInt64 × UInt64 × σ)
  | 0, _, _ => none
  | fuel + 1, i, s =>
    let (result, s) := S.pageMap (bt.pageAfterKernel i) frame s
    if result = 1 then retryMap frame fuel (i + 1) s
    else some (result, i + 1, bt.pageAfterKernel i, s)

/-- The first call and the loop behind it. -/
def mapAfterKernel (fuel : ℕ) (frame i : UInt64) (s : σ) :
    Option (ℤ × UInt64 × UInt64 × σ) :=
  let (result, s) := S.pageMap (bt.kernelStartPointer + bt.kernelPageCount <<< 12) frame s
  if result = 1 then S.retryMap bt frame fuel i s
  else some (result, i, bt.kernelStartPointer + bt.kernelPageCount <<< 12, s)

/-- The second half of `page_allocator_init`; `memory` is what the two pages hold. -/
def pageAllocatorInit (fuel : ℕ) (memory : VirtualAddressMap) (s : σ) :
    Option (InitResult σ) := do
  let (result, mapFrame, s) := S.pagePhysicalAlloc s
  if result = -1 then return .failed s
  let (result, i, mapPage, s) ← S.mapAfterKernel bt fuel mapFrame 0 s
  if result = -1 then return .failed (S.pagePhysicalFree mapFrame s)
  let virtualAddressMap := bt.kernelStartPointer + (bt.kernelPageCount + i - 1) <<< 12
  let (result, bitmapFrame, s) := S.pagePhysicalAlloc s
  if result = -1 then
    let (_, physicalAddr, s) := S.pageUnmap virtualAddressMap s
    return .failed (S.pagePhysicalFree physicalAddr s)
  let (result, _, bitmapPage, s) ← S.mapAfterKernel bt fuel bitmapFrame i s
  if result = -1 then
    let (_, physicalAddr, s) := S.pageUnmap virtualAddressMap s
    let s := S.pagePhysicalFree physicalAddr s
    return .failed (S.pagePhysicalFree bitmapFrame s)
  return .started
    { services := s
      virtualAddressMap := virtualAddressMap
      virtualAddressMapFreeBitmap := bitmapFrame
      contents := initialContents memory bt.mappingBase
        (virtualAddressMap + (1 : UInt64) <<< 12 - bt.mappingBase)
      mapFrame := mapFrame
      mapPage := mapPage
      bitmapFrame := bitmapFrame
      bitmapPage := bitmapPage }

end FrameServices

/-! ### Translations -/

/-- The first page from `va` upwards that is not mapped. -/
def FirstUnmapped (tr : UInt64 → Option UInt64) (va page : UInt64) : Prop :=
  ∃ n : ℕ, page = va + 4096 * UInt64.ofNat n ∧ tr page = none ∧
    ∀ m < n, tr (va + 4096 * UInt64.ofNat m) ≠ none

theorem FirstUnmapped.unique {tr : UInt64 → Option UInt64} {va page page' : UInt64}
    (h : FirstUnmapped tr va page) (h' : FirstUnmapped tr va page') : page = page' := by
  obtain ⟨n, rfl, hnone, hbelow⟩ := h
  obtain ⟨n', rfl, hnone', hbelow'⟩ := h'
  rcases Nat.lt_trichotomy n n' with hlt | rfl | hlt
  · exact absurd hnone (hbelow' n hlt)
  · rfl
  · exact absurd hnone' (hbelow n' hlt)

/-- Only the page of `va` is mapped anew. -/
structure MapsPage (tr tr' : UInt64 → Option UInt64) (va frame : UInt64) : Prop where
  before : tr va = none
  after : tr' va = some frame
  other : ∀ va', ¬ SamePage va va' → tr' va' = tr va'
  pagewise : ∀ va₁ va₂, SamePage va₁ va₂ → tr va₁ = tr va₂

/-- What is mapped stays mapped. -/
theorem MapsPage.keeps {tr tr' : UInt64 → Option UInt64} {va frame va' : UInt64}
    (h : MapsPage tr tr' va frame) (hva' : tr va' ≠ none) : tr' va' = tr va' := by
  by_cases hpage : SamePage va va'
  · exact absurd ((h.pagewise _ _ hpage).symm.trans h.before) hva'
  · exact h.other va' hpage

theorem MapsPage.unmapped_before {tr tr' : UInt64 → Option UInt64} {va frame va' : UInt64}
    (h : MapsPage tr tr' va frame) (hva' : tr' va' = none) : tr va' = none := by
  by_contra hne
  exact hne ((h.keeps hne).symm.trans hva')

/-! ### The retry loops -/

section Loops

variable {S : FrameServices σ} {bt : BootTable} {translation : σ → UInt64 → Option UInt64}
  {free : σ → Set UInt64} {s s' : σ} {fuel : ℕ} {frame i i' page : UInt64}

theorem shiftLeft_twelve (x : UInt64) : x <<< 12 = 4096 * x := by
  have hpage : (4096 : UInt64).toNat = 2 ^ 12 := rfl
  rw [← UInt64.toNat_inj, toNat_shiftLeft (n := 12) rfl, UInt64.toNat_mul, hpage, Nat.mul_comm]

theorem pageAfterKernel_eq (bt : BootTable) (i : UInt64) :
    bt.pageAfterKernel i = bt.kernelStartPointer + 4096 * (bt.kernelPageCount + i) := by
  rw [BootTable.pageAfterKernel, shiftLeft_twelve]

theorem pageAfterKernel_zero (bt : BootTable) :
    bt.pageAfterKernel 0 = bt.kernelStartPointer + bt.kernelPageCount <<< 12 := by
  rw [BootTable.pageAfterKernel, UInt64.add_zero]

theorem pageAfterKernel_add (bt : BootTable) (i j : UInt64) :
    bt.pageAfterKernel (i + j) = bt.pageAfterKernel i + 4096 * j := by
  rw [pageAfterKernel_eq, pageAfterKernel_eq]
  grind

/-- The loop ends when `page_map` succeeds or fails. -/
theorem retryMap_code (h : S.Contract translation free) {result : ℤ}
    (hloop : S.retryMap bt frame fuel i s = some (result, i', page, s')) :
    result = 0 ∨ result = -1 := by
  induction fuel generalizing i s with
  | zero => cases hloop
  | succ fuel ih =>
    rw [FrameServices.retryMap] at hloop
    have hcode := h.map_code (bt.pageAfterKernel i) frame s
    rcases hmap : S.pageMap (bt.pageAfterKernel i) frame s with ⟨result₁, s₁⟩
    simp only [hmap] at hloop hcode
    split at hloop
    · exact ih hloop
    · rename_i hne
      obtain ⟨rfl, -⟩ := Prod.mk.inj (Option.some.inj hloop)
      rcases hcode with hzero | hone | hfail
      · exact .inl hzero
      · exact absurd hone hne
      · exact .inr hfail

theorem mapAfterKernel_code (h : S.Contract translation free) {result : ℤ}
    (hloop : S.mapAfterKernel bt fuel frame i s = some (result, i', page, s')) :
    result = 0 ∨ result = -1 := by
  rw [FrameServices.mapAfterKernel] at hloop
  have hcode := h.map_code (bt.kernelStartPointer + bt.kernelPageCount <<< 12) frame s
  rcases hmap : S.pageMap (bt.kernelStartPointer + bt.kernelPageCount <<< 12) frame s with
    ⟨result₁, s₁⟩
  simp only [hmap] at hloop hcode
  split at hloop
  · exact retryMap_code h hloop
  · rename_i hne
    obtain ⟨rfl, -⟩ := Prod.mk.inj (Option.some.inj hloop)
    rcases hcode with hzero | hone | hfail
    · exact .inl hzero
    · exact absurd hone hne
    · exact .inr hfail

/-- The page that a loop maps is the first unmapped one. -/
theorem retryMap_spec (h : S.Contract translation free)
    (hloop : S.retryMap bt frame fuel i s = some (0, i', page, s')) :
    page = bt.pageAfterKernel (i' - 1) ∧
      FirstUnmapped (translation s) (bt.pageAfterKernel i) page ∧
      MapsPage (translation s) (translation s') page (frame &&& addrMask) := by
  induction fuel generalizing i s with
  | zero => cases hloop
  | succ fuel ih =>
    rw [FrameServices.retryMap] at hloop
    rcases hmap : S.pageMap (bt.pageAfterKernel i) frame s with ⟨result, s₁⟩
    simp only [hmap] at hloop
    split at hloop
    · -- the page is mapped, and the search goes on with the next one
      rename_i hone
      subst hone
      obtain ⟨hmapped, htrans, -⟩ := h.map_one _ _ _ _ hmap
      obtain ⟨hpage, ⟨n, hn, hnone, hbelow⟩, hmaps⟩ := ih hloop
      rw [htrans] at hnone hbelow hmaps
      refine ⟨hpage, ⟨n + 1, ?_, hnone, fun m hm => ?_⟩, hmaps⟩
      · rw [hn, pageAfterKernel_add, UInt64.ofNat_add]
        grind
      · cases m with
        | zero => simpa using hmapped
        | succ m =>
          have hm' := hbelow m (by omega)
          rw [pageAfterKernel_add] at hm'
          rw [UInt64.ofNat_add]
          have hsum : bt.pageAfterKernel i + 4096 * (UInt64.ofNat m + UInt64.ofNat 1) =
              bt.pageAfterKernel i + 4096 * 1 + 4096 * UInt64.ofNat m := by
            grind
          rwa [hsum]
    · obtain ⟨rfl, rfl, rfl, rfl⟩ : result = 0 ∧ i + 1 = i' ∧ bt.pageAfterKernel i = page ∧
          s₁ = s' := by simpa using hloop
      obtain ⟨hnone, hsome, hother, -⟩ := h.map_zero _ _ _ _ hmap
      refine ⟨by rw [UInt64.add_sub_cancel],
        ⟨0, by simp, hnone, fun m hm => absurd hm (Nat.not_lt_zero m)⟩, hnone, hsome,
        hother, h.translation_page s⟩

/-- The first call and the loop: either the page behind the kernel is free and is
taken, or it is mapped, and the loop goes on from index `i`. -/
theorem mapAfterKernel_spec (h : S.Contract translation free)
    (hloop : S.mapAfterKernel bt fuel frame i s = some (0, i', page, s')) :
    MapsPage (translation s) (translation s') page (frame &&& addrMask) ∧
      (translation s (bt.pageAfterKernel 0) = none ∧ i' = i ∧ page = bt.pageAfterKernel 0 ∨
        translation s (bt.pageAfterKernel 0) ≠ none ∧ page = bt.pageAfterKernel (i' - 1) ∧
          FirstUnmapped (translation s) (bt.pageAfterKernel i) page) := by
  rw [FrameServices.mapAfterKernel, ← pageAfterKernel_zero] at hloop
  rcases hmap : S.pageMap (bt.pageAfterKernel 0) frame s with ⟨result, s₁⟩
  simp only [hmap] at hloop
  split at hloop
  · rename_i hone
    subst hone
    obtain ⟨hmapped, htrans, -⟩ := h.map_one _ _ _ _ hmap
    obtain ⟨hpage, hfirst, hmaps⟩ := retryMap_spec h hloop
    rw [htrans] at hfirst hmaps
    exact ⟨hmaps, .inr ⟨hmapped, hpage, hfirst⟩⟩
  · obtain ⟨rfl, rfl, rfl, rfl⟩ : result = 0 ∧ i = i' ∧ bt.pageAfterKernel 0 = page ∧ s₁ = s' := by
      simpa using hloop
    obtain ⟨hnone, hsome, hother, -⟩ := h.map_zero _ _ _ _ hmap
    exact ⟨⟨hnone, hsome, hother, h.translation_page s⟩, .inl ⟨hnone, rfl, rfl⟩⟩

/-- The pointer that the code computes from `i` is one page below page `i`. -/
theorem pageBefore_add (bt : BootTable) (i : UInt64) :
    bt.kernelStartPointer + (bt.kernelPageCount + i - 1) <<< 12 + 4096 = bt.pageAfterKernel i := by
  rw [pageAfterKernel_eq, shiftLeft_twelve]
  grind

theorem pageBefore_eq (bt : BootTable) (i : UInt64) :
    bt.kernelStartPointer + (bt.kernelPageCount + i - 1) <<< 12 = bt.pageAfterKernel (i - 1) := by
  rw [pageAfterKernel_eq, shiftLeft_twelve]
  grind

end Loops

/-! ### A successful run -/

/-- What a successful run does to the translation, from `tr` over `tr₁` to `tr₂`. -/
structure Started.Trace (bt : BootTable) (t : Started σ) (tr tr₁ tr₂ : UInt64 → Option UInt64) :
    Prop where
  map : MapsPage tr tr₁ t.mapPage t.mapFrame
  bitmap : MapsPage tr₁ tr₂ t.bitmapPage t.bitmapFrame
  /-- at the first attempt the pointer is a page too low -/
  mapPlace : tr (bt.pageAfterKernel 0) = none ∧ t.mapPage = bt.pageAfterKernel 0 ∧
      t.virtualAddressMap + 4096 = t.mapPage ∨
    tr (bt.pageAfterKernel 0) ≠ none ∧ t.virtualAddressMap = t.mapPage ∧
      FirstUnmapped tr (bt.pageAfterKernel 0) t.mapPage
  bitmapPlace : FirstUnmapped tr₁ (t.virtualAddressMap + 4096) t.bitmapPage
  pointer : t.virtualAddressMapFreeBitmap = t.bitmapFrame
  masked : t.bitmapFrame &&& addrMask = t.bitmapFrame
  contents : ∃ memory, t.contents = initialContents memory bt.mappingBase
    (t.virtualAddressMap + 4096 - bt.mappingBase)

section Run

variable {S : FrameServices σ} {bt : BootTable} {translation : σ → UInt64 → Option UInt64}
  {free : σ → Set UInt64} {s : σ} {fuel : ℕ} {memory : VirtualAddressMap} {t : Started σ}

/-- The trace of a run, from the calls it makes. -/
theorem trace_of_calls (h : S.Contract translation free) {s₁ s₂ s₃ : σ} {i i' : UInt64}
    (halloc₁ : S.pagePhysicalAlloc s = (0, t.mapFrame, s₁))
    (hmap₁ : S.mapAfterKernel bt fuel t.mapFrame 0 s₁ = some (0, i, t.mapPage, s₂))
    (halloc₂ : S.pagePhysicalAlloc s₂ = (0, t.bitmapFrame, s₃))
    (hmap₂ : S.mapAfterKernel bt fuel t.bitmapFrame i s₃ = some (0, i', t.bitmapPage, t.services))
    (hpointer : t.virtualAddressMap =
      bt.kernelStartPointer + (bt.kernelPageCount + i - 1) <<< 12)
    (hbitmap : t.virtualAddressMapFreeBitmap = t.bitmapFrame)
    (hcontents : t.contents = initialContents memory bt.mappingBase
      (t.virtualAddressMap + 4096 - bt.mappingBase)) :
    t.Trace bt (translation s) (translation s₂) (translation t.services) := by
  obtain ⟨-, hmasked₁, -, htrans₁⟩ := h.alloc_zero _ _ _ halloc₁
  obtain ⟨-, hmasked₂, -, htrans₃⟩ := h.alloc_zero _ _ _ halloc₂
  obtain ⟨hmaps₁, hplace₁⟩ := mapAfterKernel_spec h hmap₁
  obtain ⟨hmaps₂, hplace₂⟩ := mapAfterKernel_spec h hmap₂
  rw [htrans₁, hmasked₁] at hmaps₁
  rw [htrans₁] at hplace₁
  rw [htrans₃, hmasked₂] at hmaps₂
  rw [htrans₃] at hplace₂
  -- the page behind the kernel is mapped by now
  have hmapped : translation s₂ (bt.pageAfterKernel 0) ≠ none := by
    rcases hplace₁ with ⟨-, -, hpage⟩ | ⟨hne, -⟩
    · rw [← hpage, hmaps₁.after]
      simp
    · rwa [hmaps₁.keeps hne]
  obtain ⟨-, -, hfirst₂⟩ := hplace₂.resolve_left fun hnone => hmapped hnone.1
  refine ⟨hmaps₁, hmaps₂, ?_, ?_, hbitmap, hmasked₂, memory, hcontents⟩
  · rcases hplace₁ with ⟨hnone, rfl, hpage⟩ | ⟨hne, hpage, hfirst⟩
    · exact .inl ⟨hnone, hpage, by rw [hpointer, pageBefore_add, hpage]⟩
    · exact .inr ⟨hne, by rw [hpointer, pageBefore_eq, hpage], hfirst⟩
  · rwa [hpointer, pageBefore_add]

theorem pageAllocatorInit_trace (h : S.Contract translation free)
    (hinit : S.pageAllocatorInit bt fuel memory s = some (.started t)) :
    ∃ tr₁, t.Trace bt (translation s) tr₁ (translation t.services) := by
  rw [FrameServices.pageAllocatorInit] at hinit
  -- the four calls one after the other; the start is reached if none of them fails
  rcases halloc₁ : S.pagePhysicalAlloc s with ⟨result₁, mapFrame, s₁⟩
  simp only [halloc₁] at hinit
  split at hinit
  · simp at hinit
  rename_i hne₁
  have hcode₁ := (h.alloc_code s).resolve_right (by rw [halloc₁]; exact hne₁)
  rw [halloc₁] at hcode₁
  obtain rfl : result₁ = 0 := hcode₁
  rcases hmap₁ : S.mapAfterKernel bt fuel mapFrame 0 s₁ with _ | ⟨result₂, i, mapPage, s₂⟩
  · simp [hmap₁] at hinit
  simp only [hmap₁, Option.bind_eq_bind, Option.bind_some] at hinit
  split at hinit
  · simp at hinit
  rename_i hne₂
  obtain rfl : result₂ = 0 := (mapAfterKernel_code h hmap₁).resolve_right hne₂
  rcases halloc₂ : S.pagePhysicalAlloc s₂ with ⟨result₃, bitmapFrame, s₃⟩
  simp only [halloc₂] at hinit
  split at hinit
  · simp at hinit
  rename_i hne₃
  have hcode₂ := (h.alloc_code s₂).resolve_right (by rw [halloc₂]; exact hne₃)
  rw [halloc₂] at hcode₂
  obtain rfl : result₃ = 0 := hcode₂
  rcases hmap₂ : S.mapAfterKernel bt fuel bitmapFrame i s₃ with _ | ⟨result₄, i', bitmapPage, s₄⟩
  · simp [hmap₂] at hinit
  simp only [hmap₂, Option.bind_some] at hinit
  split at hinit
  · simp at hinit
  rename_i hne₄
  obtain rfl : result₄ = 0 := (mapAfterKernel_code h hmap₂).resolve_right hne₄
  obtain rfl := InitResult.started.inj (Option.some.inj hinit)
  exact ⟨_, trace_of_calls h halloc₁ hmap₁ halloc₂ hmap₂ rfl rfl rfl⟩

end Run

end Betelgeuse
