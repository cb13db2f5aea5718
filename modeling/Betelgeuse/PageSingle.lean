/-
The functions that allocate one page (`page_alloc` .. `page_alloc_beyond_ex` in
`kernel/memory.c`).

All of them are one function with parameters (`allocPage`).  `page_alloc_beyond` maps,
and on failure unregisters, the pointer that it is called with in place of the page that
it points to; the others map the page that they register (`mapsRegistered_iff`).  Since
the page of the pointer has been written to before, it is mapped, and
`page_alloc_beyond` ends in a panic where it would map the wrong page
(`mapsWhatItRegisters_of_client`).
-/
import Betelgeuse.PageFree

open Betelgeuse.PageServices (RegistersPage)

namespace Betelgeuse

variable {σ : Type*}

/-- The functions that register one page at, or in relation to, a given place besides. -/
structure SingleServices (σ : Type*) extends PageServices σ where
  pageVirtualAllocAt : UInt64 → σ → ℤ × σ
  pageVirtualAllocAfter : UInt64 → σ → ℤ × UInt64 × σ
  pageVirtualAllocBeyond : UInt64 → UInt64 → σ → ℤ × UInt64 × σ
  pageVirtualAllocBeyondEx : UInt64 → UInt64 → σ → ℤ × UInt64 × σ

namespace SingleServices

/-- What a call of `page_virtual_alloc_at` gives, with the place that the caller has
chosen. -/
def virtualAllocAt (S : SingleServices σ) (frame : UInt64) (s : σ) : ℤ × UInt64 × σ :=
  let (result, s) := S.pageVirtualAllocAt frame s
  (result, frame, s)

/-- The documented contracts of all functions. -/
structure Contract (S : SingleServices σ) (translation : σ → UInt64 → Option UInt64)
    (free registered : σ → Set UInt64) : Prop
    extends toPage : S.toPageServices.Contract translation free registered where
  allocAt : ∀ frame, RegistersPage translation free registered {0, 1, -1} (S.virtualAllocAt frame)
  allocAfter : ∀ base, RegistersPage translation free registered {0, -1}
    (S.pageVirtualAllocAfter base)
  allocBeyond : ∀ base jump, RegistersPage translation free registered {0, 1, -1}
    (S.pageVirtualAllocBeyond base jump)
  allocBeyondEx : ∀ base jump, RegistersPage translation free registered {0, -1}
    (S.pageVirtualAllocBeyondEx base jump)

variable (S : SingleServices σ)

/-! ### The functions -/

def pageAllocAt (frame : UInt64) : σ → PageServices.AllocResult σ :=
  S.allocPage (S.virtualAllocAt frame) (· ≠ 0) id

def pageAllocAfter (base : UInt64) : σ → PageServices.AllocResult σ :=
  S.allocPage (S.pageVirtualAllocAfter base) (· = -1) id

/-- `frame` is the pointer. -/
def pageAllocBeyond (base jumpCount frame : UInt64) : σ → PageServices.AllocResult σ :=
  S.allocPage (S.pageVirtualAllocBeyond base jumpCount) (· ≠ 0) fun _ => frame

def pageAllocBeyondEx (base jumpCount : UInt64) : σ → PageServices.AllocResult σ :=
  S.allocPage (S.pageVirtualAllocBeyondEx base jumpCount) (· = -1) id

end SingleServices

/-- A call of one of the functions.  For `page_alloc_beyond`, `frame` is the pointer. -/
inductive SingleCall where
  | alloc
  | allocAt (frame : UInt64)
  | allocAfter (base : UInt64)
  | allocBeyond (base jumpCount frame : UInt64)
  | allocBeyondEx (base jumpCount : UInt64)

namespace SingleCall

variable (S : SingleServices σ)

def run : SingleCall → σ → PageServices.AllocResult σ
  | alloc => S.toPageServices.pageAlloc
  | allocAt frame => S.pageAllocAt frame
  | allocAfter base => S.pageAllocAfter base
  | allocBeyond base jumpCount frame => S.pageAllocBeyond base jumpCount frame
  | allocBeyondEx base jumpCount => S.pageAllocBeyondEx base jumpCount

/-- The function that registers the page. -/
def virtualAlloc : SingleCall → σ → ℤ × UInt64 × σ
  | alloc => S.pageVirtualAlloc
  | allocAt frame => S.virtualAllocAt frame
  | allocAfter base => S.pageVirtualAllocAfter base
  | allocBeyond base jumpCount _ => S.pageVirtualAllocBeyond base jumpCount
  | allocBeyondEx base jumpCount => S.pageVirtualAllocBeyondEx base jumpCount

/-- The pointer that is used in place of the page that it points to. -/
def pointer : SingleCall → Option UInt64
  | allocBeyond _ _ frame => some frame
  | alloc | allocAt _ | allocAfter _ | allocBeyondEx _ _ => none

/-- The address that the call maps when it has registered `frame`. -/
def address (c : SingleCall) (frame : UInt64) : UInt64 := c.pointer.getD frame

/-- The page that a call names: the one that was asked for, or the one that it wrote. -/
def names : SingleCall → Option UInt64 → Option UInt64
  | allocAt frame, _ => some frame
  | alloc, written | allocAfter _, written | allocBeyond _ _ _, written
  | allocBeyondEx _ _, written => written

end SingleCall

/-- What a call in state `s` should have done that has returned. -/
structure MapsRegistered (S : SingleServices σ) (translation : σ → UInt64 → Option UInt64)
    (free registered : σ → Set UInt64) (s : σ) (code : ℤ) (page : Option UInt64) (s' : σ) :
    Prop where
  zero : code = 0 → ∃ va physicalPage, page = some va ∧ va ∉ registered s ∧
    registered s' = insert va (registered s) ∧ physicalPage ∈ free s ∧ physicalPage ∉ free s' ∧
    translation s' va = some physicalPage ∧
    ∀ va', ¬ SamePage va va' → translation s' va' = translation s va'
  fail : code ≠ 0 → registered s' = registered s ∧ translation s' = translation s ∧
    ∀ physicalPage s₁, S.pagePhysicalAlloc s = (0, physicalPage, s₁) → physicalPage ∈ free s'

/-- The state in which a call maps the frame `physicalPage` that it has taken for the page
`va` that it has registered. -/
def BeforeMap (S : SingleServices σ) (c : SingleCall) (s : σ) (va physicalPage : UInt64) (s₂ : σ) :
    Prop :=
  ∃ s₁, S.pagePhysicalAlloc s = (0, physicalPage, s₁) ∧ c.virtualAlloc S s₁ = (0, va, s₂)

section Run

variable {S : SingleServices σ} {translation : σ → UInt64 → Option UInt64}
  {free registered : σ → Set UInt64} {c : SingleCall} {s s₂ : σ} {va physicalPage : UInt64}

variable (h : S.Contract translation free registered)
include h

theorem SingleCall.registersPage (c : SingleCall) :
    ∃ codes, RegistersPage translation free registered codes (c.virtualAlloc S) := by
  cases c with
  | alloc => exact ⟨_, h.registersPage_alloc⟩
  | allocAt frame => exact ⟨_, h.allocAt frame⟩
  | allocAfter base => exact ⟨_, h.allocAfter base⟩
  | allocBeyond base jumpCount frame => exact ⟨_, h.allocBeyond base jumpCount⟩
  | allocBeyondEx base jumpCount => exact ⟨_, h.allocBeyondEx base jumpCount⟩

theorem SingleCall.run_eq (c : SingleCall) (s : σ) :
    c.run S s = S.allocPage (c.virtualAlloc S) (· ≠ 0) c.address s := by
  cases c with
  | alloc => exact h.pageAlloc_eq s
  | allocAt frame => rfl
  | allocAfter base => exact PageServices.allocPage_failed (h.allocAfter base) s
  | allocBeyond base jumpCount frame => rfl
  | allocBeyondEx base jumpCount =>
    exact PageServices.allocPage_failed (h.allocBeyondEx base jumpCount) s

/-- A call that has registered its page maps an address. -/
theorem BeforeMap.run (hb : BeforeMap S c s va physicalPage s₂) :
    c.run S s =
      let (result, s₃) := S.pageMap (c.address va) physicalPage s₂
      if result = 1 then .panic
      else if result = -1 then
        .returned (-1) (some va)
          (S.pageVirtualFree (c.address va) (S.pagePhysicalFree physicalPage s₃)).2
      else .returned 0 (some va) s₃ :=
  (c.run_eq h s).trans (PageServices.ReachesMap.run hb)

/-- What it has done up to there. -/
theorem BeforeMap.keeps (hb : BeforeMap S c s va physicalPage s₂) :
    va ∉ registered s ∧ registered s₂ = insert va (registered s) ∧
      translation s₂ = translation s ∧ free s₂ = free s \ {physicalPage} ∧
      physicalPage ∈ free s ∧ physicalPage &&& addrMask = physicalPage := by
  obtain ⟨codes, hc⟩ := c.registersPage h
  exact h.reachesMap_keeps hc hb

/-- A call that finds no frame or no page leaves everything as it was. -/
theorem run_of_not_beforeMap (hnot : ¬ ∃ va physicalPage s₂, BeforeMap S c s va physicalPage s₂) :
    ∃ code frame s', c.run S s = .returned code frame s' ∧ code ≠ 0 ∧
      registered s' = registered s ∧ translation s' = translation s ∧ free s' = free s := by
  obtain ⟨codes, hc⟩ := c.registersPage h
  rw [c.run_eq h]
  exact h.allocPage_of_not c.address hc hnot

end Run

/-! ### The page that is mapped -/

/-- The call maps the page that it registers. -/
def MapsWhatItRegisters (S : SingleServices σ) (translation : σ → UInt64 → Option UInt64)
    (free registered : σ → Set UInt64) (c : SingleCall) (s : σ) : Prop :=
  ∀ code written s', c.run S s = .returned code written s' →
    MapsRegistered S translation free registered s code (c.names written) s'

/-- What `page_map` does with an address is right for the page `va`: it panics, or it maps
an address on that page, or it fails and the address is the page. -/
def RightFor (va address : UInt64) (result : ℤ) : Prop :=
  result = 1 ∨ (result = 0 ∧ SamePage address va) ∨ (result = -1 ∧ address = va)

section Single

variable {S : SingleServices σ} {translation : σ → UInt64 → Option UInt64}
  {free registered : σ → Set UInt64} {c : SingleCall} {s s₂ : σ} {va physicalPage : UInt64}

/-- The page that a call names is the one that it registers. -/
theorem BeforeMap.names (hb : BeforeMap S c s va physicalPage s₂) :
    c.names (some va) = some va := by
  obtain ⟨s₁, -, hvirt⟩ := hb
  cases c with
  | allocAt frame =>
    have hframe : frame = va := congrArg (·.2.1) hvirt
    exact congrArg some hframe
  | alloc => rfl
  | allocAfter base => rfl
  | allocBeyond base jumpCount frame => rfl
  | allocBeyondEx base jumpCount => rfl

variable (h : S.Contract translation free registered)
include h

/-- A call that maps its address. -/
theorem mapsWhatItRegisters_of_zero (hb : BeforeMap S c s va physicalPage s₂)
    (hmap : (S.pageMap (c.address va) physicalPage s₂).1 = 0) :
    MapsWhatItRegisters S translation free registered c s ↔ SamePage (c.address va) va := by
  have hrun := hb.run h
  have hreg' := h.map_registered (c.address va) physicalPage s₂
  rcases hs₃ : S.pageMap (c.address va) physicalPage s₂ with ⟨result, s₃⟩
  rw [hs₃] at hrun hmap hreg'
  obtain rfl : result = 0 := hmap
  dsimp only at hrun hreg'
  rw [if_neg (by decide), if_neg (by decide)] at hrun
  obtain ⟨hfresh, hreg, htrans, hfree, hin, hmasked⟩ := hb.keeps h
  obtain ⟨hnone, hsome, hother, hsub⟩ := h.map_zero _ _ _ _ hs₃
  rw [hmasked] at hsome
  rw [htrans] at hnone hother
  constructor
  · intro hall
    obtain ⟨va', page, hva', -, hreg'', hpage, hpage', htrans', hsame⟩ :=
      (hall _ _ _ hrun).zero rfl
    rw [hb.names] at hva'
    obtain rfl := Option.some.inj hva'
    by_contra hne
    -- the address was not mapped before
    have hkept := hsame (c.address va) fun heq => hne heq.symm
    rw [hsome, hnone] at hkept
    cases hkept
  · intro hsame code written s' hrun'
    rw [hrun] at hrun'
    obtain ⟨rfl, rfl, rfl⟩ := PageServices.AllocResult.returned.inj hrun'
    refine ⟨fun _ => ⟨va, physicalPage, hb.names, hfresh, hreg'.trans hreg, hin, ?_, ?_, ?_⟩,
      fun hne => absurd rfl hne⟩
    · intro hmem
      have hmem' := hsub hmem
      rw [hfree] at hmem'
      exact hmem'.2 rfl
    · rw [← h.translation_page s₃ _ _ hsame, hsome]
    · exact fun va' hva' => hother va' fun heq => hva' (hsame.symm.trans heq)

/-- A call that fails to map its address. -/
theorem mapsWhatItRegisters_of_fail (hb : BeforeMap S c s va physicalPage s₂)
    (hmap : (S.pageMap (c.address va) physicalPage s₂).1 = -1) :
    MapsWhatItRegisters S translation free registered c s ↔ c.address va = va := by
  have hrun := hb.run h
  have hreg' := h.map_registered (c.address va) physicalPage s₂
  rcases hs₃ : S.pageMap (c.address va) physicalPage s₂ with ⟨result, s₃⟩
  rw [hs₃] at hrun hmap hreg'
  obtain rfl : result = -1 := hmap
  dsimp only at hrun hreg'
  rw [if_neg (by decide), if_pos rfl] at hrun
  obtain ⟨hfresh, hreg, htrans, hfree, hin, hmasked⟩ := hb.keeps h
  obtain ⟨hreg'', htrans'', hfree''⟩ :=
    h.virtualFree (c.address va) (S.pagePhysicalFree physicalPage s₃)
  rw [h.free_registered, hreg', hreg] at hreg''
  rw [h.free_translation, (h.map_fail _ _ _ _ hs₃).1, htrans] at htrans''
  constructor
  · intro hall
    by_contra hne
    obtain ⟨hsame, -, -⟩ := (hall _ _ _ hrun).fail (by decide)
    -- the page is registered for good
    refine hfresh ?_
    rw [← hsame, hreg'']
    exact ⟨Set.mem_insert va _, fun heq => hne heq.symm⟩
  · intro heq code written s' hrun'
    rw [hrun] at hrun'
    obtain ⟨rfl, rfl, rfl⟩ := PageServices.AllocResult.returned.inj hrun'
    refine ⟨fun hzero => absurd hzero (by decide), fun _ => ⟨?_, htrans'', ?_⟩⟩
    · rw [hreg'', heq, Set.insert_sdiff_of_mem _ (Set.mem_singleton va),
        Set.sdiff_singleton_eq_self hfresh]
    · obtain ⟨s₁, hphys, -⟩ := hb
      intro page s₁' hphys'
      rw [hphys] at hphys'
      obtain rfl : physicalPage = page := congrArg (·.2.1) hphys'
      rw [hfree'', h.free_frame _ _ hmasked]
      exact Set.mem_insert physicalPage _

/-- A call that comes to map an address is right exactly if `page_map` does what is right
for its page. -/
theorem mapsWhatItRegisters_beforeMap (hb : BeforeMap S c s va physicalPage s₂) :
    MapsWhatItRegisters S translation free registered c s ↔
      RightFor va (c.address va) (S.pageMap (c.address va) physicalPage s₂).1 := by
  unfold RightFor
  rcases h.map_code (c.address va) physicalPage s₂ with hmap | hmap | hmap
  · rw [mapsWhatItRegisters_of_zero h hb hmap, hmap]
    simp
  · -- the call does not return
    have hpanic : c.run S s = .panic := by
      rw [hb.run h]
      exact if_pos hmap
    refine iff_of_true (fun code written s' hrun => ?_) (.inl hmap)
    rw [hpanic] at hrun
    cases hrun
  · rw [mapsWhatItRegisters_of_fail h hb hmap, hmap]
    simp

/-- A call that does not come to map an address has nothing to undo. -/
theorem mapsWhatItRegisters_of_not
    (hnot : ¬ ∃ va physicalPage s₂, BeforeMap S c s va physicalPage s₂) :
    MapsWhatItRegisters S translation free registered c s := by
  obtain ⟨code, written, s', hrun, hne, hreg, htrans, hfree⟩ := run_of_not_beforeMap h hnot
  intro code' written' t hrun'
  rw [hrun] at hrun'
  obtain ⟨rfl, rfl, rfl⟩ := PageServices.AllocResult.returned.inj hrun'
  refine ⟨fun hzero => absurd hzero hne, fun _ => ⟨hreg, htrans, fun page s₁ hphys => ?_⟩⟩
  rw [hfree]
  exact (h.alloc_zero _ _ _ hphys).1

/-- A call maps the page that it registers exactly if it is not one of `page_alloc_beyond`
that comes to map its pointer, or `page_map` does there what is right for the page. -/
theorem mapsRegistered_iff (c : SingleCall) (s : σ) :
    MapsWhatItRegisters S translation free registered c s ↔
      ∀ pointer, c.pointer = some pointer → ∀ va physicalPage s₂,
        BeforeMap S c s va physicalPage s₂ →
          RightFor va pointer (S.pageMap pointer physicalPage s₂).1 := by
  by_cases hreach : ∃ va physicalPage s₂, BeforeMap S c s va physicalPage s₂
  · obtain ⟨va, physicalPage, s₂, hb⟩ := hreach
    rw [mapsWhatItRegisters_beforeMap h hb, SingleCall.address]
    constructor
    · intro hright pointer hpointer va' page s₂' hb'
      obtain ⟨s₁, hphys, hvirt⟩ := hb
      obtain ⟨s₁', hphys', hvirt'⟩ := hb'
      rw [hphys] at hphys'
      obtain ⟨rfl, rfl⟩ : physicalPage = page ∧ s₁ = s₁' :=
        ⟨congrArg (·.2.1) hphys', congrArg (·.2.2) hphys'⟩
      rw [hvirt] at hvirt'
      obtain ⟨rfl, rfl⟩ : va = va' ∧ s₂ = s₂' :=
        ⟨congrArg (·.2.1) hvirt', congrArg (·.2.2) hvirt'⟩
      rwa [hpointer, Option.getD_some] at hright
    · intro hall
      cases hpointer : c.pointer with
      | some pointer => exact hall pointer hpointer va physicalPage s₂ hb
      | none =>
        rw [Option.getD_none]
        rcases h.map_code va physicalPage s₂ with hmap | hmap | hmap
        · exact .inr (.inl ⟨hmap, rfl⟩)
        · exact .inl hmap
        · exact .inr (.inr ⟨hmap, rfl⟩)
  · exact iff_of_true (mapsWhatItRegisters_of_not h hreach) fun pointer _ va page s₂ hb =>
      absurd ⟨va, page, s₂, hb⟩ hreach

/-- Each of the functions maps the page that it registers, if the variable that the client
has it write to is mapped. -/
theorem mapsWhatItRegisters_of_client (hreports : S.ReportsMapped translation) (c : SingleCall)
    (s : σ) (hclient : ∀ pointer, c.pointer = some pointer → translation s pointer ≠ none) :
    MapsWhatItRegisters S translation free registered c s := by
  refine (mapsRegistered_iff h c s).mpr fun pointer hpointer va physicalPage s₂ hb => .inl ?_
  obtain ⟨-, -, htrans, -⟩ := hb.keeps h
  refine hreports pointer physicalPage s₂ ?_
  rw [htrans]
  exact hclient pointer hpointer

end Single

/-! ### An instance -/

namespace Shelf

/-- Register the first free page that the predicate holds of. -/
def registerOne (p : UInt64 → Bool) (s : Shelf) : ℤ × UInt64 × Shelf :=
  match s.pages.find? p with
  | none => (-1, 0, s)
  | some va => (0, va, { s with pages := s.pages.filter (· ≠ va) })

/-- The functions for one page. -/
def singleServices : SingleServices Shelf where
  toPageServices := services
  pageVirtualAllocAt frame s :=
    if frame ∈ s.pages then (0, { s with pages := s.pages.filter (· ≠ frame) }) else (1, s)
  pageVirtualAllocAfter base := registerOne (base ≤ ·)
  pageVirtualAllocBeyond base jump := registerOne (base + jump <<< 12 ≤ ·)
  pageVirtualAllocBeyondEx base jump := registerOne (base + jump <<< 12 ≤ ·)

theorem registered_filter {s : Shelf} (va : UInt64) :
    registered { s with pages := s.pages.filter (· ≠ va) } = insert va (registered s) := by
  refine Set.ext fun x => ?_
  simp only [mem_registered, Set.mem_insert_iff, List.mem_filter, decide_eq_true_eq]
  tauto

theorem registersPage_one {codes : Set ℤ} (hzero : 0 ∈ codes) (hfail : -1 ∈ codes)
    (p : UInt64 → Bool) : RegistersPage translation free registered codes (registerOne p) where
  code s := by
    unfold registerOne
    split
    · exact hfail
    · exact hzero
  zero s frame s' h := by
    unfold registerOne at h
    split at h
    · cases h
    · rename_i va hva
      obtain ⟨rfl, rfl⟩ : va = frame ∧ { s with pages := s.pages.filter (· ≠ va) } = s' :=
        ⟨congrArg (·.2.1) h, congrArg (·.2.2) h⟩
      exact ⟨fun hreg => hreg (List.mem_of_find?_eq_some hva), registered_filter va⟩
  fail s h := by
    unfold registerOne at h ⊢
    split
    · rfl
    · rename_i va hva
      rw [hva] at h
      exact absurd rfl h
  keeps s := by
    unfold registerOne
    split
    · exact ⟨rfl, rfl⟩
    · exact ⟨rfl, rfl⟩

theorem virtualAllocAt_single (frame : UInt64) (s : Shelf) :
    singleServices.virtualAllocAt frame s =
      if frame ∈ s.pages then (0, frame, { s with pages := s.pages.filter (· ≠ frame) })
      else (1, frame, s) := by
  simp only [SingleServices.virtualAllocAt, singleServices]
  split
  · rfl
  · rfl

theorem registersPage_at (frame : UInt64) :
    RegistersPage translation free registered {0, 1, -1} (singleServices.virtualAllocAt frame) where
  code s := by
    rw [virtualAllocAt_single]
    split
    · exact .inl rfl
    · exact .inr (.inl rfl)
  zero s va s' h := by
    rw [virtualAllocAt_single] at h
    split at h
    · rename_i hmem
      obtain ⟨rfl, rfl⟩ : frame = va ∧ { s with pages := s.pages.filter (· ≠ frame) } = s' :=
        ⟨congrArg (·.2.1) h, congrArg (·.2.2) h⟩
      exact ⟨fun hreg => hreg hmem, registered_filter frame⟩
    · cases h
  fail s h := by
    rw [virtualAllocAt_single] at h ⊢
    split
    · rename_i hmem
      rw [if_pos hmem] at h
      exact absurd rfl h
    · rfl
  keeps s := by
    rw [virtualAllocAt_single]
    split
    · exact ⟨rfl, rfl⟩
    · exact ⟨rfl, rfl⟩

theorem singleServices_contract : singleServices.Contract translation free registered where
  toPage := services_contract
  allocAt := registersPage_at
  allocAfter base := registersPage_one (by simp) (by simp) _
  allocBeyond base jump := registersPage_one (by simp) (by simp) _
  allocBeyondEx base jump := registersPage_one (by simp) (by simp) _

end Shelf

/-- The shelf with one free frame, and a client's variable on page 9. -/
def clientShelf : Shelf :=
  { oneFrameShelf with mapping := fun n => if n = 9 then some 0x2000 else none }

/-- `page_alloc_beyond_ex` maps the page that it registers, and `page_alloc_beyond` with a
variable that is mapped does not return. -/
theorem mapsWhatItRegisters_clientShelf :
    MapsWhatItRegisters Shelf.singleServices Shelf.translation Shelf.free Shelf.registered
        (.allocBeyondEx 0x7f000 1) clientShelf ∧
      MapsWhatItRegisters Shelf.singleServices Shelf.translation Shelf.free Shelf.registered
        (.allocBeyond 0x7f000 1 0x9008) clientShelf := by
  refine ⟨mapsWhatItRegisters_of_client Shelf.singleServices_contract
    Shelf.services_reportsMapped _ _ nofun, mapsWhatItRegisters_of_client
      Shelf.singleServices_contract Shelf.services_reportsMapped _ _ fun pointer hpointer => ?_⟩
  obtain rfl := Option.some.inj hpointer
  show (if (0x9008 : UInt64).toNat / 4096 = 9 then some (0x2000 : UInt64) else none) ≠ none
  rw [if_pos (by decide)]
  exact nofun

end Betelgeuse
