/-
`page_alloc` and `page_free` (`kernel/memory.c`).

The functions that allocate one page take a frame, register a page and map an
address to the frame, and undo what they have done when a later step fails.
`allocPage` is this function with the parts in which they differ as parameters.

By the contracts of the functions they call, `page_alloc` takes a frame, registers
a virtual page and maps it to the frame (`pageAlloc_zero`), or fails and leaves
the translation and the registered pages as they were (`pageAlloc_fail`).
`page_free` undoes the mapping and the registration (`pageFree_restores`), but it
drops the frame that `page_unmap` reports: the frame is never free again
(`pageAlloc_pageFree_leaks`), so each pair of calls takes one frame for good
(`AllocFree.leak`).
-/
import Betelgeuse.PageServices
import Mathlib.Data.Set.Card

namespace Betelgeuse

variable {σ : Type*}

namespace PageServices

/-- What a call of `page_alloc` ends in; `frame` is what it wrote to `*frame`. -/
inductive AllocResult (σ : Type*) where
  | returned (code : ℤ) (frame : Option UInt64) (s : σ)
  | panic

variable (S : PageServices σ)

def pageAlloc (s : σ) : AllocResult σ :=
  let (result, physicalPage, s) := S.pagePhysicalAlloc s
  if result = -1 then .returned (-1) none s
  else
    let (result, frame, s) := S.pageVirtualAlloc s
    if result = -1 then .returned (-1) (some frame) (S.pagePhysicalFree physicalPage s)
    else
      let (result, s) := S.pageMap frame physicalPage s
      if result = 1 then .panic
      else if result = -1 then
        let s := S.pagePhysicalFree physicalPage s
        .returned (-1) (some frame) (S.pageVirtualFree frame s).2
      else .returned 0 (some frame) s

def pageFree (frame : UInt64) (s : σ) : σ :=
  let (result, _, s) := S.pageUnmap frame s
  if result = -1 then s
  else (S.pageVirtualFree frame s).2

/-- What `page_free` should do for a page that `page_alloc` gave out in state `s`:
restore the registered pages and the translation, and free the frame behind the
page. -/
structure GivesBack (translation : σ → UInt64 → Option UInt64) (free registered : σ → Set UInt64)
    (s s' : σ) (frame : UInt64) : Prop where
  unregistered : registered (S.pageFree frame s') = registered s
  unmapped : translation (S.pageFree frame s') = translation s
  freed : ∀ physicalPage, translation s' frame = some physicalPage →
    physicalPage ∈ free (S.pageFree frame s')

/-- A function that registers one page that was not registered, or fails; `codes` are the
documented results. -/
structure RegistersPage (translation : σ → UInt64 → Option UInt64)
    (free registered : σ → Set UInt64) (codes : Set ℤ) (f : σ → ℤ × UInt64 × σ) : Prop where
  code : ∀ s, (f s).1 ∈ codes
  zero : ∀ s frame s', f s = (0, frame, s') →
    frame ∉ registered s ∧ registered s' = insert frame (registered s)
  fail : ∀ s, (f s).1 ≠ 0 → registered (f s).2.2 = registered s
  keeps : ∀ s, translation (f s).2.2 = translation s ∧ free (f s).2.2 = free s

/-- The functions for one page with the function that registers it, the test for its
failure, and the address that they map and unregister. -/
def allocPage (virtualAlloc : σ → ℤ × UInt64 × σ) (failed : ℤ → Prop) [DecidablePred failed]
    (address : UInt64 → UInt64) (s : σ) : AllocResult σ :=
  let (result, physicalPage, s) := S.pagePhysicalAlloc s
  if result = -1 then .returned (-1) none s
  else
    let (result, frame, s) := virtualAlloc s
    if failed result then .returned result (some frame) (S.pagePhysicalFree physicalPage s)
    else
      let (result, s) := S.pageMap (address frame) physicalPage s
      if result = 1 then .panic
      else if result = -1 then
        let s := S.pagePhysicalFree physicalPage s
        .returned (-1) (some frame) (S.pageVirtualFree (address frame) s).2
      else .returned 0 (some frame) s

/-- The state in which the function maps an address to the frame `physicalPage` that it has
taken, when it has registered the page `va`. -/
def ReachesMap (f : σ → ℤ × UInt64 × σ) (s : σ) (va physicalPage : UInt64) (s₂ : σ) : Prop :=
  ∃ s₁, S.pagePhysicalAlloc s = (0, physicalPage, s₁) ∧ f s₁ = (0, va, s₂)

variable {S} {translation : σ → UInt64 → Option UInt64} {free registered : σ → Set UInt64}
  {s s' : σ} {frame : UInt64}

/-! ### One page -/

section AllocPage

variable {f : σ → ℤ × UInt64 × σ} {address : UInt64 → UInt64} {codes : Set ℤ}
  {va physicalPage : UInt64} {s₂ : σ}

/-- The two tests for a failure agree on the documented results. -/
theorem allocPage_failed (hf : RegistersPage translation free registered {0, -1} f) (s : σ) :
    S.allocPage f (· = -1) address s = S.allocPage f (· ≠ 0) address s := by
  unfold allocPage
  rcases S.pagePhysicalAlloc s with ⟨result, physicalPage, s₁⟩
  have hcode := hf.code s₁
  rcases hvirt : f s₁ with ⟨result', va, s₂⟩
  rw [hvirt] at hcode
  rcases hcode with hzero | hfail
  · obtain rfl : result' = 0 := hzero
    simp [hvirt]
  · obtain rfl : result' = -1 := hfail
    simp [hvirt]

/-- A call that has registered its page maps an address. -/
theorem ReachesMap.run (hr : S.ReachesMap f s va physicalPage s₂) :
    S.allocPage f (· ≠ 0) address s =
      let (result, s₃) := S.pageMap (address va) physicalPage s₂
      if result = 1 then .panic
      else if result = -1 then
        .returned (-1) (some va)
          (S.pageVirtualFree (address va) (S.pagePhysicalFree physicalPage s₃)).2
      else .returned 0 (some va) s₃ := by
  obtain ⟨s₁, hphys, hvirt⟩ := hr
  rw [allocPage, hphys]
  dsimp only
  rw [hvirt, if_neg (by decide)]
  dsimp only
  rw [if_neg (not_not.mpr rfl)]

variable (h : S.Contract translation free registered)
include h

theorem Contract.registersPage_alloc :
    RegistersPage translation free registered {0, -1} S.pageVirtualAlloc where
  code := h.virtualAlloc_code
  zero := h.virtualAlloc_zero
  fail s hne := by
    have hcode := (h.virtualAlloc_code s).resolve_left hne
    rcases hvirt : S.pageVirtualAlloc s with ⟨result, frame, s'⟩
    rw [hvirt] at hcode
    obtain rfl : result = -1 := hcode
    exact h.virtualAlloc_fail _ _ _ hvirt
  keeps := h.virtualAlloc_keeps

/-- `page_alloc` is one of the functions. -/
theorem Contract.pageAlloc_eq (s : σ) :
    S.pageAlloc s = S.allocPage S.pageVirtualAlloc (· ≠ 0) id s := by
  rw [← allocPage_failed h.registersPage_alloc]
  unfold pageAlloc allocPage
  rcases S.pagePhysicalAlloc s with ⟨result, physicalPage, s₁⟩
  rcases hvirt : S.pageVirtualAlloc s₁ with ⟨result', va, s₂⟩
  by_cases hfail : result' = -1
  · simp [hvirt, hfail]
  · simp [hvirt, hfail]

/-- What a call has done when it comes to map an address. -/
theorem Contract.reachesMap_keeps (hf : RegistersPage translation free registered codes f)
    (hr : S.ReachesMap f s va physicalPage s₂) :
    va ∉ registered s ∧ registered s₂ = insert va (registered s) ∧
      translation s₂ = translation s ∧ free s₂ = free s \ {physicalPage} ∧
      physicalPage ∈ free s ∧ physicalPage &&& addrMask = physicalPage := by
  obtain ⟨s₁, hphys, hvirt⟩ := hr
  obtain ⟨hin, hmasked, hfree, htrans⟩ := h.alloc_zero _ _ _ hphys
  have hreg := h.alloc_registered s
  obtain ⟨hfresh, hreg'⟩ := hf.zero _ _ _ hvirt
  obtain ⟨htrans', hfree'⟩ := hf.keeps s₁
  rw [hphys] at hreg
  rw [hvirt] at htrans' hfree'
  dsimp only at hreg htrans' hfree'
  rw [hreg] at hfresh hreg'
  exact ⟨hfresh, hreg', htrans'.trans htrans, hfree'.trans hfree, hin, hmasked⟩

/-- A call that finds no frame or no page leaves everything as it was. -/
theorem Contract.allocPage_of_not (address : UInt64 → UInt64)
    (hf : RegistersPage translation free registered codes f)
    (hnot : ¬ ∃ va physicalPage s₂, S.ReachesMap f s va physicalPage s₂) :
    ∃ code frame s', S.allocPage f (· ≠ 0) address s = .returned code frame s' ∧ code ≠ 0 ∧
      registered s' = registered s ∧ translation s' = translation s ∧ free s' = free s := by
  rw [allocPage]
  rcases hphys : S.pagePhysicalAlloc s with ⟨result, physicalPage, s₁⟩
  have hcode := h.alloc_code s
  have hreg := h.alloc_registered s
  rw [hphys] at hcode hreg
  dsimp only at hcode hreg ⊢
  rcases hcode with rfl | rfl
  · obtain ⟨hin, hmasked, hfree, htrans⟩ := h.alloc_zero _ _ _ hphys
    have hfail := hf.fail s₁
    have hkeeps := hf.keeps s₁
    rcases hvirt : f s₁ with ⟨result', va, s₂⟩
    rw [hvirt] at hfail hkeeps
    dsimp only at hfail hkeeps ⊢
    rw [if_neg (by decide)]
    have hne : result' ≠ 0 := by
      rintro rfl
      exact hnot ⟨va, physicalPage, s₂, s₁, hphys, hvirt⟩
    rw [if_pos hne]
    refine ⟨_, _, _, rfl, hne, ?_, ?_, ?_⟩
    · rw [h.free_registered, hfail hne, hreg]
    · rw [h.free_translation, hkeeps.1, htrans]
    · rw [h.free_frame _ _ hmasked, hkeeps.2, hfree, Set.insert_sdiff_singleton,
        Set.insert_eq_of_mem hin]
  · obtain ⟨hfree, htrans⟩ := h.alloc_fail _ _ _ hphys
    rw [if_pos rfl]
    exact ⟨_, _, _, rfl, by decide, hreg, htrans, hfree⟩

end AllocPage

/-- What a successful call does. -/
theorem Contract.pageAlloc_zero (h : S.Contract translation free registered)
    {frame : Option UInt64} (halloc : S.pageAlloc s = .returned 0 frame s') :
    ∃ va physicalPage, frame = some va ∧ va ∉ registered s ∧
      registered s' = insert va (registered s) ∧
      translation s va = none ∧ translation s' va = some physicalPage ∧
      (∀ va', ¬ SamePage va va' → translation s' va' = translation s va') ∧
      physicalPage ∈ free s ∧ free s' ⊆ free s \ {physicalPage} := by
  rw [h.pageAlloc_eq] at halloc
  by_cases hreach : ∃ va physicalPage s₂, S.ReachesMap S.pageVirtualAlloc s va physicalPage s₂
  · obtain ⟨va, physicalPage, s₂, hr⟩ := hreach
    obtain ⟨hfresh, hreg, htrans, hfree, hin, hmasked⟩ :=
      h.reachesMap_keeps h.registersPage_alloc hr
    have hcode := h.map_code va physicalPage s₂
    have hreg' := h.map_registered va physicalPage s₂
    rw [hr.run, id] at halloc
    rcases hmap : S.pageMap va physicalPage s₂ with ⟨result, s₃⟩
    rw [hmap] at halloc hcode hreg'
    dsimp only at halloc hcode hreg'
    rcases hcode with rfl | rfl | rfl
    · obtain ⟨-, rfl, rfl⟩ : (0 : ℤ) = 0 ∧ some va = frame ∧ s₃ = s' := by simpa using halloc
      obtain ⟨hnone, hsome, hother, hsub⟩ := h.map_zero _ _ _ _ hmap
      rw [hmasked] at hsome
      rw [htrans] at hnone hother
      exact ⟨va, physicalPage, rfl, hfresh, hreg'.trans hreg, hnone, hsome, hother, hin,
        hfree ▸ hsub⟩
    · simp at halloc
    · simp at halloc
  · obtain ⟨code, written, t, hrun, hne, -⟩ :=
      h.allocPage_of_not id h.registersPage_alloc hreach
    rw [hrun] at halloc
    exact absurd (AllocResult.returned.inj halloc).1 hne

/-- A failed call leaves the translation and the registered pages alone. -/
theorem Contract.pageAlloc_fail (h : S.Contract translation free registered)
    {frame : Option UInt64} (halloc : S.pageAlloc s = .returned (-1) frame s') :
    translation s' = translation s ∧ registered s' = registered s := by
  rw [h.pageAlloc_eq] at halloc
  by_cases hreach : ∃ va physicalPage s₂, S.ReachesMap S.pageVirtualAlloc s va physicalPage s₂
  · obtain ⟨va, physicalPage, s₂, hr⟩ := hreach
    obtain ⟨hfresh, hreg, htrans, -⟩ := h.reachesMap_keeps h.registersPage_alloc hr
    have hcode := h.map_code va physicalPage s₂
    have hreg' := h.map_registered va physicalPage s₂
    rw [hr.run, id] at halloc
    rcases hmap : S.pageMap va physicalPage s₂ with ⟨result, s₃⟩
    rw [hmap] at halloc hcode hreg'
    dsimp only at halloc hcode hreg'
    rcases hcode with rfl | rfl | rfl
    · simp at halloc
    · simp at halloc
    · -- the page is unregistered again
      obtain ⟨-, rfl⟩ : some va = frame ∧
          (S.pageVirtualFree va (S.pagePhysicalFree physicalPage s₃)).2 = s' := by
        simpa using halloc
      obtain ⟨hreg'', htrans'', -⟩ := h.virtualFree va (S.pagePhysicalFree physicalPage s₃)
      rw [htrans'', hreg'', h.free_translation, h.free_registered, (h.map_fail _ _ _ _ hmap).1,
        htrans, hreg', hreg, Set.insert_sdiff_of_mem _ (Set.mem_singleton va),
        Set.sdiff_singleton_eq_self hfresh]
      exact ⟨rfl, rfl⟩
  · obtain ⟨code, written, t, hrun, hne, hreg, htrans, -⟩ :=
      h.allocPage_of_not id h.registersPage_alloc hreach
    rw [hrun] at halloc
    obtain ⟨-, -, rfl⟩ := AllocResult.returned.inj halloc
    exact ⟨htrans, hreg⟩

/-- `page_free` frees no frame. -/
theorem Contract.free_pageFree (h : S.Contract translation free registered) (frame : UInt64)
    (s : σ) : free (S.pageFree frame s) = free s := by
  have hunmap := h.unmap_free frame s
  unfold pageFree
  rcases hs₁ : S.pageUnmap frame s with ⟨result, physicalPage, s₁⟩
  rw [hs₁] at hunmap
  simp only at hunmap ⊢
  split
  · exact hunmap
  · rw [(h.virtualFree frame s₁).2.2, hunmap]

/-- It does undo the mapping and the registration, if `page_unmap` succeeds. -/
theorem Contract.pageFree_restores (h : S.Contract translation free registered)
    (halloc : S.pageAlloc s = .returned 0 (some frame) s')
    (hunmap : (S.pageUnmap frame s').1 = 0) :
    registered (S.pageFree frame s') = registered s ∧
      translation (S.pageFree frame s') = translation s := by
  obtain ⟨va, physicalPage, hva, hfresh, hreg, hnone, -, hother, -⟩ := h.pageAlloc_zero halloc
  obtain rfl := Option.some.inj hva
  have hreg₁ := h.unmap_registered frame s'
  rcases hs₁ : S.pageUnmap frame s' with ⟨result, physicalPage', s₁⟩
  rw [hs₁] at hunmap hreg₁
  obtain rfl : result = 0 := hunmap
  simp only at hreg₁
  obtain ⟨-, hnone₁, hother₁⟩ := h.unmap_zero _ _ _ _ hs₁
  obtain ⟨hreg₂, htrans₂, -⟩ := h.virtualFree frame s₁
  have hfree : S.pageFree frame s' = (S.pageVirtualFree frame s₁).2 := by
    simp [pageFree, hs₁]
  rw [hfree, hreg₂, htrans₂, hreg₁, hreg, Set.insert_sdiff_of_mem _ (Set.mem_singleton frame),
    Set.sdiff_singleton_eq_self hfresh]
  refine ⟨rfl, funext fun va' => ?_⟩
  by_cases hpage : SamePage frame va'
  · rw [← h.translation_page s₁ _ _ hpage, ← h.translation_page s _ _ hpage, hnone₁, hnone]
  · rw [hother₁ va' hpage, hother va' hpage]

/-- But the frame behind the page stays allocated, in every state. -/
theorem pageAlloc_pageFree_leaks (h : S.Contract translation free registered)
    (halloc : S.pageAlloc s = .returned 0 (some frame) s') :
    ¬ S.GivesBack translation free registered s s' frame := by
  obtain ⟨va, physicalPage, hva, -, -, -, hsome, -, -, hfree⟩ := h.pageAlloc_zero halloc
  obtain rfl := Option.some.inj hva
  intro hback
  have hfreed := hback.freed physicalPage hsome
  rw [h.free_pageFree] at hfreed
  exact (hfree hfreed).2 rfl

/-! ### Runs of pairs -/

/-- `n` times a successful `page_alloc` and a `page_free` of its page. -/
inductive AllocFree (S : PageServices σ) : ℕ → σ → σ → Prop where
  | zero (s : σ) : AllocFree S 0 s s
  | succ {n : ℕ} {s s' s'' : σ} {frame : UInt64} : AllocFree S n s s' →
      S.pageAlloc s' = .returned 0 (some frame) s'' → AllocFree S (n + 1) s (S.pageFree frame s'')

/-- Each pair takes a frame for good. -/
theorem AllocFree.leak (h : S.Contract translation free registered) {n : ℕ}
    (hrun : S.AllocFree n s s') :
    ∃ l : Finset UInt64, l.card = n ∧ ↑l ⊆ free s ∧ free s' ⊆ free s \ ↑l := by
  induction hrun with
  | zero s => exact ⟨∅, rfl, by simp, by simp⟩
  | succ _ halloc ih =>
    obtain ⟨l, hcard, hl, hleft⟩ := ih
    obtain ⟨va, physicalPage, hva, -, -, -, -, -, hmem, hfree⟩ := h.pageAlloc_zero halloc
    obtain ⟨hmem_start, hnotMem⟩ := hleft hmem
    refine ⟨insert physicalPage l, ?_, ?_, ?_⟩
    · rw [Finset.card_insert_of_notMem hnotMem, hcard]
    · intro x hx
      rcases Finset.mem_insert.mp hx with rfl | hx
      · exact hmem_start
      · exact hl hx
    · rw [h.free_pageFree]
      intro x hx
      obtain ⟨hx', hne⟩ := hfree hx
      obtain ⟨hx_start, hx_not⟩ := hleft hx'
      exact ⟨hx_start, fun hin => (Finset.mem_insert.mp hin).elim hne hx_not⟩

/-- So there are at most as many pairs as there are free frames. -/
theorem AllocFree.le_ncard (h : S.Contract translation free registered) {n : ℕ}
    (hrun : S.AllocFree n s s') (hfinite : (free s).Finite) : n ≤ (free s).ncard := by
  obtain ⟨l, hcard, hl, -⟩ := hrun.leak h
  rw [← hcard, ← Set.ncard_coe_finset]
  exact Set.ncard_le_ncard hl hfinite

end PageServices

/-- A shelf with one free frame and one free page. -/
def oneFrameShelf : Shelf where
  frames := [⟨0x5000, by decide⟩]
  pages := [0x80000]
  mapping := fun _ => none

/-- The state after `page_alloc` has taken both. -/
def oneFrameShelfAllocated : Shelf where
  frames := []
  pages := []
  mapping := Function.update (fun _ => none) 0x80 (some 0x5000)

theorem pageAlloc_oneFrameShelf :
    Shelf.services.pageAlloc oneFrameShelf = .returned 0 (some 0x80000) oneFrameShelfAllocated :=
  rfl

/-- After `page_free` the frame is still taken. -/
theorem leaks_oneFrameShelf :
    ¬ Shelf.services.GivesBack Shelf.translation Shelf.free Shelf.registered oneFrameShelf
      oneFrameShelfAllocated 0x80000 :=
  PageServices.pageAlloc_pageFree_leaks Shelf.services_contract pageAlloc_oneFrameShelf

/-- So that the next `page_alloc` fails. -/
theorem pageAlloc_again_oneFrameShelf :
    ¬ Shelf.services.GivesBack Shelf.translation Shelf.free Shelf.registered oneFrameShelf
      oneFrameShelfAllocated 0x80000 ∧
      ∃ s, Shelf.services.pageAlloc (Shelf.services.pageFree 0x80000 oneFrameShelfAllocated) =
        .returned (-1) none s := by
  refine ⟨fun hback => ?_, _, rfl⟩
  obtain ⟨f, hf, -⟩ := Shelf.mem_free.mp (hback.freed 0x5000 rfl)
  exact absurd hf List.not_mem_nil

end Betelgeuse
