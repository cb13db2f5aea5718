/-
`page_free_multiple`.

Each round unmaps the next page, but unregisters the first page again, and no round
gives a frame back.  So the call releases no range of two or more pages, and one page
only if its frame was free before (`releasesPages_iff`).
-/
import Betelgeuse.PageMultiple

namespace Betelgeuse

variable {σ : Type*}

/-- What `page_free_multiple` should do: unmap and unregister the pages from `frame` on, free
the frames behind them, and leave all other pages alone. -/
structure ReleasesPages (S : MultipleServices σ) (translation : σ → UInt64 → Option UInt64)
    (free registered : σ → Set UInt64) (frame count : UInt64) (s : σ) : Prop where
  unregistered : ∀ va ∈ pageRange frame count,
    va ∉ registered (S.pageFreeMultiple frame count s)
  unmapped : ∀ va ∈ pageRange frame count, translation (S.pageFreeMultiple frame count s) va = none
  freed : ∀ va ∈ pageRange frame count, ∀ physicalPage, translation s va = some physicalPage →
    physicalPage ∈ free (S.pageFreeMultiple frame count s)
  registration : ∀ va, va ∉ pageRange frame count →
    (va ∈ registered (S.pageFreeMultiple frame count s) ↔ va ∈ registered s)
  translation : ∀ va', (∀ va ∈ pageRange frame count, ¬ SamePage va va') →
    translation (S.pageFreeMultiple frame count s) va' = translation s va'

/-- The pages from `frame` on are registered and mapped, and `page_unmap` may unmap them. -/
structure ReleasablePages (translation : σ → UInt64 → Option UInt64) (registered : σ → Set UInt64)
    (mirror : Set UInt64) (frame count : UInt64) (s : σ) : Prop where
  registered : ∀ va ∈ pageRange frame count, va ∈ registered s
  mapped : ∀ va ∈ pageRange frame count, translation s va ≠ none
  outside : ∀ va ∈ pageRange frame count, va ∉ mirror

section Release

variable {S : MultipleServices σ} {translation : σ → UInt64 → Option UInt64}
  {free registered : σ → Set UInt64} {mirror : Set UInt64} {frame count : UInt64} {s : σ}

theorem pageRange_zero (frame : UInt64) : pageRange frame 0 = ∅ := by
  refine Set.eq_empty_iff_forall_notMem.mpr ?_
  rintro va ⟨j, hj, -⟩
  exact absurd hj (Nat.not_lt_zero j)

theorem pageRange_one (frame : UInt64) : pageRange frame 1 = {frame} := by
  refine Set.ext fun va => ⟨?_, ?_⟩
  · rintro ⟨j, hj, rfl⟩
    obtain rfl : j = 0 := Nat.lt_one_iff.mp hj
    exact UInt64.add_zero frame
  · rintro rfl
    exact mem_pageRange_self va Nat.one_pos

/-- A round unregisters the first page at most. -/
theorem registered_freeRound (h : S.Contract translation free registered) (frame : UInt64) (s : σ)
    (i : ℕ) : registered s \ {frame} ⊆ registered (S.freeRound frame s i) := by
  have hunmap := h.unmap_registered (frame + UInt64.ofNat i <<< 12) s
  unfold MultipleServices.freeRound
  dsimp only
  split
  · rw [hunmap]
    exact Set.sdiff_subset
  · rw [(h.virtualFree _ _).1, hunmap]

/-- So all other pages of the range stay registered. -/
theorem registered_pageFreeMultiple (h : S.Contract translation free registered)
    (frame count : UInt64) (s : σ) :
    registered s \ {frame} ⊆ registered (S.pageFreeMultiple frame count s) := by
  have hall : ∀ (l : List ℕ) s,
      registered s \ {frame} ⊆ registered (l.foldl (S.freeRound frame) s) := by
    intro l
    induction l with
    | nil => exact fun s => Set.sdiff_subset
    | cons i l ih =>
      intro s va hva
      exact ih _ ⟨registered_freeRound h frame s i hva, hva.2⟩
  exact hall _ s

/-- The one round of a call for one page. -/
theorem pageFreeMultiple_one (hunmap : (S.pageUnmap frame s).1 = 0) :
    S.pageFreeMultiple frame 1 s = (S.pageVirtualFree frame (S.pageUnmap frame s).2.2).2 := by
  show S.freeRound frame s 0 = _
  have haddr : frame + UInt64.ofNat 0 <<< 12 = frame := UInt64.add_zero frame
  rw [MultipleServices.freeRound, haddr]
  dsimp only
  rw [hunmap, if_neg (by decide)]

/-- A call for one page unmaps it and unregisters it. -/
theorem releasesPages_one_iff (h : S.Contract translation free registered)
    (hunmap : (S.pageUnmap frame s).1 = 0) :
    ReleasesPages S translation free registered frame 1 s ↔
      ∃ physicalPage, translation s frame = some physicalPage ∧ physicalPage ∈ free s := by
  have hkept := h.unmap_registered frame s
  have hrun := pageFreeMultiple_one hunmap
  have hfree := free_pageFreeMultiple h frame 1 s
  rcases hs₁ : S.pageUnmap frame s with ⟨result, physicalPage, s₁⟩
  rw [hs₁] at hunmap hrun hkept
  obtain rfl : result = 0 := hunmap
  obtain ⟨hsome, hnone, hother⟩ := h.unmap_zero _ _ _ _ hs₁
  obtain ⟨hreg, htrans, -⟩ := h.virtualFree frame s₁
  constructor
  · intro hreleases
    have hin := hreleases.freed frame (mem_pageRange_self frame Nat.one_pos) _ hsome
    rw [hfree] at hin
    exact ⟨physicalPage, hsome, hin⟩
  · rintro ⟨physicalPage', hsome', hin⟩
    -- the five points of the release, of which only the frame is at stake
    refine ⟨?_, ?_, ?_, fun va hva => ?_, fun va' hva' => ?_⟩
    · rw [pageRange_one, hrun, hreg]
      exact fun va hva hva' => hva'.2 hva
    · rw [pageRange_one, hrun, htrans]
      rintro va rfl
      exact hnone
    · rw [pageRange_one, hfree]
      rintro va rfl pa hpa
      obtain rfl := Option.some.inj (hsome'.symm.trans hpa)
      exact hin
    · rw [pageRange_one] at hva
      rw [hrun, hreg, hkept]
      exact ⟨fun hin => hin.1, fun hin => ⟨hin, hva⟩⟩
    · rw [pageRange_one] at hva'
      rw [hrun, htrans]
      exact hother va' (hva' frame rfl)

/-- `page_free_multiple` releases the pages exactly if there is nothing to do, or one page with
a frame that is free already. -/
theorem releasesPages_iff (h : S.Contract translation free registered)
    (hunmap : ∀ s va, va ∉ mirror → translation s va ≠ none → (S.pageUnmap va s).1 = 0)
    (hpages : ReleasablePages translation registered mirror frame count s) :
    ReleasesPages S translation free registered frame count s ↔
      count = 0 ∨
        count = 1 ∧ ∃ physicalPage, translation s frame = some physicalPage ∧
          physicalPage ∈ free s := by
  by_cases hzero : count = 0
  · subst hzero
    refine iff_of_true ?_ (.inl rfl)
    have hnone : ∀ va, va ∉ pageRange frame 0 := by
      intro va
      rw [pageRange_zero]
      exact Set.notMem_empty va
    exact ⟨fun va hva => absurd hva (hnone va), fun va hva => absurd hva (hnone va),
      fun va hva => absurd hva (hnone va), fun va _ => Iff.rfl, fun va _ => rfl⟩
  by_cases hone : count = 1
  · subst hone
    have hself : frame ∈ pageRange frame 1 := mem_pageRange_self frame Nat.one_pos
    have hcode := hunmap s frame (hpages.outside frame hself) (hpages.mapped frame hself)
    rw [releasesPages_one_iff h hcode]
    exact ⟨fun hin => .inr ⟨rfl, hin⟩, fun hor => (hor.resolve_left hzero).2⟩
  · refine iff_of_false (fun hreleases => ?_) fun hor => hor.elim hzero fun hor => hone hor.1
    -- the second page stays registered
    have hcount : 1 < count.toNat := by
      have h0 : count.toNat ≠ 0 := fun heq => hzero (UInt64.toNat_inj.mp heq)
      have h1 : count.toNat ≠ 1 := fun heq => hone (UInt64.toNat_inj.mp heq)
      omega
    have hsecond : frame + UInt64.ofNat 1 <<< 12 ∈ pageRange frame count := ⟨1, hcount, rfl⟩
    have hne : frame + UInt64.ofNat 1 <<< 12 ≠ frame := by
      intro heq
      have hshift : UInt64.ofNat 1 <<< 12 = 0 := UInt64.add_eq_left.mp heq
      exact absurd hshift (by decide)
    exact hreleases.unregistered _ hsecond
      (registered_pageFreeMultiple h frame count s ⟨hpages.registered _ hsecond, hne⟩)

end Release

/-! ### An instance -/

theorem Shelf.unmap_mapped (s : Shelf) (va : UInt64) (h : s.translation va ≠ none) :
    (Shelf.services.pageUnmap va s).1 = 0 := by
  obtain ⟨physicalPage, hva⟩ := Option.ne_none_iff_exists'.mp h
  simp only [Shelf.services, hva]

/-- A kernel in which all pages are registered and two of them are mapped. -/
def twoMapped (frames : List Frame) : Shelf where
  frames := frames
  pages := []
  mapping n := if n = 5 then some 0x2000 else if n = 6 then some 0x3000 else none

theorem twoMapped_releasable (frames : List Frame) {count : UInt64} (hcount : count.toNat ≤ 2) :
    ReleasablePages Shelf.translation Shelf.registered ∅ 0x5000 count (twoMapped frames) where
  registered va _ := List.not_mem_nil
  mapped := by
    rintro va ⟨j, hj, rfl⟩
    obtain rfl | rfl : j = 0 ∨ j = 1 := by omega
    · exact Option.some_ne_none 0x2000
    · exact Option.some_ne_none 0x3000
  outside va _ := Set.notMem_empty va

/-- Two pages are not released, and one page if its frame is free. -/
theorem releasesPages_iff_twoMapped :
    ¬ ReleasesPages Shelf.multipleServices Shelf.translation Shelf.free Shelf.registered 0x5000 2
        (twoMapped []) ∧
      ReleasesPages Shelf.multipleServices Shelf.translation Shelf.free Shelf.registered 0x5000 1
        (twoMapped [⟨0x2000, by decide⟩]) := by
  constructor
  · intro h
    rcases (releasesPages_iff Shelf.multipleServices_contract (fun s va _ => s.unmap_mapped va)
      (twoMapped_releasable [] le_rfl)).mp h with h | ⟨h, -⟩
    · exact absurd h (by decide)
    · exact absurd h (by decide)
  · exact (releasesPages_iff Shelf.multipleServices_contract (fun s va _ => s.unmap_mapped va)
      (@twoMapped_releasable _ 1 (by decide))).mpr
      (.inr ⟨rfl, 0x2000, rfl, ⟨0x2000, by decide⟩, List.mem_singleton_self _, rfl⟩)

/-- After a call for two pages the second one is still registered. -/
theorem releasesPages_fails :
    ¬ ∀ (frame count : UInt64) (s : Shelf),
      ReleasablePages Shelf.translation Shelf.registered ∅ frame count s →
      ReleasesPages Shelf.multipleServices Shelf.translation Shelf.free Shelf.registered frame count
        s := by
  intro h
  have hsecond : (0x6000 : UInt64) ∈ pageRange 0x5000 2 := ⟨1, by decide, rfl⟩
  exact (h 0x5000 2 (twoMapped []) (twoMapped_releasable [] le_rfl)).unregistered 0x6000 hsecond
    (registered_pageFreeMultiple Shelf.multipleServices_contract 0x5000 2 (twoMapped [])
      ⟨List.not_mem_nil, by decide⟩)

end Betelgeuse
