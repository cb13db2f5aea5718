/-
What the page allocator of the kernel is built on, by its documentation
(`kernel/memory.h`).

`page_alloc`, `page_free` and `page_allocator_init` see the page tables, the
physical allocator and the virtual map through six functions.  `FrameServices`
and `PageServices` are these functions on a state of their own, and `Contract` is
what their comments promise, in terms of three views of the state: the
translation of addresses, the set of free frames and the set of registered
virtual pages.

`Shelf` is a kernel that keeps these promises.
-/
import Betelgeuse.PageTables
import Mathlib.Order.BooleanAlgebra.Set

namespace Betelgeuse

variable {σ : Type*}

/-- The functions for frames and page tables.  A function that writes through a
pointer gives back the value that it writes. -/
structure FrameServices (σ : Type*) where
  pagePhysicalAlloc : σ → ℤ × UInt64 × σ
  pagePhysicalFree : UInt64 → σ → σ
  pageMap : UInt64 → UInt64 → σ → ℤ × σ
  pageUnmap : UInt64 → σ → ℤ × UInt64 × σ

/-- The functions for virtual pages besides. -/
structure PageServices (σ : Type*) extends FrameServices σ where
  pageVirtualAlloc : σ → ℤ × UInt64 × σ
  pageVirtualFree : UInt64 → σ → ℤ × σ

/-- Two addresses on one page. -/
def SamePage (va va' : UInt64) : Prop := va.toNat / 4096 = va'.toNat / 4096

instance (va va' : UInt64) : Decidable (SamePage va va') := inferInstanceAs (Decidable (_ = _))

/-- The documented contracts of the functions for frames and page tables. -/
structure FrameServices.Contract (S : FrameServices σ) (translation : σ → UInt64 → Option UInt64)
    (free : σ → Set UInt64) : Prop where
  translation_page : ∀ s va va', SamePage va va' → translation s va = translation s va'
  alloc_code : ∀ s, (S.pagePhysicalAlloc s).1 = 0 ∨ (S.pagePhysicalAlloc s).1 = -1
  alloc_zero : ∀ s frame s', S.pagePhysicalAlloc s = (0, frame, s') →
    frame ∈ free s ∧ frame &&& addrMask = frame ∧ free s' = free s \ {frame} ∧
      translation s' = translation s
  alloc_fail : ∀ s frame s', S.pagePhysicalAlloc s = (-1, frame, s') →
    free s' = free s ∧ translation s' = translation s
  free_frame : ∀ frame s, frame &&& addrMask = frame →
    free (S.pagePhysicalFree frame s) = insert frame (free s)
  free_translation : ∀ frame s, translation (S.pagePhysicalFree frame s) = translation s
  map_code : ∀ va pa s,
    (S.pageMap va pa s).1 = 0 ∨ (S.pageMap va pa s).1 = 1 ∨ (S.pageMap va pa s).1 = -1
  map_zero : ∀ va pa s s', S.pageMap va pa s = (0, s') →
    translation s va = none ∧ translation s' va = some (pa &&& addrMask) ∧
      (∀ va', ¬ SamePage va va' → translation s' va' = translation s va') ∧ free s' ⊆ free s
  map_one : ∀ va pa s s', S.pageMap va pa s = (1, s') →
    translation s va ≠ none ∧ translation s' = translation s ∧ free s' = free s
  map_fail : ∀ va pa s s', S.pageMap va pa s = (-1, s') →
    translation s' = translation s ∧ free s' ⊆ free s
  unmap_zero : ∀ va s pa s', S.pageUnmap va s = (0, pa, s') →
    translation s va = some pa ∧ translation s' va = none ∧
      ∀ va', ¬ SamePage va va' → translation s' va' = translation s va'
  unmap_free : ∀ va s, free (S.pageUnmap va s).2.2 = free s

/-- The code of `page_map` for a page that is mapped already. -/
def FrameServices.ReportsMapped (S : FrameServices σ) (translation : σ → UInt64 → Option UInt64) :
    Prop :=
  ∀ va pa s, translation s va ≠ none → (S.pageMap va pa s).1 = 1

/-- The documented contracts of all six functions. -/
structure PageServices.Contract (S : PageServices σ) (translation : σ → UInt64 → Option UInt64)
    (free registered : σ → Set UInt64) : Prop
    extends FrameServices.Contract S.toFrameServices translation free where
  alloc_registered : ∀ s, registered (S.pagePhysicalAlloc s).2.2 = registered s
  free_registered : ∀ frame s, registered (S.pagePhysicalFree frame s) = registered s
  map_registered : ∀ va pa s, registered (S.pageMap va pa s).2 = registered s
  unmap_registered : ∀ va s, registered (S.pageUnmap va s).2.2 = registered s
  virtualAlloc_code : ∀ s, (S.pageVirtualAlloc s).1 = 0 ∨ (S.pageVirtualAlloc s).1 = -1
  virtualAlloc_zero : ∀ s frame s', S.pageVirtualAlloc s = (0, frame, s') →
    frame ∉ registered s ∧ registered s' = insert frame (registered s)
  virtualAlloc_fail : ∀ s frame s', S.pageVirtualAlloc s = (-1, frame, s') →
    registered s' = registered s
  virtualAlloc_keeps : ∀ s, translation (S.pageVirtualAlloc s).2.2 = translation s ∧
    free (S.pageVirtualAlloc s).2.2 = free s
  virtualFree : ∀ frame s, registered (S.pageVirtualFree frame s).2 = registered s \ {frame} ∧
    translation (S.pageVirtualFree frame s).2 = translation s ∧
    free (S.pageVirtualFree frame s).2 = free s

/-! ### An instance -/

/-- A kernel that keeps lists of what is free, and one entry for each page. -/
structure Shelf where
  frames : List Frame
  pages : List UInt64
  mapping : ℕ → Option UInt64

namespace Shelf

def translation (s : Shelf) (va : UInt64) : Option UInt64 := s.mapping (va.toNat / 4096)

def free (s : Shelf) : Set UInt64 := {frame | ∃ f ∈ s.frames, f.addr = frame}

def registered (s : Shelf) : Set UInt64 := {va | va ∉ s.pages}

/-- The functions on these lists. -/
def services : PageServices Shelf where
  pagePhysicalAlloc s :=
    match s.frames with
    | [] => (-1, 0, s)
    | f :: l => (0, f.addr, { s with frames := l.filter (· ≠ f) })
  pagePhysicalFree frame s := { s with frames := entryFrame frame :: s.frames }
  pageMap va pa s :=
    if s.translation va = none then
      (0, { s with
        mapping := Function.update s.mapping (va.toNat / 4096) (some (pa &&& addrMask)) })
    else (1, s)
  pageUnmap va s :=
    match s.translation va with
    | none => (1, 0, s)
    | some pa => (0, pa, { s with mapping := Function.update s.mapping (va.toNat / 4096) none })
  pageVirtualAlloc s :=
    match s.pages with
    | [] => (-1, 0, s)
    | va :: l => (0, va, { s with pages := l.filter (· ≠ va) })
  pageVirtualFree frame s :=
    if frame ∈ s.pages then (-1, s) else (0, { s with pages := frame :: s.pages })

theorem mem_free {s : Shelf} {frame : UInt64} :
    frame ∈ s.free ↔ ∃ f ∈ s.frames, f.addr = frame := Iff.rfl

theorem mem_registered {s : Shelf} {va : UInt64} : va ∈ s.registered ↔ va ∉ s.pages := Iff.rfl

theorem addr_inj {f g : Frame} : f.addr = g.addr ↔ f = g := by
  cases f
  cases g
  simp

/-- Writing the entry of one page. -/
theorem translation_update {s : Shelf} {va va' : UInt64} {entry : Option UInt64} :
    translation { s with mapping := Function.update s.mapping (va.toNat / 4096) entry } va' =
      if SamePage va va' then entry else s.translation va' := by
  show Function.update s.mapping (va.toNat / 4096) entry (va'.toNat / 4096) = _
  rw [Function.update_apply]
  exact if_congr eq_comm rfl rfl

/-- The frames that are free when one has been taken. -/
theorem free_take {s : Shelf} {f : Frame} {l : List Frame} (hs : s.frames = f :: l) :
    free { s with frames := l.filter (· ≠ f) } = free s \ {f.addr} := by
  refine Set.ext fun x => ?_
  simp only [Set.mem_sdiff, Set.mem_singleton_iff, mem_free, hs, List.mem_filter,
    List.mem_cons, decide_eq_true_eq]
  constructor
  · rintro ⟨g, ⟨hg, hne⟩, rfl⟩
    exact ⟨⟨g, .inr hg, rfl⟩, fun heq => hne (addr_inj.mp heq)⟩
  · rintro ⟨⟨g, rfl | hg, rfl⟩, hne⟩
    · exact absurd rfl hne
    · exact ⟨g, ⟨hg, fun heq => hne (addr_inj.mpr heq)⟩, rfl⟩

/-- The frames that are free when one has been given back. -/
theorem free_put {s : Shelf} {frame : UInt64} (hframe : frame &&& addrMask = frame) :
    free { s with frames := entryFrame frame :: s.frames } = insert frame (free s) := by
  refine Set.ext fun x => ?_
  simp only [mem_free, Set.mem_insert_iff, List.mem_cons]
  constructor
  · rintro ⟨f, rfl | hf, rfl⟩
    · exact .inl hframe
    · exact .inr ⟨f, hf, rfl⟩
  · rintro (rfl | ⟨f, hf, rfl⟩)
    · exact ⟨entryFrame x, .inl rfl, hframe⟩
    · exact ⟨f, .inr hf, rfl⟩

theorem frameServices_contract :
    FrameServices.Contract services.toFrameServices translation free where
  translation_page s va va' h := by rw [translation, translation, h]
  alloc_code s := by
    show (services.pagePhysicalAlloc s).1 = 0 ∨ _
    unfold services
    cases hs : s.frames with
    | nil => simp [hs]
    | cons f l => simp [hs]
  alloc_zero s frame s' h := by
    simp only [services] at h
    split at h
    · simp at h
    · rename_i f l hs
      obtain ⟨-, rfl, rfl⟩ : (0 : ℤ) = 0 ∧ f.addr = frame ∧ _ := by simpa using h
      exact ⟨⟨f, by simp [hs], rfl⟩, f.masked, by simpa using free_take hs, rfl⟩
  alloc_fail s frame s' h := by
    simp only [services] at h
    split at h
    · obtain rfl : s = s' := by simpa using congrArg (·.2.2) h
      exact ⟨rfl, rfl⟩
    · simp at h
  free_frame frame s hframe := free_put hframe
  free_translation frame s := rfl
  map_code va pa s := by
    simp only [services]
    split
    · exact .inl rfl
    · exact .inr (.inl rfl)
  map_zero va pa s s' h := by
    simp only [services] at h
    split at h
    · rename_i hnone
      obtain rfl := (Prod.mk.inj h).2
      refine ⟨hnone, ?_, fun va' hva' => ?_, subset_rfl⟩
      · exact translation_update.trans (if_pos rfl)
      · rw [translation_update, if_neg hva']
    · simp at h
  map_one va pa s s' h := by
    simp only [services] at h
    split at h
    · simp at h
    · rename_i hsome
      obtain rfl := (Prod.mk.inj h).2
      exact ⟨hsome, rfl, rfl⟩
  map_fail va pa s s' h := by
    simp only [services] at h
    split at h
    · simp at h
    · simp at h
  unmap_zero va s pa s' h := by
    simp only [services] at h
    split at h
    · simp at h
    · rename_i pa' hpa
      obtain ⟨-, rfl, rfl⟩ : (0 : ℤ) = 0 ∧ pa' = pa ∧ _ := by simpa using h
      refine ⟨hpa, ?_, fun va' hva' => ?_⟩
      · exact translation_update.trans (if_pos rfl)
      · rw [translation_update, if_neg hva']
  unmap_free va s := by
    simp only [services]
    split
    · rfl
    · rfl

theorem services_reportsMapped : services.ReportsMapped translation := by
  intro va pa s hmapped
  simp only [services, if_neg hmapped]

theorem services_contract : services.Contract translation free registered where
  toContract := frameServices_contract
  alloc_registered s := by
    simp only [services]
    split
    · rfl
    · rfl
  free_registered frame s := rfl
  map_registered va pa s := by
    simp only [services]
    split
    · rfl
    · rfl
  unmap_registered va s := by
    simp only [services]
    split
    · rfl
    · rfl
  virtualAlloc_code s := by
    simp only [services]
    split
    · exact .inr rfl
    · exact .inl rfl
  virtualAlloc_zero s frame s' h := by
    simp only [services] at h
    -- the first page on the list is handed out, and is not on it any more
    split at h
    · simp at h
    · rename_i va l hs
      obtain ⟨-, rfl, rfl⟩ : (0 : ℤ) = 0 ∧ va = frame ∧ _ := by simpa using h
      refine ⟨fun hva => hva (by simp [hs]), Set.ext fun x => ?_⟩
      simp only [mem_registered, Set.mem_insert_iff, hs, List.mem_filter, List.mem_cons,
        Bool.not_eq_true', decide_eq_false_iff_not]
      tauto
  virtualAlloc_fail s frame s' h := by
    simp only [services] at h
    split at h
    · obtain rfl : s = s' := by simpa using congrArg (·.2.2) h
      rfl
    · simp at h
  virtualAlloc_keeps s := by
    simp only [services]
    split
    · exact ⟨rfl, rfl⟩
    · exact ⟨rfl, rfl⟩
  virtualFree frame s := by
    simp only [services]
    split
    · rename_i hmem
      have hnot : frame ∉ s.registered := fun hreg => mem_registered.mp hreg hmem
      exact ⟨(Set.sdiff_singleton_eq_self hnot).symm, rfl, rfl⟩
    · refine ⟨Set.ext fun x => ?_, rfl, rfl⟩
      simp only [mem_registered, Set.mem_sdiff, Set.mem_singleton_iff, List.mem_cons]
      tauto

end Shelf

end Betelgeuse
