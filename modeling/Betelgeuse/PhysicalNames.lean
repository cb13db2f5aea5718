/-
The frame `page_physical_alloc` names, with the shifts of the source.

`1 << offset` is an `int`, and the loop over the bits of a word starts at offset 63,
where it is compiled to 0.  So the first test always succeeds: in the first word below
`INT64_MAX` the call names page 63 of the word, returns 0, and changes nothing
(`pagePhysicalAlloc_intOne`).  It names the frame that it takes exactly where it finds no
such word (`namesFrame_iff`).
-/
import Betelgeuse.PhysicalBitmap

open WordBitmap

namespace Betelgeuse

namespace PageBitmap

variable {s : PageBitmap}

/-- The page with this frame was free, is allocated now, and is the only one whose
bit has changed; its address is page-aligned and below 4 GiB. -/
structure TakesFrame (s : PageBitmap) (frame : UInt64) (s' : PageBitmap) : Prop where
  aligned : frame.toNat % 4096 = 0
  below : frame.toNat < 2 ^ 32
  free : WordBitmap.get s.words (frame >>> 12).toNat = false
  taken : WordBitmap.get s'.words (frame >>> 12).toNat = true
  others : ∀ q, q ≠ (frame >>> 12).toNat → WordBitmap.get s'.words q = WordBitmap.get s.words q

/-- If the call returns 0, it has taken the frame it names. -/
def NamesFrame (s : PageBitmap) : Prop :=
  ∀ o, s.pagePhysicalAlloc intOne = some o → o.code = 0 →
    ∃ frame, o.frame = some frame ∧ s.TakesFrame frame o.bitmap

/-- The first test of the loop over the bits succeeds. -/
theorem findOffset_intOne (w : UInt64) : findOffset intOne w = some 63 := by
  have hfirst : w &&& intOne (63 : Fin 64).val = 0 := UInt64.and_zero
  cases hoff : findOffset intOne w with
  | none => exact absurd hfirst (findOffset_eq_none.mp hoff 63)
  | some offset =>
    have hle : offset ≤ 63 := Fin.le_last offset
    rcases hle.eq_or_lt with rfl | hlt
    · rfl
    · exact absurd hfirst ((findOffset_eq_some hoff).2 63 hlt)

/-- The exclusive or with 0. -/
theorem toggle_intOne (s : PageBitmap) (i : ℕ) : s.toggle intOne i 63 = s := by
  have hzero : s.words i ^^^ intOne 63 = s.words i := UInt64.xor_zero
  rw [toggle, hzero, Function.update_eq_self]

/-- The call stops at the first word below `INT64_MAX`, and leaves the bitmap alone. -/
theorem pagePhysicalAlloc_intOne (h : s.length.toNat < 2 ^ 16) :
    (∃ i < s.length.toNat, s.words i < int64Max ∧ s.pagePhysicalAlloc intOne =
        some ⟨0, some (frameOf (UInt16.ofNat i) 63), s⟩) ∨
      (∀ i < s.length.toNat, ¬ s.words i < int64Max) ∧
        s.pagePhysicalAlloc intOne = some ⟨-1, none, s⟩ := by
  have hreach : s.reach = s.length.toNat := min_eq_left h.le
  rcases @pagePhysicalAlloc_cases s intOne with
    ⟨i, offset, hi, hlt, hoff, hrun⟩ | ⟨hnone, hrun⟩
  · obtain rfl := Option.some.inj ((findOffset_intOne (s.words i)).symm.trans hoff)
    have htoggle : s.toggle intOne i (63 : Fin 64).val = s := toggle_intOne s i
    rw [htoggle] at hrun
    exact .inl ⟨i, hreach ▸ hi, hlt, hrun⟩
  · refine .inr ⟨fun i hi hlt => ?_, by rw [hrun, if_pos h]⟩
    exact hnone i (hreach ▸ hi) ⟨hlt, 63, findOffset_intOne _⟩

/-- A page is not free and allocated at once. -/
theorem not_takesFrame (s : PageBitmap) (frame : UInt64) : ¬ s.TakesFrame frame s := by
  intro h
  have hfree := h.free
  rw [h.taken] at hfree
  cases hfree

/-- `page_physical_alloc` names the frame it takes exactly where it returns -1. -/
theorem namesFrame_iff (h : s.length.toNat ≤ 16384) :
    s.NamesFrame ↔ ∀ i < s.length.toNat, ¬ s.words i < int64Max := by
  rcases pagePhysicalAlloc_intOne (s := s) (by omega) with
    ⟨i, hi, hlt, hrun⟩ | ⟨hnone, hrun⟩
  · refine iff_of_false (fun hnames => ?_) fun hfull => hfull i hi hlt
    obtain ⟨frame, -, htakes⟩ := hnames _ hrun rfl
    exact not_takesFrame s frame htakes
  · refine iff_of_true (fun o ho hcode => ?_) hnone
    rw [hrun] at ho
    obtain rfl := Option.some.inj ho
    have hne : (-1 : ℤ) ≠ 0 := by decide
    exact absurd hcode hne

/-- Memory without a free page. -/
theorem namesFrame_full_iff :
    (PageBitmap.mk (fun _ => 0xFFFFFFFFFFFFFFFF) 16384).NamesFrame ↔
      ∀ i < (16384 : UInt64).toNat, ¬ (0xFFFFFFFFFFFFFFFF : UInt64) < int64Max :=
  namesFrame_iff (by decide)

/-- Memory without an allocated page. -/
def emptyMemory : PageBitmap := ⟨fun _ => 0, 16384⟩

theorem emptyMemory_alloc :
    emptyMemory.pagePhysicalAlloc intOne = some ⟨0, some 0x3F000, emptyMemory⟩ := by
  have hrun : emptyMemory.pagePhysicalAlloc intOne =
      some ⟨0, some 0x3F000, emptyMemory.toggle intOne 0 63⟩ := rfl
  rw [hrun, toggle_intOne]

/-- The call returns 0 and names page 63, which stays free. -/
theorem not_namesFrame_emptyMemory :
    ¬ emptyMemory.NamesFrame ∧
      emptyMemory.pagePhysicalAlloc intOne = some ⟨0, some 0x3F000, emptyMemory⟩ := by
  refine ⟨fun hnames => ?_, emptyMemory_alloc⟩
  obtain ⟨frame, -, htakes⟩ := hnames _ emptyMemory_alloc rfl
  exact not_takesFrame emptyMemory frame htakes

end PageBitmap

end Betelgeuse
