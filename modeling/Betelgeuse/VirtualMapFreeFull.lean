/-
Freeing when no slot is left.

Both functions that free shorten the entry they find before `INSERT` looks for a
slot.  Without one the call fails, and what lay behind the freed pages in the
entry is lost.  `page_virtual_free_multiple` then reaches its end without a
`return`, so that any code may come back; it passes over a failure of
`page_virtual_free` as well.

A failed call leaves the map as it was exactly where it does not come to the cut,
or where the entry it would shorten ends at the address already
(`freeAtomic_iff`).
-/
import Betelgeuse.VirtualMapFreeMultiple

open HeapList WordBitmap RangeList

namespace Betelgeuse

namespace VirtualAddressMap

variable {s : VirtualAddressMap} {pre post : List Slot} {t : Slot} {frame count : UInt64}

/-- The list and its entries are those of `s`. -/
def SameEntries (s s' : VirtualAddressMap) : Prop :=
  s'.first = s.first ∧ ∀ k, s.links.OnList k → s'.map k = s.map k

/-- Where the call returns a code other than 0, or leaves its code to chance, the
list and its entries are as before. -/
def FreeAtomic (s : VirtualAddressMap) (c : Call) : Prop :=
  ∀ o, s.call c = some o → o.code ≠ some 0 → s.SameEntries o.map

/-- An entry ends at the address. -/
def EndsAt (s : VirtualAddressMap) (frame : UInt64) : Prop :=
  ∃ k, s.links.OnList k ∧ s.hi k = frame.toNat

/-- An entry that ends at the address is the one found. -/
theorem Found.endsAt_iff (h : s.Found frame pre t post) :
    s.EndsAt frame ↔ s.hi t = frame.toNat := by
  constructor
  · rintro ⟨k, hk, hend⟩
    have hkpos := (h.layout.entry k (h.layout.holds.onList_iff.mp hk)).lo_lt_hi
    have hle := h.endsBy_iff.mpr le_rfl k hk (.inr (by omega))
    rcases h.layout.onList_cases hk with ⟨-, hlt⟩ | rfl | ⟨x, hx, hkx⟩
    · rcases h.looks with hfirst | hlow
      · have := h.layout.lo_le_of_first hfirst hk
        omega
      · omega
    · exact hend
    · have := h.above x hx
      have := s.lo_le_hi x
      rcases hkx with rfl | hkx
      · omega
      · omega
  · intro hend
    exact ⟨t, h.layout.onList_self, hend⟩

theorem setLen_len (s : VirtualAddressMap) (t : Slot) : s.setLen t (s.len t) = s := by
  show { s with map := Function.update s.map t (s.map t) } = s
  rw [Function.update_eq_self]

/-- Shortening an entry to where it ends already changes nothing. -/
theorem Layout.sameEntries_setLen_iff (h : s.Layout (pre ++ t :: post)) :
    s.SameEntries (s.setLen t (frame - s.base t)) ↔ s.hi t = frame.toNat := by
  have hlen : (s.setLen t (frame - s.base t)).len t = frame - s.base t := by
    rw [len_setLen, if_pos rfl]
  rw [← h.entry_self.toNat_endOf, UInt64.toNat_inj]
  constructor
  · rintro ⟨-, hmap⟩
    have hsame : (s.setLen t (frame - s.base t)).len t = s.len t :=
      congrArg VirtualAllocEntry.length (hmap t h.onList_self)
    rw [endOf, ← hsame, hlen, add_sub_self]
  · intro hend
    have hsame : frame - s.base t = s.len t := by
      rw [← hend, endOf, UInt64.add_comm, UInt64.add_sub_cancel]
    rw [hsame, setLen_len]
    exact ⟨rfl, fun k _ => rfl⟩

/-- The end of both functions without a slot. -/
theorem Layout.run_full (h : s.Layout (pre ++ t :: post)) (hfull : s.Full) {P : Prop}
    [Decidable P] {bytes : UInt64} {full : Option ℤ} (hcode : full ≠ some 0) :
    (∀ o, Plan.run s (if P then ⟨none, .ret (-1)⟩
        else ⟨none, .cut (cellAfter pre) frame bytes full⟩) = some o →
      o.code ≠ some 0 → s.SameEntries o.map) ↔ P ∨ s.hi t = frame.toNat := by
  by_cases hP : P
  · rw [if_pos hP]
    refine iff_of_true (fun o ho _ => ?_) (.inl hP)
    obtain rfl := Option.some.inj ho
    exact ⟨rfl, fun k _ => rfl⟩
  · rw [if_neg hP, h.run_cut_full hfull, or_iff_right hP, ← h.sameEntries_setLen_iff]
    constructor
    · intro hatomic
      exact hatomic _ rfl hcode
    · intro hsame o ho _
      obtain rfl := Option.some.inj ho
      exact hsame

/-- The first half of `page_virtual_free_multiple(frame, 1)` has shortened the
entry, and the second half refuses the call. -/
theorem Found.freeMultiple_one_full (h : s.Found frame pre t post) (hfull : s.Full)
    (hal : frame.toNat % 4096 = 0) (hlt : frame.toNat < s.hi t) :
    s.pageVirtualFreeMultiple frame 1 =
      some ⟨some (-1), none, s.setLen t (frame - s.base t)⟩ := by
  set s₁ := s.setLen t (frame - s.base t) with hs₁
  have hfree : s.pageVirtualFree frame = some ⟨some (-1), none, s₁⟩ := by
    rw [h.free_cut hlt, h.layout.run_cut_full hfull]
  have hfind : s₁.findEntry frame = some (cellAfter pre) := by
    rw [← h.find, findEntry, findEntry, hs₁, links_setLen]
    simp only [base_setLen]
  have hderef : s₁.deref (cellAfter pre) = some t := by
    rw [deref, hs₁, links_setLen]
    exact h.deref_eq
  have hend : s₁.endOf t = frame := by
    rw [endOf, hs₁, base_setLen, len_setLen, if_pos rfl, add_sub_self]
  have htop : frame ≤ frame + (1 : UInt64) <<< 12 := by
    have hle := h.layout.page_le hal hlt
    have hfit := h.layout.entry_self.fits
    rw [UInt64.le_iff_toNat_le, show (1 : UInt64) <<< 12 = pageSize from rfl,
      toNat_add_of_lt (by omega)]
    omega
  rw [pageVirtualFreeMultiple, if_pos rfl, hfree]
  show (s₁.pageVirtualFreeMultiplePlan frame 1).bind (·.run s₁) = _
  rw [VirtualAddressMap.freeMultiplePlan_eq hfind hderef, hend, if_pos htop]
  rfl

/-- Without a slot, a call that frees is atomic exactly if it does not come to
the cut, or the entry ends at the address already. -/
theorem freeAtomic_iff (h : s.WellFormed) (hfull : s.Full) (hal : frame.toNat % 4096 = 0)
    (hzero : count ≠ 0) :
    (s.FreeAtomic (.free frame) ↔ s.EndsBy frame frame.toNat) ∧
      (s.FreeAtomic (.freeMultiple frame count) ↔
        (count = 1 → s.EndsBy frame frame.toNat) ∧
          (s.EndsBy frame (frame + count <<< 12).toNat ∨ s.EndsAt frame)) := by
  obtain ⟨pre, t, post, hf⟩ := h.found frame
  simp only [FreeAtomic, VirtualAddressMap.call, hf.endsBy_iff, hf.endsAt_iff]
  constructor
  · rw [hf.pageVirtualFree_eq, hf.layout.run_full hfull (by decide)]
    omega
  · by_cases hone : count = 1
    · subst hone
      by_cases hge : s.hi t ≤ frame.toNat
      · rw [hf.freeMultiple_one_eq hge, hf.layout.run_full hfull (by simp)]
        exact ⟨fun hP => ⟨fun _ => hge, hP⟩, fun hP => hP.2⟩
      · refine iff_of_false (fun hatomic => ?_) fun hcond => hge (hcond.1 rfl)
        have hcall := hf.freeMultiple_one_full hfull hal (not_le.mp hge)
        have hsame := hatomic _ hcall (by simp)
        rw [hf.layout.sameEntries_setLen_iff] at hsame
        omega
    · rw [hf.freeMultiple_eq hzero hone, hf.layout.run_full hfull (by simp)]
      exact ⟨fun hP => ⟨fun hone' => absurd hone' hone, hP⟩, fun hP => hP.2⟩

/-- The two entries, with no slot left. -/
def twoEntriesFull : VirtualAddressMap := { twoEntries with freeBitmap := fun _ => int64Max }

theorem twoEntriesFull_wellFormed : twoEntriesFull.WellFormed := by
  obtain ⟨hholds, hne, hentry, hapart⟩ := twoEntries_layout
  exact ⟨_, hholds, hne, fun t ht => (hentry t ht).congr rfl rfl, hapart⟩

theorem twoEntriesFull_full : twoEntriesFull.Full := by
  show twoEntriesFull.findFreeSlot = none
  decide

/-- The criterion for a page in the middle of the first entry. -/
theorem freeAtomic_twoEntriesFull_iff :
    (twoEntriesFull.FreeAtomic (.free 0x82000) ↔
        twoEntriesFull.EndsBy 0x82000 (0x82000 : UInt64).toNat) ∧
      (twoEntriesFull.FreeAtomic (.freeMultiple 0x82000 2) ↔
        ((2 : UInt64) = 1 → twoEntriesFull.EndsBy 0x82000 (0x82000 : UInt64).toNat) ∧
          (twoEntriesFull.EndsBy 0x82000 ((0x82000 : UInt64) + (2 : UInt64) <<< 12).toNat ∨
            twoEntriesFull.EndsAt 0x82000)) :=
  freeAtomic_iff twoEntriesFull_wellFormed twoEntriesFull_full (by decide) (by decide)

/-- The page at `0x82000` of the first entry: the call fails, and the entry ends
there. -/
theorem not_freeAtomic_twoEntriesFull :
    twoEntriesFull.WellFormed ∧ twoEntriesFull.Full ∧
      ¬ twoEntriesFull.FreeAtomic (.free 0x82000) ∧
      ∃ o, twoEntriesFull.pageVirtualFree 0x82000 = some o ∧ o.code = some (-1) ∧
        twoEntriesFull.len 0 = 0x5000 ∧ o.map.len 0 = 0x2000 := by
  refine ⟨twoEntriesFull_wellFormed, twoEntriesFull_full, fun hatomic => ?_, _, rfl, rfl, rfl, rfl⟩
  have hsame := (hatomic _ rfl (by decide)).2 0 (.first rfl)
  exact absurd (congrArg VirtualAllocEntry.length hsame) (by decide)

end VirtualAddressMap

end Betelgeuse
