/-
Cutting a range out of an entry.

The functions that free end in the same block: the entry found is shortened to
what lies below the range, and what lies above it goes to `INSERT`.  The cut
leaves an entry of length zero where nothing lies on one side, but the covered
addresses are right all the same (`Layout.cut_fresh`), as long as the slot that
`INSERT` picks is not on the list.  With the slot of another entry that entry is
lost (`Layout.cut_used`), and with the slot of the entry itself the list ends in
a loop (`Layout.cut_loop`).
-/
import Betelgeuse.VirtualMapPlace

open HeapList WordBitmap RangeList

namespace Betelgeuse

namespace VirtualAddressMap

variable {s s' : VirtualAddressMap} {pre post : List Slot} {t : Slot} {frame bytes : UInt64}
  {i : Fin virtualAddressMapFreeBitmapLength} {off : Fin 64}

/-- `INSERT` as the cut calls it, on the entry that has been shortened. -/
def cutInsert (s : VirtualAddressMap) (pre : List Slot) (t : Slot) (frame bytes : UInt64) :
    Option (Option VirtualAddressMap) :=
  (s.setLen t (frame - s.base t)).insertEntry (cellAfter pre) (frame + bytes)
    (s.len t - (frame - s.base t) - bytes)

/-- The cut returns 0, if it returns, with a slot at hand. -/
theorem Layout.cut_run (h : s.Layout (pre ++ t :: post)) (hslot : ¬ s.Full) {full : Option ℤ}
    {out : Option UInt64} {o : Outcome}
    (ho : Plan.run s ⟨out, .cut (cellAfter pre) frame bytes full⟩ = some o) :
    ∃ s', s.cutInsert pre t frame bytes = some (some s') ∧ o = ⟨some 0, out, s'⟩ := by
  obtain ⟨r, hr, rfl⟩ := Option.map_eq_some_iff.mp ho
  rw [h.cut_eq] at hr
  obtain ⟨r', hins, rfl⟩ := Option.map_eq_some_iff.mp hr
  -- shortening the entry does not touch the bitmap
  have hslot' : ¬ (s.setLen t (frame - s.base t)).Full := hslot
  obtain ⟨s', rfl⟩ := insertEntry_isSome hslot' hins
  exact ⟨s', hins, rfl⟩

/-- And it returns 0 if `INSERT` returns. -/
theorem Layout.run_cut (h : s.Layout (pre ++ t :: post)) (full : Option ℤ) (out : Option UInt64)
    (hins : s.cutInsert pre t frame bytes = some (some s')) :
    Plan.run s ⟨out, .cut (cellAfter pre) frame bytes full⟩ = some ⟨some 0, out, s'⟩ := by
  rw [cutInsert] at hins
  rw [Plan.run, h.cut_eq, hins]
  rfl

/-- Without a free slot the entry has been shortened when the call fails. -/
theorem Layout.run_cut_full (h : s.Layout (pre ++ t :: post)) (hfull : s.Full) (full : Option ℤ)
    (out : Option UInt64) :
    Plan.run s ⟨out, .cut (cellAfter pre) frame bytes full⟩ =
      some ⟨full, out, s.setLen t (frame - s.base t)⟩ := by
  have hnone : (s.setLen t (frame - s.base t)).findFreeSlot = none := hfull
  rw [Plan.run, h.cut_eq, VirtualAddressMap.insertEntry, hnone]
  rfl

/-- The numbers that the block computes: the new length of the entry, and the
base and the length of what lies above the range. -/
theorem Layout.cut_numbers (h : s.Layout (pre ++ t :: post)) (hlo : s.lo t ≤ frame.toNat)
    (hin : frame.toNat + bytes.toNat ≤ s.hi t) :
    (frame - s.base t).toNat = frame.toNat - s.lo t ∧
      (frame + bytes).toNat = frame.toNat + bytes.toNat ∧
      (s.len t - (frame - s.base t) - bytes).toNat = s.hi t - (frame.toNat + bytes.toNat) := by
  have hfit := h.entry_self.fits
  have hv : (frame - s.base t).toNat = frame.toNat - s.lo t :=
    toNat_sub_of_le (by rw [lo] at hlo; omega)
  have hrest : (s.len t - (frame - s.base t)).toNat = s.hi t - frame.toNat := by
    rw [toNat_sub_of_le] <;> simp only [hv, hi, lo] at *
    · omega
    · omega
  refine ⟨hv, toNat_add_of_lt (by omega), ?_⟩
  rw [toNat_sub_of_le, hrest]
  · omega
  · rw [hrest]
    omega

theorem Layout.holds_setLen (h : s.Layout (pre ++ t :: post)) (v : UInt64) :
    (s.setLen t v).links.Holds (pre ++ t :: post) := by
  rw [links_setLen]
  exact h.holds

/-- The entry that the range is cut out of, without the range. -/
theorem Layout.addresses_sdiff (h : s.Layout (pre ++ t :: post)) {a b : ℕ} (hlo : s.lo t ≤ a)
    (hab : a ≤ b) (hin : b ≤ s.hi t) :
    s.addresses \ Set.Ico a b =
      covered s.lo s.hi pre ∪
        (Set.Ico (s.lo t) a ∪ (Set.Ico b (s.hi t) ∪ covered s.lo s.hi post)) := by
  have hsplit : Set.Ico (s.lo t) (s.hi t) \ Set.Ico a b =
      Set.Ico (s.lo t) a ∪ Set.Ico b (s.hi t) := by
    ext c
    simp only [Set.mem_sdiff, Set.mem_Ico, Set.mem_union]
    omega
  rw [h.addresses_cut hlo hin, hsplit, Set.union_assoc]

/-- In a fresh slot the rest is a new entry, and exactly the range is gone. -/
theorem Layout.cut_fresh (h : s.Layout (pre ++ t :: post)) (hio : s.findFreeSlot = some (i, off))
    (hnew : newIndex i off ∉ pre ++ t :: post) (hlo : s.lo t ≤ frame.toNat)
    (hin : frame.toNat + bytes.toNat ≤ s.hi t) :
    ∃ s', s.cutInsert pre t frame bytes = some (some s') ∧
      s'.links.Holds (pre ++ t :: newIndex i off :: post) ∧
      s'.addresses = s.addresses \ Set.Ico frame.toNat (frame.toNat + bytes.toNat) ∧
      (s'.len t).toNat = frame.toNat - s.lo t ∧
      (s'.len (newIndex i off)).toNat = s.hi t - (frame.toNat + bytes.toNat) ∧
      ∀ j, s'.links.OnList j → s'.hi j < 2 ^ 64 := by
  obtain ⟨hv, hb, hrest⟩ := h.cut_numbers hlo hin
  obtain ⟨s', hs', hlinks, -, hbase, hlen⟩ := insertEntry_spec (h.holds_setLen (frame - s.base t))
    (frame + bytes) (s.len t - (frame - s.base t) - bytes) (show _ = some (i, off) from hio) hnew
  set k := newIndex i off
  -- the two parts: `t` keeps what lies below, and the new entry `k` gets what lies above
  have htk : t ≠ k := fun heq => hnew (heq ▸ by simp)
  have hlent : (s'.len t).toNat = frame.toNat - s.lo t := by
    rw [hlen, if_neg htk, len_setLen, if_pos rfl, hv]
  have hlenk : (s'.len k).toNat = s.hi t - (frame.toNat + bytes.toNat) := by
    rw [hlen, if_pos rfl, hrest]
  have hlot : s'.lo t = s.lo t := by
    rw [lo, hbase, if_neg htk, base_setLen, lo]
  have hhit : s'.hi t = frame.toNat := by
    rw [hi, hlent, ← lo, hlot]
    omega
  have hlok : s'.lo k = frame.toNat + bytes.toNat := by
    rw [lo, hbase, if_pos rfl, hb]
  have hhik : s'.hi k = s.hi t := by
    rw [hi, hlenk, ← lo, hlok]
    omega
  -- all other entries are as before
  have hsame : ∀ j, j ∈ pre ∨ j ∈ post → s'.lo j = s.lo j ∧ s'.hi j = s.hi j := by
    intro j hj
    have hjk : j ≠ k := by
      rintro rfl
      rcases hj with hj | hj
      · exact hnew (by simp [hj])
      · exact hnew (by simp [hj])
    refine lo_hi_congr ⟨?_, ?_⟩
    · rw [hbase, if_neg hjk, base_setLen]
    · rw [hlen, if_neg hjk, len_setLen, if_neg (h.not_mem hj)]
  have hfit : ∀ j, s'.links.OnList j → s'.hi j < 2 ^ 64 := by
    intro j hj
    have hend := h.entry_self.fits
    have hmem := hlinks.onList_iff.mp hj
    by_cases hjt : j = t
    · rw [hjt, hhit]
      omega
    by_cases hjk : j = k
    · rwa [hjk, hhik]
    · have hj : j ∈ pre ∨ j ∈ post := by simpa [hjt, hjk] using hmem
      rw [(hsame j hj).2]
      exact (h.entry j (List.mem_append.mpr (hj.imp id (List.mem_cons_of_mem _)))).fits
  refine ⟨s', hs', hlinks, ?_, hlent, hlenk, hfit⟩
  -- what is covered is what was, less the bytes that are cut out
  have hcovered : s'.addresses = covered s'.lo s'.hi (pre ++ t :: k :: post) := by
    ext a
    rw [mem_covered]
    exact exists_congr fun j => and_congr_left fun _ => hlinks.onList_iff
  rw [hcovered, covered_append, covered_cons, covered_cons,
    covered_congr fun j hj => hsame j (.inl hj), covered_congr fun j hj => hsame j (.inr hj),
    hlot, hhit, hlok, hhik, h.addresses_sdiff hlo (Nat.le_add_right _ _) hin]

/-- With the slot of another entry, that entry is lost. -/
theorem Layout.cut_used (h : s.Layout (pre ++ t :: post)) (hio : s.findFreeSlot = some (i, off))
    (hused : s.links.OnList (newIndex i off)) (hother : newIndex i off ≠ t)
    (hlo : s.lo t ≤ frame.toNat) (hin : frame.toNat + bytes.toNat ≤ s.hi t)
    (hins : s.cutInsert pre t frame bytes = some (some s')) :
    ∃ a ∈ s.addresses \ Set.Ico frame.toNat (frame.toNat + bytes.toNat), a ∉ s'.addresses := by
  obtain ⟨hv, hb, hrest⟩ := h.cut_numbers hlo hin
  have hkpos := (h.entry _ (h.holds.onList_iff.mp hused)).lo_lt_hi
  -- the start of that entry lies outside the range and what follows it
  have hout : s.lo (newIndex i off) < frame.toNat ∨ s.hi t ≤ s.lo (newIndex i off) := by
    by_contra hcon
    rw [not_or, not_lt, not_le] at hcon
    exact hother (h.eq_of_mem hused h.onList_self ⟨le_rfl, hkpos⟩ ⟨hlo.trans hcon.1, hcon.2⟩)
  have hmem : s.lo (newIndex i off) ∈
      s.addresses \ Set.Ico frame.toNat (frame.toNat + bytes.toNat) := by
    refine ⟨⟨_, hused, le_rfl, hkpos⟩, ?_⟩
    rintro ⟨hge, hlt'⟩
    omega
  have hused' : (s.setLen t (frame - s.base t)).links.OnList (newIndex i off) := by
    rwa [links_setLen]
  refine ⟨_, hmem, insertEntry_loses (h.holds_setLen _) hio hused' hins (by omega)
    fun j hj hjk hjlo => ?_⟩
  rw [links_setLen] at hj
  rw [lo_setLen] at hjlo
  have hothers : s.hi j ≤ s.lo (newIndex i off) := by
    by_contra hjhi
    exact hjk (h.eq_of_mem hj hused ⟨hjlo, not_le.mp hjhi⟩ ⟨le_rfl, hkpos⟩)
  -- shortening `t` only lowers its end
  by_cases hjt : j = t
  · subst hjt
    rw [hi, base_setLen, len_setLen, if_pos rfl, hv]
    rw [lo] at hlo ⊢
    omega
  · rwa [hi, base_setLen, len_setLen, if_neg hjt, ← hi]

/-- With the slot of the entry itself, the list ends in a loop at this entry. -/
theorem Layout.cut_loop (h : s.Layout (pre ++ t :: post)) (hio : s.findFreeSlot = some (i, off))
    (hself : newIndex i off = t) :
    ∃ s', s.cutInsert pre t frame bytes = some (some s') ∧ s'.next t = some t ∧
      s'.links.OnList t := by
  -- the slot that `INSERT` picks is that of the entry itself, which is linked to itself then
  have hpre : newIndex i off ∉ pre := by
    rw [hself]
    intro hpre
    exact h.not_mem (.inl hpre) rfl
  have hlink := insertEntry_link (h.holds_setLen (frame - s.base t)).read_cellAfter
    (frame + bytes) (s.len t - (frame - s.base t) - bytes) (show _ = some (i, off) from hio)
    (cellAfter_ne hpre)
  set s' := (s.setLen t (frame - s.base t)).linkEntry i off (frame + bytes)
    (s.len t - (frame - s.base t) - bytes) t t with hs'
  have hlinks : s'.links = (s.links.write (.next t) (s.next t)).write (.next t) (some t) := by
    rw [hs', links_linkEntry, hself, links_setLen, next_setLen]
  have hnext : ∀ j, s'.links.next j = if j = t then some t else s.next j := by
    intro j
    rw [hlinks]
    simp only [Heap.write, Function.update_apply]
    split
    · rfl
    · rfl
  have hnextt : s'.next t = some t := (hnext t).trans (if_pos rfl)
  have hon : ∀ j, s'.links.OnList j ↔ j ∈ pre ++ [t] := by
    intro j
    refine h.holds.onList_loop ?_ hnextt fun k hk => ?_
    · rw [hlinks]
      rfl
    · rw [hnext k, if_neg hk]
      rfl
  exact ⟨s', hlink, hnextt, (hon t).mpr (by simp)⟩

end VirtualAddressMap

end Betelgeuse
