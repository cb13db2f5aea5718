/-
Several pages at an address, and several pages behind the first entry.

`page_virtual_alloc_multiple_at` reads the base of the next entry without asking
whether there is one, so that it fails on every address behind the last entry;
elsewhere its test of the range is exact (`multipleAtExact_iff`).

`page_virtual_alloc_multiple` and `page_virtual_alloc_multiple_ex` never write
`*frame`.  The second one computes `top` for the first entry and compares it
with the base of the entry behind the one its loop stops at, so that a later gap
that is filled exactly is not closed (`multipleExMerges_iff`).
-/
import Betelgeuse.VirtualMapAfter

open HeapList WordBitmap RangeList

namespace Betelgeuse

namespace VirtualAddressMap

variable {s : VirtualAddressMap} {pre post : List Slot} {t : Slot}

/-! ### `page_virtual_alloc_multiple_at` -/

section MultipleAt

variable {frame allocCount : UInt64}

/-- The call returns; it returns 1 and changes nothing exactly if a page of the
range is covered, and otherwise it returns 0 and adds the range. -/
def MultipleAtExact (s : VirtualAddressMap) (frame allocCount : UInt64) : Prop :=
  ∃ o, s.pageVirtualAllocMultipleAt frame allocCount = some o ∧
    (o.code = some 1 ∧ o.map = s ↔ ¬ s.Free frame.toNat (allocCount.toNat * 4096)) ∧
    (s.Free frame.toNat (allocCount.toNat * 4096) →
      o.code = some 0 ∧ s.Adds frame.toNat (allocCount.toNat * 4096) o.map)

/-- `frame` lies below the end of some entry, and if the range is free, an entry
ends at `frame` or the range can be registered. -/
def MultipleAtServes (s : VirtualAddressMap) (frame allocCount : UInt64) : Prop :=
  (∃ k, s.links.OnList k ∧ frame.toNat < s.hi k) ∧
  (s.Free frame.toNat (allocCount.toNat * 4096) →
    (∃ k, s.links.OnList k ∧ s.hi k = frame.toNat) ∨
      s.SlotFor (frame.toNat + allocCount.toNat * 4096))

theorem Found.allocMultipleAt_eq (h : s.Found frame pre t post) (hcount : allocCount ≠ 0)
    (hfit : frame.toNat + allocCount.toNat * 4096 < 2 ^ 64) :
    s.pageVirtualAllocMultipleAt frame allocCount =
      if frame.toNat < s.hi t then some ⟨some 1, none, s⟩
      else post.head?.bind fun x =>
        if s.lo x < frame.toNat + allocCount.toNat * 4096 then some ⟨some 1, none, s⟩
        else Plan.run s (if s.hi t = frame.toNat
          then ⟨none, .growUp (cellAfter pre) (allocCount <<< 12)
            (s.base t + (s.len t + allocCount <<< 12))⟩
          else s.placePlan (cellAfter pre) t frame (allocCount <<< 12) none) := by
  have hbytes := toNat_shiftLeft_page (n := allocCount) (by omega)
  have hsum : (frame + allocCount <<< 12).toNat = frame.toNat + allocCount.toNat * 4096 := by
    rw [toNat_add_of_lt] <;> rw [hbytes]
    exact hfit
  have hcall : s.pageVirtualAllocMultipleAt frame allocCount =
      (s.pageVirtualAllocMultipleAtPlan frame allocCount).bind (·.run s) := rfl
  rw [hcall]
  simp only [pageVirtualAllocMultipleAtPlan, if_neg hcount, h.find, h.deref_eq,
    Option.bind_eq_bind, Option.bind_some, Option.pure_def, gt_iff_lt, UInt64.lt_iff_toNat_lt,
    h.toNat_endOf, placePlan, nextBase, h.next_eq]
  -- the test for the entry found, the read of the next one, and the two ways to place the range
  split
  · rfl
  · cases post.head? with
    | none => rfl
    | some x =>
      simp only [Option.map_some, Option.bind_some, hsum, ← UInt64.toNat_inj, h.toNat_endOf, lo]
      split
      · rfl
      · split
        · rfl
        · split
          · rfl
          · rfl

/-- Only the entry that the search finds can end at the address. -/
theorem Found.eq_of_hi_eq (h : s.Found frame pre t post) (hge : s.hi t ≤ frame.toNat) {k : Slot}
    (hk : s.links.OnList k) (hkf : s.hi k = frame.toNat) : k = t := by
  have hle := s.lo_le_hi
  rcases h.layout.onList_cases hk with ⟨-, hkt⟩ | rfl | ⟨y, hy, hky⟩
  · have := hle t
    omega
  · rfl
  · have habove := h.above y hy
    have hkpos := (h.layout.entry k (h.layout.holds.onList_iff.mp hk)).lo_lt_hi
    rcases hky with rfl | hky
    · omega
    · have := hle y
      omega

/-- Behind the last entry the code reads through the null pointer. -/
theorem Found.multipleAt_last (h : s.Found frame pre t post) (hcount : allocCount ≠ 0)
    (hfit : frame.toNat + allocCount.toNat * 4096 < 2 ^ 64) (hge : s.hi t ≤ frame.toNat)
    (hlast : post.head? = none) :
    ¬ s.MultipleAtExact frame allocCount ∧ ¬ s.MultipleAtServes frame allocCount := by
  constructor
  · rintro ⟨o, ho, -⟩
    rw [h.allocMultipleAt_eq hcount hfit, if_neg (not_lt.mpr hge), hlast] at ho
    cases ho
  · rintro ⟨⟨k, hk, hlt⟩, -⟩
    have hle := s.lo_le_hi t
    rcases h.layout.onList_cases hk with ⟨-, hkt⟩ | rfl | ⟨x, hx, -⟩
    · omega
    · omega
    · cases hlast.symm.trans hx

/-- In a gap that holds the range the call has to extend the entry below or to
register the range. -/
theorem Found.multipleAt_free {x : Slot} (h : s.Found frame pre t post) (hslot : ¬ s.Full)
    (hcount : allocCount ≠ 0) (hal : frame.toNat % 4096 = 0)
    (hfit : frame.toNat + allocCount.toNat * 4096 < 2 ^ 64) (hge : s.hi t ≤ frame.toNat)
    (hx : post.head? = some x) (hroom : frame.toNat + allocCount.toNat * 4096 ≤ s.lo x)
    (hfree : s.Free frame.toNat (allocCount.toNat * 4096)) :
    s.MultipleAtExact frame allocCount ↔ (∃ k, s.links.OnList k ∧ s.hi k = frame.toNat) ∨
      s.SlotFor (frame.toNat + allocCount.toNat * 4096) := by
  have hpos := ne_zero_iff_pos.mp hcount
  have hbytes := toNat_shiftLeft_page (n := allocCount) (by omega)
  -- there is room in front of the next entry
  have hgap : ∀ y ∈ post.head?, frame.toNat + (allocCount <<< 12).toNat ≤ s.lo y := by
    intro y hy
    obtain rfl : x = y := Option.some.inj (hx.symm.trans hy)
    omega
  rw [MultipleAtExact, h.allocMultipleAt_eq hcount hfit, if_neg (not_lt.mpr hge), hx,
    Option.bind_some, if_neg (not_lt.mpr hroom)]
  by_cases hend : s.hi t = frame.toNat
  · obtain ⟨s', hs', hadds⟩ := h.layout.extend_exact (allocCount <<< 12) (by omega) (by omega)
      (by rwa [hend])
    rw [if_pos hend]
    rw [hend, hbytes] at hadds
    refine iff_of_true ⟨⟨some 0, none, s'⟩, ?_, ?_, fun _ => ⟨rfl, hadds⟩⟩
      (.inl ⟨t, h.layout.onList_self, hend⟩)
    · rw [Plan.run, hs']
      rfl
    · refine iff_of_false (fun hone => ?_) (not_not.mpr hfree)
      cases hone.1
  -- no entry ends there: what is left is to place the range
  · have hnoend : ¬ ∃ k, s.links.OnList k ∧ s.hi k = frame.toNat := by
      rintro ⟨k, hk, hkf⟩
      exact hend (h.eq_of_hi_eq hge hk hkf ▸ hkf)
    rw [if_neg hend, or_iff_right hnoend, ← hbytes,
      ← h.layout.place_iff none hslot hal (by omega) (by omega) (by omega) (by omega) hgap,
      hbytes]
    refine exists_congr fun o => and_congr_right fun ho => ?_
    constructor
    · rintro ⟨-, hzero⟩
      exact hzero hfree
    · rintro ⟨hcode, hadds⟩
      refine ⟨iff_of_false (fun hone => ?_) (not_not.mpr hfree), fun _ => ⟨hcode, hadds⟩⟩
      cases hone.1.symm.trans hcode

theorem multipleAtExact_iff (h : s.WellFormed) (hslot : ¬ s.Full) (hcount : allocCount ≠ 0)
    (hal : frame.toNat % 4096 = 0) (hfirst : ∀ t ∈ s.first, s.base t ≤ frame)
    (hfit : frame.toNat + allocCount.toNat * 4096 < 2 ^ 64) :
    s.MultipleAtExact frame allocCount ↔ s.MultipleAtServes frame allocCount := by
  obtain ⟨pre, t, post, hf⟩ := h.found frame
  have hlo := hf.lo_le hfirst
  have hpos := ne_zero_iff_pos.mp hcount
  by_cases hlt : frame.toNat < s.hi t
  · -- the first page is covered
    have hnot : ¬ s.Free frame.toNat (allocCount.toNat * 4096) :=
      not_free hf.layout.onList_self hlo hlt le_rfl (by omega)
    rw [MultipleAtExact, hf.allocMultipleAt_eq hcount hfit, if_pos hlt]
    exact iff_of_true ⟨_, rfl, iff_of_true ⟨rfl, rfl⟩ hnot, fun hfree => absurd hfree hnot⟩
      ⟨⟨t, hf.layout.onList_self, hlt⟩, fun hfree => absurd hfree hnot⟩
  have hge := not_lt.mp hlt
  have hroom := hf.layout.free_iff_gap (n := allocCount.toNat * 4096) hge hf.above
  cases hx : post.head? with
  | none =>
    obtain ⟨hexact, hserves⟩ := hf.multipleAt_last hcount hfit hge hx
    exact iff_of_false hexact hserves
  | some x =>
    have habove := hf.above x hx
    have hxpos := (hf.layout.entry_head hx).lo_lt_hi
    have hex : ∃ k, s.links.OnList k ∧ frame.toNat < s.hi k :=
      ⟨x, hf.layout.onList_head hx, by omega⟩
    simp only [hx, Option.mem_some_iff, forall_eq'] at hroom
    rw [MultipleAtServes, and_iff_right hex]
    by_cases hfree : s.Free frame.toNat (allocCount.toNat * 4096)
    · rw [imp_iff_right hfree]
      exact hf.multipleAt_free hslot hcount hal hfit hge hx (hroom.mp hfree) hfree
    · rw [MultipleAtExact, hf.allocMultipleAt_eq hcount hfit, if_neg hlt, hx, Option.bind_some,
        if_pos (not_le.mp fun hle => hfree (hroom.mpr hle))]
      exact iff_of_true ⟨_, rfl, iff_of_true ⟨rfl, rfl⟩ hfree, fun hroom => absurd hroom hfree⟩
        fun hroom => absurd hroom hfree

/-- The criterion for two pages behind the first entry. -/
theorem multipleAtExact_twoEntries_iff :
    twoEntries.MultipleAtExact 0x85000 2 ↔ twoEntries.MultipleAtServes 0x85000 2 :=
  multipleAtExact_iff ⟨_, twoEntries_layout⟩ twoEntries_not_full (by decide) (by decide)
    (by rintro t ⟨⟩; decide) (by decide)

/-- Behind the last entry the call does not return, although the page is free. -/
theorem not_multipleAtExact_twoEntries :
    twoEntries.WellFormed ∧ twoEntries.FreshSlot ∧ ¬ twoEntries.Full ∧
      twoEntries.pageVirtualAllocMultipleAt 0x91000 1 = none ∧
      ¬ twoEntries.MultipleAtExact 0x91000 1 := by
  refine ⟨⟨_, twoEntries_layout⟩, twoEntries_freshSlot, twoEntries_not_full, rfl, ?_⟩
  rintro ⟨o, ho, -⟩
  cases ho

end MultipleAt

/-! ### `page_virtual_alloc_multiple` and `page_virtual_alloc_multiple_ex` -/

section Multiple

variable {allocCount : UInt64}

/-- The first entry with room for the pages behind it. -/
structure FirstGap (s : VirtualAddressMap) (allocCount : UInt64) (e : Slot) : Prop where
  onList : s.links.OnList e
  room : ∀ x ∈ s.next e, s.hi e + allocCount.toNat * 4096 ≤ s.lo x
  small : ∀ k x, s.links.OnList k → s.lo k < s.lo e → s.next k = some x →
    s.lo x < s.hi k + allocCount.toNat * 4096

/-- The pages behind `e` were free, and `s'` is well-formed and covers them in
addition. -/
def Merges (s : VirtualAddressMap) (allocCount : UInt64) (e : Slot) (s' : VirtualAddressMap) :
    Prop :=
  s.Free (s.hi e) (allocCount.toNat * 4096) ∧ s.Adds (s.hi e) (allocCount.toNat * 4096) s'

/-- What `page_virtual_alloc_multiple` does to the map: it returns 1 and changes
nothing exactly if the gap behind the first entry is too small, and if it
returns 0 it has merged the pages. -/
def MultipleMerges (s : VirtualAddressMap) (allocCount : UInt64) : Prop :=
  ∃ o t, s.pageVirtualAllocMultiple allocCount = some o ∧ s.first = some t ∧
    (o.code = some 0 → s.Merges allocCount t o.map) ∧
    (o.code = some 1 ∧ o.map = s ↔ ∃ x ∈ s.next t, s.lo x < s.hi t + allocCount.toNat * 4096)

/-- The same, and `*frame` is the old end of the first entry. -/
def MultipleReports (s : VirtualAddressMap) (allocCount : UInt64) : Prop :=
  ∃ o t, s.pageVirtualAllocMultiple allocCount = some o ∧ s.first = some t ∧
    (o.code = some 0 → o.frame = some (s.endOf t) ∧ s.Merges allocCount t o.map) ∧
    (o.code = some 1 ∧ o.map = s ↔ ∃ x ∈ s.next t, s.lo x < s.hi t + allocCount.toNat * 4096)

/-- What `page_virtual_alloc_multiple_ex` does to the map: if it returns 0 it
has merged the pages behind the first entry with room for them. -/
def MultipleExMerges (s : VirtualAddressMap) (allocCount : UInt64) : Prop :=
  ∃ o e, s.pageVirtualAllocMultipleEx allocCount = some o ∧ s.FirstGap allocCount e ∧
    (o.code = some 0 → s.Merges allocCount e o.map)

/-- The same, and `*frame` is the old end of that entry. -/
def MultipleExReports (s : VirtualAddressMap) (allocCount : UInt64) : Prop :=
  ∃ o e, s.pageVirtualAllocMultipleEx allocCount = some o ∧ s.FirstGap allocCount e ∧
    (o.code = some 0 → o.frame = some (s.endOf e) ∧ s.Merges allocCount e o.map)

/-- There is only one first entry with room. -/
theorem FirstGap.unique (h : s.WellFormed) {e e' : Slot} (he : s.FirstGap allocCount e)
    (he' : s.FirstGap allocCount e') : e = e' := by
  obtain ⟨l, hl⟩ := h
  -- of two entries the earlier one has a successor, and the gap behind it is small
  have hnot : ∀ a b, s.FirstGap allocCount a → s.FirstGap allocCount b → ¬ s.lo a < s.lo b := by
    intro a b ha hb hlt
    obtain ⟨pre, post, rfl⟩ := List.append_of_mem (hl.holds.onList_iff.mp ha.onList)
    have hle := s.lo_le_hi
    rcases hl.onList_cases hb.onList with ⟨-, hba⟩ | rfl | ⟨x, hx, -⟩
    · have := hle b
      omega
    · omega
    · have hnext : s.next a = some x := hl.next_eq.trans hx
      have hroom := ha.room x hnext
      have hsmall := hb.small a x ha.onList hlt hnext
      omega
  have heq : s.lo e = s.lo e' :=
    le_antisymm (not_lt.mp (hnot e' e he' he)) (not_lt.mp (hnot e e' he he'))
  have hpos := (hl.entry e (hl.holds.onList_iff.mp he.onList)).lo_lt_hi
  have hpos' := (hl.entry e' (hl.holds.onList_iff.mp he'.onList)).lo_lt_hi
  exact hl.eq_of_mem (a := s.lo e) he.onList he'.onList ⟨le_rfl, hpos⟩ ⟨heq.ge, by omega⟩

/-- The first function, from the entry that it looks at. -/
theorem Layout.allocMultiple_eq (h : s.Layout (t :: post)) (hcount : allocCount ≠ 0)
    (hfit : s.hi t + allocCount.toNat * 4096 < 2 ^ 64) :
    ∃ s', s.pageVirtualAllocMultiple allocCount =
        some (if ∃ x ∈ s.next t, s.lo x < s.hi t + allocCount.toNat * 4096
          then ⟨some 1, none, s⟩ else ⟨some 0, none, s'⟩) ∧
      ((¬ ∃ x ∈ s.next t, s.lo x < s.hi t + allocCount.toNat * 4096) →
        s.Merges allocCount t s') := by
  have h₀ : s.Layout ([] ++ t :: post) := h
  have hbytes := toNat_shiftLeft_page (n := allocCount) (by omega)
  have htop : (s.endOf t + allocCount <<< 12).toNat = s.hi t + allocCount.toNat * 4096 := by
    rw [toNat_add_of_lt] <;> rw [h₀.entry_self.toNat_endOf, hbytes]
    exact hfit
  -- the test of the code is the one for the next entry's base
  have hblock : (s.nextBase t).any (fun b => s.endOf t + allocCount <<< 12 > b) = true ↔
      ∃ x ∈ s.next t, s.lo x < s.hi t + allocCount.toNat * 4096 := by
    rw [← htop, h₀.next_eq]
    exact h₀.nextBase_lt _
  have hcall : s.pageVirtualAllocMultiple allocCount =
      (s.pageVirtualAllocMultiplePlan allocCount).bind (·.run s) := rfl
  rw [hcall]
  simp only [pageVirtualAllocMultiplePlan, if_neg hcount, h.first_eq, Option.bind_eq_bind,
    Option.bind_some, Option.pure_def]
  by_cases hsmall : ∃ x ∈ s.next t, s.lo x < s.hi t + allocCount.toNat * 4096
  · rw [if_pos (hblock.mpr hsmall)]
    exact ⟨s, by rw [if_pos hsmall]; rfl, fun hnot => absurd hsmall hnot⟩
  -- there is room, and the first entry grows
  · have hroom : ∀ x ∈ post.head?, s.hi t + allocCount.toNat * 4096 ≤ s.lo x := by
      intro x hx
      by_contra hlt
      exact hsmall ⟨x, h₀.next_eq.trans hx, not_le.mp hlt⟩
    obtain ⟨s', hs', hadds⟩ := h₀.extend_exact (allocCount <<< 12) (by omega) (by omega)
      (by rwa [hbytes])
    rw [hbytes] at hadds
    refine ⟨s', ?_, fun _ => ⟨h₀.free_gap le_rfl hroom, hadds⟩⟩
    rw [if_neg fun hblk => hsmall (hblock.mp hblk), if_neg hsmall, Option.bind_some, Plan.run]
    have hassoc : s.endOf t + allocCount <<< 12 = s.base t + (s.len t + allocCount <<< 12) := by
      rw [endOf, UInt64.add_assoc]
    rw [hassoc, show Cell.first = cellAfter ([] : List Slot) from rfl, hs']
    rfl

theorem multipleMerges (h : s.WellFormed) (hcount : allocCount ≠ 0)
    (hnw : s.NoWrap (.allocMultiple allocCount)) : s.MultipleMerges allocCount := by
  obtain ⟨l, hl⟩ := h
  obtain ⟨t, post, rfl⟩ := List.exists_cons_of_ne_nil hl.nonempty
  have hfit : s.hi t + allocCount.toNat * 4096 < 2 ^ 64 :=
    hnw.fits (by rw [range, hl.first_eq, Option.map_some])
  obtain ⟨s', hs', hmerges⟩ := hl.allocMultiple_eq hcount hfit
  refine ⟨_, t, hs', hl.first_eq, ?_⟩
  split
  · rename_i hsmall
    exact ⟨fun hcode => (by cases hcode), iff_of_true ⟨rfl, rfl⟩ hsmall⟩
  · rename_i hroom
    exact ⟨fun _ => hmerges hroom, iff_of_false (fun hone => by cases hone.1) hroom⟩

/-- The first function never writes `*frame`. -/
theorem multipleReports_iff (h : s.WellFormed) (hcount : allocCount ≠ 0)
    (hnw : s.NoWrap (.allocMultiple allocCount)) :
    s.MultipleReports allocCount ↔
      ∃ t ∈ s.first, ∃ x ∈ s.next t, s.lo x < s.hi t + allocCount.toNat * 4096 := by
  obtain ⟨l, hl⟩ := h
  obtain ⟨t, post, rfl⟩ := List.exists_cons_of_ne_nil hl.nonempty
  have hfit : s.hi t + allocCount.toNat * 4096 < 2 ^ 64 :=
    hnw.fits (by rw [range, hl.first_eq, Option.map_some])
  obtain ⟨s', hs', -⟩ := hl.allocMultiple_eq hcount hfit
  rw [MultipleReports, hs']
  constructor
  · rintro ⟨o, t', ho, ht', hzero, -⟩
    refine ⟨t', ht', ?_⟩
    obtain rfl : t = t' := Option.some.inj (hl.first_eq.symm.trans ht')
    by_contra hroom
    rw [if_neg hroom] at ho
    obtain rfl := Option.some.inj ho
    cases (hzero rfl).1
  · rintro ⟨t', ht', hsmall⟩
    obtain rfl : t = t' := Option.some.inj (hl.first_eq.symm.trans ht')
    rw [if_pos hsmall]
    exact ⟨_, t, rfl, ht', fun hcode => (by cases hcode), iff_of_true ⟨rfl, rfl⟩ hsmall⟩

/-- The second function, from the entry at which its loop stops: the test for
the join is made with the top of the first entry. -/
theorem Layout.allocMultipleEx_eq (h : s.Layout (t :: post)) (hcount : allocCount ≠ 0)
    (hnw : ∀ k, s.links.OnList k → s.hi k + allocCount.toNat * 4096 < 2 ^ 64) :
    ∃ mid e post', t :: post = mid ++ e :: post' ∧ s.FirstGap allocCount e ∧
      s.pageVirtualAllocMultipleEx allocCount = Plan.run s ⟨none, .growUp (cellAfter mid)
        (allocCount <<< 12) (s.base t + (s.len t + allocCount <<< 12))⟩ := by
  have h₀ : s.Layout ([] ++ t :: post) := h
  have ht := hnw t h₀.onList_self
  have hbytes := toNat_shiftLeft_page (n := allocCount) (by omega)
  have htop : ∀ k, s.links.OnList k → (s.endOf k + allocCount <<< 12).toNat =
      s.hi k + allocCount.toNat * 4096 := by
    intro k hk
    have hend := (h.entry k (h.holds.onList_iff.mp hk)).toNat_endOf
    rw [toNat_add_of_lt] <;> rw [hend, hbytes]
    exact hnw k hk
  obtain ⟨mid, e, post', heq, hseek, hchain, hstop⟩ := h.seekMultiple_spec allocCount
  have he : s.Layout (mid ++ e :: post') := heq ▸ h
  refine ⟨mid, e, post', heq, ⟨he.onList_self, fun x hx => ?_, fun k x hk hlt hx => ?_⟩, ?_⟩
  · have hgap := hstop x (he.next_eq.symm.trans hx)
    rwa [UInt64.le_iff_toNat_le, htop e he.onList_self] at hgap
  · -- an entry below `e` stands before it, and its gap was refused
    have hhead : ∀ a ∈ (mid ++ [e]).head?, s.lo a ≤ s.lo k := by
      intro a ha
      obtain rfl : t = a := Option.some.inj ((head?_of_split heq).symm.trans ha)
      exact h.lo_le_of_first h.first_eq hk
    have he₀ : s.Layout ([] ++ (mid ++ e :: post')) := he
    have hsmall := he₀.rel_of_chain hchain hk hhead hlt hx
    rwa [UInt64.lt_iff_toNat_lt, htop k hk] at hsmall
  · have hcall : s.pageVirtualAllocMultipleEx allocCount =
        (s.pageVirtualAllocMultipleExPlan allocCount).bind (·.run s) := rfl
    rw [hcall]
    have hassoc : s.endOf t + allocCount <<< 12 = s.base t + (s.len t + allocCount <<< 12) := by
      rw [endOf, UInt64.add_assoc]
    simp only [pageVirtualAllocMultipleExPlan, if_neg hcount, h.first_eq, hseek,
      Option.bind_eq_bind, Option.bind_some, Option.pure_def, hassoc]

/-- An entry that grows without a join is right exactly if it does not reach the next
one. -/
theorem Layout.setLen_merges_iff {pre : List Slot} {e : Slot} (h : s.Layout (pre ++ e :: post))
    (hfit : s.hi e + allocCount.toNat * 4096 < 2 ^ 64)
    (hroom : ∀ x ∈ post.head?, s.hi e + allocCount.toNat * 4096 ≤ s.lo x) {top : UInt64}
    (htop : ∀ x ∈ post.head?, top ≠ s.base x) :
    s.Merges allocCount e (s.setLen e (s.len e + allocCount <<< 12)) ↔
      ∀ x ∈ s.next e, s.hi e + allocCount.toNat * 4096 ≠ s.lo x := by
  have hbytes := toNat_shiftLeft_page (n := allocCount) (by omega)
  constructor
  · -- an exactly filled gap leaves two entries that touch
    rintro ⟨-, hadds⟩ x hx htouch
    refine h.not_wellFormed (links_setLen ..) (h.next_eq.symm.trans hx) ?_ hadds.wellFormed
    rw [lo_setLen, ← htouch, hi, hi, base_setLen, len_setLen, if_pos rfl, toNat_add_of_lt]
    · omega
    · rw [hbytes]
      rw [hi] at hfit
      omega
  · intro hne
    have hw : (allocCount <<< 12).toNat % 4096 = 0 := by omega
    obtain ⟨s', hs', hwf, haddr⟩ := h.growUp hw (by omega) (fun x hx => lt_of_le_of_ne
      (by rw [hbytes]; exact hroom x hx) (by rw [hbytes]; exact hne x (h.next_eq.trans hx))) htop
    obtain ⟨-, rfl⟩ := Prod.mk.inj (Option.some.inj ((h.growUp_eq _ htop).symm.trans hs'))
    rw [hbytes] at haddr
    exact ⟨h.free_gap le_rfl hroom, hwf, haddr⟩

/-- At the first entry with room the second function joins only if that is the
first entry, so that elsewhere the gap must not be filled exactly. -/
theorem Layout.allocMultipleEx_run (h : s.Layout (t :: post)) (hcount : allocCount ≠ 0)
    (hnw : ∀ k, s.links.OnList k → s.hi k + allocCount.toNat * 4096 < 2 ^ 64) {e : Slot}
    (he : s.FirstGap allocCount e) :
    ∃ s', s.pageVirtualAllocMultipleEx allocCount = some ⟨some 0, none, s'⟩ ∧
      (s.Merges allocCount e s' ↔
        s.first = some e ∨ ∀ x ∈ s.next e, s.hi e + allocCount.toNat * 4096 ≠ s.lo x) := by
  have h₀ : s.Layout ([] ++ t :: post) := h
  have ht := hnw t h₀.onList_self
  have hfit := hnw e he.onList
  have hpos := ne_zero_iff_pos.mp hcount
  have hbytes := toNat_shiftLeft_page (n := allocCount) (by omega)
  obtain ⟨mid, e', post', heq, he', hcall⟩ := h.allocMultipleEx_eq hcount hnw
  obtain rfl : e = e' := he.unique ⟨_, h⟩ he'
  have hlay : s.Layout (mid ++ e :: post') := heq ▸ h
  have hroom : ∀ x ∈ post'.head?, s.hi e + allocCount.toNat * 4096 ≤ s.lo x :=
    fun x hx => he.room x (hlay.next_eq.trans hx)
  rw [hcall]
  cases mid with
  | nil =>
    -- the loop stopped at the first entry, whose top it is
    obtain rfl : t = e := (List.cons.inj heq).1
    obtain ⟨s', hs', hadds⟩ := hlay.extend_exact (allocCount <<< 12) (by omega) (by omega)
      (by rwa [hbytes])
    rw [hbytes] at hadds
    refine ⟨s', ?_, iff_of_true ⟨hlay.free_gap le_rfl hroom, hadds⟩ (.inl h.first_eq)⟩
    rw [Plan.run, hs']
    rfl
  | cons y mid =>
    obtain rfl : t = y := (List.cons.inj heq).1
    have hlt := hlay.lt_of_mem_pre (k := t) (by simp)
    have hle := s.lo_le_hi e
    have hfirst : s.first ≠ some e := by
      intro hfe
      have hte : t = e := Option.some.inj (h.first_eq.symm.trans hfe)
      have := s.lo_le_hi t
      rw [hte] at hlt
      omega
    -- the top of the first entry lies below the next entry, so nothing is joined
    have htop : ∀ x ∈ post'.head?, s.base t + (s.len t + allocCount <<< 12) ≠ s.base x := by
      intro x hx htx
      have hsum := congrArg UInt64.toNat htx
      rw [h₀.toNat_top (by rwa [hbytes]), hbytes] at hsum
      have := hroom x hx
      rw [lo] at this
      omega
    refine ⟨s.setLen e (s.len e + allocCount <<< 12), ?_, ?_⟩
    · rw [Plan.run, hlay.growUp_eq _ htop]
      rfl
    rw [or_iff_right hfirst]
    exact hlay.setLen_merges_iff hfit hroom htop

/-- What the second function does to the map is right exactly if the first entry
with room is the first one, or the gap behind it is not filled exactly. -/
theorem multipleExMerges_iff (h : s.WellFormed) (hcount : allocCount ≠ 0)
    (hnw : ∀ k, s.links.OnList k → s.hi k + allocCount.toNat * 4096 < 2 ^ 64) :
    s.MultipleExMerges allocCount ↔ ∀ e, s.FirstGap allocCount e →
      s.first = some e ∨ ∀ x ∈ s.next e, s.hi e + allocCount.toNat * 4096 ≠ s.lo x := by
  have hwf := h
  obtain ⟨l, hl⟩ := h
  obtain ⟨t, post, rfl⟩ := List.exists_cons_of_ne_nil hl.nonempty
  obtain ⟨-, e, -, -, he, -⟩ := hl.allocMultipleEx_eq hcount hnw
  obtain ⟨s', hs', hmerges⟩ := hl.allocMultipleEx_run hcount hnw he
  constructor
  · rintro ⟨o, e', ho, he', hzero⟩ e'' he''
    obtain rfl := he.unique hwf he'
    obtain rfl := he.unique hwf he''
    obtain rfl := Option.some.inj (hs'.symm.trans ho)
    exact hmerges.mp (hzero rfl)
  · intro hcond
    exact ⟨_, e, hs', he, fun _ => hmerges.mpr (hcond e he)⟩

/-- The second function returns 0 without writing `*frame`. -/
theorem not_multipleExReports (h : s.WellFormed) (hcount : allocCount ≠ 0)
    (hnw : ∀ k, s.links.OnList k → s.hi k + allocCount.toNat * 4096 < 2 ^ 64) :
    ¬ s.MultipleExReports allocCount := by
  obtain ⟨l, hl⟩ := h
  obtain ⟨t, post, rfl⟩ := List.exists_cons_of_ne_nil hl.nonempty
  obtain ⟨-, e, -, -, he, -⟩ := hl.allocMultipleEx_eq hcount hnw
  obtain ⟨s', hs', -⟩ := hl.allocMultipleEx_run hcount hnw he
  rintro ⟨o, e', ho, -, hzero⟩
  obtain rfl := Option.some.inj (hs'.symm.trans ho)
  cases (hzero rfl).1

/-- Neither function ever reports an address, so the first one keeps its promise
only where it returns 1 and the second one never.  Apart from `*frame` the first
one is right, and the second one where its test for the join is. -/
theorem multiple_reports_and_merges (h : s.WellFormed) (hcount : allocCount ≠ 0)
    (hnw : ∀ k, s.links.OnList k → s.hi k + allocCount.toNat * 4096 < 2 ^ 64) :
    (s.MultipleReports allocCount ↔
      ∃ t ∈ s.first, ∃ x ∈ s.next t, s.lo x < s.hi t + allocCount.toNat * 4096) ∧
    ¬ s.MultipleExReports allocCount ∧ s.MultipleMerges allocCount ∧
    (s.MultipleExMerges allocCount ↔ ∀ e, s.FirstGap allocCount e →
      s.first = some e ∨ ∀ x ∈ s.next e, s.hi e + allocCount.toNat * 4096 ≠ s.lo x) := by
  have hfirst : s.NoWrap (.allocMultiple allocCount) := by
    intro r hr
    obtain ⟨t, ht, rfl⟩ := Option.map_eq_some_iff.mp hr
    exact hnw t (.first ht)
  exact ⟨multipleReports_iff h hcount hfirst, not_multipleExReports h hcount hnw,
    multipleMerges h hcount hfirst, multipleExMerges_iff h hcount hnw⟩

/-- The criteria for one page behind the first entry. -/
theorem multiple_reports_and_merges_twoEntries :
    (twoEntries.MultipleReports 1 ↔ ∃ t ∈ twoEntries.first, ∃ x ∈ twoEntries.next t,
      twoEntries.lo x < twoEntries.hi t + (1 : UInt64).toNat * 4096) ∧
    ¬ twoEntries.MultipleExReports 1 ∧ twoEntries.MultipleMerges 1 ∧
    (twoEntries.MultipleExMerges 1 ↔ ∀ e, twoEntries.FirstGap 1 e → twoEntries.first = some e ∨
      ∀ x ∈ twoEntries.next e, twoEntries.hi e + (1 : UInt64).toNat * 4096 ≠ twoEntries.lo x) :=
  multiple_reports_and_merges ⟨_, twoEntries_layout⟩ (by decide) fun k hk =>
    lt_of_le_of_lt (Nat.add_le_add_right (twoEntries_hi_le k hk) _) (by decide)

/-- One page behind the first entry: both functions return 0 and write nothing to
`*frame`. -/
theorem not_multipleReports_twoEntries :
    twoEntries.WellFormed ∧ ¬ twoEntries.MultipleReports 1 ∧ ¬ twoEntries.MultipleExReports 1 ∧
      (∃ o, twoEntries.pageVirtualAllocMultiple 1 = some o ∧ o.code = some 0 ∧ o.frame = none) ∧
      ∃ o, twoEntries.pageVirtualAllocMultipleEx 1 = some o ∧ o.code = some 0 ∧
        o.frame = none := by
  refine ⟨⟨_, twoEntries_layout⟩, ?_, ?_, ⟨_, rfl, rfl, rfl⟩, _, rfl, rfl, rfl⟩
  · rintro ⟨o, t, ho, -, hzero, -⟩
    obtain rfl := Option.some.inj ho
    cases (hzero rfl).1
  · rintro ⟨o, e, ho, -, hzero⟩
    obtain rfl := Option.some.inj ho
    cases (hzero rfl).1

end Multiple

end VirtualAddressMap

end Betelgeuse
