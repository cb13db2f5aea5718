/-
Taking a page out of the map again.

`page_virtual_free` shortens the entry it finds to what lies below the page and
inserts a new entry for what lies above.  That is right when something lies on
both sides.  The first and the last page of an entry leave an entry of length
zero behind, since the test for an entry of a single page compares the length in
bytes with 1.  The base of an entry other than the first is searched in the
entry before, and an address below the first entry in the first one
(`freesExactly_iff`).
-/
import Betelgeuse.VirtualMapAfter
import Betelgeuse.VirtualMapCut

open HeapList WordBitmap RangeList

namespace Betelgeuse

namespace VirtualAddressMap

variable {s : VirtualAddressMap} {pre post : List Slot} {t : Slot} {frame : UInt64}

/-- If the page is covered the call returns 0, the covered addresses lose
exactly this page, and the list holds no entry of length zero; if it is not, the
call returns -1 and changes nothing. -/
def FreesExactly (s : VirtualAddressMap) (frame : UInt64) : Prop :=
  ∃ o, s.pageVirtualFree frame = some o ∧
    (page frame ⊆ s.addresses → o.code = some 0 ∧ o.map.addresses = s.addresses \ page frame ∧
      ∃ l, o.map.links.Holds l ∧ ∀ k ∈ l, o.map.len k ≠ 0) ∧
    (¬ page frame ⊆ s.addresses → o.code = some (-1) ∧ o.map = s)

/-- The page lies inside an entry with something on both sides, and the slot
`INSERT` picks is not on the list; or it is not covered, and the first entry does
not start above it. -/
def FreeServes (s : VirtualAddressMap) (frame : UInt64) : Prop :=
  (∃ t, s.links.OnList t ∧ s.lo t < frame.toNat ∧ frame.toNat + 4096 < s.hi t ∧ s.FreshSlot) ∨
  (¬ page frame ⊆ s.addresses ∧ ∀ t ∈ s.first, s.lo t ≤ frame.toNat)

/-- A page is covered exactly if its first address lies in an entry. -/
theorem Layout.page_subset_iff_exists {l : List Slot} (h : s.Layout l)
    (hal : frame.toNat % 4096 = 0) :
    page frame ⊆ s.addresses ↔
      ∃ k, s.links.OnList k ∧ s.lo k ≤ frame.toNat ∧ frame.toNat < s.hi k := by
  constructor
  · intro hsub
    exact hsub ⟨le_rfl, by omega⟩
  · rintro ⟨k, hk, hlo, hhi⟩ a ⟨hle, hlt⟩
    have hend := (h.entry k (h.holds.onList_iff.mp hk)).hi_aligned
    exact ⟨k, hk, by omega, by omega⟩

theorem Found.pageVirtualFree_eq (h : s.Found frame pre t post) :
    s.pageVirtualFree frame = Plan.run s (if s.hi t ≤ frame.toNat then ⟨none, .ret (-1)⟩
      else ⟨none, .cut (cellAfter pre) frame pageSize (some (-1))⟩) := by
  have hcall : s.pageVirtualFree frame = (s.pageVirtualFreePlan frame).bind (·.run s) := rfl
  rw [hcall]
  simp only [pageVirtualFreePlan, h.find, h.deref_eq, Option.bind_eq_bind, Option.bind_some,
    Option.pure_def, ge_iff_le, UInt64.le_iff_toNat_le, h.toNat_endOf,
    if_neg h.layout.entry_self.len_ne_one]
  split
  · rfl
  · rfl

/-! ### Where the search stops below the page -/

/-- Behind the end of the entry found, the call is refused. -/
theorem Found.free_refused (h : s.Found frame pre t post) (hal : frame.toNat % 4096 = 0)
    (hge : s.hi t ≤ frame.toNat) : s.FreesExactly frame ↔ s.FreeServes frame := by
  have hrun : s.pageVirtualFree frame = some ⟨some (-1), none, s⟩ := by
    rw [h.pageVirtualFree_eq, if_pos hge]
    rfl
  rw [FreesExactly, FreeServes, hrun]
  constructor
  · rintro ⟨o, ho, hcov, -⟩
    obtain rfl := Option.some.inj ho
    refine .inr ⟨fun hsub => (by cases (hcov hsub).1), fun k hk => ?_⟩
    have := h.layout.lo_le_of_first hk h.layout.onList_self
    have := s.lo_le_hi t
    omega
  · rintro (⟨k, hk, hlo, hhi, -⟩ | ⟨hnot, -⟩)
    · -- the entries behind `t` start at the page or above
      rcases h.layout.onList_cases hk with ⟨-, hlt⟩ | rfl | ⟨x, hx, hkx⟩
      · have := s.lo_le_hi t
        omega
      · omega
      · have := h.above x hx
        have := s.lo_le_hi x
        rcases hkx with rfl | hkx
        · omega
        · omega
    · exact ⟨_, rfl, fun hsub => absurd hsub hnot, fun _ => ⟨rfl, rfl⟩⟩

/-- Below the first entry the call cuts that entry. -/
theorem Found.free_below (h : s.Found frame pre t post) (hslot : ¬ s.Full)
    (hal : frame.toNat % 4096 = 0) (hlt : frame.toNat < s.lo t) :
    ¬ s.FreesExactly frame ∧ ¬ s.FreeServes frame := by
  have hpre : pre = [] := by
    by_contra hpre
    have := h.below hpre
    omega
  subst hpre
  have hle := s.lo_le_hi t
  have hlow : ∀ k, s.links.OnList k → frame.toNat < s.lo k := by
    intro k hk
    have := h.layout.lo_le_of_first h.layout.first_eq hk
    omega
  have hnot : ¬ page frame ⊆ s.addresses := by
    rw [h.layout.page_subset_iff_exists hal]
    rintro ⟨k, hk, hlo, -⟩
    have := hlow k hk
    omega
  constructor
  · rintro ⟨o, ho, -, hminus⟩
    rw [h.pageVirtualFree_eq, if_neg (by omega)] at ho
    obtain ⟨s', -, rfl⟩ := h.layout.cut_run hslot ho
    cases (hminus hnot).1
  · rintro (⟨k, hk, hlo, -⟩ | ⟨-, hfirst⟩)
    · have := hlow k hk
      omega
    · have := hfirst t h.layout.first_eq
      omega

/-! ### Inside an entry -/

/-- An entry in which a page starts holds the whole page. -/
theorem Layout.page_le (h : s.Layout (pre ++ t :: post)) (hal : frame.toNat % 4096 = 0)
    (hlt : frame.toNat < s.hi t) : frame.toNat + pageSize.toNat ≤ s.hi t := by
  have hend := h.entry_self.hi_aligned
  rw [toNat_pageSize]
  omega

theorem Found.free_cut (h : s.Found frame pre t post) (hlt : frame.toNat < s.hi t) :
    s.pageVirtualFree frame =
      Plan.run s ⟨none, .cut (cellAfter pre) frame pageSize (some (-1))⟩ := by
  rw [h.pageVirtualFree_eq, if_neg (not_le.mpr hlt)]

theorem Found.page_covered (h : s.Found frame pre t post) (hal : frame.toNat % 4096 = 0)
    (hlo : s.lo t ≤ frame.toNat) (hlt : frame.toNat < s.hi t) : page frame ⊆ s.addresses :=
  (h.layout.page_subset_iff_exists hal).mpr ⟨t, h.layout.onList_self, hlo, hlt⟩

/-- With something on both sides of the page the call is right. -/
theorem Found.free_between (h : s.Found frame pre t post) (hslot : ¬ s.Full)
    (hfresh : s.FreshSlot) (hal : frame.toNat % 4096 = 0) (hlo : s.lo t < frame.toNat)
    (hin : frame.toNat + 4096 < s.hi t) : s.FreesExactly frame := by
  have hcov := h.page_covered hal hlo.le (by omega)
  have hw : pageSize.toNat % 4096 = 0 := by decide
  have hpos : 0 < pageSize.toNat := by decide
  rcases h.layout.cut (some (-1)) (hfresh.not_mem h.layout) hal hw hpos hlo (by omega)
      (.inl (by rwa [toNat_pageSize])) with
    ⟨hfull, -⟩ | ⟨s', hs', ⟨l, hl⟩, haddr⟩
  · exact absurd hfull hslot
  · refine ⟨⟨some 0, none, s'⟩, ?_, fun _ => ⟨rfl, ?_, l, hl.holds, fun k hk hzero => ?_⟩,
      fun hnot => absurd hcov hnot⟩
    · rw [h.free_cut (by omega), Plan.run, hs']
      rfl
    · rw [haddr, toNat_pageSize, page]
    · have hpos := (hl.entry k hk).pos
      rw [hzero] at hpos
      exact absurd hpos (by decide)

/-- At either end of the entry the call leaves an entry of length zero. -/
theorem Found.not_free_at_end (h : s.Found frame pre t post) (hslot : ¬ s.Full)
    (hfresh : s.FreshSlot) (hal : frame.toNat % 4096 = 0) (hlo : s.lo t ≤ frame.toNat)
    (hlt : frame.toNat < s.hi t)
    (hend : s.lo t = frame.toNat ∨ frame.toNat + 4096 = s.hi t) : ¬ s.FreesExactly frame := by
  rintro ⟨o, ho, hcov, -⟩
  obtain ⟨-, -, l, hl, hlen⟩ := hcov (h.page_covered hal hlo hlt)
  rw [h.free_cut hlt] at ho
  obtain ⟨⟨i, off⟩, hio⟩ := Option.ne_none_iff_exists'.mp hslot
  obtain ⟨s', hins, hlinks, -, hlent, hlenk, -⟩ := h.layout.cut_fresh hio
    (hfresh.not_mem h.layout i off hio) hlo (h.layout.page_le hal hlt)
  rw [h.layout.run_cut _ _ hins] at ho
  obtain rfl := Option.some.inj ho
  obtain rfl : l = pre ++ t :: newIndex i off :: post := hl.unique hlinks
  rcases hend with hend | hend
  · -- the entry itself is left with nothing
    refine hlen t (by simp) ?_
    rw [← UInt64.toNat_inj, hlent, hend]
    exact Nat.sub_self _
  · -- the new entry starts at the end
    refine hlen (newIndex i off) (by simp) ?_
    rw [← UInt64.toNat_inj, hlenk, toNat_pageSize, hend]
    exact Nat.sub_self _

/-- With the slot of another entry, that entry is lost. -/
theorem Found.not_free_used (h : s.Found frame pre t post) (hslot : ¬ s.Full)
    (hal : frame.toNat % 4096 = 0) (hlo : s.lo t ≤ frame.toNat) (hlt : frame.toNat < s.hi t)
    {i : Fin virtualAddressMapFreeBitmapLength} {off : Fin 64}
    (hio : s.findFreeSlot = some (i, off)) (hused : s.links.OnList (newIndex i off))
    (hother : newIndex i off ≠ t) : ¬ s.FreesExactly frame := by
  rintro ⟨o, ho, hcov, -⟩
  obtain ⟨-, haddr, -⟩ := hcov (h.page_covered hal hlo hlt)
  rw [h.free_cut hlt] at ho
  obtain ⟨s', hins, rfl⟩ := h.layout.cut_run hslot ho
  obtain ⟨a, ha, hlost⟩ :=
    h.layout.cut_used hio hused hother hlo (h.layout.page_le hal hlt) hins
  rw [toNat_pageSize] at ha
  rw [haddr] at hlost
  exact hlost ha

/-- With the slot of the entry itself, the list ends in a loop. -/
theorem Found.not_free_loop (h : s.Found frame pre t post) (hal : frame.toNat % 4096 = 0)
    (hlo : s.lo t ≤ frame.toNat) (hlt : frame.toNat < s.hi t)
    {i : Fin virtualAddressMapFreeBitmapLength} {off : Fin 64}
    (hio : s.findFreeSlot = some (i, off)) (hself : newIndex i off = t) :
    ¬ s.FreesExactly frame := by
  rintro ⟨o, ho, hcov, -⟩
  obtain ⟨-, -, l, hl, -⟩ := hcov (h.page_covered hal hlo hlt)
  obtain ⟨s', hins, hnext, hon⟩ :=
    h.layout.cut_loop hio hself
  rw [h.free_cut hlt, h.layout.run_cut _ _ hins] at ho
  obtain rfl := Option.some.inj ho
  exact hl.next_ne hon hnext

/-- In the entry found, the call is right exactly if something lies on both
sides of the page and the slot is not on the list. -/
theorem Found.free_inside (h : s.Found frame pre t post) (hslot : ¬ s.Full)
    (hal : frame.toNat % 4096 = 0) (hlo : s.lo t ≤ frame.toNat) (hlt : frame.toNat < s.hi t) :
    s.FreesExactly frame ↔
      s.lo t < frame.toNat ∧ frame.toNat + 4096 < s.hi t ∧ s.FreshSlot := by
  have hle := h.layout.page_le hal hlt
  rw [toNat_pageSize] at hle
  constructor
  · intro hfrees
    have hfresh : s.FreshSlot := by
      intro i off hio hused
      by_cases hself : newIndex i off = t
      · exact h.not_free_loop hal hlo hlt hio hself hfrees
      · exact h.not_free_used hslot hal hlo hlt hio hused hself hfrees
    refine ⟨?_, ?_, hfresh⟩
    · by_contra hnot
      exact h.not_free_at_end hslot hfresh hal hlo hlt (.inl (by omega)) hfrees
    · by_contra hnot
      exact h.not_free_at_end hslot hfresh hal hlo hlt (.inr (by omega)) hfrees
  · rintro ⟨hlow, hin, hfresh⟩
    exact h.free_between hslot hfresh hal hlow hin

/-- `page_virtual_free` keeps its promise exactly on the inputs that `FreeServes`
describes. -/
theorem freesExactly_iff (h : s.WellFormed) (hslot : ¬ s.Full) (hal : frame.toNat % 4096 = 0) :
    s.FreesExactly frame ↔ s.FreeServes frame := by
  obtain ⟨pre, t, post, hf⟩ := h.found frame
  by_cases hge : s.hi t ≤ frame.toNat
  · exact hf.free_refused hal hge
  by_cases hlow : frame.toNat < s.lo t
  · have hbelow := hf.free_below hslot hal hlow
    exact iff_of_false hbelow.1 hbelow.2
  have hlo := not_lt.mp hlow
  have hlt := not_le.mp hge
  have hcov := hf.page_covered hal hlo hlt
  rw [hf.free_inside hslot hal hlo hlt, FreeServes, or_iff_left fun hnot => hnot.1 hcov]
  constructor
  · intro hcond
    exact ⟨t, hf.layout.onList_self, hcond⟩
  · rintro ⟨k, hk, hcond⟩
    -- no other entry contains the page
    obtain rfl : k = t := hf.layout.eq_of_mem hk hf.layout.onList_self
      ⟨hcond.1.le, by omega⟩ ⟨hlo, hlt⟩
    exact hcond

/-- The criterion for a page in the middle of the first entry. -/
theorem freesExactly_twoEntries_iff :
    twoEntries.FreesExactly 0x82000 ↔ twoEntries.FreeServes 0x82000 :=
  freesExactly_iff ⟨_, twoEntries_layout⟩ twoEntries_not_full (by decide)

/-- The only page of the second entry: the call says that it is not allocated. -/
theorem not_freesExactly_twoEntries :
    twoEntries.WellFormed ∧ twoEntries.FreshSlot ∧ ¬ twoEntries.Full ∧
      page 0x90000 ⊆ twoEntries.addresses ∧ ¬ twoEntries.FreesExactly 0x90000 ∧
      ∃ o, twoEntries.pageVirtualFree 0x90000 = some o ∧ o.code = some (-1) := by
  have hcov : page 0x90000 ⊆ twoEntries.addresses :=
    (twoEntries_layout.page_subset_iff_exists (by decide)).mpr
      ⟨1, twoEntries_layout.onList_self, by decide, by decide⟩
  refine ⟨⟨_, twoEntries_layout⟩, twoEntries_freshSlot, twoEntries_not_full, hcov, ?_, _, rfl, rfl⟩
  rintro ⟨o, ho, hfree, -⟩
  obtain rfl := Option.some.inj ho
  cases (hfree hcov).1

end VirtualAddressMap

end Betelgeuse
