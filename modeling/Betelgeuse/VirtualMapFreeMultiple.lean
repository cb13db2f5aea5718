/-
Taking several pages out of the map.

`page_virtual_free_multiple` compares the end of the range with the end of the
entry it finds, and refuses the range when the first is not below the second:
a range that ends with its entry, or is the whole entry, is refused as if it
were not allocated.  A range that ends below is cut out, also where the entry
starts above it.  With `count == 1` the page is freed by `page_virtual_free`,
the result of that call is thrown away, and the rest of the function searches
for the page that is gone (`Found.not_freesRange_one`).

`freesRange_iff` says on which maps and ranges the function does what it should.
-/
import Betelgeuse.VirtualMapFree

open HeapList WordBitmap RangeList

namespace Betelgeuse

namespace VirtualAddressMap

variable {s : VirtualAddressMap} {pre post : List Slot} {t : Slot} {frame count : UInt64}

/-- The addresses of the `count` pages from `frame` on. -/
def pages (frame count : UInt64) : Set ℕ :=
  Set.Ico frame.toNat (frame.toNat + count.toNat * 4096)

/-- If all the pages are covered the call returns 0 and the covered addresses lose
exactly these pages; if not, it returns -1 and what was covered stays covered.  The
list still ends, and an entry of the map that is left covers what lies below the end
that the code computes for it. -/
def FreesRange (s : VirtualAddressMap) (frame count : UInt64) : Prop :=
  ∃ o, s.pageVirtualFreeMultiple frame count = some o ∧ (∃ l, o.map.links.Holds l) ∧
    (pages frame count ⊆ s.addresses →
      o.code = some 0 ∧ o.map.codeAddresses = s.addresses \ pages frame count) ∧
    (¬ pages frame count ⊆ s.addresses →
      o.code = some (-1) ∧ s.addresses ⊆ o.map.codeAddresses)

/-- Each entry that the search for `frame` looks at, the first one and those that
start below `frame`, ends at `top` or below. -/
def EndsBy (s : VirtualAddressMap) (frame : UInt64) (top : ℕ) : Prop :=
  ∀ k, s.links.OnList k → s.first = some k ∨ s.lo k < frame.toNat → s.hi k ≤ top

/-- The range ends inside the entry `k`, which is one that the search looks at,
and the slot that `INSERT` picks is not on the list. -/
def RangeInside (s : VirtualAddressMap) (frame count : UInt64) : Prop :=
  ∃ k, s.links.OnList k ∧ s.lo k ≤ frame.toNat ∧ (s.first = some k ∨ s.lo k < frame.toNat) ∧
    frame.toNat + count.toNat * 4096 < s.hi k ∧ s.FreshSlot

/-- The first entry starts above `frame`, and the slot that `INSERT` picks is not on
the list. -/
def BelowFirst (s : VirtualAddressMap) (frame : UInt64) : Prop :=
  (∀ k ∈ s.first, frame.toNat < s.lo k) ∧ s.FreshSlot

/-- Several pages inside an entry; or pages of which one is not covered, behind
which no entry that the search looks at ends; or a single page below all
entries. -/
def FreeMultipleServes (s : VirtualAddressMap) (frame count : UInt64) : Prop :=
  (count ≠ 1 ∧ s.RangeInside frame count) ∨
  (¬ pages frame count ⊆ s.addresses ∧ s.EndsBy frame (frame + count <<< 12).toNat) ∨
  (count = 1 ∧ s.BelowFirst frame)

/-! ### What the search finds -/

theorem Found.looks (h : s.Found frame pre t post) : s.first = some t ∨ s.lo t < frame.toNat := by
  by_cases hpre : pre = []
  · subst hpre
    exact .inl h.layout.first_eq
  · exact .inr (h.below hpre)

/-- The entries that the search looks at are the one found and those before it. -/
theorem Found.endsBy_iff (h : s.Found frame pre t post) {top : ℕ} :
    s.EndsBy frame top ↔ s.hi t ≤ top := by
  constructor
  · intro hends
    exact hends t h.layout.onList_self h.looks
  · intro hle k hk hlooks
    have ht := s.lo_le_hi t
    rcases h.layout.onList_cases hk with ⟨-, hlt⟩ | rfl | ⟨x, hx, hkx⟩
    · omega
    · exact hle
    · have habove := h.above x hx
      have hxt := h.layout.gap x hx
      have hx := s.lo_le_hi x
      rcases hlooks with hfirst | hlow
      · have := h.layout.lo_le_of_first hfirst h.layout.onList_self
        rcases hkx with rfl | hkx
        · omega
        · omega
      · rcases hkx with rfl | hkx
        · omega
        · omega

/-- The entry found is the one that contains the address, unless that entry
starts there and is not the first one. -/
theorem Found.eq_of_contains (h : s.Found frame pre t post) {k : Slot} (hk : s.links.OnList k)
    (hlooks : s.first = some k ∨ s.lo k < frame.toNat) (hlt : frame.toNat < s.hi k) : k = t := by
  have hle := h.endsBy_iff.mpr le_rfl k hk hlooks
  rcases h.layout.onList_cases hk with ⟨-, hlow⟩ | rfl | ⟨x, hx, hkx⟩
  · have := h.looks
    rcases this with hfirst | hbelow
    · have := h.layout.lo_le_of_first hfirst hk
      have := s.lo_le_hi k
      omega
    · omega
  · rfl
  · have := h.layout.gap x hx
    have := s.lo_le_hi x
    have := (h.layout.entry k (h.layout.holds.onList_iff.mp hk)).lo_lt_hi
    rcases hkx with rfl | hkx
    · omega
    · omega

/-- The tests of the function, on any map. -/
theorem freeMultiplePlan_eq {c : Cell Slot} (hc : s.findEntry frame = some c)
    (ht : s.deref c = some t) (count : UInt64) :
    s.pageVirtualFreeMultiplePlan frame count =
      some (if s.endOf t ≤ frame + count <<< 12 then ⟨none, .ret (-1)⟩
        else if s.len t = 1 then ⟨none, .unlink c none⟩
        else ⟨none, .cut c frame (count <<< 12) none⟩) := by
  simp only [pageVirtualFreeMultiplePlan, hc, ht, Option.bind_eq_bind, Option.bind_some,
    Option.pure_def, ge_iff_le]
  split
  · rfl
  · split
    · rfl
    · rfl

theorem Found.freeMultiplePlan_eq (h : s.Found frame pre t post) (count : UInt64) :
    s.pageVirtualFreeMultiplePlan frame count =
      some (if s.hi t ≤ (frame + count <<< 12).toNat then ⟨none, .ret (-1)⟩
        else ⟨none, .cut (cellAfter pre) frame (count <<< 12) none⟩) := by
  rw [VirtualAddressMap.freeMultiplePlan_eq h.find h.deref_eq,
    if_neg h.layout.entry_self.len_ne_one]
  simp only [UInt64.le_iff_toNat_le, h.toNat_endOf]

theorem Found.freeMultiple_eq (h : s.Found frame pre t post) (hzero : count ≠ 0)
    (hone : count ≠ 1) :
    s.pageVirtualFreeMultiple frame count =
      Plan.run s (if s.hi t ≤ (frame + count <<< 12).toNat then ⟨none, .ret (-1)⟩
        else ⟨none, .cut (cellAfter pre) frame (count <<< 12) none⟩) := by
  rw [pageVirtualFreeMultiple, if_neg hone, if_neg hzero, h.freeMultiplePlan_eq]
  rfl

/-! ### More than one page -/

/-- Pages that are covered lie in one entry. -/
theorem Layout.pages_subset_iff {l : List Slot} (h : s.Layout l) (hzero : count ≠ 0) :
    pages frame count ⊆ s.addresses ↔
      ∃ k, s.links.OnList k ∧ s.lo k ≤ frame.toNat ∧
        frame.toNat + count.toNat * 4096 ≤ s.hi k := by
  have hpos := ne_zero_iff_pos.mp hzero
  constructor
  · intro hsub
    obtain ⟨k, hk, hlo, hhi⟩ := hsub (Set.mem_Ico.mpr ⟨le_rfl, by omega⟩)
    refine ⟨k, hk, hlo, ?_⟩
    by_contra hlt
    -- the first address behind the entry is covered by no entry
    obtain ⟨pre, post, rfl⟩ := List.append_of_mem (h.holds.onList_iff.mp hk)
    refine h.not_mem_addresses le_rfl h.gap (hsub (Set.mem_Ico.mpr ⟨hhi.le, ?_⟩))
    omega
  · rintro ⟨k, hk, hlo, hhi⟩ a ⟨hle, hlt⟩
    exact ⟨k, hk, by omega, by omega⟩

theorem RangeInside.subset (h : s.RangeInside frame count) : pages frame count ⊆ s.addresses := by
  obtain ⟨k, hk, hlo, -, hhi, -⟩ := h
  intro a ha
  obtain ⟨hle, hlt⟩ := Set.mem_Ico.mp ha
  exact ⟨k, hk, by omega, by omega⟩

/-- Covered pages do not wrap. -/
theorem Layout.toNat_end {l : List Slot} (h : s.Layout l) (hzero : count ≠ 0)
    (hcov : pages frame count ⊆ s.addresses) :
    (count <<< 12).toNat = count.toNat * 4096 ∧
      (frame + count <<< 12).toNat = frame.toNat + count.toNat * 4096 := by
  obtain ⟨k, hk, -, hhi⟩ := (h.pages_subset_iff hzero).mp hcov
  have hfit := (h.entry k (h.holds.onList_iff.mp hk)).fits
  have hbytes := toNat_shiftLeft_page (n := count) (by omega)
  refine ⟨hbytes, ?_⟩
  rw [toNat_add_of_lt] <;> rw [hbytes]
  omega

/-- A refused range. -/
theorem Found.freesRange_refused (h : s.Found frame pre t post) (hzero : count ≠ 0)
    (hone : count ≠ 1) (hret : s.hi t ≤ (frame + count <<< 12).toNat) :
    s.FreesRange frame count ↔ s.FreeMultipleServes frame count := by
  have hrun : s.pageVirtualFreeMultiple frame count = some ⟨some (-1), none, s⟩ := by
    rw [h.freeMultiple_eq hzero hone, if_pos hret]
    rfl
  have hends := h.endsBy_iff.mpr hret
  have hin : ¬ s.RangeInside frame count := by
    intro hin
    obtain ⟨k, hk, -, hlooks, hhi, -⟩ := id hin
    have := hends k hk hlooks
    have := (h.layout.toNat_end hzero hin.subset).2
    omega
  rw [FreesRange, hrun]
  constructor
  · rintro ⟨o, ho, -, hcov, -⟩
    obtain rfl := Option.some.inj ho
    exact .inr (.inl ⟨fun hsub => (by cases (hcov hsub).1), hends⟩)
  · rintro (⟨-, hin'⟩ | ⟨hnot, -⟩ | ⟨hone', -⟩)
    · exact absurd hin' hin
    · exact ⟨_, rfl, ⟨_, h.layout.holds⟩, fun hsub => absurd hsub hnot,
        fun _ => ⟨rfl, h.layout.subset_codeAddresses⟩⟩
    · exact absurd hone' hone

/-- Where the pages are covered, the entry found does not start above them. -/
theorem Found.lo_le_of_covered (h : s.Found frame pre t post) (hzero : count ≠ 0)
    (hcov : pages frame count ⊆ s.addresses) : s.lo t ≤ frame.toNat := by
  obtain ⟨k, hk, hlo, -⟩ := (h.layout.pages_subset_iff hzero).mp hcov
  rcases h.looks with hfirst | hbelow
  · exact (h.layout.lo_le_of_first hfirst hk).trans hlo
  · exact hbelow.le

/-- When the range ends inside the entry found, only the slot is in question. -/
theorem Found.rangeInside_iff (h : s.Found frame pre t post) (hlo : s.lo t ≤ frame.toNat)
    (hin : frame.toNat + count.toNat * 4096 < s.hi t) :
    s.RangeInside frame count ↔ s.FreshSlot := by
  constructor
  · rintro ⟨k, hk, -, hlooks, hhi, hslot⟩
    obtain rfl := h.eq_of_contains hk hlooks (by omega)
    exact hslot
  · intro hslot
    exact ⟨t, h.layout.onList_self, hlo, h.looks, hin, hslot⟩

/-- A range that is cut out of the entry found. -/
theorem Found.freesRange_cut (h : s.Found frame pre t post) (hslot : ¬ s.Full)
    (hzero : count ≠ 0) (hone : count ≠ 1) (hcut : ¬ s.hi t ≤ (frame + count <<< 12).toNat) :
    s.FreesRange frame count ↔ s.FreeMultipleServes frame count := by
  have hrun : s.pageVirtualFreeMultiple frame count =
      Plan.run s ⟨none, .cut (cellAfter pre) frame (count <<< 12) none⟩ := by
    rw [h.freeMultiple_eq hzero hone, if_neg hcut]
  have hends : ¬ s.EndsBy frame (frame + count <<< 12).toNat := fun hends =>
    hcut (h.endsBy_iff.mp hends)
  have hserves : s.FreeMultipleServes frame count ↔ s.RangeInside frame count := by
    refine ⟨?_, fun hin => .inl ⟨hone, hin⟩⟩
    rintro (⟨-, hin⟩ | ⟨-, hends'⟩ | ⟨hone', -⟩)
    · exact hin
    · exact absurd hends' hends
    · exact absurd hone' hone
  rw [hserves, FreesRange, hrun]
  by_cases hcov : pages frame count ⊆ s.addresses
  · obtain ⟨hbytes, hend⟩ := h.layout.toNat_end hzero hcov
    have hlow := h.lo_le_of_covered hzero hcov
    have hin : frame.toNat + (count <<< 12).toNat ≤ s.hi t := by omega
    have hpages : pages frame count =
        Set.Ico frame.toNat (frame.toNat + (count <<< 12).toNat) := by rw [pages, hbytes]
    rw [h.rangeInside_iff hlow (by omega)]
    obtain ⟨⟨i, off⟩, hio⟩ := Option.ne_none_iff_exists'.mp hslot
    by_cases hused : s.links.OnList (newIndex i off)
    · refine iff_of_false ?_ fun hfresh => hfresh i off hio hused
      rintro ⟨o, ho, ⟨l, hl⟩, hfree, -⟩
      by_cases hself : newIndex i off = t
      · -- the entry points to itself
        obtain ⟨s', hins, hnext, hon⟩ := h.layout.cut_loop hio hself
        rw [h.layout.run_cut _ _ hins] at ho
        obtain rfl := Option.some.inj ho
        exact hl.next_ne hon hnext
      · -- the entry that was in the slot is lost
        obtain ⟨s', hins, rfl⟩ := h.layout.cut_run hslot ho
        obtain ⟨a, ha, hlost⟩ := h.layout.cut_used hio hused hself hlow hin hins
        rw [← hpages, ← (hfree hcov).2] at ha
        exact hlost (codeAddresses_subset ha)
    · have hnew : newIndex i off ∉ pre ++ t :: post :=
        fun hmem => hused (h.layout.holds.onList_iff.mpr hmem)
      have hfresh : s.FreshSlot := by
        intro i' off' hio'
        obtain ⟨rfl, rfl⟩ := Prod.mk.inj (Option.some.inj (hio.symm.trans hio'))
        exact hused
      obtain ⟨s', hins, hlist, haddr, -, -, hfit⟩ := h.layout.cut_fresh hio hnew hlow hin
      rw [h.layout.run_cut _ _ hins]
      refine iff_of_true ⟨_, rfl, ⟨_, hlist⟩, fun _ => ⟨rfl, ?_⟩, fun hnot => absurd hcov hnot⟩
        hfresh
      rw [hpages, ← haddr]
      exact codeAddresses_eq hfit
  · constructor
    · rintro ⟨o, ho, -, -, hminus⟩
      obtain ⟨s', -, rfl⟩ := h.layout.cut_run hslot ho
      cases (hminus hcov).1
    · intro hin
      exact absurd hin.subset hcov

/-! ### A single page -/

/-- The slot that has just been taken is not picked again. -/
theorem findFreeSlot_ne {s' : VirtualAddressMap} {i j : Fin virtualAddressMapFreeBitmapLength}
    {off off' : Fin 64} (hbits : s'.freeBitmap = setBit s.freeBitmap i off)
    (hio : s'.findFreeSlot = some (j, off')) : newIndex j off' ≠ newIndex i off := by
  intro heq
  obtain ⟨rfl, rfl⟩ := newIndex_inj heq
  have hclear := bit_findFreeSlot hio
  rw [hbits, setBit, Function.update_self, bit_or_mask _ off'.isLt] at hclear
  simp at hclear

/-- The search does not leave the first entry for one that starts at the address
or above. -/
theorem findEntry_looks {c : Cell Slot} (hc : s.findEntry frame = some c)
    (ht : s.deref c = some t) : c = .first ∨ s.base t < frame := by
  rcases Heap.seek_guard hc with hc | ⟨j, x, rfl, hx, hg⟩
  · exact .inl hc
  · obtain rfl : x = t := Option.some.inj (hx.symm.trans ht)
    exact .inr (of_decide_eq_true hg)

/-- The part of the function behind the test of `count`, on any map: it returns -1
and leaves the map as it is, or comes to the end of the entry it has found. -/
theorem freeMultiplePlan_run {p : Plan} {o : Outcome}
    (hp : s.pageVirtualFreeMultiplePlan frame count = some p) (ho : p.run s = some o) :
    ∃ c t, s.findEntry frame = some c ∧ s.deref c = some t ∧
      ((s.endOf t ≤ frame + count <<< 12 ∧ o = ⟨some (-1), none, s⟩) ∨
        (frame + count <<< 12 < s.endOf t ∧ (o.code = none ∨ o.code = some 0 ∧
          (s.setLen t (frame - s.base t)).insertEntry c (frame + count <<< 12)
            (s.len t - (frame - s.base t) - count <<< 12) = some (some o.map)))) := by
  obtain ⟨c, hc, hp'⟩ := Option.bind_eq_some_iff.mp hp
  obtain ⟨t, ht, -⟩ := Option.bind_eq_some_iff.mp hp'
  rw [freeMultiplePlan_eq hc ht] at hp
  obtain rfl := Option.some.inj hp
  refine ⟨c, t, hc, ht, ?_⟩
  split at ho
  · rename_i hle
    exact .inl ⟨hle, (Option.some.inj ho).symm⟩
  · rename_i hlt
    refine .inr ⟨UInt64.not_le.mp hlt, ?_⟩
    split at ho
    · obtain ⟨r, hr, rfl⟩ := Option.map_eq_some_iff.mp ho
      obtain ⟨t', -, hr⟩ := Option.bind_eq_some_iff.mp hr
      obtain rfl := Option.some.inj hr
      exact .inl rfl
    · obtain ⟨r, hr, rfl⟩ := Option.map_eq_some_iff.mp ho
      rw [perform_cut ht] at hr
      obtain ⟨r', hins, rfl⟩ := Option.map_eq_some_iff.mp hr
      cases r' with
      | none => exact .inl rfl
      | some s' => exact .inr ⟨rfl, hins⟩

theorem add_sub_self (a b : UInt64) : a + (b - a) = b := by
  rw [UInt64.add_comm, UInt64.sub_add_cancel]

/-- What lies above the range ends where the entry ended. -/
theorem rest_add_sub (a b f n : UInt64) : f + n + (b - (f - a) - n) = a + b := by
  grind

/-- `INSERT` comes to its end only with a slot. -/
theorem insertEntry_slot {c : Cell Slot} {b l : UInt64} {s' : VirtualAddressMap}
    (hins : s.insertEntry c b l = some (some s')) :
    ∃ i off, s.findFreeSlot = some (i, off) := by
  cases hio : s.findFreeSlot with
  | none =>
    rw [VirtualAddressMap.insertEntry, hio] at hins
    cases hins
  | some io => exact ⟨io.1, io.2, rfl⟩

/-- Behind the first half no old entry ends above the page that the second half looks
for, so an entry that does is the new one, found as the first of the map. -/
theorem Found.finds_new (h : s.Found frame pre t post) (hlo : s.lo t ≤ frame.toNat)
    (hlt : frame.toNat < s.hi t) {s₁ : VirtualAddressMap}
    {i : Fin virtualAddressMapFreeBitmapLength} {off : Fin 64}
    (hio : s.findFreeSlot = some (i, off))
    (hins : s.cutInsert pre t frame pageSize = some (some s₁))
    (hb : (frame + pageSize).toNat = frame.toNat + 4096) {c : Cell Slot} {t₂ : Slot}
    (hc : s₁.findEntry frame = some c) (ht₂ : s₁.deref c = some t₂)
    (htop : frame.toNat + 4096 < (s₁.endOf t₂).toNat) :
    t₂ = newIndex i off ∧ c = .first ∧ s₁.base t₂ = frame + pageSize := by
  obtain ⟨s', hs', hfirst, -, hlist, hbase, hlen⟩ := insertEntry_writes
    (h.layout.holds_setLen (frame - s.base t)).read_cellAfter
    (by simpa using h.layout.onList_self) (show _ = some (i, off) from hio) hins
  obtain rfl := Option.some.inj hs'
  have hlooks := findEntry_looks hc ht₂
  -- no older entry reaches the end of the page
  have hnew : t₂ = newIndex i off := by
    by_contra htk
    have hon := (Heap.OnCell.seek (c := .first) trivial hc).onList ht₂
    replace hon := (hlist t₂ hon).resolve_right htk
    rw [links_setLen] at hon
    have hbase₂ : s₁.base t₂ = s.base t₂ := by rw [hbase, if_neg htk, base_setLen]
    rw [endOf, hbase₂, hlen, if_neg htk, len_setLen] at htop
    by_cases htt : t₂ = t
    · subst htt
      rw [if_pos rfl, add_sub_self] at htop
      omega
    · rw [if_neg htt] at htop
      refine htt (h.eq_of_contains hon ?_ ?_)
      · rcases hlooks with rfl | hlow
        · exact .inl (hfirst.symm.trans ht₂)
        · rw [hbase₂, UInt64.lt_iff_toNat_lt] at hlow
          exact .inr hlow
      · have hend := (h.layout.entry t₂ (h.layout.holds.onList_iff.mp hon)).toNat_endOf
        rw [endOf] at hend
        omega
  have hbasek : s₁.base t₂ = frame + pageSize := by rw [hbase, if_pos hnew]
  refine ⟨hnew, hlooks.resolve_right fun hlow => ?_, hbasek⟩
  rw [hbasek, UInt64.lt_iff_toNat_lt, hb] at hlow
  omega

/-- The second half works on the entry that the first half has made: where its slot
was that of the entry cut, the two entries of the second half point to each other. -/
theorem Found.not_holds_one (h : s.Found frame pre t post) {s₁ s₂ : VirtualAddressMap}
    {i i₂ : Fin virtualAddressMapFreeBitmapLength} {off off₂ : Fin 64}
    (hio : s.findFreeSlot = some (i, off)) (hself : newIndex i off = t)
    (hins : s.cutInsert pre t frame pageSize = some (some s₁)) (hfirst : s₁.first = some t)
    (hio₂ : s₁.findFreeSlot = some (i₂, off₂)) (hne : newIndex i₂ off₂ ≠ t) {v b l : UInt64}
    (hins₂ : (s₁.setLen t v).insertEntry .first b l = some (some s₂)) (k : List Slot) :
    ¬ s₂.links.Holds k := by
  intro hk
  obtain ⟨s', hins', hnext, -⟩ := h.layout.cut_loop hio hself
  obtain rfl := Option.some.inj (Option.some.inj (hins'.symm.trans hins))
  have hlink := insertEntry_link (s := s'.setLen t v) (c := .first) (t := t) hfirst b l hio₂
    (by simp)
  obtain rfl := Option.some.inj (Option.some.inj (hlink.symm.trans hins₂))
  refine hk.next_next_ne (j := t) (k := newIndex i₂ off₂) (.first hfirst) ?_ ?_
  · rw [links_linkEntry]
    simp [Heap.write]
  · rw [links_linkEntry, next_setLen, hnext]
    simp [Heap.write, hne]

/-- Where it was that of another entry, the start of that entry is lost. -/
theorem Found.lost_one (h : s.Found frame pre t post) (hlo : s.lo t ≤ frame.toNat)
    {s₁ s₂ : VirtualAddressMap} {i i₂ : Fin virtualAddressMapFreeBitmapLength} {off off₂ : Fin 64}
    (hio : s.findFreeSlot = some (i, off)) (hother : newIndex i off ≠ t)
    (hfirst : s.first = some (newIndex i off)) (hb : (frame + pageSize).toNat = frame.toNat + 4096)
    (hins : s.cutInsert pre t frame pageSize = some (some s₁))
    (hio₂ : s₁.findFreeSlot = some (i₂, off₂)) {v l : UInt64}
    (hins₂ : (s₁.setLen (newIndex i off) v).insertEntry .first (frame + pageSize) l =
      some (some s₂)) :
    s.lo (newIndex i off) < frame.toNat ∧ s.lo (newIndex i off) ∉ s₂.codeAddresses := by
  set k := newIndex i off with hk
  have hkon : s.links.OnList k := .first hfirst
  have hkpos := (h.layout.entry k (h.layout.holds.onList_iff.mp hkon)).lo_lt_hi
  have hkt : s.hi k < s.lo t := by
    have hle := h.layout.lo_le_of_first hfirst h.layout.onList_self
    rcases h.layout.onList_cases hkon with ⟨-, hlt⟩ | heq | ⟨x, hx, hkx⟩
    · exact hlt
    · exact absurd heq hother
    · have := h.layout.gap x hx
      have := s.lo_le_hi t
      have := s.lo_le_hi x
      rcases hkx with rfl | hkx
      · omega
      · omega
  refine ⟨by omega, ?_⟩
  obtain ⟨s', hs', hfirst₁, -, hlist₁, hbase₁, hlen₁⟩ := insertEntry_writes
    (h.layout.holds_setLen (frame - s.base t)).read_cellAfter
    (by simpa using h.layout.onList_self) (show _ = some (i, off) from hio) hins
  obtain rfl := Option.some.inj hs'
  have hfirst₂ : s₁.first = some k := hfirst₁.trans hfirst
  obtain ⟨s', hs', -, -, hlist₂, hbase₂, hlen₂⟩ := insertEntry_writes (c := .first)
    (s := s₁.setLen k v) hfirst₂ (.first hfirst₂) hio₂ hins₂
  obtain rfl := Option.some.inj hs'
  rintro ⟨j, hj, hjlo, hjhi⟩
  rw [lo, hbase₂, base_setLen] at hjlo
  rw [endOf, hbase₂, hlen₂, base_setLen, len_setLen] at hjhi
  -- both entries that `INSERT` has written start above the page
  by_cases hj₂ : j = newIndex i₂ off₂
  · rw [if_pos hj₂] at hjlo
    omega
  rw [if_neg hj₂, hbase₁, base_setLen] at hjlo
  by_cases hjk : j = k
  · rw [if_pos hjk] at hjlo
    omega
  rw [if_neg hjk] at hjlo
  -- the entry that was cut starts above the lost one
  by_cases hjt : j = t
  · subst hjt
    have := hjlo.trans_lt hkpos
    rw [← lo] at this
    omega
  rw [if_neg hj₂, if_neg hj₂, if_neg hjk, hbase₁, if_neg hjk, base_setLen, hlen₁, if_neg hjk,
    len_setLen, if_neg hjt, ← endOf] at hjhi
  -- and any other entry is as it was
  have hjon : s.links.OnList j := by
    have := (hlist₂ j hj).resolve_right hj₂
    rw [links_setLen] at this
    simpa using (hlist₁ j this).resolve_right hjk
  rw [(h.layout.entry j (h.layout.holds.onList_iff.mp hjon)).toNat_endOf] at hjhi
  exact hjk (h.layout.eq_of_mem hjon hkon ⟨hjlo, hjhi⟩ ⟨le_rfl, hkpos⟩)

/-- The page is taken out by the first half, and the second half does not find
it. -/
theorem Found.not_freesRange_one (h : s.Found frame pre t post) (hslot : ¬ s.Full)
    (hal : frame.toNat % 4096 = 0) (hlo : s.lo t ≤ frame.toNat) (hlt : frame.toNat < s.hi t) :
    ¬ s.FreesRange frame 1 := by
  rintro ⟨o, ho, ⟨l, hl⟩, hcov, -⟩
  have hin := h.layout.page_le hal hlt
  rw [toNat_pageSize] at hin
  have hsub : pages frame 1 ⊆ s.addresses :=
    (h.layout.pages_subset_iff (by decide)).mpr ⟨t, h.layout.onList_self, hlo, hin⟩
  obtain ⟨hcode, haddr⟩ := hcov hsub
  obtain ⟨o₁, ho₁, ho⟩ := Option.bind_eq_some_iff.mp ho
  obtain ⟨p, hp, hrun⟩ := Option.bind_eq_some_iff.mp ho
  rw [h.free_cut hlt] at ho₁
  obtain ⟨s₁, hins, rfl⟩ := h.layout.cut_run hslot ho₁
  obtain ⟨-, hb, -⟩ := h.layout.cut_numbers hlo (h.layout.page_le hal hlt)
  rw [toNat_pageSize] at hb
  obtain ⟨⟨i, off⟩, hio⟩ := Option.ne_none_iff_exists'.mp hslot
  obtain ⟨c, t₂, hc, ht₂, ⟨-, rfl⟩ | ⟨htop, hnone | ⟨-, hins₂⟩⟩⟩ := freeMultiplePlan_run hp hrun
  · cases hcode
  · cases hnone.symm.trans hcode
  -- the second half works on the new entry, which is the first one and starts above the page
  rw [UInt64.lt_iff_toNat_lt, show (1 : UInt64) <<< 12 = pageSize from rfl, hb] at htop
  obtain ⟨rfl, rfl, -⟩ := h.finds_new hlo hlt hio hins hb hc ht₂ htop
  obtain ⟨i₂, off₂, hio₂⟩ := insertEntry_slot hins₂
  obtain ⟨s', hs', hfirst, hbits, -⟩ := insertEntry_writes
    (h.layout.holds_setLen (frame - s.base t)).read_cellAfter
    (by simpa using h.layout.onList_self) (show _ = some (i, off) from hio) hins
  obtain rfl := Option.some.inj hs'
  have hne : newIndex i₂ off₂ ≠ newIndex i off := findFreeSlot_ne hbits hio₂
  have hfirst₁ : s₁.first = some (newIndex i off) := ht₂
  by_cases hself : newIndex i off = t
  · rw [hself] at hins₂ hfirst₁ hne
    exact h.not_holds_one hio hself hins hfirst₁ hio₂ hne hins₂ l hl
  · obtain ⟨hbelow, hlost⟩ := h.lost_one hlo hio hself (hfirst.symm.trans hfirst₁) hb hins hio₂
      hins₂
    refine hlost ?_
    rw [haddr]
    have hkon : s.links.OnList (newIndex i off) := .first (hfirst.symm.trans hfirst₁)
    refine ⟨⟨_, hkon, le_rfl, ?_⟩, fun hmem => absurd (Set.mem_Ico.mp hmem).1 (not_le.mpr hbelow)⟩
    exact (h.layout.entry _ (h.layout.holds.onList_iff.mp hkon)).lo_lt_hi

theorem Layout.exists_first {l : List Slot} (h : s.Layout l) : ∃ k, s.first = some k := by
  obtain ⟨k, l, rfl⟩ := List.exists_cons_of_ne_nil h.nonempty
  exact ⟨k, h.first_eq⟩

/-- A single page that the first half does not find: only the second half works. -/
theorem Found.freeMultiple_one_eq (h : s.Found frame pre t post) (hge : s.hi t ≤ frame.toNat) :
    s.pageVirtualFreeMultiple frame 1 =
      Plan.run s (if s.hi t ≤ (frame + (1 : UInt64) <<< 12).toNat then ⟨none, .ret (-1)⟩
        else ⟨none, .cut (cellAfter pre) frame ((1 : UInt64) <<< 12) none⟩) := by
  have hfirst : s.pageVirtualFree frame = some ⟨some (-1), none, s⟩ := by
    rw [h.pageVirtualFree_eq, if_pos hge]
    rfl
  rw [pageVirtualFreeMultiple, if_pos rfl, hfirst]
  show (s.pageVirtualFreeMultiplePlan frame 1).bind (·.run s) = _
  rw [h.freeMultiplePlan_eq]
  rfl

theorem Found.freesRange_one_refused (h : s.Found frame pre t post) (hslot : ¬ s.Full)
    (hge : s.hi t ≤ frame.toNat) : s.FreesRange frame 1 ↔ s.FreeMultipleServes frame 1 := by
  have hbelow : ¬ s.BelowFirst frame := by
    intro hbelow
    obtain ⟨k, hk⟩ : ∃ k, s.first = some k := h.layout.exists_first
    have := hbelow.1 k hk
    have := h.layout.lo_le_of_first hk h.layout.onList_self
    have := s.lo_le_hi t
    omega
  have hserves : s.FreeMultipleServes frame 1 ↔
      ¬ pages frame 1 ⊆ s.addresses ∧ s.hi t ≤ (frame + (1 : UInt64) <<< 12).toNat := by
    rw [FreeMultipleServes, h.endsBy_iff]
    constructor
    · rintro (⟨hone, -⟩ | hrest | ⟨-, hbelow'⟩)
      · exact absurd rfl hone
      · exact hrest
      · exact absurd hbelow' hbelow
    · exact fun hrest => .inr (.inl hrest)
  rw [hserves, FreesRange, h.freeMultiple_one_eq hge]
  split
  · rename_i hret
    constructor
    · rintro ⟨o, ho, -, hcov, -⟩
      obtain rfl := Option.some.inj ho
      exact ⟨fun hsub => (by cases (hcov hsub).1), hret⟩
    · rintro ⟨hnot, -⟩
      exact ⟨_, rfl, ⟨_, h.layout.holds⟩, fun hsub => absurd hsub hnot,
        fun _ => ⟨rfl, h.layout.subset_codeAddresses⟩⟩
  · rename_i hcut
    refine iff_of_false ?_ fun hrest => hcut hrest.2
    -- the end of the page wraps, so the page is not covered, and the call cuts
    rintro ⟨o, ho, -, -, hminus⟩
    have hnot : ¬ pages frame 1 ⊆ s.addresses := by
      intro hsub
      have := (h.layout.toNat_end (by decide) hsub).2
      omega
    obtain ⟨s', -, rfl⟩ := h.layout.cut_run hslot ho
    cases (hminus hnot).1

/-- A page that starts below an entry ends there at most. -/
theorem Layout.toNat_page_end (h : s.Layout (pre ++ t :: post)) (hal : frame.toNat % 4096 = 0)
    (hlt : frame.toNat < s.lo t) :
    (frame + (1 : UInt64) <<< 12).toNat = frame.toNat + 4096 ∧ frame.toNat + 4096 ≤ s.lo t := by
  have hloal := h.entry_self.aligned
  have hbound : s.lo t < 2 ^ 64 := (s.base t).toNat_lt
  have hpage : ((1 : UInt64) <<< 12).toNat = 4096 := rfl
  refine ⟨?_, by omega⟩
  rw [toNat_add_of_lt] <;> rw [hpage]
  omega

/-- The map behind the first half of a call for a single page below the first entry:
that entry keeps what is below the page, and the slot found next takes the rest. -/
def cutBelow (s : VirtualAddressMap) (frame : UInt64) (t : Slot)
    (i : Fin virtualAddressMapFreeBitmapLength) (off : Fin 64) : VirtualAddressMap :=
  (s.setLen t (frame - s.base t)).linkEntry i off (frame + pageSize)
    (s.len t - (frame - s.base t) - pageSize) t t

section

variable {i : Fin virtualAddressMapFreeBitmapLength} {off : Fin 64}

theorem base_cutBelow (s : VirtualAddressMap) (frame : UInt64) (t k : Slot)
    (i : Fin virtualAddressMapFreeBitmapLength) (off : Fin 64) :
    (s.cutBelow frame t i off).base k =
      if k = newIndex i off then frame + pageSize else s.base k := by
  rw [cutBelow, base_linkEntry, base_setLen]

theorem len_cutBelow (s : VirtualAddressMap) (frame : UInt64) (t k : Slot)
    (i : Fin virtualAddressMapFreeBitmapLength) (off : Fin 64) :
    (s.cutBelow frame t i off).len k =
      if k = newIndex i off then s.len t - (frame - s.base t) - pageSize
      else if k = t then frame - s.base t else s.len k := by
  rw [cutBelow, len_linkEntry, len_setLen]

/-- The first entry stays the first entry. -/
theorem Found.deref_cutBelow (h : s.Found frame [] t post) :
    (s.cutBelow frame t i off).deref .first = some t :=
  h.layout.first_eq

theorem Found.insertEntry_cutBelow (h : s.Found frame [] t post)
    (hio : s.findFreeSlot = some (i, off)) :
    (s.setLen t (frame - s.base t)).insertEntry .first (frame + pageSize)
      (s.len t - (frame - s.base t) - pageSize) = some (some (s.cutBelow frame t i off)) := by
  rw [cutBelow]
  exact insertEntry_link (s := s.setLen t (frame - s.base t)) (c := .first) (t := t)
    h.layout.first_eq (frame + pageSize) (s.len t - (frame - s.base t) - pageSize) hio (by simp)

/-- The call goes on from the map behind its first half. -/
theorem Found.freeMultiple_one_cutBelow (h : s.Found frame [] t post)
    (hlt : frame.toNat < s.lo t) (hio : s.findFreeSlot = some (i, off)) :
    s.pageVirtualFreeMultiple frame 1 =
      ((s.cutBelow frame t i off).pageVirtualFreeMultiplePlan frame 1).bind
        fun p => p.run (s.cutBelow frame t i off) := by
  have hle := s.lo_le_hi t
  have hfree : s.pageVirtualFree frame = some ⟨some 0, none, s.cutBelow frame t i off⟩ := by
    rw [h.free_cut (by omega)]
    exact h.layout.run_cut _ _ (h.insertEntry_cutBelow hio)
  rw [pageVirtualFreeMultiple, if_pos rfl, hfree]
  rfl

/-- The second half looks at the first entry again. -/
theorem Found.findEntry_cutBelow (h : s.Found frame [] t post) (hal : frame.toNat % 4096 = 0)
    (hlt : frame.toNat < s.lo t) :
    (s.cutBelow frame t i off).findEntry frame = some .first := by
  obtain ⟨htop, -⟩ := h.layout.toNat_page_end hal hlt
  have hnext : (s.cutBelow frame t i off).links.next t = some (newIndex i off) := by
    rw [cutBelow, links_linkEntry]
    simp [Heap.write]
  refine Heap.seek_stop (h.deref_cutBelow) hnext ?_
  rw [decide_eq_false_iff_not, base_cutBelow, if_pos rfl, UInt64.lt_iff_toNat_lt,
    show (frame + pageSize).toNat = _ from htop]
  omega

/-- What lies above the page ends where the first entry ended. -/
theorem Found.toNat_endOf_new (h : s.Found frame [] t post) :
    ((s.cutBelow frame t i off).endOf (newIndex i off)).toNat = s.hi t := by
  rw [← h.toNat_endOf, endOf, base_cutBelow, if_pos rfl, len_cutBelow, if_pos rfl, endOf]
  exact congrArg UInt64.toNat (rest_add_sub _ _ _ _)

/-- In another slot than that of the new entry, the first entry ends at the page. -/
theorem endOf_cutBelow (hself : newIndex i off ≠ t) :
    (s.cutBelow frame t i off).endOf t = frame := by
  rw [endOf, base_cutBelow, if_neg hself.symm, len_cutBelow, if_neg hself.symm, if_pos rfl,
    add_sub_self]

theorem endOf_cutBelow_of_ne {j : Slot} (hnew : j ≠ newIndex i off) (hjt : j ≠ t) :
    (s.cutBelow frame t i off).endOf j = s.endOf j := by
  rw [endOf, base_cutBelow, if_neg hnew, len_cutBelow, if_neg hnew, if_neg hjt, endOf]

theorem lo_cutBelow_of_ne {j : Slot} (hnew : j ≠ newIndex i off) :
    (s.cutBelow frame t i off).lo j = s.lo j := by
  rw [lo, base_cutBelow, if_neg hnew, lo]

/-- The slot found next is the slot of the first entry itself: the entry is the rest
of itself, and the second half cuts it again. -/
theorem Found.not_freesRange_cutBelow (h : s.Found frame [] t post)
    (hal : frame.toNat % 4096 = 0) (hlt : frame.toNat < s.lo t)
    (hio : s.findFreeSlot = some (i, off)) (hself : newIndex i off = t)
    (hnot : ¬ pages frame 1 ⊆ s.addresses) : ¬ s.FreesRange frame 1 := by
  obtain ⟨htop, hbelow⟩ := h.layout.toNat_page_end hal hlt
  have hend : ((s.cutBelow frame t i off).endOf t).toNat = s.hi t := by
    have hnew : ((s.cutBelow frame t i off).endOf (newIndex i off)).toNat = s.hi t :=
      h.toNat_endOf_new
    rw [← hnew, hself]
  rw [FreesRange, h.freeMultiple_one_cutBelow hlt hio]
  rintro ⟨o, ho, -, -, hminus⟩
  obtain ⟨p, hp, hrun⟩ := Option.bind_eq_some_iff.mp ho
  have hcode := (hminus hnot).1
  obtain ⟨c, t', hc, ht', ⟨hle', -⟩ | ⟨-, hnone | ⟨hzero, -⟩⟩⟩ := freeMultiplePlan_run hp hrun
  · obtain rfl := Option.some.inj ((h.findEntry_cutBelow hal hlt).symm.trans hc)
    obtain rfl := Option.some.inj ((h.deref_cutBelow).symm.trans ht')
    rw [UInt64.le_iff_toNat_le, hend, htop] at hle'
    have := h.layout.entry_self.lo_lt_hi
    omega
  · cases hnone.symm.trans hcode
  · cases hzero.symm.trans hcode

/-- The slot found next is another one: the second half refuses the call. -/
theorem Found.freeMultiple_cutBelow (h : s.Found frame [] t post)
    (hal : frame.toNat % 4096 = 0) (hlt : frame.toNat < s.lo t)
    (hio : s.findFreeSlot = some (i, off)) (hself : newIndex i off ≠ t) :
    s.pageVirtualFreeMultiple frame 1 = some ⟨some (-1), none, s.cutBelow frame t i off⟩ := by
  obtain ⟨htop, -⟩ := h.layout.toNat_page_end hal hlt
  rw [h.freeMultiple_one_cutBelow hlt hio,
    VirtualAddressMap.freeMultiplePlan_eq (h.findEntry_cutBelow hal hlt) h.deref_cutBelow, if_pos]
  · rfl
  · rw [endOf_cutBelow hself, UInt64.le_iff_toNat_le, htop]
    omega

/-- If it is not on the list, the new entry covers all that the first entry covered. -/
theorem Found.freesRange_cutBelow (h : s.Found frame [] t post)
    (hal : frame.toNat % 4096 = 0) (hlt : frame.toNat < s.lo t)
    (hio : s.findFreeSlot = some (i, off)) (hnew : newIndex i off ∉ t :: post)
    (hnot : ¬ pages frame 1 ⊆ s.addresses) : s.FreesRange frame 1 := by
  obtain ⟨htop, hbelow⟩ := h.layout.toNat_page_end hal hlt
  have hself : newIndex i off ≠ t := fun heq => hnew (by simp [heq])
  have hholds : (s.cutBelow frame t i off).links.Holds (t :: newIndex i off :: post) := by
    rw [cutBelow, links_linkEntry, ← next_eq_links]
    exact (h.layout.holds_setLen _).insert_after hnew
  refine ⟨_, h.freeMultiple_cutBelow hal hlt hio hself, ⟨_, hholds⟩, fun hsub => absurd hsub hnot,
    fun _ => ⟨rfl, ?_⟩⟩
  rintro a ⟨j, hj, hlo, hhi⟩
  by_cases hjt : j = t
  · subst hjt
    refine ⟨newIndex i off, hholds.onList_iff.mpr (by simp), ?_, ?_⟩
    · rw [lo, base_cutBelow, if_pos rfl]
      have : (frame + pageSize).toNat = frame.toNat + 4096 := htop
      omega
    · rwa [h.toNat_endOf_new]
  · have hmem := h.layout.holds.onList_iff.mp hj
    have hjk : j ≠ newIndex i off := fun heq => hnew (heq ▸ hmem)
    refine ⟨j, hholds.onList_iff.mpr ?_, ?_, ?_⟩
    · have : j ∈ post := by simpa [hjt] using hmem
      simp [this]
    · rwa [lo_cutBelow_of_ne hjk]
    · rwa [endOf_cutBelow_of_ne hjk hjt, (h.layout.entry j hmem).toNat_endOf]

/-- The slot of a later entry: that entry is lost. -/
theorem Found.not_freesRange_cutBelow_used (h : s.Found frame [] t post)
    (hal : frame.toNat % 4096 = 0) (hlt : frame.toNat < s.lo t)
    (hio : s.findFreeSlot = some (i, off)) (hself : newIndex i off ≠ t)
    (hused : s.links.OnList (newIndex i off)) (hnot : ¬ pages frame 1 ⊆ s.addresses) :
    ¬ s.FreesRange frame 1 := by
  rw [FreesRange, h.freeMultiple_cutBelow hal hlt hio hself]
  rintro ⟨o, ho, -, -, hminus⟩
  obtain rfl := Option.some.inj ho
  have hkpos := (h.layout.entry _ (h.layout.holds.onList_iff.mp hused)).lo_lt_hi
  have htk : s.hi t < s.lo (newIndex i off) := by
    rcases h.layout.onList_cases hused with ⟨hmem, -⟩ | heq | ⟨x, hx, hkx⟩
    · cases hmem
    · exact absurd heq hself
    · have := h.layout.gap x hx
      have := s.lo_le_hi x
      rcases hkx with hkx | hkx
      · rwa [hkx]
      · omega
  -- the start of that entry was covered
  obtain ⟨j, hj, hjlo, hjhi⟩ := (hminus hnot).2 ⟨_, hused, le_rfl, hkpos⟩
  by_cases hjk : j = newIndex i off
  · rw [hjk, h.toNat_endOf_new] at hjhi
    omega
  by_cases hjt : j = t
  · subst hjt
    rw [endOf_cutBelow hself] at hjhi
    have := s.lo_le_hi j
    omega
  obtain ⟨s', hs', hlist, -⟩ := insertEntry_used (h.layout.holds_setLen _) hio
    (by simpa using hused) (h.insertEntry_cutBelow hio)
  obtain rfl := Option.some.inj hs'
  have hjon : s.links.OnList j := by simpa using hlist j hj
  rw [lo_cutBelow_of_ne hjk] at hjlo
  rw [endOf_cutBelow_of_ne hjk hjt,
    (h.layout.entry j (h.layout.holds.onList_iff.mp hjon)).toNat_endOf] at hjhi
  exact hjk (h.layout.eq_of_mem hjon hused ⟨hjlo, hjhi⟩ ⟨le_rfl, hkpos⟩)

end

/-- A single page below the first entry: the first half cuts that entry, and the
second half refuses the call if the entry is still in its slot. -/
theorem Found.freesRange_one_below (h : s.Found frame pre t post) (hslot : ¬ s.Full)
    (hal : frame.toNat % 4096 = 0) (hlt : frame.toNat < s.lo t) :
    s.FreesRange frame 1 ↔ s.BelowFirst frame := by
  obtain rfl : pre = [] := by
    by_contra hpre
    have := h.below hpre
    have := s.lo_le_hi t
    omega
  have hnot : ¬ pages frame 1 ⊆ s.addresses := by
    intro hsub
    have := h.lo_le_of_covered (by decide) hsub
    omega
  obtain ⟨⟨i, off⟩, hio⟩ := Option.ne_none_iff_exists'.mp hslot
  by_cases hused : s.links.OnList (newIndex i off)
  · refine iff_of_false ?_ fun hbelow => hbelow.2 i off hio hused
    by_cases hself : newIndex i off = t
    · exact h.not_freesRange_cutBelow hal hlt hio hself hnot
    · exact h.not_freesRange_cutBelow_used hal hlt hio hself hused hnot
  · have hnew : newIndex i off ∉ t :: post :=
      fun hmem => hused (h.layout.holds.onList_iff.mpr hmem)
    refine iff_of_true (h.freesRange_cutBelow hal hlt hio hnew hnot) ⟨fun j hj => ?_, ?_⟩
    · obtain rfl := Option.some.inj (h.layout.first_eq.symm.trans hj)
      exact hlt
    · intro i' off' hio'
      obtain ⟨rfl, rfl⟩ := Prod.mk.inj (Option.some.inj (hio.symm.trans hio'))
      exact hused

/-- `page_virtual_free_multiple` keeps its promise exactly on the inputs that
`FreeMultipleServes` describes. -/
theorem freesRange_iff (h : s.WellFormed) (hslot : ¬ s.Full) (hal : frame.toNat % 4096 = 0)
    (hzero : count ≠ 0) : s.FreesRange frame count ↔ s.FreeMultipleServes frame count := by
  obtain ⟨pre, t, post, hf⟩ := h.found frame
  by_cases hone : count = 1
  · subst hone
    by_cases hge : s.hi t ≤ frame.toNat
    · exact hf.freesRange_one_refused hslot hge
    by_cases hlow : frame.toNat < s.lo t
    · rw [hf.freesRange_one_below hslot hal hlow, FreeMultipleServes]
      refine ⟨fun hbelow => .inr (.inr ⟨rfl, hbelow⟩), ?_⟩
      rintro (⟨hone, -⟩ | ⟨-, hends⟩ | ⟨-, hbelow⟩)
      · exact absurd rfl hone
      · -- the first entry ends above the page
        have hle := hf.endsBy_iff.mp hends
        obtain ⟨htop, hend⟩ := hf.layout.toNat_page_end hal hlow
        have := hf.layout.entry_self.lo_lt_hi
        omega
      · exact hbelow
    · have hlo := not_lt.mp hlow
      have hlt := not_le.mp hge
      refine iff_of_false (hf.not_freesRange_one hslot hal hlo hlt) ?_
      have hsub : pages frame 1 ⊆ s.addresses := by
        have hin := hf.layout.page_le hal hlt
        rw [toNat_pageSize] at hin
        exact (hf.layout.pages_subset_iff hzero).mpr ⟨t, hf.layout.onList_self, hlo, hin⟩
      rintro (⟨hone, -⟩ | ⟨hnot, -⟩ | ⟨-, hbelow⟩)
      · exact hone rfl
      · exact hnot hsub
      · obtain ⟨k, hk⟩ := hf.layout.exists_first
        have := hbelow.1 k hk
        have := hf.layout.lo_le_of_first hk hf.layout.onList_self
        omega
  by_cases hret : s.hi t ≤ (frame + count <<< 12).toNat
  · exact hf.freesRange_refused hzero hone hret
  · exact hf.freesRange_cut hslot hzero hone hret

/-- The criterion for two pages in the middle of the first entry. -/
theorem freesRange_twoEntries_iff :
    twoEntries.FreesRange 0x82000 2 ↔ twoEntries.FreeMultipleServes 0x82000 2 :=
  freesRange_iff ⟨_, twoEntries_layout⟩ twoEntries_not_full (by decide) (by decide)

/-- The last two pages of the first entry: the call says that they are not
allocated. -/
theorem not_freesRange_twoEntries :
    twoEntries.WellFormed ∧ ¬ twoEntries.Full ∧ pages 0x83000 2 ⊆ twoEntries.addresses ∧
      ¬ twoEntries.FreesRange 0x83000 2 ∧
      ∃ o, twoEntries.pageVirtualFreeMultiple 0x83000 2 = some o ∧ o.code = some (-1) := by
  have hcov : pages 0x83000 2 ⊆ twoEntries.addresses :=
    (twoEntries_layout.pages_subset_iff (by decide)).mpr
      ⟨0, twoEntries_found.layout.onList_self, by decide, by decide⟩
  refine ⟨⟨_, twoEntries_layout⟩, twoEntries_not_full, hcov, ?_, _, rfl, rfl⟩
  rintro ⟨o, ho, -, hfree, -⟩
  obtain rfl := Option.some.inj ho
  cases (hfree hcov).1

end VirtualAddressMap

end Betelgeuse
