/-
What single calls do to the covered addresses.

`allocAtExact_iff` says for which addresses `page_virtual_alloc_at` keeps its
promise: the search stops one entry early when the address is the base of an
entry, and then the page is registered a second time.

`page_virtual_alloc` adds one byte to the first entry and not one page, so no
sequence of calls adds the pages that it reports (`neverRepeats_iff`).
-/
import Betelgeuse.VirtualMapPlace
import Betelgeuse.VirtualMapRun

open HeapList WordBitmap RangeList

namespace Betelgeuse

/-- The addresses of a page. -/
def page (frame : UInt64) : Set ℕ := Set.Ico frame.toNat (frame.toNat + 4096)

namespace VirtualAddressMap

variable {s : VirtualAddressMap} {pre post : List Slot} {t : Slot}

/-! ### `page_virtual_alloc_at` -/

/-- The call returns 1 and changes nothing if the page is covered, and otherwise
returns 0 and covers it, with the entries still apart. -/
def AllocAtExact (s : VirtualAddressMap) (frame : UInt64) : Prop :=
  ∃ o, s.pageVirtualAllocAt frame = some o ∧
    (o.code = some 1 ∧ o.map = s ∧ page frame ⊆ s.addresses ∨
      o.code = some 0 ∧ ¬ page frame ⊆ s.addresses ∧ o.map.WellFormed ∧
        o.map.addresses = s.addresses ∪ page frame)

section AllocAt

variable {frame : UInt64}

theorem page_subset_iff (hal : frame.toNat % 4096 = 0) (h : s.Layout (pre ++ t :: post))
    (hlo : s.lo t ≤ frame.toNat) (habove : ∀ x ∈ post.head?, frame.toNat < s.lo x) :
    page frame ⊆ s.addresses ↔ frame.toNat < s.hi t := by
  constructor
  · intro hsub
    by_contra hge
    exact h.not_mem_addresses (not_lt.mp hge) habove (hsub ⟨le_rfl, by omega⟩)
  · rintro hlt a ⟨hle, hgt⟩
    have hhi := h.entry_self.hi_aligned
    exact ⟨t, h.holds.onList_iff.mpr (by simp), by omega, by omega⟩

/-- The search is right for an address that is not the base of the next entry. -/
theorem Found.allocAt_exact (h : s.Found frame pre t post) (hslot : ¬ s.Full)
    (hfresh : s.FreshSlot) (hal : frame.toNat % 4096 = 0) (hlo : s.lo t ≤ frame.toNat)
    (hnw : frame.toNat + 4096 < 2 ^ 64) (habove : ∀ x ∈ post.head?, frame.toNat < s.lo x) :
    s.AllocAtExact frame := by
  have hcovered := page_subset_iff hal h.layout hlo habove
  have hgap : ∀ x ∈ post.head?, frame.toNat + 4096 ≤ s.lo x := by
    intro x hx
    have hxal := (h.layout.entry_head hx).aligned
    have hlt := habove x hx
    omega
  have hcall : s.pageVirtualAllocAt frame = (s.pageVirtualAllocAtPlan frame).bind (·.run s) := rfl
  rw [AllocAtExact, hcall, hcovered]
  simp only [pageVirtualAllocAtPlan, h.find, h.deref_eq, Option.bind_eq_bind, Option.bind_some,
    Option.pure_def, gt_iff_lt, UInt64.lt_iff_toNat_lt, ← UInt64.toNat_inj, h.toNat_endOf]
  by_cases hlt : frame.toNat < s.hi t
  · rw [if_pos hlt]
    exact ⟨⟨some 1, none, s⟩, rfl, .inl ⟨rfl, rfl, hlt⟩⟩
  rw [if_neg hlt]
  by_cases hend : s.hi t = frame.toNat
  · obtain ⟨s', hs', hadds⟩ := h.layout.extend_exact pageSize (by decide)
      (by rw [toNat_pageSize]; omega) h.page_gap
    rw [if_pos hend, Option.bind_some, Plan.run, hs']
    refine ⟨⟨some 0, none, s'⟩, rfl, .inr ⟨rfl, hlt, hadds.wellFormed, ?_⟩⟩
    rw [hadds.addresses, toNat_pageSize, hend, page]
  · obtain ⟨s', hs', hadds⟩ := (h.layout.place_exact frame pageSize none (.inr (.inr hfresh)) hal
      (by decide) (by decide) hnw (by omega) hgap).resolve_right fun hfull => hslot hfull.1
    rw [if_neg hend, ← apply_ite some, Option.bind_some]
    refine ⟨⟨some 0, none, s'⟩, hs', .inr ⟨rfl, hlt, hadds.wellFormed, ?_⟩⟩
    rw [hadds.addresses, toNat_pageSize, page]

/-- For the base of the next entry the page is registered a second time. -/
theorem Found.allocAt_duplicate {x : Slot} (h : s.Found frame pre t (x :: post))
    (hslot : ¬ s.Full) (hfresh : s.FreshSlot) (hbase : s.lo x = frame.toNat) :
    ¬ s.AllocAtExact frame ∧ page frame ⊆ s.addresses := by
  have hx := h.layout.entry x (by simp)
  have hgap := h.layout.gap x rfl
  have hcovered : page frame ⊆ s.addresses := by
    rintro a ⟨hle, hgt⟩
    have hhi := hx.hi_aligned
    have hxal := hx.aligned
    have hlt := hx.lo_lt_hi
    exact ⟨x, h.layout.holds.onList_iff.mpr (by simp), by omega, by omega⟩
  refine ⟨?_, hcovered⟩
  rintro ⟨o, ho, ⟨hone, -⟩ | ⟨-, hnot, -⟩⟩
  · -- the call ends in `INSERT`
    have hnext : s.nextBase t ≠ some (frame + pageSize) := by
      intro heq
      obtain ⟨y, hy, heq⟩ := h.layout.nextBase_eq_some.mp heq
      obtain rfl : x = y := Option.some.inj hy
      have hsum := congrArg UInt64.toNat heq
      rw [← lo, hbase, UInt64.toNat_add, toNat_pageSize] at hsum
      have := frame.toNat_lt
      omega
    have hcall : s.pageVirtualAllocAt frame =
        (s.pageVirtualAllocAtPlan frame).bind (·.run s) := rfl
    have hle : ¬ frame.toNat < s.hi t := by omega
    have hne : ¬ s.hi t = frame.toNat := by omega
    rw [hcall] at ho
    simp only [pageVirtualAllocAtPlan, h.find, h.deref_eq, Option.bind_eq_bind, Option.bind_some,
      Option.pure_def, gt_iff_lt, UInt64.lt_iff_toNat_lt, ← UInt64.toNat_inj, h.toNat_endOf,
      if_neg hle, if_neg hne, if_neg hnext] at ho
    cases hfree : s.findFreeSlot with
    | none => exact hslot hfree
    | some io =>
      obtain ⟨s', hs', -⟩ := insertEntry_spec h.layout.holds frame pageSize hfree
        (hfresh.not_mem h.layout _ _ hfree)
      simp only [Plan.run, perform, hs', Option.bind_eq_bind, Option.bind_some] at ho
      obtain rfl := Option.some.inj ho
      exact absurd (Option.some.inj hone) (by decide)
  · exact hnot hcovered

/-- An entry that starts at the address of a search is the first one or the one
behind the place where the search stops. -/
theorem Found.of_base_eq (h : s.Found frame pre t post) {k : Slot} (hk : s.links.OnList k)
    (hbase : s.base k = frame) : s.first = some k ∨ post.head? = some k := by
  have hlo : s.lo k = frame.toNat := congrArg UInt64.toNat hbase
  have hle := s.lo_le_hi
  have hkk := hle k
  rcases h.layout.onList_cases hk with ⟨hpre, hlt⟩ | rfl | ⟨x, hx, rfl | hkx⟩
  · have := h.below (List.ne_nil_of_mem hpre)
    omega
  · by_cases hpre : pre = []
    · subst hpre
      exact .inl h.layout.first_eq
    · have := h.below hpre
      omega
  · exact .inr hx
  · have := h.above x hx
    have := hle x
    omega

/-- The first entry does not stand behind another one. -/
theorem Layout.first_ne {x : Slot} (h : s.Layout (pre ++ t :: x :: post)) : s.first ≠ some x := by
  intro hx
  have h' : s.Layout ((pre ++ [t]) ++ x :: post) := by simpa using h
  have hhead : s.first = (pre ++ t :: x :: post).head? := h.holds.head?_eq
  refine h'.not_mem (k := x) (.inl ?_) rfl
  cases pre with
  | nil =>
    rw [hx] at hhead
    simpa using hhead
  | cons a pre =>
    rw [hx] at hhead
    have hax : x = a := by simpa using hhead
    simp [hax]

/-- `page_virtual_alloc_at` keeps its promise exactly for the addresses that are
the base of no entry but the first. -/
theorem allocAtExact_iff (h : s.WellFormed) (hslot : ¬ s.Full) (hfresh : s.FreshSlot)
    (hal : frame.toNat % 4096 = 0) (hfirst : ∀ t ∈ s.first, s.base t ≤ frame)
    (hnw : frame.toNat + 4096 < 2 ^ 64) :
    s.AllocAtExact frame ↔ ∀ t, s.links.OnList t → s.base t = frame → s.first = some t := by
  obtain ⟨pre, t, post, hf⟩ := h.found frame
  have hlo : s.lo t ≤ frame.toNat := by
    by_cases hpre : pre = []
    · subst hpre
      exact hfirst t hf.layout.first_eq
    · exact (hf.below hpre).le
  constructor
  · intro hexact k hk hbase
    rcases hf.of_base_eq hk hbase with hfst | hnext
    · exact hfst
    · obtain ⟨post, rfl⟩ : ∃ post', post = k :: post' :=
        ⟨post.tail, (List.cons_head?_tail hnext).symm⟩
      exact absurd hexact (hf.allocAt_duplicate hslot hfresh (congrArg UInt64.toNat hbase)).1
  · intro hbases
    refine hf.allocAt_exact hslot hfresh hal hlo hnw fun x hx => ?_
    obtain ⟨post, rfl⟩ : ∃ post', post = x :: post' := ⟨post.tail, (List.cons_head?_tail hx).symm⟩
    refine lt_of_le_of_ne (hf.above x rfl) fun heq => ?_
    -- the entry behind `t` is not the first one
    exact hf.layout.first_ne (hbases x (hf.layout.holds.onList_iff.mpr (by simp))
      (UInt64.toNat_inj.mp heq.symm))

/-- Two entries, in the slots 0 and 1. -/
def twoEntries : VirtualAddressMap where
  map := fun t =>
    if t = 0 then ⟨some 1, 0x5000, 0x80000⟩
    else if t = 1 then ⟨none, 0x1000, 0x90000⟩ else ⟨none, 0, 0⟩
  first := some 0
  freeBitmap := fun i => if i = 0 then 3 else 0

theorem twoEntries_layout : twoEntries.Layout ([0] ++ 1 :: []) := by
  refine ⟨⟨rfl, rfl, rfl⟩, by simp, fun t ht => ?_, ?_⟩
  · have hcases : t = 0 ∨ t = 1 := by simpa using ht
    rcases hcases with rfl | rfl
    · exact ⟨by decide, by decide, by decide, by decide⟩
    · exact ⟨by decide, by decide, by decide, by decide⟩
  · show List.IsChain _ [0, 1]
    refine List.isChain_cons_cons.mpr ⟨?_, by simp⟩
    show 0x85000 < 0x90000
    decide

theorem twoEntries_findFreeSlot : twoEntries.findFreeSlot = some (0, 63) := by decide

theorem twoEntries_freshSlot : twoEntries.FreshSlot := by
  intro i o hio hmem
  obtain ⟨rfl, rfl⟩ := Prod.mk.inj (Option.some.inj (twoEntries_findFreeSlot.symm.trans hio))
  have hlist := twoEntries_layout.holds.onList_iff.mp hmem
  exact absurd hlist (by decide)

theorem twoEntries_not_full : ¬ twoEntries.Full := by
  rw [Full, twoEntries_findFreeSlot]
  simp

theorem twoEntries_found : twoEntries.Found 0x90000 [] 0 [1] := by
  refine ⟨twoEntries_layout, rfl, fun x hx => ?_, fun h => absurd rfl h⟩
  obtain rfl : (1 : Slot) = x := by simpa using hx
  decide

/-- The criterion for the page behind the first entry. -/
theorem allocAtExact_twoEntries_iff :
    twoEntries.AllocAtExact 0x85000 ↔
      ∀ t, twoEntries.links.OnList t → twoEntries.base t = 0x85000 → twoEntries.first = some t :=
  allocAtExact_iff ⟨_, twoEntries_layout⟩ twoEntries_not_full twoEntries_freshSlot (by decide)
    (by rintro t ⟨⟩; decide) (by decide)

/-- The base of the second entry: its page is covered, and the call returns 0. -/
theorem not_allocAtExact_twoEntries :
    twoEntries.WellFormed ∧ ¬ twoEntries.Full ∧ twoEntries.FreshSlot ∧
      page 0x90000 ⊆ twoEntries.addresses ∧ ¬ twoEntries.AllocAtExact 0x90000 ∧
      ∃ o, twoEntries.pageVirtualAllocAt 0x90000 = some o ∧ o.code = some 0 := by
  obtain ⟨hnot, hcovered⟩ :=
    twoEntries_found.allocAt_duplicate twoEntries_not_full twoEntries_freshSlot (by decide)
  exact ⟨⟨_, twoEntries_layout⟩, twoEntries_not_full, twoEntries_freshSlot, hcovered, hnot, _,
    rfl, rfl⟩

end AllocAt

/-! ### `page_virtual_alloc` -/

/-- `k` calls in a row that all return 0: the frames they write, and the map
behind them. -/
def allocCalls : ℕ → VirtualAddressMap → Option (List UInt64 × VirtualAddressMap)
  | 0, s => some ([], s)
  | k + 1, s => do
    let o ← s.pageVirtualAlloc
    if o.code = some 0 then
      let frame ← o.frame
      let (frames, s') ← allocCalls k o.map
      return (frame :: frames, s')
    else none

/-- The frames are different pages that were not covered, and they are what is
covered in addition. -/
structure NeverRepeats (s : VirtualAddressMap) (frames : List UInt64) (s' : VirtualAddressMap) :
    Prop where
  aligned : ∀ f ∈ frames, f.toNat % 4096 = 0
  nodup : frames.Nodup
  fresh : ∀ f ∈ frames, Disjoint (page f) s.addresses
  covered : s'.addresses = s.addresses ∪ {a | ∃ f ∈ frames, a ∈ page f}

/-- On a well-formed map a call adds one byte to the first entry. -/
theorem Layout.pageVirtualAlloc_eq (h : s.Layout (t :: post)) :
    s.pageVirtualAlloc = some ⟨some 0, some (s.endOf t), s.setLen t (s.len t + 1)⟩ := by
  have h₀ : s.Layout ([] ++ t :: post) := h
  have ht := h₀.entry_self
  have hend := ht.toNat_endOf
  have hpos := ht.lo_lt_hi
  have hne : s.endOf t ≠ 0 := by
    intro hzero
    rw [hzero, UInt64.toNat_zero] at hend
    omega
  -- one byte more does not reach the next entry, which is page-aligned
  have hgap : ∀ x ∈ post.head?, s.base t + (s.len t + 1) ≠ s.base x := by
    intro x hx heq
    have hlt := h₀.gap x hx
    have hxal := (h₀.entry_head hx).aligned
    have hal := ht.hi_aligned
    have hsum := congrArg UInt64.toNat heq
    rw [← UInt64.add_assoc, UInt64.toNat_add, show s.base t + s.len t = s.endOf t from rfl,
      hend] at hsum
    have hone : (1 : UInt64).toNat = 1 := rfl
    have hfit := ht.fits
    rw [hone, ← lo] at hsum
    omega
  have hderef : s.deref .first = some t := h₀.deref_eq
  have hnext : s.next t = post.head? := h₀.next_eq
  rw [pageVirtualAlloc, pageVirtualAllocPlan, h.first_eq]
  simp only [Option.bind_eq_bind, Option.bind_some, if_neg hne, Option.pure_def, Plan.run, perform,
    hderef, next_setLen, hnext, base_setLen]
  cases hx : post.head? with
  | none => rfl
  | some x =>
    simp only [if_neg (hgap x hx)]
    rfl

/-- The second frame is not page-aligned. -/
theorem Layout.endOf_setLen_add_one (h : s.Layout (t :: post)) :
    ((s.setLen t (s.len t + 1)).endOf t).toNat = s.hi t + 1 := by
  have h₀ : s.Layout ([] ++ t :: post) := h
  have ht := h₀.entry_self
  have hal := ht.hi_aligned
  have hfit := ht.fits
  have hend := ht.toNat_endOf
  have hone : (1 : UInt64).toNat = 1 := rfl
  rw [endOf, base_setLen, len_setLen, if_pos rfl, ← UInt64.add_assoc, toNat_add_of_lt] <;>
    rw [show s.base t + s.len t = s.endOf t from rfl, hend, hone]
  omega

/-- After one call the page that it reported is covered in its first byte only. -/
theorem Layout.setLen_not_covered (h : s.Layout (t :: post)) :
    s.hi t + 1 ∉ (s.setLen t (s.len t + 1)).addresses := by
  have h₀ : s.Layout ([] ++ t :: post) := h
  have ht := h₀.entry_self
  have hal := ht.hi_aligned
  rintro ⟨k, hk, hlo, hhi⟩
  rw [links_setLen] at hk
  rw [lo_setLen] at hlo
  rcases List.mem_cons.mp (h.holds.onList_iff.mp hk) with rfl | hpost
  · have hone : (1 : UInt64).toNat = 1 := rfl
    have hfit := ht.fits
    have hadd : (s.len k + 1).toNat = (s.len k).toNat + 1 := by
      rw [toNat_add_of_lt] <;> rw [hone]
      rw [hi] at hfit hal
      omega
    have htop : (s.setLen k (s.len k + 1)).hi k = s.hi k + 1 := by
      rw [hi, base_setLen, len_setLen, if_pos rfl, hadd, hi]
      omega
    omega
  · -- a later entry starts at least a page above the end of the first one
    have hpair := h₀.apart.pairwise fun k _ => s.lo_le_hi k
    have hbelow := (List.pairwise_cons.mp hpair).1 k hpost
    have hkal := (h₀.entry k (by simp [hpost])).aligned
    omega

/-- The address a call writes to `*frame`, on any map. -/
theorem pageVirtualAlloc_frame (hfirst : s.first = some t) {o : Outcome}
    (ho : s.pageVirtualAlloc = some o) : o.frame = some (s.endOf t) := by
  rw [pageVirtualAlloc, pageVirtualAllocPlan, hfirst] at ho
  simp only [Option.bind_eq_bind, Option.bind_some, Option.pure_def] at ho
  split at ho
  · rw [Option.bind_some] at ho
    obtain ⟨r, -, rfl⟩ := Option.map_eq_some_iff.mp ho
    rfl
  · rw [Option.bind_some] at ho
    obtain ⟨r, -, rfl⟩ := Option.map_eq_some_iff.mp ho
    rfl

/-- No sequence of calls keeps the promise, except the empty one. -/
theorem neverRepeats_iff {k : ℕ} {frames : List UInt64} {s' : VirtualAddressMap}
    (h : s.WellFormed) (hrun : allocCalls k s = some (frames, s')) :
    NeverRepeats s frames s' ↔ k = 0 := by
  obtain ⟨l, hl⟩ := h
  obtain ⟨t, post, rfl⟩ := List.exists_cons_of_ne_nil hl.nonempty
  have h₀ : s.Layout ([] ++ t :: post) := hl
  have hend := h₀.entry_self.toNat_endOf
  have hal := h₀.entry_self.hi_aligned
  cases k with
  | zero =>
    obtain ⟨rfl, rfl⟩ := Prod.mk.inj (Option.some.inj hrun)
    exact iff_of_true ⟨by simp, List.nodup_nil, by simp, by simp⟩ rfl
  | succ k =>
    refine iff_of_false (fun hgood => ?_) (Nat.succ_ne_zero k)
    rw [allocCalls, hl.pageVirtualAlloc_eq] at hrun
    simp only [Option.bind_eq_bind, Option.bind_some, if_pos] at hrun
    obtain ⟨⟨rest, s''⟩, hrest, heq⟩ := Option.bind_eq_some_iff.mp hrun
    obtain ⟨rfl, rfl⟩ := Prod.mk.inj (Option.some.inj heq)
    cases k with
    | zero =>
      -- the page is not covered as a whole
      obtain ⟨rfl, rfl⟩ := Prod.mk.inj (Option.some.inj hrest)
      refine hl.setLen_not_covered ?_
      rw [hgood.covered]
      refine .inr ⟨_, List.mem_singleton.mpr rfl, ?_⟩
      rw [page, hend]
      exact ⟨by omega, by omega⟩
    | succ k =>
      -- the second frame is one byte above the first one
      obtain ⟨o, ho, hrest⟩ := Option.bind_eq_some_iff.mp hrest
      have hfirst : (s.setLen t (s.len t + 1)).first = some t := hl.first_eq
      have hframe := pageVirtualAlloc_frame hfirst ho
      split at hrest
      · rw [hframe] at hrest
        simp only [Option.bind_eq_bind, Option.bind_some] at hrest
        obtain ⟨⟨rest', s₂⟩, -, heq⟩ := Option.bind_eq_some_iff.mp hrest
        obtain ⟨rfl, rfl⟩ := Prod.mk.inj (Option.some.inj heq)
        have hsecond := hgood.aligned ((s.setLen t (s.len t + 1)).endOf t) (by simp)
        rw [hl.endOf_setLen_add_one] at hsecond
        omega
      · cases hrest

/-- The criterion for one call on the map that boot leaves. -/
theorem neverRepeats_initial_iff :
    NeverRepeats (initial 0x80000 0x5000) [0x85000] ((initial 0x80000 0x5000).setLen 0 0x5001) ↔
      1 = 0 :=
  neverRepeats_iff (k := 1) ⟨_, initial_layout (by decide) (by decide) (by decide) (by decide)⟩ rfl

/-- Two calls on that map report the addresses `0x85000` and `0x85001`. -/
theorem not_neverRepeats_initial :
    (initial 0x80000 0x5000).WellFormed ∧
      ∃ s', allocCalls 2 (initial 0x80000 0x5000) = some ([0x85000, 0x85001], s') ∧
        ¬ NeverRepeats (initial 0x80000 0x5000) [0x85000, 0x85001] s' := by
  refine ⟨⟨_, initial_layout (by decide) (by decide) (by decide) (by decide)⟩, _, rfl, fun h => ?_⟩
  exact absurd (h.aligned 0x85001 (by simp)) (by decide)

end VirtualAddressMap

end Betelgeuse
