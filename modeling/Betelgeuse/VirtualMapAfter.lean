/-
The `after` functions: one page or several from an address on.

All three search with `FIND_ENTRY_WITH_TRIPREF` and then ask whether the entry
they stopped at reaches up to the address.  If it does they extend it, and that
is right (`Found.afterGrow_run`).  If it does not, they take the address itself,
on the assumption that it lies in a gap.  That assumption fails for the base of
an entry other than the first, where the search stops one entry early because
its comparison is strict; and the two functions for several pages do not ask
there whether the gap is large enough.

The loop of `page_virtual_alloc_multiple_after_ex` reads through the null
pointer behind the last entry when no gap is large enough.
-/
import Betelgeuse.VirtualMapExact

open HeapList WordBitmap RangeList

namespace Betelgeuse

namespace VirtualAddressMap

variable (s : VirtualAddressMap)

/-- The address lies in the entry `k` or at its end, and is not the base of an
entry other than the first. -/
def InEntry (base : UInt64) (k : Slot) : Prop :=
  s.links.OnList k ∧ (s.lo k < base.toNat ∨ s.first = some k) ∧ base.toNat ≤ s.hi k

variable {s} {pre post : List Slot} {t : Slot} {base : UInt64}

/-! ### Where the search stops -/

theorem Found.lo_le (h : s.Found base pre t post) (hfirst : ∀ t ∈ s.first, s.base t ≤ base) :
    s.lo t ≤ base.toNat := by
  by_cases hpre : pre = []
  · subst hpre
    exact hfirst t h.layout.first_eq
  · exact (h.below hpre).le

/-- The search stops at the entry in which the address lies. -/
theorem Found.inEntry_iff (h : s.Found base pre t post) {k : Slot} :
    s.InEntry base k ↔ k = t ∧ base.toNat ≤ s.hi t := by
  constructor
  · rintro ⟨hk, hlo, hhi⟩
    rcases h.layout.onList_cases hk with ⟨hpre, hlt⟩ | rfl | ⟨x, hx, hkx⟩
    · have := h.below (List.ne_nil_of_mem hpre)
      omega
    · exact ⟨rfl, hhi⟩
    · -- an entry behind `t` starts at the address or above, and is not the first
      have habove := h.above x hx
      have hgap := h.layout.gap x hx
      have hxx := s.lo_le_hi x
      have htt := s.lo_le_hi t
      rcases hlo with hlo | hfirst
      · rcases hkx with rfl | hkx
        · omega
        · omega
      · have := h.layout.lo_le_of_first hfirst h.layout.onList_self
        rcases hkx with rfl | hkx
        · omega
        · omega
  · rintro ⟨rfl, hhi⟩
    refine ⟨h.layout.onList_self, ?_, hhi⟩
    by_cases hpre : pre = []
    · subst hpre
      exact .inr h.layout.first_eq
    · exact .inl (h.below hpre)

/-- The entry that starts at the address itself is the next one, unless it is
the first. -/
theorem Found.head_of_lo_eq (h : s.Found base pre t post) (hlt : s.hi t < base.toNat) {k : Slot}
    (hk : s.links.OnList k) (hlo : s.lo k = base.toNat) : k ∈ post.head? := by
  have hle := s.lo_le_hi
  rcases h.layout.onList_cases hk with ⟨-, hkt⟩ | rfl | ⟨x, hx, rfl | hkx⟩
  · have := hle k
    have := hle t
    omega
  · have := hle k
    omega
  · exact hx
  · have := h.above x hx
    have := hle x
    omega

/-- Extend the entry in which the address lies, or at whose end. -/
theorem Found.afterGrow_run (h : s.Found base pre t post) {bytes : UInt64} {n : ℕ}
    (hn : bytes.toNat = n) (hw : n % 4096 = 0) (hlo : s.lo t ≤ base.toNat)
    (hle : base.toNat ≤ s.hi t) (hpos : 0 < n) (hfit : s.hi t + n < 2 ^ 64)
    (hfree : s.Free (s.hi t) n) :
    ∃ s', Plan.run s ⟨some (s.endOf t),
        .growUp (cellAfter pre) bytes (s.base t + (s.len t + bytes))⟩ =
        some ⟨some 0, some (s.endOf t), s'⟩ ∧
      IsLeast (s.freeFrom base n) (s.endOf t).toNat ∧ s.Adds (s.endOf t).toNat n s' := by
  subst hn
  have hgap := (h.layout.free_iff_gap le_rfl fun x hx => (h.layout.gap x hx).le).mp hfree
  obtain ⟨s', hs', hadds⟩ := h.layout.extend_exact bytes hw hfit hgap
  rw [h.toNat_endOf]
  refine ⟨s', ?_, h.layout.isLeast_hi hlo hle hpos hfree, hadds⟩
  rw [Plan.run, hs']
  rfl

/-! ### `page_virtual_alloc_after` -/

/-- The call returns; if it returns 0, `*frame` is the lowest free page at or
above `base`, and the map is well-formed and covers that page in addition. -/
def AllocAfterExact (s : VirtualAddressMap) (base : UInt64) : Prop :=
  ∃ o, s.pageVirtualAllocAfter base = some o ∧
    (o.code = some 0 → ∃ f, o.frame = some f ∧ IsLeast (s.freeFrom base 4096) f.toNat ∧
      s.Adds f.toNat 4096 o.map)

theorem Found.allocAfterPlan_eq (h : s.Found base pre t post) :
    s.pageVirtualAllocAfterPlan base = some (if base.toNat ≤ s.hi t
      then ⟨some (s.endOf t), .growUp (cellAfter pre) pageSize (s.base t + (s.len t + pageSize))⟩
      else s.placePlan (cellAfter pre) t base pageSize (some base)) := by
  simp only [pageVirtualAllocAfterPlan, h.find, h.deref_eq, Option.bind_eq_bind,
    Option.bind_some, Option.pure_def, ge_iff_le, UInt64.le_iff_toNat_le, h.toNat_endOf, placePlan]
  split
  · rfl
  · split
    · rfl
    · rfl

theorem Found.allocAfter_eq (h : s.Found base pre t post) :
    s.pageVirtualAllocAfter base = Plan.run s (if base.toNat ≤ s.hi t
      then ⟨some (s.endOf t), .growUp (cellAfter pre) pageSize (s.base t + (s.len t + pageSize))⟩
      else s.placePlan (cellAfter pre) t base pageSize (some base)) := by
  have hcall : s.pageVirtualAllocAfter base =
      (s.pageVirtualAllocAfterPlan base).bind (·.run s) := rfl
  rw [hcall, h.allocAfterPlan_eq, Option.bind_some]

/-- The call is right for an address that is not the base of the next entry. -/
theorem Found.allocAfter_exact (h : s.Found base pre t post) (hfresh : s.FreshSlot)
    (hal : base.toNat % 4096 = 0) (hlo : s.lo t ≤ base.toNat)
    (hfit : max (s.hi t) base.toNat + 4096 < 2 ^ 64)
    (hnext : s.hi t < base.toNat → ∀ x ∈ post.head?, s.lo x ≠ base.toNat) :
    s.AllocAfterExact base := by
  rw [AllocAfterExact, h.allocAfter_eq]
  by_cases hle : base.toNat ≤ s.hi t
  · obtain ⟨s', hs', hleast, hadds⟩ := h.afterGrow_run toNat_pageSize (by decide) hlo hle
      (by decide) (by omega) h.layout.free_page
    rw [if_pos hle]
    exact ⟨_, hs', fun _ => ⟨_, rfl, hleast, hadds⟩⟩
  · have hgap : ∀ x ∈ post.head?, base.toNat + pageSize.toNat ≤ s.lo x := by
      intro x hx
      have hne := hnext (not_le.mp hle) x hx
      have habove := h.above x hx
      have hxal := (h.layout.entry_head hx).aligned
      rw [toNat_pageSize]
      omega
    have hfree := h.layout.free_gap (not_le.mp hle).le hgap
    rw [if_neg hle]
    rcases h.layout.place_exact base pageSize (some base) (.inr (.inr hfresh)) hal (by decide)
        (by decide) (by rw [toNat_pageSize]; omega) (not_le.mp hle) hgap with
      ⟨s', hs', hadds⟩ | ⟨-, hs'⟩
    · rw [toNat_pageSize] at hadds hfree
      exact ⟨_, hs', fun _ => ⟨base, rfl, isLeast_base hal hfree, hadds⟩⟩
    · -- without a slot the call returns -1
      exact ⟨_, hs', fun hcode => by cases hcode⟩

/-- For the base of the next entry the call takes a page that is covered. -/
theorem Found.allocAfter_duplicate (h : s.Found base pre t post) (hlt : s.hi t < base.toNat)
    (hfit : base.toNat + 4096 < 2 ^ 64) {x : Slot} (hx : x ∈ post.head?)
    (hbase : s.lo x = base.toNat) : s.AllocAfterExact base ↔ s.Full := by
  have hne : s.nextBase t ≠ some (base + pageSize) := by
    refine h.layout.nextBase_ne (by rwa [toNat_pageSize]) fun y hy heq => ?_
    obtain rfl : x = y := Option.some.inj (Eq.trans (Eq.symm hx) hy)
    rw [toNat_pageSize] at heq
    omega
  rw [AllocAfterExact, h.allocAfter_eq, if_neg (by omega)]
  constructor
  · rintro ⟨o, ho, hexact⟩
    by_contra hslot
    obtain ⟨f, hf, hleast, -⟩ := hexact (place_inserts hslot hne ho)
    obtain rfl : base = f := by
      rw [(placePlan_run ho).1] at hf
      exact Option.some.inj hf
    have hpos := (h.layout.entry_head hx).lo_lt_hi
    exact not_free (h.layout.onList_head hx) hbase.le (by omega) le_rfl (by omega) hleast.1.2.2
  · intro hfull
    exact ⟨_, place_refused hfull hne _ _, fun hcode => by cases hcode⟩

/-- `page_virtual_alloc_after` keeps its promise exactly if there is no slot or
the address is the base of no entry but the first. -/
theorem allocAfterExact_iff (h : s.WellFormed) (hfresh : s.FreshSlot)
    (hal : base.toNat % 4096 = 0) (hfirst : ∀ t ∈ s.first, s.base t ≤ base)
    (hnw : s.NoWrap (.allocAfter base)) :
    s.AllocAfterExact base ↔
      s.Full ∨ ∀ t, s.links.OnList t → s.base t = base → s.first = some t := by
  obtain ⟨pre, t, post, hf⟩ := h.found base
  have hlo := hf.lo_le hfirst
  have hfit : max (s.hi t) base.toNat + 4096 < 2 ^ 64 :=
    hnw.fits (by rw [range, hf.stopFind_eq, Option.map_some])
  by_cases hnext : s.hi t < base.toNat → ∀ x ∈ post.head?, s.lo x ≠ base.toNat
  · refine iff_of_true (hf.allocAfter_exact hfresh hal hlo hfit hnext) (.inr fun k hk hbase => ?_)
    refine (hf.of_base_eq hk hbase).resolve_right fun hx => ?_
    have hgap := hf.layout.gap k hx
    have hkb : s.lo k = base.toNat := congrArg UInt64.toNat hbase
    exact hnext (by omega) k hx hkb
  · push Not at hnext
    obtain ⟨hlt, x, hx, hbase⟩ := hnext
    rw [hf.allocAfter_duplicate hlt (by omega) hx hbase]
    refine (or_iff_left fun hbases => ?_).symm
    -- the entry behind `t` is not the first one
    obtain ⟨post, rfl⟩ : ∃ post', post = x :: post' := ⟨post.tail, (List.cons_head?_tail hx).symm⟩
    exact hf.layout.first_ne (hbases x (hf.layout.onList_head hx) (UInt64.toNat_inj.mp hbase))

/-- The criterion for the page behind the first entry. -/
theorem allocAfterExact_twoEntries_iff :
    twoEntries.AllocAfterExact 0x85000 ↔ twoEntries.Full ∨
      ∀ t, twoEntries.links.OnList t → twoEntries.base t = 0x85000 → twoEntries.first = some t :=
  allocAfterExact_iff ⟨_, twoEntries_layout⟩ twoEntries_freshSlot (by decide)
    (by rintro t ⟨⟩; decide) (by rintro r ⟨⟩; decide)

/-- From the base of the second entry on: the call returns 0 and reports that
entry's own page. -/
theorem not_allocAfterExact_twoEntries :
    twoEntries.WellFormed ∧ twoEntries.FreshSlot ∧ twoEntries.NoWrap (.allocAfter 0x90000) ∧
      ¬ twoEntries.AllocAfterExact 0x90000 ∧
      ∃ o, twoEntries.pageVirtualAllocAfter 0x90000 = some o ∧ o.code = some 0 ∧
        o.frame = some 0x90000 := by
  refine ⟨⟨_, twoEntries_layout⟩, twoEntries_freshSlot, by rintro r ⟨⟩; decide, ?_,
    _, rfl, rfl, rfl⟩
  rw [twoEntries_found.allocAfter_duplicate (by decide) (by decide) (x := 1) rfl rfl]
  exact twoEntries_not_full

/-! ### `page_virtual_alloc_multiple_after` -/

section MultipleAfter

variable {allocCount : UInt64}

/-- With `f` the lowest free page at or above `base`: if a page of the range
from `f` on is covered the call returns 1 and changes nothing, and otherwise, if
a slot can be found, it returns 0 and adds that range. -/
def MultipleAfterExact (s : VirtualAddressMap) (base allocCount : UInt64) : Prop :=
  ∃ o, ∃ f : UInt64, s.pageVirtualAllocMultipleAfter base allocCount = some o ∧
    IsLeast (s.freeFrom base 4096) f.toNat ∧
    (¬ s.Free f.toNat (allocCount.toNat * 4096) → o.code = some 1 ∧ o.map = s) ∧
    (s.Free f.toNat (allocCount.toNat * 4096) → ¬ s.Full → o.code = some 0 ∧ o.frame = some f ∧
      s.Adds f.toNat (allocCount.toNat * 4096) o.map)

/-- `base` lies in an entry or at its end; or its range is free and can be
registered; or there is no slot, `base` starts an entry, and the range behind
that entry is free. -/
def MultipleAfterServes (s : VirtualAddressMap) (base allocCount : UInt64) : Prop :=
  (∃ k, s.InEntry base k) ∨
  (s.Free base.toNat (allocCount.toNat * 4096) ∧
    (s.Full ∨ s.SlotFor (base.toNat + allocCount.toNat * 4096))) ∨
  (s.Full ∧ ∃ x, s.links.OnList x ∧ s.lo x = base.toNat ∧
    s.Free (s.hi x) (allocCount.toNat * 4096))

theorem Found.allocMultipleAfter_eq (h : s.Found base pre t post) (hcount : allocCount ≠ 0) :
    s.pageVirtualAllocMultipleAfter base allocCount = Plan.run s (if base.toNat ≤ s.hi t
      then if (s.nextBase t).any (· < s.endOf t + allocCount <<< 12) then
          ⟨some (s.endOf t), .ret 1⟩
        else ⟨some (s.endOf t), .growUp (cellAfter pre) (allocCount <<< 12)
          (s.base t + (s.len t + allocCount <<< 12))⟩
      else s.placePlan (cellAfter pre) t base (allocCount <<< 12) (some base)) := by
  have hcall : s.pageVirtualAllocMultipleAfter base allocCount =
      (s.pageVirtualAllocMultipleAfterPlan base allocCount).bind (·.run s) := rfl
  rw [hcall]
  simp only [pageVirtualAllocMultipleAfterPlan, if_neg hcount, h.find, h.deref_eq,
    Option.bind_eq_bind, Option.bind_some, Option.pure_def, ge_iff_le, UInt64.le_iff_toNat_le,
    h.toNat_endOf, placePlan]
  split
  · split
    · rfl
    · rfl
  · split
    · rfl
    · rfl

/-- Inside an entry or at its end the call looks whether the gap is large enough. -/
theorem Found.multipleAfter_grow (h : s.Found base pre t post) (hcount : allocCount ≠ 0)
    (hlo : s.lo t ≤ base.toNat) (hle : base.toNat ≤ s.hi t)
    (hfit : s.hi t + allocCount.toNat * 4096 < 2 ^ 64) : s.MultipleAfterExact base allocCount := by
  have hpos := ne_zero_iff_pos.mp hcount
  have hbytes := toNat_shiftLeft_page (n := allocCount) (by omega)
  have hend := h.toNat_endOf
  have htop : (s.endOf t + allocCount <<< 12).toNat = s.hi t + allocCount.toNat * 4096 := by
    rw [toNat_add_of_lt] <;> rw [hend, hbytes]
    exact hfit
  have hfree := h.layout.free_iff_gap (n := allocCount.toNat * 4096) le_rfl fun x hx =>
    (h.layout.gap x hx).le
  -- the code's test is whether the room behind the entry is taken
  have hblock : (s.nextBase t).any (· < s.endOf t + allocCount <<< 12) = true ↔
      ¬ s.Free (s.hi t) (allocCount.toNat * 4096) := by
    rw [hfree, h.layout.nextBase_lt, htop]
    push Not
    rfl
  have hleast : IsLeast (s.freeFrom base 4096) (s.endOf t).toNat := by
    rw [hend]
    exact h.layout.isLeast_hi hlo hle (by decide) h.layout.free_page
  rw [MultipleAfterExact, h.allocMultipleAfter_eq hcount, if_pos hle]
  by_cases hblocked : (s.nextBase t).any (· < s.endOf t + allocCount <<< 12) = true
  · have hnot := hblock.mp hblocked
    rw [if_pos hblocked]
    refine ⟨_, s.endOf t, rfl, hleast, fun _ => ⟨rfl, rfl⟩, fun hfree => ?_⟩
    rw [hend] at hfree
    exact absurd hfree hnot
  · have hroom := not_not.mp fun hnot => hblocked (hblock.mpr hnot)
    obtain ⟨s', hs', -, hadds⟩ := h.afterGrow_run hbytes (by omega) hlo hle (by omega) hfit hroom
    rw [if_neg hblocked]
    refine ⟨_, s.endOf t, hs', hleast, fun hnot => ?_, fun _ _ => ⟨rfl, rfl, hadds⟩⟩
    rw [hend] at hnot
    exact absurd hroom hnot

/-- In a gap, with no entry at the address itself, the call needs the range to
be free and to be registered. -/
theorem Found.multipleAfter_place (h : s.Found base pre t post) (hcount : allocCount ≠ 0)
    (hal : base.toNat % 4096 = 0) (hlt : s.hi t < base.toNat)
    (hfit : base.toNat + allocCount.toNat * 4096 < 2 ^ 64)
    (hnext : ∀ x ∈ post.head?, s.lo x ≠ base.toNat) :
    s.MultipleAfterExact base allocCount ↔ s.Free base.toNat (allocCount.toNat * 4096) ∧
      (s.Full ∨ s.SlotFor (base.toNat + allocCount.toNat * 4096)) := by
  have hpos := ne_zero_iff_pos.mp hcount
  have hbytes := toNat_shiftLeft_page (n := allocCount) (by omega)
  -- no entry starts at the base, so that its page is free
  have hpage : s.Free base.toNat 4096 := by
    refine h.layout.free_gap hlt.le fun x hx => ?_
    have hne := hnext x hx
    have habove := h.above x hx
    have hxal := (h.layout.entry_head hx).aligned
    omega
  have hleast := isLeast_base hal hpage
  have hfree := h.layout.free_iff_gap (n := allocCount.toNat * 4096) hlt.le h.above
  have hserves := h.layout.place_serves_iff (allocCount <<< 12) (some base)
    (s.Free base.toNat (allocCount.toNat * 4096)) hal (by omega) (by omega) (by omega) hlt
    (by rwa [hbytes])
  rw [hbytes] at hserves
  rw [MultipleAfterExact, h.allocMultipleAfter_eq hcount, if_neg (by omega), ← hserves]
  -- a failed call has changed nothing, and the base is the least page in any case
  refine exists_congr fun o => ⟨?_, ?_⟩
  · rintro ⟨f, ho, hf, hone, hzero⟩
    obtain heq : f.toNat = base.toNat := hf.unique hleast
    rw [heq] at hone hzero
    refine ⟨ho, hone, fun hroom hslot => ?_⟩
    obtain ⟨hcode, -, hadds⟩ := hzero hroom hslot
    exact ⟨hcode, hadds⟩
  · rintro ⟨ho, hone, hzero⟩
    refine ⟨base, ho, hleast, hone, fun hroom hslot => ?_⟩
    obtain ⟨hcode, hadds⟩ := hzero hroom hslot
    exact ⟨hcode, (placePlan_run ho).1, hadds⟩

/-- From the base of the next entry on, the call can only be refused for lack of
a slot. -/
theorem Found.multipleAfter_duplicate {x : Slot} (h : s.Found base pre t (x :: post))
    (hcount : allocCount ≠ 0) (hlt : s.hi t < base.toNat)
    (hfit : base.toNat + allocCount.toNat * 4096 < 2 ^ 64) (hbase : s.lo x = base.toNat) :
    s.MultipleAfterExact base allocCount ↔
      s.Full ∧ s.Free (s.hi x) (allocCount.toNat * 4096) := by
  have hpos := ne_zero_iff_pos.mp hcount
  have hbytes := toNat_shiftLeft_page (n := allocCount) (by omega)
  have hx : s.Layout ((pre ++ [t]) ++ x :: post) := by simpa using h.layout
  have hend := hx.entry_self.toNat_endOf
  -- the lowest free page is the one behind the entry that starts at `base`
  have hleast : IsLeast (s.freeFrom base 4096) (s.endOf x).toNat := by
    rw [hend]
    exact hx.isLeast_hi hbase.le (hbase ▸ s.lo_le_hi x) (by decide) hx.free_page
  have hne : s.nextBase t ≠ some (base + allocCount <<< 12) := by
    refine h.layout.nextBase_ne (by rwa [hbytes]) fun y hy heq => ?_
    obtain rfl : x = y := Option.some.inj hy
    rw [hbytes] at heq
    omega
  rw [MultipleAfterExact, h.allocMultipleAfter_eq hcount, if_neg (by omega)]
  constructor
  · rintro ⟨o, f, ho, hf, hone, hzero⟩
    obtain heq : f.toNat = (s.endOf x).toNat := hf.unique hleast
    rw [heq, hend] at hone hzero
    obtain ⟨hframe, hcode⟩ := placePlan_run ho
    have hroom : s.Free (s.hi x) (allocCount.toNat * 4096) := by
      by_contra hnot
      have hone := (hone hnot).1
      rcases hcode with hcode | hcode
      · cases hone.symm.trans hcode
      · cases hone.symm.trans hcode
    refine ⟨?_, hroom⟩
    -- with a slot it reports `base` itself
    by_contra hslot
    have hbf : base = f := Option.some.inj (hframe.symm.trans (hzero hroom hslot).2.1)
    have hxpos := hx.entry_self.lo_lt_hi
    rw [← hbf, hend] at heq
    omega
  · rintro ⟨hfull, hroom⟩
    refine ⟨_, s.endOf x, place_refused hfull hne _ _, hleast, fun hnot => ?_,
      fun _ hslot => absurd hfull hslot⟩
    rw [hend] at hnot
    exact absurd hroom hnot

/-- `page_virtual_alloc_multiple_after` keeps its promise exactly on the inputs
that `MultipleAfterServes` describes. -/
theorem multipleAfterExact_iff (h : s.WellFormed) (hcount : allocCount ≠ 0)
    (hal : base.toNat % 4096 = 0) (hfirst : ∀ t ∈ s.first, s.base t ≤ base)
    (hnw : s.NoWrap (.allocMultipleAfter base allocCount)) :
    s.MultipleAfterExact base allocCount ↔ s.MultipleAfterServes base allocCount := by
  obtain ⟨pre, t, post, hf⟩ := h.found base
  have hlo := hf.lo_le hfirst
  have hpos := ne_zero_iff_pos.mp hcount
  have hfit : max (s.hi t) base.toNat + allocCount.toNat * 4096 < 2 ^ 64 :=
    hnw.fits (by rw [range, hf.stopFind_eq, Option.map_some])
  rw [MultipleAfterServes]
  by_cases hle : base.toNat ≤ s.hi t
  · refine iff_of_true (hf.multipleAfter_grow hcount hlo hle (by omega)) (.inl ⟨t, ?_⟩)
    exact hf.inEntry_iff.mpr ⟨rfl, hle⟩
  -- the base lies in no entry: it is placed there, or an entry starts at it
  have hlt := not_le.mp hle
  have hin : ¬ ∃ k, s.InEntry base k := by
    rintro ⟨k, hk⟩
    exact hle (hf.inEntry_iff.mp hk).2
  rw [or_iff_right hin]
  by_cases hnext : ∀ x ∈ post.head?, s.lo x ≠ base.toNat
  · rw [hf.multipleAfter_place hcount hal hlt (by omega) hnext]
    refine (or_iff_left ?_).symm
    rintro ⟨-, x, hx, hbase, -⟩
    exact hnext x (hf.head_of_lo_eq hlt hx hbase) hbase
  · push Not at hnext
    obtain ⟨x, hx, hbase⟩ := hnext
    obtain ⟨post, rfl⟩ : ∃ post', post = x :: post' := ⟨post.tail, (List.cons_head?_tail hx).symm⟩
    have hxlist := hf.layout.onList_head hx
    have hxpos := (hf.layout.entry_head hx).lo_lt_hi
    rw [hf.multipleAfter_duplicate hcount hlt (by omega) hbase, or_iff_right]
    · constructor
      · rintro ⟨hfull, hroom⟩
        exact ⟨hfull, x, hxlist, hbase, hroom⟩
      · rintro ⟨hfull, y, hy, hyb, hroom⟩
        obtain rfl : x = y := Option.some.inj (hf.head_of_lo_eq hlt hy hyb)
        exact ⟨hfull, hroom⟩
    · rintro ⟨hroom, -⟩
      exact not_free hxlist hbase.le (by omega) le_rfl (by omega) hroom

/-- The criterion for two pages behind the first entry. -/
theorem multipleAfterExact_twoEntries_iff :
    twoEntries.MultipleAfterExact 0x85000 2 ↔ twoEntries.MultipleAfterServes 0x85000 2 :=
  multipleAfterExact_iff ⟨_, twoEntries_layout⟩ (by decide) (by decide) (by rintro t ⟨⟩; decide)
    (by rintro r ⟨⟩; decide)

/-- Two pages from the last page of the gap on: the second one is covered, and
the call returns 0. -/
theorem not_multipleAfterExact_twoEntries :
    twoEntries.WellFormed ∧ twoEntries.FreshSlot ∧ ¬ twoEntries.Full ∧
      twoEntries.NoWrap (.allocMultipleAfter 0x8F000 2) ∧
      ¬ twoEntries.MultipleAfterExact 0x8F000 2 ∧
      ∃ o, twoEntries.pageVirtualAllocMultipleAfter 0x8F000 2 = some o ∧ o.code = some 0 := by
  have hnw : twoEntries.NoWrap (.allocMultipleAfter 0x8F000 2) := by
    rintro r ⟨⟩
    decide
  refine ⟨⟨_, twoEntries_layout⟩, twoEntries_freshSlot, twoEntries_not_full, hnw, fun hexact => ?_,
    _, rfl, rfl⟩
  have hf : twoEntries.Found 0x8F000 [] 0 [1] := by
    refine ⟨twoEntries_layout, rfl, fun x hx => ?_, fun h => absurd rfl h⟩
    obtain rfl : (1 : Slot) = x := by simpa using hx
    decide
  have hroom := ((hf.multipleAfter_place (by decide) (by decide) (by decide) (by decide)
    fun x hx => by
      obtain rfl : (1 : Slot) = x := by simpa using hx
      decide).mp hexact).1
  have hsecond := hf.layout.onList_head (x := 1) rfl
  exact not_free hsecond (c := 0x90000) (by decide) (by decide) (by decide) (by decide) hroom

end MultipleAfter

/-! ### `page_virtual_alloc_multiple_after_ex` -/

section MultipleAfterEx

variable {allocCount : UInt64}

/-- The call returns 0, `*frame` is the lowest address at or above `base` from
which the pages are free, and they are added. -/
def MultipleAfterExExact (s : VirtualAddressMap) (base allocCount : UInt64) : Prop :=
  ∃ o f, s.pageVirtualAllocMultipleAfterEx base allocCount = some o ∧ o.code = some 0 ∧
    o.frame = some f ∧ IsLeast (s.freeFrom base (allocCount.toNat * 4096)) f.toNat ∧
    s.Adds f.toNat (allocCount.toNat * 4096) o.map

/-- From the entry in which `base` lies on, some gap between two entries is
large enough; or `base` lies in no entry and at no end of one, and its range is
free and can be registered. -/
def MultipleAfterExServes (s : VirtualAddressMap) (base allocCount : UInt64) : Prop :=
  (∃ k e x, s.InEntry base k ∧ s.links.OnList e ∧ s.lo k ≤ s.lo e ∧ s.next e = some x ∧
    s.hi e + allocCount.toNat * 4096 ≤ s.lo x) ∨
  (¬ (∃ k, s.InEntry base k) ∧ s.Free base.toNat (allocCount.toNat * 4096) ∧
    s.SlotFor (base.toNat + allocCount.toNat * 4096))

theorem Found.allocMultipleAfterEx_eq (h : s.Found base pre t post) (hcount : allocCount ≠ 0) :
    s.pageVirtualAllocMultipleAfterEx base allocCount = if base.toNat ≤ s.hi t
      then (s.seekGap allocCount 128 (cellAfter pre)).bind fun c => (s.deref c).bind fun e =>
        Plan.run s ⟨some (s.endOf e), .growUp c (allocCount <<< 12)
          (s.base e + (s.len e + allocCount <<< 12))⟩
      else (s.placePlan (cellAfter pre) t base (allocCount <<< 12) (some base)).run s := by
  have hcall : s.pageVirtualAllocMultipleAfterEx base allocCount =
      (s.pageVirtualAllocMultipleAfterExPlan base allocCount).bind (·.run s) := rfl
  rw [hcall]
  simp only [pageVirtualAllocMultipleAfterExPlan, if_neg hcount, h.find, h.deref_eq,
    Option.bind_eq_bind, Option.bind_some, Option.pure_def, ge_iff_le, UInt64.le_iff_toNat_le,
    h.toNat_endOf, placePlan]
  split
  · rw [Option.bind_assoc]
    refine Option.bind_congr fun c _ => ?_
    rw [Option.bind_assoc]
    rfl
  · split
    · rfl
    · rfl

/-- The end of the stretch of small gaps is the lowest place with enough room. -/
theorem Found.isLeast_of_chain (h : s.Found base pre t post) {mid post' : List Slot} {e : Slot}
    {n : ℕ} (hlo : s.lo t ≤ base.toNat) (hle : base.toNat ≤ s.hi t) (hpos : 0 < n)
    (heq : t :: post = mid ++ e :: post')
    (hchain : (mid ++ [e]).IsChain (fun a b => s.lo b < s.hi a + n))
    (hgap : ∀ x ∈ post'.head?, s.hi e + n ≤ s.lo x) :
    IsLeast (s.freeFrom base n) (s.hi e) := by
  have hlay : s.Layout (pre ++ (mid ++ e :: post')) := heq ▸ h.layout
  have he : s.Layout ((pre ++ mid) ++ e :: post') := by simpa using hlay
  refine ⟨⟨?_, he.entry_self.hi_aligned, he.free_gap le_rfl hgap⟩, ?_⟩
  · cases mid with
    | nil =>
      obtain rfl : t = e := (List.cons.inj heq).1
      exact hle
    | cons y mid =>
      obtain rfl : t = y := (List.cons.inj heq).1
      have hlt := he.lt_of_mem_pre (k := t) (by simp)
      have hee := s.lo_le_hi e
      omega
  · rintro a ⟨hba, -, hfree⟩
    refine hlay.hi_le_of_chain hpos hchain (fun k hk => ?_) hfree
    obtain rfl : t = k := Option.some.inj ((head?_of_split heq).symm.trans hk)
    omega

/-- What the loop compares, in natural numbers. -/
theorem Found.toNat_gapTop (h : s.Found base pre t post)
    (hnw : ∀ k, s.links.OnList k → s.hi k + allocCount.toNat * 4096 < 2 ^ 64) {e : Slot}
    (he : e ∈ t :: post) :
    (s.endOf e + allocCount <<< 12).toNat = s.hi e + allocCount.toNat * 4096 := by
  have hmem := List.mem_append_right pre he
  have hend := (h.layout.entry e hmem).toNat_endOf
  have hfit := hnw e (h.layout.holds.onList_iff.mpr hmem)
  rw [toNat_add_of_lt] <;> rw [hend, toNat_shiftLeft_page (by omega)]
  exact hfit

/-- The loop stops at the first gap that is large enough. -/
theorem Found.seekGap_exact (h : s.Found base pre t post) (hpos : 0 < allocCount.toNat)
    (hlo : s.lo t ≤ base.toNat) (hle : base.toNat ≤ s.hi t)
    (hnw : ∀ k, s.links.OnList k → s.hi k + allocCount.toNat * 4096 < 2 ^ 64) {c : Cell Slot}
    (hc : s.seekGap allocCount 128 (cellAfter pre) = some c) :
    ∃ mid e x rest, c = cellAfter (pre ++ mid) ∧ s.Layout ((pre ++ mid) ++ e :: x :: rest) ∧
      e ∈ t :: post ∧ s.hi e + allocCount.toNat * 4096 ≤ s.lo x ∧
      IsLeast (s.freeFrom base (allocCount.toNat * 4096)) (s.hi e) := by
  obtain ⟨mid, e, x, rest, heq, rfl, hchain, hgap⟩ := h.layout.seekGap_spec hc
  have hlay : s.Layout ((pre ++ mid) ++ e :: x :: rest) := by
    rw [List.append_assoc, ← heq]
    exact h.layout
  have hmem : ∀ a ∈ mid ++ [e], a ∈ t :: post := by
    intro a ha
    rw [heq]
    rcases List.mem_append.mp ha with ha | ha
    · simp [ha]
    · simp [List.mem_singleton.mp ha]
  rw [UInt64.le_iff_toNat_le, h.toNat_gapTop hnw (hmem e (by simp))] at hgap
  refine ⟨mid, e, x, rest, rfl, hlay, hmem e (by simp), hgap, ?_⟩
  refine h.isLeast_of_chain hlo hle (by omega) heq ?_ fun y hy => ?_
  · refine List.IsChain.imp_of_mem_imp (fun a b ha _ hab => ?_) hchain
    rwa [UInt64.lt_iff_toNat_lt, h.toNat_gapTop hnw (hmem a ha)] at hab
  · obtain rfl : x = y := Option.some.inj hy
    exact hgap

/-- Inside an entry or at its end the call needs a gap that is large enough. -/
theorem Found.multipleAfterEx_grow (h : s.Found base pre t post) (hcount : allocCount ≠ 0)
    (hlo : s.lo t ≤ base.toNat) (hle : base.toNat ≤ s.hi t)
    (hnw : ∀ k, s.links.OnList k → s.hi k + allocCount.toNat * 4096 < 2 ^ 64) :
    s.MultipleAfterExExact base allocCount ↔
      ∃ e x, s.links.OnList e ∧ s.lo t ≤ s.lo e ∧ s.next e = some x ∧
        s.hi e + allocCount.toNat * 4096 ≤ s.lo x := by
  have hpos := ne_zero_iff_pos.mp hcount
  have ht := hnw t h.layout.onList_self
  have hbytes := toNat_shiftLeft_page (n := allocCount) (by omega)
  rw [MultipleAfterExExact, h.allocMultipleAfterEx_eq hcount, if_pos hle]
  constructor
  · rintro ⟨o, f, ho, -⟩
    obtain ⟨c, hc, -⟩ := Option.bind_eq_some_iff.mp ho
    obtain ⟨mid, e, x, rest, -, he, hmem, hgap, -⟩ := h.seekGap_exact hpos hlo hle hnw hc
    exact ⟨e, x, he.onList_self, (h.layout.mem_iff_lo_le he.onList_self).mp hmem, he.next_eq, hgap⟩
  · rintro ⟨e, x, he, hte, hx, hgap⟩
    -- the loop gets no further than the gap behind `e`
    have hmem : e ∈ t :: post := (h.layout.mem_iff_lo_le he).mpr hte
    obtain ⟨mid, rest, heq⟩ := List.append_of_mem hmem
    have hlay : s.Layout ((pre ++ mid) ++ e :: rest) := by
      rw [List.append_assoc, ← heq]
      exact h.layout
    obtain ⟨rest, rfl⟩ : ∃ rest', rest = x :: rest' :=
      ⟨rest.tail, (List.cons_head?_tail (hlay.next_eq.symm.trans hx)).symm⟩
    obtain ⟨c, hc⟩ := h.layout.seekGap_isSome h.layout.length_le heq (by
      rw [UInt64.le_iff_toNat_le, h.toNat_gapTop hnw hmem]
      exact hgap)
    -- and extends the entry it stops at
    obtain ⟨mid', e', x', rest', rfl, hlay', -, hgap', hleast⟩ :=
      h.seekGap_exact hpos hlo hle hnw hc
    obtain ⟨s', hs', hadds⟩ := hlay'.extend_exact (allocCount <<< 12) (by omega)
      (by rw [hbytes]; exact hnw e' hlay'.onList_self) (fun y hy => by
        obtain rfl : x' = y := Option.some.inj hy
        rwa [hbytes])
    have hend := hlay'.entry_self.toNat_endOf
    refine ⟨⟨some 0, some (s.endOf e'), s'⟩, s.endOf e', ?_, rfl, rfl, by rwa [hend], ?_⟩
    · rw [hc, Option.bind_some, hlay'.deref_eq, Option.bind_some, Plan.run, hs']
      rfl
    · rwa [hend, ← hbytes]

/-- `page_virtual_alloc_multiple_after_ex` keeps its promise exactly on the
inputs that `MultipleAfterExServes` describes. -/
theorem multipleAfterExExact_iff (h : s.WellFormed) (hslot : ¬ s.Full) (hcount : allocCount ≠ 0)
    (hal : base.toNat % 4096 = 0) (hfirst : ∀ t ∈ s.first, s.base t ≤ base)
    (hnw : ∀ k, s.links.OnList k → max (s.hi k) base.toNat + allocCount.toNat * 4096 < 2 ^ 64) :
    s.MultipleAfterExExact base allocCount ↔ s.MultipleAfterExServes base allocCount := by
  obtain ⟨pre, t, post, hf⟩ := h.found base
  have hlo := hf.lo_le hfirst
  have hpos := ne_zero_iff_pos.mp hcount
  rw [MultipleAfterExServes]
  by_cases hle : base.toNat ≤ s.hi t
  -- the base lies in an entry: both sides ask for a gap behind it
  · have hin : s.InEntry base t := hf.inEntry_iff.mpr ⟨rfl, hle⟩
    rw [hf.multipleAfterEx_grow hcount hlo hle fun k hk => by have := hnw k hk; omega,
      or_iff_left fun hnot => hnot.1 ⟨t, hin⟩]
    constructor
    · rintro ⟨e, x, hgap⟩
      exact ⟨t, e, x, hin, hgap⟩
    · rintro ⟨k, e, x, hk, hgap⟩
      obtain rfl := (hf.inEntry_iff.mp hk).1
      exact ⟨e, x, hgap⟩
  · have hlt := not_le.mp hle
    -- it does not: the range is placed at the base
    have hin : ¬ ∃ k, s.InEntry base k := by
      rintro ⟨k, hk⟩
      exact hle (hf.inEntry_iff.mp hk).2
    have hfit := hnw t hf.layout.onList_self
    have hbytes := toNat_shiftLeft_page (n := allocCount) (by omega)
    rw [or_iff_right fun ⟨k, e, x, hk, _⟩ => hin ⟨k, hk⟩, and_iff_right hin,
      MultipleAfterExExact, hf.allocMultipleAfterEx_eq hcount, if_neg hle]
    have hroom := hf.layout.free_iff_gap (n := allocCount.toNat * 4096) hlt.le hf.above
    constructor
    · rintro ⟨o, f, ho, hcode, hframe, hleast, hadds⟩
      obtain rfl : base = f := by
        rw [(placePlan_run ho).1] at hframe
        exact Option.some.inj hframe
      have hfree := hleast.1.2.2
      refine ⟨hfree, ?_⟩
      rw [← hbytes]
      exact (hf.layout.place_iff (some base) hslot hal (by omega) (by omega) (by omega) hlt
        (by rw [hbytes]; exact hroom.mp hfree)).mp ⟨o, ho, hcode, by rwa [hbytes]⟩
    · rintro ⟨hfree, hfor⟩
      rw [← hbytes] at hfor
      obtain ⟨o, ho, hcode, hadds⟩ := (hf.layout.place_iff (some base) hslot hal (by omega)
        (by omega) (by omega) hlt (by rw [hbytes]; exact hroom.mp hfree)).mpr hfor
      rw [hbytes] at hadds
      exact ⟨o, base, ho, hcode, (placePlan_run ho).1, isLeast_base hal hfree, hadds⟩

theorem twoEntries_hi_le (k : Slot) (hk : twoEntries.links.OnList k) :
    twoEntries.hi k ≤ 0x91000 := by
  have hcases : k = 0 ∨ k = 1 := by simpa using twoEntries_layout.holds.onList_iff.mp hk
  rcases hcases with rfl | rfl
  · decide
  · decide

/-- The criterion for two pages behind the first entry. -/
theorem multipleAfterExExact_twoEntries_iff :
    twoEntries.MultipleAfterExExact 0x85000 2 ↔ twoEntries.MultipleAfterExServes 0x85000 2 :=
  multipleAfterExExact_iff ⟨_, twoEntries_layout⟩ twoEntries_not_full (by decide) (by decide)
    (by rintro t ⟨⟩; decide) fun k hk => lt_of_le_of_lt
      (Nat.add_le_add_right (max_le_max_right _ (twoEntries_hi_le k hk)) _) (by decide)

/-- Inside the last entry the loop runs off the end of the list. -/
theorem not_multipleAfterExExact_initial :
    (initial 0x80000 0x5000).WellFormed ∧ ¬ (initial 0x80000 0x5000).Full ∧
      (initial 0x80000 0x5000).pageVirtualAllocMultipleAfterEx 0x80000 1 = none ∧
      ¬ (initial 0x80000 0x5000).MultipleAfterExExact 0x80000 1 := by
  have hfree : (initial 0x80000 0x5000).findFreeSlot = some (1, 63) := by decide
  refine ⟨⟨_, initial_layout (by decide) (by decide) (by decide) (by decide)⟩, ?_, rfl, ?_⟩
  · rw [Full, hfree]
    simp
  · rintro ⟨o, f, ho, -⟩
    cases ho

end MultipleAfterEx

end VirtualAddressMap

end Betelgeuse
