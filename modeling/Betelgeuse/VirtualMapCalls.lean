/-
Which calls keep a well-formed map well-formed.

A call ends in one block of statements (`blocks`), so the question is which
blocks are safe on the map they run on: `Safe s b` says that the block ends and
leaves a well-formed map.  `Found.extend` and `Found.place` cover the two ways
in which a range is added, `Layout.safe_cut` the way one is taken out.

`Call.Aligned` and `NoWrap` are what a caller promises: page-aligned addresses,
and a range that ends below `2 ^ 64`.  `Clear s c` is what the code needs on top
of that; where it fails, the call takes a branch that goes wrong.
-/
import Betelgeuse.VirtualMapSearch
import Betelgeuse.WordArith

open HeapList WordBitmap RangeList WordArith

namespace Betelgeuse

/-- The addresses a call is given are page-aligned. -/
def Call.Aligned : Call → Prop
  | .allocAt frame | .free frame | .freeMultiple frame _ | .allocMultipleAt frame _ =>
    frame.toNat % 4096 = 0
  | .allocAfter base | .allocBeyond base _ | .allocBeyondEx base _ | .allocMultipleAfter base _
  | .allocMultipleAfterEx base _ | .allocMultipleBeyond base _ _
  | .allocMultipleBeyondEx base _ _ => base.toNat % 4096 = 0
  | .alloc | .allocMultiple _ | .allocMultipleEx _ => True

namespace VirtualAddressMap

variable (s : VirtualAddressMap)

/-- The block runs `INSERT_VIRTUAL_MAP_ENTRY_AND_RETURN`. -/
def Block.inserts : Block → Bool
  | .insert .. | .cut .. => true
  | _ => false

/-- The plan of a call; for `page_virtual_free_multiple`, of the part behind
the test of `count`. -/
def plan : Call → Option Plan
  | .alloc => s.pageVirtualAllocPlan
  | .allocAt frame => s.pageVirtualAllocAtPlan frame
  | .allocAfter base => s.pageVirtualAllocAfterPlan base
  | .allocBeyond base jumpCount => s.pageVirtualAllocBeyondPlan base jumpCount
  | .allocBeyondEx base jumpCount => s.pageVirtualAllocBeyondExPlan base jumpCount
  | .allocMultiple allocCount => s.pageVirtualAllocMultiplePlan allocCount
  | .allocMultipleEx allocCount => s.pageVirtualAllocMultipleExPlan allocCount
  | .allocMultipleAt frame allocCount => s.pageVirtualAllocMultipleAtPlan frame allocCount
  | .allocMultipleAfter base allocCount => s.pageVirtualAllocMultipleAfterPlan base allocCount
  | .allocMultipleAfterEx base allocCount => s.pageVirtualAllocMultipleAfterExPlan base allocCount
  | .allocMultipleBeyond base allocCount jumpCount =>
    s.pageVirtualAllocMultipleBeyondPlan base allocCount jumpCount
  | .allocMultipleBeyondEx base allocCount jumpCount =>
    s.pageVirtualAllocMultipleBeyondExPlan base allocCount jumpCount
  | .free frame => s.pageVirtualFreePlan frame
  | .freeMultiple frame count => s.pageVirtualFreeMultiplePlan frame count

/-- The blocks a call carries out, each with the map it runs on. -/
def blocks : Call → List (VirtualAddressMap × Block)
  | .freeMultiple frame count =>
    if count = 1 then
      (s.plan (.free frame)).toList.map (s, ·.block) ++
        (s.pageVirtualFree frame).toList.flatMap fun o =>
          (o.map.plan (.freeMultiple frame count)).toList.map (o.map, ·.block)
    else if count = 0 then []
    else (s.plan (.freeMultiple frame count)).toList.map (s, ·.block)
  | c => (s.plan c).toList.map (s, ·.block)

/-- The entry at which `FIND_ENTRY_WITH_TRIPREF` stops. -/
def stopFind (frame : UInt64) : Option Slot := (s.findEntry frame).bind s.deref

/-- The entry at which the second loop of a `beyond_ex` function stops. -/
def stopBeyond (blocks : UInt64 → UInt64 → Bool) (base jumpCount : UInt64) : Option Slot := do
  let c ← s.findEntry base
  let t ← s.deref c
  let (c, _) ← s.seekBeyond blocks jumpCount 129 c (s.beyondFrame t base jumpCount)
  s.deref c

/-- The entry at which the loop of `page_virtual_alloc_multiple_ex` stops. -/
def stopMultiple (allocCount : UInt64) : Option Slot :=
  (s.links.seek (fun t x => decide (s.endOf t + allocCount <<< 12 > s.base x)) 128 .first).bind
    s.deref

/-- The entry at which the loop of `page_virtual_alloc_multiple_after_ex` stops,
if it does not run off the end of the list. -/
def stopGap (base allocCount : UInt64) : Option Slot := do
  let c ← s.seekGap allocCount 128 (← s.findEntry base)
  s.deref c

/-- The first address and the number of bytes of the range a call is about, as
natural numbers. -/
def range : Call → Option (ℕ × ℕ)
  | .alloc => s.first.map fun t => (s.hi t, 4096)
  | .allocAt frame => some (frame.toNat, 4096)
  | .allocAfter base => (s.stopFind base).map fun t => (max (s.hi t) base.toNat, 4096)
  | .allocBeyond base jumpCount =>
    (s.stopFind base).map fun t => (max (s.hi t + jumpCount.toNat * 4096) base.toNat, 4096)
  | .allocBeyondEx base jumpCount =>
    (if jumpCount = 0 then s.stopFind base
      else s.stopBeyond (fun b frame => b ≤ frame) base jumpCount).map
        fun t => (max (s.hi t + jumpCount.toNat * 4096) base.toNat, 4096)
  | .allocMultiple allocCount => s.first.map fun t => (s.hi t, allocCount.toNat * 4096)
  | .allocMultipleEx allocCount =>
    (s.stopMultiple allocCount).map fun t => (s.hi t, allocCount.toNat * 4096)
  | .allocMultipleAt frame allocCount => some (frame.toNat, allocCount.toNat * 4096)
  | .allocMultipleAfter base allocCount =>
    (s.stopFind base).map fun t => (max (s.hi t) base.toNat, allocCount.toNat * 4096)
  | .allocMultipleAfterEx base allocCount =>
    if (s.stopFind base).any (fun t => base.toNat ≤ s.hi t) then
      (s.stopGap base allocCount).map fun t => (s.hi t, allocCount.toNat * 4096)
    else some (base.toNat, allocCount.toNat * 4096)
  | .allocMultipleBeyond base allocCount jumpCount =>
    (s.stopFind base).map fun t =>
      (max (s.hi t + jumpCount.toNat * 4096) base.toNat, allocCount.toNat * 4096)
  | .allocMultipleBeyondEx base allocCount jumpCount =>
    (if jumpCount = 0 then s.stopFind base
      else s.stopBeyond (fun b frame => b < frame + allocCount <<< 12) base jumpCount).map
        fun t => (max (s.hi t + jumpCount.toNat * 4096) base.toNat, allocCount.toNat * 4096)
  | .free frame => some (frame.toNat, 4096)
  | .freeMultiple frame count => some (frame.toNat, count.toNat * 4096)

/-- The range of a call ends below `2 ^ 64`. -/
def NoWrap (c : Call) : Prop := ∀ r ∈ s.range c, r.1 + r.2 < 2 ^ 64

/-- No slot is left for `INSERT`. -/
def Full : Prop := s.findFreeSlot = none

/-- The slot `INSERT` picks is not on the list. -/
def FreshSlot : Prop := ∀ i o, s.findFreeSlot = some (i, o) → ¬ s.links.OnList (newIndex i o)

/-- The range `[a, a + n)` ends at or below the entry behind `t`, or there is no
slot for a new entry. -/
def Room (t : Slot) (a n : ℕ) : Prop := (∀ x ∈ s.next t, a + n ≤ s.lo x) ∨ s.Full

/-- The place a call works on has the shape its code expects. -/
def ClearPlace : Call → Prop
  -- grows the entry by one byte
  | .alloc => False
  -- the search stops before an entry that starts at the address itself
  | .allocAt frame => ∀ t ∈ s.stopFind frame, s.hi t < frame.toNat → s.Room t frame.toNat 4096
  | .allocAfter base => ∀ t ∈ s.stopFind base, s.hi t < base.toNat → s.Room t base.toNat 4096
  | .allocBeyond base jumpCount | .allocBeyondEx base jumpCount =>
    jumpCount = 0 → ∀ t ∈ s.stopFind base, s.hi t < base.toNat → s.Room t base.toNat 4096
  | .allocMultiple _ => True
  -- the join tests the top of the first entry, not of the one the loop stops at
  | .allocMultipleEx allocCount =>
    allocCount = 0 ∨ ∀ t ∈ s.stopMultiple allocCount, s.first = some t ∨
      ∀ x ∈ s.next t, s.hi t + allocCount.toNat * 4096 ≠ s.lo x
  -- reads through the null pointer behind the last entry
  | .allocMultipleAt frame allocCount =>
    allocCount = 0 ∨ ∀ t ∈ s.stopFind frame, s.hi t ≤ frame.toNat → s.next t ≠ none
  -- no test that the range ends below the next entry
  | .allocMultipleAfter base allocCount =>
    allocCount = 0 ∨ ∀ t ∈ s.stopFind base, s.hi t < base.toNat →
      s.Room t base.toNat (allocCount.toNat * 4096)
  | .allocMultipleAfterEx base allocCount =>
    allocCount = 0 ∨ ∀ t ∈ s.stopFind base,
      (base.toNat ≤ s.hi t → s.stopGap base allocCount ≠ none) ∧
      (s.hi t < base.toNat → s.Room t base.toNat (allocCount.toNat * 4096))
  | .allocMultipleBeyond base allocCount jumpCount =>
    allocCount = 0 ∨ ∀ t ∈ s.stopFind base,
      (jumpCount = 0 → s.hi t < base.toNat →
        s.Room t base.toNat (allocCount.toNat * 4096)) ∧
      (jumpCount ≠ 0 → (∀ x ∈ s.next t,
          max (s.hi t + jumpCount.toNat * 4096) base.toNat < s.lo x) →
        s.Room t (max (s.hi t + jumpCount.toNat * 4096) base.toNat) (allocCount.toNat * 4096))
  | .allocMultipleBeyondEx base allocCount jumpCount =>
    allocCount = 0 ∨ (jumpCount = 0 → ∀ t ∈ s.stopFind base, s.hi t < base.toNat →
      s.Room t base.toNat (allocCount.toNat * 4096))
  -- the first and the last page of an entry leave an entry of length 0 behind
  | .free frame => ∀ t ∈ s.stopFind frame, frame.toNat < s.hi t →
      s.lo t < frame.toNat ∧ (frame.toNat + 4096 < s.hi t ∨ s.Full)
  | .freeMultiple frame count =>
    count = 0 ∨ ∀ t ∈ s.stopFind frame,
      (count = 1 → frame.toNat < s.hi t →
        s.lo t < frame.toNat ∧ (frame.toNat + 4096 < s.hi t ∨ s.Full)) ∧
      (count ≠ 1 → frame.toNat + count.toNat * 4096 < s.hi t → s.lo t < frame.toNat)

/-- The place has the shape the code expects, and where the call comes to
`INSERT`, the slot that it picks is not on the list. -/
def Clear (c : Call) : Prop :=
  s.ClearPlace c ∧ ∀ r ∈ s.blocks c, r.2.inserts → r.1.FreshSlot

/-! ### Safe blocks -/

/-- The block ends and leaves a well-formed map. -/
def Safe (b : Block) : Prop := ∃ r, s.perform b = some r ∧ r.2.WellFormed

/-- The search of a call ends and leads to a safe block, provided that `INSERT`
finds a fresh slot if the block comes to it. -/
def SafePlan (o : Option Plan) : Prop :=
  (∀ p, o = some p → p.block.inserts → s.FreshSlot) → ∃ p, o = some p ∧ s.Safe p.block

variable {s} {pre post : List Slot} {t : Slot}

theorem FreshSlot.not_mem (h : s.FreshSlot) {l : List Slot} (hl : s.Layout l) :
    ∀ i o, s.findFreeSlot = some (i, o) → newIndex i o ∉ l :=
  fun i o hio hmem => h i o hio (hl.holds.onList_iff.mpr hmem)

/-- Growing an entry, when the test for the join asks whether it now touches the
next one. -/
theorem Layout.safe_growUp (h : s.Layout (pre ++ t :: post)) {bytes top : UInt64}
    (hw : bytes.toNat % 4096 = 0) (hfit : s.hi t + bytes.toNat < 2 ^ 64)
    (hgap : ∀ x ∈ post.head?, s.hi t + bytes.toNat ≤ s.lo x)
    (htop : ∀ x ∈ post.head?, top = s.base x ↔ s.hi t + bytes.toNat = s.lo x) :
    s.Safe (.growUp (cellAfter pre) bytes top) := by
  by_cases htouch : ∃ x ∈ post.head?, s.hi t + bytes.toNat = s.lo x
  · obtain ⟨x, hx, htouch⟩ := htouch
    obtain ⟨post, rfl⟩ : ∃ post', post = x :: post' := ⟨post.tail, (List.cons_head?_tail hx).symm⟩
    obtain ⟨s', hs', hwf, -⟩ := h.growUp_join htouch ((htop x hx).mpr htouch)
    exact ⟨_, hs', hwf⟩
  · have hne : ∀ x ∈ post.head?, s.hi t + bytes.toNat ≠ s.lo x :=
      fun x hx heq => htouch ⟨x, hx, heq⟩
    obtain ⟨s', hs', hwf, -⟩ := h.growUp hw hfit
      (fun x hx => lt_of_le_of_ne (hgap x hx) (hne x hx))
      (fun x hx heq => hne x hx ((htop x hx).mp heq))
    exact ⟨_, hs', hwf⟩

/-- The top of an entry that grows, as the code computes it. -/
theorem Layout.toNat_top (h : s.Layout (pre ++ t :: post)) {bytes : UInt64}
    (hfit : s.hi t + bytes.toNat < 2 ^ 64) :
    (s.base t + (s.len t + bytes)).toNat = s.hi t + bytes.toNat := by
  rw [← UInt64.add_assoc]
  have hend := h.entry_self.toNat_endOf
  rw [toNat_add_of_lt] <;> rw [show s.base t + s.len t = s.endOf t from rfl, hend]
  exact hfit

/-- Extending the entry the search stopped at. -/
theorem Layout.extend (h : s.Layout (pre ++ t :: post)) {bytes : UInt64} (frame : Option UInt64)
    (hw : bytes.toNat % 4096 = 0) (hfit : s.hi t + bytes.toNat < 2 ^ 64)
    (hgap : ∀ x ∈ post.head?, s.hi t + bytes.toNat ≤ s.lo x) :
    s.SafePlan (some ⟨frame, .growUp (cellAfter pre) bytes (s.base t + (s.len t + bytes))⟩) := by
  refine fun _ => ⟨_, rfl, h.safe_growUp hw hfit hgap fun x _ => ?_⟩
  rw [← UInt64.toNat_inj, h.toNat_top hfit]
  exact Iff.rfl

/-- A new range above the entry the search stopped at: either the next entry
grows down to it, or it gets an entry of its own. -/
theorem Layout.place (h : s.Layout (pre ++ t :: post)) {frame bytes : UInt64}
    (out : Option UInt64) (full : Option ℤ)
    (hf : frame.toNat % 4096 = 0) (hw : bytes.toNat % 4096 = 0) (hpos : 0 < bytes.toNat)
    (hfit : frame.toNat + bytes.toNat < 2 ^ 64) (hgt : s.hi t < frame.toNat)
    (hroom : s.Room t frame.toNat bytes.toNat) :
    s.SafePlan (if s.nextBase t = some (frame + bytes)
      then some ⟨out, .growDown (cellAfter pre) bytes⟩
      else some ⟨out, .insert (cellAfter pre) frame bytes full⟩) := by
  intro hslot
  -- a gap that is filled up to the next entry, or a new entry
  have hsum : (frame + bytes).toNat = frame.toNat + bytes.toNat := toNat_add_of_lt hfit
  split
  · rename_i hdown
    obtain ⟨x, hx, hbase⟩ := h.nextBase_eq_some.mp hdown
    obtain ⟨post, rfl⟩ : ∃ post', post = x :: post' := ⟨post.tail, (List.cons_head?_tail hx).symm⟩
    have hlo : s.lo x = frame.toNat + bytes.toNat := by rw [lo, hbase, hsum]
    obtain ⟨s', hs', hwf, -⟩ := h.growDown hw (by omega)
    exact ⟨_, rfl, _, hs', hwf⟩
  · rename_i hdown
    have hfresh : s.FreshSlot := hslot _ (if_neg hdown) rfl
    refine ⟨_, rfl, ?_⟩
    by_cases hfull : s.findFreeSlot = none
    · refine ⟨(full, s), ?_, ⟨_, h⟩⟩
      simp [perform, VirtualAddressMap.insertEntry, hfull]
    -- the next entry does not touch the range, or it would have grown
    · have hgap : ∀ x ∈ post.head?, frame.toNat + bytes.toNat < s.lo x := by
        intro x hx
        have hle := hroom.resolve_right hfull x (by rwa [h.next_eq])
        refine lt_of_le_of_ne hle fun heq => hdown ?_
        exact h.nextBase_eq_some.mpr ⟨x, hx, (UInt64.toNat_inj.mp (hsum.trans heq)).symm⟩
      rcases h.insert full (hfresh.not_mem h) hf hw hpos hfit hgt hgap with
        ⟨-, hs'⟩ | ⟨s', hs', hwf, -⟩
      · exact ⟨_, hs', ⟨_, h⟩⟩
      · exact ⟨_, hs', hwf⟩

/-- Taking a range out of the inside of an entry. -/
theorem Layout.safe_cut (h : s.Layout (pre ++ t :: post)) {frame bytes : UInt64}
    (full : Option ℤ) (hf : frame.toNat % 4096 = 0) (hw : bytes.toNat % 4096 = 0)
    (hpos : 0 < bytes.toNat) (hlt : s.lo t < frame.toNat) (hgt : frame.toNat < s.hi t)
    (hin : frame.toNat + bytes.toNat < s.hi t ∨ s.Full) :
    s.SafePlan (some ⟨none, .cut (cellAfter pre) frame bytes full⟩) := by
  refine fun hslot => ⟨_, rfl, ?_⟩
  rcases h.cut full ((hslot _ rfl rfl).not_mem h) hf hw hpos hlt hgt hin with
    ⟨-, s', hs', hwf, -⟩ | ⟨s', hs', hwf, -⟩
  · exact ⟨_, hs', hwf⟩
  · exact ⟨_, hs', hwf⟩

/-! ### The calls -/

/-- No entry is one byte long. -/
theorem EntryOk.len_ne_one (h : s.EntryOk t) : s.len t ≠ 1 := by
  intro hone
  have hw := h.whole
  rw [hone] at hw
  exact absurd hw (by decide)

theorem WellFormed.safePlan_ret (h : s.WellFormed) (out : Option UInt64) (code : ℤ) :
    s.SafePlan (some ⟨out, .ret code⟩) :=
  fun _ => ⟨_, rfl, _, rfl, h⟩

theorem toNat_shiftLeft_page {n : UInt64} (h : n.toNat * 4096 < 2 ^ 64) :
    (n <<< 12).toNat = n.toNat * 4096 :=
  toNat_shiftLeft_of_lt (n := 12) rfl h

section Calls

variable {frame base count : UInt64}

theorem Found.stopFind_eq (h : s.Found frame pre t post) : s.stopFind frame = some t := by
  rw [stopFind, h.find, Option.bind_some, h.deref_eq]

theorem Found.wellFormed (h : s.Found frame pre t post) : s.WellFormed := ⟨_, h.layout⟩

theorem Found.toNat_endOf (h : s.Found frame pre t post) : (s.endOf t).toNat = s.hi t :=
  h.layout.entry_self.toNat_endOf

theorem Found.next_eq (h : s.Found frame pre t post) : s.next t = post.head? := h.layout.next_eq

/-- Page-aligned ranges that do not touch are a page apart. -/
theorem Found.page_gap (h : s.Found frame pre t post) :
    ∀ x ∈ post.head?, s.hi t + 4096 ≤ s.lo x := by
  intro x hx
  have hgap := h.layout.gap x hx
  have ht := h.layout.entry_self.hi_aligned
  have hx := (h.layout.entry_head hx).aligned
  omega

theorem NoWrap.fits {c : Call} {a n : ℕ} (h : s.NoWrap c) (hr : s.range c = some (a, n)) :
    a + n < 2 ^ 64 := h _ hr

theorem WellFormed.safe_allocAt (h : s.WellFormed) (hal : frame.toNat % 4096 = 0)
    (hnw : frame.toNat + 4096 < 2 ^ 64)
    (hclear : ∀ t ∈ s.stopFind frame, s.hi t < frame.toNat → s.Room t frame.toNat 4096) :
    s.SafePlan (s.pageVirtualAllocAtPlan frame) := by
  obtain ⟨pre, t, post, hf⟩ := h.found frame
  simp only [pageVirtualAllocAtPlan, hf.find, hf.deref_eq, Option.bind_eq_bind, Option.bind_some,
    Option.pure_def, gt_iff_lt, UInt64.lt_iff_toNat_lt, ← UInt64.toNat_inj, hf.toNat_endOf]
  split
  · exact h.safePlan_ret _ _
  · split
    · rename_i hend
      refine hf.layout.extend _ (by decide) ?_ ?_
      · rw [toNat_pageSize]
        omega
      · exact hf.page_gap
    · refine hf.layout.place _ _ hal (by decide) (by decide) hnw (by omega) ?_
      exact hclear t hf.stopFind_eq (by omega)

/-- The `after` functions from the point where the search has stopped, with room
for the range in the entry's own case. -/
theorem Found.safe_after (h : s.Found base pre t post) {bytes : UInt64}
    (hal : base.toNat % 4096 = 0)
    (hw : bytes.toNat % 4096 = 0) (hpos : 0 < bytes.toNat)
    (hnw : max (s.hi t) base.toNat + bytes.toNat < 2 ^ 64)
    (hgap : base.toNat ≤ s.hi t → ∀ x ∈ post.head?, s.hi t + bytes.toNat ≤ s.lo x)
    (hroom : s.hi t < base.toNat → s.Room t base.toNat bytes.toNat) :
    s.SafePlan (if s.endOf t ≥ base
      then some ⟨some (s.endOf t),
        .growUp (cellAfter pre) bytes (s.base t + (s.len t + bytes))⟩
      else if s.nextBase t = some (base + bytes)
      then some ⟨some base, .growDown (cellAfter pre) bytes⟩
      else some ⟨some base, .insert (cellAfter pre) base bytes (some (-1))⟩) := by
  simp only [ge_iff_le, UInt64.le_iff_toNat_le, h.toNat_endOf]
  split
  · rename_i hle
    exact h.layout.extend _ hw (by omega) (hgap hle)
  · exact h.layout.place _ _ hal hw hpos (by omega) (by omega) (hroom (by omega))

theorem WellFormed.safe_allocAfter (h : s.WellFormed) (hal : base.toNat % 4096 = 0)
    (hnw : s.NoWrap (.allocAfter base))
    (hclear : ∀ t ∈ s.stopFind base, s.hi t < base.toNat → s.Room t base.toNat 4096) :
    s.SafePlan (s.pageVirtualAllocAfterPlan base) := by
  obtain ⟨pre, t, post, hf⟩ := h.found base
  have hfit : max (s.hi t) base.toNat + 4096 < 2 ^ 64 :=
    hnw.fits (by rw [range, hf.stopFind_eq, Option.map_some])
  simp only [pageVirtualAllocAfterPlan, hf.find, hf.deref_eq, Option.bind_eq_bind,
    Option.bind_some, Option.pure_def]
  exact hf.safe_after hal (by decide) (by decide) (by rwa [toNat_pageSize])
    (fun _ => hf.page_gap) (hclear t hf.stopFind_eq)

/-- `*frame` of the `beyond` functions. -/
theorem Found.toNat_beyondFrame (h : s.Found base pre t post) (jumpCount : UInt64)
    (hfit : s.hi t + jumpCount.toNat * 4096 < 2 ^ 64) :
    (s.beyondFrame t base jumpCount).toNat =
      max (s.hi t + jumpCount.toNat * 4096) base.toNat := by
  have hsum : (s.endOf t + jumpCount <<< 12).toNat = s.hi t + jumpCount.toNat * 4096 := by
    rw [toNat_add_of_lt] <;> rw [h.toNat_endOf, toNat_shiftLeft_page (by omega)]
    exact hfit
  simp only [beyondFrame, UInt64.lt_iff_toNat_lt, hsum]
  split
  · rw [max_eq_right (by omega)]
  · rw [max_eq_left (by omega), hsum]

theorem Found.hi_aligned (h : s.Found base pre t post) : s.hi t % 4096 = 0 :=
  h.layout.entry_self.hi_aligned

theorem ne_zero_iff_pos {n : UInt64} : n ≠ 0 ↔ 0 < n.toNat := by
  rw [ne_eq, ← UInt64.toNat_inj, UInt64.toNat_zero]
  omega

/-- An entry that starts above a frame does not end there. -/
theorem Layout.not_endOf_eq (h : s.Layout (pre ++ t :: post)) {frame : UInt64}
    (hblock : ¬ (s.nextBase t).any (· ≤ frame) = true) :
    ¬ (s.next t).any (fun x => s.endOf x = frame) = true := by
  rw [h.nextBase_le] at hblock
  rw [h.next_eq, Option.any_eq_true]
  rintro ⟨x, hx, hend⟩
  have hok := h.entry_head hx
  have hpos := hok.lo_lt_hi
  have htop := hok.toNat_endOf
  rw [decide_eq_true_eq] at hend
  rw [hend] at htop
  exact hblock ⟨x, hx, by omega⟩

/-- The first function behind the `beyond` test: the frame lies below the next
entry, so nothing is to join with it. -/
theorem Found.safe_beyond (h : s.Found base pre t post) {frame bytes : UInt64}
    (hf : frame.toNat % 4096 = 0) (hw : bytes.toNat % 4096 = 0) (hpos : 0 < bytes.toNat)
    (hfit : frame.toNat + bytes.toNat < 2 ^ 64) (hgt : s.hi t < frame.toNat)
    (hroom : (∀ x ∈ s.next t, frame.toNat < s.lo x) → s.Room t frame.toNat bytes.toNat)
    (up : Slot → Option Plan) :
    s.SafePlan (if (s.nextBase t).any (· ≤ frame) then some ⟨some frame, .ret 1⟩
      else if s.nextBase t = some (frame + bytes)
      then some ⟨some frame, .growDown (cellAfter pre) bytes⟩
      else if (s.next t).any (fun x => s.endOf x = frame) then (s.next t).bind up
      else some ⟨some frame, .insert (cellAfter pre) frame bytes (some (-1))⟩) := by
  split
  · exact h.wellFormed.safePlan_ret _ _
  · rename_i hblock
    have hbelow : ∀ x ∈ s.next t, frame.toNat < s.lo x := by
      intro x hx
      refine not_le.mp fun hle => hblock (h.layout.nextBase_le frame |>.mpr ⟨x, ?_, hle⟩)
      exact h.next_eq.symm.trans hx
    rw [if_neg (h.layout.not_endOf_eq hblock)]
    exact h.layout.place _ _ hf hw hpos hfit hgt (hroom hbelow)

theorem WellFormed.safe_allocBeyond (h : s.WellFormed) (hal : base.toNat % 4096 = 0)
    (hnw : s.NoWrap (.allocBeyond base count))
    (hclear : count = 0 → ∀ t ∈ s.stopFind base, s.hi t < base.toNat →
      s.Room t base.toNat 4096) :
    s.SafePlan (s.pageVirtualAllocBeyondPlan base count) := by
  obtain ⟨pre, t, post, hf⟩ := h.found base
  have hfit : max (s.hi t + count.toNat * 4096) base.toNat + 4096 < 2 ^ 64 :=
    hnw.fits (by rw [range, hf.stopFind_eq, Option.map_some])
  rw [pageVirtualAllocBeyondPlan]
  split
  · rename_i hzero
    refine h.safe_allocAfter hal ?_ (hclear hzero)
    simp only [NoWrap, range, hf.stopFind_eq, Option.map_some]
    rintro r ⟨⟩
    omega
  · rename_i hne
    have hjump := ne_zero_iff_pos.mp hne
    have hframe := hf.toNat_beyondFrame count (by omega)
    have hhi := hf.hi_aligned
    simp only [hf.find, hf.deref_eq, Option.bind_eq_bind, Option.bind_some, Option.pure_def]
    refine hf.safe_beyond (by rw [hframe]; omega) (by decide) (by decide)
      (by rwa [hframe, toNat_pageSize]) (by rw [hframe]; omega) (fun hbelow => .inl ?_) _
    intro x hx
    have hlt := hbelow x hx
    have hxal := (hf.layout.entry_head (hf.next_eq.symm.trans hx)).aligned
    rw [toNat_pageSize]
    rw [hframe] at hlt ⊢
    omega

/-- Every entry behind the one found starts at the address or above. -/
theorem Found.above_mem (h : s.Found base pre t post) : ∀ x ∈ post, base.toNat ≤ s.lo x := by
  intro x hx
  obtain ⟨y, post, rfl⟩ := List.exists_cons_of_ne_nil (List.ne_nil_of_mem hx)
  have hy := h.above y rfl
  have hle : ∀ k ∈ pre ++ t :: y :: post, s.lo k ≤ s.hi k := fun k _ => s.lo_le_hi k
  have hpair := (List.pairwise_append.mp (h.layout.apart.pairwise hle)).2.1
  rcases List.mem_cons.mp hx with rfl | hx
  · exact hy
  · have hyx := (List.pairwise_cons.mp (List.pairwise_cons.mp hpair).2).1 x hx
    have := s.lo_le_hi y
    omega

/-- The frames of the second loop of the `beyond_ex` functions. -/
theorem Found.toNat_candidate (h : s.Found base pre t post) (jumpCount : UInt64) {e : Slot}
    (he : e ∈ t :: post) (hfit : s.hi e + jumpCount.toNat * 4096 < 2 ^ 64) :
    (s.candidate t (s.beyondFrame t base jumpCount) jumpCount e).toNat =
      max (s.hi e + jumpCount.toNat * 4096) base.toNat := by
  rw [candidate]
  split
  · rename_i het
    subst het
    exact h.toNat_beyondFrame jumpCount hfit
  · rename_i hne
    -- the entry stands behind the one found, so it is above the address
    have habove := h.above_mem e ((List.mem_cons.mp he).resolve_left hne)
    have hle := s.lo_le_hi e
    have hend := (h.layout.entry e (List.mem_append_right _ he)).toNat_endOf
    rw [max_eq_left (by omega), toNat_add_of_lt] <;>
      rw [hend, toNat_shiftLeft_page (by omega)]
    exact hfit

/-- The second loop of the `beyond_ex` functions always stops. -/
theorem WellFormed.stopBeyond_eq (h : s.WellFormed) (blocks : UInt64 → UInt64 → Bool)
    (base jumpCount : UInt64) : ∃ t, s.stopBeyond blocks base jumpCount = some t := by
  obtain ⟨pre, t, post, hf⟩ := h.found base
  obtain ⟨mid, t', post', heq, hseek, -⟩ := hf.layout.seekBeyond_spec
    blocks jumpCount (s.beyondFrame t base jumpCount) (Nat.lt_succ_of_lt hf.layout.length_le)
  have hlay : s.Layout ((pre ++ mid) ++ t' :: post') := by
    rw [List.append_assoc, ← heq]
    exact hf.layout
  exact ⟨t', by simp [stopBeyond, hf.find, hf.deref_eq, hseek, hlay.deref_eq]⟩

/-- The `beyond_ex` functions behind their second loop. -/
theorem WellFormed.safe_beyondEx (h : s.WellFormed) {blocks : UInt64 → UInt64 → Bool}
    {jumpCount bytes : UInt64} (hal : base.toNat % 4096 = 0) (hjump : 0 < jumpCount.toNat)
    (hw : bytes.toNat % 4096 = 0) (hpos : 0 < bytes.toNat)
    (hnw : ∀ t ∈ s.stopBeyond blocks base jumpCount,
      max (s.hi t + jumpCount.toNat * 4096) base.toNat + bytes.toNat < 2 ^ 64)
    (hstop : ∀ frame b : UInt64, blocks b frame = false → frame.toNat % 4096 = 0 →
      b.toNat % 4096 = 0 → frame.toNat + bytes.toNat < 2 ^ 64 →
      frame.toNat + bytes.toNat ≤ b.toNat) :
    s.SafePlan (do
      let c ← s.findEntry base
      let t ← s.deref c
      let (c, frame) ← s.seekBeyond blocks jumpCount 129 c (s.beyondFrame t base jumpCount)
      let t ← s.deref c
      if s.nextBase t = some (frame + bytes) then
        return ⟨some frame, .growDown c bytes⟩
      else return ⟨some frame, .insert c frame bytes (some (-1))⟩) := by
  -- the search stops at `t'`, and the range is placed behind it
  obtain ⟨pre, t, post, hf⟩ := h.found base
  obtain ⟨mid, t', post', heq, hseek, -, hblock⟩ := hf.layout.seekBeyond_spec
    blocks jumpCount (s.beyondFrame t base jumpCount) (Nat.lt_succ_of_lt hf.layout.length_le)
  have hlay : s.Layout ((pre ++ mid) ++ t' :: post') := by
    rw [List.append_assoc, ← heq]
    exact hf.layout
  have hfit := hnw t' (by
    simp [stopBeyond, hf.find, hf.deref_eq, hseek, hlay.deref_eq])
  have hhi := hlay.entry_self.hi_aligned
  set frame := s.candidate t (s.beyondFrame t base jumpCount) jumpCount t'
  have hto : frame.toNat = max (s.hi t' + jumpCount.toNat * 4096) base.toNat :=
    hf.toNat_candidate jumpCount (heq ▸ by simp) (by omega)
  simp only [hf.find, hf.deref_eq, hseek, hlay.deref_eq, Option.bind_eq_bind, Option.bind_some,
    Option.pure_def]
  refine hlay.place _ _ (by rw [hto]; omega) hw hpos (by rwa [hto]) (by rw [hto]; omega)
    (.inl fun x hx => ?_)
  rw [hlay.next_eq] at hx
  have hxal := (hlay.entry_head hx).aligned
  exact hstop frame (s.base x) (hblock x hx) (by rw [hto]; omega) hxal (by rwa [hto])

theorem WellFormed.safe_allocBeyondEx (h : s.WellFormed) (hal : base.toNat % 4096 = 0)
    (hnw : s.NoWrap (.allocBeyondEx base count))
    (hclear : count = 0 → ∀ t ∈ s.stopFind base, s.hi t < base.toNat →
      s.Room t base.toNat 4096) :
    s.SafePlan (s.pageVirtualAllocBeyondExPlan base count) := by
  rw [pageVirtualAllocBeyondExPlan]
  split
  · rename_i hzero
    refine h.safe_allocAfter hal ?_ (hclear hzero)
    simpa [NoWrap, range, hzero] using hnw
  · rename_i hne
    refine h.safe_beyondEx hal (ne_zero_iff_pos.mp hne) (by decide) (by decide)
      (fun t ht => ?_) fun frame b hb hfa hba hfit => ?_
    · rw [toNat_pageSize]
      exact hnw.fits (by rw [range, if_neg hne, show s.stopBeyond _ _ _ = some t from ht]; rfl)
    · rw [decide_eq_false_iff_not, UInt64.le_iff_toNat_le] at hb
      rw [toNat_pageSize] at hfit ⊢
      omega

/-! ### The calls for several pages -/

theorem WellFormed.safe_allocMultiple (h : s.WellFormed) (hnw : s.NoWrap (.allocMultiple count)) :
    s.SafePlan (s.pageVirtualAllocMultiplePlan count) := by
  obtain ⟨l, hl⟩ := h
  obtain ⟨t, post, rfl⟩ := List.exists_cons_of_ne_nil hl.nonempty
  have hl' : s.Layout ([] ++ t :: post) := hl
  have hfit : s.hi t + count.toNat * 4096 < 2 ^ 64 :=
    hnw.fits (by rw [range, hl.first_eq, Option.map_some])
  have hn := toNat_shiftLeft_page (n := count) (by omega)
  have htop : (s.endOf t + count <<< 12).toNat = s.hi t + count.toNat * 4096 := by
    rw [toNat_add_of_lt] <;> rw [hl'.entry_self.toNat_endOf, hn]
    exact hfit
  rw [pageVirtualAllocMultiplePlan]
  split
  · exact WellFormed.safePlan_ret ⟨_, hl⟩ _ _
  · simp only [hl.first_eq, Option.bind_eq_bind, Option.bind_some, Option.pure_def]
    split
    · exact WellFormed.safePlan_ret ⟨_, hl⟩ _ _
    · rename_i hgap
      refine fun _ => ⟨_, rfl, ?_⟩
      refine hl'.safe_growUp (by rw [hn]; omega) (by rwa [hn]) (fun x hx => ?_) fun x _ => ?_
      · simp only [gt_iff_lt, hl'.nextBase_lt, htop, not_exists, not_and, not_lt] at hgap
        rw [hn]
        exact hgap x hx
      · rw [← UInt64.toNat_inj, htop, hn]
        exact Iff.rfl

theorem WellFormed.safe_allocMultipleEx (h : s.WellFormed)
    (hnw : s.NoWrap (.allocMultipleEx count))
    (hclear : s.ClearPlace (.allocMultipleEx count)) :
    s.SafePlan (s.pageVirtualAllocMultipleExPlan count) := by
  obtain ⟨l, hl⟩ := h
  obtain ⟨t, post, rfl⟩ := List.exists_cons_of_ne_nil hl.nonempty
  have hl' : s.Layout ([] ++ t :: post) := hl
  rw [pageVirtualAllocMultipleExPlan]
  split
  · exact WellFormed.safePlan_ret ⟨_, hl⟩ _ _
  · rename_i hne
    obtain ⟨mid, t', post', heq, hseek, -, hgap⟩ := hl.seekMultiple_spec count
    have hlay : s.Layout (mid ++ t' :: post') := heq ▸ hl
    have hstop : s.stopMultiple count = some t' := by
      rw [stopMultiple, hseek, Option.bind_some, hlay.deref_eq]
    have hfit : s.hi t' + count.toNat * 4096 < 2 ^ 64 :=
      hnw.fits (by rw [range, hstop, Option.map_some])
    have hn := toNat_shiftLeft_page (n := count) (by omega)
    have hjump := ne_zero_iff_pos.mp hne
    have hend : (s.endOf t' + count <<< 12).toNat = s.hi t' + count.toNat * 4096 := by
      rw [toNat_add_of_lt] <;> rw [hlay.entry_self.toNat_endOf, hn]
      exact hfit
    have hgap' : ∀ x ∈ post'.head?, s.hi t' + count.toNat * 4096 ≤ s.lo x := by
      intro x hx
      have := UInt64.le_iff_toNat_le.mp (hgap x hx)
      rwa [hend] at this
    simp only [hl.first_eq, hseek, Option.bind_eq_bind, Option.bind_some, Option.pure_def]
    refine fun _ => ⟨_, rfl, ?_⟩
    refine hlay.safe_growUp (by rw [hn]; omega) (by rwa [hn]) (by rwa [hn]) fun x hx => ?_
    rw [hn]
    rcases (hclear.resolve_left hne) t' hstop with hfirst | hnot
    · -- the loop stopped at the first entry, whose top it is
      obtain rfl : t = t' := Option.some.inj (hl.first_eq.symm.trans hfirst)
      rw [← UInt64.toNat_inj, hend]
      exact Iff.rfl
    · have hne' := hnot x (hlay.next_eq.trans hx)
      refine ⟨fun htop => ?_, fun heq => absurd heq hne'⟩
      -- the top of the first entry lies below the gap that the loop has found
      have hfirst : s.hi t ≤ s.hi t' := by
        cases mid with
        | nil => rw [(List.cons.inj heq).1]
        | cons y mid =>
          obtain ⟨rfl, -⟩ := List.cons.inj heq
          have hle : ∀ k ∈ t :: mid ++ t' :: post', s.lo k ≤ s.hi k := fun k _ => s.lo_le_hi k
          have hlt := (List.pairwise_append.mp (hlay.apart.pairwise hle)).2.2 t (by simp) t'
            (by simp)
          have := s.lo_le_hi t'
          omega
      have htn : (s.endOf t + count <<< 12).toNat = s.hi t + count.toNat * 4096 := by
        rw [toNat_add_of_lt] <;> rw [hl'.entry_self.toNat_endOf, hn]
        omega
      have hbase : s.hi t + count.toNat * 4096 = s.lo x := by rw [← htn, htop, lo]
      have := hgap' x hx
      omega

theorem WellFormed.safe_allocMultipleAt (h : s.WellFormed) (hal : frame.toNat % 4096 = 0)
    (hnw : s.NoWrap (.allocMultipleAt frame count))
    (hclear : s.ClearPlace (.allocMultipleAt frame count)) :
    s.SafePlan (s.pageVirtualAllocMultipleAtPlan frame count) := by
  obtain ⟨pre, t, post, hf⟩ := h.found frame
  have hfit : frame.toNat + count.toNat * 4096 < 2 ^ 64 := hnw.fits rfl
  have hn := toNat_shiftLeft_page (n := count) (by omega)
  rw [pageVirtualAllocMultipleAtPlan]
  split
  · exact h.safePlan_ret _ _
  · rename_i hne
    have hcount := ne_zero_iff_pos.mp hne
    simp only [hf.find, hf.deref_eq, Option.bind_eq_bind, Option.bind_some, Option.pure_def,
      gt_iff_lt, UInt64.lt_iff_toNat_lt, hf.toNat_endOf]
    split
    · exact h.safePlan_ret _ _
    · rename_i hlt
      -- behind the last entry the code would read through the null pointer
      obtain ⟨x, hx⟩ := Option.ne_none_iff_exists'.mp
        ((hclear.resolve_left hne) t hf.stopFind_eq (by omega))
      have hx' : post.head? = some x := hf.next_eq.symm.trans hx
      rw [show s.nextBase t = some (s.base x) by rw [nextBase, hx, Option.map_some]]
      simp only [Option.bind_some, toNat_add_of_lt (hn.symm ▸ hfit), hn]
      split
      · exact h.safePlan_ret _ _
      · rename_i hgap
        have hroom : ∀ y ∈ s.next t, frame.toNat + count.toNat * 4096 ≤ s.lo y := by
          intro y hy
          obtain rfl : x = y := Option.some.inj (hx.symm.trans hy)
          exact not_lt.mp hgap
        split
        · rename_i hend
          have hend : s.hi t = frame.toNat := by rw [← hf.toNat_endOf, hend]
          refine hf.layout.extend _ (by rw [hn]; omega) (by rwa [hn, hend]) fun y hy => ?_
          rw [hn, hend]
          exact hroom y (hf.next_eq.trans hy)
        · rename_i hend
          rw [← UInt64.toNat_inj, hf.toNat_endOf] at hend
          have hplace := hf.layout.place none (some (-1)) hal (by rw [hn]; omega)
            (by rw [hn]; omega) (by rwa [hn]) (by omega) (.inl (by rwa [hn]))
          rwa [show s.nextBase t = some (s.base x) by rw [nextBase, hx, Option.map_some]]
            at hplace

theorem WellFormed.safe_allocMultipleAfter (h : s.WellFormed) (hal : base.toNat % 4096 = 0)
    (hnw : s.NoWrap (.allocMultipleAfter base count))
    (hclear : s.ClearPlace (.allocMultipleAfter base count)) :
    s.SafePlan (s.pageVirtualAllocMultipleAfterPlan base count) := by
  obtain ⟨pre, t, post, hf⟩ := h.found base
  have hfit : max (s.hi t) base.toNat + count.toNat * 4096 < 2 ^ 64 :=
    hnw.fits (by rw [range, hf.stopFind_eq, Option.map_some])
  have hn := toNat_shiftLeft_page (n := count) (by omega)
  rw [pageVirtualAllocMultipleAfterPlan]
  split
  · exact h.safePlan_ret _ _
  · rename_i hne
    have hcount := ne_zero_iff_pos.mp hne
    simp only [hf.find, hf.deref_eq, Option.bind_eq_bind, Option.bind_some, Option.pure_def,
      ge_iff_le, UInt64.le_iff_toNat_le, hf.toNat_endOf]
    split
    · split
      · exact h.safePlan_ret _ _
      · rename_i hgap
        refine hf.layout.extend _ (by rw [hn]; omega) (by rw [hn]; omega) fun x hx => ?_
        have hsum : (s.endOf t + count <<< 12).toNat = s.hi t + (count <<< 12).toNat := by
          rw [toNat_add_of_lt] <;> rw [hf.toNat_endOf]
          rw [hn]
          omega
        rw [hf.layout.nextBase_lt, hsum] at hgap
        exact not_lt.mp fun hlt => hgap ⟨x, hx, hlt⟩
    · rename_i hle
      refine hf.layout.place _ _ hal (by rw [hn]; omega) (by rw [hn]; omega) (by rw [hn]; omega)
        (by omega) ?_
      rw [hn]
      exact (hclear.resolve_left hne) t hf.stopFind_eq (by omega)

theorem WellFormed.safe_allocMultipleAfterEx (h : s.WellFormed) (hal : base.toNat % 4096 = 0)
    (hnw : s.NoWrap (.allocMultipleAfterEx base count))
    (hclear : s.ClearPlace (.allocMultipleAfterEx base count)) :
    s.SafePlan (s.pageVirtualAllocMultipleAfterExPlan base count) := by
  obtain ⟨pre, t, post, hf⟩ := h.found base
  rw [pageVirtualAllocMultipleAfterExPlan]
  split
  · exact h.safePlan_ret _ _
  · rename_i hne
    have hcount := ne_zero_iff_pos.mp hne
    obtain ⟨hstop, hroom⟩ := (hclear.resolve_left hne) t hf.stopFind_eq
    simp only [hf.find, hf.deref_eq, Option.bind_eq_bind, Option.bind_some, Option.pure_def,
      ge_iff_le, UInt64.le_iff_toNat_le, hf.toNat_endOf]
    split
    · rename_i hle
      -- behind the entry found, where the search stops at a gap that is large enough
      obtain ⟨e, he⟩ := Option.ne_none_iff_exists'.mp (hstop hle)
      simp only [stopGap, hf.find, Option.bind_eq_bind, Option.bind_some,
        Option.bind_eq_some_iff] at he
      obtain ⟨c, hc, hce⟩ := he
      obtain ⟨mid, t', x, post', heq, rfl, -, hgap⟩ := hf.layout.seekGap_spec hc
      have hlay : s.Layout ((pre ++ mid) ++ t' :: x :: post') := by
        rw [List.append_assoc, ← heq]
        exact hf.layout
      have hfit : s.hi t' + count.toNat * 4096 < 2 ^ 64 := by
        refine hnw.fits ?_
        rw [range, hf.stopFind_eq, Option.any_some, if_pos (by simpa using hle), stopGap]
        simp [hf.find, hc, hlay.deref_eq]
      have hn := toNat_shiftLeft_page (n := count) (by omega)
      have hsum : (s.endOf t' + count <<< 12).toNat = s.hi t' + (count <<< 12).toNat := by
        rw [toNat_add_of_lt] <;> rw [hlay.entry_self.toNat_endOf]
        rwa [hn]
      simp only [hc, hlay.deref_eq, Option.bind_some]
      refine hlay.extend _ (by rw [hn]; omega) (by rwa [hn]) fun y hy => ?_
      obtain rfl : x = y := by simpa using hy
      rw [UInt64.le_iff_toNat_le, hsum] at hgap
      exact hgap
    · rename_i hle
      -- in front of it, where there is room at the base
      have hfit : base.toNat + count.toNat * 4096 < 2 ^ 64 := by
        refine hnw.fits ?_
        rw [range, hf.stopFind_eq, Option.any_some, if_neg (by simpa using hle)]
      have hn := toNat_shiftLeft_page (n := count) (by omega)
      refine hf.layout.place _ _ hal (by rw [hn]; omega) (by rw [hn]; omega) (by rwa [hn])
        (by omega) ?_
      rw [hn]
      exact hroom (by omega)

theorem WellFormed.safe_allocMultipleBeyond {jumpCount : UInt64} (h : s.WellFormed)
    (hal : base.toNat % 4096 = 0) (hnw : s.NoWrap (.allocMultipleBeyond base count jumpCount))
    (hclear : s.ClearPlace (.allocMultipleBeyond base count jumpCount)) :
    s.SafePlan (s.pageVirtualAllocMultipleBeyondPlan base count jumpCount) := by
  obtain ⟨pre, t, post, hf⟩ := h.found base
  have hfit : max (s.hi t + jumpCount.toNat * 4096) base.toNat + count.toNat * 4096 < 2 ^ 64 :=
    hnw.fits (by rw [range, hf.stopFind_eq, Option.map_some])
  have hn := toNat_shiftLeft_page (n := count) (by omega)
  rw [pageVirtualAllocMultipleBeyondPlan]
  split
  · exact h.safePlan_ret _ _
  · rename_i hne
    have hcount := ne_zero_iff_pos.mp hne
    obtain ⟨hafter, hbeyond⟩ := (hclear.resolve_left hne) t hf.stopFind_eq
    split
    -- without a gap to keep it is the other function
    · rename_i hzero
      refine h.safe_allocMultipleAfter hal ?_ (.inr fun t' ht' => ?_)
      · simp only [NoWrap, range, hf.stopFind_eq, Option.map_some]
        rintro r ⟨⟩
        omega
      · obtain rfl : t = t' := Option.some.inj (hf.stopFind_eq.symm.trans ht')
        exact hafter hzero
    · rename_i hjump
      have hjump' := ne_zero_iff_pos.mp hjump
      have hframe := hf.toNat_beyondFrame jumpCount (by omega)
      have hhi := hf.hi_aligned
      simp only [hf.find, hf.deref_eq, Option.bind_eq_bind, Option.bind_some, Option.pure_def]
      refine hf.safe_beyond (by rw [hframe]; omega) (by rw [hn]; omega) (by rw [hn]; omega)
        (by rwa [hframe, hn]) (by rw [hframe]; omega) (fun hbelow => ?_) _
      rw [hframe, hn]
      exact hbeyond hjump (by rwa [hframe] at hbelow)

theorem WellFormed.safe_allocMultipleBeyondEx {jumpCount : UInt64} (h : s.WellFormed)
    (hal : base.toNat % 4096 = 0) (hnw : s.NoWrap (.allocMultipleBeyondEx base count jumpCount))
    (hclear : s.ClearPlace (.allocMultipleBeyondEx base count jumpCount)) :
    s.SafePlan (s.pageVirtualAllocMultipleBeyondExPlan base count jumpCount) := by
  rw [pageVirtualAllocMultipleBeyondExPlan]
  split
  · exact h.safePlan_ret _ _
  · rename_i hne
    have hcount := ne_zero_iff_pos.mp hne
    split
    · rename_i hzero
      refine h.safe_allocMultipleAfter hal ?_ (.inr ((hclear.resolve_left hne) hzero))
      simpa [NoWrap, range, hzero] using hnw
    · rename_i hjump
      -- the range of the entry the loop stops at bounds the number of pages
      have hfit : ∀ t ∈ s.stopBeyond (fun b frame => b < frame + count <<< 12) base jumpCount,
          max (s.hi t + jumpCount.toNat * 4096) base.toNat + count.toNat * 4096 < 2 ^ 64 := by
        intro t ht
        exact hnw.fits (by rw [range, if_neg hjump, show s.stopBeyond _ _ _ = some t from ht]; rfl)
      have hn : (count <<< 12).toNat = count.toNat * 4096 := by
        obtain ⟨t, ht⟩ := h.stopBeyond_eq (fun b frame => b < frame + count <<< 12) base jumpCount
        exact toNat_shiftLeft_page (by have := hfit t ht; omega)
      refine h.safe_beyondEx hal (ne_zero_iff_pos.mp hjump) (by rw [hn]; omega) (by rw [hn]; omega)
        (fun t ht => by rw [hn]; exact hfit t ht) fun frame b hb _ _ hlt => ?_
      rw [decide_eq_false_iff_not, UInt64.lt_iff_toNat_lt, toNat_add_of_lt hlt] at hb
      exact not_lt.mp hb

/-! ### Freeing -/

theorem WellFormed.safe_free (h : s.WellFormed) (hal : frame.toNat % 4096 = 0)
    (hclear : s.ClearPlace (.free frame)) : s.SafePlan (s.pageVirtualFreePlan frame) := by
  obtain ⟨pre, t, post, hf⟩ := h.found frame
  have ht := hf.layout.entry_self
  simp only [pageVirtualFreePlan, hf.find, hf.deref_eq, Option.bind_eq_bind, Option.bind_some,
    Option.pure_def, ge_iff_le, UInt64.le_iff_toNat_le, hf.toNat_endOf]
  split
  · exact h.safePlan_ret _ _
  · obtain ⟨hlt, hin⟩ := hclear t hf.stopFind_eq (by omega)
    rw [if_neg ht.len_ne_one]
    exact hf.layout.safe_cut _ hal (by decide) (by decide) hlt (by omega) hin

theorem WellFormed.safe_freeMultiple (h : s.WellFormed) (hal : frame.toNat % 4096 = 0)
    (hcount : count ≠ 0) (hnw : s.NoWrap (.freeMultiple frame count))
    (hclear : ∀ t ∈ s.stopFind frame, frame.toNat + count.toNat * 4096 < s.hi t →
      s.lo t < frame.toNat) :
    s.SafePlan (s.pageVirtualFreeMultiplePlan frame count) := by
  obtain ⟨pre, t, post, hf⟩ := h.found frame
  have ht := hf.layout.entry_self
  have hfit : frame.toNat + count.toNat * 4096 < 2 ^ 64 := hnw.fits rfl
  have hn := toNat_shiftLeft_page (n := count) (by omega)
  have hpos := ne_zero_iff_pos.mp hcount
  simp only [pageVirtualFreeMultiplePlan, hf.find, hf.deref_eq, Option.bind_eq_bind,
    Option.bind_some, Option.pure_def, ge_iff_le, UInt64.le_iff_toNat_le, hf.toNat_endOf,
    toNat_add_of_lt (hn.symm ▸ hfit), hn]
  split
  · exact h.safePlan_ret _ _
  · rw [if_neg ht.len_ne_one]
    exact hf.layout.safe_cut _ hal (by rw [hn]; omega) (by rw [hn]; omega)
      (hclear t hf.stopFind_eq (by omega)) (by omega) (.inl (by rw [hn]; omega))

end Calls

end VirtualAddressMap

end Betelgeuse
