/-
The `beyond` functions: a number of pages is left free below the range.

The one-shot functions look at the single place behind the entry the search has
found, the `_ex` functions move on along the list until the place is not
blocked.  The branch of the one-shot functions that extends the next entry
upwards is never taken (`Layout.not_endOf_eq`), so that behind the search both
end in the same two branches, `placePlan`.

`page_virtual_alloc_multiple_beyond` tests the first page only, so that an entry
in the rest of the range goes unnoticed (`multipleBeyondExact_iff`).
-/
import Betelgeuse.VirtualMapAfter

open HeapList WordBitmap RangeList

namespace Betelgeuse

namespace VirtualAddressMap

variable {s : VirtualAddressMap} {pre post : List Slot} {t : Slot} {base jumpCount : UInt64}

/-- The placing branches behind the test of the next entry. -/
theorem Layout.beyondPlan_eq (h : s.Layout (pre ++ t :: post)) (frame bytes : UInt64)
    (up : Slot → Option Plan) :
    (if (s.nextBase t).any (· ≤ frame) then some (⟨some frame, .ret 1⟩ : Plan)
      else if s.nextBase t = some (frame + bytes)
      then some ⟨some frame, .growDown (cellAfter pre) bytes⟩
      else if (s.next t).any (fun x => s.endOf x = frame) then (s.next t).bind up
      else some ⟨some frame, .insert (cellAfter pre) frame bytes (some (-1))⟩) =
    some (if (s.nextBase t).any (· ≤ frame) then ⟨some frame, .ret 1⟩
      else s.placePlan (cellAfter pre) t frame bytes (some frame)) := by
  split
  · rfl
  · rename_i hblock
    rw [if_neg (h.not_endOf_eq hblock), placePlan]
    split
    · rfl
    · rfl

theorem Found.allocBeyond_eq (h : s.Found base pre t post) (hjump : jumpCount ≠ 0) :
    s.pageVirtualAllocBeyond base jumpCount =
      Plan.run s (if (s.nextBase t).any (· ≤ s.beyondFrame t base jumpCount)
        then ⟨some (s.beyondFrame t base jumpCount), .ret 1⟩
        else s.placePlan (cellAfter pre) t (s.beyondFrame t base jumpCount) pageSize
          (some (s.beyondFrame t base jumpCount))) := by
  have hcall : s.pageVirtualAllocBeyond base jumpCount =
      (s.pageVirtualAllocBeyondPlan base jumpCount).bind (·.run s) := rfl
  rw [hcall, pageVirtualAllocBeyondPlan, if_neg hjump]
  simp only [h.find, h.deref_eq, Option.bind_eq_bind, Option.bind_some, Option.pure_def]
  rw [h.layout.beyondPlan_eq]
  rfl

/-- The `_ex` function behind its second loop. -/
theorem Found.allocBeyondEx_eq (h : s.Found base pre t post) (hjump : jumpCount ≠ 0)
    {mid post' : List Slot} {e : Slot} {f : UInt64} (heq : t :: post = mid ++ e :: post')
    (hseek : s.seekBeyond (fun b frame => b ≤ frame) jumpCount 129 (cellAfter pre)
      (s.beyondFrame t base jumpCount) = some (cellAfter (pre ++ mid), f)) :
    s.pageVirtualAllocBeyondEx base jumpCount =
      (s.placePlan (cellAfter (pre ++ mid)) e f pageSize (some f)).run s := by
  have he : s.Layout ((pre ++ mid) ++ e :: post') := by
    rw [List.append_assoc, ← heq]
    exact h.layout
  have hcall : s.pageVirtualAllocBeyondEx base jumpCount =
      (s.pageVirtualAllocBeyondExPlan base jumpCount).bind (·.run s) := rfl
  rw [hcall, pageVirtualAllocBeyondExPlan, if_neg hjump]
  simp only [h.find, h.deref_eq, hseek, he.deref_eq, Option.bind_eq_bind, Option.bind_some,
    Option.pure_def, placePlan]
  split
  · rfl
  · rfl

/-- The loop makes no step when the next entry does not block the frame. -/
theorem Layout.seekBeyond_stop (h : s.Layout (pre ++ t :: post)) (blocks : UInt64 → UInt64 → Bool)
    (jumpCount : UInt64) {n : ℕ} (hn : 0 < n) {frame : UInt64}
    (hstop : ∀ x ∈ post.head?, blocks (s.base x) frame = false) :
    s.seekBeyond blocks jumpCount n (cellAfter pre) frame = some (cellAfter pre, frame) := by
  obtain ⟨n, rfl⟩ : ∃ m, n = m + 1 := ⟨n - 1, by omega⟩
  have hnext : s.next t = post.head? := h.next_eq
  rw [seekBeyond, h.deref_eq]
  simp only [Option.bind_eq_bind, Option.bind_some, hnext]
  cases hx : post.head? with
  | none => rfl
  | some x =>
    simp only [hstop x hx]
    rfl

/-! ### `page_virtual_alloc_beyond` and `page_virtual_alloc_beyond_ex` -/

theorem growUp_run {c : Cell Slot} {bytes top : UInt64} {out : Option UInt64} {o : Outcome}
    (ho : Plan.run s ⟨out, .growUp c bytes top⟩ = some o) : o.code = some 0 := by
  obtain ⟨r, hr, rfl⟩ := Option.map_eq_some_iff.mp ho
  rw [perform] at hr
  obtain ⟨t, -, hr⟩ := Option.bind_eq_some_iff.mp hr
  simp only at hr
  split at hr
  · obtain rfl := Option.some.inj hr
    rfl
  · split at hr
    · obtain rfl := Option.some.inj hr
      rfl
    · obtain rfl := Option.some.inj hr
      rfl

theorem Found.allocAfter_ne_one (h : s.Found base pre t post) {o : Outcome}
    (ho : s.pageVirtualAllocAfter base = some o) : o.code ≠ some 1 := by
  intro hone
  rw [h.allocAfter_eq] at ho
  split at ho
  · cases (growUp_run ho).symm.trans hone
  · rcases (placePlan_run ho).2 with hcode | hcode
    · cases hcode.symm.trans hone
    · cases hcode.symm.trans hone

theorem pageVirtualAllocBeyond_zero (base : UInt64) :
    s.pageVirtualAllocBeyond base 0 = s.pageVirtualAllocAfter base := rfl

theorem pageVirtualAllocBeyondEx_zero (base : UInt64) :
    s.pageVirtualAllocBeyondEx base 0 = s.pageVirtualAllocAfter base := rfl

/-- The map is unchanged, and between the entry found for `base` and `*frame`
there is a page that is covered. -/
def BeyondBlocked (s : VirtualAddressMap) (base : UInt64) (o : Outcome) : Prop :=
  o.map = s ∧ ∃ t f a, s.stopFind base = some t ∧ o.frame = some f ∧ s.hi t ≤ a ∧ a ≤ f.toNat ∧
    a % 4096 = 0 ∧ Set.Ico a (a + 4096) ⊆ s.addresses

theorem EntryOk.page_subset (h : s.EntryOk t) (ht : s.links.OnList t) :
    Set.Ico (s.lo t) (s.lo t + 4096) ⊆ s.addresses := by
  rintro a ⟨hlo, hlt⟩
  have hhi := h.hi_aligned
  have hal := h.aligned
  have hpos := h.lo_lt_hi
  exact ⟨t, ht, hlo, by omega⟩

/-- Where the one-shot function does not return 1, the searching one does the
same; and where it returns 1, the place was taken. -/
theorem beyond_agrees (h : s.WellFormed) (base jumpCount : UInt64) :
    (∀ o, s.pageVirtualAllocBeyond base jumpCount = some o → o.code = some 1 →
      s.BeyondBlocked base o) ∧
    ((∀ o, s.pageVirtualAllocBeyond base jumpCount = some o → o.code ≠ some 1) →
      s.pageVirtualAllocBeyondEx base jumpCount = s.pageVirtualAllocBeyond base jumpCount) := by
  obtain ⟨pre, t, post, hf⟩ := h.found base
  by_cases hjump : jumpCount = 0
  · subst hjump
    rw [pageVirtualAllocBeyond_zero, pageVirtualAllocBeyondEx_zero]
    exact ⟨fun o ho hone => absurd hone (hf.allocAfter_ne_one ho), fun _ => rfl⟩
  rw [hf.allocBeyond_eq hjump]
  set frame := s.beyondFrame t base jumpCount with hframe
  by_cases hblock : (s.nextBase t).any (· ≤ frame) = true
  · rw [if_pos hblock]
    refine ⟨fun o ho _ => ?_, fun hne => absurd rfl (hne ⟨some 1, some frame, s⟩ rfl)⟩
    obtain rfl := Option.some.inj ho
    -- the next entry starts at the frame or below
    obtain ⟨x, hx, hle⟩ := (hf.layout.nextBase_le frame).mp hblock
    have hok := hf.layout.entry_head hx
    exact ⟨rfl, t, frame, s.lo x, hf.stopFind_eq, rfl, (hf.layout.gap x hx).le, hle,
      hok.aligned, hok.page_subset (hf.layout.onList_head hx)⟩
  · rw [if_neg hblock]
    refine ⟨fun o ho hone => ?_, fun _ => ?_⟩
    · rcases (placePlan_run ho).2 with hcode | hcode
      · cases hcode.symm.trans hone
      · cases hcode.symm.trans hone
    · -- the loop of the searching function makes no step
      have hstop : ∀ x ∈ post.head?, decide (s.base x ≤ frame) = false := by
        intro x hx
        rw [decide_eq_false_iff_not]
        exact fun hle => hblock ((hf.layout.nextBase_any _).mpr ⟨x, hx, decide_eq_true hle⟩)
      have hseek := hf.layout.seekBeyond_stop (fun b frame => b ≤ frame) jumpCount (n := 129)
        (by decide) hstop
      have heq : t :: post = [] ++ t :: post := rfl
      rw [hf.allocBeyondEx_eq hjump heq (by rwa [List.append_nil]), List.append_nil]

/-- The agreement for a page behind the first entry. -/
theorem beyond_agrees_twoEntries :
    (∀ o, twoEntries.pageVirtualAllocBeyond 0x80000 1 = some o → o.code = some 1 →
      twoEntries.BeyondBlocked 0x80000 o) ∧
    ((∀ o, twoEntries.pageVirtualAllocBeyond 0x80000 1 = some o → o.code ≠ some 1) →
      twoEntries.pageVirtualAllocBeyondEx 0x80000 1 =
        twoEntries.pageVirtualAllocBeyond 0x80000 1) :=
  beyond_agrees ⟨_, twoEntries_layout⟩ 0x80000 1

/-! ### One page is the count 1 -/

theorem shiftLeft_one_page : (1 : UInt64) <<< 12 = pageSize := rfl

/-- Behind the entry that contains the address there is always room for a page. -/
theorem Found.allocAfter_eq_multiple (h : s.Found base pre t post) :
    s.pageVirtualAllocAfter base = s.pageVirtualAllocMultipleAfter base 1 := by
  rw [h.allocAfter_eq, h.allocMultipleAfter_eq (by decide), shiftLeft_one_page]
  have hroom : ¬ (s.nextBase t).any (· < s.endOf t + pageSize) = true := by
    intro hlt
    obtain ⟨x, hx, hlt⟩ := (h.layout.nextBase_lt _).mp hlt
    have hgap := h.page_gap x hx
    have hxlt : s.lo x < 2 ^ 64 := (s.base x).toNat_lt
    have hend := h.toNat_endOf
    rw [toNat_add_of_lt, hend, toNat_pageSize] at hlt
    · omega
    · rw [hend, toNat_pageSize]
      omega
  rw [if_neg hroom]

theorem pageVirtualAllocBeyond_eq_multiple (h : s.WellFormed) (base jumpCount : UInt64) :
    s.pageVirtualAllocBeyond base jumpCount =
      s.pageVirtualAllocMultipleBeyond base 1 jumpCount := by
  by_cases hjump : jumpCount = 0
  · subst hjump
    obtain ⟨pre, t, post, hf⟩ := h.found base
    exact hf.allocAfter_eq_multiple
  · have hplan : s.pageVirtualAllocBeyondPlan base jumpCount =
        s.pageVirtualAllocMultipleBeyondPlan base 1 jumpCount := by
      rw [pageVirtualAllocBeyondPlan, pageVirtualAllocMultipleBeyondPlan, if_neg hjump,
        if_neg hjump]
      rfl
    rw [pageVirtualAllocBeyond, pageVirtualAllocMultipleBeyond, hplan]

/-- The `_ex` function for several pages behind its second loop. -/
theorem Found.allocMultipleBeyondEx_eq (h : s.Found base pre t post) {allocCount : UInt64}
    (hcount : allocCount ≠ 0) (hjump : jumpCount ≠ 0) {mid post' : List Slot} {e : Slot}
    {f : UInt64} (heq : t :: post = mid ++ e :: post')
    (hseek : s.seekBeyond (fun b frame => b < frame + allocCount <<< 12) jumpCount 129
      (cellAfter pre) (s.beyondFrame t base jumpCount) = some (cellAfter (pre ++ mid), f)) :
    s.pageVirtualAllocMultipleBeyondEx base allocCount jumpCount =
      (s.placePlan (cellAfter (pre ++ mid)) e f (allocCount <<< 12) (some f)).run s := by
  have he : s.Layout ((pre ++ mid) ++ e :: post') := by
    rw [List.append_assoc, ← heq]
    exact h.layout
  have hcall : s.pageVirtualAllocMultipleBeyondEx base allocCount jumpCount =
      (s.pageVirtualAllocMultipleBeyondExPlan base allocCount jumpCount).bind (·.run s) := rfl
  rw [hcall, pageVirtualAllocMultipleBeyondExPlan, if_neg hcount, if_neg hjump]
  simp only [h.find, h.deref_eq, hseek, he.deref_eq, Option.bind_eq_bind, Option.bind_some,
    Option.pure_def, placePlan]
  split
  · rfl
  · rfl

/-- For one page the two loops stop at the same place: the frames and the bases
of the entries are page-aligned. -/
theorem Found.allocBeyondEx_eq_multiple (h : s.Found base pre t post) (hjump : jumpCount ≠ 0)
    (hal : base.toNat % 4096 = 0) (hnw : s.NoWrap (.allocBeyondEx base jumpCount)) :
    s.pageVirtualAllocBeyondEx base jumpCount =
      s.pageVirtualAllocMultipleBeyondEx base 1 jumpCount := by
  set frame := s.beyondFrame t base jumpCount with hframe
  obtain ⟨mid, e, post', heq, hseek, hchain, hstop⟩ := h.layout.seekBeyond_spec
    (fun b frame => b ≤ frame) jumpCount frame (Nat.lt_succ_of_lt h.layout.length_le)
  obtain ⟨mid', e', post₂, heq', hseek', hchain', hstop'⟩ := h.layout.seekBeyond_spec
    (fun b frame => b < frame + (1 : UInt64) <<< 12) jumpCount frame
    (Nat.lt_succ_of_lt h.layout.length_le)
  have he : s.Layout ((pre ++ mid) ++ e :: post') := by
    rw [List.append_assoc, ← heq]
    exact h.layout
  have hfit : max (s.hi e + jumpCount.toNat * 4096) base.toNat + 4096 < 2 ^ 64 := by
    refine hnw.fits ?_
    rw [range, if_neg hjump, stopBeyond, h.find]
    simp [h.deref_eq, ← hframe, hseek, he.deref_eq]
  -- no sum that the loops compare wraps
  have hmem : ∀ a ∈ mid ++ [e], a ∈ t :: post ∧ s.hi a ≤ s.hi e := by
    intro a ha
    rw [heq]
    rcases List.mem_append.mp ha with ha | ha
    · have hlt := he.lt_of_mem_pre (List.mem_append_right pre ha)
      exact ⟨by simp [ha], hlt.le.trans (s.lo_le_hi e)⟩
    · obtain rfl : a = e := List.mem_singleton.mp ha
      exact ⟨by simp, le_rfl⟩
  have hcand : ∀ a ∈ mid ++ [e], (s.candidate t frame jumpCount a).toNat =
      max (s.hi a + jumpCount.toNat * 4096) base.toNat := by
    intro a ha
    have := (hmem a ha).2
    exact h.toNat_candidate jumpCount (hmem a ha).1 (by omega)
  have hsum : ∀ a ∈ mid ++ [e], (s.candidate t frame jumpCount a + (1 : UInt64) <<< 12).toNat =
      (s.candidate t frame jumpCount a).toNat + 4096 := by
    intro a ha
    have := (hmem a ha).2
    rw [shiftLeft_one_page, toNat_add_of_lt] <;> rw [hcand a ha, toNat_pageSize]
    omega
  -- so the steps of the first loop are steps of the second, and it stops there too
  have hsteps : (mid ++ [e]).IsChain fun a b =>
      decide (s.base b < s.candidate t frame jumpCount a + (1 : UInt64) <<< 12) = true := by
    refine List.IsChain.imp_of_mem_imp (fun a b ha _ hab => ?_) hchain
    rw [decide_eq_true_eq, UInt64.le_iff_toNat_le] at hab
    rw [decide_eq_true_eq, UInt64.lt_iff_toNat_lt, hsum a ha]
    omega
  have hend : ∀ x ∈ post'.head?,
      ¬ decide (s.base x < s.candidate t frame jumpCount e + (1 : UInt64) <<< 12) = true := by
    intro x hx hlt
    have hle := hstop x hx
    rw [decide_eq_false_iff_not, UInt64.le_iff_toNat_le, hcand e (by simp)] at hle
    rw [decide_eq_true_eq, UInt64.lt_iff_toNat_lt, hsum e (by simp), hcand e (by simp)] at hlt
    have hxal := (he.entry_head hx).aligned
    have hhi := he.entry_self.hi_aligned
    rw [lo] at hxal
    omega
  obtain ⟨rfl, rfl, rfl⟩ := split_unique (heq.symm.trans heq') hsteps hchain' hend
    fun x hx => Bool.not_eq_true _ ▸ hstop' x hx
  rw [h.allocBeyondEx_eq hjump heq hseek, h.allocMultipleBeyondEx_eq (by decide) hjump heq hseek',
    shiftLeft_one_page]

/-- The allocators for one page are those for several pages with the count 1. -/
theorem single_eq_multiple (h : s.WellFormed) (hal : base.toNat % 4096 = 0)
    (hnw : s.NoWrap (.allocBeyondEx base jumpCount)) :
    s.pageVirtualAllocAfter base = s.pageVirtualAllocMultipleAfter base 1 ∧
    s.pageVirtualAllocBeyond base jumpCount = s.pageVirtualAllocMultipleBeyond base 1 jumpCount ∧
    s.pageVirtualAllocBeyondEx base jumpCount =
      s.pageVirtualAllocMultipleBeyondEx base 1 jumpCount := by
  obtain ⟨pre, t, post, hf⟩ := h.found base
  refine ⟨hf.allocAfter_eq_multiple, pageVirtualAllocBeyond_eq_multiple h base jumpCount, ?_⟩
  by_cases hjump : jumpCount = 0
  · subst hjump
    exact hf.allocAfter_eq_multiple
  · exact hf.allocBeyondEx_eq_multiple hjump hal hnw

/-- Both ways to ask for a page with one page free below it. -/
theorem single_eq_multiple_twoEntries :
    twoEntries.pageVirtualAllocAfter 0x80000 = twoEntries.pageVirtualAllocMultipleAfter 0x80000 1 ∧
    twoEntries.pageVirtualAllocBeyond 0x80000 1 =
      twoEntries.pageVirtualAllocMultipleBeyond 0x80000 1 1 ∧
    twoEntries.pageVirtualAllocBeyondEx 0x80000 1 =
      twoEntries.pageVirtualAllocMultipleBeyondEx 0x80000 1 1 := by
  have hstop : twoEntries.stopBeyond (fun b frame => b ≤ frame) 0x80000 1 = some 0 := rfl
  refine single_eq_multiple ⟨_, twoEntries_layout⟩ (by decide) fun r hr => ?_
  rw [range, if_neg (by decide), hstop] at hr
  obtain rfl := Option.some.inj hr
  decide

/-! ### `page_virtual_alloc_multiple_beyond` -/

section MultipleBeyond

variable {allocCount : UInt64}

/-- `max(end of t + jump_count pages, base)`. -/
def beyondStart (s : VirtualAddressMap) (t : Slot) (base jumpCount : UInt64) : ℕ :=
  max (s.hi t + jumpCount.toNat * 4096) base.toNat

/-- With `t` the entry found for `base`: `*frame` is the place beyond it; if a
page of the jump or of the range there is covered the call returns 1 and changes
nothing, and otherwise, if a slot can be found, it returns 0 and adds the range. -/
def MultipleBeyondExact (s : VirtualAddressMap) (base allocCount jumpCount : UInt64) : Prop :=
  ∃ o t, s.pageVirtualAllocMultipleBeyond base allocCount jumpCount = some o ∧
    s.stopFind base = some t ∧
    o.frame.map UInt64.toNat = some (s.beyondStart t base jumpCount) ∧
    (¬ s.Free (s.beyondStart t base jumpCount - jumpCount.toNat * 4096)
        (jumpCount.toNat * 4096 + allocCount.toNat * 4096) →
      o.code = some 1 ∧ o.map = s) ∧
    (s.Free (s.beyondStart t base jumpCount - jumpCount.toNat * 4096)
        (jumpCount.toNat * 4096 + allocCount.toNat * 4096) → ¬ s.Full →
      o.code = some 0 ∧ s.Adds (s.beyondStart t base jumpCount) (allocCount.toNat * 4096) o.map)

/-- A page of the jump or the first page of the range is covered; or all of them
and the range are free, and the range can be registered. -/
def MultipleBeyondServes (s : VirtualAddressMap) (base allocCount jumpCount : UInt64) : Prop :=
  ∀ t ∈ s.stopFind base,
    ¬ s.Free (s.beyondStart t base jumpCount - jumpCount.toNat * 4096)
      (jumpCount.toNat * 4096 + 4096) ∨
    (s.Free (s.beyondStart t base jumpCount - jumpCount.toNat * 4096)
        (jumpCount.toNat * 4096 + allocCount.toNat * 4096) ∧
      (s.Full ∨ s.SlotFor (s.beyondStart t base jumpCount + allocCount.toNat * 4096)))

theorem Found.allocMultipleBeyond_eq (h : s.Found base pre t post) (hcount : allocCount ≠ 0)
    (hjump : jumpCount ≠ 0) :
    s.pageVirtualAllocMultipleBeyond base allocCount jumpCount =
      Plan.run s (if (s.nextBase t).any (· ≤ s.beyondFrame t base jumpCount)
        then ⟨some (s.beyondFrame t base jumpCount), .ret 1⟩
        else s.placePlan (cellAfter pre) t (s.beyondFrame t base jumpCount) (allocCount <<< 12)
          (some (s.beyondFrame t base jumpCount))) := by
  have hcall : s.pageVirtualAllocMultipleBeyond base allocCount jumpCount =
      (s.pageVirtualAllocMultipleBeyondPlan base allocCount jumpCount).bind (·.run s) := rfl
  rw [hcall, pageVirtualAllocMultipleBeyondPlan, if_neg hcount, if_neg hjump]
  simp only [h.find, h.deref_eq, Option.bind_eq_bind, Option.bind_some, Option.pure_def]
  rw [h.layout.beyondPlan_eq]
  rfl

/-- The jump and `m` bytes behind it are free exactly if the next entry starts
behind them. -/
theorem Found.free_beyond_iff (h : s.Found base pre t post) (jumpCount : UInt64) (m : ℕ) :
    s.Free (s.beyondStart t base jumpCount - jumpCount.toNat * 4096)
        (jumpCount.toNat * 4096 + m) ↔
      ∀ x ∈ post.head?, s.beyondStart t base jumpCount + m ≤ s.lo x := by
  have hend : s.beyondStart t base jumpCount - jumpCount.toNat * 4096 +
      (jumpCount.toNat * 4096 + m) = s.beyondStart t base jumpCount + m := by
    rw [beyondStart]
    omega
  rw [h.layout.free_iff_gap (by rw [beyondStart]; omega) fun x hx => by
    have := h.above x hx
    have := h.layout.gap x hx
    rw [beyondStart]
    omega]
  rw [hend]

/-- The code looks at the first page of the range only. -/
theorem Found.beyondFrame_blocked_iff (h : s.Found base pre t post) (jumpCount : UInt64)
    (hal : base.toNat % 4096 = 0) (hfit : s.beyondStart t base jumpCount < 2 ^ 64) :
    (s.nextBase t).any (· ≤ s.beyondFrame t base jumpCount) = true ↔
      ¬ s.Free (s.beyondStart t base jumpCount - jumpCount.toNat * 4096)
        (jumpCount.toNat * 4096 + 4096) := by
  have hhi := h.hi_aligned
  have hle : s.hi t + jumpCount.toNat * 4096 ≤ s.beyondStart t base jumpCount := le_max_left _ _
  have hfal : s.beyondStart t base jumpCount % 4096 = 0 := by
    rw [beyondStart]
    omega
  have hframe : (s.beyondFrame t base jumpCount).toNat = s.beyondStart t base jumpCount :=
    h.toNat_beyondFrame jumpCount (by omega)
  rw [h.free_beyond_iff jumpCount 4096, h.layout.nextBase_le, hframe]
  constructor
  · rintro ⟨x, hx, hblock⟩ hroom
    have := hroom x hx
    omega
  · intro hroom
    by_contra hnone
    refine hroom fun x hx => ?_
    -- both are page-aligned
    have hxal := (h.layout.entry_head hx).aligned
    have hlt : ¬ s.lo x ≤ s.beyondStart t base jumpCount := fun hle => hnone ⟨x, hx, hle⟩
    omega

/-- `page_virtual_alloc_multiple_beyond` keeps its promise exactly on the inputs
that `MultipleBeyondServes` describes. -/
theorem multipleBeyondExact_iff (h : s.WellFormed) (hcount : allocCount ≠ 0)
    (hjump : jumpCount ≠ 0) (hal : base.toNat % 4096 = 0)
    (hnw : s.NoWrap (.allocMultipleBeyond base allocCount jumpCount)) :
    s.MultipleBeyondExact base allocCount jumpCount ↔
      s.MultipleBeyondServes base allocCount jumpCount := by
  obtain ⟨pre, t, post, hf⟩ := h.found base
  have hpos := ne_zero_iff_pos.mp hcount
  have hjpos := ne_zero_iff_pos.mp hjump
  have hfit : s.beyondStart t base jumpCount + allocCount.toNat * 4096 < 2 ^ 64 :=
    hnw.fits (by rw [range, hf.stopFind_eq, Option.map_some]; rfl)
  have hstart : s.hi t + jumpCount.toNat * 4096 ≤ s.beyondStart t base jumpCount :=
    le_max_left _ _
  have hframe : (s.beyondFrame t base jumpCount).toNat = s.beyondStart t base jumpCount :=
    hf.toNat_beyondFrame jumpCount (by omega)
  have hbytes := toNat_shiftLeft_page (n := allocCount) (by omega)
  have hhi := hf.hi_aligned
  have hfal : s.beyondStart t base jumpCount % 4096 = 0 := by
    rw [beyondStart]
    omega
  have hall := hf.free_beyond_iff jumpCount (allocCount.toNat * 4096)
  -- the two ways of serving a call, at the entry where the search stops
  have hserves : s.MultipleBeyondServes base allocCount jumpCount ↔
      ¬ s.Free (s.beyondStart t base jumpCount - jumpCount.toNat * 4096)
        (jumpCount.toNat * 4096 + 4096) ∨
      (s.Free (s.beyondStart t base jumpCount - jumpCount.toNat * 4096)
          (jumpCount.toNat * 4096 + allocCount.toNat * 4096) ∧
        (s.Full ∨ s.SlotFor (s.beyondStart t base jumpCount + allocCount.toNat * 4096))) := by
    rw [MultipleBeyondServes, hf.stopFind_eq]
    simp only [Option.mem_some_iff, forall_eq']
  have hblock := hf.beyondFrame_blocked_iff jumpCount hal (by omega)
  rw [hserves, MultipleBeyondExact, hf.allocMultipleBeyond_eq hcount hjump]
  by_cases hblocked : (s.nextBase t).any (· ≤ s.beyondFrame t base jumpCount) = true
  · have hnot := hblock.mp hblocked
    have hnotall : ¬ s.Free (s.beyondStart t base jumpCount - jumpCount.toNat * 4096)
        (jumpCount.toNat * 4096 + allocCount.toNat * 4096) :=
      fun hfree => hnot (hfree.mono le_rfl (by omega))
    -- the test of the end page answers 1
    rw [if_pos hblocked]
    refine iff_of_true ⟨_, t, rfl, hf.stopFind_eq, ?_, fun _ => ⟨rfl, rfl⟩,
      fun hfree => absurd hfree hnotall⟩ (.inl hnot)
    rw [Option.map_some, hframe]
  · rw [if_neg hblocked, or_iff_right fun hnot => hblocked (hblock.mpr hnot)]
    -- behind the test the range is placed, in the rest of the buffer or over the next entry
    have hplace := hf.layout.place_serves_iff (allocCount <<< 12)
      (some (s.beyondFrame t base jumpCount))
      (s.Free (s.beyondStart t base jumpCount - jumpCount.toNat * 4096)
        (jumpCount.toNat * 4096 + allocCount.toNat * 4096))
      (by rwa [hframe]) (by omega) (by omega) (by rwa [hframe, hbytes]) (by omega)
      (by rwa [hframe, hbytes])
    rw [hframe, hbytes] at hplace
    rw [← hplace]
    refine exists_congr fun o => ⟨?_, ?_⟩
    · rintro ⟨t', ho, ht', -, hcodes⟩
      obtain rfl : t = t' := Option.some.inj (hf.stopFind_eq.symm.trans ht')
      exact ⟨ho, hcodes⟩
    · rintro ⟨ho, hcodes⟩
      refine ⟨t, ho, hf.stopFind_eq, ?_, hcodes⟩
      rw [(placePlan_run ho).1, Option.map_some, hframe]

/-- The criterion for two pages a page beyond the first entry. -/
theorem multipleBeyondExact_twoEntries_iff :
    twoEntries.MultipleBeyondExact 0x80000 2 1 ↔ twoEntries.MultipleBeyondServes 0x80000 2 1 := by
  refine multipleBeyondExact_iff ⟨_, twoEntries_layout⟩ (by decide) (by decide) (by decide)
    fun r hr => ?_
  have hstop : twoEntries.stopFind 0x80000 = some 0 := rfl
  rw [range, hstop] at hr
  obtain rfl := Option.some.inj hr
  decide

/-- Eleven pages a page beyond the first entry reach over the second entry: the
call returns 0. -/
theorem not_multipleBeyondExact_twoEntries :
    twoEntries.WellFormed ∧ twoEntries.FreshSlot ∧ ¬ twoEntries.Full ∧
      twoEntries.NoWrap (.allocMultipleBeyond 0x80000 11 1) ∧
      ¬ twoEntries.MultipleBeyondExact 0x80000 11 1 ∧
      ∃ o, twoEntries.pageVirtualAllocMultipleBeyond 0x80000 11 1 = some o ∧ o.code = some 0 := by
  have hstop : twoEntries.stopFind 0x80000 = some 0 := rfl
  have hcall : ∃ o, twoEntries.pageVirtualAllocMultipleBeyond 0x80000 11 1 = some o ∧
      o.code = some 0 := ⟨_, rfl, rfl⟩
  refine ⟨⟨_, twoEntries_layout⟩, twoEntries_freshSlot, twoEntries_not_full, fun r hr => ?_,
    ?_, hcall⟩
  · rw [range, hstop] at hr
    obtain rfl := Option.some.inj hr
    decide
  · rintro ⟨o, t, ho, ht, -, hone, -⟩
    obtain rfl : (0 : Slot) = t := Option.some.inj (hstop.symm.trans ht)
    obtain ⟨o', ho', hcode⟩ := hcall
    obtain rfl := Option.some.inj (ho.symm.trans ho')
    have hsecond := twoEntries_layout.onList_self
    have hcode' := (hone (not_free hsecond (c := 0x90000) (by decide) (by decide) (by decide)
      (by decide))).1
    cases hcode.symm.trans hcode'

end MultipleBeyond

/-! ### `page_virtual_alloc_multiple_beyond_ex` -/

section MultipleBeyondEx

variable {allocCount : UInt64}

/-- The candidates: the place beyond the entry found for `base`, and the ends of
the later entries with the jump added. -/
def candidateStart (s : VirtualAddressMap) (t : Slot) (base jumpCount : UInt64) (e : Slot) : ℕ :=
  if e = t then s.beyondStart t base jumpCount else s.hi e + jumpCount.toNat * 4096

/-- The candidate of `e` is the first one, from the entry `t` on, whose pages end
at or below the entry behind it. -/
structure FirstFit (s : VirtualAddressMap) (t : Slot) (base allocCount jumpCount : UInt64)
    (e : Slot) : Prop where
  onList : s.links.OnList e
  behind : s.lo t ≤ s.lo e
  fits : ∀ x ∈ s.next e,
    s.candidateStart t base jumpCount e + allocCount.toNat * 4096 ≤ s.lo x
  refused : ∀ k x, s.links.OnList k → s.lo t ≤ s.lo k → s.lo k < s.lo e → s.next k = some x →
    s.lo x < s.candidateStart t base jumpCount k + allocCount.toNat * 4096

theorem Found.toNat_candidate_eq (h : s.Found base pre t post) (jumpCount : UInt64) {e : Slot}
    (he : e ∈ t :: post) (hfit : s.hi e + jumpCount.toNat * 4096 < 2 ^ 64) :
    (s.candidate t (s.beyondFrame t base jumpCount) jumpCount e).toNat =
      s.candidateStart t base jumpCount e := by
  rw [h.toNat_candidate jumpCount he hfit, candidateStart]
  split
  · rename_i het
    subst het
    rfl
  · rename_i hne
    have := h.above_mem e ((List.mem_cons.mp he).resolve_left hne)
    have := s.lo_le_hi e
    exact max_eq_left (by omega)

/-- The candidates lie a jump above the end of their entry, and page-aligned. -/
theorem Found.candidateStart_spec (h : s.Found base pre t post) (hal : base.toNat % 4096 = 0)
    (jumpCount : UInt64) {e : Slot} (he : s.links.OnList e) :
    s.hi e + jumpCount.toNat * 4096 ≤ s.candidateStart t base jumpCount e ∧
      s.candidateStart t base jumpCount e % 4096 = 0 ∧
      s.candidateStart t base jumpCount e ≤ max (s.hi e + jumpCount.toNat * 4096) base.toNat := by
  have hhi := (h.layout.entry e (h.layout.holds.onList_iff.mp he)).hi_aligned
  rw [candidateStart]
  split
  · rename_i het
    subst het
    rw [beyondStart]
    omega
  · omega

/-- The second loop stops at the first candidate that fits. -/
theorem Found.seekBeyond_firstFit (h : s.Found base pre t post) (hal : base.toNat % 4096 = 0)
    (hpos : 0 < allocCount.toNat) (hfit : ∀ k, s.links.OnList k →
      max (s.hi k + jumpCount.toNat * 4096) base.toNat + allocCount.toNat * 4096 < 2 ^ 64) :
    ∃ mid e post' f, t :: post = mid ++ e :: post' ∧
      s.seekBeyond (fun b frame => b < frame + allocCount <<< 12) jumpCount 129 (cellAfter pre)
        (s.beyondFrame t base jumpCount) = some (cellAfter (pre ++ mid), f) ∧
      s.FirstFit t base allocCount jumpCount e ∧
      f.toNat = s.candidateStart t base jumpCount e := by
  have hmem : ∀ k ∈ t :: post, s.links.OnList k := fun k hk =>
    h.layout.holds.onList_iff.mpr (List.mem_append_right pre hk)
  have hcand : ∀ k ∈ t :: post,
      (s.candidate t (s.beyondFrame t base jumpCount) jumpCount k).toNat =
        s.candidateStart t base jumpCount k := by
    intro k hk
    have := hfit k (hmem k hk)
    exact h.toNat_candidate_eq jumpCount hk (by omega)
  have hsum : ∀ k ∈ t :: post,
      (s.candidate t (s.beyondFrame t base jumpCount) jumpCount k + allocCount <<< 12).toNat =
        s.candidateStart t base jumpCount k + allocCount.toNat * 4096 := by
    intro k hk
    have := hfit k (hmem k hk)
    have := (h.candidateStart_spec hal jumpCount (hmem k hk)).2.2
    have hbytes := toNat_shiftLeft_page (n := allocCount) (by omega)
    rw [toNat_add_of_lt] <;> rw [hcand k hk, hbytes]
    omega
  obtain ⟨mid, e, post', heq, hseek, hchain, hstop⟩ := h.layout.seekBeyond_spec
    (fun b frame => b < frame + allocCount <<< 12) jumpCount (s.beyondFrame t base jumpCount)
    (Nat.lt_succ_of_lt h.layout.length_le)
  have hlay : s.Layout (pre ++ (mid ++ e :: post')) := heq ▸ h.layout
  have he : s.Layout ((pre ++ mid) ++ e :: post') := by simpa using hlay
  have hein : e ∈ t :: post := heq ▸ by simp
  refine ⟨mid, e, post', _, heq, hseek, ⟨he.onList_self,
    (h.layout.mem_iff_lo_le he.onList_self).mp hein, fun x hx => ?_,
    fun k x hk hlo hlt hx => ?_⟩, hcand e hein⟩
  · have hle := hstop x (he.next_eq.symm.trans hx)
    rw [decide_eq_false_iff_not, UInt64.lt_iff_toNat_lt, hsum e hein] at hle
    exact not_lt.mp hle
  · -- an entry from `t` to below `e` is one that the loop has refused
    have hhead : ∀ a ∈ (mid ++ [e]).head?, s.lo a ≤ s.lo k := by
      intro a ha
      obtain rfl : t = a := Option.some.inj ((head?_of_split heq).symm.trans ha)
      exact hlo
    have hsmall := hlay.rel_of_chain hchain hk hhead hlt hx
    rw [decide_eq_true_eq, UInt64.lt_iff_toNat_lt,
      hsum k ((h.layout.mem_iff_lo_le hk).mpr hlo)] at hsmall
    exact hsmall

/-- The search is first fit, and what it leads to is safe. -/
theorem multipleBeyondEx_firstFit (h : s.WellFormed) (hfresh : s.FreshSlot)
    (hal : base.toNat % 4096 = 0) (hcount : allocCount ≠ 0) (hjump : jumpCount ≠ 0)
    (hnw : ∀ k, s.links.OnList k → s.next k = none →
      max base.toNat (s.hi k + jumpCount.toNat * 4096) + allocCount.toNat * 4096 < 2 ^ 64) :
    ∃ o t e f, s.pageVirtualAllocMultipleBeyondEx base allocCount jumpCount = some o ∧
      s.stopFind base = some t ∧ s.FirstFit t base allocCount jumpCount e ∧ o.frame = some f ∧
      f.toNat = s.candidateStart t base jumpCount e ∧
      (o.code = some 0 ∧ s.Free f.toNat (allocCount.toNat * 4096) ∧
          s.Adds f.toNat (allocCount.toNat * 4096) o.map ∧ jumpCount.toNat * 4096 ≤ f.toNat ∧
          s.Free (f.toNat - jumpCount.toNat * 4096) (jumpCount.toNat * 4096) ∨
        o.code = some (-1) ∧ o.map = s) := by
  obtain ⟨pre, t, post, hf⟩ := h.found base
  have hpos := ne_zero_iff_pos.mp hcount
  have hjpos := ne_zero_iff_pos.mp hjump
  -- no sum of the search wraps: the last entry ends highest
  obtain ⟨last, hlast, hnone, hmax⟩ := hf.layout.exists_last
  have hfit : ∀ k, s.links.OnList k →
      max (s.hi k + jumpCount.toNat * 4096) base.toNat + allocCount.toNat * 4096 < 2 ^ 64 := by
    intro k hk
    have := hnw last hlast hnone
    have := hmax k hk
    omega
  obtain ⟨mid, e, post', f, heq, hseek, hfirst, hto⟩ := hf.seekBeyond_firstFit hal hpos hfit
  have hcall := hf.allocMultipleBeyondEx_eq hcount hjump heq hseek
  have he : s.Layout ((pre ++ mid) ++ e :: post') := by
    rw [List.append_assoc, ← heq]
    exact hf.layout
  -- the range is placed behind `e`
  obtain ⟨hjumped, hfal, hle⟩ := hf.candidateStart_spec hal jumpCount he.onList_self
  have hefit := hfit e he.onList_self
  have hbytes := toNat_shiftLeft_page (n := allocCount) (by omega)
  have hgap : ∀ x ∈ post'.head?, f.toNat + allocCount.toNat * 4096 ≤ s.lo x := by
    intro x hx
    rw [hto]
    exact hfirst.fits x (he.next_eq.trans hx)
  have hfree : s.Free f.toNat (allocCount.toNat * 4096) := he.free_gap (by omega) hgap
  have hbelow : s.Free (f.toNat - jumpCount.toNat * 4096) (jumpCount.toNat * 4096) := by
    refine he.free_gap (by omega) fun x hx => ?_
    have := hgap x hx
    omega
  rcases he.place_exact f (allocCount <<< 12) (some f) (.inr (.inr hfresh)) (by omega)
      (by omega) (by omega) (by omega) (by omega) (by rwa [hbytes]) with
    ⟨s', hs', hadds⟩ | ⟨-, hs'⟩
  · rw [hbytes] at hadds
    exact ⟨_, t, e, f, hcall.trans hs', hf.stopFind_eq, hfirst, rfl, hto,
      .inl ⟨rfl, hfree, hadds, by omega, hbelow⟩⟩
  · exact ⟨_, t, e, f, hcall.trans hs', hf.stopFind_eq, hfirst, rfl, hto, .inr ⟨rfl, rfl⟩⟩

/-- Nine pages a page beyond the first entry. -/
theorem multipleBeyondEx_firstFit_twoEntries :
    ∃ o t e f, twoEntries.pageVirtualAllocMultipleBeyondEx 0x80000 9 1 = some o ∧
      twoEntries.stopFind 0x80000 = some t ∧ twoEntries.FirstFit t 0x80000 9 1 e ∧
      o.frame = some f ∧ f.toNat = twoEntries.candidateStart t 0x80000 1 e ∧
      (o.code = some 0 ∧ twoEntries.Free f.toNat ((9 : UInt64).toNat * 4096) ∧
          twoEntries.Adds f.toNat ((9 : UInt64).toNat * 4096) o.map ∧
          (1 : UInt64).toNat * 4096 ≤ f.toNat ∧
          twoEntries.Free (f.toNat - (1 : UInt64).toNat * 4096) ((1 : UInt64).toNat * 4096) ∨
        o.code = some (-1) ∧ o.map = twoEntries) := by
  refine multipleBeyondEx_firstFit ⟨_, twoEntries_layout⟩ twoEntries_freshSlot (by decide)
    (by decide) (by decide) fun k hk _ => ?_
  exact lt_of_le_of_lt (Nat.add_le_add_right (max_le_max_left _
    (Nat.add_le_add_right (twoEntries_hi_le k hk) _)) _) (by decide)

end MultipleBeyondEx

end VirtualAddressMap

end Betelgeuse
