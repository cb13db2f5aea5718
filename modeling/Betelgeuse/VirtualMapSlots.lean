/-
Slot accounting of the virtual map.

The source computes the bit of a slot in three ways: `page_allocator_init` sets
bit 63 for slot 0, `INSERT` sets bit `k` of word `i` for slot `64 * i + k`, and
a merge or a removal clears the bit at eight times the index of the slot,
divided by two, counted from the top (`bitmapLocation`).  They agree on the
slots 0 and 127 only as long as neither is reused, and the test `< INT64_MAX`
takes a word for full as soon as bit 63 is set.

`Accounted` says how far this goes: the list consists of slot 0 and slot 127 at
most.  `SlotsAgree` is the condition on a block under which that stays so, and
`reach_slotsAccounted` the property of whole runs that follows.
-/
import Betelgeuse.VirtualMapRun
import Mathlib.Logic.Equiv.Basic

open HeapList WordBitmap

namespace Betelgeuse

namespace VirtualAddressMap

variable (s : VirtualAddressMap)

/-! ### The property -/

/-- `INSERT` on the map `s` writes no slot that is on the list, and finds a slot
whenever not all of them are. -/
structure InsertSound : Prop where
  fresh : s.FreshSlot
  succeeds : (∃ k, ¬ s.links.OnList k) → s.findFreeSlot ≠ none

/-- In every run from `s₀` the bits of the bitmap tell which slots are on the
list, by one assignment that gives each slot a bit of its own, and every `INSERT` is sound. -/
def SlotsAccounted (Ok : VirtualAddressMap → Call → Prop) (s₀ : VirtualAddressMap) : Prop :=
  ∃ slotBit : Slot → Fin 128, Function.Injective slotBit ∧ ∀ s, Reach Ok s₀ s →
    (∀ k, get s.freeBitmap (slotBit k) = true ↔ s.links.OnList k) ∧
    ∀ c, Ok s c → ∀ r ∈ s.blocks c, r.2.inserts → r.1.InsertSound

/-- The map as `page_allocator_init` leaves it, as far as slots are concerned. -/
structure Booted : Prop where
  holds : s.links.Holds [0]
  word0 : s.freeBitmap 0 = mask 63
  word1 : s.freeBitmap 1 = 0

/-- The block does not make the three computations of a slot's bit disagree:
`INSERT` is run only while slot 0 is the only one, nothing is joined, and no
slot but 0 is removed. -/
def SlotsAgree : Block → Prop
  | .ret _ | .growDown .. => True
  | .growUp c _ top => ∀ t ∈ s.deref c, ∀ x ∈ s.next t, top ≠ s.base x
  | .insert .. | .cut .. => s.first = some 0 ∧ s.next 0 = none
  | .unlink c _ => s.deref c = some 0

/-- A call all of whose blocks agree about the slots. -/
def AgreeingCall (s : VirtualAddressMap) (c : Call) : Prop := ∀ r ∈ s.blocks c, r.1.SlotsAgree r.2

variable {s}

/-! ### The cells the calls work on -/

/-- The cell a block works on. -/
def Block.cell : Block → Option (Cell Slot)
  | .ret _ => none
  | .growUp c _ _ | .growDown c _ | .insert c _ _ _ | .cut c _ _ _ | .unlink c _ => some c

/-- The block of the plan, if there is one, works on a cell of the list. -/
def OnPlan (s : VirtualAddressMap) (o : Option Plan) : Prop :=
  ∀ p ∈ o, ∀ c ∈ p.block.cell, s.links.OnCell c

section Cells

variable {α : Type} {c : Cell Slot} {t : Slot} {frame base allocCount jumpCount : UInt64}

theorem OnPlan.bind {o : Option α} {f : α → Option Plan} (h : ∀ a, o = some a → s.OnPlan (f a)) :
    s.OnPlan (o.bind f) := by
  intro p hp
  obtain ⟨a, ha, hfa⟩ := Option.bind_eq_some_iff.mp hp
  exact h a ha p hfa

theorem OnPlan.ite {P : Prop} [Decidable P] {o o' : Option Plan} (h : s.OnPlan o)
    (h' : s.OnPlan o') : s.OnPlan (if P then o else o') := by
  split
  · exact h
  · exact h'

theorem OnPlan.ret (out : Option UInt64) (code : ℤ) : s.OnPlan (some ⟨out, .ret code⟩) := by
  rintro p ⟨⟩ c hc
  cases hc

theorem OnPlan.at (hc : s.links.OnCell c) {out : Option UInt64} {b : Block}
    (hb : b.cell = some c) : s.OnPlan (some ⟨out, b⟩) := by
  rintro p ⟨⟩ c' hc'
  obtain rfl := Option.some.inj (hb.symm.trans hc')
  exact hc

theorem onCell_findEntry (h : s.findEntry frame = some c) : s.links.OnCell c :=
  Heap.OnCell.seek (c := .first) trivial h

theorem onCell_next (hc : s.links.OnCell c) (ht : s.deref c = some t) :
    s.links.OnCell (.next t) := hc.onList ht

theorem onCell_seekBeyond {blocks : UInt64 → UInt64 → Bool} : ∀ {n : ℕ} {c c' : Cell Slot}
    {frame frame' : UInt64}, s.links.OnCell c →
      s.seekBeyond blocks jumpCount n c frame = some (c', frame') → s.links.OnCell c' := by
  intro n
  induction n with
  | zero =>
    intro c c' frame frame' _ h
    rw [seekBeyond] at h
    cases h
  | succ n ih =>
    intro c c' frame frame' hc h
    rw [seekBeyond] at h
    obtain ⟨t, ht, h⟩ := Option.bind_eq_some_iff.mp h
    split at h
    · obtain ⟨rfl, -⟩ := Prod.mk.inj (Option.some.inj h)
      exact hc
    · split at h
      · exact ih (onCell_next hc ht) h
      · obtain ⟨rfl, -⟩ := Prod.mk.inj (Option.some.inj h)
        exact hc

theorem onCell_seekGap : ∀ {n : ℕ} {c c' : Cell Slot}, s.links.OnCell c →
    s.seekGap allocCount n c = some c' → s.links.OnCell c' := by
  intro n
  induction n with
  | zero =>
    intro c c' _ h
    rw [seekGap] at h
    cases h
  | succ n ih =>
    intro c c' hc h
    rw [seekGap] at h
    obtain ⟨t, ht, h⟩ := Option.bind_eq_some_iff.mp h
    obtain ⟨b, -, h⟩ := Option.bind_eq_some_iff.mp h
    split at h
    · exact ih (onCell_next hc ht) h
    · obtain rfl := Option.some.inj h
      exact hc

theorem onPlan_allocAfter : s.OnPlan (s.pageVirtualAllocAfterPlan base) := by
  refine .bind fun c hc => .bind fun t _ => ?_
  have hc := onCell_findEntry hc
  exact .ite (.at hc rfl) (.ite (.at hc rfl) (.at hc rfl))

theorem onPlan_allocMultipleAfter :
    s.OnPlan (s.pageVirtualAllocMultipleAfterPlan base allocCount) := by
  refine .ite (.ret _ _) (.bind fun c hc => .bind fun t _ => ?_)
  have hc := onCell_findEntry hc
  exact .ite (.ite (.ret _ _) (.at hc rfl)) (.ite (.at hc rfl) (.at hc rfl))

/-- Whatever the call and the map, the block at the end of the call works on a
cell of the list. -/
theorem onPlan_plan (c : Call) : s.OnPlan (s.plan c) := by
  -- each search comes to a cell of the list, and the block works there
  cases c with
  | alloc =>
    refine .bind fun t _ => .ite (.ret _ _) ?_
    exact .at (c := .first) trivial rfl
  | allocAt frame =>
    refine .bind fun c hc => .bind fun t _ => .ite (.ret _ _) ?_
    have hc := onCell_findEntry hc
    exact .ite (.at hc rfl) (.ite (.at hc rfl) (.at hc rfl))
  | allocAfter base => exact onPlan_allocAfter
  | allocBeyond base jumpCount =>
    refine .ite onPlan_allocAfter (.bind fun c hc => .bind fun t ht => ?_)
    have hc := onCell_findEntry hc
    refine .ite (.ret _ _) (.ite (.at hc rfl) (.ite (.bind fun x _ => ?_) (.at hc rfl)))
    exact .at (onCell_next hc ht) rfl
  | allocBeyondEx base jumpCount =>
    refine .ite onPlan_allocAfter (.bind fun c hc => .bind fun t _ => .bind fun r hr =>
      .bind fun t' _ => ?_)
    have hc := onCell_seekBeyond (onCell_findEntry hc) hr
    exact .ite (.at hc rfl) (.at hc rfl)
  | allocMultiple allocCount =>
    refine .ite (.ret _ _) (.bind fun t _ => .ite (.ret _ _) ?_)
    exact .at (c := .first) trivial rfl
  | allocMultipleEx allocCount =>
    refine .ite (.ret _ _) (.bind fun t _ => .bind fun c hc => ?_)
    exact .at (Heap.OnCell.seek (c := .first) trivial hc) rfl
  | allocMultipleAt frame allocCount =>
    refine .ite (.ret _ _) (.bind fun c hc => .bind fun t _ => .ite (.ret _ _)
      (.bind fun b _ => .ite (.ret _ _) ?_))
    have hc := onCell_findEntry hc
    exact .ite (.at hc rfl) (.ite (.at hc rfl) (.at hc rfl))
  | allocMultipleAfter base allocCount => exact onPlan_allocMultipleAfter
  | allocMultipleAfterEx base allocCount =>
    refine .ite (.ret _ _) (.bind fun c hc => .bind fun t _ => ?_)
    have hc := onCell_findEntry hc
    refine .ite (.bind fun c' hc' => .bind fun t' _ => ?_) (.ite (.at hc rfl) (.at hc rfl))
    exact .at (onCell_seekGap hc hc') rfl
  | allocMultipleBeyond base allocCount jumpCount =>
    refine .ite (.ret _ _) (.ite onPlan_allocMultipleAfter
      (.bind fun c hc => .bind fun t ht => ?_))
    have hc := onCell_findEntry hc
    refine .ite (.ret _ _) (.ite (.at hc rfl) (.ite (.bind fun x _ => ?_) (.at hc rfl)))
    exact .at (onCell_next hc ht) rfl
  | allocMultipleBeyondEx base allocCount jumpCount =>
    refine .ite (.ret _ _) (.ite onPlan_allocMultipleAfter (.bind fun c hc => .bind fun t _ =>
      .bind fun r hr => .bind fun t' _ => ?_))
    have hc := onCell_seekBeyond (onCell_findEntry hc) hr
    exact .ite (.at hc rfl) (.at hc rfl)
  | free frame =>
    refine .bind fun c hc => .bind fun t _ => .ite (.ret _ _) ?_
    have hc := onCell_findEntry hc
    exact .ite (.at hc rfl) (.at hc rfl)
  | freeMultiple frame count =>
    refine .bind fun c hc => .bind fun t _ => .ite (.ret _ _) ?_
    have hc := onCell_findEntry hc
    exact .ite (.at hc rfl) (.at hc rfl)

end Cells

/-! ### The maps that agreeing calls reach -/

/-- The bits of the slots: slot 0 has bit 63, and slot 127 has its own. -/
def slotBit : Slot → Fin 128 := Equiv.swap 0 63

/-- The list consists of slot 0 and slot 127 at most, and the two words of the
bitmap say which. -/
structure Accounted (s : VirtualAddressMap) (l : List Slot) : Prop where
  holds : s.links.Holds l
  shape : l = [0] ∨ l = [0, 127] ∨ l = [127] ∨ l = []
  word0 : s.freeBitmap 0 = if 0 ∈ l then mask 63 else 0
  word1 : s.freeBitmap 1 = if 127 ∈ l then mask 63 else 0

theorem Booted.accounted (h : s.Booted) : s.Accounted [0] where
  holds := h.holds
  shape := .inl rfl
  word0 := h.word0
  word1 := h.word1

/-- The list and the two words are all that matters. -/
theorem Accounted.congr {s' : VirtualAddressMap} {l : List Slot} (h : s.Accounted l)
    (hlinks : s'.links = s.links) (hbits : s'.freeBitmap = s.freeBitmap) : s'.Accounted l where
  holds := hlinks ▸ h.holds
  shape := h.shape
  word0 := hbits ▸ h.word0
  word1 := hbits ▸ h.word1

theorem slotBit_injective : Function.Injective slotBit := (Equiv.swap 0 63).injective

/-- The bits that are not the last one of their word are clear. -/
theorem Accounted.get_eq_false {l : List Slot} (h : s.Accounted l) {p : Fin 128}
    (hp : p.val % 64 ≠ 63) : get s.freeBitmap p = false := by
  have hmod : p.val % 64 < 64 := Nat.mod_lt _ (by omega)
  have hword : ∀ {P : Prop} [Decidable P], bit (if P then mask 63 else 0) (p.val % 64) = false := by
    intro P _
    split
    · rw [bit_mask hmod, decide_eq_false hp]
    · simp [bit]
  have hlt := p.isLt
  rcases (by omega : p.val / 64 = 0 ∨ p.val / 64 = 1) with hdiv | hdiv
  · rw [WordBitmap.get, hdiv, h.word0, hword]
  · rw [WordBitmap.get, hdiv, h.word1, hword]

theorem Accounted.get_eq {l : List Slot} (h : s.Accounted l) (k : Slot) :
    get s.freeBitmap (slotBit k) = true ↔ s.links.OnList k := by
  rw [h.holds.onList_iff]
  have hzero : bit 0 63 = false := by decide
  have hmask : bit (mask 63) 63 = true := by decide
  by_cases h0 : k = 0
  · subst h0
    show bit (s.freeBitmap 0) 63 = true ↔ _
    rw [h.word0]
    split <;> simp [*]
  · by_cases h127 : k = 127
    · subst h127
      show bit (s.freeBitmap 1) 63 = true ↔ _
      rw [h.word1]
      split <;> simp [*]
    · -- the slots that are never used have the other bits
      have hk : k ∉ l := by
        rcases h.shape with rfl | rfl | rfl | rfl <;> simp [h0, h127]
      have hne : (slotBit k).val % 64 ≠ 63 := by
        have h63 : slotBit k ≠ 63 := fun heq =>
          h0 (slotBit_injective (heq.trans (Equiv.swap_apply_left 0 63).symm))
        have h127' : slotBit k ≠ 127 := fun heq =>
          h127 (slotBit_injective (heq.trans (show slotBit 127 = 127 by decide).symm))
        have hlt := (slotBit k).isLt
        omega
      have hclear : get s.freeBitmap (slotBit k) = false := h.get_eq_false hne
      simp [hclear, hk]

/-- The search of `INSERT` depends on the two words only. -/
theorem findFreeSlot_congr {s' : VirtualAddressMap} (h0 : s'.freeBitmap 0 = s.freeBitmap 0)
    (h1 : s'.freeBitmap 1 = s.freeBitmap 1) : s'.findFreeSlot = s.findFreeSlot := by
  have h : ∀ i : Fin virtualAddressMapFreeBitmapLength,
      s'.freeBitmap i.val = s.freeBitmap i.val := by
    intro i
    match i with
    | 0 => exact h0
    | 1 => exact h1
  simp only [findFreeSlot, h]

/-- While slot 0 is the only one, `INSERT` picks slot 127. -/
theorem Accounted.findFreeSlot_eq (h : s.Accounted [0]) : s.findFreeSlot = some (1, 63) := by
  have hinit : (initial 0 0).findFreeSlot = some (1, 63) := by decide
  rw [← hinit]
  exact findFreeSlot_congr h.word0 h.word1

theorem Accounted.eq_singleton {l : List Slot} (h : s.Accounted l) (h0 : s.first = some 0)
    (hn : s.next 0 = none) : l = [0] :=
  h.holds.unique (show s.links.Holds [0] from ⟨h0, hn⟩)

/-- The part of a step that `INSERT` does. -/
theorem Accounted.insertEntry (h : s.Accounted [0]) {c : Cell Slot} (hc : s.links.OnCell c)
    {b n : UInt64} {r : Option VirtualAddressMap} (hr : s.insertEntry c b n = some r) :
    ∃ s', r = some s' ∧ s'.Accounted [0, 127] := by
  have hfree := h.findFreeSlot_eq
  have hholds : s.links.Holds ([] ++ 0 :: []) := h.holds
  obtain ⟨s', hs', hlinks, hbits, -, -⟩ :=
    insertEntry_spec hholds b n hfree (by decide)
  -- the cell is the head: the link of slot 0 is null
  have hfirst : c = .first := by
    cases c with
    | first => rfl
    | next k =>
      obtain rfl : k = 0 := by simpa using h.holds.onList_iff.mp hc
      have hnext : s.next 0 = none := hholds.next_eq
      rw [VirtualAddressMap.insertEntry, hfree] at hr
      obtain ⟨t, ht, -⟩ := Option.bind_eq_some_iff.mp hr
      rw [deref, links_setLen, links_setBase] at ht
      exact absurd (ht.symm.trans hnext) (by simp)
  subst hfirst
  rw [cellAfter_nil, hr] at hs'
  refine ⟨s', Option.some.inj hs', hlinks, .inr (.inl rfl), ?_, ?_⟩
  · rw [hbits, setBit_of_ne _ _ (by decide), h.word0]
    rfl
  · rw [hbits]
    show s.freeBitmap 1 ||| mask 63 = mask 63
    rw [h.word1]
    decide

/-- Removing slot 0 clears its bit. -/
theorem Accounted.unlink {l : List Slot} (h : s.Accounted l) {c : Cell Slot}
    (hc : s.links.OnCell c) (ht : s.deref c = some 0) :
    ∃ l', ((s.store c (s.next 0)).releaseSlot 0).Accounted l' := by
  have hmem : 0 ∈ l := h.holds.onList_iff.mp (hc.onList ht)
  obtain ⟨l', rfl, hl'⟩ : ∃ l', l = 0 :: l' ∧ 0 ∉ l' := by
    rcases h.shape with rfl | rfl | rfl | rfl <;> simp at hmem ⊢
  obtain rfl : c = .first := hc.eq_first h.holds ht
  refine ⟨l', h.holds.unlink_first, ?_, ?_, ?_⟩
  · rcases h.shape with hl | hl | hl | hl <;> simp at hl <;> simp [hl]
  · show s.freeBitmap 0 &&& ~~~ mask 63 = _
    rw [h.word0, if_pos (by simp), if_neg hl']
    decide
  · show s.freeBitmap 1 = _
    rw [h.word1]
    simp

/-- A block about whose slots everything agrees leaves an accounted map. -/
theorem Accounted.perform {l : List Slot} (h : s.Accounted l) {b : Block}
    (hcell : ∀ c ∈ b.cell, s.links.OnCell c) (hagree : s.SlotsAgree b)
    {r : Option ℤ × VirtualAddressMap} (hr : s.perform b = some r) :
    ∃ l', r.2.Accounted l' := by
  cases b with
  | ret code =>
    obtain rfl := Option.some.inj hr
    exact ⟨l, h⟩
  | growUp c bytes top =>
    obtain ⟨t, ht, hr⟩ := Option.bind_eq_some_iff.mp hr
    have hset : (s.setLen t (s.len t + bytes)).Accounted l := h.congr (by simp) rfl
    dsimp only at hr
    rw [next_setLen] at hr
    split at hr
    · obtain rfl := Option.some.inj hr
      exact ⟨l, hset⟩
    · rename_i x hx
      -- nothing is joined
      rw [base_setLen, if_neg (hagree t ht x hx)] at hr
      obtain rfl := Option.some.inj hr
      exact ⟨l, hset⟩
  | growDown c bytes =>
    obtain ⟨t, -, hr⟩ := Option.bind_eq_some_iff.mp hr
    obtain ⟨x, -, hr⟩ := Option.bind_eq_some_iff.mp hr
    obtain rfl := Option.some.inj hr
    exact ⟨l, h.congr (by simp) rfl⟩
  | insert c base len full =>
    obtain rfl := h.eq_singleton hagree.1 hagree.2
    obtain ⟨r', hr', hr⟩ := Option.bind_eq_some_iff.mp hr
    obtain ⟨s', rfl, hs'⟩ := h.insertEntry (hcell c rfl) hr'
    obtain rfl := Option.some.inj hr
    exact ⟨_, hs'⟩
  | cut c frame bytes full =>
    obtain rfl := h.eq_singleton hagree.1 hagree.2
    obtain ⟨t, -, hr⟩ := Option.bind_eq_some_iff.mp hr
    obtain ⟨r', hr', hr⟩ := Option.bind_eq_some_iff.mp hr
    have hset : (s.setLen t (frame - s.base t)).Accounted [0] := h.congr (by simp) rfl
    obtain ⟨s', rfl, hs'⟩ := hset.insertEntry (by simpa using hcell c rfl) hr'
    obtain rfl := Option.some.inj hr
    exact ⟨_, hs'⟩
  | unlink c code =>
    obtain ⟨t, ht, hr⟩ := Option.bind_eq_some_iff.mp hr
    obtain rfl : t = 0 := Option.some.inj (ht.symm.trans hagree)
    obtain rfl := Option.some.inj hr
    exact h.unlink (hcell c rfl) ht

/-! ### Runs -/

/-- A plan carried out by an agreeing call. -/
theorem Accounted.run {l : List Slot} (h : s.Accounted l) {c : Call} {p : Plan} {o : Outcome}
    (hp : s.plan c = some p) (hagree : s.SlotsAgree p.block) (ho : p.run s = some o) :
    ∃ l', o.map.Accounted l' := by
  obtain ⟨r, hr, rfl⟩ := Option.map_eq_some_iff.mp ho
  exact h.perform (onPlan_plan c p hp) hagree hr

/-- The first half of `page_virtual_free_multiple(frame, 1)`. -/
theorem Accounted.free_one {l : List Slot} (h : s.Accounted l) {frame : UInt64}
    (hagree : s.AgreeingCall (.freeMultiple frame 1)) {o : Outcome}
    (ho : s.pageVirtualFree frame = some o) : ∃ l', o.map.Accounted l' := by
  obtain ⟨p, hp, hrun⟩ := Option.bind_eq_some_iff.mp ho
  refine h.run (c := .free frame) hp (hagree (s, p.block) ?_) hrun
  simp [blocks, plan, hp]

/-- An agreeing call leaves an accounted map. -/
theorem Accounted.call {l : List Slot} (h : s.Accounted l) {c : Call} (hagree : s.AgreeingCall c)
    {o : Outcome} (ho : s.call c = some o) : ∃ l', o.map.Accounted l' := by
  by_cases hc : ∀ frame count, c ≠ .freeMultiple frame count
  · rw [call_eq_plan hc] at ho
    obtain ⟨p, hp, ho⟩ := Option.bind_eq_some_iff.mp ho
    refine h.run hp (hagree (s, p.block) ?_) ho
    simp [blocks_eq_plan hc, hp]
  · push Not at hc
    obtain ⟨frame, count, rfl⟩ := hc
    replace ho : s.pageVirtualFreeMultiple frame count = some o := ho
    rw [pageVirtualFreeMultiple] at ho
    split at ho
    · rename_i hone
      subst hone
      obtain ⟨o₁, ho₁, ho⟩ := Option.bind_eq_some_iff.mp ho
      obtain ⟨p₂, hp₂, ho⟩ := Option.bind_eq_some_iff.mp ho
      obtain ⟨l₁, h₁⟩ := h.free_one hagree ho₁
      refine h₁.run (c := .freeMultiple frame 1) hp₂ (hagree (o₁.map, p₂.block) ?_) ho
      simp [blocks, plan, ho₁, hp₂]
    · split at ho
      · obtain rfl := Option.some.inj ho
        exact ⟨l, h⟩
      · rename_i hone hzero
        obtain ⟨p, hp, ho⟩ := Option.bind_eq_some_iff.mp ho
        refine h.run (c := .freeMultiple frame count) hp (hagree (s, p.block) ?_) ho
        simp [blocks, hone, hzero, plan, hp]

/-- `INSERT` is sound where everything agrees about the slots. -/
theorem Accounted.insertSound {l : List Slot} (h : s.Accounted l) {b : Block}
    (hb : b.inserts = true) (hagree : s.SlotsAgree b) : s.InsertSound := by
  have hfirst : s.first = some 0 ∧ s.next 0 = none := by
    cases b with
    | insert c base len full => exact hagree
    | cut c frame bytes full => exact hagree
    | _ => cases hb
  obtain rfl := h.eq_singleton hfirst.1 hfirst.2
  have hfree := h.findFreeSlot_eq
  refine ⟨fun i o hio hmem => ?_, fun _ hnone => ?_⟩
  · obtain ⟨rfl, rfl⟩ := Prod.mk.inj (Option.some.inj (hfree.symm.trans hio))
    have := h.holds.onList_iff.mp hmem
    exact absurd this (by decide)
  · rw [hfree] at hnone
    cases hnone

/-- The map in the middle of `page_virtual_free_multiple(frame, 1)` is accounted
too, so every `INSERT` of an agreeing call is sound. -/
theorem Accounted.blocks_insertSound {l : List Slot} (h : s.Accounted l) {c : Call}
    (hagree : s.AgreeingCall c) : ∀ r ∈ s.blocks c, r.2.inserts → r.1.InsertSound := by
  intro r hr hins
  have hsound : ∃ l', r.1.Accounted l' := by
    by_cases hc : ∀ frame count, c ≠ .freeMultiple frame count
    · rw [blocks_eq_plan hc, List.mem_map] at hr
      obtain ⟨p, -, rfl⟩ := hr
      exact ⟨l, h⟩
    · push Not at hc
      obtain ⟨frame, count, rfl⟩ := hc
      rw [blocks] at hr
      split at hr
      · rename_i hone
        subst hone
        rcases List.mem_append.mp hr with hr | hr
        · obtain ⟨p, -, rfl⟩ := List.mem_map.mp hr
          exact ⟨l, h⟩
        · obtain ⟨o, ho, hr⟩ := List.mem_flatMap.mp hr
          obtain ⟨p, -, rfl⟩ := List.mem_map.mp hr
          exact h.free_one hagree (Option.mem_toList.mp ho)
      · split at hr
        · cases hr
        · obtain ⟨p, -, rfl⟩ := List.mem_map.mp hr
          exact ⟨l, h⟩
  obtain ⟨l', h'⟩ := hsound
  exact h'.insertSound hins (hagree r hr)

/-- In a run of agreeing calls from the map that boot leaves, the bitmap accounts
for the slots and every `INSERT` is sound. -/
theorem reach_slotsAccounted {s₀ : VirtualAddressMap} (h₀ : s₀.Booted) :
    SlotsAccounted AgreeingCall s₀ := by
  refine ⟨slotBit, slotBit_injective, fun s hs => ?_⟩
  obtain ⟨l, hl⟩ : ∃ l, s.Accounted l := by
    refine hs.invariant (fun s => ∃ l, s.Accounted l) ⟨_, h₀.accounted⟩ ?_
    rintro s c o ⟨l, hl⟩ hok ho
    exact hl.call hok ho
  exact ⟨hl.get_eq, fun c hc => hl.blocks_insertSound hc⟩

/-- The map that boot leaves, and a first call that comes to `INSERT`. -/
theorem initial_slotsAccounted :
    SlotsAccounted AgreeingCall (initial 0x80000 0x5000) ∧
      (initial 0x80000 0x5000).AgreeingCall (.allocAt 0x100000) := by
  refine ⟨reach_slotsAccounted ⟨initial_holds _ _, rfl, rfl⟩, fun r hr => ?_⟩
  have hblocks : (initial 0x80000 0x5000).blocks (.allocAt 0x100000) =
      [(initial 0x80000 0x5000, .insert .first 0x100000 0x1000 (some (-1)))] := rfl
  rw [hblocks, List.mem_singleton] at hr
  subst hr
  exact ⟨rfl, rfl⟩

/-- Two pages far apart: the second `INSERT` finds no slot although two of the
128 slots are on the list. -/
theorem initial_not_slotsAccounted :
    ¬ SlotsAccounted (fun _ _ => True) (initial 0x80000 0x5000) := by
  rintro ⟨slotBit, -, hrun⟩
  obtain ⟨o, ho⟩ : ∃ o, (initial 0x80000 0x5000).call (.allocAt 0x100000) = some o := ⟨_, rfl⟩
  obtain ⟨-, hsound⟩ := hrun o.map (.call .refl trivial ho)
  obtain rfl := Option.some.inj ho
  have hinsert := hsound (.allocAt 0x200000) trivial _ (List.mem_singleton.mpr rfl) rfl
  refine hinsert.succeeds ⟨1, fun hmem => ?_⟩ rfl
  -- the list is slot 0 and slot 127
  refine absurd ((Heap.Holds.onList_iff (l := [0, 127]) ?_).mp hmem) (by decide)
  exact ⟨rfl, rfl, rfl⟩

end VirtualAddressMap

end Betelgeuse
