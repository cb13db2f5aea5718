/-
Runs of calls on the virtual map.

`Reach Ok s₀ s` says that a run of calls, each of which satisfies `Ok` on the
map it is made on, leads from `s₀` to `s`.  Where every call of a run is page
aligned, does not wrap and is `Clear`, every map reached is well-formed and no
call gets stuck (`reach_clearCall_wellFormed`); a single call that is not clear
breaks the map already (`reach_not_wellFormed`).
-/
import Betelgeuse.VirtualMapCalls

open HeapList WordBitmap RangeList

namespace Betelgeuse

namespace VirtualAddressMap

/-- A run of calls leads from `s₀` to a map. -/
inductive Reach (Ok : VirtualAddressMap → Call → Prop) (s₀ : VirtualAddressMap) :
    VirtualAddressMap → Prop where
  | refl : Reach Ok s₀ s₀
  | call {s : VirtualAddressMap} {c : Call} {o : Outcome} :
      Reach Ok s₀ s → Ok s c → s.call c = some o → Reach Ok s₀ o.map

/-- What holds at the start and is kept by every call holds of every map
reached. -/
theorem Reach.invariant {Ok : VirtualAddressMap → Call → Prop} {s₀ s : VirtualAddressMap}
    (h : Reach Ok s₀ s) (Inv : VirtualAddressMap → Prop) (h₀ : Inv s₀)
    (hstep : ∀ s c o, Inv s → Ok s c → s.call c = some o → Inv o.map) : Inv s := by
  induction h with
  | refl => exact h₀
  | call _ hok hcall ih => exact hstep _ _ _ ih hok hcall

variable {s : VirtualAddressMap}

/-- A call other than `page_virtual_free_multiple` carries out its plan. -/
theorem call_eq_plan {c : Call} (hc : ∀ frame count, c ≠ .freeMultiple frame count) :
    s.call c = (s.plan c).bind fun p => p.run s := by
  cases c with
  | freeMultiple frame count => exact absurd rfl (hc frame count)
  | _ => rfl

theorem blocks_eq_plan {c : Call} (hc : ∀ frame count, c ≠ .freeMultiple frame count) :
    s.blocks c = (s.plan c).toList.map (s, ·.block) := by
  cases c with
  | freeMultiple frame count => exact absurd rfl (hc frame count)
  | _ => rfl

/-- A plan whose search ends and whose block is safe. -/
theorem SafePlan.run {o : Option Plan} (h : s.SafePlan o)
    (hslot : ∀ p, o = some p → p.block.inserts → s.FreshSlot) :
    ∃ r, (o.bind fun p => p.run s) = some r ∧ r.map.WellFormed := by
  obtain ⟨p, rfl, r, hr, hwf⟩ := h hslot
  refine ⟨⟨r.1, p.frame, r.2⟩, ?_, hwf⟩
  rw [Option.bind_some, Plan.run, hr]
  rfl

/-- The search of a call that frees nothing leads to a safe block. -/
theorem WellFormed.safePlan (h : s.WellFormed) {c : Call} (hc : ∀ f n, c ≠ .freeMultiple f n)
    (hal : c.Aligned) (hnw : s.NoWrap c) (hclear : s.ClearPlace c) : s.SafePlan (s.plan c) := by
  cases c with
  | alloc => exact hclear.elim
  | allocAt frame => exact h.safe_allocAt hal (hnw.fits rfl) fun t ht hlt => hclear t ht hlt
  | allocAfter base => exact h.safe_allocAfter hal hnw hclear
  | allocBeyond base jumpCount => exact h.safe_allocBeyond hal hnw hclear
  | allocBeyondEx base jumpCount => exact h.safe_allocBeyondEx hal hnw hclear
  | allocMultiple allocCount => exact h.safe_allocMultiple hnw
  | allocMultipleEx allocCount => exact h.safe_allocMultipleEx hnw hclear
  | allocMultipleAt frame allocCount => exact h.safe_allocMultipleAt hal hnw hclear
  | allocMultipleAfter base allocCount => exact h.safe_allocMultipleAfter hal hnw hclear
  | allocMultipleAfterEx base allocCount => exact h.safe_allocMultipleAfterEx hal hnw hclear
  | allocMultipleBeyond base allocCount jumpCount =>
    exact h.safe_allocMultipleBeyond hal hnw hclear
  | allocMultipleBeyondEx base allocCount jumpCount =>
    exact h.safe_allocMultipleBeyondEx hal hnw hclear
  | free frame => exact h.safe_free hal hclear
  | freeMultiple frame count => exact absurd rfl (hc frame count)

/-! ### Freeing a single page with `page_virtual_free_multiple` -/

section FreeOne

variable {frame : UInt64} {pre post : List Slot} {t : Slot}

/-- The search for an address that no entry covers, with an entry below it,
stops at an entry that ends at the address or below. -/
theorem Found.hi_le (h : s.Found frame pre t post) (hfree : frame.toNat ∉ s.addresses)
    (hbelow : ∃ a ∈ s.addresses, a < frame.toNat) : s.hi t ≤ frame.toNat := by
  have hle : ∀ k ∈ pre ++ t :: post, s.lo k ≤ s.hi k := fun k _ => s.lo_le_hi k
  have hlo : s.lo t < frame.toNat := by
    by_cases hpre : pre = []
    · subst hpre
      obtain ⟨a, ⟨k, hk, hka, -⟩, ha⟩ := hbelow
      rcases List.mem_cons.mp (h.layout.holds.onList_iff.mp hk) with rfl | hk
      · exact lt_of_le_of_lt hka ha
      · have := h.above_mem k hk
        omega
    · exact h.below hpre
  by_contra hgt
  refine hfree ⟨t, h.layout.holds.onList_iff.mpr (by simp), hlo.le, ?_⟩
  omega

/-- After the first half of `page_virtual_free_multiple(frame, 1)` the second
half finds nothing left to free. -/
theorem Found.freeMultiplePlan_ret (h : s.Found frame pre t post) (count : UInt64)
    (hnw : frame.toNat + count.toNat * 4096 < 2 ^ 64) (hle : s.hi t ≤ frame.toNat) :
    s.pageVirtualFreeMultiplePlan frame count = some ⟨none, .ret (-1)⟩ := by
  have hn := toNat_shiftLeft_page (n := count) (by omega)
  simp only [pageVirtualFreeMultiplePlan, h.find, h.deref_eq, Option.bind_eq_bind,
    Option.bind_some, Option.pure_def, ge_iff_le, UInt64.le_iff_toNat_le, h.toNat_endOf,
    toNat_add_of_lt (hn.symm ▸ hnw), hn]
  rw [if_pos (by omega)]

theorem WellFormed.freeMultiple_one (h : s.WellFormed) (hal : frame.toNat % 4096 = 0)
    (hnw : frame.toNat + 4096 < 2 ^ 64) (hclear : s.ClearPlace (.free frame))
    (hslot : ∀ p, s.pageVirtualFreePlan frame = some p → p.block.inserts → s.FreshSlot) :
    ∃ o, s.pageVirtualFreeMultiple frame 1 = some o ∧ o.map.WellFormed := by
  obtain ⟨pre, t, post, hf⟩ := h.found frame
  have ht := hf.layout.entry_self
  -- the first half: either it is refused or it cuts the page out
  have hfirst : ∃ o, s.pageVirtualFree frame = some o ∧ o.map.WellFormed ∧
      ∀ pre' t' post', o.map.Found frame pre' t' post' → o.map.hi t' ≤ frame.toNat := by
    rw [show s.pageVirtualFree frame = (s.pageVirtualFreePlan frame).bind fun p => p.run s from rfl]
    by_cases hle : s.hi t ≤ frame.toNat
    · have hplan : s.pageVirtualFreePlan frame = some ⟨none, .ret (-1)⟩ := by
        simp only [pageVirtualFreePlan, hf.find, hf.deref_eq, Option.bind_eq_bind,
          Option.bind_some, Option.pure_def, ge_iff_le, UInt64.le_iff_toNat_le, hf.toNat_endOf,
          if_pos hle]
      refine ⟨_, by rw [hplan]; rfl, h, fun pre' t' post' hf' => ?_⟩
      obtain rfl : t = t' := Option.some.inj (hf.stopFind_eq.symm.trans hf'.stopFind_eq)
      exact hle
    · obtain ⟨hlt, hin⟩ := hclear t hf.stopFind_eq (by omega)
      have hplan : s.pageVirtualFreePlan frame =
          some ⟨none, .cut (cellAfter pre) frame pageSize (some (-1))⟩ := by
        simp only [pageVirtualFreePlan, hf.find, hf.deref_eq, Option.bind_eq_bind,
          Option.bind_some, Option.pure_def, ge_iff_le, UInt64.le_iff_toNat_le, hf.toNat_endOf,
          if_neg hle, if_neg ht.len_ne_one]
      -- the start of the entry stays covered, the page itself does not
      have hlow : s.lo t ∈ s.addresses :=
        ⟨t, hf.layout.holds.onList_iff.mpr (by simp), le_rfl, ht.lo_lt_hi⟩
      have hstop : ∀ s' : VirtualAddressMap, ∀ b, frame.toNat < b →
          s'.addresses = s.addresses \ Set.Ico frame.toNat b →
          ∀ pre' t' post', s'.Found frame pre' t' post' → s'.hi t' ≤ frame.toNat := by
        intro s' b hb haddr pre' t' post' hf'
        refine hf'.hi_le ?_ ⟨s.lo t, ?_, hlt⟩
        · rw [haddr]
          exact fun hmem => hmem.2 ⟨le_rfl, hb⟩
        · rw [haddr]
          exact ⟨hlow, fun hmem => absurd hmem.1 (by omega)⟩
      have hin : frame.toNat + pageSize.toNat < s.hi t ∨ s.findFreeSlot = none := by
        rwa [toNat_pageSize]
      rw [hplan]
      rcases hf.layout.cut (some (-1)) ((hslot _ hplan rfl).not_mem hf.layout) hal (by decide)
          (by decide) hlt (by omega) hin with
        ⟨-, s', hs', hwf, haddr⟩ | ⟨s', hs', hwf, haddr⟩
      · refine ⟨⟨some (-1), none, s'⟩, ?_, hwf, hstop s' _ (by omega) haddr⟩
        rw [Option.bind_some, Plan.run, hs']
        rfl
      · refine ⟨⟨some 0, none, s'⟩, ?_, hwf, hstop s' _ ?_ haddr⟩
        · rw [Option.bind_some, Plan.run, hs']
          rfl
        · rw [toNat_pageSize]
          omega
  -- the second half: nothing is left at the address
  obtain ⟨o, ho, hwf, hle⟩ := hfirst
  obtain ⟨pre', t', post', hf'⟩ := hwf.found frame
  have hret := hf'.freeMultiplePlan_ret 1 (by simpa using hnw) (hle _ _ _ hf')
  refine ⟨⟨some (-1), none, o.map⟩, ?_, hwf⟩
  rw [pageVirtualFreeMultiple, if_pos rfl, ho]
  simp only [Option.bind_eq_bind, Option.bind_some, hret]
  rfl

end FreeOne

/-! ### Steps and runs -/

/-- A clear call returns and keeps the map well-formed. -/
theorem WellFormed.call (h : s.WellFormed) {c : Call} (hal : c.Aligned) (hnw : s.NoWrap c)
    (hclear : s.Clear c) : ∃ o, s.call c = some o ∧ o.map.WellFormed := by
  obtain ⟨hplace, hslot⟩ := hclear
  by_cases hc : ∀ frame count, c ≠ .freeMultiple frame count
  · rw [call_eq_plan hc]
    refine (h.safePlan hc hal hnw hplace).run fun p hp hins => ?_
    exact hslot (s, p.block) (by rw [blocks_eq_plan hc, hp]; simp) hins
  · push Not at hc
    obtain ⟨frame, count, rfl⟩ := hc
    have hfit : frame.toNat + count.toNat * 4096 < 2 ^ 64 := hnw.fits rfl
    show ∃ o, s.pageVirtualFreeMultiple frame count = some o ∧ o.map.WellFormed
    by_cases hone : count = 1
    · subst hone
      refine h.freeMultiple_one hal (by simpa using hfit) ?_ fun p hp hins => ?_
      · intro t ht
        exact ((hplace.resolve_left (by decide)) t ht).1 rfl
      · refine hslot (s, p.block) ?_ hins
        simp [blocks, plan, hp]
    · by_cases hzero : count = 0
      · subst hzero
        exact ⟨⟨some (-1), none, s⟩, rfl, h⟩
      · rw [pageVirtualFreeMultiple, if_neg hone, if_neg hzero]
        refine (h.safe_freeMultiple hal hzero hnw fun t ht => ?_).run fun p hp hins => ?_
        · exact ((hplace.resolve_left hzero) t ht).2 hone
        · refine hslot (s, p.block) ?_ hins
          simp [blocks, plan, hp, hone, hzero]

/-- A call that a caller may make, on a map where the code can serve it. -/
def ClearCall (s : VirtualAddressMap) (c : Call) : Prop := c.Aligned ∧ s.NoWrap c ∧ s.Clear c

/-- A map with the single entry `[base, base + len)` in slot 0, as
`page_allocator_init` leaves it. -/
def initial (base len : UInt64) : VirtualAddressMap where
  map := fun t => if t = 0 then ⟨none, len, base⟩ else ⟨none, 0, 0⟩
  first := some 0
  freeBitmap := fun i => if i = 0 then mask 63 else 0

theorem initial_holds (base len : UInt64) : (initial base len).links.Holds [0] :=
  ⟨rfl, rfl⟩

theorem initial_layout {base len : UInt64} (hb : base.toNat % 4096 = 0)
    (hl : len.toNat % 4096 = 0) (hpos : 0 < len.toNat) (hfit : base.toNat + len.toNat < 2 ^ 64) :
    (initial base len).Layout [0] := by
  refine ⟨initial_holds base len, by simp, fun t ht => ?_, by simp [Apart]⟩
  obtain rfl : t = 0 := by simpa using ht
  exact ⟨hb, hl, hpos, hfit⟩

/-- In a run of clear calls from a well-formed map every map reached is
well-formed, and every further clear call returns. -/
theorem reach_clearCall_wellFormed {s₀ : VirtualAddressMap} (h₀ : s₀.WellFormed)
    (h : Reach ClearCall s₀ s) :
    s.WellFormed ∧ ∀ c, s.ClearCall c → ∃ o, s.call c = some o ∧ o.map.WellFormed := by
  have hwf : s.WellFormed := by
    refine h.invariant WellFormed h₀ fun s c o hs hok hcall => ?_
    obtain ⟨o', ho', hwf⟩ := hs.call hok.1 hok.2.1 hok.2.2
    obtain rfl : o = o' := Option.some.inj (hcall.symm.trans ho')
    exact hwf
  exact ⟨hwf, fun c hc => hwf.call hc.1 hc.2.1 hc.2.2⟩

/-- A call that only grows an entry needs no slot. -/
theorem clear_of_growUp {c : Call} {cell : Cell Slot} {bytes top : UInt64}
    (hblocks : s.blocks c = [(s, .growUp cell bytes top)]) (hplace : s.ClearPlace c) :
    s.Clear c := by
  refine ⟨hplace, fun r hr hins => ?_⟩
  rw [hblocks, List.mem_singleton] at hr
  subst hr
  cases hins

/-- Three pages behind the only entry, and then two more. -/
theorem wellFormed_grow_initial :
    ∃ s o, Reach ClearCall (initial 0x80000 0x5000) s ∧ s.len 0 = 0x8000 ∧
      s.call (.allocMultiple 2) = some o ∧ o.map.WellFormed := by
  have hwf : (initial 0x80000 0x5000).WellFormed :=
    ⟨_, initial_layout (by decide) (by decide) (by decide) (by decide)⟩
  have hcall : (initial 0x80000 0x5000).call (.allocMultiple 3) =
      some ⟨some 0, none, (initial 0x80000 0x5000).setLen 0 0x8000⟩ := rfl
  have hclear : (initial 0x80000 0x5000).ClearCall (.allocMultiple 3) := by
    refine ⟨trivial, ?_, clear_of_growUp rfl trivial⟩
    rintro r ⟨⟩
    decide
  have hreach := Reach.refl.call hclear hcall
  obtain ⟨o, ho, hwf'⟩ := (reach_clearCall_wellFormed hwf hreach).2 (.allocMultiple 2) (by
    refine ⟨trivial, ?_, clear_of_growUp rfl trivial⟩
    rintro r ⟨⟩
    decide)
  exact ⟨_, o, hreach, rfl, ho, hwf'⟩

/-- From the same map a single call of `page_virtual_alloc` leads to an entry
that is not a whole number of pages. -/
theorem reach_not_wellFormed :
    (initial 0x80000 0x5000).WellFormed ∧
      ∃ s, Reach (fun s c => c.Aligned ∧ s.NoWrap c) (initial 0x80000 0x5000) s ∧
        ¬ s.WellFormed := by
  refine ⟨⟨_, initial_layout (by decide) (by decide) (by decide) (by decide)⟩,
    (initial 0x80000 0x5000).setLen 0 0x5001, ?_, ?_⟩
  · have hcall : (initial 0x80000 0x5000).call .alloc =
        some ⟨some 0, some 0x85000, (initial 0x80000 0x5000).setLen 0 0x5001⟩ := rfl
    refine .call .refl ⟨trivial, ?_⟩ hcall
    rintro r ⟨⟩
    decide
  · rintro ⟨l, hl⟩
    have hlist : l = [0] := hl.holds.unique (by
      rw [links_setLen]
      exact initial_holds _ _)
    have hwhole := (hl.entry 0 (by simp [hlist])).whole
    rw [len_setLen, if_pos rfl] at hwhole
    exact absurd hwhole (by decide)

end VirtualAddressMap

end Betelgeuse
