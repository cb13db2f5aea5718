/-
Which allocations are right on a map that reaches the top of the address space.

Only `page_virtual_alloc` asks whether the end of an entry has been computed as 0.  The
other functions take the last entry, which ends at `2 ^ 64`, for one that ends below the
address that they are asked for, or grow it.  `TopClear s c` says for each function where
its search may stop and which room it needs there; `registersFree_iff` says that a call
that returns 0 registers a free range below `2 ^ 64` exactly in this case.
-/
import Betelgeuse.VirtualMapRegisters

open HeapList WordBitmap RangeList

namespace Betelgeuse

namespace VirtualAddressMap

variable (s : VirtualAddressMap)

/-! ### Where there is room -/

/-- The range `[a, a + n)` lies between the entry `t` and the next one. -/
def RoomBehind (t : Slot) (a n : ℕ) : Prop := s.hi t ≤ a ∧ ∃ x ∈ s.next t, a + n ≤ s.lo x

/-- Room for `n` bytes at `a`, or at the end of the entry `t` if that is higher; or below
the entry, if it is the only one and reaches the top. -/
def RoomAt (t : Slot) (a n : ℕ) : Prop :=
  n = 0 ∨ s.RoomBehind t (max (s.hi t) a) n ∨ (s.next t = none ∧ 0 < a ∧ a + n ≤ s.lo t)

/-- Room for `n` bytes at `a`, behind the entry `t`, or below it if the end of the next
entry is not computed as `a`. -/
def RoomBeyond (t : Slot) (a n : ℕ) : Prop :=
  n = 0 ∨ s.RoomBehind t a n ∨ (a + n ≤ s.lo t ∧ ∀ x ∈ s.next t, (s.endOf x).toNat ≠ a)

/-- Room for `n` bytes at `a`, behind the entry `t`; or, where the sum that gave `a` has
wrapped, by chance below the first entry or between two others. -/
def RoomWrapped (t : Slot) (a n : ℕ) : Prop :=
  n = 0 ∨ s.RoomBehind t a n ∨ (a < s.hi t ∧
    ((∀ k ∈ s.first, a + n ≤ s.lo k) ∨ ∃ k, s.links.OnList k ∧ s.RoomBehind k a n))

/-- The end of the entry `e` with the jump added, in 64 bits.  For the entry `t`, where the
search for the base stops, it is the base if that is higher. -/
def behind (t : Slot) (base jumpCount : UInt64) (e : Slot) : UInt64 :=
  if e = t ∧ s.endOf e + jumpCount <<< 12 < base then base else s.endOf e + jumpCount <<< 12

/-- From the entry `t` on, `e` is the first one whose successor does not block the address
behind it. -/
structure FirstUnblocked (blocks : UInt64 → UInt64 → Bool) (t : Slot) (base jumpCount : UInt64)
    (e : Slot) : Prop where
  onList : s.links.OnList e
  from_stop : s.lo t ≤ s.lo e
  unblocked : ∀ x ∈ s.next e, blocks (s.base x) (s.behind t base jumpCount e) = false
  refused : ∀ k x, s.links.OnList k → s.lo t ≤ s.lo k → s.lo k < s.lo e → s.next k = some x →
    blocks (s.base x) (s.behind t base jumpCount k) = true

/-- What the `beyond` functions need for `n` bytes. -/
def ClearBeyond (base jumpCount : UInt64) (n : ℕ) : Prop :=
  ∀ t ∈ s.stopFind base,
    if jumpCount = 0 then s.RoomAt t base.toNat n
    else s.RoomBeyond t (s.behind t base jumpCount t).toNat n

/-- What the `beyond_ex` functions need for `n` bytes. -/
def ClearBeyondEx (blocks : UInt64 → UInt64 → Bool) (base jumpCount : UInt64) (n : ℕ) : Prop :=
  ∀ t ∈ s.stopFind base,
    if jumpCount = 0 then s.RoomAt t base.toNat n
    else ∀ e, s.FirstUnblocked blocks t base jumpCount e →
      s.RoomWrapped e (s.behind t base jumpCount e).toNat n

/-- There is room where the search of the call stops. -/
def TopClear : Call → Prop
  | .alloc => ∀ t ∈ s.first, s.RoomAt t 0 1
  | .allocAt frame => ∀ t ∈ s.stopFind frame, s.RoomAt t frame.toNat 4096
  | .allocAfter base => ∀ t ∈ s.stopFind base, s.RoomAt t base.toNat 4096
  | .allocBeyond base jumpCount => s.ClearBeyond base jumpCount 4096
  | .allocBeyondEx base jumpCount =>
    s.ClearBeyondEx (fun b frame => b ≤ frame) base jumpCount 4096
  | .allocMultiple allocCount => ∀ t ∈ s.first, s.RoomAt t 0 (allocCount <<< 12).toNat
  | .allocMultipleEx allocCount =>
    ∀ t ∈ s.stopMultiple allocCount, s.RoomAt t 0 (allocCount <<< 12).toNat
  | .allocMultipleAt frame allocCount =>
    ∀ t ∈ s.stopFind frame, s.RoomAt t frame.toNat (allocCount <<< 12).toNat
  | .allocMultipleAfter base allocCount =>
    ∀ t ∈ s.stopFind base, s.RoomAt t base.toNat (allocCount <<< 12).toNat
  | .allocMultipleAfterEx base allocCount =>
    ∀ t ∈ s.stopFind base,
      if base ≤ s.endOf t then
        ∀ t ∈ s.stopGap base allocCount, s.RoomAt t 0 (allocCount <<< 12).toNat
      else s.RoomAt t base.toNat (allocCount <<< 12).toNat
  | .allocMultipleBeyond base allocCount jumpCount =>
    s.ClearBeyond base jumpCount (allocCount <<< 12).toNat
  | .allocMultipleBeyondEx base allocCount jumpCount =>
    s.ClearBeyondEx (fun b frame => b < frame + allocCount <<< 12) base jumpCount
      (allocCount <<< 12).toNat
  | .free _ | .freeMultiple .. => True

variable {s} {pre post : List Slot} {t : Slot} {a n : ℕ} {base frame bytes : UInt64} {p : Plan}

/-- `FIND_ENTRY_WITH_TRIPREF` stops behind `pre`, at `t`, on a map that reaches the top. -/
structure TopFound (s : VirtualAddressMap) (frame : UInt64) (pre : List Slot) (t : Slot)
    (post : List Slot) : Prop where
  layout : s.TopLayout (pre ++ t :: post)
  find : s.findEntry frame = some (cellAfter pre)
  above : ∀ x ∈ post.head?, frame.toNat ≤ s.lo x
  below : pre ≠ [] → s.lo t < frame.toNat

theorem ReachesTop.found (h : s.ReachesTop) (frame : UInt64) :
    ∃ pre t post, s.TopFound frame pre t post := by
  obtain ⟨l, hl⟩ := h
  obtain ⟨pre, t, post, rfl, hfind, habove, hbelow⟩ :=
    findEntry_of_holds hl.holds hl.nonempty frame
  exact ⟨pre, t, post, hl, hfind, habove, hbelow⟩

theorem TopFound.deref_eq (h : s.TopFound frame pre t post) : s.deref (cellAfter pre) = some t :=
  deref_of_holds h.layout.holds

theorem TopFound.stopFind_eq (h : s.TopFound frame pre t post) : s.stopFind frame = some t := by
  rw [stopFind, h.find, Option.bind_some, h.deref_eq]

/-- What is asked of the entry where the search stops. -/
theorem TopFound.forall_stopFind (h : s.TopFound frame pre t post) {P : Slot → Prop} :
    (∀ k ∈ s.stopFind frame, P k) ↔ P t := by
  rw [h.stopFind_eq]
  simp

/-- An address that the search for it leaves below its entry lies below all of them. -/
theorem TopFound.pre_eq_nil (h : s.TopFound frame pre t post) (hlt : frame.toNat < s.lo t) :
    pre = [] := by
  by_contra hne
  have := h.below hne
  omega

/-! ### The two ways to register a range -/

/-- An entry that is grown needs room behind it. -/
theorem TopLayout.grow_iff (h : s.TopLayout (pre ++ t :: post)) (ha : a ≤ (s.endOf t).toNat)
    (bytes top : UInt64) :
    s.AddsFree (.growUp (cellAfter pre) bytes top) ↔ s.RoomAt t a bytes.toNat := by
  rw [h.addsFree_growUp, RoomAt, RoomBehind, next_of_holds h.holds]
  cases hx : post.head? with
  | none =>
    have hend := (h.last (List.head?_eq_none_iff.mp hx)).2
    rw [hend, UInt64.toNat_zero] at ha
    obtain rfl : a = 0 := Nat.le_zero.mp ha
    simp
  | some x =>
    have hend := (h.before hx).2.2
    rw [Nat.max_eq_left (by omega)]
    simp

/-- So does a range behind the entry where the search has stopped; behind the last entry
there is none. -/
theorem TopFound.place_iff (h : s.TopFound base pre t post)
    (hlt : (s.endOf t).toNat < base.toNat) (bytes : UInt64) (out : Option UInt64) :
    s.AddsFree (s.placePlan (cellAfter pre) t base bytes out).block ↔
      s.RoomAt t base.toNat bytes.toNat := by
  have hbase := base.toNat_lt
  rw [addsFree_place h.layout.holds, RoomAt, RoomBehind, next_of_holds h.layout.holds]
  -- behind the last entry there is room only below the first one
  cases hx : post.head? with
  | none =>
    have hpost := List.head?_eq_none_iff.mp hx
    have hhi := (h.layout.last hpost).1
    rcases Nat.lt_or_ge base.toNat (s.lo t) with hbelow | hin
    · obtain rfl := h.pre_eq_nil hbelow
      have hfree : s.FreeBelowTop base.toNat bytes.toNat ↔ _ :=
        TopLayout.free_below h.layout hbelow
      rw [hfree]
      constructor
      · exact fun hle => .inr (.inr ⟨rfl, by omega, hle⟩)
      · rintro (hzero | ⟨-, x, hx', -⟩ | ⟨-, -, hle⟩)
        · omega
        · cases hx'
        · exact hle
    · rw [h.layout.free_inside hin (by omega) hbase.le]
      constructor
      · exact .inl
      · rintro (hzero | ⟨-, x, hx', -⟩ | ⟨-, -, hle⟩)
        · exact hzero
        · cases hx'
        · omega
  | some x =>
    have hend := (h.layout.before hx).2.2
    have hle : s.hi t ≤ base.toNat := by omega
    rw [h.layout.free_behind hle hbase.le h.above, Nat.max_eq_right hle, hx, and_iff_right hle]
    simp

/-! ### The functions -/

/-- The plan of a call that returns 0. -/
def Returns (o : Option Plan) (p : Plan) : Prop :=
  o = some p ∧ ∀ code, p.block = .ret code → code = 0

/-- A call that returns 0 does not return from a test. -/
theorem Returns.not_ret {out : Option UInt64} {code : ℤ}
    (h : Returns (some ⟨out, .ret code⟩) p) (hne : code ≠ 0) : False := by
  obtain ⟨hp, hcode⟩ := h
  obtain rfl := Option.some.inj hp
  exact hne (hcode code rfl)

section Functions

variable {jumpCount allocCount : UInt64}

/-- The branch for an address behind the entry where the search stops. -/
theorem TopFound.beyond_end (h : s.TopFound base pre t post) (hlt : (s.endOf t).toNat < base.toNat)
    {out : Option UInt64}
    (hp : (if s.nextBase t = some (base + bytes) then some ⟨out, .growDown (cellAfter pre) bytes⟩
      else some ⟨out, .insert (cellAfter pre) base bytes (some (-1))⟩) = some p) :
    s.AddsFree p.block ↔ s.RoomAt t base.toNat bytes.toNat := by
  rw [← apply_ite some] at hp
  obtain rfl := Option.some.inj hp
  exact h.place_iff hlt bytes out

/-- The last three branches of the `at` functions. -/
theorem TopFound.at_end (h : s.TopFound frame pre t post) (hle : ¬ s.endOf t > frame)
    {out : Option UInt64} {top : UInt64}
    (hp : (if s.endOf t = frame then some ⟨out, .growUp (cellAfter pre) bytes top⟩
      else if s.nextBase t = some (frame + bytes) then some ⟨out, .growDown (cellAfter pre) bytes⟩
      else some ⟨out, .insert (cellAfter pre) frame bytes (some (-1))⟩) = some p) :
    s.AddsFree p.block ↔ s.RoomAt t frame.toNat bytes.toNat := by
  rw [gt_iff_lt, UInt64.lt_iff_toNat_lt, not_lt] at hle
  split at hp
  · rename_i heq
    obtain rfl := Option.some.inj hp
    exact h.layout.grow_iff (congrArg UInt64.toNat heq).ge bytes top
  · rename_i hne
    exact h.beyond_end (lt_of_le_of_ne hle fun heq => hne (UInt64.toNat_inj.mp heq)) hp

/-- The entry that starts the list. -/
theorem ReachesTop.first (h : s.ReachesTop) :
    ∃ t post, s.TopLayout ([] ++ t :: post) ∧ s.first = some t := by
  obtain ⟨l, hl⟩ := h
  obtain ⟨t, post, rfl⟩ := List.exists_cons_of_ne_nil hl.nonempty
  exact ⟨t, post, hl, hl.holds.1⟩

theorem ReachesTop.alloc_iff (h : s.ReachesTop) (hp : Returns s.pageVirtualAllocPlan p) :
    s.AddsFree p.block ↔ s.TopClear .alloc := by
  obtain ⟨t, post, hl, hfirst⟩ := h.first
  simp only [pageVirtualAllocPlan, hfirst, Option.bind_eq_bind, Option.bind_some,
    Option.pure_def] at hp
  simp only [TopClear, hfirst, Option.mem_def, Option.some.injEq, forall_eq']
  split at hp
  · exact (hp.not_ret (by decide)).elim
  · obtain rfl := Option.some.inj hp.1
    exact hl.grow_iff (Nat.zero_le _) 1 _

theorem TopFound.allocAt_iff (h : s.TopFound frame pre t post)
    (hp : Returns (s.pageVirtualAllocAtPlan frame) p) :
    s.AddsFree p.block ↔ s.RoomAt t frame.toNat pageSize.toNat := by
  simp only [pageVirtualAllocAtPlan, h.find, h.deref_eq, Option.bind_eq_bind, Option.bind_some,
    Option.pure_def] at hp
  split at hp
  · exact (hp.not_ret (by decide)).elim
  · rename_i hle
    exact h.at_end hle hp.1

theorem TopFound.allocAfter_iff (h : s.TopFound base pre t post)
    (hp : Returns (s.pageVirtualAllocAfterPlan base) p) :
    s.AddsFree p.block ↔ s.RoomAt t base.toNat pageSize.toNat := by
  simp only [pageVirtualAllocAfterPlan, h.find, h.deref_eq, Option.bind_eq_bind, Option.bind_some,
    Option.pure_def, ge_iff_le] at hp
  split at hp
  · rename_i hle
    obtain rfl := Option.some.inj hp.1
    exact h.layout.grow_iff (UInt64.le_iff_toNat_le.mp hle) pageSize _
  · rename_i hlt
    exact h.beyond_end (UInt64.lt_iff_toNat_lt.mp (UInt64.not_le.mp hlt)) hp.1

theorem ReachesTop.allocMultiple_iff (h : s.ReachesTop)
    (hp : Returns (s.pageVirtualAllocMultiplePlan allocCount) p) :
    s.AddsFree p.block ↔ s.TopClear (.allocMultiple allocCount) := by
  obtain ⟨t, post, hl, hfirst⟩ := h.first
  simp only [pageVirtualAllocMultiplePlan, hfirst, Option.bind_eq_bind, Option.bind_some,
    Option.pure_def] at hp
  simp only [TopClear, hfirst, Option.mem_def, Option.some.injEq, forall_eq']
  split at hp
  · exact (hp.not_ret (by decide)).elim
  split at hp
  · exact (hp.not_ret (by decide)).elim
  obtain rfl := Option.some.inj hp.1
  exact hl.grow_iff (Nat.zero_le _) (allocCount <<< 12) _

theorem ReachesTop.allocMultipleEx_iff (h : s.ReachesTop)
    (hp : Returns (s.pageVirtualAllocMultipleExPlan allocCount) p) :
    s.AddsFree p.block ↔ s.TopClear (.allocMultipleEx allocCount) := by
  obtain ⟨t, post, hl, hfirst⟩ := h.first
  obtain ⟨mid, e, post', heq, hseek, -, -⟩ :=
    seekMultiple_of_holds (show s.links.Holds (t :: post) from hl.holds) allocCount
  have hl' : s.TopLayout (mid ++ e :: post') := heq ▸ hl
  have hderef := deref_of_holds hl'.holds
  simp only [pageVirtualAllocMultipleExPlan, hfirst, hseek, Option.bind_eq_bind, Option.bind_some,
    Option.pure_def] at hp
  simp only [TopClear, stopMultiple, hseek, hderef, Option.bind_some, Option.mem_def,
    Option.some.injEq, forall_eq']
  split at hp
  · exact (hp.not_ret (by decide)).elim
  obtain rfl := Option.some.inj hp.1
  exact hl'.grow_iff (Nat.zero_le _) (allocCount <<< 12) _

theorem TopFound.allocMultipleAt_iff (h : s.TopFound frame pre t post)
    (hp : Returns (s.pageVirtualAllocMultipleAtPlan frame allocCount) p) :
    s.AddsFree p.block ↔ s.RoomAt t frame.toNat (allocCount <<< 12).toNat := by
  simp only [pageVirtualAllocMultipleAtPlan, h.find, h.deref_eq, Option.bind_eq_bind,
    Option.bind_some, Option.pure_def] at hp
  split at hp
  · exact (hp.not_ret (by decide)).elim
  split at hp
  · exact (hp.not_ret (by decide)).elim
  rename_i hle
  obtain ⟨b, -, hb⟩ := Option.bind_eq_some_iff.mp hp.1
  split at hb
  · -- the call returns 1 here
    obtain rfl := Option.some.inj hb
    exact absurd (hp.2 1 rfl) (by decide)
  · exact h.at_end hle hb

theorem TopFound.allocMultipleAfter_iff (h : s.TopFound base pre t post)
    (hp : Returns (s.pageVirtualAllocMultipleAfterPlan base allocCount) p) :
    s.AddsFree p.block ↔ s.RoomAt t base.toNat (allocCount <<< 12).toNat := by
  simp only [pageVirtualAllocMultipleAfterPlan, h.find, h.deref_eq, Option.bind_eq_bind,
    Option.bind_some, Option.pure_def, ge_iff_le] at hp
  split at hp
  · exact (hp.not_ret (by decide)).elim
  split at hp
  · rename_i hle
    split at hp
    · exact (hp.not_ret (by decide)).elim
    · obtain rfl := Option.some.inj hp.1
      exact h.layout.grow_iff (UInt64.le_iff_toNat_le.mp hle) (allocCount <<< 12) _
  · rename_i hlt
    exact h.beyond_end (UInt64.lt_iff_toNat_lt.mp (UInt64.not_le.mp hlt)) hp.1

theorem TopFound.allocMultipleAfterEx_iff (h : s.TopFound base pre t post)
    (hp : Returns (s.pageVirtualAllocMultipleAfterExPlan base allocCount) p) :
    s.AddsFree p.block ↔ s.TopClear (.allocMultipleAfterEx base allocCount) := by
  rw [TopClear, h.forall_stopFind]
  simp only [pageVirtualAllocMultipleAfterExPlan, h.find, h.deref_eq, Option.bind_eq_bind,
    Option.bind_some, Option.pure_def, ge_iff_le] at hp
  split at hp
  · exact (hp.not_ret (by decide)).elim
  split at hp
  · rename_i hle
    rw [if_pos hle]
    obtain ⟨c, hc, hp'⟩ := Option.bind_eq_some_iff.mp hp.1
    obtain ⟨mid, e, x, post', heq, rfl, -, -⟩ := seekGap_of_holds h.layout.holds hc
    have hl : s.TopLayout ((pre ++ mid) ++ e :: x :: post') := by
      have hl := h.layout
      rwa [heq, ← List.append_assoc] at hl
    have hderef := deref_of_holds hl.holds
    have hstop : s.stopGap base allocCount = some e := by
      rw [stopGap, h.find]
      simp only [Option.bind_eq_bind, Option.bind_some, hc, hderef]
    rw [hderef, Option.bind_some] at hp'
    obtain rfl := Option.some.inj hp'
    simp only [hstop, Option.mem_def, Option.some.injEq, forall_eq']
    exact hl.grow_iff (Nat.zero_le _) (allocCount <<< 12) _
  · rename_i hlt
    rw [if_neg hlt]
    exact h.beyond_end (UInt64.lt_iff_toNat_lt.mp (UInt64.not_le.mp hlt)) hp.1

/-! ### Beyond an entry -/

/-- The addresses behind the entries are the values that `*frame` takes in the search. -/
theorem behind_eq (t : Slot) (base jumpCount : UInt64) (e : Slot) :
    s.behind t base jumpCount e = s.candidate t (s.beyondFrame t base jumpCount) jumpCount e := by
  rw [behind, candidate, beyondFrame]
  by_cases het : e = t
  · subst het
    simp
  · simp [het]

theorem behind_self (t : Slot) (base jumpCount : UInt64) :
    s.behind t base jumpCount t = s.beyondFrame t base jumpCount := by
  rw [behind_eq, candidate, if_pos rfl]

/-- `*frame` is not below the base. -/
theorem le_beyondFrame (t : Slot) (base jumpCount : UInt64) :
    base.toNat ≤ (s.beyondFrame t base jumpCount).toNat := by
  rw [beyondFrame]
  split
  · exact le_rfl
  · rename_i hle
    exact UInt64.le_iff_toNat_le.mp (UInt64.not_lt.mp hle)

/-- A range at an address that is not below the base, with the next entry above. -/
theorem TopFound.free_beyond (h : s.TopFound base pre t post) (hbase : base.toNat ≤ frame.toNat)
    (habove : ∀ x ∈ post.head?, frame.toNat < s.lo x) (n : ℕ) :
    s.FreeBelowTop frame.toNat n ↔
      n = 0 ∨ s.RoomBehind t frame.toNat n ∨ frame.toNat + n ≤ s.lo t := by
  have hframe := frame.toNat_lt
  have hpos := h.layout.lo_lt_hi (k := t) (by simp)
  rw [RoomBehind, next_of_holds h.layout.holds]
  rcases Nat.lt_or_ge frame.toNat (s.lo t) with hbelow | hin
  · obtain rfl := h.pre_eq_nil (by omega)
    have hfree : s.FreeBelowTop frame.toNat n ↔ _ := TopLayout.free_below h.layout hbelow
    rw [hfree]
    omega
  · rcases Nat.lt_or_ge frame.toNat (s.hi t) with hinside | hbehind
    · rw [h.layout.free_inside hin hinside hframe.le]
      omega
    · rw [h.layout.free_behind hbehind hframe.le fun x hx => (habove x hx).le]
      constructor
      · rintro (hzero | hroom)
        · exact .inl hzero
        · exact .inr (.inl ⟨hbehind, hroom⟩)
      · rintro (hzero | ⟨-, hroom⟩ | hle)
        · exact .inl hzero
        · exact .inr hroom
        · exact .inl (by omega)

/-- An entry that starts above an address which is computed as its end is the last one, so
that it cannot grow. -/
theorem TopFound.grow_next (h : s.TopFound base pre t post) {x : Slot} (hx : x ∈ post.head?)
    (hlt : frame.toNat < s.lo x) (hend : s.endOf x = frame) (bytes top : UInt64) :
    frame = 0 ∧ (s.AddsFree (.growUp (.next t) bytes top) ↔ bytes.toNat = 0) := by
  obtain ⟨post, rfl⟩ : ∃ post', post = x :: post' := ⟨post.tail, (List.cons_head?_tail hx).symm⟩
  have hl : s.TopLayout ((pre ++ [t]) ++ x :: post) := by simpa using h.layout
  have hpos := hl.lo_lt_hi (k := x) (by simp)
  have hlast : post = [] := by
    cases post with
    | nil => rfl
    | cons y post =>
      have hhi := (hl.before rfl).2.2
      rw [hend] at hhi
      omega
  have hgrow := hl.addsFree_growUp bytes top
  rw [cellAfter_concat, hlast] at hgrow
  refine ⟨by rw [← hend, (hl.last hlast).2], hgrow.trans ⟨?_, .inl⟩⟩
  rintro (hzero | ⟨y, hy, -⟩)
  · exact hzero
  · cases hy

/-- The end of the `beyond` functions. -/
theorem TopFound.beyond_iff (h : s.TopFound base pre t post) (hbase : base.toNat ≤ frame.toNat)
    {out : Option UInt64} {top : Slot → UInt64} (hnot : ¬ (s.nextBase t).any (· ≤ frame) = true)
    (hp : (if s.nextBase t = some (frame + bytes) then some ⟨out, .growDown (cellAfter pre) bytes⟩
      else if (s.next t).any (fun x => decide (s.endOf x = frame)) = true then
        (s.next t).bind fun x => some ⟨out, .growUp (.next t) bytes (top x)⟩
      else some ⟨out, .insert (cellAfter pre) frame bytes (some (-1))⟩) = some p) :
    s.AddsFree p.block ↔ s.RoomBeyond t frame.toNat bytes.toNat := by
  have hnext := next_of_holds h.layout.holds
  have habove : ∀ x ∈ post.head?, frame.toNat < s.lo x := by
    intro x hx
    rw [nextBase, hnext, hx] at hnot
    have hlt : ¬ s.base x ≤ frame := by simpa using hnot
    exact UInt64.lt_iff_toNat_lt.mp (UInt64.not_le.mp hlt)
  have hfree := h.free_beyond hbase habove bytes.toNat
  have hplace := addsFree_place h.layout.holds frame bytes out
  have hpos := h.layout.lo_lt_hi (k := t) (by simp)
  rw [placePlan] at hplace
  split at hp
  · -- the next entry starts where the range ends, so the range is not below `t`
    rename_i hdown
    rw [if_pos hdown] at hplace
    obtain rfl := Option.some.inj hp
    rw [hplace, hfree, RoomBeyond]
    obtain ⟨x, hx, hsum⟩ := Option.map_eq_some_iff.mp hdown
    rw [hnext] at hx
    obtain ⟨hgap, -⟩ := h.layout.before hx
    have hbelow : ¬ frame.toNat + bytes.toNat ≤ s.lo t := by
      intro hle
      have hlo : s.lo x = frame.toNat + bytes.toNat := by
        have hlt := (s.base t).toNat_lt
        rw [lo, hsum, toNat_add_of_lt (by rw [lo] at hle; omega)]
      omega
    simp only [hbelow, false_and]
  · rename_i hdown
    rw [if_neg hdown] at hplace
    split at hp
    · -- the next entry is the last one, and its end is computed as 0
      rename_i hany
      obtain ⟨x, hx, hend⟩ := (Option.any_eq_true _ _).mp hany
      have hend := of_decide_eq_true hend
      rw [hx, Option.bind_some] at hp
      obtain rfl := Option.some.inj hp
      rw [hnext] at hx
      obtain ⟨hzero, hgrow⟩ := h.grow_next hx (habove x hx) hend bytes (top x)
      rw [hgrow, RoomBeyond, RoomBehind, hzero, UInt64.toNat_zero]
      constructor
      · exact .inl
      · rintro (hn | ⟨hle, -⟩ | ⟨-, hne⟩)
        · exact hn
        · omega
        · exact absurd (by rw [hend, hzero, UInt64.toNat_zero]) (hne x (hnext.trans hx))
    · rename_i hany
      obtain rfl := Option.some.inj hp
      rw [hplace, hfree, RoomBeyond]
      have hends : ∀ x ∈ s.next t, (s.endOf x).toNat ≠ frame.toNat := by
        intro x hx heq
        refine hany ((Option.any_eq_true _ _).mpr ⟨x, hx, decide_eq_true ?_⟩)
        exact UInt64.toNat_inj.mp heq
      simp only [and_iff_left hends]

theorem TopFound.allocBeyond_iff (h : s.TopFound base pre t post)
    (hp : Returns (s.pageVirtualAllocBeyondPlan base jumpCount) p) :
    s.AddsFree p.block ↔ s.TopClear (.allocBeyond base jumpCount) := by
  rw [TopClear, ClearBeyond, h.forall_stopFind]
  rw [pageVirtualAllocBeyondPlan] at hp
  split at hp
  · rename_i hjump
    rw [if_pos hjump]
    exact h.allocAfter_iff hp
  · rename_i hjump
    rw [if_neg hjump]
    simp only [h.find, h.deref_eq, Option.bind_eq_bind, Option.bind_some, Option.pure_def] at hp
    split at hp
    · exact (hp.not_ret (by decide)).elim
    · rename_i hnot
      have hroom : s.AddsFree p.block ↔
          s.RoomBeyond t (s.beyondFrame t base jumpCount).toNat pageSize.toNat :=
        h.beyond_iff (le_beyondFrame t base jumpCount) hnot hp.1
      rwa [behind_self]

theorem TopFound.allocMultipleBeyond_iff (h : s.TopFound base pre t post)
    (hp : Returns (s.pageVirtualAllocMultipleBeyondPlan base allocCount jumpCount) p) :
    s.AddsFree p.block ↔ s.TopClear (.allocMultipleBeyond base allocCount jumpCount) := by
  rw [TopClear, ClearBeyond, h.forall_stopFind]
  rw [pageVirtualAllocMultipleBeyondPlan] at hp
  split at hp
  · exact (hp.not_ret (by decide)).elim
  split at hp
  · rename_i hjump
    rw [if_pos hjump]
    exact h.allocMultipleAfter_iff hp
  · rename_i hjump
    rw [if_neg hjump]
    simp only [h.find, h.deref_eq, Option.bind_eq_bind, Option.bind_some, Option.pure_def] at hp
    split at hp
    · exact (hp.not_ret (by decide)).elim
    · rename_i hnot
      rw [behind_self]
      exact h.beyond_iff (le_beyondFrame t base jumpCount) hnot hp.1

/-- Where a range of a map that reaches the top can be free. -/
theorem ReachesTop.free_iff (h : s.ReachesTop) (frame : UInt64) (n : ℕ) :
    s.FreeBelowTop frame.toNat n ↔ n = 0 ∨ (∀ k ∈ s.first, frame.toNat + n ≤ s.lo k) ∨
      ∃ k, s.links.OnList k ∧ s.RoomBehind k frame.toNat n := by
  have hframe := frame.toNat_lt
  obtain ⟨pre, t, post, hf⟩ := h.found frame
  constructor
  · intro hfree
    rcases Nat.lt_or_ge frame.toNat (s.lo t) with hbelow | hin
    · -- below the first entry
      obtain rfl := hf.pre_eq_nil hbelow
      have hle := (TopLayout.free_below hf.layout hbelow).mp hfree
      refine .inr (.inl fun k hk => ?_)
      obtain rfl : t = k := Option.some.inj (hf.layout.holds.1.symm.trans hk)
      exact hle
    · rcases Nat.lt_or_ge frame.toNat (s.hi t) with hinside | hbehind
      · exact .inl ((hf.layout.free_inside hin hinside hframe.le).mp hfree)
      · rcases (hf.layout.free_behind hbehind hframe.le hf.above).mp hfree with hzero | hroom
        · exact .inl hzero
        · refine .inr (.inr ⟨t, hf.layout.onList (by simp), hbehind, ?_⟩)
          rwa [next_of_holds hf.layout.holds]
  · rintro (rfl | hbelow | ⟨k, hk, hle, x, hx, hroom⟩)
    · exact freeBelowTop_zero hframe.le
    · obtain ⟨t, post, hl, hfirst⟩ := h.first
      have hle := hbelow t hfirst
      rcases Nat.eq_zero_or_pos n with rfl | hn
      · exact freeBelowTop_zero hframe.le
      · exact (TopLayout.free_below hl (by omega)).mpr hle
    · obtain ⟨l, hl⟩ := h
      obtain ⟨a, b, rfl⟩ := List.append_of_mem (hl.holds.onList_iff.mp hk)
      rw [next_of_holds hl.holds] at hx
      refine (hl.free_behind hle hframe.le fun y hy => ?_).mpr (.inr ⟨x, hx, hroom⟩)
      obtain rfl : x = y := Option.some.inj (hx.symm.trans hy)
      omega

/-- The place where the second loop of a `beyond_ex` function stops. -/
theorem TopLayout.wrapped_iff (h : s.TopLayout (pre ++ t :: post)) {frame : UInt64}
    (habove : frame.toNat + n < 2 ^ 64 → ∀ x ∈ post.head?, frame.toNat ≤ s.lo x) :
    s.FreeBelowTop frame.toNat n ↔ s.RoomWrapped t frame.toNat n := by
  have hframe := frame.toNat_lt
  rw [RoomWrapped]
  rcases Nat.eq_zero_or_pos n with rfl | hn
  · exact iff_of_true (freeBelowTop_zero hframe.le) (.inl rfl)
  rcases Nat.lt_or_ge frame.toNat (s.hi t) with hwrap | hbehind
  · rw [ReachesTop.free_iff ⟨_, h⟩]
    constructor
    · rintro (hzero | hroom)
      · exact .inl hzero
      · exact .inr (.inr ⟨hwrap, hroom⟩)
    · rintro (hzero | ⟨hle, -⟩ | ⟨-, hroom⟩)
      · exact .inl hzero
      · omega
      · exact .inr hroom
  · rw [RoomBehind, next_of_holds h.holds]
    rcases Nat.lt_or_ge (frame.toNat + n) (2 ^ 64) with hlt | htop
    · rw [h.free_behind hbehind hframe.le (habove hlt)]
      constructor
      · rintro (hzero | hroom)
        · exact .inl hzero
        · exact .inr (.inl ⟨hbehind, hroom⟩)
      · rintro (hzero | ⟨-, hroom⟩ | ⟨hwrap, -⟩)
        · exact .inl hzero
        · exact .inr hroom
        · omega
    · -- the range would run into the last address
      constructor
      · intro hfree
        have := h.lt_top hfree hn
        omega
      · rintro (hzero | ⟨-, x, -, hle⟩ | ⟨hwrap, -⟩)
        · omega
        · have hx := (s.base x).toNat_lt
          rw [lo] at hle
          omega
        · omega

/-- The second loop stops at the first entry that is not blocked. -/
theorem TopFound.firstUnblocked (h : s.TopFound base pre t post)
    {blocks : UInt64 → UInt64 → Bool} {mid post' : List Slot} {e : Slot}
    (heq : t :: post = mid ++ e :: post')
    (hchain : (mid ++ [e]).IsChain fun a b =>
      blocks (s.base b) (s.behind t base jumpCount a) = true)
    (hstop : ∀ x ∈ post'.head?, blocks (s.base x) (s.behind t base jumpCount e) = false) :
    s.FirstUnblocked blocks t base jumpCount e := by
  have hl : s.TopLayout (pre ++ (mid ++ e :: post')) := heq ▸ h.layout
  have he : s.TopLayout ((pre ++ mid) ++ e :: post') := by simpa using hl
  have hinc : (pre ++ (mid ++ e :: post')).Pairwise fun a b => s.lo a < s.lo b :=
    heq ▸ h.layout.ascending
  have hhead : ∀ a ∈ (mid ++ [e]).head?, a = t := fun a ha =>
    (Option.some.inj ((head?_of_split heq).symm.trans ha)).symm
  refine ⟨he.onList (by simp), ?_, fun x hx => hstop x ?_, fun k x hk hlo hlt hx => ?_⟩
  · cases mid with
    | nil => rw [hhead e rfl]
    | cons a mid =>
      rw [← hhead a rfl]
      have hpair := (List.pairwise_append.mp hinc).2.1
      exact ((List.pairwise_cons.mp hpair).1 e (by simp)).le
  · exact (next_of_holds he.holds).symm.trans hx
  · refine rel_of_holds hl.holds hinc hchain hk (fun a ha => ?_) hlt hx
    rw [hhead a ha]
    exact hlo

/-- An entry behind such an entry is not another one. -/
theorem TopLayout.not_firstUnblocked {blocks : UInt64 → UInt64 → Bool} {k e e' : Slot}
    (h : s.TopLayout (pre ++ e :: post)) (he : s.FirstUnblocked blocks k base jumpCount e)
    (he' : e' ∈ post) : ¬ s.FirstUnblocked blocks k base jumpCount e' := by
  intro hfirst
  have hinc := (List.pairwise_append.mp h.ascending).2.1
  cases post with
  | nil => cases he'
  | cons x post =>
    have hx : s.next e = some x := next_of_holds h.holds
    have hlt := (List.pairwise_cons.mp hinc).1 e' he'
    have hblocked := hfirst.refused e x he.onList he.from_stop hlt hx
    rw [he.unblocked x hx] at hblocked
    cases hblocked

/-- There is only one of them. -/
theorem TopLayout.firstUnblocked_unique {l : List Slot} (h : s.TopLayout l)
    {blocks : UInt64 → UInt64 → Bool} {k e e' : Slot}
    (he : s.FirstUnblocked blocks k base jumpCount e)
    (he' : s.FirstUnblocked blocks k base jumpCount e') : e = e' := by
  obtain ⟨pre, post, rfl⟩ := List.append_of_mem (h.holds.onList_iff.mp he.onList)
  rcases List.mem_append.mp (h.holds.onList_iff.mp he'.onList) with hpre | hmem
  · obtain ⟨a, b, rfl⟩ := List.append_of_mem hpre
    have h' : s.TopLayout (a ++ e' :: (b ++ e :: post)) := by simpa using h
    exact absurd he (h'.not_firstUnblocked he' (by simp))
  · rcases List.mem_cons.mp hmem with rfl | hpost
    · rfl
    · exact absurd he' (h.not_firstUnblocked he hpost)

/-- The end of the `beyond_ex` functions. -/
theorem TopFound.beyondEx_iff (h : s.TopFound base pre t post) {blocks : UInt64 → UInt64 → Bool}
    (hblocks : ∀ b f : UInt64, blocks b f = false → f.toNat + bytes.toNat < 2 ^ 64 →
      f.toNat ≤ b.toNat)
    (hp : ((s.seekBeyond blocks jumpCount 129 (cellAfter pre)
        (s.beyondFrame t base jumpCount)).bind fun r => (s.deref r.1).bind fun e =>
          if s.nextBase e = some (r.2 + bytes) then some ⟨some r.2, .growDown r.1 bytes⟩
          else some ⟨some r.2, .insert r.1 r.2 bytes (some (-1))⟩) = some p) :
    s.AddsFree p.block ↔ ∀ e, s.FirstUnblocked blocks t base jumpCount e →
      s.RoomWrapped e (s.behind t base jumpCount e).toNat bytes.toNat := by
  obtain ⟨mid, e, post', heq, hseek, hchain, hstop⟩ := seekBeyond_of_holds blocks jumpCount
    (s.beyondFrame t base jumpCount) h.layout.holds
    (Nat.lt_succ_of_lt (length_lt_of_holds h.layout.holds))
  simp only [← behind_eq] at hseek hchain hstop
  have hl : s.TopLayout ((pre ++ mid) ++ e :: post') := by
    have hl := h.layout
    rwa [heq, ← List.append_assoc] at hl
  have hfirst := h.firstUnblocked heq hchain hstop
  rw [hseek, Option.bind_some, deref_of_holds hl.holds, Option.bind_some, ← apply_ite some] at hp
  obtain rfl := Option.some.inj hp
  generalize hf : s.behind t base jumpCount e = f at hstop
  have hfree := addsFree_place hl.holds f bytes (some f)
  rw [placePlan] at hfree
  rw [hfree, hl.wrapped_iff fun hlt x hx => hblocks _ f (hstop x hx) hlt]
  constructor
  · intro hroom e' he'
    obtain rfl := hl.firstUnblocked_unique hfirst he'
    rwa [hf]
  · intro hroom
    have hroom := hroom e hfirst
    rwa [hf] at hroom

theorem TopFound.allocBeyondEx_iff (h : s.TopFound base pre t post)
    (hp : Returns (s.pageVirtualAllocBeyondExPlan base jumpCount) p) :
    s.AddsFree p.block ↔ s.TopClear (.allocBeyondEx base jumpCount) := by
  rw [TopClear, ClearBeyondEx, h.forall_stopFind]
  rw [pageVirtualAllocBeyondExPlan] at hp
  split at hp
  · rename_i hjump
    rw [if_pos hjump]
    exact h.allocAfter_iff hp
  · rename_i hjump
    rw [if_neg hjump]
    simp only [h.find, h.deref_eq, Option.bind_eq_bind, Option.bind_some, Option.pure_def] at hp
    have hroom : s.AddsFree p.block ↔
        ∀ e, s.FirstUnblocked (fun b frame => b ≤ frame) t base jumpCount e →
          s.RoomWrapped e (s.behind t base jumpCount e).toNat pageSize.toNat := by
      refine h.beyondEx_iff (fun b f hb _ => ?_) hp.1
      exact (UInt64.lt_iff_toNat_lt.mp (UInt64.not_le.mp (of_decide_eq_false hb))).le
    exact hroom

theorem TopFound.allocMultipleBeyondEx_iff (h : s.TopFound base pre t post)
    (hp : Returns (s.pageVirtualAllocMultipleBeyondExPlan base allocCount jumpCount) p) :
    s.AddsFree p.block ↔ s.TopClear (.allocMultipleBeyondEx base allocCount jumpCount) := by
  rw [TopClear, ClearBeyondEx, h.forall_stopFind]
  rw [pageVirtualAllocMultipleBeyondExPlan] at hp
  split at hp
  · exact (hp.not_ret (by decide)).elim
  split at hp
  · rename_i hjump
    rw [if_pos hjump]
    exact h.allocMultipleAfter_iff hp
  · rename_i hjump
    rw [if_neg hjump]
    simp only [h.find, h.deref_eq, Option.bind_eq_bind, Option.bind_some, Option.pure_def] at hp
    refine h.beyondEx_iff (fun b f hb hlt => ?_) hp.1
    have hle := UInt64.le_iff_toNat_le.mp (UInt64.not_lt.mp (of_decide_eq_false hb))
    rw [toNat_add_of_lt hlt] at hle
    omega

end Functions

/-! ### All functions -/

/-- The plan of an allocation that returns 0, and what it does. -/
theorem returns_of_call {c : Call} (hc : c.Allocates) {o : Outcome} (ho : s.call c = some o)
    (hzero : o.code = some 0) :
    ∃ p, Returns (s.plan c) p ∧ s.perform p.block = some (o.code, o.map) := by
  rw [call_eq_plan hc.ne_freeMultiple] at ho
  obtain ⟨p, hp, hr⟩ := Option.bind_eq_some_iff.mp ho
  obtain ⟨r, hrun, rfl⟩ := Option.map_eq_some_iff.mp hr
  refine ⟨p, ⟨hp, fun code hcode => ?_⟩, hrun⟩
  rw [hcode] at hrun
  obtain rfl := Option.some.inj hrun
  exact Option.some.inj hzero

/-- The range of the block is free exactly if there is room where the search stops. -/
theorem ReachesTop.addsFree_iff {c : Call} (h : s.ReachesTop) (hc : c.Allocates)
    (hp : Returns (s.plan c) p) : s.AddsFree p.block ↔ s.TopClear c := by
  -- one theorem for each call; those that look for an entry start from the one they find
  cases c with
  | alloc => exact h.alloc_iff hp
  | allocAt frame =>
    obtain ⟨pre, t, post, hf⟩ := h.found frame
    rw [TopClear, hf.forall_stopFind]
    exact hf.allocAt_iff hp
  | allocAfter base =>
    obtain ⟨pre, t, post, hf⟩ := h.found base
    rw [TopClear, hf.forall_stopFind]
    exact hf.allocAfter_iff hp
  | allocBeyond base jumpCount =>
    obtain ⟨pre, t, post, hf⟩ := h.found base
    exact hf.allocBeyond_iff hp
  | allocBeyondEx base jumpCount =>
    obtain ⟨pre, t, post, hf⟩ := h.found base
    exact hf.allocBeyondEx_iff hp
  | allocMultiple allocCount => exact h.allocMultiple_iff hp
  | allocMultipleEx allocCount => exact h.allocMultipleEx_iff hp
  | allocMultipleAt frame allocCount =>
    obtain ⟨pre, t, post, hf⟩ := h.found frame
    rw [TopClear, hf.forall_stopFind]
    exact hf.allocMultipleAt_iff hp
  | allocMultipleAfter base allocCount =>
    obtain ⟨pre, t, post, hf⟩ := h.found base
    rw [TopClear, hf.forall_stopFind]
    exact hf.allocMultipleAfter_iff hp
  | allocMultipleAfterEx base allocCount =>
    obtain ⟨pre, t, post, hf⟩ := h.found base
    exact hf.allocMultipleAfterEx_iff hp
  | allocMultipleBeyond base allocCount jumpCount =>
    obtain ⟨pre, t, post, hf⟩ := h.found base
    exact hf.allocMultipleBeyond_iff hp
  | allocMultipleBeyondEx base allocCount jumpCount =>
    obtain ⟨pre, t, post, hf⟩ := h.found base
    exact hf.allocMultipleBeyondEx_iff hp
  | free frame => exact hc.elim
  | freeMultiple frame count => exact hc.elim

/-- On a map that reaches the top of the address space, what an allocation that returns 0
has registered in the map that it leaves was free, and does not run past `2 ^ 64`, exactly
if there is room where its search stops. -/
theorem registersFree_iff {c : Call} (h : s.ReachesTop) (hc : c.Allocates) {o : Outcome}
    (ho : s.call c = some o) (hzero : o.code = some 0) :
    RegistersFree s o.map ↔ s.TopClear c := by
  obtain ⟨p, hp, hrun⟩ := returns_of_call hc ho hzero
  obtain ⟨l, hl⟩ := h
  have hshows := hl.shows_perform (allocating_plan hc p hp.1) (onPlan_plan c p hp.1) hrun hzero
  rw [hshows.free_iff_addsFree]
  exact ReachesTop.addsFree_iff ⟨l, hl⟩ hc hp

/-! ### The last two gigabytes -/

/-- One entry, in slot 0, for the two gigabytes in which the kernel lies. -/
def kernelEntry : VirtualAddressMap where
  map := fun _ => ⟨none, 0x80000000, 0xFFFFFFFF80000000⟩
  first := some 0
  freeBitmap := fun i => if i = 0 then 1 else 0

theorem kernelEntry_layout : kernelEntry.TopLayout [0] where
  holds := ⟨rfl, rfl⟩
  nonempty := List.cons_ne_nil 0 []
  aligned := by
    intro _ _
    show (0xFFFFFFFF80000000 : UInt64).toNat % 4096 = 0
    decide
  whole := by
    intro _ _
    show (0x80000000 : UInt64).toNat % 4096 = 0
    decide
  pos := by
    intro _ _
    show 0 < (0x80000000 : UInt64).toNat
    decide
  sorted := List.isChain_singleton 0
  top := by
    intro _ _
    show (0xFFFFFFFF80000000 : UInt64).toNat + (0x80000000 : UInt64).toNat = 2 ^ 64
    decide

/-- A page below the entry is free, and `page_virtual_alloc_at` registers it. -/
theorem registersFree_kernelEntry :
    ∃ o, kernelEntry.call (.allocAt 0x1000) = some o ∧ o.code = some 0 ∧
      RegistersFree kernelEntry o.map := by
  have hcall : kernelEntry.call (.allocAt 0x1000) =
      some ⟨some 0, none, kernelEntry.linkEntry 0 63 0x1000 pageSize 0 0⟩ := rfl
  have hc : (Call.allocAt 0x1000).Allocates := trivial
  refine ⟨_, hcall, rfl, ?_⟩
  refine (registersFree_iff ⟨_, kernelEntry_layout⟩ hc hcall rfl).mpr fun t ht => ?_
  obtain rfl : (0 : Slot) = t := Option.some.inj ht
  exact .inr (.inr ⟨rfl, by decide, by decide⟩)

/-- A page inside it is registered a second time. -/
theorem not_registersFree_kernelEntry :
    kernelEntry.ReachesTop ∧ (Call.allocAt 0xFFFFFFFF80001000).Aligned ∧
      ∃ o, kernelEntry.call (.allocAt 0xFFFFFFFF80001000) = some o ∧ o.code = some 0 ∧
        ¬ RegistersFree kernelEntry o.map := by
  have haligned : (0xFFFFFFFF80001000 : UInt64).toNat % 4096 = 0 := by decide
  refine ⟨⟨_, kernelEntry_layout⟩, haligned, _, rfl, rfl, fun hfree => ?_⟩
  have htook : Took kernelEntry
      (kernelEntry.linkEntry 0 63 0xFFFFFFFF80001000 pageSize 0 0) 63 := ⟨0, 63, rfl, rfl, rfl⟩
  have hon : (kernelEntry.linkEntry 0 63 0xFFFFFFFF80001000 pageSize 0 0).links.OnList 63 :=
    .next (.first rfl) rfl
  have hrange := hfree _ _ (.insert htook hon)
  exact not_free (k := 0) (.first rfl) (by decide) (by decide) le_rfl (by decide) hrange.1

end VirtualAddressMap

end Betelgeuse
