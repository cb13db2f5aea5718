/-
`page_map_multiple`.

In `va_addr + index << 12` the sum is shifted, so round `i` maps the page with the
number `va_addr + i`, where the caller's page has the number `va_addr / 4096 + i`; and
every code of `page_map` but 0 ends the call with the index of the round, also the code
for a missing frame.  So the call does what it should if no frame is missing and the
address is 0, or if the first round finds both pages mapped (`mapsConsecutive_iff`).
There is one more way: a call that maps every page there is, in another order.
-/
import Betelgeuse.PageMultipleMaps

open WordArith

namespace Betelgeuse

variable {σ : Type*}

namespace FrameServices

variable (S : FrameServices σ)

/-- The rounds of `page_map_multiple` from `index` on, of which `n` are left. -/
def mapRounds (vaAddr : UInt64) (physAddr : ℕ → UInt64) : ℕ → UInt64 → σ → ℤ × σ
  | 0, _, s => (0, s)
  | n + 1, index, s =>
    let (result, s) := S.pageMap ((vaAddr + index) <<< 12) (physAddr index.toNat) s
    if result ≠ 0 then ((index + 1).toInt64.toInt, s)
    else mapRounds vaAddr physAddr n (index + 1) s

/-- `page_map_multiple`; `physAddr` is the array. -/
def pageMapMultiple (count vaAddr : UInt64) (physAddr : ℕ → UInt64) (s : σ) : ℤ × σ :=
  S.mapRounds vaAddr physAddr count.toNat 0 s

/-- The state after `n` rounds. -/
def mapState (vaAddr : UInt64) (physAddr : ℕ → UInt64) (s : σ) : ℕ → σ
  | 0 => s
  | n + 1 =>
    (S.pageMap ((vaAddr + UInt64.ofNat n) <<< 12) (physAddr n) (mapState vaAddr physAddr s n)).2

/-- What `page_map` returns in round `n`. -/
def mapCode (vaAddr : UInt64) (physAddr : ℕ → UInt64) (s : σ) (n : ℕ) : ℤ :=
  (S.pageMap ((vaAddr + UInt64.ofNat n) <<< 12) (physAddr n) (S.mapState vaAddr physAddr s n)).1

/-- The first `n` rounds succeed. -/
def RoundsSucceed (vaAddr : UInt64) (physAddr : ℕ → UInt64) (s : σ) (n : ℕ) : Prop :=
  ∀ i < n, S.mapCode vaAddr physAddr s i = 0

/-- The call comes to a round in which `page_map` finds no frame. -/
def RunsOut (count vaAddr : UInt64) (physAddr : ℕ → UInt64) (s : σ) : Prop :=
  ∃ n < count.toNat, S.RoundsSucceed vaAddr physAddr s n ∧ S.mapCode vaAddr physAddr s n = -1

end FrameServices

/-- The pages `0, .., n - 1` of a range are mapped to the given frames, and no other address
is translated differently. -/
structure RangeTranslated (translation : σ → UInt64 → Option UInt64) (vaAddr : UInt64)
    (physAddr : ℕ → UInt64) (n : ℕ) (s s' : σ) : Prop where
  mapped : ∀ i < n, translation s' (vaAddr + UInt64.ofNat i <<< 12) = some (physAddr i)
  others : ∀ va, (∀ i < n, ¬ SamePage (vaAddr + UInt64.ofNat i <<< 12) va) →
    translation s' va = translation s va

/-- What `page_map_multiple` should do. -/
structure MapsConsecutive (S : FrameServices σ) (translation : σ → UInt64 → Option UInt64)
    (count vaAddr : UInt64) (physAddr : ℕ → UInt64) (s : σ) : Prop where
  success : (S.pageMapMultiple count vaAddr physAddr s).1 = 0 →
    RangeTranslated translation vaAddr physAddr count.toNat s
      (S.pageMapMultiple count vaAddr physAddr s).2
  index : ∀ n : ℕ, (S.pageMapMultiple count vaAddr physAddr s).1 = n + 1 →
    translation (S.pageMapMultiple count vaAddr physAddr s).2 (vaAddr + UInt64.ofNat n <<< 12) ≠
        none ∧
      (∀ i < n, translation s (vaAddr + UInt64.ofNat i <<< 12) = none) ∧
      RangeTranslated translation vaAddr physAddr n s
        (S.pageMapMultiple count vaAddr physAddr s).2
  failed : S.RunsOut count vaAddr physAddr s →
    (S.pageMapMultiple count vaAddr physAddr s).1 = -1

/-- The call maps every page there is, and a page that two rounds stand for gets the same
frame by both. -/
structure FullCircle (translation : σ → UInt64 → Option UInt64) (count vaAddr : UInt64)
    (physAddr : ℕ → UInt64) (s : σ) : Prop where
  count : 2 ^ 52 ≤ count.toNat
  unmapped : ∀ va, translation s va = none
  agree : ∀ i < 2 ^ 52, ∀ j < 2 ^ 52,
    SamePage ((vaAddr + UInt64.ofNat j) <<< 12) (vaAddr + UInt64.ofNat i <<< 12) →
      physAddr j = physAddr i

namespace FrameServices

variable {S : FrameServices σ} {translation : σ → UInt64 → Option UInt64} {free : σ → Set UInt64}
  {count vaAddr : UInt64} {physAddr : ℕ → UInt64} {s : σ} {n : ℕ}

/-! ### The pages -/

/-- The number of the page that a round maps. -/
theorem mappedPage_div (vaAddr : UInt64) (i : ℕ) :
    ((vaAddr + UInt64.ofNat i) <<< 12).toNat / 4096 = (vaAddr.toNat + i) % 2 ^ 52 := by
  rw [toNat_shiftLeft (n := 12) rfl, UInt64.toNat_add, UInt64.toNat_ofNat']
  omega

/-- All pages are numbers below `2 ^ 52`. -/
theorem samePage_iff {i j : ℕ} :
    SamePage ((vaAddr + UInt64.ofNat j) <<< 12) (vaAddr + UInt64.ofNat i <<< 12) ↔
      (vaAddr.toNat + j) % 2 ^ 52 = (vaAddr.toNat / 4096 + i) % 2 ^ 52 := by
  rw [SamePage, mappedPage_div, page_div]

/-- Fewer pages than there are do not fill a range that begins elsewhere. -/
theorem escapes (halign : vaAddr.toNat % 4096 = 0) (hne : vaAddr ≠ 0) (hn : 0 < n)
    (hlt : n < 2 ^ 52) :
    ∃ j < n, ∀ i < n,
      ¬ SamePage ((vaAddr + UInt64.ofNat j) <<< 12) (vaAddr + UInt64.ofNat i <<< 12) := by
  have hva := vaAddr.toNat_lt
  have hpos : vaAddr.toNat ≠ 0 := fun h => hne (UInt64.toNat_inj.mp h)
  simp only [samePage_iff]
  -- the distance of the two ranges, which is not 0 as 4095 is odd
  obtain ⟨d, hd, hlt_d, hdist⟩ : ∃ d, 0 < d ∧ d < 2 ^ 52 ∧
      vaAddr.toNat % 2 ^ 52 = (vaAddr.toNat / 4096 + d) % 2 ^ 52 := by
    refine ⟨(vaAddr.toNat + (2 ^ 52 - vaAddr.toNat / 4096)) % 2 ^ 52, ?_, ?_, ?_⟩
    · omega
    · omega
    · omega
  by_cases hfar : n ≤ d
  · exact ⟨0, hn, fun i hi => by omega⟩
  · exact ⟨n - d, by omega, fun i hi => by omega⟩

/-! ### The loop -/

theorem RoundsSucceed.le {m : ℕ} (h : S.RoundsSucceed vaAddr physAddr s n) (hle : m ≤ n) :
    S.RoundsSucceed vaAddr physAddr s m := fun i hi => h i (hi.trans_le hle)

theorem mapRounds_succ {i : ℕ} (hi : i < 2 ^ 64) (n : ℕ) :
    S.mapRounds vaAddr physAddr (n + 1) (UInt64.ofNat i) (S.mapState vaAddr physAddr s i) =
      if S.mapCode vaAddr physAddr s i ≠ 0 then
        ((UInt64.ofNat i + 1).toInt64.toInt, S.mapState vaAddr physAddr s (i + 1))
      else S.mapRounds vaAddr physAddr n (UInt64.ofNat (i + 1))
        (S.mapState vaAddr physAddr s (i + 1)) := by
  have hnext : UInt64.ofNat i + 1 = UInt64.ofNat (i + 1) := by
    rw [UInt64.ofNat_add]
    rfl
  have hindex : (UInt64.ofNat i).toNat = i := by
    rw [UInt64.toNat_ofNat', Nat.mod_eq_of_lt hi]
  rw [mapRounds, hindex, ← hnext]
  rfl

/-- Rounds that succeed lead from one state to the next. -/
theorem RoundsSucceed.mapRounds (h : S.RoundsSucceed vaAddr physAddr s n) (hn : n ≤ 2 ^ 64)
    (m : ℕ) :
    S.mapRounds vaAddr physAddr (n + m) 0 s =
      S.mapRounds vaAddr physAddr m (UInt64.ofNat n) (S.mapState vaAddr physAddr s n) := by
  induction n generalizing m with
  | zero => rw [Nat.zero_add]; rfl
  | succ n ih =>
    rw [Nat.add_right_comm, Nat.add_assoc, ih (h.le n.le_succ) (by omega),
      mapRounds_succ (by omega),
      if_neg (not_not.mpr (h n n.lt_succ_self))]

theorem pageMapMultiple_succeeds (h : S.RoundsSucceed vaAddr physAddr s count.toNat) :
    S.pageMapMultiple count vaAddr physAddr s =
      (0, S.mapState vaAddr physAddr s count.toNat) :=
  h.mapRounds count.toNat_lt.le 0

/-- The first round that does not succeed ends the call, whatever its code is. -/
theorem pageMapMultiple_stops (h : S.RoundsSucceed vaAddr physAddr s n) (hn : n < count.toNat)
    (hcode : S.mapCode vaAddr physAddr s n ≠ 0) :
    S.pageMapMultiple count vaAddr physAddr s =
      ((UInt64.ofNat n + 1).toInt64.toInt, S.mapState vaAddr physAddr s (n + 1)) := by
  have hcount := count.toNat_lt
  obtain ⟨m, hm⟩ : ∃ m, count.toNat = n + (m + 1) := ⟨count.toNat - n - 1, by omega⟩
  rw [pageMapMultiple, hm, h.mapRounds (by omega), mapRounds_succ (by omega), if_pos hcode]

/-- The rounds succeed up to the end, or up to a round that ends the call. -/
theorem succeeds_or_stops (S : FrameServices σ) (vaAddr : UInt64) (physAddr : ℕ → UInt64) (s : σ)
    (count : ℕ) :
    S.RoundsSucceed vaAddr physAddr s count ∨
      ∃ n < count, S.RoundsSucceed vaAddr physAddr s n ∧ S.mapCode vaAddr physAddr s n ≠ 0 := by
  induction count with
  | zero => exact .inl fun i hi => absurd hi (Nat.not_lt_zero i)
  | succ count ih =>
    rcases ih with hall | ⟨n, hn, hsucc, hcode⟩
    · by_cases hcode : S.mapCode vaAddr physAddr s count = 0
      · refine .inl fun i hi => ?_
        rcases Nat.lt_succ_iff_lt_or_eq.mp hi with hlt | rfl
        · exact hall i hlt
        · exact hcode
      · exact .inr ⟨count, count.lt_succ_self, hall, hcode⟩
    · exact .inr ⟨n, hn.trans count.lt_succ_self, hsucc, hcode⟩

/-! ### What the rounds map -/

variable (h : S.Contract translation free)
include h

/-- Rounds that succeed map their pages, and nothing else. -/
theorem RoundsSucceed.mapped (hsucc : S.RoundsSucceed vaAddr physAddr s n)
    (hphys : ∀ i < n, physAddr i &&& addrMask = physAddr i) :
    PagesMapped translation (fun i => (vaAddr + UInt64.ofNat i) <<< 12) n
      ((List.range n).map physAddr) s (S.mapState vaAddr physAddr s n) := by
  induction n with
  | zero =>
    exact ⟨fun j hj => absurd hj (Nat.not_lt_zero j), fun j hj => absurd hj (Nat.not_lt_zero j),
      fun va _ => rfl, fun j hj => absurd hj (Nat.not_lt_zero j)⟩
  | succ n ih =>
    have hprefix := ih (hsucc.le n.le_succ) fun i hi => hphys i (hi.trans n.lt_succ_self)
    obtain ⟨hnone, hsome, hother, -⟩ :=
      h.map_zero _ _ _ _ (Prod.ext (hsucc n n.lt_succ_self) rfl)
    rw [hphys n n.lt_succ_self] at hsome
    rw [List.range_succ, List.map_append]
    exact hprefix.succ (by rw [List.length_map, List.length_range]) h.translation_page hnone hsome
      hother

theorem RoundsSucceed.translation_eq (hsucc : S.RoundsSucceed vaAddr physAddr s n)
    (hphys : ∀ i < n, physAddr i &&& addrMask = physAddr i) {j : ℕ} (hj : j < n) :
    translation (S.mapState vaAddr physAddr s n) ((vaAddr + UInt64.ofNat j) <<< 12) =
      some (physAddr j) := by
  have hmapped := (hsucc.mapped h hphys).mapped j hj
  rwa [List.getElem?_map, List.getElem?_range hj] at hmapped

/-- There are not more rounds that succeed than there are pages. -/
theorem RoundsSucceed.le_pages (hsucc : S.RoundsSucceed vaAddr physAddr s n)
    (hphys : ∀ i < n, physAddr i &&& addrMask = physAddr i) : n ≤ 2 ^ 52 := by
  by_contra hlt
  have hsame : (0 : ℕ) = 2 ^ 52 :=
    (hsucc.mapped h hphys).different 0 (by omega) (2 ^ 52) (by omega) (by
      rw [SamePage, mappedPage_div, mappedPage_div, Nat.add_zero, Nat.add_mod_right])
  omega

/-- The rounds map the pages of the range, in whatever order: there are none, the address is 0,
or all pages are mapped. -/
def Covers (vaAddr : UInt64) (physAddr : ℕ → UInt64) (n : ℕ) : Prop :=
  n = 0 ∨ vaAddr = 0 ∨ n = 2 ^ 52 ∧ ∀ i < 2 ^ 52, ∀ j < 2 ^ 52,
    SamePage ((vaAddr + UInt64.ofNat j) <<< 12) (vaAddr + UInt64.ofNat i <<< 12) →
      physAddr j = physAddr i

omit h in
theorem Covers.pages (hcov : Covers vaAddr physAddr n) :
    (∀ i < n, ∃ j < n, SamePage ((vaAddr + UInt64.ofNat j) <<< 12)
        (vaAddr + UInt64.ofNat i <<< 12) ∧ physAddr j = physAddr i) ∧
      ∀ j < n, ∃ i < n, SamePage ((vaAddr + UInt64.ofNat j) <<< 12)
        (vaAddr + UInt64.ofNat i <<< 12) := by
  rcases hcov with rfl | rfl | ⟨rfl, hagree⟩
  · exact ⟨fun i hi => absurd hi (Nat.not_lt_zero i), fun j hj => absurd hj (Nat.not_lt_zero j)⟩
  · have hsame : ∀ i, SamePage (((0 : UInt64) + UInt64.ofNat i) <<< 12)
        ((0 : UInt64) + UInt64.ofNat i <<< 12) := by
      intro i
      rw [samePage_iff]
      rfl
    exact ⟨fun i hi => ⟨i, hi, hsame i, rfl⟩, fun j hj => ⟨j, hj, hsame j⟩⟩
  · constructor
    · intro i hi
      have hlt : (vaAddr.toNat / 4096 + i + (2 ^ 52 - vaAddr.toNat % 2 ^ 52)) % 2 ^ 52 < 2 ^ 52 :=
        Nat.mod_lt _ (by omega)
      have hsame : SamePage ((vaAddr + UInt64.ofNat
          ((vaAddr.toNat / 4096 + i + (2 ^ 52 - vaAddr.toNat % 2 ^ 52)) % 2 ^ 52)) <<< 12)
          (vaAddr + UInt64.ofNat i <<< 12) := by
        rw [samePage_iff]
        omega
      exact ⟨_, hlt, hsame, hagree i hi _ hlt hsame⟩
    · intro j hj
      refine ⟨(vaAddr.toNat + j + (2 ^ 52 - vaAddr.toNat / 4096)) % 2 ^ 52,
        Nat.mod_lt _ (by omega), ?_⟩
      have hva := vaAddr.toNat_lt
      rw [samePage_iff]
      omega

/-- What rounds that succeed have done to the range. -/
theorem RoundsSucceed.rangeTranslated_iff (hsucc : S.RoundsSucceed vaAddr physAddr s n)
    (hphys : ∀ i < n, physAddr i &&& addrMask = physAddr i) (halign : vaAddr.toNat % 4096 = 0) :
    RangeTranslated translation vaAddr physAddr n s (S.mapState vaAddr physAddr s n) ↔
      Covers vaAddr physAddr n := by
  have hmapped := hsucc.mapped h hphys
  constructor
  · intro hrange
    -- a page that is mapped belongs to the range
    have hinside : ∀ j < n, ∃ i < n, SamePage ((vaAddr + UInt64.ofNat j) <<< 12)
        (vaAddr + UInt64.ofNat i <<< 12) := by
      intro j hj
      by_contra hnot
      have hsame := hrange.others ((vaAddr + UInt64.ofNat j) <<< 12) fun i hi hsame =>
        hnot ⟨i, hi, hsame.symm⟩
      rw [hsucc.translation_eq h hphys hj, hmapped.vacant j hj] at hsame
      cases hsame
    rcases Nat.eq_zero_or_pos n with hzero | hpos
    · exact .inl hzero
    by_cases hva : vaAddr = 0
    · exact .inr (.inl hva)
    rcases (hsucc.le_pages h hphys).lt_or_eq with hlt | rfl
    · obtain ⟨j, hj, hout⟩ := escapes halign hva hpos hlt
      obtain ⟨i, hi, hsame⟩ := hinside j hj
      exact absurd hsame (hout i hi)
    · refine .inr (.inr ⟨rfl, fun i hi j hj hsame => ?_⟩)
      have heq := h.translation_page (S.mapState vaAddr physAddr s (2 ^ 52)) _ _ hsame
      rw [hsucc.translation_eq h hphys hj, hrange.mapped i hi] at heq
      exact Option.some.inj heq
  · intro hcov
    obtain ⟨hpages, hrounds⟩ := hcov.pages
    refine ⟨fun i hi => ?_, fun va hva => hmapped.others va fun j hj hsame => ?_⟩
    · obtain ⟨j, hj, hsame, hphysj⟩ := hpages i hi
      rw [← h.translation_page _ _ _ hsame, hsucc.translation_eq h hphys hj, hphysj]
    · obtain ⟨i, hi, hsame'⟩ := hrounds j hj
      exact hva i hi (hsame'.symm.trans hsame)

theorem RoundsSucceed.vacant (hsucc : S.RoundsSucceed vaAddr physAddr s n)
    (hphys : ∀ i < n, physAddr i &&& addrMask = physAddr i) (hcov : Covers vaAddr physAddr n) :
    ∀ i < n, translation s (vaAddr + UInt64.ofNat i <<< 12) = none := by
  intro i hi
  obtain ⟨j, hj, hsame, -⟩ := hcov.pages.1 i hi
  rw [← h.translation_page s _ _ hsame]
  exact (hsucc.mapped h hphys).vacant j hj

/-! ### The round that ends a call -/

omit h in
/-- The index of a round fits an `int64_t`. -/
theorem toInt_index (hn : n ≤ 2 ^ 52) : (UInt64.ofNat n + 1).toInt64.toInt = (n : ℤ) + 1 := by
  have hnat : (UInt64.ofNat n + 1).toNat = n + 1 := by
    rw [UInt64.toNat_add, UInt64.toNat_ofNat', UInt64.toNat_one]
    omega
  have hint : (UInt64.ofNat n + 1).toInt64.toInt = ((UInt64.ofNat n + 1).toNat : ℤ) :=
    BitVec.toInt_eq_toNat_of_lt (by
      show 2 * (UInt64.ofNat n + 1).toNat < 2 ^ 64
      omega)
  rw [hint, hnat]
  rfl

/-- A round that ends the call without a missing frame finds its page mapped. -/
theorem RoundsSucceed.stops_mapped (hrun : ¬ S.RunsOut count vaAddr physAddr s)
    (hsucc : S.RoundsSucceed vaAddr physAddr s n) (hn : n < count.toNat)
    (hcode : S.mapCode vaAddr physAddr s n ≠ 0) :
    translation (S.mapState vaAddr physAddr s n) ((vaAddr + UInt64.ofNat n) <<< 12) ≠ none ∧
      translation (S.mapState vaAddr physAddr s (n + 1)) =
        translation (S.mapState vaAddr physAddr s n) := by
  have hone : S.mapCode vaAddr physAddr s n = 1 :=
    (((h.map_code _ _ _).resolve_left hcode).resolve_right fun hfail =>
      hrun ⟨n, hn, hsucc, hfail⟩)
  obtain ⟨hmapped, htrans, -⟩ := h.map_one _ _ _ _ (Prod.ext hone rfl)
  exact ⟨hmapped, htrans⟩

/-! ### The whole call -/

theorem RoundsSucceed.unmapped (hsucc : S.RoundsSucceed vaAddr physAddr s (2 ^ 52))
    (hphys : ∀ i < 2 ^ 52, physAddr i &&& addrMask = physAddr i) (va : UInt64) :
    translation s va = none := by
  have hsame : SamePage ((vaAddr + UInt64.ofNat
      ((va.toNat / 4096 + (2 ^ 52 - vaAddr.toNat % 2 ^ 52)) % 2 ^ 52)) <<< 12) va := by
    have hva := va.toNat_lt
    rw [SamePage, mappedPage_div]
    omega
  rw [← h.translation_page s _ _ hsame]
  exact (hsucc.mapped h hphys).vacant _ (Nat.mod_lt _ (by omega))

/-- A call that meets its comment has found both pages mapped in its first round, or its rounds
cover the range. -/
theorem cases_of_mapsConsecutive (hphys : ∀ i < count.toNat, physAddr i &&& addrMask = physAddr i)
    (halign : vaAddr.toNat % 4096 = 0)
    (hmaps : MapsConsecutive S translation count vaAddr physAddr s)
    (hrun : ¬ S.RunsOut count vaAddr physAddr s) :
    (translation s vaAddr ≠ none ∧ translation s (vaAddr <<< 12) ≠ none) ∨
      ∃ n ≤ count.toNat, (n = 0 → count = 0) ∧ S.RoundsSucceed vaAddr physAddr s n ∧
        Covers vaAddr physAddr n := by
  rcases succeeds_or_stops S vaAddr physAddr s count.toNat with hsucc | ⟨n, hn, hsucc, hcode⟩
  · have hrange := hmaps.success (by rw [pageMapMultiple_succeeds hsucc])
    rw [pageMapMultiple_succeeds hsucc] at hrange
    exact .inr ⟨_, le_rfl, fun hzero => UInt64.toNat_inj.mp hzero, hsucc,
      (hsucc.rangeTranslated_iff h hphys halign).mp hrange⟩
  · have hphys' : ∀ i < n, physAddr i &&& addrMask = physAddr i := fun i hi =>
      hphys i (hi.trans hn)
    have hindex := toInt_index (hsucc.le_pages h hphys')
    have hstop := hmaps.index n (by rw [pageMapMultiple_stops hsucc hn hcode, hindex])
    obtain ⟨hmapped, htrans⟩ := hsucc.stops_mapped h hrun hn hcode
    rw [pageMapMultiple_stops hsucc hn hcode] at hstop
    obtain ⟨hpage, -, hrange⟩ := hstop
    -- the call stops at round `n`; in round 0 the one page counts as two
    rcases Nat.eq_zero_or_pos n with rfl | hpos
    · left
      have hzero : UInt64.ofNat 0 <<< 12 = 0 := rfl
      rw [htrans, hzero, UInt64.add_zero] at hpage
      have haddr : vaAddr + UInt64.ofNat 0 = vaAddr := UInt64.add_zero vaAddr
      rw [haddr] at hmapped
      exact ⟨hpage, hmapped⟩
    · refine .inr ⟨n, hn.le, fun hzero => absurd hzero hpos.ne', hsucc,
        (hsucc.rangeTranslated_iff h hphys' halign).mp ⟨fun i hi => ?_, fun va hva => ?_⟩⟩
      · rw [← htrans]
        exact hrange.mapped i hi
      · rw [← htrans]
        exact hrange.others va hva

/-- A call goes full circle: the page of a round has not been mapped by any round before. -/
theorem rounds_of_fullCircle (hphys : ∀ i < n, physAddr i &&& addrMask = physAddr i)
    (hrun : ¬ S.RunsOut count vaAddr physAddr s)
    (hfull : FullCircle translation count vaAddr physAddr s) (hn : n ≤ count.toNat)
    (hsucc : S.RoundsSucceed vaAddr physAddr s n)
    (hend : n < count.toNat → S.mapCode vaAddr physAddr s n ≠ 0) : n = 2 ^ 52 := by
  have hcount := hfull.count
  refine (hsucc.le_pages h hphys).antisymm (Nat.le_of_not_lt fun hlt => ?_)
  have hpage := (hsucc.stops_mapped h hrun (by omega) (hend (by omega))).1
  rw [(hsucc.mapped h hphys).others _ fun j hj hsame => ?_] at hpage
  · exact hpage (hfull.unmapped _)
  · rw [SamePage, mappedPage_div, mappedPage_div] at hsame
    omega

/-- Under the condition the rounds cover the range, up to the end or the round that ends the
call. -/
theorem covers_of_cases (hphys : ∀ i < count.toNat, physAddr i &&& addrMask = physAddr i)
    (hrun : ¬ S.RunsOut count vaAddr physAddr s)
    (hcases : count = 0 ∨ vaAddr = 0 ∨
      (translation s vaAddr ≠ none ∧ translation s (vaAddr <<< 12) ≠ none) ∨
        FullCircle translation count vaAddr physAddr s)
    (hn : n ≤ count.toNat) (hsucc : S.RoundsSucceed vaAddr physAddr s n)
    (hend : n < count.toNat → S.mapCode vaAddr physAddr s n ≠ 0) :
    Covers vaAddr physAddr n ∧ (n < count.toNat →
      translation (S.mapState vaAddr physAddr s n) (vaAddr + UInt64.ofNat n <<< 12) ≠ none) := by
  have hphys' : ∀ i < n, physAddr i &&& addrMask = physAddr i := fun i hi =>
    hphys i (hi.trans_le hn)
  have hmapped := hsucc.mapped h hphys'
  rcases hcases with rfl | rfl | ⟨hva, hshifted⟩ | hfull
  · exact ⟨.inl (Nat.le_zero.mp hn), fun hlt => absurd hlt (Nat.not_lt_zero n)⟩
  · refine ⟨.inr (.inl rfl), fun hlt => ?_⟩
    have hsame : SamePage (((0 : UInt64) + UInt64.ofNat n) <<< 12)
        ((0 : UInt64) + UInt64.ofNat n <<< 12) := by
      rw [samePage_iff]
      rfl
    rw [← h.translation_page _ _ _ hsame]
    exact (hsucc.stops_mapped h hrun hlt (hend hlt)).1
  · -- the first round ends the call
    have hzero : n = 0 := by
      by_contra hne
      have hnone := hmapped.vacant 0 (Nat.pos_of_ne_zero hne)
      have haddr : vaAddr + UInt64.ofNat 0 = vaAddr := UInt64.add_zero vaAddr
      rw [haddr] at hnone
      exact hshifted hnone
    subst hzero
    refine ⟨.inl rfl, fun _ => ?_⟩
    have hzero : UInt64.ofNat 0 <<< 12 = 0 := rfl
    rw [hzero, UInt64.add_zero]
    exact hva
  · obtain rfl := rounds_of_fullCircle h hphys' hrun hfull hn hsucc hend
    have hcov : Covers vaAddr physAddr (2 ^ 52) := .inr (.inr ⟨rfl, hfull.agree⟩)
    refine ⟨hcov, fun _ => ?_⟩
    obtain ⟨j, hj, hsame, -⟩ := hcov.pages.1 0 (by omega)
    have hsame' : SamePage ((vaAddr + UInt64.ofNat j) <<< 12)
        (vaAddr + UInt64.ofNat (2 ^ 52) <<< 12) := by
      rw [samePage_iff] at hsame ⊢
      omega
    rw [← h.translation_page _ _ _ hsame', hsucc.translation_eq h hphys' hj]
    exact Option.some_ne_none _

end FrameServices

/-- `page_map_multiple` meets its comment if and only if no frame is missing and its rounds
stand for the pages of the range. -/
theorem mapsConsecutive_iff {S : FrameServices σ} {translation : σ → UInt64 → Option UInt64}
    {free : σ → Set UInt64} (h : S.Contract translation free) {count vaAddr : UInt64}
    {physAddr : ℕ → UInt64} (s : σ) (halign : vaAddr.toNat % 4096 = 0)
    (hphys : ∀ i < count.toNat, physAddr i &&& addrMask = physAddr i) :
    MapsConsecutive S translation count vaAddr physAddr s ↔
      ¬ S.RunsOut count vaAddr physAddr s ∧
        (count = 0 ∨ vaAddr = 0 ∨
          (translation s vaAddr ≠ none ∧ translation s (vaAddr <<< 12) ≠ none) ∨
            FullCircle translation count vaAddr physAddr s) := by
  constructor
  · intro hmaps
    have hrun : ¬ S.RunsOut count vaAddr physAddr s := by
      rintro ⟨n, hn, hsucc, hcode⟩
      have hfailed := hmaps.failed ⟨n, hn, hsucc, hcode⟩
      rw [FrameServices.pageMapMultiple_stops hsucc hn (by rw [hcode]; decide),
        FrameServices.toInt_index (hsucc.le_pages h fun i hi => hphys i (hi.trans hn))] at hfailed
      omega
    -- the frames have not run out: the code that is returned tells the rounds apart
    refine ⟨hrun, ?_⟩
    rcases FrameServices.cases_of_mapsConsecutive h hphys halign hmaps hrun with
      hboth | ⟨n, hn, hzero, hsucc, hn0 | hva | ⟨rfl, hagree⟩⟩
    · exact .inr (.inr (.inl hboth))
    · exact .inl (hzero hn0)
    · exact .inr (.inl hva)
    · exact .inr (.inr (.inr ⟨hn, hsucc.unmapped h fun i hi => hphys i (hi.trans_le hn), hagree⟩))
  -- the rounds go up to the end or stop at a page that is mapped
  · rintro ⟨hrun, hcases⟩
    rcases FrameServices.succeeds_or_stops S vaAddr physAddr s count.toNat with
      hsucc | ⟨n, hn, hsucc, hcode⟩
    · obtain ⟨hcov, -⟩ := FrameServices.covers_of_cases h hphys hrun hcases le_rfl hsucc
        fun hlt => absurd hlt (lt_irrefl _)
      refine ⟨fun _ => ?_, fun n hn => ?_, fun hout => absurd hout hrun⟩
      · rw [FrameServices.pageMapMultiple_succeeds hsucc]
        exact (hsucc.rangeTranslated_iff h hphys halign).mpr hcov
      · rw [FrameServices.pageMapMultiple_succeeds hsucc] at hn
        dsimp only at hn
        omega
    · have hphys' : ∀ i < n, physAddr i &&& addrMask = physAddr i := fun i hi =>
        hphys i (hi.trans hn)
      have hcall := FrameServices.pageMapMultiple_stops hsucc hn hcode
      rw [FrameServices.toInt_index (hsucc.le_pages h hphys')] at hcall
      obtain ⟨hcov, hpage⟩ :=
        FrameServices.covers_of_cases h hphys hrun hcases hn.le hsucc fun _ => hcode
      obtain ⟨-, htrans⟩ := hsucc.stops_mapped h hrun hn hcode
      have hrange := (hsucc.rangeTranslated_iff h hphys' halign).mpr hcov
      refine ⟨fun hzero => ?_, fun m hm => ?_, fun hout => absurd hout hrun⟩
      · rw [hcall] at hzero
        dsimp only at hzero
        omega
      · rw [hcall] at hm ⊢
        dsimp only at hm ⊢
        obtain rfl : n = m := by omega
        rw [htrans]
        exact ⟨hpage hn, hsucc.vacant h hphys' hcov,
          ⟨fun i hi => by rw [htrans]; exact hrange.mapped i hi,
            fun va hva => by rw [htrans]; exact hrange.others va hva⟩⟩

/-! ### An instance -/

/-- A kernel that has mapped nothing. -/
def unmappedShelf : Shelf where
  frames := []
  pages := []
  mapping _ := none

theorem Shelf.not_runsOut (count vaAddr : UInt64) (physAddr : ℕ → UInt64) (s : Shelf) :
    ¬ Shelf.services.RunsOut count vaAddr physAddr s := by
  rintro ⟨n, -, -, hcode⟩
  simp only [FrameServices.mapCode, Shelf.services] at hcode
  split at hcode
  · cases hcode
  · cases hcode

/-- Two pages from the address 0 on, and from the address `0x5000` on. -/
theorem mapsConsecutive_iff_unmappedShelf :
    MapsConsecutive Shelf.services.toFrameServices Shelf.translation 2 0 (fun _ => 0x1000)
        unmappedShelf ∧
      ¬ MapsConsecutive Shelf.services.toFrameServices Shelf.translation 2 0x5000 (fun _ => 0x1000)
        unmappedShelf := by
  constructor
  · exact (mapsConsecutive_iff Shelf.frameServices_contract _ rfl fun _ _ => by decide).mpr
      ⟨Shelf.not_runsOut _ _ _ _, .inr (.inl rfl)⟩
  · intro h
    obtain ⟨-, h0 | hva | ⟨hmapped, -⟩ | hfull⟩ :=
      (mapsConsecutive_iff Shelf.frameServices_contract _ rfl fun _ _ => by decide).mp h
    · cases h0
    · cases hva
    · exact hmapped rfl
    · exact absurd hfull.count (by decide)

/-- The page `0x5000` is not mapped by the call that returns 0. -/
theorem mapsConsecutive_fails :
    ¬ ∀ (count vaAddr : UInt64) (physAddr : ℕ → UInt64) (s : Shelf), vaAddr.toNat % 4096 = 0 →
      (∀ i < count.toNat, physAddr i &&& addrMask = physAddr i) →
      MapsConsecutive Shelf.services.toFrameServices Shelf.translation count vaAddr physAddr s := by
  intro h
  have hmapped := ((h 1 0x5000 (fun _ => 0x1000) unmappedShelf rfl fun _ _ => by decide).success
    rfl).mapped 0 Nat.one_pos
  cases hmapped

end Betelgeuse
