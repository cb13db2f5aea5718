/-
The status of `map_pages`.

The function is declared to return an `efi_status` and ends without a `return`, so what
its caller tests is no status at all: it reports neither success nor an error
(`not_reportsPages`).  The pages themselves are mapped: with enough pages in the pool, a
range that was not mapped translates to the source range after the call
(`Pool.mapPages_translate`).
-/
import Betelgeuse.UefiKernel

open PageTree

namespace Betelgeuse

/-- What a call of `map_pages` leaves behind: the status (`true` for `EFI_SUCCESS`, `false` for
an error, `none` if the end of the function is reached without a `return`) and the tables. -/
structure MapPagesOutcome where
  status : Option Bool
  mapping : Mapping

/-- `map_pages` with what it returns. -/
def Mapping.mapPagesOutcome (s : Mapping) (srcAddr destAddr pageCount : UInt64) :
    MapPagesOutcome where
  status := none
  mapping := s.mapPages srcAddr destAddr pageCount.toNat

/-- `map_pages` reports whether it could map its pages: success if none of them was mapped, and
an error otherwise. -/
structure ReportsPages (root : Frame) (s : Mapping) (srcAddr destAddr pageCount : UInt64) :
    Prop where
  success : (s.mapPagesOutcome srcAddr destAddr pageCount).status = some true ↔
    ∀ i < pageCount.toNat, translate s.mem root (destAddr + UInt64.ofNat i <<< 12) = none
  mapped : (s.mapPagesOutcome srcAddr destAddr pageCount).status = some true →
    ∀ i < pageCount.toNat,
      translate (s.mapPagesOutcome srcAddr destAddr pageCount).mapping.mem root
        (destAddr + UInt64.ofNat i <<< 12) = some (srcAddr + UInt64.ofNat i <<< 12)
  error : (∃ i < pageCount.toNat,
      translate s.mem root (destAddr + UInt64.ofNat i <<< 12) ≠ none) →
    (s.mapPagesOutcome srcAddr destAddr pageCount).status = some false

/-- No call of `map_pages` reports what it did. -/
theorem not_reportsPages (root : Frame) (s : Mapping) (srcAddr destAddr pageCount : UInt64) :
    ¬ ReportsPages root s srcAddr destAddr pageCount := by
  intro h
  have hstatus : (s.mapPagesOutcome srcAddr destAddr pageCount).status = none := rfl
  by_cases hfree : ∀ i < pageCount.toNat,
      translate s.mem root (destAddr + UInt64.ofNat i <<< 12) = none
  · have hsuccess := h.success.mpr hfree
    rw [hstatus] at hsuccess
    cases hsuccess
  · push Not at hfree
    have herror := h.error hfree
    rw [hstatus] at herror
    cases herror

/-- The second of two pages is mapped already, with pages enough for every table that could be
missing; the call says nothing. -/
theorem reportsPages_fails :
    ¬ ∀ (root : Frame) (s : Mapping) (srcAddr destAddr pageCount : UInt64),
      s.pml4Pointer = root.addr → srcAddr &&& 0xFFF = 0 → destAddr &&& 0xFFF = 0 →
      3 * pageCount.toNat ≤ s.availableMappingPageCount.toNat →
      ReportsPages root s srcAddr destAddr pageCount := by
  intro h
  let mem : UInt64 → UInt64 := fun addr =>
    if addr = 0x1000 then 0x2003 else if addr = 0x2000 then 0x3003
    else if addr = 0x3010 then 0x4003 else if addr = 0x4008 then 0x5003 else 0
  have hmapped : translate mem ⟨0x1000, by decide⟩
      ((0x400000 : UInt64) + UInt64.ofNat 1 <<< 12) ≠ none := by
    decide
  have hreports := h ⟨0x1000, by decide⟩ ⟨mem, 0x1000, 0x6000, 6, 0x1000⟩ 0x8000 0x400000 2
    rfl (by decide) (by decide) (by decide)
  have herror := hreports.error ⟨1, by decide, hmapped⟩
  cases herror

/-- What a map of `List.range` finds first. -/
theorem find?_map_range {α : Type*} {p : α → Bool} {f : ℕ → α} {n d : ℕ} (hd : d < n)
    (hp : p (f d) = true) (hbefore : ∀ j < d, p (f j) = false) :
    ((List.range n).map f).find? p = some (f d) := by
  rw [List.find?_map, List.find?_range_eq_some.mpr ⟨hp, List.mem_range.mpr hd, fun j hj => ?_⟩]
  · rfl
  · rw [Function.comp_apply, hbefore j hj]
    rfl

/-- The pages of a range that was not mapped are mapped to the source range. -/
theorem Pool.mapPages_translate {root : Frame} {newMap pageCount srcAddr destAddr : UInt64}
    {s : Mapping} {L : ℕ → Set Frame} {n : ℕ} (h : Pool .mapAll root newMap pageCount s L)
    (hn : n ≤ 2 ^ 36)
    (hfits : ∀ before c after, pageCalls srcAddr destAddr n = before ++ c :: after →
      c.Fits .mapAll root (s.run before))
    (honce : ∀ i < n, s.Once root (vaPath (destAddr + UInt64.ofNat i <<< 12)))
    (hfree : ∀ i < n, s.leaf root (vaPath (destAddr + UInt64.ofNat i <<< 12)) = none) :
    ∀ i < n,
      translate (s.mapPages srcAddr destAddr n).mem root (destAddr + UInt64.ofNat i <<< 12) =
        some ((srcAddr + UInt64.ofNat i <<< 12) &&& addrMask) := by
  intro i hi
  -- no other call is for the same page
  have hfirst : firstCall (pageCalls srcAddr destAddr n)
      (vaPath (destAddr + UInt64.ofNat i <<< 12)) =
        some ⟨srcAddr + UInt64.ofNat i <<< 12, destAddr + UInt64.ofNat i <<< 12⟩ := by
    refine find?_map_range hi (decide_eq_true rfl) fun j hj => decide_eq_false fun heq => ?_
    have hmod := page_mod_eq_of_vaPath_eq heq
    rw [toNat_add_pages, toNat_add_pages] at hmod
    omega
  rw [Mapping.mapPages_eq_run, h.run_translate hfits (honce i hi) (hfree i hi), hfirst]
  rfl

end Betelgeuse
