/-
Addresses and their indices.

`OFFSETS_TO_ADDR` puts the four indices of a page next to each other and repeats the
highest bit of the first one above them, so what it returns is canonical
(`offsetsToAddr_canonical`) and has these indices.  In the other direction the
indices of a canonical address give its page back (`offsetsToAddr_inverse`).
-/
import Betelgeuse.PageTableBits
import Betelgeuse.UefiMem
import Betelgeuse.WordArith

open WordArith

namespace Betelgeuse

/-! ### The joined address -/

/-- The bit that is repeated. -/
theorem and_0x100_ne_zero {x : UInt64} (h : x.toNat < 512) : x &&& 0x100 ≠ 0 ↔ 256 ≤ x.toNat := by
  have hbit : (x &&& 0x100).toNat = (x.toNat.testBit 8).toNat * 2 ^ 8 := by
    rw [UInt64.toNat_and]
    exact Nat.and_two_pow x.toNat 8
  have hzero : x &&& 0x100 = 0 ↔ x.toNat.testBit 8 = false := by
    rw [← UInt64.toNat_inj, hbit]
    cases x.toNat.testBit 8 <;> simp
  rw [Ne, hzero, Bool.not_eq_false, Nat.testBit_eq_decide_div_mod_eq, decide_eq_true_iff]
  omega

section Join

variable {pml4 pdp pd pt : UInt64}

/-- The parts of the address that is joined. -/
theorem toNat_offsetsToAddr (h4 : pml4.toNat < 512) (h3 : pdp.toNat < 512) (h2 : pd.toNat < 512)
    (h1 : pt.toNat < 512) :
    (offsetsToAddr pml4 pdp pd pt).toNat =
      (if 256 ≤ pml4.toNat then 2 ^ 64 - 2 ^ 48 else 0) + pml4.toNat * 2 ^ 39 +
        pdp.toNat * 2 ^ 30 + pd.toNat * 2 ^ 21 + pt.toNat * 2 ^ 12 := by
  have hsign : ((if pml4 &&& 0x100 ≠ 0 then (0xffff : UInt64) else 0) <<< 48).toNat =
      if 256 ≤ pml4.toNat then 2 ^ 64 - 2 ^ 48 else 0 := by
    by_cases hhigh : 256 ≤ pml4.toNat
    · rw [if_pos ((and_0x100_ne_zero h4).mpr hhigh), if_pos hhigh]
      rfl
    · rw [if_neg fun h => hhigh ((and_0x100_ne_zero h4).mp h), if_neg hhigh]
      rfl
  have h39 : (pml4 <<< 39).toNat = pml4.toNat * 2 ^ 39 :=
    toNat_shiftLeft_of_lt (n := 39) rfl (by omega)
  have h30 : (pdp <<< 30).toNat = pdp.toNat * 2 ^ 30 :=
    toNat_shiftLeft_of_lt (n := 30) rfl (by omega)
  have h21 : (pd <<< 21).toNat = pd.toNat * 2 ^ 21 :=
    toNat_shiftLeft_of_lt (n := 21) rfl (by omega)
  have h12 : (pt <<< 12).toNat = pt.toNat * 2 ^ 12 :=
    toNat_shiftLeft_of_lt (n := 12) rfl (by omega)
  -- from the left: each index is put below what is there
  have hs := toNat_or_of_dvd (n := 48) (by rw [hsign]; split <;> omega) (by rw [h39]; omega)
  have hp := toNat_or_of_dvd (n := 39) (by rw [hs, hsign, h39]; split <;> omega)
    (by rw [h30]; omega)
  have hd := toNat_or_of_dvd (n := 30) (by rw [hp, hs, hsign, h39, h30]; split <;> omega)
    (by rw [h21]; omega)
  have ht := toNat_or_of_dvd (n := 21) (by rw [hd, hp, hs, hsign, h39, h30, h21]; split <;> omega)
    (by rw [h12]; omega)
  rw [offsetsToAddr, ht, hd, hp, hs, hsign, h39, h30, h21, h12]

/-- The joined address is the start of a page, is canonical, and has the four indices. -/
theorem offsetsToAddr_canonical (h4 : pml4.toNat < 512) (h3 : pdp.toNat < 512)
    (h2 : pd.toNat < 512) (h1 : pt.toNat < 512) :
    Canonical (offsetsToAddr pml4 pdp pd pt) ∧ (offsetsToAddr pml4 pdp pd pt).toNat % 4096 = 0 := by
  have hjoin := toNat_offsetsToAddr h4 h3 h2 h1
  constructor
  · unfold Canonical
    rw [hjoin]
    split <;> omega
  · rw [hjoin]
    split <;> omega

theorem indices_offsetsToAddr (h4 : pml4.toNat < 512) (h3 : pdp.toNat < 512)
    (h2 : pd.toNat < 512) (h1 : pt.toNat < 512) :
    vaGetPml4Index (offsetsToAddr pml4 pdp pd pt) = pml4 ∧
      vaGetPdpIndex (offsetsToAddr pml4 pdp pd pt) = pdp ∧
      vaGetPdIndex (offsetsToAddr pml4 pdp pd pt) = pd ∧
      vaGetPtIndex (offsetsToAddr pml4 pdp pd pt) = pt := by
  have hjoin := toNat_offsetsToAddr h4 h3 h2 h1
  refine ⟨?_, ?_, ?_, ?_⟩
  · rw [← UInt64.toNat_inj, toNat_vaGetPml4Index, hjoin]
    split <;> omega
  · rw [← UInt64.toNat_inj, toNat_vaGetPdpIndex, hjoin]
    split <;> omega
  · rw [← UInt64.toNat_inj, toNat_vaGetPdIndex, hjoin]
    split <;> omega
  · rw [← UInt64.toNat_inj, toNat_vaGetPtIndex, hjoin]
    split <;> omega

end Join

/-! ### Both directions -/

/-- The indices of a canonical address give the start of its page. -/
theorem offsetsToAddr_indices {x : UInt64} (hx : Canonical x) (hpage : x.toNat % 4096 = 0) :
    offsetsToAddr (vaGetPml4Index x) (vaGetPdpIndex x) (vaGetPdIndex x) (vaGetPtIndex x) = x := by
  have hlt := x.toNat_lt
  have hjoin := toNat_offsetsToAddr (vaGetPml4Index_lt x) (vaGetPdpIndex_lt x) (vaGetPdIndex_lt x)
    (vaGetPtIndex_lt x)
  rw [toNat_vaGetPml4Index, toNat_vaGetPdpIndex, toNat_vaGetPdIndex, toNat_vaGetPtIndex] at hjoin
  rw [← UInt64.toNat_inj, hjoin]
  unfold Canonical at hx
  split <;> omega

/-- To split an address into its indices and to join them are inverse to each other, so
canonical addresses with the same indices lie in one page. -/
theorem offsetsToAddr_inverse :
    (∀ x, Canonical x → x.toNat % 4096 = 0 →
      offsetsToAddr (vaGetPml4Index x) (vaGetPdpIndex x) (vaGetPdIndex x) (vaGetPtIndex x) = x) ∧
    (∀ pml4 pdp pd pt : UInt64, pml4 < 512 → pdp < 512 → pd < 512 → pt < 512 →
      (Canonical (offsetsToAddr pml4 pdp pd pt) ∧
        (offsetsToAddr pml4 pdp pd pt).toNat % 4096 = 0) ∧
      vaGetPml4Index (offsetsToAddr pml4 pdp pd pt) = pml4 ∧
      vaGetPdpIndex (offsetsToAddr pml4 pdp pd pt) = pdp ∧
      vaGetPdIndex (offsetsToAddr pml4 pdp pd pt) = pd ∧
      vaGetPtIndex (offsetsToAddr pml4 pdp pd pt) = pt) ∧
    ∀ x y, Canonical x → Canonical y → vaGetPml4Index x = vaGetPml4Index y →
      vaGetPdpIndex x = vaGetPdpIndex y → vaGetPdIndex x = vaGetPdIndex y →
      vaGetPtIndex x = vaGetPtIndex y → x.toNat / 4096 = y.toNat / 4096 := by
  refine ⟨fun x hx hpage => offsetsToAddr_indices hx hpage, fun pml4 pdp pd pt h4 h3 h2 h1 => ?_,
    fun x y hx hy h4 h3 h2 h1 => page_eq_of_vaPath_eq hx hy ?_⟩
  · have h4 := UInt64.lt_iff_toNat_lt.mp h4
    have h3 := UInt64.lt_iff_toNat_lt.mp h3
    have h2 := UInt64.lt_iff_toNat_lt.mp h2
    have h1 := UInt64.lt_iff_toNat_lt.mp h1
    exact ⟨offsetsToAddr_canonical h4 h3 h2 h1, indices_offsetsToAddr h4 h3 h2 h1⟩
  · rw [vaPath, vaPath, h4, h3, h2, h1]

/-- The first page of the upper half. -/
theorem offsetsToAddr_inverse_upperHalf :
    offsetsToAddr (vaGetPml4Index 0xFFFF800000000000) (vaGetPdpIndex 0xFFFF800000000000)
      (vaGetPdIndex 0xFFFF800000000000) (vaGetPtIndex 0xFFFF800000000000) = 0xFFFF800000000000 :=
  offsetsToAddr_inverse.1 0xFFFF800000000000 (.inr (by decide)) (by decide)

end Betelgeuse
