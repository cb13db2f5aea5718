/-
Bits of addresses and of page-table entries.

The masks of `kernel/memory.h` cut an address into indices and a frame; here
they become divisions and remainders.  From that follow the three facts the
paging proofs need: different words of frames have different addresses
(`wordAddr_inj`), a new entry is present, is no large page and links the frame
it was given (`present_newEntry`, `pageSize_newEntry`, `entryFrame_newEntry`),
and two canonical addresses with the same path lie in the same page
(`page_eq_of_vaPath_eq`).
-/
import Betelgeuse.PageTables
import Betelgeuse.WordArith

open PageTree WordArith

namespace Betelgeuse

/-! ### Masks as divisions and remainders -/

theorem toNat_and_addrMask (x : UInt64) :
    (x &&& addrMask).toNat = x.toNat / 2 ^ 12 % 2 ^ 40 * 2 ^ 12 := by
  have hmask : addrMask.toNat = (2 ^ 40 - 1) <<< 12 := by decide
  rw [UInt64.toNat_and, hmask, and_shifted_mask]

theorem toNat_vaGetPml4Index (x : UInt64) :
    (vaGetPml4Index x).toNat = x.toNat / 2 ^ 39 % 2 ^ 9 := by
  rw [vaGetPml4Index, pml4Mask, toNat_field (n := 39) (w := 9) rfl rfl]

theorem toNat_vaGetPdpIndex (x : UInt64) :
    (vaGetPdpIndex x).toNat = x.toNat / 2 ^ 30 % 2 ^ 9 := by
  rw [vaGetPdpIndex, pdpMask, toNat_field (n := 30) (w := 9) rfl rfl]

theorem toNat_vaGetPdIndex (x : UInt64) :
    (vaGetPdIndex x).toNat = x.toNat / 2 ^ 21 % 2 ^ 9 := by
  rw [vaGetPdIndex, pdMask, toNat_field (n := 21) (w := 9) rfl rfl]

theorem toNat_vaGetPtIndex (x : UInt64) :
    (vaGetPtIndex x).toNat = x.toNat / 2 ^ 12 % 2 ^ 9 := by
  rw [vaGetPtIndex, ptMask, toNat_field (n := 12) (w := 9) rfl rfl]

/-- An index below 512 as the code uses it. -/
theorem ofNat_toIndex {x : UInt64} (hx : x.toNat < 512) : UInt64.ofNat (toIndex x).val = x := by
  have hval : (toIndex x).val = x.toNat := Nat.mod_eq_of_lt hx
  rw [hval, UInt64.ofNat_toNat]

theorem vaGetPml4Index_lt (x : UInt64) : (vaGetPml4Index x).toNat < 512 := by
  rw [toNat_vaGetPml4Index]
  omega

theorem vaGetPdpIndex_lt (x : UInt64) : (vaGetPdpIndex x).toNat < 512 := by
  rw [toNat_vaGetPdpIndex]
  omega

theorem vaGetPdIndex_lt (x : UInt64) : (vaGetPdIndex x).toNat < 512 := by
  rw [toNat_vaGetPdIndex]
  omega

theorem vaGetPtIndex_lt (x : UInt64) : (vaGetPtIndex x).toNat < 512 := by
  rw [toNat_vaGetPtIndex]
  omega

/-- The path of an address determines the number of its page modulo `2 ^ 36`. -/
theorem page_mod_eq_of_vaPath_eq {x y : UInt64} (h : vaPath x = vaPath y) :
    x.toNat / 4096 % 68719476736 = y.toNat / 4096 % 68719476736 := by
  simp only [vaPath, toIndex, List.cons.injEq, Fin.mk.injEq, toNat_vaGetPml4Index,
    toNat_vaGetPdpIndex, toNat_vaGetPdIndex, toNat_vaGetPtIndex, and_true] at h
  obtain ⟨h4, h3, h2, h1⟩ := h
  -- the four indices are the digits of the page number to the base 512
  have hdigits : ∀ n : ℕ, n / 4096 % 68719476736 = n / 2 ^ 39 % 2 ^ 9 % 512 * 134217728 +
      n / 2 ^ 30 % 2 ^ 9 % 512 * 262144 + n / 2 ^ 21 % 2 ^ 9 % 512 * 512 +
      n / 2 ^ 12 % 2 ^ 9 % 512 := by
    intro n
    simp only [Nat.reducePow]
    omega
  rw [hdigits, hdigits, h4, h3, h2, h1]

/-- The path of a canonical address determines its page. -/
theorem page_eq_of_vaPath_eq {x y : UInt64} (hx : Canonical x) (hy : Canonical y)
    (h : vaPath x = vaPath y) : x.toNat / 4096 = y.toNat / 4096 := by
  have hlow := page_mod_eq_of_vaPath_eq h
  have hxlt := x.toNat_lt
  have hylt := y.toNat_lt
  unfold Canonical at hx hy
  omega

/-- The number of its page modulo `2 ^ 36` determines the path of an address. -/
theorem vaPath_eq_of_page_mod_eq {x y : UInt64}
    (h : x.toNat / 4096 % 68719476736 = y.toNat / 4096 % 68719476736) : vaPath x = vaPath y := by
  have hdiv : ∀ n : ℕ, n / 2 ^ 39 % 2 ^ 9 = n / 4096 % 68719476736 / 2 ^ 27 % 2 ^ 9 ∧
      n / 2 ^ 30 % 2 ^ 9 = n / 4096 % 68719476736 / 2 ^ 18 % 2 ^ 9 ∧
      n / 2 ^ 21 % 2 ^ 9 = n / 4096 % 68719476736 / 2 ^ 9 % 2 ^ 9 ∧
      n / 2 ^ 12 % 2 ^ 9 = n / 4096 % 68719476736 % 2 ^ 9 := by
    intro n
    omega
  simp only [vaPath, toIndex, toNat_vaGetPml4Index, toNat_vaGetPdpIndex, toNat_vaGetPdIndex,
    toNat_vaGetPtIndex, hdiv, h]

/-- Addresses in one page have the same path. -/
theorem vaPath_eq_of_page_eq {x y : UInt64} (h : x.toNat / 4096 = y.toNat / 4096) :
    vaPath x = vaPath y := vaPath_eq_of_page_mod_eq (congrArg (· % 68719476736) h)

/-! ### Frames and their words -/

theorem Frame.aligned (f : Frame) : f.addr.toNat % 4096 = 0 := by
  rw [← f.masked, toNat_and_addrMask]
  omega

theorem Frame.lt (f : Frame) : f.addr.toNat < 2 ^ 52 := by
  rw [← f.masked, toNat_and_addrMask]
  omega

theorem toNat_wordAddr (f : Frame) (i : Fin 512) :
    (f.addr + 8 * UInt64.ofNat i.val).toNat = f.addr.toNat + 8 * i.val := by
  have hf := f.lt
  have hi := i.isLt
  rw [UInt64.toNat_add, UInt64.toNat_mul, UInt64.toNat_ofNat']
  show (f.addr.toNat + 8 * (i.val % 2 ^ 64) % 2 ^ 64) % 2 ^ 64 = _
  omega

/-- Different words of frames are different words of memory. -/
theorem wordAddr_inj {f g : Frame} {i j : Fin 512} :
    f.addr + 8 * UInt64.ofNat i.val = g.addr + 8 * UInt64.ofNat j.val ↔ f = g ∧ i = j := by
  constructor
  · intro h
    have h := congrArg UInt64.toNat h
    rw [toNat_wordAddr, toNat_wordAddr] at h
    have hf := f.aligned
    have hg := g.aligned
    have hi := i.isLt
    have hj := j.isLt
    refine ⟨?_, Fin.ext (by omega)⟩
    have haddr : f.addr = g.addr := UInt64.toNat_inj.mp (by omega)
    cases f
    cases g
    simpa using haddr
  · rintro ⟨rfl, rfl⟩
    rfl

/-! ### New entries -/

/-- The flags of every entry that the kernel writes. -/
def newFlags : UInt64 := presentFlag ||| writableFlag ||| userAccessFlag

theorem and_or_right (a b m : UInt64) : (a ||| b) &&& m = (a &&& m) ||| (b &&& m) :=
  UInt64.toBitVec_inj.mp BitVec.and_or_distrib_right

/-- A flag below the address bits of a new entry comes from the flags alone. -/
theorem flag_newEntry {a m : UInt64} (ha : a &&& addrMask = a) (hm : addrMask &&& m = 0) :
    (newFlags ||| a) &&& m = newFlags &&& m := by
  rw [and_or_right, ← ha, UInt64.and_assoc, hm, UInt64.and_zero, UInt64.or_zero]

theorem present_newEntry {a : UInt64} (ha : a &&& addrMask = a) :
    (newFlags ||| a) &&& presentFlag ≠ 0 := by
  rw [flag_newEntry ha (by decide)]
  decide

theorem pageSize_newEntry {a : UInt64} (ha : a &&& addrMask = a) :
    (newFlags ||| a) &&& pageSizeFlag = 0 := by
  rw [flag_newEntry ha (by decide)]
  decide

theorem addr_newEntry {a : UInt64} (ha : a &&& addrMask = a) :
    (newFlags ||| a) &&& addrMask = a := by
  rw [and_or_right, ha, show newFlags &&& addrMask = 0 by decide, UInt64.zero_or]

theorem entryFrame_newEntry (f : Frame) : entryFrame (newFlags ||| f.addr) = f :=
  entryFrame_eq (addr_newEntry f.masked)

theorem decode_newEntry (n : ℕ) (f : Frame) :
    decode (n + 1) (newFlags ||| f.addr) = .table f := by
  rw [decode, if_neg (present_newEntry f.masked), if_neg (Nat.succ_ne_zero n),
    if_pos (pageSize_newEntry f.masked), entryFrame_newEntry]

theorem decode_eq_absent {n : ℕ} {w : UInt64} (h : w &&& presentFlag = 0) :
    decode n w = .absent := by rw [decode, if_pos h]

theorem decode_absent_iff {n : ℕ} {w : UInt64} :
    decode n w = .absent ↔ w &&& presentFlag = 0 := by
  refine ⟨fun h => ?_, decode_eq_absent⟩
  by_contra hpresent
  unfold decode at h
  rw [if_neg hpresent] at h
  split at h
  · cases h
  · split at h <;> cases h

/-- An entry that links a table is present, stands above the last level and is no large page. -/
theorem decode_eq_table {n : ℕ} {w : UInt64} {f : Frame} :
    decode n w = .table f ↔ w &&& presentFlag ≠ 0 ∧ n ≠ 0 ∧ w &&& pageSizeFlag = 0 ∧
      entryFrame w = f := by
  unfold decode
  split
  · simp_all
  split
  · simp_all
  split
  · simp_all
  · simp_all

theorem decode_zero_present {w : UInt64} (h : w &&& presentFlag ≠ 0) : decode 0 w = .leaf := by
  rw [decode, if_neg h, if_pos rfl]

/-- Entries of the page tables link nothing. -/
theorem decode_zero_ne_table (w : UInt64) (f : Frame) : decode 0 w ≠ .table f := by
  rw [decode]
  split <;> simp

theorem decode_zero_word (n : ℕ) : decode n 0 = .absent := decode_eq_absent (by decide)

end Betelgeuse
