/-
Bitmaps kept in 64-bit words.

Bit `p` of a bitmap is bit `p % 64` of word `p / 64`.  The single-word
fact `bit_and_not_mask` says what the usual mask idiom `w &= ~m` does to one
bit, where `mask k` is the 64-bit value `2 ^ k`; `get_clearBit` lifts it to the
bitmap.
-/
import Mathlib.Logic.Function.Basic
import Mathlib.Tactic.Common

namespace WordBitmap

/-- Bit `k` of a word. -/
def bit (w : UInt64) (k : ℕ) : Bool := w.toBitVec.getLsbD k

/-- A word is given by its bits. -/
theorem eq_of_bit_eq {v w : UInt64} (h : ∀ j < 64, bit v j = bit w j) : v = w :=
  UInt64.toBitVec_inj.mp (BitVec.eq_of_getLsbD_eq h)

/-- The 64-bit value `2 ^ k`. -/
def mask (k : ℕ) : UInt64 := ⟨BitVec.twoPow 64 k⟩

theorem bit_mask {k j : ℕ} (hj : j < 64) : bit (mask k) j = decide (j = k) := by
  rw [bit, mask, BitVec.getLsbD_twoPow]
  by_cases hjk : j = k
  · subst hjk
    simp [hj]
  · simp [hjk, Ne.symm hjk]

theorem bit_and_not_mask (w : UInt64) {k j : ℕ} (hj : j < 64) :
    bit (w &&& ~~~(mask k)) j = (!decide (j = k) && bit w j) := by
  rw [Bool.and_comm, ← bit_mask hj]
  simp [bit, hj]

/-- The test `w & (1 << k)`. -/
theorem and_mask_eq_zero {w : UInt64} {k : ℕ} (hk : k < 64) (h : w &&& mask k = 0) :
    bit w k = false := by
  have hbit := congrArg (fun v => bit v k) h
  have hand : bit (w &&& mask k) k = (bit w k && bit (mask k) k) := by simp [bit]
  have hzero : bit 0 k = false := by simp [bit]
  simpa [hand, hzero, bit_mask hk] using hbit

theorem bit_or_mask (w : UInt64) {k j : ℕ} (hj : j < 64) :
    bit (w ||| mask k) j = (decide (j = k) || bit w j) := by
  rw [Bool.or_comm, ← bit_mask hj]
  simp [bit]

/-- The word with the bits `f`. -/
def ofBits (f : ℕ → Bool) : UInt64 :=
  (List.range 64).foldl (fun w k => if f k then w ||| mask k else w) 0

theorem bit_ofBits (f : ℕ → Bool) {j : ℕ} (hj : j < 64) : bit (ofBits f) j = f j := by
  have hfold : ∀ n, bit ((List.range n).foldl (fun w k => if f k then w ||| mask k else w) 0) j =
      (decide (j < n) && f j) := by
    intro n
    induction n with
    | zero => simp [bit]
    | succ n ih =>
      have hlt : decide (j < n + 1) = decide (j = n ∨ j < n) := decide_eq_decide.mpr (by omega)
      rw [List.range_succ, List.foldl_append, List.foldl_cons, List.foldl_nil, hlt]
      split
      · rename_i hn
        rw [bit_or_mask _ hj, ih]
        by_cases hjn : j = n
        · simp [hjn, hn]
        · simp [hjn]
      · rename_i hn
        rw [ih]
        by_cases hjn : j = n
        · simp [hjn, hn]
        · simp [hjn]
  rw [ofBits, hfold, decide_eq_true hj, Bool.true_and]

/-- A bitmap: its words by their index. -/
abbrev Bitmap := ℕ → UInt64

/-- Bit `p` of the bitmap. -/
def get (b : Bitmap) (p : ℕ) : Bool := bit (b (p / 64)) (p % 64)

/-- `b[i] |= 1 << k`. -/
def setBit (b : Bitmap) (i k : ℕ) : Bitmap := Function.update b i (b i ||| mask k)

/-- `b[i] &= ~(1 << k)`. -/
def clearBit (b : Bitmap) (i k : ℕ) : Bitmap := Function.update b i (b i &&& ~~~(mask k))

/-- `b[i] &= ~m`. -/
def clearMask (b : Bitmap) (i : ℕ) (m : UInt64) : Bitmap := Function.update b i (b i &&& ~~~m)

theorem setBit_of_ne (b : Bitmap) {i j : ℕ} (k : ℕ) (h : j ≠ i) : setBit b i k j = b j := by
  simp [setBit, h]

theorem clearBit_of_ne (b : Bitmap) {i j : ℕ} (k : ℕ) (h : j ≠ i) :
    clearBit b i k j = b j := by
  simp [clearBit, h]

theorem get_clearBit (b : Bitmap) {i k : ℕ} (hk : k < 64) (p : ℕ) :
    get (clearBit b i k) p = (!decide (p = 64 * i + k) && get b p) := by
  have hp := Nat.mod_lt p (by omega : 64 > 0)
  by_cases hi : p / 64 = i
  · subst hi
    rw [get, clearBit, Function.update_self, bit_and_not_mask _ hp, get]
    congr 2
    exact decide_eq_decide.mpr (by omega)
  · rw [get, clearBit_of_ne b k hi, get]
    have : p ≠ 64 * i + k := by omega
    simp [this]

theorem get_clearMask (b : Bitmap) (i : ℕ) (m : UInt64) (p : ℕ) :
    get (clearMask b i m) p = (get b p && !(decide (p / 64 = i) && bit m (p % 64))) := by
  have hp := Nat.mod_lt p (by omega : 64 > 0)
  by_cases hi : p / 64 = i
  · subst hi
    simp [get, clearMask, bit, hp]
  · simp [get, clearMask, hi]

end WordBitmap
