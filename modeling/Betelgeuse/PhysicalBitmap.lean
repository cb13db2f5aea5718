/-
The allocator of physical pages (`kernel/memory.c`).

`page_bitmap` keeps one bit for each page, 1 for an allocated one; page `p` is
bit `p % 64` of word `p / 64`.  `page_physical_alloc` and
`page_physical_alloc_multiple` go up over the words and, in a word below
`INT64_MAX`, down over the bits; `page_physical_free` goes to the bit directly.

The masks are a parameter `one`: the source writes `1 << offset`, which is an
`int` (`intOne`), and the 64-bit value `2 ^ offset` is `mask offset`.  C leaves
a shift of an `int` by 32 or more undefined.  The count 63, with which the loops
over the bits start, is a constant, and the compiler folds `1 << 63` to 0; the
other counts are taken modulo 32, as x86-64 does.  The address is always built
from `int`s (`frameOf`).

The loops over the words count in a `uint16_t`, which never reaches a length
above 65535; a call that does not come back is `none`.
-/
import Betelgeuse.VirtualMap
import Betelgeuse.WordArith

open WordBitmap WordArith

namespace Betelgeuse

/-- `1 << offset`. -/
def intOne (offset : ℕ) : UInt64 :=
  if offset = 63 then 0 else signExtend ((1 : UInt32) <<< UInt32.ofNat offset)

/-- `(bitmap_index << 18) | (offset << 12)`. -/
def frameOf (bitmapIndex : UInt16) (offset : Fin 64) : UInt64 :=
  signExtend ((bitmapIndex.toUInt32 <<< 18) ||| (UInt32.ofNat offset.val <<< 12))

/-- The globals `page_bitmap` and `page_bitmap_length`, the number of its words. -/
structure PageBitmap where
  words : Bitmap
  length : UInt64

namespace PageBitmap

variable (s : PageBitmap) (one : ℕ → UInt64)

/-- What an allocation leaves behind: the code it returns, what it wrote to
`*frame`, and the bitmap. -/
structure Outcome where
  code : ℤ
  frame : Option UInt64
  bitmap : PageBitmap

/-- `page_bitmap[bitmap_index] ^= 1 << offset`. -/
def toggle (bitmapIndex offset : ℕ) : PageBitmap :=
  { s with words := Function.update s.words bitmapIndex (s.words bitmapIndex ^^^ one offset) }

/-- `PAGE_STATUS`. -/
def pageStatus (pointer : UInt64) : UInt64 :=
  (s.words (pointer >>> 6).toNat >>> (pointer &&& 0b111111)) &&& 1

/-- The loop over the bits of a word, from the top. -/
def findOffset (w : UInt64) : Option (Fin 64) :=
  (List.finRange 64).reverse.find? fun offset => decide (w &&& one offset.val = 0)

/-- The loop over the words: where the first clear bit is.  The loop is in the
same state again after `2 ^ 16` rounds. -/
def search : ℕ → UInt16 → Option (Option (UInt16 × Fin 64))
  | 0, _ => none
  | n + 1, bitmapIndex =>
    if bitmapIndex.toUInt64 < s.length then
      if s.words bitmapIndex.toNat < int64Max then
        match findOffset one (s.words bitmapIndex.toNat) with
        | some offset => some (some (bitmapIndex, offset))
        | none => search n (bitmapIndex + 1)
      else search n (bitmapIndex + 1)
    else some none

def pagePhysicalAlloc : Option Outcome := do
  match ← s.search one (2 ^ 16) 0 with
  | some (bitmapIndex, offset) =>
    return ⟨0, some (frameOf bitmapIndex offset), s.toggle one bitmapIndex.toNat offset⟩
  | none => return ⟨-1, none, s⟩

/-- The loop of `page_physical_alloc_multiple` over the bits of a word: the bit
at which `c` reaches `count`, or what `c` is behind the loop. -/
def scanWord (w count : UInt64) : List (Fin 64) → UInt8 → Fin 64 ⊕ UInt8
  | [], c => .inr c
  | offset :: rest, c =>
    let c := if w &&& one offset.val = 0 then c + 1 else 0
    if c.toUInt64 = count then .inl offset else scanWord w count rest c

/-- The loop over the words.  It is in the same state again after `2 ^ 24` rounds,
which is the number of pairs of an index and a `c`. -/
def scan (count : UInt64) : ℕ → UInt16 → UInt8 → Option (Option (UInt16 × Fin 64))
  | 0, _, _ => none
  | n + 1, bitmapIndex, c =>
    if bitmapIndex.toUInt64 < s.length then
      if s.words bitmapIndex.toNat < int64Max then
        match scanWord one (s.words bitmapIndex.toNat) count (List.finRange 64).reverse c with
        | .inl offset => some (some (bitmapIndex, offset))
        | .inr c => scan count n (bitmapIndex + 1) c
      else scan count n (bitmapIndex + 1) 0
    else some none

def pagePhysicalAllocMultiple (count : UInt64) : Option Outcome := do
  match ← s.scan one count (2 ^ 24) 0 0 with
  | some (bitmapIndex, offset) =>
    return ⟨0, some (frameOf bitmapIndex offset - count <<< 12),
      s.toggle one bitmapIndex.toNat offset⟩
  | none => return ⟨-1, none, s⟩

def pagePhysicalFree (frame : UInt64) : PageBitmap :=
  if frame >>> 18 < s.length ∧ s.pageStatus (frame >>> 12) = 0 then
    s.toggle one (frame >>> 18).toNat ((frame >>> 12) &&& 0b111111).toNat
  else s

/-! ### Masks and addresses -/

theorem toNat_frameOf {bitmapIndex : UInt16} (h : bitmapIndex.toNat < 16384) (offset : Fin 64) :
    (frameOf bitmapIndex offset).toNat =
      if bitmapIndex.toNat < 8192 then (64 * bitmapIndex.toNat + offset.val) * 4096
      else (64 * bitmapIndex.toNat + offset.val) * 4096 + (2 ^ 64 - 2 ^ 32) := by
  have hoff := offset.isLt
  have hor : ((bitmapIndex.toUInt32 <<< 18) ||| (UInt32.ofNat offset.val <<< 12)).toNat =
      (64 * bitmapIndex.toNat + offset.val) * 4096 := by
    have h1 : (bitmapIndex.toUInt32 <<< 18).toNat = bitmapIndex.toNat <<< 18 := by
      rw [UInt32.toNat_shiftLeft]
      simp [Nat.shiftLeft_eq]
      omega
    have h2 : (UInt32.ofNat offset.val <<< 12).toNat = offset.val <<< 12 := by
      rw [UInt32.toNat_shiftLeft]
      simp [Nat.shiftLeft_eq]
      omega
    rw [UInt32.toNat_or, h1, h2, ← Nat.shiftLeft_add_eq_or_of_lt,
      Nat.shiftLeft_eq, Nat.shiftLeft_eq]
    · omega
    · rw [Nat.shiftLeft_eq]
      omega
  rw [frameOf, toNat_signExtend, hor]
  split <;> split <;> omega

theorem toNat_shiftRight_page (frame : UInt64) : (frame >>> 12).toNat = frame.toNat / 4096 :=
  toNat_shiftRight (n := 12) rfl

/-- A word is 0 if all its bits are. -/
theorem eq_zero_of_bits {w : UInt64} (h : ∀ j < 64, bit w j = false) : w = 0 := by
  rw [← UInt64.toBitVec_inj]
  refine BitVec.eq_of_getLsbD_eq fun j hj => ?_
  rw [show w.toBitVec.getLsbD j = bit w j from rfl, h j hj]
  simp

theorem bit_and (v w : UInt64) (j : ℕ) : bit (v &&& w) j = (bit v j && bit w j) := by
  simp [bit]

theorem bit_xor (v w : UInt64) (j : ℕ) : bit (v ^^^ w) j = (bit v j ^^ bit w j) := by
  simp [bit]

/-- A word that the loops do not skip has its highest bit clear. -/
theorem bit_63_of_lt {w : UInt64} (h : w < int64Max) : bit w 63 = false := by
  rw [bit]
  have := UInt64.lt_iff_toNat_lt.mp h
  have : w.toBitVec.msb = false := by
    rw [BitVec.msb_eq_decide, decide_eq_false_iff_not]
    have h2 : int64Max.toNat = 2 ^ 63 - 1 := rfl
    simp
    omega
  simpa [BitVec.msb_eq_getLsbD_last] using this

/-! ### The searches -/

variable {s : PageBitmap} {one : ℕ → UInt64}

/-- The loop over the bits stops at the highest bit whose test succeeds. -/
theorem findOffset_eq_some {w : UInt64} {offset : Fin 64} (h : findOffset one w = some offset) :
    w &&& one offset.val = 0 ∧ ∀ j : Fin 64, offset < j → w &&& one j.val ≠ 0 := by
  have hsorted : ((List.finRange 64).reverse).Pairwise fun a b => b < a :=
    List.pairwise_reverse.mpr (List.pairwise_lt_finRange 64)
  obtain ⟨hp, as, bs, heq, has⟩ := List.find?_eq_some_iff_append.mp h
  refine ⟨of_decide_eq_true hp, fun j hj hzero => ?_⟩
  have hmem : j ∈ as ++ offset :: bs := by
    rw [← heq]
    simp
  rcases List.mem_append.mp hmem with hin | hin
  · have hnot := has j hin
    simp [hzero] at hnot
  · rw [heq] at hsorted
    rcases List.mem_cons.mp hin with rfl | hin
    · exact lt_irrefl _ hj
    · have := (List.pairwise_cons.mp (List.pairwise_append.mp hsorted).2.1).1 j hin
      exact lt_asymm hj this

theorem findOffset_eq_none {w : UInt64} :
    findOffset one w = none ↔ ∀ j : Fin 64, w &&& one j.val ≠ 0 := by
  rw [findOffset, List.find?_eq_none]
  simp

/-- The loop over the words takes this word: it is not skipped, and the loop over
its bits finds one. -/
def Takes (s : PageBitmap) (one : ℕ → UInt64) (i : ℕ) : Prop :=
  s.words i < int64Max ∧ ∃ offset, findOffset one (s.words i) = some offset

/-- The words the loop over the words can reach. -/
def reach (s : PageBitmap) : ℕ := min s.length.toNat (2 ^ 16)

theorem toNat_ofNat {k : ℕ} (hk : k < 2 ^ 16) : (UInt16.ofNat k).toNat = k := by
  simp
  omega

theorem toUInt64_lt_iff {k : ℕ} (hk : k < 2 ^ 16) {n : UInt64} :
    (UInt16.ofNat k).toUInt64 < n ↔ k < n.toNat := by
  rw [UInt64.lt_iff_toNat_lt, UInt16.toNat_toUInt64, toNat_ofNat hk]

theorem ofNat_succ (k : ℕ) : UInt16.ofNat k + 1 = UInt16.ofNat (k + 1) := by
  rw [UInt16.ofNat_add]
  rfl

/-- The loop from word `k` on stops at the first word it takes; without one it
ends behind the last word, or not at all. -/
theorem search_from : ∀ n k : ℕ, k + n = 2 ^ 16 → k ≤ s.length.toNat →
    (∃ i offset, k ≤ i ∧ i < s.reach ∧ s.words i < int64Max ∧
        findOffset one (s.words i) = some offset ∧
        s.search one n (UInt16.ofNat k) = some (some (UInt16.ofNat i, offset))) ∨
      (∀ i, k ≤ i → i < s.reach → ¬ s.Takes one i) ∧
        s.search one n (UInt16.ofNat k) = if s.length.toNat < 2 ^ 16 then some none else none := by
  -- by induction on the rounds that are left until the index has gone through 16 bits
  intro n
  induction n with
  | zero =>
    intro k hk hle
    refine .inr ⟨fun i hki hi => ?_, ?_⟩
    · rw [reach] at hi
      omega
    · rw [search, if_neg (by omega)]
  | succ n ih =>
    intro k hk hle
    have hk16 : k < 2 ^ 16 := by omega
    -- a word that is not taken is passed over
    have hgo : k < s.length.toNat → ¬ s.Takes one k →
        s.search one (n + 1) (UInt16.ofNat k) = s.search one n (UInt16.ofNat (k + 1)) := by
      intro hlen hnot
      rw [search, if_pos ((toUInt64_lt_iff hk16).mpr hlen), toNat_ofNat hk16, ofNat_succ]
      split
      · rename_i hlt
        split
        · rename_i offset hoff
          exact absurd ⟨hlt, offset, hoff⟩ hnot
        · rfl
      · rfl
    by_cases hlen : k < s.length.toNat
    · by_cases htakes : s.Takes one k
      · obtain ⟨hlt, offset, hoff⟩ := htakes
        refine .inl ⟨k, offset, le_rfl, lt_min hlen hk16, hlt, hoff, ?_⟩
        rw [search, if_pos ((toUInt64_lt_iff hk16).mpr hlen), toNat_ofNat hk16, if_pos hlt, hoff]
      · rw [hgo hlen htakes]
        rcases ih (k + 1) (by omega) hlen with ⟨i, offset, hki, hrest⟩ | ⟨hnone, hres⟩
        · exact .inl ⟨i, offset, by omega, hrest⟩
        · refine .inr ⟨fun i hki hi => ?_, hres⟩
          rcases hki.eq_or_lt with rfl | hki
          · exact htakes
          · exact hnone i hki hi
    · refine .inr ⟨fun i hki hi => ?_, ?_⟩
      · rw [reach] at hi
        omega
      · rw [search, if_neg (fun h => hlen ((toUInt64_lt_iff hk16).mp h)), if_pos (by omega)]

/-- `page_physical_alloc` takes the first word that the loop takes, or fails, or,
with a length that the index never reaches, does not come back. -/
theorem pagePhysicalAlloc_cases :
    (∃ i offset, i < s.reach ∧ s.words i < int64Max ∧
        findOffset one (s.words i) = some offset ∧
        s.pagePhysicalAlloc one =
          some ⟨0, some (frameOf (UInt16.ofNat i) offset), s.toggle one i offset⟩) ∨
      (∀ i < s.reach, ¬ s.Takes one i) ∧
        s.pagePhysicalAlloc one = if s.length.toNat < 2 ^ 16 then some ⟨-1, none, s⟩ else none := by
  rw [pagePhysicalAlloc]
  rcases s.search_from (2 ^ 16) 0 rfl (Nat.zero_le _) with
    ⟨i, offset, -, hi, hlt, hoff, hres⟩ | ⟨hnone, hres⟩
  · refine .inl ⟨i, offset, hi, hlt, hoff, ?_⟩
    rw [reach] at hi
    rw [show (0 : UInt16) = UInt16.ofNat 0 from rfl, hres]
    simp only [Option.bind_eq_bind, Option.bind_some, toNat_ofNat (show i < 2 ^ 16 by omega)]
    rfl
  · refine .inr ⟨fun i hi => hnone i (Nat.zero_le i) hi, ?_⟩
    rw [show (0 : UInt16) = UInt16.ofNat 0 from rfl, hres]
    split
    · rfl
    · rfl

/-- What a toggle does to the bits. -/
theorem get_toggle (i offset q : ℕ) :
    get (s.toggle one i offset).words q =
      if q / 64 = i then (get s.words q ^^ bit (one offset) (q % 64)) else get s.words q := by
  simp only [toggle, WordBitmap.get, Function.update_apply]
  split
  · rename_i hi
    rw [bit_xor, hi]
  · rfl

end PageBitmap

end Betelgeuse
