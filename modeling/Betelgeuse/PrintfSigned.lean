/-
Signed decimal output.

`signedText` is what `d` and `i` are to print without a width: a sign, and the digits of
the absolute value, which the apostrophe groups by threes.  `printf_signed` says that it
is what `printf` prints, for every set of flags, every length whose argument is taken
whole, and every value.
-/
import Betelgeuse.PrintfScan

open WhileLoop

namespace Betelgeuse

namespace Printf

/-! ### What is to be printed -/

/-- The value of an argument: an `int` without a length, 64 bits with one. -/
def intValue (length : Length) (w : UInt64) : ℤ :=
  if length = .lengthMax then w.toUInt32.toInt32.toInt else w.toInt64.toInt

/-- The sign of a value. -/
def signText (flags : List UInt8) (v : ℤ) : List UInt8 :=
  if v < 0 then [ch '-']
  else if ch '+' ∈ flags then [ch '+']
  else if ch ' ' ∈ flags then [ch ' ']
  else []

/-- A comma behind a digit if complete groups of three digits follow, and at least one. -/
def grouped : List UInt8 → List UInt8
  | [] => []
  | c :: l => if l ≠ [] ∧ l.length % 3 = 0 then c :: ch ',' :: grouped l else c :: grouped l

/-- The sign and the digits of a value. -/
def signedText (flags : List UInt8) (v : ℤ) : List UInt8 :=
  signText flags v ++
    if 39 ∈ flags then grouped (digitText 10 v.natAbs) else digitText 10 v.natAbs

section Grouped

variable {l g : List UInt8}

theorem grouped_of_length_le (h : l.length ≤ 3) : grouped l = l := by
  induction l with
  | nil => rfl
  | cons c l ih =>
    have hno : ¬ (l ≠ [] ∧ l.length % 3 = 0) := by
      rintro ⟨hne, hmod⟩
      have hpos := List.length_pos_of_ne_nil hne
      rw [List.length_cons] at h
      omega
    rw [grouped, if_neg hno, ih (by rw [List.length_cons] at h; omega)]

/-- Each group of three digits has a comma in front of it. -/
theorem grouped_append (hl : l ≠ []) (hg : g.length = 3) :
    grouped (l ++ g) = grouped l ++ ch ',' :: g := by
  induction l with
  | nil => exact absurd rfl hl
  | cons c l ih =>
    rw [List.cons_append, grouped, grouped, List.length_append, hg, Nat.add_mod_right]
    by_cases hnil : l = []
    · subst hnil
      have hne : g ≠ [] := by
        rintro rfl
        cases hg
      simp [hne, grouped_of_length_le hg.le, grouped]
    · have hne : l ++ g ≠ [] := by simp [hnil]
      simp only [ih hnil, ne_eq, hne, hnil, not_false_eq_true, true_and]
      split <;> rfl

end Grouped

/-! ### The commas of the loop -/

section Separated

variable {spec : Conversion}

theorem separatorAt_ofNat {r : ℕ} (hr : r < 2 ^ 64) :
    separatorAt spec (UInt64.ofNat r) =
      (spec.thousandsSeparator && decide (r ≠ 0 ∧ r % 3 = 0)) := by
  have hthree : (3 : UInt64).toNat = 3 := rfl
  have hzero : (0 : UInt64).toNat = 0 := rfl
  have hr' : (UInt64.ofNat r).toNat = r := UInt64.toNat_ofNat_of_lt' hr
  have hmul : UInt64.ofNat r = UInt64.ofNat r / 3 * 3 ↔ r % 3 = 0 := by
    rw [← UInt64.toNat_inj, UInt64.toNat_mul, UInt64.toNat_div, hr', hthree]
    omega
  have hne : UInt64.ofNat r ≠ 0 ↔ r ≠ 0 := by rw [ne_eq, ← UInt64.toNat_inj, hr', hzero]
  rw [separatorAt, Bool.and_assoc]
  congr 1
  simp only [hmul, hne, ← Bool.decide_and]
  exact decide_eq_decide.mpr and_comm

theorem separated_of_flag (hflag : spec.thousandsSeparator = true) (l : List UInt8)
    (hl : l.length < 2 ^ 64) : separated spec l.length l = grouped l := by
  induction l with
  | nil => rfl
  | cons c l ih =>
    rw [List.length_cons] at hl ⊢
    have hlt : l.length < 2 ^ 64 := by omega
    simp only [separated, grouped, Nat.add_sub_cancel, separatorAt_ofNat hlt, hflag, Bool.true_and,
      decide_eq_true_eq, ih hlt, ne_eq, List.length_eq_zero_iff]

end Separated

/-! ### The argument and the sign -/

section Sign

theorem signedArg_int64 (x : Int64) :
    (if x < 0 then ((-x).toUInt64, true) else (x.toUInt64, false)) =
      (UInt64.ofNat x.toInt.natAbs, decide (x.toInt < 0)) := by
  have hzero : (0 : Int64).toInt = 0 := rfl
  have hint : x.toInt = x.toBitVec.toInt := rfl
  have hlt : x < 0 ↔ x.toInt < 0 := by rw [Int64.lt_iff_toInt_lt, hzero]
  have hbound := x.toBitVec.isLt
  have hcond := x.toBitVec.toInt_eq_toNat_cond
  by_cases hneg : x < 0
  · rw [if_pos hneg, decide_eq_true (hlt.mp hneg)]
    have hnat : (-x).toUInt64.toNat = (-x.toBitVec).toNat := rfl
    congr 1
    rw [← UInt64.toNat_inj, hnat, BitVec.toNat_neg, UInt64.toNat_ofNat']
    rw [hlt, hint] at hneg
    split at hcond <;> omega
  · rw [if_neg hneg, decide_eq_false (fun h => hneg (hlt.mpr h))]
    have hnat : x.toUInt64.toNat = x.toBitVec.toNat := rfl
    congr 1
    rw [← UInt64.toNat_inj, hnat, UInt64.toNat_ofNat']
    rw [hlt, hint] at hneg
    split at hcond <;> omega

/-- The lengths of `d` and `i` whose arguments are not narrowed. -/
def wholeLengths : List Length := [.lengthMax, .long, .longLong, .sizeT, .intMaxT, .ptrDiffT]

/-- `num` is the absolute value. -/
theorem signedArg_eq {length : Length} (hlength : length ∈ wholeLengths) (w : UInt64) :
    signedArg length w =
      (UInt64.ofNat (intValue length w).natAbs, decide (intValue length w < 0)) := by
  cases length with
  | halfHalf | half | longDouble => exact absurd hlength (by decide)
  | long | longLong | sizeT | intMaxT | ptrDiffT => exact signedArg_int64 w.toInt64
  | lengthMax =>
    have hwide := signedArg_int64 w.toUInt32.toInt32.toInt64
    rw [Int32.toInt_toInt64] at hwide
    exact hwide

theorem natAbs_intValue_le (length : Length) (w : UInt64) :
    (intValue length w).natAbs ≤ 2 ^ 63 := by
  rw [intValue]
  split
  · have hle := Int32.le_toInt w.toUInt32.toInt32
    have hlt := Int32.toInt_lt w.toUInt32.toInt32
    omega
  · have hle := Int64.le_toInt w.toInt64
    have hlt := Int64.toInt_lt w.toInt64
    omega

theorem shrinkWidth_ofNat {width : ℕ} (hwidth : width < 2 ^ 64) :
    shrinkWidth (UInt64.ofNat width) = UInt64.ofNat (width - 1) := by
  have hpos : UInt64.ofNat width > 0 ↔ 0 < width := by
    have hzero : (0 : UInt64).toNat = 0 := rfl
    rw [gt_iff_lt, UInt64.lt_iff_toNat_lt, UInt64.toNat_ofNat_of_lt' hwidth, hzero]
  rw [shrinkWidth]
  split
  · next hgt => exact ofNat_pred (hpos.mp hgt)
  · next hle =>
    rw [hpos] at hle
    congr 1
    omega

/-- The sign takes its place from the width. -/
theorem putSign_text (t : ConversionText) (hwidth : t.width < 2 ^ 64) (v : ℤ) (io : Io) :
    putSign t.conversion (decide (v < 0)) io =
      (io.putText (signText t.flags v),
        UInt64.ofNat (t.width - (signText t.flags v).length)) := by
  have hpos : t.conversion.prependPos = true ↔ ch '+' ∈ t.flags := by simp
  have hspace : t.conversion.prependSpace = true ↔ ch ' ' ∈ t.flags := by simp
  have hshrink : shrinkWidth t.conversion.formatWidth = UInt64.ofNat (t.width - 1) :=
    shrinkWidth_ofNat hwidth
  simp only [putSign, signText, decide_eq_true_eq, hpos, hspace, hshrink, count_putchar]
  split
  · rfl
  split
  · rfl
  split
  · rfl
  · rw [putText_nil]
    rfl

end Sign

/-! ### Whole calls -/

/-- `d` and `i` print the sign and the digits of the value, whatever the flags. -/
theorem printf_signed {t : ConversionText} (htype : t.type = ch 'd' ∨ t.type = ch 'i')
    (hwidth : t.width = 0) (hlength : t.length ∈ wholeLengths) (w : UInt64) (args : List Arg) :
    Prints t.format (.word w :: args) (signedText t.flags (intValue t.length w)) := by
  set v := intValue t.length w with hv
  have hformat : t.conversion.formatType = .int10 := by
    rcases htype with h | h <;> simp only [ConversionText.conversion, h] <;> rfl
  have hfetch : fetch t.conversion (.word w :: args) = .ok (.int10 t.conversion w, args) := by
    rw [fetch, hformat]
    rfl
  have habs : v.natAbs < 10 ^ 19 := lt_of_le_of_lt (natAbs_intValue_le t.length w) (by decide)
  have hnum : (UInt64.ofNat v.natAbs).toNat = v.natAbs :=
    UInt64.toNat_ofNat_of_lt' (lt_of_lt_of_le habs (by decide))
  have habs' : (UInt64.ofNat v.natAbs).toNat < 10 ^ 19 := by rwa [hnum]
  have hdecimal := putDecimal_text t.conversion (by decide : 0 < 2 ^ 63) habs'
    (Io.putText ⟨[], 0⟩ (signText t.flags v))
  -- without a width nothing is filled up
  have hfilled : filled t.conversion 0 (digitText 10 v.natAbs).length =
      (digitText 10 v.natAbs).length := by
    rw [filled, Nat.zero_max, ite_self]
  have hseparated : separated t.conversion (digitText 10 v.natAbs).length
      (digitText 10 v.natAbs) =
        if 39 ∈ t.flags then grouped (digitText 10 v.natAbs) else digitText 10 v.natAbs := by
    have hlen : (digitText 10 v.natAbs).length ≤ 19 := by
      rw [length_digitText]
      exact (Nat.length_toDigits_le_iff (by decide) (by decide)).mpr habs
    split
    · next hmem => exact separated_of_flag (by simpa using hmem) _ (by omega)
    · next hnot => exact separated_of_noFlag (by simpa using hnot) _ _
  rw [hnum, hfilled, hseparated, Nat.sub_self, List.replicate_zero, List.nil_append,
    putText_putText] at hdecimal
  refine ConversionText.prints hfetch ?_
  simp only [Directive.exec]
  have hsigned : signedArg t.conversion.formatLength w = (UInt64.ofNat v.natAbs, decide (v < 0)) :=
    signedArg_eq hlength w
  rw [hsigned]
  simp only [putSign_text t (by omega), hwidth, Nat.zero_sub]
  exact hdecimal

/-- `%+'d`. -/
def groupedConversion : ConversionText where
  flags := [ch '+', 39]
  width := 0
  length := .lengthMax
  type := ch 'd'
  isFlag := by simp [flagChars]
  isType := by decide

/-- `-1,234`. -/
theorem printf_signed_grouped :
    Prints groupedConversion.format [.word 0xFFFFFB2E]
      [ch '-', ch '1', ch ',', ch '2', ch '3', ch '4'] := by
  have htext : signedText groupedConversion.flags (intValue groupedConversion.length 0xFFFFFB2E) =
      [ch '-', ch '1', ch ',', ch '2', ch '3', ch '4'] := by decide
  rw [← htext]
  exact printf_signed (.inl rfl) rfl (by decide) 0xFFFFFB2E []

end Printf

end Betelgeuse
