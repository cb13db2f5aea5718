/-
Octal and binary output.

`%llo` prints the digits of every number but `2 ^ 63`.  Its first loop stops at that
limit, so a number above it has a digit in front; the limit itself is written with the
digit 8, which is the NUL behind the table, and has one character too few.  `%llb`, whose
limit is 0, prints the digits of the number 0 only: nothing for 1, a NUL and a `0` for 2,
and for a greater number it reads behind its table (`printsBased_iff`).
-/
import Betelgeuse.PrintfScan

open WhileLoop

namespace Betelgeuse

namespace Printf

/-! ### Digits without padding -/

section Digits

variable {limit shift step num : UInt64} {upper lower : List UInt8} {zeroCase : Bool}
  {spec : Conversion} {bits L : ℕ}

/-- The digits of a number with the characters of the table. -/
def tableText (spec : Conversion) (upper lower : List UInt8) (b n : ℕ) : List UInt8 :=
  (DigitList.fixed b (Nat.toDigits b n).length n).map (tableByte spec upper lower)

@[simp] theorem length_tableText (spec : Conversion) (upper lower : List UInt8) (b n : ℕ) :
    (tableText spec upper lower b n).length = (Nat.toDigits b n).length := by
  simp [tableText]

theorem Base.one_lt (h : Base limit shift upper lower bits L) : 1 < 2 ^ bits :=
  Nat.one_lt_two_pow h.bits_pos.ne'

/-- A table of the digits gives the canonical ones. -/
theorem Base.tableText_eq (h : Base limit shift upper lower bits L)
    (hchars : ∀ d < 2 ^ bits, tableByte spec upper lower d = digitByte d) (n : ℕ) :
    tableText spec upper lower (2 ^ bits) n = digitText (2 ^ bits) n := by
  rw [← map_digitByte_fixed h.one_lt n, tableText]
  have hlt : n < (2 ^ bits) ^ (Nat.toDigits (2 ^ bits) n).length :=
    (Nat.length_toDigits_le_iff h.one_lt Nat.length_toDigits_pos).mp le_rfl
  exact List.map_congr_left fun d hd =>
    hchars d (DigitList.lt_of_mem_fixed (Nat.two_pow_pos bits) hlt hd)

/-- Below the limit a number has at most `L` digits. -/
theorem Base.length_toDigits_le (h : Base limit shift upper lower bits L) {n : ℕ}
    (hn : n < 2 ^ (bits * L)) : (Nat.toDigits (2 ^ bits) n).length ≤ L := by
  rw [pow_mul] at hn
  exact (Nat.length_toDigits_le_iff h.one_lt h.L_pos).mpr hn

/-- From the limit on a number has `L + 1` digits. -/
theorem Base.length_toDigits (h : Base limit shift upper lower bits L) (n : UInt64)
    (hn : 2 ^ (bits * L) ≤ n.toNat) : (Nat.toDigits (2 ^ bits) n.toNat).length = L + 1 := by
  have hlt : n.toNat < 2 ^ (bits * L + bits) :=
    n.toNat_lt.trans_le (Nat.pow_le_pow_right (by decide) h.last)
  refine (DigitList.length_toDigits_eq_iff h.one_lt (Nat.succ_pos L)).mpr ⟨?_, .inr ?_⟩
  · rwa [← pow_mul, Nat.mul_succ]
  · rwa [Nat.succ_sub_one, ← pow_mul]

/-- Above the limit: the digit in front, and the others. -/
theorem Base.tableText_of_le (h : Base limit shift upper lower bits L) (spec : Conversion)
    (n : UInt64) (hn : 2 ^ (bits * L) ≤ n.toNat) :
    tableText spec upper lower (2 ^ bits) n.toNat =
      tableByte spec upper lower (n.toNat / 2 ^ (bits * L)) ::
        (DigitList.fixed (2 ^ bits) L (n.toNat % 2 ^ (bits * L))).map
          (tableByte spec upper lower) := by
  rw [tableText, h.length_toDigits n hn, DigitList.fixed, List.map_cons, pow_mul]

/-- Twice the limit is out of reach, so a number above it leaves a rest. -/
theorem mod_limit_ne_zero (n : UInt64) (hn : 2 ^ 63 < n.toNat) : n.toNat % 2 ^ 63 ≠ 0 := by
  have hlt := n.toNat_lt
  omega

/-- Without a width and flags every number but the limit is written with its digits. -/
theorem Base.putBased_plain (step : UInt64) (zeroCase : Bool)
    (h : Base limit shift upper lower bits L)
    (hleft : spec.leftAligned = false) (htable : tableByte spec upper lower 0 = ch '0')
    (hzero : zeroCase = true → bits * L = 63) (hnum : num.toNat ≠ 2 ^ (bits * L)) (io : Io) :
    Yields (fun n => putBased limit shift upper lower zeroCase step spec 0 num io n)
      (io.putText (tableText spec upper lower (2 ^ bits) num.toNat)) := by
  have hstep : spec.leftAligned = true → step = 1 := fun hcontra => by simp [hleft] at hcontra
  have hfill : ∀ e, filled spec 0 e - e = 0 := by
    intro e
    rw [filled_sub_of_right hleft, Nat.zero_sub]
  rcases Nat.lt_or_gt_of_ne hnum with hlt | hgt
  · have htext := h.putBased_text_of_le zeroCase hstep (by decide : 0 < 2 ^ 63) hlt.le
      htable (Nat.min_eq_left (h.length_toDigits_le hlt)) io
    rwa [hfill, behind_of_right hleft, List.append_nil, List.replicate_zero,
      List.nil_append] at htext
  · have hne : zeroCase = true → num.toNat % 2 ^ (bits * L) ≠ 0 := by
      intro hcase
      rw [hzero hcase] at hgt ⊢
      exact mod_limit_ne_zero num hgt
    have htext := h.putBased_text_of_gt hstep (by decide : 0 < 2 ^ 63) hgt hne io
    rwa [hfill, behind_of_right hleft, List.append_nil, List.replicate_zero, List.nil_append,
      ← h.tableText_of_le spec num hgt.le] at htext

/-- The limit is written with one character too few. -/
theorem Base.putBased_limit (step : UInt64) (zeroCase : Bool)
    (h : Base limit shift upper lower bits L)
    (hleft : spec.leftAligned = false) (htable : tableByte spec upper lower 0 = ch '0')
    (hnum : num.toNat = 2 ^ (bits * L)) (io : Io) :
    ∃ text, text.length = L ∧ Yields
      (fun n => putBased limit shift upper lower zeroCase step spec 0 num io n)
      (io.putText text) := by
  have hstep : spec.leftAligned = true → step = 1 := fun hcontra => by simp [hleft] at hcontra
  have hlen := h.length_toDigits num hnum.ge
  have htext := h.putBased_text_of_le zeroCase hstep (by decide : 0 < 2 ^ 63) hnum.le
    htable (by omega : min (Nat.toDigits (2 ^ bits) num.toNat).length L = L) io
  rw [filled_sub_of_right hleft, behind_of_right hleft, List.append_nil, Nat.zero_sub,
    List.replicate_zero, List.nil_append] at htext
  exact ⟨_, by simp, htext⟩

end Digits

/-! ### Whole calls -/

/-- A conversion to one of the bases, with the length `ll` and nothing else. -/
def plainConversion (type : UInt8) (htype : (typeOf type).1 ≠ .formatTypeMax) : ConversionText where
  flags := []
  width := 0
  length := .longLong
  type := type
  isFlag := isFlag_nil
  isType := htype

/-- `%llo`. -/
def octalConversion : ConversionText := plainConversion (ch 'o') (by decide)

/-- `%llb`. -/
def binaryConversion : ConversionText := plainConversion (ch 'b') (by decide)

/-- `%llo` prints the canonical octal digits of the number. -/
def PrintsOctal (n : UInt64) (args : List Arg) : Prop :=
  Prints octalConversion.format (.word n :: args) (digitText 8 n.toNat)

/-- `%llb` prints the canonical binary digits of the number. -/
def PrintsBinary (n : UInt64) (args : List Arg) : Prop :=
  Prints binaryConversion.format (.word n :: args) (digitText 2 n.toNat)

section Calls

theorem tableByte_octal (spec : Conversion) {d : ℕ} (hd : d < 8) :
    tableByte spec octalChars octalChars d = digitByte d := by
  have hall : ∀ d < 8, octalChars.getD d 0 = digitByte d := by decide
  rw [tableByte, ite_self, hall d hd]

/-- A conversion whose limit is `2 ^ 63` prints the digits of every number but this one. -/
theorem Base.prints_iff {limit shift step n : UInt64} {upper lower : List UInt8} {bits L : ℕ}
    {zeroCase : Bool} {t : ConversionText} {args : List Arg} {d : Directive}
    (h : Base limit shift upper lower bits L) (hlimit : bits * L = 63)
    (hchars : ∀ d < 2 ^ bits, tableByte t.conversion upper lower d = digitByte d)
    (hleft : t.conversion.leftAligned = false)
    (hfetch : fetch t.conversion (.word n :: args) = .ok (d, args))
    (hexec : ∀ fuel, d.exec fuel ⟨[], 0⟩ =
      putBased limit shift upper lower zeroCase step t.conversion 0 n ⟨[], 0⟩ fuel) :
    Prints t.format (.word n :: args) (digitText (2 ^ bits) n.toNat) ↔ n.toNat ≠ 2 ^ 63 := by
  have htable : tableByte t.conversion upper lower 0 = ch '0' :=
    hchars 0 (Nat.two_pow_pos bits)
  constructor
  · intro hprints hnum
    rw [← hlimit] at hnum
    obtain ⟨text, hlen, htext⟩ := h.putBased_limit step zeroCase hleft htable hnum ⟨[], 0⟩
    simp only [← hexec] at htext
    have heq := hprints.unique (ConversionText.prints hfetch htext)
    have hdigits := h.length_toDigits n hnum.ge
    rw [← length_digitText, heq, hlen] at hdigits
    exact absurd hdigits (Nat.succ_ne_self L).symm
  · intro hnum
    rw [← hlimit] at hnum
    have htext := h.putBased_plain step zeroCase hleft htable (fun _ => hlimit) hnum ⟨[], 0⟩
    simp only [← hexec, h.tableText_eq hchars] at htext
    exact ConversionText.prints hfetch htext

theorem printsOctal_iff (n : UInt64) (args : List Arg) :
    PrintsOctal n args ↔ n.toNat ≠ 2 ^ 63 :=
  base8.prints_iff (t := octalConversion) rfl (fun _ hd => tableByte_octal _ hd) rfl rfl
    fun _ => rfl

theorem fetch_binary (n : UInt64) (args : List Arg) :
    fetch binaryConversion.conversion (.word n :: args) =
      .ok (.int2 binaryConversion.conversion n, args) := rfl

/-- What `%llb` prints of a number up to 2. -/
theorem prints_binary {n : UInt64} (hn : n ≤ 2) (args : List Arg) :
    Prints binaryConversion.format (.word n :: args) (binaryFront n ++ binaryBack n) := by
  have hleft : binaryConversion.conversion.leftAligned = false := rfl
  have htext := putBinary_text binaryConversion.conversion hn
    (fun hcontra => by simp [hleft] at hcontra) (by decide : 0 < 2 ^ 63) ⟨[], 0⟩
  rw [filled_sub_of_right hleft, Nat.zero_sub, List.replicate_zero, List.nil_append] at htext
  exact ConversionText.prints (fetch_binary n args) htext

theorem printsBinary_iff (n : UInt64) (args : List Arg) : PrintsBinary n args ↔ n = 0 := by
  constructor
  · intro hprints
    have hends := ConversionText.ends_of_prints (fetch_binary n args) hprints
    have heq := hprints.unique (prints_binary hends.1 args)
    rcases le_two_cases hends.1 with rfl | rfl | rfl
    · rfl
    · exact absurd heq (by decide)
    · exact absurd heq (by decide)
  · rintro rfl
    exact prints_binary (by decide) args

/-- `%llo` prints the digits of every number but `2 ^ 63`, `%llb` those of 0. -/
theorem printsBased_iff (n : UInt64) (args : List Arg) :
    (PrintsOctal n args ↔ n.toNat ≠ 2 ^ 63) ∧ (PrintsBinary n args ↔ n = 0) :=
  ⟨printsOctal_iff n args, printsBinary_iff n args⟩

/-- `2 ^ 63`, whose first octal digit is the NUL behind the table, and the binary number 1. -/
theorem printsBased_fails :
    ¬ (∀ (n : UInt64) (args : List Arg), PrintsOctal n args) ∧
      ¬ ∀ (n : UInt64) (args : List Arg), PrintsBinary n args := by
  refine ⟨fun h => ?_, fun h => ?_⟩
  · exact (printsOctal_iff 0x8000000000000000 []).mp (h _ _) rfl
  · exact absurd ((printsBinary_iff 1 []).mp (h _ _)) (by decide)

end Calls

end Printf

end Betelgeuse
