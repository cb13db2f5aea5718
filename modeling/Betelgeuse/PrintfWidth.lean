/-
The field width of integers.

`field` is what a width is to do with a text: nothing if the text is long enough, else
spaces in front of it, spaces behind it (`-`), or zeros behind its sign (`0`).
`honoursWidth_iff` says when `printf` does this for an integer.  It does not

* for a negative number that is filled up with spaces, whose sign comes before them;
* for a left-aligned decimal number, behind which there are none;
* for a left-aligned hexadecimal number, behind which there is a space for each of its
  digits, whatever the width;
* for a left-aligned octal number, whose last loop does not end;
* for a negative argument of the other bases, whose first digit comes before the filling;
* for a binary number: 0 has no digit when it is filled up, 2 has the filling behind its
  first character, and from 3 on nothing is put out in bounds.
-/
import Betelgeuse.PrintfBased
import Betelgeuse.PrintfHex
import Betelgeuse.PrintfSigned

open WhileLoop

namespace Betelgeuse

namespace Printf

/-! ### Fields -/

/-- The types of integers. -/
inductive IntType where
  | d
  | i
  | u
  | x
  | capitalX
  | o
  | b
  deriving DecidableEq

/-- The character of a type. -/
def IntType.char : IntType → UInt8
  | .d => ch 'd'
  | .i => ch 'i'
  | .u => ch 'u'
  | .x => ch 'x'
  | .capitalX => ch 'X'
  | .o => ch 'o'
  | .b => ch 'b'

/-- How a field is filled up: no flag, `-`, or `0`. -/
inductive Fill where
  | spaces
  | left
  | zeros
  deriving DecidableEq

/-- The flags that say so. -/
def Fill.flags : Fill → List UInt8
  | .spaces => []
  | .left => [ch '-']
  | .zeros => [ch '0']

/-- A conversion of an integer with a field. -/
def fieldConversion (type : IntType) (length : Length) (fill : Fill) (width : ℕ) :
    ConversionText where
  flags := fill.flags
  width := width
  length := length
  type := type.char
  isFlag := by cases fill <;> simp [Fill.flags, flagChars]
  isType := by cases type <;> decide

/-- The text in a field. -/
def field (fill : Fill) (width : ℕ) (t : List UInt8) : List UInt8 :=
  if width ≤ t.length then t
  else
    match fill with
    | .spaces => List.replicate (width - t.length) (ch ' ') ++ t
    | .left => t ++ List.replicate (width - t.length) (ch ' ')
    | .zeros => t.takeWhile (· == ch '-') ++
        (List.replicate (width - t.length) (ch '0') ++ t.dropWhile (· == ch '-'))

/-- With the width the call prints what it prints without, in its field. -/
def HonoursWidth (type : IntType) (length : Length) (fill : Fill) (width : ℕ) (w : UInt64)
    (args : List Arg) : Prop :=
  ∃ t, Prints (fieldConversion type length .spaces 0).format (.word w :: args) t ∧
    Prints (fieldConversion type length fill width).format (.word w :: args) (field fill width t)

/-! ### The condition -/

/-- The argument as the signed type that `va_arg` takes. -/
def signedValue (length : Length) (w : UInt64) : ℤ := (basedArg length w).toInt64.toInt

/-- The value of an argument. -/
def argValue (type : IntType) (length : Length) (w : UInt64) : ℤ :=
  if type = .u then (unsignedArg length w).toNat else signedValue length w

/-- The number of digits that are printed. -/
def digitCount (type : IntType) (length : Length) (w : UInt64) : ℕ :=
  match type with
  | .d | .i => (Nat.toDigits 10 (signedValue length w).natAbs).length
  | .u => (Nat.toDigits 10 (unsignedArg length w).toNat).length
  | .x | .capitalX => (Nat.toDigits 16 (basedArg length w).toNat).length
  | .o => (Nat.toDigits 8 (basedArg length w).toNat).length
  | .b => (Nat.toDigits 2 (basedArg length w).toNat).length

/-- When it is honoured for a signed decimal number of `n` digits. -/
def SignedWidthOk (fill : Fill) (width : ℕ) (v : ℤ) (n : ℕ) : Prop :=
  match fill with
  | .spaces => 0 ≤ v ∨ width ≤ n + 1
  | .left => width ≤ if v < 0 then n + 1 else n
  | .zeros => True

/-- When it is honoured for a binary number. -/
def BinaryWidthOk (fill : Fill) (width : ℕ) (num : UInt64) : Prop :=
  num = 0 ∧ width ≤ (if fill = .left then 1 else 0) ∨
    num = 1 ∧ (fill = .left → width = 0) ∨
    num = 2 ∧ fill ≠ .left ∧ width ≤ 1

/-- When the width is honoured. -/
def WidthOk (type : IntType) (length : Length) (fill : Fill) (width : ℕ) (w : UInt64) : Prop :=
  let v := argValue type length w
  let n := digitCount type length w
  match type with
  | .d | .i =>
    (length = .half ∨ length = .halfHalf → v ≠ -2 ^ 31) ∧ SignedWidthOk fill width v n
  | .u => fill = .left → width ≤ n
  | .x | .capitalX => if fill = .left then width = 2 * n else 0 ≤ v ∨ width ≤ n
  | .o => fill ≠ .left ∧ (0 ≤ v ∨ width ≤ n)
  | .b => BinaryWidthOk fill width (basedArg length w)

/-! ### Texts in fields -/

section Field

variable {fill : Fill} {width : ℕ} {t text : List UInt8}

theorem field_of_le (h : width ≤ t.length) : field fill width t = t := if_pos h

theorem takeWhile_minus (h : ∀ c ∈ t, c ≠ ch '-') : t.takeWhile (· == ch '-') = [] := by
  cases t with
  | nil => rfl
  | cons c t => simp [h c List.mem_cons_self]

theorem dropWhile_minus (h : ∀ c ∈ t, c ≠ ch '-') : t.dropWhile (· == ch '-') = t := by
  cases t with
  | nil => rfl
  | cons c t => simp [h c List.mem_cons_self]

/-- The character that a field is filled up with in front. -/
def Fill.char : Fill → UInt8
  | .spaces | .left => ch ' '
  | .zeros => ch '0'

/-- A text without a sign is filled up in front. -/
theorem field_right (hfill : fill ≠ .left) (h : ∀ c ∈ t, c ≠ ch '-') :
    field fill width t = List.replicate (width - t.length) fill.char ++ t := by
  unfold field
  split
  · next hle => rw [Nat.sub_eq_zero_of_le hle, List.replicate_zero, List.nil_append]
  · cases fill with
    | spaces => rfl
    | left => exact absurd rfl hfill
    | zeros =>
      simp only [takeWhile_minus h, dropWhile_minus h, List.nil_append]
      rfl

theorem field_left : field .left width t = t ++ List.replicate (width - t.length) (ch ' ') := by
  unfold field
  split
  · next hle => rw [Nat.sub_eq_zero_of_le hle, List.replicate_zero, List.append_nil]
  · rfl

/-- Zeros come behind the sign. -/
theorem field_zeros_minus (h : ∀ c ∈ t, c ≠ ch '-') :
    field .zeros width (ch '-' :: t) =
      ch '-' :: (List.replicate (width - 1 - t.length) (ch '0') ++ t) := by
  have hsub : width - (ch '-' :: t).length = width - 1 - t.length := by
    rw [List.length_cons]
    omega
  unfold field
  split
  · next hle =>
    rw [List.length_cons] at hle
    rw [Nat.sub_eq_zero_of_le (by omega : width - 1 ≤ t.length), List.replicate_zero,
      List.nil_append]
  · rw [hsub]
    simp [takeWhile_minus h, dropWhile_minus h]

end Field

/-! ### The fields that are printed -/

section Spec

variable {type : IntType} {length : Length} {fill : Fill} {width : ℕ}

theorem leftAligned_field : (fieldConversion type length fill width).conversion.leftAligned =
    decide (fill = .left) := by
  cases fill <;> rfl

@[simp] theorem zfillChar_field :
    zfillChar (fieldConversion type length fill width).conversion = fill.char := by
  cases fill <;> rfl

theorem thousandsSeparator_field :
    (fieldConversion type length fill width).conversion.thousandsSeparator = false := by
  cases fill <;> rfl

theorem signText_field (v : ℤ) :
    signText (fieldConversion type length fill width).flags v =
      if v < 0 then [ch '-'] else [] := by
  cases fill <;> rfl

/-- The number of characters that are filled up in front. -/
def Fill.padding (fill : Fill) (width n : ℕ) : ℕ := if fill = .left then 0 else width - n

theorem filled_field {w n : ℕ} :
    filled (fieldConversion type length fill width).conversion w n - n = fill.padding w n := by
  simp only [filled, Fill.padding, leftAligned_field, decide_eq_true_eq]
  split <;> omega

/-- Two calls with the same text without a width. -/
theorem honoursWidth_iff_of_prints {w : UInt64} {args : List Arg} {t text : List UInt8}
    (ht : Prints (fieldConversion type length .spaces 0).format (.word w :: args) t)
    (htext : Prints (fieldConversion type length fill width).format (.word w :: args) text) :
    HonoursWidth type length fill width w args ↔ text = field fill width t := by
  constructor
  · rintro ⟨t', ht', htext'⟩
    rw [ht.unique ht']
    exact htext.unique htext'
  · intro h
    exact ⟨t, ht, h ▸ htext⟩

end Spec

/-! ### Decimal numbers -/

section Decimal

variable {type : IntType} {length : Length} {fill : Fill} {width : ℕ}

/-- The sign, the filling and the digits, as they are put out. -/
def decimalField (fill : Fill) (width : ℕ) (sign digits : List UInt8) : List UInt8 :=
  sign ++ (List.replicate (fill.padding (width - sign.length) digits.length) fill.char ++ digits)

theorem decimalField_plain (sign digits : List UInt8) :
    decimalField .spaces 0 sign digits = sign ++ digits := by
  have hpadding : Fill.spaces.padding (0 - sign.length) digits.length = 0 := by
    simp [Fill.padding]
  rw [decimalField, hpadding, List.replicate_zero, List.nil_append]

theorem digitText_ne_minus (n : ℕ) : ∀ c ∈ digitText 10 n, c ≠ ch '-' := by
  intro c hc
  obtain ⟨x, hx, rfl⟩ := List.mem_map.mp hc
  obtain ⟨d, hd, rfl⟩ := exists_digitChar (Nat.isDigit_of_mem_toDigits (by decide) (by decide) hx)
  have hall : ∀ d < 10, ch d.digitChar ≠ ch '-' := by decide
  exact hall d hd

/-- When this is the field of the sign and the digits. -/
theorem decimalField_eq_iff (fill : Fill) (width : ℕ) {sign digits : List UInt8}
    (hsign : sign = [] ∨ sign = [ch '-']) (hdigits : ∀ c ∈ digits, c ≠ ch '-') :
    decimalField fill width sign digits = field fill width (sign ++ digits) ↔
      match fill with
      | .spaces => sign = [] ∨ width ≤ digits.length + 1
      | .left => width ≤ sign.length + digits.length
      | .zeros => True := by
  cases fill with
  | left =>
    simp only [decimalField, Fill.padding, if_true, List.replicate_zero, List.nil_append,
      field_left, List.self_eq_append_right, List.replicate_eq_nil_iff, List.length_append]
    omega
  | zeros =>
    rcases hsign with rfl | rfl
    · rw [List.nil_append, field_right (by decide) hdigits]
      simp [decimalField, Fill.padding]
    · rw [List.singleton_append, field_zeros_minus hdigits]
      simp [decimalField, Fill.padding, Fill.char]
  | spaces =>
    rcases hsign with rfl | rfl
    · rw [List.nil_append, field_right (by decide) hdigits]
      simp [decimalField, Fill.padding]
    · -- the spaces come behind the sign
      have hlen : ([ch '-'] ++ digits).length = digits.length + 1 := by simp
      by_cases hle : width ≤ digits.length + 1
      · have hpadding : width - 1 - digits.length = 0 := by omega
        rw [field_of_le (by rwa [hlen])]
        simp [decimalField, Fill.padding, hpadding, hle]
      · have hpos : width - (digits.length + 1) = width - (digits.length + 1) - 1 + 1 := by omega
        have hfield : field .spaces width ([ch '-'] ++ digits) =
            List.replicate (width - (digits.length + 1)) (ch ' ') ++ ([ch '-'] ++ digits) := by
          rw [field, hlen, if_neg hle]
        have hne : ch '-' ≠ ch ' ' := by decide
        rw [hfield, hpos, List.replicate_succ]
        simp [decimalField, hle, hne]

/-- What a decimal conversion puts out in a field. -/
theorem putDecimal_field (type : IntType) (length : Length) (fill : Fill) {num : UInt64}
    (hnum : num.toNat < 10 ^ 19) (hwidth : width < 2 ^ 63) (sign : List UInt8) :
    Yields (fun n => putDecimal (fieldConversion type length fill width).conversion
        (UInt64.ofNat (width - sign.length)) num (Io.putText ⟨[], 0⟩ sign) n)
      (Io.putText ⟨[], 0⟩ (decimalField fill width sign (digitText 10 num.toNat))) := by
  have htext := putDecimal_text (fieldConversion type length fill width).conversion
    (by omega : width - sign.length < 2 ^ 63) hnum (Io.putText ⟨[], 0⟩ sign)
  rwa [separated_of_noFlag thousandsSeparator_field, filled_field, zfillChar_field,
    putText_putText] at htext

/-- An unsigned number. -/
theorem prints_unsignedField (fill : Fill) {w : UInt64}
    (hlt : (unsignedArg length w).toNat < 10 ^ 19) (hwidth : width < 2 ^ 63) (args : List Arg) :
    Prints (fieldConversion .u length fill width).format (.word w :: args)
      (decimalField fill width [] (digitText 10 (unsignedArg length w).toNat)) := by
  have hfetch : fetch (fieldConversion .u length fill width).conversion (.word w :: args) =
      .ok (.uint10 (fieldConversion .u length fill width).conversion w, args) := rfl
  refine ConversionText.prints hfetch ?_
  have htext := putDecimal_field .u length fill hlt hwidth []
  rwa [putText_nil] at htext

end Decimal

/-! ### Signed arguments -/

section Signed

theorem neg_toInt64 {x : Int32} (hx : x.toInt ≠ -2 ^ 31) : (-x).toInt64 = -x.toInt64 := by
  have hle := x.le_toInt
  have hlt := x.toInt_lt
  refine Int64.toInt_inj.mp ?_
  rw [Int32.toInt_toInt64, Int32.toInt_neg, Int64.toInt_neg, Int32.toInt_toInt64,
    Int.bmod_eq_of_le (by omega) (by omega), Int.bmod_eq_of_le (by omega) (by omega)]

/-- `num` is the absolute value, unless an `int` overflows. -/
theorem signedArg_field {length : Length} {w : UInt64}
    (h : length = .half ∨ length = .halfHalf → signedValue length w ≠ -2 ^ 31) :
    signedArg length w =
      (UInt64.ofNat (signedValue length w).natAbs, decide (signedValue length w < 0)) := by
  have hint : ∀ x : Int32, x.toInt64.toUInt64.toInt64.toInt = x.toInt64.toInt := fun x => rfl
  cases length with
  | long | longLong | sizeT | intMaxT | ptrDiffT => exact signedArg_int64 w.toInt64
  | longDouble | lengthMax => exact signedArg_int64 w.toUInt32.toInt32.toInt64
  | half | halfHalf =>
    have hne : w.toUInt32.toInt32.toInt ≠ -2 ^ 31 := by
      rw [← Int32.toInt_toInt64]
      exact h (by simp)
    have hlt : w.toUInt32.toInt32 < 0 ↔ w.toUInt32.toInt32.toInt64 < 0 := by
      rw [Int32.lt_iff_toInt_lt, Int64.lt_iff_toInt_lt, Int32.toInt_toInt64]
      rfl
    have hwide := signedArg_int64 w.toUInt32.toInt32.toInt64
    simp only [signedArg, neg_toInt64 hne, hlt]
    exact hwide

/-- A signed number. -/
theorem prints_signedField {type : IntType} {length : Length} {fill : Fill} {width : ℕ}
    {w : UInt64} {args : List Arg}
    (hfetch : fetch (fieldConversion type length fill width).conversion (.word w :: args) =
      .ok (.int10 (fieldConversion type length fill width).conversion w, args))
    (h : length = .half ∨ length = .halfHalf → signedValue length w ≠ -2 ^ 31)
    (hlt : (signedValue length w).natAbs < 10 ^ 19) (hwidth : width < 2 ^ 63) :
    Prints (fieldConversion type length fill width).format (.word w :: args)
      (decimalField fill width (if signedValue length w < 0 then [ch '-'] else [])
        (digitText 10 (signedValue length w).natAbs)) := by
  set v := signedValue length w
  have hnum : (UInt64.ofNat v.natAbs).toNat = v.natAbs :=
    UInt64.toNat_ofNat_of_lt' (hlt.trans (by decide))
  have htext := putDecimal_field type length fill
    (by rwa [hnum] : (UInt64.ofNat v.natAbs).toNat < 10 ^ 19) hwidth
    (if v < 0 then [ch '-'] else [])
  rw [hnum] at htext
  refine ConversionText.prints hfetch ?_
  have harg : signedArg (fieldConversion type length fill width).conversion.formatLength w =
      (UInt64.ofNat v.natAbs, decide (v < 0)) := signedArg_field h
  have hsign := putSign_text (fieldConversion type length fill width)
    (hwidth.trans (by decide) : width < 2 ^ 64) v ⟨[], 0⟩
  rw [signText_field] at hsign
  simp only [Directive.exec, harg, hsign]
  exact htext

/-- The least `int` with a length `h` or `hh` stays negative, and no power passes it. -/
theorem not_ends_of_overflow {length : Length} {w : UInt64} {spec : Conversion}
    (hspec : spec.formatLength = length) (hlength : length = .half ∨ length = .halfHalf)
    (hv : signedValue length w = -2 ^ 31) : ¬ (Directive.int10 spec w).Ends := by
  have hmin : w.toUInt32.toInt32 = Int32.minValue := by
    refine Int32.toInt_inj.mp ?_
    rw [← Int32.toInt_toInt64]
    rcases hlength with rfl | rfl <;> exact hv
  have hnum : (signedArg spec.formatLength w).1 = 0xFFFFFFFF80000000 := by
    rw [hspec]
    rcases hlength with rfl | rfl <;> simp only [signedArg, hmin] <;> rfl
  intro hends
  simp only [Directive.Ends, DecimalEnds, hnum] at hends
  rcases hends with hlt | ⟨hlt, -⟩
  · exact absurd hlt (by decide)
  · exact absurd hlt (by decide)

theorem honoursWidth_signed {type : IntType} {length : Length} {fill : Fill} {width : ℕ}
    {w : UInt64} {args : List Arg}
    (hfetch : ∀ fill width, fetch (fieldConversion type length fill width).conversion
      (.word w :: args) = .ok (.int10 (fieldConversion type length fill width).conversion w, args))
    (hlt : (signedValue length w).natAbs < 10 ^ 19) (hwidth : width < 2 ^ 63) :
    HonoursWidth type length fill width w args ↔
      (length = .half ∨ length = .halfHalf → signedValue length w ≠ -2 ^ 31) ∧
        SignedWidthOk fill width (signedValue length w)
          (Nat.toDigits 10 (signedValue length w).natAbs).length := by
  by_cases hover : length = .half ∨ length = .halfHalf → signedValue length w ≠ -2 ^ 31
  · have ht := prints_signedField (hfetch .spaces 0) hover hlt (by decide)
    have htext := prints_signedField (hfetch fill width) hover hlt hwidth
    have hsign : (if signedValue length w < 0 then [ch '-'] else []) = [] ∨
        (if signedValue length w < 0 then [ch '-'] else []) = [ch '-'] := by
      split <;> simp
    rw [decimalField_plain] at ht
    rw [honoursWidth_iff_of_prints ht htext,
      decimalField_eq_iff fill width hsign (digitText_ne_minus _)]
    simp only [and_iff_right hover, length_digitText]
    by_cases hneg : signedValue length w < 0
    · cases fill <;> simp [SignedWidthOk, hneg, Nat.add_comm]
    · cases fill <;> simp [SignedWidthOk, hneg, Int.not_lt.mp hneg]
  · constructor
    · rintro ⟨t, ht, -⟩
      push Not at hover
      exact absurd (ConversionText.ends_of_prints (hfetch .spaces 0) ht)
        (not_ends_of_overflow rfl hover.1 hover.2)
    · exact fun h => absurd h.1 hover

theorem honoursWidth_unsigned {length : Length} {fill : Fill} {width : ℕ} {w : UInt64}
    {args : List Arg} (hlt : (unsignedArg length w).toNat < 10 ^ 19) (hwidth : width < 2 ^ 63) :
    HonoursWidth .u length fill width w args ↔
      (fill = .left → width ≤ (Nat.toDigits 10 (unsignedArg length w).toNat).length) := by
  have ht := prints_unsignedField .spaces hlt (by decide : 0 < 2 ^ 63) args
  have htext := prints_unsignedField fill hlt hwidth args
  rw [decimalField_plain, List.nil_append] at ht
  have hiff := decimalField_eq_iff fill width (.inl rfl)
    (digitText_ne_minus (unsignedArg length w).toNat)
  rw [List.nil_append] at hiff
  rw [honoursWidth_iff_of_prints ht htext, hiff]
  cases fill <;> simp

end Signed

/-! ### The other bases -/

/-- A table of digits: no digit is a minus sign, and only that of 0 fills up a field. -/
structure DigitTable (upper lower : List UInt8) (b : ℕ) : Prop where
  zero : ∀ spec, tableByte spec upper lower 0 = ch '0'
  minus : ∀ spec, ∀ d < b, tableByte spec upper lower d ≠ ch '-'
  filler : ∀ spec, ∀ d < b, d ≠ 0 → ∀ fill : Fill, tableByte spec upper lower d ≠ fill.char

/-- A conversion to one of the bases, in all its fields. -/
structure BasedFields (type : IntType) (length : Length) (limit shift : UInt64)
    (upper lower : List UInt8) (zeroCase : Bool) (step : UInt64) (d : Conversion → Directive)
    (w : UInt64) (args : List Arg) : Prop where
  fetch : ∀ fill width, fetch (fieldConversion type length fill width).conversion
    (.word w :: args) = .ok (d (fieldConversion type length fill width).conversion, args)
  exec : ∀ fill width fuel, (d (fieldConversion type length fill width).conversion).exec fuel
    ⟨[], 0⟩ = putBased limit shift upper lower zeroCase step
      (fieldConversion type length fill width).conversion (UInt64.ofNat width)
      (basedArg length w) ⟨[], 0⟩ fuel

section Based

variable {type : IntType} {length : Length} {limit shift step : UInt64} {upper lower : List UInt8}
  {zeroCase : Bool} {d : Conversion → Directive} {w : UInt64} {args : List Arg} {bits L width : ℕ}
  {fill : Fill}

theorem behind_field {n : ℕ} :
    behind (fieldConversion type length fill width).conversion
        (filled (fieldConversion type length fill width).conversion width n) =
      if fill = .left then List.replicate n (ch ' ') else [] := by
  simp only [behind, filled, leftAligned_field, decide_eq_true_eq]
  split <;> rfl

theorem hstep_field (h : fill = .left → step = 1) :
    (fieldConversion type length fill width).conversion.leftAligned = true → step = 1 := by
  rw [leftAligned_field, decide_eq_true_eq]
  exact h

/-- A number below the limit in a field. -/
theorem BasedFields.prints_of_lt (fill : Fill)
    (hd : BasedFields type length limit shift upper lower zeroCase step d w args)
    (h : Base limit shift upper lower bits L) (htable : DigitTable upper lower (2 ^ bits))
    (hstep : fill = .left → step = 1) (hwidth : width < 2 ^ 63)
    (hlt : (basedArg length w).toNat < 2 ^ (bits * L)) :
    Prints (fieldConversion type length fill width).format (.word w :: args)
      (List.replicate (fill.padding width
          (Nat.toDigits (2 ^ bits) (basedArg length w).toNat).length) fill.char ++
        (tableText (fieldConversion type length .spaces 0).conversion upper lower (2 ^ bits)
          (basedArg length w).toNat ++
          if fill = .left then List.replicate
            (Nat.toDigits (2 ^ bits) (basedArg length w).toNat).length (ch ' ') else [])) := by
  have htext := h.putBased_text_of_le zeroCase (hstep_field hstep) hwidth hlt.le
    (htable.zero (fieldConversion type length fill width).conversion)
    (Nat.min_eq_left (h.length_toDigits_le hlt)) ⟨[], 0⟩
  rw [filled_field, behind_field, zfillChar_field] at htext
  simp only [← hd.exec] at htext
  exact ConversionText.prints (hd.fetch fill width) htext

/-- A number above the limit in a field. -/
theorem BasedFields.prints_of_gt (fill : Fill)
    (hd : BasedFields type length limit shift upper lower zeroCase step d w args)
    (h : Base limit shift upper lower bits L) (hzero : zeroCase = true → bits * L = 63)
    (hstep : fill = .left → step = 1) (hwidth : width < 2 ^ 63)
    (hgt : 2 ^ (bits * L) < (basedArg length w).toNat) :
    Prints (fieldConversion type length fill width).format (.word w :: args)
      (tableByte (fieldConversion type length .spaces 0).conversion upper lower
          ((basedArg length w).toNat / 2 ^ (bits * L)) ::
        (List.replicate (fill.padding width (L + 1)) fill.char ++
          ((DigitList.fixed (2 ^ bits) L ((basedArg length w).toNat % 2 ^ (bits * L))).map
              (tableByte (fieldConversion type length .spaces 0).conversion upper lower) ++
            if fill = .left then List.replicate (L + 1) (ch ' ') else []))) := by
  have hne : zeroCase = true → (basedArg length w).toNat % 2 ^ (bits * L) ≠ 0 := by
    intro hcase
    rw [hzero hcase] at hgt ⊢
    exact mod_limit_ne_zero _ hgt
  have hleft : (fieldConversion type length fill width).conversion.leftAligned = true → step = 1 :=
    hstep_field hstep
  have htext := h.putBased_text_of_gt hleft hwidth hgt hne ⟨[], 0⟩
  rw [filled_field, behind_field, zfillChar_field] at htext
  simp only [← hd.exec] at htext
  exact ConversionText.prints (hd.fetch fill width) htext

/-- Where a value of this magnitude lies as an unsigned number. -/
theorem Base.toNat_basedArg (h : Base limit shift upper lower bits L) (hlimit : 60 ≤ bits * L)
    (hvalue : (signedValue length w).natAbs < 2 ^ 60) :
    (0 ≤ signedValue length w ∧ (basedArg length w).toNat < 2 ^ (bits * L)) ∨
      (signedValue length w < 0 ∧ 2 ^ (bits * L) < (basedArg length w).toNat) := by
  have hlow : 2 ^ 60 ≤ 2 ^ (bits * L) := Nat.pow_le_pow_right (by decide) hlimit
  have hhigh : 2 ^ (bits * L) ≤ 2 ^ 63 :=
    Nat.pow_le_pow_right (by decide) (Nat.lt_succ_iff.mp h.lt)
  have hlt := (basedArg length w).toNat_lt
  rw [signedValue, toInt_toInt64] at hvalue ⊢
  split at hvalue <;> omega

/-- The first digit of a number above the limit does not fill up a field. -/
theorem Base.first_ne_filler (h : Base limit shift upper lower bits L)
    (htable : DigitTable upper lower (2 ^ bits)) {n : UInt64} (hgt : 2 ^ (bits * L) < n.toNat)
    (spec : Conversion) (fill : Fill) :
    tableByte spec upper lower (n.toNat / 2 ^ (bits * L)) ≠ fill.char := by
  have hpow : 0 < 2 ^ (bits * L) := Nat.two_pow_pos _
  have hdigit : n.toNat / 2 ^ (bits * L) < 2 ^ bits := by
    rw [Nat.div_lt_iff_lt_mul hpow, ← pow_add]
    exact n.toNat_lt.trans_le
      (Nat.pow_le_pow_right (by decide) (by have hlast := h.last; omega))
  exact htable.filler spec _ hdigit (Nat.div_pos hgt.le hpow).ne' fill

/-- Without a width there are the digits. -/
theorem BasedFields.prints_plain
    (hd : BasedFields type length limit shift upper lower zeroCase step d w args)
    (h : Base limit shift upper lower bits L) (htable : DigitTable upper lower (2 ^ bits))
    (hzero : zeroCase = true → bits * L = 63)
    (hne : (basedArg length w).toNat ≠ 2 ^ (bits * L)) :
    Prints (fieldConversion type length .spaces 0).format (.word w :: args)
      (tableText (fieldConversion type length .spaces 0).conversion upper lower (2 ^ bits)
        (basedArg length w).toNat) := by
  have hpadding : ∀ n, Fill.spaces.padding 0 n = 0 := fun n => by simp [Fill.padding]
  have hstep : Fill.spaces = .left → step = 1 := nofun
  rcases Nat.lt_or_gt_of_ne hne with hlt | hgt
  · have htext := hd.prints_of_lt .spaces h htable hstep (by decide : 0 < 2 ^ 63) hlt
    rwa [hpadding, if_neg (by decide), List.append_nil, List.replicate_zero,
      List.nil_append] at htext
  · have htext := hd.prints_of_gt .spaces h hzero hstep (by decide : 0 < 2 ^ 63) hgt
    rwa [hpadding, if_neg (by decide), List.append_nil, List.replicate_zero, List.nil_append,
      ← h.tableText_of_le _ _ hgt.le] at htext

theorem tableText_ne_minus (h : Base limit shift upper lower bits L)
    (htable : DigitTable upper lower (2 ^ bits)) (spec : Conversion) (n : ℕ) :
    ∀ c ∈ tableText spec upper lower (2 ^ bits) n, c ≠ ch '-' := by
  intro c hc
  obtain ⟨i, hi, rfl⟩ := List.mem_map.mp hc
  have hlt : n < (2 ^ bits) ^ (Nat.toDigits (2 ^ bits) n).length :=
    (Nat.length_toDigits_le_iff h.one_lt Nat.length_toDigits_pos).mp le_rfl
  exact htable.minus spec i (DigitList.lt_of_mem_fixed (Nat.two_pow_pos bits) hlt hi)

/-- Filling up in front is right for the numbers that are not negative. -/
theorem BasedFields.honoursWidth_right
    (hd : BasedFields type length limit shift upper lower zeroCase step d w args)
    (h : Base limit shift upper lower bits L) (htable : DigitTable upper lower (2 ^ bits))
    (hzero : zeroCase = true → bits * L = 63) (hlimit : 60 ≤ bits * L) (hfill : fill ≠ .left)
    (hwidth : width < 2 ^ 63) (hvalue : (signedValue length w).natAbs < 2 ^ 60) :
    HonoursWidth type length fill width w args ↔ 0 ≤ signedValue length w ∨
      width ≤ (Nat.toDigits (2 ^ bits) (basedArg length w).toNat).length := by
  have hstep : fill = .left → step = 1 := fun hcontra => absurd hcontra hfill
  have hpadding : ∀ n, fill.padding width n = width - n := fun n => if_neg hfill
  set n := (Nat.toDigits (2 ^ bits) (basedArg length w).toNat).length with hn
  set t := tableText (fieldConversion type length .spaces 0).conversion upper lower (2 ^ bits)
    (basedArg length w).toNat with ht
  have hlen : t.length = n := length_tableText _ _ _ _ _
  have hfield : field fill width t = List.replicate (width - n) fill.char ++ t := by
    rw [field_right hfill (tableText_ne_minus h htable _ _), hlen]
  rcases h.toNat_basedArg hlimit hvalue with ⟨hpos, hlt⟩ | ⟨hneg, hgt⟩
  · have htext := hd.prints_of_lt fill h htable hstep hwidth hlt
    rw [if_neg hfill, List.append_nil, hpadding] at htext
    rw [honoursWidth_iff_of_prints (hd.prints_plain h htable hzero hlt.ne) htext]
    exact ⟨fun _ => .inl hpos, fun _ => hfield.symm⟩
  · have htext := hd.prints_of_gt fill h hzero hstep hwidth hgt
    have hdigits : n = L + 1 := h.length_toDigits _ hgt.le
    rw [if_neg hfill, List.append_nil, hpadding, ← hdigits] at htext
    rw [honoursWidth_iff_of_prints (hd.prints_plain h htable hzero hgt.ne') htext, ← ht, hfield,
      ht, h.tableText_of_le _ _ hgt.le]
    constructor
    · intro heq
      right
      by_contra hwide
      -- the first digit stands where the first character of the filling should
      have hsub : width - n = width - n - 1 + 1 := by omega
      rw [hsub, List.replicate_succ, List.cons_append] at heq
      exact h.first_ne_filler htable hgt _ fill (List.cons.inj heq).1
    · rintro (hpos | hle)
      · omega
      · rw [Nat.sub_eq_zero_of_le hle, List.replicate_zero, List.nil_append, List.nil_append]

/-- Behind a left-aligned number there are as many spaces as it has digits. -/
theorem BasedFields.honoursWidth_left
    (hd : BasedFields type length limit shift upper lower zeroCase 1 d w args)
    (h : Base limit shift upper lower bits L) (htable : DigitTable upper lower (2 ^ bits))
    (hzero : zeroCase = true → bits * L = 63) (hlimit : 60 ≤ bits * L) (hwidth : width < 2 ^ 63)
    (hvalue : (signedValue length w).natAbs < 2 ^ 60) :
    HonoursWidth type length .left width w args ↔
      width = 2 * (Nat.toDigits (2 ^ bits) (basedArg length w).toNat).length := by
  have hpadding : ∀ n, Fill.left.padding width n = 0 := fun n => if_pos rfl
  set n := (Nat.toDigits (2 ^ bits) (basedArg length w).toNat).length with hn
  have hnpos : 0 < n := Nat.length_toDigits_pos
  set t := tableText (fieldConversion type length .spaces 0).conversion upper lower (2 ^ bits)
    (basedArg length w).toNat with ht
  have hlen : t.length = n := length_tableText _ _ _ _ _
  -- the field is the text with as many spaces behind it as it has characters
  have htext : (basedArg length w).toNat ≠ 2 ^ (bits * L) ∧
      Prints (fieldConversion type length .left width).format (.word w :: args)
        (t ++ List.replicate n (ch ' ')) := by
    rcases h.toNat_basedArg hlimit hvalue with ⟨hpos, hlt⟩ | ⟨hneg, hgt⟩
    · have htext := hd.prints_of_lt .left h htable (fun _ => rfl) hwidth hlt
      rw [if_pos rfl, hpadding, List.replicate_zero, List.nil_append] at htext
      exact ⟨hlt.ne, htext⟩
    · have htext := hd.prints_of_gt .left h hzero (fun _ => rfl) hwidth hgt
      have hdigits : n = L + 1 := h.length_toDigits _ hgt.le
      rw [if_pos rfl, hpadding, List.replicate_zero, List.nil_append, ← List.cons_append,
        ← h.tableText_of_le _ _ hgt.le, ← hdigits] at htext
      exact ⟨hgt.ne', htext⟩
  rw [honoursWidth_iff_of_prints (hd.prints_plain h htable hzero htext.1) htext.2, ← ht,
    field_left, List.append_cancel_left_eq, hlen]
  constructor
  · intro heq
    have hcount := congrArg List.length heq
    rw [List.length_replicate, List.length_replicate] at hcount
    omega
  · rintro rfl
    congr 1
    omega

/-- Where a left-aligned number is not put out to its end. -/
theorem BasedFields.honoursWidth_of_ends
    (hd : BasedFields type length limit shift upper lower zeroCase step d w args)
    (hends : ∀ spec, (d spec).Ends → spec.leftAligned = false)
    (h : Base limit shift upper lower bits L) (htable : DigitTable upper lower (2 ^ bits))
    (hzero : zeroCase = true → bits * L = 63) (hlimit : 60 ≤ bits * L) (hwidth : width < 2 ^ 63)
    (hvalue : (signedValue length w).natAbs < 2 ^ 60) :
    HonoursWidth type length fill width w args ↔ fill ≠ .left ∧ (0 ≤ signedValue length w ∨
      width ≤ (Nat.toDigits (2 ^ bits) (basedArg length w).toNat).length) := by
  by_cases hfill : fill = .left
  · subst hfill
    constructor
    · rintro ⟨t, -, htext⟩
      have hleft := hends _ (ConversionText.ends_of_prints (hd.fetch .left width) htext)
      rw [leftAligned_field] at hleft
      exact absurd hleft (by decide)
    · exact fun hcontra => absurd rfl hcontra.1
  · rw [and_iff_right hfill]
    exact hd.honoursWidth_right h htable hzero hlimit hfill hwidth hvalue

end Based

/-! ### All conversions -/

section Conversions

variable {length : Length} {fill : Fill} {width : ℕ} {w : UInt64} {args : List Arg}

theorem hexTable : DigitTable hexUpper hexLower 16 where
  zero spec := by
    rw [tableByte]
    cases spec.capitals <;> rfl
  minus spec d hd := by
    have hall : ∀ capitals, ∀ d < 16, hexDigit capitals d ≠ ch '-' := by decide
    rw [tableByte_hex spec hd]
    exact hall spec.capitals d hd
  filler spec d hd hne fill := by
    have hall : ∀ capitals, ∀ d < 16, d ≠ 0 →
        hexDigit capitals d ≠ ch ' ' ∧ hexDigit capitals d ≠ ch '0' := by decide
    rw [tableByte_hex spec hd]
    cases fill with
    | spaces | left => exact (hall spec.capitals d hd hne).1
    | zeros => exact (hall spec.capitals d hd hne).2

/-- A table with the characters of decimal digits. -/
theorem digitTable_of_digitByte {chars : List UInt8} {b : ℕ} (hpos : 0 < b) (hb : b ≤ 10)
    (hchars : ∀ spec, ∀ d < b, tableByte spec chars chars d = digitByte d) :
    DigitTable chars chars b where
  zero spec := hchars spec 0 hpos
  minus spec d hd := by
    have hall : ∀ d < 10, digitByte d ≠ ch '-' := by decide
    rw [hchars spec d hd]
    exact hall d (hd.trans_le hb)
  filler spec d hd hne fill := by
    have hall : ∀ d < 10, d ≠ 0 → digitByte d ≠ ch ' ' ∧ digitByte d ≠ ch '0' := by decide
    rw [hchars spec d hd]
    cases fill with
    | spaces | left => exact (hall d (hd.trans_le hb) hne).1
    | zeros => exact (hall d (hd.trans_le hb) hne).2

theorem octalTable : DigitTable octalChars octalChars 8 :=
  digitTable_of_digitByte (by decide) (by decide) fun spec _ hd => tableByte_octal spec hd

theorem hexFields {type : IntType} (htype : type = .x ∨ type = .capitalX) :
    BasedFields type length ((1 : UInt64) <<< 60) 4 hexUpper hexLower false 1
      (fun spec => .int16 spec w) w args where
  fetch fill width := by rcases htype with rfl | rfl <;> rfl
  exec fill width fuel := by rcases htype with rfl | rfl <;> cases fill <;> rfl

theorem octalFields :
    BasedFields .o length ((1 : UInt64) <<< 63) 3 octalChars octalChars true 0
      (fun spec => .int8 spec w) w args where
  fetch fill width := rfl
  exec fill width fuel := by cases fill <;> rfl

theorem honoursWidth_hex {type : IntType} (htype : type = .x ∨ type = .capitalX)
    (hwidth : width < 2 ^ 63) (hvalue : (signedValue length w).natAbs < 2 ^ 60) :
    HonoursWidth type length fill width w args ↔
      if fill = .left then width = 2 * (Nat.toDigits 16 (basedArg length w).toNat).length
      else 0 ≤ signedValue length w ∨
        width ≤ (Nat.toDigits 16 (basedArg length w).toNat).length := by
  have hzero : false = true → 4 * 15 = 63 := nofun
  split
  · next hfill =>
    subst hfill
    exact (hexFields htype).honoursWidth_left base16 hexTable hzero (by decide) hwidth hvalue
  · next hfill =>
    exact (hexFields htype).honoursWidth_right base16 hexTable hzero (by decide) hfill hwidth hvalue

theorem fetch_binaryField (fill : Fill) (width : ℕ) :
    fetch (fieldConversion .b length fill width).conversion (.word w :: args) =
      .ok (.int2 (fieldConversion .b length fill width).conversion w, args) := rfl

/-- A binary number up to 2 in a field. -/
theorem prints_binaryField (args : List Arg) (fill : Fill) (hwidth : width < 2 ^ 63)
    (hnum : basedArg length w ≤ 2) (hleft : fill = .left → basedArg length w ≤ 1) :
    Prints (fieldConversion .b length fill width).format (.word w :: args)
      (binaryFront (basedArg length w) ++
        (List.replicate (fill.padding width (binaryFront (basedArg length w)).length) fill.char ++
          binaryBack (basedArg length w))) := by
  have htext := putBinary_text (fieldConversion .b length fill width).conversion hnum
    (fun hflag => hleft (by simpa [leftAligned_field] using hflag)) hwidth ⟨[], 0⟩
  rw [filled_field, zfillChar_field] at htext
  refine ConversionText.prints (fetch_binaryField fill width) ?_
  cases fill <;> exact htext

theorem binaryParts_ne_minus (num : UInt64) :
    ∀ c ∈ binaryFront num ++ binaryBack num, c ≠ ch '-' := by
  have hzero : (0 : UInt8) ≠ ch '-' ∧ ch '0' ≠ ch '-' := by decide
  unfold binaryFront binaryBack
  split <;> split <;> simp [hzero]

/-- The fields of the three binary numbers that have one. -/
theorem binaryField_iff {num : UInt64} (hnum : num ≤ 2) (hleft : fill = .left → num ≤ 1) :
    binaryFront num ++ (List.replicate (fill.padding width (binaryFront num).length) fill.char ++
        binaryBack num) = field fill width (binaryFront num ++ binaryBack num) ↔
      BinaryWidthOk fill width num := by
  have hne : (1 : UInt64) ≠ 0 ∧ (2 : UInt64) ≠ 0 ∧ (0 : UInt64) ≠ 1 ∧ (0 : UInt64) ≠ 2 ∧
      (2 : UInt64) ≠ 1 ∧ (1 : UInt64) ≠ 2 := by decide
  by_cases hfill : fill = .left
  · subst hfill
    rw [field_left, Fill.padding, if_pos rfl, List.replicate_zero, List.nil_append]
    rcases le_two_cases hnum with rfl | rfl | rfl
    · simp [binaryFront, binaryBack, BinaryWidthOk, hne, Nat.sub_eq_zero_iff_le]
    · simp [binaryFront, binaryBack, BinaryWidthOk, hne]
    · exact absurd (hleft rfl) (by decide)
  · rw [field_right hfill (binaryParts_ne_minus num), Fill.padding, if_neg hfill]
    rcases le_two_cases hnum with rfl | rfl | rfl
    · constructor
      · intro heq
        -- the filling leaves no room for the digit
        have hlen := congrArg List.length heq
        simp [binaryFront, binaryBack, hne] at hlen
        exact .inl ⟨rfl, by rw [if_neg hfill]; omega⟩
      · intro hok
        have hzero : width = 0 := by simpa [BinaryWidthOk, hne, hfill] using hok
        simp [binaryFront, binaryBack, hne, hzero]
    · simp [binaryFront, binaryBack, BinaryWidthOk, hne, hfill]
    · constructor
      · intro heq
        have hlen := congrArg List.length heq
        simp [binaryFront, binaryBack, hne] at hlen
        exact .inr (.inr ⟨rfl, hfill, by omega⟩)
      · intro hok
        have hle : width ≤ 1 := by simpa [BinaryWidthOk, hne, hfill] using hok
        have hone : width - 1 = 0 := by omega
        have htwo : width - 2 = 0 := by omega
        simp [binaryFront, binaryBack, hne, hone, htwo]

/-- The numbers that have no field. -/
theorem not_binaryWidthOk {num : UInt64} (h : ¬ (num ≤ 2 ∧ (fill = .left → num ≤ 1))) :
    ¬ BinaryWidthOk fill width num := by
  rintro (⟨rfl, -⟩ | ⟨rfl, -⟩ | ⟨rfl, hfill, -⟩)
  · exact h ⟨by decide, fun _ => by decide⟩
  · exact h ⟨by decide, fun _ => by decide⟩
  · exact h ⟨by decide, fun hcontra => absurd hcontra hfill⟩

theorem honoursWidth_binary (hwidth : width < 2 ^ 63) :
    HonoursWidth .b length fill width w args ↔ BinaryWidthOk fill width (basedArg length w) := by
  by_cases hok : basedArg length w ≤ 2 ∧ (fill = .left → basedArg length w ≤ 1)
  · have ht := prints_binaryField args .spaces (by decide : 0 < 2 ^ 63) hok.1 nofun
    have htext := prints_binaryField args fill hwidth hok.1 hok.2
    have hpadding : ∀ n, Fill.spaces.padding 0 n = 0 := fun n => by simp [Fill.padding]
    rw [hpadding, List.replicate_zero, List.nil_append] at ht
    rw [honoursWidth_iff_of_prints ht htext]
    exact binaryField_iff hok.1 hok.2
  · refine iff_of_false ?_ (not_binaryWidthOk hok)
    rintro ⟨t, -, htext⟩
    have hends := ConversionText.ends_of_prints (fetch_binaryField fill width) htext
    refine hok ⟨hends.1, fun hfill => hends.2 ?_⟩
    rw [leftAligned_field, hfill]
    rfl

/-- When a width is honoured, for every conversion of integers. -/
theorem honoursWidth_iff (type : IntType) (length : Length) (fill : Fill) {width : ℕ}
    (hwidth : width < 2 ^ 31) {w : UInt64} (hvalue : (argValue type length w).natAbs < 2 ^ 60)
    (args : List Arg) :
    HonoursWidth type length fill width w args ↔ WidthOk type length fill width w := by
  have hwidth : width < 2 ^ 63 := hwidth.trans (by decide)
  have hten : (argValue type length w).natAbs < 10 ^ 19 := hvalue.trans (by decide)
  cases type with
  | d => exact honoursWidth_signed (fun _ _ => rfl) hten hwidth
  | i => exact honoursWidth_signed (fun _ _ => rfl) hten hwidth
  | u => exact honoursWidth_unsigned hten hwidth
  | x => exact honoursWidth_hex (.inl rfl) hwidth hvalue
  | capitalX => exact honoursWidth_hex (.inr rfl) hwidth hvalue
  | o =>
    exact octalFields.honoursWidth_of_ends (fun _ h => h) base8 octalTable (fun _ => rfl)
      (by decide) hwidth hvalue
  | b => exact honoursWidth_binary hwidth

/-- `%5d` of 42. -/
theorem honoursWidth_42 : HonoursWidth .d .lengthMax .spaces 5 42 [] :=
  (honoursWidth_iff .d .lengthMax .spaces (by decide) (by decide) []).mpr
    ⟨fun _ => by decide, .inl (by decide)⟩

/-- `%5d` of -5: the sign comes before the spaces. -/
theorem honoursWidth_fails :
    ¬ ∀ (type : IntType) (length : Length) (fill : Fill) (width : ℕ) (w : UInt64)
      (args : List Arg), width < 2 ^ 31 → (argValue type length w).natAbs < 2 ^ 60 →
        HonoursWidth type length fill width w args := by
  intro h
  have hfield := h .d .lengthMax .spaces 5 0xFFFFFFFB [] (by decide) (by decide)
  have hok := (honoursWidth_signed (fun _ _ => rfl) (by decide) (by decide)).mp hfield
  rcases hok.2 with hpos | hwide
  · exact absurd hpos (by decide)
  · exact absurd hwide (by decide)

end Conversions

end Printf

end Betelgeuse
