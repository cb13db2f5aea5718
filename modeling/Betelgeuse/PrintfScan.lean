/-
Conversions as they are written.

`ConversionText` is a conversion as a format spells it: flags, a width, a length and a
type.  Wherever it stands in a format, the scanner finds in it what was written
(`scan_text`), so the directive there is the one of its type (`directiveAt_text`).  A
call whose format is one conversion is then that directive (`prints_iff`), and has one
text at most (`Prints.unique`).
-/
import Betelgeuse.PrintfOutput
import Betelgeuse.PrintfTermination

open WhileLoop

namespace Betelgeuse

namespace Printf

/-! ### Texts in a format -/

/-- The text stands in the format at the index. -/
def TextAt (format : CString) (index : ℕ) (text : List UInt8) : Prop :=
  text <+: format.bytes.drop index

section TextAt

variable {format : CString} {index : ℕ} {c : UInt8} {text text' : List UInt8}

theorem TextAt.charAt (h : TextAt format index (c :: text)) :
    Printf.charAt format index = .ok c := by
  obtain ⟨rest, hrest⟩ := h
  have hget : format.bytes[index]? = some c := by
    have hdrop : (format.bytes.drop index)[0]? = format.bytes[index + 0]? := List.getElem?_drop
    rw [← hrest] at hdrop
    exact hdrop.symm
  obtain ⟨hlt, heq⟩ := List.getElem?_eq_some_iff.mp hget
  simp [Printf.charAt, hlt, heq]

theorem TextAt.append_right (h : TextAt format index (text ++ text')) :
    TextAt format (index + text.length) text' := by
  obtain ⟨rest, hrest⟩ := h
  refine ⟨rest, ?_⟩
  rw [← List.drop_drop, ← hrest, List.append_assoc, List.drop_left]

theorem TextAt.next (h : TextAt format index (c :: text)) : TextAt format (index + 1) text := by
  rw [← List.singleton_append] at h
  exact h.append_right

theorem TextAt.length_le (h : TextAt format index text) : text.length ≤ format.bytes.length := by
  have hle : text.length ≤ (format.bytes.drop index).length := List.IsPrefix.length_le h
  rw [List.length_drop] at hle
  omega

end TextAt

/-! ### Flags -/

/-- The characters of the flags. -/
def flagChars : List UInt8 := [ch '-', ch '+', ch ' ', ch '0', 39, ch '#']

/-- What the flags set. -/
def Conversion.withFlags (spec : Conversion) (flags : List UInt8) : Conversion :=
  { spec with
    leftAligned := flags.contains (ch '-') || spec.leftAligned
    prependPos := flags.contains (ch '+') || spec.prependPos
    prependSpace := flags.contains (ch ' ') || spec.prependSpace
    zeroFill := flags.contains (ch '0') || spec.zeroFill
    thousandsSeparator := flags.contains 39 || spec.thousandsSeparator
    numPrefix := flags.contains (ch '#') || spec.numPrefix }

section Flags

variable {format : CString} {index : ℕ} {c : UInt8} {flags text : List UInt8} {spec : Conversion}

theorem setFlag_of_mem (hc : c ∈ flagChars) (spec : Conversion) :
    setFlag c spec = some (spec.withFlags [c]) := by
  simp only [flagChars, List.mem_cons, List.not_mem_nil, or_false] at hc
  rcases hc with rfl | rfl | rfl | rfl | rfl | rfl <;> rfl

theorem setFlag_of_notMem (hc : c ∉ flagChars) (spec : Conversion) : setFlag c spec = none := by
  simp only [flagChars, List.mem_cons, List.not_mem_nil, or_false, not_or] at hc
  simp [setFlag, hc]

@[simp] theorem withFlags_nil (spec : Conversion) : spec.withFlags [] = spec := by
  simp [Conversion.withFlags]

theorem withFlags_cons (spec : Conversion) (c : UInt8) (flags : List UInt8) :
    spec.withFlags (c :: flags) = (spec.withFlags [c]).withFlags flags := by
  simp [Conversion.withFlags, Bool.or_left_comm, Bool.or_assoc]

theorem scanFlags_text (hflags : ∀ c ∈ flags, c ∈ flagChars) (hc : c ∉ flagChars) {n : ℕ}
    (hn : flags.length < n) (h : TextAt format index (flags ++ c :: text)) :
    scanFlags format n index spec = .ok (index + flags.length, spec.withFlags flags) := by
  induction flags generalizing index spec n with
  | nil =>
    obtain ⟨n, rfl⟩ : ∃ k, n = k + 1 := ⟨n - 1, by simp at hn; omega⟩
    rw [scanFlags, h.charAt, ok_bind, setFlag_of_notMem hc]
    simp [pure, Except.pure]
  | cons f flags ih =>
    obtain ⟨hf, hflags⟩ := List.forall_mem_cons.mp hflags
    obtain ⟨n, rfl⟩ : ∃ k, n = k + 1 := ⟨n - 1, by simp at hn; omega⟩
    rw [scanFlags, TextAt.charAt h, ok_bind, setFlag_of_mem hf]
    show scanFlags format n (index + 1) (spec.withFlags [f]) = _
    rw [ih hflags (by simpa using hn) h.next, withFlags_cons spec f flags,
      List.length_cons,
      Nat.add_right_comm, Nat.add_assoc]

end Flags

/-! ### The width -/

/-- The digits of a width; 0 stands for none. -/
def widthChars (width : ℕ) : List Char := if width = 0 then [] else Nat.toDigits 10 width

/-- A width as it is written. -/
def widthText (width : ℕ) : List UInt8 := (widthChars width).map ch

section Width

variable {format : CString} {index : ℕ} {c : UInt8} {text : List UInt8} {args : List Arg}

theorem exists_digitChar {x : Char} (hx : x.isDigit = true) : ∃ d < 10, x = d.digitChar := by
  have hbounds : 48 ≤ x.toNat ∧ x.toNat ≤ 57 := Char.isDigit_iff_toNat.mp hx
  refine ⟨x.toNat - 48, by omega, Char.toNat_inj.mp ?_⟩
  rw [Nat.toNat_digitChar_of_lt_ten (by omega)]
  omega

/-- What the scanner does with a digit. -/
theorem scanNumber_digit {x : Char} (hx : x.isDigit = true) (value : ℕ) :
    (ch '0' ≤ ch x ∧ ch x ≤ ch '9') ∧
      UInt64.ofNat value * 10 + (ch x - ch '0').toUInt64 =
        UInt64.ofNat (10 * value + (x.toNat - '0'.toNat)) := by
  obtain ⟨d, hd, rfl⟩ := exists_digitChar hx
  have hall : ∀ d < 10, (ch '0' ≤ ch d.digitChar ∧ ch d.digitChar ≤ ch '9') ∧
      (ch d.digitChar - ch '0').toUInt64 = UInt64.ofNat (d.digitChar.toNat - '0'.toNat) := by decide
  obtain ⟨hrange, hvalue⟩ := hall d hd
  refine ⟨hrange, ?_⟩
  rw [hvalue, Nat.mul_comm, UInt64.ofNat_add, UInt64.ofNat_mul]
  rfl

theorem scanNumber_text {xs : List Char} (hxs : ∀ x ∈ xs, x.isDigit = true)
    (hc : ¬ (ch '0' ≤ c ∧ c ≤ ch '9')) {n : ℕ} (hn : xs.length < n)
    (h : TextAt format index (xs.map ch ++ c :: text)) (value : ℕ) :
    scanNumber format n index (UInt64.ofNat value) =
      .ok (index + xs.length, UInt64.ofNat (Nat.ofDigitChars 10 xs value)) := by
  induction xs generalizing index value n with
  | nil =>
    obtain ⟨n, rfl⟩ : ∃ k, n = k + 1 := ⟨n - 1, by simp at hn; omega⟩
    rw [scanNumber, h.charAt, ok_bind, if_neg hc]
    rfl
  | cons x xs ih =>
    obtain ⟨hx, hxs⟩ := List.forall_mem_cons.mp hxs
    obtain ⟨n, rfl⟩ : ∃ k, n = k + 1 := ⟨n - 1, by simp at hn; omega⟩
    obtain ⟨hrange, hvalue⟩ := scanNumber_digit hx value
    rw [scanNumber, TextAt.charAt h, ok_bind, if_pos hrange, hvalue,
      ih hxs (by simpa using hn) h.next, Nat.ofDigitChars_cons, List.length_cons,
      Nat.add_right_comm, Nat.add_assoc]

theorem isDigit_of_mem_widthChars {width : ℕ} {x : Char} (hx : x ∈ widthChars width) :
    x.isDigit = true := by
  rw [widthChars] at hx
  split at hx
  · cases hx
  · exact Nat.isDigit_of_mem_toDigits (by decide) (by decide) hx

theorem ofDigitChars_widthChars (width : ℕ) :
    Nat.ofDigitChars 10 (widthChars width) 0 = width := by
  rw [widthChars]
  split
  · next hzero => rw [hzero, Nat.ofDigitChars_nil]
  · exact Nat.ofDigitChars_ten_toDigits

/-- A width does not begin with a flag or an asterisk if what comes behind it does not. -/
theorem widthText_append (hc : c ∉ flagChars ∧ c ≠ ch '*') (width : ℕ) (text : List UInt8) :
    ∃ a rest, widthText width ++ c :: text = a :: rest ∧ a ∉ flagChars ∧ a ≠ ch '*' := by
  by_cases hwidth : width = 0
  · exact ⟨c, text, by simp [widthText, widthChars, hwidth], hc⟩
  obtain ⟨x, xs, hxs⟩ := List.exists_cons_of_ne_nil (Nat.toDigits_ne_nil (n := width) (b := 10))
  have hzero : x ≠ '0' := by
    rintro rfl
    exact DigitList.head_toDigits_ne_zero hwidth (by rw [hxs]; rfl)
  have hx : x ∈ widthChars width := by simp [widthChars, hwidth, hxs]
  obtain ⟨d, hd, rfl⟩ := exists_digitChar (isDigit_of_mem_widthChars hx)
  have hall : ∀ d < 10, d.digitChar ≠ '0' →
      ch d.digitChar ∉ flagChars ∧ ch d.digitChar ≠ ch '*' := by decide
  exact ⟨ch d.digitChar, xs.map ch ++ c :: text, by simp [widthText, widthChars, hwidth, hxs],
    hall d hd hzero⟩

/-- A width that is no asterisk is read as a number. -/
theorem scanWidth_text {width : ℕ} (hc : c ∉ flagChars ∧ c ≠ ch '*')
    (hdigit : ¬ (ch '0' ≤ c ∧ c ≤ ch '9')) (h : TextAt format index (widthText width ++ c :: text))
    (args : List Arg) :
    scanWidth format index args =
      .ok (index + (widthText width).length, UInt64.ofNat width, args) := by
  obtain ⟨a, rest, heq, -, hstar⟩ := widthText_append hc width text
  have hchar : charAt format index = .ok a := TextAt.charAt (heq ▸ h)
  have hlen := h.length_le
  simp only [widthText, List.length_append, List.length_map, List.length_cons] at hlen
  have hnumber := scanNumber_text (fun x hx => isDigit_of_mem_widthChars hx) hdigit
    (by omega : (widthChars width).length < format.bytes.length + 1) h 0
  rw [ofDigitChars_widthChars] at hnumber
  rw [scanWidth, hchar, ok_bind, if_neg hstar, show (0 : UInt64) = UInt64.ofNat 0 from rfl,
    hnumber, widthText, List.length_map]
  rfl

end Width

/-! ### The length and the type -/

/-- A length as it is written. -/
def Length.text : Length → List UInt8
  | .halfHalf => [ch 'h', ch 'h']
  | .half => [ch 'h']
  | .long => [ch 'l']
  | .longLong => [ch 'l', ch 'l']
  | .longDouble => [ch 'L']
  | .sizeT => [ch 'z']
  | .intMaxT => [ch 'j']
  | .ptrDiffT => [ch 't']
  | .lengthMax => []

/-- The characters with which a length begins. -/
def lengthChars : List UInt8 := [ch 'h', ch 'l', ch 'L', ch 'z', ch 'j', ch 't']

/-- The character belongs to none of the parts in front of the length. -/
structure BehindWidth (c : UInt8) : Prop where
  notFlag : c ∉ flagChars
  notStar : c ≠ ch '*'
  notDigit : ¬ (ch '0' ≤ c ∧ c ≤ ch '9')
  notDot : c ≠ ch '.'

section LengthAndType

variable {format : CString} {index : ℕ} {c : UInt8} {text : List UInt8} {args : List Arg}

theorem scanLength_text {length : Length} (hc : c ∉ lengthChars)
    (h : TextAt format index (length.text ++ c :: text)) :
    scanLength format index = .ok (index + length.text.length, length) := by
  simp only [lengthChars, List.mem_cons, List.not_mem_nil, or_false, not_or] at hc
  cases length with
  | halfHalf | longLong =>
    simp only [scanLength, TextAt.charAt h, TextAt.charAt (TextAt.next h), ok_bind]
    rfl
  | half | long =>
    simp only [scanLength, TextAt.charAt h, TextAt.charAt (TextAt.next h), ok_bind, hc]
    rfl
  | longDouble | sizeT | intMaxT | ptrDiffT =>
    simp only [scanLength, TextAt.charAt h, ok_bind]
    rfl
  | lengthMax =>
    simp only [scanLength, TextAt.charAt h, ok_bind, hc]
    rfl

theorem behindWidth_of_mem_lengthChars (hc : c ∈ lengthChars) : BehindWidth c := by
  simp only [lengthChars, List.mem_cons, List.not_mem_nil, or_false] at hc
  rcases hc with rfl | rfl | rfl | rfl | rfl | rfl <;> constructor <;> decide

/-- A type is written with a character of its own. -/
theorem behindWidth_of_typeOf (hc : (typeOf c).1 ≠ .formatTypeMax) :
    BehindWidth c ∧ c ∉ lengthChars ∧ c ≠ 0 := by
  have hnot : ∀ l : List UInt8, (l.all fun a => (typeOf a).1 = .formatTypeMax) = true → c ∉ l :=
    fun l hl hmem => hc (of_decide_eq_true (List.all_eq_true.mp hl c hmem))
  have hdigit : ¬ (ch '0' ≤ c ∧ c ≤ ch '9') := by
    rintro ⟨hlow, hhigh⟩
    refine hnot ((List.range' 48 10).map UInt8.ofNat) (by decide)
      (List.mem_map.mpr ⟨c.toNat, ?_, ?_⟩)
    · have hlow : 48 ≤ c.toNat := UInt8.le_iff_toNat_le.mp hlow
      have hhigh : c.toNat ≤ 57 := UInt8.le_iff_toNat_le.mp hhigh
      rw [List.mem_range'_1]
      omega
    · exact UInt8.ofNat_toNat
  have hzero := hnot [0] (by decide)
  have hstar := hnot [ch '*'] (by decide)
  have hdot := hnot [ch '.'] (by decide)
  rw [List.mem_singleton] at hzero hstar hdot
  exact ⟨⟨hnot flagChars (by decide), hstar, hdigit, hdot⟩, hnot lengthChars (by decide), hzero⟩

/-- What comes behind a width: the length, if there is one, or the type. -/
theorem length_append (hc : BehindWidth c) (length : Length) :
    ∃ a rest, length.text ++ [c] = a :: rest ∧ BehindWidth a := by
  have hlength : ∀ a ∈ lengthChars, ∀ rest : List UInt8, length.text = a :: rest →
      ∃ a rest, length.text ++ [c] = a :: rest ∧ BehindWidth a := fun a ha rest heq =>
    ⟨a, rest ++ [c], by rw [heq]; rfl, behindWidth_of_mem_lengthChars ha⟩
  cases length with
  | lengthMax => exact ⟨c, [], rfl, hc⟩
  | halfHalf | half => exact hlength (ch 'h') (by decide) _ rfl
  | long | longLong => exact hlength (ch 'l') (by decide) _ rfl
  | longDouble => exact hlength (ch 'L') (by decide) _ rfl
  | sizeT => exact hlength (ch 'z') (by decide) _ rfl
  | intMaxT => exact hlength (ch 'j') (by decide) _ rfl
  | ptrDiffT => exact hlength (ch 't') (by decide) _ rfl

end LengthAndType

/-! ### Whole conversions -/

theorem isFlag_nil : ∀ c ∈ ([] : List UInt8), c ∈ flagChars :=
  fun _ hc => absurd hc List.not_mem_nil

/-- A conversion as it is written, without a precision: its flags, its width (0 for none), its
length and its type. -/
structure ConversionText where
  flags : List UInt8
  width : ℕ
  length : Length
  type : UInt8
  isFlag : ∀ c ∈ flags, c ∈ flagChars
  isType : (typeOf type).1 ≠ .formatTypeMax

namespace ConversionText

/-- Its characters. -/
def bytes (t : ConversionText) : List UInt8 :=
  ch '%' :: (t.flags ++ (widthText t.width ++ (t.length.text ++ [t.type])))

/-- What it says. -/
def conversion (t : ConversionText) : Conversion :=
  { Conversion.initial.withFlags t.flags with
    formatType := (typeOf t.type).1
    capitals := (typeOf t.type).2
    formatLength := t.length
    formatWidth := UInt64.ofNat t.width }

variable (t : ConversionText)

@[simp] theorem conversion_prependPos :
    t.conversion.prependPos = t.flags.contains (ch '+') := by
  simp [conversion, Conversion.withFlags, Conversion.initial]

@[simp] theorem conversion_prependSpace :
    t.conversion.prependSpace = t.flags.contains (ch ' ') := by
  simp [conversion, Conversion.withFlags, Conversion.initial]

@[simp] theorem conversion_thousandsSeparator :
    t.conversion.thousandsSeparator = t.flags.contains 39 := by
  simp [conversion, Conversion.withFlags, Conversion.initial]

theorem noNul : 0 ∉ t.bytes := by
  intro hmem
  simp only [bytes, widthText, List.mem_cons, List.mem_append, List.mem_map, List.not_mem_nil,
    or_false] at hmem
  rcases hmem with hpercent | hflag | ⟨x, hx, hwidth⟩ | hlength | htype
  · exact absurd hpercent (by decide)
  · exact absurd (t.isFlag 0 hflag) (by decide)
  · obtain ⟨d, hd, rfl⟩ := exists_digitChar (isDigit_of_mem_widthChars hx)
    have hall : ∀ d < 10, ch d.digitChar ≠ 0 := by decide
    exact hall d hd hwidth
  · cases hlen : t.length <;> rw [hlen] at hlength <;> exact absurd hlength (by decide)
  · exact (behindWidth_of_typeOf t.isType).2.2 htype.symm

/-- The format that is this conversion alone. -/
def format : CString := ⟨t.bytes, t.noNul⟩

/-- The scanner finds what is written. -/
theorem scan_text {format : CString} {index : ℕ} (h : TextAt format index t.bytes)
    (args : List Arg) :
    ∃ i, i + 1 = index + t.bytes.length ∧
      scan format (index + 1) args = .ok (i, t.conversion, args) := by
  obtain ⟨htype, hnotLength, -⟩ := behindWidth_of_typeOf t.isType
  obtain ⟨b, rest, hb, hbehind⟩ := length_append htype t.length
  have hnotWidth : b ∉ flagChars ∧ b ≠ ch '*' := ⟨hbehind.notFlag, hbehind.notStar⟩
  obtain ⟨a, rest', ha, hflag, -⟩ := widthText_append hnotWidth t.width rest
  have hlen := h.length_le
  -- where each of the parts stands
  have hflags : TextAt format (index + 1) (t.flags ++ a :: rest') := by
    rw [← ha, ← hb]
    exact TextAt.next h
  have hwidth : TextAt format (index + 1 + t.flags.length) (widthText t.width ++ b :: rest) :=
    ha ▸ hflags.append_right
  have hlength : TextAt format (index + 1 + t.flags.length + (widthText t.width).length)
      (t.length.text ++ [t.type]) := hb ▸ hwidth.append_right
  have hcharType := hlength.append_right.charAt
  have hcharBehind : charAt format (index + 1 + t.flags.length + (widthText t.width).length) =
      .ok b := TextAt.charAt (hb ▸ hlength)
  have hfuel : t.flags.length < format.bytes.length + 1 := by
    simp only [bytes, List.length_cons, List.length_append] at hlen
    omega
  have hprecision : scanPrecision format
      (index + 1 + t.flags.length + (widthText t.width).length) =
        .ok (index + 1 + t.flags.length + (widthText t.width).length, 0) := by
    rw [scanPrecision, hcharBehind, ok_bind, if_neg hbehind.notDot]
    rfl
  refine ⟨index + 1 + t.flags.length + (widthText t.width).length + t.length.text.length, ?_, ?_⟩
  · simp only [bytes, List.length_cons, List.length_append, List.length_nil]
    omega
  · simp only [scan, scanFlags_text t.isFlag hflag hfuel hflags, ok_bind,
      scanWidth_text hnotWidth hbehind.notDigit hwidth, hprecision,
      scanLength_text hnotLength hlength, hcharType]
    rfl

/-- The directive at a conversion. -/
theorem directiveAt_text {format : CString} {index : ℕ} (h : TextAt format index t.bytes)
    {args args' : List Arg} {d : Directive} (hfetch : fetch t.conversion args = .ok (d, args')) :
    ∃ i, i + 1 = index + t.bytes.length ∧ directiveAt format index args = .ok (d, i, args') := by
  obtain ⟨i, hi, hscan⟩ := t.scan_text h args
  have hbackslash : ch '%' ≠ 92 := by decide
  refine ⟨i, hi, ?_⟩
  simp only [directiveAt, TextAt.charAt h, ok_bind, if_neg hbackslash, conversionAt, hscan, hfetch,
    ne_eq, not_true_eq_false, if_false]
  rfl

/-- The directives of a format that is one conversion. -/
theorem directives_format {args args' : List Arg} {d : Directive}
    (hfetch : fetch t.conversion args = .ok (d, args')) : directives t.format args = .ok [d] := by
  have hstart : TextAt t.format 0 t.bytes := List.prefix_rfl
  obtain ⟨i, hi, hd⟩ := t.directiveAt_text hstart hfetch
  rw [Nat.zero_add] at hi
  have hlen : t.format.bytes.length = i + 1 := hi.symm
  have hrest : directivesFrom t.format (i + 1) (i + 1) args' = .ok [] := by
    rw [directivesFrom, hlen, if_neg (Nat.lt_irrefl _)]
  rw [directives, hlen, directivesFrom, hlen, if_pos (Nat.succ_pos i), hd]
  show (directivesFrom t.format (i + 1) (i + 1) args' >>= fun ds => .ok (d :: ds)) = .ok [d]
  rw [hrest, ok_bind]

end ConversionText

/-! ### What a call prints -/

/-- The call returns, and it has put out the text and nothing else. -/
def Prints (format : CString) (args : List Arg) (text : List UInt8) : Prop :=
  Yields (fun fuel => printf fuel format args) (text.length, text.map .put)

theorem printf_stable (format : CString) (args : List Arg) :
    Stable fun fuel => printf fuel format args := by
  have hloop : ∀ n index args io, Stable fun fuel => printfLoop format fuel n index args io := by
    intro n
    induction n with
    | zero =>
      intro index args io
      show Stable fun _ => (Except.error Stop.fuel : Except Stop Io)
      exact Stable.const _
    | succ n ih =>
      intro index args io
      refine Stable.ite ?_ (Stable.const (.ok io))
      exact (Stable.const _).bind fun r => (exec_stable io r.1).bind fun io' => ih _ _ io'
  exact (hloop _ 0 args _).bind fun io => Stable.const (.ok (io.numCharsWritten, io.events))

/-- There is one text at most. -/
theorem Prints.unique {format : CString} {args : List Arg} {text text' : List UInt8}
    (h : Prints format args text) (h' : Prints format args text') : text = text' := by
  have heq := (printf_stable format args).unique h h'
  have hevents : text.map Event.put = text'.map Event.put := congrArg Prod.snd heq
  exact List.map_injective_iff.mpr (fun _ _ hput => Event.put.inj hput) hevents

/-- A call whose format is one conversion prints what its directive puts out. -/
theorem ConversionText.prints {t : ConversionText} {args args' : List Arg} {d : Directive}
    {text : List UInt8} (hfetch : fetch t.conversion args = .ok (d, args'))
    (hd : Yields (fun fuel => d.exec fuel ⟨[], 0⟩) (Io.putText ⟨[], 0⟩ text)) :
    Prints t.format args text := by
  obtain ⟨fuel, hfuel⟩ := hd
  refine ⟨fuel, ?_⟩
  beta_reduce at hfuel ⊢
  rw [printf_eq_of_directives (t.directives_format hfetch), List.foldlM_cons, hfuel]
  simp [Io.putText]

/-- The directive of a call that prints something ends. -/
theorem ConversionText.ends_of_prints {t : ConversionText} {args args' : List Arg} {d : Directive}
    {text : List UInt8} (hfetch : fetch t.conversion args = .ok (d, args'))
    (h : Prints t.format args text) : d.Ends :=
  (halts_iff_of_directives (t.directives_format hfetch)).mp ⟨_, h⟩ d (List.mem_singleton.mpr rfl)

end Printf

end Betelgeuse
