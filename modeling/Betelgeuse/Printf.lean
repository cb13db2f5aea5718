/-
`printf` (`libc/stdio/printf.c`).

The loop over the format takes one directive after the other: a literal character,
or a conversion with its flags, width and length and the argument that `va_arg`
gives for it (`directiveAt`).  `Directive.exec` is the `switch` over the types.
The loops of a conversion run with fuel; those over the format have at most one
round for each character of it.

What a call does is the list of its `putchar` calls and of the stores of `%n`, in
order.  `num_chars_written` is a variable of its own and is counted up where the
source does so, as an unbounded number.

Arguments are those that are passed in integer registers; the conversions for
floating point take none.  `-num_in` is read as two's complement.  The limit of the
binary conversion, `1 << 63`, is a shift of an `int` by more than its width, for which
the compiler takes 0 (`intLimit`); those of the other two are `1LLU << 60` and
`1LLU << 63`.
-/
import Betelgeuse.WhileLoop

open WhileLoop

namespace Betelgeuse

/-- A NUL-terminated string: the bytes in front of the terminator. -/
structure CString where
  bytes : List UInt8
  noNul : 0 ∉ bytes

namespace Printf

/-- Why there is no result: the fuel is used up, there is no argument of the type
that `va_arg` is asked for, a division by zero, or a read behind the end of an
array. -/
inductive Stop where
  | fuel
  | argument
  | division
  | bounds
  deriving DecidableEq

/-- `enum FormatType`. -/
inductive FormatType where
  | char
  | floatExp
  | floatFixed
  | floatOpt
  | hexFloat
  | int16
  | int10
  | int8
  | int2
  | uint10
  | string
  | percent
  | nChars
  | formatTypeMax
  deriving DecidableEq

/-- `enum Length`. -/
inductive Length where
  | halfHalf
  | half
  | long
  | longLong
  | longDouble
  | sizeT
  | intMaxT
  | ptrDiffT
  | lengthMax
  deriving DecidableEq

/-- An argument: a number in a 64-bit register, a `char *` or an `int *`. -/
inductive Arg where
  | word (w : UInt64)
  | string (str : CString)
  | pointer (n : UInt64)

/-- `putchar(c)`, or `*n = value`. -/
inductive Event where
  | put (c : UInt8)
  | store (n : UInt64) (value : ℕ)
  deriving DecidableEq

/-- The output so far, and `num_chars_written`. -/
structure Io where
  events : List Event
  numCharsWritten : ℕ
  deriving DecidableEq

namespace Io

variable (s : Io)

/-- `putchar(c)`. -/
def putchar (c : UInt8) : Io := { s with events := s.events ++ [.put c] }

/-- `num_chars_written++`. -/
def count : Io := { s with numCharsWritten := s.numCharsWritten + 1 }

/-- `*n = num_chars_written`. -/
def store (n : UInt64) : Io := { s with events := s.events ++ [.store n s.numCharsWritten] }

end Io

/-- The code of a character. -/
abbrev ch (c : Char) : UInt8 := c.toUInt8

/-- The variables that the scanner sets. -/
structure Conversion where
  formatType : FormatType
  formatLength : Length
  formatWidth : UInt64
  formatPrecision : UInt64
  numPrefix : Bool
  leftAligned : Bool
  zeroFill : Bool
  prependPos : Bool
  prependSpace : Bool
  capitals : Bool
  thousandsSeparator : Bool
  deriving DecidableEq

/-- Their initial values. -/
def Conversion.initial : Conversion where
  formatType := .formatTypeMax
  formatLength := .lengthMax
  formatWidth := 0
  formatPrecision := 0
  numPrefix := false
  leftAligned := false
  zeroFill := false
  prependPos := false
  prependSpace := false
  capitals := false
  thousandsSeparator := false

/-! ### The loops of the conversions -/

/-- `exp` and `val`, and whether the loop was left with `break`. -/
structure Power where
  exp : UInt64
  val : UInt64
  broke : Bool

/-- The loop that looks for the first power above `num`. -/
def power (guard : UInt64 → Prop) [DecidablePred guard] (next : UInt64 → UInt64) (num : UInt64)
    (fuel : ℕ) : Except Stop Power :=
  loop (fun s => s.broke = false ∧ guard s.val)
    (fun s => .ok ⟨s.exp + 1, next s.val, decide (next s.val > num)⟩) .fuel fuel ⟨0, 1, false⟩

/-- `exp`, and the output. -/
structure Padding where
  exp : UInt64
  io : Io

/-- The loop that fills up to `format_width` in front of the digits. -/
def padLeft (separator : UInt64 → Bool) (zfillChar : UInt8) (formatWidth : UInt64) (fuel : ℕ)
    (s : Padding) : Except Stop Padding :=
  loop (fun s => (formatWidth - s.exp).toInt64 > 0)
    (fun s =>
      let io := if separator s.exp then (s.io.putchar (ch ',')).count else s.io
      .ok ⟨s.exp + 1, (io.putchar zfillChar).count⟩) .fuel fuel s

/-- The loop behind the digits of a left-aligned number; `step` is what it takes
from `exp` in each round. -/
def padRight (step : UInt64) (fuel : ℕ) (s : Padding) : Except Stop Padding :=
  loop (fun s => s.exp > 0) (fun s => .ok ⟨s.exp - step, (s.io.putchar (ch ' ')).count⟩)
    .fuel fuel s

/-- `val`, `exp`, `num`, and the output. -/
structure Digits where
  val : UInt64
  exp : UInt64
  num : UInt64
  io : Io

/-- `thousands_separator && exp == (exp / 3) * 3 && exp != 0`. -/
def separatorAt (spec : Conversion) (exp : UInt64) : Bool :=
  spec.thousandsSeparator && decide (exp = exp / 3 * 3) && decide (exp ≠ 0)

/-- The loop over the decimal digits. -/
def decimalDigits (spec : Conversion) (fuel : ℕ) (s : Digits) : Except Stop Digits :=
  loop (fun s => s.val > 1)
    (fun s =>
      let val := s.val / 10
      let exp := s.exp - 1
      if val = 0 then .error .division
      else
        let io := (s.io.putchar (48 + s.num / val).toUInt8).count
        let num := s.num % val
        let io := if separatorAt spec exp then (io.putchar (ch ',')).count else io
        .ok ⟨val, exp, num, io⟩) .fuel fuel s

/-- `capitals ? chars_upper[i] : chars_lower[i]`; the tables end with a NUL. -/
def digitAt (spec : Conversion) (charsUpper charsLower : List UInt8) (i : UInt64) :
    Except Stop UInt8 :=
  match (if spec.capitals then charsUpper else charsLower)[i.toNat]? with
  | some c => .ok c
  | none => .error .bounds

/-- The loop over the digits to the base `2 ^ shift`. -/
def basedDigits (digit : UInt64 → Except Stop UInt8) (shift : UInt64) (fuel : ℕ) (s : Digits) :
    Except Stop Digits :=
  loop (fun s => s.val > 1)
    (fun s => do
      let val := s.val >>> shift
      if val = 0 then .error .division
      else
        let c ← digit (s.num / val)
        return ⟨val, s.exp, s.num % val, (s.io.putchar c).count⟩) .fuel fuel s

/-! ### The conversions -/

/-- `zero_fill ? '0' : ' '`. -/
def zfillChar (spec : Conversion) : UInt8 := if spec.zeroFill then ch '0' else ch ' '

/-- `if (!left_aligned)` with the loop that it guards. -/
def fillLeft (spec : Conversion) (separator : UInt64 → Bool) (formatWidth : UInt64) (fuel : ℕ)
    (s : Padding) : Except Stop Padding :=
  if spec.leftAligned then .ok s
  else padLeft separator (zfillChar spec) formatWidth fuel s

/-- `if (left_aligned)` with the loop that it guards. -/
def fillRight (spec : Conversion) (step : UInt64) (fuel : ℕ) (s : Padding) :
    Except Stop Padding :=
  if spec.leftAligned then padRight step fuel s else .ok s

/-- The case of `Int10` from the digits on, and that of `UInt10`; `first` is set
once and never changed. -/
def putDecimal (spec : Conversion) (formatWidth num : UInt64) (io : Io) (fuel : ℕ) :
    Except Stop Io := do
  let p ← power (fun _ => True) (· * 10) num fuel
  let first := true
  let q ← fillLeft spec (fun exp => !first && separatorAt spec exp) formatWidth fuel ⟨p.exp, io⟩
  let d ← decimalDigits spec fuel ⟨p.val, q.exp, num, q.io⟩
  let r ← fillRight spec 0 fuel ⟨d.exp, d.io⟩
  return r.io

/-- `if (format_width > 0) format_width -= 1`. -/
def shrinkWidth (formatWidth : UInt64) : UInt64 :=
  if formatWidth > 0 then formatWidth - 1 else formatWidth

/-- The sign of `Int10`: the output and `format_width`. -/
def putSign (spec : Conversion) (negative : Bool) (io : Io) : Io × UInt64 :=
  if negative then ((io.putchar (ch '-')).count, shrinkWidth spec.formatWidth)
  else if spec.prependPos then ((io.putchar (ch '+')).count, shrinkWidth spec.formatWidth)
  else if spec.prependSpace then ((io.putchar (ch ' ')).count, shrinkWidth spec.formatWidth)
  else (io, spec.formatWidth)

/-- `if (val < num)`: the digit in front of the power at which the loop has stopped. -/
def putFirstDigit (digit : UInt64 → Except Stop UInt8) (s : Digits) : Except Stop Digits :=
  if s.val < s.num then do
    let c ← digit (s.num / s.val)
    return ⟨s.val, s.exp + 1, s.num % s.val, (s.io.putchar c).count⟩
  else .ok s

/-- The digits, with the case for 0 that `Int8` and `Int2` have. -/
def putDigits (zeroCase : Bool) (digit : UInt64 → Except Stop UInt8) (shift : UInt64) (fuel : ℕ)
    (s : Digits) : Except Stop Digits :=
  if zeroCase ∧ s.num = 0 then .ok { s with io := (s.io.putchar (ch '0')).count }
  else basedDigits digit shift fuel s

/-- What the cases of `Int16`, `Int8` and `Int2` have in common, behind the prefix;
`step` as in `padRight`. -/
def putBased (limit shift : UInt64) (charsUpper charsLower : List UInt8) (zeroCase : Bool)
    (step : UInt64) (spec : Conversion) (formatWidth num : UInt64) (io : Io) (fuel : ℕ) :
    Except Stop Io := do
  let digit := digitAt spec charsUpper charsLower
  let p ← power (· < limit) (· <<< shift) num fuel
  let f ← putFirstDigit digit ⟨p.val, p.exp, num, io⟩
  let q ← fillLeft spec (fun _ => false) formatWidth fuel ⟨f.exp, f.io⟩
  let d ← putDigits zeroCase digit shift fuel ⟨f.val, q.exp, f.num, q.io⟩
  let r ← fillRight spec step fuel ⟨d.exp, d.io⟩
  return r.io

/-- `"0123456789ABCDEF"`. -/
def hexUpper : List UInt8 :=
  [48, 49, 50, 51, 52, 53, 54, 55, 56, 57, 65, 66, 67, 68, 69, 70, 0]

/-- `"0123456789abcdef"`. -/
def hexLower : List UInt8 :=
  [48, 49, 50, 51, 52, 53, 54, 55, 56, 57, 97, 98, 99, 100, 101, 102, 0]

/-- `"01234567"`. -/
def octalChars : List UInt8 := [48, 49, 50, 51, 52, 53, 54, 55, 0]

/-- `"01"`. -/
def binaryChars : List UInt8 := [48, 49, 0]

/-- The prefix of `Int16`, and `format_width` behind it. -/
def putPrefix16 (spec : Conversion) (io : Io) : Io × UInt64 :=
  if spec.numPrefix then
    ((((io.putchar (ch '0')).count).putchar (if spec.capitals then ch 'X' else ch 'x')).count,
      if spec.formatWidth = 1 then 0
      else if spec.formatWidth > 1 then spec.formatWidth - 2 else spec.formatWidth)
  else (io, spec.formatWidth)

/-- The prefix of `Int8`. -/
def putPrefix8 (spec : Conversion) (io : Io) : Io × UInt64 :=
  if spec.numPrefix then ((io.putchar (ch '0')).count, shrinkWidth spec.formatWidth)
  else (io, spec.formatWidth)

/-- The prefix of `Int2`. -/
def putPrefix2 (spec : Conversion) (io : Io) : Io × UInt64 :=
  if spec.numPrefix then
    ((((io.putchar (ch '0')).count).putchar (ch 'b')).count,
      if spec.formatWidth > 1 then spec.formatWidth - 1 else 0)
  else (io, spec.formatWidth)

/-- The case of `Int16`. -/
def putInt16 (spec : Conversion) (num : UInt64) (io : Io) (fuel : ℕ) : Except Stop Io :=
  putBased ((1 : UInt64) <<< 60) 4 hexUpper hexLower false 1 spec (putPrefix16 spec io).2 num
    (putPrefix16 spec io).1 fuel

/-- The case of `Int8`. -/
def putInt8 (spec : Conversion) (num : UInt64) (io : Io) (fuel : ℕ) : Except Stop Io :=
  putBased ((1 : UInt64) <<< 63) 3 octalChars octalChars true 0 spec (putPrefix8 spec io).2 num
    (putPrefix8 spec io).1 fuel

/-- `1 << 63` of an `int`, as it is compiled. -/
def intLimit : UInt64 := 0

/-- The case of `Int2`. -/
def putInt2 (spec : Conversion) (num : UInt64) (io : Io) (fuel : ℕ) : Except Stop Io :=
  putBased intLimit 1 binaryChars binaryChars true 0 spec (putPrefix2 spec io).2 num
    (putPrefix2 spec io).1 fuel

/-- The loop of `String`. -/
def putString (str : CString) (io : Io) : Io :=
  str.bytes.foldl (fun io c => (io.putchar c).count) io

/-! ### The arguments -/

/-- `num` and `negative` in the case of `Int10`. -/
def signedArg (formatLength : Length) (w : UInt64) : UInt64 × Bool :=
  match formatLength with
  | .halfHalf | .half =>
    let numIn := w.toUInt32.toInt32
    if numIn < 0 then ((-numIn).toInt64.toUInt64, true) else (numIn.toInt64.toUInt64, false)
  | .long | .longLong | .sizeT | .intMaxT | .ptrDiffT =>
    let numIn := w.toInt64
    if numIn < 0 then ((-numIn).toUInt64, true) else (numIn.toUInt64, false)
  | .longDouble | .lengthMax =>
    let numIn := w.toUInt32.toInt32.toInt64
    if numIn < 0 then ((-numIn).toUInt64, true) else (numIn.toUInt64, false)

/-- `num` in the case of `UInt10`. -/
def unsignedArg (formatLength : Length) (w : UInt64) : UInt64 :=
  match formatLength with
  | .long | .longLong | .sizeT | .intMaxT | .ptrDiffT => w
  | .halfHalf | .half | .longDouble | .lengthMax => w.toUInt32.toUInt64

/-- `num` in the cases of `Int16`, `Int8` and `Int2`: an `int` is extended with its
sign. -/
def basedArg (formatLength : Length) (w : UInt64) : UInt64 :=
  match formatLength with
  | .long | .longLong | .sizeT | .intMaxT | .ptrDiffT => w
  | .halfHalf | .half | .longDouble | .lengthMax => w.toUInt32.toInt32.toInt64.toUInt64

/-- A directive, with its argument. -/
inductive Directive where
  | literal (c : UInt8)
  | char (c : UInt8)
  | int10 (spec : Conversion) (w : UInt64)
  | uint10 (spec : Conversion) (w : UInt64)
  | int16 (spec : Conversion) (w : UInt64)
  | int8 (spec : Conversion) (w : UInt64)
  | int2 (spec : Conversion) (w : UInt64)
  | string (str : CString)
  | percent
  | nChars (n : UInt64)
  | nothing

/-- The `switch` over `format_type`, and the literal characters. -/
def Directive.exec (fuel : ℕ) (io : Io) : Directive → Except Stop Io
  | .literal c | .char c => .ok (io.putchar c).count
  | .int10 spec w =>
    let (num, negative) := signedArg spec.formatLength w
    let (io, formatWidth) := putSign spec negative io
    putDecimal spec formatWidth num io fuel
  | .uint10 spec w =>
    putDecimal spec spec.formatWidth (unsignedArg spec.formatLength w) io fuel
  | .int16 spec w => putInt16 spec (basedArg spec.formatLength w) io fuel
  | .int8 spec w => putInt8 spec (basedArg spec.formatLength w) io fuel
  | .int2 spec w => putInt2 spec (basedArg spec.formatLength w) io fuel
  | .string str => .ok (putString str io)
  | .percent => .ok (io.putchar (ch '%')).count
  | .nChars n => .ok (io.store n)
  | .nothing => .ok io

/-- `va_arg` of an integer type. -/
def vaWord : List Arg → Except Stop (UInt64 × List Arg)
  | .word w :: args => .ok (w, args)
  | _ => .error .argument

/-- `va_arg(args, char *)`. -/
def vaString : List Arg → Except Stop (CString × List Arg)
  | .string str :: args => .ok (str, args)
  | _ => .error .argument

/-- `va_arg(args, int *)`. -/
def vaPointer : List Arg → Except Stop (UInt64 × List Arg)
  | .pointer n :: args => .ok (n, args)
  | _ => .error .argument

/-- The directive of a conversion, with the argument taken from the list. -/
def fetch (spec : Conversion) (args : List Arg) : Except Stop (Directive × List Arg) :=
  match spec.formatType with
  | .char => (vaWord args).map fun r => (.char r.1.toUInt8, r.2)
  | .int10 => (vaWord args).map fun r => (.int10 spec r.1, r.2)
  | .uint10 => (vaWord args).map fun r => (.uint10 spec r.1, r.2)
  | .int16 => (vaWord args).map fun r => (.int16 spec r.1, r.2)
  | .int8 => (vaWord args).map fun r => (.int8 spec r.1, r.2)
  | .int2 => (vaWord args).map fun r => (.int2 spec r.1, r.2)
  | .string => (vaString args).map fun r => (.string r.1, r.2)
  | .nChars => (vaPointer args).map fun r => (.nChars r.1, r.2)
  | .percent => .ok (.percent, args)
  | .floatExp | .floatFixed | .floatOpt | .hexFloat | .formatTypeMax => .ok (.nothing, args)

/-! ### The scanner -/

/-- `format[index]`, which is the terminator at the end. -/
def charAt (format : CString) (index : ℕ) : Except Stop UInt8 :=
  if index < format.bytes.length then .ok (format.bytes.getD index 0)
  else if index = format.bytes.length then .ok 0
  else .error .bounds

/-- The flag that a character stands for. -/
def setFlag (c : UInt8) (spec : Conversion) : Option Conversion :=
  if c = ch '-' then some { spec with leftAligned := true }
  else if c = ch '+' then some { spec with prependPos := true }
  else if c = ch ' ' then some { spec with prependSpace := true }
  else if c = ch '0' then some { spec with zeroFill := true }
  else if c = 39 then some { spec with thousandsSeparator := true }
  else if c = ch '#' then some { spec with numPrefix := true }
  else none

/-- The loop over the flags. -/
def scanFlags (format : CString) : ℕ → ℕ → Conversion → Except Stop (ℕ × Conversion)
  | 0, _, _ => .error .fuel
  | n + 1, index, spec => do
    match setFlag (← charAt format index) spec with
    | some spec => scanFlags format n (index + 1) spec
    | none => return (index, spec)

/-- The loop over the digits of the width or the precision. -/
def scanNumber (format : CString) : ℕ → ℕ → UInt64 → Except Stop (ℕ × UInt64)
  | 0, _, _ => .error .fuel
  | n + 1, index, value => do
    let c ← charAt format index
    if ch '0' ≤ c ∧ c ≤ ch '9' then
      scanNumber format n (index + 1) (value * 10 + (c - ch '0').toUInt64)
    else return (index, value)

/-- The `switch` over the length. -/
def scanLength (format : CString) (index : ℕ) : Except Stop (ℕ × Length) := do
  let c ← charAt format index
  if c = ch 'h' then
    if (← charAt format (index + 1)) = ch 'h' then return (index + 2, .halfHalf)
    else return (index + 1, .half)
  else if c = ch 'l' then
    if (← charAt format (index + 1)) = ch 'l' then return (index + 2, .longLong)
    else return (index + 1, .long)
  else if c = ch 'L' then return (index + 1, .longDouble)
  else if c = ch 'z' then return (index + 1, .sizeT)
  else if c = ch 'j' then return (index + 1, .intMaxT)
  else if c = ch 't' then return (index + 1, .ptrDiffT)
  else return (index, .lengthMax)

/-- The `switch` over the type: `format_type` and `capitals`. -/
def typeOf (c : UInt8) : FormatType × Bool :=
  if c = ch '%' then (.percent, false)
  else if c = ch 'd' ∨ c = ch 'i' then (.int10, false)
  else if c = ch 'u' then (.uint10, false)
  else if c = ch 'f' then (.floatFixed, false)
  else if c = ch 'F' then (.floatFixed, true)
  else if c = ch 'e' then (.floatExp, false)
  else if c = ch 'E' then (.floatExp, true)
  else if c = ch 'g' then (.floatOpt, false)
  else if c = ch 'G' then (.floatOpt, true)
  else if c = ch 'x' then (.int16, false)
  else if c = ch 'X' then (.int16, true)
  else if c = ch 'o' then (.int8, false)
  else if c = ch 'b' then (.int2, false)
  else if c = ch 's' then (.string, false)
  else if c = ch 'c' then (.char, false)
  else if c = ch 'a' then (.hexFloat, false)
  else if c = ch 'A' then (.hexFloat, true)
  else if c = ch 'n' then (.nChars, false)
  else (.formatTypeMax, false)

/-- The width: a `*`, which takes an argument, or digits. -/
def scanWidth (format : CString) (index : ℕ) (args : List Arg) :
    Except Stop (ℕ × UInt64 × List Arg) := do
  if (← charAt format index) = ch '*' then
    let (w, args) ← vaWord args
    return (index + 1, w.toUInt32.toUInt64, args)
  else
    let (index, formatWidth) ← scanNumber format (format.bytes.length + 1) index 0
    return (index, formatWidth, args)

/-- The precision, which is not used. -/
def scanPrecision (format : CString) (index : ℕ) : Except Stop (ℕ × UInt64) := do
  if (← charAt format index) = ch '.' then
    scanNumber format (format.bytes.length + 1) (index + 1) 0
  else return (index, 0)

/-- A conversion from the flags on: the index of its type, what was scanned, and
the arguments behind a `*`. -/
def scan (format : CString) (index : ℕ) (args : List Arg) :
    Except Stop (ℕ × Conversion × List Arg) := do
  let (index, spec) ← scanFlags format (format.bytes.length + 1) index .initial
  let (index, formatWidth, args) ← scanWidth format index args
  let (index, formatPrecision) ← scanPrecision format index
  let (index, formatLength) ← scanLength format index
  let c ← charAt format index
  return (index,
    { spec with
      formatType := (typeOf c).1
      capitals := (typeOf c).2
      formatLength := formatLength
      formatWidth := formatWidth
      formatPrecision := formatPrecision }, args)

/-- The directive of a conversion, from the flags on. -/
def conversionAt (format : CString) (index : ℕ) (args : List Arg) :
    Except Stop (Directive × ℕ × List Arg) := do
  let (index, spec, args) ← scan format index args
  let (d, args) ← fetch spec args
  return (d, index, args)

/-- The literal character at a backslash, which escapes a percent sign only. -/
def escapeAt (format : CString) (index : ℕ) : Except Stop (UInt8 × ℕ) := do
  let c ← charAt format (index + 1)
  if c = ch '%' then return (c, index + 1) else return (92, index)

/-- The directive at an index below `fmt_len`, with the index of its last character
and the arguments behind it. -/
def directiveAt (format : CString) (index : ℕ) (args : List Arg) :
    Except Stop (Directive × ℕ × List Arg) := do
  let c ← charAt format index
  if c = 92 then (escapeAt format index).map fun r => (.literal r.1, r.2, args)
  else if c ≠ ch '%' then return (.literal c, index, args)
  else conversionAt format (index + 1) args

/-! ### The whole function -/

/-- The loop over the format. -/
def printfLoop (format : CString) (fuel : ℕ) :
    ℕ → ℕ → List Arg → Io → Except Stop Io
  | 0, _, _, _ => .error .fuel
  | n + 1, index, args, io =>
    if index < format.bytes.length then do
      let (d, index, args) ← directiveAt format index args
      let io ← d.exec fuel io
      printfLoop format fuel n (index + 1) args io
    else .ok io

/-- `printf`: the returned value and the output. -/
def printf (fuel : ℕ) (format : CString) (args : List Arg) : Except Stop (ℕ × List Event) := do
  let io ← printfLoop format fuel (format.bytes.length + 1) 0 args ⟨[], 0⟩
  return (io.numCharsWritten, io.events)

end Printf

end Betelgeuse
