/-
Hexadecimal output with a prefix and leading zeros.

`HexText` is what `%#0<w>llx` is to print: the prefix, and digits with the value of the
number that fill the width.  The conversion prints it for every number below `2 ^ 60`.
The first loop stops at `2 ^ 60`, so a number above it has a digit in front, and the
zeros for a width above 18 come behind that digit; and `2 ^ 60` itself is written with
the digit 16, which is the NUL of the table (`printsHex_iff`).
-/
import Betelgeuse.PrintfScan

open WhileLoop

namespace Betelgeuse

namespace Printf

/-- `%#0<w>llx`, or with an `X`. -/
def hexConversion (capitals : Bool) (width : ℕ) : ConversionText where
  flags := [ch '#', ch '0']
  width := width
  length := .longLong
  type := if capitals then ch 'X' else ch 'x'
  isFlag := by simp [flagChars]
  isType := by cases capitals <;> decide

/-- The character of a hexadecimal digit. -/
def hexDigit (capitals : Bool) (d : ℕ) : UInt8 :=
  ch (if capitals then d.digitChar.toUpper else d.digitChar)

/-- `0x` or `0X`. -/
def hexPrefix (capitals : Bool) : List UInt8 := [ch '0', ch (if capitals then 'X' else 'x')]

/-- The prefix, and digits of the number: as many as the width leaves, or as it has. -/
def HexText (capitals : Bool) (width n : ℕ) (text : List UInt8) : Prop :=
  ∃ ds : List ℕ, (∀ d ∈ ds, d < 16) ∧ ds.length = max (width - 2) (Nat.toDigits 16 n).length ∧
    Nat.ofDigits 16 ds.reverse = n ∧ text = hexPrefix capitals ++ ds.map (hexDigit capitals)

/-- The conversion prints the digits of the number. -/
def PrintsHex (capitals : Bool) (width : ℕ) (n : UInt64) (args : List Arg) : Prop :=
  ∃ text, Prints (hexConversion capitals width).format (.word n :: args) text ∧
    HexText capitals width n.toNat text

/-- The digits that are printed. -/
def printedDigits (width n : ℕ) : List ℕ :=
  if n ≤ 2 ^ 60 then
    List.replicate (width - 2 - min (Nat.toDigits 16 n).length 15) 0 ++
      DigitList.fixed 16 (min (Nat.toDigits 16 n).length 15) n
  else
    n / 2 ^ 60 :: (List.replicate (width - 18) 0 ++ DigitList.fixed 16 15 (n % 2 ^ 60))

section Digits

variable {capitals : Bool} {width : ℕ} {n : ℕ}

theorem tableByte_hex (spec : Conversion) {d : ℕ} (hd : d < 16) :
    tableByte spec hexUpper hexLower d = hexDigit spec.capitals d := by
  have hupper : ∀ d < 16, hexUpper.getD d 0 = hexDigit true d := by decide
  have hlower : ∀ d < 16, hexLower.getD d 0 = hexDigit false d := by decide
  rw [tableByte]
  cases spec.capitals with
  | true => exact hupper d hd
  | false => exact hlower d hd

theorem hexDigit_inj {d d' : ℕ} (hd : d < 16) (hd' : d' < 16)
    (h : hexDigit capitals d = hexDigit capitals d') : d = d' := by
  have hall : ∀ capitals, ∀ d < 16, ∀ d' < 16,
      hexDigit capitals d = hexDigit capitals d' → d = d' := by decide
  exact hall capitals d hd d' hd' h

theorem hexDigit_ne_zero {d : ℕ} (hd : d < 16) : hexDigit capitals d ≠ 0 := by
  have hall : ∀ capitals, ∀ d < 16, hexDigit capitals d ≠ 0 := by decide
  exact hall capitals d hd

/-- Digits are determined by their characters. -/
theorem map_hexDigit_inj {ds ds' : List ℕ} (hds : ∀ d ∈ ds, d < 16) (hds' : ∀ d ∈ ds', d < 16)
    (h : ds.map (hexDigit capitals) = ds'.map (hexDigit capitals)) : ds = ds' := by
  induction ds generalizing ds' with
  | nil => simpa using h.symm
  | cons d ds ih =>
    cases ds' with
    | nil => cases h
    | cons d' ds' =>
      obtain ⟨hd, hds⟩ := List.forall_mem_cons.mp hds
      obtain ⟨hd', hds'⟩ := List.forall_mem_cons.mp hds'
      obtain ⟨hhead, htail⟩ := List.cons.inj h
      rw [hexDigit_inj hd hd' hhead, ih hds hds' htail]

theorem lt_of_mem_printedDigits (hn : n ≠ 2 ^ 60) (hlt : n < 2 ^ 64) {d : ℕ}
    (hd : d ∈ printedDigits width n) : d < 16 := by
  have hpow : (2 : ℕ) ^ 60 = 16 ^ 15 := by decide
  rw [printedDigits] at hd
  split at hd
  · next hle =>
    have hlen : n < 16 ^ min (Nat.toDigits 16 n).length 15 := by
      rcases Nat.le_total (Nat.toDigits 16 n).length 15 with hlen | hlen
      · rw [Nat.min_eq_left hlen]
        exact (Nat.length_toDigits_le_iff (by decide) Nat.length_toDigits_pos).mp le_rfl
      · rw [Nat.min_eq_right hlen]
        omega
    rcases List.mem_append.mp hd with hzero | hfixed
    · rw [List.eq_of_mem_replicate hzero]
      decide
    · exact DigitList.lt_of_mem_fixed (by decide) hlen hfixed
  · rcases List.mem_cons.mp hd with rfl | hd
    · omega
    · rcases List.mem_append.mp hd with hzero | hfixed
      · rw [List.eq_of_mem_replicate hzero]
        decide
      · exact DigitList.lt_of_mem_fixed (by decide) (by omega) hfixed

/-- The limit is written with the digit 16. -/
theorem mem_printedDigits_limit : 16 ∈ printedDigits width (2 ^ 60) := by
  have hfixed : 16 ∈ DigitList.fixed 16 (min (Nat.toDigits 16 (2 ^ 60)).length 15) (2 ^ 60) := by
    decide
  rw [printedDigits, if_pos le_rfl]
  exact List.mem_append_right _ hfixed

/-- Up to the limit, and above it without zeros behind the first digit, the digits are right. -/
theorem printedDigits_spec (hlt : n < 2 ^ 64) (h : n < 2 ^ 60 ∨ 2 ^ 60 < n ∧ width ≤ 18) :
    (printedDigits width n).length = max (width - 2) (Nat.toDigits 16 n).length ∧
      Nat.ofDigits 16 (printedDigits width n).reverse = n := by
  have hpow : (2 : ℕ) ^ 60 = 16 ^ 15 := by decide
  rcases h with hsmall | ⟨hlarge, hwidth⟩
  · have hlen : (Nat.toDigits 16 n).length ≤ 15 :=
      (Nat.length_toDigits_le_iff (by decide) (by decide)).mpr (by omega)
    have hbound : n < 16 ^ (Nat.toDigits 16 n).length :=
      (Nat.length_toDigits_le_iff (by decide) Nat.length_toDigits_pos).mp le_rfl
    rw [printedDigits, if_pos hsmall.le, Nat.min_eq_left hlen, List.reverse_append,
      List.reverse_replicate, Nat.ofDigits_append_replicate_zero,
      DigitList.ofDigits_reverse_fixed (by decide) hbound, List.length_append,
      List.length_replicate, DigitList.length_fixed]
    omega
  · -- all sixteen digits
    have hfixed : printedDigits width n = DigitList.fixed 16 16 n := by
      rw [printedDigits, if_neg (by omega), Nat.sub_eq_zero_of_le hwidth, List.replicate_zero,
        List.nil_append, hpow]
      rfl
    have hlen : (Nat.toDigits 16 n).length = 16 :=
      (DigitList.length_toDigits_eq_iff (by decide) (by decide)).mpr ⟨by omega, .inr (by omega)⟩
    rw [hfixed, DigitList.ofDigits_reverse_fixed (by decide) (by omega), DigitList.length_fixed,
      hlen]
    omega

/-- With zeros behind the first digit the value is too large. -/
theorem lt_ofDigits_printedDigits (hlt : n < 2 ^ 64) (hlarge : 2 ^ 60 < n) (hwidth : 19 ≤ width) :
    n < Nat.ofDigits 16 (printedDigits width n).reverse := by
  rw [printedDigits, if_neg (by omega), Nat.ofDigits_reverse_cons, List.length_append,
    List.length_replicate, DigitList.length_fixed]
  have hdigit : 1 ≤ n / 2 ^ 60 := by omega
  have hzeros : 16 ^ 16 ≤ 16 ^ (width - 18 + 15) := Nat.pow_le_pow_right (by decide) (by omega)
  calc n < 16 ^ 16 * 1 := by omega
    _ ≤ 16 ^ (width - 18 + 15) * (n / 2 ^ 60) := Nat.mul_le_mul hzeros hdigit
    _ ≤ _ := Nat.le_add_left _ _

end Digits

/-! ### Whole calls -/

section Calls

variable {capitals : Bool} {width : ℕ}

theorem conversion_capitals : (hexConversion capitals width).conversion.capitals = capitals := by
  cases capitals <;> rfl

theorem shrinkWidth16 (hwidth : width < 2 ^ 31) :
    (if UInt64.ofNat width = 1 then 0
      else if UInt64.ofNat width > 1 then UInt64.ofNat width - 2 else UInt64.ofNat width) =
        UInt64.ofNat (width - 2) := by
  have htoNat : (UInt64.ofNat width).toNat = width := by
    exact UInt64.toNat_ofNat_of_lt' (hwidth.trans (by decide))
  have hone : (1 : UInt64).toNat = 1 := rfl
  have htwo : (2 : UInt64).toNat = 2 := rfl
  have heq : UInt64.ofNat width = 1 ↔ width = 1 := by rw [← UInt64.toNat_inj, htoNat, hone]
  have hgt : UInt64.ofNat width > 1 ↔ 1 < width := by
    rw [gt_iff_lt, UInt64.lt_iff_toNat_lt, htoNat, hone]
  simp only [heq, hgt]
  split
  · next hwidth => rw [hwidth]; rfl
  split
  · next hwidth =>
    rw [← UInt64.toNat_inj, UInt64.toNat_sub, htoNat, htwo, UInt64.toNat_ofNat']
    omega
  · next hne hle =>
    have hzero : width = 0 := by omega
    rw [hzero]

/-- The prefix takes its place from the width. -/
theorem putPrefix16_text (hwidth : width < 2 ^ 31) (io : Io) :
    putPrefix16 (hexConversion capitals width).conversion io =
      (io.putText (hexPrefix capitals), UInt64.ofNat (width - 2)) := by
  have hprefix : (hexConversion capitals width).conversion.numPrefix = true := rfl
  have hformat : (hexConversion capitals width).conversion.formatWidth = UInt64.ofNat width := rfl
  rw [putPrefix16, if_pos hprefix, hformat, shrinkWidth16 hwidth, conversion_capitals]
  simp only [count_putchar, putText_putText, hexPrefix]
  cases capitals <;> rfl

theorem prints_printedDigits (hwidth : width < 2 ^ 31) (n : UInt64) (args : List Arg) :
    Prints (hexConversion capitals width).format (.word n :: args)
      (hexPrefix capitals ++ (printedDigits width n.toNat).map
        (tableByte (hexConversion capitals width).conversion hexUpper hexLower)) := by
  set spec := (hexConversion capitals width).conversion with hspec
  have hformat : spec.formatType = .int16 := by cases capitals <;> rfl
  have hfetch : fetch spec (.word n :: args) = .ok (.int16 spec n, args) := by
    rw [fetch, hformat]
    rfl
  have hleft : spec.leftAligned = false := rfl
  have htable : tableByte spec hexUpper hexLower 0 = ch '0' := by
    rw [tableByte]
    cases spec.capitals <;> rfl
  have hzero : zfillChar spec = tableByte spec hexUpper hexLower 0 := htable.symm
  have hbound : width - 2 < 2 ^ 63 := by omega
  have hstep : spec.leftAligned = true → (1 : UInt64) = 1 := fun _ => rfl
  -- there is no case for 0
  have hzeroCase : false = true → n.toNat % 2 ^ 60 ≠ 0 := fun hcase => by cases hcase
  have hfill := fun e => filled_sub_of_right (w := width - 2) (e := e) hleft
  refine ConversionText.prints hfetch ?_
  have hexec : ∀ fuel, Directive.exec fuel ⟨[], 0⟩ (.int16 spec n) =
      putBased ((1 : UInt64) <<< 60) 4 hexUpper hexLower false 1 spec
        (UInt64.ofNat (width - 2)) n (Io.putText ⟨[], 0⟩ (hexPrefix capitals)) fuel := by
    intro fuel
    rw [Directive.exec, putInt16, putPrefix16_text hwidth]
    rfl
  simp only [hexec]
  rw [← putText_putText, printedDigits]
  split
  · next hle =>
    have htext := base16.putBased_text_of_le false hstep hbound hle
      htable rfl (Io.putText ⟨[], 0⟩ (hexPrefix capitals))
    rw [List.map_append, List.map_replicate, ← hzero]
    rwa [hfill, behind_of_right hleft, List.append_nil] at htext
  · next hnot =>
    have htext := base16.putBased_text_of_gt hstep hbound (Nat.not_le.mp hnot) hzeroCase
      (Io.putText ⟨[], 0⟩ (hexPrefix capitals))
    rw [List.map_cons, List.map_append, List.map_replicate, ← hzero, show width - 18 =
      width - 2 - (15 + 1) by omega]
    rwa [hfill, behind_of_right hleft, List.append_nil] at htext

/-- The NUL of the table is no digit. -/
theorem ne_limit_of_printsHex (hwidth : width < 2 ^ 31) {n : UInt64} {args : List Arg}
    (h : PrintsHex capitals width n args) : n.toNat ≠ 2 ^ 60 := by
  obtain ⟨text, htext, ds, hds, -, -, rfl⟩ := h
  intro hlimit
  have hprints : Prints (hexConversion capitals width).format (.word n :: args) _ :=
    prints_printedDigits hwidth n args
  set spec := (hexConversion capitals width).conversion
  have hmap := List.append_cancel_left (htext.unique hprints)
  rw [hlimit] at hmap
  have hnul : (0 : UInt8) ∈ (printedDigits width (2 ^ 60)).map
      (tableByte spec hexUpper hexLower) := by
    refine List.mem_map.mpr ⟨16, mem_printedDigits_limit, ?_⟩
    rw [tableByte]
    cases spec.capitals <;> rfl
  rw [← hmap] at hnul
  obtain ⟨d, hd, hzero⟩ := List.mem_map.mp hnul
  exact hexDigit_ne_zero (hds d hd) hzero

/-- The conversion prints the digits of every number but `2 ^ 60`, from there on if the width
leaves no place for zeros. -/
theorem printsHex_iff (capitals : Bool) {width : ℕ} (hwidth : width < 2 ^ 31) (n : UInt64)
    (args : List Arg) :
    PrintsHex capitals width n args ↔
      n.toNat ≠ 2 ^ 60 ∧ (n.toNat < 2 ^ 60 ∨ width ≤ 18) := by
  have hlt := n.toNat_lt
  have hprinted : n.toNat ≠ 2 ^ 60 → ∀ d ∈ printedDigits width n.toNat, d < 16 :=
    fun hne d hd => lt_of_mem_printedDigits hne hlt hd
  have hprints : n.toNat ≠ 2 ^ 60 → Prints (hexConversion capitals width).format (.word n :: args)
      (hexPrefix capitals ++ (printedDigits width n.toNat).map (hexDigit capitals)) := by
    intro hne
    have htable : (printedDigits width n.toNat).map (tableByte
        (hexConversion capitals width).conversion hexUpper hexLower) =
          (printedDigits width n.toNat).map (hexDigit capitals) :=
      List.map_congr_left fun d hd => by
        rw [tableByte_hex _ (hprinted hne d hd), conversion_capitals]
    rw [← htable]
    exact prints_printedDigits hwidth n args
  constructor
  · intro h
    have hne := ne_limit_of_printsHex hwidth h
    obtain ⟨text, htext, ds, hds, hlen, hvalue, rfl⟩ := h
    refine ⟨hne, ?_⟩
    by_contra hcontra
    push Not at hcontra
    -- the digits are those that are printed, and these have too large a value
    have hmap := List.append_cancel_left (htext.unique (hprints hne))
    have hgt := lt_ofDigits_printedDigits hlt (by omega) (by omega : 19 ≤ width)
    rw [← map_hexDigit_inj hds (hprinted hne) hmap, hvalue] at hgt
    exact Nat.lt_irrefl _ hgt
  · rintro ⟨hne, hcase⟩
    obtain ⟨hlen, hvalue⟩ := printedDigits_spec hlt (by omega : n.toNat < 2 ^ 60 ∨
      2 ^ 60 < n.toNat ∧ width ≤ 18)
    exact ⟨_, hprints hne, _, hprinted hne, hlen, hvalue, rfl⟩

/-- A kernel address, in the width that the kernel prints it. -/
theorem printsHex_iff_address : PrintsHex false 18 0xFFFFFFFF80000000 [] :=
  (printsHex_iff false (by decide) _ _).mpr ⟨by decide, .inr le_rfl⟩

/-- `2 ^ 60`, whose first digit is the NUL behind the table. -/
theorem printsHex_fails :
    ¬ ∀ (capitals : Bool) (width : ℕ) (n : UInt64) (args : List Arg), width < 2 ^ 31 →
      PrintsHex capitals width n args := by
  intro h
  exact ne_limit_of_printsHex (by decide) (h false 0 0x1000000000000000 [] (by decide)) rfl

end Calls

end Printf

end Betelgeuse
