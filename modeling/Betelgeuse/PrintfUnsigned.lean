/-
Unsigned decimal output.

`%llu`, `%lu` and `%zu` print the digits of every number below `10 ^ 19`.  From there on
the power that the first loop looks for does not fit into 64 bits: it ends at a wrapped
power, behind which there are nineteen digits instead of twenty, or not at all
(`printsUnsigned_iff`).
-/
import Betelgeuse.PrintfScan

open WhileLoop

namespace Betelgeuse

namespace Printf

/-- The lengths of `%llu`, `%lu` and `%zu`. -/
def wideLengths : List Length := [.longLong, .long, .sizeT]

/-- `%u` with a length, and nothing else. -/
def unsignedConversion (length : Length) : ConversionText where
  flags := []
  width := 0
  length := length
  type := ch 'u'
  isFlag := isFlag_nil
  isType := by decide

/-- The conversion prints the canonical digits of the number. -/
def PrintsUnsigned (length : Length) (n : UInt64) (args : List Arg) : Prop :=
  Prints (unsignedConversion length).format (.word n :: args) (digitText 10 n.toNat)

section Unsigned

variable {length : Length}

/-- A number that no power of ten passes without a wrap has twenty digits. -/
theorem length_digitText_of_le {n : UInt64} (h : 10 ^ 19 ≤ n.toNat) :
    (digitText 10 n.toNat).length = 20 := by
  have hlt := n.toNat_lt
  rw [length_digitText]
  exact (DigitList.length_toDigits_eq_iff (by decide) (by decide)).mpr ⟨by omega, .inr h⟩

/-- The conversion prints the digits of a number if and only if it is below `10 ^ 19`. -/
theorem printsUnsigned_iff (hlength : length ∈ wideLengths) (n : UInt64) (args : List Arg) :
    PrintsUnsigned length n args ↔ n.toNat < 10 ^ 19 := by
  set spec := (unsignedConversion length).conversion with hspec
  have hfetch : fetch spec (.word n :: args) = .ok (.uint10 spec n, args) := rfl
  have harg : unsignedArg spec.formatLength n = n := by
    simp only [wideLengths, List.mem_cons, List.not_mem_nil, or_false] at hlength
    rcases hlength with rfl | rfl | rfl <;> rfl
  have hexec : ∀ fuel, Directive.exec fuel ⟨[], 0⟩ (.uint10 spec n) =
      putDecimal spec 0 n ⟨[], 0⟩ fuel := by
    intro fuel
    rw [Directive.exec, harg]
    rfl
  have hflag : spec.thousandsSeparator = false := rfl
  constructor
  · intro h
    by_contra hge
    have hge : 10 ^ 19 ≤ n.toNat := Nat.not_lt.mp hge
    rcases ConversionText.ends_of_prints hfetch h with hlt | ⟨hlt, hleft⟩
    · rw [harg] at hlt
      omega
    · -- there is one digit too few
      rw [harg] at hlt
      obtain ⟨text, hlen, htext⟩ := putDecimal_text_of_wrap hleft hflag hge hlt ⟨[], 0⟩
      simp only [← hexec] at htext
      have heq := h.unique (ConversionText.prints hfetch htext)
      have htwenty := length_digitText_of_le hge
      rw [heq, hlen] at htwenty
      cases htwenty
  · intro hlt
    have htext := putDecimal_text spec (w := 0) (by decide) hlt ⟨[], 0⟩
    have hfilled : filled spec 0 (digitText 10 n.toNat).length = (digitText 10 n.toNat).length := by
      simp [filled]
    rw [hfilled, Nat.sub_self, List.replicate_zero, List.nil_append,
      separated_of_noFlag hflag] at htext
    refine ConversionText.prints hfetch ?_
    simp only [hexec]
    exact htext

/-- The greatest number that is printed. -/
theorem printsUnsigned_iff_greatest : PrintsUnsigned .longLong 9999999999999999999 [] :=
  (printsUnsigned_iff (by decide) _ _).mpr (by decide)

/-- The greatest 64-bit number, for which the loop over the powers does not end. -/
theorem printsUnsigned_fails : ¬ ∀ (length : Length) (n : UInt64) (args : List Arg),
    length ∈ wideLengths → PrintsUnsigned length n args := by
  intro h
  have hprints := h .longLong 0xFFFFFFFFFFFFFFFF [] (by decide)
  have hends := ConversionText.ends_of_prints
    (d := .uint10 (unsignedConversion .longLong).conversion 0xFFFFFFFFFFFFFFFF) rfl hprints
  rcases hends with hlt | ⟨hlt, -⟩
  · exact absurd hlt (by decide)
  · exact absurd hlt (by decide)

end Unsigned

end Printf

end Betelgeuse
