/-
When a conversion ends.

A decimal conversion needs a power of ten above the number, and a left-aligned one
also that no more is left of `exp` behind the digits, so that the power has not
wrapped (`putDecimal_halts_iff`).  A hexadecimal conversion always ends, an octal one
unless it is left-aligned (`putBased_halts_iff`): its loop behind the digits is that of
the hexadecimal one without its `exp--`.  A binary conversion does not look for a power:
it takes the whole number for the digit in front, so it needs a number that its table has
a character for, and if it is left-aligned one without that digit
(`putBinary_halts_iff`).

`Directive.Ends` collects these conditions (`exec_halts_iff`).
-/
import Betelgeuse.PrintfLoops

open WhileLoop

namespace Betelgeuse

namespace Printf

/-! ### More fuel -/

section Stable

variable {spec : Conversion}

theorem power_stable {guard : UInt64 → Prop} [DecidablePred guard] {next : UInt64 → UInt64}
    {num : UInt64} : Stable fun n => power guard next num n :=
  loop_stable _

theorem fillLeft_stable {separator : UInt64 → Bool} {width : UInt64} (s : Padding) :
    Stable fun n => fillLeft spec separator width n s :=
  (Stable.const (.ok s)).ite (loop_stable s)

theorem fillRight_stable {step : UInt64} (s : Padding) :
    Stable fun n => fillRight spec step n s :=
  (loop_stable s).ite (Stable.const (.ok s))

theorem decimalDigits_stable (s : Digits) : Stable fun n => decimalDigits spec n s :=
  loop_stable s

theorem putDigits_stable {zeroCase : Bool} {digit : UInt64 → Except Stop UInt8} {shift : UInt64}
    (s : Digits) : Stable fun n => putDigits zeroCase digit shift n s := by
  unfold putDigits
  exact (Stable.const _).ite (loop_stable s)

/-- The part of a conversion behind the digits. -/
theorem finish_stable {step : UInt64} (s : Padding) :
    Stable fun n => do
      let r ← fillRight spec step n s
      return r.io :=
  (fillRight_stable s).bind fun r => Stable.const (.ok r.io)

theorem putDecimal_stable {width num : UInt64} {io : Io} :
    Stable fun n => putDecimal spec width num io n :=
  power_stable.bind fun _ => (fillLeft_stable _).bind fun _ =>
    (decimalDigits_stable _).bind fun _ => finish_stable _

theorem putBased_stable {limit shift step : UInt64} {upper lower : List UInt8} {zeroCase : Bool}
    {width num : UInt64} {io : Io} :
    Stable fun n => putBased limit shift upper lower zeroCase step spec width num io n :=
  power_stable.bind fun _ => (Stable.const _).bind fun _ => (fillLeft_stable _).bind fun _ =>
    (putDigits_stable _).bind fun _ => finish_stable _

end Stable

/-! ### The conversions -/

section Conversions

variable {spec : Conversion} {width num : UInt64} {io : Io}

/-- In front of the digits nothing is filled up for a left-aligned number. -/
theorem fillLeft_yields (spec : Conversion) (width : UInt64) (separator : UInt64 → Bool)
    (s : Padding) :
    ∃ q, Yields (fun n => fillLeft spec separator width n s) q ∧
      (spec.leftAligned = true → q.exp = s.exp) := by
  by_cases hleft : spec.leftAligned = true
  · exact ⟨s, ⟨0, if_pos hleft⟩, fun _ => rfl⟩
  · obtain ⟨q, n, hq⟩ := padLeft_halts separator (zfillChar spec) width s
    exact ⟨q, ⟨n, (if_neg hleft).trans hq⟩, fun h => absurd h hleft⟩

/-- What is left of `exp` behind the digits decides. -/
theorem finish_halts_iff {step : UInt64} (hstep : step = 0 ∨ step = 1) (s : Padding) :
    (Halts fun n => do
      let r ← fillRight spec step n s
      return r.io) ↔ (spec.leftAligned = true → step = 0 → s.exp = 0) := by
  constructor
  · rintro h hleft rfl
    obtain ⟨r, n, hr⟩ := h.of_bind
    exact (padRight_zero_halts_iff s).mp ⟨r, n, (if_pos hleft).symm.trans hr⟩
  · intro h
    have hfill : Halts fun n => fillRight spec step n s := by
      by_cases hleft : spec.leftAligned = true
      · obtain ⟨r, n, hr⟩ : Halts fun n => padRight step n s := by
          rcases hstep with rfl | rfl
          · exact (padRight_zero_halts_iff s).mpr (h hleft rfl)
          · exact padRight_one_halts s
        exact ⟨r, n, (if_pos hleft).trans hr⟩
      · exact ⟨s, 0, if_neg hleft⟩
    obtain ⟨r, n, hr⟩ := hfill
    exact ⟨r.io, n, bind_eq_ok.mpr ⟨r, hr, rfl⟩⟩

/-- A decimal conversion whose first loop ends at a power with the leading digit 1. -/
theorem putDecimal_halts_of_power {p : Power} {r : ℕ}
    (hp : Yields (power (fun _ => True) (· * 10) num) p) (hr : p.val.toNat / 10 ^ r = 1) :
    (Halts fun n => putDecimal spec width num io n) ↔
      (spec.leftAligned = true → p.exp = UInt64.ofNat r) := by
  obtain ⟨q, hq, hqexp⟩ := fillLeft_yields spec width
    (fun exp => !true && separatorAt spec exp) ⟨p.exp, io⟩
  obtain ⟨d, -, hd, hdexp, -⟩ := decimalDigits_yields spec (s := ⟨p.val, q.exp, num, q.io⟩) hr
  refine (halts_bind power_stable (fun p => ?_) hp).trans
    ((halts_bind (fillLeft_stable _) (fun q => ?_) hq).trans
      ((halts_bind (decimalDigits_stable _) (fun d => finish_stable _) hd).trans
        ((finish_halts_iff (.inl rfl) _).trans ?_)))
  · exact (fillLeft_stable _).bind fun _ => (decimalDigits_stable _).bind fun _ => finish_stable _
  · exact (decimalDigits_stable _).bind fun _ => finish_stable _
  · refine forall_congr' fun hleft => ?_
    rw [hdexp, hqexp hleft]
    constructor
    · intro h
      have hzero := h rfl
      grind
    · intro h _
      grind

/-- Whether the loops of a decimal conversion end. -/
def DecimalEnds (spec : Conversion) (num : UInt64) : Prop :=
  num.toNat < 10 ^ 19 ∨ num < greatestWrap ∧ spec.leftAligned = false

theorem putDecimal_halts_iff :
    (Halts fun n => putDecimal spec width num io n) ↔ DecimalEnds spec num := by
  rcases Nat.lt_or_ge num.toNat (10 ^ 19) with hlt | hge
  · obtain ⟨k, -, hk, -, hp⟩ := decimalPower_of_lt hlt
    have hlead : (decimal k).toNat / 10 ^ k = 1 := by
      rw [toNat_decimal_of_lt hk, Nat.div_self (Nat.pow_pos (by decide))]
    exact (putDecimal_halts_of_power hp hlead).trans ⟨fun _ => .inl hlt, fun _ _ => rfl⟩
  by_cases hwrap : num < greatestWrap
  · obtain ⟨k, hk20, hk49, hgt, hp⟩ := decimalPower_of_wrap hge hwrap
    have hval : num.toNat < (decimal k).toNat := UInt64.lt_iff_toNat_lt.mp hgt
    have hlead : (decimal k).toNat / 10 ^ 19 = 1 := by
      have hbound : (decimal k).toNat < 2 ^ 64 := (decimal k).toNat_lt
      omega
    have hne : UInt64.ofNat k ≠ UInt64.ofNat 19 := by
      rw [ne_eq, ← UInt64.toNat_inj, UInt64.toNat_ofNat', UInt64.toNat_ofNat']
      omega
    refine (putDecimal_halts_of_power hp hlead).trans ⟨fun h => .inr ⟨hwrap, ?_⟩, fun h hleft => ?_⟩
    · cases hleft : spec.leftAligned with
      | true => exact absurd (h hleft) hne
      | false => rfl
    · rcases h with h | h
      · omega
      · rw [h.2] at hleft
        cases hleft
  · have hle : greatestWrap ≤ num := UInt64.not_lt.mp hwrap
    refine ⟨fun h => absurd h.of_bind (decimalPower_diverges hle), fun h => ?_⟩
    rcases h with h | h
    · omega
    · exact absurd h.1 hwrap

/-- The values for one of the bases, `2 ^ bits`: the limit is the last power that
a 64-bit number can have, and the tables have `2 ^ bits` characters and a NUL. -/
structure Base (limit shift : UInt64) (upper lower : List UInt8) (bits L : ℕ) : Prop where
  shift_eq : shift = UInt64.ofNat bits
  limit_eq : limit = based bits L
  bits_pos : 0 < bits
  L_pos : 0 < L
  lt : bits * L < 64
  last : 64 ≤ bits * L + bits
  upper_length : upper.length = 2 ^ bits + 1
  lower_length : lower.length = 2 ^ bits + 1

/-- The character of a table; the tables end with a NUL. -/
def tableByte (spec : Conversion) (upper lower : List UInt8) (d : ℕ) : UInt8 :=
  (if spec.capitals then upper else lower).getD d 0

theorem Base.digitAt_eq {limit shift : UInt64} {upper lower : List UInt8} {bits L : ℕ}
    (h : Base limit shift upper lower bits L) (spec : Conversion) {i : UInt64}
    (hi : i.toNat ≤ 2 ^ bits) :
    digitAt spec upper lower i = .ok (tableByte spec upper lower i.toNat) := by
  have hlen : i.toNat < (if spec.capitals then upper else lower).length := by
    split
    · rw [h.upper_length]
      omega
    · rw [h.lower_length]
      omega
  rw [digitAt, tableByte, List.getD_eq_getElem?_getD, List.getElem?_eq_getElem hlen,
    Option.getD_some]

/-- The digit in front is a digit of the base. -/
theorem Base.putFirstDigit_of_lt {limit shift : UInt64} {upper lower : List UInt8} {bits L : ℕ}
    (h : Base limit shift upper lower bits L) (spec : Conversion) {s : Digits}
    (hval : s.val = based bits L) (hlt : s.val < s.num) :
    putFirstDigit (digitAt spec upper lower) s = .ok ⟨s.val, s.exp + 1, s.num % s.val,
      s.io.putText [tableByte spec upper lower (s.num.toNat / 2 ^ (bits * L))]⟩ := by
  have hdiv : (s.num / s.val).toNat = s.num.toNat / 2 ^ (bits * L) := by
    rw [UInt64.toNat_div, hval, toNat_based h.lt]
  have hle : (s.num / s.val).toNat ≤ 2 ^ bits := by
    rw [hdiv]
    refine Nat.div_le_of_le_mul ?_
    rw [← pow_add]
    have hbound : s.num.toNat < 2 ^ 64 := s.num.toNat_lt
    exact hbound.le.trans (Nat.pow_le_pow_right (by decide) h.last)
  rw [putFirstDigit, if_pos hlt, h.digitAt_eq spec hle, hdiv]
  rfl

/-- The rest behind the digit in front is below the power. -/
theorem Base.putFirstDigit {limit shift : UInt64} {upper lower : List UInt8} {bits L : ℕ}
    (h : Base limit shift upper lower bits L) (spec : Conversion) {s : Digits} {k : ℕ}
    (hk : 0 < k) (hkL : k ≤ L) (hval : s.val = based bits k) (hexp : s.exp = UInt64.ofNat k)
    (hstop : s.num < based bits k ∨ k = L) :
    ∃ f, Printf.putFirstDigit (Printf.digitAt spec upper lower) s = .ok f ∧
      f.val = based bits k ∧ f.num ≤ f.val ∧ f.exp ≠ 0 := by
  have hLt := h.lt
  have hL64 : L < 64 := lt_of_le_of_lt (Nat.le_mul_of_pos_left L h.bits_pos) hLt
  have hne : ∀ j, 0 < j → j ≤ 64 → UInt64.ofNat j ≠ 0 := by
    intro j hj hle
    rw [ne_eq, ← UInt64.toNat_inj, UInt64.toNat_ofNat']
    show ¬ j % 2 ^ 64 = 0
    omega
  by_cases hlt : s.val < s.num
  · have hkL : k = L := hstop.resolve_left fun hno =>
      UInt64.lt_irrefl _ (UInt64.lt_trans (hval ▸ hlt) hno)
    subst hkL
    have htoNat : s.val.toNat = 2 ^ (bits * k) := by rw [hval, toNat_based hLt]
    refine ⟨_, h.putFirstDigit_of_lt spec hval hlt, hval, ?_, ?_⟩
    · rw [UInt64.le_iff_toNat_le, UInt64.toNat_mod, htoNat]
      exact (Nat.mod_lt _ (Nat.two_pow_pos _)).le
    · show s.exp + 1 ≠ 0
      rw [hexp, ofNat_succ]
      exact hne (k + 1) (by omega) (by omega)
  · refine ⟨s, if_neg hlt, hval, UInt64.not_lt.mp hlt, ?_⟩
    rw [hexp]
    exact hne k hk (by omega)

theorem Base.putDigits_yields {limit shift : UInt64} {upper lower : List UInt8} {bits L : ℕ}
    (h : Base limit shift upper lower bits L) (spec : Conversion) (zeroCase : Bool) {s : Digits}
    {k : ℕ} (hk : k ≤ L) (hval : s.val = based bits k) (hnum : s.num ≤ s.val) :
    ∃ d, Yields (fun n => putDigits zeroCase (Printf.digitAt spec upper lower) shift n s) d ∧
      d.exp = s.exp := by
  by_cases hzero : zeroCase = true ∧ s.num = 0
  · exact ⟨_, ⟨0, if_pos hzero⟩, rfl⟩
  · have hlt : bits * k < 64 := lt_of_le_of_lt (Nat.mul_le_mul_left bits hk) h.lt
    have hle : s.num.toNat ≤ 2 ^ (bits * k) := by
      rwa [UInt64.le_iff_toNat_le, hval, toNat_based hlt] at hnum
    obtain ⟨d, ⟨n, hd⟩, hexp, -⟩ := basedDigits_text h.bits_pos
      (fun i hi => h.digitAt_eq spec hi) hlt hle s.exp s.io
    rw [← hval, ← h.shift_eq] at hd
    exact ⟨d, ⟨n, (if_neg hzero).trans hd⟩, hexp⟩

/-- The parts of a conversion to one of the bases. -/
theorem putBased_halts_of_parts {limit shift step : UInt64} {upper lower : List UInt8}
    {zeroCase : Bool} {p : Power} {f : Digits} (hstep : step = 0 ∨ step = 1)
    (hp : Yields (power (· < limit) (· <<< shift) num) p)
    (hf : putFirstDigit (digitAt spec upper lower) ⟨p.val, p.exp, num, io⟩ = .ok f)
    (hd : ∀ exp io, ∃ d, Yields (fun n => putDigits zeroCase (digitAt spec upper lower) shift n
      ⟨f.val, exp, f.num, io⟩) d ∧ d.exp = exp) :
    (Halts fun n => putBased limit shift upper lower zeroCase step spec width num io n) ↔
      (spec.leftAligned = true → step = 0 → f.exp = 0) := by
  obtain ⟨q, hq, hqexp⟩ := fillLeft_yields spec width (fun _ => false) ⟨f.exp, f.io⟩
  obtain ⟨d, hd, hdexp⟩ := hd q.exp q.io
  refine (halts_bind power_stable (fun p => ?_) hp).trans
    ((halts_bind (Stable.const _) (fun f => ?_) (yields_const.mpr hf)).trans
      ((halts_bind (fillLeft_stable _) (fun q => ?_) hq).trans
        ((halts_bind (putDigits_stable _) (fun d => finish_stable _) hd).trans
          ((finish_halts_iff hstep _).trans ?_))))
  · exact (Stable.const _).bind fun _ => (fillLeft_stable _).bind fun _ =>
      (putDigits_stable _).bind fun _ => finish_stable _
  · exact (fillLeft_stable _).bind fun _ => (putDigits_stable _).bind fun _ => finish_stable _
  · exact (putDigits_stable _).bind fun _ => finish_stable _
  · refine forall_congr' fun hleft => ?_
    rw [hdexp, hqexp hleft]

/-- A conversion to one of the bases ends unless it is left-aligned and its last loop
leaves `exp` as it is. -/
theorem putBased_halts_iff {limit shift step : UInt64} {upper lower : List UInt8} {bits L : ℕ}
    {zeroCase : Bool} (h : Base limit shift upper lower bits L) (hstep : step = 0 ∨ step = 1) :
    (Halts fun n => putBased limit shift upper lower zeroCase step spec width num io n) ↔
      (spec.leftAligned = true → step ≠ 0) := by
  obtain ⟨k, broke, hk, hkL, hp, hstop, -⟩ :=
    basedPower_yields num h.L_pos h.lt h.bits_pos
  rw [← h.limit_eq, ← h.shift_eq] at hp
  obtain ⟨f, hf, hfval, hfnum, hfexp⟩ := h.putFirstDigit spec
    (s := ⟨based bits k, UInt64.ofNat k, num, io⟩) hk hkL rfl rfl hstop
  refine (putBased_halts_of_parts hstep hp hf fun exp io => ?_).trans
    (forall_congr' fun _ => forall_congr' fun _ => ?_)
  · exact h.putDigits_yields spec zeroCase hkL hfval hfnum
  · exact ⟨fun hzero => hfexp hzero, fun hno => hno.elim⟩

end Conversions

/-! ### The binary conversion -/

section Binary

variable {spec : Conversion} {width num : UInt64} {io : Io}

/-- What a binary conversion puts out in front of the filling: for the number 2 the NUL
behind its table. -/
def binaryFront (num : UInt64) : List UInt8 := if num = 2 then [0] else []

/-- What it puts out behind the filling: the digit of the case for 0, and nothing for
the number 1. -/
def binaryBack (num : UInt64) : List UInt8 := if num = 1 then [] else [ch '0']

/-- No number is below the limit. -/
theorem power_intLimit (next : UInt64 → UInt64) (num : UInt64) :
    Yields (power (· < intLimit) next num) ⟨0, 1, false⟩ :=
  loop_yields_exit fun h => UInt64.not_lt_zero h.2

theorem le_two_cases (h : num ≤ 2) : num = 0 ∨ num = 1 ∨ num = 2 := by
  have htwo : (2 : UInt64).toNat = 2 := rfl
  rw [UInt64.le_iff_toNat_le, htwo] at h
  simp only [← UInt64.toNat_inj]
  show num.toNat = 0 ∨ num.toNat = 1 ∨ num.toNat = 2
  omega

/-- The numbers that the table has a character for. -/
theorem putBinary_parts (spec : Conversion) (h : num ≤ 2) (io : Io) :
    ∃ rest, putFirstDigit (digitAt spec binaryChars binaryChars) ⟨1, 0, num, io⟩ =
        .ok ⟨1, UInt64.ofNat (binaryFront num).length, rest, io.putText (binaryFront num)⟩ ∧
      ∀ exp io, Yields (fun n => putDigits true (digitAt spec binaryChars binaryChars) 1 n
        ⟨1, exp, rest, io⟩) ⟨1, exp, rest, io.putText (binaryBack num)⟩ := by
  have hzero : ∀ exp io, Yields (fun n => putDigits true (digitAt spec binaryChars binaryChars) 1 n
      ⟨1, exp, 0, io⟩) ⟨1, exp, 0, io.putText [ch '0']⟩ := fun exp io => ⟨0, rfl⟩
  rcases le_two_cases h with rfl | rfl | rfl
  · refine ⟨0, ?_, hzero⟩
    show _ = Except.ok (⟨1, 0, 0, io.putText []⟩ : Digits)
    rw [putText_nil]
    rfl
  · refine ⟨1, ?_, fun exp io => ?_⟩
    · show _ = Except.ok (⟨1, 0, 1, io.putText []⟩ : Digits)
      rw [putText_nil]
      rfl
    · -- neither the case for 0 nor a round of the loop over the digits
      show Yields _ (⟨1, exp, 1, io.putText []⟩ : Digits)
      rw [putText_nil]
      have hexit : ¬ (1 : UInt64) > 1 := by decide
      exact loop_yields_exit hexit
  · have hlt : (1 : UInt64) < 2 := by decide
    have hchar : binaryChars[((2 : UInt64) / 1).toNat]? = some 0 := by decide
    refine ⟨0, ?_, hzero⟩
    simp only [putFirstDigit, digitAt, ite_self, if_pos hlt, hchar]
    rfl

/-- Behind the table there is nothing to read. -/
theorem putFirstDigit_bounds (spec : Conversion) (h : ¬ num ≤ 2) (io : Io) :
    putFirstDigit (digitAt spec binaryChars binaryChars) ⟨1, 0, num, io⟩ = .error .bounds := by
  have htwo : (2 : UInt64).toNat = 2 := rfl
  rw [UInt64.le_iff_toNat_le, htwo] at h
  have hone : (1 : UInt64) < num := by
    rw [UInt64.lt_iff_toNat_lt]
    show 1 < num.toNat
    omega
  have hdiv : (num / 1).toNat = num.toNat := by
    rw [UInt64.toNat_div]
    exact Nat.div_one _
  have hnone : binaryChars[(num / 1).toNat]? = none := by
    rw [List.getElem?_eq_none_iff, hdiv]
    show 3 ≤ num.toNat
    omega
  rw [putFirstDigit, if_pos hone, digitAt, ite_self]
  simp only [hnone]
  rfl

/-- A binary conversion ends for the numbers up to 2, and a left-aligned one for 0 and 1. -/
theorem putBinary_halts_iff :
    (Halts fun n => putBased intLimit 1 binaryChars binaryChars true 0 spec width num io n) ↔
      num ≤ 2 ∧ (spec.leftAligned = true → num ≤ 1) := by
  have hp := power_intLimit (· <<< 1) num
  by_cases hnum : num ≤ 2
  · obtain ⟨rest, hf, hd⟩ := putBinary_parts spec hnum io
    rw [and_iff_right hnum, putBased_halts_of_parts (.inl rfl) hp hf fun exp io =>
      ⟨_, hd exp io, rfl⟩]
    refine forall_congr' fun _ => ?_
    show ((0 : UInt64) = 0 → UInt64.ofNat (binaryFront num).length = 0) ↔ num ≤ 1
    rcases le_two_cases hnum with rfl | rfl | rfl <;> decide
  · refine iff_of_false (fun h => ?_) fun h => hnum h.1
    have hrest := ((halts_bind power_stable (fun p => (Stable.const _).bind fun _ =>
      (fillLeft_stable _).bind fun _ => (putDigits_stable _).bind fun _ => finish_stable _)
        hp).mp h).of_bind
    obtain ⟨f, hf⟩ := halts_const.mp hrest
    rw [putFirstDigit_bounds spec hnum io] at hf
    cases hf

end Binary

/-! ### The directives -/

theorem base16 : Base ((1 : UInt64) <<< 60) 4 hexUpper hexLower 4 15 where
  shift_eq := rfl
  limit_eq := rfl
  bits_pos := by decide
  L_pos := by decide
  lt := by decide
  last := by decide
  upper_length := rfl
  lower_length := rfl

theorem base8 : Base ((1 : UInt64) <<< 63) 3 octalChars octalChars 3 21 where
  shift_eq := rfl
  limit_eq := rfl
  bits_pos := by decide
  L_pos := by decide
  lt := by decide
  last := by decide
  upper_length := rfl
  lower_length := rfl

/-- Whether the loops of a directive end. -/
def Directive.Ends : Directive → Prop
  | .int10 spec w => DecimalEnds spec (signedArg spec.formatLength w).1
  | .uint10 spec w => DecimalEnds spec (unsignedArg spec.formatLength w)
  | .int8 spec _ => spec.leftAligned = false
  | .int2 spec w => basedArg spec.formatLength w ≤ 2 ∧
      (spec.leftAligned = true → basedArg spec.formatLength w ≤ 1)
  | .literal _ | .char _ | .int16 _ _ | .string _ | .percent | .nChars _ | .nothing => True

theorem exec_stable (io : Io) (d : Directive) : Stable fun n => d.exec n io := by
  cases d with
  | int10 spec w => exact putDecimal_stable
  | uint10 spec w => exact putDecimal_stable
  | int16 spec w => exact putBased_stable
  | int8 spec w => exact putBased_stable
  | int2 spec w => exact putBased_stable
  | literal | char | string | percent | nChars | nothing => exact Stable.const _

theorem exec_halts_iff (io : Io) (d : Directive) : (Halts fun n => d.exec n io) ↔ d.Ends := by
  cases d with
  | int10 spec w => exact putDecimal_halts_iff
  | uint10 spec w => exact putDecimal_halts_iff
  | int16 spec w =>
    refine (putBased_halts_iff base16 (.inr rfl)).trans ⟨fun _ => trivial, fun _ _ => by decide⟩
  | int8 spec w =>
    refine (putBased_halts_iff base8 (.inl rfl)).trans ⟨fun h => ?_, fun h hleft => ?_⟩
    · exact Bool.eq_false_iff.mpr fun hleft => h hleft rfl
    · exact absurd hleft (Bool.eq_false_iff.mp h)
  | int2 spec w => exact putBinary_halts_iff
  | literal | char | string | percent | nChars | nothing =>
    exact ⟨fun _ => trivial, fun _ => ⟨_, 0, rfl⟩⟩

end Printf

end Betelgeuse
