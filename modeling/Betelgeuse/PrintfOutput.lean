/-
What the conversions put out.

The loop that fills up to the left repeats its character (`padLeft_text`), and those
over the digits write the digits of the number one after the other
(`decimalDigits_text`, and `basedDigits_text` for the other bases).  From these a decimal
conversion is a filling and the canonical digits (`putDecimal_text`), one to another base
a filling and the digits behind the power at which its first loop has stopped
(`Base.putBased_text`).  A binary one has no such loop (`putBinary_text`).
-/
import Betelgeuse.PrintfEnds

open WhileLoop

namespace Betelgeuse

namespace Printf

/-- The character of a digit. -/
def digitByte (d : ℕ) : UInt8 := ch d.digitChar

/-- The digits of a number, as characters. -/
def digitText (b n : ℕ) : List UInt8 := (Nat.toDigits b n).map ch

/-- The digits with the commas that are put behind them; `exp` is counted down from `e`. -/
def separated (spec : Conversion) : ℕ → List UInt8 → List UInt8
  | _, [] => []
  | e, c :: l =>
    if separatorAt spec (UInt64.ofNat (e - 1)) then c :: ch ',' :: separated spec (e - 1) l
    else c :: separated spec (e - 1) l

/-- `exp` behind the loop that fills up to the left. -/
def filled (spec : Conversion) (width exp : ℕ) : ℕ :=
  if spec.leftAligned then exp else max width exp

/-- What the loop behind the digits puts out when it counts `exp` down. -/
def behind (spec : Conversion) (exp : ℕ) : List UInt8 :=
  if spec.leftAligned then List.replicate exp (ch ' ') else []

section Text

theorem map_digitByte_fixed {b : ℕ} (hb : 1 < b) (n : ℕ) :
    (DigitList.fixed b (Nat.toDigits b n).length n).map digitByte = digitText b n := by
  rw [digitText]
  conv_rhs => rw [DigitList.toDigits_eq_map_fixed hb n]
  simp [digitByte]

@[simp] theorem length_digitText (b n : ℕ) :
    (digitText b n).length = (Nat.toDigits b n).length := by
  simp [digitText]

/-- Without the flag there are no commas. -/
theorem separated_of_noFlag {spec : Conversion} (hflag : spec.thousandsSeparator = false) (e : ℕ)
    (l : List UInt8) : separated spec e l = l := by
  induction l generalizing e with
  | nil => rfl
  | cons c l ih =>
    have hno : separatorAt spec (UInt64.ofNat (e - 1)) = false := by simp [separatorAt, hflag]
    simp [separated, hno, ih]

end Text

/-! ### Filling up -/

section Filling

variable {spec : Conversion} {separator : UInt64 → Bool} {w e : ℕ}

theorem toInt_toInt64 (x : UInt64) :
    x.toInt64.toInt = if x.toNat < 2 ^ 63 then (x.toNat : ℤ) else x.toNat - 2 ^ 64 := by
  have hint : x.toInt64.toInt = x.toBitVec.toInt := rfl
  have hnat : x.toBitVec.toNat = x.toNat := rfl
  rw [hint, BitVec.toInt_eq_toNat_cond, hnat]
  split <;> split <;> omega

theorem width_sub_pos_iff (hw : w < 2 ^ 63) (he : e < 2 ^ 63) :
    (UInt64.ofNat w - UInt64.ofNat e).toInt64 > 0 ↔ e < w := by
  have hzero : (0 : Int64).toInt = 0 := rfl
  rw [gt_iff_lt, Int64.lt_iff_toInt_lt, hzero, toInt_toInt64, UInt64.toNat_sub,
    UInt64.toNat_ofNat', UInt64.toNat_ofNat']
  split <;> omega

/-- One round for each character that is missing. -/
theorem padLeft_text (hsep : ∀ exp, separator exp = false) (c : UInt8) (hw : w < 2 ^ 63)
    (he : e < 2 ^ 63) (io : Io) :
    Yields (fun n => padLeft separator c (UInt64.ofNat w) n ⟨UInt64.ofNat e, io⟩)
      ⟨UInt64.ofNat (max w e), io.putText (List.replicate (w - e) c)⟩ := by
  induction hm : w - e generalizing e io with
  | zero =>
    have hle : w ≤ e := by omega
    rw [Nat.max_eq_right hle, List.replicate_zero, putText_nil]
    refine loop_yields_exit fun hpos => ?_
    have hlt := (width_sub_pos_iff hw he).mp hpos
    omega
  | succ m ih =>
    have hlt : e < w := by omega
    have hrest := ih (e := e + 1) (by omega) (io.putText [c]) (by omega)
    rw [putText_putText, List.singleton_append, ← List.replicate_succ] at hrest
    rw [Nat.max_eq_left hlt.le]
    rw [Nat.max_eq_left (by omega : e + 1 ≤ w)] at hrest
    refine loop_yields_round ((width_sub_pos_iff hw he).mpr hlt) ?_ hrest
    simp only [hsep, ofNat_succ, count_putchar]
    rfl

theorem fillLeft_text (spec : Conversion) (separator : UInt64 → Bool)
    (hsep : ∀ exp, separator exp = false) (hw : w < 2 ^ 63) (he : e < 2 ^ 63) (io : Io) :
    Yields (fun n => fillLeft spec separator (UInt64.ofNat w) n ⟨UInt64.ofNat e, io⟩)
      ⟨UInt64.ofNat (filled spec w e),
        io.putText (List.replicate (filled spec w e - e) (zfillChar spec))⟩ := by
  by_cases hleft : spec.leftAligned = true
  · simp only [fillLeft, filled, if_pos hleft, Nat.sub_self, List.replicate_zero, putText_nil]
    exact yields_const.mpr rfl
  · have hmax : max w e - e = w - e := by omega
    simp only [fillLeft, filled, if_neg hleft, hmax]
    exact padLeft_text hsep (zfillChar spec) hw he io

/-- Behind the digits nothing is put out when none of `exp` is left. -/
theorem finish_text {step : UInt64} {s : Padding} (h : spec.leftAligned = true → s.exp = 0) :
    Yields (fun n => do
      let r ← fillRight spec step n s
      return r.io) s.io := by
  refine (yields_bind (fillRight_stable s) fun r => Stable.const (.ok r.io)).mpr
    ⟨s, ?_, yields_const.mpr rfl⟩
  by_cases hleft : spec.leftAligned = true
  · have hexit : ¬ s.exp > 0 := by simp [h hleft]
    simp only [fillRight, if_pos hleft]
    exact loop_yields_exit hexit
  · simp only [fillRight, if_neg hleft]
    exact yields_const.mpr rfl

theorem padRight_one_text (e : ℕ) (he : e < 2 ^ 64) (io : Io) :
    Yields (fun n => padRight 1 n ⟨UInt64.ofNat e, io⟩)
      ⟨0, io.putText (List.replicate e (ch ' '))⟩ := by
  induction e generalizing io with
  | zero =>
    have hexit : ¬ UInt64.ofNat 0 > 0 := by decide
    rw [List.replicate_zero, putText_nil]
    exact loop_yields_exit hexit
  | succ e ih =>
    have hpos : UInt64.ofNat (e + 1) > 0 := by
      rw [gt_iff_lt, UInt64.lt_iff_toNat_lt, UInt64.toNat_ofNat_of_lt' he]
      exact Nat.succ_pos e
    have hrest := ih (by omega) (io.putText [ch ' '])
    rw [putText_putText, List.singleton_append, ← List.replicate_succ] at hrest
    refine loop_yields_round hpos ?_ hrest
    simp only [← ofNat_succ, UInt64.add_sub_cancel, count_putchar]

/-- Behind the digits there is a space for each of `exp`. -/
theorem finish_one_text {step : UInt64} (hstep : spec.leftAligned = true → step = 1)
    (he : e < 2 ^ 64) (io : Io) :
    Yields (fun n => do
      let r ← fillRight spec step n ⟨UInt64.ofNat e, io⟩
      return r.io) (io.putText (behind spec e)) := by
  by_cases hleft : spec.leftAligned = true
  · obtain rfl := hstep hleft
    simp only [fillRight, behind, if_pos hleft]
    exact (yields_bind (loop_stable _) fun r => Stable.const (.ok r.io)).mpr
      ⟨_, padRight_one_text e he io, yields_const.mpr rfl⟩
  · simp only [behind, if_neg hleft, putText_nil]
    exact finish_text fun hcontra => absurd hcontra hleft

@[simp] theorem behind_of_right (hleft : spec.leftAligned = false) : behind spec e = [] := by
  simp [behind, hleft]

theorem filled_sub_of_right (hleft : spec.leftAligned = false) : filled spec w e - e = w - e := by
  rw [filled, hleft]
  simp only [Bool.false_eq_true, if_false]
  omega

end Filling

/-! ### Decimal digits -/

section Decimal

variable {spec : Conversion} {k e w : ℕ} {num : UInt64}

theorem toUInt8_digit {x : UInt64} (hx : x.toNat < 10) : (48 + x).toUInt8 = digitByte x.toNat := by
  have hall : ∀ d < 10, (48 + UInt64.ofNat d).toUInt8 = digitByte d := by decide
  simpa using hall x.toNat hx

theorem decimal_div (hk : k + 1 < 20) : decimal (k + 1) / 10 = decimal k := by
  have hten : (10 : UInt64).toNat = 10 := rfl
  rw [← UInt64.toNat_inj, UInt64.toNat_div, toNat_decimal_of_lt hk, toNat_decimal_of_lt (by omega),
    hten, pow_succ, Nat.mul_div_cancel _ (by decide)]

theorem ofNat_pred (he : 0 < e) : UInt64.ofNat e - 1 = UInt64.ofNat (e - 1) := by
  have hsucc := ofNat_succ (e - 1)
  rw [Nat.sub_add_cancel he] at hsucc
  rw [← hsucc, UInt64.add_sub_cancel]

/-- A digit in each round, with the commas behind them. -/
theorem decimalDigits_text (spec : Conversion) (hk : k < 20) (hke : k ≤ e)
    (hnum : num.toNat < 10 ^ k) (io : Io) :
    ∃ d, Yields (fun n => decimalDigits spec n ⟨decimal k, UInt64.ofNat e, num, io⟩) d ∧
      d.exp = UInt64.ofNat (e - k) ∧
      d.io = io.putText
        (separated spec e ((DigitList.fixed 10 k num.toNat).map digitByte)) := by
  induction k generalizing e num io with
  | zero =>
    have hone : ¬ decimal 0 > 1 := by decide
    exact ⟨_, loop_yields_exit hone, by simp, by simp [DigitList.fixed, separated]⟩
  | succ k ih =>
    have hpow : (decimal k).toNat = 10 ^ k := toNat_decimal_of_lt (by omega)
    have hpos : 0 < 10 ^ k := Nat.pow_pos (by decide)
    have hone : decimal (k + 1) > 1 := by
      rw [gt_iff_lt, UInt64.lt_iff_toNat_lt, toNat_decimal_of_lt hk]
      exact Nat.one_lt_pow (Nat.succ_ne_zero k) (by decide)
    have hne : decimal k ≠ 0 := by
      intro hzero
      rw [hzero] at hpow
      exact hpos.ne hpow
    have hdigit : (num / decimal k).toNat < 10 := by
      rw [UInt64.toNat_div, hpow, Nat.div_lt_iff_lt_mul hpos]
      rwa [pow_succ'] at hnum
    have hmod : (num % decimal k).toNat = num.toNat % 10 ^ k := by rw [UInt64.toNat_mod, hpow]
    have hdiv : (num / decimal k).toNat = num.toNat / 10 ^ k := by rw [UInt64.toNat_div, hpow]
    -- what the round puts out
    let text : List UInt8 := digitByte (num.toNat / 10 ^ k) ::
      if separatorAt spec (UInt64.ofNat (e - 1)) then [ch ','] else []
    have hrest : (num % decimal k).toNat < 10 ^ k := by
      rw [hmod]
      exact Nat.mod_lt _ hpos
    obtain ⟨d, hd, hexp, hio⟩ := ih (by omega) (by omega : k ≤ e - 1) hrest (io.putText text)
    refine ⟨d, loop_yields_round hone ?_ hd, by rw [hexp]; congr 1; omega, ?_⟩
    · simp only [decimal_div hk, if_neg hne, ofNat_pred (by omega : 0 < e), count_putchar,
        toUInt8_digit hdigit, hdiv, text]
      split <;> simp
    · rw [hio, hmod, putText_putText, DigitList.fixed, List.map_cons, separated]
      congr 1
      simp only [text]
      split <;> rfl

/-- The parts of a decimal conversion, if nothing is left behind the digits. -/
theorem putDecimal_of_parts {width : UInt64} {io : Io} {p : Power} {q : Padding} {d : Digits}
    (hp : Yields (power (fun _ => True) (· * 10) num) p)
    (hq : Yields (fun n => fillLeft spec (fun exp => !true && separatorAt spec exp) width n
      ⟨p.exp, io⟩) q)
    (hd : Yields (fun n => decimalDigits spec n ⟨p.val, q.exp, num, q.io⟩) d)
    (hleft : spec.leftAligned = true → d.exp = 0) :
    Yields (fun n => putDecimal spec width num io n) d.io := by
  refine (yields_bind power_stable fun p => ?_).mpr ⟨_, hp,
    (yields_bind (fillLeft_stable _) fun q => ?_).mpr ⟨_, hq,
      (yields_bind (decimalDigits_stable _) fun d => finish_stable _).mpr
        ⟨d, hd, finish_text hleft⟩⟩⟩
  · exact (fillLeft_stable _).bind fun _ => (decimalDigits_stable _).bind fun _ => finish_stable _
  · exact (decimalDigits_stable _).bind fun _ => finish_stable _

/-- A decimal conversion fills up and puts out the digits; nothing is left behind them. -/
theorem putDecimal_text (spec : Conversion) (hw : w < 2 ^ 63) (hnum : num.toNat < 10 ^ 19)
    (io : Io) :
    Yields (fun n => putDecimal spec (UInt64.ofNat w) num io n)
      (io.putText
        (List.replicate (filled spec w (digitText 10 num.toNat).length -
            (digitText 10 num.toNat).length) (zfillChar spec) ++
          separated spec (filled spec w (digitText 10 num.toNat).length)
            (digitText 10 num.toNat))) := by
  obtain ⟨k, hk, hk20, hlen, hp⟩ := decimalPower_of_lt hnum
  have hlt : num.toNat < 10 ^ k := ((DigitList.length_toDigits_eq_iff (by decide) hk).mp hlen).1
  have hdigits : (DigitList.fixed 10 k num.toNat).map digitByte = digitText 10 num.toNat := by
    rw [← hlen]
    exact map_digitByte_fixed (by decide) num.toNat
  rw [length_digitText, hlen]
  set f := filled spec w k
  have hle : k ≤ f := by
    unfold f filled
    split <;> omega
  have hq := fillLeft_text spec (fun exp => !true && separatorAt spec exp) (fun _ => rfl) hw
    (by omega : k < 2 ^ 63) io
  obtain ⟨d, hd, hexp, hio⟩ := decimalDigits_text spec hk20 hle hlt
    (io.putText (List.replicate (f - k) (zfillChar spec)))
  rw [hdigits, putText_putText] at hio
  rw [← hio]
  refine putDecimal_of_parts hp hq hd fun hleft => ?_
  have hf : f = k := if_pos hleft
  simp [hexp, hf]

/-- Behind a wrapped power there are nineteen digits, one less than the number has. -/
theorem putDecimal_text_of_wrap (hleft : spec.leftAligned = false)
    (hflag : spec.thousandsSeparator = false) (hle : 10 ^ 19 ≤ num.toNat) (hlt : num < greatestWrap)
    (io : Io) :
    ∃ text, text.length = 19 ∧ Yields (fun n => putDecimal spec 0 num io n) (io.putText text) := by
  obtain ⟨k, -, hk49, hgt, hp⟩ := decimalPower_of_wrap hle hlt
  have hlead : (decimal k).toNat / 10 ^ 19 = 1 := by
    have hval : num.toNat < (decimal k).toNat := UInt64.lt_iff_toNat_lt.mp hgt
    have hbound : (decimal k).toNat < 2 ^ 64 := (decimal k).toNat_lt
    omega
  have hq := fillLeft_text spec (fun exp => !true && separatorAt spec exp) (fun _ => rfl)
    (by decide : 0 < 2 ^ 63) (by omega : k < 2 ^ 63) io
  have hfilled : filled spec 0 k = k := by simp [filled]
  rw [hfilled, Nat.sub_self, List.replicate_zero, putText_nil] at hq
  obtain ⟨d, text, hd, -, hio, hlen⟩ := decimalDigits_yields spec
    (s := ⟨decimal k, UInt64.ofNat k, num, io⟩) hlead
  refine ⟨text, hlen hflag, ?_⟩
  rw [← hio]
  exact putDecimal_of_parts hp hq hd fun hcontra => by simp [hleft] at hcontra

end Decimal

/-! ### Digits to the other bases -/

section Based

variable {limit shift step num m : UInt64} {upper lower : List UInt8} {zeroCase broke : Bool}
  {spec : Conversion} {bits L k w e : ℕ}

/-- The digits of `m`.  The case for 0 puts out the digit that the loop would put out. -/
theorem Base.putDigits_text (h : Base limit shift upper lower bits L) (spec : Conversion)
    (hkL : k ≤ L) (hm : m.toNat ≤ 2 ^ (bits * k))
    (hzero : zeroCase = true → m = 0 → k = 1 ∧ tableByte spec upper lower 0 = ch '0')
    (exp : UInt64) (io : Io) :
    ∃ d, Yields (fun n => putDigits zeroCase (Printf.digitAt spec upper lower) shift n
        ⟨based bits k, exp, m, io⟩) d ∧ d.exp = exp ∧
      d.io = io.putText ((DigitList.fixed (2 ^ bits) k m.toNat).map
        (tableByte spec upper lower)) := by
  by_cases hcase : zeroCase = true ∧ m = 0
  · obtain ⟨rfl, hchar⟩ := hzero hcase.1 hcase.2
    refine ⟨⟨based bits 1, exp, m, (io.putchar (ch '0')).count⟩, ⟨0, if_pos hcase⟩, rfl, ?_⟩
    rw [DigitList.fixed_one, hcase.2, List.map_singleton]
    show io.putText [ch '0'] = io.putText [tableByte spec upper lower 0]
    rw [hchar]
  · have hlt : bits * k < 64 := lt_of_le_of_lt (Nat.mul_le_mul_left bits hkL) h.lt
    obtain ⟨d, hd, hexp, hio⟩ := basedDigits_text h.bits_pos (fun i hi => h.digitAt_eq spec hi)
      hlt hm exp io
    rw [← h.shift_eq] at hd
    refine ⟨d, ?_, hexp, hio⟩
    simpa only [putDigits, if_neg hcase] using hd

/-- The parts of a conversion to one of the bases. -/
theorem putBased_of_parts {width : UInt64} {io io' : Io} {p : Power} {f d : Digits} {q : Padding}
    (hp : Yields (power (· < limit) (· <<< shift) num) p)
    (hf : Printf.putFirstDigit (Printf.digitAt spec upper lower) ⟨p.val, p.exp, num, io⟩ = .ok f)
    (hq : Yields (fun n => fillLeft spec (fun _ => false) width n ⟨f.exp, f.io⟩) q)
    (hd : Yields (fun n => putDigits zeroCase (Printf.digitAt spec upper lower) shift n
      ⟨f.val, q.exp, f.num, q.io⟩) d)
    (hr : Yields (fun n => do
      let r ← fillRight spec step n ⟨d.exp, d.io⟩
      return r.io) io') :
    Yields (fun n => putBased limit shift upper lower zeroCase step spec width num io n) io' := by
  refine (yields_bind power_stable fun p => ?_).mpr ⟨_, hp,
    (yields_bind (Stable.const _) fun f => ?_).mpr ⟨_, yields_const.mpr hf,
      (yields_bind (fillLeft_stable _) fun q => ?_).mpr ⟨_, hq,
        (yields_bind (putDigits_stable _) fun d => finish_stable _).mpr ⟨d, hd, hr⟩⟩⟩⟩
  · exact (Stable.const _).bind fun _ => (fillLeft_stable _).bind fun _ =>
      (putDigits_stable _).bind fun _ => finish_stable _
  · exact (fillLeft_stable _).bind fun _ => (putDigits_stable _).bind fun _ => finish_stable _
  · exact (putDigits_stable _).bind fun _ => finish_stable _

/-- What comes behind the digit in front. -/
theorem Base.putBased_text (h : Base limit shift upper lower bits L)
    (hstep : spec.leftAligned = true → step = 1) (hw : w < 2 ^ 63) {io io' : Io} (hkL : k ≤ L)
    (hp : Yields (power (· < limit) (· <<< shift) num) ⟨UInt64.ofNat k, based bits k, broke⟩)
    (hf : Printf.putFirstDigit (Printf.digitAt spec upper lower)
      ⟨based bits k, UInt64.ofNat k, num, io⟩ = .ok ⟨based bits k, UInt64.ofNat e, m, io'⟩)
    (he : e < 2 ^ 63) (hm : m.toNat ≤ 2 ^ (bits * k))
    (hzero : zeroCase = true → m = 0 → k = 1 ∧ tableByte spec upper lower 0 = ch '0') :
    Yields (fun n => putBased limit shift upper lower zeroCase step spec (UInt64.ofNat w) num io n)
      (io'.putText (List.replicate (filled spec w e - e) (zfillChar spec) ++
        ((DigitList.fixed (2 ^ bits) k m.toNat).map (tableByte spec upper lower) ++
          behind spec (filled spec w e)))) := by
  have hq := fillLeft_text spec (fun _ => false) (fun _ => rfl) hw he io'
  obtain ⟨d, hd, hexp, hio⟩ := h.putDigits_text spec hkL hm hzero (UInt64.ofNat (filled spec w e))
    (io'.putText (List.replicate (filled spec w e - e) (zfillChar spec)))
  have hbound : filled spec w e < 2 ^ 64 := by
    unfold filled
    split <;> omega
  refine putBased_of_parts hp hf hq hd ?_
  rw [hexp, hio, ← putText_putText, ← putText_putText]
  exact finish_one_text hstep hbound _

/-- The loop ends at the power of the number of digits, or at the limit. -/
theorem Base.power_yields (h : Base limit shift upper lower bits L) (num : UInt64) :
    ∃ broke, Yields (power (· < limit) (· <<< shift) num)
      ⟨UInt64.ofNat (min (Nat.toDigits (2 ^ bits) num.toNat).length L),
        based bits (min (Nat.toDigits (2 ^ bits) num.toNat).length L), broke⟩ := by
  have hbase : 1 < 2 ^ bits := Nat.one_lt_two_pow h.bits_pos.ne'
  have hlt := h.lt
  obtain ⟨k, broke, hk, hkL, hp, hstop, hlow⟩ := basedPower_yields num h.L_pos h.lt h.bits_pos
  rw [← h.limit_eq, ← h.shift_eq] at hp
  have hbits : bits * k < 64 := lt_of_le_of_lt (Nat.mul_le_mul_left bits hkL) hlt
  have hmin : min (Nat.toDigits (2 ^ bits) num.toNat).length L = k := by
    have hlow : k = 1 ∨ (2 ^ bits) ^ (k - 1) ≤ num.toNat := by
      refine hlow.imp_right fun hle => ?_
      have hbits' : bits * (k - 1) < 64 :=
        lt_of_le_of_lt (Nat.mul_le_mul_left bits (Nat.sub_le k 1)) hbits
      rwa [UInt64.le_iff_toNat_le, toNat_based hbits', pow_mul] at hle
    by_cases hpass : num < based bits k
    · rw [UInt64.lt_iff_toNat_lt, toNat_based hbits, pow_mul] at hpass
      rw [(DigitList.length_toDigits_eq_iff hbase hk).mpr ⟨hpass, hlow⟩, Nat.min_eq_left hkL]
    · obtain rfl : k = L := hstop.resolve_left hpass
      rw [UInt64.lt_iff_toNat_lt, toNat_based hbits, pow_mul] at hpass
      have hlen := Nat.length_toDigits_le_iff (n := num.toNat) hbase hk
      omega
  rw [hmin]
  exact ⟨broke, hp⟩

/-- A number up to the limit; the limit itself is written with the digit `2 ^ bits`. -/
theorem Base.putBased_text_of_le (zeroCase : Bool) (h : Base limit shift upper lower bits L)
    (hstep : spec.leftAligned = true → step = 1) (hw : w < 2 ^ 63)
    (hnum : num.toNat ≤ 2 ^ (bits * L)) (htable : tableByte spec upper lower 0 = ch '0')
    (hk : min (Nat.toDigits (2 ^ bits) num.toNat).length L = k) (io : Io) :
    Yields (fun n => putBased limit shift upper lower zeroCase step spec (UInt64.ofNat w) num io n)
      (io.putText (List.replicate (filled spec w k - k) (zfillChar spec) ++
        ((DigitList.fixed (2 ^ bits) k num.toNat).map (tableByte spec upper lower) ++
          behind spec (filled spec w k)))) := by
  obtain ⟨broke, hp⟩ := h.power_yields num
  rw [hk] at hp
  have hkL : k ≤ L := by omega
  have hbits : bits * k < 64 := lt_of_le_of_lt (Nat.mul_le_mul_left bits hkL) h.lt
  have hL64 : L < 64 := lt_of_le_of_lt (Nat.le_mul_of_pos_left L h.bits_pos) h.lt
  have hbase : 1 < 2 ^ bits := Nat.one_lt_two_pow h.bits_pos.ne'
  have hle : num.toNat ≤ 2 ^ (bits * k) := by
    rcases Nat.lt_or_ge k L with hlt | hge
    · have hlen : (Nat.toDigits (2 ^ bits) num.toNat).length ≤ k := by omega
      rw [pow_mul]
      exact ((Nat.length_toDigits_le_iff hbase
        (lt_of_lt_of_le Nat.length_toDigits_pos hlen)).mp hlen).le
    · rwa [show k = L by omega]
  have hnot : ¬ based bits k < num := by
    rw [UInt64.lt_iff_toNat_lt, toNat_based hbits]
    omega
  refine h.putBased_text hstep hw hkL hp (if_neg hnot) (by omega) hle fun _ hzero => ⟨?_, htable⟩
  have hlen : (Nat.toDigits (2 ^ bits) num.toNat).length = 1 := by
    have hnat : num.toNat = 0 := congrArg UInt64.toNat hzero
    rw [hnat, Nat.toDigits_zero, List.length_singleton]
  have hLpos := h.L_pos
  omega

/-- A number above the limit: the digit in front comes before the filling. -/
theorem Base.putBased_text_of_gt (h : Base limit shift upper lower bits L)
    (hstep : spec.leftAligned = true → step = 1) (hw : w < 2 ^ 63)
    (hnum : 2 ^ (bits * L) < num.toNat)
    (hzero : zeroCase = true → num.toNat % 2 ^ (bits * L) ≠ 0) (io : Io) :
    Yields (fun n => putBased limit shift upper lower zeroCase step spec (UInt64.ofNat w) num io n)
      (io.putText (tableByte spec upper lower (num.toNat / 2 ^ (bits * L)) ::
        (List.replicate (filled spec w (L + 1) - (L + 1)) (zfillChar spec) ++
          ((DigitList.fixed (2 ^ bits) L (num.toNat % 2 ^ (bits * L))).map
            (tableByte spec upper lower) ++ behind spec (filled spec w (L + 1)))))) := by
  obtain ⟨broke, hp⟩ := h.power_yields num
  have hL64 : L < 64 := lt_of_le_of_lt (Nat.le_mul_of_pos_left L h.bits_pos) h.lt
  have hbase : 1 < 2 ^ bits := Nat.one_lt_two_pow h.bits_pos.ne'
  have hpow : (based bits L).toNat = 2 ^ (bits * L) := toNat_based h.lt
  have hk : min (Nat.toDigits (2 ^ bits) num.toNat).length L = L := by
    have hlen := Nat.length_toDigits_le_iff (n := num.toNat) hbase h.L_pos
    rw [← pow_mul] at hlen
    omega
  rw [hk] at hp
  have hmod : (num % based bits L).toNat = num.toNat % 2 ^ (bits * L) := by
    rw [UInt64.toNat_mod, hpow]
  have hgt : based bits L < num := by rwa [UInt64.lt_iff_toNat_lt, hpow]
  -- the first digit is put out, and what is left is below the greatest power
  have hf := h.putFirstDigit_of_lt spec (s := ⟨based bits L, UInt64.ofNat L, num, io⟩) rfl hgt
  dsimp only at hf
  rw [ofNat_succ] at hf
  have hrest : (num % based bits L).toNat ≤ 2 ^ (bits * L) := by
    rw [hmod]
    exact (Nat.mod_lt _ (Nat.two_pow_pos _)).le
  rw [← hmod, ← List.singleton_append, ← putText_putText]
  refine h.putBased_text hstep hw le_rfl hp hf (by omega) hrest fun hcase hzero' => ?_
  refine absurd ?_ (hzero hcase)
  rw [← hmod, hzero']
  rfl

end Based

/-! ### Binary numbers -/

/-- A binary conversion of a number that its table has a character for. -/
theorem putBinary_text (spec : Conversion) {num : UInt64} {w : ℕ} (hnum : num ≤ 2)
    (hleft : spec.leftAligned = true → num ≤ 1) (hw : w < 2 ^ 63) (io : Io) :
    Yields (fun n => putBased intLimit 1 binaryChars binaryChars true 0 spec (UInt64.ofNat w) num
        io n)
      (io.putText (binaryFront num ++
        (List.replicate (filled spec w (binaryFront num).length - (binaryFront num).length)
          (zfillChar spec) ++ binaryBack num))) := by
  obtain ⟨rest, hf, hd⟩ := putBinary_parts spec hnum io
  set e := (binaryFront num).length with he
  have hle : e ≤ 1 := by
    rw [he, binaryFront]
    split <;> decide
  have hq := fillLeft_text spec (fun _ => false) (fun _ => rfl) hw (by omega : e < 2 ^ 63)
    (io.putText (binaryFront num))
  rw [← putText_putText, ← putText_putText]
  refine putBased_of_parts (power_intLimit _ num) hf hq (hd _ _) (finish_text fun hflag => ?_)
  -- nothing is left of `exp` behind a left-aligned number
  have hzero : e = 0 := by
    have hne : num ≠ 2 := by
      rintro rfl
      exact absurd (hleft hflag) (by decide)
    rw [he, binaryFront, if_neg hne, List.length_nil]
  rw [filled, if_pos hflag, hzero]
  rfl

end Printf

end Betelgeuse
