/-
Where the loops of the conversions end, and where they do not.

`Io.putText` puts out a text and counts it, as the loops do character by character.

The loop that looks for a power above the number goes through the powers of the
base modulo `2 ^ 64` (`power_yields`).  For the base 10 it wraps when the number is
at least `10 ^ 19`; it then ends at a wrapped power, of which `10 ^ 49` is the
greatest (`decimal_le`), or not at all (`decimalPower_diverges`).

The loops over the digits take one digit off the power in each round
(`decimalDigits_yields`, `basedDigits_text`).  The loop that fills up to the left always
ends; the one behind the digits ends only if it lowers `exp` (`padRight_one_halts`,
`padRight_zero_halts_iff`).
-/
import Betelgeuse.DigitList
import Betelgeuse.Printf
import Betelgeuse.WordArith
import Mathlib.Tactic.IntervalCases

open WhileLoop WordArith

namespace Betelgeuse

namespace Printf

/-! ### Texts -/

/-- A `putchar` call for each character of a text, with its `num_chars_written++`. -/
def Io.putText (s : Io) (text : List UInt8) : Io where
  events := s.events ++ text.map .put
  numCharsWritten := s.numCharsWritten + text.length

section Text

variable (s : Io)

@[simp] theorem putText_nil : s.putText [] = s := by simp [Io.putText]

@[simp] theorem count_putchar (c : UInt8) : (s.putchar c).count = s.putText [c] := rfl

@[simp] theorem putText_putText (text text' : List UInt8) :
    (s.putText text).putText text' = s.putText (text ++ text') := by
  simp [Io.putText, add_assoc]

end Text

theorem ofNat_succ (k : ℕ) : UInt64.ofNat k + 1 = UInt64.ofNat (k + 1) := by
  rw [UInt64.ofNat_add]
  rfl

/-! ### Padding -/

theorem ne_zero_of_toInt64_pos {x : UInt64} (h : x.toInt64 > 0) : x ≠ 0 := by
  rintro rfl
  exact absurd h (by decide)

theorem toNat_sub_one {x : UInt64} (h : x ≠ 0) : (x - 1).toNat + 1 = x.toNat := by
  have hone : (1 : UInt64).toNat = 1 := rfl
  have hpos : x.toNat ≠ 0 := fun hzero => h (UInt64.toNat_inj.mp hzero)
  rw [UInt64.toNat_sub_of_le _ _ (by rw [UInt64.le_iff_toNat_le, hone]; omega), hone]
  omega

theorem padLeft_halts (separator : UInt64 → Bool) (c : UInt8) (width : UInt64) (s : Padding) :
    Halts fun n => padLeft separator c width n s := by
  have hlower : ∀ x : UInt64, (width - x).toInt64 > 0 →
      (width - (x + 1)).toNat < (width - x).toNat := by
    intro x hpos
    have hstep : width - (x + 1) = width - x - 1 := by grind
    have hone := toNat_sub_one (ne_zero_of_toInt64_pos hpos)
    rw [hstep]
    omega
  obtain ⟨s', hs', -⟩ := loop_yields (c := fun s : Padding => (width - s.exp).toInt64 > 0)
    (b := fun s : Padding => Except.ok (ε := Stop)
      ⟨s.exp + 1, ((if separator s.exp then (s.io.putchar (ch ',')).count else s.io).putchar
        c).count⟩)
    (s := s) Stop.fuel (fun _ => True) (fun s => (width - s.exp).toNat) trivial
    fun s _ hpos => ⟨_, rfl, trivial, hlower s.exp hpos⟩
  exact ⟨s', hs'⟩

theorem padRight_one_halts (s : Padding) : Halts fun n => padRight 1 n s := by
  have hlower : ∀ x : UInt64, x > 0 → (x - 1).toNat < x.toNat := by
    intro x hpos
    have hone := toNat_sub_one (UInt64.ne_of_lt hpos).symm
    omega
  obtain ⟨s', hs', -⟩ := loop_yields (c := fun s : Padding => s.exp > 0)
    (b := fun s : Padding => Except.ok (ε := Stop) ⟨s.exp - 1, (s.io.putchar (ch ' ')).count⟩)
    (s := s) Stop.fuel (fun _ => True) (fun s => s.exp.toNat) trivial
    fun s _ hpos => ⟨_, rfl, trivial, hlower s.exp hpos⟩
  exact ⟨s', hs'⟩

/-- Without a change of `exp` the loop behind the digits does nothing or does not
end. -/
theorem padRight_zero_halts_iff (s : Padding) :
    Halts (fun n => padRight 0 n s) ↔ s.exp = 0 := by
  constructor
  · intro h
    by_contra hne
    refine loop_diverges (fun s : Padding => s.exp ≠ 0) hne (fun s hs => ?_) (fun s t hs ht => ?_) h
    · exact UInt64.pos_iff_ne_zero.mpr hs
    · obtain rfl := Except.ok.inj ht
      show s.exp - 0 ≠ 0
      rwa [UInt64.sub_zero]
  · intro hzero
    refine ⟨s, 1, loop_exit ?_ 0⟩
    rw [hzero]
    decide

/-! ### The powers -/

section Power

variable {guard : UInt64 → Prop} [DecidablePred guard] {next : UInt64 → UInt64} {num : UInt64}

/-- The loop goes through the powers `f 1, f 2, ..` up to the first one that is above
the number or does not pass the guard. -/
theorem power_yields {f : ℕ → UInt64} {K : ℕ} (hzero : f 0 = 1) (hguard : guard 1)
    (hnext : ∀ k, k < K → next (f k) = f (k + 1)) (hK : 0 < K) (hlt : K < 2 ^ 64)
    (hstop : f K > num ∨ ¬ guard (f K)) :
    ∃ k, 0 < k ∧ k ≤ K ∧
      Yields (power guard next num) ⟨UInt64.ofNat k, f k, decide (f k > num)⟩ ∧
      (f k > num ∨ ¬ guard (f k)) ∧ ∀ j, 0 < j → j < k → ¬ f j > num := by
  let P : Power → Prop := fun s =>
    ∃ k ≤ K, s = ⟨UInt64.ofNat k, f k, decide (0 < k ∧ f k > num)⟩ ∧
      ∀ j, 0 < j → j < k → ¬ f j > num
  have hstart : P ⟨0, 1, false⟩ :=
    ⟨0, Nat.zero_le K, by rw [hzero]; rfl, fun j hj hlt => absurd hj (by omega)⟩
  have hround : ∀ s, P s → s.broke = false ∧ guard s.val →
      ∃ s', Except.ok (ε := Stop) (⟨s.exp + 1, next s.val, decide (next s.val > num)⟩ : Power) =
        .ok s' ∧ P s' ∧ K - s'.exp.toNat < K - s.exp.toNat := by
    rintro _ ⟨k, hkK, rfl, hbelow⟩ ⟨hbroke, hg⟩
    have hnot : 0 < k → ¬ f k > num := by simpa using hbroke
    have hkK : k < K := by
      refine lt_of_le_of_ne hkK ?_
      rintro rfl
      rcases hstop with hstop | hstop
      · exact hnot hK hstop
      · exact hstop hg
    refine ⟨_, rfl, ⟨k + 1, hkK, ?_, fun j hj hlt => ?_⟩, ?_⟩
    · have hpos : 0 < k + 1 := Nat.succ_pos k
      simp only [ofNat_succ, hnext k hkK, hpos, true_and]
    · rcases Nat.lt_succ_iff_lt_or_eq.mp hlt with hlt | rfl
      · exact hbelow j hj hlt
      · exact hnot hj
    · show K - (UInt64.ofNat k + 1).toNat < K - (UInt64.ofNat k).toNat
      rw [ofNat_succ, UInt64.toNat_ofNat', UInt64.toNat_ofNat']
      omega
  obtain ⟨s, hs, ⟨k, hkK, rfl, hbelow⟩, hexit⟩ :=
    loop_yields Stop.fuel P (fun s => K - s.exp.toNat) hstart hround
  -- the loop does not end before the first power
  have hk : 0 < k := by
    by_contra hk
    obtain rfl : k = 0 := by omega
    exact hexit ⟨rfl, by rw [hzero]; exact hguard⟩
  have hbroke : decide (0 < k ∧ f k > num) = decide (f k > num) := by simp [hk]
  rw [hbroke] at hs hexit
  refine ⟨k, hk, hkK, hs, ?_, hbelow⟩
  by_contra hno
  push Not at hno
  exact hexit ⟨by simpa using hno.1, hno.2⟩

end Power

/-! ### Powers of ten -/

/-- `10 ^ k` modulo `2 ^ 64`. -/
def decimal (k : ℕ) : UInt64 := UInt64.ofNat (10 ^ k)

/-- `10 ^ 49` modulo `2 ^ 64`, the greatest of these. -/
def greatestWrap : UInt64 := 17909126868192198656

theorem decimal_succ (k : ℕ) : decimal k * 10 = decimal (k + 1) := by
  rw [decimal, decimal, pow_succ, UInt64.ofNat_mul]
  rfl

theorem toNat_decimal (k : ℕ) : (decimal k).toNat = 10 ^ k % 2 ^ 64 := UInt64.toNat_ofNat'

theorem toNat_decimal_of_lt {k : ℕ} (h : k < 20) : (decimal k).toNat = 10 ^ k := by
  have hle : 10 ^ k ≤ 10 ^ 19 := Nat.pow_le_pow_right (by decide) (by omega)
  rw [toNat_decimal, Nat.mod_eq_of_lt (by omega)]

theorem decimal_le (k : ℕ) : decimal k ≤ greatestWrap := by
  rw [UInt64.le_iff_toNat_le, toNat_decimal]
  by_cases h : k < 64
  · have hall : ∀ k < 64, 10 ^ k % 2 ^ 64 ≤ greatestWrap.toNat := by decide
    exact hall k h
  · have hdvd : 2 ^ 64 ∣ 10 ^ k :=
      Dvd.dvd.trans (Nat.pow_dvd_pow 2 (Nat.not_lt.mp h)) (pow_dvd_pow_of_dvd (by decide) k)
    rw [Nat.mod_eq_zero_of_dvd hdvd]
    exact Nat.zero_le _

/-- A number below `10 ^ 19` is passed by the power of its number of digits, which does not
wrap. -/
theorem decimalPower_of_lt {num : UInt64} (h : num.toNat < 10 ^ 19) :
    ∃ k, 0 < k ∧ k < 20 ∧ (Nat.toDigits 10 num.toNat).length = k ∧
      Yields (power (fun _ => True) (· * 10) num) ⟨UInt64.ofNat k, decimal k, true⟩ := by
  have hgt_iff : ∀ k < 20, decimal k > num ↔ num.toNat < 10 ^ k := by
    intro k hk
    rw [gt_iff_lt, UInt64.lt_iff_toNat_lt, toNat_decimal_of_lt hk]
  have hstop : decimal 19 > num := (hgt_iff 19 (by decide)).mpr h
  obtain ⟨k, hk, hle, hyields, hexit, hbelow⟩ := @power_yields (fun _ => True) _ (· * 10) num
    decimal 19 rfl trivial (fun k _ => decimal_succ k) (by decide) (by decide) (.inl hstop)
  have hgt : decimal k > num := hexit.resolve_right (not_not.mpr trivial)
  rw [decide_eq_true hgt] at hyields
  refine ⟨k, hk, by omega, ?_, hyields⟩
  refine (DigitList.length_toDigits_eq_iff (by decide) hk).mpr
    ⟨(hgt_iff k (by omega)).mp hgt, ?_⟩
  -- the power before it does not pass the number
  by_cases hone : k = 1
  · exact .inl hone
  · have hnot := hbelow (k - 1) (by omega) (by omega)
    rw [hgt_iff (k - 1) (by omega), Nat.not_lt] at hnot
    exact .inr hnot

/-- A number from `10 ^ 19` on that is below the greatest wrapped power is passed by a
wrapped power, of twenty digits. -/
theorem decimalPower_of_wrap {num : UInt64} (hle : 10 ^ 19 ≤ num.toNat)
    (hlt : num < greatestWrap) :
    ∃ k, 20 ≤ k ∧ k ≤ 49 ∧ num < decimal k ∧
      Yields (power (fun _ => True) (· * 10) num) ⟨UInt64.ofNat k, decimal k, true⟩ := by
  have hstop : decimal 49 > num := hlt
  obtain ⟨k, hk, hle49, hyields, hexit, -⟩ := @power_yields (fun _ => True) _ (· * 10) num
    decimal 49 rfl trivial (fun k _ => decimal_succ k) (by decide) (by decide) (.inl hstop)
  have hgt : decimal k > num := hexit.resolve_right (not_not.mpr trivial)
  rw [decide_eq_true hgt] at hyields
  refine ⟨k, ?_, hle49, hgt, hyields⟩
  by_contra hsmall
  have hpow : 10 ^ k ≤ 10 ^ 19 := Nat.pow_le_pow_right (by decide) (by omega)
  rw [gt_iff_lt, UInt64.lt_iff_toNat_lt, toNat_decimal_of_lt (by omega)] at hgt
  omega

/-- No power passes the other numbers. -/
theorem decimalPower_diverges {num : UInt64} (h : greatestWrap ≤ num) :
    ¬ Halts (power (fun _ => True) (· * 10) num) := by
  refine loop_diverges (fun s : Power => s.broke = false ∧ ∃ k, s.val = decimal k)
    ⟨rfl, 0, rfl⟩ (fun s hs => ⟨hs.1, trivial⟩) ?_
  rintro ⟨exp, val, broke⟩ s' ⟨-, k, rfl⟩ hs'
  obtain rfl := Except.ok.inj hs'
  have hle : ¬ decimal (k + 1) > num := UInt64.not_lt.mpr (UInt64.le_trans (decimal_le (k + 1)) h)
  refine ⟨?_, k + 1, decimal_succ k⟩
  show decide (decimal k * 10 > num) = false
  rw [decimal_succ]
  exact decide_eq_false hle

/-- The digits end at the last one, whose power is 1: the power has the leading
digit 1 in front of every round.  Each round puts out a character, and a comma at most. -/
theorem decimalDigits_yields (spec : Conversion) {r : ℕ} : ∀ {s : Digits},
    s.val.toNat / 10 ^ r = 1 →
      ∃ d text, Yields (fun n => decimalDigits spec n s) d ∧ d.exp = s.exp - UInt64.ofNat r ∧
        d.io = s.io.putText text ∧ (spec.thousandsSeparator = false → text.length = r) := by
  induction r with
  | zero =>
    intro s h
    rw [pow_zero, Nat.div_one] at h
    have hexit : ¬ s.val > 1 := by
      rw [gt_iff_lt, UInt64.lt_iff_toNat_lt, h]
      exact Nat.lt_irrefl 1
    have hzero : s.exp = s.exp - UInt64.ofNat 0 := by
      rw [show UInt64.ofNat 0 = 0 from rfl, UInt64.sub_zero]
    exact ⟨s, [], loop_yields_exit hexit, hzero, (putText_nil s.io).symm, fun _ => rfl⟩
  | succ r ih =>
    intro s h
    have hval : (s.val / 10).toNat / 10 ^ r = 1 := by
      rw [UInt64.toNat_div]
      show s.val.toNat / 10 / 10 ^ r = 1
      rw [Nat.div_div_eq_div_mul, ← pow_succ', h]
    have hne : s.val / 10 ≠ 0 := by
      intro hzero
      rw [hzero] at hval
      simp at hval
    have hround : s.val > 1 := by
      rw [gt_iff_lt, UInt64.lt_iff_toNat_lt]
      show 1 < s.val.toNat
      have hpow : 10 ^ 1 ≤ 10 ^ (r + 1) := Nat.pow_le_pow_right (by decide) (by omega)
      by_contra hle
      rw [Nat.div_eq_of_lt (by omega)] at h
      cases h
    -- what the round puts out
    let c : UInt8 := (48 + s.num / (s.val / 10)).toUInt8
    let comma : List UInt8 := if separatorAt spec (s.exp - 1) then [ch ','] else []
    obtain ⟨d, text, hd, hexp, hio, hlen⟩ :=
      @ih ⟨s.val / 10, s.exp - 1, s.num % (s.val / 10), s.io.putText (c :: comma)⟩ hval
    refine ⟨d, c :: comma ++ text, loop_yields_round hround ?_ hd, ?_, ?_, fun hflag => ?_⟩
    · simp only [if_neg hne, count_putchar, c, comma]
      split <;> simp
    · rw [hexp, ← ofNat_succ]
      show s.exp - 1 - UInt64.ofNat r = s.exp - (UInt64.ofNat r + 1)
      grind
    · rw [hio, putText_putText]
    · have hno : separatorAt spec (s.exp - 1) = false := by simp [separatorAt, hflag]
      have hcomma : comma = [] := by simp [comma, hno]
      rw [hcomma, List.cons_append, List.nil_append, List.length_cons, hlen hflag]

/-! ### Powers of two -/

section Based

variable {shift L k : ℕ} {num : UInt64}

/-- `(2 ^ shift) ^ k`. -/
def based (shift k : ℕ) : UInt64 := UInt64.ofNat (2 ^ (shift * k))

theorem toNat_based {k : ℕ} (hk : shift * k < 64) : (based shift k).toNat = 2 ^ (shift * k) := by
  rw [based, UInt64.toNat_ofNat', Nat.mod_eq_of_lt (Nat.pow_lt_pow_right (by decide) hk)]

theorem toNat_shift (hshift : shift < 64) : (UInt64.ofNat shift).toNat % 64 = shift := by
  rw [UInt64.toNat_ofNat', Nat.mod_eq_of_lt (by omega : shift < 2 ^ 64), Nat.mod_eq_of_lt hshift]

theorem based_succ {k : ℕ} (hk : shift * (k + 1) < 64) :
    based shift k <<< UInt64.ofNat shift = based shift (k + 1) := by
  have hmul : shift * (k + 1) = shift * k + shift := Nat.mul_succ shift k
  rw [← UInt64.toNat_inj, toNat_shiftLeft (toNat_shift (by omega)), toNat_based (by omega),
    toNat_based hk, ← pow_add, ← hmul, Nat.mod_eq_of_lt (Nat.pow_lt_pow_right (by decide) hk)]

theorem based_shiftRight {k : ℕ} (hk : shift * (k + 1) < 64) :
    based shift (k + 1) >>> UInt64.ofNat shift = based shift k := by
  have hmul : shift * (k + 1) = shift * k + shift := Nat.mul_succ shift k
  rw [← UInt64.toNat_inj, toNat_shiftRight (toNat_shift (by omega)), toNat_based hk,
    toNat_based (by omega), hmul, pow_add, Nat.mul_div_cancel _ (Nat.two_pow_pos shift)]

theorem based_ne_zero {k : ℕ} (hk : shift * k < 64) : based shift k ≠ 0 := by
  intro hzero
  have htoNat := toNat_based hk
  rw [hzero] at htoNat
  exact (Nat.two_pow_pos _).ne htoNat

/-- The loop ends at the first power above the number or at the limit. -/
theorem basedPower_yields (num : UInt64) (hL : 0 < L) (hlimit : shift * L < 64)
    (hshift : 0 < shift) :
    ∃ k broke, 0 < k ∧ k ≤ L ∧
      Yields (power (· < based shift L) (· <<< UInt64.ofNat shift) num)
        ⟨UInt64.ofNat k, based shift k, broke⟩ ∧ (num < based shift k ∨ k = L) ∧
      (k = 1 ∨ based shift (k - 1) ≤ num) := by
  have hle64 : L < 64 := lt_of_le_of_lt (Nat.le_mul_of_pos_left L hshift) hlimit
  have hone : based shift 0 = 1 := rfl
  have hguard : (1 : UInt64) < based shift L := by
    rw [UInt64.lt_iff_toNat_lt, toNat_based hlimit]
    exact Nat.one_lt_two_pow (Nat.mul_pos hshift hL).ne'
  have hnext : ∀ k, k < L → based shift k <<< UInt64.ofNat shift = based shift (k + 1) :=
    fun k hk => based_succ (lt_of_le_of_lt (Nat.mul_le_mul_left shift hk) hlimit)
  obtain ⟨k, hk, hkL, hyields, hexit, hbelow⟩ := @power_yields (· < based shift L) _
    (· <<< UInt64.ofNat shift) num _ _ hone hguard hnext hL (by omega)
    (.inr (UInt64.lt_irrefl _))
  have hlow : k = 1 ∨ based shift (k - 1) ≤ num := by
    by_cases hone : k = 1
    · exact .inl hone
    · exact .inr (UInt64.not_lt.mp (hbelow (k - 1) (by omega) (by omega)))
  refine ⟨k, _, hk, hkL, hyields, ?_, hlow⟩
  rcases hexit with hgt | hlast
  · exact .inl hgt
  · right
    by_contra hne
    have hlt : shift * k < shift * L := Nat.mul_lt_mul_of_pos_left (by omega) hshift
    refine hlast (UInt64.lt_iff_toNat_lt.mpr ?_)
    rw [toNat_based (by omega), toNat_based hlimit]
    exact Nat.pow_lt_pow_right (by decide) hlt

/-- A digit in each round; the first is the digit `2 ^ shift` if the number is the power. -/
theorem basedDigits_text {digit : UInt64 → Except Stop UInt8} {f : ℕ → UInt8}
    (hshift : 0 < shift) (hdigit : ∀ i : UInt64, i.toNat ≤ 2 ^ shift → digit i = .ok (f i.toNat))
    (hk : shift * k < 64) (hnum : num.toNat ≤ 2 ^ (shift * k)) (exp : UInt64) (io : Io) :
    ∃ d, Yields (fun n => basedDigits digit (UInt64.ofNat shift) n
        ⟨based shift k, exp, num, io⟩) d ∧
      d.exp = exp ∧ d.io = io.putText ((DigitList.fixed (2 ^ shift) k num.toNat).map f) := by
  induction k generalizing num io with
  | zero =>
    have hone : ¬ based shift 0 > 1 := by
      simp [based]
    exact ⟨_, loop_yields_exit hone, rfl, by simp [DigitList.fixed]⟩
  | succ k ih =>
    -- one round puts the first digit out and leaves the rest of the number
    have hmul : shift * (k + 1) = shift * k + shift := Nat.mul_succ shift k
    have hpow : (based shift k).toNat = (2 ^ shift) ^ k := by
      rw [toNat_based (by omega), pow_mul]
    have hpos : 0 < (2 ^ shift) ^ k := Nat.pow_pos (Nat.two_pow_pos shift)
    have hone : based shift (k + 1) > 1 := by
      rw [gt_iff_lt, UInt64.lt_iff_toNat_lt, toNat_based hk]
      exact Nat.one_lt_two_pow (by omega)
    have hmod : (num % based shift k).toNat = num.toNat % (2 ^ shift) ^ k := by
      rw [UInt64.toNat_mod, hpow]
    have hdiv : (num / based shift k).toNat = num.toNat / (2 ^ shift) ^ k := by
      rw [UInt64.toNat_div, hpow]
    have hle : (num / based shift k).toNat ≤ 2 ^ shift := by
      rw [hdiv]
      refine Nat.div_le_of_le_mul ?_
      rwa [← pow_succ, ← pow_mul]
    have hrest : (num % based shift k).toNat ≤ 2 ^ (shift * k) := by
      rw [hmod, pow_mul]
      exact (Nat.mod_lt _ hpos).le
    obtain ⟨d, hd, hexp, hio⟩ := ih (by omega) hrest
      (io.putText [f (num.toNat / (2 ^ shift) ^ k)])
    refine ⟨d, loop_yields_round hone ?_ hd, hexp, ?_⟩
    · simp only [based_shiftRight hk, if_neg (based_ne_zero (by omega : shift * k < 64)),
        hdigit _ hle, hdiv, ok_bind, count_putchar]
      rfl
    · rw [hio, hmod, putText_putText, DigitList.fixed]
      simp

end Based

end Printf

end Betelgeuse
