/-
Digits of a fixed number.

`fixed b k n` is what a loop writes that divides `n` by `b ^ (k - 1)`, by
`b ^ (k - 2)` and so on down to 1 and goes on with the remainders: `k` digits to the
base `b`, the most significant one first.  For `n < b ^ k` these are digits of the base
with the value `n` (`lt_of_mem_fixed`, `ofDigits_reverse_fixed`), and without leading
zeros if `k` is the number of digits of `n` (`toDigits_eq_map_fixed`).
-/
import Mathlib.Data.Nat.Digits.Lemmas

namespace DigitList

/-- `k` digits of `n` to the base `b`; the first one is not reduced. -/
def fixed (b : ℕ) : ℕ → ℕ → List ℕ
  | 0, _ => []
  | k + 1, n => n / b ^ k :: fixed b k (n % b ^ k)

section Fixed

variable {b k n : ℕ}

@[simp] theorem length_fixed : ∀ (k n : ℕ), (fixed b k n).length = k
  | 0, _ => rfl
  | k + 1, n => by simp [fixed, length_fixed k]

@[simp] theorem fixed_one (b n : ℕ) : fixed b 1 n = [n] := by simp [fixed]

theorem lt_of_mem_fixed (hb : 0 < b) (h : n < b ^ k) {d : ℕ} (hd : d ∈ fixed b k n) : d < b := by
  induction k generalizing n with
  | zero => simp [fixed] at hd
  | succ k ih =>
    have hpos : 0 < b ^ k := Nat.pow_pos hb
    rcases List.mem_cons.mp hd with rfl | hd
    · rw [Nat.div_lt_iff_lt_mul hpos]
      rwa [pow_succ'] at h
    · exact ih (Nat.mod_lt n hpos) hd

/-- The value of the digits. -/
theorem ofDigits_reverse_fixed (hb : 0 < b) (h : n < b ^ k) :
    Nat.ofDigits b (fixed b k n).reverse = n := by
  induction k generalizing n with
  | zero => simp_all [fixed]
  | succ k ih =>
    rw [fixed, Nat.ofDigits_reverse_cons, ih (Nat.mod_lt n (Nat.pow_pos hb)), length_fixed]
    exact Nat.mod_add_div n (b ^ k)

/-- The digits from the other end. -/
theorem fixed_succ (hb : 0 < b) (h : n < b ^ (k + 1)) :
    fixed b (k + 1) n = fixed b k (n / b) ++ [n % b] := by
  induction k generalizing n with
  | zero =>
    rw [zero_add, pow_one] at h
    simp [fixed, Nat.mod_eq_of_lt h]
  | succ k ih =>
    have hmod : n % b ^ (k + 1) < b ^ (k + 1) := Nat.mod_lt n (Nat.pow_pos hb)
    have hdiv : n % b ^ (k + 1) / b = n / b % b ^ k := by
      rw [pow_succ', Nat.mod_mul_right_div_self]
    have hlast : n % b ^ (k + 1) % b = n % b := by
      rw [pow_succ', Nat.mod_mul_right_mod]
    have hhead : n / b ^ (k + 1) = n / b / b ^ k := by
      rw [Nat.div_div_eq_div_mul, pow_succ']
    rw [fixed, ih hmod, hdiv, hlast, hhead]
    rfl

/-- The first digits are those of the number without its last ones. -/
theorem take_fixed (b j k n : ℕ) : (fixed b (j + k) n).take j = fixed b j (n / b ^ k) := by
  induction j generalizing n with
  | zero => rfl
  | succ j ih =>
    have hhead : n / b ^ (j + k) = n / b ^ k / b ^ j := by
      rw [Nat.div_div_eq_div_mul, ← pow_add, Nat.add_comm k j]
    have hrest : n % b ^ (j + k) / b ^ k = n / b ^ k % b ^ j := by
      rw [Nat.add_comm j k, pow_add, Nat.mod_mul_right_div_self]
    rw [Nat.add_right_comm, fixed, List.take_succ_cons, ih, hhead, hrest]
    rfl

/-- The number of digits. -/
theorem length_toDigits_eq_iff (hb : 1 < b) (hk : 0 < k) :
    (Nat.toDigits b n).length = k ↔ n < b ^ k ∧ (k = 1 ∨ b ^ (k - 1) ≤ n) := by
  have hle := Nat.length_toDigits_le_iff (n := n) hb hk
  have hpos := Nat.length_toDigits_pos (b := b) (n := n)
  rcases Nat.lt_or_ge k 2 with hlt | hge
  · have hone : k = 1 := by omega
    rw [← hle]
    omega
  · have hlow := Nat.length_toDigits_le_iff (n := n) hb (k := k - 1) (by omega)
    have hge : b ^ (k - 1) ≤ n ↔ ¬ (Nat.toDigits b n).length ≤ k - 1 := by rw [hlow, Nat.not_lt]
    rw [← hle, hge]
    omega

/-- The canonical digits are the fixed ones of their number. -/
theorem toDigits_eq_map_fixed (hb : 1 < b) (n : ℕ) :
    Nat.toDigits b n = (fixed b (Nat.toDigits b n).length n).map Nat.digitChar := by
  induction n using Nat.strongRecOn with
  | ind n ih =>
    by_cases hlt : n < b
    · simp [Nat.toDigits_of_lt_base hlt]
    · have hle : b ≤ n := Nat.not_lt.mp hlt
      have hdigits := ih (n / b) (Nat.div_lt_self (by omega) hb)
      have hlen : (Nat.toDigits b n).length = (Nat.toDigits b (n / b)).length + 1 := by
        simp [Nat.toDigits_of_base_le hb hle]
      have hbound : n < b ^ ((Nat.toDigits b (n / b)).length + 1) := by
        rw [← hlen]
        exact (Nat.length_toDigits_le_iff hb Nat.length_toDigits_pos).mp le_rfl
      rw [hlen, fixed_succ (by omega) hbound, List.map_append, ← hdigits]
      exact Nat.toDigits_of_base_le hb hle

/-- A number other than 0 does not begin with a zero. -/
theorem head_toDigits_ne_zero (hn : n ≠ 0) : (Nat.toDigits 10 n).head? ≠ some '0' := by
  induction n using Nat.strongRecOn with
  | ind n ih =>
    by_cases hlt : n < 10
    · have hdigit : ∀ m < 10, m ≠ 0 → m.digitChar ≠ '0' := by decide
      simpa [Nat.toDigits_of_lt_base hlt] using hdigit n hlt hn
    · have hle : 10 ≤ n := Nat.not_lt.mp hlt
      rw [Nat.toDigits_of_base_le (by decide) hle,
        List.head?_append_of_ne_nil _ Nat.toDigits_ne_nil]
      exact ih (n / 10) (by omega) (by omega)

end Fixed

end DigitList
