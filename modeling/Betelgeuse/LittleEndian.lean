/-
Little-endian numbers in memory.

`load m p n` is the number in the `n` bytes from `p` on, the lowest first, and `store`
puts one there.  A store is read back (`load_store`) and leaves the numbers in other
bytes alone (`load_store_of_disjoint`); `load_add` takes a number apart where two fields
meet.
-/
import Mathlib.Algebra.Order.Ring.Nat
import Mathlib.Data.UInt
import Mathlib.Tactic.Ring

namespace LittleEndian

/-- The number in the `n` bytes from `p` on. -/
def load (m : ℕ → UInt8) (p : ℕ) : ℕ → ℕ
  | 0 => 0
  | n + 1 => (m p).toNat + 256 * load m (p + 1) n

/-- The memory with a number in the `n` bytes from `p` on. -/
def store (m : ℕ → UInt8) (p n v : ℕ) : ℕ → UInt8 := fun a =>
  if p ≤ a ∧ a < p + n then UInt8.ofNat (v / 256 ^ (a - p)) else m a

variable {m m' : ℕ → UInt8} {p q n k v a : ℕ}

/-- Only these bytes matter. -/
theorem load_congr (h : ∀ a, p ≤ a → a < p + n → m a = m' a) : load m p n = load m' p n := by
  induction n generalizing p with
  | zero => rfl
  | succ n ih =>
    rw [load, load, h p le_rfl (by omega), ih fun a hle hlt => h a (by omega) (by omega)]

/-- The fields of a number. -/
theorem load_add (m : ℕ → UInt8) (p n k : ℕ) :
    load m p (n + k) = load m p n + 256 ^ n * load m (p + n) k := by
  induction n generalizing p with
  | zero => simp [load]
  | succ n ih =>
    rw [Nat.succ_add, load, load, ih (p + 1), Nat.add_right_comm p 1 n, Nat.add_assoc p n 1]
    ring

theorem store_of_notMem (h : ¬ (p ≤ a ∧ a < p + n)) : store m p n v a = m a := if_neg h

/-- A number is read back, as far as it fits. -/
theorem load_store (m : ℕ → UInt8) (p n v : ℕ) : load (store m p n v) p n = v % 256 ^ n := by
  -- the bytes from `k` on are those of `v / 256 ^ k`
  have hsuffix : ∀ j k, k + j = n → load (store m p n v) (p + k) j = v / 256 ^ k % 256 ^ j := by
    intro j
    induction j with
    | zero =>
      intro k _
      rw [pow_zero, Nat.mod_one, load]
    | succ j ih =>
      intro k hk
      have hbyte : store m p n v (p + k) = UInt8.ofNat (v / 256 ^ k) := by
        rw [store, if_pos ⟨Nat.le_add_right p k, by omega⟩, Nat.add_sub_cancel_left]
      rw [load, hbyte, Nat.add_assoc, ih (k + 1) (by omega), UInt8.toNat_ofNat', pow_succ' 256 j,
        Nat.mod_mul, pow_succ 256 k, ← Nat.div_div_eq_div_mul]
  have hall := hsuffix n 0 (Nat.zero_add n)
  rwa [Nat.add_zero, pow_zero, Nat.div_one] at hall

/-- Numbers in other bytes. -/
theorem load_store_of_disjoint (h : p + n ≤ q ∨ q + k ≤ p) :
    load (store m p n v) q k = load m q k :=
  load_congr fun a hle hlt => store_of_notMem (by omega)

end LittleEndian
