/-
Counting consecutive positions.

A loop that counts up while a test succeeds, and starts again at 0 where it
fails, has counted `streak p k` before position `k`.  `le_streak_iff` says what a
count means for the positions before, and `exists_streak_eq` that a count comes
to every number below it on its way.
-/
import Mathlib.Data.Nat.Notation
import Mathlib.Tactic.Common

namespace Streak

variable {p : ℕ → Prop} [DecidablePred p] {k n : ℕ}

/-- The number of positions just before `k` that satisfy `p`. -/
def streak (p : ℕ → Prop) [DecidablePred p] : ℕ → ℕ
  | 0 => 0
  | k + 1 => if p k then streak p k + 1 else 0

/-- `p` holds of the `n` positions from `k` on. -/
def Run (p : ℕ → Prop) (k n : ℕ) : Prop := ∀ j < n, p (k + j)

theorem streak_succ_of_pos (h : p k) : streak p (k + 1) = streak p k + 1 := if_pos h

theorem streak_succ_of_neg (h : ¬ p k) : streak p (k + 1) = 0 := if_neg h

theorem le_streak_iff : n ≤ streak p k ↔ ∃ j, j + n = k ∧ Run p j n := by
  induction k generalizing n with
  | zero =>
    constructor
    · intro h
      obtain rfl : n = 0 := Nat.le_zero.mp h
      exact ⟨0, rfl, fun j hj => absurd hj (Nat.not_lt_zero j)⟩
    · rintro ⟨j, hj, -⟩
      omega
  | succ k ih =>
    by_cases hp : p k
    · rw [streak_succ_of_pos hp]
      cases n with
      | zero =>
        exact iff_of_true (Nat.zero_le _) ⟨k + 1, rfl, fun j hj => absurd hj (Nat.not_lt_zero j)⟩
      | succ n =>
        rw [Nat.succ_le_succ_iff, ih]
        refine exists_congr fun j => ?_
        constructor
        · rintro ⟨rfl, hrun⟩
          refine ⟨rfl, fun i hi => ?_⟩
          rcases Nat.lt_succ_iff_lt_or_eq.mp hi with hi | rfl
          · exact hrun i hi
          · exact hp
        · rintro ⟨hj, hrun⟩
          exact ⟨by omega, fun i hi => hrun i (Nat.lt_succ_of_lt hi)⟩
    · rw [streak_succ_of_neg hp]
      constructor
      · intro h
        obtain rfl : n = 0 := Nat.le_zero.mp h
        exact ⟨k + 1, rfl, fun j hj => absurd hj (Nat.not_lt_zero j)⟩
      · rintro ⟨j, hj, hrun⟩
        by_contra hn
        -- the last position of the run is `k`
        refine hp ?_
        have hlast := hrun (n - 1) (by omega)
        rwa [show j + (n - 1) = k by omega] at hlast

/-- A count grows by one at a time. -/
theorem exists_streak_eq (hpos : 0 < n) (h : n ≤ streak p k) :
    ∃ j < k, streak p (j + 1) = n := by
  induction k with
  | zero =>
    have hzero : streak p 0 = 0 := rfl
    omega
  | succ k ih =>
    by_cases heq : streak p (k + 1) = n
    · exact ⟨k, Nat.lt_succ_self k, heq⟩
    · have hk : n ≤ streak p k := by
        by_cases hp : p k
        · rw [streak_succ_of_pos hp] at h heq
          omega
        · rw [streak_succ_of_neg hp] at h
          omega
      obtain ⟨j, hj, hjn⟩ := ih hk
      exact ⟨j, Nat.lt_succ_of_lt hj, hjn⟩

/-- Some count reaches `n` exactly if there is a run of `n` positions. -/
theorem exists_streak_iff (hpos : 0 < n) :
    (∃ j < k, streak p (j + 1) = n) ↔ ∃ j, j + n ≤ k ∧ Run p j n := by
  constructor
  · rintro ⟨j, hj, hjn⟩
    obtain ⟨i, hi, hrun⟩ := le_streak_iff.mp (Nat.le_of_eq hjn.symm)
    exact ⟨i, Nat.le_trans (Nat.le_of_eq hi) hj, hrun⟩
  · rintro ⟨j, hj, hrun⟩
    obtain ⟨i, hi, hin⟩ := exists_streak_eq hpos (le_streak_iff.mpr ⟨j, rfl, hrun⟩)
    exact ⟨i, by omega, hin⟩

end Streak
