/-
Copying up into the source.

The target begins `d` cells behind the source, so that the cell that is read has been written
when `d` cells are copied: the first `d` cells come again and again (`Repeated.push`).  That is
a copy if and only if the source repeats them itself (`Repeated.copied_iff`).
-/
import Betelgeuse.MemoryCopy

open Function

namespace MemoryCopy

universe u v

variable {A : Type u} {B : Type v}

/-- The memory with the first `d` cells repeated in the `n` cells behind them. -/
structure Repeated (m m' : A → B) (src : ℕ → A) (d n : ℕ) : Prop where
  repeated : ∀ i < n, m' (src (i + d)) = m (src (i % d))
  unchanged : ∀ a, (∀ i < n, a ≠ src (i + d)) → m' a = m a

/-- The first `n` cells repeat after `d`. -/
def Periodic (m : A → B) (src : ℕ → A) (d n : ℕ) : Prop :=
  ∀ i, i + d < n → m (src (i + d)) = m (src i)

variable {m m' : A → B} {src : ℕ → A} {d n i : ℕ}

namespace Repeated

theorem refl (m : A → B) (src : ℕ → A) (d : ℕ) : Repeated m m src d 0 where
  repeated i hi := absurd hi (Nat.not_lt_zero i)
  unchanged _ _ := rfl

/-- The cell that is read next. -/
theorem read (h : Repeated m m' src d n) (hinj : ∀ j k, j < k → k ≤ n + d → src j ≠ src k) :
    m' (src n) = m (src (n % d)) := by
  by_cases hn : n < d
  · rw [Nat.mod_eq_of_lt hn]
    exact h.unchanged _ fun j hj => hinj n (j + d) (by omega) (by omega)
  · obtain ⟨j, rfl⟩ := Nat.exists_eq_add_of_le' (Nat.not_lt.mp hn)
    rw [Nat.add_mod_right]
    by_cases hd : d = 0
    · subst hd
      rw [Nat.mod_zero]
      exact h.unchanged _ fun k hk => (hinj (k + 0) (j + 0) (by omega) (by omega)).symm
    · exact h.repeated j (by omega)

/-- The next cell. -/
theorem push [DecidableEq A] (h : Repeated m m' src d n)
    (hinj : ∀ j k, j < k → k ≤ n + d → src j ≠ src k) :
    Repeated m (update m' (src (n + d)) (m' (src n))) src d (n + 1) where
  repeated i hi := by
    rcases Nat.lt_or_eq_of_le (Nat.lt_succ_iff.mp hi) with hlt | rfl
    · rw [update_of_ne (hinj _ _ (by omega) le_rfl)]
      exact h.repeated i hlt
    · rw [update_self]
      exact h.read hinj
  unchanged a ha := by
    rw [update_of_ne (ha n (Nat.lt_succ_self n))]
    exact h.unchanged a fun i hi => ha i (Nat.lt_succ_of_lt hi)

end Repeated

/-- Each cell is one of the first `d`. -/
theorem Periodic.eq_mod (h : Periodic m src d n) (hi : i < n) : m (src i) = m (src (i % d)) := by
  induction i using Nat.strongRecOn with
  | ind i ih =>
    by_cases hlt : i < d
    · rw [Nat.mod_eq_of_lt hlt]
    · obtain ⟨j, rfl⟩ := Nat.exists_eq_add_of_le' (Nat.not_lt.mp hlt)
      by_cases hd : d = 0
      · rw [hd, Nat.mod_zero]
      · rw [Nat.add_mod_right, h j hi, ih j (by omega) (by omega)]

theorem Repeated.copied_iff (h : Repeated m m' src d n) :
    (∀ i < n, m' (src (i + d)) = m (src i)) ↔ Periodic m src d n := by
  constructor
  · intro hcopied i hi
    have hmod : ∀ j < n, m (src j) = m (src (j % d)) := fun j hj =>
      (hcopied j hj).symm.trans (h.repeated j hj)
    rw [hmod (i + d) hi, Nat.add_mod_right, ← hmod i (by omega)]
  · intro hperiodic i hi
    rw [h.repeated i hi, hperiodic.eq_mod hi]

end MemoryCopy
