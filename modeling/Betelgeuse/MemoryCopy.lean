/-
Copying within a memory.

A memory gives a value to each address, `src i` and `dst i` are the addresses of the `i`-th
cell of the source and of the target.  `Copied m m' dst src lo hi` says that `m'` is `m`
with the cells from `lo` to `hi` copied.

A copy that goes up (`Copied.push`) or down (`Copied.cons`) by one cell reads the memory as
it is by then, so the cell that is read must not be a target that was already written.
-/
import Mathlib.Data.Set.Function
import Mathlib.Logic.Function.Basic
import Mathlib.Tactic.Common

open Function

namespace MemoryCopy

universe u v

variable {A : Type u} {B : Type v}

/-- The memory with the cells from `lo` to `hi` copied. -/
structure Copied (m m' : A → B) (dst src : ℕ → A) (lo hi : ℕ) : Prop where
  copied : ∀ i, lo ≤ i → i < hi → m' (dst i) = m (src i)
  unchanged : ∀ a, (∀ i, lo ≤ i → i < hi → a ≠ dst i) → m' a = m a

namespace Copied

variable {m m' : A → B} {dst src : ℕ → A} {lo hi i : ℕ}

/-- Nothing is copied yet. -/
theorem refl (m : A → B) (dst src : ℕ → A) (lo : ℕ) : Copied m m dst src lo lo where
  copied _ hlo hhi := absurd hhi (Nat.not_lt.mpr hlo)
  unchanged _ _ := rfl

/-- A cell that is not a target so far is still that of before. -/
theorem unread (h : Copied m m' dst src lo hi) (hread : ∀ j, lo ≤ j → j < hi → src i ≠ dst j) :
    m' (src i) = m (src i) :=
  h.unchanged (src i) hread

/-- The next cell. -/
theorem push [DecidableEq A] (h : Copied m m' dst src lo i) (hlo : lo ≤ i)
    (hinj : ∀ j, lo ≤ j → j < i → dst j ≠ dst i)
    (hread : ∀ j, lo ≤ j → j < i → src i ≠ dst j) :
    Copied m (update m' (dst i) (m' (src i))) dst src lo (i + 1) where
  copied j hj hji := by
    rcases Nat.lt_or_eq_of_le (Nat.lt_succ_iff.mp hji) with hlt | rfl
    · rw [update_of_ne (hinj j hj hlt)]
      exact h.copied j hj hlt
    · rw [update_self]
      exact h.unread hread
  unchanged a ha := by
    rw [update_of_ne (ha i hlo (Nat.lt_succ_self i))]
    exact h.unchanged a fun j hj hji => ha j hj (Nat.lt_succ_of_lt hji)

/-- The cell in front. -/
theorem cons [DecidableEq A] (h : Copied m m' dst src (i + 1) hi) (hhi : i < hi)
    (hinj : ∀ j, i < j → j < hi → dst j ≠ dst i)
    (hread : ∀ j, i < j → j < hi → src i ≠ dst j) :
    Copied m (update m' (dst i) (m' (src i))) dst src i hi where
  copied j hj hji := by
    rcases Nat.lt_or_eq_of_le hj with hlt | rfl
    · rw [update_of_ne (hinj j hlt hji)]
      exact h.copied j hlt hji
    · rw [update_self]
      exact h.unread hread
  unchanged a ha := by
    rw [update_of_ne (ha i le_rfl hhi)]
    exact h.unchanged a fun j hj hji => ha j (Nat.le_of_succ_le hj) hji

end Copied

end MemoryCopy
