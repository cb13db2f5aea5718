/-
Blocks of a picture that is stored row by row.

The pixel in column `x` of line `y` has the index `y * w + x`, where `w` is the width.
`block w cols rows s` are the indices that one reaches from `s` by less than `rows` lines
and less than `cols` columns.  They are a rectangle of the picture if `s` leaves room for
it in its line and below (`isRectangle_block_iff`), and two such rectangles are disjoint
if one is beside or below the other (`disjoint_block_iff`).
-/
import Mathlib.Data.Set.BooleanAlgebra
import Mathlib.Order.CompletePartialOrder
import Mathlib.Tactic.Ring

namespace RowMajor

/-- The indices within `rows` lines and `cols` columns from `s` on. -/
def block (w cols rows s : ℕ) : Set ℕ := {p | ∃ i < rows, ∃ j < cols, p = s + i * w + j}

/-- The indices are those of a rectangle of a picture with `h` lines. -/
def IsRectangle (w h cols rows : ℕ) (S : Set ℕ) : Prop :=
  ∃ x y, x + cols ≤ w ∧ y + rows ≤ h ∧ S = block w cols rows (y * w + x)

/-- The block leaves room in its line and below. -/
def Fits (w h cols rows s : ℕ) : Prop := s % w + cols ≤ w ∧ s / w + rows ≤ h

/-- One block is beside or below the other. -/
def Apart (w cols rows s t : ℕ) : Prop :=
  (s % w + cols ≤ t % w ∨ t % w + cols ≤ s % w) ∨ s / w + rows ≤ t / w ∨ t / w + rows ≤ s / w

variable {w h cols rows s t p : ℕ}

/-- The line and the column of an index. -/
theorem div_mod_of_eq {x y : ℕ} (hx : x < w) (h : p = y * w + x) : p / w = y ∧ p % w = x := by
  subst h
  rw [Nat.add_comm, Nat.add_mul_div_right _ _ (by omega), Nat.add_mul_mod_self_right,
    Nat.div_eq_of_lt hx, Nat.mod_eq_of_lt hx]
  exact ⟨Nat.zero_add y, rfl⟩

theorem self_mem_block (hcols : 0 < cols) (hrows : 0 < rows) : s ∈ block w cols rows s :=
  ⟨0, hrows, 0, hcols, by omega⟩

theorem le_of_mem_block (h : p ∈ block w cols rows s) : s ≤ p := by
  obtain ⟨i, -, j, -, rfl⟩ := h
  omega

/-- A block determines where it begins. -/
theorem eq_of_block_eq (hcols : 0 < cols) (hrows : 0 < rows)
    (h : block w cols rows s = block w cols rows t) : s = t := by
  have ht : t ∈ block w cols rows s := by
    rw [h]
    exact self_mem_block hcols hrows
  have hs : s ∈ block w cols rows t := by
    rw [← h]
    exact self_mem_block hcols hrows
  exact Nat.le_antisymm (le_of_mem_block ht) (le_of_mem_block hs)

theorem isRectangle_block_iff (hcols : 0 < cols) (hrows : 0 < rows) :
    IsRectangle w h cols rows (block w cols rows s) ↔ Fits w h cols rows s := by
  constructor
  · rintro ⟨x, y, hx, hy, heq⟩
    obtain ⟨hline, hcolumn⟩ := div_mod_of_eq (by omega) (eq_of_block_eq hcols hrows heq)
    rw [Fits, hline, hcolumn]
    exact ⟨hx, hy⟩
  · rintro ⟨hcolumn, hline⟩
    refine ⟨s % w, s / w, hcolumn, hline, ?_⟩
    rw [Nat.div_add_mod']

/-- The lines and columns of a block that leaves room in its line. -/
theorem mem_block_iff (hfits : s % w + cols ≤ w) :
    p ∈ block w cols rows s ↔
      (s / w ≤ p / w ∧ p / w < s / w + rows) ∧ s % w ≤ p % w ∧ p % w < s % w + cols := by
  constructor
  · rintro ⟨i, hi, j, hj, hp⟩
    have hsplit := Nat.div_add_mod' s w
    obtain ⟨hline, hcolumn⟩ := div_mod_of_eq (x := s % w + j) (y := s / w + i) (w := w) (p := p)
      (by omega) (by rw [Nat.add_mul]; omega)
    omega
  · rintro ⟨⟨hlow, hhigh⟩, hleft, hright⟩
    obtain ⟨i, hi⟩ := Nat.exists_eq_add_of_le hlow
    refine ⟨i, by omega, p % w - s % w, by omega, ?_⟩
    have hp := Nat.div_add_mod' p w
    have hs := Nat.div_add_mod' s w
    rw [hi, Nat.add_mul] at hp
    omega

/-- A rectangle lies in the picture. -/
theorem lt_of_mem_block (hfits : Fits w h cols rows s) (hp : p ∈ block w cols rows s) :
    p < w * h := by
  obtain ⟨⟨-, hline⟩, hcolumn⟩ := (mem_block_iff hfits.1).mp hp
  have hw : 0 < w := by
    have hroom := hfits.1
    omega
  rw [Nat.mul_comm]
  exact (Nat.div_lt_iff_lt_mul hw).mp (hline.trans_le hfits.2)

/-- Two rectangles have no pixel in common if and only if one is beside or below the
other. -/
theorem disjoint_block_iff (hs : s % w + cols ≤ w) (ht : t % w + cols ≤ w) (hcols : 0 < cols) :
    Disjoint (block w cols rows s) (block w cols rows t) ↔ Apart w cols rows s t := by
  constructor
  · intro hdisjoint
    by_contra hapart
    rw [Apart] at hapart
    -- the lower of the first lines and the right of the first columns
    obtain ⟨p, hp⟩ : ∃ p, p = max (s / w) (t / w) * w + max (s % w) (t % w) := ⟨_, rfl⟩
    obtain ⟨hline, hcolumn⟩ := div_mod_of_eq (by omega) hp
    refine Set.disjoint_left.mp hdisjoint ((mem_block_iff hs).mpr ?_)
      ((mem_block_iff (p := p) ht).mpr ?_)
    · rw [hline, hcolumn]
      omega
    · rw [hline, hcolumn]
      omega
  · intro hapart
    refine Set.disjoint_left.mpr fun p hps hpt => ?_
    have hps := (mem_block_iff hs).mp hps
    have hpt := (mem_block_iff ht).mp hpt
    rw [Apart] at hapart
    omega

end RowMajor
