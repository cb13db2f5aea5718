/-
The columns of the cells.

The cells of a line of text are eight pixels apart, whatever the width of a character is, so
on a screen of width `sw` the cell in column `c` begins in the pixel column `8 * c % sw`.
There are `sw / cw` cells of width `cw`.  If they do not all fit into the width, those that
are carried over to the next line have to fall between the others, which they do for few
widths only (`columns_iff`).
-/
import Mathlib.Algebra.Ring.Parity
import Mathlib.Data.Nat.ModEq
import Mathlib.Data.Nat.Prime.Basic
import Mathlib.Tactic.IntervalCases

namespace Betelgeuse

/-- No cell goes over the right edge, and the columns of different cells are disjoint. -/
structure Columns (cw sw : ℕ) : Prop where
  inside : ∀ c < sw / cw, 8 * c % sw + cw ≤ sw
  apart : ∀ c < sw / cw, ∀ c' < sw / cw, c ≠ c' →
    8 * c % sw + cw ≤ 8 * c' % sw ∨ 8 * c' % sw + cw ≤ 8 * c % sw

/-- All cells fit into the width, or the characters are 1, 2, 4 or 8 pixels wide and there is
an odd number of them without a rest, or the widths are one of two pairs. -/
def ColumnsFit (cw sw : ℕ) : Prop :=
  8 * (sw / cw - 1) + cw ≤ sw ∨ (cw ∣ 8 ∧ cw ∣ sw ∧ sw / cw % 2 = 1) ∨
    (cw = 2 ∧ sw = 5) ∨ (cw = 3 ∧ sw = 11)

instance (cw sw : ℕ) : Decidable (ColumnsFit cw sw) := inferInstanceAs (Decidable (_ ∨ _))

instance (cw sw : ℕ) : Decidable (Columns cw sw) :=
  decidable_of_iff
    ((∀ c < sw / cw, 8 * c % sw + cw ≤ sw) ∧ ∀ c < sw / cw, ∀ c' < sw / cw, c ≠ c' →
      8 * c % sw + cw ≤ 8 * c' % sw ∨ 8 * c' % sw + cw ≤ 8 * c % sw)
    ⟨fun h => ⟨h.1, h.2⟩, fun h => ⟨h.inside, h.apart⟩⟩

variable {cw sw : ℕ}

/-! ### Where the columns are disjoint -/

/-- Cells that fit into the width. -/
theorem Columns.of_le (hpos : 1 ≤ cw) (hcw : cw ≤ 8) (h : 8 * (sw / cw - 1) + cw ≤ sw) :
    Columns cw sw := by
  have hmod : ∀ c < sw / cw, 8 * c % sw = 8 * c := fun c hc => Nat.mod_eq_of_lt (by omega)
  constructor
  · intro c hc
    rw [hmod c hc]
    omega
  · intro c hc c' hc' hne
    rw [hmod c hc, hmod c' hc']
    omega

/-- An odd number of cells without a rest: the carried cells fall between the others. -/
theorem Columns.of_odd (hpos : 1 ≤ cw) (h8 : cw ∣ 8) (hsw : cw ∣ sw) (hodd : sw / cw % 2 = 1) :
    Columns cw sw := by
  obtain ⟨k, hk⟩ := h8
  obtain ⟨m, rfl⟩ := hsw
  rw [Nat.mul_div_cancel_left m hpos] at hodd
  have hcoprime : Nat.Coprime m k := by
    have htwo : Nat.Coprime m (2 ^ 3) :=
      (Nat.coprime_two_right.mpr (Nat.odd_iff.mpr hodd)).pow_right 3
    exact htwo.coprime_dvd_right ⟨cw, by rw [Nat.mul_comm]; exact hk⟩
  have hmod : ∀ c, 8 * c % (cw * m) = cw * (k * c % m) := by
    intro c
    rw [hk, Nat.mul_assoc, Nat.mul_mod_mul_left]
  constructor
  · intro c _
    have hlt : k * c % m < m := Nat.mod_lt _ (by omega)
    rw [hmod]
    exact Nat.mul_le_mul_left cw hlt
  · intro c hc c' hc' hne
    rw [Nat.mul_div_cancel_left m hpos] at hc hc'
    have hdiff : k * c % m ≠ k * c' % m := fun heq => hne <| by
      have hcancel : c ≡ c' [MOD m] := Nat.ModEq.cancel_left_of_coprime hcoprime heq
      exact Nat.ModEq.eq_of_lt_of_lt hcancel hc hc'
    rw [hmod, hmod]
    rcases Nat.lt_or_gt_of_ne hdiff with hlt | hlt
    · exact .inl (Nat.mul_le_mul_left cw hlt)
    · exact .inr (Nat.mul_le_mul_left cw hlt)

/-! ### Where they are not -/

/-- The cell whose column is `p` behind `k` whole lines. -/
theorem Columns.inside_of (h : Columns cw sw) {c k p : ℕ} (hc : c < sw / cw)
    (heq : 8 * c = k * sw + p) (hp : p < sw) : p + cw ≤ sw := by
  have hin := h.inside c hc
  rwa [heq, Nat.mul_add_mod_self_right, Nat.mod_eq_of_lt hp] at hin

/-- Such a cell and a cell of the first line. -/
theorem Columns.apart_of (h : Columns cw sw) (c d k p : ℕ) (hc : c < sw / cw) (hd : d < sw / cw)
    (hne : c ≠ d) (heq : 8 * c = k * sw + p) (hp : p < sw) (hfirst : 8 * d < sw) :
    p + cw ≤ 8 * d ∨ 8 * d + cw ≤ p := by
  have hapart := h.apart c hc d hd hne
  rwa [heq, Nat.mul_add_mod_self_right, Nat.mod_eq_of_lt hp, Nat.mod_eq_of_lt hfirst] at hapart

/-- The narrow screens. -/
theorem columnsFit_of_small :
    ∀ cw < 9, ∀ sw < 14, cw ≤ sw → Columns cw sw → ColumnsFit cw sw := by
  decide +kernel

/-- The first cell that is carried over begins `d` columns behind the edge, and has to fall
between the first two. -/
theorem Columns.carried (h : Columns cw sw) (hpos : 1 ≤ cw) (hle : cw ≤ sw) (hsw : 14 ≤ sw)
    (hover : ¬ 8 * (sw / cw - 1) + cw ≤ sw) :
    ∃ a d, sw + d = 8 * a ∧ a < sw / cw ∧ cw ≤ d ∧ d + cw ≤ 8 := by
  have hone : 0 < sw / cw := Nat.div_pos hle hpos
  have hlast : sw ≤ 8 * (sw / cw - 1) := by
    by_contra hlt
    exact hover (h.inside_of (c := sw / cw - 1) (k := 0) (by omega) (by omega) (by omega))
  obtain ⟨a, d, ha, hd⟩ : ∃ a d, sw + d = 8 * a ∧ d < 8 :=
    ⟨(sw + 7) / 8, 8 * ((sw + 7) / 8) - sw, by omega, by omega⟩
  have hcells : a < sw / cw := by omega
  have hfirst := h.apart_of a 0 1 d hcells (by omega) (by omega) (by omega) (by omega)
    (by omega)
  have hsecond := h.apart_of a 1 1 d hcells (by omega) (by omega) (by omega) (by omega)
    (by omega)
  exact ⟨a, d, ha, hcells, by omega, by omega⟩

/-- One pixel: with an even width two cells begin in the first column. -/
theorem Columns.odd_of_one (h : Columns 1 sw) (hsw : 14 ≤ sw) : sw % 2 = 1 := by
  by_contra heven
  have hfirst := h.apart_of (sw / 2) 0 4 0
    (by omega) (by omega) (by omega) (by omega) (by omega) (by omega)
  omega

/-- Two pixels: the cells that are carried over a second or a third time. -/
theorem Columns.odd_of_two (h : Columns 2 sw) (hsw : 14 ≤ sw) {a d : ℕ} (ha : sw + d = 8 * a)
    (hd : 2 ≤ d) (hd' : d ≤ 6) : sw / 2 % 2 = 1 ∧ 2 ∣ sw := by
  have hcases : d = 2 ∨ d = 3 ∨ d = 4 ∨ d = 5 ∨ d = 6 := by omega
  rcases hcases with rfl | rfl | rfl | rfl | rfl
  · omega
  · have hthird := h.apart_of (3 * a - 1) 0 3 1
      (by omega) (by omega) (by omega) (by omega) (by omega) (by omega)
    omega
  · have hsecond := h.apart_of (2 * a - 1) 0 2 0
      (by omega) (by omega) (by omega) (by omega) (by omega) (by omega)
    omega
  · have hthird := h.apart_of (3 * a - 1) 1 3 7
      (by omega) (by omega) (by omega) (by omega) (by omega) (by omega)
    omega
  · omega

/-- Three pixels: the cells that are carried over a second time. -/
theorem Columns.not_three (h : Columns 3 sw) (hsw : 14 ≤ sw) {a d : ℕ} (ha : sw + d = 8 * a)
    (hd : 3 ≤ d) (hd' : d ≤ 5) : False := by
  have hcases : d = 3 ∨ d = 4 ∨ d = 5 := by omega
  rcases hcases with rfl | rfl | rfl
  · have hsecond := h.apart_of (2 * a) 1 2 6
      (by omega) (by omega) (by omega) (by omega) (by omega) (by omega)
    omega
  · have hsecond := h.apart_of (2 * a - 1) 0 2 0
      (by omega) (by omega) (by omega) (by omega) (by omega) (by omega)
    omega
  · have hsecond := h.apart_of (2 * a - 1) 0 2 2
      (by omega) (by omega) (by omega) (by omega) (by omega) (by omega)
    omega

theorem ColumnsFit.of_columns (hpos : 1 ≤ cw) (hcw : cw ≤ 8) (hle : cw ≤ sw) (h : Columns cw sw) :
    ColumnsFit cw sw := by
  by_cases hsmall : sw < 14
  · exact columnsFit_of_small cw (by omega) sw hsmall hle h
  have hsw : 14 ≤ sw := Nat.not_lt.mp hsmall
  by_cases hover : 8 * (sw / cw - 1) + cw ≤ sw
  · exact .inl hover
  obtain ⟨a, d, ha, hcells, hd, hd'⟩ := h.carried hpos hle hsw hover
  have hcases : cw = 1 ∨ cw = 2 ∨ cw = 3 ∨ cw = 4 := by omega
  refine .inr (.inl ?_)
  rcases hcases with rfl | rfl | rfl | rfl
  · exact ⟨by decide, by omega, by have := h.odd_of_one hsw; omega⟩
  · obtain ⟨hodd, hdvd⟩ := h.odd_of_two hsw ha hd (by omega)
    exact ⟨by decide, hdvd, hodd⟩
  · exact (h.not_three hsw ha hd (by omega)).elim
  · exact ⟨by decide, by omega, by omega⟩

/-- The columns of the cells are disjoint and inside of the screen for these widths only. -/
theorem columns_iff (hpos : 1 ≤ cw) (hcw : cw ≤ 8) (hle : cw ≤ sw) :
    Columns cw sw ↔ ColumnsFit cw sw := by
  constructor
  · exact ColumnsFit.of_columns hpos hcw hle
  · rintro (hover | ⟨h8, hsw, hodd⟩ | ⟨rfl, rfl⟩ | ⟨rfl, rfl⟩)
    · exact .of_le hpos hcw hover
    · exact .of_odd hpos h8 hsw hodd
    · decide
    · decide

end Betelgeuse
