/-
Where the cells begin.

The cell in column `c` of line `r` begins at the pixel `16 * r * sw + 8 * c`, computed with 64
bits.  `Placed` says that all cells are rectangles of the screen, and disjoint.  On a screen
that fits into the address space this never happens with an index that has wrapped
(`Placed.cellStart_eq`), so that lines and columns can be considered one by one
(`placed_iff`).
-/
import Betelgeuse.CellColumns
import Betelgeuse.RowMajor

open RowMajor

namespace Betelgeuse

/-- The first pixel of a cell. -/
def cellStart (sw c r : ℕ) : ℕ := (16 * r * sw + 8 * c) % 2 ^ 64

/-- Each cell is a rectangle of the screen, and different ones are disjoint. -/
structure Placed (cw ch sw sh : ℕ) : Prop where
  fits : ∀ c < sw / cw, ∀ r < sh / ch, Fits sw sh cw ch (cellStart sw c r)
  apart : ∀ c < sw / cw, ∀ r < sh / ch, ∀ c' < sw / cw, ∀ r' < sh / ch, c ≠ c' ∨ r ≠ r' →
    Apart sw cw ch (cellStart sw c r) (cellStart sw c' r')

/-- The lines fit, and the columns do. -/
def CellsFit (cw ch sw sh : ℕ) : Prop :=
  (ch ≤ 16 ∨ sh / ch = 1) ∧ 16 * (sh / ch - 1) + 8 * (sw / cw - 1) / sw + ch ≤ sh ∧
    ColumnsFit cw sw

instance (cw ch sw sh : ℕ) : Decidable (CellsFit cw ch sw sh) :=
  inferInstanceAs (Decidable (_ ∧ _))

section Grid

variable {cw ch sw sh : ℕ}

/-- The last line of a rectangle. -/
theorem Fits.add_le {s : ℕ} (h : Fits sw sh cw ch s) (hch : 1 ≤ ch) : s + cw ≤ sw * sh := by
  obtain ⟨hcolumn, hline⟩ := h
  have hsplit := Nat.div_add_mod s sw
  have hlast : sw * (s / sw + 1) ≤ sw * sh := Nat.mul_le_mul_left sw (by omega)
  rw [Nat.mul_add] at hlast
  omega

/-- In a line of text the cells begin eight pixels apart. -/
theorem Placed.line (h : Placed cw ch sw sh) (hcw : 1 ≤ cw) (hch : 1 ≤ ch)
    (hscreen : sw * sh ≤ 2 ^ 62) {r : ℕ} (hr : r < sh / ch) :
    ∀ c < sw / cw, cellStart sw c r = cellStart sw 0 r + 8 * c := by
  intro c
  induction c with
  | zero => exact fun _ => rfl
  | succ c ih =>
    intro hc
    have hstart := ih (by omega)
    have hle := Fits.add_le (h.fits c (by omega) r hr) hch
    have hnext : 16 * r * sw + 8 * (c + 1) = 16 * r * sw + 8 * c + 8 := by omega
    rw [cellStart, hnext, Nat.add_mod]
    unfold cellStart at hstart hle ⊢
    omega

/-- Different cells begin at different pixels. -/
theorem Placed.start_ne (h : Placed cw ch sw sh) (hcw : 1 ≤ cw) (hch : 1 ≤ ch) {c r d l : ℕ}
    (hc : c < sw / cw) (hr : r < sh / ch) (hd : d < sw / cw) (hl : l < sh / ch)
    (hne : c ≠ d ∨ r ≠ l) : cellStart sw c r ≠ cellStart sw d l := by
  intro heq
  have hapart := h.apart c hc r hr d hd l hl hne
  rw [heq, Apart] at hapart
  omega

/-- On a screen so wide that a line of text is more than the address space, the second line
of text would have to fill the second line of the screen.  This needs a width of
`(2 ^ 64 - 1) / 15`, for which its first cell goes over the edge. -/
theorem Placed.not_wide (h : Placed cw 1 sw sh) (hcw : 1 ≤ cw) (hcw' : cw ≤ 8)
    (hlow : 2 ^ 60 < sw) (hhigh : sw < 2 ^ 61) (hsh : sh = 2 ∨ sh = 3)
    (hscreen : sw * sh ≤ 2 ^ 62) : False := by
  have hlines : sh / 1 = sh := Nat.div_one sh
  have hcells : 0 < sw / cw := Nat.div_pos (by omega) hcw
  have hfirst : cellStart sw 0 1 = 16 * sw - 2 ^ 64 := by
    unfold cellStart
    omega
  -- the second line of text begins behind the first one
  have hbehind : sw / cw ≤ 2 * sw - 2 ^ 61 := by
    by_contra hlt
    refine h.start_ne (c := 2 * sw - 2 ^ 61) (r := 0) (d := 0) (l := 1) hcw le_rfl
      (by omega) (by omega) hcells (by omega) (by omega) ?_
    rw [hfirst]
    unfold cellStart
    omega
  have hsecond := h.line hcw le_rfl hscreen (r := 1) (by omega) (sw / cw - 1) (by omega)
  have hend := Fits.add_le (h.fits (sw / cw - 1) (by omega) 1 (by omega)) le_rfl
  rw [hsecond, hfirst] at hend
  have hwidth : cw = 8 ∧ sw = (2 ^ 64 - 1) / 15 := by
    rcases hsh with rfl | rfl
    · interval_cases cw <;> omega
    · have hfirst' : cellStart sw 0 2 = 32 * sw - 2 ^ 65 := by
        unfold cellStart
        omega
      have hthird := h.line hcw le_rfl hscreen (r := 2) (by omega) (sw / cw - 1) (by omega)
      have hend' := Fits.add_le (h.fits (sw / cw - 1) (by omega) 2 (by omega)) le_rfl
      rw [hthird, hfirst'] at hend'
      interval_cases cw <;> omega
  obtain ⟨rfl, rfl⟩ := hwidth
  have hfits := (h.fits 0 hcells 1 (by omega)).1
  rw [hfirst] at hfits
  exact absurd hfits (by decide)

/-- With two lines of text the screen is so narrow that the next line does not wrap. -/
theorem Placed.narrow (h : Placed cw ch sw sh) (hcw : 1 ≤ cw) (hcw' : cw ≤ 8) (hch : 1 ≤ ch)
    (hle : cw ≤ sw) (hscreen : sw * sh ≤ 2 ^ 62) (hlines : 2 ≤ sh / ch) :
    16 * sw + 2 ^ 62 ≤ 2 ^ 64 := by
  by_contra hwide
  have htwo : 2 * ch ≤ sh := (Nat.le_div_iff_mul_le hch).mp hlines
  have hcells : 0 < sw / cw := Nat.div_pos hle hcw
  have hsix : sh ≤ 5 := by
    by_contra hsix
    have hmul : sw * 6 ≤ sw * sh := Nat.mul_le_mul_left sw (by omega)
    omega
  have hnowrap : 2 ^ 60 ≤ sw := by
    by_contra hlt
    -- the second line of text begins in line 16
    have hstart : cellStart sw 0 1 = 16 * sw := by
      unfold cellStart
      omega
    have hline := (h.fits 0 hcells 1 hlines).2
    rw [hstart, Nat.mul_div_cancel _ (by omega)] at hline
    omega
  have hfirst : cellStart sw 0 1 ≠ cellStart sw 0 0 :=
    h.start_ne hcw hch hcells hlines hcells (by omega) (.inr (by decide))
  have hcases : sh = 2 ∨ sh = 3 ∨ sh = 4 ∨ sh = 5 := by omega
  unfold cellStart at hfirst
  rcases hcases with rfl | rfl | rfl | rfl
  · obtain rfl : ch = 1 := by omega
    exact h.not_wide hcw hcw' (by omega) (by omega) (.inl rfl) hscreen
  · obtain rfl : ch = 1 := by omega
    exact h.not_wide hcw hcw' (by omega) (by omega) (.inr rfl) hscreen
  · omega
  · omega

/-- No index has wrapped. -/
theorem Placed.cellStart_eq (h : Placed cw ch sw sh) (hcw : 1 ≤ cw) (hcw' : cw ≤ 8) (hch : 1 ≤ ch)
    (hle : cw ≤ sw) (hscreen : sw * sh ≤ 2 ^ 62) {c r : ℕ} (hc : c < sw / cw) (hr : r < sh / ch) :
    cellStart sw c r = 16 * r * sw + 8 * c := by
  rw [h.line hcw hch hscreen hr c hc, Nat.add_right_cancel_iff]
  induction r with
  | zero => simp [cellStart]
  | succ r ih =>
    have hnarrow := h.narrow hcw hcw' hch hle hscreen (by omega)
    have hstart := ih (by omega)
    have hend := Fits.add_le (h.fits 0 (by omega) r (by omega)) hch
    rw [hstart] at hend
    have hnext : 16 * (r + 1) * sw = 16 * r * sw + 16 * sw := by ring
    rw [cellStart, hnext]
    omega

/-- The line and the column of a first pixel that has not wrapped. -/
theorem div_mod_start (hsw : 0 < sw) (c r : ℕ) :
    (16 * r * sw + 8 * c) / sw = 16 * r + 8 * c / sw ∧ (16 * r * sw + 8 * c) % sw = 8 * c % sw := by
  have hsplit := Nat.div_add_mod' (8 * c) sw
  refine div_mod_of_eq (Nat.mod_lt _ hsw) ?_
  rw [Nat.add_mul, Nat.add_assoc, hsplit]

/-- A cell fits into the width, and into the height. -/
theorem Placed.room (h : Placed cw ch sw sh) (hcw : 1 ≤ cw) (hcw' : cw ≤ 8) (hch : 1 ≤ ch)
    (hle : cw ≤ sw) (hscreen : sw * sh ≤ 2 ^ 62) {c r : ℕ} (hc : c < sw / cw) (hr : r < sh / ch) :
    8 * c % sw + cw ≤ sw ∧ 16 * r + 8 * c / sw + ch ≤ sh := by
  have hfit := h.fits c hc r hr
  obtain ⟨hline, hcolumn⟩ := div_mod_start (by omega : 0 < sw) c r
  rwa [h.cellStart_eq hcw hcw' hch hle hscreen hc hr, Fits, hline, hcolumn] at hfit

/-- Different cells have no column or no line in common. -/
theorem Placed.separate (h : Placed cw ch sw sh) (hcw : 1 ≤ cw) (hcw' : cw ≤ 8) (hch : 1 ≤ ch)
    (hle : cw ≤ sw) (hscreen : sw * sh ≤ 2 ^ 62) {c r d l : ℕ} (hc : c < sw / cw)
    (hr : r < sh / ch) (hd : d < sw / cw) (hl : l < sh / ch) (hne : c ≠ d ∨ r ≠ l) :
    (8 * c % sw + cw ≤ 8 * d % sw ∨ 8 * d % sw + cw ≤ 8 * c % sw) ∨
      16 * r + 8 * c / sw + ch ≤ 16 * l + 8 * d / sw ∨
        16 * l + 8 * d / sw + ch ≤ 16 * r + 8 * c / sw := by
  have hapart := h.apart c hc r hr d hd l hl hne
  obtain ⟨hline, hcolumn⟩ := div_mod_start (by omega : 0 < sw) c r
  obtain ⟨hline', hcolumn'⟩ := div_mod_start (by omega : 0 < sw) d l
  rwa [h.cellStart_eq hcw hcw' hch hle hscreen hc hr,
    h.cellStart_eq hcw hcw' hch hle hscreen hd hl, Apart, hline, hcolumn, hline',
    hcolumn'] at hapart

/-- With at most 16 pixels for each line, no line of text goes down by a whole character. -/
theorem wrapped_lt {k : ℕ} (hch : 1 ≤ ch) (hlines : 0 < sh / ch)
    (hheight : ch ≤ 16 ∨ sh / ch = 1) (hlast : 16 * (sh / ch - 1) + k + ch ≤ sh) : k < ch := by
  have hsh := Nat.lt_mul_div_succ sh hch
  rcases hheight with hle16 | hone
  · have hmul : ch * (sh / ch - 1) ≤ 16 * (sh / ch - 1) := Nat.mul_le_mul_right _ hle16
    have hsum : ch * (sh / ch + 1) = ch * (sh / ch - 1) + ch * 2 := by
      rw [← Nat.mul_add]
      congr 1
      omega
    omega
  · rw [hone] at hsh hlast
    omega

/-- The lines and the columns, one by one. -/
theorem CellsFit.of_placed (h : Placed cw ch sw sh) (hcw : 1 ≤ cw) (hcw' : cw ≤ 8) (hch : 1 ≤ ch)
    (hle : cw ≤ sw) (hle' : ch ≤ sh) (hscreen : sw * sh ≤ 2 ^ 62) : CellsFit cw ch sw sh := by
  have hcells : 0 < sw / cw := Nat.div_pos hle hcw
  have hlines : 0 < sh / ch := Nat.div_pos hle' hch
  have hlast := (h.room hcw hcw' hch hle hscreen (c := sw / cw - 1) (r := sh / ch - 1)
    (by omega) (by omega)).2
  have hheight : ch ≤ 16 ∨ sh / ch = 1 := by
    by_contra hboth
    have hsep := h.separate hcw hcw' hch hle hscreen hcells hlines hcells (l := 1) (by omega)
      (.inr (by decide))
    omega
  have hbelow : 8 * (sw / cw - 1) / sw < ch := wrapped_lt hch hlines hheight hlast
  have hcolumns : Columns cw sw := by
    refine ⟨fun c hc => (h.room hcw hcw' hch hle hscreen hc hlines).1, fun c hc d hd hne => ?_⟩
    have hsep := h.separate hcw hcw' hch hle hscreen hc hlines hd hlines (.inl hne)
    have hlow : 8 * c / sw ≤ 8 * (sw / cw - 1) / sw := Nat.div_le_div_right (by omega)
    have hlow' : 8 * d / sw ≤ 8 * (sw / cw - 1) / sw := Nat.div_le_div_right (by omega)
    exact hsep.resolve_right fun hvertical => by
      rcases hvertical with hover | hover
      · exact absurd (Nat.le_of_add_left_le hover) (by omega)
      · exact absurd (Nat.le_of_add_left_le hover) (by omega)
  exact ⟨hheight, hlast, .of_columns hcw hcw' hle hcolumns⟩

theorem Placed.of_cellsFit (h : CellsFit cw ch sw sh) (hcw : 1 ≤ cw) (hcw' : cw ≤ 8) (hch : 1 ≤ ch)
    (hle : cw ≤ sw) (hscreen : sw * sh ≤ 2 ^ 62) : Placed cw ch sw sh := by
  have hsw : 0 < sw := by omega
  obtain ⟨hheight, hlast, hcolumns⟩ := h
  have hcolumns := (columns_iff hcw hcw' hle).mpr hcolumns
  -- the row of a cell
  have hroom : ∀ c < sw / cw, ∀ r < sh / ch, 16 * r + 8 * c / sw + ch ≤ sh := by
    intro c hc r hr
    have hlow : 8 * c / sw ≤ 8 * (sw / cw - 1) / sw := Nat.div_le_div_right (by omega)
    have hlow' : 16 * r ≤ 16 * (sh / ch - 1) := Nat.mul_le_mul_left 16 (by omega)
    exact le_trans (Nat.add_le_add_right (Nat.add_le_add hlow' hlow) ch) hlast
  -- its first pixel, which does not wrap around
  have hstart : ∀ c < sw / cw, ∀ r < sh / ch,
      cellStart sw c r / sw = 16 * r + 8 * c / sw ∧ cellStart sw c r % sw = 8 * c % sw := by
    intro c hc r hr
    obtain ⟨hline, hcolumn⟩ := div_mod_start hsw c r
    have hlt : 16 * r * sw + 8 * c < sh * sw :=
      (Nat.div_lt_iff_lt_mul (by omega)).mp (by have := hroom c hc r hr; omega)
    have heq : cellStart sw c r = 16 * r * sw + 8 * c := by
      rw [Nat.mul_comm sh sw] at hlt
      exact Nat.mod_eq_of_lt (by omega)
    rw [heq]
    exact ⟨hline, hcolumn⟩
  constructor
  · intro c hc r hr
    obtain ⟨hline, hcolumn⟩ := hstart c hc r hr
    rw [Fits, hline, hcolumn]
    exact ⟨hcolumns.inside c hc, hroom c hc r hr⟩
  · intro c hc r hr c' hc' r' hr' hne
    obtain ⟨hline, hcolumn⟩ := hstart c hc r hr
    obtain ⟨hline', hcolumn'⟩ := hstart c' hc' r' hr'
    rw [Apart, hline, hcolumn, hline', hcolumn']
    by_cases hsame : c = c'
    · subst hsame
      omega
    · exact .inl (hcolumns.apart c hc c' hc' hsame)

theorem placed_iff (hcw : 1 ≤ cw) (hcw' : cw ≤ 8) (hch : 1 ≤ ch) (hle : cw ≤ sw) (hle' : ch ≤ sh)
    (hscreen : sw * sh ≤ 2 ^ 62) : Placed cw ch sw sh ↔ CellsFit cw ch sw sh :=
  ⟨fun h => .of_placed h hcw hcw' hch hle hle' hscreen,
    fun h => .of_cellsFit h hcw hcw' hch hle hscreen⟩

end Grid

end Betelgeuse
