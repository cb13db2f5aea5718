/-
The cells of the terminal in the framebuffer (`terminal_putentryat` in
`kernel/arch/x86_64/tty.c` and in the bootloader's `uefi_tty.c`).

`terminal_init` divides the screen into cells of the size of a character, but
`terminal_putentryat` puts them 16 lines and 8 columns apart whatever that size is.  So the
cells are disjoint rectangles of the screen for characters of 8 by 16 pixels, and for others
only if the conditions of `CellsFit` happen to hold (`tiles_iff`).
-/
import Betelgeuse.CellGrid
import Betelgeuse.Terminal
import Mathlib.Data.UInt

open RowMajor

namespace Betelgeuse

/-- `struct psf2_header` with what `terminal_putentryat` reads, and the buffer that it is the
beginning of. -/
structure Psf2Font extends Psf2Header where
  headersize : UInt32
  charsize : UInt32
  buffer : UInt64 → UInt8

/-- `c_pixels`, from the beginning of the buffer. -/
def Psf2Font.glyph (font : Psf2Font) (c : UInt8) : UInt64 :=
  font.headersize.toUInt64 + (c.toUInt32 * font.charsize).toUInt64

namespace Terminal

/-- The index of a pixel in the framebuffer. -/
def pixelIndex (t : Terminal) (e : PutEntry) (i j : UInt32) : UInt64 :=
  (e.row * 16 + i.toUInt64) * t.screenWidth + e.column * 8 + j.toUInt64

/-- The inner loop with `n` rounds left: the pixels that are written, with their colours.
`line` is a `char`, which is signed. -/
def putLine (t : Terminal) (e : PutEntry) (line : UInt8) (i : UInt32) :
    ℕ → UInt32 → UInt32 → List (UInt64 × UInt32)
  | 0, _, _ => []
  | n + 1, j, mask =>
    (t.pixelIndex e i j, if line.toInt8.toInt32.toUInt32 &&& mask ≠ 0 then e.fg else e.bg) ::
      putLine t e line i n (j + 1) (mask >>> 1)

/-- The outer loop with `n` rounds left. -/
def putLines (t : Terminal) (font : Psf2Font) (e : PutEntry) :
    ℕ → UInt32 → List (UInt64 × UInt32)
  | 0, _ => []
  | n + 1, i =>
    putLine t e (font.buffer (font.glyph e.c + i.toUInt64)) i t.charWidth.toNat 0
        (1 <<< (t.charWidth - 1).toUInt32) ++
      putLines t font e n (i + 1)

/-- `terminal_putentryat`. -/
def terminalPutentryat (t : Terminal) (font : Psf2Font) (e : PutEntry) : List (UInt64 × UInt32) :=
  t.putLines font e t.charHeight.toNat 0

/-- The pixels that an entry is written to. -/
def pixels (t : Terminal) (font : Psf2Font) (e : PutEntry) : Set ℕ :=
  {p | ∃ write ∈ t.terminalPutentryat font e, p = write.1.toNat}

/-- The cells tile the framebuffer: their pixels lie in it, they are rectangles of the size of
a character, and different cells have no pixel in common. -/
structure Tiles (t : Terminal) (font : Psf2Font) : Prop where
  inside : ∀ e, t.HasCell e.column e.row → ∀ p ∈ t.pixels font e,
    p < t.screenWidth.toNat * t.screenHeight.toNat
  rectangle : ∀ e, t.HasCell e.column e.row → IsRectangle t.screenWidth.toNat
    t.screenHeight.toNat t.charWidth.toNat t.charHeight.toNat (t.pixels font e)
  disjoint : ∀ e e', t.HasCell e.column e.row → t.HasCell e'.column e'.row →
    e.column ≠ e'.column ∨ e.row ≠ e'.row → Disjoint (t.pixels font e) (t.pixels font e')

section Pixels

variable {t : Terminal} {font : Psf2Font} {e : PutEntry} {p : UInt64}

theorem add_ofNat_zero (j : UInt32) : j + UInt32.ofNat 0 = j := UInt32.add_zero j

theorem add_ofNat_succ (j : UInt32) (k : ℕ) :
    j + 1 + UInt32.ofNat k = j + UInt32.ofNat (k + 1) := by
  rw [Nat.add_comm k 1, UInt32.ofNat_add, UInt32.add_assoc]
  rfl

/-- The indices of a line of a character. -/
theorem exists_putLine {line : UInt8} {i : UInt32} {n : ℕ} : ∀ {j mask : UInt32},
    (∃ write ∈ t.putLine e line i n j mask, p = write.1) ↔
      ∃ k < n, p = t.pixelIndex e i (j + UInt32.ofNat k) := by
  induction n with
  | zero => simp [putLine]
  | succ n ih =>
    intro j mask
    rw [putLine, List.exists_mem_cons_iff, ih, Nat.exists_lt_succ_left, add_ofNat_zero]
    simp only [add_ofNat_succ]

/-- The indices of a character. -/
theorem exists_putLines {n : ℕ} : ∀ {i : UInt32},
    (∃ write ∈ t.putLines font e n i, p = write.1) ↔
      ∃ k < n, ∃ l < t.charWidth.toNat,
        p = t.pixelIndex e (i + UInt32.ofNat k) (UInt32.ofNat l) := by
  induction n with
  | zero => simp [putLines]
  | succ n ih =>
    intro i
    have hsplit : ∀ l l' : List (UInt64 × UInt32), (∃ write ∈ l ++ l', p = write.1) ↔
        (∃ write ∈ l, p = write.1) ∨ ∃ write ∈ l', p = write.1 := by
      intro l l'
      simp only [List.mem_append, or_and_right, exists_or]
    rw [putLines, hsplit, exists_putLine, ih, Nat.exists_lt_succ_left, add_ofNat_zero]
    simp only [add_ofNat_succ, UInt32.zero_add]

/-- The index of a pixel in terms of the first pixel of the cell. -/
theorem toNat_pixelIndex {i j : ℕ} (hi : i < 2 ^ 32) (hj : j < 2 ^ 32) :
    (t.pixelIndex e (UInt32.ofNat i) (UInt32.ofNat j)).toNat =
      (cellStart t.screenWidth.toNat e.column.toNat e.row.toNat + i * t.screenWidth.toNat + j) %
        2 ^ 64 := by
  have hindex : t.pixelIndex e (UInt32.ofNat i) (UInt32.ofNat j) =
      UInt64.ofNat (16 * e.row.toNat * t.screenWidth.toNat + 8 * e.column.toNat +
        i * t.screenWidth.toNat + j) := by
    have hi' : (UInt32.ofNat i).toUInt64 = UInt64.ofNat i := UInt32.toUInt64_ofNat' hi
    have hj' : (UInt32.ofNat j).toUInt64 = UInt64.ofNat j := UInt32.toUInt64_ofNat' hj
    rw [pixelIndex, hi', hj']
    simp only [UInt64.ofNat_add, UInt64.ofNat_mul, UInt64.ofNat_toNat]
    show _ = 16 * e.row * t.screenWidth + 8 * e.column + _ + _
    rw [UInt64.add_mul, UInt64.mul_comm e.row 16, UInt64.mul_comm e.column 8,
      UInt64.add_assoc (16 * e.row * t.screenWidth), UInt64.add_comm (UInt64.ofNat i * _),
      ← UInt64.add_assoc]
  rw [hindex, UInt64.toNat_ofNat', cellStart]
  omega

/-- The pixels of a character. -/
theorem mem_pixels_iff (hcw : t.charWidth.toNat < 2 ^ 32) (hch : t.charHeight.toNat < 2 ^ 32)
    {p : ℕ} : p ∈ t.pixels font e ↔ ∃ i < t.charHeight.toNat, ∃ j < t.charWidth.toNat,
      p = (cellStart t.screenWidth.toNat e.column.toNat e.row.toNat + i * t.screenWidth.toNat + j) %
        2 ^ 64 := by
  have hwrites : ∀ q : UInt64, (∃ write ∈ t.terminalPutentryat font e, q = write.1) ↔
      ∃ i < t.charHeight.toNat, ∃ j < t.charWidth.toNat,
        q = t.pixelIndex e (UInt32.ofNat i) (UInt32.ofNat j) := by
    intro q
    rw [terminalPutentryat, exists_putLines]
    simp only [UInt32.zero_add]
  constructor
  · rintro ⟨write, hwrite, rfl⟩
    obtain ⟨i, hi, j, hj, heq⟩ := (hwrites write.1).mp ⟨write, hwrite, rfl⟩
    exact ⟨i, hi, j, hj, by rw [heq, toNat_pixelIndex (hi.trans hch) (hj.trans hcw)]⟩
  · rintro ⟨i, hi, j, hj, rfl⟩
    obtain ⟨write, hwrite, heq⟩ := (hwrites _).mpr ⟨i, hi, j, hj, rfl⟩
    exact ⟨write, hwrite, by rw [← heq, toNat_pixelIndex (hi.trans hch) (hj.trans hcw)]⟩

/-- Without a wrap the pixels are a block. -/
theorem pixels_eq_block (hcw : t.charWidth.toNat < 2 ^ 32) (hch : t.charHeight.toNat < 2 ^ 32)
    (hroom : ∀ i < t.charHeight.toNat, ∀ j < t.charWidth.toNat,
      cellStart t.screenWidth.toNat e.column.toNat e.row.toNat + i * t.screenWidth.toNat + j <
        2 ^ 64) :
    t.pixels font e = block t.screenWidth.toNat t.charWidth.toNat t.charHeight.toNat
      (cellStart t.screenWidth.toNat e.column.toNat e.row.toNat) := by
  ext p
  rw [mem_pixels_iff hcw hch]
  constructor
  · rintro ⟨i, hi, j, hj, rfl⟩
    exact ⟨i, hi, j, hj, Nat.mod_eq_of_lt (hroom i hi j hj)⟩
  · rintro ⟨i, hi, j, hj, rfl⟩
    exact ⟨i, hi, j, hj, (Nat.mod_eq_of_lt (hroom i hi j hj)).symm⟩

end Pixels

/-! ### Behind `terminal_init` -/

/-- What `terminal_init` sets, for a font that is at most 8 pixels wide and not larger than
the screen, which fits into the address space with four bytes a pixel. -/
structure Grid (t : Terminal) (cw ch sw sh : ℕ) : Prop where
  charWidth : t.charWidth.toNat = cw
  charHeight : t.charHeight.toNat = ch
  screenWidth : t.screenWidth.toNat = sw
  screenHeight : t.screenHeight.toNat = sh
  terminalWidth : t.terminalWidth.toNat = sw / cw
  terminalHeight : t.terminalHeight.toNat = sh / ch
  width_pos : 1 ≤ cw
  width_le : cw ≤ 8
  height_pos : 1 ≤ ch
  height_lt : ch < 2 ^ 32
  columns : cw ≤ sw
  lines : ch ≤ sh
  screen : sw * sh ≤ 2 ^ 62

section Grid

variable {t : Terminal} {font : Psf2Font} {e e' : PutEntry} {cw ch sw sh : ℕ}

theorem Grid.hasCell_iff (h : t.Grid cw ch sw sh) :
    t.HasCell e.column e.row ↔ e.column.toNat < sw / cw ∧ e.row.toNat < sh / ch := by
  rw [HasCell, UInt64.lt_iff_toNat_lt, UInt64.lt_iff_toNat_lt, h.terminalWidth, h.terminalHeight]

/-- A cell that begins on the screen is a block. -/
theorem Grid.pixels_eq (h : t.Grid cw ch sw sh)
    (hstart : cellStart sw e.column.toNat e.row.toNat < sw * sh) :
    t.pixels font e = block sw cw ch (cellStart sw e.column.toNat e.row.toNat) := by
  obtain ⟨rfl, rfl, rfl, rfl, -, -, -, hcw, -, hch, -, hlines, hscreen⟩ := h
  refine pixels_eq_block (by omega) hch fun i hi j hj => ?_
  have hmul : i * t.screenWidth.toNat ≤ t.screenWidth.toNat * t.screenHeight.toNat := by
    rw [Nat.mul_comm]
    exact Nat.mul_le_mul_left _ (by omega)
  omega

/-- The first pixel of a cell. -/
theorem Grid.start_mem (h : t.Grid cw ch sw sh) :
    cellStart sw e.column.toNat e.row.toNat ∈ t.pixels font e := by
  obtain ⟨rfl, rfl, rfl, rfl, -, -, hpos, hcw, hpos', hch, -, -, -⟩ := h
  refine (mem_pixels_iff (by omega) hch).mpr ⟨0, hpos', 0, hpos, ?_⟩
  rw [Nat.zero_mul]
  exact (Nat.mod_mod _ _).symm

/-- An entry for a cell. -/
theorem Grid.exists_entry (h : t.Grid cw ch sw sh) {c r : ℕ} (hc : c < sw / cw)
    (hr : r < sh / ch) : ∃ e : PutEntry, t.HasCell e.column e.row ∧ e.column.toNat = c ∧
      e.row.toNat = r := by
  have hcolumn : (UInt64.ofNat c).toNat = c :=
    UInt64.toNat_ofNat_of_lt' (hc.trans (h.terminalWidth ▸ t.terminalWidth.toNat_lt))
  have hrow : (UInt64.ofNat r).toNat = r :=
    UInt64.toNat_ofNat_of_lt' (hr.trans (h.terminalHeight ▸ t.terminalHeight.toNat_lt))
  refine ⟨⟨0, UInt64.ofNat c, UInt64.ofNat r, 0, 0⟩, h.hasCell_iff.mpr ?_, hcolumn, hrow⟩
  rw [hcolumn, hrow]
  exact ⟨hc, hr⟩

/-- A cell of a terminal whose cells tile the framebuffer is a block, which fits. -/
theorem Grid.fits_of_tiles (h : t.Grid cw ch sw sh) (htiles : t.Tiles font)
    (he : t.HasCell e.column e.row) :
    t.pixels font e = block sw cw ch (cellStart sw e.column.toNat e.row.toNat) ∧
      Fits sw sh cw ch (cellStart sw e.column.toNat e.row.toNat) := by
  have hstart := htiles.inside e he _ h.start_mem
  rw [h.screenWidth, h.screenHeight] at hstart
  have hpixels : t.pixels font e = _ := h.pixels_eq hstart
  have hrectangle := htiles.rectangle e he
  rw [h.screenWidth, h.screenHeight, h.charWidth, h.charHeight, hpixels,
    isRectangle_block_iff h.width_pos h.height_pos] at hrectangle
  exact ⟨hpixels, hrectangle⟩

/-- The cells tile the framebuffer if they are placed on the screen, and disjoint. -/
theorem Grid.tiles_iff_placed (h : t.Grid cw ch sw sh) : t.Tiles font ↔ Placed cw ch sw sh := by
  constructor
  -- the cells are blocks of the screen, so that what holds of the one holds of the other
  · intro htiles
    constructor
    · intro c hc r hr
      obtain ⟨e, he, rfl, rfl⟩ := h.exists_entry hc hr
      exact (h.fits_of_tiles htiles he).2
    · intro c hc r hr c' hc' r' hr' hne
      obtain ⟨e, he, rfl, rfl⟩ := h.exists_entry hc hr
      obtain ⟨e', he', rfl, rfl⟩ := h.exists_entry hc' hr'
      obtain ⟨hpixels, hfits⟩ := h.fits_of_tiles htiles he
      obtain ⟨hpixels', hfits'⟩ := h.fits_of_tiles htiles he'
      have hdisjoint := htiles.disjoint e e' he he'
        (hne.imp (mt (congrArg UInt64.toNat)) (mt (congrArg UInt64.toNat)))
      rwa [hpixels, hpixels', disjoint_block_iff hfits.1 hfits'.1 h.width_pos] at hdisjoint
  · intro hplaced
    -- every cell that is written is a block that fits
    have hfits : ∀ e : PutEntry, t.HasCell e.column e.row →
        t.pixels font e = block sw cw ch (cellStart sw e.column.toNat e.row.toNat) ∧
          Fits sw sh cw ch (cellStart sw e.column.toNat e.row.toNat) := by
      intro e he
      obtain ⟨hc, hr⟩ := h.hasCell_iff.mp he
      have hfit := hplaced.fits _ hc _ hr
      exact ⟨h.pixels_eq (lt_of_mem_block hfit (self_mem_block h.width_pos h.height_pos)), hfit⟩
    constructor
    · intro e he p hp
      obtain ⟨hpixels, hfit⟩ := hfits e he
      rw [hpixels] at hp
      rw [h.screenWidth, h.screenHeight]
      exact lt_of_mem_block hfit hp
    · intro e he
      obtain ⟨hpixels, hfit⟩ := hfits e he
      rw [h.screenWidth, h.screenHeight, h.charWidth, h.charHeight, hpixels,
        isRectangle_block_iff h.width_pos h.height_pos]
      exact hfit
    · intro e e' he he' hne
      obtain ⟨hpixels, hfit⟩ := hfits e he
      obtain ⟨hpixels', hfit'⟩ := hfits e' he'
      obtain ⟨hc, hr⟩ := h.hasCell_iff.mp he
      obtain ⟨hc', hr'⟩ := h.hasCell_iff.mp he'
      rw [hpixels, hpixels', disjoint_block_iff hfit.1 hfit'.1 h.width_pos]
      exact hplaced.apart _ hc _ hr _ hc' _ hr'
        (hne.imp (mt UInt64.toNat_inj.mp) (mt UInt64.toNat_inj.mp))

theorem Grid.tiles_iff_cellsFit (h : t.Grid cw ch sw sh) : t.Tiles font ↔ CellsFit cw ch sw sh :=
  h.tiles_iff_placed.trans
    (placed_iff h.width_pos h.width_le h.height_pos h.columns h.lines h.screen)

end Grid

/-- `terminal_init` sets a grid. -/
theorem grid_terminalInit (t : Terminal) {psf : Psf2Header} {mode : GraphicsMode}
    (hmagic : psf.MagicOk) (hpos : 1 ≤ psf.width) (hwidth : psf.width ≤ 8)
    (hheight : 1 ≤ psf.height) (hfitw : psf.width.toUInt64 ≤ mode.width)
    (hfith : psf.height.toUInt64 ≤ mode.height)
    (hscreen : 4 * (mode.width.toNat * mode.height.toNat) ≤ 2 ^ 64) :
    (t.terminalInit psf mode).2.Grid psf.width.toNat psf.height.toNat mode.width.toNat
      mode.height.toNat := by
  rw [terminalInit, if_neg (not_not_intro hmagic)]
  exact
    { charWidth := UInt32.toNat_toUInt64 psf.width
      charHeight := UInt32.toNat_toUInt64 psf.height
      screenWidth := rfl
      screenHeight := rfl
      terminalWidth := by rw [UInt64.toNat_div, UInt32.toNat_toUInt64]
      terminalHeight := by rw [UInt64.toNat_div, UInt32.toNat_toUInt64]
      width_pos := UInt32.le_iff_toNat_le.mp hpos
      width_le := UInt32.le_iff_toNat_le.mp hwidth
      height_pos := UInt32.le_iff_toNat_le.mp hheight
      height_lt := psf.height.toNat_lt
      columns := UInt32.toNat_toUInt64 psf.width ▸ UInt64.le_iff_toNat_le.mp hfitw
      lines := UInt32.toNat_toUInt64 psf.height ▸ UInt64.le_iff_toNat_le.mp hfith
      screen := by omega }

/-- Behind `terminal_init` the cells tile the framebuffer if and only if the lines and the
columns of the cells fit. -/
theorem terminalInit_tiles_iff (t : Terminal) {font : Psf2Font} {mode : GraphicsMode}
    (hmagic : font.MagicOk) (hpos : 1 ≤ font.width) (hwidth : font.width ≤ 8)
    (hheight : 1 ≤ font.height) (hfitw : font.width.toUInt64 ≤ mode.width)
    (hfith : font.height.toUInt64 ≤ mode.height)
    (hscreen : 4 * (mode.width.toNat * mode.height.toNat) ≤ 2 ^ 64) :
    (t.terminalInit font.toPsf2Header mode).2.Tiles font ↔
      CellsFit font.width.toNat font.height.toNat mode.width.toNat mode.height.toNat :=
  (t.grid_terminalInit hmagic hpos hwidth hheight hfitw hfith hscreen).tiles_iff_cellsFit

/-- A font of 8 by `height` pixels. -/
def font8 (height : UInt32) : Psf2Font where
  magic := [0x72, 0xb5, 0x4a, 0x86]
  height := height
  width := 8
  headersize := 32
  charsize := height
  buffer := fun _ => 0

/-- Characters of 8 by 16 pixels on a screen of 1280 by 800. -/
theorem terminalInit_tiles_8x16 :
    (uninitialised.terminalInit (font8 16).toPsf2Header ⟨1280, 800⟩).2.Tiles (font8 16) :=
  (uninitialised.terminalInit_tiles_iff (by decide) (by decide) (by decide) (by decide) (by decide)
    (by decide) (by decide)).mpr (by decide)

/-- Characters of 8 by 8 pixels: of the 100 lines of text the lower half lies behind the
framebuffer. -/
theorem not_terminalInit_tiles :
    ¬ ∀ (t : Terminal) (font : Psf2Font) (mode : GraphicsMode), font.MagicOk → 1 ≤ font.width →
      font.width ≤ 8 → font.charsize = font.height → 1 ≤ font.height →
      font.width.toUInt64 ≤ mode.width → font.height.toUInt64 ≤ mode.height →
      (t.terminalInit font.toPsf2Header mode).2.Tiles font := by
  intro h
  have htiles := h uninitialised (font8 8) ⟨1280, 800⟩ (by decide) (by decide) (by decide) rfl
    (by decide) (by decide) (by decide)
  have hgrid := @grid_terminalInit uninitialised (font8 8).toPsf2Header ⟨1280, 800⟩ (by decide)
    (by decide) (by decide) (by decide) (by decide) (by decide) (by decide)
  exact absurd (hgrid.tiles_iff_cellsFit.mp htiles) (by decide)

end Terminal

end Betelgeuse
