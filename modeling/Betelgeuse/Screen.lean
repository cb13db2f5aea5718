/-
What the screen shows (`kernel/arch/x86_64/tty.c`).

A `TextPage` is what the terminal is for: a text of `w` columns and `h` lines that is written
character after character, with one position that goes through all of it.  The code has a
column, a row and a framebuffer of pixels instead.  `Shows` says that the framebuffer displays
the page, with the cursor at its position.

`Grid.draws` is about the pixels of one character, `AtCursor.call` about the cursor.  Together
they say that the screen shows the page behind every sequence of calls, if no tab leads behind
the last column (`screen_run`).
-/
import Betelgeuse.Console
import Betelgeuse.Framebuffer
import Betelgeuse.LabelledRuns
import Betelgeuse.TileWrites

open LabelledRuns RowMajor TileWrites

namespace Betelgeuse

/-- A character with its colours. -/
structure Glyph where
  c : UInt8
  fg : UInt32
  bg : UInt32

/-- A text with the position and the colours of the next character. -/
structure TextPage where
  cells : ℕ → Option Glyph
  position : ℕ
  fg : UInt32
  bg : UInt32

/-- A call of one of the functions of the terminal. -/
inductive ScreenCall where
  | cursor (call : TerminalCall)
  | setcolour (fg bg : UInt32)
  | putentryat (e : PutEntry)

/-! ### The page -/

namespace TextPage

variable (w h : ℕ) (p : TextPage)

/-- An empty page. -/
def blank (fg bg : UInt32) : TextPage := ⟨fun _ => none, 0, fg, bg⟩

def put (c : UInt8) : TextPage :=
  { p with
    cells := Function.update p.cells p.position (some ⟨c, p.fg, p.bg⟩)
    position := (p.position + 1) % (w * h) }

/-- The same column of the next line, and the first one behind the last line. -/
def newline : TextPage :=
  { p with position := if p.position + w < w * h then p.position + w else 0 }

/-- The beginning of the line. -/
def carriageReturn : TextPage := { p with position := p.position - p.position % w }

/-- The next column that is a multiple of 4. -/
def tab : TextPage :=
  { p with
    position := (p.position - p.position % w + 4 * (p.position % w / 4 + 1)) % (w * h) }

def byte (b : UInt8) : TextPage :=
  if b = 10 then p.newline w h
  else if b = 13 then p.carriageReturn w
  else if b = 9 then p.tab w h
  else if 0x20 ≤ b ∧ b < 0xDC then p.put w h b
  else p

/-- A position on the page; a coordinate that is not on it becomes 0. -/
def cursor (x y : ℕ) : TextPage :=
  { p with position := (if y < h then y else 0) * w + if x < w then x else 0 }

def call : ScreenCall → TextPage
  | .cursor (.write data) => data.foldl (byte w h) p
  | .cursor (.putchar c) => p.put w h c
  | .cursor .newline => p.newline w h
  | .cursor (.cursor x y) => p.cursor w h x.toNat y.toNat
  | .setcolour fg bg => { p with fg := fg, bg := bg }
  | .putentryat e =>
    { p with
      cells := Function.update p.cells (e.row.toNat * w + e.column.toNat)
        (some ⟨e.c, e.fg, e.bg⟩) }

end TextPage

/-! ### The terminal with its framebuffer -/

/-- The static variables of `tty.c`, with the framebuffer. -/
structure Display where
  terminal : Terminal
  framebuffer : UInt64 → UInt32

namespace Terminal

/-- The framebuffer behind calls of `terminal_putentryat`. -/
def putEntries (t : Terminal) (font : Psf2Font) (entries : List PutEntry) (m : UInt64 → UInt32) :
    UInt64 → UInt32 :=
  entries.foldl (fun m e => store m (t.terminalPutentryat font e)) m

end Terminal

namespace Display

/-- Make a call. -/
def call (font : Psf2Font) (d : Display) : ScreenCall → Display
  | .cursor c =>
    let (entries, terminal) := d.terminal.call c
    ⟨terminal, d.terminal.putEntries font entries d.framebuffer⟩
  | .setcolour fg bg => { d with terminal := d.terminal.terminalSetcolour fg bg }
  | .putentryat e => { d with framebuffer := d.terminal.putEntries font [e] d.framebuffer }

/-- No tab leads behind the last column, and `terminal_putentryat` is called for a cell of the
screen. -/
def Allows (d : Display) : ScreenCall → Prop
  | .cursor c => d.terminal.TabFits c
  | .setcolour _ _ => True
  | .putentryat e => d.terminal.HasCell e.column e.row

/-- A call that the screen allows. -/
def Step (font : Psf2Font) (d : Display) (c : ScreenCall) (d' : Display) : Prop :=
  d.Allows c ∧ d' = d.call font c

end Display

/-- The pixel in line `i` and column `j` of a character, counted from the upper left corner, has
the colour of the foreground. -/
def Psf2Font.lit (font : Psf2Font) (c : UInt8) (i j : ℕ) : Bool :=
  (font.buffer (font.glyph c + UInt64.ofNat i)).toNat.testBit (font.width.toNat - 1 - j)

/-- The colour of a pixel of a character. -/
def Psf2Font.colour (font : Psf2Font) (g : Glyph) (o : ℕ × ℕ) : UInt32 :=
  if font.lit g.c o.1 o.2 then g.fg else g.bg

/-- The index of a pixel of the cell at a position. -/
def cellPixel (sw w : ℕ) (k : ℕ) (o : ℕ × ℕ) : UInt64 :=
  UInt64.ofNat ((16 * (k / w) + o.1) * sw + 8 * (k % w) + o.2)

/-- The offsets of the pixels of a character. -/
def InGlyph (cw ch : ℕ) (o : ℕ × ℕ) : Prop := o.1 < ch ∧ o.2 < cw

namespace Terminal

/-- The position of the cursor. -/
def position (t : Terminal) : ℕ :=
  t.terminalRow.toNat * t.terminalWidth.toNat + t.terminalColumn.toNat

/-- The cursor and the colours are those of the page. -/
structure AtCursor (t : Terminal) (p : TextPage) : Prop where
  position : p.position = t.position
  fg : p.fg = t.fgColour
  bg : p.bg = t.bgColour

end Terminal

/-- The screen shows the page, in front of the picture `m₀`. -/
structure Display.Shows (sw w h : ℕ) (font : Psf2Font) (m₀ : UInt64 → UInt32) (d : Display)
    (p : TextPage) : Prop where
  cursor : d.terminal.AtCursor p
  picture : Displays (cellPixel sw w) (· < w * h) (InGlyph font.width.toNat font.height.toNat)
    font.colour m₀ d.framebuffer p.cells

/-- The cells behind calls of `terminal_putentryat`. -/
def TextPage.putAll (w : ℕ) (cells : ℕ → Option Glyph) (entries : List PutEntry) :
    ℕ → Option Glyph :=
  entries.foldl (fun cells e => Function.update cells (e.row.toNat * w + e.column.toNat)
    (some ⟨e.c, e.fg, e.bg⟩)) cells

namespace Terminal

/-! ### The pixels of a character -/

section Pixels

variable {t : Terminal} {font : Psf2Font} {e : PutEntry}

/-- The mask behind `k` rounds. -/
def shiftedMask (mask : UInt32) : ℕ → UInt32
  | 0 => mask
  | k + 1 => shiftedMask (mask >>> 1) k

theorem toNat_shiftedMask (k : ℕ) : ∀ mask : UInt32,
    (shiftedMask mask k).toNat = mask.toNat / 2 ^ k := by
  induction k with
  | zero => exact fun mask => (Nat.div_one _).symm
  | succ k ih =>
    intro mask
    have hone : (mask >>> 1).toNat = mask.toNat / 2 := by
      rw [UInt32.toNat_shiftRight, Nat.shiftRight_eq_div_pow]
      rfl
    rw [shiftedMask, ih, hone, Nat.div_div_eq_div_mul, Nat.pow_succ']

/-- A bit of a `char` that has been extended to an `int`. -/
theorem and_ne_zero_iff {line : UInt8} {mask : UInt32} {n : ℕ} (hn : n < 8)
    (hmask : mask.toNat = 2 ^ n) :
    line.toInt8.toInt32.toUInt32 &&& mask ≠ 0 ↔ line.toNat.testBit n = true := by
  have htwo : mask.toBitVec = BitVec.twoPow 32 n := by
    apply BitVec.eq_of_toNat_eq
    rw [BitVec.toNat_twoPow]
    show mask.toNat = _
    rw [hmask, Nat.mod_eq_of_lt (Nat.pow_lt_pow_right (by decide) (by omega))]
  have hline : line.toInt8.toInt32.toUInt32.toBitVec.getLsbD n = line.toNat.testBit n := by
    show (line.toBitVec.signExtend 32).getLsbD n = _
    rw [BitVec.getLsbD_signExtend, if_pos hn, decide_eq_true (by omega), Bool.true_and]
    rfl
  have hne : BitVec.twoPow 32 n ≠ 0#32 := by
    rw [ne_eq, ← BitVec.toNat_inj, BitVec.toNat_twoPow,
      Nat.mod_eq_of_lt (Nat.pow_lt_pow_right (by decide) (by omega))]
    exact (Nat.two_pow_pos n).ne'
  rw [ne_eq, ← UInt32.toBitVec_inj, UInt32.toBitVec_and, htwo, BitVec.and_twoPow, hline]
  show ¬ (if _ then _ else 0#32) = 0#32 ↔ _
  split
  · rename_i hbit
    exact iff_of_true hne hbit
  · rename_i hbit
    exact iff_of_false (not_not_intro rfl) hbit

/-- The writes of a line of a character. -/
theorem mem_putLine {line : UInt8} {i : UInt32} {write : UInt64 × UInt32} {n : ℕ} :
    ∀ {j mask : UInt32}, write ∈ t.putLine e line i n j mask ↔ ∃ k < n,
      write = (t.pixelIndex e i (j + UInt32.ofNat k),
        if line.toInt8.toInt32.toUInt32 &&& shiftedMask mask k ≠ 0 then e.fg else e.bg) := by
  induction n with
  | zero => simp [putLine]
  | succ n ih =>
    intro j mask
    rw [putLine, List.mem_cons, ih, Nat.exists_lt_succ_left, add_ofNat_zero]
    simp only [add_ofNat_succ]
    rfl

/-- The writes of a character. -/
theorem mem_putLines {write : UInt64 × UInt32} {n : ℕ} : ∀ {i : UInt32},
    write ∈ t.putLines font e n i ↔ ∃ k < n, ∃ l < t.charWidth.toNat,
      write = (t.pixelIndex e (i + UInt32.ofNat k) (UInt32.ofNat l),
        if (font.buffer (font.glyph e.c + (i + UInt32.ofNat k).toUInt64)).toInt8.toInt32.toUInt32
          &&& shiftedMask (1 <<< (t.charWidth - 1).toUInt32) l ≠ 0 then e.fg else e.bg) := by
  induction n with
  | zero => simp [putLines]
  | succ n ih =>
    intro i
    rw [putLines, List.mem_append, mem_putLine, ih, Nat.exists_lt_succ_left, add_ofNat_zero]
    simp only [add_ofNat_succ, UInt32.zero_add]

theorem toNat_topMask (hpos : 1 ≤ t.charWidth.toNat) (hle : t.charWidth.toNat ≤ 8) :
    ((1 : UInt32) <<< (t.charWidth - 1).toUInt32).toNat = 2 ^ (t.charWidth.toNat - 1) := by
  have hpred : (t.charWidth - 1).toNat = t.charWidth.toNat - 1 := by
    rw [UInt64.toNat_sub_of_le _ 1 (UInt64.le_iff_toNat_le.mpr hpos)]
    rfl
  rw [UInt32.toNat_shiftLeft, UInt64.toNat_toUInt32, hpred]
  interval_cases t.charWidth.toNat <;> rfl

/-- A pixel of a character has the colour of its bit. -/
theorem colour_eq (hwidth : t.charWidth.toNat = font.width.toNat) (hle : font.width.toNat ≤ 8)
    {k l : ℕ} (hk : k < 2 ^ 32) (hl : l < font.width.toNat) :
    (if (font.buffer (font.glyph e.c + (UInt32.ofNat k).toUInt64)).toInt8.toInt32.toUInt32
        &&& shiftedMask (1 <<< (t.charWidth - 1).toUInt32) l ≠ 0 then e.fg else e.bg) =
      font.colour ⟨e.c, e.fg, e.bg⟩ (k, l) := by
  have hmask : (shiftedMask (1 <<< (t.charWidth - 1).toUInt32) l).toNat =
      2 ^ (font.width.toNat - 1 - l) := by
    rw [toNat_shiftedMask, toNat_topMask (by omega) (by omega), hwidth,
      Nat.pow_div (by omega) (by decide)]
  have hline : (UInt32.ofNat k).toUInt64 = UInt64.ofNat k := UInt32.toUInt64_ofNat' hk
  rw [hline]
  exact if_congr (and_ne_zero_iff (by omega) hmask) rfl rfl

end Pixels

section Grid

variable {t : Terminal} {font : Psf2Font} {e : PutEntry} {cw ch sw sh : ℕ}

/-- The index of a pixel in terms of the position of its cell. -/
theorem Grid.pixelIndex_eq (h : t.Grid cw ch sw sh) (he : t.HasCell e.column e.row) {i j : ℕ}
    (hi : i < ch) (hj : j < cw) : t.pixelIndex e (UInt32.ofNat i) (UInt32.ofNat j) =
      cellPixel sw (sw / cw) (e.row.toNat * (sw / cw) + e.column.toNat) (i, j) := by
  obtain ⟨hline, hcolumn⟩ := div_mod_of_eq (h.hasCell_iff.mp he).1 rfl
  have hi' : i < 2 ^ 32 := hi.trans h.height_lt
  have hj' : j < 2 ^ 32 := by have hle := h.width_le; omega
  rw [← UInt64.toNat_inj, toNat_pixelIndex hi' hj', cellPixel, hline, hcolumn, h.screenWidth,
    cellStart, UInt64.toNat_ofNat', Nat.add_mul]
  dsimp only
  omega

/-- `terminal_putentryat` draws the character into its cell. -/
theorem Grid.draws (h : t.Grid font.width.toNat font.height.toNat sw sh)
    (he : t.HasCell e.column e.row) :
    Draws (cellPixel sw (sw / font.width.toNat)) (InGlyph font.width.toNat font.height.toNat)
      (e.row.toNat * (sw / font.width.toNat) + e.column.toNat) (font.colour ⟨e.c, e.fg, e.bg⟩)
      (t.terminalPutentryat font e) := by
  have hcolour : ∀ {k l : ℕ}, k < font.height.toNat → l < font.width.toNat → _ = _ :=
    fun {k l} hk hl => colour_eq (e := e) h.charWidth h.width_le (hk.trans h.height_lt) hl
  constructor
  · rintro ⟨k, l⟩ ⟨hk, hl⟩
    refine mem_putLines.mpr ⟨k, h.charHeight ▸ hk, l, h.charWidth ▸ hl, ?_⟩
    rw [UInt32.zero_add, h.pixelIndex_eq he hk hl, hcolour hk hl]
  · intro write hwrite
    obtain ⟨k, hk, l, hl, rfl⟩ := mem_putLines.mp hwrite
    rw [h.charHeight] at hk
    rw [h.charWidth] at hl
    refine ⟨(k, l), ⟨hk, hl⟩, ?_⟩
    rw [UInt32.zero_add, h.pixelIndex_eq he hk hl, hcolour hk hl]

/-- A pixel of a cell, and the block of the cell that it lies in. -/
theorem toNat_cellPixel (hplaced : Placed cw ch sw sh) (hcw : 1 ≤ cw) (hcw' : cw ≤ 8)
    (hch : 1 ≤ ch) (hle : cw ≤ sw) (hscreen : sw * sh ≤ 2 ^ 62) {k : ℕ} {o : ℕ × ℕ}
    (hk : k < sw / cw * (sh / ch)) (ho : InGlyph cw ch o) :
    (cellPixel sw (sw / cw) k o).toNat =
        cellStart sw (k % (sw / cw)) (k / (sw / cw)) + o.1 * sw + o.2 ∧
      (cellPixel sw (sw / cw) k o).toNat ∈
        block sw cw ch (cellStart sw (k % (sw / cw)) (k / (sw / cw))) := by
  have hcolumn : k % (sw / cw) < sw / cw := Nat.mod_lt _ (Nat.div_pos hle hcw)
  have hline : k / (sw / cw) < sh / ch := Nat.div_lt_of_lt_mul hk
  have hstart := hplaced.cellStart_eq hcw hcw' hch hle hscreen hcolumn hline
  have hmem : cellStart sw (k % (sw / cw)) (k / (sw / cw)) + o.1 * sw + o.2 ∈
      block sw cw ch (cellStart sw (k % (sw / cw)) (k / (sw / cw))) :=
    ⟨o.1, ho.1, o.2, ho.2, rfl⟩
  have hlt := lt_of_mem_block (hplaced.fits _ hcolumn _ hline) hmem
  have heq : (cellPixel sw (sw / cw) k o).toNat =
      cellStart sw (k % (sw / cw)) (k / (sw / cw)) + o.1 * sw + o.2 := by
    rw [cellPixel, UInt64.toNat_ofNat', Nat.add_mul, hstart]
    rw [hstart] at hlt
    omega
  exact ⟨heq, heq ▸ hmem⟩

/-- No two pixels of cells are the same. -/
theorem injective_cellPixel (hplaced : Placed cw ch sw sh) (hcw : 1 ≤ cw) (hcw' : cw ≤ 8)
    (hch : 1 ≤ ch) (hle : cw ≤ sw) (hscreen : sw * sh ≤ 2 ^ 62) :
    Injective (cellPixel sw (sw / cw)) (· < sw / cw * (sh / ch)) (InGlyph cw ch) := by
  intro k o k' o' hk ho hk' ho' heq
  have hpos : 0 < sw / cw := Nat.div_pos hle hcw
  obtain ⟨hpixel, hmem⟩ := toNat_cellPixel hplaced hcw hcw' hch hle hscreen hk ho
  obtain ⟨hpixel', hmem'⟩ := toNat_cellPixel hplaced hcw hcw' hch hle hscreen hk' ho'
  have hline : k / (sw / cw) < sh / ch := Nat.div_lt_of_lt_mul hk
  have hline' : k' / (sw / cw) < sh / ch := Nat.div_lt_of_lt_mul hk'
  have hfits := hplaced.fits _ (Nat.mod_lt k hpos) _ hline
  have hfits' := hplaced.fits _ (Nat.mod_lt k' hpos) _ hline'
  have hsame : k = k' := by
    by_contra hne
    have hapart := hplaced.apart _ (Nat.mod_lt k hpos) _ hline _ (Nat.mod_lt k' hpos) _ hline' <| by
      by_contra hboth
      obtain ⟨hcolumn, hrow⟩ := not_or.mp hboth
      have hsplit := Nat.div_add_mod k (sw / cw)
      rw [not_not.mp hcolumn, not_not.mp hrow, Nat.div_add_mod] at hsplit
      exact hne hsplit.symm
    rw [← disjoint_block_iff hfits.1 hfits'.1 hcw] at hapart
    exact Set.disjoint_left.mp hapart hmem (heq ▸ hmem')
  subst hsame
  rw [heq, hpixel'] at hpixel
  -- the offsets are the line and the column of an index in a picture of the same width
  obtain ⟨hrow, hcolumn⟩ := div_mod_of_eq (x := o.2) (y := o.1) (ho.2.trans_le hle) rfl
  obtain ⟨hrow', hcolumn'⟩ := div_mod_of_eq (x := o'.2) (y := o'.1) (ho'.2.trans_le hle) rfl
  have hoffset : o.1 * sw + o.2 = o'.1 * sw + o'.2 := by omega
  rw [hoffset, hrow'] at hrow
  rw [hoffset, hcolumn'] at hcolumn
  exact ⟨rfl, Prod.ext hrow.symm hcolumn.symm⟩

end Grid

/-! ### The cursor -/

section Cursor

variable {t t' t'' : Terminal} {p : TextPage} {b : UInt8}

/-- Only the cursor has moved. -/
def Steers (t t' : Terminal) : Prop :=
  t' = { t with terminalColumn := t'.terminalColumn, terminalRow := t'.terminalRow }

theorem Steers.refl (t : Terminal) : t.Steers t := rfl

theorem Steers.trans (h : t.Steers t') (h' : t'.Steers t'') : t.Steers t'' := by
  unfold Steers at h h' ⊢
  rw [h'.trans (congrArg (fun s : Terminal => { s with
    terminalColumn := t''.terminalColumn, terminalRow := t''.terminalRow }) h)]

theorem steers_newline (t : Terminal) : t.Steers t.terminalNewline := by
  unfold terminalNewline
  dsimp only
  split <;> rfl

theorem steers_wrapColumn (t : Terminal) : t.Steers t.wrapColumn := by
  unfold wrapColumn
  dsimp only
  split
  · split <;> rfl
  · rfl

theorem steers_writeByte (t : Terminal) (b : UInt8) : t.Steers (t.writeByte b).2 := by
  unfold writeByte
  split
  · exact t.steers_newline
  split
  · rfl
  split
  · exact steers_wrapColumn { t with terminalColumn := t.tabStop }
  split
  · exact steers_wrapColumn { t with terminalColumn := t.terminalColumn + 1 }
  · exact .refl t

theorem steers_write (data : List UInt8) : ∀ t : Terminal, t.Steers (t.terminalWrite data).2 := by
  induction data with
  | nil => exact fun t => .refl t
  | cons b data ih => exact fun t => (t.steers_writeByte b).trans (ih _)

theorem steers_call (t : Terminal) (c : TerminalCall) : t.Steers (t.call c).2 := by
  cases c with
  | write data => exact steers_write data t
  | putchar c => exact steers_wrapColumn { t with terminalColumn := t.terminalColumn + 1 }
  | newline => exact t.steers_newline
  | cursor x y =>
    show t.Steers (t.terminalCursor x y)
    rw [terminalCursor_eq]
    rfl

theorem Steers.grid {cw ch sw sh : ℕ} (h : t.Steers t') (hgrid : t.Grid cw ch sw sh) :
    t'.Grid cw ch sw sh := by
  rw [h]
  exact { hgrid with }

/-- A position on the screen. -/
theorem OnScreen.position_lt (h : t.OnScreen) :
    t.position < t.terminalWidth.toNat * t.terminalHeight.toNat := by
  have hcolumn := UInt64.lt_iff_toNat_lt.mp h.1
  have hrow := Nat.mul_le_mul_right t.terminalWidth.toNat (UInt64.lt_iff_toNat_lt.mp h.2)
  rw [Nat.mul_comm t.terminalWidth.toNat, position]
  rw [Nat.succ_mul] at hrow
  omega

/-- A row that is counted up. -/
theorem toNat_succ_row (hrow : t.terminalRow < t.terminalHeight) :
    (t.terminalRow + 1).toNat = t.terminalRow.toNat + 1 := by
  have hlt := UInt64.lt_iff_toNat_lt.mp hrow
  have hmax := t.terminalHeight.toNat_lt
  rw [UInt64.toNat_add]
  show (t.terminalRow.toNat + 1) % 2 ^ 64 = _
  omega

/-- Behind the last row the cursor is at the beginning, and else a line further. -/
theorem position_newline (h : t.OnScreen) :
    t.terminalNewline.position =
      if t.position + t.terminalWidth.toNat < t.terminalWidth.toNat * t.terminalHeight.toNat then
        t.position + t.terminalWidth.toNat else 0 := by
  have hcolumn := UInt64.lt_iff_toNat_lt.mp h.1
  have hsucc := toNat_succ_row h.2
  unfold terminalNewline position
  dsimp only
  split
  · rename_i hlast
    rw [← UInt64.toNat_inj, hsucc] at hlast
    rw [← hlast, Nat.mul_succ, Nat.mul_comm t.terminalWidth.toNat, if_neg (by omega)]
    exact Nat.zero_mul _
  · rename_i hlast
    have hnext := UInt64.lt_iff_toNat_lt.mp (succ_lt_of_ne h.2 hlast)
    rw [hsucc] at hnext
    have hmul := Nat.mul_le_mul_right t.terminalWidth.toNat hnext
    rw [Nat.succ_mul, Nat.succ_mul] at hmul
    rw [Nat.mul_comm t.terminalWidth.toNat, if_pos (by omega)]
    show (t.terminalRow + 1).toNat * t.terminalWidth.toNat + t.terminalColumn.toNat = _
    rw [hsucc, Nat.succ_mul]
    omega

theorem position_wrapColumn (hcolumn : t.terminalColumn ≤ t.terminalWidth)
    (hrow : t.terminalRow < t.terminalHeight) :
    t.wrapColumn.position = t.position % (t.terminalWidth.toNat * t.terminalHeight.toNat) := by
  have hsucc := toNat_succ_row hrow
  unfold wrapColumn
  dsimp only
  split
  · rename_i hend
    have hposition : t.position = t.terminalWidth.toNat * (t.terminalRow.toNat + 1) := by
      rw [position, hend, Nat.mul_comm, Nat.mul_succ]
    split
    · rename_i hlast
      rw [← UInt64.toNat_inj, hsucc] at hlast
      rw [hposition, hlast, Nat.mod_self]
      exact Nat.zero_mul _
    · rename_i hlast
      have hnext := UInt64.lt_iff_toNat_lt.mp (succ_lt_of_ne hrow hlast)
      rw [hsucc] at hnext
      rw [hposition, Nat.mul_mod_mul_left, Nat.mod_eq_of_lt hnext]
      show (t.terminalRow + 1).toNat * t.terminalWidth.toNat + 0 = _
      rw [hsucc, Nat.mul_comm]
      rfl
  · rename_i hend
    have hon : t.OnScreen := ⟨UInt64.lt_of_le_of_ne hcolumn hend, hrow⟩
    exact (Nat.mod_eq_of_lt hon.position_lt).symm

/-- Counting the column up. -/
theorem position_succ (h : t.OnScreen) :
    ({ t with terminalColumn := t.terminalColumn + 1 } : Terminal).wrapColumn.position =
      (t.position + 1) % (t.terminalWidth.toNat * t.terminalHeight.toNat) := by
  have hcolumn := UInt64.lt_iff_toNat_lt.mp h.1
  have hmax := t.terminalWidth.toNat_lt
  have hsucc : (t.terminalColumn + 1).toNat = t.terminalColumn.toNat + 1 := by
    rw [UInt64.toNat_add]
    show (t.terminalColumn.toNat + 1) % 2 ^ 64 = _
    omega
  have hle : t.terminalColumn + 1 ≤ t.terminalWidth := by
    rw [UInt64.le_iff_toNat_le, hsucc]
    exact hcolumn
  refine (position_wrapColumn (t := { t with terminalColumn := t.terminalColumn + 1 }) hle
    h.2).trans ?_
  show (_ * _ + (t.terminalColumn + 1).toNat) % _ = _
  rw [hsucc]
  rfl

/-- The line and the column of the position. -/
theorem OnScreen.mod_position (h : t.OnScreen) :
    t.position % t.terminalWidth.toNat = t.terminalColumn.toNat :=
  (div_mod_of_eq (UInt64.lt_iff_toNat_lt.mp h.1) rfl).2

/-- The beginning of the line. -/
theorem OnScreen.sub_mod_position (h : t.OnScreen) :
    t.position - t.position % t.terminalWidth.toNat =
      t.terminalRow.toNat * t.terminalWidth.toNat := by
  rw [h.mod_position, position, Nat.add_sub_cancel]

/-- A tab that does not lead behind the last column. -/
theorem position_tab (h : t.OnScreen) (hwidth : t.terminalWidth.toNat ≤ 2 ^ 62)
    (htab : t.tabStop ≤ t.terminalWidth) :
    ({ t with terminalColumn := t.tabStop } : Terminal).wrapColumn.position =
      (t.position - t.position % t.terminalWidth.toNat +
          4 * (t.position % t.terminalWidth.toNat / 4 + 1)) %
        (t.terminalWidth.toNat * t.terminalHeight.toNat) := by
  have hcolumn := UInt64.lt_iff_toNat_lt.mp h.1
  have hstop : t.tabStop.toNat = 4 * (t.terminalColumn.toNat / 4 + 1) := by
    rw [toNat_tabStop]
    omega
  rw [h.sub_mod_position, h.mod_position, ← hstop]
  exact position_wrapColumn (t := { t with terminalColumn := t.tabStop }) htab h.2

/-- The cursor has moved to the position of the page. -/
theorem Steers.atCursor (hsteers : t.Steers t') (hp : t.AtCursor p) {q : TextPage}
    (hposition : q.position = t'.position) (hfg : q.fg = p.fg) (hbg : q.bg = p.bg) :
    t'.AtCursor q := by
  refine ⟨hposition, ?_, ?_⟩
  · rw [hsteers, hfg, hp.fg]
  · rw [hsteers, hbg, hp.bg]

theorem AtCursor.put (hp : t.AtCursor p) (h : t.OnScreen) (c : UInt8) :
    (t.terminalPutchar c).2.AtCursor
        (p.put t.terminalWidth.toNat t.terminalHeight.toNat c) ∧
      (p.put t.terminalWidth.toNat t.terminalHeight.toNat c).cells =
        TextPage.putAll t.terminalWidth.toNat p.cells (t.terminalPutchar c).1 := by
  have hsteers := steers_wrapColumn { t with terminalColumn := t.terminalColumn + 1 }
  constructor
  · refine Steers.atCursor (t := t) hsteers hp ?_ rfl rfl
    show (p.position + 1) % _ = _
    rw [hp.position]
    exact (position_succ h).symm
  · show Function.update p.cells p.position _ = _
    rw [hp.position, hp.fg, hp.bg]
    rfl

theorem AtCursor.newline (hp : t.AtCursor p) (h : t.OnScreen) :
    t.terminalNewline.AtCursor (p.newline t.terminalWidth.toNat t.terminalHeight.toNat) := by
  refine t.steers_newline.atCursor hp ?_ rfl rfl
  rw [position_newline h, ← hp.position]
  rfl

/-- A byte moves the position as it moves the cursor. -/
theorem AtCursor.byte (hp : t.AtCursor p) (h : t.OnScreen)
    (hwidth : t.terminalWidth.toNat ≤ 2 ^ 62) (htab : b = 9 → t.tabStop ≤ t.terminalWidth) :
    (t.writeByte b).2.AtCursor (p.byte t.terminalWidth.toNat t.terminalHeight.toNat b) ∧
      (p.byte t.terminalWidth.toNat t.terminalHeight.toNat b).cells =
        TextPage.putAll t.terminalWidth.toNat p.cells (t.writeByte b).1 := by
  unfold Terminal.writeByte TextPage.byte
  split
  · exact ⟨hp.newline h, rfl⟩
  split
  · have hsteers : t.Steers { t with terminalColumn := 0 } := rfl
    refine ⟨hsteers.atCursor hp ?_ rfl rfl, rfl⟩
    show p.position - p.position % _ = _
    rw [hp.position]
    exact h.sub_mod_position
  split
  · rename_i hb
    have hsteers := steers_wrapColumn { t with terminalColumn := t.tabStop }
    refine ⟨Steers.atCursor (t := t) hsteers hp ?_ rfl rfl, rfl⟩
    show (p.position - p.position % _ + 4 * (p.position % _ / 4 + 1)) % _ = _
    rw [hp.position]
    exact (position_tab h hwidth (htab hb)).symm
  split
  · exact hp.put h b
  · exact ⟨hp, rfl⟩

theorem AtCursor.write {data : List UInt8} : ∀ {t : Terminal} {p : TextPage}, t.AtCursor p →
    t.OnScreen → t.terminalWidth.toNat ≤ 2 ^ 62 → t.TabsFitData data →
    (t.terminalWrite data).2.AtCursor
        (data.foldl (TextPage.byte t.terminalWidth.toNat t.terminalHeight.toNat) p) ∧
      (data.foldl (TextPage.byte t.terminalWidth.toNat t.terminalHeight.toNat) p).cells =
        TextPage.putAll t.terminalWidth.toNat p.cells (t.terminalWrite data).1 := by
  induction data with
  | nil => exact fun hp _ _ _ => ⟨hp, rfl⟩
  | cons b data ih =>
    intro t p hp h hwidth hfit
    obtain ⟨hbyte, hcells⟩ := hp.byte h hwidth hfit.1
    obtain ⟨hw, hh⟩ := t.sameSize_writeByte b
    have hrest := ih hbyte (h.writeByte hfit.1).2 (hw ▸ hwidth) hfit.2
    rw [hw, hh, hcells] at hrest
    refine ⟨hrest.1, hrest.2.trans ?_⟩
    exact (List.foldl_append ..).symm

/-- A coordinate that is reset when it is too large. -/
theorem toNat_reset (a n : UInt64) :
    (if a ≥ n then 0 else a).toNat = if a.toNat < n.toNat then a.toNat else 0 := by
  by_cases hlt : a < n
  · rw [if_neg (UInt64.not_le.mpr hlt), if_pos (UInt64.lt_iff_toNat_lt.mp hlt)]
  · rw [if_pos (UInt64.not_lt.mp hlt), if_neg (mt UInt64.lt_iff_toNat_lt.mpr hlt)]
    rfl

/-- A call moves the position as it moves the cursor, and fills the same cells. -/
theorem AtCursor.call (hp : t.AtCursor p) (h : t.OnScreen)
    (hwidth : t.terminalWidth.toNat ≤ 2 ^ 62) {c : TerminalCall} (hfit : t.TabFits c) :
    (t.call c).2.AtCursor
        (p.call t.terminalWidth.toNat t.terminalHeight.toNat (.cursor c)) ∧
      (p.call t.terminalWidth.toNat t.terminalHeight.toNat (.cursor c)).cells =
        TextPage.putAll t.terminalWidth.toNat p.cells (t.call c).1 := by
  cases c with
  | write data => exact hp.write h hwidth hfit
  | putchar c => exact hp.put h c
  | newline => exact ⟨hp.newline h, rfl⟩
  | cursor x y =>
    refine ⟨(t.steers_call (.cursor x y)).atCursor hp ?_ rfl rfl, rfl⟩
    show TextPage.position _ = (t.terminalCursor x y).position
    rw [terminalCursor_eq]
    show (if y.toNat < _ then _ else 0) * _ + (if x.toNat < _ then _ else 0) = _
    rw [← toNat_reset, ← toNat_reset]
    rfl

end Cursor

end Terminal

/-! ### Runs -/

section Runs

variable {font : Psf2Font} {sw sh : ℕ} {m₀ : UInt64 → UInt32}

/-- Entries of the screen are drawn one after the other. -/
theorem Terminal.Grid.displays_putEntries {t : Terminal}
    (h : t.Grid font.width.toNat font.height.toNat sw sh)
    (hplaced : Placed font.width.toNat font.height.toNat sw sh) {entries : List PutEntry} :
    ∀ {m : UInt64 → UInt32} {cells : ℕ → Option Glyph},
      (∀ e ∈ entries, t.HasCell e.column e.row) →
      Displays (cellPixel sw (sw / font.width.toNat))
        (· < sw / font.width.toNat * (sh / font.height.toNat))
        (InGlyph font.width.toNat font.height.toNat) font.colour m₀ m cells →
      Displays (cellPixel sw (sw / font.width.toNat))
        (· < sw / font.width.toNat * (sh / font.height.toNat))
        (InGlyph font.width.toNat font.height.toNat) font.colour m₀
        (t.putEntries font entries m)
        (TextPage.putAll (sw / font.width.toNat) cells entries) := by
  induction entries with
  | nil => exact fun _ hd => hd
  | cons e entries ih =>
    intro m cells hentries hd
    have he := hentries e List.mem_cons_self
    obtain ⟨hcolumn, hrow⟩ := h.hasCell_iff.mp he
    have hk : e.row.toNat * (sw / font.width.toNat) + e.column.toNat <
        sw / font.width.toNat * (sh / font.height.toNat) := by
      have hmul := Nat.mul_le_mul_right (sw / font.width.toNat) hrow
      rw [Nat.succ_mul, Nat.mul_comm (sh / font.height.toNat)] at hmul
      omega
    have hinj := Terminal.injective_cellPixel hplaced h.width_pos h.width_le h.height_pos
      h.columns h.screen
    exact ih (fun e' he' => hentries e' (List.mem_cons_of_mem e he'))
      (hd.put hinj hk (h.draws he))

/-- The screen shows the page, and can show more. -/
structure Display.Presents (font : Psf2Font) (sw sh : ℕ) (m₀ : UInt64 → UInt32) (d : Display)
    (p : TextPage) : Prop where
  grid : d.terminal.Grid font.width.toNat font.height.toNat sw sh
  onScreen : d.terminal.OnScreen
  shows : d.Shows sw (sw / font.width.toNat) (sh / font.height.toNat) font m₀ p

/-- A call does with the page what it does with the screen. -/
theorem Display.Presents.step (hplaced : Placed font.width.toNat font.height.toNat sw sh)
    {d d' : Display} {p : TextPage} {c : ScreenCall} (h : d.Presents font sw sh m₀ p)
    (hstep : d.Step font c d') :
    d'.Presents font sw sh m₀
      (p.call (sw / font.width.toNat) (sh / font.height.toNat) c) := by
  obtain ⟨hallows, rfl⟩ := hstep
  obtain ⟨hgrid, hon, hcursor, hpicture⟩ := h
  cases c with
  | cursor c =>
    have hwidth : d.terminal.terminalWidth.toNat ≤ 2 ^ 62 := by
      rw [hgrid.terminalWidth]
      exact (Nat.div_le_self _ _).trans ((Nat.le_mul_of_pos_right _
        (hgrid.height_pos.trans hgrid.lines)).trans hgrid.screen)
    obtain ⟨hputs, hon'⟩ := hon.call hallows
    obtain ⟨hcursor', hcells⟩ := hcursor.call hon hwidth hallows
    rw [hgrid.terminalWidth, hgrid.terminalHeight] at hcursor' hcells
    have hgrid' := (d.terminal.steers_call c).grid hgrid
    refine ⟨hgrid', hon', hcursor', ?_⟩
    rw [hcells]
    exact hgrid.displays_putEntries hplaced hputs hpicture
  | setcolour fg bg => exact ⟨{ hgrid with }, hon, ⟨hcursor.position, rfl, rfl⟩, hpicture⟩
  | putentryat e =>
    refine ⟨hgrid, hon, ⟨hcursor.position, hcursor.fg, hcursor.bg⟩, ?_⟩
    exact hgrid.displays_putEntries hplaced (List.forall_mem_singleton.mpr hallows) hpicture

/-- Behind `terminal_init` the screen shows the page that the calls have written. -/
theorem screen_run (t : Terminal) {mode : GraphicsMode} (hmagic : font.MagicOk)
    (hpos : 1 ≤ font.width) (hwidth : font.width ≤ 8) (hheight : 1 ≤ font.height)
    (hfitw : font.width.toUInt64 ≤ mode.width) (hfith : font.height.toUInt64 ≤ mode.height)
    (hscreen : 4 * (mode.width.toNat * mode.height.toNat) ≤ 2 ^ 64)
    (hfit : CellsFit font.width.toNat font.height.toNat mode.width.toNat mode.height.toNat)
    {calls : List ScreenCall} {d : Display} (hrun : Runs (Display.Step font)
      ⟨(t.terminalInit font.toPsf2Header mode).2, m₀⟩ calls d) :
    d.Shows mode.width.toNat (mode.width.toNat / font.width.toNat)
      (mode.height.toNat / font.height.toNat) font m₀
      (calls.foldl (TextPage.call (mode.width.toNat / font.width.toNat)
        (mode.height.toNat / font.height.toNat)) (.blank t.fgColour t.bgColour)) := by
  have hgrid := t.grid_terminalInit hmagic hpos hwidth hheight hfitw hfith hscreen
  have hplaced := Placed.of_cellsFit hfit hgrid.width_pos hgrid.width_le hgrid.height_pos
    hgrid.columns hgrid.screen
  have hne : ∀ {a : UInt32}, 1 ≤ a → a ≠ 0 := by
    rintro a ha rfl
    exact absurd ha (by decide)
  have hon := t.onScreen_terminalInit hmagic (hne hpos) (hne hheight) hfitw hfith
  have hblank : Display.Presents font mode.width.toNat mode.height.toNat m₀
      ⟨(t.terminalInit font.toPsf2Header mode).2, m₀⟩ (.blank t.fgColour t.bgColour) := by
    refine ⟨hgrid, hon, ?_, .blank m₀⟩
    rw [Terminal.terminalInit, if_neg (not_not_intro hmagic)]
    exact ⟨(Nat.zero_mul _).symm, rfl, rfl⟩
  have hsim : ∀ d p c d', Display.Presents font mode.width.toNat mode.height.toNat m₀ d p →
      Display.Step font d c d' → ∃ p', p' = TextPage.call (mode.width.toNat / font.width.toNat)
          (mode.height.toNat / font.height.toNat) p c ∧
        Display.Presents font mode.width.toNat mode.height.toNat m₀ d' p' :=
    fun d p c d' hd hstep => ⟨_, rfl, hd.step hplaced hstep⟩
  obtain ⟨p, hpage, hpresents⟩ := hrun.simulates hsim hblank
  rw [← hpage.eq_foldl]
  exact hpresents.shows

/-- A line in green, and a character in the last of 160 by 50 cells. -/
def greenLine : List ScreenCall :=
  [.setcolour 0x22CD22 0, .cursor (.write [79, 75, 9, 33, 10, 13]), .putentryat ⟨65, 159, 49, 1, 2⟩]

theorem screen_run_greenLine : ∃ d,
    Runs (Display.Step (Terminal.font8 16))
      ⟨(Terminal.uninitialised.terminalInit (Terminal.font8 16).toPsf2Header ⟨1280, 800⟩).2,
        fun _ => 0⟩ greenLine d ∧
      Display.Shows 1280 160 50 (Terminal.font8 16) (fun _ => 0) d
        (greenLine.foldl (TextPage.call 160 50) (.blank 0x00FFFFFF 0)) := by
  have hrun : ∃ d, Runs (Display.Step (Terminal.font8 16))
      ⟨(Terminal.uninitialised.terminalInit (Terminal.font8 16).toPsf2Header ⟨1280, 800⟩).2,
        fun _ => 0⟩ greenLine d := by
    refine ⟨_, .cons ⟨trivial, rfl⟩ (.cons ⟨?_, rfl⟩ (.cons ⟨?_, rfl⟩ .nil))⟩
    · refine ⟨?_, ?_, ?_, ?_, ?_, ?_, trivial⟩ <;> decide
    · constructor <;> decide
  obtain ⟨d, hrun⟩ := hrun
  exact ⟨d, hrun, @screen_run (Terminal.font8 16) (fun _ => 0) Terminal.uninitialised ⟨1280, 800⟩
    (by decide) (by decide) (by decide) (by decide) (by decide) (by decide) (by decide) (by decide)
    _ _ hrun⟩

end Runs

end Betelgeuse
