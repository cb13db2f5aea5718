/-
The cursor of the text terminal (`kernel/arch/x86_64/tty.c`; the bootloader's
`uefi_tty.c` has the same functions).

`terminal_putentryat` writes to the framebuffer only, which no other function
reads, so a call of it is recorded with its arguments (`PutEntry`) and the
functions return the calls they make next to the new state.

The cursor wraps when it is equal to the width, and a tab moves it to the next
multiple of 4, so a tab near the end of a line can lead behind the last column.
`OnScreen.write` is the invariant of a byte stream without such a tab,
`OnScreen.run` that of a sequence of calls, and `terminalInit_staysOnScreen` says
at which widths there is no such tab at all.
-/
import Mathlib.Algebra.Group.Nat.Defs
import Mathlib.Data.Int.Notation
import Mathlib.Tactic.Common

namespace Betelgeuse

/-- `struct psf2_header`, as far as `terminal_init` reads it. -/
structure Psf2Header where
  magic : List UInt8
  height : UInt32
  width : UInt32

/-- `PSF2_MAGIC_OK`. -/
def Psf2Header.MagicOk (psf : Psf2Header) : Prop := psf.magic = [0x72, 0xb5, 0x4a, 0x86]

instance (psf : Psf2Header) : Decidable psf.MagicOk := inferInstanceAs (Decidable (_ = _))

/-- `boot_table->graphics_mode`, without the framebuffer. -/
structure GraphicsMode where
  width : UInt64
  height : UInt64

/-- The arguments of a call of `terminal_putentryat`. -/
structure PutEntry where
  c : UInt8
  column : UInt64
  row : UInt64
  fg : UInt32
  bg : UInt32
  deriving DecidableEq

/-- The static variables of `tty.c`, without the two buffers. -/
structure Terminal where
  charWidth : UInt64
  charHeight : UInt64
  screenWidth : UInt64
  screenHeight : UInt64
  fgColour : UInt32
  bgColour : UInt32
  terminalColumn : UInt64
  terminalRow : UInt64
  terminalWidth : UInt64
  terminalHeight : UInt64

namespace Terminal

variable (t : Terminal)

/-- `terminal_init`: 1 for a font with the wrong magic number, else 0. -/
def terminalInit (psf : Psf2Header) (mode : GraphicsMode) : ℤ × Terminal :=
  if ¬ psf.MagicOk then (1, t)
  else
    let charWidth := psf.width.toUInt64
    let charHeight := psf.height.toUInt64
    (0, { t with
      charWidth := charWidth
      charHeight := charHeight
      screenWidth := mode.width
      screenHeight := mode.height
      terminalWidth := mode.width / charWidth
      terminalHeight := mode.height / charHeight
      terminalColumn := 0
      terminalRow := 0 })

/-- `terminal_newline`, which is also the case of `'\n'` in `terminal_write`. -/
def terminalNewline : Terminal :=
  let t := { t with terminalRow := t.terminalRow + 1 }
  if t.terminalRow = t.terminalHeight then { t with terminalRow := 0, terminalColumn := 0 } else t

/-- `if (terminal_column == TERMINAL_WIDTH)` and its block. -/
def wrapColumn : Terminal :=
  if t.terminalColumn = t.terminalWidth then
    let t := { t with terminalColumn := 0, terminalRow := t.terminalRow + 1 }
    if t.terminalRow = t.terminalHeight then { t with terminalRow := 0 } else t
  else t

/-- `terminal_putchar`. -/
def terminalPutchar (c : UInt8) : List PutEntry × Terminal :=
  ([⟨c, t.terminalColumn, t.terminalRow, t.fgColour, t.bgColour⟩],
    { t with terminalColumn := t.terminalColumn + 1 }.wrapColumn)

/-- The column behind a tab, `terminal_column + (4 - (terminal_column % 4))`. -/
def tabStop : UInt64 := t.terminalColumn + (4 - t.terminalColumn % 4)

/-- One round of the loop of `terminal_write`. -/
def writeByte (b : UInt8) : List PutEntry × Terminal :=
  if b = 10 then ([], t.terminalNewline)
  else if b = 13 then ([], { t with terminalColumn := 0 })
  else if b = 9 then ([], { t with terminalColumn := t.tabStop }.wrapColumn)
  else if 0x20 ≤ b ∧ b < 0xDC then t.terminalPutchar b
  else ([], t)

/-- `terminal_write`. -/
def terminalWrite (t : Terminal) : List UInt8 → List PutEntry × Terminal
  | [] => ([], t)
  | b :: data =>
    let (entries, t) := t.writeByte b
    let (entries', t) := terminalWrite t data
    (entries ++ entries', t)

/-- `terminal_cursor`. -/
def terminalCursor (x y : UInt64) : Terminal :=
  let t := { t with terminalColumn := x, terminalRow := y }
  let t := if t.terminalColumn ≥ t.terminalWidth then { t with terminalColumn := 0 } else t
  if t.terminalRow ≥ t.terminalHeight then { t with terminalRow := 0 } else t

end Terminal

/-- A call of one of the four functions that move the cursor. -/
inductive TerminalCall where
  | write (data : List UInt8)
  | putchar (c : UInt8)
  | newline
  | cursor (x y : UInt64)

namespace Terminal

/-- Make a call. -/
def call (t : Terminal) : TerminalCall → List PutEntry × Terminal
  | .write data => t.terminalWrite data
  | .putchar c => t.terminalPutchar c
  | .newline => ([], t.terminalNewline)
  | .cursor x y => ([], t.terminalCursor x y)

/-! ### On the screen -/

/-- The cell lies on the screen. -/
def HasCell (t : Terminal) (column row : UInt64) : Prop :=
  column < t.terminalWidth ∧ row < t.terminalHeight

/-- The cursor lies on the screen. -/
def OnScreen (t : Terminal) : Prop := t.HasCell t.terminalColumn t.terminalRow

/-- In the sequence of calls every entry is put on the screen, and after every
call the cursor lies on the screen. -/
def StaysOnScreen : Terminal → List TerminalCall → Prop
  | _, [] => True
  | t, c :: calls =>
    (∀ e ∈ (t.call c).1, t.HasCell e.column e.row) ∧ (t.call c).2.OnScreen ∧
      StaysOnScreen (t.call c).2 calls

/-- No tab of the data leads behind the last column. -/
def TabsFitData : Terminal → List UInt8 → Prop
  | _, [] => True
  | t, b :: data => (b = 9 → t.tabStop ≤ t.terminalWidth) ∧ TabsFitData (t.writeByte b).2 data

/-- No tab of a call leads behind the last column. -/
def TabFits (t : Terminal) : TerminalCall → Prop
  | .write data => t.TabsFitData data
  | _ => True

/-- No tab of the calls leads behind the last column. -/
def TabsFit : Terminal → List TerminalCall → Prop
  | _, [] => True
  | t, c :: calls => t.TabFits c ∧ TabsFit (t.call c).2 calls

/-- The two terminals have the same size. -/
def SameSize (t t' : Terminal) : Prop :=
  t'.terminalWidth = t.terminalWidth ∧ t'.terminalHeight = t.terminalHeight

variable {t t' t'' : Terminal}

theorem SameSize.refl (t : Terminal) : t.SameSize t := ⟨rfl, rfl⟩

theorem SameSize.trans (h : t.SameSize t') (h' : t'.SameSize t'') : t.SameSize t'' :=
  ⟨h'.1.trans h.1, h'.2.trans h.2⟩

theorem SameSize.hasCell (h : t.SameSize t') {column row : UInt64} :
    t'.HasCell column row ↔ t.HasCell column row := by
  rw [HasCell, HasCell, h.1, h.2]

theorem sameSize_newline (t : Terminal) : t.SameSize t.terminalNewline := by
  unfold terminalNewline
  dsimp only
  split <;> exact ⟨rfl, rfl⟩

theorem sameSize_wrapColumn (t : Terminal) : t.SameSize t.wrapColumn := by
  unfold wrapColumn
  dsimp only
  split
  · split <;> exact ⟨rfl, rfl⟩
  · exact ⟨rfl, rfl⟩

/-- The two tests of `terminal_cursor` concern one coordinate each. -/
theorem terminalCursor_eq (t : Terminal) (x y : UInt64) :
    t.terminalCursor x y = { t with
      terminalColumn := if x ≥ t.terminalWidth then 0 else x
      terminalRow := if y ≥ t.terminalHeight then 0 else y } := by
  unfold terminalCursor
  by_cases hx : x ≥ t.terminalWidth <;> by_cases hy : y ≥ t.terminalHeight <;> simp [hx, hy]

theorem sameSize_cursor (t : Terminal) (x y : UInt64) : t.SameSize (t.terminalCursor x y) := by
  rw [terminalCursor_eq]
  exact ⟨rfl, rfl⟩

theorem sameSize_writeByte (t : Terminal) (b : UInt8) : t.SameSize (t.writeByte b).2 := by
  unfold writeByte
  split
  · exact t.sameSize_newline
  split
  · exact ⟨rfl, rfl⟩
  split
  · exact sameSize_wrapColumn { t with terminalColumn := t.tabStop }
  split
  · exact sameSize_wrapColumn { t with terminalColumn := t.terminalColumn + 1 }
  · exact .refl t

theorem sameSize_write (data : List UInt8) : ∀ t : Terminal,
    t.SameSize (t.terminalWrite data).2 := by
  induction data with
  | nil => exact fun t => .refl t
  | cons b data ih => exact fun t => (t.sameSize_writeByte b).trans (ih _)

theorem sameSize_call (t : Terminal) (c : TerminalCall) : t.SameSize (t.call c).2 := by
  cases c with
  | write data => exact sameSize_write data t
  | putchar c => exact sameSize_wrapColumn { t with terminalColumn := t.terminalColumn + 1 }
  | newline => exact t.sameSize_newline
  | cursor x y => exact t.sameSize_cursor x y

/-! ### Steps -/

/-- Counting a row up, with a wrap at the end. -/
theorem succ_lt_of_ne {a n : UInt64} (h : a < n) (hne : a + 1 ≠ n) : a + 1 < n := by
  rw [ne_eq, ← UInt64.toNat_inj] at hne
  rw [UInt64.lt_iff_toNat_lt] at h ⊢
  have hn := n.toNat_lt
  have hsucc : (a + 1).toNat = a.toNat + 1 := by
    rw [UInt64.toNat_add]
    show (a.toNat + 1) % 2 ^ 64 = _
    omega
  omega

theorem pos_of_lt {a n : UInt64} (h : a < n) : 0 < n := by
  rw [UInt64.lt_iff_toNat_lt] at h ⊢
  show 0 < n.toNat
  omega

theorem OnScreen.newline (h : t.OnScreen) : t.terminalNewline.OnScreen := by
  unfold terminalNewline
  dsimp only
  split
  · exact ⟨pos_of_lt h.1, pos_of_lt h.2⟩
  · rename_i hne
    exact ⟨h.1, succ_lt_of_ne h.2 hne⟩

/-- A column up to the width is brought back onto the screen. -/
theorem onScreen_wrapColumn (hcolumn : t.terminalColumn ≤ t.terminalWidth)
    (hwidth : 0 < t.terminalWidth) (hrow : t.terminalRow < t.terminalHeight) :
    t.wrapColumn.OnScreen := by
  unfold wrapColumn
  dsimp only
  split
  · split
    · exact ⟨hwidth, pos_of_lt hrow⟩
    · rename_i hne
      exact ⟨hwidth, succ_lt_of_ne hrow hne⟩
  · rename_i hne
    exact ⟨UInt64.lt_of_le_of_ne hcolumn hne, hrow⟩

theorem OnScreen.putchar (h : t.OnScreen) (c : UInt8) :
    (∀ e ∈ (t.terminalPutchar c).1, t.HasCell e.column e.row) ∧
      (t.terminalPutchar c).2.OnScreen := by
  refine ⟨fun e he => ?_, onScreen_wrapColumn ?_ (pos_of_lt h.1) h.2⟩
  · obtain rfl := List.mem_singleton.mp he
    exact h
  · show t.terminalColumn + 1 ≤ t.terminalWidth
    by_cases hlast : t.terminalColumn + 1 = t.terminalWidth
    · exact UInt64.le_of_eq hlast
    · exact UInt64.le_of_lt (succ_lt_of_ne h.1 hlast)

/-- A coordinate that is reset when it is too large. -/
theorem ite_lt_of_pos {a n : UInt64} (hpos : 0 < n) : (if a ≥ n then 0 else a) < n := by
  split
  · exact hpos
  · rename_i hlt
    exact UInt64.not_le.mp hlt

theorem OnScreen.cursor (h : t.OnScreen) (x y : UInt64) : (t.terminalCursor x y).OnScreen := by
  rw [terminalCursor_eq]
  exact ⟨ite_lt_of_pos (pos_of_lt h.1), ite_lt_of_pos (pos_of_lt h.2)⟩

theorem OnScreen.writeByte (h : t.OnScreen) {b : UInt8}
    (htab : b = 9 → t.tabStop ≤ t.terminalWidth) :
    (∀ e ∈ (t.writeByte b).1, t.HasCell e.column e.row) ∧ (t.writeByte b).2.OnScreen := by
  unfold Terminal.writeByte
  split
  · exact ⟨by simp, h.newline⟩
  split
  · exact ⟨by simp, pos_of_lt h.1, h.2⟩
  split
  · rename_i hb
    exact ⟨by simp, onScreen_wrapColumn (htab hb) (pos_of_lt h.1) h.2⟩
  split
  · exact h.putchar b
  · exact ⟨by simp, h⟩

theorem OnScreen.write {data : List UInt8} : ∀ {t : Terminal}, t.OnScreen → t.TabsFitData data →
    (∀ e ∈ (t.terminalWrite data).1, t.HasCell e.column e.row) ∧
      (t.terminalWrite data).2.OnScreen := by
  induction data with
  | nil => exact fun h _ => ⟨by simp [terminalWrite], h⟩
  | cons b data ih =>
    intro t h hfit
    obtain ⟨hput, hstep⟩ := h.writeByte hfit.1
    obtain ⟨hputs, hrest⟩ := ih hstep hfit.2
    refine ⟨fun e he => ?_, hrest⟩
    rcases List.mem_append.mp he with he | he
    · exact hput e he
    · exact (t.sameSize_writeByte b).hasCell.mp (hputs e he)

theorem OnScreen.call (h : t.OnScreen) {c : TerminalCall} (hfit : t.TabFits c) :
    (∀ e ∈ (t.call c).1, t.HasCell e.column e.row) ∧ (t.call c).2.OnScreen := by
  cases c with
  | write data => exact h.write hfit
  | putchar c => exact h.putchar c
  | newline => exact ⟨by simp [Terminal.call], h.newline⟩
  | cursor x y => exact ⟨by simp [Terminal.call], h.cursor x y⟩

/-! ### Runs -/

/-- A run in which every tab fits stays on the screen. -/
theorem OnScreen.run {calls : List TerminalCall} : ∀ {t : Terminal}, t.OnScreen →
    t.TabsFit calls → t.StaysOnScreen calls := by
  induction calls with
  | nil => exact fun _ _ => trivial
  | cons c calls ih =>
    intro t h hfit
    obtain ⟨hput, hstep⟩ := h.call hfit.1
    exact ⟨hput, hstep, ih hstep hfit.2⟩

/-- The next tab stop, as a natural number. -/
theorem toNat_tabStop (t : Terminal) :
    t.tabStop.toNat = 4 * (t.terminalColumn.toNat / 4 + 1) % 2 ^ 64 := by
  have hmod : (4 - t.terminalColumn % 4).toNat = 4 - t.terminalColumn.toNat % 4 := by
    rw [UInt64.toNat_sub_of_le]
    · rw [UInt64.toNat_mod]
      rfl
    · rw [UInt64.le_iff_toNat_le, UInt64.toNat_mod]
      show t.terminalColumn.toNat % 4 ≤ 4
      omega
  rw [tabStop, UInt64.toNat_add, hmod]
  congr 1
  omega

/-- The widths at which every tab fits: the multiples of 4, and those for which
the last tab stop is 2 ^ 64, which wraps to 0. -/
def EvenWidth (t : Terminal) : Prop :=
  t.terminalWidth.toNat % 4 = 0 ∨ 2 ^ 64 - 4 < t.terminalWidth.toNat

theorem OnScreen.tabStop_le (h : t.OnScreen) (hwidth : t.EvenWidth) :
    t.tabStop ≤ t.terminalWidth := by
  have hlt := UInt64.lt_iff_toNat_lt.mp h.1
  have hmax := t.terminalWidth.toNat_lt
  rw [UInt64.le_iff_toNat_le, toNat_tabStop]
  rcases hwidth with hwidth | hwidth <;> omega

theorem OnScreen.tabsFitData {data : List UInt8} : ∀ {t : Terminal}, t.OnScreen → t.EvenWidth →
    t.TabsFitData data := by
  induction data with
  | nil => exact fun _ _ => trivial
  | cons b data ih =>
    intro t h hwidth
    have htab : b = 9 → t.tabStop ≤ t.terminalWidth := fun _ => h.tabStop_le hwidth
    refine ⟨htab, ih (h.writeByte htab).2 ?_⟩
    rwa [EvenWidth, (t.sameSize_writeByte b).1]

theorem OnScreen.tabsFit {calls : List TerminalCall} : ∀ {t : Terminal}, t.OnScreen →
    t.EvenWidth → t.TabsFit calls := by
  induction calls with
  | nil => exact fun _ _ => trivial
  | cons c calls ih =>
    intro t h hwidth
    have hfit : t.TabFits c := by
      cases c with
      | write data => exact h.tabsFitData hwidth
      | _ => trivial
    refine ⟨hfit, ih (h.call hfit).2 ?_⟩
    rwa [EvenWidth, (t.sameSize_call c).1]

/-- At any other width a tab in the last column leaves the screen. -/
theorem OnScreen.exists_leaves (h : t.OnScreen) (hwidth : ¬ t.EvenWidth) :
    ¬ t.StaysOnScreen [.cursor (t.terminalWidth - 1) 0, .write [9]] := by
  have hlt := UInt64.lt_iff_toNat_lt.mp h.1
  have hmax := t.terminalWidth.toNat_lt
  have hone : (1 : UInt64).toNat = 1 := rfl
  have hpred : (t.terminalWidth - 1).toNat = t.terminalWidth.toNat - 1 := by
    rw [UInt64.toNat_sub_of_le _ _ (by rw [UInt64.le_iff_toNat_le, hone]; omega), hone]
  unfold EvenWidth at hwidth
  have hx : ¬ t.terminalWidth - 1 ≥ t.terminalWidth := by
    rw [ge_iff_le, UInt64.le_iff_toNat_le, hpred]
    omega
  set t' := t.terminalCursor (t.terminalWidth - 1) 0 with ht'
  have hcolumn : t'.terminalColumn = t.terminalWidth - 1 := by
    rw [ht', terminalCursor_eq, if_neg hx]
  have hsize : t'.terminalWidth = t.terminalWidth := (t.sameSize_cursor _ _).1
  -- the tab stop is behind the last column
  have hstop : t.terminalWidth.toNat < t'.tabStop.toNat := by
    rw [toNat_tabStop, hcolumn, hpred]
    omega
  have hne : t'.tabStop ≠ t'.terminalWidth := by
    rw [hsize, ne_eq, ← UInt64.toNat_inj]
    omega
  rintro ⟨-, -, -, ⟨hleft, -⟩, -⟩
  have hafter : ((t.call (.cursor (t.terminalWidth - 1) 0)).2.call (.write [9])).2 =
      { t' with terminalColumn := t'.tabStop } := by
    show ({ t' with terminalColumn := t'.tabStop } : Terminal).wrapColumn = _
    rw [wrapColumn, if_neg hne]
  rw [hafter, UInt64.lt_iff_toNat_lt] at hleft
  have hleft' : t'.tabStop.toNat < t'.terminalWidth.toNat := hleft
  rw [hsize] at hleft'
  omega

/-! ### From `terminal_init` on -/

section Init

variable {psf : Psf2Header} {mode : GraphicsMode}

/-- A screen has room for at least one character of the font. -/
theorem pos_div {a b : UInt64} (hb : b ≠ 0) (hle : b ≤ a) : 0 < a / b := by
  rw [ne_eq, ← UInt64.toNat_inj, UInt64.toNat_zero] at hb
  rw [UInt64.le_iff_toNat_le] at hle
  rw [UInt64.lt_iff_toNat_lt, UInt64.toNat_div]
  exact Nat.div_pos hle (by omega)

theorem toUInt64_ne_zero {a : UInt32} (ha : a ≠ 0) : a.toUInt64 ≠ 0 := by
  rw [ne_eq, ← UInt64.toNat_inj, UInt32.toNat_toUInt64]
  rw [ne_eq, ← UInt32.toNat_inj] at ha
  exact ha

theorem onScreen_terminalInit (t : Terminal) (hmagic : psf.MagicOk) (hwidth : psf.width ≠ 0)
    (hheight : psf.height ≠ 0) (hfitw : psf.width.toUInt64 ≤ mode.width)
    (hfith : psf.height.toUInt64 ≤ mode.height) : (t.terminalInit psf mode).2.OnScreen := by
  rw [terminalInit, if_neg (not_not_intro hmagic)]
  exact ⟨pos_div (toUInt64_ne_zero hwidth) hfitw, pos_div (toUInt64_ne_zero hheight) hfith⟩

/-- Behind `terminal_init` every sequence of calls in which all tabs fit stays on
the screen; and all sequences do so exactly when the width is even in the sense of
`EvenWidth`. -/
theorem terminalInit_staysOnScreen (t : Terminal) (hmagic : psf.MagicOk)
    (hwidth : psf.width ≠ 0) (hheight : psf.height ≠ 0)
    (hfitw : psf.width.toUInt64 ≤ mode.width) (hfith : psf.height.toUInt64 ≤ mode.height) :
    (t.terminalInit psf mode).2.OnScreen ∧
      (∀ calls, (t.terminalInit psf mode).2.TabsFit calls →
        (t.terminalInit psf mode).2.StaysOnScreen calls) ∧
      ((∀ calls, (t.terminalInit psf mode).2.StaysOnScreen calls) ↔
        (t.terminalInit psf mode).2.EvenWidth) := by
  have h := t.onScreen_terminalInit hmagic hwidth hheight hfitw hfith
  refine ⟨h, fun calls hfit => h.run hfit, fun hall => ?_, fun heven calls => ?_⟩
  · by_contra hodd
    exact h.exists_leaves hodd (hall _)
  · exact h.run (h.tabsFit heven)

end Init

/-- A font of 8 by 16 pixels. -/
def font8x16 : Psf2Header where
  magic := [0x72, 0xb5, 0x4a, 0x86]
  height := 16
  width := 8

/-- The variables before `terminal_init`. -/
def uninitialised : Terminal := ⟨0, 0, 0, 0, 0x00FFFFFF, 0, 0, 0, 0, 0⟩

/-- A screen of 1280 by 800 pixels has 160 columns: a tab in column 158 leads to the next
line. -/
theorem staysOnScreen_160 :
    (uninitialised.terminalInit font8x16 ⟨1280, 800⟩).2.StaysOnScreen
      [.cursor 158 0, .write [9, 65]] :=
  (@terminalInit_staysOnScreen font8x16 ⟨1280, 800⟩ uninitialised (by decide)
    (by decide) (by decide) (by decide) (by decide)).2.2.mpr (.inl (by decide)) _

/-- On a screen of 1366 by 768 pixels, with 170 columns, a tab in column 168 leads
to column 172, and the next character is put there. -/
theorem not_staysOnScreen_170 :
    font8x16.MagicOk ∧ font8x16.width ≠ 0 ∧ font8x16.height ≠ 0 ∧
      font8x16.width.toUInt64 ≤ 1366 ∧ font8x16.height.toUInt64 ≤ 768 ∧
      ¬ (uninitialised.terminalInit font8x16 ⟨1366, 768⟩).2.StaysOnScreen
        [.cursor 168 0, .write [9, 65]] := by
  refine ⟨by decide, by decide, by decide, by decide, by decide, ?_⟩
  rintro ⟨-, -, hput, -⟩
  have hcell := hput ⟨65, 172, 0, 0x00FFFFFF, 0⟩ (by decide)
  exact absurd hcell.1 (by decide)

end Terminal

end Betelgeuse
