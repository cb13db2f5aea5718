/-
The bytes of the font that the terminal reads (`terminal_putentryat` in
`kernel/arch/x86_64/tty.c`).

The font lies in a buffer of 0x8000 bytes, which `efi_main` makes sure that the file fits.  The
sizes in its header are never looked at: all that is written stays inside of the buffer if and
only if the last printable character does (`fontReads_inside_iff`).  The product with the size
of a character wraps at 32 bits, but a size for which this brings every character back into the
buffer does not exist (`product_le_iff`).
-/
import Betelgeuse.Framebuffer
import Betelgeuse.TerminalHex

namespace Betelgeuse

namespace Terminal

/-- The offsets from which `terminal_putentryat` reads, in its order. -/
def fontReads (t : Terminal) (font : Psf2Font) (c : UInt8) : List UInt64 :=
  (List.range t.charHeight.toNat).flatMap fun i =>
    List.replicate t.charWidth.toNat (font.glyph c + (UInt32.ofNat i).toUInt64)

section Reads

variable {t : Terminal} {font : Psf2Font} {c : UInt8} {a : UInt64}

theorem mem_fontReads : a ∈ t.fontReads font c ↔
    0 < t.charWidth.toNat ∧ ∃ i < t.charHeight.toNat,
      a = font.glyph c + (UInt32.ofNat i).toUInt64 := by
  simp only [fontReads, List.mem_flatMap, List.mem_range, List.mem_replicate, Nat.pos_iff_ne_zero]
  constructor
  · rintro ⟨i, hi, hwidth, rfl⟩
    exact ⟨hwidth, i, hi, rfl⟩
  · rintro ⟨hwidth, i, hi, rfl⟩
    exact ⟨i, hi, hwidth, rfl⟩

end Reads

/-- No size of a character wraps for all of them and leads back into the buffer. -/
theorem product_le_iff {size n : ℕ} (hsize : size < 2 ^ 32) (hn : n ≤ 0x8000) :
    (∀ c, 0x20 ≤ c → c < 0xDC → c * size % 2 ^ 32 ≤ n) ↔ 0xDB * size ≤ n := by
  constructor
  · intro h
    have hfirst := h 0x20 (by decide) (by decide)
    have hsecond := h 0x21 (by decide) (by decide)
    have hlast := h 0xDB (by decide) (by decide)
    -- the first two products are close to each other, so that the size is close to 0 modulo 2 ^ 32
    have hclose : size ≤ 0x8000 ∨ 2 ^ 32 - 0x8000 ≤ size := by
      rcases Nat.lt_or_ge (0x20 * size / 2 ^ 32) (0x21 * size / 2 ^ 32) with hlt | hge
      · omega
      · omega
    rcases hclose with hsmall | hlarge
    · omega
    · have hmod : 0x20 * size % 2 ^ 32 = 0x20 * size - 31 * 2 ^ 32 := by omega
      omega
  · intro h c _ hc
    have hle : c * size ≤ 0xDB * size := Nat.mul_le_mul_right size (by omega)
    exact (Nat.mod_le _ _).trans (hle.trans h)

theorem toNat_glyph (font : Psf2Font) (c : UInt8) :
    (font.glyph c).toNat = font.headersize.toNat + c.toNat * font.charsize.toNat % 2 ^ 32 := by
  have hheader := font.headersize.toNat_lt
  have hmod : c.toNat * font.charsize.toNat % 2 ^ 32 < 2 ^ 32 := Nat.mod_lt _ (by decide)
  rw [Psf2Font.glyph, UInt64.toNat_add, UInt32.toNat_toUInt64, UInt32.toNat_toUInt64,
    UInt32.toNat_mul, UInt8.toNat_toUInt32, Nat.mod_eq_of_lt (by omega)]

/-- Behind `terminal_init` everything that is written is read from the buffer if and only if the
header says that the last printable character lies in it. -/
theorem fontReads_inside_iff (t : Terminal) {font : Psf2Font} (mode : GraphicsMode)
    (hmagic : font.MagicOk) (hwidth : font.width ≠ 0) (hheight : font.height ≠ 0) :
    (∀ data, ∀ e ∈ ((t.terminalInit font.toPsf2Header mode).2.terminalWrite data).1,
      ∀ a ∈ (t.terminalInit font.toPsf2Header mode).2.fontReads font e.c, a.toNat < 0x8000) ↔
    font.headersize.toNat + 0xDB * font.charsize.toNat + font.height.toNat ≤ 0x8000 := by
  obtain ⟨t', ht'⟩ : ∃ t', t' = (t.terminalInit font.toPsf2Header mode).2 := ⟨_, rfl⟩
  have hsize : t'.charWidth = font.width.toUInt64 ∧ t'.charHeight = font.height.toUInt64 := by
    rw [ht', terminalInit, if_neg (not_not_intro hmagic)]
    exact ⟨rfl, rfl⟩
  rw [← ht']
  have hheight' : 0 < font.height.toNat :=
    Nat.pos_of_ne_zero fun h => hheight (UInt32.toNat_inj.mp h)
  have hwidth' : 0 < t'.charWidth.toNat := by
    rw [hsize.1, UInt32.toNat_toUInt64]
    exact Nat.pos_of_ne_zero fun h => hwidth (UInt32.toNat_inj.mp h)
  have hline : ∀ c, ∀ i < font.height.toNat,
      (font.glyph c + (UInt32.ofNat i).toUInt64).toNat = (font.glyph c).toNat + i := by
    intro c i hi
    have hheader := font.headersize.toNat_lt
    have hlast := font.height.toNat_lt
    have hglyph := toNat_glyph font c
    have hmod : c.toNat * font.charsize.toNat % 2 ^ 32 < 2 ^ 32 := Nat.mod_lt _ (by decide)
    rw [UInt64.toNat_add, UInt32.toNat_toUInt64, UInt32.toNat_ofNat_of_lt' (hi.trans hlast),
      Nat.mod_eq_of_lt (by omega)]
  -- all lines of a character are read from the buffer if the last one is
  have hreads : ∀ c, (∀ a ∈ t'.fontReads font c, a.toNat < 0x8000) ↔
      (font.glyph c).toNat + font.height.toNat ≤ 0x8000 := by
    intro c
    have hlines : t'.charHeight.toNat = font.height.toNat := by rw [hsize.2, UInt32.toNat_toUInt64]
    constructor
    · intro h
      have hlast := h _ (mem_fontReads.mpr ⟨hwidth', font.height.toNat - 1, by omega, rfl⟩)
      rw [hline c _ (by omega)] at hlast
      omega
    · rintro h a ha
      obtain ⟨-, i, hi, rfl⟩ := mem_fontReads.mp ha
      rw [hline c i (by omega)]
      omega
  constructor
  · intro h
    have hglyph : ∀ c : ℕ, 0x20 ≤ c → c < 0xDC →
        font.headersize.toNat + c * font.charsize.toNat % 2 ^ 32 + font.height.toNat ≤ 0x8000 := by
      intro c hlow hhigh
      have hc : (UInt8.ofNat c).toNat = c := UInt8.toNat_ofNat_of_lt' (hhigh.trans (by decide))
      have hprintable : printable (UInt8.ofNat c) = true := by
        refine decide_eq_true ⟨UInt8.le_iff_toNat_le.mpr ?_, UInt8.lt_iff_toNat_lt.mpr ?_⟩
        · rw [hc]
          exact hlow
        · rw [hc]
          exact hhigh
      have hmem : UInt8.ofNat c ∈ characters (t'.terminalWrite [UInt8.ofNat c]).1 := by
        rw [characters_terminalWrite, List.filter_singleton, hprintable]
        exact List.mem_cons_self
      obtain ⟨e, he, hec⟩ := List.mem_map.mp hmem
      have hinside := (hreads e.c).mp (h _ e he)
      rwa [hec, toNat_glyph, hc] at hinside
    have hfirst := hglyph 0x20 (by decide) (by decide)
    have hproduct := (product_le_iff font.charsize.toNat_lt
      (n := 0x8000 - font.headersize.toNat - font.height.toNat) (by omega)).mp
      fun c hlow hhigh => by
        have hinside := hglyph c hlow hhigh
        omega
    omega
  · intro h data e he
    have hmem : e.c ∈ characters (t'.terminalWrite data).1 := List.mem_map.mpr ⟨e, he, rfl⟩
    rw [characters_terminalWrite] at hmem
    have hprintable := of_decide_eq_true (List.mem_filter.mp hmem).2
    refine (hreads e.c).mpr ?_
    have hproduct := (product_le_iff font.charsize.toNat_lt
      (n := 0x8000 - font.headersize.toNat - font.height.toNat) (by omega)).mpr (by omega) e.c.toNat
      (UInt8.le_iff_toNat_le.mp hprintable.1) (UInt8.lt_iff_toNat_lt.mp hprintable.2)
    rw [toNat_glyph]
    omega

/-- Characters of 8 by 16 pixels need 3552 bytes. -/
theorem fontReads_inside_8x16 :
    (∀ data, ∀ e ∈ ((uninitialised.terminalInit (font8 16).toPsf2Header ⟨1280, 800⟩).2.terminalWrite
        data).1,
      ∀ a ∈ (uninitialised.terminalInit (font8 16).toPsf2Header ⟨1280, 800⟩).2.fontReads (font8 16)
        e.c, a.toNat < 0x8000) ∧ 32 + 0xDB * 16 + 16 = 3552 :=
  ⟨(fontReads_inside_iff uninitialised ⟨1280, 800⟩ (by decide) (by decide) (by decide)).mpr
    (by decide), by decide⟩

end Terminal

end Betelgeuse
