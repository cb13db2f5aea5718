/-
The boot data that is live while the bitmap is built.

The font buffer and the buffer of the memory map lie in descriptors that count as
usable.  The loop that should give the font's descriptor the type 0x12 does
nothing, as both bits of `type_correction_to_do` start at 0, so nothing keeps the
first 32 pages of the best fit away from the two buffers, or the second loop away
from the pages of the font (`not_liveDataReserved_fontBoot`).
`liveDataReserved_iff` says for which memory maps all goes well.
-/
import Betelgeuse.BootExact
import Mathlib.Order.Interval.Set.Disjoint

open WordBitmap

namespace Betelgeuse

namespace BootTable

/-- The 32 pages that the first loop chooses for the bitmap. -/
def bitmapBytes (bt : BootTable) : Set ℕ :=
  Set.Ico bt.select.pageBitmap.toNat (bt.select.pageBitmap.toNat + 32 * 4096)

/-- The font buffer, `psf_buf` of the bootloader. -/
def fontBuffer (bt : BootTable) : Set ℕ :=
  Set.Ico bt.fontPointer.toNat (bt.fontPointer.toNat + 0x8000)

/-- The buffer of the memory map. -/
def mapBuffer (bt : BootTable) : Set ℕ :=
  Set.Ico bt.memTablePointer.toNat (bt.memTablePointer.toNat + bt.mapBytes)

/-- The bytes of a buffer belong to usable descriptors. -/
def InUsable (bt : BootTable) (buffer : Set ℕ) : Prop :=
  ∀ x ∈ buffer, ∃ d ∈ bt.memTable, Usable d.type ∧ x / 4096 ∈ d.pages

/-- A page of the font buffer. -/
def FontPage (bt : BootTable) (p : ℕ) : Prop := ∃ x ∈ bt.fontBuffer, x / 4096 = p

/-- The loops end; the bitmap, if there is one, overlaps neither of the buffers,
and the pages of the font buffer are marked as allocated. -/
def LiveDataReserved (bt : BootTable) : Prop :=
  ∃ r, bt.buildBitmap shiftedOne = .ok r ∧ ∀ b, r = some b →
    Disjoint bt.bitmapBytes bt.fontBuffer ∧ Disjoint bt.bitmapBytes bt.mapBuffer ∧
      ∀ p, bt.FontPage p → get b p = true

/-- The first 32 pages of `d` lie apart from the memory map. -/
def MapApart (bt : BootTable) (d : EfiMemoryDescriptor) : Prop :=
  bt.mapBytes = 0 ∨ bt.memTablePointer.toNat + bt.mapBytes ≤ d.physicalStart.toNat ∨
    d.physicalStart.toNat + 32 * 4096 ≤ bt.memTablePointer.toNat

/-- What keeps the live data away from the bitmap and from the second loop when
descriptor `k` is the best fit. -/
structure ApartFromLiveData (bt : BootTable) (k : ℕ) (d : EfiMemoryDescriptor) : Prop where
  font : bt.fontPointer.toNat + 0x8000 ≤ d.physicalStart.toNat ∨
    d.physicalStart.toNat + 32 * 4096 ≤ bt.fontPointer.toNat
  map : bt.MapApart d
  rounds : ∀ j e a i, bt.memTable[j]? = some e → bt.firstFree k j e = some a → a ≤ i →
    i < e.numberOfPages → i.toNat < 52 ∧
      ∀ p ∈ clearedPages (e.page / 2 ^ i.toNat), ¬ bt.FontPage p

variable {bt : BootTable} {k : ℕ} {d : EfiMemoryDescriptor}

theorem bitmapBytes_eq (hk : bt.BestFit k d) : bt.bitmapBytes =
    Set.Ico d.physicalStart.toNat (d.physicalStart.toNat + 32 * 4096) := by
  obtain ⟨-, ⟨-, hnone⟩ | ⟨-, d', hbest, hplace⟩⟩ := bt.select_spec
  · exact absurd hk.candidate (hnone d (List.mem_of_getElem? hk.get))
  · obtain ⟨-, rfl⟩ := hbest.unique hk
    rw [bitmapBytes, hplace]

/-- Two intervals of bytes, one of them the bitmap's. -/
theorem disjoint_bitmap_iff {start base length : ℕ} :
    Disjoint (Set.Ico start (start + 32 * 4096)) (Set.Ico base (base + length)) ↔
      length = 0 ∨ base + length ≤ start ∨ start + 32 * 4096 ≤ base := by
  rw [Set.Ico_disjoint_Ico]
  omega

/-- No round clears a page of the font. -/
theorem fontPages_reserved_iff {l : List Round} {b : Bitmap}
    (hb : markRounds shiftedOne l fullBitmap = .ok b) :
    (∀ p, bt.FontPage p → get b p = true) ↔
      ∀ r ∈ l, ∀ p ∈ clearedPages (roundPage r), ¬ bt.FontPage p := by
  have hget : ∀ p, get b p = true ↔ ∀ r ∈ l, p ∉ clearedPages (roundPage r) := by
    intro p
    rw [← Bool.not_eq_false, get_markRounds hb, get_fullBitmap]
    simp [clears_shiftedOne]
  simp only [hget]
  constructor
  · exact fun h r hr p hclear hfont => h p hfont r hr hclear
  · exact fun h p hfont r hr hclear => h r hr p hclear hfont

/-- The last condition, round by round. -/
theorem rounds_apart_iff : (∀ r ∈ bt.allRounds k, r.2.toNat < 52 ∧
      ∀ p ∈ clearedPages (r.1.toNat / 4096 / 2 ^ r.2.toNat), ¬ bt.FontPage p) ↔
    ∀ j e a i, bt.memTable[j]? = some e → bt.firstFree k j e = some a → a ≤ i →
      i < e.numberOfPages → i.toNat < 52 ∧
        ∀ p ∈ clearedPages (e.page / 2 ^ i.toNat), ¬ bt.FontPage p := by
  constructor
  · intro hall j e a i he ha hai hie
    exact hall (e.physicalStart, i) (mem_allRounds.mpr ⟨j, e, a, he, ha, rfl, hai, hie⟩)
  · intro hall r hr
    obtain ⟨j, e, a, he, ha, hps, hge, hlt⟩ := mem_allRounds.mp hr
    rw [hps]
    exact hall j e a r.2 he ha hge hlt

theorem MapApart.not_mapRunsInto (hmap : bt.MapApart d) : ¬ bt.MapRunsInto d := by
  rintro ⟨hbelow, hrun⟩
  rcases hmap with hmap | hmap | hmap
  · omega
  · omega
  · omega

/-- Then no descriptor of the map is overwritten. -/
theorem MapApart.rounds_eq (hmap : bt.MapApart d) (hsize : bt.Spaced) :
    bt.rounds k d = bt.allRounds k := by
  refine rounds_eq_allRounds fun j hj hover => ?_
  have hlast : (j + 1) * bt.memDescSize.toNat ≤ bt.mapBytes := Nat.mul_le_mul_right _ hj
  have hlength : 8 * pageBitmapLength.toNat = 32 * 4096 := rfl
  rw [Nat.add_mul, Nat.one_mul] at hlast
  rw [Spaced] at hsize
  rw [Overwritten, InBitmap, hlength, descriptor] at hover
  rcases hmap with hmap | hmap | hmap
  · omega
  · omega
  · omega

/-- The criterion when there is a place for the bitmap. -/
theorem Regular.liveDataReserved_iff_apart (h : bt.Regular) (hk : bt.BestFit k d) :
    bt.LiveDataReserved ↔ bt.ApartFromLiveData k d := by
  -- the first 32 pages and the two buffers, in numbers
  have hfont : Disjoint bt.bitmapBytes bt.fontBuffer ↔
      bt.fontPointer.toNat + 0x8000 ≤ d.physicalStart.toNat ∨
        d.physicalStart.toNat + 32 * 4096 ≤ bt.fontPointer.toNat := by
    rw [bitmapBytes_eq hk, fontBuffer, disjoint_bitmap_iff]
    omega
  have hmap : Disjoint bt.bitmapBytes bt.mapBuffer ↔ bt.MapApart d := by
    rw [bitmapBytes_eq hk, mapBuffer, disjoint_bitmap_iff, MapApart]
  rw [LiveDataReserved, hfont, hmap]
  constructor
  · rintro ⟨r, hr, hall⟩
    obtain ⟨b, rfl⟩ := buildBitmap_isSome hk hr
    -- as the map is off the bitmap, the rounds are those of all descriptors
    obtain ⟨hf, hm, hpages⟩ := hall b rfl
    rw [buildBitmap_of_bestFit hk h.spaced hm.not_mapRunsInto, hm.rounds_eq h.spaced] at hr
    obtain ⟨b', hb'⟩ := map_some_eq_ok_iff.mp ⟨_, hr⟩
    rw [hb'] at hr
    obtain rfl : b' = b := Option.some.inj (Except.ok.inj hr)
    refine ⟨hf, hm, rounds_apart_iff.mp fun r hr => ?_⟩
    have hsafe := (markRounds_ok_iff _ _ _).mp ⟨b', hb'⟩ r hr
    refine ⟨(h.safeRound_iff hr).mp hsafe, ?_⟩
    rw [← h.roundPage_eq hr hsafe]
    exact (fontPages_reserved_iff hb').mp hpages r hr
  · intro hapart
    have hm : bt.MapApart d := hapart.map
    have hrounds := rounds_apart_iff.mpr hapart.rounds
    have hsafe : ∀ r ∈ bt.allRounds k, SafeRound r :=
      fun r hr => (h.safeRound_iff hr).mpr (hrounds r hr).1
    obtain ⟨b, hb⟩ := (markRounds_ok_iff shiftedOne _ fullBitmap).mpr hsafe
    rw [buildBitmap_of_bestFit hk h.spaced hm.not_mapRunsInto, hm.rounds_eq h.spaced]
    refine ⟨some b, by rw [hb]; rfl, fun b' hb' => ?_⟩
    obtain rfl := Option.some.inj hb'
    refine ⟨hapart.font, hm, (fontPages_reserved_iff hb).mpr fun r hr => ?_⟩
    rw [h.roundPage_eq hr (hsafe r hr)]
    exact (hrounds r hr).2

/-- The live boot data stays reserved if and only if no descriptor can hold the
bitmap, or both buffers lie apart from the first 32 pages of the best fit, no
inner loop goes beyond index 51, and for no index `i` that one goes through a page
of the font is cleared with the first page of its descriptor divided by `2 ^ i`. -/
theorem liveDataReserved_iff (h : bt.Regular) :
    bt.LiveDataReserved ↔
      (∀ d ∈ bt.memTable, ¬ Candidate d) ∨
        ∃ k d, bt.BestFit k d ∧ bt.ApartFromLiveData k d := by
  by_cases hnone : ∀ d ∈ bt.memTable, ¬ Candidate d
  · refine iff_of_true ⟨none, buildBitmap_of_none hnone, fun b hb => ?_⟩ (.inl hnone)
    cases hb
  · push Not at hnone
    obtain ⟨d₀, hd₀, hcand⟩ := hnone
    obtain ⟨k, d, hk⟩ := exists_bestFit hd₀ hcand
    rw [h.liveDataReserved_iff_apart hk]
    constructor
    · exact fun hapart => .inr ⟨k, d, hk, hapart⟩
    · rintro (hno | ⟨k', d', hk', hapart⟩)
      · exact absurd hcand (hno d₀ hd₀)
      · obtain ⟨rfl, rfl⟩ := hk'.unique hk
        exact hapart

/-- A font buffer in the first pages of the only descriptor. -/
def fontBoot : BootTable :=
  { smallBoot with
    memTable := [⟨2, 0x100000, 40⟩]
    fontPointer := 0x110000
    memTablePointer := 0x120000 }

theorem fontBoot_regular : fontBoot.Regular where
  spaced := by decide
  aligned := by decide
  below := by decide
  disjoint := List.pairwise_singleton _ _

/-- The criterion for this map. -/
theorem liveDataReserved_fontBoot_iff :
    fontBoot.LiveDataReserved ↔
      (∀ d ∈ fontBoot.memTable, ¬ Candidate d) ∨
        ∃ k d, fontBoot.BestFit k d ∧ fontBoot.ApartFromLiveData k d :=
  liveDataReserved_iff fontBoot_regular

/-- Both buffers lie in a usable descriptor, and the bitmap overwrites the font. -/
theorem not_liveDataReserved_fontBoot :
    fontBoot.Regular ∧ fontBoot.InUsable fontBoot.fontBuffer ∧
      fontBoot.InUsable fontBoot.mapBuffer ∧ ¬ fontBoot.LiveDataReserved := by
  -- the descriptor has the pages 0x100 to 0x127
  have hinside : ∀ x, 0x100000 ≤ x → x < 0x128000 →
      ∃ d ∈ fontBoot.memTable, Usable d.type ∧ x / 4096 ∈ d.pages := by
    intro x hge hlt
    refine ⟨⟨2, 0x100000, 40⟩, List.mem_singleton.mpr rfl, by decide, ?_⟩
    show 0x100000 / 4096 ≤ x / 4096 ∧ x / 4096 < 0x100000 / 4096 + 40
    omega
  have hk : fontBoot.BestFit 0 ⟨2, 0x100000, 40⟩ := bestFit_select (by decide) rfl
  refine ⟨fontBoot_regular, fun x hx => ?_, fun x hx => ?_, fun hlive => ?_⟩
  · have hge : 0x110000 ≤ x := hx.1
    have hlt : x < 0x110000 + 0x8000 := hx.2
    exact hinside x (by omega) (by omega)
  · have hge : 0x120000 ≤ x := hx.1
    have hlt : x < 0x120000 + 48 := hx.2
    exact hinside x (by omega) (by omega)
  · have hapart := (fontBoot_regular.liveDataReserved_iff_apart hk).mp hlive
    exact absurd hapart.font (by decide)

end BootTable

end Betelgeuse
