/-
How much of the memory `page_physical_alloc` gives out, with 64-bit masks.

A word is skipped unless it is below `INT64_MAX`, and such a word has its highest
bit clear.  The loop over the bits starts at that bit, so it is the one that is
taken, and with it set the word is skipped from then on: each word is used once.
A word of which only the highest bit is clear, or with the highest bit set, is
never used.

`usesMemory_iff` says when a call fails with memory left and how many calls
succeed.
-/
import Betelgeuse.PhysicalNames
import Mathlib.Data.Finset.Card
import Mathlib.Data.Finset.Image

open WordBitmap

namespace Betelgeuse

namespace PageBitmap

variable {s : PageBitmap}

/-- The pages whose bit is clear. -/
def freePages (s : PageBitmap) : Finset ℕ :=
  {q ∈ Finset.range (64 * s.length.toNat) | WordBitmap.get s.words q = false}

/-- The words that the loop reaches and does not skip. -/
def openWords (s : PageBitmap) : Finset ℕ := {i ∈ Finset.range s.reach | s.words i < int64Max}

/-- The map after `n` calls, if each of them returns 0. -/
def allocs : ℕ → PageBitmap → Option PageBitmap
  | 0, s => some s
  | n + 1, s => do
    let o ← s.pagePhysicalAlloc mask
    if o.code = 0 then allocs n o.bitmap else none

/-- The call comes back, and with -1 exactly if no bit is clear. -/
def FailsWhenFull (s : PageBitmap) : Prop :=
  ∃ o, s.pagePhysicalAlloc mask = some o ∧ (o.code = -1 ↔ s.freePages = ∅)

/-- As many calls succeed as bits are clear, and no more. -/
def ServesAll (s : PageBitmap) : Prop :=
  (∃ s', allocs s.freePages.card s = some s') ∧ allocs (s.freePages.card + 1) s = none

theorem mem_freePages {q : ℕ} :
    q ∈ s.freePages ↔ q < 64 * s.length.toNat ∧ WordBitmap.get s.words q = false := by
  rw [freePages, Finset.mem_filter, Finset.mem_range]

theorem mem_openWords {i : ℕ} : i ∈ s.openWords ↔ i < s.reach ∧ s.words i < int64Max := by
  rw [openWords, Finset.mem_filter, Finset.mem_range]

/-- In a word that is not skipped the highest bit is taken. -/
theorem findOffset_mask {w : UInt64} (h : w < int64Max) : findOffset mask w = some 63 := by
  have hzero : w &&& mask 63 = 0 := by
    refine eq_zero_of_bits fun j hj => ?_
    rw [bit_and, bit_mask hj]
    by_cases hj63 : j = 63
    · rw [hj63, bit_63_of_lt h]
      rfl
    · simp [hj63]
  cases hoff : findOffset mask w with
  | none => exact absurd hzero (findOffset_eq_none.mp hoff 63)
  | some offset =>
    have hlast : ¬ offset < 63 := fun hlt => (findOffset_eq_some hoff).2 63 hlt hzero
    obtain rfl : offset = 63 := by omega
    rfl

theorem bit_int64Max {j : ℕ} (hj : j < 64) : bit int64Max j = decide (j < 63) := by
  have hall : ∀ j : Fin 64, bit int64Max j.val = decide (j.val < 63) := by decide
  exact hall ⟨j, hj⟩

/-- A word below `INT64_MAX` has another clear bit. -/
theorem exists_clear_of_lt {w : UInt64} (h : w < int64Max) : ∃ j < 63, bit w j = false := by
  by_contra hnone
  push Not at hnone
  have heq : w = int64Max := by
    rw [← UInt64.toBitVec_inj]
    refine BitVec.eq_of_getLsbD_eq fun j hj => ?_
    show bit w j = bit int64Max j
    rw [bit_int64Max hj]
    by_cases hj63 : j = 63
    · rw [hj63, bit_63_of_lt h]
      rfl
    · have hlt : j < 63 := by omega
      simpa [hlt] using hnone j hlt
  rw [heq] at h
  exact lt_irrefl _ (UInt64.lt_iff_toNat_lt.mp h)

/-- The step: a call takes one word out of those that are open, or fails. -/
theorem pagePhysicalAlloc_mask :
    (∃ i ∈ s.openWords, s.pagePhysicalAlloc mask =
        some ⟨0, some (frameOf (UInt16.ofNat i) 63), s.toggle mask i 63⟩) ∨
      s.openWords = ∅ ∧
        s.pagePhysicalAlloc mask =
          if s.length.toNat < 2 ^ 16 then some ⟨-1, none, s⟩ else none := by
  rcases @pagePhysicalAlloc_cases s mask with ⟨i, offset, hi, hlt, hoff, hrun⟩ | ⟨hnone, hrun⟩
  · obtain rfl : 63 = offset := Option.some.inj ((findOffset_mask hlt).symm.trans hoff)
    exact .inl ⟨i, mem_openWords.mpr ⟨hi, hlt⟩, hrun⟩
  · refine .inr ⟨Finset.eq_empty_of_forall_notMem fun i hi => ?_, hrun⟩
    obtain ⟨hi, hlt⟩ := mem_openWords.mp hi
    exact hnone i hi ⟨hlt, 63, findOffset_mask hlt⟩

/-- With its highest bit set a word is skipped. -/
theorem openWords_toggle {i : ℕ} (hi : i ∈ s.openWords) :
    (s.toggle mask i 63).openWords = s.openWords.erase i := by
  obtain ⟨hreach, hlt⟩ := mem_openWords.mp hi
  ext j
  rw [Finset.mem_erase, mem_openWords, mem_openWords]
  by_cases hj : j = i
  · subst hj
    refine iff_of_false (fun hopen => ?_) fun hne => hne.1 rfl
    have hbit := bit_63_of_lt hopen.2
    have hword : (s.toggle mask j 63).words j = s.words j ^^^ mask 63 := by simp [toggle]
    rw [hword, bit_xor, bit_63_of_lt hlt, bit_mask (by omega)] at hbit
    simp at hbit
  · have hword : (s.toggle mask i 63).words j = s.words j := by simp [toggle, hj]
    rw [hword]
    exact ⟨fun h => ⟨hj, h⟩, fun h => h.2⟩

/-- The run: each call that succeeds uses up a word. -/
theorem le_card_of_allocs : ∀ {n : ℕ} {s s' : PageBitmap},
    allocs n s = some s' → n ≤ s.openWords.card := by
  intro n
  induction n with
  | zero => exact fun _ => Nat.zero_le _
  | succ n ih =>
    intro s s' h
    obtain ⟨o, ho, h⟩ := Option.bind_eq_some_iff.mp h
    rcases s.pagePhysicalAlloc_mask with ⟨i, hi, hrun⟩ | ⟨-, hrun⟩
    · obtain rfl := Option.some.inj (hrun.symm.trans ho)
      rw [if_pos rfl] at h
      have hle := ih h
      rw [openWords_toggle hi, Finset.card_erase_of_mem hi] at hle
      have hpos := Finset.card_pos.mpr ⟨i, hi⟩
      omega
    · rw [hrun] at ho
      split at ho
      · obtain rfl := Option.some.inj ho
        rw [if_neg (by simp)] at h
        cases h
      · cases ho

/-- An open word has its highest bit clear, and one more. -/
theorem free_of_open {i : ℕ} (hi : i ∈ s.openWords) :
    64 * i + 63 ∈ s.freePages ∧ ∃ j < 63, 64 * i + j ∈ s.freePages := by
  obtain ⟨hreach, hlt⟩ := mem_openWords.mp hi
  have hlen : i < s.length.toNat := lt_of_lt_of_le hreach (min_le_left _ _)
  have hmem : ∀ j < 64, bit (s.words i) j = false → 64 * i + j ∈ s.freePages := by
    intro j hj hbit
    rw [mem_freePages, WordBitmap.get, show (64 * i + j) / 64 = i by omega,
      show (64 * i + j) % 64 = j by omega]
    exact ⟨by omega, hbit⟩
  obtain ⟨j, hj, hbit⟩ := exists_clear_of_lt hlt
  exact ⟨hmem 63 (by omega) (bit_63_of_lt hlt), j, hj, hmem j (by omega) hbit⟩

/-- While a page is free there are fewer open words than free pages. -/
theorem card_openWords_lt (h : s.freePages ≠ ∅) : s.openWords.card < s.freePages.card := by
  by_cases hopen : s.openWords = ∅
  · rw [hopen, Finset.card_empty]
    exact Finset.card_pos.mpr (Finset.nonempty_iff_ne_empty.mpr h)
  · have hinj : Set.InjOn (fun i => 64 * i + 63) (s.openWords : Set ℕ) := by
      intro a _ b _ hab
      simp only at hab
      omega
    rw [← Finset.card_image_of_injOn hinj]
    refine Finset.card_lt_card (Finset.ssubset_iff_subset_ne.mpr ⟨fun q hq => ?_, fun heq => ?_⟩)
    · obtain ⟨i, hi, rfl⟩ := Finset.mem_image.mp hq
      exact (free_of_open hi).1
    · -- a second clear bit of an open word
      obtain ⟨i, hi⟩ := Finset.nonempty_iff_ne_empty.mpr hopen
      obtain ⟨j, hj, hfree⟩ := (free_of_open hi).2
      rw [← heq] at hfree
      obtain ⟨i', -, hq⟩ := Finset.mem_image.mp hfree
      omega

theorem failsWhenFull_iff :
    s.FailsWhenFull ↔
      (∃ i < s.reach, s.words i < int64Max) ∨ s.length.toNat < 2 ^ 16 ∧ s.freePages = ∅ := by
  have hexists : (∃ i < s.reach, s.words i < int64Max) ↔ ∃ i, i ∈ s.openWords := by
    simp only [mem_openWords]
  rw [hexists]
  rcases s.pagePhysicalAlloc_mask with ⟨i, hi, hrun⟩ | ⟨hopen, hrun⟩
  · refine iff_of_true ⟨_, hrun, ?_⟩ (.inl ⟨i, hi⟩)
    refine iff_of_false (by simp) fun hempty => ?_
    have hfree := (free_of_open hi).1
    rw [hempty] at hfree
    simp at hfree
  · rw [FailsWhenFull, hrun, hopen]
    split
    · rename_i hlen
      constructor
      · rintro ⟨o, ho, hcode⟩
        obtain rfl := Option.some.inj ho
        exact .inr ⟨hlen, hcode.mp rfl⟩
      · rintro (⟨i, hi⟩ | ⟨-, hempty⟩)
        · simp at hi
        · exact ⟨_, rfl, fun _ => hempty, fun _ => rfl⟩
    · rename_i hlen
      refine iff_of_false ?_ ?_
      · rintro ⟨o, ho, -⟩
        cases ho
      · rintro (⟨i, hi⟩ | ⟨hlen', -⟩)
        · simp at hi
        · exact hlen hlen'

theorem servesAll_iff : s.ServesAll ↔ s.freePages = ∅ := by
  constructor
  · rintro ⟨⟨s', hs'⟩, -⟩
    by_contra hfree
    have hle := le_card_of_allocs hs'
    have hlt := card_openWords_lt hfree
    omega
  · intro hempty
    rw [ServesAll, hempty, Finset.card_empty]
    refine ⟨⟨s, rfl⟩, ?_⟩
    cases h : allocs (0 + 1) s with
    | none => rfl
    | some s' =>
      obtain ⟨i, hi⟩ := Finset.card_pos.mp (le_card_of_allocs h)
      have hfree := (free_of_open hi).1
      rw [hempty] at hfree
      simp at hfree

/-- A call fails exactly when no page is free, if a word is open or no page is free;
and as many calls succeed as pages are free only if none is. -/
theorem usesMemory_iff (s : PageBitmap) :
    (s.FailsWhenFull ↔
        (∃ i < s.reach, s.words i < int64Max) ∨ s.length.toNat < 2 ^ 16 ∧ s.freePages = ∅) ∧
      (s.ServesAll ↔ s.freePages = ∅) :=
  ⟨failsWhenFull_iff, servesAll_iff⟩

/-- One word, of which only the highest bit is clear. -/
def lastPage : PageBitmap := ⟨fun _ => int64Max, 1⟩

/-- The call returns -1, and page 63 is free. -/
theorem not_failsWhenFull_lastPage :
    63 ∈ lastPage.freePages ∧ lastPage.pagePhysicalAlloc mask = some ⟨-1, none, lastPage⟩ ∧
      ¬ lastPage.FailsWhenFull ∧ ¬ lastPage.ServesAll := by
  have hfree : 63 ∈ lastPage.freePages := mem_freePages.mpr ⟨by decide, by decide⟩
  have hrun : lastPage.pagePhysicalAlloc mask = some ⟨-1, none, lastPage⟩ := rfl
  refine ⟨hfree, hrun, ?_, ?_⟩
  · rintro ⟨o, ho, hcode⟩
    obtain rfl := Option.some.inj (hrun.symm.trans ho)
    have hempty := hcode.mp rfl
    rw [hempty] at hfree
    simp at hfree
  · rw [servesAll_iff]
    intro hempty
    rw [hempty] at hfree
    simp at hfree

end PageBitmap

end Betelgeuse
