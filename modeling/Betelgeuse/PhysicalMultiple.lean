/-
Taking several physical pages, with 64-bit masks.

`page_physical_alloc_multiple` goes up over the words and down over the bits of a
word, and counts in a `uint8_t` how many bits it has found clear one after the
other.  Position `k` of this order is bit `63 - k % 64` of word `k / 64`, so
consecutive positions are consecutive pages only within a word, and downwards.
When the count is reached the function toggles a single bit and computes an
address from it that lies `count` pages below.

So a call that returns 0 has never taken the pages it names
(`not_takesPages`), and a call that returns -1 may have missed a run of free
pages (`takesConsecutive_iff`).
-/
import Betelgeuse.PhysicalCount
import Betelgeuse.Streak

open WordBitmap Streak

namespace Betelgeuse

namespace PageBitmap

variable {s : PageBitmap} {count : UInt64}

/-- The `n` pages from `p` on are in the bitmap and free. -/
def FreePages (s : PageBitmap) (p n : ℕ) : Prop :=
  ∀ q, p ≤ q → q < p + n → q < 64 * s.length.toNat ∧ WordBitmap.get s.words q = false

/-- The pages from this frame on were free, are allocated now, and no other bit has
changed. -/
def TakesPages (s : PageBitmap) (frame count : UInt64) (s' : PageBitmap) : Prop :=
  s.FreePages (frame >>> 12).toNat count.toNat ∧
    ∀ q, WordBitmap.get s'.words q =
      if (frame >>> 12).toNat ≤ q ∧ q < (frame >>> 12).toNat + count.toNat then true
      else WordBitmap.get s.words q

/-- If the call returns 0 it has taken `count` pages from the frame it names on; it
returns -1 only without a run of `count` free pages. -/
def TakesConsecutive (s : PageBitmap) (count : UInt64) : Prop :=
  ∀ o, s.pagePhysicalAllocMultiple mask count = some o →
    (o.code = 0 → ∃ frame, o.frame = some frame ∧ s.TakesPages frame count o.bitmap) ∧
      (o.code = -1 → ¬ ∃ p, s.FreePages p count.toNat)

/-- The scan counts position `k`: the word is not skipped, and the bit is clear. -/
def Counted (s : PageBitmap) (k : ℕ) : Prop :=
  s.words (k / 64) < int64Max ∧ bit (s.words (k / 64)) (63 - k % 64) = false

instance : DecidablePred s.Counted := fun _ => inferInstanceAs (Decidable (_ ∧ _))

/-- `c` reaches `count` at position `k`. -/
def Hit (s : PageBitmap) (count : UInt64) (k : ℕ) : Prop :=
  streak s.Counted (k + 1) % 256 = count.toNat

/-! ### The scan -/

/-- The offsets from position `m` of a word on. -/
theorem drop_offsets {m : ℕ} (hm : m < 64) :
    (List.finRange 64).reverse.drop m =
      ⟨63 - m, by omega⟩ :: (List.finRange 64).reverse.drop (m + 1) := by
  rw [List.drop_eq_getElem_cons (by simpa using hm)]
  congr 1
  rw [List.getElem_reverse, List.getElem_finRange]
  simp

/-- The test of the scan at a position. -/
theorem and_mask_iff {w : UInt64} {j : ℕ} (hj : j < 64) : w &&& mask j = 0 ↔ bit w j = false := by
  refine ⟨and_mask_eq_zero hj, fun hclear => eq_zero_of_bits fun i hi => ?_⟩
  rw [bit_and, bit_mask hi]
  by_cases hij : i = j
  · rw [hij, hclear]
    rfl
  · simp [hij]

/-- What `c` is behind a position. -/
theorem toNat_count {i m : ℕ} (hlt : s.words i < int64Max) (hm : m < 64) {c : UInt8}
    (hc : c.toNat = streak s.Counted (64 * i + m) % 256) :
    (if s.words i &&& mask (63 - m) = 0 then c + 1 else 0).toNat =
      streak s.Counted (64 * i + m + 1) % 256 := by
  have hcounted : s.Counted (64 * i + m) ↔ s.words i &&& mask (63 - m) = 0 := by
    rw [Counted, show (64 * i + m) / 64 = i by omega, show (64 * i + m) % 64 = m by omega,
      and_mask_iff (by omega)]
    exact and_iff_right hlt
  by_cases hclear : s.words i &&& mask (63 - m) = 0
  · rw [if_pos hclear, streak_succ_of_pos (hcounted.mpr hclear), UInt8.toNat_add, hc]
    simp
  · rw [if_neg hclear, streak_succ_of_neg fun h => hclear (hcounted.mp h)]
    rfl

/-- The loop over the bits of word `i` from position `m` on stops at the first hit. -/
theorem scanWord_from {i : ℕ} (hlt : s.words i < int64Max) : ∀ n m : ℕ, m + n = 64 →
    ∀ c : UInt8, c.toNat = streak s.Counted (64 * i + m) % 256 →
      (∃ j, ∃ hj : 63 - j < 64, m ≤ j ∧ j < 64 ∧ s.Hit count (64 * i + j) ∧
          scanWord mask (s.words i) count ((List.finRange 64).reverse.drop m) c =
            .inl ⟨63 - j, hj⟩) ∨
        (∀ j, m ≤ j → j < 64 → ¬ s.Hit count (64 * i + j)) ∧
          ∃ c', scanWord mask (s.words i) count ((List.finRange 64).reverse.drop m) c = .inr c' ∧
            c'.toNat = streak s.Counted (64 * (i + 1)) % 256 := by
  -- by induction on the bits of the word that are left
  intro n
  induction n with
  | zero =>
    intro m hm c hc
    obtain rfl : m = 64 := by omega
    refine .inr ⟨fun j hj hj' => by omega, c, ?_, hc⟩
    rw [List.drop_of_length_le (by simp), scanWord]
  | succ n ih =>
    intro m hm c hc
    have hm64 : m < 64 := by omega
    have hnext := toNat_count hlt hm64 hc
    rw [drop_offsets hm64, scanWord]
    simp only
    set c' := if s.words i &&& mask (63 - m) = 0 then c + 1 else 0 with hc'
    -- the count has come to `count` just when a run of so many bits ends here
    have hhit : c'.toUInt64 = count ↔ s.Hit count (64 * i + m) := by
      rw [← UInt64.toNat_inj, UInt8.toNat_toUInt64, hnext]
      rfl
    by_cases hstop : c'.toUInt64 = count
    · rw [if_pos hstop]
      exact .inl ⟨m, by omega, le_rfl, hm64, hhit.mp hstop, rfl⟩
    · rw [if_neg hstop]
      rcases ih (m + 1) (by omega) c' hnext with ⟨j, hj, hmj, hrest⟩ | ⟨hnone, hres⟩
      · exact .inl ⟨j, hj, by omega, hrest⟩
      · refine .inr ⟨fun j hmj hj => ?_, hres⟩
        rcases hmj.eq_or_lt with rfl | hmj
        · exact fun h => hstop (hhit.mpr h)
        · exact hnone j hmj hj

theorem toNat_pos (hcount : count ≠ 0) : 0 < count.toNat :=
  Nat.pos_of_ne_zero fun h => hcount (UInt64.toNat_inj.mp h)

/-- In a word that is skipped nothing is counted. -/
theorem streak_skipped {i : ℕ} (hskip : ¬ s.words i < int64Max) :
    ∀ m < 64, streak s.Counted (64 * i + m + 1) = 0 := by
  intro m hm
  refine streak_succ_of_neg fun hcounted => hskip ?_
  have hword := hcounted.1
  rwa [show (64 * i + m) / 64 = i by omega] at hword

/-- The loop over the words from word `i` on stops at the first hit, and without
one it ends behind the last word. -/
theorem scan_from (hlen : s.length.toNat < 2 ^ 16) (hcount : count ≠ 0) : ∀ n i : ℕ,
    i ≤ s.length.toNat → s.length.toNat < i + n → ∀ c : UInt8,
      c.toNat = streak s.Counted (64 * i) % 256 →
        (∃ k, ∃ hj : 63 - k % 64 < 64, 64 * i ≤ k ∧ k < 64 * s.length.toNat ∧ s.Hit count k ∧
            s.words (k / 64) < int64Max ∧
            s.scan mask count n (UInt16.ofNat i) c =
              some (some (UInt16.ofNat (k / 64), ⟨63 - k % 64, hj⟩))) ∨
          (∀ k, 64 * i ≤ k → k < 64 * s.length.toNat → ¬ s.Hit count k) ∧
            s.scan mask count n (UInt16.ofNat i) c = some none := by
  have hpos := toNat_pos hcount
  -- by induction on the words that are left; `c` counts the bits of the run that ends here
  intro n
  induction n with
  | zero =>
    intro i hi hn
    omega
  | succ n ih =>
    intro i hi hn c hc
    have hi16 : i < 2 ^ 16 := by omega
    rw [scan]
    by_cases hin : i < s.length.toNat
    · rw [if_pos ((toUInt64_lt_iff hi16).mpr hin), toNat_ofNat hi16, ofNat_succ]
      by_cases hlt : s.words i < int64Max
      · rw [if_pos hlt]
        have hword := @scanWord_from s count i hlt 64 0 rfl c hc
        rw [List.drop_zero] at hword
        rcases hword with ⟨j, hj, -, hj64, hhit, hres⟩ | ⟨hnone, c', hres, hc'⟩
        · have hdiv : (64 * i + j) / 64 = i := by omega
          have hmod : (64 * i + j) % 64 = j := by omega
          refine .inl ⟨64 * i + j, by omega, by omega, by omega, hhit, ?_, ?_⟩
          · rwa [hdiv]
          · rw [hres]
            simp only [hdiv, hmod]
        · rw [hres]
          rcases ih (i + 1) hin (by omega) c' hc' with ⟨k, hj, hk, hrest⟩ | ⟨hlater, hend⟩
          · exact .inl ⟨k, hj, by omega, hrest⟩
          · refine .inr ⟨fun k hk hk' => ?_, hend⟩
            by_cases hkw : k < 64 * (i + 1)
            · have := hnone (k - 64 * i) (Nat.zero_le _) (by omega)
              rwa [show 64 * i + (k - 64 * i) = k by omega] at this
            · exact hlater k (by omega) hk'
      · rw [if_neg hlt]
        -- a word with bit 63 set is passed over, and the count starts again
        have hskip := streak_skipped hlt
        have hc' : (0 : UInt8).toNat = streak s.Counted (64 * (i + 1)) % 256 := by
          rw [show 64 * (i + 1) = 64 * i + 63 + 1 by omega, hskip 63 (by omega)]
          rfl
        rcases ih (i + 1) hin (by omega) 0 hc' with ⟨k, hj, hk, hrest⟩ | ⟨hlater, hend⟩
        · exact .inl ⟨k, hj, by omega, hrest⟩
        · refine .inr ⟨fun k hk hk' => ?_, hend⟩
          by_cases hkw : k < 64 * (i + 1)
          · have hzero := hskip (k - 64 * i) (by omega)
            rw [show 64 * i + (k - 64 * i) = k by omega] at hzero
            rw [Hit, hzero]
            omega
          · exact hlater k (by omega) hk'
    · rw [if_neg fun h => hin ((toUInt64_lt_iff hi16).mp h)]
      exact .inr ⟨fun k hk hk' => by omega, rfl⟩

/-- `page_physical_alloc_multiple` stops at the first hit or fails. -/
theorem pagePhysicalAllocMultiple_cases (hlen : s.length.toNat < 2 ^ 16) (hcount : count ≠ 0) :
    (∃ k, ∃ hj : 63 - k % 64 < 64, k < 64 * s.length.toNat ∧ s.Hit count k ∧
        s.words (k / 64) < int64Max ∧
        s.pagePhysicalAllocMultiple mask count =
          some ⟨0, some (frameOf (UInt16.ofNat (k / 64)) ⟨63 - k % 64, hj⟩ - count <<< 12),
            s.toggle mask (k / 64) (63 - k % 64)⟩) ∨
      (∀ k < 64 * s.length.toNat, ¬ s.Hit count k) ∧
        s.pagePhysicalAllocMultiple mask count = some ⟨-1, none, s⟩ := by
  rw [pagePhysicalAllocMultiple, show (0 : UInt16) = UInt16.ofNat 0 from rfl]
  rcases scan_from hlen hcount (2 ^ 24) 0 (Nat.zero_le _) (by omega) 0 rfl with
    ⟨k, hj, -, hk, hhit, hlt, hres⟩ | ⟨hnone, hres⟩
  · refine .inl ⟨k, hj, hk, hhit, hlt, ?_⟩
    rw [hres]
    simp only [Option.bind_eq_bind, Option.bind_some, toNat_ofNat (show k / 64 < 2 ^ 16 by omega)]
    rfl
  · refine .inr ⟨fun k hk => hnone k (Nat.zero_le _) hk, ?_⟩
    rw [hres]
    rfl

/-- `c` comes to a `count` that fits into it when so many positions in a row are
counted. -/
theorem exists_hit_iff (hcount : count ≠ 0) {n : ℕ} :
    (∃ k < n, s.Hit count k) ↔
      count.toNat < 256 ∧ ∃ k, k + count.toNat ≤ n ∧ Run s.Counted k count.toNat := by
  rw [← exists_streak_iff (toNat_pos hcount)]
  constructor
  · rintro ⟨k, hk, hhit⟩
    have hlt : count.toNat < 256 := hhit ▸ Nat.mod_lt _ (by omega)
    refine ⟨hlt, ?_⟩
    have hle : count.toNat ≤ streak s.Counted (k + 1) := hhit ▸ Nat.mod_le _ _
    obtain ⟨j, hj, hjn⟩ := exists_streak_eq (toNat_pos hcount) hle
    exact ⟨j, by omega, hjn⟩
  · rintro ⟨hlt, k, hk, hstreak⟩
    refine ⟨k, hk, ?_⟩
    rw [Hit, hstreak]
    exact Nat.mod_eq_of_lt hlt

/-- The position at which the count is reached has been counted. -/
theorem Hit.counted {k : ℕ} (h : s.Hit count k) (hcount : count ≠ 0) : s.Counted k := by
  by_contra hnot
  have hzero : 0 % 256 = count.toNat := by
    rw [← streak_succ_of_neg hnot]
    exact h
  have := toNat_pos hcount
  omega

/-- A single bit is toggled, and the address is that of another page. -/
theorem not_takesPages (hlen : s.length.toNat ≤ 16384) (hcount : count ≠ 0) {k : ℕ}
    (hk : k < 64 * s.length.toNat) (hcounted : s.Counted k) (hj : 63 - k % 64 < 64) :
    ¬ s.TakesPages (frameOf (UInt16.ofNat (k / 64)) ⟨63 - k % 64, hj⟩ - count <<< 12) count
      (s.toggle mask (k / 64) (63 - k % 64)) := by
  have hpos := toNat_pos hcount
  have hi16 := toNat_ofNat (k := k / 64) (by omega)
  have hframe := @toNat_frameOf (UInt16.ofNat (k / 64)) (by omega) ⟨63 - k % 64, hj⟩
  rw [hi16] at hframe
  set frame := frameOf (UInt16.ofNat (k / 64)) ⟨63 - k % 64, hj⟩
  set q₀ := 64 * (k / 64) + (63 - k % 64) with hq₀
  have hget : ∀ q, WordBitmap.get (s.toggle mask (k / 64) (63 - k % 64)).words q =
      if q = q₀ then true else WordBitmap.get s.words q := by
    intro q
    rw [get_toggle]
    by_cases hq : q = q₀
    · have hclear : WordBitmap.get s.words q = false := by
        rw [WordBitmap.get, hq, show q₀ / 64 = k / 64 by omega,
          show q₀ % 64 = 63 - k % 64 by omega]
        exact hcounted.2
      rw [if_pos (by omega), if_pos hq, hclear, bit_mask (by omega)]
      simp
      omega
    · rw [if_neg hq]
      split
      · rw [bit_mask (by omega), decide_eq_false (by omega), Bool.xor_false]
      · rfl
  rintro ⟨hfree, hafter⟩
  set p := ((frame - count <<< 12) >>> 12).toNat with hp
  -- the pages named are those whose bit has changed
  have honly : ∀ q, p ≤ q → q < p + count.toNat → q = q₀ := by
    intro q hle hlt
    by_contra hne
    have hchanged := hafter q
    rw [hget, if_neg hne, if_pos ⟨hle, hlt⟩, (hfree q hle hlt).2] at hchanged
    cases hchanged
  have hpq := honly p le_rfl (by omega)
  have hone : count = 1 := by
    by_contra hne
    have hne1 : count.toNat ≠ 1 := fun h => hne (UInt64.toNat_inj.mp h)
    have := honly (p + 1) (by omega) (by omega)
    omega
  rw [hone, toNat_shiftRight_page, UInt64.toNat_sub,
    show ((1 : UInt64) <<< 12).toNat = 4096 from rfl, hframe] at hp
  split at hp
  · omega
  · omega

/-- `page_physical_alloc_multiple` does what it promises exactly where no `count`
pages in a row are free, and the scan does not count so many either. -/
theorem takesConsecutive_iff (hlen : s.length.toNat ≤ 16384) (hcount : count ≠ 0) :
    s.TakesConsecutive count ↔
      (¬ ∃ p, s.FreePages p count.toNat) ∧ (256 ≤ count.toNat ∨
        ¬ ∃ k, k + count.toNat ≤ 64 * s.length.toNat ∧ Run s.Counted k count.toNat) := by
  rw [TakesConsecutive]
  rcases pagePhysicalAllocMultiple_cases (s := s) (by omega) hcount with
    ⟨k, hj, hk, hhit, -, hrun⟩ | ⟨hnone, hrun⟩
  · refine iff_of_false (fun htakes => ?_) ?_
    · obtain ⟨frame, hframe, hpages⟩ := (htakes _ hrun).1 rfl
      obtain rfl := Option.some.inj hframe
      exact not_takesPages hlen hcount hk (hhit.counted hcount) hj hpages
    · obtain ⟨hlt, hexists⟩ := (exists_hit_iff hcount).mp ⟨k, hk, hhit⟩
      rintro ⟨-, hge | hno⟩
      · omega
      · exact hno hexists
  · have hsecond : 256 ≤ count.toNat ∨
        ¬ ∃ k, k + count.toNat ≤ 64 * s.length.toNat ∧ Run s.Counted k count.toNat := by
      by_contra hboth
      rw [not_or, not_not, not_le] at hboth
      obtain ⟨k, hk, hhit⟩ := (exists_hit_iff hcount).mpr hboth
      exact hnone k hk hhit
    rw [and_iff_left hsecond]
    constructor
    · intro htakes
      exact (htakes _ hrun).2 rfl
    · intro hno o ho
      obtain rfl := Option.some.inj (hrun.symm.trans ho)
      exact ⟨fun hcode => by simp at hcode, fun _ => hno⟩

/-- Two pages in memory without an allocated page. -/
theorem takesConsecutive_emptyMemory_iff :
    emptyMemory.TakesConsecutive 2 ↔
      (¬ ∃ p, emptyMemory.FreePages p (2 : UInt64).toNat) ∧ (256 ≤ (2 : UInt64).toNat ∨
        ¬ ∃ k, k + (2 : UInt64).toNat ≤ 64 * emptyMemory.length.toNat ∧
          Run emptyMemory.Counted k (2 : UInt64).toNat) :=
  takesConsecutive_iff (by decide) (by decide)

/-- The call names the pages from 60 on and takes page 62. -/
theorem not_takesConsecutive_emptyMemory :
    ¬ emptyMemory.TakesConsecutive 2 ∧
      emptyMemory.pagePhysicalAllocMultiple mask 2 =
        some ⟨0, some 0x3C000, emptyMemory.toggle mask 0 62⟩ := by
  have hrun : emptyMemory.pagePhysicalAllocMultiple mask 2 =
      some ⟨0, some 0x3C000, emptyMemory.toggle mask 0 62⟩ := rfl
  refine ⟨fun htakes => ?_, hrun⟩
  obtain ⟨frame, hframe, -, hafter⟩ := (htakes _ hrun).1 rfl
  obtain rfl := Option.some.inj hframe
  -- page 60 is named, and its bit is still clear
  have hbit := hafter 60
  rw [if_pos ⟨by decide, by decide⟩] at hbit
  exact absurd hbit (by decide)

end PageBitmap

end Betelgeuse
