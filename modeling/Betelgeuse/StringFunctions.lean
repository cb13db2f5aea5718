/-
The other functions over memory: `memcmp` and `strlen` in `libc/string`, and the bootloader's
`memcpy` (`bootloader/arch/x86_64/memcpy.c`).

`memcmp` is the lexicographic order of the two ranges (`memcmp_orders`).  `strlen` finds the
first zero; its length wraps, so that it ends whenever there is a zero anywhere in memory
(`strlen_spec`).

The bootloader's `memcpy` copies upwards whatever the ranges are.  A target that begins inside
of the source gets the bytes in front of it again and again, so that it is copied if and only
if the source repeats these (`uefiMemcpy_moved_iff`).
-/
import Betelgeuse.RepeatedCopy
import Betelgeuse.StringCopy
import Mathlib.Data.List.Basic

open WhileLoop MemoryCopy

namespace Betelgeuse

namespace StringCopy

/-! ### The functions -/

/-- The variables of `memcmp`, and what it returns. -/
structure Comparison where
  i : UInt64
  value : Option ℤ

/-- A round of `memcmp`. -/
def Comparison.round (mem : Memory) (a b : UInt64) (s : Comparison) : Comparison :=
  if mem (a + s.i) < mem (b + s.i) then { s with value := some (-1) }
  else if mem (b + s.i) < mem (a + s.i) then { s with value := some 1 }
  else { s with i := s.i + 1 }

/-- The loop of `memcmp`, which a `return` leaves. -/
def compareLoop (mem : Memory) (a b len : UInt64) : ℕ → Comparison → Except Unit Comparison :=
  loop (fun s => s.value = none ∧ s.i < len) (fun s => .ok (s.round mem a b)) ()

/-- `memcmp`. -/
def memcmp (fuel : ℕ) (a b len : UInt64) (mem : Memory) : Except Unit ℤ := do
  let s ← compareLoop mem a b len fuel ⟨0, none⟩
  return s.value.getD 0

/-- `strlen`. -/
def strlen (fuel : ℕ) (str : UInt64) (mem : Memory) : Except Unit UInt64 :=
  loop (fun len => mem (str + len) ≠ 0) (fun len => .ok (len + 1)) () fuel 0

/-- `memcpy` of the bootloader, whose loop is the one of `memmove` upwards. -/
def uefiMemcpy (fuel : ℕ) (dest source size : UInt64) (ram : Ram) : Except Unit Ram := do
  let s ← moveUp dest source size fuel ⟨0, ram⟩
  return s.ram

/-! ### `memcmp` -/

/-- The bytes of a range. -/
def bytesAt (mem : Memory) (start len : UInt64) : List UInt8 :=
  (List.range len.toNat).map fun i => mem (cell start i)

section Compare

variable {mem : Memory} {a b len : UInt64} {i : ℕ}

/-- The first byte that differs decides. -/
theorem bytesAt_lt (hi : i < len.toNat) (heq : ∀ j < i, mem (cell a j) = mem (cell b j))
    (hlt : mem (cell a i) < mem (cell b i)) : bytesAt mem a len < bytesAt mem b len := by
  refine List.lt_iff_exists.mpr (.inr ⟨i, by simpa [bytesAt] using hi, by simpa [bytesAt] using hi,
    fun j hj => ?_, ?_⟩)
  · simpa [bytesAt] using heq j hj
  · simpa [bytesAt] using hlt

theorem bytesAt_eq (h : ∀ j < len.toNat, mem (cell a j) = mem (cell b j)) :
    bytesAt mem a len = bytesAt mem b len :=
  List.map_congr_left fun j hj => h j (List.mem_range.mp hj)

/-- What is known of a comparison: no byte before `i` differs, and a value comes from the byte
at `i`. -/
structure Comparison.Holds (mem : Memory) (a b len : UInt64) (s : Comparison) : Prop where
  le : s.i.toNat ≤ len.toNat
  same : ∀ j < s.i.toNat, mem (cell a j) = mem (cell b j)
  value : ∀ v, s.value = some v → s.i.toNat < len.toNat ∧
    (v = -1 ∧ mem (a + s.i) < mem (b + s.i) ∨ v = 1 ∧ mem (b + s.i) < mem (a + s.i))

theorem toNat_succ_of_lt {i : UInt64} (h : i.toNat < len.toNat) :
    (i + 1).toNat = i.toNat + 1 := by
  have hlen := len.toNat_lt
  rw [UInt64.toNat_add, UInt64.toNat_one, Nat.mod_eq_of_lt (by omega)]

theorem Comparison.Holds.round {s : Comparison} (h : s.Holds mem a b len)
    (hlt : s.i.toNat < len.toNat) (hnone : s.value = none) :
    (s.round mem a b).Holds mem a b len := by
  unfold Comparison.round
  split
  · rename_i hless
    exact ⟨h.le, h.same, fun v hv => ⟨hlt, .inl ⟨(Option.some.inj hv).symm, hless⟩⟩⟩
  split
  · rename_i hgreater
    exact ⟨h.le, h.same, fun v hv => ⟨hlt, .inr ⟨(Option.some.inj hv).symm, hgreater⟩⟩⟩
  · rename_i hless hgreater
    have hsucc := toNat_succ_of_lt hlt
    refine ⟨hsucc.trans_le hlt, fun j hj => ?_, fun v hv => absurd (hnone.symm.trans hv) nofun⟩
    rcases Nat.lt_or_eq_of_le (Nat.lt_succ_iff.mp (hsucc ▸ hj)) with hj | rfl
    · exact h.same j hj
    · rw [← add_eq_cell, ← add_eq_cell]
      exact UInt8.le_antisymm (UInt8.not_lt.mp hgreater) (UInt8.not_lt.mp hless)

/-- The rounds that are left, twice; a value ends the loop. -/
def Comparison.left (len : UInt64) (s : Comparison) : ℕ :=
  2 * (len.toNat - s.i.toNat) + if s.value = none then 1 else 0

theorem Comparison.left_round {s : Comparison} (hlt : s.i.toNat < len.toNat)
    (hnone : s.value = none) : (s.round mem a b).left len < s.left len := by
  have hsucc := toNat_succ_of_lt hlt
  have hleft : s.left len = 2 * (len.toNat - s.i.toNat) + 1 := by rw [left, if_pos hnone]
  unfold Comparison.round
  split
  · rw [hleft, left, if_neg nofun]
    exact Nat.lt_succ_self _
  split
  · rw [hleft, left, if_neg nofun]
    exact Nat.lt_succ_self _
  · rw [hleft, left, if_pos hnone, hsucc]
    omega

/-- `memcmp` ends, and its sign is that of the lexicographic order of the two ranges. -/
theorem memcmp_orders (mem : Memory) (a b len : UInt64) :
    ∃ r, Yields (fun n => memcmp n a b len mem) r ∧
      (r = -1 ↔ bytesAt mem a len < bytesAt mem b len) ∧
      (r = 1 ↔ bytesAt mem b len < bytesAt mem a len) ∧
      (r = 0 ↔ bytesAt mem a len = bytesAt mem b len) := by
  -- up to the index the two ranges are equal
  obtain ⟨s, ⟨n, hn⟩, hholds, hend⟩ := loop_yields
    (c := fun s : Comparison => s.value = none ∧ s.i < len)
    (b := fun s => .ok (s.round mem a b)) () (Comparison.Holds mem a b len)
    (Comparison.left len) (s := ⟨0, none⟩)
    ⟨Nat.zero_le _, fun j hj => absurd hj (Nat.not_lt_zero j), nofun⟩ fun s hs hc => by
      have hlt := UInt64.lt_iff_toNat_lt.mp hc.2
      exact ⟨_, rfl, hs.round hlt hc.1, Comparison.left_round hlt hc.1⟩
  have hyields : Yields (fun n => memcmp n a b len mem) (s.value.getD 0) :=
    ⟨n, bind_eq_ok.mpr ⟨s, hn, rfl⟩⟩
  -- the three cases exclude each other
  have hasymm : ∀ {l l' : List UInt8}, l < l' → ¬ l' < l := fun h h' =>
    List.lt_irrefl _ (List.lt_trans h h')
  have hne : ∀ {l l' : List UInt8}, l < l' → l ≠ l' := fun h heq =>
    List.lt_irrefl _ (heq ▸ h)
  refine ⟨_, hyields, ?_⟩
  cases hv : s.value with
  | none =>
    have hge : len.toNat ≤ s.i.toNat := by
      by_contra hlt
      exact hend ⟨hv, UInt64.lt_iff_toNat_lt.mpr (by omega)⟩
    have heq : bytesAt mem a len = bytesAt mem b len :=
      bytesAt_eq fun j hj => hholds.same j (by omega)
    rw [heq]
    exact ⟨iff_of_false (by decide) (List.lt_irrefl _), iff_of_false (by decide)
      (List.lt_irrefl _), iff_of_true rfl rfl⟩
  | some v =>
    obtain ⟨hlt, ⟨rfl, hless⟩ | ⟨rfl, hgreater⟩⟩ := hholds.value v hv
    · rw [add_eq_cell, add_eq_cell] at hless
      have h := bytesAt_lt hlt hholds.same hless
      exact ⟨iff_of_true rfl h, iff_of_false (by decide) (hasymm h),
        iff_of_false (by decide) (hne h)⟩
    · rw [add_eq_cell, add_eq_cell] at hgreater
      have h := bytesAt_lt hlt (fun j hj => (hholds.same j hj).symm) hgreater
      exact ⟨iff_of_false (by decide) (hasymm h), iff_of_true rfl h,
        iff_of_false (by decide) (hne h).symm⟩

end Compare

/-! ### `strlen` -/

section Length

variable {mem : Memory} {str len : UInt64}

theorem strlen_yields_iff :
    Yields (fun n => strlen n str mem) len ↔
      mem (str + len) = 0 ∧ ∀ i < len, mem (str + i) ≠ 0 := by
  constructor
  · rintro ⟨n, hn⟩
    obtain ⟨hbefore, hend⟩ := loop_invariant (fun l : UInt64 => ∀ i < l, mem (str + i) ≠ 0)
      (fun i hi => absurd hi UInt64.not_lt_zero)
      (fun l l' hl hc hround i hi => by
        obtain rfl := Except.ok.inj hround
        rcases Decidable.em (i = l) with rfl | hne
        · exact hc
        · refine hl i (UInt64.lt_iff_toNat_lt.mpr ?_)
          have hne' : i.toNat ≠ l.toNat := fun h => hne (UInt64.toNat_inj.mp h)
          have hi := UInt64.lt_iff_toNat_lt.mp hi
          rw [UInt64.toNat_add, UInt64.toNat_one] at hi
          have hmod := Nat.mod_le (l.toNat + 1) (2 ^ 64)
          omega) hn
    exact ⟨not_not.mp hend, hbefore⟩
  · rintro ⟨hzero, hbefore⟩
    obtain ⟨l, hl, hle, hend⟩ := loop_yields (c := fun l : UInt64 => mem (str + l) ≠ 0)
      (b := fun l => .ok (l + 1)) () (fun l : UInt64 => l.toNat ≤ len.toNat)
      (fun l => len.toNat - l.toNat) (s := 0) (Nat.zero_le _) fun l hl hc => by
        have hne : l.toNat ≠ len.toNat := fun h => hc (UInt64.toNat_inj.mp h ▸ hzero)
        have hsucc := toNat_succ_of_lt (lt_of_le_of_ne hl hne)
        exact ⟨_, rfl, by omega, by omega⟩
    have heq : l = len := by
      by_contra hne
      have hne' : l.toNat ≠ len.toNat := fun h => hne (UInt64.toNat_inj.mp h)
      exact hbefore l (UInt64.lt_iff_toNat_lt.mpr (lt_of_le_of_ne hle hne')) (not_not.mp hend)
    exact heq ▸ hl

/-- `strlen` gives the distance of the first zero, and ends if there is one in memory, also if
the address has to wrap. -/
theorem strlen_spec (mem : Memory) (str : UInt64) :
    (∀ len, Yields (fun n => strlen n str mem) len ↔
      mem (str + len) = 0 ∧ ∀ i < len, mem (str + i) ≠ 0) ∧
    (Halts (fun n => strlen n str mem) ↔ ∃ a, mem a = 0) := by
  refine ⟨fun len => strlen_yields_iff, ?_, ?_⟩
  · rintro ⟨len, hlen⟩
    exact ⟨str + len, (strlen_yields_iff.mp hlen).1⟩
  · rintro ⟨a, ha⟩
    have hzero : mem (cell str (a - str).toNat) = 0 := by
      rw [← add_eq_cell, UInt64.add_comm, UInt64.sub_add_cancel]
      exact ha
    have hex : ∃ k, mem (cell str k) = 0 := ⟨_, hzero⟩
    have hsize : Nat.find hex < UInt64.size := (Nat.find_min' hex hzero).trans_lt (a - str).toNat_lt
    refine ⟨UInt64.ofNat (Nat.find hex), strlen_yields_iff.mpr ⟨Nat.find_spec hex, fun i hi => ?_⟩⟩
    rw [add_eq_cell]
    refine Nat.find_min hex ?_
    rwa [UInt64.lt_iff_toNat_lt, UInt64.toNat_ofNat_of_lt' hsize] at hi

end Length

/-! ### `memcpy` of the bootloader -/

section UefiCopy

variable {dest source size : UInt64}

/-- What the rounds of the loop upwards keep holds behind it. -/
theorem moveUp_induction {P : ℕ → Memory → Prop} {ram : Ram} (hzero : P 0 ram.mem)
    (hstep : ∀ i mem, i < size.toNat → P i mem →
      P (i + 1) (Function.update mem (cell dest i) (mem (cell source i)))) :
    ∃ ram', Yields (fun n => uefiMemcpy n dest source size ram) ram' ∧
      P size.toNat ram'.mem := by
  obtain ⟨s, ⟨n, hn⟩, ⟨hle, hp⟩, hend⟩ := loop_yields
    (c := fun s : Round => s.i < size)
    (b := fun s => .ok ⟨s.i + 1, s.ram.copyByte (dest + s.i) (source + s.i)⟩) ()
    (fun s => s.i.toNat ≤ size.toNat ∧ P s.i.toNat s.ram.mem)
    (fun s => size.toNat - s.i.toNat) (s := ⟨0, ram⟩) ⟨Nat.zero_le _, hzero⟩
    fun s hs hc => by
      have hi := UInt64.lt_iff_toNat_lt.mp hc
      have hnext := toNat_succ_of_lt hi
      refine ⟨_, rfl, ⟨hnext.trans_le hi, ?_⟩, by rw [hnext]; omega⟩
      rw [hnext]
      simp only [Ram.copyByte, add_eq_cell]
      exact hstep _ _ hi hs.2
  have heq : s.i.toNat = size.toNat := by
    have hge := mt UInt64.lt_iff_toNat_lt.mpr hend
    omega
  exact ⟨s.ram, ⟨n, bind_eq_ok.mpr ⟨s, hn, rfl⟩⟩, heq ▸ hp⟩

/-- The target begins inside of the source, behind its first byte. -/
def Ahead (dest source size : UInt64) : Prop := InRange dest source size ∧ dest ≠ source

theorem toNat_sub_of_ahead (h : Ahead dest source size) :
    (dest - source).toNat = dest.toNat - source.toNat :=
  UInt64.toNat_sub_of_le _ _ (UInt64.le_iff_toNat_le.mpr h.1.1)

/-- A byte of the target is one of the source, further on. -/
theorem cell_eq_add (dest source : UInt64) (i : ℕ) :
    cell dest i = cell source (i + (dest - source).toNat) := by
  rw [cell, cell, Nat.add_comm i, UInt64.ofNat_add, UInt64.ofNat_toNat, ← UInt64.add_assoc,
    UInt64.add_comm source, UInt64.sub_add_cancel]

theorem cell_ne_of_ahead (h : Ahead dest source size) (hdest : Fits dest size) {i j k : ℕ}
    (hi : i < size.toNat) (hjk : j < k) (hk : k ≤ i + (dest - source).toNat) :
    cell source j ≠ cell source k := by
  have hsub := toNat_sub_of_ahead h
  have hle : source.toNat ≤ dest.toNat := h.1.1
  unfold Fits at hdest
  have hnat : ∀ {n : ℕ}, n ≤ i + (dest - source).toNat →
      (cell source n).toNat = source.toNat + n := by
    intro n hn
    have hsize : n < UInt64.size := show n < 2 ^ 64 by omega
    rw [cell, UInt64.toNat_add, UInt64.toNat_ofNat_of_lt' hsize, Nat.mod_eq_of_lt (by omega)]
  intro heq
  have heq := congrArg UInt64.toNat heq
  rw [hnat hk, hnat (by omega)] at heq
  omega

/-- Otherwise no byte is written before it is read. -/
theorem cell_ne_of_not_ahead (h : ¬ Ahead dest source size) (hdest : Fits dest size)
    (hsource : Fits source size) {i j : ℕ} (hi : i < size.toNat) (hj : j < i) :
    cell source i ≠ cell dest j := by
  intro heq
  have heq := congrArg UInt64.toNat heq
  rw [toNat_cell hsource hi, toNat_cell hdest (hj.trans hi)] at heq
  refine h ⟨⟨by omega, by omega⟩, ?_⟩
  rintro rfl
  omega

/-- The bytes arrive, and no others are written, if and only if the target does not begin inside
of the source or the source repeats the bytes in front of the target. -/
theorem uefiMemcpy_moved_iff (mem : Memory) (hdest : Fits dest size) (hsource : Fits source size) :
    ∃ ram, Yields (fun n => uefiMemcpy n dest source size (Ram.start mem)) ram ∧
      (Moved mem ram.mem dest source size ↔
        (Ahead dest source size →
          Periodic mem (cell source) (dest - source).toNat size.toNat)) := by
  by_cases hahead : Ahead dest source size
  -- the target lies ahead in the source: each byte is written before it is read
  · have hstep : ∀ i m, i < size.toNat →
        Repeated mem m (cell source) (dest - source).toNat i →
        Repeated mem (Function.update m (cell dest i) (m (cell source i))) (cell source)
          (dest - source).toNat (i + 1) := by
      intro i m hi h
      rw [cell_eq_add dest source]
      exact h.push fun j k => cell_ne_of_ahead hahead hdest hi
    obtain ⟨ram, hyields, hrepeated⟩ := moveUp_induction
      (P := fun i m => Repeated mem m (cell source) (dest - source).toNat i)
      (Repeated.refl (Ram.start mem).mem _ _) hstep
    refine ⟨ram, hyields, fun h _ => hrepeated.copied_iff.mp fun i hi => ?_, fun h => ⟨?_, ?_⟩⟩
    · have hsize : i < UInt64.size := hi.trans size.toNat_lt
      rw [← cell_eq_add]
      exact h.moved (UInt64.ofNat i) (UInt64.lt_iff_toNat_lt.mpr (by
        rwa [UInt64.toNat_ofNat_of_lt' hsize]))
    · intro i hi
      rw [add_eq_cell, add_eq_cell, cell_eq_add dest source]
      exact hrepeated.copied_iff.mpr (h hahead) i.toNat (UInt64.lt_iff_toNat_lt.mp hi)
    · refine fun a ha => hrepeated.unchanged a fun i hi heq => ha ?_
      rw [heq, ← cell_eq_add, InRange, toNat_cell hdest hi]
      exact ⟨Nat.le_add_right _ _, Nat.add_lt_add_left hi _⟩
  -- else every byte is read before it is written
  · obtain ⟨ram, hyields, hcopied⟩ := moveUp_induction
      (P := fun i m => Copied mem m (cell dest) (cell source) 0 i)
      (Copied.refl (Ram.start mem).mem _ _ _) fun i m hi h =>
        h.push (Nat.zero_le _) (fun j _ hj => cell_ne hdest hi (hj.trans hi) hj.ne)
          fun j _ hj => cell_ne_of_not_ahead hahead hdest hsource hi hj
    exact ⟨ram, hyields, iff_of_true (moved_of_copied hdest hcopied) fun h => absurd h hahead⟩

/-- Two bytes ahead in a range of four: `abab` is copied, as it repeats. -/
theorem uefiMemcpy_moved_abab :
    ∃ ram, Yields (fun n => uefiMemcpy n 2 0 4 (Ram.start fun a => (a % 2).toUInt8)) ram ∧
      Moved (fun a => (a % 2).toUInt8) ram.mem 2 0 4 := by
  obtain ⟨ram, hyields, hmoved⟩ := uefiMemcpy_moved_iff (fun a => (a % 2).toUInt8)
    (show Fits 2 4 by decide) (show Fits 0 4 by decide)
  refine ⟨ram, hyields, hmoved.mpr fun _ i hi => ?_⟩
  have hi' : i < 2 := Nat.lt_of_add_lt_add_right hi
  obtain rfl | rfl : i = 0 ∨ i = 1 := by omega
  · rfl
  · rfl

end UefiCopy

end StringCopy

end Betelgeuse
