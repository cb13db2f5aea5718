/-
`memmove` and `memcpy` (`libc/string/memmove.c`, `libc/string/memcpy.c`).

Memory is a function from addresses to bytes, and a `Ram` also keeps the addresses that
were read and written.  `memmove` copies upwards if the target is below the source and
downwards otherwise; each way a byte of the source is read before it is overwritten
(`up_unread`, `down_unread`), so that whatever the overlap is, the bytes of before arrive
(`memmove_copies`).

`memcpy` has the index `len` in place of `i`, so it copies a byte behind the two ranges
again and again, and agrees with `memmove` if there is nothing to copy
(`memcpy_agrees_iff`).
-/
import Betelgeuse.MemoryCopy
import Betelgeuse.WhileLoop
import Mathlib.Data.UInt

open WhileLoop MemoryCopy

namespace Betelgeuse

namespace StringCopy

/-! ### The functions -/

/-- Memory, byte by byte. -/
abbrev Memory := UInt64 → UInt8

/-- The memory, and the addresses that were read and written. -/
structure Ram where
  mem : Memory
  reads : List UInt64
  writes : List UInt64

/-- The memory before the first access. -/
def Ram.start (mem : Memory) : Ram := ⟨mem, [], []⟩

/-- `*dest = *source`. -/
def Ram.copyByte (ram : Ram) (dest source : UInt64) : Ram where
  mem := Function.update ram.mem dest (ram.mem source)
  reads := source :: ram.reads
  writes := dest :: ram.writes

/-- A loop over the bytes: its index and the memory. -/
structure Round where
  i : UInt64
  ram : Ram

/-- The loop of `memmove` for a target below the source. -/
def moveUp (dest source len : UInt64) : ℕ → Round → Except Unit Round :=
  loop (fun s => s.i < len)
    (fun s => .ok ⟨s.i + 1, s.ram.copyByte (dest + s.i) (source + s.i)⟩) ()

/-- The loop of `memmove` for the other targets. -/
def moveDown (dest source : UInt64) : ℕ → Round → Except Unit Round :=
  loop (fun s => s.i ≠ 0)
    (fun s => .ok ⟨s.i - 1, s.ram.copyByte (dest + (s.i - 1)) (source + (s.i - 1))⟩) ()

/-- `memmove`: the returned pointer and the memory. -/
def memmove (fuel : ℕ) (dest source len : UInt64) (ram : Ram) : Except Unit (UInt64 × Ram) := do
  if dest < source then
    let s ← moveUp dest source len fuel ⟨0, ram⟩
    return (dest, s.ram)
  else
    let s ← moveDown dest source fuel ⟨len, ram⟩
    return (dest, s.ram)

/-- The loop of `memcpy`. -/
def copyLoop (dest source len : UInt64) : ℕ → Round → Except Unit Round :=
  loop (fun s => s.i < len)
    (fun s => .ok ⟨s.i + 1, s.ram.copyByte (dest + len) (source + len)⟩) ()

/-- `memcpy`. -/
def memcpy (fuel : ℕ) (dest source len : UInt64) (ram : Ram) : Except Unit (UInt64 × Ram) := do
  let s ← copyLoop dest source len fuel ⟨0, ram⟩
  return (dest, s.ram)

/-! ### Ranges -/

/-- The range does not wrap. -/
def Fits (start len : UInt64) : Prop := start.toNat + len.toNat ≤ 2 ^ 64

instance (start len : UInt64) : Decidable (Fits start len) := inferInstanceAs (Decidable (_ ≤ _))

/-- The address is in the range. -/
def InRange (a start len : UInt64) : Prop :=
  start.toNat ≤ a.toNat ∧ a.toNat < start.toNat + len.toNat

/-- The bytes of the source of before are in the target, and the others are unchanged. -/
structure Moved (mem mem' : Memory) (dest source len : UInt64) : Prop where
  moved : ∀ i < len, mem' (dest + i) = mem (source + i)
  unchanged : ∀ a, ¬ InRange a dest len → mem' a = mem a

/-- The `i`-th address of a range. -/
def cell (start : UInt64) (i : ℕ) : UInt64 := start + UInt64.ofNat i

section Cell

variable {start dest source len a : UInt64} {i j : ℕ}

theorem add_eq_cell (start i : UInt64) : start + i = cell start i.toNat := by
  rw [cell, UInt64.ofNat_toNat]

/-- The addresses of a range that does not wrap. -/
theorem toNat_cell (h : Fits start len) (hi : i < len.toNat) :
    (cell start i).toNat = start.toNat + i := by
  unfold Fits at h
  have hsize : i < UInt64.size := hi.trans len.toNat_lt
  rw [cell, UInt64.toNat_add, UInt64.toNat_ofNat_of_lt' hsize, Nat.mod_eq_of_lt (by omega)]

theorem cell_ne (h : Fits start len) (hi : i < len.toNat) (hj : j < len.toNat) (hne : j ≠ i) :
    cell start j ≠ cell start i := by
  intro heq
  have hnat := congrArg UInt64.toNat heq
  rw [toNat_cell h hi, toNat_cell h hj] at hnat
  omega

/-- On the way up the bytes that were written are below the one that is read. -/
theorem up_unread (hdest : Fits dest len) (hsource : Fits source len) (hlt : dest < source)
    (hi : i < len.toNat) (hj : j < i) : cell source i ≠ cell dest j := by
  intro heq
  have hnat := congrArg UInt64.toNat heq
  rw [toNat_cell hsource hi, toNat_cell hdest (hj.trans hi)] at hnat
  have hlt := UInt64.lt_iff_toNat_lt.mp hlt
  omega

/-- On the way down they are above it. -/
theorem down_unread (hdest : Fits dest len) (hsource : Fits source len) (hle : ¬ dest < source)
    (hj : j < len.toNat) (hij : i < j) : cell source i ≠ cell dest j := by
  intro heq
  have hnat := congrArg UInt64.toNat heq
  rw [toNat_cell hsource (hij.trans hj), toNat_cell hdest hj] at hnat
  have hle := mt UInt64.lt_iff_toNat_lt.mpr hle
  omega

theorem moved_of_copied {mem mem' : Memory} (hdest : Fits dest len)
    (h : Copied mem mem' (cell dest) (cell source) 0 len.toNat) :
    Moved mem mem' dest source len where
  moved i hi := by
    rw [add_eq_cell, add_eq_cell]
    exact h.copied i.toNat (Nat.zero_le _) (UInt64.lt_iff_toNat_lt.mp hi)
  unchanged a ha := h.unchanged a fun i _ hi heq => ha <| by
    rw [heq, InRange, toNat_cell hdest hi]
    exact ⟨Nat.le_add_right _ _, Nat.add_lt_add_left hi _⟩

end Cell

/-! ### `memmove` -/

section Move

variable {dest source len : UInt64}

/-- The loop upwards: behind each round the first `i` bytes are copied. -/
theorem moveUp_yields (hdest : Fits dest len) (hsource : Fits source len) (hlt : dest < source)
    (ram : Ram) : ∃ s, Yields (fun n => moveUp dest source len n ⟨0, ram⟩) s ∧
      Copied ram.mem s.ram.mem (cell dest) (cell source) 0 len.toNat := by
  obtain ⟨s, hs, ⟨hle, hcopied⟩, hend⟩ := loop_yields
    (c := fun s : Round => s.i < len)
    (b := fun s => .ok ⟨s.i + 1, s.ram.copyByte (dest + s.i) (source + s.i)⟩) ()
    (fun s => s.i.toNat ≤ len.toNat ∧
      Copied ram.mem s.ram.mem (cell dest) (cell source) 0 s.i.toNat)
    (fun s => len.toNat - s.i.toNat) (s := ⟨0, ram⟩)
    ⟨Nat.zero_le _, Copied.refl _ _ _ _⟩ fun s hs hc => by
      obtain ⟨hle, hcopied⟩ := hs
      have hi := UInt64.lt_iff_toNat_lt.mp hc
      have hlen := len.toNat_lt
      have hnext : (s.i + 1).toNat = s.i.toNat + 1 := by
        rw [UInt64.toNat_add, UInt64.toNat_one, Nat.mod_eq_of_lt (by omega)]
      refine ⟨_, rfl, ⟨hnext.trans_le hi, ?_⟩, ?_⟩
      · rw [hnext]
        simp only [Ram.copyByte, add_eq_cell]
        exact hcopied.push (Nat.zero_le _) (fun j _ hj => cell_ne hdest hi (hj.trans hi) hj.ne)
          fun j _ hj => up_unread hdest hsource hlt hi hj
      · rw [hnext]
        omega
  have heq : s.i.toNat = len.toNat := by
    have hge := mt UInt64.lt_iff_toNat_lt.mpr hend
    omega
  exact ⟨s, hs, heq ▸ hcopied⟩

/-- The loop downwards: behind each round the bytes from `i` on are copied. -/
theorem moveDown_yields (hdest : Fits dest len) (hsource : Fits source len)
    (hle : ¬ dest < source) (ram : Ram) :
    ∃ s, Yields (fun n => moveDown dest source n ⟨len, ram⟩) s ∧
      Copied ram.mem s.ram.mem (cell dest) (cell source) 0 len.toNat := by
  obtain ⟨s, hs, ⟨-, hcopied⟩, hend⟩ := loop_yields
    (c := fun s : Round => s.i ≠ 0)
    (b := fun s => .ok ⟨s.i - 1, s.ram.copyByte (dest + (s.i - 1)) (source + (s.i - 1))⟩) ()
    (fun s => s.i.toNat ≤ len.toNat ∧
      Copied ram.mem s.ram.mem (cell dest) (cell source) s.i.toNat len.toNat)
    (fun s => s.i.toNat) (s := ⟨len, ram⟩)
    ⟨le_rfl, Copied.refl _ _ _ _⟩ fun s hs hc => by
      obtain ⟨hlen, hcopied⟩ := hs
      obtain ⟨i, hi⟩ : ∃ i, s.i.toNat = i + 1 :=
        Nat.exists_eq_succ_of_ne_zero fun hzero => hc (UInt64.toNat_inj.mp hzero)
      have hnext : (s.i - 1).toNat = i := by
        rw [UInt64.toNat_sub_of_le _ _ (UInt64.le_iff_toNat_le.mpr (by simp; omega)),
          UInt64.toNat_one]
        omega
      refine ⟨_, rfl, ⟨by rw [hnext]; omega, ?_⟩, by rw [hnext]; omega⟩
      rw [hi] at hcopied
      simp only [Ram.copyByte, add_eq_cell, hnext]
      exact hcopied.cons (by omega)
        (fun j hij hj => cell_ne hdest (hij.trans hj) hj hij.ne')
        fun j hij hj => down_unread hdest hsource hle hj hij
  have hzero : s.i.toNat = 0 := by rw [not_not.mp hend]; rfl
  exact ⟨s, hs, hzero ▸ hcopied⟩

/-- `memmove` ends, and the bytes of before arrive. -/
theorem memmove_yields (hdest : Fits dest len) (hsource : Fits source len) (ram : Ram) :
    ∃ ram', Yields (fun n => memmove n dest source len ram) (dest, ram') ∧
      Copied ram.mem ram'.mem (cell dest) (cell source) 0 len.toNat := by
  by_cases hlt : dest < source
  · obtain ⟨s, ⟨n, hn⟩, hcopied⟩ := moveUp_yields hdest hsource hlt ram
    refine ⟨s.ram, ⟨n, ?_⟩, hcopied⟩
    simp only [memmove, if_pos hlt]
    exact bind_eq_ok.mpr ⟨s, hn, rfl⟩
  · obtain ⟨s, ⟨n, hn⟩, hcopied⟩ := moveDown_yields hdest hsource hlt ram
    refine ⟨s.ram, ⟨n, ?_⟩, hcopied⟩
    simp only [memmove, if_neg hlt]
    exact bind_eq_ok.mpr ⟨s, hn, rfl⟩

theorem memmove_copies (mem : Memory) (hdest : Fits dest len) (hsource : Fits source len) :
    ∃ ram, Yields (fun n => memmove n dest source len (Ram.start mem)) (dest, ram) ∧
      Moved mem ram.mem dest source len := by
  obtain ⟨ram, hyields, hcopied⟩ := memmove_yields hdest hsource (Ram.start mem)
  exact ⟨ram, hyields, moved_of_copied hdest hcopied⟩

/-- Three bytes that move up by one. -/
theorem memmove_copies_overlap :
    ∃ ram, Yields (fun n => memmove n 1 0 3 (Ram.start UInt64.toUInt8)) (1, ram) ∧
      Moved UInt64.toUInt8 ram.mem 1 0 3 :=
  memmove_copies UInt64.toUInt8 (by decide) (by decide)

end Move

/-! ### `memcpy` -/

/-- The call copies the bytes with the memory of `memmove` behind it, reads in the source
only, and writes in the target only. -/
def AgreesWithMemmove (mem : Memory) (dest source len : UInt64) : Prop :=
  ∃ ram moved,
    Yields (fun n => memcpy n dest source len (Ram.start mem)) (dest, ram) ∧
    Yields (fun n => memmove n dest source len (Ram.start mem)) (dest, moved) ∧
    ram.mem = moved.mem ∧ Moved mem ram.mem dest source len ∧
    (∀ a ∈ ram.reads, InRange a source len) ∧ ∀ a ∈ ram.writes, InRange a dest len

section Copy

variable {dest source len : UInt64}

/-- The byte behind the target is not in it. -/
theorem not_inRange_behind (hlen : len ≠ 0) : ¬ InRange (dest + len) dest len := by
  rintro ⟨hge, hlt⟩
  have hpos : len.toNat ≠ 0 := fun hzero => hlen (UInt64.toNat_inj.mp hzero)
  have hdest := dest.toNat_lt
  have hlt' := len.toNat_lt
  rw [UInt64.toNat_add] at hge hlt
  omega

/-- If there is something to copy, the byte behind the target is written. -/
theorem mem_writes_of_memcpy (hlen : len ≠ 0) {ram ram' : Ram} {p : UInt64} {n : ℕ}
    (h : memcpy n dest source len ram = .ok (p, ram')) : dest + len ∈ ram'.writes := by
  obtain ⟨s, hloop, hs⟩ := bind_eq_ok.mp h
  obtain ⟨-, rfl⟩ := Prod.mk.inj (Except.ok.inj hs)
  obtain ⟨hwrites, hend⟩ := loop_invariant
    (fun s : Round => s.i = 0 ∨ dest + len ∈ s.ram.writes) (.inl rfl)
    (fun s s' _ _ hround => by
      obtain rfl := Except.ok.inj hround
      exact .inr List.mem_cons_self) hloop
  refine hwrites.resolve_left fun hzero => hend ?_
  rw [hzero]
  exact UInt64.pos_iff_ne_zero.mpr hlen

/-- No other byte is. -/
theorem mem_memcpy_of_ne {ram ram' : Ram} {p a : UInt64} {n : ℕ}
    (h : memcpy n dest source len ram = .ok (p, ram')) (ha : a ≠ dest + len) :
    ram'.mem a = ram.mem a := by
  obtain ⟨s, hloop, hs⟩ := bind_eq_ok.mp h
  obtain ⟨-, rfl⟩ := Prod.mk.inj (Except.ok.inj hs)
  refine (loop_invariant (fun s : Round => s.ram.mem a = ram.mem a) rfl (fun s s' hs _ hround => ?_)
    hloop).1
  obtain rfl := Except.ok.inj hround
  exact (Function.update_of_ne ha ..).trans hs

/-- Without anything to copy neither function touches the memory. -/
theorem agreesWithMemmove_zero (mem : Memory) (dest source : UInt64) :
    AgreesWithMemmove mem dest source 0 := by
  have hmove : Yields (fun n => memmove n dest source 0 (Ram.start mem)) (dest, Ram.start mem) := by
    by_cases hlt : dest < source
    · exact ⟨1, by simp only [memmove, if_pos hlt]; rfl⟩
    · exact ⟨1, by simp only [memmove, if_neg hlt]; rfl⟩
  refine ⟨Ram.start mem, Ram.start mem, ⟨1, rfl⟩, hmove, rfl, ⟨?_, fun _ _ => rfl⟩, nofun, nofun⟩
  intro i hi
  exact absurd hi (UInt64.not_lt_zero)

/-- `memcpy` does what `memmove` does if and only if there is nothing to copy. -/
theorem memcpy_agrees_iff (mem : Memory) (dest source len : UInt64) :
    AgreesWithMemmove mem dest source len ↔ len = 0 := by
  constructor
  · rintro ⟨ram, moved, ⟨n, hn⟩, -, -, -, -, hwrites⟩
    by_contra hlen
    exact not_inRange_behind hlen (hwrites _ (mem_writes_of_memcpy hlen hn))
  · rintro rfl
    exact agreesWithMemmove_zero mem dest source

/-- One byte from 2 to 0: the byte at 3 goes to 1, and the one at 0 stays as it is. -/
theorem memcpy_agrees_fails :
    ¬ ∀ (mem : Memory) (dest source len : UInt64), Fits dest len → Fits source len →
      (∀ a, InRange a dest len → ¬ InRange a source len) →
      AgreesWithMemmove mem dest source len := by
  intro h
  have hdisjoint : ∀ a : UInt64, InRange a 0 1 → ¬ InRange a 2 1 := by
    intro a hdest hsource
    have hlt : a.toNat < 1 := hdest.2
    have hge : 2 ≤ a.toNat := hsource.1
    omega
  obtain ⟨ram, -, ⟨n, hn⟩, -, -, hmoved, -, -⟩ := h UInt64.toUInt8 0 2 1 (by decide) (by decide)
    hdisjoint
  have hbyte : ram.mem 0 = 2 := hmoved.moved 0 (by decide)
  have hsame : ram.mem 0 = 0 := mem_memcpy_of_ne hn (by decide)
  rw [hsame] at hbyte
  exact absurd hbyte (by decide)

end Copy

end StringCopy

end Betelgeuse
