/-
The guard of `page_unmap`.

The mapping base is an address of the upper half, with its sign extension, but the
other bound of the guard is the start of the last PML4 slot without it.  So the guard
never fires (`not_inPhysicalMap`), and the mirror is protected at no address
(`guardsMirror_iff`).
-/
import Betelgeuse.PageUnmap
import Betelgeuse.UefiMirror

namespace Betelgeuse

/-- The addresses from the mapping base up to the last PML4 slot. -/
def Mirrored (offset va : UInt64) : Prop := offset ≤ va ∧ va < offsetsToAddr 511 0 0 0

namespace Machine

variable {σ : Type*} {p : Platform σ} {s : Machine σ} {start : ℕ} {va : UInt64}

/-- `page_unmap` refuses an address of the mirror, and the guard lets all other canonical
addresses pass. -/
structure GuardsMirror (p : Platform σ) (s : Machine σ) (va : UInt64) : Prop where
  inside : Mirrored s.offset va →
    (s.pageUnmap p va).code = some (-1) ∧ (s.pageUnmap p va).machine.mem = s.mem
  outside : Canonical va → ¬ Mirrored s.offset va → ¬ s.InPhysicalMap va

/-- With a mapping base of the upper half the two bounds of the guard exclude each other. -/
theorem not_inPhysicalMap (hstart : 256 ≤ start) (hlast : start ≤ 510)
    (hoffset : s.offset = offsetsToAddr (UInt64.ofNat start) 0 0 0) : ¬ s.InPhysicalMap va := by
  rintro ⟨hlow, hhigh⟩
  have hbase := @toNat_base start (by omega)
  rw [if_pos hstart, ← hoffset] at hbase
  have hbelow : va.toNat ≤ 0x0000FF8000000000 := UInt64.le_iff_toNat_le.mp hhigh
  have habove := UInt64.le_iff_toNat_le.mp hlow
  omega

/-- `page_unmap` guards the mirror at exactly the addresses outside of it. -/
theorem guardsMirror_iff (p : Platform σ) (s : Machine σ) (hstart : 256 ≤ start)
    (hlast : start ≤ 510) (hoffset : s.offset = offsetsToAddr (UInt64.ofNat start) 0 0 0)
    (va : UInt64) : GuardsMirror p s va ↔ ¬ Mirrored s.offset va := by
  have hguard : ¬ s.InPhysicalMap va := not_inPhysicalMap hstart hlast hoffset
  constructor
  · intro h hin
    have hcode := (h.inside hin).1
    rw [(pageUnmap_code hguard).1] at hcode
    cases hcode
  · exact fun hout => ⟨fun hin => absurd hin hout, fun _ _ => hguard⟩

end Machine

/-- The first address of the mirror, and an address below. -/
theorem guardsMirror_iff_emptyMachine :
    Machine.GuardsMirror freeListPlatform emptyMachine 0x400000 ∧
      ¬ Machine.GuardsMirror freeListPlatform emptyMachine 0xFFFF800000000000 := by
  have hoffset : emptyMachine.offset = offsetsToAddr (UInt64.ofNat 256) 0 0 0 := by decide
  constructor
  · refine (Machine.guardsMirror_iff _ _ (by decide) (by decide) hoffset _).mpr fun h => ?_
    exact absurd h.1 (by decide)
  · intro h
    exact (Machine.guardsMirror_iff _ _ (by decide) (by decide) hoffset _).mp h
      ⟨by decide, by decide⟩

/-- The mirror is not protected. -/
theorem guardsMirror_fails :
    ¬ ∀ (s : Machine FreeList) (start : ℕ), 256 ≤ start → start ≤ 510 →
      s.offset = offsetsToAddr (UInt64.ofNat start) 0 0 0 →
      ∀ va, Machine.GuardsMirror freeListPlatform s va := by
  intro h
  have hcode := ((h emptyMachine 256 (by decide) (by decide) (by decide)
    0xFFFF800000000000).inside ⟨by decide, by decide⟩).1
  rw [(Machine.pageUnmap_code (by decide)).1] at hcode
  cases hcode

end Betelgeuse
