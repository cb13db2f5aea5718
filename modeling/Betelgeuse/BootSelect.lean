/-
Where the boot bitmap comes to lie.

`select_spec`: the first loop finds the first of the smallest usable descriptors
of at least 32 pages (`BestFit`), and leaves the memory map as it is.
`select_smallest` says so for a map whose descriptors are not too large to be
chosen, and what the map is when the second loop starts.
-/
import Betelgeuse.BootBitmap
import Mathlib.Data.List.Basic

namespace Betelgeuse

namespace BootTable

variable {bt : BootTable}

/-- A descriptor that can hold the bitmap. -/
def Candidate (d : EfiMemoryDescriptor) : Prop :=
  Usable d.type ∧ d.numberOfPages ≥ requiredPages ∧ d.numberOfPages < uint64Max

instance (d : EfiMemoryDescriptor) : Decidable (Candidate d) :=
  inferInstanceAs (Decidable (_ ∧ _))

/-- Descriptor `k`, one of the first `n`, is the first of the smallest candidates
among them. -/
structure BestFitUpTo (bt : BootTable) (n k : ℕ) (d : EfiMemoryDescriptor) : Prop where
  get : bt.memTable[k]? = some d
  lt : k < n
  candidate : Candidate d
  smallest : ∀ j e, j < n → bt.memTable[j]? = some e → Candidate e →
    d.numberOfPages ≤ e.numberOfPages
  first : ∀ j e, j < k → bt.memTable[j]? = some e → Candidate e →
    d.numberOfPages < e.numberOfPages

/-- Descriptor `k` is the first of the smallest candidates. -/
abbrev BestFit (bt : BootTable) (k : ℕ) (d : EfiMemoryDescriptor) : Prop :=
  bt.BestFitUpTo bt.memTable.length k d

/-- The state of the first loop after `n` rounds. -/
structure SelectInv (bt : BootTable) (n : ℕ) (s : Selection) : Prop where
  mmap : s.mmap = bt.memTable
  fontBuffer : s.fontBuffer = false
  kernel : s.kernel = false
  found : s.reservedPages = uint64Max ∧ (∀ j e, j < n → bt.memTable[j]? = some e → ¬ Candidate e) ∨
    ∃ d, bt.BestFitUpTo n s.reservedIndex d ∧ s.reservedPages = d.numberOfPages ∧
      s.pageBitmap = d.physicalStart

/-- A descriptor that is smaller than the one chosen so far is smaller than all candidates before
it. -/
theorem SelectInv.lt_of_candidate {n : ℕ} {s : Selection} (h : bt.SelectInv n s) {pages : UInt64}
    (hless : pages < s.reservedPages) {j : ℕ} {e : EfiMemoryDescriptor} (hj : j < n)
    (he : bt.memTable[j]? = some e) (hcand : Candidate e) : pages < e.numberOfPages := by
  rcases h.found with ⟨-, hnone⟩ | ⟨d₀, hbest, hpages, -⟩
  · exact absurd hcand (hnone j e hj he)
  · rw [hpages] at hless
    exact UInt64.lt_of_lt_of_le hless (hbest.smallest j e hj he hcand)

theorem SelectInv.step {n : ℕ} {s : Selection} (h : bt.SelectInv n s) {d : EfiMemoryDescriptor}
    (hd : bt.memTable[n]? = some d) : bt.SelectInv (n + 1) (bt.selectStep s n) := by
  have hget : s.mmap[n]? = some d := by rw [h.mmap, hd]
  have hset : s.mmap.set n d = bt.memTable := by
    rw [h.mmap]
    obtain ⟨hlt, rfl⟩ := List.getElem?_eq_some_iff.mp hd
    exact List.set_getElem_self hlt
  -- a descriptor among the first `n + 1` is `d` or among the first `n`
  have hlast : ∀ j e, j < n + 1 → bt.memTable[j]? = some e → j < n ∨ e = d := by
    intro j e hj he
    rcases Nat.lt_succ_iff_lt_or_eq.mp hj with hj | rfl
    · exact .inl hj
    · exact .inr (Option.some.inj (he.symm.trans hd))
  have hbody : bt.selectStep s n =
      if Usable d.type ∧ d.numberOfPages ≥ requiredPages ∧ d.numberOfPages < s.reservedPages then
        { s with
          mmap := bt.memTable, pageBitmap := d.physicalStart, reservedPages := d.numberOfPages,
          reservedIndex := n }
      else { s with mmap := bt.memTable } := by
    simp [selectStep, hget, h.fontBuffer, h.kernel, hset]
  rw [hbody]
  split
  · rename_i hfits
    obtain ⟨huse, hreq, hless⟩ := hfits
    have hle : s.reservedPages ≤ uint64Max := by
      rw [UInt64.le_iff_toNat_le]
      exact Nat.le_of_lt_succ s.reservedPages.toNat_lt
    refine ⟨rfl, h.fontBuffer, h.kernel, .inr ⟨d, ⟨hd, Nat.lt_succ_self n, ⟨huse, hreq,
      UInt64.lt_of_lt_of_le hless hle⟩, fun j e hj he hcand => ?_, fun j e hj he hcand => ?_⟩,
      rfl, rfl⟩⟩
    · rcases hlast j e hj he with hj | rfl
      · exact UInt64.le_of_lt (h.lt_of_candidate hless hj he hcand)
      · exact UInt64.le_refl _
    · exact h.lt_of_candidate hless hj he hcand
  · rename_i hfits
    refine ⟨rfl, h.fontBuffer, h.kernel, ?_⟩
    rcases h.found with ⟨hpages, hnone⟩ | ⟨d₀, hbest, hpages, hplace⟩
    · refine .inl ⟨hpages, fun j e hj he hcand => ?_⟩
      rcases hlast j e hj he with hj | rfl
      · exact hnone j e hj he hcand
      · exact hfits ⟨hcand.1, hcand.2.1, hpages ▸ hcand.2.2⟩
    · refine .inr ⟨d₀, ⟨hbest.get, Nat.lt_succ_of_lt hbest.lt, hbest.candidate,
        fun j e hj he hcand => ?_, hbest.first⟩, hpages, hplace⟩
      rcases hlast j e hj he with hj | rfl
      · exact hbest.smallest j e hj he hcand
      · rw [← hpages]
        exact UInt64.not_lt.mp fun hlt => hfits ⟨hcand.1, hcand.2.1, hlt⟩

theorem select_inv (bt : BootTable) : bt.SelectInv bt.memTable.length bt.select := by
  have hloop : ∀ n ≤ bt.memTable.length, bt.SelectInv n ((List.range n).foldl bt.selectStep
      { mmap := bt.memTable, fontBuffer := false, kernel := false, pageBitmap := 0,
        reservedPages := uint64Max, reservedIndex := 0 }) := by
    intro n
    induction n with
    | zero => exact fun _ => ⟨rfl, rfl, rfl, .inl ⟨rfl, fun j e hj => by omega⟩⟩
    | succ n ih =>
      intro hn
      rw [List.range_succ, List.foldl_append, List.foldl_cons, List.foldl_nil]
      exact (ih (by omega)).step (List.getElem?_eq_getElem (by omega))
  exact hloop _ (Nat.le_refl _)

/-- The first loop finds the best fit, if there is a candidate. -/
theorem select_spec (bt : BootTable) :
    bt.select.mmap = bt.memTable ∧
      (bt.select.reservedPages = uint64Max ∧ (∀ d ∈ bt.memTable, ¬ Candidate d) ∨
        bt.select.reservedPages ≠ uint64Max ∧
          ∃ d, bt.BestFit bt.select.reservedIndex d ∧ bt.select.pageBitmap = d.physicalStart) := by
  have h := bt.select_inv
  refine ⟨h.mmap, ?_⟩
  rcases h.found with ⟨hpages, hnone⟩ | ⟨d, hbest, hpages, hplace⟩
  · refine .inl ⟨hpages, fun d hd => ?_⟩
    obtain ⟨j, hj, hget⟩ := List.mem_iff_getElem.mp hd
    exact hnone j d hj (List.getElem?_eq_some_iff.mpr ⟨hj, hget⟩)
  · refine .inr ⟨?_, d, hbest, hplace⟩
    rw [hpages]
    exact UInt64.ne_of_lt hbest.candidate.2.2

/-- A usable descriptor of at least 32 pages. -/
def HasRoom (d : EfiMemoryDescriptor) : Prop :=
  Usable d.type ∧ d.numberOfPages ≥ requiredPages

theorem candidate_iff_hasRoom {d : EfiMemoryDescriptor} (h : d.numberOfPages < uint64Max) :
    Candidate d ↔ HasRoom d :=
  ⟨fun hd => ⟨hd.1, hd.2.1⟩, fun hd => ⟨hd.1, hd.2, h⟩⟩

theorem reserve_get {s : Selection} {d : EfiMemoryDescriptor}
    (hd : s.mmap[s.reservedIndex]? = some d) :
    (reserve s)[s.reservedIndex]? = some { d with type := 0x11 } := by
  rw [reserve, List.getElem?_modify_eq, hd]
  rfl

theorem reserve_get_ne {s : Selection} {j : ℕ} (hj : j ≠ s.reservedIndex) :
    (reserve s)[j]? = s.mmap[j]? :=
  List.getElem?_modify_ne _ _ (Ne.symm hj)

/-- The place of the bitmap is a best fit: there is none if and only if no usable descriptor
has 32 pages; else it is the first of the smallest of these, and its type is the only thing
that changes. -/
theorem select_smallest (bt : BootTable)
    (hpages : ∀ d ∈ bt.memTable, d.numberOfPages < uint64Max) :
    (bt.select.reservedPages = uint64Max ↔ ∀ d ∈ bt.memTable, ¬ HasRoom d) ∧
    bt.select.mmap = bt.memTable ∧
    (bt.select.reservedPages ≠ uint64Max →
      ∃ d, bt.memTable[bt.select.reservedIndex]? = some d ∧ HasRoom d ∧
        bt.select.reservedPages = d.numberOfPages ∧
        (∀ e ∈ bt.memTable, HasRoom e → d.numberOfPages ≤ e.numberOfPages) ∧
        (∀ j e, j < bt.select.reservedIndex → bt.memTable[j]? = some e → HasRoom e →
          d.numberOfPages < e.numberOfPages) ∧
        bt.select.pageBitmap = d.physicalStart ∧
        (reserve bt.select)[bt.select.reservedIndex]? = some { d with type := 0x11 } ∧
        ∀ j, j ≠ bt.select.reservedIndex → (reserve bt.select)[j]? = bt.memTable[j]?) := by
  have hinv := bt.select_inv
  -- the code's test is that for room, as no descriptor has as many pages as its first value
  have hcand : ∀ {d}, d ∈ bt.memTable → (Candidate d ↔ HasRoom d) := fun hd =>
    candidate_iff_hasRoom (hpages _ hd)
  have hmem : ∀ {j d}, bt.memTable[j]? = some d → d ∈ bt.memTable := List.mem_of_getElem?
  have hlt : ∀ {j d}, bt.memTable[j]? = some d → j < bt.memTable.length := fun hj =>
    (List.getElem?_eq_some_iff.mp hj).1
  rcases hinv.found with ⟨hmax, hnone⟩ | ⟨d, hbest, hsize, hplace⟩
  · have hroom : ∀ d ∈ bt.memTable, ¬ HasRoom d := by
      intro d hd
      obtain ⟨j, hj⟩ := List.mem_iff_getElem?.mp hd
      exact fun h => hnone j d (hlt hj) hj ((hcand hd).mpr h)
    exact ⟨iff_of_true hmax hroom, hinv.mmap, fun h => absurd hmax h⟩
  · have hd : HasRoom d := (hcand (hmem hbest.get)).mp hbest.candidate
    have hmax : bt.select.reservedPages ≠ uint64Max :=
      hsize ▸ UInt64.ne_of_lt hbest.candidate.2.2
    refine ⟨iff_of_false hmax fun h => h d (hmem hbest.get) hd, hinv.mmap, fun _ =>
      ⟨d, hbest.get, hd, hsize, fun e he hroom => ?_, fun j e hj he hroom => ?_, hplace,
        reserve_get (hinv.mmap ▸ hbest.get), fun j hj => ?_⟩⟩
    · obtain ⟨j, hj⟩ := List.mem_iff_getElem?.mp he
      exact hbest.smallest j e (hlt hj) hj ((hcand he).mpr hroom)
    · exact hbest.first j e hj he ((hcand (hmem he)).mpr hroom)
    · rw [reserve_get_ne hj, hinv.mmap]

/-- Three usable descriptors, the second of them too small and the first too large. -/
def mapOfThree : BootTable where
  memTablePointer := 0x1000
  memDescSize := 48
  memTable := [
    { type := 7, physicalStart := 0x100000, numberOfPages := 64 },
    { type := 7, physicalStart := 0x200000, numberOfPages := 31 },
    { type := 4, physicalStart := 0x300000, numberOfPages := 40 }]
  mappingBase := 0xFFFF800000000000
  fontPointer := 0x2000
  kernelStartPointer := 0x3000
  kernelPageCount := 16
  pml4Pointer := 0x4000
  usedMappingPageCount := 4

theorem select_smallest_mapOfThree :
    (∀ d ∈ mapOfThree.memTable, d.numberOfPages < uint64Max) ∧
    mapOfThree.select.reservedPages ≠ uint64Max ∧
    ∃ d, mapOfThree.memTable[mapOfThree.select.reservedIndex]? = some d ∧ HasRoom d := by
  have hpages : ∀ d ∈ mapOfThree.memTable, d.numberOfPages < uint64Max := by decide
  have hmax : mapOfThree.select.reservedPages ≠ uint64Max := by decide
  obtain ⟨d, hget, hroom, -⟩ := (mapOfThree.select_smallest hpages).2.2 hmax
  exact ⟨hpages, hmax, d, hget, hroom⟩

/-- There is one best fit only. -/
theorem BestFitUpTo.unique {n k k' : ℕ} {d d' : EfiMemoryDescriptor} (h : bt.BestFitUpTo n k d)
    (h' : bt.BestFitUpTo n k' d') : k = k' ∧ d = d' := by
  have hk : k = k' := by
    rcases Nat.lt_trichotomy k k' with hlt | heq | hlt
    · have h₁ := h'.first k d hlt h.get h.candidate
      have h₂ := h.smallest k' d' h'.lt h'.get h'.candidate
      exact absurd h₁ (UInt64.not_lt.mpr h₂)
    · exact heq
    · have h₁ := h.first k' d' hlt h'.get h'.candidate
      have h₂ := h'.smallest k d h.lt h.get h.candidate
      exact absurd h₁ (UInt64.not_lt.mpr h₂)
  subst hk
  exact ⟨rfl, Option.some.inj (h.get.symm.trans h'.get)⟩

/-- There is a best fit as soon as there is a candidate. -/
theorem exists_bestFit {d : EfiMemoryDescriptor} (hd : d ∈ bt.memTable) (hcand : Candidate d) :
    ∃ k d', bt.BestFit k d' := by
  obtain ⟨-, ⟨-, hnone⟩ | ⟨-, d', hbest, -⟩⟩ := bt.select_spec
  · exact absurd hcand (hnone d hd)
  · exact ⟨_, d', hbest⟩

theorem bestFit_select {d : EfiMemoryDescriptor} (hpages : bt.select.reservedPages ≠ uint64Max)
    (hget : bt.memTable[bt.select.reservedIndex]? = some d) :
    bt.BestFit bt.select.reservedIndex d := by
  obtain ⟨-, ⟨hnone, -⟩ | ⟨-, d', hbest, -⟩⟩ := bt.select_spec
  · exact absurd hnone hpages
  · obtain rfl := Option.some.inj (hbest.get.symm.trans hget)
    exact hbest

end BootTable

end Betelgeuse
