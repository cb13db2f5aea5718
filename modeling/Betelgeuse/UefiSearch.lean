/-
The search for the page tables in the memory map (`init_virtual_mapping`, first
loop).

The loop stops at the first descriptor that starts above cr3 and takes the one in
front of it, so it relies on an order of the map that nothing checks.  With disjoint
descriptors it finds the one that holds the tables if and only if that one is the
last of those in front of the first higher start (`findsTables_iff`).
-/
import Betelgeuse.UefiMem

namespace Betelgeuse

/-- The bytes of a descriptor. -/
def EfiMemoryDescriptor.Contains (d : EfiMemoryDescriptor) (addr : ℕ) : Prop :=
  d.physicalStart.toNat ≤ addr ∧ addr < d.physicalStart.toNat + 0x1000 * d.numberOfPages.toNat

instance (d : EfiMemoryDescriptor) (addr : ℕ) : Decidable (d.Contains addr) :=
  inferInstanceAs (Decidable (_ ∧ _))

/-- No byte belongs to two descriptors of the map. -/
def DisjointMap (memMap : List UefiDescriptor) : Prop :=
  memMap.Pairwise fun d e => ∀ addr, ¬ (d.Contains addr ∧ e.Contains addr)

/-- The loop ends with `src_addr` and `pml4_page_count` those of `d`. -/
def FindsTables (memMap : List UefiDescriptor) (cr3 : UInt64) (d : UefiDescriptor) : Prop :=
  ∃ e, findTables memMap cr3 = .ok e ∧
    e.physicalStart = d.physicalStart ∧ e.numberOfPages = d.numberOfPages

variable {memMap : List UefiDescriptor} {cr3 : UInt64}

/-- In a disjoint map a byte is in one place only. -/
theorem DisjointMap.index_unique (h : DisjointMap memMap) {i j addr : ℕ} {d e : UefiDescriptor}
    (hi : memMap[i]? = some d) (hj : memMap[j]? = some e) (hd : d.Contains addr)
    (he : e.Contains addr) : i = j := by
  obtain ⟨hilt, rfl⟩ := List.getElem?_eq_some_iff.mp hi
  obtain ⟨hjlt, rfl⟩ := List.getElem?_eq_some_iff.mp hj
  rcases Nat.lt_trichotomy i j with hlt | heq | hlt
  · exact absurd ⟨hd, he⟩ (List.pairwise_iff_getElem.mp h i j hilt hjlt hlt addr)
  · exact heq
  · exact absurd ⟨he, hd⟩ (List.pairwise_iff_getElem.mp h j i hjlt hilt hlt addr)

/-- The descriptor in front of the first one above cr3, by its index. -/
theorem findTables_ok_iff {d : UefiDescriptor} :
    findTables memMap cr3 = .ok d ↔
      ∃ i e, memMap[i]? = some d ∧ memMap[i + 1]? = some e ∧ cr3 < e.physicalStart ∧
        ∀ j ≤ i, ∀ x, memMap[j]? = some x → x.physicalStart ≤ cr3 := by
  -- the descriptor in front of the first one that starts above the tables
  have hfirst : ∀ n, memMap.findIdx? (fun d => d.physicalStart > cr3) = some n ↔
      ∃ e, memMap[n]? = some e ∧ cr3 < e.physicalStart ∧
        ∀ j < n, ∀ x, memMap[j]? = some x → x.physicalStart ≤ cr3 := by
    intro n
    rw [List.findIdx?_eq_some_iff_getElem]
    constructor
    · rintro ⟨hn, habove, hbelow⟩
      refine ⟨memMap[n], List.getElem?_eq_getElem hn, of_decide_eq_true habove,
        fun j hj x hx => ?_⟩
      obtain ⟨hjlt, rfl⟩ := List.getElem?_eq_some_iff.mp hx
      exact UInt64.not_lt.mp fun hlt => hbelow j hj (decide_eq_true hlt)
    · rintro ⟨e, he, habove, hbelow⟩
      obtain ⟨hn, rfl⟩ := List.getElem?_eq_some_iff.mp he
      exact ⟨hn, decide_eq_true habove, fun j hj hlt => UInt64.not_lt.mpr
        (hbelow j hj _ (List.getElem?_eq_getElem (hj.trans hn))) (of_decide_eq_true hlt)⟩
  unfold findTables
  constructor
  · intro h
    split at h
    · cases h
    · rename_i i hi
      obtain ⟨e, he, habove, hbelow⟩ := (hfirst (i + 1)).mp hi
      have hlt : i < memMap.length :=
        Nat.lt_of_succ_lt (List.getElem?_eq_some_iff.mp he).1
      rw [List.getElem?_eq_getElem hlt] at h
      obtain rfl := Except.ok.inj h
      exact ⟨i, e, List.getElem?_eq_getElem hlt, he, habove, fun j hj =>
        hbelow j (Nat.lt_succ_of_le hj)⟩
    · split at h <;> cases h
  · rintro ⟨i, e, hd, he, habove, hbelow⟩
    rw [(hfirst (i + 1)).mpr ⟨e, he, habove, fun j hj => hbelow j (Nat.le_of_lt_succ hj)⟩]
    simp only [hd]

/-- The tables are found if and only if the next descriptor is the first to start above cr3. -/
theorem findsTables_iff (hdisj : DisjointMap memMap) {k : ℕ} {d : UefiDescriptor}
    (hd : memMap[k]? = some d) (hcontains : d.Contains (cr3 &&& addrMask).toNat) :
    FindsTables memMap cr3 d ↔
      (∃ e, memMap[k + 1]? = some e ∧ cr3 < e.physicalStart) ∧
        ∀ j < k, ∀ x, memMap[j]? = some x → x.physicalStart ≤ cr3 := by
  have hstart : d.physicalStart ≤ cr3 := by
    rw [UInt64.le_iff_toNat_le]
    refine hcontains.1.trans ?_
    rw [UInt64.toNat_and]
    exact Nat.and_le_left
  constructor
  · rintro ⟨d', hfound, hps, hpages⟩
    obtain ⟨i, e, hi, he, habove, hbelow⟩ := findTables_ok_iff.mp hfound
    have hcontains' : d'.Contains (cr3 &&& addrMask).toNat := by
      rw [EfiMemoryDescriptor.Contains, hps, hpages]
      exact hcontains
    obtain rfl := hdisj.index_unique hi hd hcontains' hcontains
    exact ⟨⟨e, he, habove⟩, fun j hj => hbelow j hj.le⟩
  · rintro ⟨⟨e, he, habove⟩, hbelow⟩
    refine ⟨d, findTables_ok_iff.mpr ⟨k, e, hd, he, habove, fun j hj x hx => ?_⟩, rfl, rfl⟩
    rcases hj.lt_or_eq with hlt | rfl
    · exact hbelow j hlt x hx
    · obtain rfl := Option.some.inj (hx.symm.trans hd)
      exact hstart

/-- Two descriptors in ascending order. -/
def twoRegions : List UefiDescriptor := [
  { type := 7, physicalStart := 0, numberOfPages := 0x80, attributes := 0xF },
  { type := 4, physicalStart := 0x100000, numberOfPages := 0x100, attributes := 0xF }]

theorem twoRegions_disjoint : DisjointMap twoRegions := by
  refine List.Pairwise.cons (fun e he addr h => ?_) (List.pairwise_singleton _ _)
  obtain rfl := List.mem_singleton.mp he
  have hlow : addr < 0 + 0x1000 * 0x80 := h.1.2
  have hhigh : 0x100000 ≤ addr := h.2.1
  omega

theorem findsTables_iff_twoRegions :
    FindsTables twoRegions 0x1000
        { type := 7, physicalStart := 0, numberOfPages := 0x80, attributes := 0xF } ∧
      ¬ FindsTables twoRegions 0x101000
        { type := 4, physicalStart := 0x100000, numberOfPages := 0x100, attributes := 0xF } := by
  constructor
  · exact (findsTables_iff (k := 0) twoRegions_disjoint rfl (by decide)).mpr
      ⟨⟨_, rfl, by decide⟩, fun j hj => absurd hj (Nat.not_lt_zero j)⟩
  · intro h
    obtain ⟨⟨e, he, -⟩, -⟩ :=
      (findsTables_iff (k := 1) twoRegions_disjoint rfl (by decide)).mp h
    cases he

/-- The tables in the last descriptor are not found. -/
theorem findsTables_last_fails :
    ¬ ∀ (memMap : List UefiDescriptor) (cr3 : UInt64), DisjointMap memMap → ∀ d ∈ memMap,
      d.Contains (cr3 &&& addrMask).toNat → FindsTables memMap cr3 d := by
  intro h
  obtain ⟨e, he, -⟩ := h twoRegions 0x101000 twoRegions_disjoint _
    (List.mem_cons_of_mem _ (List.mem_singleton_self _)) (by decide)
  have hfound : findTables twoRegions 0x101000 = .error .notFound := by decide
  rw [hfound] at he
  cases he

end Betelgeuse
