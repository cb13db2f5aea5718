/-
Well-formed virtual maps, and what the blocks of statements do to them.

`Layout s l` says that the map `s` holds the list of slots `l`, that every
entry is page-aligned, a positive multiple of the page size and does not wrap
past `2 ^ 64`, and that each entry ends strictly below the next one.  An end
of exactly `2 ^ 64` counts as wrapped: `base_pointer + length` is 0 there.

For every block in which a call can end there is one lemma (`growUp_layout`,
`join_layout`, `growDown_layout`, `insert_layout`, `cut_layout`): under
conditions on the neighbouring entries the block ends, the map it leaves is
laid out again, and the covered addresses change by exactly one range.
-/
import Betelgeuse.VirtualMap
import Betelgeuse.RangeList
import Mathlib.Order.Interval.Set.LinearOrder
import Mathlib.Tactic.Ring

open HeapList WordBitmap RangeList

namespace Betelgeuse

/-- Rewriting 64-bit comparisons and sums into natural numbers. -/
theorem toNat_add_of_lt {a b : UInt64} (h : a.toNat + b.toNat < 2 ^ 64) :
    (a + b).toNat = a.toNat + b.toNat := by
  rw [UInt64.toNat_add]
  omega

theorem toNat_sub_of_le {a b : UInt64} (h : b.toNat ≤ a.toNat) :
    (a - b).toNat = a.toNat - b.toNat :=
  UInt64.toNat_sub_of_le _ _ (UInt64.le_iff_toNat_le.mpr h)

@[simp] theorem toNat_pageSize : pageSize.toNat = 4096 := by decide

namespace VirtualAddressMap

variable (s : VirtualAddressMap)

/-- First address of an entry. -/
def lo (t : Slot) : ℕ := (s.base t).toNat

/-- End of an entry, not reduced to 64 bits. -/
def hi (t : Slot) : ℕ := (s.base t).toNat + (s.len t).toNat

theorem lo_le_hi (t : Slot) : s.lo t ≤ s.hi t := Nat.le_add_right _ _

/-- An entry is a non-empty range of whole pages below `2 ^ 64`. -/
structure EntryOk (t : Slot) : Prop where
  aligned : s.lo t % 4096 = 0
  whole : (s.len t).toNat % 4096 = 0
  pos : 0 < (s.len t).toNat
  fits : s.hi t < 2 ^ 64

/-- The map holds the list `l` of sorted, disjoint entries that do not touch. -/
structure Layout (l : List Slot) : Prop where
  holds : s.links.Holds l
  nonempty : l ≠ []
  entry : ∀ t ∈ l, s.EntryOk t
  apart : Apart s.lo s.hi l

/-- The map is well-formed. -/
def WellFormed : Prop := ∃ l, s.Layout l

/-- The addresses in the entries on the list. -/
def addresses : Set ℕ := {a | ∃ t, s.links.OnList t ∧ s.lo t ≤ a ∧ a < s.hi t}

/-- The same with each end as the code computes it, in 64 bits. -/
def codeAddresses : Set ℕ := {a | ∃ t, s.links.OnList t ∧ s.lo t ≤ a ∧ a < (s.endOf t).toNat}

variable {s}

theorem Layout.addresses_eq {l : List Slot} (h : s.Layout l) :
    s.addresses = covered s.lo s.hi l := by
  ext a
  rw [mem_covered]
  exact exists_congr fun t => and_congr_left fun _ => h.holds.onList_iff

theorem EntryOk.toNat_endOf {t : Slot} (h : s.EntryOk t) : (s.endOf t).toNat = s.hi t :=
  toNat_add_of_lt h.fits

theorem EntryOk.hi_aligned {t : Slot} (h : s.EntryOk t) : s.hi t % 4096 = 0 := by
  have h1 := h.aligned
  have h2 := h.whole
  simp only [lo, hi] at *
  omega

theorem EntryOk.lo_lt_hi {t : Slot} (h : s.EntryOk t) : s.lo t < s.hi t :=
  Nat.lt_add_of_pos_right h.pos

theorem codeAddresses_subset : s.codeAddresses ⊆ s.addresses := by
  rintro a ⟨t, ht, hlo, hhi⟩
  refine ⟨t, ht, hlo, hhi.trans_le ?_⟩
  rw [endOf, UInt64.toNat_add]
  exact Nat.mod_le _ _

/-- Where no entry wraps, both are the same. -/
theorem codeAddresses_eq (h : ∀ t, s.links.OnList t → s.hi t < 2 ^ 64) :
    s.codeAddresses = s.addresses := by
  refine Set.Subset.antisymm codeAddresses_subset ?_
  rintro a ⟨t, ht, hlo, hhi⟩
  refine ⟨t, ht, hlo, ?_⟩
  rwa [show (s.endOf t).toNat = s.hi t from toNat_add_of_lt (h t ht)]

/-- No entry of a well-formed map wraps. -/
theorem Layout.subset_codeAddresses {l : List Slot} (h : s.Layout l) :
    s.addresses ⊆ s.codeAddresses :=
  (codeAddresses_eq fun t ht => (h.entry t (h.holds.onList_iff.mp ht)).fits).ge

theorem EntryOk.congr {s' : VirtualAddressMap} {t : Slot} (h : s.EntryOk t)
    (hb : s'.base t = s.base t) (hl : s'.len t = s.len t) : s'.EntryOk t := by
  obtain ⟨h1, h2, h3, h4⟩ := h
  refine ⟨?_, ?_, ?_, ?_⟩ <;> simpa only [lo, hi, hb, hl]

/-! ### Field lemmas of the updates -/

section Fields

variable (s) (t k : Slot)

@[simp] theorem next_eq_links : s.links.next k = s.next k := rfl

@[simp] theorem base_setNext (p : Option Slot) : (s.setNext t p).base k = s.base k := by
  simp only [base, setNext, Function.update_apply]
  split
  · subst k
    rfl
  · rfl

@[simp] theorem base_setLen (v : UInt64) : (s.setLen t v).base k = s.base k := by
  simp only [base, setLen, Function.update_apply]
  split
  · subst k
    rfl
  · rfl

theorem base_setBase (v : UInt64) :
    (s.setBase t v).base k = if k = t then v else s.base k := by
  simp only [base, setBase, Function.update_apply]
  split <;> rfl

@[simp] theorem len_setNext (p : Option Slot) : (s.setNext t p).len k = s.len k := by
  simp only [len, setNext, Function.update_apply]
  split
  · subst k
    rfl
  · rfl

@[simp] theorem len_setBase (v : UInt64) : (s.setBase t v).len k = s.len k := by
  simp only [len, setBase, Function.update_apply]
  split
  · subst k
    rfl
  · rfl

theorem len_setLen (v : UInt64) : (s.setLen t v).len k = if k = t then v else s.len k := by
  simp only [len, setLen, Function.update_apply]
  split <;> rfl

@[simp] theorem links_setBase (v : UInt64) : (s.setBase t v).links = s.links := by
  simp only [links, setBase, Heap.mk.injEq, true_and, Function.update_apply]
  funext j
  split
  · subst j
    rfl
  · rfl

@[simp] theorem links_setLen (v : UInt64) : (s.setLen t v).links = s.links := by
  simp only [links, setLen, Heap.mk.injEq, true_and, Function.update_apply]
  funext j
  split
  · subst j
    rfl
  · rfl

@[simp] theorem next_setBase (v : UInt64) : (s.setBase t v).next k = s.next k :=
  congrFun (congrArg Heap.next (s.links_setBase t v)) k

@[simp] theorem next_setLen (v : UInt64) : (s.setLen t v).next k = s.next k :=
  congrFun (congrArg Heap.next (s.links_setLen t v)) k

@[simp] theorem links_setNext (p : Option Slot) :
    (s.setNext t p).links = s.links.write (.next t) p := by
  simp only [links, setNext, Heap.write, Heap.mk.injEq, true_and]
  funext j
  simp only [Function.update_apply]
  split <;> rfl

@[simp] theorem links_releaseSlot : (s.releaseSlot t).links = s.links := rfl

@[simp] theorem base_releaseSlot : (s.releaseSlot t).base k = s.base k := rfl

@[simp] theorem len_releaseSlot : (s.releaseSlot t).len k = s.len k := rfl

theorem lo_congr {s' : VirtualAddressMap} {k : Slot} (h : s'.base k = s.base k) :
    s'.lo k = s.lo k := by rw [lo, lo, h]

@[simp] theorem lo_setLen (v : UInt64) : (s.setLen t v).lo k = s.lo k := lo_congr s (by simp)

@[simp] theorem lo_setNext (p : Option Slot) : (s.setNext t p).lo k = s.lo k :=
  lo_congr s (by simp)

end Fields

/-! ### Replacing a stretch of entries -/

section Splice

variable {s' : VirtualAddressMap} {pre old new post : List Slot}

/-- Same base and length. -/
theorem lo_hi_congr {k : Slot} (h : s'.base k = s.base k ∧ s'.len k = s.len k) :
    s'.lo k = s.lo k ∧ s'.hi k = s.hi k := by
  simp only [lo, hi, h, and_self]

/-- Replace the stretch `old` by `new`: the entries outside stay as they are,
and the new ones fit between the neighbours. -/
theorem Layout.splice (h : s.Layout (pre ++ (old ++ post)))
    (hl : s'.links.Holds (pre ++ (new ++ post)))
    (hsame : ∀ k, k ∈ pre ∨ k ∈ post → s'.base k = s.base k ∧ s'.len k = s.len k)
    (hne : new ≠ []) (hok : ∀ k ∈ new, s'.EntryOk k) (hnew : Apart s'.lo s'.hi new)
    (hbelow : ∀ a ∈ pre.getLast?, ∀ b ∈ new.head?, s.hi a < s'.lo b)
    (habove : ∀ a ∈ new.getLast?, ∀ b ∈ post.head?, s'.hi a < s.lo b) :
    s'.Layout (pre ++ (new ++ post)) where
  holds := hl
  nonempty := by simp [hne]
  entry := by
    intro k hk
    rcases List.mem_append.mp hk with hk | hk
    · have hs := hsame k (.inl hk)
      exact (h.entry k (by simp [hk])).congr hs.1 hs.2
    · rcases List.mem_append.mp hk with hk | hk
      · exact hok k hk
      · have hs := hsame k (.inr hk)
        exact (h.entry k (by simp [hk])).congr hs.1 hs.2
  apart := h.apart.splice (fun k hk => lo_hi_congr (hsame k (.inl hk)))
    (fun k hk => lo_hi_congr (hsame k (.inr hk))) hne hnew hbelow habove

/-- The addresses covered after such a replacement. -/
theorem covered_splice
    (hsame : ∀ k, k ∈ pre ∨ k ∈ post → s'.base k = s.base k ∧ s'.len k = s.len k) :
    covered s'.lo s'.hi (pre ++ (new ++ post)) =
      covered s.lo s.hi pre ∪ (covered s'.lo s'.hi new ∪ covered s.lo s.hi post) := by
  rw [covered_append, covered_append,
    covered_congr fun k hk => lo_hi_congr (hsame k (.inl hk)),
    covered_congr fun k hk => lo_hi_congr (hsame k (.inr hk))]

end Splice

section Blocks

variable {pre post : List Slot} {t : Slot}

theorem Layout.not_mem (h : s.Layout (pre ++ t :: post)) {k : Slot}
    (hk : k ∈ pre ∨ k ∈ post) : k ≠ t := h.holds.ne_around (List.mem_append.mpr hk)

theorem Layout.deref_eq (h : s.Layout (pre ++ t :: post)) :
    s.deref (cellAfter pre) = some t := h.holds.read_cellAfter

theorem Layout.next_eq (h : s.Layout (pre ++ t :: post)) : s.next t = post.head? :=
  h.holds.next_eq

theorem Layout.nextBase_eq_some (h : s.Layout (pre ++ t :: post)) {b : UInt64} :
    s.nextBase t = some b ↔ ∃ x ∈ post.head?, s.base x = b := by
  rw [nextBase, h.next_eq]
  exact Option.map_eq_some_iff

theorem Layout.nextBase_any (h : s.Layout (pre ++ t :: post)) (p : UInt64 → Bool) :
    (s.nextBase t).any p = true ↔ ∃ x ∈ post.head?, p (s.base x) = true := by
  rw [nextBase, h.next_eq, Option.any_map]
  exact Option.any_eq_true _ _

/-- The test whether the next entry starts at `v` or below. -/
theorem Layout.nextBase_le (h : s.Layout (pre ++ t :: post)) (v : UInt64) :
    (s.nextBase t).any (· ≤ v) = true ↔ ∃ x ∈ post.head?, s.lo x ≤ v.toNat := by
  simp only [h.nextBase_any, decide_eq_true_eq, UInt64.le_iff_toNat_le]
  rfl

/-- The test whether the next entry starts below `v`. -/
theorem Layout.nextBase_lt (h : s.Layout (pre ++ t :: post)) (v : UInt64) :
    (s.nextBase t).any (· < v) = true ↔ ∃ x ∈ post.head?, s.lo x < v.toNat := by
  simp only [h.nextBase_any, decide_eq_true_eq, UInt64.lt_iff_toNat_lt]
  rfl

theorem Layout.entry_self (h : s.Layout (pre ++ t :: post)) : s.EntryOk t :=
  h.entry t (by simp)

theorem Layout.onList_self (h : s.Layout (pre ++ t :: post)) : s.links.OnList t :=
  h.holds.onList_iff.mpr (by simp)

theorem Layout.onList_head {x : Slot} (h : s.Layout (pre ++ t :: post)) (hx : x ∈ post.head?) :
    s.links.OnList x := by
  have hmem := List.mem_of_mem_head? hx
  exact h.holds.onList_iff.mpr (by simp [hmem])

theorem Layout.entry_head {x : Slot} (h : s.Layout (pre ++ t :: post)) (hx : x ∈ post.head?) :
    s.EntryOk x := by
  have hmem := List.mem_of_mem_head? hx
  exact h.entry x (by simp [hmem])

theorem Layout.gap (h : s.Layout (pre ++ t :: post)) : ∀ x ∈ post.head?, s.hi t < s.lo x := by
  intro x hx
  have hapart := h.apart
  rw [← List.cons_head?_tail hx] at hapart
  exact hapart.gap

/-- The covered addresses, split at an entry. -/
theorem Layout.addresses_split (h : s.Layout (pre ++ t :: post)) :
    s.addresses =
      covered s.lo s.hi pre ∪ (Set.Ico (s.lo t) (s.hi t) ∪ covered s.lo s.hi post) := by
  rw [h.addresses_eq, covered_append, covered_cons]

/-- Entry `t` gets another length that leaves a gap to the next entry. -/
theorem Layout.setLen (h : s.Layout (pre ++ t :: post)) {v : UInt64}
    (hw : v.toNat % 4096 = 0) (hpos : 0 < v.toNat) (hfit : s.lo t + v.toNat < 2 ^ 64)
    (hgap : ∀ x ∈ post.head?, s.lo t + v.toNat < s.lo x) :
    (s.setLen t v).Layout (pre ++ t :: post) ∧
      (s.setLen t v).addresses = covered s.lo s.hi pre ∪
        (Set.Ico (s.lo t) (s.lo t + v.toNat) ∪ covered s.lo s.hi post) := by
  -- only the end of the entry `t` is another one
  have hhi : (s.setLen t v).hi t = s.lo t + v.toNat := by
    rw [hi, base_setLen, len_setLen, if_pos rfl, lo]
  have hsame : ∀ k, k ∈ pre ∨ k ∈ post →
      (s.setLen t v).base k = s.base k ∧ (s.setLen t v).len k = s.len k := by
    intro k hk
    rw [base_setLen, len_setLen, if_neg (h.not_mem hk)]
    exact ⟨rfl, rfl⟩
  have hok : (s.setLen t v).EntryOk t := by
    refine ⟨?_, ?_, ?_, ?_⟩
    · rw [lo_setLen]
      exact h.entry_self.aligned
    · rwa [len_setLen, if_pos rfl]
    · rwa [len_setLen, if_pos rfl]
    · rwa [hhi]
  have h' : s.Layout (pre ++ ([t] ++ post)) := h
  have hl : (s.setLen t v).Layout (pre ++ ([t] ++ post)) := by
    refine h'.splice ?_ hsame (by simp) (by simpa using hok) (by simp [Apart]) ?_ ?_
    · rw [links_setLen]
      exact h.holds
    · intro a ha b hb
      obtain rfl : t = b := by simpa using hb
      rw [lo_setLen]
      exact h.apart.below a ha
    · intro a ha x hx
      obtain rfl : t = a := by simpa using ha
      rw [hhi]
      exact hgap x hx
  refine ⟨hl, ?_⟩
  rw [hl.addresses_eq, covered_splice hsame, covered_cons, covered_nil, Set.union_empty,
    lo_setLen, hhi]

/-- When the test for the join fails, only the length changes. -/
theorem Layout.growUp_eq (h : s.Layout (pre ++ t :: post)) (bytes : UInt64) {top : UInt64}
    (htop : ∀ x ∈ post.head?, top ≠ s.base x) :
    s.perform (.growUp (cellAfter pre) bytes top) =
      some (some 0, s.setLen t (s.len t + bytes)) := by
  rw [perform, h.deref_eq]
  simp only [Option.bind_eq_bind, Option.bind_some, next_setLen, h.next_eq, base_setLen]
  cases hx : post.head? with
  | none => rfl
  | some x =>
    simp only [if_neg (htop x hx)]
    rfl

/-- `*tripref` grows by whole pages and stays below the next entry. -/
theorem Layout.growUp (h : s.Layout (pre ++ t :: post)) {bytes top : UInt64}
    (hw : bytes.toNat % 4096 = 0) (hfit : s.hi t + bytes.toNat < 2 ^ 64)
    (hgap : ∀ x ∈ post.head?, s.hi t + bytes.toNat < s.lo x)
    (htop : ∀ x ∈ post.head?, top ≠ s.base x) :
    ∃ s', s.perform (.growUp (cellAfter pre) bytes top) = some (some 0, s') ∧
      s'.WellFormed ∧
      s'.addresses = s.addresses ∪ Set.Ico (s.hi t) (s.hi t + bytes.toNat) := by
  have hv : (s.len t + bytes).toNat = (s.len t).toNat + bytes.toNat :=
    toNat_add_of_lt (by rw [hi] at hfit; omega)
  have hlo : s.lo t + (s.len t + bytes).toNat = s.hi t + bytes.toNat := by
    rw [hv, lo, hi]
    omega
  have hwhole := h.entry_self.whole
  have hpos := h.entry_self.pos
  obtain ⟨hlay, haddr⟩ := h.setLen (v := s.len t + bytes) (by omega) (by omega) (by rwa [hlo])
    (by rwa [hlo])
  refine ⟨_, h.growUp_eq bytes htop, ⟨_, hlay⟩, ?_⟩
  rw [haddr, h.addresses_split, hlo,
    ← Set.Ico_union_Ico_eq_Ico (s.lo_le_hi t) (Nat.le_add_right _ _)]
  ac_rfl

/-- `*tripref` with what lies up to the next entry, and that entry. -/
theorem Layout.joined {x : Slot} (h : s.Layout (pre ++ t :: x :: post)) {bytes : UInt64}
    (hgap : s.hi t + bytes.toNat = s.lo x) {s' : VirtualAddressMap}
    (hs' : s' = (s.setLen t (s.len t + bytes)).join t x) :
    s'.Layout (pre ++ ([t] ++ post)) ∧ (∀ k, s'.lo k = s.lo k) ∧ s'.hi t = s.hi x ∧
      ∀ k, k ∈ pre ∨ k ∈ post → s'.base k = s.base k ∧ s'.len k = s.len k := by
  have hx : s.EntryOk x := h.entry x (by simp)
  have ht := h.entry_self
  have htx : x ≠ t := h.not_mem (.inr (by simp))
  -- the lengths add up without a wrap, as the entry now ends where `x` did
  have hv : (s.len t + bytes + s.len x).toNat =
      (s.len t).toNat + bytes.toNat + (s.len x).toNat := by
    have hfit := hx.fits
    simp only [hi, lo] at hgap hfit
    have h1 : (s.len t + bytes).toNat = (s.len t).toNat + bytes.toNat :=
      toNat_add_of_lt (by omega)
    rw [toNat_add_of_lt (by rw [h1]; omega), h1]
  have hbase : ∀ k, s'.base k = s.base k := by
    intro k
    simp [hs', join]
  have hlen : ∀ k, k ≠ t → s'.len k = s.len k := by
    intro k hk
    simp [hs', join, len_setLen, hk]
  have hlent : s'.len t = s.len t + bytes + s.len x := by
    simp [hs', join, len_setLen, htx]
  have hlo : ∀ k, s'.lo k = s.lo k := fun k => lo_congr s (hbase k)
  have hhi : s'.hi t = s.hi x := by
    simp only [hi, lo, hbase, hlent] at hgap ⊢
    omega
  have hsame : ∀ k, k ∈ pre ∨ k ∈ post → s'.base k = s.base k ∧ s'.len k = s.len k := by
    intro k hk
    refine ⟨hbase k, hlen k (h.not_mem ?_)⟩
    exact hk.imp id (List.mem_cons_of_mem x)
  -- the entry that has taken in `x`
  have hok : s'.EntryOk t := by
    have := ht.whole
    have := ht.pos
    have := hx.whole
    have := ht.aligned
    have := hx.aligned
    refine ⟨by rwa [hlo], ?_, ?_, by rw [hhi]; exact hx.fits⟩
    · simp only [hlent, hv, hi, lo] at *
      omega
    · simp only [hlent, hv]
      omega
  -- `x` leaves the list, and the rest of it stays
  have hlinks : s'.links.Holds (pre ++ t :: post) := by
    have := h.holds.unlink_after
    simpa [hs', join] using this
  have h' : s.Layout (pre ++ ([t, x] ++ post)) := h
  refine ⟨h'.splice hlinks hsame (by simp) (by simpa using hok) (by simp [Apart]) ?_ ?_, hlo, hhi,
    hsame⟩
  · intro a ha b hb
    obtain rfl : t = b := by simpa using hb
    rw [hlo]
    exact h.apart.below a ha
  · intro a ha y hy
    obtain rfl : t = a := by simpa using ha
    have h'' : s.Layout ((pre ++ [t]) ++ x :: post) := by simpa using h
    rw [hhi]
    exact h''.gap y hy

/-- `*tripref` grows by whole pages up to the next entry and is joined with it. -/
theorem Layout.growUp_join {x : Slot} (h : s.Layout (pre ++ t :: x :: post)) {bytes top : UInt64}
    (hgap : s.hi t + bytes.toNat = s.lo x) (htop : top = s.base x) :
    ∃ s', s.perform (.growUp (cellAfter pre) bytes top) = some (some 0, s') ∧
      s'.WellFormed ∧
      s'.addresses = s.addresses ∪ Set.Ico (s.hi t) (s.hi t + bytes.toNat) := by
  obtain ⟨hl, hlo, hhi, hsame⟩ := h.joined hgap rfl
  refine ⟨_, ?_, ⟨_, hl⟩, ?_⟩
  · have hn : s.next t = some x := h.next_eq
    rw [perform, h.deref_eq]
    simp only [Option.bind_eq_bind, Option.bind_some, next_setLen, hn, base_setLen, if_pos htop]
    rfl
  · have h1 : s.lo t ≤ s.hi t := s.lo_le_hi t
    have h2 : s.lo x ≤ s.hi x := s.lo_le_hi x
    rw [hl.addresses_eq, covered_splice hsame, h.addresses_split, covered_cons, covered_cons,
      covered_nil, Set.union_empty, hlo, hhi, hgap, ← Set.Ico_union_Ico_eq_Ico (h1.trans
        (by omega : s.hi t ≤ s.lo x)) h2, ← Set.Ico_union_Ico_eq_Ico h1 (by omega)]
    ac_rfl

/-- The entry behind `*tripref` is extended downwards and stays above
`*tripref`. -/
theorem Layout.growDown {x : Slot} (h : s.Layout (pre ++ t :: x :: post)) {bytes : UInt64}
    (hw : bytes.toNat % 4096 = 0) (hgap : s.hi t + bytes.toNat < s.lo x) :
    ∃ s', s.perform (.growDown (cellAfter pre) bytes) = some (some 0, s') ∧
      s'.WellFormed ∧
      s'.addresses = s.addresses ∪ Set.Ico (s.lo x - bytes.toNat) (s.lo x) := by
  have hx : s.EntryOk x := h.entry x (by simp)
  have hb : (s.base x - bytes).toNat = s.lo x - bytes.toNat :=
    toNat_sub_of_le (by rw [lo] at hgap; omega)
  have hv : (s.len x + bytes).toNat = (s.len x).toNat + bytes.toNat := by
    have hfit := hx.fits
    simp only [hi, lo] at hgap hfit
    exact toNat_add_of_lt (by omega)
  set s' := (s.setBase x (s.base x - bytes)).setLen x (s.len x + bytes) with hs'
  have hlo : s'.lo x = s.lo x - bytes.toNat := by
    rw [hs', lo_setLen, lo, base_setBase, if_pos rfl, hb]
  have hhi : s'.hi x = s.hi x := by
    rw [hs', hi, base_setLen, base_setBase, if_pos rfl, len_setLen, if_pos rfl, hb, hv, hi]
    simp only [lo] at hgap ⊢
    omega
  have h' : s.Layout ((pre ++ [t]) ++ x :: post) := by simpa using h
  have hsame : ∀ k, k ∈ pre ++ [t] ∨ k ∈ post →
      s'.base k = s.base k ∧ s'.len k = s.len k := by
    intro k hk
    have hkx := h'.not_mem hk
    rw [hs', base_setLen, base_setBase, if_neg hkx, len_setLen, if_neg hkx, len_setBase]
    exact ⟨rfl, rfl⟩
  -- the entry that begins lower
  have hok : s'.EntryOk x := by
    have := hx.whole
    have := hx.pos
    have := hx.aligned
    refine ⟨by rw [hlo]; omega, ?_, ?_, by rw [hhi]; exact hx.fits⟩ <;>
      rw [hs', len_setLen, if_pos rfl, hv] <;> omega
  have hl : s'.Layout ((pre ++ [t]) ++ ([x] ++ post)) := by
    have h'' : s.Layout ((pre ++ [t]) ++ ([x] ++ post)) := h'
    refine h''.splice ?_ hsame (by simp) (by simpa using hok) (by simp [Apart]) ?_ ?_
    · rw [hs', links_setLen, links_setBase]
      exact h''.holds
    · intro a ha b hb
      obtain rfl : x = b := by simpa using hb
      obtain rfl : t = a := by simpa using ha
      rw [hlo]
      omega
    · intro a ha y hy
      obtain rfl : x = a := by simpa using ha
      rw [hhi]
      exact h'.gap y hy
  -- the cell leads to `t`, and the entry behind `t` is the one that grows
  refine ⟨s', ?_, ⟨_, hl⟩, ?_⟩
  · have hn : s.next t = some x := h.next_eq
    rw [perform, h.deref_eq]
    simp only [Option.bind_eq_bind, Option.bind_some, hn, len_setBase]
    rfl
  · rw [hl.addresses_eq, covered_splice hsame, h'.addresses_split, covered_cons, covered_nil,
      Set.union_empty, hlo, hhi,
      ← Set.Ico_union_Ico_eq_Ico (Nat.sub_le (s.lo x) bytes.toNat) (s.lo_le_hi x)]
    ac_rfl

/-- The search of `INSERT` picks a clear bit. -/
theorem bit_findFreeSlot {i : Fin virtualAddressMapFreeBitmapLength} {off : Fin 64}
    (hio : s.findFreeSlot = some (i, off)) : bit (s.freeBitmap i) off = false := by
  obtain ⟨i', -, hi⟩ := List.exists_of_findSome?_eq_some hio
  split at hi
  · obtain ⟨off', -, hoff⟩ := List.exists_of_findSome?_eq_some hi
    split at hoff
    · rename_i hclear
      obtain ⟨rfl, rfl⟩ := Prod.mk.inj (Option.some.inj hoff)
      exact and_mask_eq_zero off'.isLt hclear
    · cases hoff
  · cases hi

theorem newIndex_inj {i i' : Fin virtualAddressMapFreeBitmapLength} {off off' : Fin 64}
    (h : newIndex i off = newIndex i' off') : i = i' ∧ off = off' := by
  have hval : ∀ (i : Fin virtualAddressMapFreeBitmapLength) (off : Fin 64),
      (newIndex i off).val = i.val * 64 + off.val := by
    intro i off
    show i.val <<< 6 ||| off.val = i.val * 64 + off.val
    rw [← Nat.shiftLeft_add_eq_or_of_lt off.isLt, Nat.shiftLeft_eq]
  have heq := congrArg Fin.val h
  rw [hval, hval] at heq
  have hoff := off.isLt
  have hoff' := off'.isLt
  exact ⟨Fin.ext (by omega), Fin.ext (by omega)⟩

/-- The map behind `INSERT` with the slot that `i` and `o` stand for, when
`*tripref` is `t` where the new entry is linked to what follows, and `t'` where
it is linked itself. -/
def linkEntry (s : VirtualAddressMap) (i : Fin virtualAddressMapFreeBitmapLength) (o : Fin 64)
    (b l : UInt64) (t t' : Slot) : VirtualAddressMap :=
  ((((({ s with freeBitmap := setBit s.freeBitmap i o } : VirtualAddressMap).setBase
    (newIndex i o) b).setLen (newIndex i o) l).setNext (newIndex i o) (s.next t)).setNext t'
    (some (newIndex i o)))

section LinkEntry

variable (i : Fin virtualAddressMapFreeBitmapLength) (o : Fin 64) (b l : UInt64) (t t' j : Slot)

theorem links_linkEntry : (s.linkEntry i o b l t t').links =
    (s.links.write (.next (newIndex i o)) (s.next t)).write (.next t') (some (newIndex i o)) := by
  rw [linkEntry, links_setNext, links_setNext, links_setLen, links_setBase]
  rfl

theorem base_linkEntry :
    (s.linkEntry i o b l t t').base j = if j = newIndex i o then b else s.base j := by
  rw [linkEntry, base_setNext, base_setNext, base_setLen, base_setBase]
  rfl

theorem len_linkEntry :
    (s.linkEntry i o b l t t').len j = if j = newIndex i o then l else s.len j := by
  rw [linkEntry, len_setNext, len_setNext, len_setLen, len_setBase]
  rfl

end LinkEntry

/-- `INSERT` reads `*tripref` twice, and the second time the link of the new
entry has been written. -/
theorem insertEntry_eq {c : Cell Slot} (ht : s.deref c = some t) (b l : UInt64)
    {i : Fin virtualAddressMapFreeBitmapLength} {o : Fin 64}
    (hfree : s.findFreeSlot = some (i, o)) :
    s.insertEntry c b l = ((s.links.write (.next (newIndex i o)) (s.next t)).read c).map fun t' =>
      some (s.linkEntry i o b l t t') := by
  set s₁ := (({ s with freeBitmap := setBit s.freeBitmap i o } : VirtualAddressMap).setBase
    (newIndex i o) b).setLen (newIndex i o) l with hs₁
  have hlinks₁ : s₁.links = s.links := by
    rw [hs₁, links_setLen, links_setBase]
    rfl
  have hderef₁ : s₁.deref c = some t := by
    rw [deref, hlinks₁]
    exact ht
  have hderef₂ : (s₁.setNext (newIndex i o) (s₁.next t)).deref c =
      (s.links.write (.next (newIndex i o)) (s.next t)).read c := by
    rw [deref, links_setNext, hlinks₁, ← next_eq_links s₁, hlinks₁, next_eq_links]
  have hnext : s₁.next t = s.next t := by rw [← next_eq_links, hlinks₁, next_eq_links]
  rw [VirtualAddressMap.insertEntry, hfree]
  simp only [Option.bind_eq_bind]
  change (s₁.deref c).bind _ = _
  rw [hderef₁, Option.bind_some]
  change ((s₁.setNext (newIndex i o) (s₁.next t)).deref c).bind _ = _
  rw [hderef₂]
  cases (s.links.write (.next (newIndex i o)) (s.next t)).read c with
  | none => rfl
  | some t' =>
    rw [Option.bind_some, Option.map_some, linkEntry, ← hs₁, ← hnext]
    rfl

/-- Writing the new slot does not move `*tripref`, unless it is the slot that
holds `*tripref`. -/
theorem insertEntry_link {c : Cell Slot} (ht : s.deref c = some t) (b l : UInt64)
    {i : Fin virtualAddressMapFreeBitmapLength} {o : Fin 64}
    (hfree : s.findFreeSlot = some (i, o)) (hc : c ≠ .next (newIndex i o)) :
    s.insertEntry c b l = some (some (s.linkEntry i o b l t t)) := by
  rw [insertEntry_eq ht b l hfree, Heap.read_write_of_ne _ hc, show s.links.read c = some t from ht]
  rfl

/-- What `INSERT` does when the slot that it picks is not on the list. -/
theorem insertEntry_spec (h : s.links.Holds (pre ++ t :: post)) (b l : UInt64)
    {i : Fin virtualAddressMapFreeBitmapLength} {o : Fin 64} (hfree : s.findFreeSlot = some (i, o))
    (hnew : newIndex i o ∉ pre ++ t :: post) :
    ∃ s', s.insertEntry (cellAfter pre) b l = some (some s') ∧
      s'.links.Holds (pre ++ t :: newIndex i o :: post) ∧
      s'.freeBitmap = setBit s.freeBitmap i o ∧
      (∀ j, s'.base j = if j = newIndex i o then b else s.base j) ∧
      ∀ j, s'.len j = if j = newIndex i o then l else s.len j := by
  have hkpre : newIndex i o ∉ pre := fun hk => hnew (List.mem_append_left _ hk)
  refine ⟨_, insertEntry_link h.read_cellAfter b l hfree (cellAfter_ne hkpre), ?_, rfl,
    fun j => base_linkEntry .., fun j => len_linkEntry ..⟩
  rw [links_linkEntry, ← next_eq_links]
  exact h.insert_after hnew

/-- A new entry behind `*tripref`, in a slot that is not on the list. -/
theorem Layout.insertEntry (h : s.Layout (pre ++ t :: post)) {b l : UInt64}
    {i : Fin virtualAddressMapFreeBitmapLength} {o : Fin 64} (hfree : s.findFreeSlot = some (i, o))
    (hnew : newIndex i o ∉ pre ++ t :: post) (hb : b.toNat % 4096 = 0) (hl : l.toNat % 4096 = 0)
    (hpos : 0 < l.toNat) (hfit : b.toNat + l.toNat < 2 ^ 64) (hgt : s.hi t < b.toNat)
    (hgap : ∀ x ∈ post.head?, b.toNat + l.toNat < s.lo x) :
    ∃ s', s.insertEntry (cellAfter pre) b l = some (some s') ∧
      s'.Layout (pre ++ t :: newIndex i o :: post) ∧
      s'.addresses = s.addresses ∪ Set.Ico b.toNat (b.toNat + l.toNat) := by
  obtain ⟨s', hs', hlinks, -, hbase, hlen⟩ := insertEntry_spec h.holds b l hfree hnew
  set k := newIndex i o
  -- the other entries are as before, and the new one has the range
  have hsame : ∀ j, j ∈ pre ++ [t] ∨ j ∈ post →
      s'.base j = s.base j ∧ s'.len j = s.len j := by
    intro j hj
    have hjk : j ≠ k := by
      rintro rfl
      exact hnew (by simpa [or_assoc] using hj)
    rw [hbase, hlen, if_neg hjk, if_neg hjk]
    exact ⟨rfl, rfl⟩
  have hlok : s'.lo k = b.toNat := by rw [lo, hbase, if_pos rfl]
  have hhik : s'.hi k = b.toNat + l.toNat := by rw [hi, hbase, hlen, if_pos rfl, if_pos rfl]
  have hok : s'.EntryOk k := by
    refine ⟨by rwa [hlok], ?_, ?_, by rwa [hhik]⟩ <;> rwa [hlen, if_pos rfl]
  have hlay : s'.Layout ((pre ++ [t]) ++ ([k] ++ post)) := by
    have h' : s.Layout ((pre ++ [t]) ++ ([] ++ post)) := by simpa using h
    refine h'.splice (by simpa using hlinks) hsame (by simp) (by simpa using hok)
      (by simp [Apart]) ?_ ?_
    · intro a ha c hc
      obtain rfl : k = c := by simpa using hc
      obtain rfl : t = a := by simpa using ha
      rwa [hlok]
    · intro a ha x hx
      obtain rfl : k = a := by simpa using ha
      rw [hhik]
      exact hgap x hx
  refine ⟨s', hs', by simpa using hlay, ?_⟩
  rw [hlay.addresses_eq, covered_splice hsame, h.addresses_split, covered_append, covered_cons,
    covered_cons, covered_nil, covered_nil, Set.union_empty, Set.union_empty, hlok, hhik]
  ac_rfl

/-- Insert a new entry behind `*tripref` between its neighbours. -/
theorem Layout.insert (h : s.Layout (pre ++ t :: post)) {b l : UInt64} (full : Option ℤ)
    (hnew : ∀ i o, s.findFreeSlot = some (i, o) → newIndex i o ∉ pre ++ t :: post)
    (hb : b.toNat % 4096 = 0) (hl : l.toNat % 4096 = 0)
    (hpos : 0 < l.toNat) (hfit : b.toNat + l.toNat < 2 ^ 64) (hgt : s.hi t < b.toNat)
    (hgap : ∀ x ∈ post.head?, b.toNat + l.toNat < s.lo x) :
    (s.findFreeSlot = none ∧ s.perform (.insert (cellAfter pre) b l full) = some (full, s)) ∨
      ∃ s', s.perform (.insert (cellAfter pre) b l full) = some (some 0, s') ∧ s'.WellFormed ∧
        s'.addresses = s.addresses ∪ Set.Ico b.toNat (b.toNat + l.toNat) := by
  cases hfree : s.findFreeSlot with
  | none =>
    refine .inl ⟨rfl, ?_⟩
    simp [perform, VirtualAddressMap.insertEntry, hfree]
  | some io =>
    obtain ⟨s', hs', hlay, haddr⟩ := h.insertEntry hfree (hnew _ _ hfree) hb hl hpos hfit hgt hgap
    refine .inr ⟨s', ?_, ⟨_, hlay⟩, haddr⟩
    simp [perform, hs']

/-- Taking a range out of one entry takes it out of the covered addresses. -/
theorem Layout.addresses_cut (h : s.Layout (pre ++ t :: post)) {a b : ℕ} (hla : s.lo t ≤ a)
    (hbh : b ≤ s.hi t) :
    s.addresses \ Set.Ico a b =
      covered s.lo s.hi pre ∪
        (Set.Ico (s.lo t) (s.hi t) \ Set.Ico a b ∪ covered s.lo s.hi post) := by
  have hle : ∀ k ∈ pre ++ t :: post, s.lo k ≤ s.hi k := fun k _ => s.lo_le_hi k
  rw [h.addresses_split, Set.union_sdiff_distrib, Set.union_sdiff_distrib]
  congr 1
  · refine sdiff_eq_left.mpr (Set.disjoint_left.mpr fun c hc hc' => ?_)
    have := h.apart.lt_of_mem_covered hle hc
    rw [Set.mem_Ico] at hc'
    omega
  · congr 1
    refine sdiff_eq_left.mpr (Set.disjoint_left.mpr fun c hc hc' => ?_)
    have := h.apart.gt_of_mem_covered hle hc
    rw [Set.mem_Ico] at hc'
    omega

/-- What the block does: the entry is shortened, and what lies above the range
goes to `INSERT`. -/
theorem perform_cut {c : Cell Slot} (ht : s.deref c = some t) (frame bytes : UInt64)
    (full : Option ℤ) :
    s.perform (.cut c frame bytes full) =
      ((s.setLen t (frame - s.base t)).insertEntry c (frame + bytes)
        (s.len t - (frame - s.base t) - bytes)).map fun r =>
          r.elim (full, s.setLen t (frame - s.base t)) fun s' => (some 0, s') := by
  have hlen : (s.setLen t (frame - s.base t)).len t = frame - s.base t := by
    rw [len_setLen, if_pos rfl]
  rw [perform, ht]
  simp only [Option.bind_eq_bind, Option.bind_some, hlen]
  cases (s.setLen t (frame - s.base t)).insertEntry c (frame + bytes)
      (s.len t - (frame - s.base t) - bytes) with
  | none => rfl
  | some r =>
    cases r
    · rfl
    · rfl

theorem Layout.cut_eq (h : s.Layout (pre ++ t :: post)) (frame bytes : UInt64)
    (full : Option ℤ) :
    s.perform (.cut (cellAfter pre) frame bytes full) =
      ((s.setLen t (frame - s.base t)).insertEntry (cellAfter pre) (frame + bytes)
        (s.len t - (frame - s.base t) - bytes)).map fun r =>
          r.elim (full, s.setLen t (frame - s.base t)) fun s' => (some 0, s') :=
  perform_cut h.deref_eq frame bytes full

/-- The entry cut off at `frame`. -/
theorem Layout.shorten (h : s.Layout (pre ++ t :: post)) {frame : UInt64}
    (hf : frame.toNat % 4096 = 0) (hlt : s.lo t < frame.toNat) (hgt : frame.toNat < s.hi t) :
    (frame - s.base t).toNat = frame.toNat - s.lo t ∧
      (s.setLen t (frame - s.base t)).Layout (pre ++ t :: post) ∧
      (s.setLen t (frame - s.base t)).addresses =
        covered s.lo s.hi pre ∪ (Set.Ico (s.lo t) frame.toNat ∪ covered s.lo s.hi post) := by
  have hal := h.entry_self.aligned
  have hfit := h.entry_self.fits
  have hv : (frame - s.base t).toNat = frame.toNat - s.lo t :=
    toNat_sub_of_le (by rw [lo] at hlt; omega)
  have hend : s.lo t + (frame - s.base t).toNat = frame.toNat := by omega
  obtain ⟨hlay, haddr⟩ := h.setLen (v := frame - s.base t) (by omega) (by omega) (by omega)
    (fun x hx => by have := h.gap x hx; omega)
  rw [hend] at haddr
  exact ⟨hv, hlay, haddr⟩

/-- Without a free slot everything from `frame` on is lost. -/
theorem Layout.cut_full (h : s.Layout (pre ++ t :: post)) {frame : UInt64} (bytes : UInt64)
    (full : Option ℤ) (hnone : s.findFreeSlot = none) (hf : frame.toNat % 4096 = 0)
    (hlt : s.lo t < frame.toNat) (hgt : frame.toNat < s.hi t) :
    ∃ s', s.perform (.cut (cellAfter pre) frame bytes full) = some (full, s') ∧ s'.WellFormed ∧
      s'.addresses = s.addresses \ Set.Ico frame.toNat (s.hi t) := by
  obtain ⟨-, hlay, haddr⟩ := h.shorten hf hlt hgt
  refine ⟨s.setLen t (frame - s.base t), ?_, ⟨_, hlay⟩, ?_⟩
  · have hfull : (s.setLen t (frame - s.base t)).insertEntry (cellAfter pre) (frame + bytes)
        (s.len t - (frame - s.base t) - bytes) = some none := by
      rw [VirtualAddressMap.insertEntry,
        show (s.setLen t (frame - s.base t)).findFreeSlot = none from hnone]
    rw [h.cut_eq, hfull]
    rfl
  · rw [haddr, h.addresses_cut hlt.le le_rfl]
    congr 2
    ext a
    simp only [Set.mem_sdiff, Set.mem_Ico]
    omega

/-- With a slot, what lies above the range becomes an entry of its own. -/
theorem Layout.cut_split (h : s.Layout (pre ++ t :: post)) {frame bytes : UInt64}
    (full : Option ℤ) {i : Fin virtualAddressMapFreeBitmapLength} {o : Fin 64}
    (hio : s.findFreeSlot = some (i, o)) (hnew : newIndex i o ∉ pre ++ t :: post)
    (hf : frame.toNat % 4096 = 0) (hw : bytes.toNat % 4096 = 0)
    (hlt : s.lo t < frame.toNat) (hpos : 0 < bytes.toNat)
    (hin : frame.toNat + bytes.toNat < s.hi t) :
    ∃ s', s.perform (.cut (cellAfter pre) frame bytes full) = some (some 0, s') ∧ s'.WellFormed ∧
      s'.addresses = s.addresses \ Set.Ico frame.toNat (frame.toNat + bytes.toNat) := by
  have hhi := h.entry_self.hi_aligned
  have hfit := h.entry_self.fits
  -- the lower part is what the entry is cut down to, the upper one is inserted behind it
  obtain ⟨hv, hlay, haddr⟩ := h.shorten hf hlt (by omega)
  set s₁ := s.setLen t (frame - s.base t) with hs₁
  have hb : (frame + bytes).toNat = frame.toNat + bytes.toNat := toNat_add_of_lt (by omega)
  have hsub : (s.len t - (frame - s.base t)).toNat = s.hi t - frame.toNat := by
    rw [toNat_sub_of_le] <;> simp only [hv, hi, lo] at * <;> omega
  have hl : (s.len t - (frame - s.base t) - bytes).toNat =
      s.hi t - (frame.toNat + bytes.toNat) := by
    rw [toNat_sub_of_le, hsub] <;> omega
  have hhi₁ : s₁.hi t = frame.toNat := by
    rw [hi, hs₁, len_setLen, if_pos rfl, hv, base_setLen, ← lo]
    omega
  obtain ⟨s', hs', hlay', haddr'⟩ := hlay.insertEntry (b := frame + bytes)
    (l := s.len t - (frame - s.base t) - bytes) (show s₁.findFreeSlot = _ from hio) hnew
    (by omega) (by omega) (by omega) (by omega) (by omega) (fun x hx => by
      have := h.gap x hx
      rw [hs₁, lo_setLen]
      omega)
  refine ⟨s', ?_, ⟨_, hlay'⟩, ?_⟩
  · rw [h.cut_eq, hs']
    rfl
  · have htop : (frame + bytes).toNat + (s.len t - (frame - s.base t) - bytes).toNat =
        s.hi t := by omega
    have hsplit : Set.Ico (s.lo t) (s.hi t) \ Set.Ico frame.toNat (frame.toNat + bytes.toNat) =
        Set.Ico (s.lo t) frame.toNat ∪ Set.Ico (frame.toNat + bytes.toNat) (s.hi t) := by
      ext a
      simp only [Set.mem_sdiff, Set.mem_Ico, Set.mem_union]
      omega
    rw [haddr', haddr, htop, hb, h.addresses_cut hlt.le hin.le, hsplit]
    ac_rfl

/-- Cut the range `[frame, frame + bytes)` out of the inside of an entry.
Without a free slot everything from `frame` on is lost. -/
theorem Layout.cut (h : s.Layout (pre ++ t :: post)) {frame bytes : UInt64} (full : Option ℤ)
    (hnew : ∀ i o, s.findFreeSlot = some (i, o) → newIndex i o ∉ pre ++ t :: post)
    (hf : frame.toNat % 4096 = 0) (hw : bytes.toNat % 4096 = 0) (hpos : 0 < bytes.toNat)
    (hlt : s.lo t < frame.toNat) (hgt : frame.toNat < s.hi t)
    (hin : frame.toNat + bytes.toNat < s.hi t ∨ s.findFreeSlot = none) :
    (s.findFreeSlot = none ∧
      ∃ s', s.perform (.cut (cellAfter pre) frame bytes full) = some (full, s') ∧ s'.WellFormed ∧
        s'.addresses = s.addresses \ Set.Ico frame.toNat (s.hi t)) ∨
    ∃ s', s.perform (.cut (cellAfter pre) frame bytes full) = some (some 0, s') ∧ s'.WellFormed ∧
      s'.addresses = s.addresses \ Set.Ico frame.toNat (frame.toNat + bytes.toNat) := by
  cases hio : s.findFreeSlot with
  | none => exact .inl ⟨rfl, h.cut_full bytes full hio hf hlt hgt⟩
  | some io =>
    have hin := hin.resolve_right (by simp [hio])
    exact .inr (h.cut_split full hio (hnew _ _ hio) hf hw hlt hpos hin)

end Blocks

end VirtualAddressMap

end Betelgeuse
