/-
Virtual maps that reach the top of the address space.

The last entry of such a map ends at `2 ^ 64`, and its `base_pointer + length` is 0.
`TopLayout s l` says this of a map with the list `l`, whose entries may touch.
`FreeBelowTop s a n` is what a call that registers `n` bytes from `a` on has to see to:
nothing of the range is covered, and it ends at `2 ^ 64` or below.

Between an entry and the next one this is a question of the next base alone
(`TopLayout.free_behind`), inside an entry it fails (`TopLayout.free_inside`), and below
the first entry it is a question of that entry's base (`TopLayout.free_below`).
`Block.adds` is the range that a block is there to register.
-/
import Betelgeuse.VirtualMapPlace

open HeapList WordBitmap RangeList

namespace Betelgeuse

namespace VirtualAddressMap

variable (s : VirtualAddressMap)

/-- The map holds the list `l` of sorted, disjoint, page-aligned entries, and the last one
ends at `2 ^ 64`. -/
structure TopLayout (l : List Slot) : Prop where
  holds : s.links.Holds l
  nonempty : l ≠ []
  aligned : ∀ t ∈ l, s.lo t % 4096 = 0
  whole : ∀ t ∈ l, (s.len t).toNat % 4096 = 0
  pos : ∀ t ∈ l, 0 < (s.len t).toNat
  sorted : Sorted s.lo s.hi l
  top : ∀ t ∈ l.getLast?, s.hi t = 2 ^ 64

/-- The map is sorted, disjoint and page-aligned up to `2 ^ 64`. -/
def ReachesTop : Prop := ∃ l, s.TopLayout l

/-- Nothing in `[a, a + n)` is covered, and the range does not run past `2 ^ 64`. -/
def FreeBelowTop (a n : ℕ) : Prop := s.Free a n ∧ a + n ≤ 2 ^ 64

/-- The range that a block is there to register: its first address and its number of bytes,
as natural numbers. -/
def Block.adds : Block → Option (ℕ × ℕ)
  | .growUp c bytes _ => (s.deref c).map fun t => (s.hi t, bytes.toNat)
  | .growDown c bytes =>
    ((s.deref c).bind s.next).map fun x => ((s.base x - bytes).toNat, bytes.toNat)
  | .insert _ base len _ => some (base.toNat, len.toNat)
  | .ret _ | .cut .. | .unlink .. => none

/-- This range was not covered, and does not run past `2 ^ 64`. -/
def AddsFree (b : Block) : Prop := ∀ r ∈ b.adds s, s.FreeBelowTop r.1 r.2

variable {s} {pre post : List Slot} {t : Slot} {a n : ℕ}

/-! ### Where the entries lie -/

section Layout

variable (h : s.TopLayout (pre ++ t :: post))
include h

theorem TopLayout.lo_lt_hi {k : Slot} (hk : k ∈ pre ++ t :: post) : s.lo k < s.hi k :=
  Nat.lt_add_of_pos_right (h.pos k hk)

theorem TopLayout.around : (∀ k ∈ pre, s.hi k ≤ s.lo t) ∧ ∀ k ∈ post, s.hi t ≤ s.lo k :=
  h.sorted.around fun k _ => s.lo_le_hi k

/-- The entries start higher and higher. -/
theorem TopLayout.ascending : (pre ++ t :: post).Pairwise fun a b => s.lo a < s.lo b :=
  (h.sorted.pairwise fun k _ => s.lo_le_hi k).imp_of_mem fun ha _ hab =>
    (h.lo_lt_hi ha).trans_le hab

/-- The last entry ends at `2 ^ 64`, and its end is computed as 0. -/
theorem TopLayout.last (hpost : post = []) : s.hi t = 2 ^ 64 ∧ s.endOf t = 0 := by
  subst hpost
  have htop := h.top t (by simp)
  refine ⟨htop, UInt64.toNat_inj.mp ?_⟩
  rw [hi] at htop
  rw [endOf, UInt64.toNat_add, htop]
  rfl

/-- Every other entry ends below the next one, and its end is computed right. -/
theorem TopLayout.before {x : Slot} (hx : x ∈ post.head?) :
    s.hi t ≤ s.lo x ∧ s.lo x < s.hi x ∧ (s.endOf t).toNat = s.hi t := by
  have hmem := List.mem_of_mem_head? hx
  have hle := h.around.2 x hmem
  refine ⟨hle, h.lo_lt_hi (by simp [hmem]), toNat_add_of_lt ?_⟩
  have hlt := (s.base x).toNat_lt
  rw [lo] at hle
  rw [hi] at hle
  omega

/-- There is an entry that covers the last address. -/
theorem TopLayout.top_covered : 2 ^ 64 - 1 ∈ s.addresses := by
  obtain ⟨k, hk⟩ : ∃ k, (pre ++ t :: post).getLast? = some k := by
    rw [List.getLast?_eq_some_getLast (by simp)]
    exact ⟨_, rfl⟩
  have hmem := List.mem_of_mem_getLast? hk
  have hlt := (s.base k).toNat_lt
  have htop := h.top k hk
  refine ⟨k, h.holds.onList_iff.mpr hmem, ?_, ?_⟩
  · rw [lo]
    omega
  · omega

theorem TopLayout.onList {k : Slot} (hk : k ∈ pre ++ t :: post) : s.links.OnList k :=
  h.holds.onList_iff.mpr hk

/-- No entry ends above `2 ^ 64`. -/
theorem TopLayout.hi_le : s.hi t ≤ 2 ^ 64 := by
  cases hx : post.head? with
  | none => exact (h.last (List.head?_eq_none_iff.mp hx)).1.le
  | some x =>
    have hlt := (s.base x).toNat_lt
    have hgap := (h.before hx).1
    rw [lo] at hgap
    omega

/-! ### Free ranges -/

omit h in
/-- An empty range is free. -/
theorem freeBelowTop_zero (ha : a ≤ 2 ^ 64) : s.FreeBelowTop a 0 :=
  ⟨free_iff.mpr fun c hc hlt => absurd hlt (by omega), ha⟩

/-- A range that is free ends below `2 ^ 64`. -/
theorem TopLayout.lt_top (hfree : s.FreeBelowTop a n) (hn : 0 < n) : a + n < 2 ^ 64 := by
  obtain ⟨hfree, hle⟩ := hfree
  by_contra hge
  exact free_iff.mp hfree (2 ^ 64 - 1) (by omega) (by omega) h.top_covered

/-- Behind an entry the next one is all that matters. -/
theorem TopLayout.free_behind (hlo : s.hi t ≤ a) (ha : a ≤ 2 ^ 64)
    (habove : ∀ x ∈ post.head?, a ≤ s.lo x) :
    s.FreeBelowTop a n ↔ n = 0 ∨ ∃ x ∈ post.head?, a + n ≤ s.lo x := by
  constructor
  · intro hfree
    rcases Nat.eq_zero_or_pos n with rfl | hn
    · exact .inl rfl
    have hlt := h.lt_top hfree hn
    cases hx : post.head? with
    | none =>
      have hlast := (h.last (List.head?_eq_none_iff.mp hx)).1
      omega
    | some x =>
      refine .inr ⟨x, rfl, ?_⟩
      by_contra hgt
      have hpos := (h.before hx).2.1
      have hmem := List.mem_of_mem_head? hx
      exact not_free (h.onList (by simp [hmem])) le_rfl hpos (habove x hx) (by omega) hfree.1
  · rintro (rfl | ⟨x, hx, hle⟩)
    · exact freeBelowTop_zero ha
    · have hxlt := (s.base x).toNat_lt
      refine ⟨free_iff.mpr ?_, by rw [lo] at hle; omega⟩
      rintro c hc hlt ⟨k, hk, hkc, hck⟩
      have hkmem := h.holds.onList_iff.mp hk
      obtain ⟨hpre, hpost⟩ := h.around
      have ht := h.lo_lt_hi (k := t) (by simp)
      rcases List.mem_append.mp hkmem with hkpre | hkmem
      · have := hpre k hkpre
        omega
      · rcases List.mem_cons.mp hkmem with rfl | hkpost
        · omega
        · -- the entries from `x` on
          obtain ⟨post', rfl⟩ : ∃ post', post = x :: post' :=
            ⟨post.tail, (List.cons_head?_tail hx).symm⟩
          rcases List.mem_cons.mp hkpost with rfl | hkpost
          · omega
          · have h' : s.TopLayout ((pre ++ [t]) ++ x :: post') := by simpa using h
            have hxk := h'.around.2 k hkpost
            have hxpos := h'.lo_lt_hi (k := x) (by simp)
            omega

/-- Inside an entry nothing is free. -/
theorem TopLayout.free_inside (hlo : s.lo t ≤ a) (hhi : a < s.hi t) (ha : a ≤ 2 ^ 64) :
    s.FreeBelowTop a n ↔ n = 0 := by
  constructor
  · intro hfree
    by_contra hn
    exact not_free (h.onList (by simp)) hlo hhi le_rfl (by omega) hfree.1
  · rintro rfl
    exact freeBelowTop_zero ha

end Layout

/-- Below the first entry its base is all that matters. -/
theorem TopLayout.free_below (h : s.TopLayout (t :: post)) (ha : a < s.lo t) :
    s.FreeBelowTop a n ↔ a + n ≤ s.lo t := by
  have h₀ : s.TopLayout ([] ++ t :: post) := h
  have hpos := h₀.lo_lt_hi (k := t) (by simp)
  constructor
  · intro hfree
    by_contra hgt
    exact not_free (h₀.onList (by simp)) le_rfl hpos ha.le (by omega) hfree.1
  · intro hle
    have hlt := (s.base t).toNat_lt
    refine ⟨free_iff.mpr ?_, by rw [lo] at hle; omega⟩
    rintro c hc hclt ⟨k, hk, hkc, hck⟩
    rcases List.mem_cons.mp (h.holds.onList_iff.mp hk) with rfl | hkpost
    · omega
    · have htk := h₀.around.2 k hkpost
      omega

/-! ### The ranges of the blocks -/

theorem TopLayout.addsFree_growUp (h : s.TopLayout (pre ++ t :: post)) (bytes top : UInt64) :
    s.AddsFree (.growUp (cellAfter pre) bytes top) ↔
      bytes.toNat = 0 ∨ ∃ x ∈ post.head?, s.hi t + bytes.toNat ≤ s.lo x := by
  rw [← h.free_behind le_rfl h.hi_le fun x hx => (h.before hx).1, AddsFree, Block.adds,
    deref_of_holds h.holds]
  simp

/-- Whether the next entry grows down or a new one is made, the range is the same. -/
theorem addsFree_place (h : s.links.Holds (pre ++ t :: post)) (frame bytes : UInt64)
    (out : Option UInt64) :
    s.AddsFree (s.placePlan (cellAfter pre) t frame bytes out).block ↔
      s.FreeBelowTop frame.toNat bytes.toNat := by
  rw [placePlan]
  split
  · rename_i hnext
    obtain ⟨x, hx, hbase⟩ := Option.map_eq_some_iff.mp hnext
    have hsub : s.base x - bytes = frame := by rw [hbase, UInt64.add_sub_cancel]
    rw [AddsFree, Block.adds, deref_of_holds h, Option.bind_some, hx]
    simp [hsub]
  · simp [AddsFree, Block.adds]

end VirtualAddressMap

end Betelgeuse
