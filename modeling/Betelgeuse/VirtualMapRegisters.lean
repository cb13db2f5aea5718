/-
What an allocation has registered, read off the maps before and after it.

`Registers s s' a n` says that the call which has turned the map `s` into `s'` has
registered the `n` bytes from `a` on: as the entry in a slot that it has taken, or as bytes
that an entry has gained upwards or downwards.  On a map that reaches the top of the address
space this is the range that the block of the call is there to register
(`Shows.free_iff_addsFree`), whatever slot `INSERT` picks.
-/
import Betelgeuse.VirtualMapTop
import Betelgeuse.VirtualMapFailed
import Betelgeuse.VirtualMapSlots

open HeapList WordBitmap RangeList

namespace Betelgeuse

namespace VirtualAddressMap

variable (s s' : VirtualAddressMap)

/-- The slot `k` is marked in the bitmap of `s'`, and was not in that of `s`. -/
def Took (k : Slot) : Prop :=
  ∃ i off, newIndex i off = k ∧ bit (s.freeBitmap i) off = false ∧
    bit (s'.freeBitmap i) off = true

/-- Between the maps `s` and `s'` the `n` bytes from `a` on have been registered: they are
the entry in the slot that has been taken, or, where none has, the bytes that an entry has
gained above its end, alone or with the next entry `x` joined to it, or below its base. -/
inductive Registers : ℕ → ℕ → Prop
  | insert {k : Slot} : Took s s' k → s'.links.OnList k → Registers (s'.lo k) (s'.len k).toNat
  | growUp {t : Slot} : (∀ k, ¬ Took s s' k) → s'.links.OnList t → s'.base t = s.base t →
      s'.next t = s.next t → Registers (s.hi t) (s'.len t - s.len t).toNat
  | join {t x : Slot} : (∀ k, ¬ Took s s' k) → s'.links.OnList t → s'.base t = s.base t →
      s.next t = some x → s'.next t = s.next x →
      Registers (s.hi t) (s'.len t - s.len t - s.len x).toNat
  | growDown {x : Slot} : (∀ k, ¬ Took s s' k) → s'.links.OnList x → s'.base x ≠ s.base x →
      Registers (s'.lo x) (s'.len x - s.len x).toNat

/-- Nothing that has been registered was covered, and nothing runs past `2 ^ 64`. -/
def RegistersFree : Prop := ∀ a n, Registers s s' a n → s.FreeBelowTop a n

/-- What has been registered is the range of the block, up to empty ranges. -/
structure Shows (b : Block) : Prop where
  sound : ∀ a n, Registers s s' a n → (n = 0 ∧ a ≤ 2 ^ 64) ∨ (a, n) ∈ b.adds s
  complete : ∀ r ∈ b.adds s, (r.2 = 0 ∧ r.1 ≤ 2 ^ 64) ∨ Registers s s' r.1 r.2

variable {s s'} {pre post : List Slot} {t : Slot} {l : List Slot} {a n : ℕ}

theorem Shows.free_iff_addsFree {b : Block} (h : Shows s s' b) :
    RegistersFree s s' ↔ s.AddsFree b := by
  constructor
  · intro hfree r hr
    rcases h.complete r hr with ⟨hzero, hle⟩ | hreg
    · rw [hzero]
      exact freeBelowTop_zero hle
    · exact hfree r.1 r.2 hreg
  · intro hfree a n hreg
    rcases h.sound a n hreg with ⟨rfl, hle⟩ | hr
    · exact freeBelowTop_zero hle
    · exact hfree (a, n) hr

/-! ### The slots that a block takes -/

/-- On the same bitmap no slot is taken. -/
theorem not_took (hbits : s'.freeBitmap = s.freeBitmap) (k : Slot) : ¬ Took s s' k := by
  rintro ⟨i, off, -, hclear, hset⟩
  rw [hbits, hclear] at hset
  cases hset

/-- Nor where a bit is cleared. -/
theorem not_took_clearBit {j m : ℕ} (hbits : s'.freeBitmap = clearBit s.freeBitmap j m)
    (k : Slot) : ¬ Took s s' k := by
  rintro ⟨i, off, -, hclear, hset⟩
  rw [hbits] at hset
  by_cases hi : i.val = j
  · rw [hi, clearBit, Function.update_self, bit_and_not_mask _ off.isLt, ← hi, hclear,
      Bool.and_false] at hset
    cases hset
  · rw [clearBit_of_ne _ _ hi, hclear] at hset
    cases hset

/-- `INSERT` takes the slot that it has found. -/
theorem took_iff {i : Fin virtualAddressMapFreeBitmapLength} {off : Fin 64}
    (hio : s.findFreeSlot = some (i, off)) (hbits : s'.freeBitmap = setBit s.freeBitmap i off)
    {k : Slot} : Took s s' k ↔ newIndex i off = k := by
  constructor
  · rintro ⟨j, off', rfl, hclear, hset⟩
    rw [hbits] at hset
    by_cases hj : j.val = i.val
    · rw [hj, setBit, Function.update_self, bit_or_mask _ off'.isLt, ← hj, hclear,
        Bool.or_false, decide_eq_true_eq] at hset
      rw [Fin.ext hj, Fin.ext hset]
    · rw [setBit_of_ne _ _ hj, hclear] at hset
      cases hset
  · rintro rfl
    refine ⟨i, off, rfl, bit_findFreeSlot hio, ?_⟩
    rw [hbits, setBit, Function.update_self, bit_or_mask _ off.isLt]
    simp

/-! ### Calls that change a single entry -/

/-- No slot is taken, and on the list nothing but the entry `t` changes. -/
structure ChangesOnly (s s' : VirtualAddressMap) (t : Slot) : Prop where
  not_took : ∀ k, ¬ Took s s' k
  onList : ∀ k, s'.links.OnList k → s.links.OnList k
  base : ∀ k, k ≠ t → s'.base k = s.base k
  len : ∀ k, k ≠ t → s'.len k = s.len k
  next : ∀ k, k ≠ t → s'.next k = s.next k

theorem TopLayout.hi_le_of_onList (h : s.TopLayout l) {k : Slot} (hk : s.links.OnList k) :
    s.hi k ≤ 2 ^ 64 := by
  obtain ⟨pre, post, rfl⟩ := List.append_of_mem (h.holds.onList_iff.mp hk)
  exact h.hi_le

/-- Two entries in a row do not have the same successor. -/
theorem TopLayout.next_ne_next (h : s.TopLayout l) {k x : Slot} (hk : s.links.OnList k)
    (hx : s.next k = some x) : s.next k ≠ s.next x := by
  intro heq
  exact h.holds.next_ne (.next hk hx) (heq.symm.trans hx)

/-- The other entries have gained nothing. -/
theorem TopLayout.registers_changesOnly (h : s.TopLayout l) (hc : ChangesOnly s s' t)
    (hreg : Registers s s' a n) : (n = 0 ∧ a ≤ 2 ^ 64) ∨
      (s'.base t = s.base t ∧ s'.next t = s.next t ∧ a = s.hi t ∧
        n = (s'.len t - s.len t).toNat) ∨
      (∃ x, s.next t = some x ∧ s'.next t = s.next x ∧ a = s.hi t ∧
        n = (s'.len t - s.len t - s.len x).toNat) ∨
      (s'.base t ≠ s.base t ∧ a = s'.lo t ∧ n = (s'.len t - s.len t).toNat) := by
  cases hreg with
  | insert htook _ => exact absurd htook (hc.not_took _)
  | @growUp k _ hk hbase hnext =>
    by_cases hkt : k = t
    · subst hkt
      exact .inr (.inl ⟨hbase, hnext, rfl, rfl⟩)
    · refine .inl ⟨?_, h.hi_le_of_onList (hc.onList k hk)⟩
      rw [hc.len k hkt, UInt64.sub_self]
      rfl
  | @join k x _ hk _ hx hnext =>
    by_cases hkt : k = t
    · subst hkt
      exact .inr (.inr (.inl ⟨x, hx, hnext, rfl, rfl⟩))
    · rw [hc.next k hkt] at hnext
      exact absurd hnext (h.next_ne_next (hc.onList k hk) hx)
  | @growDown x _ _ hbase =>
    by_cases hxt : x = t
    · subst hxt
      exact .inr (.inr (.inr ⟨hbase, rfl, rfl⟩))
    · exact absurd (hc.base x hxt) hbase

/-! ### The blocks -/

theorem TopLayout.shows_ret (h : s.TopLayout (pre ++ t :: post)) (code : ℤ) :
    Shows s s (.ret code) := by
  have hc : ChangesOnly s s t := ⟨not_took rfl, fun _ hk => hk, fun _ _ => rfl,
    fun _ _ => rfl, fun _ _ => rfl⟩
  refine ⟨fun a n hreg => .inl ?_, fun r hr => by cases hr⟩
  rcases h.registers_changesOnly hc hreg with
    hzero | ⟨-, -, rfl, rfl⟩ | ⟨x, hx, hnext, -⟩ | ⟨hbase, -⟩
  · exact hzero
  · refine ⟨?_, h.hi_le⟩
    rw [UInt64.sub_self]
    rfl
  · exact absurd hnext (h.next_ne_next (h.onList (by simp)) hx)
  · exact absurd rfl hbase

theorem adds_growUp (h : s.links.Holds (pre ++ t :: post)) (bytes top : UInt64) :
    Block.adds s (.growUp (cellAfter pre) bytes top) = some (s.hi t, bytes.toNat) := by
  rw [Block.adds, deref_of_holds h, Option.map_some]

/-- An entry that grows up alone. -/
theorem TopLayout.shows_growUp (h : s.TopLayout (pre ++ t :: post)) (bytes top : UInt64) :
    Shows s (s.setLen t (s.len t + bytes)) (.growUp (cellAfter pre) bytes top) := by
  set s' := s.setLen t (s.len t + bytes) with hs'
  have ht : s.links.OnList t := h.onList (by simp)
  have hlinks : s'.links = s.links := links_setLen ..
  have hbase : ∀ k, s'.base k = s.base k := fun k => base_setLen ..
  have hnext : ∀ k, s'.next k = s.next k := fun k => next_setLen ..
  have hlen : s'.len t - s.len t = bytes := by
    rw [hs', len_setLen, if_pos rfl, UInt64.add_comm, UInt64.add_sub_cancel]
  have hc : ChangesOnly s s' t := by
    refine ⟨not_took rfl, fun k hk => hlinks ▸ hk, fun k _ => hbase k,
      fun k hk => ?_, fun k _ => hnext k⟩
    rw [hs', len_setLen, if_neg hk]
  have hreg : Registers s s' (s.hi t) bytes.toNat := by
    have hreg := Registers.growUp hc.not_took (hlinks ▸ ht) (hbase t) (hnext t)
    rwa [hlen] at hreg
  refine ⟨fun a n hreg' => ?_, fun r hr => ?_⟩
  · rw [adds_growUp h.holds]
    rcases h.registers_changesOnly hc hreg' with
      hzero | ⟨-, -, rfl, rfl⟩ | ⟨x, hx, hnext', -⟩ | ⟨hbase', -⟩
    · exact .inl hzero
    · rw [hlen]
      exact .inr rfl
    · rw [hnext] at hnext'
      exact absurd hnext' (h.next_ne_next ht hx)
    · exact absurd (hbase t) hbase'
  · rw [adds_growUp h.holds] at hr
    obtain rfl := Option.some.inj hr
    exact .inr hreg

/-- An entry that grows up and is joined with the next one. -/
theorem TopLayout.shows_join {x : Slot} (h : s.TopLayout (pre ++ t :: x :: post))
    (bytes top : UInt64) : Shows s ((s.setLen t (s.len t + bytes)).join t x)
      (.growUp (cellAfter pre) bytes top) := by
  set s' := (s.setLen t (s.len t + bytes)).join t x with hs'
  have ht : s.links.OnList t := h.onList (by simp)
  have hx : s.next t = some x := next_of_holds h.holds
  have hxt : x ≠ t := ne_of_holds h.holds (by simp)
  -- `x` has left the list, and `t` has its bytes
  have hholds : s'.links.Holds (pre ++ t :: post) := by
    have hholds := h.holds.unlink_after
    simpa [hs', join] using hholds
  have hbase : ∀ k, s'.base k = s.base k := fun k => by simp [hs', join]
  have hnext : ∀ k, s'.next k = if k = t then s.next x else s.next k := by
    intro k
    have hlinks : s'.links = s.links.write (.next t) (s.next x) := by simp [hs', join]
    rw [← next_eq_links, hlinks]
    exact Function.update_apply ..
  have hlen : s'.len t - s.len t - s.len x = bytes := by
    have hlent : s'.len t = s.len t + bytes + s.len x := by
      simp [hs', join, len_setLen, hxt]
    rw [hlent]
    grind
  have hc : ChangesOnly s s' t := by
    refine ⟨not_took_clearBit rfl, fun k hk => h.onList ?_, fun k _ => hbase k,
      fun k hk => ?_, fun k hk => ?_⟩
    · have hmem := hholds.onList_iff.mp hk
      rcases List.mem_append.mp hmem with hmem | hmem
      · simp [hmem]
      · rcases List.mem_cons.mp hmem with rfl | hmem
        · simp
        · simp [hmem]
    · simp [hs', join, len_setLen, hk]
    · rw [hnext, if_neg hk]
  have hnextt : s'.next t = s.next x := by rw [hnext, if_pos rfl]
  -- of the ways to register, only a join fits what has changed
  refine ⟨fun a n hreg => ?_, fun r hr => ?_⟩
  · rw [adds_growUp h.holds]
    rcases h.registers_changesOnly hc hreg with
      hzero | ⟨-, hnext', -⟩ | ⟨y, hy, -, rfl, rfl⟩ | ⟨hbase', -⟩
    · exact .inl hzero
    · exact absurd (hnext'.symm.trans hnextt) (h.next_ne_next ht hx)
    · obtain rfl : x = y := Option.some.inj (hx.symm.trans hy)
      rw [hlen]
      exact .inr rfl
    · exact absurd (hbase t) hbase'
  · rw [adds_growUp h.holds] at hr
    obtain rfl := Option.some.inj hr
    have hreg := Registers.join hc.not_took (hholds.onList_iff.mpr (by simp)) (hbase t) hx hnextt
    rw [hlen] at hreg
    exact .inr hreg

/-- The entry `x` grows down. -/
theorem TopLayout.shows_growDown {x : Slot} (h : s.TopLayout (pre ++ t :: x :: post))
    (bytes : UInt64) : Shows s ((s.setBase x (s.base x - bytes)).setLen x (s.len x + bytes))
      (.growDown (cellAfter pre) bytes) := by
  set s' := (s.setBase x (s.base x - bytes)).setLen x (s.len x + bytes) with hs'
  have hx : s.links.OnList x := h.onList (by simp)
  have hlinks : s'.links = s.links := by simp [hs']
  have hnext : ∀ k, s'.next k = s.next k := fun k => by simp [hs']
  have hbasex : s'.base x = s.base x - bytes := by simp [hs', base_setBase]
  have hlen : s'.len x - s.len x = bytes := by
    rw [hs', len_setLen, if_pos rfl, UInt64.add_comm, UInt64.add_sub_cancel]
  -- the range of the block: the bytes below the old base
  have hadds : Block.adds s (.growDown (cellAfter pre) bytes) = some (s'.lo x, bytes.toNat) := by
    rw [Block.adds, deref_of_holds h.holds, Option.bind_some, next_of_holds h.holds, lo, hbasex]
    rfl
  have hc : ChangesOnly s s' x := by
    refine ⟨not_took rfl, fun k hk => hlinks ▸ hk, fun k hk => ?_,
      fun k hk => ?_, fun k _ => hnext k⟩
    · simp [hs', base_setBase, hk]
    · simp [hs', len_setLen, hk]
  -- without any bytes the base is the same, and an empty range shows
  have hzero : s'.base x = s.base x → bytes = 0 := by
    intro heq
    rw [hbasex] at heq
    have hsum := congrArg (· + bytes) heq
    simpa using hsum
  refine ⟨fun a n hreg => ?_, fun r hr => ?_⟩
  · rw [hadds]
    rcases h.registers_changesOnly hc hreg with
      hzero' | ⟨hbase, -, rfl, rfl⟩ | ⟨y, hy, hnext', -⟩ | ⟨-, rfl, rfl⟩
    · exact .inl hzero'
    · rw [hlen, hzero hbase]
      exact .inl ⟨rfl, h.hi_le_of_onList hx⟩
    · rw [hnext] at hnext'
      exact absurd hnext' (h.next_ne_next hx hy)
    · rw [hlen]
      exact .inr rfl
  · rw [hadds] at hr
    obtain rfl := Option.some.inj hr
    by_cases hbase : s'.base x = s.base x
    · rw [hzero hbase]
      exact .inl ⟨rfl, (s'.base x).toNat_lt.le⟩
    · have hreg := Registers.growDown hc.not_took (hlinks ▸ hx) hbase
      rw [hlen] at hreg
      exact .inr hreg

section Insert

variable {i : Fin virtualAddressMapFreeBitmapLength} {off : Fin 64} {b len : UInt64} {t' : Slot}

/-- The entry that `INSERT` links itself to is `*tripref`, or the one behind it. -/
theorem mem_of_read_write (h : s.links.Holds (pre ++ t :: post)) {k : Slot}
    (hread : (s.links.write (.next k) (s.next t)).read (cellAfter pre) = some t') :
    t' ∈ t :: post := by
  by_cases hc : cellAfter pre = .next k
  · -- the link of the new entry has been written to the cell itself
    have hnext : (s.links.write (.next k) (s.next t)).next k = s.next t := Function.update_self ..
    rw [hc, Heap.read_next, hnext, next_of_holds h] at hread
    exact List.mem_cons_of_mem t (List.mem_of_mem_head? hread)
  · rw [Heap.read_write_of_ne _ hc, h.read_cellAfter] at hread
    obtain rfl : t = t' := Option.some.inj hread
    exact List.mem_cons_self ..

/-- Even a slot that was on the list before is on it again. -/
theorem onList_linkEntry (h : s.links.Holds (pre ++ t :: post))
    (hread : (s.links.write (.next (newIndex i off)) (s.next t)).read (cellAfter pre) = some t') :
    (s.linkEntry i off b len t t').links.OnList (newIndex i off) := by
  set k := newIndex i off with hk
  have hlinks := links_linkEntry (s := s) i off b len t t'
  rw [← hk] at hlinks
  have hdisj : ∀ j ∈ pre, j ∉ t :: post := fun j hj hj' =>
    List.disjoint_of_nodup_append h.nodup hj hj'
  have hfirst : (s.linkEntry i off b len t t').links.first = s.links.first := by
    rw [hlinks]
    rfl
  have hnext : ∀ j, j ≠ k → j ≠ t' →
      (s.linkEntry i off b len t t').links.next j = s.links.next j := by
    intro j hjk hjt
    rw [hlinks]
    simp [Heap.write, hjk, hjt]
  have ht' := mem_of_read_write h hread
  by_cases hkpre : k ∈ pre
  · -- the list runs in a circle, and the slot is on the way to it
    obtain ⟨a, c, rfl⟩ := List.append_of_mem hkpre
    have h' : s.links.Holds (a ++ k :: (c ++ t :: post)) := by simpa using h
    refine h'.onList_of_prefix hfirst fun j hj => hnext j ?_ ?_
    · exact h'.ne_around (List.mem_append_left _ hj)
    · rintro rfl
      exact hdisj j (by simp [hj]) ht'
  · -- the way to `*tripref` is the same, and the new entry is linked to it
    rw [Heap.read_write_of_ne _ (cellAfter_ne hkpre), h.read_cellAfter] at hread
    obtain rfl : t = t' := Option.some.inj hread
    have ht : (s.linkEntry i off b len t t).links.OnList t := by
      refine h.onList_of_prefix hfirst fun j hj => hnext j ?_ ?_
      · rintro rfl
        exact hkpre hj
      · rintro rfl
        exact hdisj j hj (List.mem_cons_self ..)
    refine .next ht ?_
    rw [hlinks]
    simp [Heap.write]

/-- `INSERT` reads through `*tripref`. -/
theorem deref_of_insertEntry {c : Cell Slot} (hins : s.insertEntry c b len = some (some s')) :
    ∃ t, s.deref c = some t := by
  rw [VirtualAddressMap.insertEntry] at hins
  split at hins
  · cases hins
  · obtain ⟨t, ht, -⟩ := Option.bind_eq_some_iff.mp hins
    rw [deref, links_setLen, links_setBase] at ht
    exact ⟨t, ht⟩

/-- `INSERT` registers the range that it is called with, whatever slot it picks. -/
theorem shows_insert (h : s.links.Holds (pre ++ t :: post)) (full : Option ℤ)
    (hins : s.insertEntry (cellAfter pre) b len = some (some s')) :
    Shows s s' (.insert (cellAfter pre) b len full) := by
  cases hfree : s.findFreeSlot with
  | none =>
    rw [VirtualAddressMap.insertEntry, hfree] at hins
    cases hins
  | some r =>
    obtain ⟨i, off⟩ := r
    rw [insertEntry_eq (deref_of_holds h) b len hfree] at hins
    obtain ⟨t', hread, hs'⟩ := Option.map_eq_some_iff.mp hins
    obtain rfl := Option.some.inj hs'
    have hlo : (s.linkEntry i off b len t t').lo (newIndex i off) = b.toNat := by
      rw [lo, base_linkEntry, if_pos rfl]
    have hlen : (s.linkEntry i off b len t t').len (newIndex i off) = len := by
      rw [len_linkEntry, if_pos rfl]
    have htook : ∀ {k}, Took s (s.linkEntry i off b len t t') k ↔ newIndex i off = k :=
      took_iff hfree rfl
    refine ⟨fun a n hreg => .inr ?_, fun r hr => .inr ?_⟩
    · cases hreg with
      | insert hk _ =>
        obtain rfl := htook.mp hk
        rw [hlo, hlen]
        rfl
      | growUp hno _ _ _ => exact absurd (htook.mpr rfl) (hno _)
      | join hno _ _ _ _ => exact absurd (htook.mpr rfl) (hno _)
      | growDown hno _ _ => exact absurd (htook.mpr rfl) (hno _)
    · obtain rfl := Option.some.inj hr
      have hreg := Registers.insert (htook.mpr rfl) (onList_linkEntry (b := b) h hread)
      rwa [hlo, hlen] at hreg

end Insert

/-! ### All blocks -/

/-- When the block of an allocation returns 0, what it was there to register is what the map
shows. -/
theorem TopLayout.shows_perform (h : s.TopLayout l) {b : Block} (hb : b.Allocating)
    (hcell : ∀ c ∈ b.cell, s.links.OnCell c) {r : Option ℤ × VirtualAddressMap}
    (hr : s.perform b = some r) (hzero : r.1 = some 0) : Shows s r.2 b := by
  cases b with
  | ret code =>
    obtain rfl := Option.some.inj hr
    obtain ⟨t, post, rfl⟩ := List.exists_cons_of_ne_nil h.nonempty
    have h₀ : s.TopLayout ([] ++ t :: post) := h
    exact h₀.shows_ret code
  | growUp c bytes top =>
    obtain ⟨t, ht, hrun⟩ := Option.bind_eq_some_iff.mp hr
    obtain ⟨pre, post, rfl, rfl⟩ := (hcell c rfl).split h.holds ht
    dsimp only at hrun
    rw [next_setLen, next_of_holds h.holds] at hrun
    cases post with
    | nil =>
      obtain rfl := Option.some.inj hrun
      exact h.shows_growUp bytes top
    | cons x post =>
      simp only [List.head?_cons] at hrun
      split at hrun
      · obtain rfl := Option.some.inj hrun
        exact h.shows_join bytes top
      · obtain rfl := Option.some.inj hrun
        exact h.shows_growUp bytes top
  | growDown c bytes =>
    obtain ⟨t, ht, hrun⟩ := Option.bind_eq_some_iff.mp hr
    obtain ⟨x, hx, hrun⟩ := Option.bind_eq_some_iff.mp hrun
    obtain ⟨pre, post, rfl, rfl⟩ := (hcell c rfl).split h.holds ht
    rw [next_of_holds h.holds] at hx
    obtain ⟨post, rfl⟩ : ∃ post', post = x :: post' := ⟨post.tail, (List.cons_head?_tail hx).symm⟩
    dsimp only at hrun
    rw [len_setBase] at hrun
    obtain rfl := Option.some.inj hrun
    exact h.shows_growDown bytes
  | insert c base len full =>
    obtain ⟨r', hins, hrun⟩ := Option.bind_eq_some_iff.mp hr
    cases r' with
    | none =>
      -- without a slot the call returns -1
      obtain rfl := Option.some.inj hrun
      rw [show full = some (-1) from hb] at hzero
      cases hzero
    | some s' =>
      obtain rfl := Option.some.inj hrun
      obtain ⟨t, ht⟩ := deref_of_insertEntry hins
      obtain ⟨pre, post, rfl, rfl⟩ := (hcell c rfl).split h.holds ht
      exact shows_insert h.holds full hins
  | cut c frame bytes full => exact hb.elim
  | unlink c code => exact hb.elim

end VirtualAddressMap

end Betelgeuse
