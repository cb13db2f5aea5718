/-
Free ranges, and the two ways in which the allocators take one.

`Free s a n` says that no address of `[a, a + n)` is covered, `freeFrom` is the
set of page-aligned addresses from which a range is free, and `Adds s a n s'`
that `s'` is well-formed and covers `[a, a + n)` in addition.

An allocator that has found its place either extends the entry before it
(`Layout.extend_exact`) or takes one of the two branches of `placePlan`: extend
the entry behind the range downwards, or `INSERT` an entry.  `INSERT` takes the
first slot whose bit is clear.  When that slot is already on the list, the entry
in it is overwritten and the addresses it covered are lost
(`Layout.insertEntry_loses`), so that `place_iff` holds in both directions.
-/
import Betelgeuse.VirtualMapCalls
import Mathlib.Data.Set.BooleanAlgebra
import Mathlib.Order.CompletePartialOrder
import Mathlib.Order.Bounds.Basic

open HeapList WordBitmap RangeList

namespace Betelgeuse

namespace VirtualAddressMap

variable (s : VirtualAddressMap)

/-- Nothing in `[a, a + n)` is covered. -/
def Free (a n : ℕ) : Prop := Disjoint (Set.Ico a (a + n)) s.addresses

/-- The page-aligned addresses at or above `base` from which `n` bytes are free. -/
def freeFrom (base : UInt64) (n : ℕ) : Set ℕ :=
  {a | base.toNat ≤ a ∧ a % 4096 = 0 ∧ s.Free a n}

/-- `s'` is well-formed and covers what `s` covers and `[a, a + n)`.  Being well-formed is
a matter of the list of entries; of the bitmap of slots in use it says nothing. -/
structure Adds (a n : ℕ) (s' : VirtualAddressMap) : Prop where
  wellFormed : s'.WellFormed
  addresses : s'.addresses = s.addresses ∪ Set.Ico a (a + n)

/-- A range that ends at `top` can be registered: an entry starts at `top`, or
the slot `INSERT` picks is not on the list. -/
def SlotFor (top : ℕ) : Prop := (∃ x, s.links.OnList x ∧ s.lo x = top) ∨ s.FreshSlot

/-- The last two branches of the allocators: extend the next entry downwards, or
insert a new one. -/
def placePlan (c : Cell Slot) (t : Slot) (frame bytes : UInt64) (out : Option UInt64) : Plan :=
  if s.nextBase t = some (frame + bytes) then ⟨out, .growDown c bytes⟩
  else ⟨out, .insert c frame bytes (some (-1))⟩

variable {s} {pre post : List Slot} {t : Slot}

/-! ### Free ranges -/

theorem free_iff {a n : ℕ} : s.Free a n ↔ ∀ c, a ≤ c → c < a + n → c ∉ s.addresses := by
  rw [Free, Set.disjoint_left]
  exact forall_congr' fun c => and_imp

theorem Free.mono {a n b m : ℕ} (h : s.Free a n) (hle : a ≤ b) (hend : b + m ≤ a + n) :
    s.Free b m := by
  rw [free_iff] at h ⊢
  intro c hc hlt
  exact h c (by omega) (by omega)

/-- A range in which an address of an entry lies is not free. -/
theorem not_free {a n c : ℕ} {k : Slot} (hk : s.links.OnList k) (hlo : s.lo k ≤ c)
    (hhi : c < s.hi k) (ha : a ≤ c) (hn : c < a + n) : ¬ s.Free a n := by
  intro h
  exact free_iff.mp h c ha hn ⟨k, hk, hlo, hhi⟩

theorem Layout.lt_of_mem_pre (h : s.Layout (pre ++ t :: post)) {k : Slot} (hk : k ∈ pre) :
    s.hi k < s.lo t :=
  (List.pairwise_append.mp (h.apart.pairwise fun k _ => s.lo_le_hi k)).2.2 k hk t (by simp)

/-- Where an entry stands as seen from another one. -/
theorem Layout.onList_cases (h : s.Layout (pre ++ t :: post)) {k : Slot}
    (hk : s.links.OnList k) :
    (k ∈ pre ∧ s.hi k < s.lo t) ∨ k = t ∨ ∃ x ∈ post.head?, k = x ∨ s.hi x < s.lo k := by
  have hpair := List.pairwise_append.mp (h.apart.pairwise fun k _ => s.lo_le_hi k)
  rcases List.mem_append.mp (h.holds.onList_iff.mp hk) with hpre | hk
  · exact .inl ⟨hpre, h.lt_of_mem_pre hpre⟩
  rcases List.mem_cons.mp hk with rfl | hpost
  · exact .inr (.inl rfl)
  · cases post with
    | nil => cases hpost
    | cons x post =>
      refine .inr (.inr ⟨x, rfl, ?_⟩)
      rcases List.mem_cons.mp hpost with rfl | hpost
      · exact .inl rfl
      · exact .inr ((List.pairwise_cons.mp (List.pairwise_cons.mp hpair.2.1).2).1 k hpost)

/-- The entries from `t` on are those that start there or higher. -/
theorem Layout.mem_iff_lo_le (h : s.Layout (pre ++ t :: post)) {k : Slot}
    (hk : s.links.OnList k) : k ∈ t :: post ↔ s.lo t ≤ s.lo k := by
  constructor
  · intro hmem
    rcases List.mem_cons.mp hmem with rfl | hpost
    · exact le_rfl
    · obtain ⟨a, b, rfl⟩ := List.append_of_mem hpost
      have hk' : s.Layout ((pre ++ t :: a) ++ k :: b) := by simpa using h
      have hlt := hk'.lt_of_mem_pre (k := t) (by simp)
      have hle := s.lo_le_hi t
      omega
  · intro hlo
    refine (List.mem_append.mp (h.holds.onList_iff.mp hk)).resolve_left fun hpre => ?_
    have hlt := h.lt_of_mem_pre hpre
    have hle := s.lo_le_hi k
    omega

/-- No entry stands before the first one. -/
theorem Layout.lo_le_of_first {l : List Slot} (h : s.Layout l) (hfirst : s.first = some t)
    {k : Slot} (hk : s.links.OnList k) : s.lo t ≤ s.lo k := by
  have hhead : s.first = l.head? := h.holds.head?_eq
  obtain ⟨post, rfl⟩ : ∃ post, l = t :: post :=
    ⟨l.tail, (List.cons_head?_tail (hhead.symm.trans hfirst)).symm⟩
  have ht : s.Layout ([] ++ t :: post) := h
  exact (ht.mem_iff_lo_le hk).mp (h.holds.onList_iff.mp hk)

/-- Where two neighbours on the same list touch or overlap, the map is not
well-formed. -/
theorem Layout.not_wellFormed (h : s.Layout (pre ++ t :: post)) {s' : VirtualAddressMap}
    (hlinks : s'.links = s.links) {x : Slot} (hx : x ∈ post.head?) (hle : s'.lo x ≤ s'.hi t) :
    ¬ s'.WellFormed := by
  rintro ⟨l, hl⟩
  have hholds := h.holds
  rw [← hlinks] at hholds
  obtain rfl := hl.holds.unique hholds
  have hgap := hl.gap x hx
  omega

/-- The entries start higher and higher. -/
theorem Layout.ascending {l : List Slot} (h : s.Layout l) :
    l.Pairwise fun a b => s.lo a < s.lo b :=
  (h.apart.pairwise fun k _ => s.lo_le_hi k).imp fun {a} {_} hab => (s.lo_le_hi a).trans_lt hab

/-- What holds along a stretch of the list holds of every entry in it and its
successor, up to the last one. -/
theorem rel_of_holds {R : Slot → Slot → Prop} {mid : List Slot} {e : Slot}
    (h : s.links.Holds (pre ++ (mid ++ e :: post)))
    (hinc : (pre ++ (mid ++ e :: post)).Pairwise fun a b => s.lo a < s.lo b)
    (hchain : (mid ++ [e]).IsChain R) {k x : Slot} (hk : s.links.OnList k)
    (hlo : ∀ a ∈ (mid ++ [e]).head?, s.lo a ≤ s.lo k) (hlt : s.lo k < s.lo e)
    (hx : s.next k = some x) : R k x := by
  obtain ⟨a, y, b, heq, hrel⟩ :=
    rel_of_chain hinc hchain (h.onList_iff.mp hk) hlo hlt
  have hl : s.links.Holds ((pre ++ a) ++ k :: (y :: b ++ post)) := by
    rw [← List.singleton_append (x := e), ← List.append_assoc mid, heq] at h
    simpa using h
  obtain rfl : y = x := Option.some.inj (hl.next_eq.symm.trans hx)
  exact hrel

theorem Layout.rel_of_chain {R : Slot → Slot → Prop} {mid : List Slot} {e : Slot}
    (h : s.Layout (pre ++ (mid ++ e :: post))) (hchain : (mid ++ [e]).IsChain R) {k x : Slot}
    (hk : s.links.OnList k) (hlo : ∀ a ∈ (mid ++ [e]).head?, s.lo a ≤ s.lo k)
    (hlt : s.lo k < s.lo e) (hx : s.next k = some x) : R k x :=
  rel_of_holds h.holds h.ascending hchain hk hlo hlt hx

/-- The last entry ends highest. -/
theorem Layout.exists_last {l : List Slot} (h : s.Layout l) :
    ∃ e, s.links.OnList e ∧ s.next e = none ∧ ∀ k, s.links.OnList k → s.hi k ≤ s.hi e := by
  obtain ⟨pre, e, rfl⟩ := List.eq_nil_or_concat l |>.resolve_left h.nonempty
  rw [List.concat_eq_append] at h
  refine ⟨e, h.onList_self, h.next_eq, fun k hk => ?_⟩
  have hle := s.lo_le_hi e
  rcases h.onList_cases hk with ⟨-, hlt⟩ | rfl | ⟨x, hx, -⟩
  · omega
  · exact le_rfl
  · cases hx

/-- Between an entry and the next one nothing is covered. -/
theorem Layout.not_mem_addresses (h : s.Layout (pre ++ t :: post)) {a : ℕ} (hlo : s.hi t ≤ a)
    (hgap : ∀ x ∈ post.head?, a < s.lo x) : a ∉ s.addresses := by
  rintro ⟨k, hk, hka, hak⟩
  have ht := s.lo_le_hi t
  rcases h.onList_cases hk with ⟨-, hlt⟩ | rfl | ⟨x, hx, hkx⟩
  · omega
  · omega
  · have hlt := hgap x hx
    have hle := s.lo_le_hi x
    rcases hkx with rfl | hkx
    · omega
    · omega

theorem Layout.free_gap (h : s.Layout (pre ++ t :: post)) {a n : ℕ} (hlo : s.hi t ≤ a)
    (hgap : ∀ x ∈ post.head?, a + n ≤ s.lo x) : s.Free a n := by
  rw [free_iff]
  intro c hc hlt
  refine h.not_mem_addresses (by omega) fun x hx => ?_
  have := hgap x hx
  omega

/-- A range between an entry and the start of the next one or beyond is free
exactly if it ends at or below the next entry. -/
theorem Layout.free_iff_gap (h : s.Layout (pre ++ t :: post)) {a n : ℕ} (hlo : s.hi t ≤ a)
    (hbelow : ∀ x ∈ post.head?, a ≤ s.lo x) :
    s.Free a n ↔ ∀ x ∈ post.head?, a + n ≤ s.lo x := by
  refine ⟨fun hfree x hx => ?_, h.free_gap hlo⟩
  by_contra hlt
  have hpos := (h.entry_head hx).lo_lt_hi
  exact not_free (h.onList_head hx) le_rfl hpos (hbelow x hx) (by omega) hfree

/-! ### `INSERT` with a slot that is in use -/

/-- What `INSERT` writes: no slot but the one that it picks joins the list, and the
entry in that slot is the only one that changes. -/
theorem insertEntry_writes {c : Cell Slot} (ht : s.deref c = some t) (hon : s.links.OnList t)
    {b l : UInt64} {i : Fin virtualAddressMapFreeBitmapLength} {o : Fin 64}
    (hfree : s.findFreeSlot = some (i, o)) {r : Option VirtualAddressMap}
    (hr : s.insertEntry c b l = some r) :
    ∃ s', r = some s' ∧ s'.first = s.first ∧ s'.freeBitmap = setBit s.freeBitmap i o ∧
      (∀ j, s'.links.OnList j → s.links.OnList j ∨ j = newIndex i o) ∧
      (∀ j, s'.base j = if j = newIndex i o then b else s.base j) ∧
      ∀ j, s'.len j = if j = newIndex i o then l else s.len j := by
  rw [insertEntry_eq ht b l hfree] at hr
  -- the entry whose link is written last may be another one than `t`
  obtain ⟨t', -, rfl⟩ := Option.map_eq_some_iff.mp hr
  refine ⟨_, rfl, rfl, rfl, fun j hj => ?_, fun j => base_linkEntry .., fun j => len_linkEntry ..⟩
  rw [links_linkEntry] at hj
  refine hj.mem_of_closed (S := {j | s.links.OnList j ∨ j = newIndex i o})
    (fun j hj => .inl (.first hj)) fun j hj j' hnext => ?_
  simp only [Heap.write, Function.update_apply] at hnext
  split at hnext
  · exact .inr (Option.some.inj hnext).symm
  · split at hnext
    · exact .inl (hon.next hnext)
    · rename_i hjk
      exact .inl (.next (hj.resolve_right hjk) hnext)

/-- When the slot is on the list already, no other slot joins the list. -/
theorem insertEntry_used (h : s.links.Holds (pre ++ t :: post)) {b l : UInt64}
    {i : Fin virtualAddressMapFreeBitmapLength} {o : Fin 64}
    (hfree : s.findFreeSlot = some (i, o)) (hused : s.links.OnList (newIndex i o))
    {r : Option VirtualAddressMap} (hr : s.insertEntry (cellAfter pre) b l = some r) :
    ∃ s', r = some s' ∧ (∀ j, s'.links.OnList j → s.links.OnList j) ∧
      (∀ j, s'.base j = if j = newIndex i o then b else s.base j) ∧
      ∀ j, s'.len j = if j = newIndex i o then l else s.len j := by
  obtain ⟨s', rfl, -, -, hlist, hbase, hlen⟩ :=
    insertEntry_writes h.read_cellAfter (h.onList_iff.mpr (by simp)) hfree hr
  refine ⟨s', rfl, fun j hj => (hlist j hj).elim id ?_, hbase, hlen⟩
  rintro rfl
  exact hused

/-- `INSERT` leaves by its other way out only without a slot. -/
theorem insertEntry_isSome (hslot : ¬ s.Full) {c : Cell Slot} {b l : UInt64}
    {r : Option VirtualAddressMap} (hr : s.insertEntry c b l = some r) : ∃ s', r = some s' := by
  obtain ⟨⟨i, off⟩, hio⟩ := Option.ne_none_iff_exists'.mp hslot
  rw [VirtualAddressMap.insertEntry, hio] at hr
  obtain ⟨t₁, -, hr⟩ := Option.bind_eq_some_iff.mp hr
  obtain ⟨t₂, -, hr⟩ := Option.bind_eq_some_iff.mp hr
  exact ⟨_, (Option.some.inj hr).symm⟩

/-- What lies in entries of other slots only, and outside the new range, is not
covered afterwards. -/
theorem insertEntry_loses (h : s.links.Holds (pre ++ t :: post)) {b l : UInt64}
    {i : Fin virtualAddressMapFreeBitmapLength} {o : Fin 64}
    (hfree : s.findFreeSlot = some (i, o)) (hused : s.links.OnList (newIndex i o))
    {s' : VirtualAddressMap} (hr : s.insertEntry (cellAfter pre) b l = some (some s')) {a : ℕ}
    (hout : a < b.toNat ∨ b.toNat + l.toNat ≤ a)
    (honly : ∀ j, s.links.OnList j → j ≠ newIndex i o → s.lo j ≤ a → s.hi j ≤ a) :
    a ∉ s'.addresses := by
  obtain ⟨s'', hs'', hlist, hbase, hlen⟩ := insertEntry_used h hfree hused hr
  obtain rfl := Option.some.inj hs''
  rintro ⟨j, hj, hlo, hhi⟩
  by_cases hjk : j = newIndex i o
  · rw [lo, hbase, if_pos hjk] at hlo
    rw [hi, hbase, hlen, if_pos hjk, if_pos hjk] at hhi
    omega
  · have hsame : s'.base j = s.base j ∧ s'.len j = s.len j := by
      rw [hbase, hlen, if_neg hjk, if_neg hjk]
      exact ⟨rfl, rfl⟩
    obtain ⟨hlo', hhi'⟩ := lo_hi_congr hsame
    rw [hlo'] at hlo
    rw [hhi'] at hhi
    have := honly j (hlist j hj) hjk hlo
    omega

/-- Different entries have no address in common. -/
theorem Layout.eq_of_mem {l : List Slot} (h : s.Layout l) {j k : Slot} {a : ℕ}
    (hj : s.links.OnList j) (hk : s.links.OnList k) (haj : s.lo j ≤ a ∧ a < s.hi j)
    (hak : s.lo k ≤ a ∧ a < s.hi k) : j = k := by
  obtain ⟨pre, post, rfl⟩ := List.append_of_mem (h.holds.onList_iff.mp hk)
  have hle := s.lo_le_hi
  rcases h.onList_cases hj with ⟨-, hlt⟩ | heq | ⟨x, hx, rfl | hjx⟩
  · omega
  · exact heq
  · have := h.gap j hx
    omega
  · have := h.gap x hx
    have := hle x
    omega

/-- The entry that stood in the slot is lost. -/
theorem Layout.insertEntry_lost (h : s.Layout (pre ++ t :: post)) {b l : UInt64}
    (hout : s.Free b.toNat l.toNat) {i : Fin virtualAddressMapFreeBitmapLength} {o : Fin 64}
    (hfree : s.findFreeSlot = some (i, o)) (hused : s.links.OnList (newIndex i o))
    {s' : VirtualAddressMap} (hr : s.insertEntry (cellAfter pre) b l = some (some s')) :
    ∃ a ∈ s.addresses, a ∉ s'.addresses := by
  set k := newIndex i o with hk
  have hpos := (h.entry k (h.holds.onList_iff.mp hused)).lo_lt_hi
  have hmem : s.lo k ∈ s.addresses := ⟨k, hused, le_rfl, hpos⟩
  refine ⟨s.lo k, hmem, insertEntry_loses h.holds hfree hused hr ?_ fun j hj hjk hlo => ?_⟩
  · by_contra hin
    exact free_iff.mp hout (s.lo k) (by omega) (by omega) hmem
  · by_contra hlt
    exact hjk (h.eq_of_mem hj hused ⟨hlo, by omega⟩ ⟨le_rfl, hpos⟩)

/-! ### The two ways of adding a range -/

/-- Extending the entry the search stopped at up to the next entry at most. -/
theorem Layout.extend_exact (h : s.Layout (pre ++ t :: post)) (bytes : UInt64)
    (hw : bytes.toNat % 4096 = 0) (hfit : s.hi t + bytes.toNat < 2 ^ 64)
    (hgap : ∀ x ∈ post.head?, s.hi t + bytes.toNat ≤ s.lo x) :
    ∃ s', s.perform (.growUp (cellAfter pre) bytes (s.base t + (s.len t + bytes))) =
        some (some 0, s') ∧ s.Adds (s.hi t) bytes.toNat s' := by
  have htop : ∀ x, s.base t + (s.len t + bytes) = s.base x ↔ s.hi t + bytes.toNat = s.lo x := by
    intro x
    rw [← UInt64.toNat_inj, h.toNat_top hfit]
    exact Iff.rfl
  by_cases htouch : ∃ x ∈ post.head?, s.hi t + bytes.toNat = s.lo x
  · obtain ⟨x, hx, htouch⟩ := htouch
    obtain ⟨post, rfl⟩ : ∃ post', post = x :: post' := ⟨post.tail, (List.cons_head?_tail hx).symm⟩
    obtain ⟨s', hs', hwf, haddr⟩ := h.growUp_join htouch ((htop x).mpr htouch)
    exact ⟨s', hs', hwf, haddr⟩
  · have hne : ∀ x ∈ post.head?, s.hi t + bytes.toNat ≠ s.lo x :=
      fun x hx heq => htouch ⟨x, hx, heq⟩
    obtain ⟨s', hs', hwf, haddr⟩ := h.growUp hw hfit
      (fun x hx => lt_of_le_of_ne (hgap x hx) (hne x hx))
      (fun x hx heq => hne x hx ((htop x).mp heq))
    exact ⟨s', hs', hwf, haddr⟩

section Place

variable {frame bytes : UInt64}

/-- The placing branches write `*frame` as told and never return 1. -/
theorem placePlan_run {c : Cell Slot} {frame bytes : UInt64} {out : Option UInt64} {o : Outcome}
    (ho : (s.placePlan c t frame bytes out).run s = some o) :
    o.frame = out ∧ (o.code = some 0 ∨ o.code = some (-1)) := by
  rw [placePlan] at ho
  split at ho
  · obtain ⟨r, hr, rfl⟩ := Option.map_eq_some_iff.mp ho
    refine ⟨rfl, .inl ?_⟩
    rw [perform] at hr
    obtain ⟨t, -, hr⟩ := Option.bind_eq_some_iff.mp hr
    obtain ⟨x, -, hr⟩ := Option.bind_eq_some_iff.mp hr
    obtain rfl := Option.some.inj hr
    rfl
  · obtain ⟨r, hr, rfl⟩ := Option.map_eq_some_iff.mp ho
    refine ⟨rfl, ?_⟩
    rw [perform] at hr
    obtain ⟨r', -, hr⟩ := Option.bind_eq_some_iff.mp hr
    cases r' with
    | none =>
      obtain rfl := Option.some.inj hr
      exact .inr rfl
    | some s' =>
      obtain rfl := Option.some.inj hr
      exact .inl rfl

/-- `INSERT` without a slot. -/
theorem place_refused (hfull : s.Full) (hne : s.nextBase t ≠ some (frame + bytes))
    (c : Cell Slot) (out : Option UInt64) :
    (s.placePlan c t frame bytes out).run s = some ⟨some (-1), out, s⟩ := by
  rw [placePlan, if_neg hne, Plan.run, perform, VirtualAddressMap.insertEntry,
    show s.findFreeSlot = none from hfull]
  rfl

/-- `INSERT` with a slot returns 0, if it returns. -/
theorem place_inserts (hslot : ¬ s.Full) (hne : s.nextBase t ≠ some (frame + bytes))
    {c : Cell Slot} {out : Option UInt64} {o : Outcome}
    (ho : (s.placePlan c t frame bytes out).run s = some o) : o.code = some 0 := by
  rw [placePlan, if_neg hne] at ho
  obtain ⟨r, hr, rfl⟩ := Option.map_eq_some_iff.mp ho
  rw [perform] at hr
  obtain ⟨r', hins, hr⟩ := Option.bind_eq_some_iff.mp hr
  obtain ⟨s', rfl⟩ := insertEntry_isSome hslot hins
  obtain rfl := Option.some.inj hr
  rfl

/-- Extending the next entry downwards. -/
theorem Layout.place_down (h : s.Layout (pre ++ t :: post)) (out : Option UInt64)
    (hw : bytes.toNat % 4096 = 0)
    (hfit : frame.toNat + bytes.toNat < 2 ^ 64) (hgt : s.hi t < frame.toNat) {x : Slot}
    (hx : x ∈ post.head?) (htop : s.lo x = frame.toNat + bytes.toNat) :
    ∃ s', (s.placePlan (cellAfter pre) t frame bytes out).run s = some ⟨some 0, out, s'⟩ ∧
      s.Adds frame.toNat bytes.toNat s' := by
  have hsum : (frame + bytes).toNat = frame.toNat + bytes.toNat := toNat_add_of_lt hfit
  obtain ⟨post, rfl⟩ : ∃ post', post = x :: post' := ⟨post.tail, (List.cons_head?_tail hx).symm⟩
  obtain ⟨s', hs', hwf, haddr⟩ := h.growDown hw (by omega)
  have hdown : s.nextBase t = some (frame + bytes) :=
    h.nextBase_eq_some.mpr ⟨x, rfl, UInt64.toNat_inj.mp (htop.trans hsum.symm)⟩
  refine ⟨s', ?_, hwf, ?_⟩
  · rw [placePlan, if_pos hdown, Plan.run, hs']
    rfl
  · rw [haddr, htop, Nat.add_sub_cancel]

theorem Layout.nextBase_ne (h : s.Layout (pre ++ t :: post))
    (hfit : frame.toNat + bytes.toNat < 2 ^ 64)
    (hne : ∀ x ∈ post.head?, s.lo x ≠ frame.toNat + bytes.toNat) :
    s.nextBase t ≠ some (frame + bytes) := by
  intro hdown
  obtain ⟨x, hx, hbase⟩ := h.nextBase_eq_some.mp hdown
  refine hne x hx ?_
  rw [lo, hbase, toNat_add_of_lt hfit]

/-- A new range above the entry the search stopped at: it is added, or there is
no slot and the map stays as it is. -/
theorem Layout.place_exact (h : s.Layout (pre ++ t :: post)) (frame bytes : UInt64)
    (out : Option UInt64) (hfor : s.Full ∨ s.SlotFor (frame.toNat + bytes.toNat))
    (hf : frame.toNat % 4096 = 0) (hw : bytes.toNat % 4096 = 0) (hpos : 0 < bytes.toNat)
    (hfit : frame.toNat + bytes.toNat < 2 ^ 64) (hgt : s.hi t < frame.toNat)
    (hgap : ∀ x ∈ post.head?, frame.toNat + bytes.toNat ≤ s.lo x) :
    (∃ s', (s.placePlan (cellAfter pre) t frame bytes out).run s = some ⟨some 0, out, s'⟩ ∧
      s.Adds frame.toNat bytes.toNat s') ∨
    s.Full ∧ (s.placePlan (cellAfter pre) t frame bytes out).run s = some ⟨some (-1), out, s⟩ := by
  by_cases htop : ∃ x ∈ post.head?, s.lo x = frame.toNat + bytes.toNat
  · obtain ⟨x, hx, htop⟩ := htop
    exact .inl (h.place_down out hw hfit hgt hx htop)
  have hne : ∀ x ∈ post.head?, s.lo x ≠ frame.toNat + bytes.toNat :=
    fun x hx heq => htop ⟨x, hx, heq⟩
  by_cases hfull : s.Full
  · exact .inr ⟨hfull, place_refused hfull (h.nextBase_ne hfit hne) _ out⟩
  -- no other entry can start at the top either: the range is free up to the next one
  have hfresh : s.FreshSlot := by
    refine (hfor.resolve_left hfull).resolve_left ?_
    rintro ⟨k, hk, hlo⟩
    have hle := s.lo_le_hi
    rcases h.onList_cases hk with ⟨-, hlt⟩ | rfl | ⟨x, hx, rfl | hkx⟩
    · have := hle k
      have := hle t
      omega
    · have := hle k
      omega
    · exact hne k hx hlo
    · have := hgap x hx
      have := hle x
      omega
  have hlt : ∀ x ∈ post.head?, frame.toNat + bytes.toNat < s.lo x :=
    fun x hx => lt_of_le_of_ne (hgap x hx) (hne x hx).symm
  rcases h.insert (some (-1)) (hfresh.not_mem h) hf hw hpos hfit hgt hlt with
    ⟨hnone, -⟩ | ⟨s', hs', hwf, haddr⟩
  · exact absurd hnone hfull
  · refine .inl ⟨s', ?_, hwf, haddr⟩
    rw [placePlan, if_neg (h.nextBase_ne hfit hne), Plan.run, hs']
    rfl

/-- A free range above the entry the search stopped at is added exactly if it
can be registered. -/
theorem Layout.place_iff (h : s.Layout (pre ++ t :: post)) (out : Option UInt64)
    (hslot : ¬ s.Full) (hf : frame.toNat % 4096 = 0) (hw : bytes.toNat % 4096 = 0)
    (hpos : 0 < bytes.toNat) (hfit : frame.toNat + bytes.toNat < 2 ^ 64)
    (hgt : s.hi t < frame.toNat)
    (hgap : ∀ x ∈ post.head?, frame.toNat + bytes.toNat ≤ s.lo x) :
    (∃ o, (s.placePlan (cellAfter pre) t frame bytes out).run s = some o ∧ o.code = some 0 ∧
      s.Adds frame.toNat bytes.toNat o.map) ↔ s.SlotFor (frame.toNat + bytes.toNat) := by
  constructor
  · rintro ⟨o, ho, hcode, hadds⟩
    by_contra hnot
    rw [SlotFor, not_or, FreshSlot] at hnot
    obtain ⟨htop, hused⟩ := hnot
    push Not at hused
    obtain ⟨i, off, hio, hused⟩ := hused
    have hne : s.nextBase t ≠ some (frame + bytes) :=
      h.nextBase_ne hfit fun x hx heq => htop ⟨x, h.onList_head hx, heq⟩
    rw [placePlan, if_neg hne] at ho
    obtain ⟨r, hr, rfl⟩ := Option.map_eq_some_iff.mp ho
    rw [perform] at hr
    obtain ⟨r', hins, hr⟩ := Option.bind_eq_some_iff.mp hr
    obtain ⟨s', rfl⟩ := insertEntry_isSome hslot hins
    obtain rfl := Option.some.inj hr
    -- the map was to keep what it covered
    obtain ⟨a, ha, hlost⟩ := h.insertEntry_lost (h.free_gap hgt.le hgap) hio hused hins
    refine hlost ?_
    rw [show s'.addresses = _ from hadds.addresses]
    exact .inl ha
  · intro hfor
    rcases h.place_exact frame bytes out (.inr hfor) hf hw hpos hfit hgt hgap with
      ⟨s', hs', hadds⟩ | ⟨hfull, -⟩
    · exact ⟨_, hs', rfl, hadds⟩
    · exact absurd hfull hslot

/-- The placing branches where a function ought to test first whether the range
is free: they never return 1, so it must be free. -/
theorem Layout.place_serves_iff (h : s.Layout (pre ++ t :: post)) (bytes : UInt64)
    (out : Option UInt64) (F : Prop) (hf : frame.toNat % 4096 = 0)
    (hw : bytes.toNat % 4096 = 0) (hpos : 0 < bytes.toNat)
    (hfit : frame.toNat + bytes.toNat < 2 ^ 64) (hgt : s.hi t < frame.toNat)
    (hfree : F ↔ ∀ x ∈ post.head?, frame.toNat + bytes.toNat ≤ s.lo x) :
    (∃ o, (s.placePlan (cellAfter pre) t frame bytes out).run s = some o ∧
      (¬ F → o.code = some 1 ∧ o.map = s) ∧
      (F → ¬ s.Full → o.code = some 0 ∧ s.Adds frame.toNat bytes.toNat o.map)) ↔
    F ∧ (s.Full ∨ s.SlotFor (frame.toNat + bytes.toNat)) := by
  constructor
  · rintro ⟨o, ho, hone, hzero⟩
    have hroom : F := by
      by_contra hnot
      have hone := (hone hnot).1
      rcases (placePlan_run ho).2 with hcode | hcode
      · cases hone.symm.trans hcode
      · cases hone.symm.trans hcode
    refine ⟨hroom, or_iff_not_imp_left.mpr fun hslot => ?_⟩
    exact (h.place_iff out hslot hf hw hpos hfit hgt (hfree.mp hroom)).mp
      ⟨o, ho, hzero hroom hslot⟩
  · rintro ⟨hroom, hfor⟩
    rcases h.place_exact frame bytes out hfor hf hw hpos hfit hgt (hfree.mp hroom) with
      ⟨s', hs', hadds⟩ | ⟨hfull, hs'⟩
    · exact ⟨_, hs', fun hnot => absurd hroom hnot, fun _ _ => ⟨rfl, hadds⟩⟩
    · exact ⟨_, hs', fun hnot => absurd hroom hnot, fun _ hslot => absurd hfull hslot⟩

end Place

/-! ### The lowest free range -/

section Lowest

variable {base : UInt64} {n : ℕ}

/-- From inside an entry on, or from its end, nothing is free below its end. -/
theorem Layout.hi_le_of_free (h : s.Layout (pre ++ t :: post)) {a : ℕ} (hlo : s.lo t ≤ a)
    (hpos : 0 < n) (hfree : s.Free a n) : s.hi t ≤ a := by
  by_contra hlt
  exact not_free h.onList_self hlo (not_le.mp hlt) le_rfl (by omega) hfree

/-- The same along a stretch of entries with gaps that are all too small. -/
theorem Layout.hi_le_of_chain (hpos : 0 < n) : ∀ {mid pre post : List Slot} {e : Slot},
    s.Layout (pre ++ (mid ++ e :: post)) →
    (mid ++ [e]).IsChain (fun a b => s.lo b < s.hi a + n) →
    ∀ {a : ℕ}, (∀ k ∈ (mid ++ [e]).head?, s.lo k ≤ a) → s.Free a n → s.hi e ≤ a := by
  intro mid
  induction mid with
  | nil =>
    intro pre post e h _ a hlo hfree
    exact h.hi_le_of_free (hlo e rfl) hpos hfree
  | cons k mid ih =>
    intro pre post e h hchain a hlo hfree
    have hk : s.Layout (pre ++ k :: (mid ++ e :: post)) := h
    have hge := hk.hi_le_of_free (hlo k rfl) hpos hfree
    have h' : s.Layout ((pre ++ [k]) ++ (mid ++ e :: post)) := by simpa using h
    rw [List.cons_append, List.isChain_cons] at hchain
    obtain ⟨hsmall, hchain⟩ := hchain
    refine ih h' hchain (fun b hb => ?_) hfree
    -- the next entry starts inside the range, if not below it
    have hb' : b ∈ (mid ++ e :: post).head? := by
      cases mid with
      | nil => exact hb
      | cons c mid => exact hb
    have hlt := hsmall b hb
    by_contra hab
    exact not_free (hk.onList_head hb') le_rfl (hk.entry_head hb').lo_lt_hi (by omega)
      (by omega) hfree

/-- When the address lies in an entry or at its end, and the range behind the
entry is free, that is the lowest free range. -/
theorem Layout.isLeast_hi (h : s.Layout (pre ++ t :: post)) (hlo : s.lo t ≤ base.toNat)
    (hhi : base.toNat ≤ s.hi t) (hpos : 0 < n) (hfree : s.Free (s.hi t) n) :
    IsLeast (s.freeFrom base n) (s.hi t) := by
  refine ⟨⟨hhi, h.entry_self.hi_aligned, hfree⟩, ?_⟩
  rintro a ⟨hle, -, ha⟩
  exact h.hi_le_of_free (hlo.trans hle) hpos ha

/-- When the range is free at the address itself, it is the lowest one. -/
theorem isLeast_base (hal : base.toNat % 4096 = 0) (hfree : s.Free base.toNat n) :
    IsLeast (s.freeFrom base n) base.toNat :=
  ⟨⟨le_rfl, hal, hfree⟩, fun _ ha => ha.1⟩

/-- Behind an entry there is room for a page. -/
theorem Layout.free_page (h : s.Layout (pre ++ t :: post)) : s.Free (s.hi t) 4096 := by
  refine h.free_gap le_rfl fun x hx => ?_
  have hgap := h.gap x hx
  have ht := h.entry_self.hi_aligned
  have hx := (h.entry_head hx).aligned
  omega

end Lowest

end VirtualAddressMap

end Betelgeuse
